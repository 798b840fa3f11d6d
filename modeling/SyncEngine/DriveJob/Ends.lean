import SyncEngine.DriveJob.Named

/-! # Planning ends

Every part of a plan comes to an answer, with rounds enough for its names: only a
directory that is to hold more names than a set can take stops it.
-/

namespace SyncEngine.DriveJob

open Collections List

variable {D K : Type} {u : Unicode} {mint : Nat → Uuid} {taken : TakenNames} {request : Nat}
  {parent : DestParent} {preferred : Option Name} {path : Path} {topLevel : Bool}

theorem Ends.mono {α : Type} {full full' : Prop} {f : Nat → Except Halt α} (h : Ends full f)
    (himp : full → full') : Ends full' f :=
  h.imp id fun ⟨hfull, hrun⟩ => ⟨himp hfull, hrun⟩

section

variable (hruns : RunsOk taken)
include hruns

theorem pushDir_ends {plan : ItemPlan D K} {dir : SourceDir D} :
    Ends (taken.keys.length = maxKeys) fun fuel =>
      plan.pushDir u fuel mint request dir parent preferred taken path topLevel := by
  exact (allocateName_ends hruns shape_dir).bind fun _ _ => ends_ok _

theorem planFile_ends {plan : ItemPlan D K} {file : RemoteFileType K} :
    Ends (taken.keys.length = maxKeys) fun fuel =>
      plan.planFile u fuel mint request file parent preferred taken path topLevel := by
  unfold ItemPlan.planFile
  by_cases hread : file.readable
  · simp only [if_pos hread]
    exact (allocateName_ends hruns shape_file).bind fun _ _ => ends_ok _
  simp only [if_neg hread]
  exact ends_ok _

theorem planChildDirs_ends {dirs : List (SourceDir D)} {walk : TreeWalk D K} :
    Ends (maxKeys < taken.keys.length + dirs.length) fun fuel =>
      planChildDirs u fuel mint request parent path dirs walk taken := by
  induction dirs generalizing walk taken with
  | nil => exact ends_ok _
  | cons dir rest ih =>
    unfold planChildDirs
    rw [length_cons]
    by_cases hseen : dir.uuid ∈ walk.visited
    · simp only [if_pos hseen]
      exact (ih hruns).mono fun h => by omega
    simp only [if_neg hseen]
    refine ((pushDir_ends hruns).mono fun h => by omega).bind fun out hout => ?_
    obtain ⟨fuel, hout⟩ := hout
    obtain ⟨index, plan, next⟩ := out
    obtain ⟨-, planned, renamed, -, -, -, hgives⟩ := pushDir_spec hruns hout
    refine (ih hgives.runs).mono fun h => ?_
    rw [hgives.keys, length_cons] at h
    omega

theorem planChildFiles_ends {files : List (RemoteFileType K)} {plan : ItemPlan D K} :
    Ends (maxKeys < taken.keys.length + files.length) fun fuel =>
      planChildFiles u fuel mint request parent path files plan taken := by
  induction files generalizing plan taken with
  | nil => exact ends_ok _
  | cons file rest ih =>
    rw [length_cons]
    refine ((planFile_ends hruns).mono fun h => by omega).bind fun out hout => ?_
    obtain ⟨fuel, hout⟩ := hout
    obtain ⟨index, middle, next⟩ := out
    rcases planFile_spec hruns hout with ⟨-, -, planned, renamed, -, -, hgives⟩ | ⟨-, -, -, rfl⟩
    · refine (ih hgives.runs).mono fun h => ?_
      rw [hgives.keys, length_cons] at h
      omega
    · exact (ih hruns).mono fun h => by omega

end

/-! ## One tree -/

section Tree

variable {root : SourceDir D} {dirs : List (Listed (SourceDir D))}
  {files : List (Listed (RemoteFileType K))} {destination : DestParent}
  {before : List (PlannedDir D)} {start : ItemPlan D K} {found : List (SourceDir D × Option Nat)}
  {new : List (PlannedDir D)} {done : Nat} {walk : TreeWalk D K}

theorem length_takeChildren {T : Type} (parent : Uuid) (listing : List (Listed T)) :
    (takeChildren parent listing).1.length ≤ listing.length := by
  unfold takeChildren
  rw [length_map]
  exact length_filter_le _ _

theorem Walked.ends {rounds : Nat} (h : Walked u request root dirs files destination before start found new done walk) :
    Ends (maxKeys < dirs.length + files.length) fun fuel =>
      walkQueue u fuel mint request rounds walk := by
  induction rounds generalizing found new done walk with
  | zero => exact ends_ok _
  | succ rounds ih =>
    unfold walkQueue
    cases hqueue : walk.queue with
    | nil => exact ends_ok _
    | cons head queue =>
      obtain ⟨uuid, index⟩ := head
      obtain ⟨dir, -, -, -, hdir, -⟩ := h.head hqueue
      dsimp only
      rw [hdir]
      have hdirsLe : (takeChildren uuid walk.childDirs).1.length ≤ dirs.length := by
        refine (length_takeChildren uuid walk.childDirs).trans ?_
        rw [h.childDirs]
        exact length_filter_le _ _
      have hfilesLe : (takeChildren uuid walk.childFiles).1.length ≤ files.length := by
        refine (length_takeChildren uuid walk.childFiles).trans ?_
        rw [h.childFiles]
        exact length_filter_le _ _
      have hnil : TakenNames.empty.keys = [] := rfl
      refine ((planChildDirs_ends runsOk_empty).mono fun hfull => ?_).bind fun out hout => ?_
      · rw [hnil, length_nil] at hfull
        omega
      obtain ⟨fuel, hdirs⟩ := hout
      obtain ⟨walk₁, taken₁⟩ := out
      obtain ⟨more, hmore⟩ := planChildDirs_spec runsOk_empty hdirs
      have hmoreLe : more.length ≤ (takeChildren uuid walk.childDirs).1.length := by
        have hlength := congrArg List.length hmore.outlines
        rw [length_map, length_map] at hlength
        rw [hlength]
        exact length_fresh_le _ _
      have hkeys := congrArg List.length hmore.keys
      rw [hnil, append_nil, length_reverse, length_map] at hkeys
      have hleft := hmore.childFiles
      dsimp only at hleft
      refine ((planChildFiles_ends hmore.runs).mono fun hfull => ?_).bind fun out hout => ?_
      · rw [hleft] at hfull
        omega
      obtain ⟨fuel', hfiles⟩ := hout
      obtain ⟨plan₂, taken₂⟩ := out
      obtain ⟨found', new', hnext⟩ := h.step hqueue hdir hdirs hfiles
      exact ih hnext

theorem planTree_ends {plan : ItemPlan D K} {destination : Uuid} (hruns : RunsOk taken) (hbelow : Below plan) :
    Ends (taken.keys.length = maxKeys ∨ maxKeys < dirs.length + files.length) fun fuel =>
      plan.planTree u fuel mint request root dirs files (.existing destination) preferred taken := by
  refine ((pushDir_ends hruns).mono Or.inl).bind fun out hout => ?_
  obtain ⟨fuel, hpush⟩ := hout
  obtain ⟨rootIndex, start, taken₁⟩ := out
  obtain ⟨rfl, planned, renamed, rfl, hbare, huncounted, -⟩ := pushDir_spec hruns hpush
  have hwalked := @walked_start D K u request root dirs files (.existing destination) plan.dirs planned
    { plan with dirs := plan.dirs ++ [planned], renamed } hbare huncounted rfl
    ⟨below_pushed hbelow hbare, hbelow.2⟩
  refine (hwalked.ends.mono Or.inr).bind fun walk _ => ?_
  by_cases hcount : 0 < walk.unreachable.1
  · simp only [if_pos hcount]
    exact ends_ok _
  simp only [if_neg hcount]
  exact ends_ok _

end Tree

/-! ## All requests -/

/-- Whether no set is asked to hold more names than it can. -/
def Room (existing : Uuid → Option (List Name)) (requests : List (PlanRequest D K)) : Prop :=
  (∀ uuid names, existing uuid = some names → names.length + requests.length ≤ maxKeys) ∧
    ∀ request ∈ requests, ∀ root dirs files, request.source = .dir root dirs files →
      dirs.length + files.length ≤ maxKeys

/-- What a request must be for a plan to be made: its destination is registered, and lies
outside its source. -/
def Accepted (existing : Uuid → Option (List Name)) (request : PlanRequest D K) : Prop :=
  (existing request.destination).isSome = true ∧
    ItemPlanner.contains request.destination request.source = false

section Requests

variable {planner : ItemPlanner} {existing : Uuid → Option (List Name)}
  {all requests : List (PlanRequest D K)} {destinations : Uuid → Option TakenNames}
  {plan : ItemPlan D K}

theorem planRequest_ends {request : PlanRequest D K} (hregisters : Registers u existing planner)
    (hin : request ∈ all) (hsome : (planner.destinations request.destination).isSome)
    (hshort : requests.length < all.length) (houtlined : Outlined requests plan)
    (hnamed : Named u planner requests.length destinations plan) :
    Ends (¬ Room existing all) fun fuel =>
      ItemPlanner.planRequest u fuel mint (destinations, plan) (request, requests.length) := by
  obtain ⟨taken, htaken⟩ := Option.isSome_iff_exists.mp (hnamed.kept _ hsome)
  obtain ⟨hruns, first, hfirst, hkeys⟩ := hnamed.sets _ taken htaken
  -- the destination's set holds its registered names and at most one for each request
  have hfull : taken.keys.length = maxKeys → ¬ Room existing all := by
    intro hlength hroom
    rcases hregisters.destination request.destination with ⟨-, hnone⟩ | ⟨names, first', hnames, hset, hnew⟩
    · rw [hfirst] at hnone
      cases hnone
    rw [hfirst] at hset
    cases hset
    have hle := hroom.1 _ names hnames
    have hfew := hnamed.few request.destination
    have hperm := hkeys.length_eq
    rw [length_append, length_map] at hperm
    have hfirstLe := (new_spec hnew).2.2
    omega
  unfold ItemPlanner.planRequest
  dsimp only
  rw [htaken]
  cases hsource : request.source with
  | file file => exact ((planFile_ends hruns).mono hfull).bind fun _ _ => ends_ok _
  | dir root dirs files =>
    refine ((planTree_ends hruns houtlined.below).mono ?_).bind fun _ _ => ends_ok _
    rintro (hlength | hmany)
    · exact hfull hlength
    intro hroom
    have hle := hroom.2 request hin root dirs files hsource
    omega

theorem planRequests_ends {rest : List (PlanRequest D K)} (hregisters : Registers u existing planner)
    (hall : all = requests ++ rest) (hsome : ∀ request ∈ all, (planner.destinations request.destination).isSome)
    (houtlined : Outlined requests plan) (hnamed : Named u planner requests.length destinations plan) :
    Ends (¬ Room existing all) fun fuel =>
      (rest.zipIdx requests.length).foldlM (ItemPlanner.planRequest u fuel mint) (destinations, plan) := by
  induction rest generalizing requests destinations plan with
  | nil => exact ends_ok _
  | cons request rest ih =>
    have hin : request ∈ all := by
      rw [hall]
      exact mem_append_right _ mem_cons_self
    have hshort : requests.length < all.length := by
      rw [hall, length_append, length_cons]
      omega
    simp only [zipIdx_cons, foldlM_cons]
    refine (planRequest_ends hregisters hin (hsome request hin) hshort houtlined hnamed).bind
      fun state hone => ?_
    obtain ⟨fuel, hone⟩ := hone
    obtain ⟨destinations₁, plan₁⟩ := state
    obtain ⟨houtlined₁, hnamed₁⟩ := planRequest_spec houtlined hnamed hone
    have hlength : requests.length + 1 = (requests ++ [request]).length := by simp
    rw [hlength]
    exact ih (by rw [hall, append_assoc, singleton_append]) houtlined₁ hnamed₁

end Requests

end SyncEngine.DriveJob
