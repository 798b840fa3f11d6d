import SyncEngine.DriveJob.Descendants
import SyncEngine.DriveJob.Ends

/-! # A plan accounts for every listed entry

A plan of any requests holds each reachable directory once and each file listed in one
once, planned or skipped, and its names collide neither with each other nor with those
already there.
-/

namespace SyncEngine.DriveJob

open Collections List

variable {D K : Type}

/-! ## What a plan accounts for -/

def ItemPlan.uncounted (plan : ItemPlan D K) : ItemPlan D K :=
  { plan with dirs := plan.dirs.map (·.uncounted) }

open Classical in
/-- What holds of a plan and the requests it was made for. -/
structure Accounts (u : Unicode) (existing : Uuid → Option (List Name))
    (requests : List (PlanRequest D K)) (plan : ItemPlan D K) : Prop where
  outlined : Outlined requests plan.uncounted
  existingNames : ∀ uuid names, existing uuid = some names →
    ((plan.namesIn (.existing uuid)).map fun name => u.lower name.text).Nodup ∧
      ∀ name ∈ plan.namesIn (.existing uuid), u.lower name.text ∉ names.map u.lower
  plannedNames : ∀ k, ((plan.namesIn (.planned k)).map fun name => u.lower name.text).Nodup
  /-- Each directory counts what is planned below it, its bytes as far as 64 bits hold. -/
  counts : ∀ (k : Nat) dir, plan.dirs[k]? = some dir →
    let files := plan.files.filter fun file => LiesBelow plan.dirs k file.parent
    dir.descendantDirs = (plan.dirs.filter fun other => LiesBelow plan.dirs k other.parent).length ∧
      dir.descendantFiles = files.length ∧
      dir.descendantBytes.toNat = (files.map fun file => file.size.toNat).sum % 2 ^ 64
  totals : plan.totals.dirs = plan.dirs.length ∧ plan.totals.files = plan.files.length ∧
    plan.totals.bytes.toNat = (plan.files.map fun file => file.size.toNat).sum % 2 ^ 64

section Accounts

variable {u : Unicode} {mint : Nat → Uuid} {planner : ItemPlanner}
  {existing : Uuid → Option (List Name)} {requests : List (PlanRequest D K)}
  {destinations : Uuid → Option TakenNames} {plan : ItemPlan D K}

theorem map_uncounted {dirs : List (PlannedDir D)} (h : ∀ dir ∈ dirs, dir.Uncounted) :
    dirs.map (·.uncounted) = dirs := by
  refine (map_congr_left fun dir hdir => ?_).trans (map_id dirs)
  obtain ⟨hdirs, hfiles, hbytes⟩ := h dir hdir
  cases dir
  cases hdirs
  cases hfiles
  cases hbytes
  rfl

theorem namesIn_uncounted (parent : DestParent) : plan.uncounted.namesIn parent = plan.namesIn parent := by
  unfold ItemPlan.namesIn ItemPlan.uncounted
  rw [filter_map, map_map]
  rfl

theorem Outlined.parentIndex_lt (h : Outlined requests plan) {j p : Nat}
    (hp : parentIndex plan.dirs j = some p) : p < j := by
  obtain ⟨dir, hdir, hindex⟩ := Option.bind_eq_some_iff.mp hp
  cases hparent : dir.parent with
  | existing uuid =>
    rw [hparent] at hindex
    cases hindex
  | planned q =>
    rw [hparent] at hindex
    cases hindex
    exact h.parent_lt j dir p hdir hparent

theorem fill_uncounted (hcounts : ∀ dir ∈ plan.dirs, dir.Uncounted) (houtlined : Outlined requests plan) :
    plan.fillDescendantCounts.dirs.map (·.uncounted) = plan.dirs := by
  have hparents := parentIndex_congr (@foldl_addFile_uncounted D K plan.dirs plan.files)
  obtain ⟨hsame, -⟩ := @foldl_addDir D (plan.files.foldl addFile plan.dirs)
    (by rw [hparents]; exact fun j p => houtlined.parentIndex_lt)
    (List.range plan.dirs.length).reverse
  unfold ItemPlan.fillDescendantCounts
  rw [hsame, foldl_addFile_uncounted]
  exact map_uncounted hcounts

theorem accounts_of_planned (hregisters : Registers u existing planner)
    (houtlined : Outlined requests plan) {done : Nat} (hnamed : Named u planner done destinations plan)
    (hkept : ∀ uuid, destinations uuid = none → planner.destinations uuid = none) :
    Accounts u existing requests { plan.fillDescendantCounts with
      totals := ⟨plan.fillDescendantCounts.dirs.length, plan.fillDescendantCounts.files.length,
        (plan.fillDescendantCounts.files.map (·.size)).sum⟩ } := by
  have hdirs := fill_uncounted hnamed.uncounted houtlined
  have hnames : ∀ parent totals, ItemPlan.namesIn { plan.fillDescendantCounts with totals } parent =
      plan.namesIn parent := by
    intro parent totals
    rw [← namesIn_uncounted]
    unfold ItemPlan.uncounted ItemPlan.namesIn
    rw [hdirs]
    rfl
  have hparents : parentIndex plan.fillDescendantCounts.dirs = parentIndex plan.dirs := by
    refine parentIndex_congr ?_
    rw [hdirs]
    exact (map_uncounted hnamed.uncounted).symm
  constructor
  · unfold ItemPlan.uncounted
    rw [hdirs]
    exact ⟨houtlined.parent_lt, houtlined.reached, houtlined.distinct, houtlined.complete,
      houtlined.files, houtlined.skipped⟩
  · intro uuid names hexisting
    rw [hnames]
    rcases hregisters.destination uuid with ⟨hnone, -⟩ | ⟨names', first, hnames', hset, hnew⟩
    · rw [hexisting] at hnone
      cases hnone
    rw [hexisting] at hnames'
    cases hnames'
    cases htaken : destinations uuid with
    | none =>
      rw [hkept uuid htaken] at hset
      cases hset
    | some taken =>
      obtain ⟨-, first', hfirst, hkeys⟩ := hnamed.sets uuid taken htaken
      rw [hset] at hfirst
      cases hfirst
      have hnodup := hkeys.nodup_iff.mp taken.nodup
      refine ⟨hnodup.of_append_left, fun name hname hin => ?_⟩
      rw [← (new_spec hnew).2.1] at hin
      exact disjoint_of_nodup_append hnodup (mem_map_of_mem hname) hin
  · intro k
    rw [hnames]
    exact hnamed.planned k
  · intro k dir hk
    have hzero : ∀ k, countsAt plan.dirs k = 0 := by
      intro k
      unfold countsAt
      cases hget : plan.dirs[k]? with
      | none => rfl
      | some dir =>
        obtain ⟨hdirs, hfiles, hbytes⟩ := hnamed.uncounted dir (mem_of_getElem? hget)
        rw [Option.map_some, Option.getD_some, hdirs, hfiles, hbytes]
        rfl
    have hfill := counts_fill (fun j p => houtlined.parentIndex_lt) houtlined.below.2 hzero k
    have hat : countsAt plan.fillDescendantCounts.dirs k =
        (dir.descendantDirs, dir.descendantFiles, dir.descendantBytes) := by
      unfold countsAt
      rw [hk]
      rfl
    rw [hat] at hfill
    obtain ⟨hone, hrest⟩ := Prod.mk.inj hfill
    obtain ⟨htwo, hthree⟩ := Prod.mk.inj hrest
    have hbelow : LiesBelow plan.fillDescendantCounts.dirs k = LiesBelow plan.dirs k := by
      funext parent
      unfold LiesBelow
      rw [hparents]
    rw [hbelow]
    refine ⟨hone.trans ?_, htwo, ?_⟩
    · rw [← hdirs, filter_map, length_map]
      rw [hdirs]
      rfl
    rw [hthree]
    exact toNat_sum_sizes _
  · exact ⟨rfl, rfl, toNat_sum_sizes _⟩

end Accounts

/-! ## Plans -/

section Plan

variable {u : Unicode} {planner : ItemPlanner} {existing : Uuid → Option (List Name)}

section

variable (hregisters : Registers u existing planner)
include hregisters

theorem validate_spec (request : PlanRequest D K) :
    (Accepted existing request ∧ planner.validate request = .ok ()) ∨
      ¬ Accepted existing request ∧ planner.validate request = .error (.refused
        (if (existing request.destination).isSome then intoItself else unregistered)) := by
  unfold Accepted ItemPlanner.validate
  rcases hregisters.destination request.destination with
    ⟨hnone, hset⟩ | ⟨names, taken, hsome, hset, -⟩
  · rw [hnone, hset]
    exact Or.inr ⟨fun h => Bool.noConfusion h.1, rfl⟩
  rw [hsome, hset]
  cases hin : ItemPlanner.contains request.destination request.source with
  | false => exact Or.inl ⟨⟨rfl, rfl⟩, rfl⟩
  | true => exact Or.inr ⟨fun h => Bool.noConfusion h.2, rfl⟩

theorem validateAll_spec (requests : List (PlanRequest D K)) :
    ((∀ request ∈ requests, Accepted existing request) ∧
        requests.forM planner.validate = .ok ()) ∨
      ∃ request ∈ requests, ¬ Accepted existing request ∧ requests.forM planner.validate =
        .error (.refused (if (existing request.destination).isSome then intoItself else unregistered)) := by
  induction requests with
  | nil => exact Or.inl ⟨nofun, rfl⟩
  | cons request rest ih =>
    have hcons : (request :: rest).forM planner.validate =
        (planner.validate request >>= fun _ => rest.forM planner.validate) := rfl
    rw [hcons]
    rcases validate_spec hregisters request with ⟨haccepted, hok⟩ | ⟨hnot, herror⟩
    · rw [hok]
      rcases ih with ⟨hall, hrest⟩ | ⟨other, hother, hnot, hrest⟩
      · refine Or.inl ⟨fun other hother => ?_, hrest⟩
        rcases mem_cons.mp hother with rfl | hother
        · exact haccepted
        · exact hall other hother
      · exact Or.inr ⟨other, mem_cons_of_mem _ hother, hnot, hrest⟩
    rw [herror]
    exact Or.inr ⟨request, mem_cons_self, hnot, rfl⟩

theorem named_start (plan : ItemPlan D K)
    (hdirs : plan.dirs = []) (hfiles : plan.files = []) :
    Named u planner 0 planner.destinations plan := by
  have hnil : ∀ parent, plan.namesIn parent = [] := by
    intro parent
    unfold ItemPlan.namesIn
    rw [hdirs, hfiles]
    rfl
  refine ⟨fun uuid taken htaken => ?_, fun _ => id, fun k => ?_, fun uuid => ?_, ?_⟩
  · rcases hregisters.destination uuid with ⟨-, hnone⟩ | ⟨names, first, -, hset, hnew⟩
    · rw [htaken] at hnone
      cases hnone
    rw [htaken] at hset
    cases hset
    exact ⟨(Reached.new hnew).runsOk, taken, htaken, by rw [hnil]; exact List.Perm.refl _⟩
  · rw [hnil]
    exact nodup_nil
  · rw [hnil]
    exact Nat.le_refl 0
  rw [hdirs]
  exact nofun

end

end Plan

/-- What planning answers: a plan that accounts for what was requested, a refusal of a
request that is not accepted, or no plan where a set is asked for more than it can hold. -/
def Answered (u : Unicode) (existing : Uuid → Option (List Name)) (requests : List (PlanRequest D K)) :
    Except Halt (ItemPlan D K) → Prop
  | .ok plan => (∀ request ∈ requests, Accepted existing request) ∧ Accounts u existing requests plan
  | .error (.refused error) => ∃ request ∈ requests, ¬ Accepted existing request ∧
      error = if (existing request.destination).isSome then intoItself else unregistered
  | .error .aborted => (∀ request ∈ requests, Accepted existing request) ∧ ¬ Room existing requests
  | .error .exhausted => False

/-- Whatever is registered, listed and requested, planning comes to one answer, with
rounds enough for its names. It refuses a request that goes to no registered destination
or into itself. Otherwise its plan accounts for every listed entry: each reachable
directory is planned once, where it is listed first, each file listed in one is planned
or skipped once, and what was never reached is counted, listing by listing; names
collide with none in the same directory, and each directory counts what lies below it. -/
theorem plan_accounts {u : Unicode} {existing : Uuid → Option (List Name)} {planner : ItemPlanner}
    (h : Registers u existing planner) (mint : Nat → Uuid) (requests : List (PlanRequest D K)) :
    ∃ out, (∃ fuel₀, ∀ fuel ≥ fuel₀, planner.plan u fuel mint requests = out) ∧
      Answered u existing requests out := by
  unfold ItemPlanner.plan
  rcases validateAll_spec h requests with ⟨hall, hok⟩ | ⟨request, hin, hnot, herror⟩
  · have hsome : ∀ request ∈ requests, (planner.destinations request.destination).isSome := by
      intro request hin
      rcases h.destination request.destination with ⟨hnone, -⟩ | ⟨names, taken, -, hset, -⟩
      · have haccepted := (hall request hin).1
        rw [hnone] at haccepted
        cases haccepted
      rw [hset]
      rfl
    have houtlined : Outlined [] { ItemPlan.empty D K with
        unverifiedDestinations := planner.unverifiedDestinations } := outlined_nil rfl rfl rfl
    have hnamed := named_start h { ItemPlan.empty D K with
      unverifiedDestinations := planner.unverifiedDestinations } rfl rfl
    rw [hok]
    rcases @planRequests_ends D K u mint planner existing requests [] _ _ requests h (nil_append requests).symm hsome houtlined hnamed with
      ⟨state, n, hrun⟩ | ⟨hroom, n, hrun⟩
    · obtain ⟨destinations, plan⟩ := state
      obtain ⟨hplanned, hnames⟩ := planRequests_spec houtlined hnamed (hrun n (Nat.le_refl n))
      rw [nil_append] at hplanned
      refine ⟨.ok { plan.fillDescendantCounts with
        totals := ⟨plan.fillDescendantCounts.dirs.length, plan.fillDescendantCounts.files.length,
          (plan.fillDescendantCounts.files.map (·.size)).sum⟩ }, ⟨n, fun fuel hfuel => ?_⟩, hall,
        accounts_of_planned h hplanned hnames fun uuid hnone => ?_⟩
      · have hone := hrun fuel hfuel
        dsimp only [length_nil] at hone
        dsimp only [bind, Except.bind]
        rw [hone]
      by_contra hset
      have hkept := hnames.kept uuid (Option.isSome_iff_ne_none.mpr hset)
      rw [hnone] at hkept
      cases hkept
    refine ⟨.error .aborted, ⟨n, fun fuel hfuel => ?_⟩, hall, hroom⟩
    have hone := hrun fuel hfuel
    dsimp only [length_nil] at hone
    dsimp only [bind, Except.bind]
    rw [hone]
  refine ⟨.error (.refused (if (existing request.destination).isSome then intoItself else unregistered)),
    ⟨0, fun fuel _ => ?_⟩, request, hin, hnot, rfl⟩
  rw [herror]
  rfl

def orphan : SourceDir Unit := ⟨3, some "orphan".toList, none, .default, ()⟩

def orphanTwice : PlanRequest Unit Unit where
  source := .dir ⟨2, some "root".toList, none, .blue, ()⟩ [⟨9, orphan⟩, ⟨9, orphan⟩] []
  destination := 1
  name := none

def oneExisting : Uuid → Option (List Name) := Function.update (fun _ => none) 1 (some ["a.txt".toList])

def onePlanner : ItemPlanner :=
  ⟨Function.update (fun _ => none) 1 (some oneTaken), []⟩

def mintCounted (n : Nat) : Uuid := BitVec.ofNat 128 n

/-- What the plan of the orphan listed twice skips, and the directories never reached. -/
def orphanSkipped : Option (List SkippedEntry × List Uuid) :=
  match onePlanner.plan caronUnicode 4 mintCounted [orphanTwice] with
  | .ok plan => some (plan.skipped,
      ([orphan, orphan].map (·.uuid)).dedup.filter fun uuid => uuid ∉ plan.dirs.map (·.sourceUuid))
  | .error _ => none

/-- Every listing of a directory never reached is counted, so a directory listed twice
counts twice. -/
theorem unreachable_counts_listings :
    orphanSkipped = some ([⟨"root".toList, 0, .unreachable 2⟩], [3]) := by
  decide +kernel

theorem plan_accounts_orphan :
    ∃ out, (∃ fuel₀, ∀ fuel ≥ fuel₀,
        onePlanner.plan caronUnicode fuel mintCounted [orphanTwice] = out) ∧
      Answered caronUnicode oneExisting [orphanTwice] out := by
  have h : Registers caronUnicode oneExisting onePlanner := .addDestination .empty rfl
  exact plan_accounts h mintCounted [orphanTwice]

end SyncEngine.DriveJob
