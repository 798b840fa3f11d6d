import SyncEngine.DriveJob.TreeWalk

/-! # What a plan of requests holds

Requests are planned in order, each behind those before it. Their trees keep apart: a
directory, file or skipped entry is found in the plan under the request it belongs to.
-/

namespace SyncEngine.DriveJob

open Collections List

variable {D K : Type}

/-! ## One tree -/

/-- What planning a tree into an existing directory adds to a plan. -/
structure TreePlanned (u : Unicode) (request : Nat) (root : SourceDir D)
    (dirs : List (Listed (SourceDir D))) (files : List (Listed (RemoteFileType K)))
    (destination : Uuid) (plan plan' : ItemPlan D K) (taken taken' : TakenNames)
    (found : List (SourceDir D × Option Nat)) (new : List (PlannedDir D))
    (newFiles : List (PlannedFile K)) : Prop where
  searched : Searched SourceDir.uuid (childrenOf dirs) root found found.length
  length : new.length = found.length
  placed : ∀ (k : Nat) dir o, found[k]? = some (dir, o) → ∃ planned, new[k]? = some planned ∧
    Places request plan.dirs.length (.existing destination) new dir planned o
  uncounted : ∀ dir ∈ new, dir.Uncounted
  grown : ∃ renamed, plan' = { plan with
    dirs := plan.dirs ++ new, files := plan.files ++ newFiles, renamed
    skipped := plan.skipped ++ ((new.zipIdx plan.dirs.length).flatMap (skipsUnder files) ++
      unreached root dirs files (new.map (·.sourceUuid))) }
  outlines : newFiles.map (·.outline) =
    (new.zipIdx plan.dirs.length).flatMap (filesUnder request files)
  names : ∀ k, plan.dirs.length ≤ k →
    ((plan'.namesIn (.planned k)).map fun name => u.lower name.text).Nodup
  others : ∀ parent, parent ≠ .existing destination → (∀ k, parent ≠ .planned (plan.dirs.length + k)) →
    plan'.namesIn parent = plan.namesIn parent
  given : ∃ name, Gives u taken name taken' ∧
    (plan'.namesIn (.existing destination)).Perm (name :: plan.namesIn (.existing destination))

section Tree

variable {u : Unicode} {fuel : Nat} {mint : Nat → Uuid} {request : Nat} {root : SourceDir D}
  {dirs : List (Listed (SourceDir D))} {files : List (Listed (RemoteFileType K))}
  {destination : Uuid} {preferred : Option Name} {plan plan' : ItemPlan D K}
  {taken taken' : TakenNames} {index : Nat}

/-- Nothing is planned in a directory that is not planned yet. -/
def Below (plan : ItemPlan D K) : Prop :=
  (∀ dir ∈ plan.dirs, ∀ p, dir.parent = .planned p → p < plan.dirs.length) ∧
    ∀ file ∈ plan.files, ∀ p, file.parent = .planned p → p < plan.dirs.length

theorem namesIn_eq_nil {parent : DestParent} (hdirs : ∀ dir ∈ plan.dirs, dir.parent ≠ parent)
    (hfiles : ∀ file ∈ plan.files, file.parent ≠ parent) : plan.namesIn parent = [] := by
  have hnil := @namesIn_of_new D K plan plan [] [] (by simp) (by simp) parent (by simp) (by simp)
    hdirs hfiles
  simpa using hnil

theorem below_pushed {parent : Uuid} {path : Path} {planned : PlannedDir D} (hbelow : Below plan)
    (hbare : planned.outline = bareDir request root (.existing parent) path) :
    ∀ dir ∈ plan.dirs ++ [planned], ∀ p, dir.parent = .planned p → p < plan.dirs.length := by
  intro dir hdir p hp
  rcases mem_append.mp hdir with hdir | hdir
  · exact hbelow.1 dir hdir p hp
  have hparent : planned.parent = .existing parent := congrArg PlannedDir.parent hbare
  rw [mem_singleton.mp hdir, hparent] at hp
  cases hp

theorem planTree_spec (hruns : RunsOk taken) (hbelow : Below plan)
    (h : plan.planTree u fuel mint request root dirs files (.existing destination) preferred taken =
      .ok (index, plan', taken')) :
    ∃ found new newFiles, TreePlanned u request root dirs files destination plan plan' taken taken'
      found new newFiles := by
  unfold ItemPlan.planTree at h
  dsimp only [bind, Except.bind] at h
  split at h
  · cases h
  rename_i out hpush
  obtain ⟨rootIndex, start, taken₁⟩ := out
  obtain ⟨rfl, planned, renamed, rfl, hbare, huncounted, hgives⟩ := pushDir_spec hruns hpush
  split at h
  · cases h
  rename_i walk hrun
  have hwalked := @walked_start D K u request root dirs files (.existing destination) plan.dirs planned
    { plan with dirs := plan.dirs ++ [planned], renamed } hbare huncounted rfl
    ⟨below_pushed hbelow hbare, hbelow.2⟩
  obtain ⟨found, new, hdone⟩ := hwalked.run (by omega) hrun
  obtain ⟨newFiles, renamed', hplan, houtlines⟩ := hdone.plan
  have htake : (new.zipIdx plan.dirs.length).take found.length = new.zipIdx plan.dirs.length :=
    take_of_length_le (by rw [length_zipIdx, hdone.length])
  rw [htake] at hplan houtlines
  have hresult : plan' = { walk.plan with
      skipped := walk.plan.skipped ++ unreached root dirs files (new.map (·.sourceUuid)) } ∧
      taken₁ = taken' := by
    rw [hdone.unreachable] at h
    unfold unreached
    split at h
    · rename_i hcount
      rw [if_pos hcount]
      cases h
      exact ⟨rfl, rfl⟩
    rename_i hcount
    rw [if_neg hcount, append_nil]
    cases h
    exact ⟨rfl, rfl⟩
  obtain ⟨rfl, rfl⟩ := hresult
  refine ⟨found, new, newFiles, hdone.searched, hdone.length, hdone.placed, hdone.uncounted,
    ⟨renamed', ?_⟩, houtlines, ?_, ?_, planned.name, hgives, ?_⟩
  · rw [hplan]
    simp
  · intro k hk
    obtain ⟨j, rfl⟩ := Nat.exists_eq_add_of_le hk
    rcases lt_or_ge j found.length with hlt | hge
    · exact hdone.names j hlt
    have hnil : walk.plan.namesIn (.planned (plan.dirs.length + j)) = [] := by
      refine namesIn_eq_nil (fun dir hdir heq => ?_) fun file hfile heq => ?_
      · have := hdone.below.1 dir hdir _ heq
        omega
      have := hdone.below.2 file hfile _ heq
      omega
    change ((walk.plan.namesIn _).map _).Nodup
    rw [hnil]
    exact nodup_nil
  · intro parent hparent hnew
    refine (hdone.others parent hnew).trans ?_
    refine @namesIn_append D K plan _ [planned] [] rfl (by simp) parent (.existing destination) ?_
      (by simp) hparent
    intro dir hdir
    rw [mem_singleton.mp hdir]
    exact congrArg PlannedDir.parent hbare
  have hsame := hdone.others (.existing destination) fun k heq => by cases heq
  change (walk.plan.namesIn _).Perm _
  rw [hsame]
  have hparent : planned.parent = .existing destination := congrArg PlannedDir.parent hbare
  unfold ItemPlan.namesIn
  rw [filter_append, filter_singleton, hparent]
  simp [perm_middle]

end Tree

/-! ## What belongs to a request -/

/-- The directories planned for a request, with where they are in the plan. -/
def dirsOf (dirs : List (PlannedDir D)) (request : Nat) : List (PlannedDir D × Nat) :=
  dirs.zipIdx.filter fun placed => placed.1.request = request

/-- The files a request's plan holds, in the order they are planned. -/
def filesOf (planned : List (PlannedDir D)) (indexed : PlanRequest D K × Nat) : List (PlannedFile K) :=
  match indexed.1.source with
  | .file file =>
    if file.readable then
      [bareFile indexed.2 file (.existing indexed.1.destination) (pathSegment file.name file.uuid)]
    else []
  | .dir _ _ files => (dirsOf planned indexed.2).flatMap (filesUnder indexed.2 files)

/-- The entries a request's plan skips: files that cannot be read, and in one entry all
that was never reached. -/
def skipsOf (planned : List (PlannedDir D)) (indexed : PlanRequest D K × Nat) : List SkippedEntry :=
  match indexed.1.source with
  | .file file =>
    if file.readable then [] else [skippedFile file (pathSegment file.name file.uuid)]
  | .dir root dirs files =>
    (dirsOf planned indexed.2).flatMap (skipsUnder files) ++
      unreached root dirs files ((dirsOf planned indexed.2).map (·.1.sourceUuid))

/-- Whether a listing lists a directory in another. -/
def ListsIn (dirs : List (Listed (SourceDir D))) (parent uuid : Uuid) : Prop :=
  ∃ listed ∈ dirs, listed.parent = parent ∧ listed.item.uuid = uuid

def Reachable (dirs : List (Listed (SourceDir D))) : Uuid → Uuid → Prop :=
  Relation.ReflTransGen (ListsIn dirs)

/-- How a planned directory was reached: it is its request's root, or it is the first
listing of its uuid in the first directory of the request that lists it. -/
inductive FirstReached (requests : List (PlanRequest D K)) (planned : List (PlannedDir D))
    (dir : PlannedDir D) : Prop where
  | root {request : PlanRequest D K} {root : SourceDir D} {dirs : List (Listed (SourceDir D))}
      {files : List (Listed (RemoteFileType K))}
      (hrequest : requests[dir.request]? = some request) (hsource : request.source = .dir root dirs files)
      (outline : dir.outline = bareDir dir.request root (.existing request.destination)
        (pathSegment root.name root.uuid))
  | child {request : PlanRequest D K} {root : SourceDir D} {dirs : List (Listed (SourceDir D))}
      {files : List (Listed (RemoteFileType K))} {p : Nat} {above : PlannedDir D} {listed : SourceDir D}
      (hrequest : requests[dir.request]? = some request) (hsource : request.source = .dir root dirs files)
      (habove : planned[p]? = some above) (same : above.request = dir.request)
      (first : (childrenOf dirs above.sourceUuid).find? (fun other => other.uuid = dir.sourceUuid) =
        some listed)
      (outline : dir.outline = bareDir dir.request listed (.planned p)
        (childPath above.sourcePath listed.name listed.uuid))
      (earliest : ∀ q < p, ∀ other, planned[q]? = some other → other.request = dir.request →
        dir.sourceUuid ∉ (childrenOf dirs other.sourceUuid).map (·.uuid))

/-- What a plan holds of its requests, up to the names. -/
structure Outlined (requests : List (PlanRequest D K)) (plan : ItemPlan D K) : Prop where
  parent_lt : ∀ (k : Nat) dir p, plan.dirs[k]? = some dir → dir.parent = .planned p → p < k
  reached : ∀ dir ∈ plan.dirs, FirstReached requests plan.dirs dir
  distinct : ∀ i, ((dirsOf plan.dirs i).map (·.1.sourceUuid)).Nodup
  complete : ∀ (i : Nat) request root dirs files, requests[i]? = some request →
    request.source = .dir root dirs files → ∀ uuid,
      uuid ∈ (dirsOf plan.dirs i).map (·.1.sourceUuid) ↔ Reachable dirs root.uuid uuid
  files : plan.files.map (·.outline) = requests.zipIdx.flatMap (filesOf plan.dirs)
  skipped : plan.skipped = requests.zipIdx.flatMap (skipsOf plan.dirs)

section Outlined

variable {requests : List (PlanRequest D K)} {plan plan' : ItemPlan D K}

theorem FirstReached.request_lt {planned : List (PlannedDir D)} {dir : PlannedDir D}
    (h : FirstReached requests planned dir) : dir.request < requests.length := by
  cases h with
  | root hrequest _ _ => exact (List.getElem?_eq_some_iff.mp hrequest).choose
  | child hrequest _ _ _ _ _ _ => exact (List.getElem?_eq_some_iff.mp hrequest).choose

theorem Outlined.below (h : Outlined requests plan) : Below plan := by
  constructor
  · intro dir hdir p hp
    obtain ⟨k, hk⟩ := mem_iff_getElem?.mp hdir
    have hlt : k < plan.dirs.length := (List.getElem?_eq_some_iff.mp hk).choose
    exact (h.parent_lt k dir p hk hp).trans hlt
  intro file hfile p hp
  have hin : file.outline ∈ plan.files.map (·.outline) := mem_map_of_mem hfile
  rw [h.files] at hin
  obtain ⟨indexed, -, hin⟩ := mem_flatMap.mp hin
  unfold filesOf at hin
  split at hin
  · split at hin
    · have heq := congrArg PlannedFile.parent (mem_singleton.mp hin)
      have hsame : file.parent = .existing indexed.1.destination := heq
      rw [hsame] at hp
      cases hp
    · cases hin
  obtain ⟨placed, hplaced, hin⟩ := mem_flatMap.mp hin
  obtain ⟨source, -, heq⟩ := mem_map.mp hin
  have hsame : file.parent = .planned placed.2 := (congrArg PlannedFile.parent heq).symm
  rw [hsame] at hp
  cases hp
  have hzip := mem_zipIdx_iff_getElem?.mp (mem_filter.mp hplaced).1
  exact (List.getElem?_eq_some_iff.mp hzip).choose

theorem outlined_nil (hdirs : plan.dirs = []) (hfiles : plan.files = []) (hskipped : plan.skipped = []) :
    Outlined [] plan := by
  refine ⟨?_, ?_, ?_, ?_, ?_, hskipped⟩
  · rw [hdirs]
    exact nofun
  · rw [hdirs]
    exact nofun
  · rw [hdirs]
    exact fun _ => nodup_nil
  · exact nofun
  rw [hfiles]
  rfl

theorem dirsOf_append_of_ne {dirs new : List (PlannedDir D)} {i : Nat}
    (hnew : ∀ dir ∈ new, dir.request ≠ i) : dirsOf (dirs ++ new) i = dirsOf dirs i := by
  unfold dirsOf
  rw [zipIdx_append, filter_append]
  have hnone : ((new.zipIdx (0 + dirs.length)).filter fun placed => placed.1.request = i) = [] := by
    rw [filter_eq_nil_iff]
    intro placed hplaced
    have hin : placed.1 ∈ new := by
      have := mem_map_of_mem (f := Prod.fst) hplaced
      rwa [zipIdx_map_fst] at this
    simpa using hnew placed.1 hin
  rw [hnone, append_nil]

theorem dirsOf_append_of_eq {dirs new : List (PlannedDir D)} {i : Nat}
    (hold : ∀ dir ∈ dirs, dir.request ≠ i) (hnew : ∀ dir ∈ new, dir.request = i) :
    dirsOf (dirs ++ new) i = new.zipIdx dirs.length := by
  have hnone : dirsOf dirs i = [] := by
    unfold dirsOf
    rw [filter_eq_nil_iff]
    intro placed hplaced
    have hin : placed.1 ∈ dirs := by
      have := mem_map_of_mem (f := Prod.fst) hplaced
      rwa [zipIdx_map_fst] at this
    simpa using hold placed.1 hin
  unfold dirsOf at hnone ⊢
  rw [zipIdx_append, filter_append, hnone, nil_append, Nat.zero_add, filter_eq_self]
  intro placed hplaced
  have hin : placed.1 ∈ new := by
    have := mem_map_of_mem (f := Prod.fst) hplaced
    rwa [zipIdx_map_fst] at this
  simpa using hnew placed.1 hin

theorem FirstReached.append {planned new : List (PlannedDir D)} {dir : PlannedDir D}
    (h : FirstReached requests planned dir) (request : PlanRequest D K) :
    FirstReached (requests ++ [request]) (planned ++ new) dir := by
  have hold : ∀ {r : PlanRequest D K}, requests[dir.request]? = some r →
      (requests ++ [request])[dir.request]? = some r := by
    intro r hr
    rw [List.getElem?_append_left (List.getElem?_eq_some_iff.mp hr).choose, hr]
  cases h with
  | root hrequest hsource outline => exact .root (hold hrequest) hsource outline
  | @child r root dirs files p above listed hrequest hsource habove same first outline earliest =>
    have hlt : p < planned.length := (List.getElem?_eq_some_iff.mp habove).choose
    refine .child (hold hrequest) hsource ?_ same first outline fun q hq other hother => ?_
    · rw [getElem?_append_left hlt, habove]
    rw [getElem?_append_left (by omega)] at hother
    exact earliest q hq other hother

theorem Outlined.append (h : Outlined requests plan) {request : PlanRequest D K}
    {new : List (PlannedDir D)} {newFiles : List (PlannedFile K)} {newSkips : List SkippedEntry}
    (hdirs : plan'.dirs = plan.dirs ++ new) (hfiles : plan'.files = plan.files ++ newFiles)
    (hskipped : plan'.skipped = plan.skipped ++ newSkips) (hnew : ∀ dir ∈ new, dir.request = requests.length)
    (hparent : ∀ (k : Nat) dir p, new[k]? = some dir → dir.parent = .planned p → p < plan.dirs.length + k)
    (hreached : ∀ dir ∈ new, FirstReached (requests ++ [request]) (plan.dirs ++ new) dir)
    (hdistinct : (new.map (·.sourceUuid)).Nodup)
    (hcomplete : ∀ root dirs files, request.source = .dir root dirs files → ∀ uuid,
      uuid ∈ new.map (·.sourceUuid) ↔ Reachable dirs root.uuid uuid)
    (houtlines : newFiles.map (·.outline) = filesOf (plan.dirs ++ new) (request, requests.length))
    (hskips : newSkips = skipsOf (plan.dirs ++ new) (request, requests.length)) :
    Outlined (requests ++ [request]) plan' := by
  have hold : ∀ dir ∈ plan.dirs, dir.request ≠ requests.length := fun dir hdir heq =>
    absurd (h.reached dir hdir).request_lt (by omega)
  have hlast : dirsOf (plan.dirs ++ new) requests.length = new.zipIdx plan.dirs.length :=
    dirsOf_append_of_eq hold hnew
  have hkept : ∀ i, i ≠ requests.length → dirsOf (plan.dirs ++ new) i = dirsOf plan.dirs i :=
    fun i hi => dirsOf_append_of_ne fun dir hdir heq => hi (heq.symm.trans (hnew dir hdir))
  have huuids : (new.zipIdx plan.dirs.length).map (·.1.sourceUuid) = new.map (·.sourceUuid) := by
    have hfst := congrArg (List.map PlannedDir.sourceUuid)
      (zipIdx_map_fst plan.dirs.length new)
    rwa [map_map] at hfst
  have hsplit : (requests ++ [request]).zipIdx = requests.zipIdx ++ [(request, requests.length)] := by
    rw [zipIdx_append, Nat.zero_add]
    rfl
  have hindex : ∀ indexed ∈ requests.zipIdx, indexed.2 ≠ requests.length := by
    intro indexed hin heq
    have hget := mem_zipIdx_iff_getElem?.mp hin
    rw [heq, getElem?_eq_none le_rfl] at hget
    cases hget
  constructor
  · intro k dir p hk hp
    rw [hdirs] at hk
    by_cases hlt : k < plan.dirs.length
    · rw [getElem?_append_left hlt] at hk
      exact h.parent_lt k dir p hk hp
    rw [getElem?_append_right (Nat.le_of_not_lt hlt)] at hk
    have := hparent _ dir p hk hp
    omega
  · intro dir hdir
    rw [hdirs] at hdir ⊢
    rcases mem_append.mp hdir with hdir | hdir
    · exact (h.reached dir hdir).append request
    · exact hreached dir hdir
  · intro i
    rw [hdirs]
    by_cases hi : i = requests.length
    · rw [hi, hlast, huuids]
      exact hdistinct
    rw [hkept i hi]
    exact h.distinct i
  · intro i other root dirs files hi hsource uuid
    rw [hdirs]
    by_cases heq : i = requests.length
    · rw [heq, getElem?_append_right le_rfl, Nat.sub_self] at hi
      cases hi
      rw [heq, hlast, huuids]
      exact hcomplete root dirs files hsource uuid
    have hlt : i < requests.length := by
      have hlt : i < (requests ++ [request]).length := (List.getElem?_eq_some_iff.mp hi).choose
      rw [length_append, length_singleton] at hlt
      omega
    rw [getElem?_append_left hlt] at hi
    rw [hkept i heq]
    exact h.complete i other root dirs files hi hsource uuid
  · rw [hdirs, hfiles, map_append, houtlines, h.files, hsplit, flatMap_append,
      flatMap_singleton]
    congr 1
    refine flatMap_congr fun indexed hin => ?_
    unfold filesOf
    rw [hkept indexed.2 (hindex indexed hin)]
  rw [hdirs, hskipped, hskips, h.skipped, hsplit, flatMap_append, flatMap_singleton]
  congr 1
  refine flatMap_congr fun indexed hin => ?_
  unfold skipsOf
  rw [hkept indexed.2 (hindex indexed hin)]

theorem lists_iff {dirs : List (Listed (SourceDir D))} {parent uuid : Uuid} :
    Lists SourceDir.uuid (childrenOf dirs) parent uuid ↔ ListsIn dirs parent uuid := by
  constructor
  · rintro ⟨dir, hdir, rfl⟩
    obtain ⟨listed, hlisted, rfl⟩ := mem_map.mp hdir
    obtain ⟨hin, hparent⟩ := mem_filter.mp hlisted
    exact ⟨listed, hin, of_decide_eq_true hparent, rfl⟩
  rintro ⟨listed, hin, hparent, rfl⟩
  exact ⟨listed.item, mem_map_of_mem (mem_filter.mpr ⟨hin, decide_eq_true hparent⟩), rfl⟩

theorem Places.parent {request first : Nat} {destination : DestParent} {new : List (PlannedDir D)}
    {dir : SourceDir D} {planned : PlannedDir D} {o : Option Nat}
    (h : Places request first destination new dir planned o) :
    planned.request = request ∧
      planned.parent = (o.map fun p => DestParent.planned (first + p)).getD destination := by
  cases o with
  | none => exact ⟨congrArg PlannedDir.request h, congrArg PlannedDir.parent h⟩
  | some p =>
    obtain ⟨above, -, houtline⟩ := h
    exact ⟨congrArg PlannedDir.request houtline, congrArg PlannedDir.parent houtline⟩

section Tree

variable {u : Unicode} {request : PlanRequest D K} {root : SourceDir D}
  {dirs : List (Listed (SourceDir D))} {files : List (Listed (RemoteFileType K))}
  {taken taken' : TakenNames} {found : List (SourceDir D × Option Nat)} {new : List (PlannedDir D)}
  {newFiles : List (PlannedFile K)}

theorem TreePlanned.of_get {i : Nat} {destination : Uuid} {planned : PlannedDir D} {k : Nat}
    (h : TreePlanned u i root dirs files destination plan plan' taken taken' found new newFiles)
    (hk : new[k]? = some planned) : ∃ dir o, found[k]? = some (dir, o) ∧
      Places i plan.dirs.length (.existing destination) new dir planned o := by
  have hlt : k < found.length := h.length ▸ (List.getElem?_eq_some_iff.mp hk).choose
  obtain ⟨other, hother, hplaces⟩ := h.placed k found[k].1 found[k].2 (getElem?_eq_getElem hlt)
  rw [hk] at hother
  cases hother
  exact ⟨found[k].1, found[k].2, getElem?_eq_getElem hlt, hplaces⟩

theorem TreePlanned.uuids {i : Nat} {destination : Uuid}
    (h : TreePlanned u i root dirs files destination plan plan' taken taken' found new newFiles) :
    new.map (·.sourceUuid) = found.map (·.1.uuid) := uuids_of_placed h.length h.placed

theorem Outlined.tree (h : Outlined requests plan) (hsource : request.source = .dir root dirs files)
    (htree : TreePlanned u requests.length root dirs files request.destination plan plan' taken taken'
      found new newFiles) (topLevel : List PlannedTopLevel) :
    Outlined (requests ++ [request]) { plan' with topLevel } := by
  obtain ⟨renamed, rfl⟩ := htree.grown
  have hnew : ∀ dir ∈ new, dir.request = requests.length := by
    intro dir hdir
    obtain ⟨k, hk⟩ := mem_iff_getElem?.mp hdir
    obtain ⟨source, o, -, hplaces⟩ := htree.of_get hk
    exact hplaces.parent.1
  have hold : ∀ dir ∈ plan.dirs, dir.request ≠ requests.length := fun dir hdir heq =>
    absurd (h.reached dir hdir).request_lt (by omega)
  have hlast : dirsOf (plan.dirs ++ new) requests.length = new.zipIdx plan.dirs.length :=
    dirsOf_append_of_eq hold hnew
  have hrequest : (requests ++ [request])[requests.length]? = some request := by
    rw [getElem?_append_right le_rfl, Nat.sub_self]
    rfl
  have hin : ∀ k, (plan.dirs ++ new)[plan.dirs.length + k]? = new[k]? := by
    intro k
    rw [getElem?_append_right (Nat.le_add_right _ _), Nat.add_sub_cancel_left]
  refine h.append rfl rfl rfl hnew ?_ ?_ ?_ ?_ ?_ ?_
  · intro k dir p hk hp
    obtain ⟨source, o, hfound, hplaces⟩ := htree.of_get hk
    rw [hplaces.parent.2] at hp
    cases o with
    | none => cases hp
    | some q =>
      cases hp
      rcases eq_zero_or_pos k with rfl | hpos
      · rw [htree.searched.start] at hfound
        cases hfound
      obtain ⟨p, -, -, ho, hpk, -⟩ := htree.searched.under k source (some q) hfound hpos
      cases ho
      omega
  · intro dir hdir
    obtain ⟨k, hk⟩ := mem_iff_getElem?.mp hdir
    obtain ⟨source, o, hfound, hplaces⟩ := htree.of_get hk
    have hdirRequest := hplaces.parent.1
    rcases eq_zero_or_pos k with rfl | hpos
    · rw [htree.searched.start] at hfound
      cases hfound
      exact .root (hdirRequest ▸ hrequest) hsource (hdirRequest.symm ▸ hplaces)
    obtain ⟨p, f, o', rfl, -, -, hf, hfirst, hearliest⟩ :=
      htree.searched.under k source o hfound hpos
    obtain ⟨above, habove, houtline⟩ := hplaces
    obtain ⟨other, hother, habovePlaces⟩ := htree.placed p f o' hf
    rw [habove] at hother
    cases hother
    have hdirUuid : dir.sourceUuid = source.uuid := congrArg PlannedDir.sourceUuid houtline
    refine .child (hdirRequest ▸ hrequest) hsource ((hin p).trans habove)
      (habovePlaces.parent.1.trans hdirRequest.symm) ?_ (hdirRequest.symm ▸ houtline) ?_
    · rw [habovePlaces.uuid, hdirUuid]
      exact hfirst
    intro q hq other hother hsame
    by_cases hlt : q < plan.dirs.length
    · rw [getElem?_append_left hlt] at hother
      exact absurd (hsame.trans hdirRequest) (hold other (mem_of_getElem? hother))
    obtain ⟨j, rfl⟩ := Nat.exists_eq_add_of_le (Nat.le_of_not_lt hlt)
    rw [hin] at hother
    obtain ⟨g, o'', hg, hotherPlaces⟩ := htree.of_get hother
    rw [hotherPlaces.uuid, hdirUuid]
    exact hearliest j (by omega) g o'' hg
  · rw [htree.uuids]
    exact htree.searched.nodup
  · intro root' dirs' files' hsource' uuid
    rw [hsource] at hsource'
    cases hsource'
    rw [htree.uuids, htree.searched.reached le_rfl]
    have hsame : Lists SourceDir.uuid (childrenOf dirs) = ListsIn dirs :=
      funext fun a => funext fun b => propext lists_iff
    rw [hsame]
    rfl
  · rw [htree.outlines]
    unfold filesOf
    rw [hsource]
    rw [hlast]
  unfold skipsOf
  rw [hsource]
  rw [hlast]
  have hfst := congrArg (List.map PlannedDir.sourceUuid) (zipIdx_map_fst plan.dirs.length new)
  rw [map_map] at hfst
  rw [← hfst]
  rfl

end Tree

theorem Outlined.file (h : Outlined requests plan) {request : PlanRequest D K}
    {file : RemoteFileType K} (hsource : request.source = .file file)
    (newFiles : List (PlannedFile K)) (newSkips : List SkippedEntry)
    (hdirs : plan'.dirs = plan.dirs) (hfiles : plan'.files = plan.files ++ newFiles)
    (hskipped : plan'.skipped = plan.skipped ++ newSkips) (houtlines : newFiles.map (·.outline) = if file.readable then
      [bareFile requests.length file (.existing request.destination) (pathSegment file.name file.uuid)]
      else []) (hskips : newSkips = if file.readable then []
      else [skippedFile file (pathSegment file.name file.uuid)]) :
    Outlined (requests ++ [request]) plan' := by
  have hnil : plan.dirs = plan.dirs ++ [] := (append_nil _).symm
  refine h.append (hdirs.trans hnil) hfiles hskipped (by simp) (by simp) (by simp) nodup_nil
    (fun root dirs files hdir => ?_) ?_ ?_
  · rw [hsource] at hdir
    cases hdir
  · unfold filesOf
    rw [houtlines]
    rw [hsource]
  unfold skipsOf
  rw [hskips]
  rw [hsource]

end Outlined

end SyncEngine.DriveJob
