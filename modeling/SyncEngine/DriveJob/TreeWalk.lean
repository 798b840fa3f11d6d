import SyncEngine.Collections.BreadthFirst
import SyncEngine.DriveJob.Naming

/-! # What the walk over a source tree plans

The walk plans the directories of a tree in the order it reaches them, each with the
directories and files listed in it. What it plans is given by the listing up to the
names, and the names planned in one directory are all different.
-/

namespace SyncEngine.DriveJob

open Collections PlannedDir SourceDir List

variable {D K : Type}

/-- A planned directory without what is chosen for it or counted below it. -/
def PlannedDir.outline (dir : PlannedDir D) : PlannedDir D :=
  { dir with
    destUuid := 0, name := ⟨[]⟩, descendantDirs := 0, descendantFiles := 0, descendantBytes := 0 }

def bareDir (request : Nat) (dir : SourceDir D) (parent : DestParent) (path : Path) : PlannedDir D :=
  { request, sourceUuid := dir.uuid, destUuid := 0, parent, name := ⟨[]⟩, created := dir.created
    color := dir.color, sourcePath := path, descendantDirs := 0, descendantFiles := 0
    descendantBytes := 0, handle := dir.handle }

/-- Nothing is counted below a directory yet. -/
def PlannedDir.Uncounted (dir : PlannedDir D) : Prop :=
  dir.descendantDirs = 0 ∧ dir.descendantFiles = 0 ∧ dir.descendantBytes = 0

/-- A planned file without what is chosen for it. -/
def PlannedFile.outline (file : PlannedFile K) : PlannedFile K :=
  { file with destUuid := 0, name := ⟨[]⟩ }

def bareFile (request : Nat) (file : RemoteFileType K) (parent : DestParent) (path : Path) :
    PlannedFile K :=
  { request, source := file, destUuid := 0, parent, name := ⟨[]⟩, size := file.size, sourcePath := path }

def skippedFile (file : RemoteFileType K) (path : Path) : SkippedEntry :=
  ⟨path, file.size, .undecryptableFile file.uuid⟩

def childrenOf {T : Type} (listing : List (Listed T)) (parent : Uuid) : List T :=
  (listing.filter fun listed => listed.parent = parent).map (·.item)

def filesUnder (request : Nat) (files : List (Listed (RemoteFileType K)))
    (placed : PlannedDir D × Nat) : List (PlannedFile K) :=
  ((childrenOf files placed.1.sourceUuid).filter (·.readable)).map fun file =>
    bareFile request file (.planned placed.2) (childPath placed.1.sourcePath file.name file.uuid)

def skipsUnder (files : List (Listed (RemoteFileType K))) (placed : PlannedDir D × Nat) :
    List SkippedEntry :=
  ((childrenOf files placed.1.sourceUuid).filter (!·.readable)).map fun file =>
    skippedFile file (childPath placed.1.sourcePath file.name file.uuid)

def ItemPlan.namesIn (plan : ItemPlan D K) (parent : DestParent) : List ValidatedName :=
  (plan.dirs.filter fun dir => dir.parent = parent).map (·.name) ++
    (plan.files.filter fun file => file.parent = parent).map (·.name)

section Items

variable {u : Unicode} {fuel : Nat} {mint : Nat → Uuid} {plan plan' : ItemPlan D K}
  {taken taken' : TakenNames} {request : Nat} {parent : DestParent} {preferred : Option Name}
  {path : Path} {topLevel : Bool}

theorem shape_dir : Shape .dir := fits_dir

theorem shape_file : Shape .file := fits_file

theorem noteRename_eq (plan : ItemPlan D K) (uuid : Uuid) (path : Path) (name : ValidatedName)
    (reason : Option RenameReason) (topLevel : Bool) :
    ∃ renamed, plan.noteRename uuid path name reason topLevel = { plan with renamed } := by
  unfold ItemPlan.noteRename
  split
  · exact ⟨plan.renamed, rfl⟩
  · exact ⟨_, rfl⟩

theorem pushDir_spec {dir : SourceDir D} {index : Nat} (hruns : RunsOk taken)
    (h : plan.pushDir u fuel mint request dir parent preferred taken path topLevel =
      .ok (index, plan', taken')) :
    index = plan.dirs.length ∧ ∃ planned renamed,
      plan' = { plan with dirs := plan.dirs ++ [planned], renamed } ∧
      planned.outline = bareDir request dir parent path ∧ planned.Uncounted ∧
      Gives u taken planned.name taken' := by
  unfold ItemPlan.pushDir at h
  cases hname : allocateName u fuel taken dir.uuid (preferred.or dir.name) .dir with
  | error halt =>
    rw [hname] at h
    cases h
  | ok out =>
    obtain ⟨⟨name, reason⟩, next⟩ := out
    obtain ⟨renamed, hnoted⟩ := noteRename_eq plan dir.uuid path name reason topLevel
    rw [hname] at h
    dsimp only [bind, Except.bind] at h
    rw [hnoted] at h
    cases h
    exact ⟨rfl, _, renamed, rfl, rfl, ⟨rfl, rfl, rfl⟩, gives_of_allocateName hruns shape_dir hname⟩

theorem planFile_spec {file : RemoteFileType K} {index : Option Nat} (hruns : RunsOk taken)
    (h : plan.planFile u fuel mint request file parent preferred taken path topLevel =
      .ok (index, plan', taken')) :
    (file.readable ∧ index = some plan.files.length ∧ ∃ planned renamed,
      plan' = { plan with files := plan.files ++ [planned], renamed } ∧
      planned.outline = bareFile request file parent path ∧ Gives u taken planned.name taken') ∨
    (file.readable = false ∧ index = none ∧
      plan' = { plan with skipped := plan.skipped ++ [skippedFile file path] } ∧ taken' = taken) := by
  unfold ItemPlan.planFile at h
  cases hread : file.readable with
  | false =>
    rw [hread] at h
    cases h
    exact Or.inr ⟨rfl, rfl, rfl, rfl⟩
  | true =>
    rw [hread, if_pos rfl] at h
    cases hname : allocateName u fuel taken file.uuid (preferred.or file.name) .file with
    | error halt =>
      rw [hname] at h
      cases h
    | ok out =>
      obtain ⟨⟨name, reason⟩, next⟩ := out
      obtain ⟨renamed, hnoted⟩ := noteRename_eq plan file.uuid path name reason topLevel
      rw [hname] at h
      dsimp only [bind, Except.bind] at h
      rw [hnoted] at h
      cases h
      exact Or.inl ⟨rfl, rfl, _, renamed, rfl, rfl, gives_of_allocateName hruns shape_file hname⟩

end Items

/-! ## The children of one directory -/

section Children

variable {u : Unicode} {fuel : Nat} {mint : Nat → Uuid} {taken taken' : TakenNames} {request : Nat}
  {parent : DestParent} {path : Path}

/-- What planning the directories in a directory does to a walk. -/
structure DirsPlanned (u : Unicode) (request : Nat) (parent : DestParent) (path : Path)
    (dirs : List (SourceDir D)) (walk walk' : TreeWalk D K) (taken taken' : TakenNames)
    (new : List (PlannedDir D)) : Prop where
  plan : ∃ renamed, walk'.plan = { walk.plan with dirs := walk.plan.dirs ++ new, renamed }
  childDirs : walk'.childDirs = walk.childDirs
  childFiles : walk'.childFiles = walk.childFiles
  visited : ∀ x, x ∈ walk'.visited ↔ x ∈ walk.visited ∨ x ∈ new.map (·.sourceUuid)
  queue : walk'.queue = walk.queue ++
    (new.zipIdx walk.plan.dirs.length).map fun placed => (placed.1.sourceUuid, placed.2)
  outlines : new.map (·.outline) = (fresh uuid walk.visited dirs).map fun dir =>
    bareDir request dir parent (childPath path dir.name dir.uuid)
  uncounted : ∀ dir ∈ new, dir.Uncounted
  keys : taken'.keys = (new.map fun dir => u.lower dir.name.text).reverse ++ taken.keys
  runs : RunsOk taken'

theorem planChildDirs_spec {dirs : List (SourceDir D)} {walk walk' : TreeWalk D K} (hruns : RunsOk taken)
    (h : planChildDirs u fuel mint request parent path dirs walk taken = .ok (walk', taken')) :
    ∃ new, DirsPlanned u request parent path dirs walk walk' taken taken' new := by
  induction dirs generalizing walk taken with
  | nil =>
    cases h
    exact ⟨[], ⟨walk'.plan.renamed, by simp⟩, rfl, rfl, by simp, by simp, rfl,
      fun _ hd => (by cases hd), rfl, hruns⟩
  | cons dir rest ih =>
    unfold planChildDirs at h
    by_cases hseen : dir.uuid ∈ walk.visited
    · rw [if_pos hseen] at h
      obtain ⟨new, hnew⟩ := ih hruns h
      refine ⟨new, { hnew with outlines := ?_ }⟩
      rw [fresh, if_pos hseen]
      exact hnew.outlines
    rw [if_neg hseen] at h
    cases hpush : walk.plan.pushDir u fuel mint request dir parent none taken
        (childPath path dir.name dir.uuid) false with
    | error halt =>
      rw [hpush] at h
      cases h
    | ok out =>
      obtain ⟨index, plan, next⟩ := out
      obtain ⟨rfl, planned, renamed, rfl, hbare, huncounted, hgives⟩ := pushDir_spec hruns hpush
      rw [hpush] at h
      obtain ⟨new, hnew⟩ := ih hgives.runs h
      have huuid : planned.sourceUuid = dir.uuid := congrArg sourceUuid hbare
      refine ⟨planned :: new, ?_, hnew.childDirs, hnew.childFiles, fun x => ?_, ?_, ?_, ?_, ?_,
        hnew.runs⟩
      · obtain ⟨renamed', hplan⟩ := hnew.plan
        exact ⟨renamed', by rw [hplan]; simp⟩
      · rw [hnew.visited, map_cons, mem_cons, mem_cons, huuid]
        tauto
      · rw [hnew.queue]
        simp [zipIdx_cons, huuid]
      · rw [fresh, if_neg hseen, map_cons, map_cons, hbare, hnew.outlines]
      · intro d hd
        rcases mem_cons.mp hd with rfl | hd
        · exact huncounted
        · exact hnew.uncounted d hd
      rw [hnew.keys, hgives.keys]
      simp

/-- What planning the files in a directory does to a plan. -/
structure FilesPlanned (u : Unicode) (request : Nat) (parent : DestParent) (path : Path)
    (files : List (RemoteFileType K)) (plan plan' : ItemPlan D K) (taken taken' : TakenNames)
    (new : List (PlannedFile K)) : Prop where
  plan : ∃ renamed, plan' = { plan with
    files := plan.files ++ new, renamed
    skipped := plan.skipped ++ (files.filter (!·.readable)).map fun file =>
      skippedFile file (childPath path file.name file.uuid) }
  outlines : new.map (·.outline) = (files.filter (·.readable)).map fun file =>
    bareFile request file parent (childPath path file.name file.uuid)
  keys : taken'.keys = (new.map fun file => u.lower file.name.text).reverse ++ taken.keys
  runs : RunsOk taken'

theorem planChildFiles_spec {files : List (RemoteFileType K)} {plan plan' : ItemPlan D K} (hruns : RunsOk taken)
    (h : planChildFiles u fuel mint request parent path files plan taken = .ok (plan', taken')) :
    ∃ new, FilesPlanned u request parent path files plan plan' taken taken' new := by
  induction files generalizing plan taken with
  | nil =>
    cases h
    exact ⟨[], ⟨plan'.renamed, by simp⟩, rfl, rfl, hruns⟩
  | cons file rest ih =>
    unfold planChildFiles at h
    cases hfile : plan.planFile u fuel mint request file parent none taken
        (childPath path file.name file.uuid) false with
    | error halt =>
      rw [hfile] at h
      cases h
    | ok out =>
      obtain ⟨index, middle, next⟩ := out
      rw [hfile] at h
      rcases planFile_spec hruns hfile with
        ⟨hread, -, planned, renamed, rfl, hbare, hgives⟩ | ⟨hread, -, rfl, rfl⟩
      · obtain ⟨new, hnew⟩ := ih hgives.runs h
        refine ⟨planned :: new, ?_, ?_, ?_, hnew.runs⟩
        · obtain ⟨renamed', hplan⟩ := hnew.plan
          exact ⟨renamed', by rw [hplan]; simp [hread]⟩
        · rw [map_cons, hbare, hnew.outlines]
          simp [hread]
        rw [hnew.keys, hgives.keys]
        simp
      obtain ⟨new, hnew⟩ := ih hruns h
      refine ⟨new, ?_, ?_, hnew.keys, hnew.runs⟩
      · obtain ⟨renamed', hplan⟩ := hnew.plan
        exact ⟨renamed', by rw [hplan]; simp [hread]⟩
      rw [hnew.outlines]
      simp [hread]

end Children

/-! ## The whole walk -/

/-- How a found directory is planned: the root in its destination, the others in the
directory they were found in. -/
def Places (request first : Nat) (destination : DestParent) (new : List (PlannedDir D))
    (dir : SourceDir D) (planned : PlannedDir D) : Option Nat → Prop
  | none => planned.outline = bareDir request dir destination (pathSegment dir.name dir.uuid)
  | some p => ∃ above, new[p]? = some above ∧
      planned.outline = bareDir request dir (.planned (first + p))
        (childPath above.sourcePath dir.name dir.uuid)

/-- What holds of a walk that took so many directories off its queue: those it found are
planned behind the directories of earlier requests, and what is listed in those taken is
planned with names that are all different. -/
structure Walked (u : Unicode) (request : Nat) (root : SourceDir D)
    (dirs : List (Listed (SourceDir D))) (files : List (Listed (RemoteFileType K)))
    (destination : DestParent) (before : List (PlannedDir D)) (start : ItemPlan D K)
    (found : List (SourceDir D × Option Nat)) (new : List (PlannedDir D)) (done : Nat)
    (walk : TreeWalk D K) : Prop where
  searched : Searched uuid (childrenOf dirs) root found done
  length : new.length = found.length
  placed : ∀ (k : Nat) dir o, found[k]? = some (dir, o) →
    ∃ planned, new[k]? = some planned ∧ Places request before.length destination new dir planned o
  uncounted : ∀ dir ∈ new, dir.Uncounted
  plan : ∃ newFiles renamed, walk.plan = { start with
      dirs := before ++ new, files := start.files ++ newFiles, renamed
      skipped := start.skipped ++ ((new.zipIdx before.length).take done).flatMap (skipsUnder files) } ∧
    newFiles.map (·.outline) = ((new.zipIdx before.length).take done).flatMap (filesUnder request files)
  visited : ∀ x, x ∈ walk.visited ↔ x ∈ found.map (·.1.uuid)
  queue : walk.queue = ((new.zipIdx before.length).drop done).map fun placed =>
    (placed.1.sourceUuid, placed.2)
  childDirs : walk.childDirs =
    dirs.filter fun listed => listed.parent ∉ (new.take done).map (·.sourceUuid)
  childFiles : walk.childFiles =
    files.filter fun listed => listed.parent ∉ (new.take done).map (·.sourceUuid)
  /-- Nothing is planned in a directory not taken yet. -/
  below : (∀ dir ∈ walk.plan.dirs, ∀ p, dir.parent = .planned p → p < before.length + done) ∧
    ∀ file ∈ walk.plan.files, ∀ p, file.parent = .planned p → p < before.length + done
  names : ∀ k < done,
    ((walk.plan.namesIn (.planned (before.length + k))).map fun name => u.lower name.text).Nodup
  others : ∀ parent, (∀ k, parent ≠ .planned (before.length + k)) →
    walk.plan.namesIn parent = start.namesIn parent

section Walk

variable {u : Unicode} {fuel : Nat} {mint : Nat → Uuid} {request : Nat} {root : SourceDir D}
  {dirs : List (Listed (SourceDir D))} {files : List (Listed (RemoteFileType K))}
  {destination : DestParent} {before : List (PlannedDir D)} {start : ItemPlan D K}
  {found : List (SourceDir D × Option Nat)} {new : List (PlannedDir D)} {done : Nat}
  {walk : TreeWalk D K}

variable {planned : PlannedDir D}

theorem Places.uuid {dir : SourceDir D} {o : Option Nat} {first : Nat}
    (h : Places request first destination new dir planned o) : planned.sourceUuid = dir.uuid := by
  cases o with
  | none => exact congrArg sourceUuid h
  | some p =>
    obtain ⟨above, -, houtline⟩ := h
    exact congrArg sourceUuid houtline

theorem Places.append {dir : SourceDir D} {o : Option Nat} {first : Nat}
    (h : Places request first destination new dir planned o) (more : List (PlannedDir D)) :
    Places request first destination (new ++ more) dir planned o := by
  cases o with
  | none => exact h
  | some p =>
    obtain ⟨above, habove, houtline⟩ := h
    refine ⟨above, ?_, houtline⟩
    rw [List.getElem?_append_left (List.getElem?_eq_some_iff.mp habove).choose, habove]

theorem uuids_of_placed {request start : Nat} {parent : DestParent} (hlength : new.length = found.length)
    (hplaced : ∀ (k : Nat) dir o, found[k]? = some (dir, o) →
      ∃ planned, new[k]? = some planned ∧ Places request start parent new dir planned o) :
    new.map (·.sourceUuid) = found.map (·.1.uuid) := by
  refine ext_getElem? fun k => ?_
  rw [getElem?_map, getElem?_map]
  cases hk : found[k]? with
  | none =>
    rw [getElem?_eq_none (by rw [hlength]; exact getElem?_eq_none_iff.mp hk)]
    rfl
  | some at' =>
    obtain ⟨planned, hplanned, hplaces⟩ := hplaced k at'.1 at'.2 hk
    rw [hplanned, Option.map_some, Option.map_some, hplaces.uuid]

theorem Walked.uuids
    (h : Walked u request root dirs files destination before start found new done walk) :
    new.map (·.sourceUuid) = found.map (·.1.uuid) := uuids_of_placed h.length h.placed

theorem Walked.nodup
    (h : Walked u request root dirs files destination before start found new done walk) :
    (new.map (·.sourceUuid)).Nodup := by
  rw [h.uuids]
  exact h.searched.nodup

theorem walked_start {plan : ItemPlan D K}
    (hplanned : planned.outline = bareDir request root destination (pathSegment root.name root.uuid))
    (huncounted : planned.Uncounted) (hdirs : plan.dirs = before ++ [planned])
    (hbelow : (∀ dir ∈ plan.dirs, ∀ p, dir.parent = .planned p → p < before.length) ∧
      ∀ file ∈ plan.files, ∀ p, file.parent = .planned p → p < before.length) :
    Walked u request root dirs files destination before plan [(root, none)] [planned] 0
      { plan, childDirs := dirs, childFiles := files, visited := [root.uuid]
        queue := [(root.uuid, before.length)] } where
  searched := searched_start _ _
  length := rfl
  placed k dir o hk := by
    cases k with
    | zero =>
      cases hk
      exact ⟨planned, rfl, hplanned⟩
    | succ k => cases hk
  uncounted dir hd := by
    cases mem_singleton.mp hd
    exact huncounted
  plan := ⟨[], plan.renamed, by rw [← hdirs]; simp, rfl⟩
  visited x := Iff.rfl
  queue := by
    have huuid : planned.sourceUuid = root.uuid := congrArg sourceUuid hplanned
    simp [huuid]
  childDirs := by simp
  childFiles := by simp
  below := hbelow
  names k hk := absurd hk (Nat.not_lt_zero k)
  others _ _ := rfl

/-! ## One directory -/

theorem namesIn_append {plan plan' : ItemPlan D K} {more : List (PlannedDir D)}
    {moreFiles : List (PlannedFile K)} (hdirs : plan'.dirs = plan.dirs ++ more)
    (hfiles : plan'.files = plan.files ++ moreFiles) {parent other : DestParent}
    (hmore : ∀ dir ∈ more, dir.parent = other) (hmoreFiles : ∀ file ∈ moreFiles, file.parent = other)
    (hne : parent ≠ other) : plan'.namesIn parent = plan.namesIn parent := by
  have hnone : (more.filter fun dir => dir.parent = parent) = [] := by
    rw [filter_eq_nil_iff]
    intro dir hdir
    simpa [hmore dir hdir] using Ne.symm hne
  have hnoneFiles : (moreFiles.filter fun file => file.parent = parent) = [] := by
    rw [filter_eq_nil_iff]
    intro file hfile
    simpa [hmoreFiles file hfile] using Ne.symm hne
  unfold ItemPlan.namesIn
  rw [hdirs, hfiles, filter_append, filter_append, hnone, hnoneFiles, append_nil,
    append_nil]

theorem namesIn_of_new {plan plan' : ItemPlan D K} {more : List (PlannedDir D)}
    {moreFiles : List (PlannedFile K)} (hdirs : plan'.dirs = plan.dirs ++ more)
    (hfiles : plan'.files = plan.files ++ moreFiles) {parent : DestParent}
    (hmore : ∀ dir ∈ more, dir.parent = parent) (hmoreFiles : ∀ file ∈ moreFiles, file.parent = parent)
    (hnone : ∀ dir ∈ plan.dirs, dir.parent ≠ parent) (hnoneFiles : ∀ file ∈ plan.files, file.parent ≠ parent) :
    plan'.namesIn parent = more.map (·.name) ++ moreFiles.map (·.name) := by
  have hold : (plan.dirs.filter fun dir => dir.parent = parent) = [] := by
    rw [filter_eq_nil_iff]
    intro dir hdir
    simpa using hnone dir hdir
  have holdFiles : (plan.files.filter fun file => file.parent = parent) = [] := by
    rw [filter_eq_nil_iff]
    intro file hfile
    simpa using hnoneFiles file hfile
  have hall : (more.filter fun dir => dir.parent = parent) = more := by
    rw [filter_eq_self]
    intro dir hdir
    simpa using hmore dir hdir
  have hallFiles : (moreFiles.filter fun file => file.parent = parent) = moreFiles := by
    rw [filter_eq_self]
    intro file hfile
    simpa using hmoreFiles file hfile
  unfold ItemPlan.namesIn
  rw [hdirs, hfiles, filter_append, filter_append, hold, holdFiles, hall, hallFiles,
    nil_append, nil_append]

theorem takeChildren_filter {T : Type} {listing : List (Listed T)} {taken : List Uuid} {uuid : Uuid}
    (hout : uuid ∉ taken) :
    takeChildren uuid (listing.filter fun listed => listed.parent ∉ taken) =
      (childrenOf listing uuid, listing.filter fun listed => listed.parent ∉ taken ++ [uuid]) := by
  unfold takeChildren childrenOf
  rw [filter_filter, filter_filter]
  refine Prod.ext (congrArg (List.map _) (filter_congr fun listed _ => ?_))
    (filter_congr fun listed _ => ?_)
  · by_cases heq : listed.parent = uuid <;> simp [heq, hout]
  simp only [mem_append, mem_singleton, not_or, ne_eq, Bool.decide_and]
  rw [Bool.and_comm]

theorem Walked.head
    (h : Walked u request root dirs files destination before start found new done walk)
    {uuid : Uuid} {index : Nat} {queue : List (Uuid × Nat)} (hqueue : walk.queue = (uuid, index) :: queue) :
    ∃ planned, new[done]? = some planned ∧ planned.sourceUuid = uuid ∧
      index = before.length + done ∧ walk.plan.dirs[index]? = some planned ∧
      queue = ((new.zipIdx before.length).drop (done + 1)).map fun placed =>
        (placed.1.sourceUuid, placed.2) := by
  have hlt : done < (new.zipIdx before.length).length := by
    by_contra hge
    rw [h.queue, drop_eq_nil_of_le (Nat.le_of_not_lt hge)] at hqueue
    cases hqueue
  rw [h.queue, drop_eq_getElem_cons hlt, map_cons] at hqueue
  obtain ⟨hhead, htail⟩ := cons_eq_cons.mp hqueue
  rw [length_zipIdx] at hlt
  rw [getElem_zipIdx] at hhead
  obtain ⟨huuid, hindex⟩ := Prod.mk.inj hhead
  obtain ⟨newFiles, renamed, hplan, -⟩ := h.plan
  refine ⟨new[done], getElem?_eq_getElem hlt, huuid, hindex.symm, ?_, htail.symm⟩
  rw [hplan, ← hindex, getElem?_append_right (Nat.le_add_right _ _), Nat.add_sub_cancel_left]
  exact getElem?_eq_getElem hlt

theorem Walked.step
    (h : Walked u request root dirs files destination before start found new done walk)
    {fuel' : Nat} {uuid : Uuid} {index : Nat} {queue : List (Uuid × Nat)} {dir : PlannedDir D}
    {walk' : TreeWalk D K} {plan' : ItemPlan D K} {taken taken' : TakenNames}
    (hqueue : walk.queue = (uuid, index) :: queue) (hdir : walk.plan.dirs[index]? = some dir)
    (hdirs : planChildDirs u fuel mint request (.planned index) dir.sourcePath
      (takeChildren uuid walk.childDirs).1
      { walk with childDirs := (takeChildren uuid walk.childDirs).2, queue } TakenNames.empty =
        .ok (walk', taken))
    (hfiles : planChildFiles u fuel' mint request (.planned index) dir.sourcePath
      (takeChildren uuid walk'.childFiles).1 walk'.plan taken = .ok (plan', taken')) :
    ∃ found' new', Walked u request root dirs files destination before start found' new' (done + 1)
      { walk' with plan := plan', childFiles := (takeChildren uuid walk'.childFiles).2 } := by
  obtain ⟨planned, hget, rfl, rfl, hat, rfl⟩ := h.head hqueue
  rw [hat] at hdir
  cases hdir
  have hlt : done < new.length := (List.getElem?_eq_some_iff.mp hget).choose
  have htake : new.take (done + 1) = new.take done ++ [dir] := by
    rw [take_add_one, hget]
    rfl
  have htakeIdx : ∀ more : List (PlannedDir D), ((new ++ more).zipIdx before.length).take (done + 1) =
      (new.zipIdx before.length).take done ++ [(dir, before.length + done)] := by
    intro more
    rw [zipIdx_append, take_append_of_le_length (by rw [length_zipIdx]; omega),
      take_add_one, getElem?_zipIdx, hget]
    rfl
  -- the directory was not taken before
  have hout : dir.sourceUuid ∉ (new.take done).map (·.sourceUuid) := by
    intro hin
    have hnodup := h.nodup
    rw [← take_append_drop done new, map_append, drop_eq_getElem_cons hlt] at hnodup
    have hself : new[done] = dir := by
      rw [getElem?_eq_getElem hlt] at hget
      exact Option.some.inj hget
    rw [hself] at hnodup
    exact disjoint_of_nodup_append hnodup hin mem_cons_self
  rw [h.childDirs, takeChildren_filter hout] at hdirs
  obtain ⟨more, hmore⟩ := planChildDirs_spec runsOk_empty hdirs
  obtain ⟨renamed, hplan1⟩ := hmore.plan
  have hleft := hmore.childFiles
  rw [hleft, h.childFiles, takeChildren_filter hout] at hfiles ⊢
  obtain ⟨moreFiles, hmoreFiles⟩ := planChildFiles_spec hmore.runs hfiles
  obtain ⟨renamed', hplan2⟩ := hmoreFiles.plan
  obtain ⟨newFiles, renamed₀, hplan, houtlines⟩ := h.plan
  obtain ⟨at', hfound⟩ : ∃ at', found[done]? = some at' :=
    ⟨_, getElem?_eq_getElem (h.length ▸ hlt)⟩
  have hkey : at'.1.uuid = dir.sourceUuid := by
    obtain ⟨other, hother, hplaces⟩ := h.placed done at'.1 at'.2 hfound
    rw [hget] at hother
    cases hother
    exact hplaces.uuid.symm
  have hfresh : fresh uuid walk.visited (childrenOf dirs dir.sourceUuid) =
      fresh uuid (found.map fun at' => at'.1.uuid) (childrenOf dirs at'.1.uuid) := by
    rw [hkey]
    exact fresh_congr h.visited _
  have hbare := hmore.outlines
  rw [hfresh] at hbare
  have hmoreLength : more.length =
      (fresh uuid (found.map fun at' => at'.1.uuid) (childrenOf dirs at'.1.uuid)).length := by
    simpa using congrArg List.length hbare
  have hmoreParent : ∀ d ∈ more, d.parent = .planned (before.length + done) := by
    intro d hd
    have hin : d.outline ∈ more.map (·.outline) := mem_map_of_mem hd
    rw [hbare] at hin
    obtain ⟨e, -, heq⟩ := mem_map.mp hin
    exact (congrArg parent heq).symm
  have hmoreFilesParent : ∀ f ∈ moreFiles, f.parent = .planned (before.length + done) := by
    intro f hf
    have hin : f.outline ∈ moreFiles.map (·.outline) := mem_map_of_mem hf
    rw [hmoreFiles.outlines] at hin
    obtain ⟨e, -, heq⟩ := mem_map.mp hin
    exact (congrArg PlannedFile.parent heq).symm
  have hallDirs : plan'.dirs = walk.plan.dirs ++ more := by
    rw [hplan2, hplan1]
  have hallFiles : plan'.files = walk.plan.files ++ moreFiles := by
    rw [hplan2, hplan1]
  refine ⟨_, new ++ more, h.searched.step hfound, ?_, ?_, ?_, ⟨newFiles ++ moreFiles, renamed', ?_, ?_⟩,
    ?_, ?_, ?_, ?_, ?_, ?_, ?_⟩
  · rw [length_append, length_append, length_map, h.length, hmoreLength]
  · intro k e o hk
    by_cases hold : k < found.length
    · rw [getElem?_append_left hold] at hk
      obtain ⟨d, hd, hplaces⟩ := h.placed k e o hk
      refine ⟨d, ?_, hplaces.append more⟩
      rw [getElem?_append_left (h.length ▸ hold), hd]
    rw [getElem?_append_right (Nat.le_of_not_lt hold), getElem?_map] at hk
    obtain ⟨child, hchild, heq⟩ := Option.map_eq_some_iff.mp hk
    cases heq
    have hrow := congrArg (·[k - found.length]?) hbare
    rw [getElem?_map, getElem?_map, hchild] at hrow
    obtain ⟨d, hd, houtline⟩ := Option.map_eq_some_iff.mp hrow
    refine ⟨d, ?_, dir, ?_, houtline⟩
    · rw [getElem?_append_right (by rw [h.length]; exact Nat.le_of_not_lt hold), h.length, hd]
    · rw [getElem?_append_left hlt, hget]
  · intro d hd
    rcases mem_append.mp hd with hd | hd
    · exact h.uncounted d hd
    · exact hmore.uncounted d hd
  · rw [hplan2, hplan1, hplan, htakeIdx more]
    simp [skipsUnder]
  · rw [map_append, houtlines, hmoreFiles.outlines, htakeIdx more]
    simp [filesUnder]
  · intro x
    have hsplit : x ∈ more.map (·.sourceUuid) ↔
        x ∈ (fresh uuid (found.map fun at' => at'.1.uuid)
          (childrenOf dirs at'.1.uuid)).map (·.uuid) := by
      have huuids := congrArg (List.map sourceUuid) hbare
      rw [map_map, map_map] at huuids
      have hleft : more.map (·.sourceUuid) = List.map (sourceUuid ∘ fun d => d.outline) more :=
        rfl
      rw [hleft, huuids]
      rfl
    rw [hmore.visited, h.visited, hsplit, map_append, mem_append, map_map]
    rfl
  · rw [hmore.queue, hplan]
    rw [zipIdx_append, drop_append_of_le_length (by rw [length_zipIdx]; omega),
      map_append, length_append]
  · have hsame := hmore.childDirs
    rw [hsame, take_append_of_le_length (by omega), htake]
    simp
  · rw [take_append_of_le_length (by omega), htake]
    simp
  · dsimp only
    rw [hallDirs, hallFiles]
    constructor
    · intro d hd p hp
      rcases mem_append.mp hd with hd | hd
      · have := h.below.1 d hd p hp
        omega
      rw [hmoreParent d hd] at hp
      cases hp
      omega
    intro f hf p hp
    rcases mem_append.mp hf with hf | hf
    · have := h.below.2 f hf p hp
      omega
    rw [hmoreFilesParent f hf] at hp
    cases hp
    omega
  · intro k hk
    rcases Nat.lt_succ_iff_lt_or_eq.mp hk with hk | rfl
    · rw [namesIn_append hallDirs hallFiles hmoreParent hmoreFilesParent]
      · exact h.names k hk
      intro heq
      have := DestParent.planned.inj heq
      omega
    rw [namesIn_of_new hallDirs hallFiles hmoreParent hmoreFilesParent]
    · have hnodup := taken'.nodup
      rw [hmoreFiles.keys, hmore.keys] at hnodup
      rw [map_append, map_map, map_map]
      have hperm : ((moreFiles.map fun file => u.lower file.name.text).reverse ++
          ((more.map fun dir => u.lower dir.name.text).reverse ++ TakenNames.empty.keys)).Perm
          ((more.map fun dir => u.lower dir.name.text) ++
            moreFiles.map fun file => u.lower file.name.text) := by
        refine perm_append_comm.trans ?_
        have hnil : TakenNames.empty.keys = [] := rfl
        rw [hnil, append_nil]
        exact (reverse_perm _).append (reverse_perm _)
      exact hperm.nodup_iff.mp hnodup
    · intro d hd heq
      have := h.below.1 d hd _ heq
      omega
    intro f hf heq
    have := h.below.2 f hf _ heq
    omega
  intro parent hparent
  rw [namesIn_append hallDirs hallFiles hmoreParent hmoreFilesParent (hparent done)]
  exact h.others parent hparent

/-! ## The run -/

theorem Walked.run {rounds : Nat} {walk' : TreeWalk D K}
    (h : Walked u request root dirs files destination before start found new done walk)
    (hrounds : dirs.length + 1 ≤ done + rounds) (hrun : walkQueue u fuel mint request rounds walk = .ok walk') :
    ∃ found' new',
      Walked u request root dirs files destination before start found' new' found'.length walk' := by
  induction rounds generalizing found new done walk with
  | zero =>
    cases hrun
    have hall : ∀ k, ∀ e ∈ childrenOf dirs k, e ∈ dirs.map (·.item) := by
      intro k e he
      obtain ⟨listed, hlisted, rfl⟩ := mem_map.mp he
      exact mem_map_of_mem (mem_filter.mp hlisted).1
    have hle := h.searched.length_le hall
    rw [length_map] at hle
    have hdone : done = found.length := le_antisymm h.searched.le (by omega)
    exact ⟨found, new, hdone ▸ h⟩
  | succ rounds ih =>
    unfold walkQueue at hrun
    cases hqueue : walk.queue with
    | nil =>
      rw [hqueue] at hrun
      cases hrun
      have hempty := h.queue
      rw [hqueue, eq_comm, map_eq_nil_iff, drop_eq_nil_iff, length_zipIdx, h.length]
        at hempty
      have hdone : done = found.length := le_antisymm h.searched.le hempty
      exact ⟨found, new, hdone ▸ h⟩
    | cons head queue =>
      obtain ⟨uuid, index⟩ := head
      rw [hqueue] at hrun
      dsimp only at hrun
      cases hdir : walk.plan.dirs[index]? with
      | none =>
        rw [hdir] at hrun
        cases hrun
      | some dir =>
        rw [hdir] at hrun
        dsimp only [bind, Except.bind] at hrun
        split at hrun
        · cases hrun
        rename_i out hdirs
        obtain ⟨walk₁, taken⟩ := out
        split at hrun
        · cases hrun
        rename_i out hfiles
        obtain ⟨plan₂, taken'⟩ := out
        obtain ⟨found', new', hnext⟩ := h.step hqueue hdir hdirs hfiles
        exact ih hnext (by omega) hrun

def unreached (root : SourceDir D) (dirs : List (Listed (SourceDir D)))
    (files : List (Listed (RemoteFileType K))) (reached : List Uuid) : List SkippedEntry :=
  let lost := files.filter fun listed => listed.parent ∉ reached
  let count := (dirs.filter fun listed => listed.item.uuid ∉ reached).length + lost.length
  if 0 < count then
    [⟨pathSegment root.name root.uuid, (lost.map (·.item.size)).sum, .unreachable count⟩]
  else []

theorem foldl_sizes (files : List (Listed (RemoteFileType K))) (count : Nat) (bytes : UInt64) :
    files.foldl (fun (acc : Nat × UInt64) listed => (acc.1 + 1, acc.2 + listed.item.size)) (count, bytes) =
      (count + files.length, bytes + (files.map (·.item.size)).sum) := by
  induction files generalizing count bytes with
  | nil => simp
  | cons listed rest ih =>
    rw [foldl_cons, ih, length_cons, map_cons, sum_cons]
    exact Prod.ext (by dsimp only; omega) (UInt64.add_assoc _ _ _)

theorem Walked.unreachable
    (h : Walked u request root dirs files destination before start found new found.length walk) :
    walk.unreachable =
      ((dirs.filter fun listed => listed.item.uuid ∉ new.map (·.sourceUuid)).length +
          (files.filter fun listed => listed.parent ∉ new.map (·.sourceUuid)).length,
        ((files.filter fun listed => listed.parent ∉ new.map (·.sourceUuid)).map (·.item.size)).sum) := by
  have hall : new.take found.length = new := take_of_length_le h.length.le
  have hdirs : (walk.childDirs.filter fun listed => listed.item.uuid ∉ walk.visited) =
      dirs.filter fun listed => listed.item.uuid ∉ new.map (·.sourceUuid) := by
    rw [h.childDirs, hall, filter_filter]
    refine filter_congr fun listed hlisted => ?_
    rw [← Bool.decide_and, decide_eq_decide, h.visited, h.uuids]
    constructor
    · exact And.left
    intro hout
    refine ⟨hout, fun hin => ?_⟩
    -- what is listed in a directory reached was reached
    obtain ⟨at', hat, hkey⟩ := mem_map.mp hin
    obtain ⟨k, hk⟩ := mem_iff_getElem?.mp hat
    have hlt : k < found.length := (List.getElem?_eq_some_iff.mp hk).choose
    refine hout (h.searched.closed k hlt at'.1 at'.2 hk listed.item ?_)
    exact mem_map.mpr ⟨listed, mem_filter.mpr ⟨hlisted, by simp [hkey]⟩, rfl⟩
  unfold TreeWalk.unreachable
  rw [hdirs, h.childFiles, hall]
  have hfold := foldl_sizes
    (files.filter fun listed => listed.parent ∉ new.map (·.sourceUuid)) 0 0
  rw [hfold, Nat.zero_add, UInt64.zero_add]

end Walk

end SyncEngine.DriveJob
