import SyncEngine.Screening.HeldBatch

/-! # Deletions a directory's deletion carries

Each side's deletions are read once in path order, with the directory deletions
read so far on a stack. A subtree is not one run of that order, `a-b` sorts
between `a` and `a/b`, so a directory leaves the stack only once a path sorts
past everything under it.
-/

namespace SyncEngine.Screen

open List

/-- A screened plan: its positions key it, and every row reads back as an action. -/
structure ScreenedPlan where
  rows : List ScreenRow
  keyed : (rows.map (·.pos)).Nodup
  reads : ∀ row ∈ rows, (actionOf row).isSome

/-- A plan as it is written down, each action at a position of its own. -/
def ScreenedPlan.ofPlan (plan : List (Int × SyncAction)) (hkeyed : (plan.map Prod.fst).Nodup) : ScreenedPlan where
  rows := plan.map insert
  keyed := by
    rw [map_map]
    exact hkeyed
  reads row hrow := by
    obtain ⟨step, -, rfl⟩ := mem_map.mp hrow
    rw [actionOf_insert]
    rfl

/-- Marks leave positions and actions alone. -/
def ScreenedPlan.update (plan : ScreenedPlan) (which : ScreenRow → Bool) (now : Held) : ScreenedPlan where
  rows := (Screen.update which (fun row => { row with held := now }) plan.rows).1
  keyed := by
    have hpos : ((fun row => row.pos) ∘ fun row => if which row then { row with held := now } else row) = ScreenRow.pos := by
      funext row
      rw [Function.comp_apply]
      split <;> rfl
    unfold Screen.update
    rw [map_map, hpos]
    exact plan.keyed
  reads row hrow := by
    obtain ⟨old, hold, rfl⟩ := mem_map.mp hrow
    have hread := plan.reads old hold
    split
    · exact hread
    · exact hread

/-- The plan with every deletion held, and every create at a path one empties. -/
def ScreenedPlan.hold (plan : ScreenedPlan) : ScreenedPlan :=
  plan.update (fun row => row.op.isDelete || ((plan.rows.any fun row => row.op.isCreate) && row.op.isCreate &&
    plan.rows.any fun deleted => deleted.path = row.path && deleted.op.isDelete)) .held

theorem ScreenedPlan.hold_rows (plan : ScreenedPlan) : plan.hold.rows = (Screen.hold plan.rows).1 := rfl

/-- Whether `path` sorts past everything under `dir`: at `dir0` or after it. -/
def pastSubtree (path dir : Path) : Bool :=
  match dir.isPrefixOf? path with
  | some rest => rest.head?.any fun c => '0' ≤ c
  | none => dir < path

def isDirDelete : SyncAction → Bool
  | .deleteLocal _ kind | .trashRemote _ kind _ => kind = .dir
  | _ => false

/-- Go over a side's deletions with the open directories, innermost first: each
that one of them carries, with the outermost that does. -/
def sweep : List Path → List ScreenRow → Option (List (Int × Path))
  | _, [] => some []
  | stack, row :: rows =>
    (actionOf row).bind fun action =>
      let path := action.relPath
      let left := stack.dropWhile (pastSubtree path)
      let dir := left.reverse.find? (isUnder path)
      let opened := if isDirDelete action then path :: left else left
      (sweep opened rows).map fun rest => (dir.map fun dir => (row.pos, dir)).toList ++ rest

/-- A side's deletions the guard lets through, `ORDER BY path, pos`. -/
def sideDeletes (screen : List ScreenRow) (op : Op) : List ScreenRow :=
  (screen.filter fun row => row.op = op && row.held = .released).insertionSort
    fun a b => toLex (a.path, a.pos) ≤ toLex (b.path, b.pos)

def foldSide (screen : List ScreenRow) (op : Op) : Option (List (Int × Path)) :=
  sweep [] (sideDeletes screen op)

/-- A side without a directory deletion is not read. -/
def foldDirs (screen : List ScreenRow) (op : Op) : Option (List (Int × Path)) :=
  let dirs := screen.any fun row => row.op = op && row.kind = some .dir && row.held = .released
  if dirs then foldSide screen op else some []

/-- The sides, each by the `op` of its deletions. -/
def sides : List Op := [.deleteLocal, .trashRemote]

/-- Fold the deletions a directory deletion carries into it: every row with its
`carried_by`, and how many are folded. -/
def foldSubsumed (screen : List ScreenRow) : Option (List (ScreenRow × Option Path) × Nat) :=
  (sides.mapM (foldDirs screen)).map fun folded =>
    let subsumed := folded.flatten
    let carriedBy := fun row : ScreenRow =>
      if 0 < subsumed.length then (subsumed.find? fun e => e.1 = row.pos).map Prod.snd else none
    (screen.map fun row => (row, carriedBy row), subsumed.length)

variable {screen rows seen : List ScreenRow} {row : ScreenRow} {path dir p : Path} {op : Op}

/-! ## One sweep -/

/-- A path after `dir` and not spelled from it is after all that is. -/
theorem append_lt_of_not_prefix (hlt : dir < path) (hpre : ¬ dir <+: path) (rest : Path) : dir ++ rest < path := by
  induction dir generalizing path with
  | nil => exact absurd nil_prefix hpre
  | cons c dir ih =>
    cases path with
    | nil => exact absurd hlt (not_lt_nil _)
    | cons d path =>
      rw [cons_append, cons_lt_cons_iff]
      rcases cons_lt_cons_iff.mp hlt with hcd | ⟨rfl, hlt'⟩
      · exact Or.inl hcd
      exact Or.inr ⟨rfl, ih hlt' fun h => hpre ((prefix_cons_inj _).mpr h)⟩

/-- No path at or after one past a subtree is in it. -/
theorem not_isUnder_of_past (hpast : pastSubtree path dir) (hle : path ≤ p) : isUnder p dir = false := by
  rw [Bool.eq_false_iff]
  intro hunder
  obtain ⟨tail, rfl⟩ := isUnder_iff.mp hunder
  refine absurd hle (not_le.mpr ?_)
  unfold pastSubtree at hpast
  split at hpast
  · rename_i rest hrest
    obtain ⟨c, hc, hzero⟩ := (Option.any_eq_true _ _).mp hpast
    obtain ⟨more, rfl⟩ := head?_eq_some_iff.mp hc
    rw [← isPrefixOf?_eq_some_iff_append_eq.mp hrest]
    exact append_left_lt (cons_lt_cons_iff.mpr (Or.inl (lt_of_lt_of_le (by decide) (of_decide_eq_true hzero))))
  rename_i hnone
  refine append_lt_of_not_prefix (of_decide_eq_true hpast) (fun ⟨rest, hrest⟩ => ?_) _
  rw [isPrefixOf?_eq_some_iff_append_eq.mpr hrest] at hnone
  cases hnone

/-- The paths of the directories among the deletions `rows`. -/
def dirs (rows : List ScreenRow) : List Path := (rows.filter fun row => row.kind = some .dir).map (·.path)

theorem dirs_append : dirs (seen ++ rows) = dirs seen ++ dirs rows := by
  simp [dirs]

theorem actionOf_delete {action : SyncAction} (hop : row.op ∈ sides) (h : actionOf row = some action) :
    action.relPath = row.path ∧ dirs [row] = if isDirDelete action then [row.path] else [] := by
  unfold actionOf at h
  rcases mem_cons.mp hop with hop | hop
  · rw [hop] at h
    obtain ⟨kind, hkind, rfl⟩ := Option.map_eq_some_iff.mp h
    cases kind <;> simp [SyncAction.relPath, isDirDelete, dirs, hkind]
  rw [mem_singleton.mp hop] at h
  obtain ⟨kind, hkind, h⟩ := Option.bind_eq_some_iff.mp h
  obtain ⟨uuid, -, rfl⟩ := Option.map_eq_some_iff.mp h
  cases kind <;> simp [SyncAction.relPath, isDirDelete, dirs, hkind]

theorem filter_dropWhile {α : Type} {past f : α → Bool} {l : List α} (h : ∀ x, past x → f x = false) :
    (l.dropWhile past).filter f = l.filter f := by
  have hnil : (l.takeWhile past).filter f = [] :=
    filter_eq_nil_iff.mpr fun x hx => by simp [h x (mem_takeWhile_imp hx)]
  calc (l.dropWhile past).filter f = (l.takeWhile past ++ l.dropWhile past).filter f := by
        rw [filter_append, hnil, nil_append]
    _ = l.filter f := by rw [takeWhile_append_dropWhile]

/-- The stack holds of the directories seen each that may be above a path still to come. -/
theorem sweep_eq (stack : List Path) (seen : List ScreenRow) (hreads : ∀ row ∈ rows, row.op ∈ sides ∧ (actionOf row).isSome)
    (hsorted : rows.Pairwise fun a b => a.path ≤ b.path)
    (hstack : ∀ row ∈ rows, ∀ p, row.path ≤ p → stack.reverse.filter (isUnder p) = (dirs seen).filter (isUnder p)) :
    sweep stack rows = some (rows.filterMap fun row =>
      ((dirs (seen ++ rows)).find? (isUnder row.path)).map fun dir => (row.pos, dir)) := by
  induction rows generalizing stack seen with
  | nil => rfl
  | cons row rows ih =>
    obtain ⟨⟨hop, hsome⟩, hreads⟩ := forall_mem_cons.mp hreads
    obtain ⟨action, haction⟩ := Option.isSome_iff_exists.mp hsome
    obtain ⟨hpath, hdirs⟩ := actionOf_delete hop haction
    obtain ⟨hfirst, hrest⟩ := pairwise_cons.mp hsorted
    have hleft : ∀ p, row.path ≤ p →
        (stack.dropWhile (pastSubtree row.path)).reverse.filter (isUnder p) = (dirs seen).filter (isUnder p) := by
      intro p hp
      rw [← hstack row mem_cons_self p hp, filter_reverse, filter_reverse,
        filter_dropWhile fun dir hdir => not_isUnder_of_past hdir hp]
    -- what is still to come is not above the path in hand
    have hlater : (dirs (row :: rows)).filter (isUnder row.path) = [] := by
      refine filter_eq_nil_iff.mpr fun dir hdir hunder => ?_
      obtain ⟨later, hlater, rfl⟩ := mem_map.mp hdir
      rcases mem_cons.mp (mem_filter.mp hlater).1 with rfl | hlater
      · simp at hunder
      exact absurd (lt_of_isUnder hunder) (not_lt.mpr (hfirst later hlater))
    have hfound : (stack.dropWhile (pastSubtree row.path)).reverse.find? (isUnder row.path) =
        (dirs (seen ++ row :: rows)).find? (isUnder row.path) := by
      rw [← head?_filter, ← head?_filter, hleft _ le_rfl, dirs_append, filter_append, hlater, append_nil]
    have hnext := ih (if isDirDelete action then row.path :: stack.dropWhile (pastSubtree row.path)
        else stack.dropWhile (pastSubtree row.path)) (seen ++ [row]) hreads hrest fun later hlater p hp => by
      rw [dirs_append, hdirs, filter_append, ← hleft p ((hfirst later hlater).trans hp)]
      split <;> simp
    rw [append_assoc, singleton_append] at hnext
    simp only [sweep, haction, Option.bind_some, hpath, hfound, hnext, Option.map_some, filterMap_cons]
    cases (dirs (seen ++ row :: rows)).find? (isUnder row.path) <;> rfl

/-! ## Both sides -/

/-- A deletion the guard lets through. -/
def Deleted (row : ScreenRow) : Prop := row.op ∈ sides ∧ row.held = .released

/-- Whether the deletion `dir` takes what `row` deletes along. -/
def Carries (dir row : ScreenRow) : Prop :=
  dir.held = .released ∧ dir.op = row.op ∧ dir.kind = some .dir ∧ isUnder row.path dir.path

theorem sideDeletes_sorted : (sideDeletes screen op).Pairwise fun a b => a.path ≤ b.path := by
  refine (pairwise_insertionSort (fun a b : ScreenRow => toLex (a.path, a.pos) ≤ toLex (b.path, b.pos)) _).imp
    fun h => ?_
  rcases Prod.Lex.toLex_le_toLex.mp h with hlt | ⟨heq, -⟩
  · exact hlt.le
  · exact heq.le

theorem mem_sideDeletes : row ∈ sideDeletes screen op ↔ row ∈ screen ∧ row.op = op ∧ row.held = .released := by
  simp [sideDeletes]

/-- The outermost of the directories whose deletion takes `row` along. -/
def carrier (screen : List ScreenRow) (row : ScreenRow) : Option Path :=
  (dirs (sideDeletes screen row.op)).find? (isUnder row.path)

theorem mem_dirs_sideDeletes :
    (dir ∈ dirs (sideDeletes screen row.op) ∧ isUnder row.path dir) ↔
      ∃ other ∈ screen, Carries other row ∧ other.path = dir := by
  simp only [dirs, mem_map, mem_filter, mem_sideDeletes, decide_eq_true_eq, Carries]
  constructor
  · rintro ⟨⟨other, ⟨⟨hmem, hop, hheld⟩, hkind⟩, rfl⟩, hunder⟩
    exact ⟨other, hmem, ⟨hheld, hop, hkind, hunder⟩, rfl⟩
  · rintro ⟨other, hmem, ⟨hheld, hop, hkind, hunder⟩, rfl⟩
    exact ⟨⟨other, ⟨⟨hmem, hop, hheld⟩, hkind⟩, rfl⟩, hunder⟩

theorem carrier_isSome : (carrier screen row).isSome ↔ ∃ other ∈ screen, Carries other row := by
  unfold carrier
  rw [find?_isSome]
  constructor
  · rintro ⟨dir, hdir, hunder⟩
    obtain ⟨other, hmem, hcarries, -⟩ := mem_dirs_sideDeletes.mp ⟨hdir, hunder⟩
    exact ⟨other, hmem, hcarries⟩
  · rintro ⟨other, hmem, hcarries⟩
    exact ⟨other.path, mem_dirs_sideDeletes.mpr ⟨other, hmem, hcarries, rfl⟩⟩

theorem carrier_outermost {top : Path} (h : carrier screen row = some top) :
    (∃ other ∈ screen, Carries other row ∧ other.path = top) ∧
      ∀ other ∈ screen, Carries other row → AtOrUnder other.path top := by
  have hunder := find?_some h
  refine ⟨mem_dirs_sideDeletes.mp ⟨mem_of_find?_eq_some h, hunder⟩, fun other hmem hcarries => ?_⟩
  obtain ⟨hother, habove⟩ := mem_dirs_sideDeletes.mpr ⟨other, hmem, hcarries, rfl⟩
  have hsorted : (dirs (sideDeletes screen row.op)).Pairwise (· ≤ ·) := pairwise_map.mpr (sideDeletes_sorted.filter _)
  obtain ⟨-, before, after, heq, hbefore⟩ := find?_eq_some_iff_append.mp h
  rw [heq] at hother hsorted
  rcases mem_append.mp hother with hin | hin
  · have hnot := hbefore _ hin
    rw [habove] at hnot
    cases hnot
  rcases mem_cons.mp hin with heq | hin
  · exact Or.inl heq
  -- a directory above the first found would sort before it
  rcases atOrUnder_total (Or.inr habove) (Or.inr hunder) with hat | heq | hbelow
  · exact hat
  · exact Or.inl heq.symm
  · exact absurd (lt_of_isUnder hbelow) (not_lt.mpr ((pairwise_cons.mp (pairwise_append.mp hsorted).2.1).1 _ hin))

/-- What the sweep of a side writes down. -/
def folds (screen : List ScreenRow) (op : Op) : List (Int × Path) :=
  (sideDeletes screen op).filterMap fun row => (carrier screen row).map fun dir => (row.pos, dir)

theorem mem_folds {e : Int × Path} : e ∈ sides.flatMap (folds screen) ↔
    ∃ row ∈ screen, Deleted row ∧ carrier screen row = some e.2 ∧ row.pos = e.1 := by
  obtain ⟨pos, top⟩ := e
  simp only [folds, mem_flatMap, mem_filterMap, mem_sideDeletes, Option.map_eq_some_iff, Prod.mk.injEq, Deleted]
  constructor
  · rintro ⟨op, hop, row, ⟨hrow, rfl, hheld⟩, dir, hdir, hpos, rfl⟩
    exact ⟨row, hrow, ⟨hop, hheld⟩, hdir, hpos⟩
  · rintro ⟨row, hrow, ⟨hop, hheld⟩, hdir, hpos⟩
    exact ⟨row.op, hop, row, ⟨hrow, rfl, hheld⟩, top, hdir, hpos, rfl⟩

theorem foldDirs_eq (hreads : ∀ row ∈ screen, (actionOf row).isSome) (hop : op ∈ sides) :
    foldDirs screen op = some (folds screen op) := by
  unfold foldDirs
  dsimp only
  split
  · unfold foldSide
    rw [sweep_eq [] [] (fun row h => ?_) sideDeletes_sorted fun _ _ _ _ => rfl]
    · refine congrArg some (filterMap_congr fun row h => ?_)
      rw [carrier, (mem_sideDeletes.mp h).2.1, nil_append]
    obtain ⟨hrow, rfl, -⟩ := mem_sideDeletes.mp h
    exact ⟨hop, hreads row hrow⟩
  rename_i hnone
  refine congrArg some (filterMap_eq_nil_iff.mpr fun row hrow => ?_).symm
  obtain ⟨-, rfl, -⟩ := mem_sideDeletes.mp hrow
  rw [Option.map_eq_none_iff, ← Option.not_isSome_iff_eq_none, carrier_isSome]
  rintro ⟨dir, hdir, hheld, hop, hkind, -⟩
  exact hnone (any_eq_true.mpr ⟨dir, hdir, by simp [hop, hheld, hkind]⟩)

theorem foldSubsumed_eq (hreads : ∀ row ∈ screen, (actionOf row).isSome) :
    ∃ folded, foldSubsumed screen = some (screen.map fun row => (row,
      ((sides.flatMap (folds screen)).find? fun e => e.1 = row.pos).map Prod.snd), folded) := by
  have hlocal : foldDirs screen .deleteLocal = some (folds screen .deleteLocal) := foldDirs_eq hreads (by decide)
  have hremote : foldDirs screen .trashRemote = some (folds screen .trashRemote) := foldDirs_eq hreads (by decide)
  have hsides : sides.mapM (foldDirs screen) = some (sides.map (folds screen)) := by
    simp [sides, hlocal, hremote]
  unfold foldSubsumed
  rw [hsides, Option.map_some, ← flatMap_def]
  generalize sides.flatMap (folds screen) = subsumed
  refine ⟨subsumed.length, ?_⟩
  cases subsumed <;> rfl

theorem foldSubsumed_carries (plan : ScreenedPlan) :
    ∃ carried folded, foldSubsumed plan.rows = some (carried, folded) ∧ carried.map Prod.fst = plan.rows ∧
      ∀ e ∈ carried,
        (e.2.isSome ↔ Deleted e.1 ∧ ∃ dir ∈ plan.rows, Carries dir e.1) ∧
        ∀ top, e.2 = some top →
          (∃ dir ∈ plan.rows, Carries dir e.1 ∧ dir.path = top) ∧
            ∀ dir ∈ plan.rows, Carries dir e.1 → AtOrUnder dir.path top := by
  obtain ⟨folded, heq⟩ := foldSubsumed_eq plan.reads
  refine ⟨_, folded, heq, by simp [Function.comp_def], fun e he => ?_⟩
  obtain ⟨row, hrow, rfl⟩ := mem_map.mp he
  dsimp only
  cases hfound : (sides.flatMap (folds plan.rows)).find? fun f => f.1 = row.pos with
  | some f =>
    have hpos := find?_some hfound
    obtain ⟨other, hother, hdeleted, hcarrier, hsame⟩ := mem_folds.mp (mem_of_find?_eq_some hfound)
    cases inj_on_of_nodup_map plan.keyed hother hrow (hsame.trans (by simpa using hpos))
    refine ⟨?_, fun top htop => ?_⟩
    · rw [← carrier_isSome, hcarrier]
      exact iff_of_true rfl ⟨hdeleted, rfl⟩
    · cases htop
      exact carrier_outermost hcarrier
  | none =>
    refine ⟨iff_of_false (by simp) fun ⟨hdeleted, hdir⟩ => ?_, nofun⟩
    obtain ⟨top, htop⟩ := Option.isSome_iff_exists.mp (carrier_isSome.mpr hdir)
    simpa using find?_eq_none.mp hfound (row.pos, top) (mem_folds.mpr ⟨row, hrow, hdeleted, htop, rfl⟩)

/-- `a` is deleted with `a/b` under it, and beside them `a-b`, which sorts between the two. -/
def nestedPlan : List (Int × SyncAction) :=
  [(0, .trashRemote "a".toList .dir 1), (1, .trashRemote "a-b".toList .file 2),
    (2, .trashRemote "a/b".toList .file 3)]

/-- The deletion of `a` carries that of `a/b` alone, and none that is held. -/
theorem foldSubsumed_carries_nested :
    let plan := ScreenedPlan.ofPlan nestedPlan (by decide)
    (∃ carried, foldSubsumed plan.rows = some (carried, 1) ∧ carried.map Prod.snd = [none, none, some "a".toList] ∧
      ∀ e ∈ carried, e.2.isSome ↔ Deleted e.1 ∧ ∃ dir ∈ plan.rows, Carries dir e.1) ∧
    ∃ carried, foldSubsumed (Screen.hold plan.rows).1 = some (carried, 0) ∧ carried.map Prod.snd = [none, none, none] := by
  intro plan
  have hfolds : (foldSubsumed plan.rows).map (fun fold => (fold.1.map Prod.snd, fold.2)) =
      some ([none, none, some "a".toList], 1) := by
    decide +kernel
  have hholds : (foldSubsumed plan.hold.rows).map (fun fold => (fold.1.map Prod.snd, fold.2)) =
      some ([none, none, none], 0) := by
    decide +kernel
  obtain ⟨carried, folded, heq, -, hcarries⟩ := foldSubsumed_carries plan
  obtain ⟨carried', folded', heq', -⟩ := foldSubsumed_carries plan.hold
  rw [heq] at hfolds
  rw [heq'] at hholds
  obtain ⟨hfound, rfl⟩ := Prod.mk.inj (Option.some.inj hfolds)
  obtain ⟨hfound', rfl⟩ := Prod.mk.inj (Option.some.inj hholds)
  rw [plan.hold_rows] at heq'
  exact ⟨⟨carried, heq, hfound, fun e he => (hcarries e he).1⟩, carried', heq', hfound'⟩

end SyncEngine.Screen
