import SyncEngine.Rows.Moves

/-! # The layered view answers as one plain map

Whatever edits a pass makes of its rows, every question it asks its view is answered
as the plain map with the same edits written into it answers, and no count is ever
taken below zero.
-/

namespace SyncEngine

open Collections BaselineEntry List

/-- What each edit is made with. A move lands at a path rows can have, or is refused
with the pair root for an end. A confirmation holds the map's own rows with their
markers advanced, and a staged one none that still awaits confirmation. A seeded row is
at a path the map holds no row at. -/
def PlainRows.Allows (flat : PlainRows) : Edit → Prop
  | .moveSubtree _ dst => dst = [] ∨ IsRowPath dst
  | .confirm (.held rows) => ∀ row ∈ rows, Rows.OwnRow flat row
  | .confirm (.staged stage) =>
    ∀ row ∈ stage.rows, Rows.OwnRow flat row ∧ row.awaitsConfirmation = false
  | .writeSeeded rows =>
    (rows.map relPath).Nodup ∧
      ∀ row ∈ rows, IsRowPath row.relPath ∧ flat.get row.relPath = none

instance (flat : PlainRows) (edit : Edit) : Decidable (flat.Allows edit) := by
  cases edit with
  | moveSubtree src dst => exact inferInstanceAs (Decidable (_ ∨ _))
  | confirm confirmed =>
    cases confirmed with
    | held rows => exact inferInstanceAs (Decidable (∀ row ∈ rows, _))
    | staged stage => exact inferInstanceAs (Decidable (∀ row ∈ stage.rows, _))
  | writeSeeded rows => exact inferInstanceAs (Decidable (_ ∧ _))

def PlainRows.AllowsAll (flat : PlainRows) : List Edit → Prop
  | [] => True
  | edit :: edits => flat.Allows edit ∧ AllowsAll (flat.edited edit) edits

namespace Rows

/-! ## Confirmations and seeded rows -/

section Edits

variable {fold : CaseFold} {b : Baseline} {flat : PlainRows}

theorem counted_foldl_setAgreed {edits : Edits} (rows : List BaselineEntry) (h : Counted edits flat.rows) :
    Counted edits (rows.foldl (fun b row => b.setAgreed row.relPath row.agreedHash) flat).rows := by
  induction rows generalizing flat with
  | nil => exact h
  | cons row rows ih =>
    refine ih (h.of_weights (List.Perm.of_eq ?_))
    unfold SyncEngine.Baseline.setAgreed
    rw [map_map]
    refine map_congr_left fun other _ => ?_
    dsimp only [Function.comp]
    split <;> rfl

variable {rows : List BaselineEntry}

theorem Views.advance (h : Views fold b flat) (hrows : ∀ row ∈ rows, OwnRow flat row) :
    ∃ b', b.advance rows = some b' ∧
      Views fold b' (rows.foldl (fun b row => b.setAgreed row.relPath row.agreedHash) flat) := by
  obtain ⟨edits, hmut, -, hover, hcounted⟩ := h.editsMut
  obtain ⟨block, hblock, htop⟩ := hover.top.foldlM_advanceRow hrows
  refine ⟨⟨b.table, some (edits.setTop block)⟩, ?_, ?_⟩
  · unfold Baseline.advance
    rw [hmut, Option.bind_some, hblock, Option.map_some]
  · exact Views.of_over (Over.setTop htop) ((counted_foldl_setAgreed rows hcounted).setTop block)

theorem eachPage_eq {confirmed : Confirmed} (hrows : ∀ row ∈ confirmed.rows, IsRowPath row.relPath) :
    Baseline.eachPage confirmed = confirmed.rows := by
  cases confirmed with
  | held rows => rfl
  | staged stage =>
    unfold Baseline.eachPage
    have hpages := stage.ascending.pages_eq confirmedPage (stage.rows.length + 1)
      (fun row => [] < row.relPath)
      (fun a _ b _ hlt hpast => decide_eq_true (lt_trans (of_decide_eq_true hpast) hlt))
      (Nat.lt_succ_of_le (length_filter_le _ _))
    dsimp only
    rw [hpages]
    refine filter_eq_self.mpr fun row hrow => decide_eq_true ?_
    have hpos := lt_append_of_ne_nil [] (hrows row hrow).1
    rwa [nil_append] at hpos

theorem Views.confirm (h : Views fold b flat) {confirmed : Confirmed} (hallowed : flat.Allows (.confirm confirmed)) :
    ∃ b', b.confirm confirmed = some b' ∧ Views fold b' (flat.edited (.confirm confirmed)) := by
  have hown : ∀ row ∈ confirmed.rows, OwnRow flat row := by
    cases confirmed with
    | held rows => exact hallowed
    | staged stage => exact fun row hrow => (hallowed row hrow).1
  have hpages : Baseline.eachPage confirmed = confirmed.rows := by
    refine eachPage_eq fun row hrow => ?_
    obtain ⟨old, hold, -⟩ := hown row hrow
    exact h.clean.of_get hold
  have hadvance := h.advance hown
  rw [← hpages] at hadvance
  unfold Baseline.confirm
  by_cases hempty : confirmed.rows.isEmpty
  · refine ⟨b, if_pos hempty, ?_⟩
    change Views fold b (confirmed.rows.foldl _ flat)
    rw [isEmpty_iff.mp hempty]
    exact h
  rw [if_neg hempty]
  split
  · rename_i stage hlayers
    obtain ⟨edits, hmut, hedits, hover, hcounted⟩ := h.editsMut
    rw [hmut, Option.map_some]
    refine ⟨_, rfl, Views.of_over (over_staged (hedits.trans hlayers) hover hown fun row hrow =>
      (hallowed row hrow).2) ?_⟩
    exact (counted_foldl_setAgreed stage.rows hcounted).layers_irrel _
  obtain ⟨b', hb', hviews⟩ := hadvance
  refine ⟨b', hb', ?_⟩
  rw [hpages] at hviews
  exact hviews

theorem perm_foldl_write_fresh (hnd : (rows.map relPath).Nodup)
    (hfresh : ∀ row ∈ rows, SyncEngine.Baseline.get flat row.relPath = none) :
    (rows.reverse ++ flat.rows).Perm (rows.foldl SyncEngine.Baseline.write flat).rows := by
  have hkept : SyncEngine.Baseline.keptBeside flat rows = flat.rows := by
    refine filter_eq_self.mpr fun row hrow => ?_
    rw [Bool.not_eq_true', decide_eq_false_iff_not]
    intro hmem
    obtain ⟨other, hother, hpath⟩ := mem_map.mp hmem
    have hget := SyncEngine.Baseline.get_of_mem hrow
    rw [← hpath, hfresh other hother] at hget
    cases hget
  have hrows := SyncEngine.Baseline.perm_foldl_write (b := flat) hnd
  rw [hkept] at hrows
  exact ((reverse_perm rows).append (List.Perm.refl _)).trans hrows.symm

theorem Views.writeSeeded (h : Views fold b flat)
    (hallowed : flat.Allows (.writeSeeded rows)) :
    ∃ b', b.writeSeeded fold rows = some b' ∧ Views fold b' (flat.edited (.writeSeeded rows)) := by
  obtain ⟨hnd, hrows⟩ := hallowed
  unfold Baseline.writeSeeded
  by_cases hempty : rows.isEmpty
  · refine ⟨b, if_pos hempty, ?_⟩
    rw [isEmpty_iff.mp hempty]
    exact h
  rw [if_neg hempty]
  obtain ⟨edits, hmut, -, hover, hcounted⟩ := h.editsMut
  rw [hmut, Option.map_some]
  obtain ⟨hcounted', hlayers⟩ := hcounted.foldl_count rows
  have hover' : Over b.table fold (rows.foldl Edits.count edits) flat := by
    constructor
    · rw [hlayers]
      exact hover.sound
    rw [hlayers]
    exact hover.agrees
  refine ⟨_, rfl, Views.of_over (Over.setTop
    (hover'.top.foldl_write fun row hrow => (hrows row hrow).1)) ?_⟩
  exact (hcounted'.perm (perm_foldl_write_fresh hnd fun row hrow => (hrows row hrow).2)).setTop _

theorem Views.edited (h : Views fold b flat) {edit : Edit} (hallowed : flat.Allows edit) :
    ∃ b', b.edited fold edit = some b' ∧ Views fold b' (flat.edited edit) := by
  cases edit with
  | moveSubtree src dst => exact h.moveSubtree hallowed
  | confirm confirmed => exact h.confirm hallowed
  | writeSeeded rows => exact h.writeSeeded hallowed

theorem Views.run (h : Views fold b flat) {edits : List Edit} (hallowed : flat.AllowsAll edits) :
    ∃ b', edits.foldlM (fun b edit => b.edited fold edit) b = some b' ∧
      Views fold b' (edits.foldl PlainRows.edited flat) := by
  induction edits generalizing b flat with
  | nil => exact ⟨b, rfl, h⟩
  | cons edit edits ih =>
    obtain ⟨b₁, hone, hviews⟩ := h.edited hallowed.1
    obtain ⟨b₂, hrest, hviews₂⟩ := ih hviews hallowed.2
    refine ⟨b₂, ?_, hviews₂⟩
    rw [foldlM_cons, hone]
    exact hrest

end Edits

/-! ## Every read -/

/-- Every question asked of a pass's view has the plain map's answer. The sets handed
out in no order have the map's members, each once. -/
structure AnswersAs (fold : CaseFold) (b : Baseline) (flat : PlainRows) : Prop where
  get : ∀ path, b.get path = flat.get path
  containsKey : ∀ path, b.containsKey path = flat.containsKey path
  carryable : ∀ path, b.carryable path = flat.carryable path
  uncarryable : ∀ path, b.uncarryable path = (flat.get path).any fun row => !row.carryable
  iter : b.iter = flat.rows
  visitDirRows : b.visitDirRows = flat.rows.filter isDir
  subtree : ∀ root, b.subtree root = flat.rowsUnder root
  countSubtree : ∀ root, b.countSubtree root = (flat.rowsUnder root).length
  occupied : ∀ path, b.occupied fold path = flat.occupied fold path
  foldedRowPaths : ∀ path, b.foldedRowPaths fold path = flat.foldedRowPaths fold path
  tracked : ∀ path isDir, b.tracked path isDir = flat.tracked path isDir
  subtreeAllSynced : ∀ root, b.subtreeAllSynced root = flat.subtreeAllSynced root
  uncarryablePaths : b.uncarryablePaths.Perm flat.uncarryablePaths
  ruleFileRows : b.ruleFileRows.Perm flat.ruleFileRows
  unconfirmed : b.unconfirmed = flat.unconfirmed
  unconfirmedPage : ∀ after limit, b.unconfirmedPage after limit =
    (flat.unconfirmed.filter fun row => after < row.relPath).take limit
  anyUnconfirmed : b.anyUnconfirmed = !flat.unconfirmed.isEmpty
  len : b.len = flat.len
  carryableRows : b.carryableRows = some flat.carryableRows
  hasRemoteRows : b.hasRemoteRows = flat.hasRemoteRows

section Reads

variable {fold : CaseFold} {b : Baseline} {flat : PlainRows}

section

variable (h : Views fold b flat)
include h

theorem Views.getAt_eq (path : Path) :
    getAt b.table b.layers path = flat.get path := h.agrees path

theorem Views.carryFlag (path : Path) :
    b.carryFlag path = (flat.get path).map carryable := by
  unfold Baseline.carryFlag
  rw [carryFlagAt_eq, h.getAt_eq]

theorem Views.rowsIn_eq (span : Span) (dirs : Bool) :
    rowsIn b.table b.layers span dirs =
      flat.rows.filter fun row => span.contains row.relPath && (!dirs || row.isDir) := by
  have hrows := rowsIn_rowsOf h.sound span dirs
  refine SyncEngine.Baseline.filter_rows_eq hrows.ascending fun row => ?_
  rw [hrows.mem, h.getAt_eq, Bool.and_eq_true]

theorem Views.iter : b.iter = flat.rows := by
  unfold Baseline.iter
  rw [h.rowsIn_eq]
  refine filter_eq_self.mpr fun row hrow => ?_
  rw [Span.contains_all (h.clean row hrow).1]
  rfl

theorem Views.visitDirRows :
    b.visitDirRows = flat.rows.filter isDir := by
  unfold Baseline.visitDirRows
  rw [h.rowsIn_eq]
  refine filter_congr fun row hrow => ?_
  rw [Span.contains_all (h.clean row hrow).1]
  rfl

theorem Views.subtree (root : Path) :
    b.subtree root = flat.rowsUnder root := by
  unfold Baseline.subtree PlainRows.rowsUnder SyncEngine.Baseline.subtree
  rw [h.rowsIn_eq]
  have hin : ∀ row ∈ flat.rows, ((Span.under root).contains row.relPath ↔
      root = [] ∨ isUnder row.relPath root) := fun row hrow =>
    Span.contains_under (h.clean row hrow)
  split
  · rename_i hroot
    refine filter_eq_self.mpr fun row hrow => ?_
    rw [(hin row hrow).mpr (Or.inl hroot)]
    rfl
  rename_i hroot
  refine filter_congr fun row hrow => ?_
  rw [Bool.eq_iff_iff, Bool.and_eq_true, hin row hrow, or_iff_right hroot]
  exact and_iff_left rfl

theorem Views.countSubtree (root : Path) :
    b.countSubtree root = (flat.rowsUnder root).length := by
  unfold Baseline.countSubtree
  split
  · rw [h.subtree]
  rename_i hdepth
  have hlayers : b.layers = [] := length_eq_zero_iff.mp (Nat.eq_zero_of_not_pos hdepth)
  have hclean := h.clean
  rw [h.eq_table hlayers] at hclean ⊢
  unfold countUnder PlainRows.rowsUnder
  split
  · rename_i hroot
    refine countP_eq_length.mpr fun row hrow => ?_
    subst hroot
    have hpos := lt_append_of_ne_nil [] (hclean row hrow).1
    rw [nil_append] at hpos
    simpa using hpos
  rename_i hroot
  unfold SyncEngine.Baseline.subtree
  rw [← countP_eq_length_filter]
  refine countP_congr fun row hrow => ?_
  rw [Bool.and_eq_true, decide_eq_true_eq, decide_eq_true_eq,
    (hclean row hrow).under_iff]

theorem Views.occupied (path : Path) :
    b.occupied fold path = flat.occupied fold path := by
  unfold Baseline.occupied Baseline.visitFolded PlainRows.occupied
  cases path with
  | nil => rfl
  | cons c rest =>
    rw [if_neg (cons_ne_nil c rest), Bool.eq_iff_iff, any_eq_true, Bool.and_eq_true,
      any_eq_true]
    simp only [mem_foldedIn h.sound, h.getAt_eq, Folds, Bool.false_eq_true, if_false]
    constructor
    · rintro ⟨p, ⟨hsome, hunder⟩, -⟩
      obtain ⟨row, hget⟩ := Option.isSome_iff_exists.mp hsome
      obtain ⟨hmem, hpath⟩ := SyncEngine.Baseline.get_eq_some_iff.mp hget
      refine ⟨rfl, row, hmem, CaseFold.atOrUnderFolded_iff.mpr ?_⟩
      rwa [hpath]
    rintro ⟨-, row, hmem, hunder⟩
    refine ⟨row.relPath, ⟨?_, CaseFold.atOrUnderFolded_iff.mp hunder⟩, trivial⟩
    rw [SyncEngine.Baseline.get_of_mem hmem]
    rfl

theorem Views.foldedRowPaths (path : Path) :
    b.foldedRowPaths fold path = flat.foldedRowPaths fold path := by
  unfold Baseline.foldedRowPaths PlainRows.foldedRowPaths
  split
  · rfl
  have hsorted := pairwise_insertionSort (· ≤ ·)
    (foldedIn b.table fold b.layers (fold.collisionKey path) true)
  have hnd := (perm_insertionSort (· ≤ ·)
    (foldedIn b.table fold b.layers (fold.collisionKey path) true)).nodup_iff.mpr
      (nodup_foldedIn h.sound _)
  have hasc : Ascending id ((foldedIn b.table fold b.layers
      (fold.collisionKey path) true).insertionSort (· ≤ ·)) :=
    (hsorted.and hnd).imp fun hab => lt_of_le_of_ne hab.1 hab.2
  have hflat : Ascending id ((flat.rows.filter fun row =>
      fold.collisionKey row.relPath = fold.collisionKey path).map
        relPath) :=
    (flat.ascending.filter _).map _ fun a _ b _ hlt => hlt
  refine hasc.eq_of_mem_iff hflat fun p => ?_
  rw [mem_insertionSort, mem_foldedIn h.sound, h.getAt_eq, mem_map]
  constructor
  · rintro ⟨hsome, hkey⟩
    obtain ⟨row, hget⟩ := Option.isSome_iff_exists.mp hsome
    obtain ⟨hmem, rfl⟩ := SyncEngine.Baseline.get_eq_some_iff.mp hget
    have hkey' : fold.collisionKey row.relPath = fold.collisionKey path := hkey
    exact ⟨row, mem_filter.mpr ⟨hmem, decide_eq_true hkey'⟩, rfl⟩
  rintro ⟨row, hrow, rfl⟩
  obtain ⟨hmem, hkey⟩ := mem_filter.mp hrow
  have hkey' : fold.collisionKey row.relPath = fold.collisionKey path := of_decide_eq_true hkey
  refine ⟨?_, hkey'⟩
  rw [SyncEngine.Baseline.get_of_mem hmem]
  rfl

theorem Views.subtreeAllSynced (root : Path) :
    b.subtreeAllSynced root = flat.subtreeAllSynced root := by
  unfold Baseline.subtreeAllSynced PlainRows.subtreeAllSynced
  rw [← h.subtree, Bool.eq_iff_iff, List.isEmpty_iff, List.eq_nil_iff_forall_not_mem,
    all_eq_true]
  simp only [mem_unsyncedIn h.sound]
  unfold Baseline.subtree
  simp only [rowsIn_under h.sound]
  constructor
  · rintro hnone row ⟨hrow, hroot⟩
    rw [Bool.not_eq_true', Bool.eq_false_iff]
    intro hunsynced
    exact hnone row.relPath ⟨row, hrow, hunsynced, hroot⟩
  rintro hall path ⟨row, hrow, hunsynced, hroot⟩
  have hpath := getAt_relPath b.table hrow
  have hsynced := hall row ⟨by rw [hpath, hrow], by rwa [hpath]⟩
  rw [hunsynced] at hsynced
  cases hsynced

theorem Views.indexed (which : Indexed) :
    (indexedIn b.table which b.layers).Perm
      ((flat.rows.filter which.ofRow).map relPath) := by
  refine (perm_ext_iff_of_nodup (nodup_indexedIn h.sound)
    (flat.ascending.filter _).nodup_keys).mpr fun path => ?_
  rw [mem_indexedIn h.sound, h.getAt_eq, mem_map]
  constructor
  · rintro ⟨row, hget, htest⟩
    obtain ⟨hmem, rfl⟩ := SyncEngine.Baseline.get_eq_some_iff.mp hget
    exact ⟨row, mem_filter.mpr ⟨hmem, htest⟩, rfl⟩
  rintro ⟨row, hrow, rfl⟩
  obtain ⟨hmem, htest⟩ := mem_filter.mp hrow
  exact ⟨row, SyncEngine.Baseline.get_of_mem hmem, htest⟩

theorem Views.unconfirmed : b.unconfirmed = flat.unconfirmed := by
  unfold Baseline.unconfirmed
  split
  · rename_i hdepth
    rw [tableUnconfirmed_eq, h.eq_table (length_eq_zero_iff.mp hdepth)]
    rfl
  have hasc := (SyncEngine.Baseline.ofRows _ (nodup_unconfirmedIn h.sound)).ascending
  refine SyncEngine.Baseline.filter_rows_eq hasc fun row => ?_
  rw [mem_insertionSort, mem_unconfirmedIn h.sound, h.getAt_eq]

theorem Views.unconfirmedPage (after : Path) (limit : Nat) :
    b.unconfirmedPage after limit =
      (flat.unconfirmed.filter fun row => after < row.relPath).take limit := by
  unfold Baseline.unconfirmedPage
  split
  · rename_i hdepth
    rw [h.eq_table (length_eq_zero_iff.mp hdepth)]
    rfl
  · rw [h.unconfirmed]

theorem Views.anyUnconfirmed :
    b.anyUnconfirmed = !flat.unconfirmed.isEmpty := by
  unfold Baseline.anyUnconfirmed PlainRows.unconfirmed
  rw [Bool.eq_iff_iff, anyUnconfirmedIn_iff h.sound, Bool.not_eq_true', Bool.eq_false_iff,
    ne_eq, List.isEmpty_iff, List.filter_eq_nil_iff]
  simp only [h.getAt_eq, not_forall, not_not]
  constructor
  · rintro ⟨path, row, hget, hawaits⟩
    exact ⟨row, SyncEngine.Baseline.mem_rows_of_get hget, hawaits⟩
  rintro ⟨row, hmem, hawaits⟩
  exact ⟨row.relPath, row, SyncEngine.Baseline.get_of_mem hmem, hawaits⟩

theorem Views.counts :
    b.len = flat.len ∧ b.carryableRows = some flat.carryableRows ∧
      b.hasRemoteRows = flat.hasRemoteRows := by
  have hremote : ∀ n, n = flat.rows.countP (fun row => row.remoteUuid.isSome) →
      decide (0 < n) = flat.hasRemoteRows := by
    rintro n rfl
    unfold PlainRows.hasRemoteRows
    rw [Bool.eq_iff_iff, decide_eq_true_eq, countP_pos_iff, any_eq_true]
  obtain ⟨edits, hmut, -, -, hcounted⟩ := h.editsMut
  unfold Baseline.len Baseline.carryableRows Baseline.hasRemoteRows
  cases hedits : b.edits with
  | some edits' =>
    have hcounted' := h.counted edits' hedits
    exact ⟨hcounted'.rows, congrArg some hcounted'.carryable, hremote _ hcounted'.remoteRows⟩
  | none =>
    have hnew : Edits.new b.counts = some edits := by
      rw [← hmut]
      unfold Baseline.editsMut
      rw [hedits]
    obtain ⟨carryable, hcarry, rfl⟩ := Option.map_eq_some_iff.mp hnew
    exact ⟨hcounted.rows, hcarry.trans (congrArg some hcounted.carryable),
      hremote _ hcounted.remoteRows⟩

theorem Views.answersAs : AnswersAs fold b flat where
  get := h.agrees
  containsKey := h.containsKey
  carryable path := by
    unfold Baseline.carryable SyncEngine.Baseline.carryable
    rw [h.carryFlag]
    cases flat.get path with
    | none => rfl
    | some row => cases hrow : row.carryable <;> simp [hrow]
  uncarryable path := by
    unfold Baseline.uncarryable
    rw [h.carryFlag]
    cases flat.get path with
    | none => rfl
    | some row => cases hrow : row.carryable <;> simp [hrow]
  iter := h.iter
  visitDirRows := h.visitDirRows
  subtree := h.subtree
  countSubtree := h.countSubtree
  occupied := h.occupied
  foldedRowPaths := h.foldedRowPaths
  tracked path isDir := by
    unfold Baseline.tracked PlainRows.tracked
    rw [h.containsKey, h.subtree]
  subtreeAllSynced := h.subtreeAllSynced
  uncarryablePaths := h.indexed .uncarryable
  ruleFileRows := h.indexed .ruleFiles
  unconfirmed := h.unconfirmed
  unconfirmedPage := h.unconfirmedPage
  anyUnconfirmed := h.anyUnconfirmed
  len := h.counts.1
  carryableRows := h.counts.2.1
  hasRemoteRows := h.counts.2.2

end

end Reads

/-- Whatever edits a pass makes over a stored table, none panics and every read answers
as the plain map with the edits written into it one after another. -/
theorem edits_answerAs_plain (fold : CaseFold) (table : Table) (edits : List Edit)
    (hallowed : PlainRows.AllowsAll table.toBaseline edits) :
    ∃ b, edits.foldlM (fun b edit => b.edited fold edit) (Baseline.stored table) = some b ∧
      AnswersAs fold b (edits.foldl PlainRows.edited table.toBaseline) := by
  obtain ⟨b, hrun, hviews⟩ := (@Views.stored fold table).run hallowed
  exact ⟨b, hrun, hviews.answersAs⟩

/-- A directory and its file, with a file of the same name where they go. -/
def movedOntoTable : Table where
  rows := [syncedRow "a".toList .dir 1 none,
    { syncedRow "a/f".toList .file 2 (some 7) with agreedHash := none },
    syncedRow "b/f".toList .file 3 (some 8)]
  sorted := by decide
  clean := by decide

/-- The directory moved onto the other, what moved confirmed there, a directory seeded
where it was and moved away. -/
def movedOntoEdits : List Edit :=
  [.moveSubtree "a".toList "b".toList,
    .confirm (.held [syncedRow "b/f".toList .file 2 (some 7)]),
    .writeSeeded [syncedRow "a".toList .dir 4 none],
    .moveSubtree "a".toList "c".toList]

theorem movedOnto_answersAs :
    ∃ b, movedOntoEdits.foldlM (fun b edit => b.edited asciiFold edit)
        (Baseline.stored movedOntoTable) = some b ∧
      AnswersAs asciiFold b (movedOntoEdits.foldl PlainRows.edited movedOntoTable.toBaseline) :=
  edits_answerAs_plain asciiFold movedOntoTable movedOntoEdits
    ⟨by decide +kernel, by decide +kernel, by decide +kernel, by decide +kernel, trivial⟩

end Rows

end SyncEngine
