import SyncEngine.Rows.Stored

/-! # The stored columns and counts never drift

Each computed column is what it is computed from says, and each pair's counts are
those of its rows, after every change. What a change makes of a pair's rows is what
it makes of a plain map, and it leaves every other pair's alone.
-/

namespace SyncEngine

open Collections KeyedTable BaselineEntry PlainRows List

namespace Stored

variable {path dir : Path} {k : PairId × Path} {rows : List StoredRow}

theorem below_iff_range :
    dir ++ ['/'] < path ∧ path < dir ++ ['0'] ↔ Below path dir := by
  unfold Below
  rw [← mem_subtreeBounds, and_right_comm]
  refine and_congr_left fun _ => ?_
  exact ⟨fun h => ⟨h.le, h.ne'⟩, fun h => lt_of_le_of_ne h.1 h.2.symm⟩

theorem below_iff :
    Below path dir ↔ ∃ name, name ≠ [] ∧ path = dir ++ '/' :: name := by
  unfold Below
  rw [isUnder_iff]
  constructor
  · rintro ⟨⟨name, rfl⟩, hne⟩
    refine ⟨name, fun hnil => hne ?_, rfl⟩
    rw [hnil]
  rintro ⟨name, hname, rfl⟩
  refine ⟨⟨name, rfl⟩, fun heq => hname ?_⟩
  simpa using heq

variable {pair : PairId}

theorem atPath_iff :
    atPath pair path k ↔ k = (pair, path) := by
  simp [atPath, Prod.ext_iff]

theorem underPath_iff :
    underPath pair dir k ↔ k.1 = pair ∧ Below k.2 dir := by
  simp [underPath, ← below_iff_range]

/-! ## The counts -/

def tally (rows : List StoredRow) (pair : PairId) : RowCounts where
  rows := rows.countP fun row => row.pairId = pair
  uncarryable := rows.countP fun row => row.pairId = pair && !row.derived.carryable
  remoteRows := rows.countP fun row => row.pairId = pair && row.entry.remoteUuid.isSome

theorem tally_cons (row : StoredRow) (rows : List StoredRow) (pair : PairId) :
    tally (row :: rows) pair =
      if row.pairId = pair then (tally rows pair).add row.weight else tally rows pair := by
  unfold tally RowCounts.add StoredRow.weight truth
  by_cases hpair : row.pairId = pair
  · rw [if_pos hpair]
    simp only [countP_cons, hpair, decide_true, Bool.true_and, if_true]
    congr 1 <;> push_cast <;> split <;> rfl
  · simp [hpair]

theorem RowCounts.sub_add (c d : RowCounts) : (c.add d).sub d = c := by
  cases c
  simp [RowCounts.add, RowCounts.sub]

/-- Each pair's counts are those of its rows, and a pair with none may have no counts. -/
def Tallied (counts : CountsTable) (rows : List StoredRow) : Prop :=
  ∀ pair, match counts pair with
    | none => ∀ row ∈ rows, row.pairId ≠ pair
    | some c => c = tally rows pair

theorem tally_of_none (h : ∀ row ∈ rows, row.pairId ≠ pair) :
    tally rows pair = ⟨0, 0, 0⟩ := by
  have hzero : ∀ test : StoredRow → Bool,
      rows.countP (fun row => row.pairId = pair && test row) = 0 := by
    intro test
    refine countP_eq_zero.mpr fun row hrow htest => ?_
    exact h row hrow (of_decide_eq_true (Bool.and_eq_true_iff.mp htest).1)
  have hrows := hzero fun _ => true
  simp only [Bool.and_true] at hrows
  unfold tally
  rw [hrows, hzero, hzero]
  rfl

theorem keeps_tallied : Keeps triggers Tallied where
  perm := by
    intro counts rows rows' hperm h pair
    have hpair := h pair
    have htally : tally rows' pair = tally rows pair := by
      unfold tally
      rw [hperm.countP_eq, hperm.countP_eq, hperm.countP_eq]
    cases hcounts : counts pair with
    | none =>
      rw [hcounts] at hpair
      exact fun row hrow => hpair row (hperm.mem_iff.mpr hrow)
    | some c =>
      rw [hcounts] at hpair
      exact hpair.trans htally.symm
  inserted := by
    intro counts rows row h pair
    have hpair := h pair
    dsimp only [triggers, counted]
    by_cases heq : pair = row.pairId
    · subst heq
      rw [Function.update_self]
      cases hcounts : counts row.pairId with
      | none =>
        rw [hcounts] at hpair
        rw [tally_cons, if_pos rfl, tally_of_none hpair]
        simp [RowCounts.add]
      | some c =>
        rw [hcounts] at hpair
        rw [tally_cons, if_pos rfl, hpair]
    rw [Function.update_of_ne heq]
    cases hcounts : counts pair with
    | none =>
      rw [hcounts] at hpair
      intro r hr
      rcases mem_cons.mp hr with rfl | hr
      · exact fun h => heq h.symm
      · exact hpair r hr
    | some c =>
      rw [hcounts] at hpair
      rw [tally_cons, if_neg fun h => heq h.symm, hpair]
  deleted := by
    intro counts rows row h pair
    have hpair := h pair
    dsimp only [triggers, uncounted]
    by_cases heq : pair = row.pairId
    · subst heq
      rw [Function.update_self]
      cases hcounts : counts row.pairId with
      | none =>
        rw [hcounts] at hpair
        exact absurd rfl (hpair row mem_cons_self)
      | some c =>
        rw [hcounts] at hpair
        rw [Option.map_some]
        rw [hpair, tally_cons, if_pos rfl, RowCounts.sub_add]
    rw [Function.update_of_ne heq]
    cases hcounts : counts pair with
    | none =>
      rw [hcounts] at hpair
      exact fun r hr => hpair r (mem_cons_of_mem _ hr)
    | some c =>
      rw [hcounts] at hpair
      rw [hpair, tally_cons, if_neg fun h => heq h.symm]

theorem tallied_update {columns : List Column} {old new : StoredRow} {counts : CountsTable}
    (hid : new.pairId = old.pairId) (hweight : new.weight = old.weight) (h : Tallied counts (old :: rows)) :
    Tallied (afterUpdateOf columns old new counts) (new :: rows) := by
  have htally : ∀ pair, tally (new :: rows) pair = tally (old :: rows) pair := by
    intro pair
    rw [tally_cons, tally_cons, hid, hweight]
  have hcounts : afterUpdateOf columns old new counts = counts := by
    unfold afterUpdateOf recounted
    split
    · rw [hweight]
      have hsame : (counts new.pairId).map (fun c : RowCounts => { c with
          uncarryable := c.uncarryable - old.weight.uncarryable + old.weight.uncarryable
          remoteRows := c.remoteRows - old.weight.remoteRows + old.weight.remoteRows }) =
          counts new.pairId := by
        cases counts new.pairId <;> simp
      rw [hsame, Function.update_eq_self]
    · rfl
  rw [hcounts]
  intro pair
  have hpair := h pair
  cases hone : counts pair with
  | none =>
    rw [hone] at hpair
    intro r hr
    rcases mem_cons.mp hr with rfl | hr
    · rw [hid]
      exact hpair old mem_cons_self
    · exact hpair r (mem_cons_of_mem _ hr)
  | some c =>
    rw [hone] at hpair
    exact hpair.trans (htally pair).symm

/-- A row's computed columns are those of its fields. -/
def Derives (fold : CaseFold) (row : StoredRow) : Prop := row.derived = Derived.of fold row.entry

section Columns

variable {fold : CaseFold} {row : StoredRow} {src dst : Path}

theorem derives_setMoved (h : Derives fold row) :
    Derives fold (setMoved dst (fold.collisionKey dst) (leaf dst = ".filenignore".toList)
      row) := by
  unfold Derives setMoved Derived.of
  rw [h]
  rfl

theorem derives_setMovedUnder (h : Derives fold row) (hbelow : Below row.entry.relPath src) :
    Derives fold (setMovedUnder src dst (fold.collisionKey src) (fold.collisionKey dst) row) := by
  obtain ⟨name, -, hpath⟩ := below_iff.mp hbelow
  have hfolded : row.derived.foldedPath = fold.collisionKey src ++ fold.collisionKey ('/' :: name) := by
    rw [h, ← CaseFold.collisionKey_append, ← hpath]
    rfl
  have hleaf : leaf (dst ++ '/' :: name) = leaf row.entry.relPath := by
    rw [hpath, leaf_append_slash dst src]
  have hrule : (row.entry.movedTo (dst ++ '/' :: name)).isRuleFile = row.entry.isRuleFile := by
    unfold BaselineEntry.isRuleFile
    rw [relPath_movedTo, hleaf]
    rfl
  unfold Derives setMovedUnder Derived.of
  rw [hpath, drop_left, hrule, hfolded, drop_left, relPath_movedTo,
    CaseFold.collisionKey_append, h]
  rfl

end Columns

/-- What a store holds of a pair, path by path. -/
def read (store : Store) (pair : PairId) : PathRows := fun path =>
  (store.get (pair, path)).map StoredRow.entry

theorem get_entries (store : Store) (pair : PairId) (path : Path) :
    (entries store pair).get path = read store pair path := by
  refine Option.ext fun entry => ?_
  unfold read entries
  rw [Baseline.get_eq_some_iff, Baseline.mem_ofRows, Option.map_eq_some_iff]
  simp only [get_eq_some_iff, mem_map, rowsOf, mem_filter, decide_eq_true_eq]
  constructor
  · rintro ⟨⟨row, ⟨hrow, hpair⟩, rfl⟩, hpath⟩
    exact ⟨row, ⟨hrow, Prod.ext hpair hpath⟩, rfl⟩
  rintro ⟨row, ⟨hrow, hkey⟩, rfl⟩
  exact ⟨⟨row, ⟨hrow, congrArg Prod.fst hkey⟩, rfl⟩, congrArg Prod.snd hkey⟩

theorem relPath_of_read {store : Store} {entry : BaselineEntry}
    (h : read store pair path = some entry) : entry.relPath = path := by
  rw [← get_entries] at h
  exact Baseline.get_relPath h

section Reads

variable {fold : CaseFold} {store : Store} {pair other : PairId}

theorem read_upsertRow (entry : BaselineEntry) :
    read (upsertRow fold store pair entry) pair = (read store pair).changed (.upsert entry) := by
  funext path
  dsimp only [PathRows.changed, read, upsertRow]
  rw [get_insertOrReplace]
  simp only [StoredRow.key, Prod.mk.injEq, true_and]
  split <;> rfl

theorem read_deleteAtPath (path at' : Path) :
    read (deleteAtPath store pair path) pair at' =
      if at' = path then none else read store pair at' := by
  dsimp only [read, deleteAtPath]
  rw [get_deleteWhere]
  simp only [atPath_iff, Prod.mk.injEq, true_and]
  split <;> rfl

theorem read_deleteUnderPath (dir at' : Path) :
    read (deleteUnderPath store pair dir) pair at' =
      if Below at' dir then none else read store pair at' := by
  dsimp only [read, deleteUnderPath]
  rw [get_deleteWhere]
  simp only [underPath_iff, true_and]
  split <;> rfl

theorem read_deleteSubtrees (roots : List Path) :
    read (writeChange fold store pair (.deleteSubtrees roots)) pair =
      (read store pair).changed (.deleteSubtrees roots) := by
  dsimp only [writeChange, PathRows.changed]
  induction roots generalizing store with
  | nil => simp
  | cons root roots ih =>
    rw [foldl_cons, ih]
    funext path
    rw [read_deleteUnderPath, read_deleteAtPath]
    simp only [exists_mem_cons_iff]
    by_cases hrest : ∃ r ∈ roots, path = r ∨ Below path r
    · rw [if_pos hrest, if_pos (Or.inr hrest)]
    by_cases hat : path = root
    · simp [hat]
    · by_cases hbelow : Below path root <;> simp [hrest, hat, hbelow]

/-! ### A move -/

/-- The move of one row to another path, as a renaming of keys. -/
def oneRenaming (pair : PairId) {src dst : Path} (hne : src ≠ dst) : Renaming (PairId × Path) where
  forward k := if k = (pair, src) then some (pair, dst) else none
  backward k := if k = (pair, dst) then some (pair, src) else none
  inverse a b := by
    constructor
    · intro h
      split at h
      · rename_i ha
        cases h
        rw [if_pos rfl, ha]
      · cases h
    intro h
    split at h
    · rename_i hb
      cases h
      rw [if_pos rfl, hb]
    · cases h
  apart a b h := by
    split at h
    · cases h
      exact if_neg fun heq => hne (congrArg Prod.snd heq).symm
    · cases h

theorem below_place (path src dst : Path) (h : Below path src) :
    Below (dst ++ path.drop src.length) dst ∧
      src ++ (dst ++ path.drop src.length).drop dst.length = path := by
  obtain ⟨name, hname, rfl⟩ := below_iff.mp h
  rw [drop_left, drop_left]
  exact ⟨below_iff.mpr ⟨name, hname, rfl⟩, rfl⟩

/-- The move of the rows under a directory, as a renaming of keys. -/
def underRenaming (pair : PairId) {src dst : Path}
    (hapart : ∀ path, Below path dst → ¬ Below path src) : Renaming (PairId × Path) where
  forward k := if k.1 = pair ∧ Below k.2 src then some (pair, dst ++ k.2.drop src.length) else none
  backward k := if k.1 = pair ∧ Below k.2 dst then some (pair, src ++ k.2.drop dst.length) else none
  inverse a b := by
    constructor
    · intro h
      split at h
      · rename_i ha
        cases h
        obtain ⟨hbelow, hback⟩ := below_place a.2 src dst ha.2
        rw [if_pos ⟨rfl, hbelow⟩, hback, ← ha.1]
      · cases h
    intro h
    split at h
    · rename_i hb
      cases h
      obtain ⟨hbelow, hback⟩ := below_place b.2 dst src hb.2
      rw [if_pos ⟨rfl, hbelow⟩, hback, ← hb.1]
    · cases h
  apart a b h := by
    split at h
    · rename_i ha
      cases h
      exact if_neg fun hin => hapart _ (below_place a.2 src dst ha.2).1 hin.2
    · cases h

variable {foldedTo : Path}

theorem read_moveAtPath {src dst : Path} {isRuleFile : Bool} (hne : src ≠ dst) (path : Path) :
    read (moveAtPath store pair src dst foldedTo isRuleFile) pair path =
      match if path = dst then read store pair src else none with
      | some entry => some (entry.movedTo path)
      | none => if path = src then none else read store pair path := by
  dsimp only [read, moveAtPath]
  have hcond : ∀ k, atPath pair src k ↔
      ((oneRenaming pair hne).forward k).isSome := by
    intro k
    rw [atPath_iff]
    dsimp only [oneRenaming]
    split <;> simp_all
  rw [get_updateOrReplace (oneRenaming pair hne) hcond]
  · dsimp only [oneRenaming]
    simp only [Prod.mk.injEq, true_and]
    by_cases hdst : path = dst
    · rw [if_pos hdst, if_pos hdst, Option.bind_some]
      cases hrow : store.get (pair, src) with
      | some row =>
        subst hdst
        rfl
      | none =>
        dsimp only [Option.map_none]
        split <;> rfl
    rw [if_neg hdst, if_neg hdst, Option.bind_none]
    dsimp only
    split <;> rfl
  intro row hrow
  rw [atPath_iff] at hrow
  dsimp only [oneRenaming]
  rw [if_pos hrow]
  exact congrArg (fun p => some (p, dst)) (congrArg Prod.fst hrow).symm

theorem read_moveUnderPath {src dst foldedFrom : Path}
    (hapart : ∀ path, Below path dst → ¬ Below path src) (path : Path) :
    read (moveUnderPath store pair src dst foldedFrom foldedTo) pair path =
      match if Below path dst then read store pair (src ++ path.drop dst.length) else none with
      | some entry => some (entry.movedTo path)
      | none => if Below path src then none else read store pair path := by
  dsimp only [read, moveUnderPath]
  have hcond : ∀ k, underPath pair src k ↔
      ((underRenaming pair hapart).forward k).isSome := by
    intro k
    rw [underPath_iff]
    dsimp only [underRenaming]
    split <;> simp_all
  rw [get_updateOrReplace (underRenaming pair hapart) hcond]
  · dsimp only [underRenaming]
    simp only [true_and]
    by_cases hdst : Below path dst
    · rw [if_pos hdst, if_pos hdst, Option.bind_some]
      cases hrow : store.get (pair, src ++ path.drop dst.length) with
      | some row =>
        have hpath : row.entry.relPath = src ++ path.drop dst.length :=
          congrArg Prod.snd (key_of_get hrow)
        have hback := (below_place path dst src hdst).2
        dsimp only [Option.map_some, setMovedUnder]
        rw [hpath, hback]
      | none =>
        dsimp only [Option.map_none]
        split <;> rfl
    rw [if_neg hdst, if_neg hdst, Option.bind_none]
    dsimp only
    split <;> rfl
  intro row hrow
  rw [underPath_iff] at hrow
  dsimp only [underRenaming]
  rw [if_pos hrow, ← hrow.1]
  rfl

theorem placeUnder_eq (path src dst : Path) :
    placeUnder path src dst = if path = src then some dst
      else if Below path src then some (dst ++ path.drop src.length) else none := by
  unfold placeUnder
  by_cases hat : path = src
  · rw [if_pos (Or.inl hat), if_pos hat, hat, drop_length, append_nil]
  rw [if_neg hat]
  simp only [hat, false_or]

theorem read_moveSubtree_of_ne {src dst : Path} (hne : src ≠ dst) (hsrc : isUnder src dst = false)
    (hdst : isUnder dst src = false) :
    read (writeChange fold store pair (.moveSubtree src dst)) pair =
      (read store pair).changed (.moveSubtree src dst) := by
  funext path
  have hsrc' : ¬ Below src dst := fun h => Bool.false_ne_true (hsrc.symm.trans h.1)
  have hdst' : ¬ Below dst src := fun h => Bool.false_ne_true (hdst.symm.trans h.1)
  have hapart : ∀ p, Below p dst → ¬ Below p src := fun p hp hin =>
    not_atOrUnder_both (Ne.symm hne) hdst hsrc (Or.inr hp.1) (Or.inr hin.1)
  dsimp only [writeChange, PathRows.changed]
  rw [read_moveUnderPath hapart, placeUnder_eq]
  by_cases hat : path = dst
  · -- only the row at the directory lands on its new path
    subst hat
    have hself : ¬ Below path path := fun h => by simp [Below] at h
    rw [if_neg hself, if_pos rfl, Option.bind_some, read_moveAtPath hne, if_pos rfl,
      if_neg hdst', if_neg (Ne.symm hne)]
    cases read store pair src with
    | some entry => rfl
    | none => simp [Ne.symm hne, hdst']
  rw [if_neg hat]
  by_cases hbelow : Below path dst
  · -- a row under it is where the first statement left it
    obtain ⟨hplace, hback⟩ := below_place path dst src hbelow
    have hfrom : src ++ path.drop dst.length ≠ dst := fun heq => hdst' (heq ▸ hplace)
    have hnotSrc : src ++ path.drop dst.length ≠ src := by
      intro heq
      have hself : Below src src := by
        have hin := hplace
        rwa [heq] at hin
      simp [Below] at hself
    have hpath : path ≠ src := fun heq => hsrc' (heq ▸ hbelow)
    rw [if_pos hbelow, if_pos hbelow, Option.bind_some, read_moveAtPath hne, if_neg hfrom,
      read_moveAtPath hne, if_neg hat]
    rw [if_neg hnotSrc, if_neg hpath]
    cases read store pair (src ++ path.drop dst.length) with
    | some entry => rfl
    | none => simp [hpath]
  rw [if_neg hbelow, if_neg hbelow, Option.bind_none, read_moveAtPath hne, if_neg hat]
  by_cases hat' : path = src
  · simp [hat']
  · simp [hat']

end Reads

/-- The invariant of the stored rows. -/
structure Sound (fold : CaseFold) (store : Store) : Prop where
  derived : ∀ row ∈ store.rows, Derives fold row
  tallied : Tallied store.side store.rows

section Step

variable {fold : CaseFold} {store : Store} {pair other : PairId}

section

variable (h : Sound fold store)
include h

theorem sound_upsertRow (entry : BaselineEntry) :
    Sound fold (upsertRow fold store pair entry) where
  derived := forall_insertOrReplace h.derived rfl
  tallied := keeps_tallied.insertOrReplace h.tallied _

theorem sound_deleteAtPath (path : Path) :
    Sound fold (deleteAtPath store pair path) where
  derived := forall_deleteWhere h.derived
  tallied := keeps_tallied.deleteWhere h.tallied _

theorem sound_deleteUnderPath (dir : Path) :
    Sound fold (deleteUnderPath store pair dir) where
  derived := forall_deleteWhere h.derived
  tallied := keeps_tallied.deleteWhere h.tallied _

theorem sound_moveAtPath (src dst : Path) :
    Sound fold (moveAtPath store pair src dst (fold.collisionKey dst)
      (leaf dst = ".filenignore".toList)) where
  derived := forall_updateOrReplace h.derived fun _ _ hrow => derives_setMoved hrow
  tallied := keeps_tallied.updateOrReplace h.tallied _ fun _ _ _ hok => tallied_update rfl rfl hok

theorem sound_moveUnderPath (src dst : Path) :
    Sound fold (moveUnderPath store pair src dst (fold.collisionKey src)
      (fold.collisionKey dst)) where
  derived := forall_updateOrReplace h.derived fun _ hrow hderives =>
    derives_setMovedUnder hderives (underPath_iff.mp hrow).2
  tallied := keeps_tallied.updateOrReplace h.tallied _ fun _ _ _ hok => tallied_update rfl rfl hok

theorem sound_writeChange (change : BaselineChange) :
    Sound fold (writeChange fold store pair change) := by
  cases change with
  | upsert entry => exact sound_upsertRow h entry
  | delete path => exact sound_deleteAtPath h path
  | deleteSubtrees roots =>
    refine List.foldlRecOn (motive := Sound fold) roots _ h fun s hs root _ => ?_
    exact sound_deleteUnderPath (sound_deleteAtPath hs root) root
  | moveSubtree src dst => exact sound_moveUnderPath (sound_moveAtPath h src dst) src dst

end

/-! ### A directory moved onto itself -/

theorem setMoved_self {row : StoredRow} (h : Derives fold row) :
    setMoved row.entry.relPath (fold.collisionKey row.entry.relPath)
      (leaf row.entry.relPath = ".filenignore".toList) row = row := by
  have hderives := @derives_setMoved fold row row.entry.relPath h
  cases row
  unfold Derives at h hderives
  dsimp only [setMoved] at h hderives ⊢
  rw [hderives, movedTo_self, h]

theorem setMovedUnder_self {row : StoredRow} {dir : Path} (h : Derives fold row)
    (hbelow : Below row.entry.relPath dir) :
    setMovedUnder dir dir (fold.collisionKey dir) (fold.collisionKey dir) row = row := by
  have hderives := @derives_setMovedUnder fold row dir dir h hbelow
  have hback : dir ++ row.entry.relPath.drop dir.length = row.entry.relPath := by
    obtain ⟨name, -, hpath⟩ := below_iff.mp hbelow
    rw [hpath, drop_left]
  cases row
  unfold Derives at h hderives
  dsimp only [setMovedUnder] at h hback hderives ⊢
  rw [hderives, hback, movedTo_self, h]

theorem read_moveSubtree_self (h : Sound fold store) (dir : Path) :
    read (writeChange fold store pair (.moveSubtree dir dir)) pair =
      (read store pair).changed (.moveSubtree dir dir) := by
  have hsame : read (writeChange fold store pair (.moveSubtree dir dir)) pair = read store pair := by
    funext path
    dsimp only [writeChange, read, moveUnderPath]
    rw [get_updateOrReplace_self]
    · dsimp only [moveAtPath]
      rw [get_updateOrReplace_self]
      intro k old hk hold
      obtain ⟨hrow, hkey⟩ := get_eq_some_iff.mp hold
      have hdir : old.entry.relPath = dir :=
        congrArg Prod.snd (hkey.trans (atPath_iff.mp hk))
      rw [← hdir]
      exact setMoved_self (h.derived old hrow)
    intro k old hk hold
    obtain ⟨hrow, hkey⟩ := get_eq_some_iff.mp hold
    have hbelow := (underPath_iff.mp hk).2
    rw [← hkey] at hbelow
    exact setMovedUnder_self ((sound_moveAtPath h dir dir).derived old hrow) hbelow
  rw [hsame]
  funext path
  dsimp only [PathRows.changed]
  rw [placeUnder_eq]
  have hplace : (if path = dir then some dir
      else if Below path dir then some (dir ++ path.drop dir.length) else none) =
      if path = dir ∨ Below path dir then some path else none := by
    by_cases hat : path = dir
    · simp [hat]
    by_cases hbelow : Below path dir
    · obtain ⟨name, -, hpath⟩ := below_iff.mp hbelow
      rw [if_neg hat, if_pos hbelow, if_pos (Or.inr hbelow), hpath, drop_left]
    · simp [hat, hbelow]
  rw [hplace]
  split
  · rename_i row hrow
    split at hrow
    · rw [Option.bind_some] at hrow
      rw [hrow, ← relPath_of_read hrow, movedTo_self]
    · cases hrow
  rename_i hnone
  split
  · rename_i hin
    rwa [if_pos hin, Option.bind_some] at hnone
  · rfl

theorem read_writeChange (h : Sound fold store) {change : BaselineChange} (hends : change.Apart) :
    read (writeChange fold store pair change) pair = (read store pair).changed change := by
  cases change with
  | upsert entry => exact read_upsertRow entry
  | delete path => exact funext fun at' => read_deleteAtPath path at'
  | deleteSubtrees roots => exact read_deleteSubtrees roots
  | moveSubtree src dst =>
    by_cases hne : src = dst
    · subst hne
      exact read_moveSubtree_self h src
    · exact read_moveSubtree_of_ne hne hends.1 hends.2

theorem read_writeChange_other (hne : other ≠ pair) (change : BaselineChange) :
    read (writeChange fold store pair change) other = read store other := by
  have hat : ∀ path at', atPath pair path (other, at') = false := by
    intro path at'
    simp [atPath, hne]
  have hunder : ∀ dir at', underPath pair dir (other, at') = false := by
    intro dir at'
    simp [underPath, hne]
  have hdelete : ∀ (s : Store) (cond : PairId × Path → Bool) (at' : Path),
      cond (other, at') = false →
      (s.deleteWhere triggers cond).get (other, at') = s.get (other, at') := by
    intro s cond at' hcond
    rw [get_deleteWhere, hcond]
    rfl
  funext path
  unfold read
  congr 1
  cases change with
  | upsert entry =>
    dsimp only [writeChange, upsertRow]
    rw [get_insertOrReplace, if_neg fun heq => hne (congrArg Prod.fst heq)]
  | delete path' => exact hdelete _ _ _ (hat _ _)
  | deleteSubtrees roots =>
    refine List.foldlRecOn (motive := fun s : Store => s.get (other, path) = store.get (other, path))
      roots _ rfl fun s hs root _ => ?_
    dsimp only [deleteUnderPath, deleteAtPath]
    rw [hdelete _ _ _ (hunder _ _), hdelete _ _ _ (hat _ _), hs]
  | moveSubtree src dst =>
    dsimp only [writeChange, moveUnderPath, moveAtPath]
    rw [get_updateOrReplace_of_ne (hunder _ _), get_updateOrReplace_of_ne
      (hat _ _)]
    · intro row hrow heq
      exact hne ((congrArg Prod.fst heq).symm.trans (congrArg Prod.fst (atPath_iff.mp hrow)))
    intro row hrow heq
    exact hne ((congrArg Prod.fst heq).symm.trans (underPath_iff.mp hrow).1)

end Step

/-! ## Every run -/

variable {fold : CaseFold}

theorem count_natCast (n : Nat) : count (n : Int) = some n := by
  unfold count
  rw [if_pos (Int.natCast_nonneg n), Int.toNat_natCast]

theorem Sound.readCounts {store : Store} (h : Sound fold store) (pair : PairId) :
    Stored.readCounts store pair = some (counts (entries store pair)) := by
  have hperm : (entries store pair).rows.Perm ((rowsOf store pair).map StoredRow.entry) :=
    perm_insertionSort _ _
  have hcarryable : ∀ row ∈ store.rows, row.derived.carryable = row.entry.carryable := by
    intro row hrow
    have hderives : row.derived = Derived.of fold row.entry := h.derived row hrow
    rw [hderives]
    rfl
  have hcounts : counts (entries store pair) =
      ⟨store.rows.countP fun row => row.pairId = pair,
        store.rows.countP fun row => row.pairId = pair && !row.derived.carryable,
        store.rows.countP fun row => row.pairId = pair && row.entry.remoteUuid.isSome⟩ := by
    unfold PlainRows.counts
    rw [hperm.length_eq, hperm.countP_eq, hperm.countP_eq, length_map, countP_map,
      countP_map]
    unfold rowsOf
    rw [← countP_eq_length_filter, countP_filter, countP_filter]
    congr 1
    · refine countP_congr fun row hrow => ?_
      rw [hcarryable row hrow]
      simp [and_comm]
    refine countP_congr fun row _ => ?_
    simp [and_comm]
  have hpair := h.tallied pair
  rw [hcounts]
  unfold Stored.readCounts
  cases hside : store.side pair with
  | none =>
    rw [hside] at hpair
    have hzero := tally_of_none hpair
    unfold tally at hzero
    simp only [RowCounts.mk.injEq, Int.natCast_eq_zero] at hzero
    obtain ⟨hrows, huncarryable, hremote⟩ := hzero
    rw [hrows, huncarryable, hremote]
  | some c =>
    rw [hside] at hpair
    rw [hpair]
    unfold tally
    dsimp only
    rw [count_natCast, count_natCast, count_natCast]
    rfl

theorem sound_new : Sound fold Store.new where
  derived row hrow := by cases hrow
  tallied pair row hrow := by cases hrow

/-- After any changes the columns and counts are right, and each pair's rows are what
its own changes made of none. -/
theorem sound_writeChanges {changes : List (PairId × BaselineChange)}
    (hends : ∀ change ∈ changes, change.2.Apart) (store : Store) (h : Sound fold store) (pair : PairId) :
    Sound fold (writeChanges fold store changes) ∧
      read (writeChanges fold store changes) pair =
        (changesOf pair changes).foldl PathRows.changed (read store pair) := by
  unfold writeChanges changesOf
  induction changes generalizing store with
  | nil => exact ⟨h, rfl⟩
  | cons change changes ih =>
    obtain ⟨hone, hrest⟩ := forall_mem_cons.mp hends
    obtain ⟨hsound, hread⟩ := ih hrest _ (sound_writeChange h change.2)
    refine ⟨hsound, hread.trans ?_⟩
    by_cases hpair : change.1 = pair
    · subst hpair
      rw [filter_cons_of_pos (by simp), map_cons, foldl_cons,
        read_writeChange h hone]
    rw [filter_cons_of_neg (by simpa using hpair),
      read_writeChange_other (Ne.symm hpair)]

/-- From a store without rows, whatever changes are made of which pairs: every computed
column is what its row's fields say, every pair's counts are those of its rows, and a
pair's rows are the plain map its own changes make. -/
theorem writeChanges_faithful {changes : List (PairId × BaselineChange)} (hends : ∀ change ∈ changes, change.2.Apart) :
    let store := writeChanges fold Store.new changes
    (∀ row ∈ store.rows, row.derived = Derived.of fold row.entry) ∧
      ∀ pair, Stored.readCounts store pair = some (counts (entries store pair)) ∧
        ∀ path, (entries store pair).get path =
          (changesOf pair changes).foldl PathRows.changed (fun _ => none) path := by
  intro store
  have hrun := fun pair => @sound_writeChanges fold changes hends Store.new sound_new pair
  refine ⟨(hrun 0).1.derived, fun pair => ⟨(hrun pair).1.readCounts pair, fun path => ?_⟩⟩
  rw [get_entries, (hrun pair).2]
  rfl

/-- A directory moved onto one of another spelling, over a row already there. -/
def respelled : List (PairId × BaselineChange) :=
  let row (path : String) (uuid : Uuid) : BaselineEntry :=
    { relPath := path.toList, kind := .file, remoteUuid := some uuid, contentHash := some 1,
      size := some 1, localMtime := some 0, remoteModified := some 0, state := .synced,
      localKind := none, remoteKind := none, remoteHash := none, remoteSize := none,
      remoteStableUuid := none, agreedHash := some 1 }
  [(1, .upsert (row "Docs/a" 1)), (1, .upsert (row "docs/a" 2)), (2, .upsert (row "Docs/a" 3)),
    (1, .moveSubtree "Docs".toList "docs".toList)]

theorem respelled_faithful :
    let store := writeChanges asciiFold Store.new respelled
    (∀ row ∈ store.rows, row.derived = Derived.of asciiFold row.entry) ∧
      ∀ pair, Stored.readCounts store pair = some (counts (entries store pair)) ∧
        ∀ path, (entries store pair).get path =
          (changesOf pair respelled).foldl PathRows.changed (fun _ => none) path :=
  writeChanges_faithful (by
    intro change hchange
    simp only [respelled, mem_cons, not_mem_nil, or_false] at hchange
    rcases hchange with rfl | rfl | rfl | rfl
    · trivial
    · trivial
    · trivial
    · exact ⟨by decide, by decide⟩)

end Stored

end SyncEngine
