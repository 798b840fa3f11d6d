import SyncEngine.Rows.Edits
import SyncEngine.Rows.Unconfirmed

/-! # Edits keep the view and its counts

What one edit does to the layers is what it does to the plain map: the layers stay as
a pass builds them, the view answers at each path as the edited map does, and the
counts are those of its rows, so that none is ever taken below zero.
-/

namespace SyncEngine.Rows

open Collections Block Edits List

/-! ## The counts -/

def weight (row : BaselineEntry) : Bool × Bool := (row.carryable, row.remoteUuid.isSome)

/-- The counts are those of a list of rows. -/
structure Counted (edits : Edits) (held : List BaselineEntry) : Prop where
  rows : edits.rows = held.length
  carryable : edits.carryable = held.countP BaselineEntry.carryable
  remoteRows : edits.remoteRows = held.countP fun row => row.remoteUuid.isSome

namespace Counted

variable {edits : Edits} {rows : List BaselineEntry} {row : BaselineEntry}

section

variable (h : Counted edits rows)
include h

theorem of_weights {other : List BaselineEntry}
    (hperm : (rows.map weight).Perm (other.map weight)) : Counted edits other where
  rows := by
    have hlen := hperm.length_eq
    rw [length_map, length_map] at hlen
    rw [h.rows, hlen]
  carryable := by
    have hcount := hperm.countP_eq Prod.fst
    rw [countP_map, countP_map] at hcount
    exact h.carryable.trans hcount
  remoteRows := by
    have hcount := hperm.countP_eq Prod.snd
    rw [countP_map, countP_map] at hcount
    exact h.remoteRows.trans hcount

theorem perm {other : List BaselineEntry} (hperm : rows.Perm other) :
    Counted edits other := h.of_weights (hperm.map weight)

theorem layers_irrel (layers : List Layer) :
    Counted { edits with layers := layers } rows := ⟨h.rows, h.carryable, h.remoteRows⟩

theorem setTop (block : Block) : Counted (edits.setTop block) rows :=
  h.layers_irrel _

theorem count (row : BaselineEntry) :
    Counted (edits.count row) (row :: rows) where
  rows := by
    rw [length_cons, ← h.rows]
    rfl
  carryable := by
    rw [countP_cons, ← h.carryable]
    unfold Edits.count
    cases row.carryable <;> rfl
  remoteRows := by
    rw [countP_cons, ← h.remoteRows]
    unfold Edits.count
    cases row.remoteUuid.isSome <;> rfl

end

theorem take_some {count n : Nat} {counted : Bool} (h : count = n + counted.toNat) :
    take count counted = some n := by
  subst h
  cases counted <;> rfl

theorem uncount (h : Counted edits (row :: rows)) :
    ∃ edits', edits.uncount row = some edits' ∧ Counted edits' rows ∧
      edits'.layers = edits.layers := by
  have hrows : edits.rows = rows.length + true.toNat := h.rows
  have hcarry : edits.carryable = rows.countP BaselineEntry.carryable + row.carryable.toNat := by
    rw [h.carryable, countP_cons]
    cases row.carryable <;> rfl
  have hremote : edits.remoteRows =
      rows.countP (fun row => row.remoteUuid.isSome) + row.remoteUuid.isSome.toNat := by
    rw [h.remoteRows, countP_cons]
    cases row.remoteUuid.isSome <;> rfl
  refine ⟨⟨edits.layers, rows.length, rows.countP BaselineEntry.carryable,
    rows.countP fun row => row.remoteUuid.isSome⟩, ?_, ⟨rfl, rfl, rfl⟩, rfl⟩
  unfold Edits.uncount
  rw [take_some hrows, Option.bind_some, take_some hcarry, Option.bind_some, take_some hremote,
    Option.map_some]

theorem foldlM_uncount {out : List BaselineEntry} (h : Counted edits (out ++ rows)) :
    ∃ edits', out.foldlM Edits.uncount edits = some edits' ∧ Counted edits' rows ∧
      edits'.layers = edits.layers := by
  induction out generalizing edits with
  | nil => exact ⟨edits, rfl, h, rfl⟩
  | cons row out ih =>
    obtain ⟨edits₁, hone, hcounted, hlayers⟩ := h.uncount
    obtain ⟨edits₂, hrest, hcounted₂, hlayers₂⟩ := ih hcounted
    refine ⟨edits₂, ?_, hcounted₂, hlayers₂.trans hlayers⟩
    rw [foldlM_cons, hone]
    exact hrest

theorem foldl_count (h : Counted edits rows) (added : List BaselineEntry) :
    Counted (added.foldl Edits.count edits) (added.reverse ++ rows) ∧
      (added.foldl Edits.count edits).layers = edits.layers := by
  induction added generalizing edits rows with
  | nil => exact ⟨h, rfl⟩
  | cons row added ih =>
    obtain ⟨hcounted, hlayers⟩ := ih (h.count row)
    rw [foldl_cons, reverse_cons, append_assoc]
    exact ⟨hcounted, hlayers⟩

end Counted

theorem new_counted (table : Table) :
    ∃ edits, new (PlainRows.counts table.toBaseline) = some edits ∧
      Counted edits table.rows ∧ edits.layers = [] := by
  have hsplit := length_eq_countP_add_countP BaselineEntry.carryable (l := table.rows)
  have hle : (PlainRows.counts table.toBaseline).uncarryable ≤
      (PlainRows.counts table.toBaseline).rows := countP_le_length
  have hcarry : (PlainRows.counts table.toBaseline).rows -
      (PlainRows.counts table.toBaseline).uncarryable =
        table.rows.countP BaselineEntry.carryable := by
    unfold PlainRows.counts
    dsimp only
    have hneg : table.rows.countP (fun row => !row.carryable) =
        table.rows.countP fun row => decide ¬ row.carryable := by
      refine countP_congr fun row _ => ?_
      simp
    omega
  refine ⟨⟨[], table.rows.length, table.rows.countP BaselineEntry.carryable,
    table.rows.countP fun row => row.remoteUuid.isSome⟩, ?_, ⟨rfl, rfl, rfl⟩, rfl⟩
  unfold Edits.new carryableCount
  rw [if_pos hle, Option.map_some, hcarry]
  rfl

section Block

variable {table : Table} {fold : CaseFold} {layers : List Layer}

@[simp] theorem empty_showsBelow (path : Path) : empty.showsBelow path := rfl

theorem empty_sound (view : Path → Option BaselineEntry) : empty.Sound fold view where
  clean row hrow := by cases hrow
  folded entry := by
    refine iff_of_false (SortedSet.not_mem_empty entry) ?_
    rintro ⟨path, hpath, -⟩
    cases hpath
  awaits path agreed row hget := by cases hget
  markedRow path agreed hget := by cases hget

theorem getAt_empty (path : Path) :
    getAt table (.block empty :: layers) path = getAt table layers path := by
  rw [getAt_block, if_pos (empty_showsBelow path)]
  cases getAt table layers path <;> rfl

theorem topBlock_spec (hs : Sound table fold layers) :
    (∀ path, getAt table (.block (topBlock layers).1 :: (topBlock layers).2) path =
        getAt table layers path) ∧
      Sound table fold (.block (topBlock layers).1 :: (topBlock layers).2) ∧
      ∃ marks, (topBlock layers).1.agreed = .held marks := by
  have hnew : (∀ path, getAt table (.block empty :: layers) path = getAt table layers path) ∧
      Sound table fold (.block empty :: layers) ∧ ∃ marks, empty.agreed = .held marks :=
    ⟨getAt_empty, ⟨empty_sound _, hs⟩, ∅, rfl⟩
  cases layers with
  | nil => exact hnew
  | cons layer layers =>
    cases layer with
    | moved src dst => exact hnew
    | block block =>
      cases hagreed : block.agreed with
      | staged stage =>
        have htop : topBlock (.block block :: layers) =
            (empty, .block block :: layers) := by
          simp only [topBlock, hagreed, Marks.heldMarks, Option.isSome_none,
            Bool.false_eq_true, if_false]
        rw [htop]
        exact hnew
      | held marks =>
        have htop : topBlock (.block block :: layers) = (block, layers) := by
          simp only [topBlock, hagreed, Marks.heldMarks, Option.isSome_some, if_true]
        rw [htop]
        exact ⟨fun _ => rfl, hs, marks, hagreed⟩

variable {view : Path → Option BaselineEntry}

theorem Block.Sound.shrink {block block' : Block}
    (h : block.Sound fold view) (hagreed : block'.agreed = block.agreed) (hclean : block'.written.Clean)
    (hfolded : ∀ entry, entry ∈ block'.folded ↔
      ∃ path, block'.written.containsKey path ∧ entry = foldedKey fold path)
    (hshows : ∀ path, block'.showsBelow path → block.showsBelow path) :
    block'.Sound fold view where
  clean := hclean
  folded := hfolded
  awaits path agreed row hget hshow := h.awaits path agreed row (hagreed ▸ hget) (hshows path hshow)
  markedRow path agreed hget hawaits hshow :=
    h.markedRow path agreed (hagreed ▸ hget) hawaits (hshows path hshow)

variable {block : Block}
variable {row : BaselineEntry}

theorem write_showsBelow {path : Path} :
    (block.write fold row).showsBelow path ↔
      block.showsBelow path ∧ path ≠ row.relPath := by
  rw [showsBelow_iff, showsBelow_iff]
  unfold Block.write
  rw [Baseline.get_write]
  by_cases hpath : path = row.relPath
  · simp [hpath]
  · simp [hpath]

theorem write_sound
    (h : block.Sound fold view) (hrow : IsRowPath row.relPath) :
    (block.write fold row).Sound fold view := by
  refine h.shrink rfl ?_ ?_ fun path hshows => (write_showsBelow.mp hshows).1
  · intro r hr
    rcases Baseline.mem_write.mp hr with rfl | ⟨hmem, -⟩
    · exact hrow
    · exact h.clean r hmem
  intro entry
  unfold Block.write SyncEngine.Baseline.containsKey
  rw [SortedSet.mem_ofList, mem_cons, ← SortedSet.mem_def, h.folded]
  constructor
  · rintro (rfl | ⟨path, hpath, rfl⟩)
    · exact ⟨row.relPath, by rw [Baseline.get_write, if_pos rfl]; rfl, rfl⟩
    refine ⟨path, ?_, rfl⟩
    rw [Baseline.get_write]
    split
    · rfl
    · exact hpath
  rintro ⟨path, hpath, rfl⟩
  rw [Baseline.get_write] at hpath
  split at hpath
  · rename_i heq
    exact Or.inl (by rw [heq])
  · exact Or.inr ⟨path, hpath, rfl⟩

theorem getAt_write (path : Path) :
    getAt table (.block (block.write fold row) :: layers) path =
      if path = row.relPath then some row
      else getAt table (.block block :: layers) path := by
  rw [getAt_block, getAt_block]
  by_cases hpath : path = row.relPath
  · have hnot : ¬ (block.write fold row).showsBelow path := fun hshows =>
      (write_showsBelow.mp hshows).2 hpath
    rw [if_neg hnot, if_pos hpath]
    unfold Block.write
    rw [Baseline.get_write, if_pos hpath]
  have hshows : (block.write fold row).showsBelow path = block.showsBelow path := by
    rw [Bool.eq_iff_iff, write_showsBelow]
    exact and_iff_left hpath
  rw [if_neg hpath, hshows]
  congr 1
  unfold Block.write
  rw [Baseline.get_write, if_neg hpath]

/-! ### Vacating a subtree -/

def vacatedBlock (fold : CaseFold) (block : Block) (src : Path) : Block :=
  unwriteSubtree
    { block with vacated := SortedSet.ofList (src :: block.vacated.toList) } fold src

theorem mem_dropped {src path : Path} (hclean : block.written.Clean) :
    path ∈ (block.written.rowPaths.filter fun p =>
        src ≤ p && p < src ++ ['0']).filter (fun p => decide (AtOrUnder p src)) ↔
      (block.written.get path).isSome ∧ AtOrUnder path src := by
  rw [mem_filter, mem_filter, SyncEngine.Baseline.mem_rowPaths, decide_eq_true_eq,
    Bool.and_eq_true, decide_eq_true_eq, decide_eq_true_eq]
  constructor
  · rintro ⟨⟨hin, -⟩, hunder⟩
    exact ⟨hin, hunder⟩
  rintro ⟨hin, hunder⟩
  refine ⟨⟨hin, ?_⟩, hunder⟩
  obtain ⟨row, hrow⟩ := Option.isSome_iff_exists.mp hin
  have hslash : src < src ++ ['/'] := lt_append_of_ne_nil src (cons_ne_nil _ _)
  rcases hunder with rfl | hunder
  · exact ⟨le_rfl, lt_trans hslash (slash_lt_zero _)⟩
  obtain ⟨hlo, hhi⟩ := (hclean.of_get hrow).under_iff.mpr hunder
  exact ⟨(lt_trans hslash hlo).le, hhi⟩

theorem get_vacatedBlock {src path : Path} (hclean : block.written.Clean) :
    (vacatedBlock fold block src).written.get path =
      if AtOrUnder path src then none else block.written.get path := by
  unfold vacatedBlock Block.unwriteSubtree
  rw [SyncEngine.Baseline.get_foldl_remove]
  simp only [mem_dropped hclean]
  cases hget : block.written.get path with
  | none => simp
  | some row => simp

theorem vacated_showsBelow {src path : Path} (hclean : block.written.Clean) :
    (vacatedBlock fold block src).showsBelow path ↔
      block.showsBelow path ∧ ¬ AtOrUnder path src := by
  have hvacated : ∀ v, v ∈ (vacatedBlock fold block src).vacated ↔ v = src ∨ v ∈ block.vacated := by
    intro v
    unfold vacatedBlock Block.unwriteSubtree
    rw [SortedSet.mem_ofList, mem_cons]
    exact Iff.rfl
  rw [showsBelow_iff, showsBelow_iff, get_vacatedBlock hclean]
  simp only [hvacated, forall_eq_or_imp]
  by_cases hunder : AtOrUnder path src
  · simp [hunder]
  · simp [hunder]

theorem vacated_sound
    (h : block.Sound fold view) (src : Path) : (vacatedBlock fold block src).Sound fold view := by
  have hget := fun path => @get_vacatedBlock fold block src path h.clean
  refine h.shrink rfl ?_ ?_ fun path hshows => ((vacated_showsBelow h.clean).mp hshows).1
  · intro row hrow
    have hrow' := SyncEngine.Baseline.mem_rows_iff.mp hrow
    rw [hget] at hrow'
    split at hrow'
    · cases hrow'
    · exact h.clean.of_get hrow'
  intro entry
  have hmem : entry ∈ (vacatedBlock fold block src).folded ↔ entry ∈ block.folded ∧
      ¬ ∃ path, ((block.written.get path).isSome ∧ AtOrUnder path src) ∧
        foldedKey fold path = entry := by
    unfold vacatedBlock Block.unwriteSubtree
    rw [SortedSet.mem_ofList, mem_filter, decide_eq_true_eq, mem_map]
    simp only [mem_dropped h.clean]
    exact Iff.rfl
  rw [hmem, h.folded]
  unfold SyncEngine.Baseline.containsKey
  constructor
  · rintro ⟨⟨path, hpath, rfl⟩, hnot⟩
    refine ⟨path, ?_, rfl⟩
    rw [hget, if_neg fun hunder => hnot ⟨path, ⟨hpath, hunder⟩, rfl⟩]
    exact hpath
  rintro ⟨path, hpath, rfl⟩
  rw [hget] at hpath
  split at hpath
  · cases hpath
  rename_i hnot
  refine ⟨⟨path, hpath, rfl⟩, ?_⟩
  rintro ⟨q, ⟨-, hunder⟩, heq⟩
  have hq : q = path := congrArg FoldedKey.path heq
  exact hnot (hq ▸ hunder)

theorem getAt_vacated (hclean : block.written.Clean) (src path : Path) :
    getAt table (.block (vacatedBlock fold block src) :: layers) path =
      if AtOrUnder path src then none else getAt table (.block block :: layers) path := by
  rw [getAt_block, getAt_block]
  by_cases hunder : AtOrUnder path src
  · have hnot : ¬ (vacatedBlock fold block src).showsBelow path := fun hshows =>
      ((vacated_showsBelow hclean).mp hshows).2 hunder
    rw [if_neg hnot, if_pos hunder, get_vacatedBlock hclean, if_pos hunder]
  have hshows : (vacatedBlock fold block src).showsBelow path = block.showsBelow path := by
    rw [Bool.eq_iff_iff, vacated_showsBelow hclean]
    exact and_iff_left hunder
  rw [hshows, if_neg hunder, get_vacatedBlock hclean, if_neg hunder]
  rfl

end Block

/-! ## Edits over a plain map -/

/-- The edits make the view the plain map is. -/
structure Over (table : Table) (fold : CaseFold) (edits : Edits) (flat : PlainRows) : Prop where
  sound : Sound table fold edits.layers
  agrees : ∀ path, getAt table edits.layers path = flat.get path

/-- A block on top makes the view the plain map is, its markers held one by one. -/
structure Top (table : Table) (fold : CaseFold) (block : Block) (below : List Layer)
    (flat : PlainRows) : Prop where
  sound : Sound table fold (.block block :: below)
  agrees : ∀ path, getAt table (.block block :: below) path = flat.get path
  held : ∃ marks, block.agreed = .held marks

section Over

variable {table : Table} {fold : CaseFold} {edits : Edits} {flat : PlainRows} {block : Block}
  {below : List Layer}

theorem Over.top (h : Over table fold edits flat) :
    Top table fold (topBlock edits.layers).1 (topBlock edits.layers).2 flat := by
  obtain ⟨hview, hsound, hheld⟩ := topBlock_spec h.sound
  exact ⟨hsound, fun path => (hview path).trans (h.agrees path), hheld⟩

theorem Over.setTop {flat' : PlainRows} (h : Top table fold block (topBlock edits.layers).2 flat') :
    Over table fold (edits.setTop block) flat' := ⟨h.sound, h.agrees⟩

theorem Over.clean (h : Over table fold edits flat) : flat.Clean := by
  intro row hrow
  have hshown : getAt table edits.layers row.relPath = some row := by
    rw [h.agrees]
    exact SyncEngine.Baseline.mem_rows_iff.mp hrow
  exact h.sound.isRowPath hshown

variable {row : BaselineEntry}

theorem Top.write (h : Top table fold block below flat)
    (hrow : IsRowPath row.relPath) : Top table fold (block.write fold row) below (flat.write row) where
  sound := ⟨write_sound h.sound.block hrow, h.sound.tail⟩
  agrees path := by rw [getAt_write, SyncEngine.Baseline.get_write, h.agrees]
  held := h.held

variable {rows : List BaselineEntry}

theorem Top.foldl_write (h : Top table fold block below flat)
    (hrows : ∀ row ∈ rows, IsRowPath row.relPath) :
    Top table fold (rows.foldl (fun block row => block.write fold row) block) below
      (rows.foldl SyncEngine.Baseline.write flat) := by
  induction rows generalizing block flat with
  | nil => exact h
  | cons row rows ih =>
    exact ih (h.write (hrows row mem_cons_self)) fun r hr =>
      hrows r (mem_cons_of_mem _ hr)

theorem Top.vacate (h : Top table fold block below flat) (src : Path) :
    Top table fold (vacatedBlock fold block src) below (flat.dropSubtree src) where
  sound := ⟨vacated_sound h.sound.block src, h.sound.tail⟩
  agrees path := by
    rw [getAt_vacated h.sound.block.clean, SyncEngine.Baseline.get_dropSubtree, h.agrees]
  held := h.held

/-- A row of the view itself, with only its marker changed. -/
def OwnRow (flat : PlainRows) (row : BaselineEntry) : Prop :=
  ∃ old, flat.get row.relPath = some old ∧ row = old.agreeing row.agreedHash

instance (flat : PlainRows) (row : BaselineEntry) : Decidable (OwnRow flat row) :=
  decidable_of_iff ((flat.get row.relPath).any fun old => row = old.agreeing row.agreedHash)
    (by simp [OwnRow, Option.any_eq_true])

theorem OwnRow.setAgreed (h : OwnRow flat row) (path : Path)
    (hash : Option Blake3Hash) : OwnRow (flat.setAgreed path hash) row := by
  obtain ⟨old, hold, hrow⟩ := h
  unfold OwnRow
  rw [SyncEngine.Baseline.get_setAgreed, hold]
  split
  · exact ⟨old.agreeing hash, rfl, hrow⟩
  · exact ⟨old, rfl, hrow⟩

theorem agreeing_mark (block : Block) (row : BaselineEntry) (hash : Option Blake3Hash) :
    (block.mark row).agreeing hash = row.agreeing hash := by
  unfold Block.mark
  split <;> rfl

section

variable (h : Top table fold block below flat)
include h

theorem Top.advance_written {path : Path}
    {hash : Option Blake3Hash} (hwritten : (block.written.get path).isSome) :
    Top table fold { block with written := block.written.setAgreed path hash } below
      (flat.setAgreed path hash) := by
  have hnone : ∀ q, (block.written.setAgreed path hash).get q = none ↔ block.written.get q = none := by
    intro q
    rw [SyncEngine.Baseline.get_setAgreed]
    split <;> simp
  have hshows : ∀ q, showsBelow { block with written := block.written.setAgreed path hash } q =
      block.showsBelow q := by
    intro q
    rw [Bool.eq_iff_iff, showsBelow_iff, showsBelow_iff]
    exact and_congr_right fun _ => hnone q
  refine ⟨⟨h.sound.block.shrink rfl ?_ ?_ fun q hq => by rwa [hshows] at hq, h.sound.tail⟩, ?_, h.held⟩
  · intro row hrow
    have hget := SyncEngine.Baseline.mem_rows_iff.mp hrow
    have hsome : block.written.get row.relPath ≠ none := fun hn => by
      rw [(hnone _).mpr hn] at hget
      cases hget
    obtain ⟨old, hold⟩ := Option.ne_none_iff_exists'.mp hsome
    exact h.sound.block.clean.of_get hold
  · intro entry
    rw [h.sound.block.folded]
    refine exists_congr fun q => and_congr_left fun _ => ?_
    unfold SyncEngine.Baseline.containsKey
    rw [← Option.ne_none_iff_isSome, ← Option.ne_none_iff_isSome]
    exact not_congr (hnone q).symm
  intro q
  have hview := h.agrees q
  rw [getAt_block] at hview
  rw [getAt_block, hshows, SyncEngine.Baseline.get_setAgreed flat, ← hview]
  by_cases hq : q = path
  · have hnot : ¬ block.showsBelow q := by
      intro hshow
      rw [hq] at hshow
      rw [(showsBelow_iff.mp hshow).2] at hwritten
      cases hwritten
    rw [if_neg hnot, if_neg hnot, if_pos hq, SyncEngine.Baseline.get_setAgreed, if_pos hq]
  rw [if_neg hq, SyncEngine.Baseline.get_setAgreed, if_neg hq]
  rfl

theorem Top.advance_below {marks : Nodes Agreed}
    (hheld : block.agreed = .held marks) (hrow : OwnRow flat row)
    (hwritten : block.written.get row.relPath = none) :
    Top table fold { block with
        agreed := .held (marks.insert row.relPath ⟨row.agreedHash, row.awaitsConfirmation⟩) } below
      (flat.setAgreed row.relPath row.agreedHash) := by
  obtain ⟨old, hold, hown⟩ := hrow
  have hshow : block.showsBelow row.relPath := by
    by_contra hnot
    have hview := h.agrees row.relPath
    rw [getAt_block, if_neg hnot, hwritten, hold] at hview
    cases hview
  obtain ⟨r, hr, hmark⟩ : ∃ r, getAt table below row.relPath = some r ∧ block.mark r = old := by
    have hview := h.agrees row.relPath
    rw [getAt_block, if_pos hshow, hold] at hview
    exact Option.map_eq_some_iff.mp hview
  have hadvanced : r.agreeing row.agreedHash = row := by
    rw [← agreeing_mark block, hmark, ← hown]
  have hget : ∀ q, Marks.get (.held (marks.insert row.relPath
      ⟨row.agreedHash, row.awaitsConfirmation⟩)) q =
        if q = row.relPath then some ⟨row.agreedHash, row.awaitsConfirmation⟩
        else block.agreed.get q := by
    intro q
    rw [hheld]
    unfold Marks.get Nodes.nodeAt
    dsimp only
    split
    · rename_i heq
      rw [heq, AList.lookup_insert]
    rename_i hne
    rw [AList.lookup_insert_ne hne]
  refine ⟨⟨⟨h.sound.block.clean, h.sound.block.folded, ?_, ?_⟩, h.sound.tail⟩, ?_, _, rfl⟩
  · intro q agreed other hagreed hshowq hother
    rw [hget] at hagreed
    split at hagreed
    · rename_i heq
      rw [heq, hr] at hother
      cases hother
      cases hagreed
      rw [hadvanced]
    · exact h.sound.block.awaits q agreed other hagreed hshowq hother
  · intro q agreed hagreed hawaits hshowq
    rw [hget] at hagreed
    split at hagreed
    · rename_i heq
      rw [heq, hr]
      rfl
    · exact h.sound.block.markedRow q agreed hagreed hawaits hshowq
  intro q
  have hview := h.agrees q
  rw [getAt_block] at hview
  rw [getAt_block, SyncEngine.Baseline.get_setAgreed, ← hview]
  change (if block.showsBelow q then _ else block.written.get q) = _
  by_cases hq : q = row.relPath
  · subst hq
    rw [if_pos hshow, if_pos hshow, if_pos rfl, hr, Option.map_some, Option.map_some,
      Option.map_some, agreeing_mark]
    unfold Block.mark
    rw [getAt_relPath table hr, hget, if_pos rfl]
  rw [if_neg hq]
  split
  · refine Option.map_congr fun other hother => ?_
    have hpath := getAt_relPath table hother
    unfold Block.mark
    rw [hpath, hget, if_neg hq]
  · rfl

theorem Top.advanceRow (hrow : OwnRow flat row) :
    ∃ block', Baseline.advanceRow block row = some block' ∧
      Top table fold block' below (flat.setAgreed row.relPath row.agreedHash) := by
  unfold Baseline.advanceRow
  cases hwritten : block.written.get row.relPath with
  | some written => exact ⟨_, rfl, h.advance_written (by rw [hwritten]; rfl)⟩
  | none =>
    obtain ⟨marks, hheld⟩ := h.held
    refine ⟨_, ?_, h.advance_below hheld hrow hwritten⟩
    unfold Block.advance
    rw [hheld]

theorem Top.foldlM_advanceRow
    (hrows : ∀ row ∈ rows, OwnRow flat row) :
    ∃ block', rows.foldlM Baseline.advanceRow block = some block' ∧
      Top table fold block' below
        (rows.foldl (fun b row => b.setAgreed row.relPath row.agreedHash) flat) := by
  induction rows generalizing block flat with
  | nil => exact ⟨block, rfl, h⟩
  | cons row rows ih =>
    obtain ⟨block₁, hone, htop⟩ := h.advanceRow (hrows row mem_cons_self)
    obtain ⟨block₂, hrest, htop₂⟩ := ih htop fun r hr =>
      (hrows r (mem_cons_of_mem _ hr)).setAgreed row.relPath row.agreedHash
    refine ⟨block₂, ?_, htop₂⟩
    rw [foldlM_cons, hone]
    exact hrest

end

theorem get_foldl_setAgreed
    (hnd : (rows.map BaselineEntry.relPath).Nodup) (flat : PlainRows) (path : Path) :
    (rows.foldl (fun b row => b.setAgreed row.relPath row.agreedHash) flat).get path =
      (flat.get path).map fun old =>
        match rows.find? fun row => decide (row.relPath = path) with
        | some row => old.agreeing row.agreedHash
        | none => old := by
  induction rows generalizing flat with
  | nil => simp
  | cons row rows ih =>
    rw [map_cons, nodup_cons] at hnd
    rw [foldl_cons, ih hnd.2, SyncEngine.Baseline.get_setAgreed]
    by_cases hpath : path = row.relPath
    · have hnone : rows.find? (fun r => r.relPath = path) = none := by
        refine find?_eq_none.mpr fun r hr heq => hnd.1 ?_
        rw [← hpath, ← of_decide_eq_true heq]
        exact mem_map_of_mem hr
      have hfirst : (row :: rows).find? (fun r => r.relPath = path) = some row := by
        simp [hpath]
      rw [if_pos hpath, hfirst, hnone, Option.map_map]
      rfl
    have hlater : (row :: rows).find? (fun r => r.relPath = path) =
        rows.find? fun r => decide (r.relPath = path) := by
      simp [Ne.symm hpath]
    rw [if_neg hpath, hlater]

theorem over_staged {stage : SyncEngine.Baseline} (hlayers : edits.layers = [])
    (h : Over table fold edits flat) (hrows : ∀ row ∈ stage.rows, OwnRow flat row)
    (hawaits : ∀ row ∈ stage.rows, row.awaitsConfirmation = false) :
    Over table fold
      { edits with
        layers := .block { empty with agreed := .staged stage } :: edits.layers }
      (stage.rows.foldl (fun b row => b.setAgreed row.relPath row.agreedHash) flat) := by
  have hflat : ∀ path, getAt table [] path = flat.get path := by
    intro path
    rw [← hlayers]
    exact h.agrees path
  rw [hlayers]
  constructor
  · refine ⟨⟨(@empty_sound fold (getAt table [])).clean,
      (@empty_sound fold (getAt table [])).folded, ?_, ?_⟩, trivial⟩
    · intro path agreed other hagreed _ hother
      obtain ⟨row, hrow, rfl⟩ := Option.map_eq_some_iff.mp hagreed
      obtain ⟨hmem, rfl⟩ := SyncEngine.Baseline.get_eq_some_iff.mp hrow
      obtain ⟨old, hold, hown⟩ := hrows row hmem
      rw [hflat, hold] at hother
      cases hother
      rw [← hown]
      exact hawaits row hmem
    intro path agreed hagreed hawaits'
    obtain ⟨row, -, rfl⟩ := Option.map_eq_some_iff.mp hagreed
    cases hawaits'
  intro path
  rw [getAt_block, get_foldl_setAgreed stage.nodup_relPaths, ← hflat]
  change (if true then _ else _) = _
  rw [if_pos rfl]
  refine Option.map_congr fun other hother => ?_
  unfold Block.mark Marks.get
  dsimp only
  rw [getAt_relPath table hother]
  unfold SyncEngine.Baseline.get
  cases stage.rows.find? fun row => decide (row.relPath = path) <;> rfl

end Over

end SyncEngine.Rows
