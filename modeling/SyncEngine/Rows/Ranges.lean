import SyncEngine.Rows.Reads

/-! # The rows of a span

What the layers of a pass keep true of themselves, and from it that the rows handed
out for a span are those the view answers with, each once and in path order: a block
merges what it wrote with what it shows of the view below, a move splices the range
it maps between the two it leaves alone.
-/

namespace SyncEngine.Rows

open Collections SyncEngine.Rows.Span BaselineEntry List

/-! ## Layers as a pass builds them -/

/-- A block of edits over a view: the index on what it wrote is complete, and what
it says of each marker holds of the row the marker is on. -/
structure Block.Sound (fold : CaseFold) (view : Path → Option BaselineEntry) (block : Block) :
    Prop where
  clean : block.written.Clean
  folded : ∀ entry, entry ∈ block.folded ↔
    ∃ path, block.written.containsKey path = true ∧ entry = foldedKey fold path
  awaits : ∀ path agreed row, block.agreed.get path = some agreed →
    block.showsBelow path = true → view path = some row →
    (row.agreeing agreed.hash).awaitsConfirmation = agreed.awaits
  markedRow : ∀ path agreed, block.agreed.get path = some agreed → agreed.awaits = true →
    block.showsBelow path = true → (view path).isSome = true

/-- A move onto a destination the view below holds nothing at or under, but for what
leaves with the source. -/
structure MovedSound (view : Path → Option BaselineEntry) (src dst : Path) : Prop where
  src_ne : src ≠ []
  dst_row : IsRowPath dst
  ends_ne : src ≠ dst
  free : ∀ path, (view path).isSome = true → AtOrUnder path dst → AtOrUnder path src

def Sound (table : Table) (fold : CaseFold) : List Layer → Prop
  | [] => True
  | .block block :: layers => block.Sound fold (getAt table layers) ∧ Sound table fold layers
  | .moved src dst :: layers => MovedSound (getAt table layers) src dst ∧ Sound table fold layers

section Layers

variable {table : Table} {fold : CaseFold}

variable {layers : List Layer} {src dst path : Path} {row : BaselineEntry}

theorem Sound.tail {layer : Layer} (h : Sound table fold (layer :: layers)) :
    Sound table fold layers := by
  cases layer with
  | block block => exact h.2
  | moved src dst => exact h.2

theorem Sound.block {block : Block}
    (h : Sound table fold (.block block :: layers)) : block.Sound fold (getAt table layers) := h.1

theorem Sound.moved
    (h : Sound table fold (.moved src dst :: layers)) :
    MovedSound (getAt table layers) src dst := h.1

theorem Sound.isRowPath (h : Sound table fold layers) (hrow : getAt table layers path = some row) : IsRowPath path := by
  induction layers generalizing path row with
  | nil =>
    rw [getAt_nil] at hrow
    exact Baseline.Clean.of_get table.clean hrow
  | cons layer layers ih =>
    cases layer with
    | block block =>
      rcases getAt_block_iff.mp hrow with ⟨old, -, hold, -⟩ | hwritten
      · exact ih h.tail hold
      · exact h.block.clean.of_get hwritten
    | moved src dst =>
      rw [getAt_moved] at hrow
      cases hmoved : movedPath path dst src with
      | some source =>
        rw [hmoved] at hrow
        obtain ⟨old, hold, -⟩ := Option.map_eq_some_iff.mp hrow
        obtain ⟨rest, htail, rfl, rfl⟩ := movedPath_eq_some.mp hmoved
        exact h.moved.dst_row.moved (ih h.tail hold) htail
      | none =>
        rw [hmoved] at hrow
        dsimp only at hrow
        split at hrow
        · cases hrow
        · exact ih h.tail hrow

theorem getAt_stayed
    (h : MovedSound (getAt table layers) src dst)
    (hnot : ¬ AtOrUnder path src) (hrow : getAt table layers path = some row) :
    getAt table (.moved src dst :: layers) path = some row := by
  have hoff : ¬ AtOrUnder path dst := fun hdst =>
    hnot (h.free path (by rw [hrow]; rfl) hdst)
  rw [getAt_moved, movedPath_eq_none.mpr hoff]
  rw [if_neg hnot, hrow]

theorem getAt_landed {landing : Path} (hmoved : movedPath path src dst = some landing)
    (hrow : getAt table layers path = some row) :
    getAt table (.moved src dst :: layers) landing = some (row.movedTo landing) := by
  rw [getAt_moved, movedPath_symm.mp hmoved]
  dsimp only
  rw [hrow, Option.map_some]

theorem getAt_moved_cases
    (hrow : getAt table (.moved src dst :: layers) path = some row) :
    (¬ AtOrUnder path src ∧ ¬ AtOrUnder path dst ∧ getAt table layers path = some row) ∨
      ∃ source old, movedPath source src dst = some path ∧
        getAt table layers source = some old ∧ row = old.movedTo path := by
  rw [getAt_moved] at hrow
  cases hmoved : movedPath path dst src with
  | some source =>
    rw [hmoved] at hrow
    obtain ⟨old, hold, rfl⟩ := Option.map_eq_some_iff.mp hrow
    exact Or.inr ⟨source, old, movedPath_symm.mp hmoved, hold, rfl⟩
  | none =>
    rw [hmoved] at hrow
    dsimp only at hrow
    split at hrow
    · cases hrow
    rename_i hnot
    exact Or.inl ⟨hnot, movedPath_eq_none.mp hmoved, hrow⟩

theorem getAt_moved_iff
    (h : MovedSound (getAt table layers) src dst) :
    getAt table (.moved src dst :: layers) path = some row ↔
      (¬ AtOrUnder path src ∧ getAt table layers path = some row) ∨
        ∃ rest old, IsTail rest ∧ path = dst ++ rest ∧
          getAt table layers (src ++ rest) = some old ∧ row = old.movedTo path := by
  constructor
  · intro hrow
    rcases getAt_moved_cases hrow with ⟨hnot, -, hold⟩ | ⟨source, old, hmoved, hold, hrow⟩
    · exact Or.inl ⟨hnot, hold⟩
    obtain ⟨rest, htail, rfl, hpath⟩ := movedPath_eq_some.mp hmoved
    exact Or.inr ⟨rest, old, htail, hpath, hold, hrow⟩
  rintro (⟨hnot, hold⟩ | ⟨rest, old, htail, rfl, hold, rfl⟩)
  · exact getAt_stayed h hnot hold
  · exact getAt_landed (movedPath_append htail) hold

end Layers

/-! ## The rows of a span -/

/-- The rows a view answers with inside a span, each once and in path order. -/
structure RowsOf (view : Path → Option BaselineEntry) (span : Span) (dirs : Bool)
    (rows : List BaselineEntry) : Prop where
  ascending : Ascending relPath rows
  mem : ∀ row, row ∈ rows ↔ view row.relPath = some row ∧ span.contains row.relPath = true ∧
    (!dirs || row.isDir) = true

variable {view : Path → Option BaselineEntry} {span : Span} {dirs : Bool} {layers : List Layer} {src : Path}
    {before after : List BaselineEntry} {dst : Path}

theorem RowsOf.nil_of_isEmpty
    (h : span.isEmpty) : RowsOf view span dirs [] where
  ascending := Ascending.nil
  mem row := by
    rw [not_contains_of_isEmpty h]
    simp

theorem tableRows_eq (table : Table) (span : Span) (dirs : Bool) :
    tableRows table span dirs =
      (table.rows.filter fun row => span.beforeHi row.relPath && (!dirs || row.isDir)).filter
        fun row => span.pastLo row.relPath := by
  refine (table.ascending.filter _).pages_eq page _ _ ?_ ?_
  · intro a _ b _ hlt hpast
    exact pastLo_mono hlt hpast
  · refine Nat.lt_succ_of_le (le_trans (length_filter_le _ _) (length_filter_le _ _))

theorem tableRows_rowsOf (table : Table) (span : Span) (dirs : Bool) :
    RowsOf table.get span dirs (tableRows table span dirs) where
  ascending := by
    rw [tableRows_eq]
    exact (table.ascending.filter _).filter _
  mem row := by
    rw [tableRows_eq, mem_filter, mem_filter, Baseline.mem_rows_iff, Bool.and_eq_true,
      contains_iff]
    tauto

namespace Block

variable {block : Block}

@[simp] theorem isDir_mark (row : BaselineEntry) : (block.mark row).isDir = row.isDir := by
  unfold mark
  split <;> rfl

theorem marked_eq {span : Span} {shown : List BaselineEntry} (hasc : Ascending relPath shown)
    (hin : ∀ row ∈ shown, span.contains row.relPath) :
    block.marked span shown = shown.map block.mark := by
  unfold marked
  cases hagreed : block.agreed with
  | held marks => rfl
  | staged stage =>
    unfold markInOrder
    have hpages := (stage.ascending.filter fun row => span.beforeHi row.relPath).pages_eq
      confirmedPage (stage.rows.length + 1) (fun row => span.pastLo row.relPath)
      (fun a _ b _ hlt hpast => pastLo_mono hlt hpast)
      (Nat.lt_succ_of_le (le_trans (length_filter_le _ _) (length_filter_le _ _)))
    dsimp only
    rw [hpages]
    have hmarks : Ascending Prod.fst
        (((stage.rows.filter fun row => span.beforeHi row.relPath).filter
          fun row => span.pastLo row.relPath).map fun row => (row.relPath, row.agreedHash)) :=
      ((stage.ascending.filter _).filter _).map _ fun a _ b _ hlt => hlt
    rw [hmarks.joinInOrder_eq hasc]
    refine map_congr_left fun row hrow => ?_
    obtain ⟨hlo, hhi⟩ := contains_iff.mp (hin row hrow)
    unfold mark
    rw [hagreed]
    unfold Marks.get
    dsimp only
    cases hget : stage.get row.relPath with
    | none =>
      apply joined_of_forall_ne
      intro mark hmark heq
      obtain ⟨r, hr, rfl⟩ := mem_map.mp hmark
      have hr' := Baseline.mem_rows_iff.mp (mem_filter.mp (mem_filter.mp hr).1).1
      have hpath : r.relPath = row.relPath := heq
      rw [hpath, hget] at hr'
      cases hr'
    | some r =>
      -- inside the span every row of the stage is read
      obtain ⟨hmem, hpath⟩ := Baseline.get_eq_some_iff.mp hget
      rw [← hpath] at hlo hhi
      have hread : r ∈ (stage.rows.filter fun r => span.beforeHi r.relPath).filter
          fun r => span.pastLo r.relPath :=
        mem_filter.mpr ⟨mem_filter.mpr ⟨hmem, hhi⟩, hlo⟩
      exact hmarks.joined_of_mem (mem_map_of_mem hread) hpath

end Block

variable {table : Table}

theorem rowsIn_block {block : Block}
    {below : List BaselineEntry} (h : RowsOf (getAt table layers) span dirs below) :
    RowsOf (getAt table (.block block :: layers)) span dirs
      (mergeBy relPath
        (block.marked span (below.filter fun row => block.showsBelow row.relPath))
        ((block.writtenIn span).filter fun row => !dirs || row.isDir)) := by
  have hshown := h.ascending.filter fun row => block.showsBelow row.relPath
  have hwritten : Ascending relPath
      ((block.writtenIn span).filter fun row => !dirs || row.isDir) :=
    (block.written.ascending.filter _).filter _
  have hmarked : block.marked span (below.filter fun row => block.showsBelow row.relPath) =
      (below.filter fun row => block.showsBelow row.relPath).map block.mark :=
    Block.marked_eq hshown fun row hrow => ((h.mem row).mp (mem_filter.mp hrow).1).2.1
  rw [hmarked]
  constructor
  · refine Ascending.mergeBy (hshown.map block.mark fun a _ b _ hlt => ?_) hwritten ?_
    · rwa [Block.relPath_mark, Block.relPath_mark]
    intro a ha b hb heq
    obtain ⟨row, hrow, rfl⟩ := mem_map.mp ha
    have hnone := (Block.showsBelow_iff.mp (mem_filter.mp hrow).2).2
    have hb' := Baseline.mem_rows_iff.mp
      (mem_filter.mp (mem_filter.mp hb).1).1
    rw [← heq, Block.relPath_mark, hnone] at hb'
    cases hb'
  intro row
  rw [mem_mergeBy, getAt_block_iff]
  constructor
  · rintro (hrow | hrow)
    · obtain ⟨old, hold, rfl⟩ := mem_map.mp hrow
      obtain ⟨hmem, hshows⟩ := mem_filter.mp hold
      obtain ⟨hview, hin, hdirs⟩ := (h.mem old).mp hmem
      rw [Block.relPath_mark, Block.isDir_mark]
      exact ⟨Or.inl ⟨old, hshows, hview, rfl⟩, hin, hdirs⟩
    obtain ⟨hspan, hdirs⟩ := mem_filter.mp hrow
    obtain ⟨hmem, hin⟩ := mem_filter.mp hspan
    exact ⟨Or.inr (Baseline.mem_rows_iff.mp hmem), hin, hdirs⟩
  rintro ⟨⟨old, hshows, hold, heq⟩ | hview, hin, hdirs⟩
  · have hpath := getAt_relPath table hold
    refine Or.inl (mem_map.mpr ⟨old, mem_filter.mpr ⟨(h.mem old).mpr ?_, ?_⟩, heq⟩)
    · refine ⟨by rw [hpath, hold], by rw [hpath]; exact hin, ?_⟩
      rwa [← heq, Block.isDir_mark] at hdirs
    · rwa [hpath]
  exact Or.inr (mem_filter.mpr ⟨mem_filter.mpr
    ⟨Baseline.mem_rows_iff.mpr hview, hin⟩, hdirs⟩)

theorem rowsIn_kept
    (hclean : ∀ path row, view path = some row → IsRowPath path)
    (hbefore : RowsOf view (span.and (below (src ++ ['/']))) dirs before)
    (hafter : RowsOf view (span.and (fromOn (src ++ ['0']))) dirs after) :
    Ascending relPath
        (before.filter (fun row => row.relPath ≠ src) ++ after) ∧
      ∀ row, row ∈ before.filter (fun row => row.relPath ≠ src) ++ after ↔
        view row.relPath = some row ∧ span.contains row.relPath ∧
          (!dirs || row.isDir) ∧ ¬ AtOrUnder row.relPath src := by
  have hlow : ∀ row ∈ before, row.relPath < src ++ ['/'] := by
    intro row hrow
    obtain ⟨hview, hin, -⟩ := (hbefore.mem row).mp hrow
    rw [contains_and, Bool.and_eq_true, contains_below (hclean _ _ hview).1] at hin
    exact hin.2
  have hhigh : ∀ row ∈ after, src ++ ['0'] ≤ row.relPath := by
    intro row hrow
    obtain ⟨-, hin, -⟩ := (hafter.mem row).mp hrow
    rw [contains_and, Bool.and_eq_true, contains_fromOn] at hin
    exact hin.2
  constructor
  · refine (hbefore.ascending.filter _).append hafter.ascending fun a ha b hb => ?_
    have ha' := hlow a (mem_filter.mp ha).1
    exact lt_of_lt_of_le (lt_trans ha' (slash_lt_zero src)) (hhigh b hb)
  intro row
  rw [mem_append, mem_filter, hbefore.mem, hafter.mem, not_atOrUnder_iff,
    contains_and, contains_and, Bool.and_eq_true, Bool.and_eq_true, contains_fromOn,
    decide_eq_true_eq]
  constructor
  · rintro (⟨⟨hview, ⟨hin, hlo⟩, hdirs⟩, hne⟩ | ⟨hview, ⟨hin, hhi⟩, hdirs⟩)
    · rw [contains_below (hclean _ _ hview).1] at hlo
      exact ⟨hview, hin, hdirs, Or.inl ⟨hlo, hne⟩⟩
    · exact ⟨hview, hin, hdirs, Or.inr hhi⟩
  rintro ⟨hview, hin, hdirs, ⟨hlo, hne⟩ | hhi⟩
  · rw [contains_below (hclean _ _ hview).1]
    exact Or.inl ⟨⟨hview, ⟨hin, hlo⟩, hdirs⟩, hne⟩
  · exact Or.inr ⟨hview, ⟨hin, hhi⟩, hdirs⟩

theorem rowsIn_landed
    {rows : List BaselineEntry} (hdst : IsRowPath dst) (hclean : ∀ path row, view path = some row → IsRowPath path)
    (hpath : ∀ path row, view path = some row → row.relPath = path) (hne : (span.and (under dst)).isEmpty = false)
    (h : RowsOf view ((span.and (under dst)).movedBack dst src) dirs rows) :
    Ascending relPath
        (rows.filterMap fun row => (movedPath row.relPath src dst).map row.movedTo) ∧
      ∀ row, row ∈ rows.filterMap (fun row => (movedPath row.relPath src dst).map row.movedTo) ↔
        span.contains row.relPath ∧ (!dirs || row.isDir) ∧
          ∃ below old, row.relPath = dst ++ '/' :: below ∧
            view (src ++ '/' :: below) = some old ∧ row = old.movedTo (dst ++ '/' :: below) := by
  obtain ⟨hlo, hi, hhi, hbegins⟩ := continues hdst.1 hne
  have hback : ∀ rest : Path, ((span.and (under dst)).movedBack dst src).contains (src ++ rest) =
      (span.and (under dst)).contains (dst ++ rest) := fun rest =>
    contains_movedBack hlo fun hi' hhi' => by
      rw [hhi] at hhi'
      cases hhi'
      exact hbegins
  constructor
  · refine h.ascending.filterMap _ fun a _ b _ hlt a' b' ha hb => ?_
    obtain ⟨p, hp, rfl⟩ := Option.map_eq_some_iff.mp ha
    obtain ⟨q, hq, rfl⟩ := Option.map_eq_some_iff.mp hb
    obtain ⟨r, -, har, rfl⟩ := movedPath_eq_some.mp hp
    obtain ⟨s, -, hbs, rfl⟩ := movedPath_eq_some.mp hq
    rw [har, hbs, append_lt_append_iff] at hlt
    exact append_lt_append_iff.mpr hlt
  intro row
  rw [mem_filterMap]
  constructor
  · rintro ⟨old, hold, hout⟩
    obtain ⟨p, hp, rfl⟩ := Option.map_eq_some_iff.mp hout
    obtain ⟨rest, htail, hrest, rfl⟩ := movedPath_eq_some.mp hp
    obtain ⟨hview, hin, hdirs⟩ := (h.mem old).mp hold
    rw [hrest] at hview hin
    rw [hback, contains_and, Bool.and_eq_true,
      contains_under (hdst.moved (hclean _ _ hview) htail)] at hin
    obtain ⟨hspan, hunder⟩ := hin
    rcases htail.cases with rfl | ⟨below, rfl⟩
    · rcases hunder with hunder | hunder
      · exact absurd hunder hdst.1
      · simp at hunder
    · exact ⟨hspan, hdirs, below, old, rfl, hview, rfl⟩
  rintro ⟨hspan, hdirs, below, old, hrow, hview, rfl⟩
  have hold := hpath _ _ hview
  have htail : IsTail ('/' :: below) := Or.inr rfl
  refine ⟨old, (h.mem old).mpr ?_, ?_⟩
  · rw [hold, hback, contains_and, Bool.and_eq_true,
      contains_under (hdst.moved (hclean _ _ hview) htail)]
    exact ⟨hview, ⟨hspan, Or.inr (isUnder_append _ _)⟩, hdirs⟩
  rw [hold, movedPath_append htail]
  rfl

theorem mem_rowsIn_point
    {row : BaselineEntry} :
    row ∈ (if span.contains dst then
        ((view src).filter fun row => !dirs || row.isDir).map fun row => placed row dst none
      else none).toList ↔
      span.contains row.relPath ∧ (!dirs || row.isDir) ∧
        ∃ old, view src = some old ∧ row = old.movedTo dst := by
  rw [Option.mem_toList]
  split
  · rename_i hin
    rw [Option.map_eq_some_iff]
    constructor
    · rintro ⟨old, hold, rfl⟩
      obtain ⟨hview, hdirs⟩ := Option.filter_eq_some_iff.mp hold
      exact ⟨hin, hdirs, old, hview, rfl⟩
    rintro ⟨-, hdirs, old, hview, rfl⟩
    exact ⟨old, Option.filter_eq_some_iff.mpr ⟨hview, hdirs⟩, rfl⟩
  rename_i hout
  constructor
  · rintro ⟨⟩
  rintro ⟨hin, -, old, -, rfl⟩
  exact absurd hin hout

theorem rowsIn_moved {subtree : List BaselineEntry} (h : MovedSound (getAt table layers) src dst)
    (hclean : ∀ path row, getAt table layers path = some row → IsRowPath path)
    (hbefore : RowsOf (getAt table layers) (span.and (below (src ++ ['/']))) dirs before)
    (hafter : RowsOf (getAt table layers) (span.and (fromOn (src ++ ['0']))) dirs after)
    (hsubtreeAsc : Ascending relPath subtree)
    (hsubtree : ∀ row, row ∈ subtree ↔ span.contains row.relPath ∧
      (!dirs || row.isDir) ∧ ∃ below old, row.relPath = dst ++ '/' :: below ∧
        getAt table layers (src ++ '/' :: below) = some old ∧
        row = old.movedTo (dst ++ '/' :: below)) :
    RowsOf (getAt table (.moved src dst :: layers)) span dirs
      (mergeBy relPath
        (before.filter (fun row => row.relPath ≠ src) ++ after)
        ((if span.contains dst then
          ((getAt table layers src).filter fun row => !dirs || row.isDir).map fun row =>
            placed row dst none
          else none).toList ++ subtree)) := by
  obtain ⟨hkeptAsc, hkept⟩ := rowsIn_kept hclean hbefore hafter
  have hlandedAsc : Ascending relPath
      ((if span.contains dst then
          ((getAt table layers src).filter fun row => !dirs || row.isDir).map fun row =>
            placed row dst none
          else none).toList ++ subtree) := by
    refine Ascending.append ?_ hsubtreeAsc fun a ha b hb => ?_
    · cases (if span.contains dst then _ else none) with
      | none => exact Ascending.nil
      | some row => exact pairwise_singleton _ row
    obtain ⟨-, -, old, -, rfl⟩ := mem_rowsIn_point.mp ha
    obtain ⟨-, -, below, old', -, -, rfl⟩ := (hsubtree b).mp hb
    exact lt_append_of_ne_nil dst (cons_ne_nil _ _)
  -- what landed is at or under the destination, where nothing stayed
  have hlanded : ∀ row, row ∈ (if span.contains dst then
          ((getAt table layers src).filter fun row => !dirs || row.isDir).map fun row =>
            placed row dst none
          else none).toList ++ subtree →
      span.contains row.relPath ∧ (!dirs || row.isDir) ∧
        AtOrUnder row.relPath dst ∧ getAt table (.moved src dst :: layers) row.relPath = some row := by
    intro row hrow
    rcases mem_append.mp hrow with hrow | hrow
    · obtain ⟨hin, hdirs, old, hold, rfl⟩ := mem_rowsIn_point.mp hrow
      exact ⟨hin, hdirs, atOrUnder_refl dst, getAt_landed (movedPath_self src dst) hold⟩
    obtain ⟨hin, hdirs, below, old, hpath, hold, rfl⟩ := (hsubtree row).mp hrow
    refine ⟨hin, hdirs, Or.inr (isUnder_append _ _), ?_⟩
    exact getAt_landed (movedPath_append (Or.inr rfl)) hold
  constructor
  · refine hkeptAsc.mergeBy hlandedAsc fun a ha b hb heq => ?_
    obtain ⟨hview, -, -, hnot⟩ := (hkept a).mp ha
    have hdst := (hlanded b hb).2.2.1
    rw [← heq] at hdst
    exact hnot (h.free a.relPath (by rw [hview]; rfl) hdst)
  intro row
  rw [mem_mergeBy]
  constructor
  · rintro (hrow | hrow)
    · obtain ⟨hview, hin, hdirs, hnot⟩ := (hkept row).mp hrow
      exact ⟨getAt_stayed h hnot hview, hin, hdirs⟩
    obtain ⟨hin, hdirs, -, hview⟩ := hlanded row hrow
    exact ⟨hview, hin, hdirs⟩
  rintro ⟨hview, hin, hdirs⟩
  rcases getAt_moved_cases hview with ⟨hnot, -, hold⟩ | ⟨source, old, hmoved, hold, hrow⟩
  · exact Or.inl ((hkept row).mpr ⟨hold, hin, hdirs, hnot⟩)
  right
  rw [mem_append, mem_rowsIn_point, hsubtree]
  obtain ⟨rest, htail, rfl, hpath⟩ := movedPath_eq_some.mp hmoved
  rw [hpath] at hrow
  rcases htail.cases with rfl | ⟨below, rfl⟩
  · rw [append_nil] at hold hrow
    exact Or.inl ⟨hin, hdirs, old, hold, hrow⟩
  · exact Or.inr ⟨hin, hdirs, below, old, hpath, hold, hrow⟩

theorem rowsIn_rowsOf {fold : CaseFold} (hs : Sound table fold layers) (span : Span) (dirs : Bool) :
    RowsOf (getAt table layers) span dirs (rowsIn table layers span dirs) := by
  induction layers generalizing span dirs with
  | nil =>
    unfold rowsIn
    split
    · rename_i hempty
      exact RowsOf.nil_of_isEmpty hempty
    have hview : getAt table [] = table.get := funext (getAt_nil table)
    rw [hview]
    exact tableRows_rowsOf table span dirs
  | cons layer layers ih =>
    cases layer with
    | block block =>
      unfold rowsIn
      split
      · rename_i hempty
        exact RowsOf.nil_of_isEmpty hempty
      · exact rowsIn_block (ih hs.tail span dirs)
    | moved src dst =>
      unfold rowsIn
      split
      · rename_i hempty
        exact RowsOf.nil_of_isEmpty hempty
      have hclean : ∀ path row, getAt table layers path = some row → IsRowPath path :=
        fun path row hrow => hs.tail.isRowPath hrow
      have hpath : ∀ path row, getAt table layers path = some row → row.relPath = path :=
        fun path row hrow => getAt_relPath table hrow
      refine rowsIn_moved hs.moved hclean (ih hs.tail _ dirs) (ih hs.tail _ dirs) ?_ ?_
      · split
        · exact Ascending.nil
        rename_i hne
        exact (rowsIn_landed hs.moved.dst_row hclean hpath (Bool.eq_false_iff.mpr hne)
          (ih hs.tail _ dirs)).1
      intro row
      split
      · rename_i hempty
        refine iff_of_false (by simp) ?_
        rintro ⟨hin, -, below, old, hrow, hold, -⟩
        have hout := @not_contains_of_isEmpty _ row.relPath hempty
        have hrest : IsRowPath (dst ++ '/' :: below) :=
          hs.moved.dst_row.moved (hclean _ _ hold) (Or.inr rfl)
        have hunder : (under dst).contains row.relPath := by
          rw [hrow]
          exact (contains_under hrest).mpr (Or.inr (isUnder_append _ _))
        rw [contains_and, hin, hunder] at hout
        cases hout
      rename_i hne
      exact (rowsIn_landed hs.moved.dst_row hclean hpath (Bool.eq_false_iff.mpr hne)
        (ih hs.tail _ dirs)).2 row

theorem rowsIn_under {fold : CaseFold}
    (hs : Sound table fold layers) (root : Path) (row : BaselineEntry) :
    row ∈ rowsIn table layers (under root) false ↔
      getAt table layers row.relPath = some row ∧ (root = [] ∨ isUnder row.relPath root) := by
  rw [(rowsIn_rowsOf hs (under root) false).mem]
  constructor
  · rintro ⟨hview, hin, -⟩
    exact ⟨hview, (contains_under (hs.isRowPath hview)).mp hin⟩
  rintro ⟨hview, hunder⟩
  exact ⟨hview, (contains_under (hs.isRowPath hview)).mpr hunder, rfl⟩

end SyncEngine.Rows
