import Mathlib.Order.MinMax
import SyncEngine.Rows.Layers

/-! # What a view holds at a path, and its rows in order

A view is what it answers at each path. Each layer's answer is given by the answers
below it, and the rows a view hands out for a span are exactly the rows it answers
with there, in path order.
-/

namespace SyncEngine

open Collections List

theorem append_lt_append_iff {pre p q : Path} : pre ++ p < pre ++ q ↔ p < q := by
  induction pre with
  | nil => exact Iff.rfl
  | cons c pre ih =>
    rw [cons_append, cons_append, cons_lt_cons_iff, ih]
    simp

theorem append_le_append_iff {pre p q : Path} : pre ++ p ≤ pre ++ q ↔ p ≤ q := by
  rw [← not_lt, append_lt_append_iff, not_lt]

theorem lt_append_of_ne_nil (pre : Path) {rest : Path} (h : rest ≠ []) : pre < pre ++ rest := by
  have hpos : ([] : Path) < rest := by
    cases rest with
    | nil => exact absurd rfl h
    | cons c rest => exact nil_lt_cons c rest
  have := (@append_lt_append_iff pre [] rest).mpr hpos
  rwa [append_nil] at this

theorem IsTail.cases {rest : Path} (h : IsTail rest) : rest = [] ∨ ∃ below, rest = '/' :: below := by
  rcases h with h | h
  · exact Or.inl h
  cases rest with
  | nil => cases h
  | cons c below =>
    have hc : c = '/' := by simpa using h
    exact Or.inr ⟨below, by rw [hc]⟩

theorem slash_lt_zero (dir : Path) : dir ++ ['/'] < dir ++ ['0'] :=
  append_lt_append_iff.mpr (cons_lt_cons_iff.mpr (Or.inl (by decide)))

theorem IsRowPath.under_iff {path dir : Path} (h : IsRowPath path) :
    dir ++ ['/'] < path ∧ path < dir ++ ['0'] ↔ isUnder path dir := by
  rw [← mem_subtreeBounds]
  refine and_congr_left fun _ => ⟨le_of_lt, fun hle => ?_⟩
  exact lt_of_le_of_ne hle (h.ne_slash dir).symm

/-- A path off a directory and what it holds comes before the first of these or from
the end of their range on. -/
theorem not_atOrUnder_iff {path dir : Path} :
    ¬ AtOrUnder path dir ↔ path < dir ++ ['/'] ∧ path ≠ dir ∨ dir ++ ['0'] ≤ path := by
  have hdir : dir < dir ++ ['/'] := lt_append_of_ne_nil dir (cons_ne_nil _ _)
  unfold AtOrUnder
  rw [not_or, Bool.not_eq_true, Bool.eq_false_iff, ne_eq, ← mem_subtreeBounds, not_and_or, not_le,
    not_lt]
  constructor
  · rintro ⟨hne, hbefore | hafter⟩
    · exact Or.inl ⟨hbefore, hne⟩
    · exact Or.inr hafter
  rintro (⟨hbefore, hne⟩ | hafter)
  · exact ⟨hne, Or.inl hbefore⟩
  refine ⟨?_, Or.inr hafter⟩
  rintro rfl
  exact absurd (lt_of_lt_of_le (lt_trans hdir (slash_lt_zero _)) hafter) (lt_irrefl _)

namespace Rows

/-! ## Spans -/

namespace Span

variable {span other : Span} {path : Path}

theorem contains_iff : span.contains path ↔
    span.pastLo path ∧ span.beforeHi path := Bool.and_eq_true_iff

theorem lo_le_of_pastLo (h : span.pastLo path) : span.lo ≤ path := by
  unfold pastLo at h
  split at h
  · exact of_decide_eq_true h
  · exact (of_decide_eq_true h).le

theorem pastLo_mono {q : Path} (hlt : path < q) (h : span.pastLo path) :
    span.pastLo q := by
  unfold pastLo
  split
  · exact decide_eq_true ((lo_le_of_pastLo h).trans hlt.le)
  · exact decide_eq_true (lt_of_le_of_lt (lo_le_of_pastLo h) hlt)

theorem not_contains_of_isEmpty (h : span.isEmpty) : span.contains path = false := by
  obtain ⟨hi, hhi, hle⟩ := (Option.any_eq_true _ _).mp h
  rw [Bool.eq_false_iff]
  intro hin
  obtain ⟨hlo, hbefore⟩ := contains_iff.mp hin
  have hlt : path < hi := by
    unfold beforeHi at hbefore
    rw [hhi] at hbefore
    exact of_decide_eq_true hbefore
  have hend : hi ≤ span.lo := of_decide_eq_true hle
  exact absurd (lt_of_lt_of_le hlt hend) (not_lt.mpr (lo_le_of_pastLo hlo))

theorem pastLo_and : (span.and other).pastLo path = (span.pastLo path && other.pastLo path) := by
  rcases span with ⟨lo, inclusive, hi⟩
  rcases other with ⟨lo', inclusive', hi'⟩
  rw [Bool.eq_iff_iff, Bool.and_eq_true]
  unfold pastLo and
  rcases lt_trichotomy lo lo' with hlt | rfl | hgt
  · rw [if_pos hlt, if_pos hlt]
    cases inclusive' <;> cases inclusive <;> simp only [decide_eq_true_eq, if_true, if_false,
      Bool.false_eq_true]
    · exact ⟨fun h => ⟨lt_trans hlt h, h⟩, And.right⟩
    · exact ⟨fun h => ⟨(lt_trans hlt h).le, h⟩, And.right⟩
    · exact ⟨fun h => ⟨lt_of_lt_of_le hlt h, h⟩, And.right⟩
    · exact ⟨fun h => ⟨hlt.le.trans h, h⟩, And.right⟩
  · simp only [lt_irrefl, if_false]
    cases inclusive' <;> cases inclusive <;> simp only [decide_eq_true_eq, if_true, if_false,
      Bool.false_eq_true, Bool.and_true, Bool.and_false, and_self]
    · exact ⟨fun h => ⟨h.le, h⟩, And.right⟩
    · exact ⟨fun h => ⟨h, h.le⟩, And.left⟩
  rw [if_neg hgt.asymm, if_neg hgt.asymm, if_pos hgt]
  cases inclusive' <;> cases inclusive <;> simp only [decide_eq_true_eq, if_true, if_false,
    Bool.false_eq_true]
  · exact ⟨fun h => ⟨h, lt_trans hgt h⟩, And.left⟩
  · exact ⟨fun h => ⟨h, lt_of_lt_of_le hgt h⟩, And.left⟩
  · exact ⟨fun h => ⟨h, (lt_trans hgt h).le⟩, And.left⟩
  · exact ⟨fun h => ⟨h, hgt.le.trans h⟩, And.left⟩

theorem beforeHi_and :
    (span.and other).beforeHi path = (span.beforeHi path && other.beforeHi path) := by
  rcases span with ⟨lo, inclusive, hi⟩
  rcases other with ⟨lo', inclusive', hi'⟩
  unfold beforeHi and
  cases hi <;> cases hi' <;> simp [Option.all]

theorem contains_and :
    (span.and other).contains path = (span.contains path && other.contains path) := by
  unfold contains
  rw [pastLo_and, beforeHi_and]
  grind

theorem contains_all (h : path ≠ []) : all.contains path := by
  have hpos : ([] : Path) < path := by
    have := lt_append_of_ne_nil [] h
    rwa [nil_append] at this
  simp [contains, pastLo, beforeHi, all, hpos]

theorem contains_under {root : Path} (h : IsRowPath path) :
    (under root).contains path ↔ root = [] ∨ isUnder path root := by
  unfold under
  by_cases hroot : root = []
  · rw [if_pos hroot]
    exact iff_of_true (contains_all h.1) (Or.inl hroot)
  rw [if_neg hroot, or_iff_right hroot, ← h.under_iff]
  simp [contains, pastLo, beforeHi]

theorem contains_below {hi : Path} (h : path ≠ []) :
    (below hi).contains path ↔ path < hi := by
  have hall := contains_all h
  rw [contains_iff] at hall
  have hlo : (below hi).pastLo path := hall.1
  rw [contains_iff, and_iff_right hlo]
  simp [beforeHi, below]

theorem contains_fromOn {lo : Path} : (fromOn lo).contains path ↔ lo ≤ path := by
  rw [contains_iff]
  exact (and_iff_left rfl).trans decide_eq_true_iff

theorem continues {dst : Path} (hdst : dst ≠ []) (h : (span.and (under dst)).isEmpty = false) :
    dst <+: (span.and (under dst)).lo ∧ ∃ hi, (span.and (under dst)).hi = some hi ∧ dst <+: hi := by
  have hbegins : ∀ p : Path, dst ++ ['/'] ≤ p → p < dst ++ ['0'] → dst <+: p := by
    intro p hlo hhi
    obtain ⟨rest, rfl⟩ := isUnder_iff.mp (mem_subtreeBounds.mp ⟨hlo, hhi⟩)
    exact prefix_append _ _
  have hunder : under dst = ⟨dst ++ ['/'], false, some (dst ++ ['0'])⟩ := if_neg hdst
  have hlo : dst ++ ['/'] ≤ (span.and (under dst)).lo := by
    rw [hunder]
    unfold and
    split
    · exact le_rfl
    · exact not_lt.mp ‹_›
  obtain ⟨hi, hhi, hle⟩ : ∃ hi, (span.and (under dst)).hi = some hi ∧ hi ≤ dst ++ ['0'] := by
    rw [hunder]
    unfold and
    cases span.hi with
    | none => exact ⟨_, rfl, le_rfl⟩
    | some a => exact ⟨_, rfl, min_le_right _ _⟩
  have hlt : (span.and (under dst)).lo < hi := by
    unfold isEmpty at h
    rw [hhi] at h
    simpa using h
  refine ⟨hbegins _ hlo (lt_of_lt_of_le hlt hle), hi, hhi, ?_⟩
  rcases hle.lt_or_eq with hbefore | rfl
  · exact hbegins _ (hlo.trans hlt.le) hbefore
  · exact prefix_append _ _

theorem contains_movedBack {dst src rest : Path} (hlo : dst <+: span.lo) (hhi : ∀ hi, span.hi = some hi → dst <+: hi) :
    (span.movedBack dst src).contains (src ++ rest) = span.contains (dst ++ rest) := by
  rcases span with ⟨lo, inclusive, hi⟩
  obtain ⟨l, rfl⟩ := hlo
  have hback : (Span.movedBack ⟨dst ++ l, inclusive, hi⟩ dst src).pastLo (src ++ rest) =
      Span.pastLo ⟨dst ++ l, inclusive, hi⟩ (dst ++ rest) := by
    unfold pastLo movedBack
    simp only [drop_left, append_lt_append_iff, append_le_append_iff]
  unfold contains
  rw [hback]
  congr 1
  unfold beforeHi movedBack
  cases hi with
  | none => rfl
  | some hi =>
    obtain ⟨h, rfl⟩ := hhi hi rfl
    simp [append_lt_append_iff]

end Span

/-! ## One path -/

theorem atOrUnder_eq_some {path dir rest : Path} :
    atOrUnder path dir = some rest ↔ IsTail rest ∧ path = dir ++ rest := by
  unfold atOrUnder
  rw [movedPath_eq_some]
  constructor
  · rintro ⟨r, htail, hpath, hrest⟩
    rw [nil_append] at hrest
    subst hrest
    exact ⟨htail, hpath⟩
  rintro ⟨htail, hpath⟩
  exact ⟨rest, htail, hpath, rfl⟩

theorem atOrUnder_eq_none {path dir : Path} : atOrUnder path dir = none ↔ ¬ AtOrUnder path dir :=
  movedPath_eq_none

namespace Block

variable {block : Block}

theorem vacatedOver_isSome {path : Path} :
    (block.vacatedOver path).isSome ↔ ∃ v ∈ block.vacated, AtOrUnder path v := by
  unfold vacatedOver
  split
  · rename_i hempty
    have hnil : block.vacated.toList = [] := isEmpty_iff.mp hempty
    refine iff_of_false (by simp) ?_
    rintro ⟨v, hv, -⟩
    rw [SortedSet.mem_def, hnil] at hv
    cases hv
  rw [find?_isSome]
  constructor
  · rintro ⟨v, hv, hin⟩
    refine ⟨v, SortedSet.contains_iff.mp hin, ?_⟩
    rcases mem_append.mp hv with hv | hv
    · exact Or.inr (mem_ancestors.mp hv)
    · exact Or.inl (mem_singleton.mp hv).symm
  rintro ⟨v, hv, hover⟩
  refine ⟨v, ?_, SortedSet.contains_iff.mpr hv⟩
  rcases hover with rfl | hunder
  · exact mem_append_right _ (mem_singleton.mpr rfl)
  · exact mem_append_left _ (mem_ancestors.mpr hunder)

theorem showsBelow_iff {path : Path} :
    block.showsBelow path ↔
      (∀ v ∈ block.vacated, ¬ AtOrUnder path v) ∧ block.written.get path = none := by
  unfold showsBelow
  rw [Bool.and_eq_true, Bool.not_eq_true', Option.isNone_iff_eq_none, ← Option.not_isSome_iff_eq_none,
    vacatedOver_isSome]
  unfold SyncEngine.Baseline.containsKey
  rw [Option.isSome_eq_false_iff, Option.isNone_iff_eq_none]
  simp only [not_exists, not_and]

@[simp] theorem relPath_mark (row : BaselineEntry) : (block.mark row).relPath = row.relPath := by
  unfold mark
  split <;> rfl

end Block

section

variable (row : BaselineEntry)
include row

@[simp] theorem relPath_placed (path : Path) (mark : Option Agreed) :
    (placed row path mark).relPath = path := by
  cases mark <;> rfl

@[simp] theorem carryable_placed (path : Path) (mark : Option Agreed) :
    (placed row path mark).carryable = row.carryable := by
  cases mark <;> rfl

@[simp] theorem placed_none (path : Path) :
    placed row path none = row.movedTo path := rfl

theorem placed_placed (p q : Path) (mark : Option Agreed) :
    placed (placed row p mark) q none = placed row q mark := by
  cases mark <;> rfl

theorem placed_or (p q : Path) (above below : Option Agreed) :
    placed (placed row p below) q above = placed row q (above.or below) := by
  cases above <;> cases below <;> rfl

end

/-- A marker in hand changes neither where a lookup ends nor, but for coming first,
the marker it ends with. -/
theorem lookup_mark (layers : List Layer) (path : Path) (mark : Option Agreed) :
    lookup layers path true mark =
      ((lookup layers path true none).1, mark.or (lookup layers path true none).2) := by
  induction layers generalizing path mark with
  | nil => cases mark <;> rfl
  | cons layer layers ih =>
    cases layer with
    | block block =>
      unfold lookup
      cases block.written.get path with
      | some row => cases mark <;> rfl
      | none =>
        dsimp only
        split
        · cases mark <;> rfl
        rw [ih path (if true && (none : Option Agreed).isNone then _ else none), ih]
        cases mark <;> rfl
    | moved src dst =>
      unfold lookup
      cases movedPath path dst src with
      | some source => exact ih source mark
      | none =>
        dsimp only
        split
        · cases mark <;> rfl
        · exact ih path mark

theorem lookup_unmarked (layers : List Layer) (path : Path) (mark : Option Agreed) :
    (lookup layers path false mark).1 = (lookup layers path true mark).1 := by
  induction layers generalizing path mark with
  | nil => rfl
  | cons layer layers ih =>
    cases layer with
    | block block =>
      unfold lookup
      cases block.written.get path with
      | some row => rfl
      | none =>
        dsimp only
        split
        · rfl
        · rw [ih, lookup_mark, lookup_mark layers path (if true && mark.isNone then _ else _)]
    | moved src dst =>
      unfold lookup
      cases movedPath path dst src with
      | some source => exact ih source mark
      | none =>
        dsimp only
        split
        · rfl
        · exact ih path mark

section View

variable (table : Table)

theorem getAt_relPath {layers : List Layer} {path : Path} {row : BaselineEntry}
    (h : getAt table layers path = some row) : row.relPath = path := by
  obtain ⟨found, -, rfl⟩ := Option.map_eq_some_iff.mp h
  exact relPath_placed _ _ _

@[simp] theorem getAt_nil (path : Path) : getAt table [] path = table.get path := by
  have hself : ∀ row, table.get path = some row → row.movedTo path = row := by
    intro row hget
    rw [← Baseline.get_relPath hget]
    rfl
  unfold getAt lookup Lookup.row
  dsimp only
  cases hget : table.get path with
  | none => rfl
  | some row => rw [Option.map_some, placed_none, hself row hget]

theorem getAt_block (block : Block) (layers : List Layer) (path : Path) :
    getAt table (.block block :: layers) path =
      if block.showsBelow path then (getAt table layers path).map block.mark
      else block.written.get path := by
  have hmark : ∀ row : BaselineEntry, row.relPath = path →
      block.mark row = placed row path (block.agreed.get path) := by
    intro row hpath
    unfold Block.mark
    rw [hpath]
    cases block.agreed.get path with
    | none => rw [placed_none, ← hpath, BaselineEntry.movedTo_self]
    | some agreed =>
      rw [← hpath]
      rfl
  cases hwritten : block.written.get path with
  | some row =>
    have hshows : block.showsBelow path = false := by
      rw [Bool.eq_false_iff]
      intro hshows
      rw [(Block.showsBelow_iff.mp hshows).2] at hwritten
      cases hwritten
    rw [hshows]
    unfold getAt lookup
    rw [hwritten]
    have hpath := Baseline.get_relPath hwritten
    simp [Lookup.row, ← hpath]
  | none =>
    cases hvac : (block.vacatedOver path).isSome with
    | true =>
      have hshows : block.showsBelow path = false := by
        unfold Block.showsBelow
        rw [← Option.not_isSome, hvac]
        rfl
      rw [hshows]
      unfold getAt lookup
      rw [hwritten]
      simp [hvac, Lookup.row]
    | false =>
      have hshows : block.showsBelow path := by
        unfold Block.showsBelow SyncEngine.Baseline.containsKey
        rw [← Option.not_isSome, hvac, hwritten]
        rfl
      rw [hshows, if_pos rfl]
      unfold getAt
      rw [lookup, hwritten]
      rw [hvac, if_neg Bool.false_ne_true, lookup_mark]
      rw [Option.map_map]
      refine Option.map_congr fun row _ => ?_
      rw [Function.comp, hmark _ (relPath_placed _ _ _), placed_or]
      rfl

/-- A row of a block's view is one below that shows, marked, or one the block has written. -/
theorem getAt_block_iff {table : Table} {block : Block} {layers : List Layer} {path : Path} {row : BaselineEntry} :
    getAt table (.block block :: layers) path = some row ↔
      (∃ old, block.showsBelow path ∧ getAt table layers path = some old ∧ block.mark old = row) ∨
        block.written.get path = some row := by
  rw [getAt_block]
  split
  · rename_i hshows
    rw [(Block.showsBelow_iff.mp hshows).2, Option.map_eq_some_iff]
    simp [hshows]
  · rename_i hshows
    simp [hshows]

theorem getAt_moved (src dst : Path) (layers : List Layer) (path : Path) :
    getAt table (.moved src dst :: layers) path =
      match movedPath path dst src with
      | some source => (getAt table layers source).map fun row => row.movedTo path
      | none => if AtOrUnder path src then none else getAt table layers path := by
  cases hmoved : movedPath path dst src with
  | some source =>
    unfold getAt
    rw [lookup, hmoved]
    dsimp only
    rw [Option.map_map]
    refine Option.map_congr fun row _ => ?_
    exact (placed_placed row source path _).symm
  | none =>
    unfold getAt
    rw [lookup, hmoved]
    dsimp only
    split <;> rfl

theorem carryFlagAt_eq (layers : List Layer) (path : Path) :
    carryFlagAt table layers path = (getAt table layers path).map BaselineEntry.carryable := by
  unfold carryFlagAt getAt
  rw [lookup_unmarked, Option.map_map]
  refine Option.map_congr fun row _ => ?_
  exact (carryable_placed row path _).symm

end View

end Rows

end SyncEngine
