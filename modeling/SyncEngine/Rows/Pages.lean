import SyncEngine.Collections.Ascending
import SyncEngine.Paths

/-! # Pages of a table

A page is a stretch of a table in path order as one read saw it, and speaks for the table within
that stretch. A read-ahead keeps the page the last questions were answered from, and sizes the
next to how well that one was used.
-/

namespace SyncEngine

open Collections List

variable {α P R : Type}

structure Page (α : Type) where
  fromPath : Path
  inclusive : Bool
  toPath : Option Path
  /-- Whether the read reached the end of its range rather than its limit. -/
  complete : Bool
  rows : List α
deriving Repr

inductive PageAnswer (α : Type) where
  | outside
  | spans (row : Option α)
deriving Repr

def PageAnswer.map (read : Option α → R) : PageAnswer α → Option R
  | .spans row => some (read row)
  | .outside => none

/-- Whether a path is at or past a bound, or past it. -/
def isPast (fromPath : Path) (inclusive : Bool) (path : Path) : Bool :=
  if inclusive then decide (fromPath ≤ path) else decide (fromPath < path)

namespace Page

def read (fromPath : Path) (inclusive : Bool) (toPath : Option Path) (limit : Nat) (rows : List α) : Page α where
  fromPath := fromPath
  inclusive := inclusive
  toPath := toPath
  complete := decide (rows.length < limit)
  rows := rows

variable (filed : α → Path)

def beforeEnd (page : Page α) (path : Path) : Bool :=
  let atEnd := page.complete && page.toPath.all fun stop => path < stop
  match page.rows.getLast? with
  | some last => if path ≤ filed last then true else atEnd
  | none => atEnd

/-- What the page says about a path. Its rows are in path order, so the search finds the row there. -/
def answer (page : Page α) (path : Path) : PageAnswer α :=
  if isPast page.fromPath page.inclusive path && page.beforeEnd filed path then
    .spans (page.rows.find? fun row => filed row = path)
  else .outside

def passedBy (page : Page α) (path : Path) : Bool := page.rows.getLast?.any fun last => filed last < path

end Page

structure AheadPage (P : Type) where
  len : P → Nat
  passedBy : P → Path → Bool

structure ReadAhead (P : Type) where
  page : Option P
  answered : Nat
deriving Repr

namespace ReadAhead

def new : ReadAhead P := ⟨none, 0⟩

def want (kind : AheadPage P) (ahead : ReadAhead P) (path : Path) (most : ℕ+) : Nat :=
  match ahead.page with
  | some page =>
    if kind.len page ≤ ahead.answered * 2 ∧ kind.passedBy page path = true then min (kind.len page * 2) most else 1
  | none => 1

/-- The answer of the page in hand, else of one read from the path on: nothing where reading does not come
to an end or the page read does not span the path. -/
def ask (kind : AheadPage P) (path : Path) (most : ℕ+) (answer : P → Option R) (read : Nat → Option P)
    (ahead : ReadAhead P) : Option (R × ReadAhead P) :=
  match ahead.page.bind answer with
  | some found => some (found, { ahead with answered := ahead.answered + 1 })
  | none =>
    match read (ahead.want kind path most) with
    | none => none
    | some page => (answer page).map fun found => (found, ⟨some page, 1⟩)

theorem one_le_want (kind : AheadPage P) (ahead : ReadAhead P) (path : Path) (most : ℕ+)
    (hempty : ∀ page, kind.passedBy page path → 1 ≤ kind.len page) : 1 ≤ ahead.want kind path most := by
  unfold want
  cases ahead.page with
  | none => exact Nat.le_refl 1
  | some page =>
    dsimp only
    split
    · rename_i hused
      have hlen := hempty page hused.2
      have hmost := most.pos
      omega
    · exact Nat.le_refl 1

/-- Where every page in hand says what is so, and one read from a path spans it, so does every answer. -/
theorem ask_eq (kind : AheadPage P) (path : Path) (most : ℕ+) {answer : P → Option R} (read : Nat → Option P)
    {ahead : ReadAhead P} {speaks : P → Prop} {truth : R} (hpage : ∀ page ∈ ahead.page, speaks page)
    (hspeaks : ∀ page, speaks page → ∀ found, answer page = some found → found = truth)
    (hread : ∃ page, read (ahead.want kind path most) = some page ∧ speaks page ∧ (answer page).isSome) :
    ∃ after, ask kind path most answer read ahead = some (truth, after) ∧ ∀ page ∈ after.page, speaks page := by
  unfold ask
  cases hfound : ahead.page.bind answer with
  | some found =>
    obtain ⟨page, hhand, hanswer⟩ := Option.bind_eq_some_iff.mp hfound
    rw [hspeaks page (hpage page hhand) found hanswer]
    exact ⟨_, rfl, hpage⟩
  | none =>
    obtain ⟨page, hpage, hsound, hsome⟩ := hread
    obtain ⟨found, hanswer⟩ := Option.isSome_iff_exists.mp hsome
    rw [hpage]
    dsimp only
    rw [hanswer, hspeaks page hsound found hanswer]
    refine ⟨_, rfl, fun other hother => ?_⟩
    cases hother
    exact hsound

end ReadAhead

/-! ## Tables -/

def inRange (fromPath : Path) (inclusive : Bool) (toPath : Option Path) (path : Path) : Bool :=
  isPast fromPath inclusive path && toPath.all fun stop => path < stop

section Table

variable {filed : α → Path} {table : List α}

def rowAt (filed : α → Path) (table : List α) (path : Path) : Option α := table.find? fun row => filed row = path

theorem rowAt_eq_some (h : Ascending filed table) {path : Path} {row : α} :
    rowAt filed table path = some row ↔ row ∈ table ∧ filed row = path := by
  unfold rowAt
  constructor
  · intro hfind
    have hat := find?_some hfind
    exact ⟨mem_of_find?_eq_some hfind, of_decide_eq_true hat⟩
  rintro ⟨hmem, rfl⟩
  cases hfind : table.find? (fun other => filed other = filed row) with
  | none => exact absurd (decide_eq_true rfl) (find?_eq_none.mp hfind row hmem)
  | some other =>
    have hat := find?_some hfind
    rw [h.eq_of_key (mem_of_find?_eq_some hfind) hmem (of_decide_eq_true hat)]

theorem rowAt_eq_of_part (h : Ascending filed table) {part : List α} (hpart : part.Sublist table) {path : Path}
    (hheld : ∀ row ∈ table, filed row = path → row ∈ part) : rowAt filed part path = rowAt filed table path := by
  cases hrow : rowAt filed table path with
  | none =>
    cases hfound : rowAt filed part path with
    | none => rfl
    | some row =>
      obtain ⟨hmem, hat⟩ := (rowAt_eq_some (h.sublist hpart)).mp hfound
      rw [(rowAt_eq_some h).mpr ⟨hpart.subset hmem, hat⟩] at hrow
      cases hrow
  | some row =>
    obtain ⟨hmem, hat⟩ := (rowAt_eq_some h).mp hrow
    exact (rowAt_eq_some (h.sublist hpart)).mpr ⟨hheld row hmem hat, hat⟩

/-- A page speaks for a table: what it says of a path is what the table holds there. -/
def Page.Speaks (filed : α → Path) (table : List α) (page : Page α) : Prop :=
  ∀ path row, page.answer filed path = .spans row → row = rowAt filed table path

variable {fromPath path : Path} {inclusive : Bool} {toPath : Option Path} {limit : Nat}

theorem Page.read_speaks (h : Ascending filed table) :
    (Page.read fromPath inclusive toPath limit
      ((table.filter fun row => inRange fromPath inclusive toPath (filed row)).take limit)).Speaks filed table := by
  intro path row hanswer
  have hsub : ((table.filter fun row => inRange fromPath inclusive toPath (filed row)).take limit).Sublist table :=
    (take_sublist _ _).trans filter_sublist
  have hfiltered := h.filter fun row => inRange fromPath inclusive toPath (filed row)
  have hsplit := take_append_drop limit (table.filter fun row => inRange fromPath inclusive toPath (filed row))
  unfold Page.answer Page.read at hanswer
  generalize hall : (table.filter fun row => inRange fromPath inclusive toPath (filed row)) = all at hanswer hsub hfiltered hsplit
  split at hanswer
  · rename_i hspans
    obtain ⟨hpast, hend⟩ := Bool.and_eq_true_iff.mp hspans
    unfold Page.beforeEnd at hend
    cases hanswer
    refine rowAt_eq_of_part h hsub fun row hmem hat => ?_
    have hin : (toPath.all fun stop => path < stop) → row ∈ all := by
      intro hto
      rw [← hall]
      refine mem_filter.mpr ⟨hmem, ?_⟩
      unfold inRange
      rw [hat, hto, Bool.and_true]
      exact hpast
    -- what is at or before the last row read, or in a range read to its end, was read
    have hcomplete : ((all.take limit).length < limit && toPath.all fun stop => path < stop) →
        row ∈ all.take limit := by
      intro hboth
      obtain ⟨hshort, hto⟩ := Bool.and_eq_true_iff.mp hboth
      have hlt : (all.take limit).length < limit := of_decide_eq_true hshort
      rw [length_take] at hlt
      rw [take_of_length_le (by omega)]
      exact hin hto
    cases hlast : (all.take limit).getLast? with
    | none =>
      rw [hlast] at hend
      exact hcomplete hend
    | some last =>
      rw [hlast] at hend
      dsimp only at hend
      split at hend
      · rename_i hle
        have hlastMem : last ∈ all.take limit := mem_of_getLast? hlast
        have hto : (toPath.all fun stop => path < stop) := by
          have hlastIn := mem_of_mem_take hlastMem
          rw [← hall] at hlastIn
          have hrange := (mem_filter.mp hlastIn).2
          have hbelow := (Bool.and_eq_true_iff.mp hrange).2
          cases toPath with
          | none => rfl
          | some stop => exact decide_eq_true (lt_of_le_of_lt hle (of_decide_eq_true hbelow))
        have hmemAll := hin hto
        rw [← hsplit] at hmemAll
        rcases mem_append.mp hmemAll with htaken | hdropped
        · exact htaken
        rw [← hsplit] at hfiltered
        have hcross := (pairwise_append.mp hfiltered).2.2 last hlastMem row hdropped
        exact absurd (lt_of_lt_of_le (hat ▸ hcross) hle) (lt_irrefl _)
      · exact hcomplete hend
  · cases hanswer

theorem Page.read_spans (filed : α → Path) (table : List α) (path : Path) (hlimit : 1 ≤ limit) :
    ∃ row, (Page.read path true none limit
      ((table.filter fun row => inRange path true none (filed row)).take limit)).answer filed path = .spans row := by
  unfold Page.answer Page.read Page.beforeEnd isPast
  generalize hall : (table.filter fun row => inRange path true none (filed row)) = all
  cases hlast : (all.take limit).getLast? with
  | none =>
    have hnil := getLast?_eq_none_iff.mp hlast
    refine ⟨_, if_pos ?_⟩
    rw [hnil]
    simp
    omega
  | some last =>
    have hmem := mem_of_mem_take (mem_of_getLast? hlast)
    rw [← hall] at hmem
    have hrange := (mem_filter.mp hmem).2
    have hle : path ≤ filed last := of_decide_eq_true (Bool.and_eq_true_iff.mp hrange).1
    refine ⟨_, if_pos ?_⟩
    dsimp only
    rw [if_pos hle]
    simp

def filedPages (filed : α → Path) : AheadPage (Page α) := ⟨fun page => page.rows.length, Page.passedBy filed⟩

theorem ReadAhead.ask_table (h : Ascending filed table) {ahead : ReadAhead (Page α)} (hahead : ∀ page ∈ ahead.page, page.Speaks filed table)
    (path : Path) (most : ℕ+) (answer : Option α → R) :
    ∃ after, ahead.ask (filedPages filed) path most (fun page => (page.answer filed path).map answer) (fun want =>
        some (.read path true none want ((table.filter fun row => inRange path true none (filed row)).take want))) =
          some (answer (rowAt filed table path), after) ∧
      ∀ page ∈ after.page, page.Speaks filed table := by
  have hspeaks : ∀ page : Page α, page.Speaks filed table → ∀ found,
      (page.answer filed path).map answer = some found → found = answer (rowAt filed table path) := by
    intro page hpage found hfound
    cases hanswer : page.answer filed path with
    | outside =>
      rw [hanswer] at hfound
      cases hfound
    | spans row =>
      rw [hanswer] at hfound
      cases hfound
      rw [hpage path row hanswer]
  have hfull : ∀ page, (filedPages filed).passedBy page path → 1 ≤ (filedPages filed).len page := by
    intro page hpassed
    obtain ⟨last, hlast, -⟩ := (Option.any_eq_true _ _).mp hpassed
    exact length_pos_of_mem (mem_of_getLast? hlast)
  obtain ⟨row, hspans⟩ := Page.read_spans filed table path (one_le_want (filedPages filed) ahead path most hfull)
  refine ask_eq (filedPages filed) path most _ hahead hspeaks ⟨_, rfl, Page.read_speaks h, ?_⟩
  rw [hspans]
  rfl

end Table

end SyncEngine
