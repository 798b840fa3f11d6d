import Mathlib.Data.Prod.Lex
import SyncEngine.Folding
import SyncEngine.Rows
import SyncEngine.Rows.Pages

/-! # A pass's rows as its snapshot reads them

A pass asks its snapshot about single paths while it is handed the rows page by page. Questions
are answered out of the pages read last, where these span the path, and what they answer is what
the table holds.
-/

namespace SyncEngine

open Collections List

structure FoldedPage where
  fromFolded : Path
  complete : Bool
  rows : List (Path × Path)
deriving DecidableEq, Repr

namespace FoldedPage

/-- Whether the page answers for a folded path: not for the last one of a read that stopped at its limit. -/
def spans (page : FoldedPage) (folded : Path) : Bool :=
  page.fromFolded ≤ folded &&
    (page.complete || page.rows.getLast?.any fun last => folded < last.1)

/-- The path of every row at a folded path. The rows are in the index's order, so those before it come first. -/
def answer (page : FoldedPage) (folded : Path) : Option (List Path) :=
  if page.spans folded then
    some (((page.rows.dropWhile fun row => row.1 < folded).takeWhile fun row => row.1 = folded).map Prod.snd)
  else none

def passedBy (page : FoldedPage) (folded : Path) : Bool := page.rows.getLast?.any fun last => last.1 ≤ folded

end FoldedPage

section Statements

variable (fold : CaseFold) (table : Baseline)

def indexKey (row : Path × Path) : Path ×ₗ Path := toLex row

/-- Every row's folded path and path, in the order of the index. -/
def foldedIndex : List (Path × Path) :=
  (table.rows.map fun row => (fold.collisionKey row.relPath, row.relPath)).mergeSort
    fun a b => indexKey a ≤ indexKey b

def rowsFrom (fromPath : Path) (inclusive : Bool) (toPath : Option Path) (limit : Nat) : List BaselineEntry :=
  (table.rows.filter fun row => inRange fromPath inclusive toPath row.relPath).take limit

def dirRowsFrom (fromPath : Path) (inclusive : Bool) (toPath : Option Path) (limit : Nat) : List BaselineEntry :=
  ((table.rows.filter fun row => row.kind = .dir).filter fun row =>
    inRange fromPath inclusive toPath row.relPath).take limit

def foldedFrom (folded : Path) (limit : Nat) : List (Path × Path) :=
  ((foldedIndex fold table).filter fun row => folded ≤ row.1).take limit

/-- Up to so many rows under a folded path, after a pair. -/
def foldedRowsUnder (folded : Path) (after : Option (Path × Path)) (limit : Nat) : List (Path × Path) :=
  (((foldedIndex fold table).filter fun row => row.1 < (subtreeBounds folded).2).filter fun row =>
    indexKey (after.getD ((subtreeBounds folded).1, [])) < indexKey row).take limit

end Statements

/-! ## The snapshot -/

structure Snapshot where
  /-- The last page any enumeration read. -/
  lastPage : Option (Page BaselineEntry)
  /-- The last page the point questions read for themselves. -/
  ahead : ReadAhead (Page BaselineEntry)
  foldedAhead : ReadAhead FoldedPage

inductive Question where
  | row (relPath : Path)
  | carryableAt (relPath : Path)
  | page (fromPath : Path) (inclusive : Bool) (toPath : Option Path) (limit : Nat)
  | dirPage (fromPath : Path) (inclusive : Bool) (toPath : Option Path) (limit : Nat)
  | foldedAt (folded : Path)
  | foldedUnder (folded : Path) (after : Option (Path × Path)) (limit : Nat)

inductive Answer where
  | row (row : Option BaselineEntry)
  | carryable (carryable : Option Bool)
  | rows (rows : List BaselineEntry)
  | paths (paths : List Path)
  | pairs (pairs : List (Path × Path))
deriving DecidableEq, Repr

namespace Snapshot

variable (fold : CaseFold) (table : Baseline)

def begin' : Snapshot := ⟨none, .new, .new⟩

def maxPage : ℕ+ := 1024

def rowPages : AheadPage (Page BaselineEntry) := ⟨fun page => page.rows.length, Page.passedBy BaselineEntry.relPath⟩

def foldedPages : AheadPage FoldedPage := ⟨fun page => page.rows.length, FoldedPage.passedBy⟩

/-- What the last page read says about a path, where it can say. -/
def remembered {R : Type} (relPath : Path) (answer : Option BaselineEntry → R) (snapshot : Snapshot) : Option R :=
  snapshot.lastPage.bind fun page => (page.answer BaselineEntry.relPath relPath).map answer

def readPage (fromPath : Path) (inclusive : Bool) (toPath : Option Path) (limit : Nat) : Page BaselineEntry :=
  .read fromPath inclusive toPath limit (rowsFrom table fromPath inclusive toPath limit)

/-- What the table holds at a path, out of the last page read or else of one read from the path. -/
def point {R : Type} (relPath : Path) (answer : Option BaselineEntry → R) (snapshot : Snapshot) : Option (R × Snapshot) :=
  match snapshot.remembered relPath answer with
  | some found => some (found, snapshot)
  | none =>
    (snapshot.ahead.ask rowPages relPath maxPage (fun page => (page.answer BaselineEntry.relPath relPath).map answer)
      fun want => some (readPage table relPath true none want)).map fun asked =>
        (asked.1, { snapshot with ahead := asked.2 })

/-- Read from a folded path on, twice as far each time, until the page spans it: nothing if the rounds run out. -/
def readFolded (folded : Path) : Nat → Nat → Option FoldedPage
  | 0, _ => none
  | rounds + 1, want =>
    let rows := foldedFrom fold table folded want
    let page : FoldedPage := ⟨folded, decide (rows.length < want), rows⟩
    if page.spans folded then some page else readFolded folded rounds (want * 2)

def foldedAt (rounds : Nat) (folded : Path) (snapshot : Snapshot) : Option (List Path × Snapshot) :=
  (snapshot.foldedAhead.ask foldedPages folded maxPage (fun page => page.answer folded)
    fun want => readFolded fold table folded rounds (max want 2)).map fun asked =>
      (asked.1, { snapshot with foldedAhead := asked.2 })

/-- Answer a question, with what the snapshot then remembers: nothing where it panics. -/
def answer (rounds : Nat) (question : Question) (snapshot : Snapshot) : Option (Answer × Snapshot) :=
  match question with
  | .row relPath => (snapshot.point table relPath id).map fun done => (.row done.1, done.2)
  | .carryableAt relPath =>
    (snapshot.point table relPath fun row => row.map BaselineEntry.carryable).map fun done => (.carryable done.1, done.2)
  | .page fromPath inclusive toPath limit =>
    let page := readPage table fromPath inclusive toPath limit
    some (.rows page.rows, { snapshot with lastPage := some page })
  | .dirPage fromPath inclusive toPath limit => some (.rows (dirRowsFrom table fromPath inclusive toPath limit), snapshot)
  | .foldedAt folded => (snapshot.foldedAt fold table rounds folded).map fun done => (.paths done.1, done.2)
  | .foldedUnder folded after limit => some (.pairs (foldedRowsUnder fold table folded after limit), snapshot)

def answers (rounds : Nat) : List Question → Snapshot → Option (List Answer)
  | [], _ => some []
  | question :: questions, snapshot =>
    match snapshot.answer fold table rounds question with
    | none => none
    | some (found, snapshot) => (answers rounds questions snapshot).map (found :: ·)

/-- The rows under a folded path page by page, each after the last pair of the one before, until a page is not full. -/
def chain (folded : Path) (limit : ℕ+) : Nat → Option (Path × Path) → List (Path × Path)
  | 0, _ => []
  | rounds + 1, after =>
    let page := foldedRowsUnder fold table folded after limit
    match page.getLast? with
    | none => page
    | some last => if page.length < limit then page else page ++ chain folded limit rounds (some last)

end Snapshot

def Question.direct (fold : CaseFold) (table : Baseline) : Question → Answer
  | .row relPath => .row (table.get relPath)
  | .carryableAt relPath => .carryable ((table.get relPath).map BaselineEntry.carryable)
  | .page fromPath inclusive toPath limit => .rows (rowsFrom table fromPath inclusive toPath limit)
  | .dirPage fromPath inclusive toPath limit => .rows (dirRowsFrom table fromPath inclusive toPath limit)
  | .foldedAt folded =>
    .paths ((table.rows.filter fun row => fold.collisionKey row.relPath = folded).map BaselineEntry.relPath)
  | .foldedUnder folded after limit => .pairs (foldedRowsUnder fold table folded after limit)

namespace Snapshot

variable {fold : CaseFold} {table : Baseline} {snapshot : Snapshot}

theorem foldedIndex_perm (fold : CaseFold) (table : Baseline) :
    (foldedIndex fold table).Perm (table.rows.map fun row => (fold.collisionKey row.relPath, row.relPath)) :=
  mergeSort_perm _ _

theorem foldedIndex_ascending (fold : CaseFold) (table : Baseline) : Ascending indexKey (foldedIndex fold table) := by
  have hle : (foldedIndex fold table).Pairwise fun a b => indexKey a ≤ indexKey b := by
    refine (pairwise_mergeSort ?_ ?_ _).imp fun h => of_decide_eq_true h
    · intro a b c hab hbc
      exact decide_eq_true ((of_decide_eq_true hab).trans (of_decide_eq_true hbc))
    intro a b
    rw [Bool.or_eq_true, decide_eq_true_iff, decide_eq_true_iff]
    exact le_total _ _
  have hnodup : (foldedIndex fold table).Nodup := by
    refine (foldedIndex_perm fold table).nodup_iff.mpr ?_
    refine List.Nodup.of_map Prod.snd ?_
    rw [map_map]
    exact table.nodup_relPaths
  refine (hle.and hnodup).imp fun hab => lt_of_le_of_ne hab.1 fun heq => hab.2 ?_
  exact toLex.injective heq

theorem folded_rows (folded : Path) :
    ((foldedIndex fold table).filter fun row => row.1 = folded).map Prod.snd =
      (table.rows.filter fun row => fold.collisionKey row.relPath = folded).map BaselineEntry.relPath := by
  have hindex : (((foldedIndex fold table).filter fun row => row.1 = folded).map Prod.snd).Pairwise (· < ·) := by
    rw [pairwise_map]
    have hasc := (foldedIndex_ascending fold table).filter fun row => row.1 = folded
    refine hasc.imp_of_mem fun {a b} ha hb hlt => ?_
    have hafold : a.1 = folded := of_decide_eq_true (mem_filter.mp ha).2
    have hbfold : b.1 = folded := of_decide_eq_true (mem_filter.mp hb).2
    rcases Prod.Lex.lt_iff.mp hlt with hfirst | ⟨-, hsecond⟩
    · have hfirst' : a.1 < b.1 := hfirst
      rw [hafold, hbfold] at hfirst'
      exact absurd hfirst' (lt_irrefl _)
    · exact hsecond
  have hrows : ((table.rows.filter fun row => fold.collisionKey row.relPath = folded).map
      BaselineEntry.relPath).Pairwise (· < ·) := by
    rw [pairwise_map]
    exact (pairwise_map.mp table.sorted).filter _
  have hperm := ((foldedIndex_perm fold table).filter fun row => row.1 = folded).map Prod.snd
  rw [filter_map, map_map] at hperm
  exact hperm.eq_of_pairwise (fun a b _ _ hab hba => absurd (lt_trans hab hba) (lt_irrefl _)) hindex hrows

/-! ## Folded pages -/

theorem takeWhile_dropWhile_eq_filter {rows : List (Path × Path)} (h : rows.Pairwise fun a b => a.1 ≤ b.1) (folded : Path) :
    ((rows.dropWhile fun row => row.1 < folded).takeWhile fun row => row.1 = folded) =
      rows.filter fun row => decide (row.1 = folded) := by
  induction rows with
  | nil => rfl
  | cons row rows ih =>
    obtain ⟨hfirst, hrest⟩ := pairwise_cons.mp h
    rw [dropWhile_cons, filter_cons]
    rcases lt_trichotomy row.1 folded with hlt | heq | hgt
    · rw [if_pos (decide_eq_true hlt), if_neg (by rw [decide_eq_true_iff]; exact hlt.ne), ih hrest]
    · rw [if_neg (by rw [decide_eq_true_iff]; exact heq.not_lt), if_pos (decide_eq_true heq), takeWhile_cons,
        if_pos (decide_eq_true heq)]
      have hdrop : rows.dropWhile (fun row => row.1 < folded) = rows := by
        cases rows with
        | nil => rfl
        | cons next rows =>
          have hle := hfirst next mem_cons_self
          rw [dropWhile_cons, if_neg]
          rw [decide_eq_true_iff]
          exact not_lt.mpr (heq ▸ hle)
      have htail := ih hrest
      rw [hdrop] at htail
      rw [htail]
    rw [if_neg (by rw [decide_eq_true_iff]; exact hgt.not_gt), if_neg (by rw [decide_eq_true_iff]; exact hgt.ne'),
      takeWhile_cons, if_neg (by rw [decide_eq_true_iff]; exact hgt.ne')]
    refine (filter_eq_nil_iff.mpr fun other hother => ?_).symm
    rw [decide_eq_true_iff]
    exact (lt_of_lt_of_le hgt (hfirst other hother)).ne'

def foldedPage (fold : CaseFold) (table : Baseline) (folded : Path) (want : Nat) : FoldedPage :=
  ⟨folded, decide ((foldedFrom fold table folded want).length < want), foldedFrom fold table folded want⟩

/-- A folded page speaks for the table where it can say. -/
def FoldedSpeaks (fold : CaseFold) (table : Baseline) (page : FoldedPage) : Prop :=
  ∀ folded paths, page.answer folded = some paths →
    paths = (table.rows.filter fun row => fold.collisionKey row.relPath = folded).map BaselineEntry.relPath

theorem foldedPage_speaks (start : Path) (want : Nat) : FoldedSpeaks fold table (foldedPage fold table start want) := by
  intro folded paths hanswer
  unfold FoldedPage.answer at hanswer
  split at hanswer
  · rename_i hspans
    obtain ⟨hfrom, hend⟩ := Bool.and_eq_true_iff.mp hspans
    have hle : start ≤ folded := of_decide_eq_true hfrom
    cases hanswer
    rw [← folded_rows]
    unfold foldedPage at hend ⊢
    have hasc := (foldedIndex_ascending fold table).filter fun row => start ≤ row.1
    have hwhole : (((foldedIndex fold table).filter fun row => start ≤ row.1).filter fun row =>
        row.1 = folded) = (foldedIndex fold table).filter fun row => decide (row.1 = folded) := by
      rw [filter_filter]
      refine filter_congr fun row _ => ?_
      by_cases heq : row.1 = folded
      · rw [decide_eq_true heq, Bool.true_and]
        exact decide_eq_true (heq ▸ hle)
      · rw [decide_eq_false heq, Bool.false_and]
    unfold foldedFrom at hend ⊢
    generalize hall : (foldedIndex fold table).filter (fun row => start ≤ row.1) = all at hend hasc hwhole ⊢
    have hmono : all.Pairwise fun a b => a.1 ≤ b.1 := by
      refine hasc.imp fun hlt => ?_
      rcases Prod.Lex.lt_iff.mp hlt with hfirst | ⟨hfirst, -⟩
      · exact le_of_lt hfirst
      · exact le_of_eq hfirst
    rw [takeWhile_dropWhile_eq_filter (hmono.sublist (take_sublist _ _)), ← hwhole]
    congr 1
    rcases Bool.or_eq_true_iff.mp hend with hcomplete | hlast
    · have hshort : (all.take want).length < want := of_decide_eq_true hcomplete
      rw [length_take] at hshort
      rw [take_of_length_le (by omega)]
    -- what was not read sorts past the last one read, and that past the folded path
    obtain ⟨last, hgetLast, hpast⟩ := (Option.any_eq_true _ _).mp hlast
    have hlt : folded < last.1 := of_decide_eq_true hpast
    have hsplit := take_append_drop want all
    rw [← hsplit] at hmono
    have hnone : (all.drop want).filter (fun row => row.1 = folded) = [] := by
      refine filter_eq_nil_iff.mpr fun row hrow => ?_
      rw [decide_eq_true_iff]
      have hcross := (pairwise_append.mp hmono).2.2 last (mem_of_getLast? hgetLast) row hrow
      exact (lt_of_lt_of_le hlt hcross).ne'
    conv_rhs => rw [← hsplit]
    rw [filter_append, hnone, append_nil]
  · cases hanswer

theorem readFolded_spans (folded : Path) (rounds want : Nat) (hwant : 1 ≤ want) (h : table.rows.length < want + rounds) :
    ∃ limit, readFolded fold table folded (rounds + 1) want = some (foldedPage fold table folded limit) ∧
      (foldedPage fold table folded limit).spans folded := by
  induction rounds generalizing want with
  | zero =>
    have hlength : (foldedFrom fold table folded want).length < want := by
      have hle' := length_filter_le (fun row : Path × Path => folded ≤ row.1) (foldedIndex fold table)
      have hindex := (foldedIndex_perm fold table).length_eq
      rw [length_map] at hindex
      unfold foldedFrom
      rw [length_take]
      omega
    have hspans : (foldedPage fold table folded want).spans folded := by
      unfold FoldedPage.spans foldedPage
      rw [decide_eq_true (le_refl folded), decide_eq_true hlength]
      rfl
    exact ⟨want, if_pos hspans, hspans⟩
  | succ rounds ih =>
    by_cases hspans : (foldedPage fold table folded want).spans folded
    · exact ⟨want, if_pos hspans, hspans⟩
    obtain ⟨limit, hread, hdone⟩ := ih (want * 2) (by omega) (by omega)
    exact ⟨limit, (if_neg hspans).trans hread, hdone⟩

/-! ## Any sequence of questions -/

/-- Every page a snapshot remembers speaks for the table. -/
structure Remembers (fold : CaseFold) (table : Baseline) (snapshot : Snapshot) : Prop where
  lastPage : ∀ page ∈ snapshot.lastPage, page.Speaks BaselineEntry.relPath table.rows
  ahead : ∀ page ∈ snapshot.ahead.page, page.Speaks BaselineEntry.relPath table.rows
  foldedAhead : ∀ page ∈ snapshot.foldedAhead.page, FoldedSpeaks fold table page

theorem remembers_begin : Remembers fold table begin' :=
  ⟨fun page hnone => absurd hnone (Option.not_mem_none page), fun page hnone => absurd hnone (Option.not_mem_none page),
    fun page hnone => absurd hnone (Option.not_mem_none page)⟩

theorem readPage_speaks (fromPath : Path) (inclusive : Bool) (toPath : Option Path) (limit : Nat) :
    (readPage table fromPath inclusive toPath limit).Speaks BaselineEntry.relPath table.rows :=
  Page.read_speaks (pairwise_map.mp table.sorted)

section

variable (h : Remembers fold table snapshot)
include h

theorem point_eq {R : Type} (relPath : Path) (answer : Option BaselineEntry → R) :
    ∃ after, snapshot.point table relPath answer = some (answer (table.get relPath), after) ∧
      Remembers fold table after := by
  have hsound : ∀ page : Page BaselineEntry, page.Speaks BaselineEntry.relPath table.rows → ∀ found,
      (page.answer BaselineEntry.relPath relPath).map answer = some found → found = answer (table.get relPath) := by
    intro page hspeaks found hfound
    cases hanswer : page.answer BaselineEntry.relPath relPath with
    | outside =>
      rw [hanswer] at hfound
      cases hfound
    | spans row =>
      rw [hanswer] at hfound
      cases hfound
      rw [hspeaks relPath row hanswer]
      rfl
  unfold point remembered
  cases hfound : snapshot.lastPage.bind fun page => (page.answer BaselineEntry.relPath relPath).map answer with
  | some found =>
    obtain ⟨page, hpage, hanswer⟩ := Option.bind_eq_some_iff.mp hfound
    rw [hsound page (h.lastPage page hpage) found hanswer]
    exact ⟨snapshot, rfl, h⟩
  | none =>
    obtain ⟨after, hask, hafter⟩ := ReadAhead.ask_table (pairwise_map.mp table.sorted) h.ahead relPath maxPage answer
    exact ⟨_, congrArg (Option.map _) hask, h.lastPage, hafter, h.foldedAhead⟩

theorem foldedAt_eq (folded : Path) (more : Nat) :
    ∃ after, snapshot.foldedAt fold table (table.rows.length + 1 + more) folded =
        some ((table.rows.filter fun row => fold.collisionKey row.relPath = folded).map BaselineEntry.relPath, after) ∧
      Remembers fold table after := by
  have hread : ∀ want : Nat, ∃ page, readFolded fold table folded (table.rows.length + 1 + more) (max want 2) = some page ∧
      FoldedSpeaks fold table page ∧ (page.answer folded).isSome := by
    intro want
    have hrounds : table.rows.length + 1 + more = (table.rows.length + more) + 1 := by omega
    obtain ⟨limit, hpage, hspans⟩ : ∃ limit, readFolded fold table folded (table.rows.length + more + 1) (max want 2) =
        some (foldedPage fold table folded limit) ∧ (foldedPage fold table folded limit).spans folded :=
      readFolded_spans folded (table.rows.length + more) (max want 2) (by omega) (by omega)
    refine ⟨_, hrounds ▸ hpage, foldedPage_speaks folded limit, ?_⟩
    unfold FoldedPage.answer
    rw [if_pos hspans]
    rfl
  have hsound : ∀ page, FoldedSpeaks fold table page → ∀ found, page.answer folded = some found →
      found = (table.rows.filter fun row => fold.collisionKey row.relPath = folded).map BaselineEntry.relPath :=
    fun page hspeaks found hfound => hspeaks folded found hfound
  obtain ⟨after, hask, hafter⟩ := ReadAhead.ask_eq foldedPages folded maxPage
    (fun want => readFolded fold table folded (table.rows.length + 1 + more) (max want 2)) h.foldedAhead hsound
    (hread (snapshot.foldedAhead.want foldedPages folded maxPage))
  unfold foldedAt
  rw [hask]
  exact ⟨_, rfl, h.lastPage, h.ahead, hafter⟩

theorem answer_eq (question : Question) (more : Nat) :
    ∃ after, snapshot.answer fold table (table.rows.length + 1 + more) question = some (question.direct fold table, after) ∧
      Remembers fold table after := by
  cases question with
  | row relPath =>
    obtain ⟨after, hpoint, hafter⟩ := point_eq h relPath id
    unfold answer
    dsimp only
    rw [hpoint]
    exact ⟨after, rfl, hafter⟩
  | carryableAt relPath =>
    obtain ⟨after, hpoint, hafter⟩ := point_eq h relPath fun row => row.map BaselineEntry.carryable
    unfold answer
    dsimp only
    rw [hpoint]
    exact ⟨after, rfl, hafter⟩
  | page fromPath inclusive toPath limit =>
    refine ⟨_, rfl, fun page hpage => ?_, h.ahead, h.foldedAhead⟩
    cases hpage
    exact readPage_speaks fromPath inclusive toPath limit
  | dirPage fromPath inclusive toPath limit => exact ⟨snapshot, rfl, h⟩
  | foldedAt folded =>
    obtain ⟨after, hfolded, hafter⟩ := foldedAt_eq h folded more
    unfold answer
    dsimp only
    rw [hfolded]
    exact ⟨after, rfl, hafter⟩
  | foldedUnder folded after limit => exact ⟨snapshot, rfl, h⟩

theorem answers_eq (questions : List Question) (more : Nat) :
    snapshot.answers fold table (table.rows.length + 1 + more) questions = some (questions.map (Question.direct fold table)) := by
  induction questions generalizing snapshot with
  | nil => rfl
  | cons question questions ih =>
    obtain ⟨after, hanswer, hafter⟩ := answer_eq h question more
    unfold answers
    rw [hanswer]
    dsimp only
    rw [ih hafter]
    rfl

end

/-! ## The rows under a folded path -/

theorem chain_eq_pages (folded : Path) (limit : ℕ+) (rounds : Nat) (after : Option (Path × Path)) :
    chain fold table folded limit rounds after =
      pages indexKey limit ((foldedIndex fold table).filter fun row => row.1 < (subtreeBounds folded).2) rounds
        (fun row => indexKey (after.getD ((subtreeBounds folded).1, [])) < indexKey row) := by
  induction rounds generalizing after with
  | zero => rfl
  | succ rounds ih =>
    unfold chain pages
    dsimp only
    unfold foldedRowsUnder
    generalize List.take (limit : Nat) _ = page
    cases page.getLast? with
    | none => rfl
    | some last =>
      dsimp only
      split
      · rfl
      rw [ih]
      rfl

theorem chain_eq (folded : Path) (limit : ℕ+) (more : Nat) :
    chain fold table folded limit (table.rows.length + 1 + more) none =
      (foldedIndex fold table).filter fun row => isUnder row.1 folded := by
  have hasc := foldedIndex_ascending fold table
  rw [chain_eq_pages]
  have hpages := (hasc.filter fun row => row.1 < (subtreeBounds folded).2).pages_eq limit
    (table.rows.length + 1 + more) (fun row => indexKey ((subtreeBounds folded).1, []) < indexKey row)
    (fun a _ b _ hab hpast => decide_eq_true (lt_trans (of_decide_eq_true hpast) hab)) ?_
  · refine hpages.trans ?_
    rw [filter_filter]
    refine filter_congr fun row hrow => ?_
    -- a row at the lower bound itself would be filed at the empty path
    have hmem := (foldedIndex_perm fold table).subset hrow
    obtain ⟨entry, -, rfl⟩ := mem_map.mp hmem
    have hiff : (indexKey ((subtreeBounds folded).1, []) < indexKey (fold.collisionKey entry.relPath, entry.relPath) ∧
        fold.collisionKey entry.relPath < (subtreeBounds folded).2) ↔ isUnder (fold.collisionKey entry.relPath) folded := by
      rw [← mem_subtreeBounds]
      refine and_congr_left fun _ => ?_
      constructor
      · intro hlt
        rcases Prod.Lex.lt_iff.mp hlt with hfirst | ⟨heq, -⟩
        · exact le_of_lt hfirst
        · exact le_of_eq heq
      intro hle
      refine Prod.Lex.lt_iff.mpr ?_
      rcases lt_or_eq_of_le hle with hlt | heq
      · exact Or.inl hlt
      refine Or.inr ⟨heq, ?_⟩
      cases hpath : entry.relPath with
      | nil =>
        rw [hpath] at heq
        have hnil : (subtreeBounds folded).1 = [] := heq
        exact absurd hnil (append_ne_nil_of_right_ne_nil _ (cons_ne_nil _ _))
      | cons c rest => exact nil_lt_cons c rest
    by_cases hunder : isUnder (fold.collisionKey entry.relPath) folded
    · obtain ⟨hleft, hright⟩ := hiff.mpr hunder
      rw [decide_eq_true hleft, decide_eq_true hright, hunder]
      rfl
    rw [Bool.eq_false_iff.mpr hunder, Bool.and_eq_false_iff]
    by_cases hright : fold.collisionKey entry.relPath < (subtreeBounds folded).2
    · exact Or.inl (decide_eq_false fun hleft => hunder (hiff.mp ⟨hleft, hright⟩))
    · exact Or.inr (decide_eq_false hright)
  have hle := length_filter_le (fun row : Path × Path => row.1 < (subtreeBounds folded).2) (foldedIndex fold table)
  have hle' := length_filter_le (fun row : Path × Path => indexKey ((subtreeBounds folded).1, []) < indexKey row)
    ((foldedIndex fold table).filter fun row => row.1 < (subtreeBounds folded).2)
  have hindex := (foldedIndex_perm fold table).length_eq
  rw [length_map] at hindex
  omega

/-- Every sequence of questions is answered as lookups of their own would answer each, whatever pages are remembered,
and the pages under a folded path are, chained, the rows strictly under it in the index's order, once each. -/
theorem answers_as_table (fold : CaseFold) (table : Baseline) :
    (∀ (questions : List Question) (more : Nat), begin'.answers fold table (table.rows.length + 1 + more) questions =
      some (questions.map (Question.direct fold table))) ∧
    (∀ (folded : Path) (limit : ℕ+) (more : Nat), chain fold table folded limit (table.rows.length + 1 + more) none =
      (foldedIndex fold table).filter fun row => isUnder row.1 folded) ∧
    (foldedIndex fold table).Perm (table.rows.map fun row => (fold.collisionKey row.relPath, row.relPath)) ∧
    Ascending indexKey (foldedIndex fold table) :=
  ⟨answers_eq remembers_begin, chain_eq, foldedIndex_perm fold table, foldedIndex_ascending fold table⟩

end Snapshot

end SyncEngine
