import SyncEngine.Collections.Ascending
import SyncEngine.Folding
import SyncEngine.Side.Rekey

/-! # The rows as one plain map

What the layered view of a pass answers is measured against a flat map from paths
to rows, with every edit written into it as it is made. The table the store keeps
is such a map, each of its rows at a path a row can have.
-/

namespace SyncEngine

open Collections BaselineEntry List

/-- Neither the pair root nor a path that ends in a separator. -/
def IsRowPath (path : Path) : Prop := path ≠ [] ∧ path.getLast? ≠ some '/'

instance (path : Path) : Decidable (IsRowPath path) := inferInstanceAs (Decidable (_ ∧ _))

theorem IsRowPath.moved {src dst rest : Path} (hdst : IsRowPath dst) (hsrc : IsRowPath (src ++ rest))
    (htail : IsTail rest) : IsRowPath (dst ++ rest) := by
  rcases htail with rfl | hslash
  · simpa using hdst
  have hne : rest ≠ [] := by
    rintro rfl
    cases hslash
  refine ⟨fun hnil => hdst.1 (append_eq_nil_iff.mp hnil).1, ?_⟩
  have hlast := hsrc.2
  rw [getLast?_append_of_ne_nil _ hne] at hlast ⊢
  exact hlast

variable {path : Path}

theorem IsRowPath.ne_slash (h : IsRowPath path) (dir : Path) :
    path ≠ dir ++ ['/'] := by
  rintro rfl
  exact h.2 getLast?_concat

theorem IsRowPath.collisionKey_ne_slash {fold : CaseFold} (h : IsRowPath path)
    (key : Path) : fold.collisionKey path ≠ key ++ ['/'] := by
  intro heq
  obtain ⟨p, q, rfl, -, hq⟩ := CaseFold.collisionKey_split (b := []) heq
  have hnil : q = [] := by
    by_contra hne
    exact CaseFold.collisionKey_ne_nil hne hq
  subst hnil
  exact h.ne_slash p rfl

namespace BaselineEntry

/-- Whether the row awaits confirmation of a push: this side's content is on
record and is not what the two sides last agreed on. -/
def awaitsConfirmation (row : BaselineEntry) : Bool :=
  row.kind = .file && row.state = .synced && row.contentHash.isSome &&
    row.agreedHash ≠ row.contentHash

/-- Whether the row is a `.filenignore`. -/
def isRuleFile (row : BaselineEntry) : Bool :=
  row.kind = .file && leaf row.relPath = ".filenignore".toList

def isDir (row : BaselineEntry) : Bool := decide (row.kind = .dir)

def isUnsynced (row : BaselineEntry) : Bool := decide (row.state ≠ .synced)

def movedTo (row : BaselineEntry) (path : Path) : BaselineEntry := { row with relPath := path }

def agreeing (row : BaselineEntry) (hash : Option Blake3Hash) : BaselineEntry :=
  { row with agreedHash := hash }

@[simp] theorem relPath_movedTo (row : BaselineEntry) (path : Path) :
    (row.movedTo path).relPath = path := rfl

@[simp] theorem movedTo_self (row : BaselineEntry) : row.movedTo row.relPath = row := rfl

end BaselineEntry

/-- How many rows there are, stand in for neither side, and record a remote item. -/
structure Counts where
  rows : Nat
  uncarryable : Nat
  remoteRows : Nat
deriving DecidableEq

namespace Baseline

theorem ascending (b : Baseline) : Ascending relPath b.rows :=
  pairwise_map.mp b.sorted

variable {b : Baseline} {row : BaselineEntry}

theorem mem_rows_iff :
    row ∈ b.rows ↔ b.get row.relPath = some row := by
  rw [get_eq_some_iff]
  exact (and_iff_left rfl).symm

theorem ext_get {a : Baseline} (h : ∀ path, a.get path = b.get path) : a = b := by
  have hrows : a.rows = b.rows :=
    a.ascending.eq_of_mem_iff b.ascending fun row => by rw [mem_rows_iff, mem_rows_iff, h]
  cases a
  cases b
  cases hrows
  rfl

theorem filter_rows_eq {xs : List BaselineEntry} {test : BaselineEntry → Bool} (hx : Ascending relPath xs)
    (h : ∀ row, row ∈ xs ↔ b.get row.relPath = some row ∧ test row) :
    xs = b.rows.filter test := by
  refine hx.eq_of_mem_iff (b.ascending.filter test) fun row => ?_
  rw [h, mem_filter, mem_rows_iff]

/-- Each row sits at a path a row can have. -/
def Clean (b : Baseline) : Prop := ∀ row ∈ b.rows, IsRowPath row.relPath

instance (b : Baseline) : Decidable b.Clean := inferInstanceAs (Decidable (∀ row ∈ b.rows, _))

theorem Clean.of_get (h : b.Clean) {path : Path} (hget : b.get path = some row) : IsRowPath path := by
  obtain ⟨hmem, rfl⟩ := get_eq_some_iff.mp hget
  exact h row hmem

/-! ### Writing into it -/

/-- Write a row at its path, over whatever sits there. -/
def write (b : Baseline) (row : BaselineEntry) : Baseline where
  rows := b.rows.filter (fun r => r.relPath < row.relPath) ++
    row :: b.rows.filter (fun r => row.relPath < r.relPath)
  sorted := by
    refine pairwise_map.mpr (Ascending.append (b.ascending.filter _) ?_ ?_)
    · refine pairwise_cons.mpr ⟨fun r hr => ?_, b.ascending.filter _⟩
      exact of_decide_eq_true (mem_filter.mp hr).2
    intro r hr s hs
    have hbefore : r.relPath < row.relPath := of_decide_eq_true (mem_filter.mp hr).2
    rcases mem_cons.mp hs with rfl | hs
    · exact hbefore
    · exact lt_trans hbefore (of_decide_eq_true (mem_filter.mp hs).2)

theorem mem_write {r : BaselineEntry} :
    r ∈ (b.write row).rows ↔ r = row ∨ r ∈ b.rows ∧ r.relPath ≠ row.relPath := by
  have hsplit : r.relPath ≠ row.relPath ↔ r.relPath < row.relPath ∨ row.relPath < r.relPath :=
    ne_iff_lt_or_gt
  simp only [write, mem_append, mem_cons, mem_filter, decide_eq_true_eq, hsplit]
  tauto

theorem get_write (b : Baseline) (row : BaselineEntry) (path : Path) :
    (b.write row).get path = if path = row.relPath then some row else b.get path := by
  refine Option.ext fun r => ?_
  rw [get_eq_some_iff, mem_write]
  split
  · rename_i heq
    subst heq
    constructor
    · rintro ⟨rfl | ⟨-, hne⟩, hpath⟩
      · rfl
      · exact absurd hpath hne
    intro h
    cases h
    exact ⟨Or.inl rfl, rfl⟩
  rename_i hne
  rw [get_eq_some_iff]
  constructor
  · rintro ⟨rfl | ⟨hmem, -⟩, hpath⟩
    · exact absurd hpath.symm hne
    · exact ⟨hmem, hpath⟩
  rintro ⟨hmem, rfl⟩
  exact ⟨Or.inr ⟨hmem, hne⟩, rfl⟩

def setAgreed (b : Baseline) (path : Path) (hash : Option Blake3Hash) : Baseline where
  rows := b.rows.map fun row => if row.relPath = path then row.agreeing hash else row
  sorted := by
    have hpaths : (b.rows.map fun row => if row.relPath = path then row.agreeing hash else row).map
        relPath = b.rows.map relPath := by
      rw [map_map]
      refine map_congr_left fun row _ => ?_
      dsimp only [Function.comp]
      split <;> rfl
    rw [hpaths]
    exact b.sorted

theorem get_setAgreed (b : Baseline) (at' : Path) (hash : Option Blake3Hash) (path : Path) :
    (b.setAgreed at' hash).get path =
      if path = at' then (b.get path).map fun row => row.agreeing hash else b.get path := by
  have hfind : (b.setAgreed at' hash).get path =
      (b.get path).map fun row => if row.relPath = at' then row.agreeing hash else row := by
    unfold get setAgreed
    rw [find?_map]
    congr 2
    funext row
    dsimp only [Function.comp]
    split <;> rfl
  rw [hfind]
  cases hget : b.get path with
  | none => simp
  | some row =>
    rw [Option.map_some, Option.map_some, get_relPath hget]
    split <;> rfl

def remove (b : Baseline) (path : Path) : Baseline where
  rows := b.rows.filter fun row => row.relPath ≠ path
  sorted := pairwise_map.mpr (b.ascending.filter _)

theorem get_remove (b : Baseline) (at' path : Path) :
    (b.remove at').get path = if path = at' then none else b.get path := by
  refine Option.ext fun row => ?_
  have hmem : row ∈ (b.remove at').rows ↔ row ∈ b.rows ∧ row.relPath ≠ at' := by
    simp [remove, mem_filter]
  rw [get_eq_some_iff, hmem]
  split
  · rename_i heq
    constructor
    · rintro ⟨⟨-, hne⟩, rfl⟩
      exact absurd heq hne
    intro h
    cases h
  rename_i hne
  rw [get_eq_some_iff]
  constructor
  · rintro ⟨⟨hmem, -⟩, hpath⟩
    exact ⟨hmem, hpath⟩
  rintro ⟨hmem, rfl⟩
  exact ⟨⟨hmem, hne⟩, rfl⟩

theorem get_foldl_remove (b : Baseline) (paths : List Path) (path : Path) :
    (paths.foldl remove b).get path = if path ∈ paths then none else b.get path := by
  induction paths generalizing b with
  | nil => simp
  | cons p paths ih =>
    rw [foldl_cons, ih, get_remove]
    by_cases hin : path ∈ paths
    · simp [hin]
    by_cases hp : path = p
    · simp [hp]
    · simp [hin, hp]

/-- Rows written one after another at distinct paths: each is there, and every other
path is as it was. -/
theorem get_foldl_write {rows : List BaselineEntry} (b : Baseline)
    (hnd : (rows.map relPath).Nodup) (path : Path) :
    (∀ row ∈ rows, row.relPath = path → (rows.foldl write b).get path = some row) ∧
      (path ∉ rows.map relPath → (rows.foldl write b).get path = b.get path) := by
  induction rows generalizing b with
  | nil => exact ⟨fun row hrow => absurd hrow not_mem_nil, fun _ => rfl⟩
  | cons first rows ih =>
    rw [map_cons, nodup_cons] at hnd
    obtain ⟨hin, hout⟩ := ih (b.write first) hnd.2
    constructor
    · intro row hrow hpath
      rcases mem_cons.mp hrow with rfl | hrow
      · subst hpath
        rw [foldl_cons, hout hnd.1, get_write, if_pos rfl]
      · exact hin row hrow hpath
    intro hnot
    rw [map_cons, mem_cons, not_or] at hnot
    rw [foldl_cons, hout hnot.2, get_write, if_neg hnot.1]

/-- The map without the rows at or under a path. -/
def dropSubtree (b : Baseline) (dir : Path) : Baseline where
  rows := b.rows.filter fun row => !decide (AtOrUnder row.relPath dir)
  sorted := pairwise_map.mpr (b.ascending.filter _)

theorem mem_dropSubtree {dir : Path} :
    row ∈ (b.dropSubtree dir).rows ↔ row ∈ b.rows ∧ ¬ AtOrUnder row.relPath dir := by
  simp [dropSubtree, mem_filter]

theorem get_dropSubtree (b : Baseline) (dir path : Path) :
    (b.dropSubtree dir).get path = if AtOrUnder path dir then none else b.get path := by
  refine Option.ext fun row => ?_
  rw [get_eq_some_iff, mem_dropSubtree]
  split
  · rename_i hunder
    constructor
    · rintro ⟨⟨-, hnot⟩, rfl⟩
      exact absurd hunder hnot
    intro h
    cases h
  rename_i hnot
  rw [get_eq_some_iff]
  constructor
  · rintro ⟨⟨hmem, -⟩, hpath⟩
    exact ⟨hmem, hpath⟩
  rintro ⟨hmem, rfl⟩
  exact ⟨⟨hmem, hnot⟩, rfl⟩

end Baseline

structure Table extends Baseline where
  clean : toBaseline.Clean

/-- A pair's rows as one flat map, which every answer of the layered view is held to. -/
abbrev PlainRows := Baseline

namespace PlainRows

/-- The rows strictly under a directory, which for the pair root is every row. -/
def rowsUnder (b : PlainRows) (root : Path) : List BaselineEntry :=
  if root = [] then b.rows else b.subtree root

/-- Whether a row sits at a path or anywhere under it, under any spelling. -/
def occupied (b : PlainRows) (fold : CaseFold) (path : Path) : Bool :=
  !path.isEmpty && b.rows.any fun row => fold.atOrUnderFolded row.relPath path

def foldedRowPaths (b : PlainRows) (fold : CaseFold) (path : Path) : List Path :=
  if path = [] then []
  else (b.rows.filter fun row =>
    fold.collisionKey row.relPath = fold.collisionKey path).map relPath

def tracked (b : PlainRows) (path : Path) (isDir : Bool) : Bool :=
  b.containsKey path || isDir && !(b.rowsUnder path).isEmpty

def subtreeAllSynced (b : PlainRows) (root : Path) : Bool :=
  (b.rowsUnder root).all fun row => !row.isUnsynced

def ruleFileRows (b : PlainRows) : List Path :=
  (b.rows.filter isRuleFile).map relPath

def unconfirmed (b : PlainRows) : List BaselineEntry := b.rows.filter awaitsConfirmation

def counts (b : PlainRows) : Counts where
  rows := b.rows.length
  uncarryable := b.rows.countP fun row => !row.carryable
  remoteRows := b.rows.countP fun row => row.remoteUuid.isSome

def len (b : PlainRows) : Nat := b.rows.length

def carryableRows (b : PlainRows) : Nat := b.rows.countP carryable

def hasRemoteRows (b : PlainRows) : Bool := b.rows.any fun row => row.remoteUuid.isSome

end PlainRows

/-- The rows a confirmation accepted, each as it stands confirmed: held as they
were accepted, or staged under their paths once there are more than a window. -/
inductive Confirmed where
  | held (rows : List BaselineEntry)
  | staged (rows : Baseline)

namespace Confirmed

def rows : Confirmed → List BaselineEntry
  | held rows => rows
  | staged stage => stage.rows

end Confirmed

inductive Edit where
  | moveSubtree (src dst : Path)
  | confirm (confirmed : Confirmed)
  | writeSeeded (rows : List BaselineEntry)

def PlainRows.edited (b : PlainRows) : Edit → PlainRows
  | .moveSubtree src dst => b.moveSubtree src dst
  | .confirm confirmed =>
    confirmed.rows.foldl (fun b row => b.setAgreed row.relPath row.agreedHash) b
  | .writeSeeded rows => rows.foldl Baseline.write b

end SyncEngine
