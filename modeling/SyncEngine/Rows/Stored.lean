import SyncEngine.Collections.KeyedTable
import SyncEngine.Rows.Table

/-! # The stored rows and what is computed from them

A row is stored with columns computed from it when it is written and trusted by every
read after. Three triggers keep each pair's counts, over every row a statement puts
in, takes out or writes over. A directory move re-keys its rows in two statements, each
of which moves the computed columns along with the path.
-/

namespace SyncEngine

open Collections

namespace Stored

/-- The columns a row is written with beyond its own fields. -/
structure Derived where
  foldedPath : Path
  carryable : Bool
  ruleFile : Bool
  unconfirmed : Bool
deriving DecidableEq

def Derived.of (fold : CaseFold) (entry : BaselineEntry) : Derived where
  foldedPath := fold.collisionKey entry.relPath
  carryable := entry.carryable
  ruleFile := entry.isRuleFile
  unconfirmed := entry.awaitsConfirmation

structure StoredRow where
  pairId : PairId
  entry : BaselineEntry
  derived : Derived
deriving DecidableEq

def StoredRow.key (row : StoredRow) : PairId × Path := (row.pairId, row.entry.relPath)

/-- One row of `baseline_counts`. -/
structure RowCounts where
  rows : Int
  uncarryable : Int
  remoteRows : Int
deriving DecidableEq

/-- `baseline_counts`, at most one row a pair. -/
abbrev CountsTable := PairId → Option RowCounts

def truth (cond : Bool) : Int := if cond then 1 else 0

def StoredRow.weight (row : StoredRow) : RowCounts where
  rows := 1
  uncarryable := truth (!row.derived.carryable)
  remoteRows := truth row.entry.remoteUuid.isSome

namespace RowCounts

def add (c d : RowCounts) : RowCounts :=
  ⟨c.rows + d.rows, c.uncarryable + d.uncarryable, c.remoteRows + d.remoteRows⟩

def sub (c d : RowCounts) : RowCounts :=
  ⟨c.rows - d.rows, c.uncarryable - d.uncarryable, c.remoteRows - d.remoteRows⟩

end RowCounts

/-- `baseline_counted`, after a row is put in. -/
def counted (new : StoredRow) (counts : CountsTable) : CountsTable :=
  Function.update counts new.pairId <| match counts new.pairId with
    | none => some new.weight
    | some c => some (c.add new.weight)

/-- `baseline_uncounted`, after a row is taken out. -/
def uncounted (old : StoredRow) (counts : CountsTable) : CountsTable :=
  Function.update counts old.pairId <| (counts old.pairId).map fun c => c.sub old.weight

/-- `baseline_recounted`, after a row's counted columns are set. The row count stays. -/
def recounted (old new : StoredRow) (counts : CountsTable) : CountsTable :=
  Function.update counts new.pairId <| (counts new.pairId).map fun c =>
    { c with
      uncarryable := c.uncarryable - old.weight.uncarryable + new.weight.uncarryable
      remoteRows := c.remoteRows - old.weight.remoteRows + new.weight.remoteRows }

inductive Column where
  | relPath
  | foldedPath
  | ruleFile
  | carryable
  | remoteUuid
deriving DecidableEq

/-- The trigger an update of some columns fires: the counts are watched in two. -/
def afterUpdateOf (columns : List Column) (old new : StoredRow) (counts : CountsTable) :
    CountsTable :=
  if .carryable ∈ columns ∨ .remoteUuid ∈ columns then recounted old new counts else counts

def triggers : RowTriggers StoredRow CountsTable where
  inserted := counted
  deleted := uncounted

/-- The rows of every pair, with the counts the triggers keep. Replaced rows fire the
delete trigger, as every connection turns recursive triggers on. -/
abbrev Store := KeyedTable StoredRow.key CountsTable

def Store.new : Store := KeyedTable.empty StoredRow.key fun _ => none

def upsertRow (fold : CaseFold) (store : Store) (pair : PairId) (entry : BaselineEntry) : Store :=
  store.insertOrReplace triggers ⟨pair, entry, Derived.of fold entry⟩

def atPath (pair : PairId) (path : Path) (k : PairId × Path) : Bool :=
  k.1 = pair && k.2 = path

/-- The rows of a pair in the open range of texts between `dir/` and `dir0`. -/
def underPath (pair : PairId) (dir : Path) (k : PairId × Path) : Bool :=
  k.1 = pair && (dir ++ ['/'] < k.2 && k.2 < dir ++ ['0'])

def deleteAtPath (store : Store) (pair : PairId) (path : Path) : Store :=
  store.deleteWhere triggers (atPath pair path)

def deleteUnderPath (store : Store) (pair : PairId) (dir : Path) : Store :=
  store.deleteWhere triggers (underPath pair dir)

def setMoved (dst foldedTo : Path) (isRuleFile : Bool) (row : StoredRow) : StoredRow :=
  { row with
    entry := row.entry.movedTo dst
    derived := { row.derived with
      foldedPath := foldedTo
      ruleFile := decide (row.entry.kind = .file) && isRuleFile } }

/-- A row under the moved directory as its statement sets it: one prefix swapped in
each of the two columns that hold the path. -/
def setMovedUnder (src dst foldedFrom foldedTo : Path) (row : StoredRow) : StoredRow :=
  { row with
    entry := row.entry.movedTo (dst ++ row.entry.relPath.drop src.length)
    derived := { row.derived with
      foldedPath := foldedTo ++ row.derived.foldedPath.drop foldedFrom.length } }

def moveAtPath (store : Store) (pair : PairId) (src dst foldedTo : Path) (isRuleFile : Bool) :
    Store :=
  store.updateOrReplace triggers (atPath pair src) (setMoved dst foldedTo isRuleFile)
    (afterUpdateOf [.relPath, .foldedPath, .ruleFile])

def moveUnderPath (store : Store) (pair : PairId) (src dst foldedFrom foldedTo : Path) : Store :=
  store.updateOrReplace triggers (underPath pair src) (setMovedUnder src dst foldedFrom foldedTo)
    (afterUpdateOf [.relPath, .foldedPath])

inductive BaselineChange where
  | upsert (entry : BaselineEntry)
  | delete (relPath : Path)
  | deleteSubtrees (roots : List Path)
  | moveSubtree (src dst : Path)

def writeChange (fold : CaseFold) (store : Store) (pair : PairId) : BaselineChange → Store
  | .upsert entry => upsertRow fold store pair entry
  | .delete relPath => deleteAtPath store pair relPath
  | .deleteSubtrees roots =>
    roots.foldl (fun store root => deleteUnderPath (deleteAtPath store pair root) pair root) store
  | .moveSubtree src dst =>
    let foldedFrom := fold.collisionKey src
    let foldedTo := fold.collisionKey dst
    let isRuleFile := decide (leaf dst = ".filenignore".toList)
    let moved := moveAtPath store pair src dst foldedTo isRuleFile
    moveUnderPath moved pair src dst foldedFrom foldedTo

def writeChanges (fold : CaseFold) (store : Store) (changes : List (PairId × BaselineChange)) :
    Store := changes.foldl (fun store change => writeChange fold store change.1 change.2) store

def rowsOf (store : Store) (pair : PairId) : List StoredRow :=
  store.rows.filter fun row => row.pairId = pair

theorem nodup_rowsOf (store : Store) (pair : PairId) :
    (((rowsOf store pair).map StoredRow.entry).map BaselineEntry.relPath).Nodup := by
  have hkeys : ((rowsOf store pair).map StoredRow.key).Nodup :=
    store.keyed.sublist (List.filter_sublist.map _)
  rw [List.map_map]
  refine List.Nodup.map_on (fun a ha b hb heq => ?_) hkeys.of_map
  have hpair : ∀ r ∈ rowsOf store pair, r.pairId = pair := fun r hr =>
    of_decide_eq_true (List.mem_filter.mp hr).2
  refine List.inj_on_of_nodup_map hkeys ha hb ?_
  exact Prod.ext ((hpair a ha).trans (hpair b hb).symm) heq

/-- A pair's rows, in path order. -/
def entries (store : Store) (pair : PairId) : Baseline :=
  Baseline.ofRows ((rowsOf store pair).map StoredRow.entry) (nodup_rowsOf store pair)

def count (value : Int) : Option Nat := if 0 ≤ value then some value.toNat else none

/-- The counts read when a snapshot begins; a pair no row was ever written for has none. -/
def readCounts (store : Store) (pair : PairId) : Option Counts :=
  match store.side pair with
  | none => some ⟨0, 0, 0⟩
  | some c => do
    let rows ← count c.rows
    let uncarryable ← count c.uncarryable
    let remoteRows ← count c.remoteRows
    return ⟨rows, uncarryable, remoteRows⟩

/-- Strictly under a directory, with a name after the separator. -/
def Below (path dir : Path) : Prop := isUnder path dir = true ∧ path ≠ dir ++ ['/']

instance (path dir : Path) : Decidable (Below path dir) := inferInstanceAs (Decidable (_ ∧ _))

/-- The place under `dst` a path at or under `src` has; none for another path. -/
def placeUnder (path src dst : Path) : Option Path :=
  if path = src ∨ Below path src then some (dst ++ path.drop src.length) else none

abbrev PathRows := Path → Option BaselineEntry

/-- A change of the plain map. A moved row keeps its place under its directory, over
any row there. -/
def PathRows.changed (rows : PathRows) : BaselineChange → PathRows
  | .upsert entry => fun path => if path = entry.relPath then some entry else rows path
  | .delete relPath => fun path => if path = relPath then none else rows path
  | .deleteSubtrees roots => fun path =>
    if ∃ root ∈ roots, path = root ∨ Below path root then none else rows path
  | .moveSubtree src dst => fun path =>
    match (placeUnder path dst src).bind rows with
    | some row => some (row.movedTo path)
    | none => if path = src ∨ Below path src then none else rows path

/-- The changes of one pair, in the order they are made. -/
def changesOf (pair : PairId) (changes : List (PairId × BaselineChange)) : List BaselineChange :=
  (changes.filter fun change => change.1 = pair).map Prod.snd

/-- A move's ends are not one under the other. -/
def BaselineChange.Apart : BaselineChange → Prop
  | .moveSubtree src dst => isUnder src dst = false ∧ isUnder dst src = false
  | _ => True

end Stored

end SyncEngine
