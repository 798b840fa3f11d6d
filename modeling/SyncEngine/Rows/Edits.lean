import SyncEngine.Rows.Layers

/-! # A pass's view of its rows, and what it edits

The view is the table and the pass's edits over it, with the counts of the edited
view kept beside the layers. A count that would go below zero, an edit written into a
staged confirmation and a table that counts more uncarryable rows than rows are
panics of the source: an edit that comes to one has no result.
-/

namespace SyncEngine.Rows

open Collections

/-- Layers over the table, newest first, and how many rows, carryable rows and
remote rows the edited view has. -/
structure Edits where
  layers : List Layer
  rows : Nat
  carryable : Nat
  remoteRows : Nat

def carryableCount (counts : Counts) : Option Nat :=
  if counts.uncarryable ≤ counts.rows then some (counts.rows - counts.uncarryable) else none

namespace Edits

def new (counts : Counts) : Option Edits :=
  (carryableCount counts).map fun carryable =>
    { layers := [], rows := counts.rows, carryable := carryable, remoteRows := counts.remoteRows }

/-- The block an edit is written into, over the layers beneath it: the top layer, or
a new one over a move or over a staged confirmation, which takes no edit. -/
def topBlock : List Layer → Block × List Layer
  | .block block :: below =>
    if block.agreed.heldMarks.isSome then (block, below)
    else (Block.empty, .block block :: below)
  | layers => (Block.empty, layers)

def setTop (edits : Edits) (block : Block) : Edits :=
  { edits with layers := .block block :: (topBlock edits.layers).2 }

def count (edits : Edits) (row : BaselineEntry) : Edits :=
  { edits with
    rows := edits.rows + 1
    carryable := edits.carryable + row.carryable.toNat
    remoteRows := edits.remoteRows + row.remoteUuid.isSome.toNat }

/-- Take one off a count; none to take is a panic. -/
def take (count : Nat) (counted : Bool) : Option Nat :=
  if counted then (if count = 0 then none else some (count - 1)) else some count

def uncount (edits : Edits) (row : BaselineEntry) : Option Edits :=
  (take edits.rows true).bind fun rows =>
    (take edits.carryable row.carryable).bind fun carryable =>
      (take edits.remoteRows row.remoteUuid.isSome).map fun remoteRows =>
        { edits with rows := rows, carryable := carryable, remoteRows := remoteRows }

end Edits

/-- One pair's rows as a pass reads them. A pair with no rows has the empty table. -/
structure Baseline where
  table : Table
  edits : Option Edits

namespace Baseline

def stored (table : Table) : Baseline := ⟨table, none⟩

def counts (b : Baseline) : Counts := PlainRows.counts b.table.toBaseline

def layers (b : Baseline) : List Layer := (b.edits.map Edits.layers).getD []

def depth (b : Baseline) : Nat := b.layers.length

/-- The pass's edits, begun on the first write. -/
def editsMut (b : Baseline) : Option Edits :=
  match b.edits with
  | some edits => some edits
  | none => Edits.new b.counts

def len (b : Baseline) : Nat :=
  match b.edits with
  | some edits => edits.rows
  | none => b.counts.rows

def get (b : Baseline) (path : Path) : Option BaselineEntry := getAt b.table b.layers path

def carryFlag (b : Baseline) (path : Path) : Option Bool := carryFlagAt b.table b.layers path

def containsKey (b : Baseline) (path : Path) : Bool := (b.carryFlag path).isSome

def carryable (b : Baseline) (path : Path) : Bool := decide (b.carryFlag path = some true)

def uncarryable (b : Baseline) (path : Path) : Bool := decide (b.carryFlag path = some false)

def iter (b : Baseline) : List BaselineEntry := rowsIn b.table b.layers Span.all false

def visitDirRows (b : Baseline) : List BaselineEntry := rowsIn b.table b.layers Span.all true

def subtree (b : Baseline) (root : Path) : List BaselineEntry :=
  rowsIn b.table b.layers (Span.under root) false

def countSubtree (b : Baseline) (root : Path) : Nat :=
  if 0 < b.depth then (b.subtree root).length else countUnder b.table root

def unconfirmed (b : Baseline) : List BaselineEntry :=
  if b.depth = 0 then tableUnconfirmed b.table
  else (unconfirmedIn b.table b.layers).insertionSort fun r s => r.relPath ≤ s.relPath

def unconfirmedPage (b : Baseline) (after : Path) (limit : Nat) : List BaselineEntry :=
  if b.depth = 0 then unconfirmedAfter b.table after limit
  else (b.unconfirmed.filter fun row => after < row.relPath).take limit

def anyUnconfirmed (b : Baseline) : Bool := anyUnconfirmedIn b.table b.layers

def hasRemoteRows (b : Baseline) : Bool :=
  decide (0 < match b.edits with
    | some edits => edits.remoteRows
    | none => b.counts.remoteRows)

def carryableRows (b : Baseline) : Option Nat :=
  match b.edits with
  | some edits => some edits.carryable
  | none => carryableCount b.counts

/-- Every row at or under a path under any spelling, until one is taken. -/
def visitFolded (b : Baseline) (fold : CaseFold) (path : Path) (visit : Path → Bool) : Bool :=
  if path = [] then false
  else (foldedIn b.table fold b.layers (fold.collisionKey path) false).any visit

def occupied (b : Baseline) (fold : CaseFold) (path : Path) : Bool :=
  b.visitFolded fold path fun _ => true

def foldedRowPaths (b : Baseline) (fold : CaseFold) (path : Path) : List Path :=
  if path = [] then []
  else (foldedIn b.table fold b.layers (fold.collisionKey path) true).insertionSort (· ≤ ·)

def tracked (b : Baseline) (path : Path) (isDir : Bool) : Bool :=
  b.containsKey path || isDir && !(b.subtree path).isEmpty

def ruleFileRows (b : Baseline) : List Path := indexedIn b.table .ruleFiles b.layers

def uncarryablePaths (b : Baseline) : List Path := indexedIn b.table .uncarryable b.layers

def subtreeAllSynced (b : Baseline) (root : Path) : Bool :=
  (unsyncedIn b.table b.layers root).isEmpty

/-! ### Edits -/

/-- Advance the marker of one row of the view, in the block on top. -/
def advanceRow (block : Block) (row : BaselineEntry) : Option Block :=
  match block.written.get row.relPath with
  | some _ => some { block with written := block.written.setAgreed row.relPath row.agreedHash }
  | none => block.advance row.relPath ⟨row.agreedHash, row.awaitsConfirmation⟩

/-- Advance the marker of each row, which are the view's own, in the block on top. -/
def advance (b : Baseline) (rows : List BaselineEntry) : Option Baseline :=
  b.editsMut.bind fun edits =>
    (rows.foldlM advanceRow (Edits.topBlock edits.layers).1).map fun block =>
      { b with edits := some (edits.setTop block) }

/-- The rows of a confirmation, those of a stage a page at a time. -/
def eachPage : Confirmed → List BaselineEntry
  | .held rows => rows
  | .staged stage =>
    pages BaselineEntry.relPath confirmedPage stage.rows (stage.rows.length + 1)
      fun row => [] < row.relPath

/-- Advance the marker of every row a confirmation holds. Staged confirmations become
the bottom layer as they stand, on a view the pass has not edited. -/
def confirm (b : Baseline) (confirmed : Confirmed) : Option Baseline :=
  if confirmed.rows.isEmpty then some b
  else
    match confirmed, b.layers with
    | .staged stage, [] =>
      b.editsMut.map fun edits =>
        { b with
          edits := some { edits with
            layers := .block { Block.empty with agreed := .staged stage } :: edits.layers } }
    | confirmed, _ => b.advance (eachPage confirmed)

/-- Write rows at paths the view holds no row at. -/
def writeSeeded (b : Baseline) (fold : CaseFold) (rows : List BaselineEntry) : Option Baseline :=
  if rows.isEmpty then some b
  else
    b.editsMut.map fun edits =>
      let counted := rows.foldl Edits.count edits
      let block := rows.foldl (fun block row => block.write fold row)
        (Edits.topBlock counted.layers).1
      { b with edits := some (counted.setTop block) }

/-- The rows at and under `src` as they read at and under `dst`. -/
def moving (b : Baseline) (src dst : Path) : List BaselineEntry :=
  ((b.get src).map fun row => row.movedTo dst).toList ++
    (b.subtree src).filterMap fun row => (movedPath row.relPath src dst).map row.movedTo

/-- Take the source out of the view, what was written there included. -/
def vacate (edits : Edits) (fold : CaseFold) (src : Path) : Edits :=
  let block := (Edits.topBlock edits.layers).1
  edits.setTop (Block.unwriteSubtree
    { block with vacated := SortedSet.ofList (src :: block.vacated.toList) } fold src)

/-- The rows the view shows at and under a path, by path. -/
def replaced (b : Baseline) (dst : Path) : Nodes BaselineEntry :=
  ((b.get dst).toList ++ b.subtree dst).foldl (fun map row => map.insert row.relPath row) ∅

/-- Write a row that moved, counting out the row it replaces. -/
def land (fold : CaseFold) (state : Edits × Nodes BaselineEntry) (row : BaselineEntry) :
    Option (Edits × Nodes BaselineEntry) :=
  let uncounted : Option Edits :=
    match state.2.nodeAt row.relPath with
    | some old => state.1.uncount old
    | none => some state.1
  uncounted.map fun edits =>
    let counted := edits.count row
    (counted.setTop ((Edits.topBlock counted.layers).1.write fold row), state.2.erase row.relPath)

/-- Re-key the rows at and under `src` to sit under `dst`, over whatever row the view
shows at each path they land on. A move onto a destination that holds nothing once the
source has left it is recorded as the mapping it is. -/
def moveSubtree (b : Baseline) (fold : CaseFold) (src dst : Path) : Option Baseline :=
  if src = [] ∨ dst = [] then some b
  else if src = dst ∨ (b.containsKey src = false ∧ (b.subtree src).isEmpty = true) then some b
  else
    let occupied := (b.containsKey dst && !decide (AtOrUnder dst src)) ||
      (b.subtree dst).any fun row => !decide (AtOrUnder row.relPath src)
    if occupied = false then
      b.editsMut.map fun edits =>
        { b with edits := some { edits with layers := .moved src dst :: edits.layers } }
    else
      let moving := b.moving src dst
      b.editsMut.bind fun edits =>
        (moving.foldlM Edits.uncount edits).bind fun edits =>
          let edits := vacate edits fold src
          let replaced := replaced { b with edits := some edits } dst
          (moving.foldlM (land fold) (edits, replaced)).map fun state =>
            { b with edits := some state.1 }

def edited (b : Baseline) (fold : CaseFold) : Edit → Option Baseline
  | .moveSubtree src dst => b.moveSubtree fold src dst
  | .confirm confirmed => b.confirm confirmed
  | .writeSeeded rows => b.writeSeeded fold rows

end Baseline

end SyncEngine.Rows
