import Mathlib.Data.Prod.Lex
import SyncEngine.Rows.Table

/-! # The rows through a pass's own edits

What a pass changes about its rows is kept as layers over the table, each read over
the view the layers beneath it make: a block of rows written, paths vacated and
markers advanced, or a directory move kept as the mapping it is. The layers are
listed newest first, so a list's tail is the view one layer down.

A row's path never changes inside the table, so a bound of a range under a move's
destination continues the destination, and the tail the source strips off it is there.
-/

namespace SyncEngine.Rows

open Collections BaselineEntry

/-- Every path after `lo`, or at it when `inclusive`, and strictly before `hi`. -/
structure Span where
  lo : Path
  inclusive : Bool
  hi : Option Path

namespace Span

def all : Span := ⟨[], false, none⟩

/-- Every path strictly under `root`, which for the pair root is every path. -/
def under (root : Path) : Span :=
  if root = [] then all else ⟨root ++ ['/'], false, some (root ++ ['0'])⟩

def pastLo (span : Span) (path : Path) : Bool :=
  if span.inclusive then decide (span.lo ≤ path) else decide (span.lo < path)

def beforeHi (span : Span) (path : Path) : Bool := span.hi.all fun hi => path < hi

def contains (span : Span) (path : Path) : Bool := span.pastLo path && span.beforeHi path

def isEmpty (span : Span) : Bool := span.hi.any fun hi => hi ≤ span.lo

def and (span other : Span) : Span where
  lo := if span.lo < other.lo then other.lo else span.lo
  inclusive :=
    if span.lo < other.lo then other.inclusive
    else if other.lo < span.lo then span.inclusive
    else span.inclusive && other.inclusive
  hi :=
    match span.hi, other.hi with
    | some a, some b => some (min a b)
    | some a, none => some a
    | none, b => b

def below (hi : Path) : Span := { all with hi := some hi }

def fromOn (lo : Path) : Span := ⟨lo, true, none⟩

/-- A span under `dst`, at the same place under `src`. -/
def movedBack (span : Span) (dst src : Path) : Span where
  lo := src ++ span.lo.drop dst.length
  inclusive := span.inclusive
  hi := span.hi.map fun hi => src ++ hi.drop dst.length

end Span

def page : ℕ+ := 256

def confirmedPage : ℕ+ := ⟨1024, by decide⟩

/-- The rows of a span, directory rows alone when `dirs`, a page at a time. -/
def tableRows (table : Table) (span : Span) (dirs : Bool) : List BaselineEntry :=
  pages relPath page
    (table.rows.filter fun row => span.beforeHi row.relPath && (!dirs || row.isDir))
    (table.rows.length + 1) fun row => span.pastLo row.relPath

/-- A row of the index on folded paths: the folded path and the path. -/
abbrev FoldedKey := Path ×ₗ Path

def FoldedKey.folded (entry : FoldedKey) : Path := (ofLex entry).1

def FoldedKey.path (entry : FoldedKey) : Path := (ofLex entry).2

def foldedKey (fold : CaseFold) (path : Path) : FoldedKey := toLex (fold.collisionKey path, path)

def baselineFolded (table : Table) (fold : CaseFold) : SortedSet FoldedKey :=
  SortedSet.ofList (table.rowPaths.map (foldedKey fold))

/-- The paths of the rows whose folded path is `folded`. -/
def foldedAt (table : Table) (fold : CaseFold) (folded : Path) : List Path :=
  ((baselineFolded table fold).toList.filter fun entry => FoldedKey.folded entry = folded).map
    FoldedKey.path

/-- The paths of the rows whose folded path is strictly under `folded`, a page at
a time. -/
def foldedUnder (table : Table) (fold : CaseFold) (folded : Path) : List Path :=
  (pages id page
    ((baselineFolded table fold).toList.filter fun entry =>
      FoldedKey.folded entry < folded ++ ['0'])
    (table.rows.length + 1) fun entry => toLex (folded ++ ['/'], []) < entry).map
    FoldedKey.path

/-- Up to `limit` rows awaiting confirmation, past a path. -/
def unconfirmedAfter (table : Table) (after : Path) (limit : Nat) : List BaselineEntry :=
  ((table.rows.filter awaitsConfirmation).filter fun row =>
    after < row.relPath).take limit

def tableUnconfirmed (table : Table) : List BaselineEntry :=
  pages relPath page (table.rows.filter awaitsConfirmation)
    (table.rows.length + 1) fun row => [] < row.relPath

/-- The rows under `root` in a state other than synced. -/
def unsyncedUnder (table : Table) (root : Path) : List Path :=
  (table.rows.filter fun row =>
    row.isUnsynced && (root = [] ||
      root ++ ['/'] < row.relPath && row.relPath < root ++ ['0'])).map
    relPath

def countUnder (table : Table) (root : Path) : Nat :=
  table.rows.countP fun row =>
    if root = [] then decide (root < row.relPath)
    else decide (root ++ ['/'] < row.relPath) && row.relPath < root ++ ['0']

/-- The set a pass asks for as paths, off one of the table's small indexes. -/
inductive Indexed where
  | uncarryable
  | ruleFiles
deriving DecidableEq

def Indexed.ofRow : Indexed → BaselineEntry → Bool
  | uncarryable, row => !row.carryable
  | ruleFiles, row => row.isRuleFile

def tableIndexed (table : Table) (which : Indexed) : List Path :=
  (table.rows.filter which.ofRow).map relPath

/-! ## Layers -/

/-- A marker advanced on a row, and whether the row, carrying it, still awaits
confirmation. -/
structure Agreed where
  hash : Option Blake3Hash
  awaits : Bool
deriving DecidableEq

/-- The markers a confirmation advanced on the rows below, under their paths there:
held one by one, or read out of the stage they were confirmed into. -/
inductive Marks where
  | held (marks : Nodes Agreed)
  | staged (stage : Baseline)

namespace Marks

def get : Marks → Path → Option Agreed
  | held marks, path => marks.nodeAt path
  | staged stage, path => (stage.get path).map fun row => ⟨row.agreedHash, false⟩

/-- The markers held one by one; none of the staged ones awaits confirmation. -/
def heldMarks : Marks → Option (Nodes Agreed)
  | held marks => some marks
  | staged _ => none

end Marks

/-- Rows written, paths vacated and markers advanced over the view below. -/
structure Block where
  written : Baseline
  /-- The folded path and the path of every row written. -/
  folded : SortedSet FoldedKey
  /-- Each stands for itself and everything below it. -/
  vacated : PathSet
  agreed : Marks

namespace Block

def empty : Block where
  written := Baseline.empty
  folded := SortedSet.empty
  vacated := SortedSet.empty
  agreed := .held ∅

/-- The vacated path at or above a path, if one hides it. -/
def vacatedOver (block : Block) (path : Path) : Option Path :=
  if block.vacated.toList.isEmpty then none
  else (ancestors path ++ [path]).find? block.vacated.contains

def showsBelow (block : Block) (path : Path) : Bool :=
  (block.vacatedOver path).isNone && !block.written.containsKey path

/-- A row below, with the marker advanced on it here. -/
def mark (block : Block) (row : BaselineEntry) : BaselineEntry :=
  match block.agreed.get row.relPath with
  | some agreed => row.agreeing agreed.hash
  | none => row

/-- Advance the marker on the row below at a path; a staged confirmation takes no
edit. -/
def advance (block : Block) (path : Path) (agreed : Agreed) : Option Block :=
  match block.agreed with
  | .held marks => some { block with agreed := .held (marks.insert path agreed) }
  | .staged _ => none

def write (block : Block) (fold : CaseFold) (row : BaselineEntry) : Block :=
  { block with
    folded := SortedSet.ofList (foldedKey fold row.relPath :: block.folded.toList)
    written := block.written.write row }

def unwriteSubtree (block : Block) (fold : CaseFold) (path : Path) : Block :=
  let dropped := (block.written.rowPaths.filter fun p =>
    path ≤ p && p < path ++ ['0']).filter fun p => decide (AtOrUnder p path)
  { block with
    written := dropped.foldl Baseline.remove block.written
    folded := SortedSet.ofList (block.folded.toList.filter fun entry =>
      entry ∉ dropped.map (foldedKey fold)) }

/-- The rows written here inside a span, in path order. -/
def writtenIn (block : Block) (span : Span) : List BaselineEntry :=
  block.written.rows.filter fun row => span.contains row.relPath

/-- The paths written here whose folded path is `folded`, and unless `exact` those
strictly under it. -/
def writtenFolded (block : Block) (folded : Path) (exact : Bool) : List Path :=
  (((block.folded.toList.filter fun entry => toLex (folded, []) ≤ entry).takeWhile
      fun entry => FoldedKey.folded entry = folded) ++
    ((block.folded.toList.filter fun entry =>
      toLex (folded ++ ['/'], []) ≤ entry &&
        entry < toLex (folded ++ ['0'], [])).takeWhile fun _ => !exact)).map
    FoldedKey.path

/-- The markers of a span, read beside rows of it in path order. -/
def markInOrder (stage : Baseline) (span : Span) (shown : List BaselineEntry) :
    List BaselineEntry :=
  let marks := pages relPath confirmedPage
    (stage.rows.filter fun row => span.beforeHi row.relPath) (stage.rows.length + 1)
    fun row => span.pastLo row.relPath
  joinInOrder relPath agreeing
    (marks.map fun row => (row.relPath, row.agreedHash)) shown

/-- The rows of a span the view below shows here, with the markers advanced here. -/
def marked (block : Block) (span : Span) (shown : List BaselineEntry) : List BaselineEntry :=
  match block.agreed with
  | .held _ => shown.map block.mark
  | .staged stage => markInOrder stage span shown

end Block

inductive Layer where
  | block (block : Block)
  /-- Every row at or under `src` below, read at the same place under `dst`. -/
  | moved (src dst : Path)

def atOrUnder (path dir : Path) : Option Path := movedPath path dir []

/-- A row read at a path, with a marker a layer above advanced on it. -/
def placed (row : BaselineEntry) (path : Path) : Option Agreed → BaselineEntry
  | some agreed => (row.movedTo path).agreeing agreed.hash
  | none => row.movedTo path

inductive Lookup where
  /-- A row a layer wrote, at its own path there. -/
  | written (row : BaselineEntry)
  /-- Nothing: a move took it away. -/
  | absent
  | table (path : Path)

/-- Follow a path down through the layers, with the marker of the topmost layer
that advanced one. -/
def lookup : List Layer → Path → Bool → Option Agreed → Lookup × Option Agreed
  | [], path, _, mark => (.table path, mark)
  | .block block :: below, path, marked, mark =>
    match block.written.get path with
    | some row => (.written row, mark)
    | none =>
      if (block.vacatedOver path).isSome then (.absent, mark)
      else
        lookup below path marked
          (if marked && mark.isNone then block.agreed.get path else mark)
  | .moved src dst :: below, path, marked, mark =>
    match movedPath path dst src with
    | some source => lookup below source marked mark
    | none =>
      if AtOrUnder path src then (.absent, mark)
      else lookup below path marked mark

def Lookup.row (table : Table) : Lookup → Option BaselineEntry
  | written row => some row
  | absent => none
  | .table path => table.get path

def getAt (table : Table) (layers : List Layer) (path : Path) : Option BaselineEntry :=
  let found := lookup layers path true none
  (found.1.row table).map fun row => placed row path found.2

/-- Whether a row sits at a path, and whether it is carryable. -/
def carryFlagAt (table : Table) (layers : List Layer) (path : Path) : Option Bool :=
  ((lookup layers path false none).1.row table).map carryable

/-- The rows of a view inside a span, in path order. -/
def rowsIn (table : Table) : List Layer → Span → Bool → List BaselineEntry
  | [], span, dirs => if span.isEmpty then [] else tableRows table span dirs
  | .block block :: layers, span, dirs =>
    if span.isEmpty then []
    else
      let written := (block.writtenIn span).filter fun row => !dirs || row.isDir
      let shown := (rowsIn table layers span dirs).filter fun row => block.showsBelow row.relPath
      mergeBy relPath (block.marked span shown) written
  | .moved src dst :: layers, span, dirs =>
    if span.isEmpty then []
    else
      -- what stays where it is, read around the one range that left
      let before := span.and (Span.below (src ++ ['/']))
      let after := span.and (Span.fromOn (src ++ ['0']))
      let kept := (rowsIn table layers before dirs).filter (fun row => row.relPath ≠ src) ++
        rowsIn table layers after dirs
      let point :=
        if span.contains dst then
          ((getAt table layers src).filter fun row => !dirs || row.isDir).map fun row =>
            placed row dst none
        else none
      let underDst := span.and (Span.under dst)
      let subtree :=
        if underDst.isEmpty then []
        else (rowsIn table layers (underDst.movedBack dst src) dirs).filterMap fun row =>
          (movedPath row.relPath src dst).map row.movedTo
      mergeBy relPath kept (point.toList ++ subtree)

/-! ## The indexes -/

/-- The paths offered for a folded path, in the order they are: those of the rows
whose folded path is `folded`, and unless `exact` of those strictly under it. -/
def foldedIn (table : Table) (fold : CaseFold) : List Layer → Path → Bool → List Path
  | [], folded, exact =>
    foldedAt table fold folded ++ if exact then [] else foldedUnder table fold folded
  | .block block :: layers, folded, exact =>
    (foldedIn table fold layers folded exact).filter block.showsBelow ++
      block.writtenFolded folded exact
  | .moved src dst :: layers, folded, exact =>
    let foldedDst := fold.collisionKey dst
    let point := if (carryFlagAt table layers src).isSome then [dst] else []
    (foldedIn table fold layers folded exact).filter (fun path => !decide (AtOrUnder path src)) ++
      if !exact && decide (AtOrUnder foldedDst folded) then
        -- every moved row is at or under the folded path
        point ++ (rowsIn table layers (Span.under src) false).filterMap fun row =>
          movedPath row.relPath src dst
      else
        match atOrUnder folded foldedDst with
        | some [] => point
        | some rest =>
          (foldedIn table fold layers (fold.collisionKey src ++ rest) exact).filterMap fun path =>
            movedPath path src dst
        | none => []

def unconfirmedIn (table : Table) : List Layer → List BaselineEntry
  | [] => tableUnconfirmed table
  | .block block :: layers =>
    let below := unconfirmedIn table layers
    -- a marker advanced to something other than the content brings its row in
    let joined := ((block.agreed.heldMarks.map Nodes.iter).getD []).filterMap fun mark =>
      if mark.2.awaits && !(below.map relPath).contains mark.1 then
        getAt table layers mark.1
      else none
    ((below ++ joined).filter fun row =>
        block.showsBelow row.relPath &&
          (block.agreed.get row.relPath).all fun agreed => agreed.awaits).map block.mark ++
      block.written.rows.filter awaitsConfirmation
  | .moved src dst :: layers =>
    (unconfirmedIn table layers).map fun row =>
      match movedPath row.relPath src dst with
      | some path => row.movedTo path
      | none => row

def anyUnconfirmedIn (table : Table) : List Layer → Bool
  | [] => table.rows.any awaitsConfirmation
  | .moved _ _ :: layers => anyUnconfirmedIn table layers
  | .block block :: layers =>
    block.written.rows.any awaitsConfirmation ||
      ((block.agreed.heldMarks.map Nodes.iter).getD []).any (fun mark =>
        mark.2.awaits && block.showsBelow mark.1) ||
      let below :=
        if layers.isEmpty then
          (table.rows.filter awaitsConfirmation).map relPath
        else (unconfirmedIn table layers).map relPath
      below.any fun path => block.showsBelow path && (block.agreed.get path).isNone

/-- The paths in one of the small indexes, in no order. -/
def indexedIn (table : Table) (which : Indexed) : List Layer → List Path
  | [] => tableIndexed table which
  | .block block :: layers =>
    (indexedIn table which layers).filter block.showsBelow ++
      (block.written.rows.filter which.ofRow).map relPath
  | .moved src dst :: layers =>
    let out := ((indexedIn table which layers).filter fun path => path ≠ src).map
      fun path => (movedPath path src dst).getD path
    -- the row at the source changes its name, so it is asked again under the new one
    match getAt table layers src with
    | some row => if which.ofRow (placed row dst none) then out ++ [dst] else out
    | none => out

/-- The paths strictly under a root whose row is not synced. -/
def unsyncedIn (table : Table) : List Layer → Path → List Path
  | [], root => unsyncedUnder table root
  | .block block :: layers, root =>
    (unsyncedIn table layers root).filter block.showsBelow ++
      ((block.writtenIn (Span.under root)).filter isUnsynced).map
        relPath
  | .moved src dst :: layers, root =>
    let stayed := (unsyncedIn table layers root).filter fun path => !decide (AtOrUnder path src)
    let land := fun path => movedPath path src dst
    if root = [] ∨ (atOrUnder dst root).any (fun rest => !rest.isEmpty) then
      let point := if (getAt table layers src).any isUnsynced then [dst] else []
      stayed ++ point ++ (unsyncedIn table layers src).filterMap land
    else
      match atOrUnder root dst with
      | some rest => stayed ++ (unsyncedIn table layers (src ++ rest)).filterMap land
      | none => stayed

end SyncEngine.Rows
