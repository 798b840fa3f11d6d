import Mathlib.Data.Prod.Lex
import SyncEngine.Collections.RankedSort
import SyncEngine.Collections.Windows
import SyncEngine.Plan.Reconcile

/-! # A whole pass reconciled window by window

Both sides are staged, the plan is written to the stage as it is made, and the
moves are joined once every window is done, from the candidates the windows
noted. What a window planned at a path a move took is dropped before the plan is
ordered, and what the tail drops is dropped from the ordered plan.
-/

namespace SyncEngine

open Collections SyncAction

instance : Keyed LocalNode Path := ⟨LocalNode.relPath⟩

instance : Keyed RemoteNode Path := ⟨RemoteNode.relPath⟩

instance : Keyed BaselineEntry Path := ⟨BaselineEntry.relPath⟩

/-! ## The stage -/

/-- One side as it is staged: its nodes in path order, one per path. -/
structure StagedSide (ν : Type) [Keyed ν Path] where
  pages : List ν
  sorted : InKeyOrder pages

namespace StagedSide

variable {ν : Type} [Keyed ν Path]

/-- The side as a map, walked in path order. -/
def nodes (side : StagedSide ν) : Nodes ν :=
  Nodes.ofList (side.pages.map fun node => (Keyed.key node, node)) (by
    rw [List.map_map]
    exact (List.pairwise_map.mpr side.sorted).imp ne_of_lt)

/-- Where the side holds the file `uuid`: the last of them in path order. -/
def fileOfUuid (side : StagedSide RemoteNode) (uuid : Uuid) : Option Path :=
  ((side.pages.filter fun node => node.fileUuid = some uuid).map RemoteNode.relPath).getLast?

/-- Where the side holds a file of `lineage`: the last of them in path order. -/
def fileOfLineage (side : StagedSide RemoteNode) (lineage : StableUuid) : Option Path :=
  ((side.pages.filter fun node => node.fileLineage = some lineage).map
    RemoteNode.relPath).getLast?

/-- Where a noted source's file is now: by its uuid, else by its lineage. -/
def targetOf (side : StagedSide RemoteNode) (base : BaselineEntry) (uuid : Uuid) :
    Option (Path × Bool) :=
  match side.fileOfUuid uuid with
  | some dst => some (dst, false)
  | none => (base.remoteStableUuid.bind side.fileOfLineage).map fun dst => (dst, true)

end StagedSide

/-- The place of an action in the plan as it was made. The join's actions count
from 0 and the windows' from 2^40, which is more moves than a pass can hold, so
every action of the join comes before every window's. -/
structure Seq where
  ofWindow : Bool
  index : Nat
deriving DecidableEq, Repr

namespace Seq

def next (s : Seq) : Seq := { s with index := s.index + 1 }

def windowSeq : Seq := ⟨true, 0⟩

def joinSeq : Seq := ⟨false, 0⟩

instance : LinearOrder Seq :=
  LinearOrder.lift' (fun s : Seq => toLex (s.ofWindow, s.index)) fun s t h => by
    cases s
    cases t
    simpa using h

theorem lt_iff {s t : Seq} :
    s < t ↔ s.ofWindow < t.ofWindow ∨ s.ofWindow = t.ofWindow ∧ s.index < t.index := by
  show toLex (s.ofWindow, s.index) < toLex (t.ofWindow, t.index) ↔ _
  rw [Prod.Lex.toLex_lt_toLex]

end Seq

inductive Cand where
  /-- A row the pull half can move from, with the uuid it records. -/
  | pullFrom (path : Path) (uuid : Uuid)
  /-- A row the push half can move from. -/
  | pushFrom (path : Path)
  /-- A new local file a push can end at, with its content. -/
  | pushTo (path : Path) (hash : Blake3Hash)
deriving DecidableEq, Repr

namespace Cand

def pullSource? : Cand → Option (Path × Uuid)
  | pullFrom path uuid => some (path, uuid)
  | _ => none

def pushSource? : Cand → Option Path
  | pushFrom path => some path
  | _ => none

def pushTarget? : Cand → Option (Path × Blake3Hash)
  | pushTo path hash => some (path, hash)
  | _ => none

end Cand

/-- What the windowed reconcile writes: the tables of its stage, each in the
order its rows were inserted. -/
structure Out where
  reconciled : List (Seq × SyncAction)
  cand : List Cand
  consumed : List Path
  next : Seq

namespace Out

def empty : Out := ⟨[], [], [], Seq.windowSeq⟩

def action (out : Out) (a : SyncAction) : Out :=
  { out with reconciled := out.reconciled ++ [(out.next, a)], next := out.next.next }

def note (out : Out) (cand : Cand) : Out := { out with cand := out.cand ++ [cand] }

def consume (out : Out) (path : Path) : Out := { out with consumed := out.consumed.insert path }

def pullSources (out : Out) : List (Path × Uuid) := out.cand.filterMap Cand.pullSource?

def pushSources (out : Out) : List Path := out.cand.filterMap Cand.pushSource?

/-- The new local files carrying `hash`, in the order they were noted. -/
def pushTargets (out : Out) (hash : Blake3Hash) : List Path :=
  ((out.cand.filterMap Cand.pushTarget?).filter fun t => t.2 = hash).map Prod.fst

end Out

/-! ## The pass under way -/

structure Pass where
  mode : SyncMode
  held : PathSet
  markedExits : List (Path × MarkedExit)
  /-- Whether the windows note candidates for the pull half, and for the push half. -/
  pulls : Bool
  pushes : Bool
  out : Out
  deferred : Nat
  consumed : Bool

/-- Whether a held path has taken `path`: it or one above it. -/
def takenByHeld (held : PathSet) (path : Path) : Bool :=
  !held.toList.isEmpty && isUnderHeldPath path held

/-- Whether a held path, or a move of the join, has taken `path`. -/
def taken (held : PathSet) (out : Out) (path : Path) : Bool :=
  takenByHeld held path || out.consumed.contains path

/-- What a window notes at `key` for the move join: its row as a source of
either half, and its local file as what a push can end at. -/
def candidates (pulls pushes : Bool) (key : Path) (l : Option LocalNode) (r : Option RemoteNode)
    (base : Option BaselineEntry) : List Cand :=
  let pullFrom := if pulls then base.bind fun base => pullSource base r else none
  let pushFrom := if pushes then base.bind fun base => pushSource base l.isSome r else none
  let pushTo := if pushes then l.bind fun node => pushTarget node r.isSome base.isSome else none
  (pullFrom.map (Cand.pullFrom key)).toList ++ (pushFrom.map fun _ => Cand.pushFrom key).toList ++
    (pushTo.map (Cand.pushTo key)).toList

namespace Pass

def start (mode : SyncMode) (b : Baseline) (holds : PassHolds) : Pass where
  mode := mode
  held := holds.heldRemote
  markedExits := holds.markedExits
  -- With no row there is no source.
  pulls := !b.rows.isEmpty && mode.pulls
  pushes := !b.rows.isEmpty && mode.pushes
  out := Out.empty
  deferred := 0
  consumed := false

/-- Decide `key`, noting it for the move join where it is one of its candidates. -/
def decide (pass : Pass) (key : Path) (l : Option LocalNode) (r : Option RemoteNode)
    (base : Option BaselineEntry) : Pass :=
  if takenByHeld pass.held key then { pass with deferred := pass.deferred + 1 }
  else
    let noted := (candidates pass.pulls pass.pushes key l r base).foldl Out.note pass.out
    { pass with
      out := (decidePath pass.mode key base pass.markedExits l r).foldl Out.action noted }

/-- Decide every key of one window, in path order. -/
def window (pass : Pass) (locals : List LocalNode) (remotes : List RemoteNode)
    (rows : List BaselineEntry) : Pass :=
  (merge3 locals remotes rows).foldl (fun pass e => pass.decide e.1 e.2.1 e.2.2.1 e.2.2.2) pass

/-- Write the actions a source of the join planned, and the paths it took. -/
def record (pass : Pass) (src : Path) (planned : List SyncAction × Option Took) : Pass :=
  let out := planned.1.foldl Out.action pass.out
  { pass with
    consumed := pass.consumed || planned.2.isSome
    out := match planned.2 with
      | none => out
      | some .source => out.consume src
      | some (.move dst) => (out.consume src).consume dst }

def joinPull (s : MoveSides) (remote : StagedSide RemoteNode) (pass : Pass)
    (source : Path × Uuid) : Pass :=
  match s.baseline.get source.1 with
  -- Cannot happen: a row the windows read is a row of the pass.
  | none => pass
  | some base =>
    pass.record source.1
      (pullMove s (taken pass.held pass.out) base (remote.targetOf base source.2))

def joinPush (s : MoveSides) (pass : Pass) (path : Path) : Pass :=
  match s.baseline.get path with
  -- Cannot happen: a row the windows read is a row of the pass.
  | none => pass
  | some base =>
    pass.record path
      (pushMove s (taken pass.held pass.out) base fun hash => some (pass.out.pushTargets hash))

def started (pass : Pass) : Pass := { pass with out := { pass.out with next := Seq.joinSeq } }

/-- The move join over the sources the windows noted: the pull half, then the
push half, each source in path order. -/
def join (pass : Pass) (s : MoveSides) (remote : StagedSide RemoteNode) : Pass :=
  let pulls := !pass.out.pullSources.isEmpty
  -- A source with no target moves nowhere.
  let pushes := !pass.out.pushSources.isEmpty &&
    !(pass.out.cand.filterMap Cand.pushTarget?).isEmpty
  if (!pulls && !pushes) = true then pass
  else
    let pulled :=
      if pulls then pass.out.pullSources.foldl (joinPull s remote) pass.started else pass.started
    if pushes then pulled.out.pushSources.foldl (joinPush s) pulled else pulled

end Pass

/-! ## The plan in its stage -/

/-- What the windows and the join staged, and the paths they deferred. -/
structure Windows where
  reconciled : List (Seq × SyncAction)
  consumedPaths : List Path
  deferred : Nat
  consumed : Bool

/-- A whole pass's plan, reconciled window by window. -/
def reconcileWindows (mode : SyncMode) (b : Baseline) (l : StagedSide LocalNode)
    (r : StagedSide RemoteNode) (holds : PassHolds) (window : ℕ+) : Windows :=
  let pass := runWindows window Pass.window (Lookahead.new l.pages) (Lookahead.new r.pages)
    (Lookahead.new b.rows) (Pass.start mode b holds)
  -- A held path nothing holds is skipped by no window, but it is being withheld.
  let unheld := holds.heldRemote.count fun p =>
    !l.nodes.holds p && !r.nodes.holds p && !b.containsKey p
  let joined := { pass with deferred := pass.deferred + unheld }.join ⟨mode, l.nodes, r.nodes, b⟩ r
  ⟨joined.out.reconciled, joined.out.consumed, joined.deferred, joined.consumed⟩

/-- The phase of an action, arm for arm; `created` says whether the plan creates
at a deletion's path. -/
def screenPhase (created : Path → Bool) (a : SyncAction) : Nat :=
  match a with
  | moveRemote _ _ .dir _ | moveLocal _ _ .dir => phaseDirMove
  | deleteLocal p .file | trashRemote p .file _ =>
    if created p then phaseFileReplaceDelete else phaseDelete
  | adoptBaseline _ | createLocalDir _ | createRemoteDir _ => phaseCreate
  | moveLocal _ _ .file | moveRemote _ _ .file _ => phaseMove
  | deleteLocal p .dir | trashRemote p .dir _ =>
    if created p then phaseDirReplaceDelete else phaseDelete
  | downloadFile _ _ | uploadFile _ => phaseTransfer
  | conflict _ => phaseConflict

/-- The phases whose deletions cascade, which run child before parent. -/
def cascading (phase : Nat) : Prop := phase = phaseDirReplaceDelete ∨ phase = phaseDelete

instance (phase : Nat) : Decidable (cascading phase) :=
  inferInstanceAs (Decidable (_ ∨ _))

/-- The order of two actions by phase, then by path, descending in the phases
that cascade. -/
def screenLe (phase : SyncAction → Nat) (a b : SyncAction) : Prop :=
  phase a < phase b ∨
    phase a = phase b ∧
      if cascading (phase a) then b.relPath ≤ a.relPath else a.relPath ≤ b.relPath

instance (phase : SyncAction → Nat) : DecidableRel (screenLe phase) := fun _ _ =>
  inferInstanceAs (Decidable (_ ∨ _))

namespace Screen

/-- The plan ordered where it is staged, each row at the place of its rank. -/
def order (reconciled : List (Seq × SyncAction)) : List SyncAction :=
  -- Only a plan with both deletions and creates has a path at which it does both.
  let flips := (reconciled.any fun row => row.2.isDelete) &&
    reconciled.any fun row => row.2.isCreate
  let created := fun p =>
    flips && reconciled.any fun row => row.2.relPath = p && row.2.isCreate
  (reconciled.insertionSort (rankedLe (screenLe (screenPhase created)))).map Prod.snd

/-- Take out every deletion of a remote item already sent to the trash. -/
def retireTrashed (screen : List SyncAction) (trashed : List Uuid) : List SyncAction × Nat :=
  if trashed.isEmpty then (screen, 0)
  else
    (screen.filter fun a => !alreadyTrashed a trashed,
      (screen.filter fun a => alreadyTrashed a trashed).length)

/-- Take out every action under a path the plan surfaces as a conflict. -/
def suppressConflicted (screen : List SyncAction) : List SyncAction :=
  let conflicted := conflictedPaths screen
  if conflicted.isEmpty then screen else screen.filter fun a => !underConflict a conflicted

def leadWith (dirMoves screen : List SyncAction) : List SyncAction := dirMoves ++ screen

end Screen

/-- The plan, finished in the stage and led by the directory moves. -/
def Windows.screen (windows : Windows) (holds : PassHolds) (dirMoves : List SyncAction) : Plan :=
  let kept :=
    if windows.consumed then
      windows.reconciled.filter fun row =>
        !(row.1.ofWindow && windows.consumedPaths.contains row.2.relPath)
    else windows.reconciled
  let retired := Screen.retireTrashed (Screen.order kept) holds.trashed
  { actions := Screen.leadWith dirMoves (Screen.suppressConflicted retired.1)
    deferredPaths := windows.deferred + retired.2 }

end SyncEngine
