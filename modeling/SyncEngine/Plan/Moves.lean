import SyncEngine.Plan.Classify
import SyncEngine.Plan.MoveTargets

/-! # The move join

File moves are found before any path is decided on its own, so that an item
that changed its name is one metadata change and not a deletion beside a new
transfer. A remote move is matched by version id, failing that by lineage; a
local move is matched by content. Paths a move takes are consumed.
-/

namespace SyncEngine

open SyncAction MoveTargets

def visitMoveSources (paths : PassPaths) (b : Baseline) : List BaselineEntry :=
  match paths with
  | .whole => b.rows
  | .changed set => set.toList.filterMap b.get

def visitMoveTargets {ν : Type} (paths : PassPaths) (side : Nodes ν) : List (Path × ν) :=
  match paths with
  | .whole => side.iter
  | .changed set => set.toList.filterMap fun p => (side.nodeAt p).map fun node => (p, node)

/-- The version id the pull half matches a row on, if it can move from it. -/
def pullSource (base : BaselineEntry) (remoteAt : Option RemoteNode) : Option Uuid :=
  if base.kind ≠ .file ∨ base.state ≠ .synced then none
  else
    match base.remoteUuid with
    | none => none
    | some uuid =>
      if remoteAt.any fun node => node.kind = .file ∧ node.remoteUuid = uuid then none
      else some uuid

/-- The content the push half matches a row on, if it can move from it. -/
def pushSource (base : BaselineEntry) (localHolds : Bool) (remoteAt : Option RemoteNode) :
    Option Blake3Hash :=
  if base.kind ≠ .file ∨ base.state ≠ .synced ∨ localHolds = true then none
  else
    match base.contentHash, base.remoteUuid with
    | some hash, some uuid =>
      if remoteAt.map RemoteNode.remoteUuid = some uuid then some hash else none
    | _, _ => none

/-- The content of a local file a push move can end at: one the remote does not
hold, at a path no row tracks. -/
def pushTarget (node : LocalNode) (remoteHolds tracked : Bool) : Option Blake3Hash :=
  if node.kind ≠ .file ∨ remoteHolds = true ∨ tracked = true then none else node.contentHash

/-- What a move of the join is decided against beyond its source row. -/
structure MoveSides where
  mode : SyncMode
  l : Nodes LocalNode
  r : Nodes RemoteNode
  baseline : Baseline

inductive Took where
  | source
  | move (dst : Path)
deriving DecidableEq, Repr

def Took.consume (took : Took) (src : Path) (consumed : List Path) : List Path :=
  match took with
  | .source => src :: consumed
  | .move dst => dst :: src :: consumed

/-- The pull half for one row. `target` is where the remote holds the row's file
now, and whether only its lineage says so. -/
def pullMove (s : MoveSides) (consumed : Path → Bool) (base : BaselineEntry)
    (target : Option (Path × Bool)) : List SyncAction × Option Took :=
  let src := base.relPath
  if consumed src then ([], none)
  else
    let localAtFrom := s.l.nodeAt src
    -- A row with no local content on record waits for a push: its rename is carried across.
    if base.contentHash.isSome ∧ classifyLocal localAtFrom (some base) ≠ .unchanged then ([], none)
    else
      match target with
      | none => ([], none)
      | some (dst, carriesEdit) =>
        let remoteAtTo := s.r.nodeAt dst
        if carriesEdit = true ∧ s.mode.pushes = true ∧
            (base.contentHash.isNone ∨
              isUnconfirmedConcurrentEdit localAtFrom remoteAtTo (some base)) then
          ([conflict src], some .source)
        else if dst = src ∨ s.baseline.containsKey dst = true ∨ localAtFrom.isNone ∨
            s.l.holds dst = true ∨ consumed dst = true then ([], none)
        else
          -- The lineage index named the destination, so the remote node is there.
          let download :=
            if carriesEdit then
              (remoteAtTo.map fun node => downloadFile dst node.remoteUuid).toList
            else []
          (moveLocal src dst .file :: download, some (.move dst))

/-- The push half for one row. `candidates` are the new local files carrying a
content hash; only an unambiguous match is a move. -/
def pushMove (s : MoveSides) (consumed : Path → Bool) (base : BaselineEntry)
    (candidates : Blake3Hash → Option (List Path)) : List SyncAction × Option Took :=
  let src := base.relPath
  if consumed src then ([], none)
  else
    match base.contentHash, base.remoteUuid with
    | some hash, some uuid =>
      match (candidates hash).map
          (List.filter fun dst => !consumed dst && !s.r.holds dst) with
      | some [dst] => ([moveRemote src dst .file uuid], some (.move dst))
      | _ => ([], none)
    | _, _ => ([], none)

/-! ## The whole join -/

namespace MoveSides

variable (s : MoveSides)

def pullUuid (base : BaselineEntry) : Option Uuid := pullSource base (s.r.nodeAt base.relPath)

def pushHash (base : BaselineEntry) : Option Blake3Hash :=
  pushSource base (s.l.holds base.relPath) (s.r.nodeAt base.relPath)

def created (path : Path) (node : LocalNode) : Option Blake3Hash :=
  pushTarget node (s.r.holds path) (s.baseline.containsKey path)

end MoveSides

/-- The actions planned so far, with the paths taken. -/
abbrev JoinState := List SyncAction × List Path

def JoinState.took (state : JoinState) (src : Path) (out : List SyncAction × Option Took) :
    JoinState :=
  (state.1 ++ out.1, out.2.elim state.2 fun took => took.consume src state.2)

def pullStep (s : MoveSides) (target : BaselineEntry → Uuid → Option (Path × Bool))
    (state : JoinState) (base : BaselineEntry) : JoinState :=
  match s.pullUuid base with
  | none => state
  | some uuid =>
    state.took base.relPath (pullMove s (fun p => state.2.contains p) base (target base uuid))

def pushStep (s : MoveSides) (candidates : Blake3Hash → Option (List Path))
    (state : JoinState) (base : BaselineEntry) : JoinState :=
  state.took base.relPath (pushMove s (fun p => state.2.contains p) base candidates)

/-- The version id a remote file is looked up by; a directory is none. -/
def RemoteNode.fileUuid (node : RemoteNode) : Option Uuid :=
  if node.kind = .file then some node.remoteUuid else none

def RemoteNode.fileLineage (node : RemoteNode) : Option StableUuid :=
  if node.kind = .file then node.stableUuid else none

/-- The remote files met, each with the slot of its version id. -/
def uuidWalk (targets : List (Path × RemoteNode)) :
    List (Uuid × (Option Path → Option Path)) :=
  targets.filterMap fun t => t.2.fileUuid.map fun uuid => (uuid, fun _ => some t.1)

/-- The remote files met, each with the slot of its lineage. -/
def lineageWalk (targets : List (Path × RemoteNode)) :
    List (StableUuid × (Option Path → Option Path)) :=
  targets.filterMap fun t => t.2.fileLineage.map fun lineage => (lineage, fun _ => some t.1)

/-- The new local files met, each with the slot of its content. -/
def createdWalk (s : MoveSides) (targets : List (Path × LocalNode)) :
    List (Blake3Hash × (List Path → List Path)) :=
  targets.filterMap fun t => (s.created t.1 t.2).map fun hash => (hash, fun held => held ++ [t.1])

/-- Where the targets of the join sit, by the keys its sources ask for. -/
structure MoveIndexes where
  createdByHash : MoveTargets Blake3Hash (List Path)
  pathOfUuid : MoveTargets Uuid (Option Path)
  pathOfLineage : MoveTargets StableUuid (Option Path)

namespace MoveIndexes

/-- The sources ask for their keys, each half only where it has a target. -/
def ask (s : MoveSides) (sources : List BaselineEntry) (localTargets : List (Path × LocalNode))
    (remoteTargets : List (Path × RemoteNode)) : MoveIndexes :=
  let createdFiles := (createdWalk s localTargets).length
  let remoteFiles := (uuidWalk remoteTargets).length
  let remoteLineages := (lineageWalk remoteTargets).length
  let pulling := if 0 < remoteFiles then sources else []
  let pushing := if 0 < createdFiles then sources else []
  { createdByHash := (pushing.filterMap s.pushHash).foldl want
      (new createdFiles)
    pathOfUuid := (pulling.filterMap s.pullUuid).foldl want
      (new remoteFiles)
    pathOfLineage := (pulling.filterMap fun base =>
        (s.pullUuid base).bind fun _ => base.remoteStableUuid).foldl want
      (new remoteLineages) }

def pullTargets (i : MoveIndexes) : Bool := i.pathOfUuid.wantsTargets || i.pathOfLineage.wantsTargets

def fill (i : MoveIndexes) (s : MoveSides) (localTargets : List (Path × LocalNode))
    (remoteTargets : List (Path × RemoteNode)) : MoveIndexes :=
  { createdByHash := if i.createdByHash.wantsTargets then
      i.createdByHash.fill (createdWalk s localTargets) else i.createdByHash
    pathOfUuid := if i.pullTargets then
      i.pathOfUuid.fill (uuidWalk remoteTargets) else i.pathOfUuid
    pathOfLineage := if i.pullTargets then
      i.pathOfLineage.fill (lineageWalk remoteTargets) else i.pathOfLineage }

def pulls (i : MoveIndexes) : Bool :=
  i.pathOfUuid.any Option.isSome || i.pathOfLineage.any Option.isSome

def pushes (i : MoveIndexes) : Bool := i.createdByHash.any fun held => !held.isEmpty

/-- The file a row records by its version id, else by its lineage. -/
def target (i : MoveIndexes) (base : BaselineEntry) (uuid : Uuid) : Option (Path × Bool) :=
  match (i.pathOfUuid.get uuid).join with
  | some dst => some (dst, false)
  | none =>
    (base.remoteStableUuid.bind fun lineage => (i.pathOfLineage.get lineage).join).map
      fun dst => (dst, true)

def localSource (i : MoveIndexes) (s : MoveSides) (base : BaselineEntry) : Bool :=
  ((s.pushHash base).bind i.createdByHash.get).any fun held => !held.isEmpty

end MoveIndexes

/-- Detect the moves of a pass, from the paths it withholds. -/
def detectMoves (s : MoveSides) (paths : PassPaths) (consumed : List Path) : JoinState :=
  let sources := visitMoveSources paths s.baseline
  let localTargets := if s.mode.pushes then visitMoveTargets paths s.l else []
  let remoteTargets := if s.mode.pulls then visitMoveTargets paths s.r else []
  let asked := MoveIndexes.ask s sources localTargets remoteTargets
  if (!asked.pullTargets && !asked.createdByHash.wantsTargets) = true then ([], consumed)
  else
    let i := asked.fill s localTargets remoteTargets
    if (!i.pulls && !i.pushes) = true then ([], consumed)
    else
      -- The rows are walked once for both halves: the sources of a push are collected on the way
      -- and judged against what is consumed only when the pull half is done with it.
      let localSources := if i.pushes then sources.filter (i.localSource s) else []
      let pulled := if i.pulls then sources.foldl (pullStep s i.target) ([], consumed)
        else ([], consumed)
      localSources.foldl (pushStep s i.createdByHash.get) pulled

/-- The last remote file walked that wears `uuid`. -/
def uuidTarget (targets : List (Path × RemoteNode)) (uuid : Uuid) : Option Path :=
  ((targets.filter fun t => t.2.fileUuid = some uuid).map Prod.fst).getLast?

/-- The last remote file walked of `lineage`. -/
def lineageTarget (targets : List (Path × RemoteNode)) (lineage : StableUuid) : Option Path :=
  ((targets.filter fun t => t.2.fileLineage = some lineage).map Prod.fst).getLast?

/-- Where the remote holds a row's file now: by version id, else by lineage. -/
def pullTarget (targets : List (Path × RemoteNode)) (base : BaselineEntry) (uuid : Uuid) :
    Option (Path × Bool) :=
  match uuidTarget targets uuid with
  | some dst => some (dst, false)
  | none => (base.remoteStableUuid.bind (lineageTarget targets)).map fun dst => (dst, true)

/-- The new local files carrying `hash`, in walk order. -/
def hashTargets (s : MoveSides) (targets : List (Path × LocalNode)) (hash : Blake3Hash) :
    List Path :=
  (targets.filter fun t => s.created t.1 t.2 = some hash).map Prod.fst

/-- The moves of a pass: every row in turn as the source of a pull, then every
row in turn as the source of a push. -/
def joinMoves (s : MoveSides) (sources : List BaselineEntry) (localTargets : List (Path × LocalNode))
    (remoteTargets : List (Path × RemoteNode)) (consumed : List Path) : JoinState :=
  (sources.filter fun base => (s.pushHash base).isSome).foldl
    (pushStep s fun hash => some (hashTargets s localTargets hash))
    (sources.foldl (pullStep s (pullTarget remoteTargets)) ([], consumed))

end SyncEngine
