import SyncEngine.DirMoves.Signatures
import SyncEngine.Plan.Moves
import SyncEngine.Side.Rekey

/-! # The next directory move of a whole pass

A pass looks for a directory the two sides spell differently only by case, and
then for a directory moved to another path on one side: pulled when the remote
shows its uuid elsewhere, pushed when its subtree reappears under exactly one
new local directory. One move is folded into the inputs before the next is
looked for.
-/

namespace SyncEngine

open Collections

section Detect

variable (fold : CaseFold) (digest : Digest) (held : PathSet)

/-- Shallowest first, then in path order. -/
def depthLe (a b : Path) : Prop := depth a < depth b ∨ depth a = depth b ∧ a ≤ b

instance (a b : Path) : Decidable (depthLe a b) := inferInstanceAs (Decidable (_ ∨ _))

def dirMoveSource (row : BaselineEntry) : Option Uuid :=
  if row.kind = .dir ∧ row.state = .synced then row.remoteUuid else none

/-- Every row a directory move of the mode can start from, in path order. A row
whose directory both sides still hold where it records it is not handed over. -/
def visitSources (s : MoveSides) : List MoveSource :=
  (s.baseline.rows.filter fun row => row.kind = .dir).filterMap fun row =>
    (dirMoveSource row).bind fun uuid =>
      let localDir := s.l.dirAt row.relPath
      let wanted := if localDir then s.mode.pulls else s.mode.pushes
      if !wanted then none
      else if localDir && (s.r.nodeAt row.relPath).any fun node =>
          node.kind = .dir && node.remoteUuid = uuid then none
      else some ⟨row.relPath, uuid, localDir⟩

def visitLocalOnly (s : MoveSides) : List Path :=
  (s.l.dirs.filter fun e => !s.r.holds e.1).map Prod.fst

/-- Every local directory no row records. -/
def visitLocalNew (s : MoveSides) : List Path :=
  (s.l.dirs.filter fun e => !s.baseline.containsKey e.1).map Prod.fst

/-- Every remote directory the local side holds nothing at, with its uuid. -/
def visitRemoteOnly (s : MoveSides) : List (Path × Uuid) :=
  (s.r.dirs.filter fun e => !s.l.holds e.1).map fun e => (e.1, e.2.remoteUuid)

structure CaseCandidate where
  localPath : Path
  remotePath : Path
  remoteUuid : Uuid

def caseCandidates (s : MoveSides) : List CaseCandidate :=
  let localOnly := visitLocalOnly s
  let found := (visitRemoteOnly s).filterMap fun e =>
    -- Of several local directories with one key the last one walked is kept.
    ((localOnly.filter fun p => fold.collisionKey p = fold.collisionKey e.1).getLast?).bind
      fun localPath =>
        if parentPath localPath = parentPath e.1 then some ⟨localPath, e.1, e.2⟩ else none
  found.insertionSort fun a b => depthLe a.localPath b.localPath

def renameRemote (s : MoveSides) (c : CaseCandidate) : Bool :=
  match s.mode with
  | .localToRemote | .localBackup => true
  | .remoteToLocal | .remoteBackup => false
  | .twoWay =>
    (s.baseline.get c.localPath).isNone &&
      (s.baseline.get c.remotePath).any fun row =>
        row.kind = .dir && row.state = .synced && row.remoteUuid = some c.remoteUuid

def caseRename (s : MoveSides) (c : CaseCandidate) : Option SyncAction :=
  if ((s.baseline.get c.localPath).any fun row => row.state.isConflict) ||
      ((s.baseline.get c.remotePath).any fun row => row.state.isConflict) ||
      touchesHeld c.localPath held || touchesHeld c.remotePath held then none
  else if renameRemote s c then
    some (.moveRemote c.remotePath c.localPath .dir c.remoteUuid)
  else some (.moveLocal c.localPath c.remotePath .dir)

/-- The shallowest case-only directory rename left in the inputs. -/
def nextCaseOnlyDirRename (s : MoveSides) : Option SyncAction :=
  (caseCandidates fold s).findSome? (caseRename held s)

/-! ## A move to another path -/

inductive Matched where
  | identity
  | signature (full : Bool)
deriving DecidableEq, Repr

/-- Where the remote holds the directory of a uuid, the last in path order. -/
def remoteDirAt (r : Nodes RemoteNode) (uuid : Uuid) : Option Path :=
  ((r.dirs.filter fun e => e.2.remoteUuid = uuid).getLast?).map Prod.fst

def pulledMove (s : MoveSides) (source : MoveSource) : Option (SyncAction × Matched) :=
  (remoteDirAt s.r source.uuid).bind fun dst =>
    if dst = source.path then none
    else if s.l.occupied fold dst then none
    else some (.moveLocal source.path dst .dir, .identity)

/-- The path a directory passes through between its re-parent and its rename. -/
def viaPath (src dst : Path) : Path :=
  if parentPath dst = [] then leaf src else parentPath dst ++ '/' :: leaf src

def pushedMove (s : MoveSides) (sources : List MoveSource) (source : MoveSource) :
    Option (SyncAction × Matched) :=
  let src := source.path
  let gone := goneSignatures digest s.baseline s.l sources
  (gone.signatureOf src).bind fun signature =>
    let newDirs := newLocalDirSignatures digest s.baseline s.l gone (visitLocalNew s)
    match matching newDirs s.baseline s.l src signature with
    | [(dir, full)] =>
      let dst := dir.path
      let twin := (gone.bySignature signature).any fun other =>
        other ≠ src && sameRows s.baseline src other
      let passesFree := decide (parentPath src = parentPath dst) ||
        leaf src = leaf dst || !s.r.occupied fold (viaPath src dst)
      if !twin && passesFree && !s.r.occupied fold dst then
        some (.moveRemote src dst .dir source.uuid, .signature full)
      else none
    | _ => none

def clearMove (b : Baseline) (src dst : Path) : Bool :=
  fold.collisionKey src ≠ fold.collisionKey dst &&
    !isUnder (fold.collisionKey dst) (fold.collisionKey src) &&
    !isUnder (fold.collisionKey src) (fold.collisionKey dst) &&
    !b.occupied fold dst && !(touchesHeld src held || touchesHeld dst held) &&
    b.subtreeAllSynced src

/-- The directory move of one source, but for the parents of its destination. -/
def dirMoveFrom (s : MoveSides) (sources : List MoveSource) (source : MoveSource) :
    Option (SyncAction × Matched) :=
  let found :=
    if source.localDir then pulledMove fold s source
    else if s.mode.pushes && ((s.r.nodeAt source.path).any fun node =>
        node.kind = .dir && node.remoteUuid = source.uuid) && !s.l.occupied fold source.path then
      pushedMove fold digest s sources source
    else none
  found.filter fun move => clearMove fold held s.baseline source.path move.1.relPath

/-- Climb from `parent` to the first directory the side holds, or to the root.
A path no longer than the fuel reaches one of them. -/
def parentsReadyFrom {ν : Type} [Kinded ν] (side : Nodes ν) (b : Baseline) (pending : List Path) :
    Nat → Path → Bool
  | 0, _ => true
  | fuel + 1, parent =>
    if parent = [] then true
    else
      match side.nodeAt parent with
      | some node => Kinded.kind node = .dir
      | none =>
        if side.occupied fold parent || b.occupied fold parent ||
            pending.contains (fold.collisionKey parent) then false
        else parentsReadyFrom side b pending fuel (parentPath parent)

/-- Whether every directory above `dst` exists on the side, or is one the pass
creates there and no other move of the fold brings. -/
def parentsReady {ν : Type} [Kinded ν] (side : Nodes ν) (b : Baseline) (pending : List Path)
    (dst : Path) : Bool :=
  parentsReadyFrom fold side b pending dst.length (parentPath dst)

def moveReady (s : MoveSides) (pending : List Path) (action : SyncAction) : Bool :=
  match action with
  | .moveRemote .. => parentsReady fold s.r s.baseline pending action.relPath
  | _ => parentsReady fold s.l s.baseline pending action.relPath

/-- The shallowest directory move to a different path left in the inputs. -/
def nextDirMove (s : MoveSides) : Option (SyncAction × Matched) :=
  let sources := (visitSources s).insertionSort fun a b => depthLe a.path b.path
  let candidates := sources.filterMap (dirMoveFrom fold digest held s sources)
  let pending := candidates.map fun move => fold.collisionKey move.1.relPath
  candidates.find? fun move => moveReady fold s pending move.1

def nextMove (s : MoveSides) : Option (SyncAction × Matched) :=
  match nextCaseOnlyDirRename fold held s with
  | some action => some (action, .identity)
  | none => nextDirMove fold digest held s

/-- Re-key the side the move carries, and the rows with it. The other side is
whole and stays where it is. -/
def foldMove (s : MoveSides) (action : SyncAction) : MoveSides :=
  let src := action.endpoints.1
  let dst := action.endpoints.2
  match action with
  | .moveRemote .. =>
    { s with
      r := s.r.rekeySubtree src dst
      baseline := s.baseline.moveSubtree src dst }
  | _ =>
    { s with
      l := s.l.rekeySubtree src dst
      baseline := s.baseline.moveSubtree src dst }

/-- Take out of the inputs every directory move a whole pass can carry as one:
the moves in order, and the inputs re-keyed; `none` when the fuel runs out. -/
def foldDirMoves : Nat → MoveSides → Option (List SyncAction × MoveSides)
  | 0, _ => none
  | fuel + 1, s =>
    match nextMove fold digest held s with
    | none => some ([], s)
    | some move =>
      (foldDirMoves fuel (foldMove s move.1)).map fun out => (move.1 :: out.1, out.2)

end Detect

end SyncEngine
