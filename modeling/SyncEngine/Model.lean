import SyncEngine.Paths

/-! # Data model

The rows, nodes and actions the planning layer reads and writes, field by
field as the source declares them. Ids and content hashes have their fixed
widths; sizes and timestamps are plain numbers, since planning only compares
and copies them.
-/

namespace SyncEngine

open Collections

abbrev Uuid := BitVec 128

/-- A file's whole-life id, which a content edit keeps. -/
abbrev StableUuid := BitVec 128

instance : LawfulBEq Uuid := inferInstance

abbrev Blake3Hash := BitVec 256

abbrev PairId := Int

inductive NodeKind where
  | dir
  | file
deriving DecidableEq, Repr

inductive BaselineState where
  | synced
  | conflicted
  | overwritten
  | adopted
deriving DecidableEq, Repr

namespace BaselineState

/-- Both conflict states are held until the caller resolves them. -/
def isConflict : BaselineState → Bool
  | conflicted | overwritten => true
  | synced | adopted => false

end BaselineState

/-! ## Rows and nodes -/

structure BaselineEntry where
  relPath : Path
  kind : NodeKind
  remoteUuid : Option Uuid
  contentHash : Option Blake3Hash
  size : Option Nat
  localMtime : Option Int
  remoteModified : Option Int
  state : BaselineState
  localKind : Option NodeKind
  remoteKind : Option NodeKind
  remoteHash : Option Blake3Hash
  remoteSize : Option Nat
  remoteStableUuid : Option StableUuid
  agreedHash : Option Blake3Hash
deriving DecidableEq, Repr

structure LocalNode where
  relPath : Path
  kind : NodeKind
  size : Nat
  mtimeMillis : Int
  mtimeNanos : Int
  contentHash : Option Blake3Hash
deriving DecidableEq, Repr

structure RemoteNode where
  relPath : Path
  kind : NodeKind
  remoteUuid : Uuid
  stableUuid : Option StableUuid
  contentHash : Option Blake3Hash
  size : Nat
  modifiedMillis : Int
deriving DecidableEq, Repr

namespace BaselineEntry

def carryable (row : BaselineEntry) : Bool :=
  row.state = .synced && row.remoteUuid.isSome &&
    match row.kind with
    | .dir => true
    | .file =>
      row.contentHash.isSome && row.size.isSome && row.localMtime.isSome &&
        row.remoteModified.isSome

end BaselineEntry

/-! ## A converged item

What the row and the two sides hold at a path both sides agree on, with no more
than the fields a decision reads. Concrete runs are built from these.
-/

def syncedRow (path : Path) (kind : NodeKind) (uuid : Uuid) (hash : Option Blake3Hash) :
    BaselineEntry where
  relPath := path
  kind := kind
  remoteUuid := some uuid
  contentHash := hash
  size := some 0
  localMtime := some 0
  remoteModified := some 0
  state := .synced
  localKind := none
  remoteKind := none
  remoteHash := none
  remoteSize := none
  remoteStableUuid := none
  agreedHash := hash

def localItem (path : Path) (kind : NodeKind) (hash : Option Blake3Hash) : LocalNode where
  relPath := path
  kind := kind
  size := 0
  mtimeMillis := 0
  mtimeNanos := 0
  contentHash := hash

def remoteItem (path : Path) (kind : NodeKind) (uuid : Uuid) (hash : Option Blake3Hash) :
    RemoteNode where
  relPath := path
  kind := kind
  remoteUuid := uuid
  stableUuid := none
  contentHash := hash
  size := 0
  modifiedMillis := 0

inductive SyncMode where
  | localToRemote
  | remoteToLocal
  | twoWay
  | localBackup
  | remoteBackup
deriving DecidableEq, Repr

namespace SyncMode

def pushes : SyncMode → Bool
  | localToRemote | twoWay | localBackup => true
  | remoteToLocal | remoteBackup => false

def pulls : SyncMode → Bool
  | remoteToLocal | twoWay | remoteBackup => true
  | localToRemote | localBackup => false

def propagatesDeletes : SyncMode → Bool
  | localToRemote | remoteToLocal | twoWay => true
  | localBackup | remoteBackup => false

end SyncMode

inductive SyncAction where
  | createLocalDir (relPath : Path)
  | downloadFile (relPath : Path) (remoteUuid : Uuid)
  | deleteLocal (relPath : Path) (kind : NodeKind)
  | createRemoteDir (relPath : Path)
  | uploadFile (relPath : Path)
  | trashRemote (relPath : Path) (kind : NodeKind) (remoteUuid : Uuid)
  | conflict (relPath : Path)
  | adoptBaseline (relPath : Path)
  | moveRemote (fromPath toPath : Path) (kind : NodeKind) (remoteUuid : Uuid)
  | moveLocal (fromPath toPath : Path) (kind : NodeKind)
deriving DecidableEq, Repr

namespace SyncAction

/-- The path that determines the apply order: the destination for a move. -/
def relPath : SyncAction → Path
  | createLocalDir p | downloadFile p _ | deleteLocal p _ | createRemoteDir p | uploadFile p
  | trashRemote p _ _ | conflict p | adoptBaseline p => p
  | moveRemote _ dst _ _ | moveLocal _ dst _ => dst

/-- Both paths an action touches, the one path twice unless it moves. -/
def endpoints : SyncAction → Path × Path
  | moveRemote src dst _ _ => (src, dst)
  | moveLocal src dst _ => (src, dst)
  | other => (other.relPath, other.relPath)

def isDelete : SyncAction → Bool
  | deleteLocal .. | trashRemote .. => true
  | _ => false

def isCreate : SyncAction → Bool
  | createLocalDir .. | createRemoteDir .. | uploadFile .. | downloadFile .. => true
  | _ => false

def isConflict : SyncAction → Bool
  | conflict .. => true
  | _ => false

def isMove : SyncAction → Bool
  | moveRemote .. | moveLocal .. => true
  | _ => false

end SyncAction

inductive MarkedExit where
  | upload
  | conflict
deriving DecidableEq, Repr

structure PassHolds where
  /-- Remote ids already sent to the trash, whose removal the cache has not applied. -/
  trashed : List Uuid
  /-- Remote paths the cache is showing mid-transition. -/
  heldRemote : PathSet
  markedExits : List (Path × MarkedExit)

def PassHolds.none : PassHolds := ⟨[], SortedSet.empty, []⟩

inductive PassPaths where
  | whole
  | changed (paths : PathSet)

structure Plan where
  actions : List SyncAction
  deferredPaths : Nat
deriving DecidableEq, Repr

end SyncEngine
