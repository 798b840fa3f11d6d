import Mathlib.Algebra.Group.Int.Defs
import SyncEngine.Collections.Claims
import SyncEngine.Rows.Stored

/-! # Seeding rows for the files both sides already agree on

Before a pass plans, each path with no row where both sides hold a file, and where only the local
one was hashed, is weighed, and what the evidence holds for is recorded as synced, a chunk of rows
at a time. A row whose remote item the store already records is dropped, and that is asked once a
chunk. A dry run weighs through the same code and keeps the rows instead.
-/

namespace SyncEngine

open Collections

namespace Seeding

/-! ## Evidence -/

inductive Evidence where
  | imported
  | empty
  | sizeAndMtime
deriving DecidableEq, Repr

structure SeedCounts where
  imported : Nat
  empty : Nat
  sizeAndMtime : Nat
deriving DecidableEq, Repr

namespace SeedCounts

def none : SeedCounts := ⟨0, 0, 0⟩

def count (counts : SeedCounts) : Evidence → SeedCounts
  | .imported => { counts with imported := counts.imported + 1 }
  | .empty => { counts with empty := counts.empty + 1 }
  | .sizeAndMtime => { counts with sizeAndMtime := counts.sizeAndMtime + 1 }

end SeedCounts

structure LegacySynced where
  remoteUuid : Uuid
  size : Nat
  localMtime : Int
deriving DecidableEq, Repr

/-- Whether the two nodes at a path with no row are what the stage weighs. -/
def candidate (onDisk : LocalNode) (remote : RemoteNode) : Bool :=
  onDisk.kind = .file && remote.kind = .file && remote.contentHash.isNone &&
    onDisk.contentHash.isSome

/-- A sum of 64-bit numbers, where it fits. -/
def checkedAdd (a b : Int) : Option Int :=
  if -(2 ^ 63) ≤ a + b ∧ a + b < 2 ^ 63 then some (a + b) else none

def mtimeParts (onDisk : LocalNode) : Option (Int × Nat) :=
  let nanos := onDisk.mtimeMillis % 1000 * 1000000 + onDisk.mtimeNanos
  (checkedAdd (onDisk.mtimeMillis / 1000) (nanos / 1000000000)).map fun secs =>
    (secs, (nanos % 1000000000).toNat)

section Evidence

/-! The stamp the older client gave a file is computed in floating point from the seconds and the
nanoseconds; what it comes to is left open here. -/

variable (nodeMtimeMillis : Int → Nat → Option Int)

/-- Whether a stamp is the local one to the millisecond, as either client reads it. -/
def sameMillisecond (onDisk : LocalNode) (millis : Int) : Bool :=
  millis = onDisk.mtimeMillis ||
    (mtimeParts onDisk).bind (fun parts => nodeMtimeMillis parts.1 parts.2) = some millis

/-- Whether a remote stamp is the local one, to the millisecond or in whole seconds. -/
def sameMtime (onDisk : LocalNode) (remoteMillis : Int) : Bool :=
  sameMillisecond nodeMtimeMillis onDisk remoteMillis ||
    (mtimeParts onDisk).any fun parts => parts.2 = 0 && remoteMillis / 1000 = parts.1

/-- The evidence that the two files of a candidate hold the same content. -/
def evidence (onDisk : LocalNode) (remote : RemoteNode) (imported : Option LegacySynced) : Option Evidence :=
  if imported.any fun synced => synced.remoteUuid = remote.remoteUuid &&
      synced.size = onDisk.size && sameMillisecond nodeMtimeMillis onDisk synced.localMtime then
    some .imported
  else if onDisk.size ≠ remote.size then none
  else if onDisk.size = 0 then some .empty
  else if decide (remote.modifiedMillis ≠ 0) && sameMtime nodeMtimeMillis onDisk remote.modifiedMillis then
    some .sizeAndMtime
  else none

end Evidence

/-- The row that records a path as synced, with the local content as agreed. -/
def seededRow (relPath : Path) (onDisk : LocalNode) (remote : RemoteNode) : BaselineEntry where
  relPath := relPath
  kind := .file
  remoteUuid := some remote.remoteUuid
  contentHash := onDisk.contentHash
  size := some onDisk.size
  localMtime := some onDisk.mtimeMillis
  remoteModified := some remote.modifiedMillis
  state := .synced
  localKind := none
  remoteKind := none
  remoteHash := none
  remoteSize := none
  remoteStableUuid := remote.stableUuid
  agreedHash := onDisk.contentHash

/-- A slot for each id asked about, and the path that answers it. -/
abbrev Slots (κ : Type) := κ → Option (Option Path)

def keepFirst (slot : Option Path) (relPath : Path) : Option Path :=
  match slot with
  | none => some relPath
  | some held => some (if relPath < held then relPath else held)

def Slots.offer {κ : Type} [DecidableEq κ] (slots : Slots κ) (relPath : Path) (id : Option κ) : Slots κ :=
  fun k => if id = some k then (slots k).map fun slot => keepFirst slot relPath else slots k

structure SyncedPaths where
  byUuid : Slots Uuid
  byLineage : Slots StableUuid

namespace SyncedPaths

/-- The ids to resolve, each still unanswered. -/
def asking (uuids : List Uuid) (lineages : List StableUuid) : SyncedPaths where
  byUuid uuid := if uuid ∈ uuids then some none else none
  byLineage lineage := if lineage ∈ lineages then some none else none

def offer (paths : SyncedPaths) (relPath : Path) (uuid : Option Uuid) (lineage : Option StableUuid) :
    SyncedPaths where
  byUuid := paths.byUuid.offer relPath uuid
  byLineage := paths.byLineage.offer relPath lineage

def pathByUuid (paths : SyncedPaths) (uuid : Uuid) : Option Path := (paths.byUuid uuid).join

def pathByLineage (paths : SyncedPaths) (lineage : StableUuid) : Option Path :=
  (paths.byLineage lineage).join

end SyncedPaths

def syncedChunk : Nat := 64

/-- What the stage reads and writes, over the states of a store. -/
structure SeedStore (σ : Type) where
  hasLegacySynced : σ → Bool
  legacySynced : σ → Path → Option LegacySynced
  syncedPaths : σ → List Uuid → List StableUuid → SyncedPaths
  seedRows : σ → List BaselineEntry → σ

/-- The rows of every pair, and the imported state by pair and path. -/
structure BaselineStore where
  baseline : Stored.Store
  legacy : List ((PairId × Path) × LegacySynced)

/-- The rows an id seek finds, some ids at a time. The paths offered for one id are compared, so
the order they come in is left out. -/
def seekIds {κ : Type} [DecidableEq κ] (rows : List BaselineEntry) (column : BaselineEntry → Option κ)
    (ids : List κ) : List BaselineEntry :=
  (cutBatches syncedChunk [] ids).flatMap fun chunk =>
    rows.filter fun row => (column row).any fun id => id ∈ chunk

namespace BaselineStore

variable (fold : CaseFold) (pair : PairId)

def hasLegacySynced (store : BaselineStore) : Bool := store.legacy.any fun item => item.1.1 = pair

def legacySynced (store : BaselineStore) (relPath : Path) : Option LegacySynced :=
  (store.legacy.find? fun item => item.1 = (pair, relPath)).map Prod.snd

def syncedPaths (store : BaselineStore) (uuids : List Uuid) (lineages : List StableUuid) : SyncedPaths :=
  let rows := (Stored.entries store.baseline pair).rows
  let found := seekIds rows BaselineEntry.remoteUuid uuids.dedup ++
    seekIds rows BaselineEntry.remoteStableUuid lineages.dedup
  found.foldl (fun out row => out.offer row.relPath row.remoteUuid row.remoteStableUuid)
    (SyncedPaths.asking uuids lineages)

def seedRows (store : BaselineStore) (rows : List BaselineEntry) : BaselineStore :=
  { store with baseline := rows.foldl (fun table row => Stored.upsertRow fold table pair row) store.baseline }

def seedStore : SeedStore BaselineStore where
  hasLegacySynced := hasLegacySynced pair
  legacySynced := legacySynced pair
  syncedPaths := syncedPaths pair
  seedRows := seedRows fold pair

end BaselineStore

/-- The rows a preview kept, and which of them records each id. -/
structure Kept where
  rows : List BaselineEntry
  byUuid : Uuid → Option Nat
  byLineage : StableUuid → Option Nat

/-- An index entry filled only where there is none. -/
def orInsert {κ : Type} [DecidableEq κ] (index : κ → Option Nat) (id : Option κ) (at' : Nat) : κ → Option Nat :=
  fun k => if id = some k then (index k).or (some at') else index k

namespace Kept

def none : Kept := ⟨[], fun _ => .none, fun _ => .none⟩

def push (kept : Kept) (row : BaselineEntry) : Kept where
  rows := kept.rows ++ [row]
  byUuid := orInsert kept.byUuid row.remoteUuid kept.rows.length
  byLineage := orInsert kept.byLineage row.remoteStableUuid kept.rows.length

end Kept

/-- A store that is read and never written, with the rows a pass would write to it. -/
structure Preview where
  store : BaselineStore
  kept : Kept

namespace Preview

variable (pair : PairId)

def new (store : BaselineStore) : Preview := ⟨store, Kept.none⟩

def intoRows (preview : Preview) : List BaselineEntry := preview.kept.rows

def syncedPaths (preview : Preview) (uuids : List Uuid) (lineages : List StableUuid) : SyncedPaths :=
  let out := preview.store.syncedPaths pair uuids lineages
  let byUuid := uuids.filterMap fun uuid =>
    (preview.kept.byUuid uuid).map fun at' => (some uuid, (none : Option StableUuid), at')
  let byLineage := lineages.filterMap fun lineage =>
    (preview.kept.byLineage lineage).map fun at' => ((none : Option Uuid), some lineage, at')
  (byUuid ++ byLineage).foldl (fun out hit =>
    match preview.kept.rows[hit.2.2]? with
    | some row => out.offer row.relPath hit.1 hit.2.1
    | none => out) out

def seedRows (preview : Preview) (rows : List BaselineEntry) : Preview :=
  { preview with kept := rows.foldl Kept.push preview.kept }

def seedStore : SeedStore Preview where
  hasLegacySynced preview := preview.store.hasLegacySynced pair
  legacySynced preview := preview.store.legacySynced pair
  syncedPaths := syncedPaths pair
  seedRows := seedRows

end Preview

/-! ## The stage -/

/-- The files the remote view offers, each at its path, and each version at one path. -/
structure Candidates where
  nodes : List (Path × RemoteNode)
  paths : (nodes.map Prod.fst).Nodup
  uuids : (nodes.map fun c => c.2.remoteUuid).Nodup

/-- What a seeding reads besides its store: the rows its snapshot holds, the local side, and
which paths the pass does not act on. -/
structure Read where
  baseline : Baseline
  localAt : Path → Option LocalNode
  skip : Path → Bool

/-- A seeding as it runs: the rows not yet written, and those handed over so far. -/
structure Run (σ : Type) where
  store : σ
  counts : SeedCounts
  rows : List (BaselineEntry × Evidence)
  handed : List BaselineEntry

def Run.start {σ : Type} (store : σ) : Run σ := ⟨store, SeedCounts.none, [], []⟩

def recordedAt (claimed : SyncedPaths) (row : BaselineEntry) : Option Path :=
  (row.remoteUuid.bind claimed.pathByUuid).or (row.remoteStableUuid.bind claimed.pathByLineage)

section Stage

variable {σ : Type} (ops : SeedStore σ)

/-- Write the pending rows whose remote item no row in the store records. -/
def writeUnclaimed (run : Run σ) : Run σ :=
  let uuids := run.rows.filterMap fun row => row.1.remoteUuid
  let lineages := run.rows.filterMap fun row => row.1.remoteStableUuid
  let claimed := ops.syncedPaths run.store uuids lineages
  let unclaimed := run.rows.filter fun row => (recordedAt claimed row.1).isNone
  let counts := unclaimed.foldl (fun counts row => counts.count row.2) run.counts
  if unclaimed.isEmpty then ⟨run.store, counts, [], run.handed⟩
  else
    ⟨ops.seedRows run.store (unclaimed.map Prod.fst), counts, [], run.handed ++ unclaimed.map Prod.fst⟩

variable (nodeMtimeMillis : Int → Nat → Option Int) (read : Read)

/-- What one remote file is seeded as, with the imported state at its path. -/
def weigh (imported : Path → Option LegacySynced) (item : Path × RemoteNode) :
    Option (BaselineEntry × Evidence) :=
  if read.skip item.1 || read.baseline.containsKey item.1 then none
  else
    match read.localAt item.1 with
    | none => none
    | some onDisk =>
      if !candidate onDisk item.2 then none
      else (evidence nodeMtimeMillis onDisk item.2 (imported item.1)).map fun found =>
        (seededRow item.1 onDisk item.2, found)

/-- The imported state, looked up only when the pair imported any. -/
def importedAt (anyImported : Bool) (store : σ) (path : Path) : Option LegacySynced :=
  if anyImported then ops.legacySynced store path else none

/-- Weigh each file, writing whenever the pending rows fill a chunk. -/
def seedLoop (chunk : Nat) (anyImported : Bool) : List (Path × RemoteNode) → Run σ → Run σ
  | [], run => run
  | item :: items, run =>
    match weigh nodeMtimeMillis read (importedAt ops anyImported run.store) item with
    | none => seedLoop chunk anyImported items run
    | some row =>
      let run := { run with rows := run.rows ++ [row] }
      if run.rows.length = chunk then seedLoop chunk anyImported items (writeUnclaimed ops run)
      else seedLoop chunk anyImported items run

def seed (chunk : Nat) (candidates : Candidates) (store : σ) : Run σ :=
  let run := seedLoop ops nodeMtimeMillis read chunk (ops.hasLegacySynced store) candidates.nodes
    (Run.start store)
  if run.rows.isEmpty then run else writeUnclaimed ops run

end Stage

def seedChunk : Nat := 1024

end Seeding

end SyncEngine
