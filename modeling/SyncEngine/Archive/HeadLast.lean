import SyncEngine.Collections.HashTrees
import SyncEngine.Collections.Machine
import SyncEngine.Transfer.Chunk

/-! # An archive whose first chunk is written last

A 7z's start header points at its end, so its first chunk is kept back until the rest is
written. Its hash is taken of the chunks as they come: every later chunk is a subtree of
BLAKE3's tree, and the first one's is merged in at the end.
-/

namespace SyncEngine.Archive

open Collections Transfer

/-- BLAKE3's compression of a chunk after so many others, and of two subtrees. -/
structure Blake3 (Cv Hash : Type) where
  chunk : Nat → List UInt8 → Cv
  parent : Cv → Cv → Cv
  rootChunk : List UInt8 → Hash
  rootParent : Cv → Cv → Hash

def chunkLen : Nat := 1024

section Blake3

variable {Cv Hash : Type}

namespace Blake3

def tree (b : Blake3 Cv Hash) : TreeHash UInt8 Cv Hash where
  leafLen := chunkLen
  leafLen_pos := by decide
  leaf := b.chunk
  node := b.parent
  rootLeaf := b.rootChunk
  rootNode := b.rootParent

def hash (b : Blake3 Cv Hash) (data : List UInt8) : Hash := b.tree.hash data

end Blake3

/-- The longest subtree that may start at an offset: its chunk number is a multiple of as many. -/
def maxSubtreeLen (offset : Nat) : Option Nat :=
  if offset = 0 then none else some (Nat.gcd (offset / chunkLen) (2 ^ 64) * chunkLen)

/-- A hasher's value of a subtree, where such a subtree may be. -/
def Blake3.finalizeNonRoot (b : Blake3 Cv Hash) (offset : Nat) (data : List UInt8) : Option Cv :=
  if offset % chunkLen = 0 ∧ data ≠ [] ∧ ∀ max ∈ maxSubtreeLen offset, data.length ≤ max then
    some (b.tree.subtree offset data)
  else none

structure HeadLastHasher (Cv : Type) where
  /-- The chunks taken after the head. -/
  chunks : Nat
  /-- The newest chunk's value, not merged yet. -/
  pending : Option Cv
  /-- The complete subtrees right of the head's, newest first. -/
  stack : List Cv
  /-- The subtrees to merge onto the head's, in order. -/
  headSiblings : List Cv

namespace HeadLastHasher

def new : HeadLastHasher Cv where
  chunks := 0
  pending := none
  stack := []
  headSiblings := []

/-- Merge a value with the complete subtrees, once there are so many chunks; where the head's
is next it is kept for it. -/
def pushUp (b : Blake3 Cv Hash) : (total : Nat) → Cv → (stack headSiblings : List Cv) → List Cv × List Cv
  | total, cv, [], headSiblings =>
    if total % 2 = 0 then ([], headSiblings ++ [cv]) else ([cv], headSiblings)
  | total, cv, left :: stack, headSiblings =>
    if total % 2 = 0 then pushUp b (total / 2) (b.parent left cv) stack headSiblings
    else (cv :: left :: stack, headSiblings)

/-- Push a chunk that is known not to be the last. -/
def push (b : Blake3 Cv Hash) (cv : Cv) (hasher : HeadLastHasher Cv) : HeadLastHasher Cv :=
  -- the head counts as the first chunk
  let (stack, headSiblings) := pushUp b (hasher.chunks + 1) cv hasher.stack hasher.headSiblings
  { hasher with stack, headSiblings }

def update (b : Blake3 Cv Hash) (data : List UInt8) (hasher : HeadLastHasher Cv) :
    Option (HeadLastHasher Cv) :=
  let hasher := match hasher.pending with
    | some previous => { hasher with pending := none }.push b previous
    | none => hasher
  let chunks := hasher.chunks + 1
  (b.finalizeNonRoot (chunks * chunkSize) data).map fun cv => { hasher with chunks, pending := some cv }

def finalize (b : Blake3 Cv Hash) (head : List UInt8) (hasher : HeadLastHasher Cv) : Option Hash :=
  match hasher.pending with
  | none => some (b.hash head)
  | some last =>
    (b.finalizeNonRoot 0 head).map fun cv =>
      b.rootParent (hasher.headSiblings.foldl b.parent cv)
        (hasher.stack.foldl (fun right left => b.parent left right) last)

end HeadLastHasher

/-! ## What the codec writes -/

inductive WorkerEvent where
  | data (chunk : List UInt8)
  | head (chunk : List UInt8)
deriving DecidableEq, Repr

inductive SinkError where
  /-- The driver is gone, or a chunk before was not taken. -/
  | ended
  /-- The archive is shorter than its start header. -/
  | short
deriving DecidableEq, Repr

/-- What was sent to the driver, until it is gone. -/
structure WorkerPort where
  sent : List WorkerEvent
  gone : Bool
deriving DecidableEq, Repr

def WorkerPort.send (event : WorkerEvent) (port : WorkerPort) : Except SinkError WorkerPort :=
  if port.gone then .error .ended else .ok { port with sent := port.sent ++ [event] }

structure ChunkSink where
  port : WorkerPort
  chunk : List UInt8
  written : Nat
  failed : Bool
deriving DecidableEq, Repr

namespace ChunkSink

def new (port : WorkerPort) : ChunkSink where
  port
  chunk := []
  written := 0
  failed := false

/-- Take what fits in the current chunk: how many bytes, and the chunk once it is full. -/
def fill (buf : List UInt8) (sink : ChunkSink) : Except SinkError (Nat × Option (List UInt8) × ChunkSink) :=
  if sink.failed then .error .ended
  else
    let n := min buf.length (chunkSize - sink.chunk.length)
    let chunk := sink.chunk ++ buf.take n
    let sink := { sink with chunk, written := sink.written + n }
    if chunk.length = chunkSize then .ok (n, some chunk, { sink with chunk := [] })
    else .ok (n, none, sink)

/-- Hand a full chunk to the driver; once that failed, all fails. -/
def send (chunk : List UInt8) (sink : ChunkSink) : Except SinkError Unit × ChunkSink :=
  match sink.port.send (.data chunk) with
  | .ok port => (.ok (), { sink with port })
  | .error error => (.error error, { sink with failed := true })

end ChunkSink

structure HeadSink where
  sink : ChunkSink
  head : Option (List UInt8)
deriving DecidableEq, Repr

namespace HeadSink

def new (port : WorkerPort) : HeadSink where
  sink := .new port
  head := none

/-- Write what fits in the current chunk, and say how many bytes. -/
def write (buf : List UInt8) (head : HeadSink) : Except SinkError Nat × HeadSink :=
  match head.sink.fill buf with
  | .error error => (.error error, head)
  | .ok (n, none, sink) => (.ok n, { head with sink })
  | .ok (n, some full, sink) =>
    match head.head with
    | none =>
      (.ok n, {
        sink
        head := some full
      })
    | some _ =>
      match sink.send full with
      | (.ok _, sink) => (.ok n, { head with sink })
      | (.error error, sink) => (.error error, { head with sink })

/-- Send the last chunk, then the first one with its start written over. -/
def finishWithHead (start : List UInt8) (head : HeadSink) : Except SinkError (Nat × WorkerPort) :=
  if head.sink.failed then .error .ended
  else
    let (first, last) := match head.head with
      | some first => (first, some head.sink.chunk)
      | none => (head.sink.chunk, none)
    if first.length < start.length then .error .short
    else
      let patched := start ++ first.drop start.length
      let sent := match last.filter fun last => !last.isEmpty with
        | some last => head.sink.port.send (.data last)
        | none => .ok head.sink.port
      sent.bind fun port => (port.send (.head patched)).map fun port => (head.sink.written, port)

/-- Write one buffer after another, as far as each is taken, and say what was. -/
def writes : List (List UInt8) → HeadSink → Except SinkError (List UInt8 × HeadSink)
  | [], head => .ok ([], head)
  | buf :: bufs, head =>
    match head.write buf with
    | (.ok n, head) => (writes bufs head).map fun (more, head) => (buf.take n ++ more, head)
    | (.error error, _) => .error error

end HeadSink

/-! ## What the driver uploads -/

inductive ArchiveHash (Cv Hash : Type) where
  /-- The chunks come in order, and these bytes did. -/
  | streaming (hashed : List UInt8)
  | headLast (hasher : HeadLastHasher Cv)
  | done (hash : Hash)

inductive ArchiveChunk where
  | next (data : List UInt8)
  | head (data : List UInt8)
deriving DecidableEq, Repr

def ArchiveChunk.data : ArchiveChunk → List UInt8
  | .next data => data
  | .head data => data

def WorkerEvent.chunk : WorkerEvent → ArchiveChunk
  | .data chunk => .next chunk
  | .head chunk => .head chunk

inductive StopError where
  /-- The archive needs more than is free. -/
  | maxStorageReached
  /-- The codec sent the chunks out of order. -/
  | internal
deriving DecidableEq, Repr

structure CompressDriver (Cv Hash : Type) where
  hash : ArchiveHash Cv Hash
  written : Nat
  nextIndex : Nat
  uploads : List (Nat × List UInt8)
  /-- A chunk that waits for memory or for an upload slot. -/
  held : Option ArchiveChunk
  maxBytes : Option Nat
  stopped : Option StopError

namespace CompressDriver

def new (headLast : Bool) (maxBytes : Option Nat) : CompressDriver Cv Hash where
  hash := if headLast then .headLast .new else .streaming []
  written := 0
  -- the first chunk's index is kept for when it comes
  nextIndex := if headLast then 1 else 0
  uploads := []
  held := none
  maxBytes
  stopped := none

def upload (index : Nat) (data : List UInt8) (driver : CompressDriver Cv Hash) : CompressDriver Cv Hash :=
  { driver with
    written := driver.written + data.length
    uploads := driver.uploads ++ [(index, data)] }

def exceedsLimit (needed limit : Nat) : Bool := limit < needed

/-- Upload a chunk, where memory and an upload slot are free, or else hold it. -/
def takeChunk (b : Blake3 Cv Hash) (permit : Bool) (chunk : ArchiveChunk)
    (driver : CompressDriver Cv Hash) : Option (CompressDriver Cv Hash) :=
  if permit = false then some { driver with held := some chunk }
  else if driver.maxBytes.any fun max => exceedsLimit (driver.written + chunk.data.length) max then
    some { driver with stopped := some .maxStorageReached }
  else
    match chunk, driver.hash with
    | .next data, .streaming hashed =>
      some { driver.upload driver.nextIndex data with
        hash := .streaming (hashed ++ data)
        nextIndex := driver.nextIndex + 1 }
    | .next data, .headLast hasher =>
      (hasher.update b data).map fun hasher =>
        { driver.upload driver.nextIndex data with
          hash := .headLast hasher
          nextIndex := driver.nextIndex + 1 }
    | .head data, .headLast hasher =>
      (hasher.finalize b data).map fun hash => { driver.upload 0 data with hash := .done hash }
    | .next _, .done _ => some { driver with stopped := some .internal }
    | .head _, .streaming _ => some { driver with stopped := some .internal }
    | .head _, .done _ => some { driver with stopped := some .internal }

end CompressDriver

/-- A driver, and what the codec sent that it has not taken yet. -/
structure Compressing (Cv Hash : Type) where
  driver : CompressDriver Cv Hash
  coming : List WorkerEvent

inductive CompressMove where
  | event (permit : Bool)
  | advance (permit : Bool)

namespace Compressing

def step (b : Blake3 Cv Hash) (move : CompressMove) (s : Compressing Cv Hash) : Option (Compressing Cv Hash) :=
  match s.driver.stopped, move with
  | some _, _ => none
  | none, .event permit =>
    match s.driver.held, s.coming with
    | none, event :: coming =>
      (s.driver.takeChunk b permit event.chunk).map fun driver => ⟨driver, coming⟩
    | _, _ => none
  | none, .advance permit =>
    match s.driver.held with
    | some chunk => (CompressDriver.takeChunk b permit chunk { s.driver with held := none }).map
        fun driver => ⟨driver, s.coming⟩
    | none => some s

def machine (b : Blake3 Cv Hash) (headLast : Bool) (maxBytes : Option Nat) (sent : List WorkerEvent) :
    Machine (Compressing Cv Hash) CompressMove where
  start := ⟨.new headLast maxBytes, sent⟩
  step := step b

end Compressing

end Blake3

end SyncEngine.Archive
