import SyncEngine.Collections.Machine
import SyncEngine.Collections.Pieces
import SyncEngine.Transfer.Chunk

/-! # The file reader

The reader hands out the bytes of a range of a file, fetched chunk by chunk ahead of where
it reads. Memory for a fetch comes from the budget at once, from an acquire that is waited
for, or from a chunk that was read. A read of the whole file is checked against the hash
the file declares.
-/

namespace SyncEngine.Transfer

open Collections

/-- A file by the plaintext its chunks decrypt to, one after the other. -/
structure RemoteFile (Hash : Type) where
  plaintext : List UInt8
  chunks : Nat
  hash : Option Hash

namespace RemoteFile

variable {Hash : Type} (file : RemoteFile Hash)

def size : Nat := file.plaintext.length

def chunk (chunkIdx : Nat) : List UInt8 := piece chunkSize file.plaintext chunkIdx

end RemoteFile

def checkedMul (a b : Nat) : Option Nat := if a * b < 2 ^ 64 then some (a * b) else none

def chunksConsistentWithSize (chunks size : Nat) : Bool :=
  match chunks with
  | 0 => size = 0
  | lastChunkIdx + 1 =>
    match checkedMul chunkSize lastChunkIdx with
    | none => false
    | some lastChunkStart =>
      lastChunkStart ≤ size && size - lastChunkStart ≤ chunkSize

/-- What a chunk takes to download, up to the last one. -/
def encryptedChunkSize (chunks size chunkIdx : Nat) : Option Nat :=
  match chunks with
  | 0 => none
  | lastChunkIdx + 1 =>
    if chunkIdx < lastChunkIdx then some fullChunk
    else if chunkIdx = lastChunkIdx then
      match checkedMul chunkSize chunkIdx with
      | none => none
      | some chunkStart =>
        if size < chunkStart then none
        else if size - chunkStart + chunkSizeExtra < 2 ^ 32 then
          some (size - chunkStart + chunkSizeExtra)
        else none
    else none

/-- A chunk that was fetched, and how far it has been read. -/
structure Cursor where
  data : List UInt8
  position : Nat

/-- A chunk being fetched, and where it is read from. -/
structure Fetch where
  chunkIdx : Nat
  position : Nat
deriving DecidableEq, Repr

inductive ContentCheck (Hash : Type) where
  | unchecked
  | hashing (expected : Hash) (hashed : List UInt8)
  | matched
  | mismatched

inductive ReadError where
  | inconsistent (chunks size : Nat)
  | fetchFailed
  | contentHashMismatch
deriving DecidableEq, Repr

/-- What a poll answers, or that it panics. -/
inductive ReadAnswer (α : Type) where
  | pending
  | ok (value : α)
  | err (error : ReadError)
  | panicked
deriving DecidableEq, Repr

def ReadAnswer.map {α β : Type} (f : α → β) : ReadAnswer α → ReadAnswer β
  | .pending => .pending
  | .ok value => .ok (f value)
  | .err error => .err error
  | .panicked => .panicked

structure ReadTurn where
  /-- For how many chunks the budget has memory at once. -/
  tries : Nat
  granted : Bool
  /-- The fetches found done, in order, and whether each failed. -/
  arrivals : List Bool

structure Reader (Hash : Type) where
  file : RemoteFile Hash
  index : Nat
  limit : Nat
  nextChunkIdx : Nat
  currChunk : Option Cursor
  futures : List Fetch
  allocating : Bool
  maxBufferSize : Nat
  contentCheck : ContentCheck Hash
  fetched : List Nat

namespace Reader

variable {Hash : Type}

def consistent (reader : Reader Hash) : Bool :=
  chunksConsistentWithSize reader.file.chunks reader.file.size

/-- What the next chunk takes, while the range has one. -/
def nextChunkSize (reader : Reader Hash) : Option Nat :=
  if reader.limit ≤ reader.index then none
  else
    match checkedMul chunkSize reader.nextChunkIdx with
    | none => none
    | some chunkStart =>
      if reader.limit ≤ chunkStart then none
      else encryptedChunkSize reader.file.chunks reader.file.size reader.nextChunkIdx

def withinBufferBudget (reader : Reader Hash) (size : Nat) : Bool :=
  let currentAllocated := ((if reader.allocating then 1 else 0) + reader.futures.length) * chunkSize
  currentAllocated + size ≤ reader.maxBufferSize

def allocateNextChunk (reader : Reader Hash) : Bool :=
  match reader.nextChunkSize with
  | none => false
  | some size =>
    let pipelineEmpty := reader.futures.isEmpty && !reader.allocating
    pipelineEmpty || reader.withinBufferBudget size

/-- Begin the next chunk's fetch, if the range has one. -/
def pushFetchNextChunk (reader : Reader Hash) : Reader Hash :=
  match reader.nextChunkSize with
  | none => reader
  | some _ =>
    let firstChunk := reader.index / chunkSize = reader.nextChunkIdx
    let fetch :=
      {
        chunkIdx := reader.nextChunkIdx
        position := if firstChunk then reader.index % chunkSize else 0
      }
    { reader with
      nextChunkIdx := reader.nextChunkIdx + 1
      futures := reader.futures ++ [fetch]
      fetched := reader.fetched ++ [reader.nextChunkIdx] }

/-- Fetch ahead with the memory the budget has at once, as far as the reader's own goes. -/
def fetchAhead : Nat → Reader Hash → Reader Hash
  | 0, reader => reader
  | tries + 1, reader =>
    match reader.nextChunkSize with
    | none => reader
    | some size =>
      if reader.withinBufferBudget size then fetchAhead tries reader.pushFetchNextChunk
      else reader

def build (file : RemoteFile Hash) (start end' maxBufferSize : Option Nat) (tries : Nat) : Reader Hash :=
  let limit := min (end'.getD file.size) file.size
  let index := min (start.getD 0) limit
  let contentCheck : ContentCheck Hash :=
    if index = 0 ∧ limit = file.size then
      match file.hash with
      | some expected => .hashing expected []
      | none => .unchecked
    else .unchecked
  let reader : Reader Hash :=
    {
      file
      index
      limit
      nextChunkIdx := index / chunkSize
      currChunk := none
      futures := []
      allocating := false
      maxBufferSize := maxBufferSize.getD file.size
      contentCheck
      fetched := []
    }
  if reader.consistent then
    let reader := fetchAhead tries reader
    { reader with allocating := reader.allocateNextChunk }
  else reader

/-- The next fetched chunk, in order. -/
inductive Fetched where
  | pending
  | chunk (cursor : Cursor)
  | failed (error : ReadError)
  | none

/-- Hash a chunk, up to the file's size. -/
def hashChunk (data : List UInt8) (reader : Reader Hash) : Reader Hash :=
  match reader.contentCheck with
  | .hashing expected hashed =>
    { reader with
      contentCheck := .hashing expected (hashed ++ data.take (reader.file.size - hashed.length)) }
  | _ => reader

def coversTheFile (reader : Reader Hash) : Bool :=
  match reader.contentCheck with
  | .hashing _ hashed => reader.file.size ≤ hashed.length
  | _ => false

section Poll

variable [DecidableEq Hash] (blake3 : List UInt8 → Hash)

/-- Check what was hashed once it is all, and fail instead of what was fetched. -/
def finishCheck (finished : Bool) (fetched : Fetched) (reader : Reader Hash) : Fetched × Reader Hash :=
  match finished, reader.contentCheck with
  | true, .hashing expected hashed =>
    if blake3 hashed = expected then (fetched, { reader with contentCheck := .matched })
    else (.failed .contentHashMismatch, { reader with contentCheck := .mismatched })
  | _, _ => (fetched, reader)

def pollNextFetched (arrival : Option Bool) (reader : Reader Hash) : Fetched × Reader Hash :=
  match reader.contentCheck, reader.futures, arrival with
  | .mismatched, _, _ => (.failed .contentHashMismatch, reader)
  | _, [], _ => finishCheck blake3 reader.nextChunkSize.isNone .none reader
  | _, _ :: _, none => (.pending, reader)
  | _, _ :: futures, some true => (.failed .fetchFailed, { reader with futures })
  | _, fetch :: futures, some false =>
    let data := reader.file.chunk fetch.chunkIdx
    let hashed := hashChunk data { reader with futures }
    finishCheck blake3 hashed.coversTheFile (.chunk ⟨data, fetch.position⟩) hashed

/-- Fetch ahead, and take up the acquire under way. Whether it still pends with chunks left
to fetch. -/
def pollReadAhead (turn : ReadTurn) (reader : Reader Hash) : Bool × Reader Hash :=
  let reader := fetchAhead turn.tries reader
  if !reader.allocating then (false, reader)
  else
    let taken := { reader with allocating := false }
    if turn.granted then
      let pushed := taken.pushFetchNextChunk
      (false, { pushed with allocating := pushed.allocateNextChunk })
    else if taken.nextChunkSize.isSome then (true, reader)
    else (false, taken)

/-- Read from the chunk at hand, and fetch another with its memory once it is read. -/
def readNextChunk (bufLen : Nat) (reader : Reader Hash) : ReadAnswer (List UInt8) × Reader Hash :=
  match reader.currChunk with
  | none => (.ok [], reader)
  | some cursor =>
    let taken := { reader with currChunk := none }
    if reader.limit < reader.index then (.panicked, taken)
    else
      let maxRead := min (reader.limit - reader.index) bufLen
      let bytes := (cursor.data.drop cursor.position).take maxRead
      let position := cursor.position + bytes.length
      let moved := { taken with index := reader.index + bytes.length }
      if position < cursor.data.length ∧ moved.index < moved.limit then
        (.ok bytes, { moved with currChunk := some { cursor with position } })
      else (.ok bytes, moved.pushFetchNextChunk)

def readLoop (bufLen : Nat) (shouldPend : Bool) :
    List Bool → List UInt8 → Reader Hash → ReadAnswer (List UInt8) × Reader Hash
  | arrivals, read, reader =>
    match reader.pollNextFetched blake3 arrivals.head? with
    | (.chunk cursor, reader) =>
      match readNextChunk (bufLen - read.length) { reader with currChunk := some cursor } with
      | (.ok bytes, reader) =>
        if bufLen ≤ (read ++ bytes).length then (.ok (read ++ bytes), reader)
        else
          match arrivals with
          -- a chunk came from an arrival
          | [] => (.pending, reader)
          | _ :: arrivals => readLoop bufLen shouldPend arrivals (read ++ bytes) reader
      | stopped => stopped
    | (.failed error, reader) => (.err error, reader)
    | (.none, reader) =>
      (if shouldPend = true ∧ read = [] then .pending else .ok read, reader)
    | (.pending, reader) => (if read = [] then .pending else .ok read, reader)

def inconsistentError (reader : Reader Hash) : ReadError :=
  .inconsistent reader.file.chunks reader.file.size

def pollRead (bufLen : Nat) (turn : ReadTurn) (reader : Reader Hash) :
    ReadAnswer (List UInt8) × Reader Hash :=
  if reader.consistent then
    let (shouldPend, reader) := reader.pollReadAhead turn
    match readNextChunk bufLen reader with
    | (.ok read, reader) =>
      if bufLen ≤ read.length then (.ok read, reader)
      else readLoop blake3 bufLen shouldPend turn.arrivals read reader
    | stopped => stopped
  else (.err reader.inconsistentError, reader)

def unread (cursor : Cursor) (index limit : Nat) : List UInt8 :=
  let wanted := limit - index
  (cursor.data.take (min (cursor.position + wanted) cursor.data.length)).drop cursor.position

def fillLoop (shouldPend : Bool) :
    List Bool → Reader Hash → ReadAnswer (List UInt8) × Reader Hash
  | arrivals, reader =>
    match reader.currChunk with
    | some cursor => (.ok (unread cursor reader.index reader.limit), reader)
    | none =>
      match reader.pollNextFetched blake3 arrivals.head? with
      | (.chunk cursor, reader) =>
        if unread cursor reader.index reader.limit ≠ [] then
          (.ok (unread cursor reader.index reader.limit), { reader with currChunk := some cursor })
        else
          match arrivals with
          -- a chunk came from an arrival
          | [] => (.pending, reader)
          | _ :: arrivals => fillLoop shouldPend arrivals reader.pushFetchNextChunk
      | (.failed error, reader) => (.err error, reader)
      | (.none, reader) => (if shouldPend then .pending else .ok [], reader)
      | (.pending, reader) => (.pending, reader)

def pollFillBuf (turn : ReadTurn) (reader : Reader Hash) : ReadAnswer (List UInt8) × Reader Hash :=
  if reader.consistent then
    let (shouldPend, reader) := reader.pollReadAhead turn
    fillLoop blake3 shouldPend turn.arrivals reader
  else (.err reader.inconsistentError, reader)

/-- Take so many of the bytes at hand: these, and the reader after them. -/
def consume (amt : Nat) (reader : Reader Hash) : List UInt8 × Reader Hash :=
  match reader.currChunk with
  | none => ([], reader)
  | some cursor =>
    let bytes := (unread cursor reader.index reader.limit).take amt
    let cursor := { cursor with position := cursor.position + bytes.length }
    let moved := { reader with currChunk := none, index := reader.index + bytes.length }
    if unread cursor moved.index moved.limit = [] then (bytes, moved.pushFetchNextChunk)
    else (bytes, { moved with currChunk := some cursor })

def pollNextChunk (turn : ReadTurn) (reader : Reader Hash) :
    ReadAnswer (Option (List UInt8)) × Reader Hash :=
  if reader.consistent then
    let armed :=
      if reader.futures.isEmpty && !reader.allocating then
        { reader with allocating := reader.allocateNextChunk }
      else reader
    let (waitingForMemory, reader) := armed.pollReadAhead turn
    match reader.pollNextFetched blake3 turn.arrivals.head? with
    | (.pending, reader) => (.pending, reader)
    | (.chunk cursor, reader) =>
      let skip := cursor.position
      let wanted := reader.limit - reader.index
      let data := (cursor.data.take (skip + wanted)).drop (min skip (cursor.data.take (skip + wanted)).length)
      (.ok (some data), { reader with index := reader.index + data.length })
    | (.failed error, reader) => (.err error, reader)
    | (.none, reader) => (if waitingForMemory then .pending else .ok none, reader)
  else (.err reader.inconsistentError, reader)

end Poll

def recycleChunk (reader : Reader Hash) : Reader Hash := reader.pushFetchNextChunk

def addReservation (reader : Reader Hash) : Reader Hash := reader.pushFetchNextChunk

end Reader

structure ReadSession (Hash : Type) where
  reader : Reader Hash
  handed : List UInt8
  stopped : Bool

inductive ReadMove where
  | read (bufLen : Nat) (turn : ReadTurn)
  | fill (turn : ReadTurn)
  | consume (amt : Nat)
  | next (turn : ReadTurn)
  | recycle
  | reserve

namespace ReadSession

variable {Hash : Type} [DecidableEq Hash] (blake3 : List UInt8 → Hash)

def answered (session : ReadSession Hash) (answer : ReadAnswer (List UInt8)) (reader : Reader Hash) :
    ReadSession Hash :=
  match answer with
  | .pending => { session with reader }
  | .ok bytes => { session with reader, handed := session.handed ++ bytes }
  | .err _ => { session with reader, stopped := true }
  | .panicked => { session with reader, stopped := true }

def step : ReadMove → ReadSession Hash → Option (ReadSession Hash)
  | .read bufLen turn, session =>
    let (answer, reader) := session.reader.pollRead blake3 bufLen turn
    some (session.answered answer reader)
  | .fill turn, session =>
    let (answer, reader) := session.reader.pollFillBuf blake3 turn
    -- what is filled is handed out by consuming it
    some (session.answered (answer.map fun _ => []) reader)
  | .consume amt, session =>
    let (bytes, reader) := session.reader.consume amt
    some (session.answered (.ok bytes) reader)
  | .next turn, session =>
    let (answer, reader) := session.reader.pollNextChunk blake3 turn
    some (session.answered (answer.map fun data => data.getD []) reader)
  | .recycle, session => some { session with reader := session.reader.recycleChunk }
  | .reserve, session => some { session with reader := session.reader.addReservation }

def machine (file : RemoteFile Hash) (start end' maxBufferSize : Option Nat) (tries : Nat) :
    Machine (ReadSession Hash) ReadMove where
  start :=
    {
      reader := Reader.build file start end' maxBufferSize tries
      handed := []
      stopped := false
    }
  step := step blake3

end ReadSession

/-- Bytes are read, or filled and consumed, until a poll fails. -/
def ByBytes (Hash : Type) (session : ReadSession Hash) : ReadMove → Prop
  | .read _ _ => session.stopped = false
  | .fill _ => session.stopped = false
  | .consume _ => session.stopped = false
  | .reserve => session.stopped = false
  | _ => False

/-- Chunks are read, each recycled or dropped, until a poll fails. -/
def ByReadChunks (Hash : Type) (session : ReadSession Hash) : ReadMove → Prop
  | .next _ => session.stopped = false
  | .recycle => session.stopped = false
  | .reserve => session.stopped = false
  | _ => False

end SyncEngine.Transfer
