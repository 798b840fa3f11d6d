import SyncEngine.Collections.Machine
import SyncEngine.Collections.Pieces
import SyncEngine.Transfer.Chunk

/-! # The archive as a codec reads it

The codec asks for one chunk after another, and the feed fetches the chunk asked for, and
more ahead once two were read in a row. Each chunk fetched or held takes memory: the job's
own slot for one chunk, or the client's where it has room.
-/

namespace SyncEngine.Archive

open Collections Transfer

def prefetchChunks : Nat := 4

inductive Permit where
  | slot
  | memory
deriving DecidableEq, Repr

/-- The slot where it is free, or else the client's memory where it has room for so many. -/
def takeMemory : (slot grants : Nat) → Option (Permit × Nat × Nat)
  | slot + 1, grants => some (.slot, slot, grants)
  | 0, grants + 1 => some (.memory, 0, grants)
  | 0, 0 => none

def chunkPlaintextLen (size index : Nat) : Nat := min (size - index * chunkSize) chunkSize

structure ReadyChunk where
  index : Nat
  data : List UInt8
  permit : Permit
deriving DecidableEq, Repr

structure ArchiveInput where
  size : Nat
  chunks : Nat
  nextFetch : Nat
  /-- The chunks being fetched, in the order they were asked for. -/
  fetches : List (Nat × Permit)
  ready : List ReadyChunk
  reading : Option Permit
  served : Nat
  run : Nat
  hashed : List UInt8
  sequential : Bool
  ask : Option Nat
  slot : Nat
deriving DecidableEq, Repr

def wholeChunk {Error : Type} (short : Error) (size index : Nat) (data : List UInt8) :
    Except Error (List UInt8) :=
  if data.length = chunkPlaintextLen size index then .ok data else .error short

namespace ArchiveInput

def new (size : Nat) : ArchiveInput where
  size
  chunks := pieceCount chunkSize size
  nextFetch := 0
  fetches := []
  ready := []
  reading := none
  served := 0
  run := 0
  hashed := []
  sequential := true
  ask := none
  slot := 1

def codecDone (input : ArchiveInput) : ArchiveInput :=
  { input with reading := none, slot := input.slot + input.reading.toList.count .slot }

def dropFetched (input : ArchiveInput) : ArchiveInput :=
  { input with
    fetches := []
    ready := []
    slot := input.slot + (input.ready.map ReadyChunk.permit ++ input.fetches.map Prod.snd).count .slot }

/-- Answer what was asked for, where it is in, with the chunk asked for and its data. -/
def serveAsk (input : ArchiveInput) : Option (Nat × List UInt8) × ArchiveInput :=
  match input.ask, input.ready with
  | some index, chunk :: ready =>
    if chunk.index = index then
      (some (index, chunk.data),
        { input with
          ready
          ask := none
          reading := some chunk.permit
          served := input.served + 1
          run := input.run + 1
          hashed := input.hashed ++ chunk.data })
    else (none, input)
  | _, _ => (none, input)

def askFor (index : Nat) (input : ArchiveInput) : Option (Nat × List UInt8) × ArchiveInput :=
  let input := input.codecDone
  let input :=
    if index = input.served then input
    else
      { input.dropFetched with
        sequential := false
        nextFetch := index
        served := index
        run := 0 }
  { input with ask := some index }.serveAsk

/-- Fetch so many chunks at most, with so much of the client's memory. -/
def fetchAhead (ahead : Nat) : (room grants : Nat) → ArchiveInput → ArchiveInput
  | 0, _, input => input
  | room + 1, grants, input =>
    -- short of a run, only the chunk the codec waits for
    if input.nextFetch < input.chunks ∧ (1 < ahead ∨ input.ask.isSome ∧ input.nextFetch ≤ input.served) then
      match takeMemory input.slot grants with
      | none => input
      | some (permit, slot, grants) =>
        fetchAhead ahead room grants
          { input with
            slot
            nextFetch := input.nextFetch + 1
            fetches := input.fetches ++ [(input.nextFetch, permit)] }
    else input

/-- Answer the codec, and fetch ahead with so much of the client's memory. -/
def advance (grants : Nat) (input : ArchiveInput) : Option (Nat × List UInt8) × ArchiveInput :=
  let (answer, input) := input.serveAsk
  let ahead := if 2 ≤ input.run then prefetchChunks else 1
  (answer, fetchAhead ahead (ahead - (input.fetches.length + input.ready.length)) grants input)

/-- Take a fetched chunk in, or give what it took back and fail. -/
def fetchFinished {Error : Type} (short : Error) (index : Nat) (permit : Permit)
    (result : Except Error (List UInt8)) (input : ArchiveInput) :
    Except Error (Option (Nat × List UInt8) × ArchiveInput) :=
  match result.bind (wholeChunk short input.size index) with
  | .ok data => .ok (serveAsk { input with ready := input.ready ++ [⟨index, data, permit⟩] })
  | .error error => .error error

/-- Move the chunk being read onto the job's slot, where that is free. -/
def holdOnSlot (input : ArchiveInput) : ArchiveInput :=
  match input.reading, input.slot with
  | some permit, slot + 1 => { input with reading := some .slot, slot := slot + [permit].count .slot }
  | _, _ => input

def dropPrefetched (input : ArchiveInput) : ArchiveInput :=
  { input.dropFetched with nextFetch := input.served }

def waitOutPause (input : ArchiveInput) : ArchiveInput := input.dropPrefetched.holdOnSlot

/-- The hash of the whole archive, where the codec read it front to back. -/
def readWhole {Hash : Type} (hash : List UInt8 → Hash) (input : ArchiveInput) : Option Hash :=
  if input.sequential ∧ input.served = input.chunks then some (hash input.hashed) else none

def holders (input : ArchiveInput) : List Permit :=
  input.reading.toList ++ (input.ready.map ReadyChunk.permit ++ input.fetches.map Prod.snd)

end ArchiveInput

/-- A codec's feed, with what was asked for and what was answered. -/
structure Feed where
  input : ArchiveInput
  asked : List Nat
  answers : List (Nat × List UInt8)
deriving DecidableEq, Repr

inductive FeedMove (Error : Type) where
  | ask (index : Nat)
  | advance (grants : Nat)
  | fetched (result : Except Error (List UInt8))
  | pause
  | codecDone

namespace Feed

def after (feed : Feed) (answered : Option (Nat × List UInt8) × ArchiveInput) : Feed where
  input := answered.2
  asked := feed.asked
  answers := feed.answers ++ answered.1.toList

/-- A step of the feed, with a codec that asks for a chunk of the archive once it was answered. -/
def step {Error : Type} (short : Error) : FeedMove Error → Feed → Option Feed
  | .ask index, feed =>
    if feed.input.ask = none ∧ index < feed.input.chunks then
      some ({ feed with asked := feed.asked ++ [index] }.after (feed.input.askFor index))
    else none
  | .advance grants, feed => some (feed.after (feed.input.advance grants))
  | .fetched result, feed =>
    match feed.input.fetches with
    | [] => none
    | (index, permit) :: fetches =>
      -- a failure ends the job
      match { feed.input with fetches }.fetchFinished short index permit result with
      | .ok answered => some (feed.after answered)
      | .error _ => none
  | .pause, feed => some { feed with input := feed.input.waitOutPause }
  | .codecDone, feed => some { feed with input := feed.input.codecDone }

def machine {Error : Type} (short : Error) (size : Nat) : Machine Feed (FeedMove Error) where
  start :=
    {
      input := .new size
      asked := []
      answers := []
    }
  step := step short

end Feed

/-- Where a fetch gave as many bytes as the chunk has, they are the chunk's. -/
def Truthful {Error : Type} (archive : List UInt8) (feed : Feed) : FeedMove Error → Prop
  | .fetched (.ok data) => ∀ index permit rest, feed.input.fetches = (index, permit) :: rest →
      data.length = chunkPlaintextLen archive.length index → data = piece chunkSize archive index
  | _ => True

end SyncEngine.Archive
