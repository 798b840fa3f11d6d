import SyncEngine.Collections.Machine
import SyncEngine.Transfer.Writer

/-! # Closing a file writer

Closing uploads the chunk that is left and waits for every upload. What the writer has
counted and hashed is then passed on, under the drive lock, to complete the upload. A
session is a writer with its caller: the bytes it took, and the chunks the caller has.
-/

namespace SyncEngine.Transfer

open Collections

inductive Answer where
  | pending
  | done
  | failed
deriving DecidableEq, Repr

structure CloseTurn where
  /-- The uploads found done, one after the other. -/
  done : List UploadDone
  /-- Whether the EXIF parser is still at work. -/
  teePending : Bool
  /-- The drive lock, and the caller's confirmation. -/
  lock : Answer
  complete : Answer
  finalize : Answer

structure UploadCompletion (Hash : Type) where
  written : Nat
  numChunks : Nat
  hash : Hash
deriving DecidableEq

/-- What a writer past its uploads goes on with, and the chunks it has uploaded. -/
structure Closing (Hash : Type) where
  completion : UploadCompletion Hash
  uploaded : List (Nat × List UInt8)

inductive FileWriter (Hash : Type) where
  | uploading (writer : Writer)
  | waitingForDriveLock (closing : Closing Hash)
  | completing (closing : Closing Hash)
  | finalizing (closing : Closing Hash)
  | complete (closing : Closing Hash)
  | error (failure : WriteError)

/-- Upload the chunk that is left, and wait for the uploads and the EXIF parser. -/
def Writer.pollClose (turn : CloseTurn) (writer : Writer) : Outcome Unit × Writer :=
  let writer :=
    match writer.currChunk with
    | some lastChunk => { writer with currChunk := none }.pushUploadNextChunk lastChunk
    | none => writer
  match writer.drain turn.done with
  | (.ok (), writer) => (if turn.teePending then .pending else .ok (), writer)
  | stopped => stopped

namespace FileWriter

variable {Hash : Type}

/-- Call the uploading phase; any later phase answers with an error. -/
def uploadingPhase {α : Type} (call : Writer → Outcome α × Writer) :
    FileWriter Hash → Outcome α × FileWriter Hash
  | uploading writer =>
    let (answer, writer) := call writer
    (answer, uploading writer)
  | error failure => (.err failure, error failure)
  | later => (.err .completed, later)

def pollWrite (buf : List UInt8) (turn : Turn) (writer : FileWriter Hash) :
    Outcome Nat × FileWriter Hash :=
  writer.uploadingPhase (Writer.pollWrite buf turn)

def pollNextChunk (turn : Turn) (writer : FileWriter Hash) : Outcome Chunk × FileWriter Hash :=
  writer.uploadingPhase (Writer.pollNextChunk turn)

def submitChunk (chunk : Chunk) (writer : FileWriter Hash) : Outcome Unit × FileWriter Hash :=
  writer.uploadingPhase fun writer => (.ok (), writer.submitChunk chunk)

def closeFinalizing (turn : CloseTurn) (closing : Closing Hash) : Outcome Unit × FileWriter Hash :=
  match turn.finalize with
  | .pending => (.pending, finalizing closing)
  | .done => (.ok (), complete closing)
  | .failed => (.err .closeFailed, error .closeFailed)

def closeCompleting (turn : CloseTurn) (closing : Closing Hash) : Outcome Unit × FileWriter Hash :=
  match turn.complete with
  | .pending => (.pending, completing closing)
  | .done => closeFinalizing turn closing
  | .failed => (.err .closeFailed, error .closeFailed)

def closeWaiting (turn : CloseTurn) (closing : Closing Hash) : Outcome Unit × FileWriter Hash :=
  match turn.lock with
  | .pending => (.pending, waitingForDriveLock closing)
  | .done => closeCompleting turn closing
  | .failed => (.err .closeFailed, error .closeFailed)

def closingOf (blake3 : List UInt8 → Hash) (writer : Writer) : Closing Hash where
  completion :=
    {
      written := writer.written
      numChunks := writer.nextChunkIdx
      hash := blake3 writer.hashed
    }
  uploaded := writer.uploaded

def pollClose (blake3 : List UInt8 → Hash) (turn : CloseTurn) :
    FileWriter Hash → Outcome Unit × FileWriter Hash
  | uploading writer =>
    match writer.pollClose turn with
    | (.ok (), writer) => closeWaiting turn (closingOf blake3 writer)
    | (.pending, writer) => (.pending, uploading writer)
    | (.err failure, _) => (.err failure, error .closeFailed)
    | (.panicked, _) => (.panicked, error .closeFailed)
  | waitingForDriveLock closing => closeWaiting turn closing
  | completing closing => closeCompleting turn closing
  | finalizing closing => closeFinalizing turn closing
  | complete closing => (.ok (), complete closing)
  | error failure => (.err failure, error failure)

end FileWriter

structure Session (Hash : Type) where
  writer : FileWriter Hash
  accepted : List UInt8
  /-- The chunks the caller has been handed and has not submitted. -/
  hand : List Chunk
  closing : Bool

inductive SessionMove where
  | write (buf : List UInt8) (turn : Turn)
  | next (turn : Turn)
  /-- Fill the chunk at a place in the hand with bytes, and submit it. -/
  | submit (place : Nat) (bytes : List UInt8)
  | close (turn : CloseTurn)

namespace Session

variable {Hash : Type} (blake3 : List UInt8 → Hash)

def step : SessionMove → Session Hash → Option (Session Hash)
  | .write buf turn, session =>
    let (answer, writer) := session.writer.pollWrite buf turn
    let taken := match answer with
      | .ok n => buf.take n
      | _ => []
    some { session with writer, accepted := session.accepted ++ taken }
  | .next turn, session =>
    let (answer, writer) := session.writer.pollNextChunk turn
    let handed := match answer with
      | .ok chunk => [chunk]
      | _ => []
    some { session with writer, hand := session.hand ++ handed }
  | .submit place bytes, session =>
    (session.hand[place]?).map fun chunk =>
      { session with
        writer := (session.writer.submitChunk { chunk with data := bytes }).2
        accepted := session.accepted ++ bytes
        hand := session.hand.eraseIdx place }
  | .close turn, session =>
    some { session with writer := (session.writer.pollClose blake3 turn).2, closing := true }

/-- Sessions with a writer for a file of a declared size, or of none. -/
def machine (size : Option Nat) : Machine (Session Hash) SessionMove where
  start :=
    {
      writer := .uploading (Writer.new size)
      accepted := []
      hand := []
      closing := false
    }
  step := step blake3

end Session

/-- Buffers are written, none past the declared size, and then the writer is closed. -/
def ByWrites (Hash : Type) (size : Option Nat) (session : Session Hash) : SessionMove → Prop
  | .write buf turn =>
    session.closing = false ∧ buf ≠ [] ∧
      (∀ declared, size = some declared → session.accepted.length + buf.length ≤ declared) ∧
      ∀ upload ∈ turn.done, upload.failed = false
  | .close turn => ∀ upload ∈ turn.done, upload.failed = false
  | _ => False

/-- Data is filled into chunks, each to its capacity or to the data's end, and then the
writer is closed. -/
def ByChunks (Hash : Type) (data : List UInt8) (session : Session Hash) : SessionMove → Prop
  | .next turn => session.closing = false ∧ ∀ upload ∈ turn.done, upload.failed = false
  | .submit place bytes =>
    session.closing = false ∧ ∃ chunk, session.hand[place]? = some chunk ∧
      bytes = (data.drop session.accepted.length).take chunk.capacity
  | .close turn => ∀ upload ∈ turn.done, upload.failed = false
  | _ => False

end SyncEngine.Transfer
