import SyncEngine.Collections.Pieces
import SyncEngine.Transfer.Chunk

/-! # The file writer

The writer takes a file's bytes by the buffer, or by the chunk, and uploads them in whole
chunks. Memory for a chunk is granted, or comes back from an upload that is done; what one
poll gets of either is up to the budget and the network. Closing uploads what is left and
completes the upload with the number of bytes, of chunks, and their hash.
-/

namespace SyncEngine.Transfer

open Collections

inductive WriteError where
  | tooLong (declared : Nat)
  | uploadFailed
  | pastEnd
  | completed
  | closeFailed
deriving DecidableEq, Repr

/-- What a poll answers, or that it panics. -/
inductive Outcome (α : Type) where
  | pending
  | ok (value : α)
  | err (error : WriteError)
  | panicked
deriving DecidableEq, Repr

/-- An upload that is found done, by its place among those in flight. -/
structure UploadDone where
  place : Nat
  failed : Bool
deriving DecidableEq, Repr

structure Turn where
  /-- Whether the EXIF tee still holds bytes back. -/
  teeBlocked : Bool
  /-- How many polls of a memory acquire are granted before one pends. -/
  grants : Nat
  /-- The uploads found done, one after the other. -/
  done : List UploadDone

structure Writer where
  size : Option Nat
  nextChunkIdx : Nat
  written : Nat
  currChunk : Option Chunk
  /-- Chunks to write into, the last one got first. -/
  allocatedChunks : List Chunk
  /-- The memory an acquire that is under way asks for. -/
  allocFuture : Option Nat
  /-- The memory of each chunk whose upload is in flight. -/
  futures : List Nat
  hashed : List UInt8
  /-- Every chunk handed to the server so far, with its number. -/
  uploaded : List (Nat × List UInt8)

namespace Writer

def new (size : Option Nat) : Writer where
  size
  nextChunkIdx := 0
  written := 0
  currChunk := none
  allocatedChunks := []
  allocFuture := none
  futures := []
  hashed := []
  uploaded := []

def wouldExceedKnownSize (knownSize : Option Nat) (written bufLen : Nat) : Bool :=
  knownSize.any (fun size => size ≤ written) && 0 < bufLen

/-- The memory the next chunk takes. It panics where the chunks so far are past the declared
size, or where the rest does not fit 32 bits. -/
def nextChunkSize (writer : Writer) : Outcome (Option Nat) :=
  match writer.size with
  | some 0 => .ok none
  | none => .ok (some fullChunk)
  | some size =>
    if writer.nextChunkIdx < size / chunkSize then .ok (some fullChunk)
    else if size < writer.nextChunkIdx * chunkSize then .panicked
    else
      let remaining := size - writer.nextChunkIdx * chunkSize + chunkSizeExtra
      if remaining < 2 ^ 32 then .ok (some remaining) else .panicked

def pushUploadNextChunk (writer : Writer) (outData : Chunk) : Writer :=
  { writer with
    nextChunkIdx := writer.nextChunkIdx + 1
    hashed := writer.hashed ++ outData.data
    uploaded := writer.uploaded ++ [(writer.nextChunkIdx, outData.data)]
    futures := writer.futures ++ [outData.size] }

/-- Write into a chunk taken out of the writer, and keep it or upload it. -/
def fillChunk (writer : Writer) (chunk : Chunk) (buf : List UInt8) : Nat × Writer :=
  let (written, chunk) := chunk.write (buf.take chunkSize)
  let writer := { writer with written := writer.written + written }
  if chunk.data.length < chunkSize then (written, { writer with currChunk := some chunk })
  else (written, writer.pushUploadNextChunk chunk)

def writeNextChunk (writer : Writer) (buf : List UInt8) : Outcome Nat × Writer :=
  if wouldExceedKnownSize writer.size writer.written buf.length then
    (.err (.tooLong (writer.size.getD 0)), writer)
  else
    match writer.currChunk, writer.allocatedChunks with
    | some chunk, _ =>
      let (written, writer) := { writer with currChunk := none }.fillChunk chunk buf
      (.ok written, writer)
    | none, chunk :: allocatedChunks =>
      let (written, writer) := { writer with allocatedChunks }.fillChunk chunk buf
      (.ok written, writer)
    | none, [] =>
      match writer.nextChunkSize with
      | .ok none => (.ok 0, writer)
      | .ok (some size) =>
        (.ok 0, { writer with allocFuture := some (writer.allocFuture.getD size) })
      | _ => (.panicked, writer)

/-! ## Writing a buffer -/

section PollWrite

variable (buf : List UInt8)

/-- Take the uploads that are done, and write on into their chunks. -/
def drainLoop (shouldPend : Bool) : List UploadDone → Nat → Writer → Outcome Nat × Writer
  | done, written, writer =>
    if writer.futures = [] then
      (if shouldPend = true ∧ written = 0 then .pending else .ok written, writer)
    else
      let waiting := if 0 < written then Outcome.ok written else .pending
      match done with
      | [] => (waiting, writer)
      | upload :: done =>
        match writer.futures[upload.place]? with
        | none => (waiting, writer)
        | some memory =>
          let writer := { writer with futures := writer.futures.eraseIdx upload.place }
          if upload.failed then (.err .uploadFailed, writer)
          else
            match writer.nextChunkSize with
            | .ok next =>
              let writer :=
                { writer with
                  allocatedChunks :=
                    if next.isSome then Chunk.new memory :: writer.allocatedChunks else [] }
              if written < buf.length then
                match writer.writeNextChunk (buf.drop written) with
                | (.ok n, writer) =>
                  if buf.length ≤ written + n then (.ok (written + n), writer)
                  else drainLoop shouldPend done (written + n) writer
                | stopped => stopped
              else (.ok written, writer)
            | _ => (.panicked, writer)

/-- Take the memory that is granted, and write on into it. -/
def grantLoop (done : List UploadDone) : Nat → Nat → Writer → Outcome Nat × Writer
  | grants, written, writer =>
    match writer.allocFuture with
    | none => drainLoop buf false done written writer
    | some memory =>
      let taken := { writer with allocFuture := none }
      match taken.nextChunkSize with
      | .ok none => drainLoop buf false done written { taken with allocatedChunks := [] }
      | .ok (some _) =>
        match grants with
        | 0 => drainLoop buf true done written writer
        | grants + 1 =>
          let granted :=
            { taken with allocatedChunks := Chunk.new memory :: taken.allocatedChunks }
          match granted.writeNextChunk (buf.drop written) with
          | (.ok n, writer) =>
            if buf.length ≤ written + n then (.ok (written + n), writer)
            else grantLoop done grants (written + n) writer
          | stopped => stopped
      | _ => (.panicked, taken)

def pollWrite (turn : Turn) (writer : Writer) : Outcome Nat × Writer :=
  if turn.teeBlocked then (.pending, writer)
  else
    match writer.writeNextChunk buf with
    | (.ok written, writer) =>
      if buf.length ≤ written then (.ok written, writer)
      else grantLoop buf turn.done turn.grants written writer
    | stopped => stopped

end PollWrite

/-- Take every upload that is done, and keep its chunk. -/
def reclaim : List UploadDone → Writer → Outcome Unit × Writer
  | [], writer => (.ok (), writer)
  | upload :: done, writer =>
    match writer.futures[upload.place]? with
    | none => (.ok (), writer)
    | some memory =>
      let writer := { writer with futures := writer.futures.eraseIdx upload.place }
      if upload.failed then (.err .uploadFailed, writer)
      else
        reclaim done
          { writer with allocatedChunks := Chunk.new memory :: writer.allocatedChunks }

def pollNextChunk (turn : Turn) (writer : Writer) : Outcome Chunk × Writer :=
  let isOpen := writer.currChunk.isNone && writer.size.all fun size => writer.written < size
  match isOpen, writer.nextChunkSize with
  | false, _ => (.err .pastEnd, writer)
  | true, .ok (some chunkSize) =>
    if turn.teeBlocked then (.pending, writer)
    else
      match writer.reclaim turn.done with
      | (.ok (), writer) =>
        match writer.allocatedChunks with
        | chunk :: allocatedChunks => (.ok chunk, { writer with allocatedChunks })
        | [] =>
          let memory := writer.allocFuture.getD chunkSize
          if turn.grants = 0 then (.pending, { writer with allocFuture := some memory })
          else (.ok (Chunk.new memory), { writer with allocFuture := none })
      | (.err error, writer) => (.err error, writer)
      | (_, writer) => (.panicked, writer)
  | true, .ok none => (.err .pastEnd, writer)
  | true, _ => (.panicked, writer)

def submitChunk (chunk : Chunk) (writer : Writer) : Writer :=
  if chunk.data = [] then writer
  else
    let writer := { writer with written := writer.written + chunk.data.length }
    if chunk.data.length < chunkSize then { writer with currChunk := some chunk }
    else writer.pushUploadNextChunk chunk

/-- Take the uploads that are done until none is in flight. -/
def drain : List UploadDone → Writer → Outcome Unit × Writer
  | done, writer =>
    if writer.futures = [] then (.ok (), writer)
    else
      match done with
      | [] => (.pending, writer)
      | upload :: done =>
        match writer.futures[upload.place]? with
        | none => (.pending, writer)
        | some _ =>
          let writer := { writer with futures := writer.futures.eraseIdx upload.place }
          if upload.failed then (.err .uploadFailed, writer) else drain done writer

end Writer

end SyncEngine.Transfer
