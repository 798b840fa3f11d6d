import Mathlib.Algebra.Group.Nat.Defs
import Mathlib.Data.List.Basic

/-! # Chunks

A file is moved in chunks of one MiB. A chunk is a buffer of so much memory, some of it
for what encryption adds.
-/

namespace SyncEngine.Transfer

@[irreducible] def chunkSize : Nat := 1024 * 1024

def chunkSizeExtra : Nat := 12 + 16

def fullChunk : Nat := chunkSize + chunkSizeExtra

theorem chunkSize_pos : 0 < chunkSize := by
  unfold chunkSize
  decide

theorem fullChunk_lt : chunkSize + chunkSizeExtra < 2 ^ 32 := by
  unfold chunkSize
  decide

structure Chunk where
  data : List UInt8
  size : Nat

namespace Chunk

/-- A chunk of memory just granted, or one an upload has cleared. -/
def new (size : Nat) : Chunk where
  data := []
  size

def capacity (chunk : Chunk) : Nat := chunk.size - chunkSizeExtra

def room (chunk : Chunk) : Nat := chunk.capacity - chunk.data.length

/-- Write as many bytes as there is room for, and say how many. -/
def write (chunk : Chunk) (buf : List UInt8) : Nat × Chunk :=
  let max := min chunk.room buf.length
  (max, { chunk with data := chunk.data ++ buf.take max })

end Chunk

end SyncEngine.Transfer
