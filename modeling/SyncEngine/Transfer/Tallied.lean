import SyncEngine.Transfer.FileWriter

/-! # What a writer has counted

The bytes a writer took are the chunks it uploaded, one after the other, and those it holds
back. Its buffers have the size of a whole chunk, or that of the declared size's last one.
-/

namespace SyncEngine.Transfer

open Collections List

def Writer.heldBack (writer : Writer) : List UInt8 := (writer.currChunk.map Chunk.data).getD []

/-- The bytes taken are counted, and the whole chunks of them uploaded and hashed. -/
structure Counted (writer : Writer) (accepted : List UInt8) : Prop where
  written : writer.written = accepted.length
  whole : writer.nextChunkIdx * chunkSize ≤ accepted.length
  hashed : writer.hashed = accepted.take (writer.nextChunkIdx * chunkSize)
  uploaded : writer.uploaded = Collections.numbered chunkSize accepted writer.nextChunkIdx

/-- The memory a writer has besides its current chunk is of sizes that do for the next. -/
structure Stocked (fits : Nat → Prop) (writer : Writer) : Prop where
  spare : ∀ chunk ∈ writer.allocatedChunks, chunk.data = [] ∧ fits chunk.size
  asked : ∀ memory, writer.allocFuture = some memory → fits memory
  inFlight : ∀ memory ∈ writer.futures, fits memory

/-- A writer in its uploading phase, with sizes of memory that fit a chunk by its number. -/
structure Tallied (fits : Nat → Nat → Prop) (writer : Writer) (accepted : List UInt8) : Prop where
  counted : Counted writer accepted
  stocked : Stocked (fits writer.nextChunkIdx) writer
  part : accepted.length < (writer.nextChunkIdx + 1) * chunkSize
  kept : writer.heldBack = accepted.drop (writer.nextChunkIdx * chunkSize)
  current : ∀ chunk, writer.currChunk = some chunk → fits writer.nextChunkIdx chunk.size

variable {fits : Nat → Nat → Prop} {writer : Writer} {accepted : List UInt8}

theorem tallied_new (size : Option Nat) : Tallied fits (Writer.new size) [] where
  counted :=
    {
      written := rfl
      whole := by
        have hzero : (Writer.new size).nextChunkIdx = 0 := rfl
        rw [hzero, Nat.zero_mul]
        exact Nat.zero_le _
      hashed := take_nil.symm
      uploaded := rfl
    }
  stocked :=
    {
      spare := fun _ h => nomatch h
      asked := fun _ h => nomatch h
      inFlight := fun _ h => nomatch h
    }
  part := by
    have hzero : (Writer.new size).nextChunkIdx = 0 := rfl
    rw [hzero, Nat.zero_add, Nat.one_mul]
    exact chunkSize_pos
  kept := drop_nil.symm
  current _ h := nomatch h

/-! ## Writing into a chunk -/

def Chunk.takes (chunk : Chunk) (offered : Nat) : Nat := min chunk.room (min chunkSize offered)

theorem Chunk.write_take (chunk : Chunk) (buf : List UInt8) :
    chunk.write (buf.take chunkSize) =
      (chunk.takes buf.length,
        { chunk with data := chunk.data ++ buf.take (chunk.takes buf.length) }) := by
  unfold Chunk.write Chunk.takes
  rw [length_take]
  dsimp only
  rw [take_take]
  have hmin : min (min chunk.room (min chunkSize buf.length)) chunkSize =
      min chunk.room (min chunkSize buf.length) := by
    omega
  rw [hmin]

theorem Chunk.takes_le (chunk : Chunk) (offered : Nat) : chunk.takes offered ≤ offered := by
  unfold Chunk.takes
  omega

variable {chunk : Chunk}

theorem Chunk.length_add_takes (hsize : chunk.size ≤ fullChunk)
    (hlength : chunk.data.length < chunkSize) (offered : Nat) :
    chunk.data.length + chunk.takes offered ≤ chunkSize := by
  unfold Chunk.takes Chunk.room Chunk.capacity
  unfold fullChunk at hsize
  omega

theorem Counted.append (h : Counted writer accepted) (more : List UInt8) :
    Counted { writer with written := writer.written + more.length } (accepted ++ more) := by
  constructor
  · rw [length_append, ← h.written]
  · rw [length_append]
    exact Nat.le_add_right_of_le h.whole
  · rw [take_append_of_le_length h.whole]
    exact h.hashed
  rw [Collections.numbered_append h.whole]
  exact h.uploaded

theorem Counted.push (h : Counted writer accepted)
    (hchunk : chunk.data = accepted.drop (writer.nextChunkIdx * chunkSize))
    (hlast : accepted.length ≤ (writer.nextChunkIdx + 1) * chunkSize) :
    (writer.pushUploadNextChunk chunk).written = accepted.length ∧
      (writer.pushUploadNextChunk chunk).hashed = accepted ∧
      (writer.pushUploadNextChunk chunk).uploaded =
        Collections.numbered chunkSize accepted (writer.nextChunkIdx + 1) := by
  refine ⟨h.written, ?_, ?_⟩
  · unfold Writer.pushUploadNextChunk
    rw [h.hashed, hchunk, take_append_drop]
  unfold Writer.pushUploadNextChunk
  rw [h.uploaded, hchunk, Collections.numbered_succ, piece_last hlast]

theorem Stocked.push (h : Stocked (fits writer.nextChunkIdx) writer)
    (hsize : fits writer.nextChunkIdx chunk.size)
    (hnext : ∀ memory, fits writer.nextChunkIdx memory → fits (writer.nextChunkIdx + 1) memory) :
    Stocked (fits (writer.nextChunkIdx + 1)) (writer.pushUploadNextChunk chunk) where
  spare other hother := ⟨(h.spare other hother).1, hnext _ (h.spare other hother).2⟩
  asked memory hmemory := hnext _ (h.asked memory hmemory)
  inFlight memory hmemory := by
    rcases mem_append.mp hmemory with hold | hlast
    · exact hnext _ (h.inFlight memory hold)
    rw [mem_singleton.mp hlast]
    exact hnext _ hsize

theorem tallied_keepOrPush (hcounted : Counted writer accepted)
    (hstocked : Stocked (fits writer.nextChunkIdx) writer) (hnone : writer.currChunk = none)
    (hlast : accepted.length ≤ (writer.nextChunkIdx + 1) * chunkSize)
    (hchunk : chunk.data = accepted.drop (writer.nextChunkIdx * chunkSize))
    (hsize : fits writer.nextChunkIdx chunk.size) (hnext : (writer.nextChunkIdx + 1) * chunkSize ≤ accepted.length →
      ∀ memory, fits writer.nextChunkIdx memory → fits (writer.nextChunkIdx + 1) memory) :
    Tallied fits
      (if chunk.data.length < chunkSize then { writer with currChunk := some chunk }
        else writer.pushUploadNextChunk chunk) accepted := by
  have hlength : chunk.data.length = accepted.length - writer.nextChunkIdx * chunkSize := by
    rw [hchunk, length_drop]
  have hwhole := hcounted.whole
  rw [Nat.add_mul, Nat.one_mul] at hlast
  by_cases hkeep : chunk.data.length < chunkSize
  · rw [if_pos hkeep]
    refine ⟨⟨hcounted.written, hcounted.whole, hcounted.hashed, hcounted.uploaded⟩,
      ⟨hstocked.spare, hstocked.asked, hstocked.inFlight⟩, ?_, hchunk, ?_⟩
    · show accepted.length < (writer.nextChunkIdx + 1) * chunkSize
      rw [Nat.add_mul, Nat.one_mul]
      omega
    intro other hother
    cases hother
    exact hsize
  rw [if_neg hkeep]
  -- the chunk is whole, so what was taken ends with it
  have hend : accepted.length = (writer.nextChunkIdx + 1) * chunkSize := by
    rw [Nat.add_mul, Nat.one_mul]
    omega
  obtain ⟨hwritten, hhashed, huploaded⟩ := hcounted.push hchunk (Nat.le_of_eq hend)
  refine ⟨⟨hwritten, Nat.le_of_eq hend.symm, ?_, huploaded⟩,
    hstocked.push hsize (hnext (Nat.le_of_eq hend.symm)), ?_, ?_, ?_⟩
  · exact hhashed.trans (take_of_length_le (Nat.le_of_eq hend)).symm
  · refine Nat.lt_of_le_of_lt (Nat.le_of_eq hend) ?_
    exact Nat.mul_lt_mul_of_pos_right (Nat.lt_succ_self _) chunkSize_pos
  · have hempty : (writer.currChunk.map Chunk.data).getD [] = [] := by
      rw [hnone]
      rfl
    exact hempty.trans (drop_of_length_le (Nat.le_of_eq hend)).symm
  intro other hother
  have hnone' : writer.currChunk = some other := hother
  rw [hnone] at hnone'
  cases hnone'

theorem fillChunk_tallied (buf : List UInt8) (hcounted : Counted writer accepted)
    (hstocked : Stocked (fits writer.nextChunkIdx) writer)
    (hpart : accepted.length < (writer.nextChunkIdx + 1) * chunkSize) (hnone : writer.currChunk = none)
    (hchunk : chunk.data = accepted.drop (writer.nextChunkIdx * chunkSize))
    (hsize : fits writer.nextChunkIdx chunk.size) (hfull : chunk.size ≤ fullChunk)
    (hnext : (writer.nextChunkIdx + 1) * chunkSize ≤ accepted.length + buf.length →
      ∀ memory, fits writer.nextChunkIdx memory → fits (writer.nextChunkIdx + 1) memory) :
    (writer.fillChunk chunk buf).1 = chunk.takes buf.length ∧
      Tallied fits (writer.fillChunk chunk buf).2
        (accepted ++ buf.take (chunk.takes buf.length)) := by
  have hle := chunk.takes_le buf.length
  have hwhole := hcounted.whole
  have hlength : chunk.data.length = accepted.length - writer.nextChunkIdx * chunkSize := by
    rw [hchunk, length_drop]
  have hsmall : chunk.data.length < chunkSize := by
    rw [Nat.add_mul, Nat.one_mul] at hpart
    omega
  have hroom := Chunk.length_add_takes hfull hsmall buf.length
  unfold Writer.fillChunk
  rw [Chunk.write_take]
  dsimp only
  generalize chunk.takes buf.length = n at hle hroom
  have htake : (buf.take n).length = n := length_take_of_le hle
  have hdata : chunk.data ++ buf.take n =
      (accepted ++ buf.take n).drop (writer.nextChunkIdx * chunkSize) := by
    rw [hchunk, drop_append_of_le_length hwhole]
  have htotal : (accepted ++ buf.take n).length = accepted.length + n := by
    rw [length_append, htake]
  have hcounted' := hcounted.append (buf.take n)
  rw [htake] at hcounted'
  have hlast : (accepted ++ buf.take n).length ≤ (writer.nextChunkIdx + 1) * chunkSize := by
    rw [htotal, Nat.add_mul, Nat.one_mul]
    omega
  have htallied := @tallied_keepOrPush fits
    { writer with written := writer.written + n }
    (accepted ++ buf.take n) { chunk with data := chunk.data ++ buf.take n }
    ⟨hcounted'.written, hcounted'.whole, hcounted'.hashed, hcounted'.uploaded⟩
    ⟨hstocked.spare, hstocked.asked, hstocked.inFlight⟩ hnone hlast hdata hsize
    fun hend => hnext (Nat.le_trans hend (htotal ▸ Nat.add_le_add_left hle _))
  split
  · rename_i hkeep
    rw [if_pos hkeep] at htallied
    exact ⟨rfl, htallied⟩
  rename_i hpush
  rw [if_neg hpush] at htallied
  exact ⟨rfl, htallied⟩

end SyncEngine.Transfer
