import SyncEngine.Transfer.Written

/-! # Data longer than the declared size

A write is refused once the declared size is reached, but not one that goes past it: that
takes what its chunk has room for. A chunk sized for the end of the file has none left,
one a whole chunk's upload is done with has. So the size is kept exactly where no call has
bytes for the last chunk and a buffer for it with more room than the file has left.
-/

namespace SyncEngine.Transfer

open Collections Writer List

structure Call where
  buf : List UInt8
  turn : Turn
  nonempty : buf ≠ []

def Writer.after (size : Nat) (calls : List Call) : Writer :=
  calls.foldl (fun writer call => (writer.pollWrite call.buf call.turn).2) (new (some size))

/-- A call takes nothing past the declared size and does not panic, and is refused once the
size is reached, unless the EXIF tee holds it up. -/
def Refuses (size : Nat) (writer : Writer) (call : Call) : Prop :=
  (writer.pollWrite call.buf call.turn).2.written ≤ size ∧
    (writer.pollWrite call.buf call.turn).1 ≠ .panicked ∧
    (size ≤ writer.written → call.turn.teeBlocked = false →
      (writer.pollWrite call.buf call.turn).1 = .err (.tooLong size))

/-! ## The buffers of a call -/

/-- The chunk the next write goes into. -/
def Writer.atHand (writer : Writer) : Option Chunk := writer.currChunk.or writer.allocatedChunks.head?

/-- What a writer asks for of the memory budget where it has nothing at hand. -/
def Writer.asks (size : Nat) (writer : Writer) : Nat :=
  min fullChunk (size - writer.nextChunkIdx * chunkSize + chunkSizeExtra)

/-- How many uploads are found done before one that failed, or that is not in flight. -/
def recycled (inFlight : Nat) (done : List UploadDone) : Nat :=
  (done.takeWhile fun upload => decide (upload.place < inFlight) && !upload.failed).length

/-- The memory granted to a call: what an earlier call asked for, or what this one asks for. -/
def Writer.granted (size : Nat) (turn : Turn) (writer : Writer) : Option Nat :=
  if turn.grants = 0 then none
  else if writer.atHand.isSome then writer.allocFuture
  else some (writer.allocFuture.getD (writer.asks size))

/-- The room of the buffers a call comes by, in their order: of the chunk at hand, of the memory
granted to it, and of the buffers of the whole chunks it finds uploaded. -/
def Writer.rooms (size : Nat) (turn : Turn) (writer : Writer) : List Nat :=
  let got := writer.atHand.toList ++ (writer.granted size turn).toList.map Chunk.new
  got.map Chunk.room ++ replicate (recycled (writer.futures.length + got.length) turn.done) chunkSize

/-- Bytes put into buffers one after the other, until no byte is left to take, go past what
the size has left. -/
def GoesPast : (left offered : Nat) → (rooms : List Nat) → Prop
  | _, _, [] => False
  | left, offered, room :: rooms =>
    0 < left ∧ (left < min room offered ∨ GoesPast (left - room) (offered - room) rooms)

/-- A call that is not held up comes by a buffer with more room than the size has left when the
call gets to it, and has the bytes to go past the size there. -/
def Overruns (size : Nat) (writer : Writer) (call : Call) : Prop :=
  call.turn.teeBlocked = false ∧
    GoesPast (size - writer.written) call.buf.length (writer.rooms size call.turn)

theorem room_new {memory : Nat} (h : memory = fullChunk) : (Chunk.new memory).room = chunkSize := by
  rw [h]
  unfold Chunk.room Chunk.capacity Chunk.new fullChunk
  rw [Nat.add_sub_cancel, length_nil, Nat.sub_zero]

section GoesPast

variable {left offered room : Nat} {rooms : List Nat}

theorem not_goesPast_reached {size written : Nat} (hreached : size ≤ written) :
    ¬GoesPast (size - written) offered rooms := by
  cases rooms with
  | nil => exact not_false
  | cons room rooms => exact fun h => Nat.not_lt.mpr hreached (Nat.lt_of_sub_pos h.1)

theorem not_goesPast_of_le (h : offered ≤ left) : ¬GoesPast left offered rooms := by
  induction rooms generalizing left offered with
  | nil => exact not_false
  | cons room rooms ih =>
    rintro ⟨-, hover | hpast⟩
    · omega
    · exact ih (by omega) hpast

theorem goesPast_cons (hleft : 0 < left) (hover : min room offered ≤ left) :
    GoesPast left offered (room :: rooms) ↔
      GoesPast (left - min room offered) (offered - min room offered) rooms := by
  have hfits : ¬left < min room offered := Nat.not_lt.mpr hover
  rcases Nat.le_total room offered with hroom | hroom
  · rw [Nat.min_eq_left hroom] at hfits ⊢
    refine ⟨fun h => h.2.resolve_left ?_, fun h => ⟨hleft, Or.inr h⟩⟩
    rwa [Nat.min_eq_left hroom]
  rw [Nat.min_eq_right hroom] at hover ⊢
  have hzero : ¬GoesPast (left - offered) (offered - offered) rooms := not_goesPast_of_le (by omega)
  exact iff_of_false (not_goesPast_of_le hover) hzero

end GoesPast

/-! ## One write -/

namespace Writer

variable {size : Nat} {writer : Writer} {buf : List UInt8} {chunk : Chunk}

theorem nextChunkSize_asks (hpos : 0 < size) (hsize : writer.size = some size)
    (hwhole : writer.nextChunkIdx * chunkSize ≤ size) :
    writer.nextChunkSize = .ok (some (writer.asks size)) := by
  have hchunk := chunkSize_pos
  have hfull := fullChunk_lt
  unfold nextChunkSize asks
  rw [hsize]
  split
  · rename_i hzero
    cases hzero
    omega
  · rename_i hnone
    cases hnone
  rename_i declared _ hdeclared
  cases hdeclared
  split
  · rename_i hbefore
    have hle := Nat.mul_le_of_le_div _ _ _ (Nat.succ_le_of_lt hbefore)
    rw [Nat.succ_mul] at hle
    unfold fullChunk
    rw [Nat.min_eq_left (by omega)]
  rename_i hlast
  have hlt := Nat.lt_mul_of_div_lt (Nat.lt_succ_of_le (Nat.not_lt.mp hlast)) hchunk
  rw [Nat.succ_mul] at hlt
  rw [if_neg (Nat.not_lt.mpr hwhole)]
  unfold fullChunk
  rw [if_pos (by omega), Nat.min_eq_right (by omega)]

theorem wouldExceedKnownSize_some (written bufLen : Nat) :
    wouldExceedKnownSize (some size) written bufLen = (decide (size ≤ written) && decide (0 < bufLen)) := rfl

theorem writeNextChunk_reached (hsize : writer.size = some size) (hreached : size ≤ writer.written)
    (hbuf : buf ≠ []) : writer.writeNextChunk buf = (.err (.tooLong size), writer) := by
  unfold writeNextChunk
  rw [hsize, wouldExceedKnownSize_some, decide_eq_true hreached, decide_eq_true (length_pos_of_ne_nil hbuf)]
  rfl

theorem not_exceeds (hsize : writer.size = some size) (hleft : writer.written < size) :
    wouldExceedKnownSize writer.size writer.written buf.length = false := by
  rw [hsize, wouldExceedKnownSize_some, decide_eq_false (Nat.not_le.mpr hleft)]
  rfl

theorem writeNextChunk_spare {spare : List Chunk}
    (hexceed : wouldExceedKnownSize writer.size writer.written buf.length = false)
    (hnone : writer.currChunk = none) (hspare : writer.allocatedChunks = chunk :: spare) :
    writer.writeNextChunk buf =
      (.ok ({ writer with allocatedChunks := spare }.fillChunk chunk buf).1,
        ({ writer with allocatedChunks := spare }.fillChunk chunk buf).2) := by
  unfold writeNextChunk
  rw [hexceed, if_neg Bool.false_ne_true, hnone, hspare]

theorem writeNextChunk_ask {memory : Nat}
    (hexceed : wouldExceedKnownSize writer.size writer.written buf.length = false)
    (hnone : writer.currChunk = none) (hspare : writer.allocatedChunks = [])
    (hnext : writer.nextChunkSize = .ok (some memory)) :
    writer.writeNextChunk buf =
      (.ok 0, { writer with allocFuture := some (writer.allocFuture.getD memory) }) := by
  unfold writeNextChunk
  rw [hexceed, if_neg Bool.false_ne_true, hnone, hspare, hnext]

theorem atHand_spare {spare : List Chunk} (hnone : writer.currChunk = none)
    (hspare : writer.allocatedChunks = chunk :: spare) : writer.atHand = some chunk := by
  unfold atHand
  rw [hnone, hspare]
  rfl

/-- The chunk at hand is taken out of the writer, which nothing but where it was is told by. -/
theorem writeNextChunk_hand (hhand : writer.atHand = some chunk) :
    ∃ base : Writer, base.written = writer.written ∧ base.allocFuture = writer.allocFuture ∧
      base.futures = writer.futures ∧ base.currChunk = none ∧
      ∀ buf, wouldExceedKnownSize writer.size writer.written buf.length = false →
        writer.writeNextChunk buf = (.ok (base.fillChunk chunk buf).1, (base.fillChunk chunk buf).2) := by
  unfold atHand at hhand
  cases hcurr : writer.currChunk with
  | some current =>
    rw [hcurr] at hhand
    cases hhand
    refine ⟨{ writer with currChunk := none }, rfl, rfl, rfl, rfl, fun buf hexceed => ?_⟩
    unfold writeNextChunk
    rw [hexceed, if_neg Bool.false_ne_true, hcurr]
  | none =>
    rw [hcurr] at hhand
    obtain ⟨spare, hspare⟩ := head?_eq_some_iff.mp hhand
    exact ⟨{ writer with allocatedChunks := spare }, rfl, rfl, rfl, hcurr, fun buf hexceed =>
      writeNextChunk_spare hexceed hcurr hspare⟩

theorem fillChunk_written (chunk : Chunk) (buf : List UInt8) :
    (writer.fillChunk chunk buf).1 = chunk.takes buf.length ∧
      (writer.fillChunk chunk buf).2.written = writer.written + chunk.takes buf.length ∧
      (writer.fillChunk chunk buf).2.allocFuture = writer.allocFuture := by
  unfold fillChunk
  rw [Chunk.write_take]
  dsimp only
  split
  all_goals exact ⟨rfl, rfl, rfl⟩

theorem length_append_takes (chunk : Chunk) (buf : List UInt8) :
    (chunk.data ++ buf.take (chunk.takes buf.length)).length = chunk.data.length + chunk.takes buf.length := by
  rw [length_append, length_take_of_le (chunk.takes_le buf.length)]

theorem fillChunk_futures (chunk : Chunk) (buf : List UInt8) :
    (writer.fillChunk chunk buf).2.futures =
      if chunk.data.length + chunk.takes buf.length < chunkSize then writer.futures
      else writer.futures ++ [chunk.size] := by
  unfold fillChunk
  rw [Chunk.write_take]
  dsimp only
  rw [length_append_takes]
  split
  all_goals rfl

theorem fillChunk_currChunk (hnone : writer.currChunk = none) (chunk : Chunk) (buf : List UInt8)
    (hfilled : chunkSize ≤ chunk.data.length + chunk.takes buf.length) :
    (writer.fillChunk chunk buf).2.currChunk = none := by
  unfold fillChunk
  rw [Chunk.write_take]
  dsimp only
  rw [length_append_takes, if_neg (Nat.not_lt.mpr hfilled)]
  exact hnone

/-- Bytes a chunk has no room for are nothing to the write. -/
theorem fillChunk_take {n : Nat} (h : min chunk.room buf.length ≤ n) :
    writer.fillChunk chunk (buf.take n) = writer.fillChunk chunk buf := by
  have htakes : chunk.takes (buf.take n).length = chunk.takes buf.length := by
    unfold Chunk.takes
    rw [length_take]
    omega
  have hle : chunk.takes buf.length ≤ n := by
    unfold Chunk.takes
    omega
  unfold fillChunk
  rw [Chunk.write_take, Chunk.write_take, htakes, take_take, Nat.min_eq_left hle]

theorem writeNextChunk_written (writer : Writer) (buf : List UInt8) :
    writer.written ≤ (writer.writeNextChunk buf).2.written := by
  cases hexceed : wouldExceedKnownSize writer.size writer.written buf.length with
  | true =>
    unfold writeNextChunk
    rw [hexceed]
    exact Nat.le_refl _
  | false =>
    cases hhand : writer.atHand with
    | some chunk =>
      obtain ⟨base, hwritten, -, -, -, hwrite⟩ := writeNextChunk_hand hhand
      rw [hwrite buf hexceed, (fillChunk_written chunk buf).2.1, hwritten]
      exact Nat.le_add_right _ _
    | none =>
      obtain ⟨hcurr, hspare⟩ := Option.or_eq_none_iff.mp hhand
      unfold writeNextChunk
      rw [hexceed, if_neg Bool.false_ne_true, hcurr, head?_eq_none_iff.mp hspare]
      dsimp only
      split
      all_goals exact Nat.le_refl _

theorem drainLoop_written {shouldPend : Bool} (done : List UploadDone) {taken : Nat} (writer : Writer) :
    writer.written ≤ (drainLoop buf shouldPend done taken writer).2.written := by
  induction done generalizing writer taken with
  | nil =>
    unfold drainLoop
    split
    all_goals exact Nat.le_refl _
  | cons upload done ih =>
    unfold drainLoop
    dsimp only
    split
    · exact Nat.le_refl _
    split
    · exact Nat.le_refl _
    split
    · exact Nat.le_refl _
    split
    rotate_left
    · exact Nat.le_refl _
    rename_i memory _ _ _ next _
    split
    rotate_left
    · exact Nat.le_refl _
    have hwrite := writeNextChunk_written
      { writer with
        futures := writer.futures.eraseIdx upload.place
        allocatedChunks := if next.isSome then Chunk.new memory :: writer.allocatedChunks else [] }
      (buf.drop taken)
    split
    · rename_i n writer' heq
      rw [heq] at hwrite
      split
      · exact hwrite
      · exact Nat.le_trans hwrite (ih writer')
    · exact hwrite

theorem grantLoop_none {done : List UploadDone} {grants taken : Nat} (h : writer.allocFuture = none) :
    grantLoop buf done grants taken writer = drainLoop buf false done taken writer := by
  unfold grantLoop
  rw [h]

theorem grantLoop_written {done : List UploadDone} (grants : Nat) {taken : Nat} (writer : Writer) :
    writer.written ≤ (grantLoop buf done grants taken writer).2.written := by
  induction grants generalizing writer taken with
  | zero =>
    unfold grantLoop
    split
    · exact drainLoop_written done writer
    dsimp only
    split
    · exact drainLoop_written done { writer with allocFuture := none, allocatedChunks := [] }
    · exact drainLoop_written done writer
    · exact Nat.le_refl _
  | succ grants ih =>
    unfold grantLoop
    split
    · exact drainLoop_written done writer
    rename_i memory _
    dsimp only
    split
    · exact drainLoop_written done { writer with allocFuture := none, allocatedChunks := [] }
    rotate_left
    · exact Nat.le_refl _
    have hwrite := writeNextChunk_written
      { writer with
        allocFuture := none
        allocatedChunks := Chunk.new memory :: writer.allocatedChunks }
      (buf.drop taken)
    split
    · rename_i n writer' heq
      rw [heq] at hwrite
      split
      · exact hwrite
      · exact Nat.le_trans hwrite (ih writer')
    · exact hwrite

end Writer

/-! ## What a writer holds -/

/-- A writer of a file of a declared size that took no more than that. Each upload in flight is
of a whole chunk. -/
structure Held (size : Nat) (writer : Writer) (accepted : List UInt8) : Prop where
  sending : Sending (some size) writer accepted
  whole : ∀ memory ∈ writer.futures, memory = fullChunk

/-- It has come to its size, or has nothing it is writing into. -/
def Idle (size : Nat) (writer : Writer) : Prop := size ≤ writer.written ∨ writer.currChunk = none

/-- What goes past the size is taken, and the writer holds on where nothing does. -/
structure Meets (size : Nat) (past : Prop) (answer : Outcome Nat × Writer) : Prop where
  exceeds : past → size < answer.2.written
  holds : ¬past → answer.1 ≠ .panicked ∧ ∃ accepted, Held size answer.2 accepted

theorem pending_ne_panicked : (.pending : Outcome Nat) ≠ .panicked := nofun

theorem ok_ne_panicked (n : Nat) : (.ok n : Outcome Nat) ≠ .panicked := nofun

theorem err_ne_panicked (error : WriteError) : (.err error : Outcome Nat) ≠ .panicked := nofun

theorem ite_ne_panicked {pend : Prop} [Decidable pend] {a b : Outcome Nat} (ha : a ≠ .panicked)
    (hb : b ≠ .panicked) : (if pend then a else b) ≠ .panicked := by
  split
  · exact ha
  · exact hb

theorem Meets.congr {size : Nat} {past other : Prop} {answer : Outcome Nat × Writer} (h : Meets size past answer)
    (hiff : past ↔ other) : Meets size other answer :=
  ⟨fun hother => h.exceeds (hiff.mpr hother), fun hnot => h.holds fun hpast => hnot (hiff.mp hpast)⟩

/-- Once the size is reached, no buffer counts. -/
theorem Meets.reached {size written offered offered' : Nat} {rooms rooms' : List Nat} {answer : Outcome Nat × Writer}
    (hreached : size ≤ written) (h : Meets size (GoesPast (size - written) offered rooms) answer) :
    Meets size (GoesPast (size - written) offered' rooms') answer :=
  h.congr (iff_of_false (not_goesPast_reached hreached) (not_goesPast_reached hreached))

section Held

variable {size : Nat} {writer : Writer} {accepted buf : List UInt8} {chunk : Chunk}

theorem held_new (size : Nat) : Held size (new (some size)) [] where
  sending := sending_new (some size)
  whole _ h := nomatch h

section

variable (h : Held size writer accepted)
include h

theorem Held.written : writer.written = accepted.length := h.sending.tallied.counted.written

theorem Held.within : writer.written ≤ size := by
  rw [h.written]
  exact h.sending.within size rfl

theorem Held.stops (answer : Outcome Nat) (hanswer : answer ≠ .panicked) {past : Prop} (hpast : ¬past) :
    Meets size past (answer, writer) where
  exceeds hover := absurd hover hpast
  holds _ := ⟨hanswer, accepted, h⟩

theorem Held.restock {allocatedChunks : List Chunk} {allocFuture : Option Nat} {futures : List Nat}
    (hstocked : Stocked (Sized (some size) writer.nextChunkIdx) { writer with allocatedChunks, allocFuture, futures })
    (hwhole : ∀ memory ∈ futures, memory = fullChunk) :
    Held size { writer with allocatedChunks, allocFuture, futures } accepted :=
  ⟨h.sending.restock hstocked, hwhole⟩

theorem Held.grant {memory : Nat} (hasked : writer.allocFuture = some memory) :
    Held size
      { writer with
        allocFuture := none
        allocatedChunks := Chunk.new memory :: writer.allocatedChunks }
      accepted :=
  ⟨h.sending.grant hasked, h.whole⟩

theorem Held.hand (hhand : writer.atHand = some chunk) :
    Sized (some size) writer.nextChunkIdx chunk.size ∧
      chunk.data = accepted.drop (writer.nextChunkIdx * chunkSize) := by
  have htallied := h.sending.tallied
  have hkept := htallied.kept
  unfold heldBack at hkept
  unfold Writer.atHand at hhand
  cases hcurr : writer.currChunk with
  | some current =>
    rw [hcurr] at hhand hkept
    cases hhand
    exact ⟨htallied.current chunk hcurr, hkept⟩
  | none =>
    rw [hcurr] at hhand hkept
    obtain ⟨spare, hspare⟩ := head?_eq_some_iff.mp hhand
    obtain ⟨hempty, hsized⟩ := htallied.stocked.spare chunk (hspare ▸ mem_cons_self)
    exact ⟨hsized, hempty.trans hkept⟩

theorem Held.next : ∃ next, writer.nextChunkSize = .ok next ∧ (writer.written < size → next.isSome) := by
  rcases h.sending.nextChunkSize with ⟨hnone, hzero⟩ | ⟨memory, hsome, -⟩
  · cases hzero
    exact ⟨none, hnone, fun hleft => absurd hleft (Nat.not_lt_zero _)⟩
  · exact ⟨some memory, hsome, fun _ => rfl⟩

/-- A write that gives more bytes than its chunk has room for fills a whole chunk, which is then
in flight, or comes to the declared size. -/
theorem Held.write (hleft : writer.written < size) (hhand : writer.atHand = some chunk) :
    ∃ writer', writer.writeNextChunk buf = (.ok (min chunk.room buf.length), writer') ∧
      writer'.written = writer.written + min chunk.room buf.length ∧
      writer'.allocFuture = writer.allocFuture ∧
      (buf ≠ [] → min chunk.room buf.length ≤ size - writer.written →
        Held size writer' (accepted ++ buf.take (min chunk.room buf.length)) ∧
          (chunk.room < buf.length → size ≤ writer'.written ∨
            writer'.currChunk = none ∧ writer'.futures.length = writer.futures.length + 1)) := by
  obtain ⟨hsized, hdata⟩ := h.hand hhand
  have hwritten := h.written
  have hwhole := h.sending.tallied.counted.whole
  have hpart := h.sending.tallied.part
  have hlength : chunk.data.length = accepted.length - writer.nextChunkIdx * chunkSize := by
    rw [hdata, length_drop]
  have hcapacity : chunk.data.length < chunkSize := by
    rw [Nat.add_mul, Nat.one_mul] at hpart
    omega
  have hle := hsized.le
  have htakes : chunk.takes buf.length = min chunk.room buf.length := by
    unfold Chunk.takes Chunk.room Chunk.capacity
    unfold fullChunk at hle
    omega
  obtain ⟨base, hbase, hasked, hfutures, hnone, hwrite⟩ := writeNextChunk_hand hhand
  obtain ⟨htaken, hafter, hfuture⟩ := @fillChunk_written base chunk buf
  rw [htakes] at htaken hafter
  refine ⟨_, by rw [hwrite buf (not_exceeds h.sending.size hleft), htaken], hbase ▸ hafter, hasked ▸ hfuture, ?_⟩
  intro hbuf hfits
  have hroom : 0 < chunk.room := hsized.room_pos hlength hwhole hpart fun declared hdeclared => by
    cases hdeclared
    omega
  have hmem := @fillChunk_futures base chunk buf
  rw [htakes, hfutures] at hmem
  refine ⟨⟨?_, ?_⟩, fun hmore => ?_⟩
  · have hshort : buf.take (size - writer.written) ≠ [] := by
      have hpos := length_pos_of_ne_nil hbuf
      refine ne_nil_of_length_pos ?_
      rw [length_take]
      omega
    obtain ⟨n, writer', heq, hn, hsending, -⟩ := h.sending.writeNextChunk hshort fun declared hdeclared => by
      cases hdeclared
      rw [length_take]
      omega
    rw [hwrite _ (not_exceeds h.sending.size hleft), fillChunk_take hfits, htaken] at heq
    cases heq
    rwa [take_take, Nat.min_eq_left hfits] at hsending
  · intro memory hin
    rw [hmem] at hin
    split at hin
    · exact h.whole memory hin
    rename_i hfilled
    rcases mem_append.mp hin with hold | hlast
    · exact h.whole memory hold
    rw [mem_singleton.mp hlast]
    unfold Chunk.room Chunk.capacity at hfilled
    unfold fullChunk at hle ⊢
    omega
  rw [Nat.min_eq_left (Nat.le_of_lt hmore)] at htakes hmem hafter
  by_cases hfilled : chunk.data.length + chunk.room < chunkSize
  · left
    -- less memory than a whole chunk's is what the declared size has past its whole chunks
    rw [hafter, hbase, hwritten]
    unfold Chunk.room Chunk.capacity at hfilled ⊢
    rcases hsized with hfull | ⟨declared, hdeclared, hidx, hrest⟩
    · unfold fullChunk at hfull
      omega
    cases hdeclared
    have hdiv := Nat.div_add_mod' size chunkSize
    rw [← hidx] at hdiv
    omega
  right
  refine ⟨fillChunk_currChunk hnone chunk buf (by omega), ?_⟩
  rw [hmem, if_neg hfilled, length_append]
  rfl

theorem Held.ask (hleft : writer.written < size) (hhand : writer.atHand = none) :
    writer.writeNextChunk buf =
        (.ok 0, { writer with allocFuture := some (writer.allocFuture.getD (writer.asks size)) }) ∧
      Held size { writer with allocFuture := some (writer.allocFuture.getD (writer.asks size)) } accepted := by
  have htallied := h.sending.tallied
  obtain ⟨hcurr, hspare⟩ := Option.or_eq_none_iff.mp hhand
  have hwhole : writer.nextChunkIdx * chunkSize ≤ size :=
    Nat.le_trans htallied.counted.whole (h.sending.within size rfl)
  have hnext := nextChunkSize_asks (Nat.zero_lt_of_lt hleft) h.sending.size hwhole
  generalize writer.asks size = memory at hnext ⊢
  have hsized : Sized (some size) writer.nextChunkIdx memory := by
    rcases h.sending.nextChunkSize with ⟨hnone, -⟩ | ⟨other, hsome, hother⟩
    · rw [hnext] at hnone
      cases hnone
    rw [hnext] at hsome
    cases hsome
    exact hother
  refine ⟨writeNextChunk_ask (not_exceeds h.sending.size hleft) hcurr (head?_eq_none_iff.mp hspare) hnext, ?_⟩
  refine h.restock ⟨htallied.stocked.spare, fun asked hasked => ?_, htallied.stocked.inFlight⟩ h.whole
  have heq : writer.allocFuture.getD memory = asked := Option.some.inj hasked
  cases hfuture : writer.allocFuture with
  | some before =>
    rw [hfuture, Option.getD_some] at heq
    rw [← heq]
    exact htallied.stocked.asked before hfuture
  | none =>
    rw [hfuture, Option.getD_none] at heq
    rwa [← heq]

end

/-! ## A call -/

variable {taken : Nat}

/-- A write of a call goes past the size where its buffer does, and leaves the rest to the next. -/
theorem Held.writes (h : Held size writer accepted) (hleft : writer.written < size)
    (hhand : writer.atHand = some chunk) (hmore : taken < buf.length) (rooms : List Nat)
    (answer : Nat → Writer → Outcome Nat × Writer)
    (hkeeps : ∀ n writer', writer'.written ≤ (answer n writer').2.written)
    (hnext : ∀ n writer' accepted', Held size writer' accepted' → taken + n < buf.length →
      writer'.allocFuture = writer.allocFuture →
      (size ≤ writer'.written ∨
        writer'.currChunk = none ∧ writer'.futures.length = writer.futures.length + 1) →
      Meets size (GoesPast (size - writer'.written) (buf.length - (taken + n)) rooms) (answer n writer')) :
    Meets size (GoesPast (size - writer.written) (buf.length - taken) (chunk.room :: rooms))
      (match writer.writeNextChunk (buf.drop taken) with
        | (.ok n, writer') => if buf.length ≤ taken + n then (.ok (taken + n), writer') else answer n writer'
        | stopped => stopped) := by
  have hdrop : (buf.drop taken).length = buf.length - taken := length_drop
  have hne : buf.drop taken ≠ [] := ne_nil_of_length_pos (by omega)
  obtain ⟨writer', hwrite, hwritten, hasked, hheld⟩ := @Held.write _ _ _ (buf.drop taken) _ h hleft hhand
  rw [hdrop] at hwrite hwritten hheld
  rw [hwrite]
  dsimp only
  generalize hn : min chunk.room (buf.length - taken) = n at hwritten hheld
  by_cases hover : size - writer.written < n
  · have hlast : size < writer'.written := by omega
    have hpast : GoesPast (size - writer.written) (buf.length - taken) (chunk.room :: rooms) :=
      ⟨by omega, Or.inl (hn ▸ hover)⟩
    refine ⟨fun _ => ?_, fun hnot => absurd hpast hnot⟩
    split
    · exact hlast
    · exact Nat.lt_of_lt_of_le hlast (hkeeps n writer')
  obtain ⟨hheld', hfilled⟩ := hheld hne (Nat.not_lt.mp hover)
  rw [goesPast_cons (by omega) (by omega), hn]
  by_cases hall : buf.length ≤ taken + n
  · rw [if_pos hall]
    exact hheld'.stops (.ok (taken + n)) (ok_ne_panicked _) (not_goesPast_of_le (by omega))
  rw [if_neg hall]
  have hmeets := hnext n writer' _ hheld' (by omega) hasked (hfilled (by omega))
  rwa [hwritten, Nat.sub_add_eq, Nat.sub_add_eq] at hmeets

theorem drainLoop_meets {shouldPend : Bool} (done : List UploadDone) (h : Held size writer accepted)
    (hidle : Idle size writer) (hmore : taken < buf.length) :
    Meets size
      (GoesPast (size - writer.written) (buf.length - taken)
        (replicate (recycled writer.futures.length done) chunkSize))
      (drainLoop buf shouldPend done taken writer) := by
  induction done generalizing writer accepted taken with
  | nil =>
    unfold drainLoop
    split
    · exact h.stops _ (ite_ne_panicked pending_ne_panicked (ok_ne_panicked taken)) not_false
    · exact h.stops _ (ite_ne_panicked (ok_ne_panicked taken) pending_ne_panicked) not_false
  | cons upload done ih =>
    have hnot : ¬(upload.place < writer.futures.length ∧ upload.failed = false) →
        recycled writer.futures.length (upload :: done) = 0 := by
      intro hstops
      unfold recycled
      rw [takeWhile_cons_of_neg, length_nil]
      rwa [Bool.and_eq_true, decide_eq_true_iff, Bool.not_eq_true']
    unfold drainLoop
    split
    · rename_i hnone
      rw [hnot (by rw [hnone]; exact fun hlt => Nat.not_lt_zero _ hlt.1)]
      exact h.stops _ (ite_ne_panicked pending_ne_panicked (ok_ne_panicked taken)) not_false
    dsimp only
    split
    · rename_i hnone
      rw [hnot fun hlt => Nat.not_le.mpr hlt.1 (getElem?_eq_none_iff.mp hnone)]
      exact h.stops _ (ite_ne_panicked (ok_ne_panicked taken) pending_ne_panicked) not_false
    rename_i memory hat
    obtain ⟨hplace, -⟩ := List.getElem?_eq_some_iff.mp hat
    have hstocked := h.sending.tallied.stocked
    have herased : ∀ other ∈ writer.futures.eraseIdx upload.place, other ∈ writer.futures :=
      fun other hother => mem_of_mem_eraseIdx hother
    have hlost : ∀ spare : List Chunk,
        (∀ chunk ∈ spare, chunk.data = [] ∧ Sized (some size) writer.nextChunkIdx chunk.size) →
        Held size { writer with futures := writer.futures.eraseIdx upload.place, allocatedChunks := spare }
          accepted := fun spare hspare =>
      h.restock ⟨hspare, hstocked.asked, fun other hother => hstocked.inFlight other (herased other hother)⟩
        fun other hother => h.whole other (herased other hother)
    split
    · rename_i hfailed
      rw [hnot fun hlt => absurd (hfailed.symm.trans hlt.2) Bool.true_eq_false.mp]
      exact (hlost _ hstocked.spare).stops (.err .uploadFailed) (err_ne_panicked _) not_false
    rename_i hlanded
    have hone : recycled writer.futures.length (upload :: done) = recycled writer.futures.length done + 1 := by
      unfold recycled
      rw [takeWhile_cons_of_pos, length_cons]
      rw [Bool.and_eq_true, decide_eq_true_iff, Bool.not_eq_true']
      exact ⟨hplace, eq_false_of_ne_true hlanded⟩
    obtain ⟨next, hnext, hsome⟩ := h.next
    have hnext' : nextChunkSize { writer with futures := writer.futures.eraseIdx upload.place } = .ok next := hnext
    rw [hnext']
    dsimp only
    rw [hone, replicate_succ]
    have hback := hlost (if next.isSome then Chunk.new memory :: writer.allocatedChunks else []) fun chunk hchunk => by
      split at hchunk
      · rcases mem_cons.mp hchunk with rfl | hold
        · exact ⟨rfl, hstocked.inFlight memory (mem_of_getElem? hat)⟩
        · exact hstocked.spare chunk hold
      · cases hchunk
    rcases Nat.lt_or_ge writer.written size with hleft | hreached
    rotate_left
    · have hne : buf.drop taken ≠ [] := ne_nil_of_length_pos (by rw [length_drop]; omega)
      rw [writeNextChunk_reached hback.sending.size hreached hne]
      exact hback.stops (.err (.tooLong size)) (err_ne_panicked _) (not_goesPast_reached hreached)
    have hnone := hidle.resolve_left (Nat.not_le.mpr hleft)
    rw [hsome hleft, if_pos rfl] at hback ⊢
    have hhand := @atHand_spare
      { writer with
        futures := writer.futures.eraseIdx upload.place
        allocatedChunks := Chunk.new memory :: writer.allocatedChunks } _ _ hnone rfl
    have hlength : (writer.futures.eraseIdx upload.place).length + 1 = writer.futures.length := by
      rw [length_eraseIdx_of_lt hplace]
      omega
    have hwrites := hback.writes hleft hhand hmore (replicate (recycled writer.futures.length done) chunkSize)
      (fun n writer' => drainLoop buf shouldPend done (taken + n) writer')
      (fun n writer' => drainLoop_written done writer') fun n writer' accepted' hheld hmore' _ hstill => by
        rcases hstill with hreached | ⟨hcurr, hfutures⟩
        · exact (ih hheld (Or.inl hreached) hmore').reached hreached
        have hgoes := ih hheld (Or.inr hcurr) hmore'
        rwa [hfutures.trans hlength] at hgoes
    rw [room_new (h.whole memory (mem_of_getElem? hat))] at hwrites
    exact hwrites

theorem grantLoop_meets (done : List UploadDone) (grants : Nat) (h : Held size writer accepted)
    (hidle : Idle size writer) (hmore : taken < buf.length) {asked : Option Nat}
    (hasked : asked = if grants = 0 then none else writer.allocFuture) :
    Meets size
      (GoesPast (size - writer.written) (buf.length - taken)
        (asked.toList.map (fun memory => (Chunk.new memory).room) ++
          replicate (recycled (writer.futures.length + asked.toList.length) done) chunkSize))
      (grantLoop buf done grants taken writer) := by
  have hstocked := h.sending.tallied.stocked
  cases hfuture : writer.allocFuture with
  | none =>
    rw [hfuture, ite_self] at hasked
    rw [grantLoop_none hfuture, hasked]
    exact drainLoop_meets done h hidle hmore
  | some memory =>
    obtain ⟨next, hnext, hsome⟩ := h.next
    have hnext' : nextChunkSize { writer with allocFuture := none } = .ok next := hnext
    unfold grantLoop
    rw [hfuture]
    dsimp only
    rw [hnext']
    rcases Nat.lt_or_ge writer.written size with hleft | hreached
    rotate_left
    · cases next with
      | none =>
        have hleft : Held size { writer with allocatedChunks := [], allocFuture := none, futures := writer.futures }
            accepted :=
          h.restock ⟨forall_mem_nil _, fun _ hnone => (Option.some_ne_none _ hnone.symm).elim, hstocked.inFlight⟩ h.whole
        exact (drainLoop_meets done hleft (Or.inl hreached) hmore).reached hreached
      | some size =>
        cases grants with
        | zero => exact (drainLoop_meets done h hidle hmore).reached hreached
        | succ grants =>
          have hgranted := h.grant hfuture
          have hne : buf.drop taken ≠ [] := ne_nil_of_length_pos (by rw [length_drop]; omega)
          dsimp only
          rw [writeNextChunk_reached hgranted.sending.size hreached hne]
          exact hgranted.stops (.err (.tooLong _)) (err_ne_panicked _) (not_goesPast_reached hreached)
    have hnone := hidle.resolve_left (Nat.not_le.mpr hleft)
    obtain ⟨size', rfl⟩ := Option.isSome_iff_exists.mp (hsome hleft)
    cases grants with
    | zero =>
      rw [if_pos rfl] at hasked
      rw [hasked]
      exact drainLoop_meets done h hidle hmore
    | succ grants =>
      rw [if_neg (Nat.succ_ne_zero _), hfuture] at hasked
      rw [hasked]
      have hhand := @atHand_spare
        { writer with
          allocFuture := none
          allocatedChunks := Chunk.new memory :: writer.allocatedChunks } _ _ hnone rfl
      exact (h.grant hfuture).writes hleft hhand hmore _
        (fun n writer' => grantLoop buf done grants (taken + n) writer')
        (fun n writer' => grantLoop_written grants writer') fun n writer' accepted' hheld hmore' hspent hstill => by
          rw [grantLoop_none hspent]
          rcases hstill with hreached | ⟨hcurr, hfutures⟩
          · exact (drainLoop_meets done hheld (Or.inl hreached) hmore').reached hreached
          have hgoes := @drainLoop_meets _ _ _ _ _ false done hheld (Or.inr hcurr) hmore'
          rwa [hfutures] at hgoes

theorem pollWrite_meets (h : Held size writer accepted) (call : Call) :
    Meets size (Overruns size writer call) (writer.pollWrite call.buf call.turn) := by
  have hpos := length_pos_of_ne_nil call.nonempty
  unfold pollWrite
  cases htee : call.turn.teeBlocked with
  | true =>
    rw [if_pos rfl]
    exact h.stops .pending pending_ne_panicked fun hover => absurd (htee.symm.trans hover.1) Bool.true_eq_false.mp
  | false =>
    rw [if_neg Bool.false_ne_true]
    have hover : Overruns size writer call ↔
        GoesPast (size - writer.written) call.buf.length (writer.rooms size call.turn) := and_iff_right htee
    refine Meets.congr ?_ hover.symm
    rcases Nat.lt_or_ge writer.written size with hleft | hreached
    rotate_left
    · rw [writeNextChunk_reached h.sending.size hreached call.nonempty]
      exact h.stops (.err (.tooLong size)) (err_ne_panicked _) (not_goesPast_reached hreached)
    unfold rooms
    dsimp only
    cases hhand : writer.atHand with
    | none =>
      obtain ⟨hwrite, hheld⟩ := @Held.ask _ _ _ call.buf h hleft hhand
      rw [hwrite]
      dsimp only
      rw [if_neg (Nat.not_le.mpr hpos)]
      have hasked : writer.granted size call.turn = if call.turn.grants = 0 then none
          else some (writer.allocFuture.getD (writer.asks size)) := by
        unfold granted
        rw [hhand]
        rfl
      have hgrant := @grantLoop_meets _ _ _ call.buf 0 call.turn.done call.turn.grants hheld
        (Or.inr (Option.or_eq_none_iff.mp hhand).1) hpos _ hasked
      rw [Option.toList_none, nil_append, map_map, length_map]
      exact hgrant
    | some chunk =>
      have hasked : writer.granted size call.turn = if call.turn.grants = 0 then none else writer.allocFuture := by
        unfold granted
        rw [hhand]
        rfl
      have hwrites := h.writes hleft hhand hpos
        ((writer.granted size call.turn).toList.map (fun memory => (Chunk.new memory).room) ++
          replicate (recycled (writer.futures.length + 1 + (writer.granted size call.turn).toList.length) call.turn.done)
            chunkSize)
        (fun n writer' => grantLoop call.buf call.turn.done call.turn.grants (0 + n) writer')
        (fun n writer' => grantLoop_written call.turn.grants writer') fun n writer' accepted' hheld hmore hsame hstill => by
          rw [← hsame] at hasked
          rcases hstill with hreached | ⟨hcurr, hfutures⟩
          · exact (grantLoop_meets call.turn.done call.turn.grants hheld (Or.inl hreached) hmore hasked).reached hreached
          have hgrant := grantLoop_meets call.turn.done call.turn.grants hheld (Or.inr hcurr) hmore hasked
          rwa [hfutures] at hgrant
      rw [Option.toList_some, singleton_append, map_cons, map_map, length_cons, length_map]
      simp only [Nat.zero_add, Nat.sub_zero, drop_zero] at hwrites
      rw [cons_append, Nat.add_comm _ 1, ← Nat.add_assoc]
      exact hwrites

theorem Held.refuses (h : Held size writer accepted) (call : Call) :
    (Refuses size writer call ↔ ¬Overruns size writer call) ∧
      (¬Overruns size writer call → ∃ accepted', Held size (writer.pollWrite call.buf call.turn).2 accepted') := by
  have hmeets := pollWrite_meets h call
  refine ⟨⟨fun hrefuses hover => Nat.not_lt.mpr hrefuses.1 (hmeets.exceeds hover), fun hnot => ?_⟩,
    fun hnot => (hmeets.holds hnot).2⟩
  obtain ⟨hpanic, accepted', hheld⟩ := hmeets.holds hnot
  refine ⟨hheld.within, hpanic, fun hreached htee => ?_⟩
  unfold pollWrite
  rw [htee, if_neg Bool.false_ne_true, writeNextChunk_reached h.sending.size hreached call.nonempty]

/-- A declared size is kept, through every call of a run, exactly where no call comes by a
buffer with more room than the size has left, and has the bytes to go past it there. -/
theorem refuses_iff_not_overruns (size : Nat) (calls : List Call) :
    (∀ front call back, calls = front ++ call :: back → Refuses size (Writer.after size front) call) ↔
      ∀ front call back, calls = front ++ call :: back → ¬Overruns size (Writer.after size front) call := by
  have hiff : ∀ writer call, (∃ accepted, Held size writer accepted) →
      (Refuses size writer call ↔ ¬Overruns size writer call) := fun _ call ⟨_, h⟩ => (h.refuses call).1
  have hkeep : ∀ (writer : Writer) (call : Call), (∃ accepted, Held size writer accepted) →
      ¬Overruns size writer call → ∃ accepted, Held size (writer.pollWrite call.buf call.turn).2 accepted :=
    fun _ call ⟨_, h⟩ => (h.refuses call).2
  exact forall_moves_iff hiff hkeep ⟨[], held_new size⟩ calls

/-! ## A file that grew by a byte -/

variable {buf : List UInt8}

def grownSize : Nat := chunkSize + 10

/-- Its first chunk, in memory granted at once. -/
def firstCall : Call where
  buf := List.replicate chunkSize 0
  turn :=
    {
      teeBlocked := false
      grants := 1
      done := []
    }
  nonempty hnil := by
    have hpos := chunkSize_pos
    rw [replicate_eq_nil_iff] at hnil
    omega

/-- Eleven bytes more, when the first chunk is uploaded and no memory is granted. -/
def grownCall : Call where
  buf := List.replicate 11 0
  turn :=
    {
      teeBlocked := false
      grants := 0
      done := [{ place := 0, failed := false }]
    }
  nonempty := by decide

theorem nextChunkSize_grown {writer : Writer} (hsize : writer.size = some grownSize)
    (hidx : writer.nextChunkIdx ≤ 1) : ∃ memory, writer.nextChunkSize = .ok (some memory) ∧
      (writer.nextChunkIdx = 0 → memory = fullChunk) := by
  have hpos := chunkSize_pos
  have hdiv : grownSize / chunkSize = 1 := by
    unfold grownSize
    rw [Nat.add_div_left _ hpos, Nat.div_eq_of_lt]
    unfold chunkSize
    omega
  unfold Writer.nextChunkSize
  rw [hsize]
  split
  · rename_i hzero
    unfold grownSize at hzero
    injection hzero with hzero
    omega
  · rename_i hnone
    cases hnone
  rename_i size _ hsome
  injection hsome with hsome
  rw [← hsome, hdiv]
  split
  · exact ⟨fullChunk, rfl, fun _ => rfl⟩
  rename_i hlast
  have hone : writer.nextChunkIdx = 1 := by omega
  rw [hone, Nat.one_mul]
  unfold grownSize
  rw [if_neg (by omega), Nat.add_sub_cancel_left]
  rw [if_pos (by decide)]
  exact ⟨_, rfl, fun hzero => by omega⟩

theorem fillChunk_whole (base : Writer) (hbuf : buf.length = chunkSize) :
    (base.fillChunk (Chunk.new fullChunk) buf).1 = chunkSize ∧
      (base.fillChunk (Chunk.new fullChunk) buf).2.size = base.size ∧
      (base.fillChunk (Chunk.new fullChunk) buf).2.nextChunkIdx = base.nextChunkIdx + 1 ∧
      (base.fillChunk (Chunk.new fullChunk) buf).2.written = base.written + chunkSize ∧
      (base.fillChunk (Chunk.new fullChunk) buf).2.currChunk = base.currChunk ∧
      (base.fillChunk (Chunk.new fullChunk) buf).2.allocatedChunks = base.allocatedChunks ∧
      (base.fillChunk (Chunk.new fullChunk) buf).2.allocFuture = base.allocFuture ∧
      (base.fillChunk (Chunk.new fullChunk) buf).2.futures = base.futures ++ [fullChunk] := by
  have htakes : (Chunk.new fullChunk).takes buf.length = chunkSize := by
    unfold Chunk.takes Chunk.room Chunk.capacity Chunk.new fullChunk
    rw [hbuf, Nat.add_sub_cancel, length_nil, Nat.sub_zero, Nat.min_self, Nat.min_self]
  have hlength : ((Chunk.new fullChunk).data ++ buf.take chunkSize).length = chunkSize := by
    unfold Chunk.new
    rw [nil_append, length_take_of_le (Nat.le_of_eq hbuf.symm)]
  unfold Writer.fillChunk
  rw [Chunk.write_take, htakes]
  dsimp only
  rw [hlength, if_neg (Nat.lt_irrefl _)]
  exact ⟨rfl, rfl, rfl, rfl, rfl, rfl, rfl, rfl⟩

/-- A writer of the grown file after so many whole chunks, with no memory at hand. -/
structure AtChunk (writer : Writer) (count : Nat) (inFlight : List Nat) : Prop where
  size : writer.size = some grownSize
  idx : writer.nextChunkIdx = count
  written : writer.written = count * chunkSize
  currChunk : writer.currChunk = none
  allocatedChunks : writer.allocatedChunks = []
  allocFuture : writer.allocFuture = none
  futures : writer.futures = inFlight

theorem AtChunk.exceeds (h : AtChunk writer 0 []) (hbuf : buf.length = chunkSize) :
    wouldExceedKnownSize writer.size writer.written buf.length = false := by
  refine wouldExceedKnownSize_eq_false fun size hsize => ?_
  rw [h.size] at hsize
  cases hsize
  rw [h.written, hbuf]
  unfold grownSize
  omega

theorem AtChunk.first (h : AtChunk writer 0 []) (hbuf : buf.length = chunkSize) :
    AtChunk (writer.pollWrite buf
      {
        teeBlocked := false
        grants := 1
        done := []
      }).2 1 [fullChunk] := by
  have hpos := chunkSize_pos
  obtain ⟨memory, hnext, hfull⟩ := nextChunkSize_grown h.size (by rw [h.idx]; exact Nat.zero_le _)
  rw [hfull h.idx] at hnext
  have hexceed := h.exceeds hbuf
  have hask := writeNextChunk_ask hexceed h.currChunk h.allocatedChunks hnext
  rw [h.allocFuture, Option.getD_none] at hask
  have hnext' : nextChunkSize { writer with allocFuture := none } = .ok (some fullChunk) := hnext
  have hgrant := @writeNextChunk_spare
    { writer with
      allocFuture := none
      allocatedChunks := Chunk.new fullChunk :: writer.allocatedChunks }
    buf (Chunk.new fullChunk) writer.allocatedChunks hexceed h.currChunk rfl
  obtain ⟨hn, hsize, hidx, hwritten, hcurr, hspare, hasked, hfutures⟩ := fillChunk_whole
    { writer with
      allocFuture := none
      allocatedChunks := writer.allocatedChunks } hbuf
  unfold Writer.pollWrite
  rw [if_neg Bool.false_ne_true, hask]
  dsimp only
  rw [if_neg (by omega)]
  unfold Writer.grantLoop
  dsimp only
  rw [hnext']
  rw [drop_zero, hgrant]
  dsimp only at hn hsize hidx hwritten hcurr hspare hasked hfutures ⊢
  rw [hn, if_pos (by omega)]
  constructor
  · rw [hsize, h.size]
  · rw [hidx, h.idx]
  · rw [hwritten, h.written]
    omega
  · rw [hcurr, h.currChunk]
  · rw [hspare, h.allocatedChunks]
  · exact hasked
  rw [hfutures, h.futures]
  rfl

theorem AtChunk.second (h : AtChunk writer 1 [fullChunk]) (hbuf : buf.length = 11) :
    (writer.pollWrite buf
      {
        teeBlocked := false
        grants := 0
        done := [{ place := 0, failed := false }]
      }).2.written = chunkSize + 11 := by
  obtain ⟨memory, hnext, -⟩ := nextChunkSize_grown h.size (Nat.le_of_eq h.idx)
  have hexceed : wouldExceedKnownSize writer.size writer.written buf.length = false := by
    rw [h.size, h.written, Nat.one_mul]
    unfold Writer.wouldExceedKnownSize grownSize
    rw [Option.any_some, decide_eq_false (by omega)]
    rfl
  have hask := writeNextChunk_ask hexceed h.currChunk h.allocatedChunks hnext
  rw [h.allocFuture, Option.getD_none] at hask
  have hnext' : nextChunkSize { writer with allocFuture := none } = .ok (some memory) := hnext
  have hnext'' : nextChunkSize
      { writer with
        allocFuture := some memory
        futures := writer.futures.eraseIdx 0 } = .ok (some memory) := hnext
  have hwrite := @writeNextChunk_spare
    { writer with
      allocFuture := some memory
      futures := writer.futures.eraseIdx 0
      allocatedChunks := Chunk.new fullChunk :: writer.allocatedChunks }
    buf (Chunk.new fullChunk) writer.allocatedChunks hexceed h.currChunk rfl
  have hat : writer.futures[0]? = some fullChunk := by
    rw [h.futures]
    rfl
  have hsome : writer.futures ≠ [] := by
    rw [h.futures]
    exact cons_ne_nil _ _
  have htakes : (Chunk.new fullChunk).takes buf.length = 11 := by
    unfold Chunk.takes Chunk.room Chunk.capacity Chunk.new fullChunk
    rw [hbuf, Nat.add_sub_cancel, length_nil, Nat.sub_zero]
    unfold chunkSize
    decide
  have hfill : ∀ base : Writer, base.written = writer.written →
      (base.fillChunk (Chunk.new fullChunk) buf).1 = 11 ∧
        (base.fillChunk (Chunk.new fullChunk) buf).2.written = chunkSize + 11 := by
    intro base hbase
    unfold Writer.fillChunk
    rw [Chunk.write_take, htakes]
    dsimp only
    split
    · exact ⟨rfl, by rw [hbase, h.written, Nat.one_mul]⟩
    exact ⟨rfl, by
      unfold Writer.pushUploadNextChunk
      rw [hbase, h.written, Nat.one_mul]⟩
  unfold Writer.pollWrite
  rw [if_neg Bool.false_ne_true, hask]
  dsimp only
  rw [if_neg (by omega)]
  unfold Writer.grantLoop
  dsimp only
  rw [hnext']
  unfold Writer.drainLoop
  dsimp only
  rw [if_neg hsome, hat]
  dsimp only
  rw [if_neg Bool.false_ne_true, hnext'']
  dsimp only
  rw [if_pos (by omega), drop_zero, Option.isSome_some, if_pos rfl, hwrite]
  obtain ⟨hn, hwritten⟩ := hfill
    { writer with
      allocFuture := some memory
      futures := writer.futures.eraseIdx 0 } rfl
  dsimp only at hn hwritten ⊢
  rw [hn, if_pos (by omega)]
  exact hwritten

/-- A byte past the declared size is taken, by a writer with the first chunk's memory back. -/
theorem not_refuses_grownCall :
    ¬∀ front call back, [firstCall, grownCall] = front ++ call :: back →
      Refuses grownSize (Writer.after grownSize front) call := by
  intro hall
  obtain ⟨hwithin, -⟩ := hall [firstCall] grownCall [] rfl
  have hnew : AtChunk (new (some grownSize)) 0 [] :=
    ⟨rfl, rfl, (Nat.zero_mul _).symm, rfl, rfl, rfl, rfl⟩
  have hfirst : AtChunk (Writer.after grownSize [firstCall]) 1 [fullChunk] := by
    unfold Writer.after firstCall
    rw [foldl_cons, foldl_nil]
    exact hnew.first length_replicate
  have hsecond : ((Writer.after grownSize [firstCall]).pollWrite grownCall.buf grownCall.turn).2.written =
      chunkSize + 11 := by
    exact hfirst.second length_replicate
  rw [hsecond] at hwithin
  unfold grownSize at hwithin
  omega

end Held

end SyncEngine.Transfer
