import SyncEngine.Transfer.Written

/-! # A session uploads what its writer took

By buffers or by chunks, the bytes a session's writer has taken are its uploads, each but
the last a whole chunk, and completing the upload is given their number, their chunks and
their hash.
-/

namespace SyncEngine.Transfer

open Collections FileWriter Session List

variable {Hash : Type} {blake3 : List UInt8 → Hash} {declared : Option Nat} {writer : Writer}
  {accepted : List UInt8}

/-! ## Closing -/

/-- A writer that has uploaded all it took. -/
structure Drained (writer : Writer) (accepted : List UInt8) : Prop where
  empty : writer.currChunk = none
  written : writer.written = accepted.length
  chunks : writer.nextChunkIdx = pieceCount chunkSize accepted.length
  hashed : writer.hashed = accepted
  uploaded : writer.uploaded = Collections.numbered chunkSize accepted (pieceCount chunkSize accepted.length)

theorem Sending.pushLast (h : Sending declared writer accepted) {lastChunk : Chunk}
    (hcurr : writer.currChunk = some lastChunk) :
    Drained ({ writer with currChunk := none }.pushUploadNextChunk lastChunk) accepted := by
  have hkept := h.tallied.kept
  unfold Writer.heldBack at hkept
  rw [hcurr] at hkept
  have hkept' : lastChunk.data = accepted.drop (writer.nextChunkIdx * chunkSize) := hkept
  have hpos := length_pos_of_ne_nil (h.begun lastChunk hcurr)
  have hpart := h.tallied.part
  have hcount : pieceCount chunkSize accepted.length = writer.nextChunkIdx + 1 := by
    refine pieceCount_eq ?_ (Nat.le_of_lt hpart)
    rw [hkept', length_drop] at hpos
    rw [Nat.add_mul, Nat.one_mul]
    omega
  have hcounted : Counted { writer with currChunk := none } accepted :=
    ⟨h.tallied.counted.written, h.tallied.counted.whole, h.tallied.counted.hashed,
      h.tallied.counted.uploaded⟩
  obtain ⟨hwritten, hhashed, huploaded⟩ := hcounted.push hkept (Nat.le_of_lt hpart)
  refine ⟨rfl, hwritten, hcount.symm, hhashed, ?_⟩
  rw [hcount]
  exact huploaded

theorem Sending.drained (h : Sending declared writer accepted) (hcurr : writer.currChunk = none) :
    Drained writer accepted := by
  have hkept := h.tallied.kept
  unfold Writer.heldBack at hkept
  rw [hcurr] at hkept
  have hwhole := h.tallied.counted.whole
  have hlength : accepted.length = writer.nextChunkIdx * chunkSize := by
    have hnil := congrArg List.length hkept
    rw [length_drop] at hnil
    have hzero : ((none : Option Chunk).map Chunk.data).getD [] = [] := rfl
    rw [hzero, length_nil] at hnil
    omega
  have hcount : pieceCount chunkSize accepted.length = writer.nextChunkIdx := by
    have hpos := chunkSize_pos
    exact pieceCount_eq (by omega) (Nat.le_of_eq hlength)
  refine ⟨hcurr, h.tallied.counted.written, hcount.symm, ?_, ?_⟩
  · rw [h.tallied.counted.hashed, ← hlength, take_length]
  rw [hcount]
  exact h.tallied.counted.uploaded

theorem Drained.futures (h : Drained writer accepted) (futures : List Nat) :
    Drained { writer with futures } accepted :=
  ⟨h.empty, h.written, h.chunks, h.hashed, h.uploaded⟩

theorem drain_drained (done : List UploadDone) (hdone : ∀ upload ∈ done, upload.failed = false)
    (h : Drained writer accepted) :
    ((writer.drain done).1 = .pending ∨ (writer.drain done).1 = .ok ()) ∧
      Drained (writer.drain done).2 accepted := by
  induction done generalizing writer with
  | nil =>
    unfold Writer.drain
    split
    · exact ⟨Or.inr rfl, h⟩
    · exact ⟨Or.inl rfl, h⟩
  | cons upload done ih =>
    unfold Writer.drain
    split
    · exact ⟨Or.inr rfl, h⟩
    dsimp only
    split
    · exact ⟨Or.inl rfl, h⟩
    rw [hdone upload mem_cons_self, if_neg Bool.false_ne_true]
    exact ih (fun other hother => hdone other (mem_cons_of_mem _ hother)) (h.futures _)

variable {turn : CloseTurn} {data : List UInt8} {session' : Session Hash} {move : SessionMove}

theorem drained_pushLast (h : (∃ declared, Sending declared writer accepted) ∨ Drained writer accepted) :
    Drained
      (match writer.currChunk with
        | some lastChunk => { writer with currChunk := none }.pushUploadNextChunk lastChunk
        | none => writer) accepted := by
  split
  · rename_i lastChunk hcurr
    rcases h with ⟨declared, h⟩ | h
    · exact h.pushLast hcurr
    rw [h.empty] at hcurr
    cases hcurr
  rename_i hcurr
  rcases h with ⟨declared, h⟩ | h
  · exact h.drained hcurr
  · exact h

theorem drain_pollClose (hdone : ∀ upload ∈ turn.done, upload.failed = false)
    (h : (∃ declared, Sending declared writer accepted) ∨ Drained writer accepted) :
    ((writer.pollClose turn).1 = .pending ∨ (writer.pollClose turn).1 = .ok ()) ∧
      Drained (writer.pollClose turn).2 accepted := by
  unfold Writer.pollClose
  dsimp only
  obtain ⟨hanswer, hdrained⟩ := drain_drained turn.done hdone (drained_pushLast h)
  generalize Writer.drain turn.done _ = drained at hanswer hdrained
  obtain ⟨answer, writer'⟩ := drained
  rcases hanswer with rfl | rfl
  · exact ⟨Or.inl rfl, hdrained⟩
  dsimp only
  split
  · exact ⟨Or.inl rfl, hdrained⟩
  · exact ⟨Or.inr rfl, hdrained⟩

def closingFor (blake3 : List UInt8 → Hash) (accepted : List UInt8) : Closing Hash where
  completion :=
    {
      written := accepted.length
      numChunks := pieceCount chunkSize accepted.length
      hash := blake3 accepted
    }
  uploaded := Collections.numbered chunkSize accepted (pieceCount chunkSize accepted.length)

/-- A writer that is being closed, after it took so many bytes. -/
def Ending (blake3 : List UInt8 → Hash) (accepted : List UInt8) : FileWriter Hash → Prop
  | .uploading writer => Drained writer accepted
  | .waitingForDriveLock closing => closing = closingFor blake3 accepted
  | .completing closing => closing = closingFor blake3 accepted
  | .finalizing closing => closing = closingFor blake3 accepted
  | .complete closing => closing = closingFor blake3 accepted
  | .error _ => True

theorem Drained.closingOf (h : Drained writer accepted) :
    closingOf blake3 writer = closingFor blake3 accepted := by
  unfold FileWriter.closingOf closingFor
  rw [h.written, h.chunks, h.hashed, h.uploaded]

theorem ending_closeFinalizing (turn : CloseTurn) :
    Ending blake3 accepted (closeFinalizing turn (closingFor blake3 accepted)).2 := by
  unfold FileWriter.closeFinalizing
  split
  · rfl
  · rfl
  · trivial

theorem ending_closeCompleting (turn : CloseTurn) :
    Ending blake3 accepted (closeCompleting turn (closingFor blake3 accepted)).2 := by
  unfold FileWriter.closeCompleting
  split
  · rfl
  · exact ending_closeFinalizing turn
  · trivial

theorem ending_closeWaiting (turn : CloseTurn) :
    Ending blake3 accepted (closeWaiting turn (closingFor blake3 accepted)).2 := by
  unfold FileWriter.closeWaiting
  split
  · rfl
  · exact ending_closeCompleting turn
  · trivial

theorem ending_uploading (hdone : ∀ upload ∈ turn.done, upload.failed = false)
    (h : (∃ declared, Sending declared writer accepted) ∨ Drained writer accepted) :
    Ending blake3 accepted (pollClose blake3 turn (.uploading writer)).2 := by
  obtain ⟨hanswer, hdrained⟩ := drain_pollClose hdone h
  unfold FileWriter.pollClose
  dsimp only
  generalize writer.pollClose turn = polled at hanswer hdrained
  obtain ⟨answer, writer'⟩ := polled
  rcases hanswer with rfl | rfl
  · exact hdrained
  dsimp only
  rw [hdrained.closingOf]
  exact ending_closeWaiting turn

theorem Ending.pollClose {fileWriter : FileWriter Hash} (h : Ending blake3 accepted fileWriter)
    (hdone : ∀ upload ∈ turn.done, upload.failed = false) :
    Ending blake3 accepted (fileWriter.pollClose blake3 turn).2 := by
  cases fileWriter with
  | uploading writer => exact ending_uploading hdone (Or.inr h)
  | waitingForDriveLock closing =>
    have heq : closing = closingFor blake3 accepted := h
    rw [heq]
    exact ending_closeWaiting turn
  | completing closing =>
    have heq : closing = closingFor blake3 accepted := h
    rw [heq]
    exact ending_closeCompleting turn
  | finalizing closing =>
    have heq : closing = closingFor blake3 accepted := h
    rw [heq]
    exact ending_closeFinalizing turn
  | complete closing => exact h
  | error failure => trivial

/-! ## Chunks in hand -/

/-- Chunks a caller was handed: empty, and of a size that does for the next one. -/
def Handed (declared : Option Nat) (idx : Nat) (hand : List Chunk) : Prop :=
  ∀ chunk ∈ hand, chunk.data = [] ∧ Sized declared idx chunk.size

theorem reclaim_sending (done : List UploadDone) (hdone : ∀ upload ∈ done, upload.failed = false)
    (h : Sending declared writer accepted) :
    (writer.reclaim done).1 = .ok () ∧ Sending declared (writer.reclaim done).2 accepted ∧
      (writer.reclaim done).2.nextChunkIdx = writer.nextChunkIdx ∧
      (writer.reclaim done).2.currChunk = writer.currChunk := by
  induction done generalizing writer with
  | nil => exact ⟨rfl, h, rfl, rfl⟩
  | cons upload done ih =>
    unfold Writer.reclaim
    split
    · exact ⟨rfl, h, rfl, rfl⟩
    rename_i memory hat
    rw [hdone upload mem_cons_self, if_neg Bool.false_ne_true]
    exact ih (fun other hother => hdone other (mem_cons_of_mem _ hother)) (h.reclaim hat)

theorem Sending.pollNextChunk (h : Sending declared writer accepted) {turn : Turn}
    (hdone : ∀ upload ∈ turn.done, upload.failed = false) :
    Sending declared (writer.pollNextChunk turn).2 accepted ∧
      (writer.pollNextChunk turn).2.nextChunkIdx = writer.nextChunkIdx ∧
      (writer.pollNextChunk turn).2.currChunk = writer.currChunk ∧
      ∀ chunk, (writer.pollNextChunk turn).1 = .ok chunk →
        chunk.data = [] ∧ Sized declared writer.nextChunkIdx chunk.size := by
  obtain ⟨hok, hsending, hidx, hcurr⟩ := reclaim_sending turn.done hdone h
  unfold Writer.pollNextChunk
  dsimp only
  split
  · exact ⟨h, rfl, rfl, fun _ hchunk => nomatch hchunk⟩
  · rename_i memory hopen hnext
    split
    · exact ⟨h, rfl, rfl, fun _ hchunk => nomatch hchunk⟩
    generalize writer.reclaim turn.done = reclaimed at hok hsending hidx hcurr
    obtain ⟨answer, writer'⟩ := reclaimed
    rw [show answer = .ok () from hok]
    dsimp only at hsending hidx hcurr ⊢
    have hstocked := hsending.tallied.stocked
    split
    · rename_i chunk spare hspare
      have hfirst := hstocked.spare chunk (hspare ▸ mem_cons_self)
      have hrest : ∀ other ∈ spare, other.data = [] ∧ Sized declared writer'.nextChunkIdx other.size :=
        fun other hother => hstocked.spare other (hspare ▸ mem_cons_of_mem _ hother)
      refine ⟨@Sending.restock declared writer' accepted hsending spare writer'.allocFuture
        writer'.futures ⟨hrest, hstocked.asked, hstocked.inFlight⟩, hidx, hcurr,
        fun other hother => ?_⟩
      cases hother
      rw [← hidx]
      exact hfirst
    have hmemory : Sized declared writer'.nextChunkIdx (writer'.allocFuture.getD memory) := by
      cases hfuture : writer'.allocFuture with
      | some before => exact hstocked.asked before hfuture
      | none =>
        rcases h.nextChunkSize with ⟨hzero, -⟩ | ⟨found, hfound, hsized⟩
        · rw [hzero] at hnext
          cases hnext
        rw [hfound] at hnext
        cases hnext
        rw [hidx]
        exact hsized
    split
    · refine ⟨@Sending.restock declared writer' accepted hsending writer'.allocatedChunks
        (some (writer'.allocFuture.getD memory)) writer'.futures
        ⟨hstocked.spare, fun asked hasked => ?_, hstocked.inFlight⟩, hidx, hcurr,
        fun _ hchunk => nomatch hchunk⟩
      cases hasked
      exact hmemory
    refine ⟨@Sending.restock declared writer' accepted hsending writer'.allocatedChunks none
      writer'.futures ⟨hstocked.spare, (fun _ hnone => nomatch hnone), hstocked.inFlight⟩, hidx,
      hcurr, fun other hother => ?_⟩
    cases hother
    rw [← hidx]
    exact ⟨rfl, hmemory⟩
  all_goals exact ⟨h, rfl, rfl, fun _ hchunk => nomatch hchunk⟩

/-- A chunk of the data that follows what was taken is taken whole, and is kept only where
the data ends. -/
theorem Sending.submitChunk (h : Sending declared writer accepted)
    {hand : List Chunk} {chunk : Chunk} {bytes : List UInt8}
    (hdata : ∀ size, declared = some size → data.length ≤ size) (hfront : accepted <+: data)
    (hend : writer.currChunk ≠ none → accepted = data) (hhand : Handed declared writer.nextChunkIdx hand)
    (hchunk : Sized declared writer.nextChunkIdx chunk.size)
    (hbytes : bytes = (data.drop accepted.length).take chunk.capacity) :
    ∃ writer', writer.submitChunk { chunk with data := bytes } = writer' ∧
      Sending declared writer' (accepted ++ bytes) ∧ accepted ++ bytes <+: data ∧
      (writer'.currChunk ≠ none → accepted ++ bytes = data) ∧
      Handed declared writer'.nextChunkIdx hand := by
  refine ⟨_, rfl, ?_⟩
  obtain ⟨rest, rfl⟩ := hfront
  rw [drop_left] at hbytes
  unfold Writer.submitChunk
  by_cases hnil : bytes = []
  · rw [if_pos hnil, hnil, append_nil]
    exact ⟨h, prefix_append _ _, hend, hhand⟩
  have hnone : writer.currChunk = none := by
    by_contra hsome
    have hrest : rest = [] := append_right_eq_self.mp (hend hsome).symm
    rw [hrest, take_nil] at hbytes
    exact hnil hbytes
  have hprefix : accepted ++ bytes <+: accepted ++ rest := by
    rw [hbytes]
    exact (prefix_append_right_inj _).mpr ( take_prefix _ _)
  have hcounted := h.tallied.counted.append bytes
  -- nothing is held back, so the chunk starts where the uploaded ones end
  have hkept := h.tallied.kept
  unfold Writer.heldBack at hkept
  rw [hnone] at hkept
  have hat : bytes = (accepted ++ bytes).drop (writer.nextChunkIdx * chunkSize) := by
    rw [drop_append_of_le_length h.tallied.counted.whole, ← hkept]
    rfl
  have hlength : accepted.length = writer.nextChunkIdx * chunkSize := by
    have hdrop := congrArg List.length hkept
    have hzero : ((none : Option Chunk).map Chunk.data).getD [] = [] := rfl
    rw [length_drop, hzero, length_nil] at hdrop
    have hwhole := h.tallied.counted.whole
    omega
  have hroom : bytes.length ≤ chunkSize := by
    have hle := hchunk.le
    rw [hbytes, length_take]
    unfold Chunk.capacity
    unfold fullChunk at hle
    omega
  have htotal : (accepted ++ bytes).length = writer.nextChunkIdx * chunkSize + bytes.length := by
    rw [length_append, hlength]
  have hlast : (accepted ++ bytes).length ≤ (writer.nextChunkIdx + 1) * chunkSize := by
    rw [htotal, Nat.add_mul, Nat.one_mul]
    omega
  have hwithin : ∀ size, declared = some size → (accepted ++ bytes).length ≤ size := fun size hsize =>
    Nat.le_trans hprefix.length_le (hdata size hsize)
  have hnext : (writer.nextChunkIdx + 1) * chunkSize ≤ (accepted ++ bytes).length →
      ∀ memory, Sized declared writer.nextChunkIdx memory →
        Sized declared (writer.nextChunkIdx + 1) memory := fun hle memory hmemory =>
    hmemory.next fun size hsize => Nat.le_trans hle (hwithin size hsize)
  have htallied := @tallied_keepOrPush (Sized declared)
    { writer with written := writer.written + bytes.length } (accepted ++ bytes)
    { chunk with data := bytes } hcounted
    ⟨h.tallied.stocked.spare, h.tallied.stocked.asked, h.tallied.stocked.inFlight⟩ hnone hlast hat
    hchunk hnext
  rw [if_neg hnil]
  by_cases hkeep : bytes.length < chunkSize
  · rw [if_pos hkeep] at htallied ⊢
    refine ⟨⟨h.size, htallied, hwithin, fun other hother => ?_⟩, hprefix, fun _ => ?_, hhand⟩
    · cases hother
      exact hnil
    -- a chunk with room left holds the rest of the data
    have hrest : rest.length ≤ chunk.capacity := by
      unfold Chunk.capacity
      rcases hchunk with hfull | ⟨size, hsize, hidx, hsmall⟩
      · rw [hbytes, length_take] at hkeep
        unfold Chunk.capacity at hkeep
        rw [hfull] at hkeep ⊢
        unfold fullChunk at hkeep ⊢
        omega
      have hle := hdata size hsize
      have hdiv := Nat.div_add_mod' size chunkSize
      rw [← hidx] at hdiv
      rw [length_append, hlength] at hle
      rw [hsmall]
      omega
    rw [hbytes, take_of_length_le hrest]
  rw [if_neg hkeep] at htallied ⊢
  refine ⟨⟨h.size, htallied, hwithin, fun other hother => ?_⟩, hprefix, fun hsome => ?_,
    fun other hother => ⟨(hhand other hother).1, ?_⟩⟩
  · have hother' : writer.currChunk = some other := hother
    rw [hnone] at hother'
    cases hother'
  · exact absurd hnone hsome
  refine hnext ?_ _ (hhand other hother).2
  rw [htotal, Nat.add_mul, Nat.one_mul]
  omega

/-! ## Sessions -/

/-- What a session has uploaded, and what it completes the upload with, by the bytes its
writer took. -/
def Uploads (blake3 : List UInt8 → Hash) (session : Session Hash) : Prop :=
  match session.writer with
  | .uploading writer =>
    writer.written = session.accepted.length ∧
      ∃ k ≤ pieceCount chunkSize session.accepted.length,
        writer.uploaded = Collections.numbered chunkSize session.accepted k
  | .waitingForDriveLock closing => closing = closingFor blake3 session.accepted
  | .completing closing => closing = closingFor blake3 session.accepted
  | .finalizing closing => closing = closingFor blake3 session.accepted
  | .complete closing => closing = closingFor blake3 session.accepted
  | .error _ => True

theorem Sending.uploads (h : Sending declared writer accepted) :
    writer.written = accepted.length ∧
      ∃ k ≤ pieceCount chunkSize accepted.length, writer.uploaded = Collections.numbered chunkSize accepted k := by
  refine ⟨h.tallied.counted.written, writer.nextChunkIdx, ?_, h.tallied.counted.uploaded⟩
  refine (Nat.le_div_iff_mul_le chunkSize_pos).mpr ?_
  have hwhole := h.tallied.counted.whole
  have hpos := chunkSize_pos
  omega

variable {session : Session Hash}

theorem Ending.uploads (h : Ending blake3 session.accepted session.writer) :
    Uploads blake3 session := by
  unfold Uploads
  cases hwriter : session.writer with
  | uploading writer =>
    rw [hwriter] at h
    have hdrained : Drained writer session.accepted := h
    exact ⟨hdrained.written, _, Nat.le_refl _, hdrained.uploaded⟩
  | waitingForDriveLock closing | completing closing | finalizing closing | complete closing =>
    rw [hwriter] at h
    exact h
  | error failure => trivial

section Step

variable {session : Session Hash}

section

variable (hwriter : session.writer = .uploading writer)
include hwriter

theorem step_write (buf : List UInt8) (turn : Turn) :
    step blake3 (.write buf turn) session =
      some
        { session with
          writer := .uploading (writer.pollWrite buf turn).2
          accepted := session.accepted ++
            match (writer.pollWrite buf turn).1 with
            | .ok n => buf.take n
            | _ => [] } := by
  unfold Session.step
  dsimp only
  rw [hwriter]
  rfl

theorem step_next (turn : Turn) :
    step blake3 (.next turn) session =
      some
        { session with
          writer := .uploading (writer.pollNextChunk turn).2
          hand := session.hand ++
            match (writer.pollNextChunk turn).1 with
            | .ok chunk => [chunk]
            | _ => [] } := by
  unfold Session.step
  dsimp only
  rw [hwriter]
  rfl

theorem step_submit {place : Nat} {chunk : Chunk}
    (hat : session.hand[place]? = some chunk) (bytes : List UInt8) :
    step blake3 (.submit place bytes) session =
      some
        { session with
          writer := .uploading (writer.submitChunk { chunk with data := bytes })
          accepted := session.accepted ++ bytes
          hand := session.hand.eraseIdx place } := by
  unfold Session.step
  dsimp only
  rw [hat, hwriter]
  rfl

end

end Step

/-- A session that writes buffers: it is sending, or it is being closed. -/
structure Writing (blake3 : List UInt8 → Hash) (declared : Option Nat) (session : Session Hash) : Prop where
  sending : session.closing = false →
    ∃ writer, session.writer = .uploading writer ∧ Sending declared writer session.accepted
  ending : session.closing = true → Ending blake3 session.accepted session.writer

/-- A session that fills chunks with data. -/
structure Filling (blake3 : List UInt8 → Hash) (declared : Option Nat) (data : List UInt8)
    (session : Session Hash) : Prop where
  front : session.accepted <+: data
  sending : session.closing = false →
    ∃ writer, session.writer = .uploading writer ∧ Sending declared writer session.accepted ∧
      (writer.currChunk ≠ none → session.accepted = data) ∧
      Handed declared writer.nextChunkIdx session.hand
  ending : session.closing = true → Ending blake3 session.accepted session.writer

theorem ending_close (hdone : ∀ upload ∈ turn.done, upload.failed = false)
    (hsending : session.closing = false →
      ∃ writer, session.writer = .uploading writer ∧ Sending declared writer session.accepted)
    (hending : session.closing → Ending blake3 session.accepted session.writer) :
    Ending blake3 session.accepted (session.writer.pollClose blake3 turn).2 := by
  cases hclosing : session.closing with
  | false =>
    obtain ⟨writer, hwriter, h⟩ := hsending hclosing
    rw [hwriter]
    exact ending_uploading hdone (Or.inl ⟨declared, h⟩)
  | true => exact (hending hclosing).pollClose hdone

theorem writing_step
    (h : Writing blake3 declared session) (hallowed : ByWrites Hash declared session move)
    (hstep : step blake3 move session = some session') : Writing blake3 declared session' := by
  cases move with
  | write buf turn =>
    obtain ⟨hclosing, hbuf, hwithin, hdone⟩ := hallowed
    obtain ⟨writer, hwriter, hsending⟩ := h.sending hclosing
    rw [step_write hwriter] at hstep
    cases hstep
    refine ⟨fun _ => ⟨_, rfl, ?_⟩, fun hopen => ?_⟩
    · rcases pollWrite_takes hsending hbuf hwithin hdone with ⟨hanswer, hkept⟩ | ⟨n, hanswer, -, -, htaken⟩
      · rw [hanswer, append_nil]
        exact hkept
      rw [hanswer]
      exact htaken
    rw [show session.closing from hopen] at hclosing
    cases hclosing
  | next turn => exact hallowed.elim
  | submit place bytes => exact hallowed.elim
  | close turn =>
    cases hstep
    constructor
    · exact nofun
    · exact fun _ => ending_close hallowed h.sending h.ending

theorem filling_step (hdata : ∀ size, declared = some size → data.length ≤ size)
    (h : Filling blake3 declared data session) (hallowed : ByChunks Hash data session move)
    (hstep : step blake3 move session = some session') :
    Filling blake3 declared data session' := by
  cases move with
  | write buf turn => exact hallowed.elim
  | next turn =>
    obtain ⟨hclosing, hdone⟩ := hallowed
    obtain ⟨writer, hwriter, hsending, hend, hhand⟩ := h.sending hclosing
    obtain ⟨hsending', hidx, hcurr, hchunk⟩ := hsending.pollNextChunk hdone
    rw [step_next hwriter] at hstep
    cases hstep
    refine ⟨h.front, fun _ => ⟨_, rfl, hsending', ?_, ?_⟩, fun hopen => ?_⟩
    · rw [hcurr]
      exact hend
    · intro chunk hmem
      rw [hidx]
      rcases mem_append.mp hmem with hold | hnew
      · exact hhand chunk hold
      split at hnew
      · rename_i handed hanswer
        rw [mem_singleton.mp hnew]
        exact hchunk handed hanswer
      · cases hnew
    rw [show session.closing from hopen] at hclosing
    cases hclosing
  | submit place bytes =>
    obtain ⟨hclosing, chunk, hat, hbytes⟩ := hallowed
    obtain ⟨writer, hwriter, hsending, hend, hhand⟩ := h.sending hclosing
    rw [step_submit hwriter hat] at hstep
    cases hstep
    have hrest : Handed declared writer.nextChunkIdx (session.hand.eraseIdx place) :=
      fun other hother => hhand other (mem_of_mem_eraseIdx hother)
    obtain ⟨writer', rfl, hsending', hfront, hend', hhand'⟩ := hsending.submitChunk hdata h.front
      hend hrest (hhand chunk (mem_of_getElem? hat)).2 hbytes
    refine ⟨hfront, fun _ => ⟨_, rfl, hsending', hend', hhand'⟩, fun hopen => ?_⟩
    rw [show session.closing from hopen] at hclosing
    cases hclosing
  | close turn =>
    cases hstep
    have hsending : session.closing = false →
        ∃ writer, session.writer = .uploading writer ∧ Sending declared writer session.accepted := by
      intro hclosing
      obtain ⟨writer, hwriter, hsending, -⟩ := h.sending hclosing
      exact ⟨writer, hwriter, hsending⟩
    exact ⟨h.front, nofun, fun _ => ending_close hallowed hsending h.ending⟩

/-- Whatever memory is granted and whenever uploads are done, a session by buffers takes
some of each or waits, and by buffers or by chunks what is uploaded is what was taken. -/
theorem session_uploads (blake3 : List UInt8 → Hash) (declared : Option Nat) :
    (∀ session, (machine blake3 declared).Reaches (ByWrites Hash declared) session →
      Uploads blake3 session ∧
        ∀ buf turn, ByWrites Hash declared session (.write buf turn) →
          (session.writer.pollWrite buf turn).1 = .pending ∨
            ∃ n, (session.writer.pollWrite buf turn).1 = .ok n ∧ 1 ≤ n ∧ n ≤ buf.length) ∧
      ∀ data : List UInt8, (∀ size, declared = some size → data.length ≤ size) →
        ∀ session, (machine blake3 declared).Reaches (ByChunks Hash data) session →
          Uploads blake3 session ∧ session.accepted <+: data := by
  constructor
  · intro session hreaches
    have hwriting : Writing blake3 declared session := by
      refine hreaches.invariant ?_ fun s t move hs hallowed hstep => writing_step hs hallowed hstep
      exact ⟨fun _ => ⟨_, rfl, sending_new declared⟩, nofun⟩
    constructor
    · cases hclosing : session.closing with
      | false =>
        obtain ⟨writer, hwriter, hsending⟩ := hwriting.sending hclosing
        unfold Uploads
        rw [hwriter]
        exact hsending.uploads
      | true => exact (hwriting.ending hclosing).uploads
    rintro buf turn ⟨hclosing, hbuf, hwithin, hdone⟩
    obtain ⟨writer, hwriter, hsending⟩ := hwriting.sending hclosing
    have hsame : (session.writer.pollWrite buf turn).1 = (writer.pollWrite buf turn).1 := by
      rw [hwriter]
      rfl
    rw [hsame]
    rcases pollWrite_takes hsending hbuf hwithin hdone with ⟨hanswer, -⟩ | ⟨n, hanswer, hpos, hle, -⟩
    · exact Or.inl hanswer
    · exact Or.inr ⟨n, hanswer, hpos, hle⟩
  intro data hdata session hreaches
  have hfilling : Filling blake3 declared data session := by
    refine hreaches.invariant ?_ fun s t move hs hallowed hstep => filling_step hdata hs hallowed hstep
    exact ⟨ nil_prefix, fun _ => ⟨_, rfl, sending_new declared, fun hsome => absurd rfl hsome,
      fun _ hmem => nomatch hmem⟩, nofun⟩
  refine ⟨?_, hfilling.front⟩
  cases hclosing : session.closing with
  | false =>
    obtain ⟨writer, hwriter, hsending, -⟩ := hfilling.sending hclosing
    unfold Uploads
    rw [hwriter]
    exact hsending.uploads
  | true => exact (hfilling.ending hclosing).uploads

/-! ## A session of two chunks -/

section Recycled

variable {head tail : List UInt8}

/-- A writer of a file of no declared size that has uploaded one whole chunk. -/
def afterHead (head : List UInt8) (futures : List Nat) : Writer where
  size := none
  nextChunkIdx := 1
  written := head.length
  currChunk := none
  allocatedChunks := []
  allocFuture := none
  futures
  hashed := head
  uploaded := [(0, head)]

theorem submitChunk_head (hhead : head.length = chunkSize) :
    (Writer.new none).submitChunk { Chunk.new fullChunk with data := head } = afterHead head [fullChunk] := by
  have hpos := chunkSize_pos
  have hne : head ≠ [] := ne_nil_of_length_pos (by omega)
  unfold Writer.submitChunk
  dsimp only
  rw [if_neg hne, if_neg (by omega)]
  unfold Writer.pushUploadNextChunk Writer.new afterHead
  simp only [Nat.zero_add, nil_append]
  rfl

theorem submitChunk_tail (hne : tail ≠ []) (htail : tail.length < chunkSize) :
    (afterHead head []).submitChunk { Chunk.new fullChunk with data := tail } =
      { afterHead head [] with
        written := head.length + tail.length
        currChunk := some { Chunk.new fullChunk with data := tail } } := by
  unfold Writer.submitChunk
  dsimp only
  rw [if_neg hne, if_pos htail]
  rfl

def freely : Turn where
  teeBlocked := false
  grants := 1
  done := []

/-- No memory is granted, but the first upload is done. -/
def givenBack : Turn where
  teeBlocked := false
  grants := 0
  done := [{ place := 0, failed := false }]

def closingTurn : CloseTurn where
  done := [{ place := 0, failed := false }]
  teePending := false
  lock := .done
  complete := .done
  finalize := .done

/-- A whole chunk in memory that is granted, a short one in the memory it gives back, and the end. -/
theorem reaches_recycled (hhead : head.length = chunkSize) :
    (machine (id : List UInt8 → List UInt8) none).Reaches (ByChunks (List UInt8) (head ++ [1, 2, 3]))
      ⟨.complete ⟨⟨head.length + 3, 2, head ++ [1, 2, 3]⟩, [(0, head), (1, [1, 2, 3])]⟩, head ++ [1, 2, 3], [],
        true⟩ := by
  have htail : ([1, 2, 3] : List UInt8).length < chunkSize := by
    unfold chunkSize
    decide
  have hcapacity : (Chunk.new fullChunk).capacity = chunkSize := Nat.add_sub_cancel _ _
  have hclear : ∀ upload ∈ [(⟨0, false⟩ : UploadDone)], upload.failed = false := by simp
  have hgranted : (machine (id : List UInt8 → List UInt8) none).Reaches (ByChunks _ (head ++ [1, 2, 3]))
      ⟨.uploading (Writer.new none), [], [Chunk.new fullChunk], false⟩ := by
    refine Machine.Reaches.start.step (?_ : ByChunks _ _ _ (.next freely)) rfl
    exact ⟨rfl, fun _ h => nomatch h⟩
  have hsent : (machine (id : List UInt8 → List UInt8) none).Reaches (ByChunks _ (head ++ [1, 2, 3]))
      ⟨.uploading (afterHead head [fullChunk]), head, [], false⟩ := by
    refine hgranted.step (?_ : ByChunks _ _ _ (.submit 0 head)) ?_
    · refine ⟨rfl, Chunk.new fullChunk, rfl, ?_⟩
      rw [hcapacity]
      exact (take_left' hhead).symm
    exact congrArg (fun writer => some (Session.mk (.uploading writer) head [] false)) (submitChunk_head hhead)
  have hback : (machine (id : List UInt8 → List UInt8) none).Reaches (ByChunks _ (head ++ [1, 2, 3]))
      ⟨.uploading (afterHead head []), head, [Chunk.new fullChunk], false⟩ := by
    refine hsent.step (?_ : ByChunks _ _ _ (.next givenBack)) rfl
    exact ⟨rfl, hclear⟩
  have hfilled : (machine (id : List UInt8 → List UInt8) none).Reaches (ByChunks _ (head ++ [1, 2, 3]))
      ⟨.uploading { afterHead head [] with
        written := head.length + 3
        currChunk := some { Chunk.new fullChunk with data := [1, 2, 3] } }, head ++ [1, 2, 3], [], false⟩ := by
    refine hback.step (?_ : ByChunks _ _ _ (.submit 0 [1, 2, 3])) ?_
    · refine ⟨rfl, Chunk.new fullChunk, rfl, ?_⟩
      rw [hcapacity, drop_left, take_of_length_le (Nat.le_of_lt htail)]
    exact congrArg (fun writer => some (Session.mk (.uploading writer) (head ++ [1, 2, 3]) [] false))
      (submitChunk_tail (cons_ne_nil _ _) htail)
  exact hfilled.step (show ByChunks _ _ _ (.close closingTurn) from hclear) rfl

/-- Both chunks are uploaded, and what completes the upload tells them. -/
theorem session_uploads_recycled : ∃ head : List UInt8, head.length = chunkSize ∧ ∃ session,
    (machine (id : List UInt8 → List UInt8) none).Reaches (ByChunks _ (head ++ [1, 2, 3])) session ∧
      session.writer = .complete ⟨⟨chunkSize + 3, 2, head ++ [1, 2, 3]⟩, [(0, head), (1, [1, 2, 3])]⟩ ∧
      session.accepted = head ++ [1, 2, 3] ∧ Uploads id session := by
  refine ⟨List.replicate chunkSize 7, length_replicate, ?_⟩
  have hhead : (List.replicate chunkSize (7 : UInt8)).length = chunkSize := length_replicate
  generalize List.replicate chunkSize (7 : UInt8) = head at hhead
  obtain ⟨-, hchunks⟩ := session_uploads (id : List UInt8 → List UInt8) none
  obtain ⟨huploads, -⟩ := hchunks (head ++ [1, 2, 3]) nofun _ (reaches_recycled hhead)
  exact ⟨_, reaches_recycled hhead, by rw [hhead], rfl, huploads⟩

end Recycled

end SyncEngine.Transfer
