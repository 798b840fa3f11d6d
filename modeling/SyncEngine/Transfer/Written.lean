import SyncEngine.Transfer.Tallied

/-! # A writer uploads what it took

While no more is written than the declared size, every buffer the writer has does for the
chunk it is on: a whole chunk's, or the last one's once the writer is there. So each call
takes something or waits for memory, and each chunk starts where the one before it ends.
-/

namespace SyncEngine.Transfer

open Collections Writer List

/-! ## Sizes of memory -/

/-- Memory for a chunk of a file: a whole chunk's, or what the declared size has past its
whole chunks. -/
def Sized (declared : Option Nat) (idx memory : Nat) : Prop :=
  memory = fullChunk ∨
    ∃ size, declared = some size ∧ idx = size / chunkSize ∧ memory = size % chunkSize + chunkSizeExtra

section Sized

variable {declared : Option Nat} {idx memory : Nat}

theorem Sized.le (h : Sized declared idx memory) : memory ≤ fullChunk := by
  rcases h with rfl | ⟨size, -, -, rfl⟩
  · exact Nat.le_refl _
  · exact Nat.add_le_add_right (Nat.le_of_lt (Nat.mod_lt _ chunkSize_pos)) _

theorem Sized.next (h : Sized declared idx memory)
    (hmore : ∀ size, declared = some size → (idx + 1) * chunkSize ≤ size) :
    Sized declared (idx + 1) memory := by
  rcases h with h | ⟨size, hsize, hidx, -⟩
  · exact Or.inl h
  have hle := (Nat.le_div_iff_mul_le chunkSize_pos).mpr (hmore size hsize)
  omega

theorem Sized.room_pos {chunk : Chunk} {taken : Nat} (h : Sized declared idx chunk.size)
    (hlength : chunk.data.length = taken - idx * chunkSize) (hwhole : idx * chunkSize ≤ taken)
    (hpart : taken < (idx + 1) * chunkSize) (hmore : ∀ size, declared = some size → taken < size) :
    0 < chunk.room := by
  rw [Nat.add_mul, Nat.one_mul] at hpart
  unfold Chunk.room Chunk.capacity
  rcases h with h | ⟨size, hsize, hidx, h⟩
  · rw [h]
    unfold fullChunk
    omega
  have hlt := hmore size hsize
  have hdiv := Nat.div_add_mod' size chunkSize
  rw [← hidx] at hdiv
  rw [h]
  omega

end Sized

namespace Writer

variable {writer : Writer}

theorem nextChunkSize_eq
    (h : ∀ size, writer.size = some size → writer.nextChunkIdx * chunkSize ≤ size) :
    (writer.nextChunkSize = .ok none ∧ writer.size = some 0) ∨
      ∃ memory, writer.nextChunkSize = .ok (some memory) ∧
        Sized writer.size writer.nextChunkIdx memory := by
  unfold nextChunkSize
  split
  · rename_i hsize
    exact Or.inl ⟨rfl, hsize⟩
  · exact Or.inr ⟨fullChunk, rfl, Or.inl rfl⟩
  rename_i size hzero hsize
  have hle := h size hsize
  right
  by_cases hbefore : writer.nextChunkIdx < size / chunkSize
  · rw [if_pos hbefore]
    exact ⟨fullChunk, rfl, Or.inl rfl⟩
  have hidx : writer.nextChunkIdx = size / chunkSize := by
    have hup := (Nat.le_div_iff_mul_le chunkSize_pos).mpr hle
    omega
  have hrest : size - writer.nextChunkIdx * chunkSize = size % chunkSize := by
    have hdiv := Nat.div_add_mod' size chunkSize
    rw [← hidx] at hdiv
    omega
  have hfits : size % chunkSize + chunkSizeExtra < 2 ^ 32 :=
    Nat.lt_trans (Nat.add_lt_add_right (Nat.mod_lt size chunkSize_pos) _) fullChunk_lt
  rw [if_neg hbefore, if_neg (Nat.not_lt.mpr hle), hrest]
  rw [if_pos hfits]
  exact ⟨_, rfl, Or.inr ⟨size, hsize, hidx, rfl⟩⟩

theorem wouldExceedKnownSize_eq_false {knownSize : Option Nat} {written bufLen : Nat}
    (h : ∀ size, knownSize = some size → written + bufLen ≤ size) :
    wouldExceedKnownSize knownSize written bufLen = false := by
  unfold wouldExceedKnownSize
  cases knownSize with
  | none => rfl
  | some size =>
    have hle := h size rfl
    rw [Option.any_some, Bool.and_eq_false_iff, decide_eq_false_iff_not, decide_eq_false_iff_not]
    omega

theorem fillChunk_frame (writer : Writer) (chunk : Chunk) (buf : List UInt8) :
    (writer.fillChunk chunk buf).2.size = writer.size ∧
      ((writer.fillChunk chunk buf).2.currChunk = writer.currChunk ∨
        ∃ kept, (writer.fillChunk chunk buf).2.currChunk = some kept ∧
          kept.data = chunk.data ++ buf.take (chunk.takes buf.length)) := by
  unfold fillChunk
  rw [Chunk.write_take]
  dsimp only
  split
  · exact ⟨rfl, Or.inr ⟨_, rfl, rfl⟩⟩
  · exact ⟨rfl, Or.inl rfl⟩

end Writer

/-! ## One write -/

/-- A writer that has taken bytes of a file of a declared size, and is sending them. -/
structure Sending (declared : Option Nat) (writer : Writer) (accepted : List UInt8) : Prop where
  size : writer.size = declared
  tallied : Tallied (Sized declared) writer accepted
  within : ∀ size, declared = some size → accepted.length ≤ size
  begun : ∀ chunk, writer.currChunk = some chunk → chunk.data ≠ []

theorem sending_new (declared : Option Nat) : Sending declared (new declared) [] where
  size := rfl
  tallied := tallied_new declared
  within _ _ := Nat.zero_le _
  begun _ h := nomatch h

section Sending

variable {declared : Option Nat} {writer : Writer} {accepted buf : List UInt8}

section

variable (h : Sending declared writer accepted)
include h

theorem Sending.nextChunkSize :
    (writer.nextChunkSize = .ok none ∧ declared = some 0) ∨
      ∃ memory, writer.nextChunkSize = .ok (some memory) ∧
        Sized declared writer.nextChunkIdx memory := by
  rw [← h.size]
  refine nextChunkSize_eq fun size hsize => ?_
  exact Nat.le_trans h.tallied.counted.whole (h.within size (h.size ▸ hsize))

theorem Sending.fillChunk {chunk : Chunk} (base : Writer)
    (hsize : base.size = writer.size) (hidx : base.nextChunkIdx = writer.nextChunkIdx)
    (hcounted : Counted base accepted)
    (hstocked : Stocked (Sized declared base.nextChunkIdx) base) (hnone : base.currChunk = none)
    (hchunk : chunk.data = accepted.drop (base.nextChunkIdx * chunkSize))
    (hchunkSize : Sized declared base.nextChunkIdx chunk.size) (hbuf : buf ≠ [])
    (hwithin : ∀ size, declared = some size → accepted.length + buf.length ≤ size) :
    ∃ n writer', base.fillChunk chunk buf = (n, writer') ∧ 0 < n ∧ n ≤ buf.length ∧
      Sending declared writer' (accepted ++ buf.take n) := by
  have hpart := h.tallied.part
  have hpos := length_pos_of_ne_nil hbuf
  rw [← hidx] at hpart
  obtain ⟨hn, htallied⟩ := fillChunk_tallied buf hcounted hstocked hpart hnone hchunk hchunkSize
    hchunkSize.le fun hle memory hmemory =>
      hmemory.next fun size hdeclared => Nat.le_trans hle (hwithin size hdeclared)
  have hroom := hchunkSize.room_pos (by rw [hchunk, length_drop]) hcounted.whole hpart
    fun size hdeclared => by
      have hle := hwithin size hdeclared
      omega
  have htakes := chunk.takes_le buf.length
  have hsome : 0 < chunk.takes buf.length := by
    unfold Chunk.takes
    have hchunkPos := chunkSize_pos
    omega
  obtain ⟨hframe, hkept⟩ := fillChunk_frame base chunk buf
  refine ⟨chunk.takes buf.length, (base.fillChunk chunk buf).2, Prod.ext hn rfl, hsome, htakes, ?_, htallied, ?_, ?_⟩
  · rw [← h.size, ← hsize]
    exact hframe
  · intro size hdeclared
    have hle := hwithin size hdeclared
    rw [length_append, length_take_of_le htakes]
    omega
  intro other hother hempty
  rcases hkept with hsame | ⟨kept, heq, hdata⟩
  · rw [hsame, hnone] at hother
    cases hother
  rw [heq] at hother
  cases hother
  rw [hdata] at hempty
  have hlength := congrArg List.length (append_eq_nil_iff.mp hempty).2
  rw [length_take_of_le htakes, length_nil] at hlength
  omega

theorem Sending.writeNextChunk (hbuf : buf ≠ [])
    (hwithin : ∀ size, declared = some size → accepted.length + buf.length ≤ size) :
    ∃ n writer', writer.writeNextChunk buf = (.ok n, writer') ∧ n ≤ buf.length ∧
      Sending declared writer' (accepted ++ buf.take n) ∧
      (0 < n ∨ writer.allocatedChunks = [] ∧ n = 0 ∧ ∃ memory, writer'.allocFuture = some memory) := by
  have hpos := length_pos_of_ne_nil hbuf
  have hexceed : wouldExceedKnownSize writer.size writer.written buf.length = false := by
    refine wouldExceedKnownSize_eq_false fun size hsize => ?_
    rw [h.tallied.counted.written]
    exact hwithin size (h.size ▸ hsize)
  have htallied := h.tallied
  unfold Writer.writeNextChunk
  rw [hexceed, if_neg Bool.false_ne_true]
  split
  · rename_i spare chunk hcurr
    have hkept := htallied.kept
    unfold Writer.heldBack at hkept
    rw [hcurr] at hkept
    obtain ⟨n, writer', heq, hn, hle, hsending⟩ := h.fillChunk
      { writer with currChunk := none } rfl rfl
      ⟨htallied.counted.written, htallied.counted.whole, htallied.counted.hashed,
        htallied.counted.uploaded⟩
      ⟨htallied.stocked.spare, htallied.stocked.asked, htallied.stocked.inFlight⟩ rfl hkept
      (htallied.current chunk hcurr) hbuf hwithin
    rw [heq]
    exact ⟨n, writer', rfl, hle, hsending, Or.inl hn⟩
  · rename_i chunk spare hnone hspare
    have hkept := htallied.kept
    unfold Writer.heldBack at hkept
    rw [hnone] at hkept
    have hfirst := htallied.stocked.spare chunk (hspare ▸ mem_cons_self)
    obtain ⟨n, writer', heq, hn, hle, hsending⟩ := h.fillChunk
      { writer with allocatedChunks := spare } rfl rfl
      ⟨htallied.counted.written, htallied.counted.whole, htallied.counted.hashed,
        htallied.counted.uploaded⟩
      ⟨fun other hother => htallied.stocked.spare other (hspare ▸ mem_cons_of_mem _ hother),
        htallied.stocked.asked, htallied.stocked.inFlight⟩ hnone (hfirst.1.trans hkept) hfirst.2 hbuf
      hwithin
    rw [heq]
    exact ⟨n, writer', rfl, hle, hsending, Or.inl hn⟩
  rename_i hnone hspare
  rcases h.nextChunkSize with ⟨-, hzero⟩ | ⟨memory, hnext, hmemory⟩
  · have hle := hwithin 0 hzero
    omega
  rw [hnext]
  refine ⟨0, _, rfl, Nat.zero_le _, ?_, Or.inr ⟨hspare, rfl, _, rfl⟩⟩
  rw [take_zero, append_nil]
  refine ⟨h.size, ?_, h.within, h.begun⟩
  refine ⟨⟨htallied.counted.written, htallied.counted.whole, htallied.counted.hashed,
    htallied.counted.uploaded⟩, ?_, htallied.part, htallied.kept, htallied.current⟩
  refine ⟨htallied.stocked.spare, fun asked hasked => ?_, htallied.stocked.inFlight⟩
  cases hfuture : writer.allocFuture with
  | none =>
    have heq : memory = asked := by
      have hcopy := hasked
      rw [hfuture] at hcopy
      exact Option.some.inj hcopy
    rw [← heq]
    exact hmemory
  | some before =>
    have heq : before = asked := by
      have hcopy := hasked
      rw [hfuture] at hcopy
      exact Option.some.inj hcopy
    rw [← heq]
    exact htallied.stocked.asked before hfuture

theorem Sending.restock {allocatedChunks : List Chunk}
    {allocFuture : Option Nat} {futures : List Nat} (hstocked : Stocked (Sized declared writer.nextChunkIdx)
      { writer with allocatedChunks, allocFuture, futures }) :
    Sending declared { writer with allocatedChunks, allocFuture, futures } accepted where
  size := h.size
  tallied :=
    {
      counted :=
        ⟨h.tallied.counted.written, h.tallied.counted.whole, h.tallied.counted.hashed,
          h.tallied.counted.uploaded⟩
      stocked := hstocked
      part := h.tallied.part
      kept := h.tallied.kept
      current := h.tallied.current
    }
  within := h.within
  begun := h.begun

theorem Sending.reclaim {place memory : Nat}
    (hat : writer.futures[place]? = some memory) :
    Sending declared
      { writer with
        futures := writer.futures.eraseIdx place
        allocatedChunks := Chunk.new memory :: writer.allocatedChunks }
      accepted := by
  refine @Sending.restock declared writer accepted h _ writer.allocFuture _ ⟨?_, ?_, ?_⟩
  · intro chunk hchunk
    rcases mem_cons.mp hchunk with rfl | hold
    · exact ⟨rfl, h.tallied.stocked.inFlight memory (mem_of_getElem? hat)⟩
    · exact h.tallied.stocked.spare chunk hold
  · exact h.tallied.stocked.asked
  intro other hother
  exact h.tallied.stocked.inFlight other (mem_of_mem_eraseIdx hother)

theorem Sending.grant {memory : Nat}
    (hasked : writer.allocFuture = some memory) :
    Sending declared
      { writer with
        allocFuture := none
        allocatedChunks := Chunk.new memory :: writer.allocatedChunks }
      accepted := by
  refine @Sending.restock declared writer accepted h _ none writer.futures ⟨?_, ?_, ?_⟩
  · intro chunk hchunk
    rcases mem_cons.mp hchunk with rfl | hold
    · exact ⟨rfl, h.tallied.stocked.asked memory hasked⟩
    · exact h.tallied.stocked.spare chunk hold
  · exact fun _ hnone => nomatch hnone
  · exact h.tallied.stocked.inFlight

end

/-! ## One call -/

/-- A call pends and takes nothing, or takes some of the bytes. -/
def Takes (declared : Option Nat) (accepted buf : List UInt8) (answer : Outcome Nat × Writer) : Prop :=
  (answer.1 = .pending ∧ Sending declared answer.2 accepted) ∨
    ∃ n, answer.1 = .ok n ∧ 0 < n ∧ n ≤ buf.length ∧ Sending declared answer.2 (accepted ++ buf.take n)

variable {written : Nat}

section

variable (h : Sending declared writer (accepted ++ buf.take written))
include h

theorem Sending.writeOn
    (hlt : written < buf.length) (hspare : writer.allocatedChunks ≠ [])
    (hwithin : ∀ size, declared = some size → accepted.length + buf.length ≤ size) :
    ∃ n writer', writer.writeNextChunk (buf.drop written) = (.ok n, writer') ∧ 0 < n ∧
      written + n ≤ buf.length ∧ Sending declared writer' (accepted ++ buf.take (written + n)) := by
  have hdrop : (buf.drop written).length = buf.length - written := length_drop
  have hne : buf.drop written ≠ [] := by
    intro hnil
    rw [hnil, length_nil] at hdrop
    omega
  obtain ⟨n, writer', heq, hle, hsending, hsome⟩ := h.writeNextChunk hne fun size hsize => by
    have htotal := hwithin size hsize
    rw [length_append, length_take_of_le (Nat.le_of_lt hlt), hdrop]
    omega
  rw [append_assoc, ← take_add] at hsending
  refine ⟨n, writer', heq, ?_, by omega, hsending⟩
  rcases hsome with hn | ⟨hempty, -⟩
  · exact hn
  · exact absurd hempty hspare

theorem Sending.stop {pend : Prop} [Decidable pend]
    (hlt : written < buf.length)
    (hpend : pend ↔ written = 0) :
    Takes declared accepted buf (if pend then .pending else .ok written, writer) := by
  by_cases hzero : written = 0
  · rw [if_pos (hpend.mpr hzero)]
    rw [hzero, take_zero, append_nil] at h
    exact Or.inl ⟨rfl, h⟩
  rw [if_neg fun hp => hzero (hpend.mp hp)]
  exact Or.inr ⟨written, rfl, by omega, Nat.le_of_lt hlt, h⟩

theorem Sending.wait
    (hlt : written < buf.length) :
    Takes declared accepted buf (if 0 < written then .ok written else .pending, writer) := by
  have hwait : Takes declared accepted buf (if ¬0 < written then .pending else .ok written, writer) :=
    h.stop hlt ⟨fun hp => by omega, fun hz => by omega⟩
  rwa [ite_not] at hwait

end

theorem drainLoop_takes (hwithin : ∀ size, declared = some size → accepted.length + buf.length ≤ size)
    {shouldPend : Bool} (done : List UploadDone) (hdone : ∀ upload ∈ done, upload.failed = false)
    (h : Sending declared writer (accepted ++ buf.take written))
    (hlt : written < buf.length) (hpend : 0 < written ∨ shouldPend) :
    Takes declared accepted buf (drainLoop buf shouldPend done written writer) := by
  induction done generalizing writer written with
  | nil =>
    unfold Writer.drainLoop
    split
    · exact h.stop hlt ⟨fun hp => hp.2, fun hz => ⟨hpend.resolve_left (by omega), hz⟩⟩
    · exact h.wait hlt
  | cons upload done ih =>
    unfold Writer.drainLoop
    split
    · exact h.stop hlt ⟨fun hp => hp.2, fun hz => ⟨hpend.resolve_left (by omega), hz⟩⟩
    dsimp only
    split
    · exact h.wait hlt
    rename_i memory hat
    rw [hdone upload mem_cons_self, if_neg Bool.false_ne_true]
    have hreclaimed := h.reclaim hat
    rcases hreclaimed.nextChunkSize with ⟨-, hzero⟩ | ⟨next, hnext, -⟩
    · have hle := hwithin 0 hzero
      omega
    have hnext' : nextChunkSize
        { writer with futures := writer.futures.eraseIdx upload.place } = .ok (some next) := hnext
    rw [hnext']
    dsimp only
    obtain ⟨n, writer', heq, hn, hle, hsending⟩ :=
      hreclaimed.writeOn hlt (cons_ne_nil _ _) hwithin
    have heq' : writeNextChunk
        { writer with
          futures := writer.futures.eraseIdx upload.place
          allocatedChunks := Chunk.new memory :: writer.allocatedChunks }
        (buf.drop written) = (.ok n, writer') := heq
    rw [Option.isSome_some, if_pos rfl, heq']
    dsimp only
    by_cases hall : buf.length ≤ written + n
    · rw [if_pos hall]
      exact Or.inr ⟨written + n, rfl, by omega, hle, hsending⟩
    rw [if_neg hall]
    exact ih (fun other hother => hdone other (mem_cons_of_mem _ hother)) hsending
      (by omega) (Or.inl (by omega))

theorem grantLoop_takes (hwithin : ∀ size, declared = some size → accepted.length + buf.length ≤ size)
    {done : List UploadDone} (hdone : ∀ upload ∈ done, upload.failed = false) (grants : Nat)
    (h : Sending declared writer (accepted ++ buf.take written)) (hlt : written < buf.length)
    (hasked : 0 < written ∨ ∃ memory, writer.allocFuture = some memory) :
    Takes declared accepted buf (grantLoop buf done grants written writer) := by
  induction grants generalizing writer written with
  | zero =>
    unfold Writer.grantLoop
    split
    · rename_i hnone
      refine drainLoop_takes hwithin done hdone h hlt ?_
      rcases hasked with hpos | ⟨memory, hsome⟩
      · exact Or.inl hpos
      rw [hnone] at hsome
      cases hsome
    rename_i memory hsome
    dsimp only
    rcases h.nextChunkSize with ⟨-, hzero⟩ | ⟨next, hnext, -⟩
    · have hle := hwithin 0 hzero
      omega
    have hnext' : nextChunkSize { writer with allocFuture := none } = .ok (some next) := hnext
    rw [hnext']
    exact drainLoop_takes hwithin done hdone h hlt (Or.inr rfl)
  | succ grants ih =>
    unfold Writer.grantLoop
    split
    · rename_i hnone
      refine drainLoop_takes hwithin done hdone h hlt ?_
      rcases hasked with hpos | ⟨memory, hsome⟩
      · exact Or.inl hpos
      rw [hnone] at hsome
      cases hsome
    rename_i memory hsome
    dsimp only
    rcases h.nextChunkSize with ⟨-, hzero⟩ | ⟨next, hnext, -⟩
    · have hle := hwithin 0 hzero
      omega
    have hnext' : nextChunkSize { writer with allocFuture := none } = .ok (some next) := hnext
    rw [hnext']
    obtain ⟨n, writer', heq, hn, hle, hsending⟩ :=
      (h.grant hsome).writeOn hlt (cons_ne_nil _ _) hwithin
    rw [heq]
    dsimp only
    by_cases hall : buf.length ≤ written + n
    · rw [if_pos hall]
      exact Or.inr ⟨written + n, rfl, by omega, hle, hsending⟩
    rw [if_neg hall]
    exact ih hsending (by omega) (Or.inl (by omega))

theorem pollWrite_takes (h : Sending declared writer accepted) (hbuf : buf ≠ [])
    (hwithin : ∀ size, declared = some size → accepted.length + buf.length ≤ size) {turn : Turn}
    (hdone : ∀ upload ∈ turn.done, upload.failed = false) :
    Takes declared accepted buf (writer.pollWrite buf turn) := by
  unfold Writer.pollWrite
  by_cases htee : turn.teeBlocked
  · rw [if_pos htee]
    exact Or.inl ⟨rfl, h⟩
  rw [if_neg htee]
  obtain ⟨n, writer', heq, hle, hsending, hsome⟩ := h.writeNextChunk hbuf hwithin
  rw [heq]
  dsimp only
  have hpos := length_pos_of_ne_nil hbuf
  by_cases hall : buf.length ≤ n
  · rw [if_pos hall]
    exact Or.inr ⟨n, rfl, by omega, hle, hsending⟩
  rw [if_neg hall]
  refine grantLoop_takes hwithin hdone turn.grants hsending (by omega) ?_
  rcases hsome with hn | ⟨-, -, hasked⟩
  · exact Or.inl hn
  · exact Or.inr hasked

end Sending

end SyncEngine.Transfer
