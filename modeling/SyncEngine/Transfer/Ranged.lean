import SyncEngine.Transfer.Reader

/-! # Where a reader stands

Between polls the chunk at hand and the fetches in flight are consecutive chunks that start
at the reader's position, and every chunk from the range's first on was fetched once. So
what is read is what follows, and while a chunk is at hand or in flight there is something
to wait for.
-/

namespace SyncEngine.Transfer

open Collections Reader List

variable {Hash : Type}

/-! ## Chunks of a consistent file -/

theorem checkedMul_eq {a b : Nat} (h : b * a < 2 ^ 64) : checkedMul a b = some (b * a) := by
  rw [Nat.mul_comm b a] at h ⊢
  exact if_pos h

theorem checkedMul_cases (a b : Nat) :
    checkedMul a b = none ∨ b * a < 2 ^ 64 ∧ checkedMul a b = some (b * a) := by
  by_cases h : a * b < 2 ^ 64
  · rw [Nat.mul_comm] at h
    exact Or.inr ⟨h, checkedMul_eq h⟩
  · exact Or.inl (if_neg h)

theorem consistent_last {last size : Nat} (h : chunksConsistentWithSize (last + 1) size) :
    last * chunkSize < 2 ^ 64 ∧ last * chunkSize ≤ size ∧ size - last * chunkSize ≤ chunkSize := by
  unfold chunksConsistentWithSize at h
  dsimp only at h
  rcases checkedMul_cases chunkSize last with hnone | ⟨hfits, hsome⟩
  · rw [hnone] at h
    exact absurd h Bool.false_ne_true
  rw [hsome] at h
  rw [Bool.and_eq_true, decide_eq_true_eq, decide_eq_true_eq] at h
  exact ⟨hfits, h⟩

theorem encryptedChunkSize_upto {last size chunkIdx : Nat} (hidx : chunkIdx ≤ last)
    (hfits : last * chunkSize < 2 ^ 64) (hle : last * chunkSize ≤ size) (hlast : size - last * chunkSize ≤ chunkSize) :
    ∃ memory, encryptedChunkSize (last + 1) size chunkIdx = some memory := by
  unfold encryptedChunkSize
  dsimp only
  by_cases hbefore : chunkIdx < last
  · rw [if_pos hbefore]
    exact ⟨fullChunk, rfl⟩
  have heq : chunkIdx = last := by omega
  subst heq
  have hmemory : size - chunkIdx * chunkSize + chunkSizeExtra < 2 ^ 32 :=
    Nat.lt_of_le_of_lt (Nat.add_le_add_right hlast _) fullChunk_lt
  rw [if_neg hbefore, if_pos rfl, checkedMul_eq hfits]
  dsimp only
  rw [if_neg (Nat.not_lt.mpr hle), if_pos hmemory]
  exact ⟨_, rfl⟩

theorem encryptedChunkSize_isSome {chunks size chunkIdx : Nat}
    (hconsistent : chunksConsistentWithSize chunks size) (hstart : chunkIdx * chunkSize < size) :
    checkedMul chunkSize chunkIdx = some (chunkIdx * chunkSize) ∧
      ∃ memory, encryptedChunkSize chunks size chunkIdx = some memory := by
  cases chunks with
  | zero =>
    have hzero := of_decide_eq_true hconsistent
    omega
  | succ last =>
    obtain ⟨hfits, hle, hlast⟩ := consistent_last hconsistent
    have hidx : chunkIdx ≤ last := by
      by_contra hlt
      have hmul : (last + 1) * chunkSize ≤ chunkIdx * chunkSize :=
        Nat.mul_le_mul_right _ (Nat.not_le.mp hlt)
      rw [Nat.add_mul, Nat.one_mul] at hmul
      omega
    have hmul : chunkIdx * chunkSize ≤ last * chunkSize := Nat.mul_le_mul_right _ hidx
    exact ⟨checkedMul_eq (Nat.lt_of_le_of_lt hmul hfits), encryptedChunkSize_upto hidx hfits hle hlast⟩

namespace Reader

variable {reader : Reader Hash}

theorem nextChunkSize_eq_none (hconsistent : reader.consistent) (hlimit : reader.limit ≤ reader.file.size) :
    reader.nextChunkSize = none ↔
      reader.limit ≤ reader.index ∨ reader.limit ≤ reader.nextChunkIdx * chunkSize := by
  unfold nextChunkSize
  by_cases hindex : reader.limit ≤ reader.index
  · rw [if_pos hindex]
    exact ⟨fun _ => Or.inl hindex, fun _ => rfl⟩
  rw [if_neg hindex, or_iff_right hindex]
  by_cases hstart : reader.limit ≤ reader.nextChunkIdx * chunkSize
  · refine ⟨fun _ => hstart, fun _ => ?_⟩
    rcases checkedMul_cases chunkSize reader.nextChunkIdx with hnone | ⟨-, hproduct⟩
    · rw [hnone]
    rw [hproduct]
    dsimp only
    rw [if_pos hstart]
  obtain ⟨hchecked, memory, hmemory⟩ := encryptedChunkSize_isSome hconsistent
    (Nat.lt_of_lt_of_le (Nat.not_le.mp hstart) hlimit)
  rw [hchecked]
  dsimp only
  rw [if_neg hstart, hmemory]
  exact ⟨nofun, fun hle => absurd hle hstart⟩

def fetchAt (index chunkIdx : Nat) : Fetch where
  chunkIdx
  position := if index / chunkSize = chunkIdx then index % chunkSize else 0

def pushed (reader : Reader Hash) : Reader Hash :=
  { reader with
    nextChunkIdx := reader.nextChunkIdx + 1
    futures := reader.futures ++ [fetchAt reader.index reader.nextChunkIdx]
    fetched := reader.fetched ++ [reader.nextChunkIdx] }

theorem pushFetchNextChunk_of_some {memory : Nat} (h : reader.nextChunkSize = some memory) :
    reader.pushFetchNextChunk = reader.pushed := by
  unfold pushFetchNextChunk
  rw [h]
  rfl

theorem pushFetchNextChunk_of_none (h : reader.nextChunkSize = none) :
    reader.pushFetchNextChunk = reader := by
  unfold pushFetchNextChunk
  rw [h]

/-- The chunk after the one at hand, or the one the position is in. -/
def base (reader : Reader Hash) : Nat :=
  reader.index / chunkSize + if reader.currChunk.isSome then 1 else 0

end Reader

/-- A reader of a range of a file, that began at its first byte. -/
structure Flow (file : RemoteFile Hash) (first limit : Nat) (reader : Reader Hash) : Prop where
  same : reader.file = file
  bounded : reader.limit = limit
  consistent : chunksConsistentWithSize file.chunks file.size = true
  limit_le : limit ≤ file.size
  first_le : first ≤ reader.index
  index_le : reader.index ≤ limit
  /-- Every chunk from the first on was fetched once, none past the range. -/
  log : ∃ count, reader.fetched = List.range' (first / chunkSize) count ∧
    reader.nextChunkIdx = first / chunkSize + count
  needed : ∀ chunkIdx ∈ reader.fetched, first < limit ∧ chunkIdx * chunkSize < limit
  /-- The fetches in flight go on from the reader's position. -/
  queue : reader.index < limit → ∃ count,
    reader.futures = (List.range' reader.base count).map (fetchAt reader.index) ∧
      reader.nextChunkIdx = reader.base + count
  current : ∀ cursor, reader.currChunk = some cursor → reader.index < limit ∧
    cursor = ⟨file.chunk (reader.index / chunkSize), reader.index % chunkSize⟩
  ended : limit ≤ reader.index → reader.futures = []

section Flow

variable {file : RemoteFile Hash} {first limit : Nat} {reader : Reader Hash}

section

variable (h : Flow file first limit reader)
include h

theorem Flow.reader_consistent : reader.consistent := by
  unfold Reader.consistent
  rw [h.same]
  exact h.consistent

theorem Flow.nextChunkSize_eq_none :
    reader.nextChunkSize = none ↔
      limit ≤ reader.index ∨ limit ≤ reader.nextChunkIdx * chunkSize := by
  have hiff := @Reader.nextChunkSize_eq_none Hash reader h.reader_consistent
    (by
      rw [h.bounded, h.same]
      exact h.limit_le)
  rw [h.bounded] at hiff
  exact hiff

theorem Flow.push : Flow file first limit reader.pushFetchNextChunk := by
  cases hnext : reader.nextChunkSize with
  | none =>
    rw [pushFetchNextChunk_of_none hnext]
    exact h
  | some memory =>
    have hnot : ¬(limit ≤ reader.index ∨ limit ≤ reader.nextChunkIdx * chunkSize) := by
      rw [← h.nextChunkSize_eq_none, hnext]
      exact nofun
    rw [not_or, Nat.not_le, Nat.not_le] at hnot
    obtain ⟨count, hfetched, hidx⟩ := h.log
    obtain ⟨ahead, hfutures, hbase⟩ := h.queue hnot.1
    rw [pushFetchNextChunk_of_some hnext]
    refine ⟨h.same, h.bounded, h.consistent, h.limit_le, h.first_le, h.index_le, ⟨count + 1, ?_, ?_⟩, ?_,
      fun _ => ⟨ahead + 1, ?_, ?_⟩, h.current, fun hended => ?_⟩
    · show reader.fetched ++ [reader.nextChunkIdx] = _
      rw [hfetched, hidx, range'_concat, Nat.one_mul]
    · show reader.nextChunkIdx + 1 = _
      rw [hidx, Nat.add_assoc]
    · intro chunkIdx hmem
      rcases mem_append.mp hmem with hold | hnew
      · exact h.needed chunkIdx hold
      rw [mem_singleton.mp hnew]
      exact ⟨Nat.lt_of_le_of_lt h.first_le hnot.1, hnot.2⟩
    · show reader.futures ++ [fetchAt reader.index reader.nextChunkIdx] = _
      rw [hfutures, hbase, range'_concat, Nat.one_mul, map_append]
      rfl
    · show reader.nextChunkIdx + 1 = reader.base + (ahead + 1)
      rw [hbase, Nat.add_assoc]
    · exact absurd hended (Nat.not_le.mpr hnot.1)

end

theorem push_frame (reader : Reader Hash) :
    reader.pushFetchNextChunk.index = reader.index ∧
      reader.pushFetchNextChunk.currChunk = reader.currChunk ∧
      reader.pushFetchNextChunk.allocating = reader.allocating ∧
      reader.pushFetchNextChunk.contentCheck = reader.contentCheck ∧
      (reader.futures ≠ [] → reader.pushFetchNextChunk.futures ≠ []) := by
  cases hnext : reader.nextChunkSize with
  | none =>
    rw [pushFetchNextChunk_of_none hnext]
    exact ⟨rfl, rfl, rfl, rfl, fun h => h⟩
  | some memory =>
    rw [pushFetchNextChunk_of_some hnext]
    exact ⟨rfl, rfl, rfl, rfl, fun _ => append_ne_nil_of_right_ne_nil _ (cons_ne_nil _ _)⟩

/-- A chunk is at hand or in flight while the range is not read. -/
def Fed (limit : Nat) (reader : Reader Hash) : Prop :=
  reader.index < limit → reader.currChunk ≠ none ∨ reader.futures ≠ []

theorem Flow.nextChunkSize_isSome (h : Flow file first limit reader) (hindex : reader.index < limit)
    (hcurr : reader.currChunk = none) (hfutures : reader.futures = []) :
    ∃ memory, reader.nextChunkSize = some memory := by
  obtain ⟨count, hqueue, hidx⟩ := h.queue hindex
  have hcount : count = 0 := by
    rw [hfutures] at hqueue
    have hlength := congrArg List.length hqueue
    rw [length_nil, length_map, length_range'] at hlength
    exact hlength.symm
  have hbase : reader.base = reader.index / chunkSize := by
    unfold Reader.base
    rw [hcurr]
    rfl
  cases hnext : reader.nextChunkSize with
  | some memory => exact ⟨memory, rfl⟩
  | none =>
    rcases h.nextChunkSize_eq_none.mp hnext with hle | hle
    · omega
    rw [hidx, hcount, hbase, Nat.add_zero] at hle
    have hdiv := Nat.div_mul_le_self reader.index chunkSize
    omega

theorem Flow.push_fed (h : Flow file first limit reader) : Fed limit reader.pushFetchNextChunk := by
  intro hindex
  obtain ⟨hsame, hcurr, -, -, hgrow⟩ := push_frame reader
  rw [hsame] at hindex
  rw [hcurr]
  by_cases hnone : reader.currChunk = none
  · right
    by_cases hempty : reader.futures = []
    · obtain ⟨memory, hsome⟩ := h.nextChunkSize_isSome hindex hnone hempty
      rw [pushFetchNextChunk_of_some hsome]
      exact append_ne_nil_of_right_ne_nil _ (cons_ne_nil _ _)
    · exact hgrow hempty
  · exact Or.inl hnone

/-! ## Memory for the next chunks -/

/-- A reader has something to wait for while the range is not read. -/
def Live (limit : Nat) (reader : Reader Hash) : Prop :=
  Fed limit reader ∨ reader.allocating = true

/-- A reader that began fetches, and is otherwise as it was. -/
structure Ahead (file : RemoteFile Hash) (first limit : Nat) (before after : Reader Hash) : Prop where
  flow : Flow file first limit after
  index : after.index = before.index
  current : after.currChunk = before.currChunk
  check : after.contentCheck = before.contentCheck
  fed : Fed limit before → Fed limit after

theorem Ahead.rfl (h : Flow file first limit reader) : Ahead file first limit reader reader :=
  ⟨h, Eq.refl _, Eq.refl _, Eq.refl _, id⟩

theorem Ahead.trans {before between after : Reader Hash} (h : Ahead file first limit before between)
    (hthen : Ahead file first limit between after) : Ahead file first limit before after :=
  ⟨hthen.flow, hthen.index.trans h.index, hthen.current.trans h.current, hthen.check.trans h.check,
    fun hfed => hthen.fed (h.fed hfed)⟩

section

variable (h : Flow file first limit reader)
include h

theorem Flow.push_ahead :
    Ahead file first limit reader reader.pushFetchNextChunk := by
  obtain ⟨hindex, hcurr, -, hcheck, -⟩ := push_frame reader
  exact ⟨h.push, hindex, hcurr, hcheck, fun _ => h.push_fed⟩

theorem Flow.acquire (allocating : Bool) :
    Ahead file first limit reader { reader with allocating } :=
  ⟨⟨h.same, h.bounded, h.consistent, h.limit_le, h.first_le, h.index_le, h.log, h.needed, h.queue,
    h.current, h.ended⟩, Eq.refl _, Eq.refl _, Eq.refl _, id⟩

theorem Flow.fetchAhead (tries : Nat) :
    Ahead file first limit reader (Reader.fetchAhead tries reader) ∧
      (Reader.fetchAhead tries reader).allocating = reader.allocating := by
  induction tries generalizing reader with
  | zero => exact ⟨Ahead.rfl h, rfl⟩
  | succ tries ih =>
    unfold Reader.fetchAhead
    split
    · exact ⟨Ahead.rfl h, rfl⟩
    split
    · obtain ⟨hahead, hsame⟩ := ih h.push
      obtain ⟨-, -, hallocating, -, -⟩ := push_frame reader
      exact ⟨h.push_ahead.trans hahead, hsame.trans hallocating⟩
    · exact ⟨Ahead.rfl h, rfl⟩

theorem Flow.fed_of_none (hnone : reader.nextChunkSize = none) :
    Fed limit reader := by
  intro hindex
  by_cases hcurr : reader.currChunk = none
  · refine Or.inr fun hfutures => ?_
    obtain ⟨memory, hsome⟩ := h.nextChunkSize_isSome hindex hcurr hfutures
    rw [hnone] at hsome
    cases hsome
  · exact Or.inl hcurr

/-- Reading ahead says to wait only with an acquire under way, and else leaves something at
hand or in flight. -/
theorem Flow.pollReadAhead (hlive : Live limit reader) (turn : ReadTurn) :
    Ahead file first limit reader (reader.pollReadAhead turn).2 ∧
      ((reader.pollReadAhead turn).1 → (reader.pollReadAhead turn).2.allocating) ∧
      ((reader.pollReadAhead turn).1 = false → Fed limit (reader.pollReadAhead turn).2) := by
  obtain ⟨hahead, hsame⟩ := h.fetchAhead turn.tries
  unfold Reader.pollReadAhead
  generalize Reader.fetchAhead turn.tries reader = queued at hahead hsame
  dsimp only
  cases hallocating : queued.allocating with
  | false =>
    rw [hallocating] at hsame
    refine ⟨hahead, nofun, fun _ => hahead.fed ?_⟩
    rcases hlive with hfed | hacquire
    · exact hfed
    rw [← hsame] at hacquire
    cases hacquire
  | true =>
    rw [Bool.not_true, if_neg Bool.false_ne_true]
    have htaken := hahead.flow.acquire false
    cases turn.granted with
    | true =>
      rw [if_pos rfl]
      have hpush := htaken.flow.push_ahead
      have hrearmed := hpush.flow.acquire
        (pushFetchNextChunk { queued with allocating := false }).allocateNextChunk
      refine ⟨((hahead.trans htaken).trans hpush).trans hrearmed, nofun,
        fun _ => hrearmed.fed htaken.flow.push_fed⟩
    | false =>
      rw [if_neg Bool.false_ne_true]
      cases hnext : nextChunkSize { queued with allocating := false } with
      | some memory =>
        rw [Option.isSome_some, if_pos rfl]
        exact ⟨hahead, fun _ => hallocating, nofun⟩
      | none =>
        rw [Option.isSome_none, if_neg Bool.false_ne_true]
        exact ⟨hahead.trans htaken, nofun,
          fun _ => htaken.flow.fed_of_none hnext⟩

theorem Flow.armed (hallocating : reader.allocating = false) :
    Live limit { reader with allocating := reader.allocateNextChunk } := by
  by_cases hfed : Fed limit reader
  · exact Or.inl hfed
  right
  unfold Fed at hfed
  rw [Classical.not_imp, not_or, not_not, not_not] at hfed
  obtain ⟨hindex, hcurr, hfutures⟩ := hfed
  obtain ⟨memory, hnext⟩ := h.nextChunkSize_isSome hindex hcurr hfutures
  show reader.allocateNextChunk
  unfold Reader.allocateNextChunk
  rw [hnext, hfutures, hallocating]
  rfl

end

/-- Chunks fetched once each, and only for a byte of the range. -/
def Wanted (first limit : Nat) (fetched : List Nat) : Prop :=
  fetched.Nodup ∧
    ∀ chunkIdx ∈ fetched, ∃ place, first ≤ place ∧ place < limit ∧ place / chunkSize = chunkIdx

theorem Flow.wanted (h : Flow file first limit reader) : Wanted first limit reader.fetched := by
  have hpos := chunkSize_pos
  obtain ⟨count, hfetched, -⟩ := h.log
  constructor
  · rw [hfetched]
    exact nodup_range'
  intro chunkIdx hmem
  obtain ⟨hsome, hneeded⟩ := h.needed chunkIdx hmem
  rw [hfetched] at hmem
  have hfirst := (mem_range'_1.mp hmem).1
  rcases Nat.lt_or_ge first (chunkIdx * chunkSize) with hlt | hle
  · exact ⟨chunkIdx * chunkSize, Nat.le_of_lt hlt, hneeded, Nat.mul_div_cancel _ hpos⟩
  have hidx : chunkIdx ≤ first / chunkSize := (Nat.le_div_iff_mul_le hpos).mpr hle
  exact ⟨first, Nat.le_refl _, hsome, Nat.le_antisymm hfirst hidx⟩

/-! ## Reading on -/

/-- The fetches after the chunk at hand are read from their beginning, wherever in the chunk
the reader is. -/
theorem map_fetchAt {index index' start count : Nat} (h : index / chunkSize < start)
    (h' : index' / chunkSize < start ∨ index' / chunkSize = start ∧ index' % chunkSize = 0) :
    (List.range' start count).map (fetchAt index) =
      (List.range' start count).map (fetchAt index') := by
  refine map_congr_left fun chunkIdx hmem => ?_
  have hle := (mem_range'_1.mp hmem).1
  unfold Reader.fetchAt
  rw [if_neg (by omega)]
  rcases h' with hbefore | ⟨hat, hzero⟩
  · rw [if_neg (by omega)]
  · rw [hzero, ite_self]

theorem Flow.next_needed (h : Flow file first limit reader) (hindex : reader.index < limit)
    (hfutures : reader.futures ≠ []) : reader.base * chunkSize < limit := by
  obtain ⟨count, hqueue, hidx⟩ := h.queue hindex
  obtain ⟨fetches, hfetched, hnext⟩ := h.log
  refine (h.needed _ ?_).2
  have hcount : count ≠ 0 := by
    rintro rfl
    exact hfutures hqueue
  have hfirst : first / chunkSize ≤ reader.base :=
    Nat.le_trans (Nat.div_le_div_right h.first_le) (Nat.le_add_right _ _)
  rw [hfetched]
  refine mem_range'_1.mpr ⟨hfirst, ?_⟩
  omega

section Current

variable {cursor : Cursor}

theorem Flow.length_current (h : Flow file first limit reader) (hcurr : reader.currChunk = some cursor) :
    cursor.data.length - cursor.position =
      min ((reader.index / chunkSize + 1) * chunkSize) file.size - reader.index := by
  obtain ⟨-, rfl⟩ := h.current cursor hcurr
  have hpos := chunkSize_pos
  have hmod := Nat.mod_lt reader.index hpos
  have hdiv := Nat.div_add_mod' reader.index chunkSize
  show (piece chunkSize file.plaintext (reader.index / chunkSize)).length - reader.index % chunkSize = _
  rw [length_piece_eq, Nat.add_mul, Nat.one_mul]
  show min chunkSize (file.size - _) - _ = _
  omega

theorem Flow.length_le (h : Flow file first limit reader) (hcurr : reader.currChunk = some cursor) :
    cursor.data.length ≤ chunkSize := by
  obtain ⟨-, rfl⟩ := h.current cursor hcurr
  show (piece chunkSize file.plaintext (reader.index / chunkSize)).length ≤ _
  rw [length_piece_eq]
  exact Nat.min_le_left _ _

theorem base_of_some (hcurr : reader.currChunk = some cursor) :
    reader.base = reader.index / chunkSize + 1 := by
  unfold Reader.base
  rw [hcurr]
  rfl

theorem base_of_none (hcurr : reader.currChunk = none) : reader.base = reader.index / chunkSize := by
  unfold Reader.base
  rw [hcurr]
  rfl

theorem Flow.stay {count : Nat} (h : Flow file first limit reader) (hcurr : reader.currChunk = some cursor)
    (hchunk : cursor.position + count < cursor.data.length) (hlimit : reader.index + count < limit) :
    Flow file first limit { reader with
      index := reader.index + count
      currChunk := some { cursor with position := cursor.position + count } } := by
  obtain ⟨hindex, hcursor⟩ := h.current cursor hcurr
  have hposition : cursor.position = reader.index % chunkSize := by rw [hcursor]
  have hlow : reader.index % chunkSize + count < chunkSize := by
    rw [← hposition]
    exact Nat.lt_of_lt_of_le hchunk (h.length_le hcurr)
  obtain ⟨hdiv, hmod⟩ := div_mod_within hlow
  obtain ⟨ahead, hqueue, hnext⟩ := h.queue hindex
  rw [base_of_some hcurr] at hqueue hnext
  refine ⟨h.same, h.bounded, h.consistent, h.limit_le, Nat.le_trans h.first_le (Nat.le_add_right _ _),
    Nat.le_of_lt hlimit, h.log, h.needed, fun _ => ⟨ahead, ?_, ?_⟩, ?_,
    fun hended => absurd hended (Nat.not_le.mpr hlimit)⟩
  · show reader.futures = (List.range' ((reader.index + count) / chunkSize + 1) ahead).map
      (fetchAt (reader.index + count))
    rw [hdiv, hqueue]
    exact map_fetchAt (Nat.lt_succ_self _) (Or.inl (by omega))
  · show reader.nextChunkIdx = (reader.index + count) / chunkSize + 1 + ahead
    rw [hdiv, hnext]
  rintro after hafter
  cases hafter
  refine ⟨hlimit, ?_⟩
  show Cursor.mk cursor.data (cursor.position + count) = _
  rw [hdiv, hmod, ← hposition]
  rw [hcursor]

theorem Flow.leave {count : Nat} (h : Flow file first limit reader) (hcurr : reader.currChunk = some cursor)
    (hend : reader.index + count = min ((reader.index / chunkSize + 1) * chunkSize) limit) :
    Flow file first limit { reader with index := reader.index + count, currChunk := none } := by
  obtain ⟨hindex, -⟩ := h.current cursor hcurr
  have hpos := chunkSize_pos
  obtain ⟨ahead, hqueue, hnext⟩ := h.queue hindex
  rw [base_of_some hcurr] at hqueue hnext
  have hreached : reader.index + count < limit →
      reader.index + count = (reader.index / chunkSize + 1) * chunkSize := by omega
  refine ⟨h.same, h.bounded, h.consistent, h.limit_le, Nat.le_trans h.first_le (Nat.le_add_right _ _),
    by dsimp only; omega, h.log, h.needed, fun hmore => ⟨ahead, ?_, ?_⟩, (fun _ hnone => nomatch hnone),
    fun hended => ?_⟩
  · have hat := hreached hmore
    have hdiv : (reader.index + count) / chunkSize = reader.index / chunkSize + 1 := by
      rw [hat, Nat.mul_div_cancel _ hpos]
    have hmod : (reader.index + count) % chunkSize = 0 := by
      rw [hat, Nat.mul_mod_left]
    show reader.futures = (List.range' ((reader.index + count) / chunkSize + 0) ahead).map
      (fetchAt (reader.index + count))
    rw [Nat.add_zero, hdiv, hqueue]
    exact map_fetchAt (Nat.lt_succ_self _) (Or.inr ⟨hdiv, hmod⟩)
  · show reader.nextChunkIdx = (reader.index + count) / chunkSize + 0 + ahead
    rw [Nat.add_zero, hreached hmore, Nat.mul_div_cancel _ hpos, hnext]
  show reader.futures = []
  by_contra hfutures
  have hneeded := h.next_needed hindex hfutures
  rw [base_of_some hcurr] at hneeded
  dsimp only at hended
  omega

end Current

end Flow

end SyncEngine.Transfer
