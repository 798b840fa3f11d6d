import SyncEngine.Transfer.Hashed

/-! # Reads of a range

What a poll hands out follows on what was handed out, and it says that the data ended only
at the range's end. While it is not reached a poll hands something out, or waits for a fetch
or for memory.
-/

namespace SyncEngine.Transfer

open Collections List

variable {Hash : Type} {blake3 : List UInt8 → Hash} {file : RemoteFile Hash} {first limit : Nat}
  {reader : Reader Hash}

/-! ## The chunk at hand -/

section Current

variable {cursor : Cursor}

theorem Flow.rest (h : Flow file first limit reader) (hcurr : reader.currChunk = some cursor) :
    0 < cursor.data.length - cursor.position ∧
      min ((reader.index / chunkSize + 1) * chunkSize) limit =
        reader.index + min (limit - reader.index) (cursor.data.length - cursor.position) := by
  have hlength := h.length_current hcurr
  obtain ⟨hindex, -⟩ := h.current cursor hcurr
  have hchunk : reader.index < (reader.index / chunkSize + 1) * chunkSize :=
    Nat.lt_mul_of_div_lt (Nat.lt_succ_self _) chunkSize_pos
  have hle := h.limit_le
  rw [hlength]
  generalize (reader.index / chunkSize + 1) * chunkSize = chunkEnd at hchunk ⊢
  omega

theorem Flow.take_rest (h : Flow file first limit reader) (hcurr : reader.currChunk = some cursor) (count : Nat) :
    (cursor.data.drop cursor.position).take count =
      cut file.plaintext reader.index
        (reader.index + min count (cursor.data.length - cursor.position)) := by
  obtain ⟨-, rfl⟩ := h.current cursor hcurr
  rw [take_eq_take_min, length_drop]
  exact take_drop_piece (Nat.min_le_right _ _)

theorem unread_eq_take (cursor : Cursor) (index limit : Nat) :
    Reader.unread cursor index limit = (cursor.data.drop cursor.position).take (limit - index) := by
  unfold Reader.unread
  rw [drop_take, take_eq_take_iff, length_drop]
  omega

theorem length_unread (cursor : Cursor) (index limit : Nat) :
    (Reader.unread cursor index limit).length =
      min (limit - index) (cursor.data.length - cursor.position) := by
  rw [unread_eq_take, length_take, length_drop]

theorem Flow.unread_eq (h : Flow file first limit reader) (hcurr : reader.currChunk = some cursor) :
    Reader.unread cursor reader.index limit =
      cut file.plaintext reader.index (min ((reader.index / chunkSize + 1) * chunkSize) limit) := by
  rw [unread_eq_take, h.take_rest hcurr, (h.rest hcurr).2]

theorem Standing.stay {count : Nat} (h : Standing blake3 file first limit reader)
    (hcurr : reader.currChunk = some cursor) (hchunk : cursor.position + count < cursor.data.length)
    (hlimit : reader.index + count < limit) :
    Standing blake3 file first limit { reader with
      index := reader.index + count
      currChunk := some { cursor with position := cursor.position + count } } := by
  have hmin := (h.flow.rest hcurr).2
  have hle := Nat.min_le_left ((reader.index / chunkSize + 1) * chunkSize) limit
  have hflow := h.flow.stay hcurr hchunk hlimit
  have hcheck := h.check
  rw [base_of_some hcurr] at hcheck
  refine ⟨hflow, ?_⟩
  obtain ⟨-, hcursor⟩ := h.flow.current cursor hcurr
  have hlow : reader.index % chunkSize + count < chunkSize := by
    have hposition : cursor.position = reader.index % chunkSize := by rw [hcursor]
    rw [← hposition]
    exact Nat.lt_of_lt_of_le hchunk (h.flow.length_le hcurr)
  rw [base_of_some rfl, (div_mod_within hlow).1]
  refine hcheck.within ?_
  show reader.index + count ≤ _
  generalize (reader.index / chunkSize + 1) * chunkSize = chunkEnd at hmin hle ⊢
  omega

theorem Standing.leave {count : Nat} (h : Standing blake3 file first limit reader)
    (hcurr : reader.currChunk = some cursor)
    (hend : reader.index + count = min ((reader.index / chunkSize + 1) * chunkSize) limit) :
    Standing blake3 file first limit { reader with index := reader.index + count, currChunk := none } := by
  refine ⟨h.flow.leave hcurr hend, ?_⟩
  obtain ⟨hindex, -⟩ := h.flow.current cursor hcurr
  have hcheck := h.check
  rw [base_of_some hcurr] at hcheck
  rw [base_of_none rfl]
  show Checks blake3 file first limit ((reader.index + count) / chunkSize) (reader.index + count) _
  rcases Nat.le_total ((reader.index / chunkSize + 1) * chunkSize) limit with hle | hpast
  · rw [Nat.min_eq_left hle] at hend
    rw [hend, Nat.mul_div_cancel _ chunkSize_pos]
    exact hcheck.within (Nat.le_refl _)
  · exact hcheck.past hindex hpast _ _

end Current

/-! ## What is handed out -/

/-- A reader that handed out bytes, and is otherwise as it was. -/
structure HandedOut (blake3 : List UInt8 → Hash) (file : RemoteFile Hash) (first limit : Nat)
    (before : Reader Hash) (bytes : List UInt8) (after : Reader Hash) : Prop where
  standing : Standing blake3 file first limit after
  index : after.index = before.index + bytes.length
  follows : bytes = cut file.plaintext before.index (before.index + bytes.length)
  fed : Fed limit before → Fed limit after
  acquire : after.allocating = before.allocating

theorem HandedOut.nothing (h : Standing blake3 file first limit reader) :
    HandedOut blake3 file first limit reader [] reader :=
  ⟨h, rfl, (cut_self _ _).symm, id, rfl⟩

theorem HandedOut.live {after : Reader Hash} {bytes : List UInt8}
    (h : HandedOut blake3 file first limit reader bytes after) (hlive : Live limit reader) :
    Live limit after := by
  rcases hlive with hfed | hacquire
  · exact Or.inl (h.fed hfed)
  · exact Or.inr (h.acquire.trans hacquire)

theorem length_cut_file {start stop : Nat} (h : Flow file first limit reader) (hle : start ≤ stop)
    (hstop : stop ≤ limit) : (cut file.plaintext start stop).length = stop - start :=
  length_cut hle (Nat.le_trans hstop h.limit_le)

section Current

variable {cursor : Cursor} {count : Nat}

section

variable (h : Standing blake3 file first limit reader)
include h

theorem Standing.hand_stay
    (hcurr : reader.currChunk = some cursor) {bytes : List UInt8}
    (hbytes : bytes = cut file.plaintext reader.index (reader.index + count))
    (hchunk : cursor.position + count < cursor.data.length) (hlimit : reader.index + count < limit) :
    HandedOut blake3 file first limit reader bytes { reader with
      index := reader.index + count
      currChunk := some { cursor with position := cursor.position + count } } := by
  have hlength : bytes.length = count := by
    rw [hbytes, length_cut_file h.flow (Nat.le_add_right _ _) (Nat.le_of_lt hlimit),
      Nat.add_sub_cancel_left]
  subst hlength
  exact ⟨h.stay hcurr hchunk hlimit, rfl, hbytes, (fun _ _ => Or.inl nofun), rfl⟩

theorem Standing.hand_leave
    (hcurr : reader.currChunk = some cursor) {bytes : List UInt8}
    (hbytes : bytes = cut file.plaintext reader.index (reader.index + count))
    (hend : reader.index + count = min ((reader.index / chunkSize + 1) * chunkSize) limit) :
    Standing blake3 file first limit { reader with index := reader.index + count, currChunk := none } ∧
      HandedOut blake3 file first limit reader bytes
        (Reader.pushFetchNextChunk { reader with index := reader.index + count, currChunk := none }) := by
  have hstanding := h.leave hcurr hend
  have hpush := hstanding.flow.push_ahead
  have hlength : bytes.length = count := by
    rw [hbytes, length_cut_file h.flow (Nat.le_add_right _ _) hstanding.flow.index_le,
      Nat.add_sub_cancel_left]
  subst hlength
  refine ⟨hstanding, hstanding.ahead hpush, hpush.index, hbytes, fun _ => hstanding.flow.push_fed, ?_⟩
  exact (push_frame _).2.2.1

theorem Standing.readNextChunk (bufLen : Nat) :
    ∃ bytes after, reader.readNextChunk bufLen = (.ok bytes, after) ∧
      HandedOut blake3 file first limit reader bytes after ∧ bytes.length ≤ bufLen ∧
        (bytes.length < bufLen → after.currChunk = none) ∧
          (reader.currChunk ≠ none → Fed limit after ∧ (0 < bufLen → bytes ≠ [])) := by
  obtain rfl := h.flow.bounded
  unfold Reader.readNextChunk
  cases hcurr : reader.currChunk with
  | none =>
    exact ⟨[], reader, rfl, .nothing h, Nat.zero_le _, fun _ => hcurr, fun hsome => absurd rfl hsome⟩
  | some cursor =>
    dsimp only
    rw [if_neg (Nat.not_lt.mpr h.flow.index_le), h.flow.take_rest hcurr]
    obtain ⟨hpositive, hmin⟩ := h.flow.rest hcurr
    obtain ⟨hindex, -⟩ := h.flow.current cursor hcurr
    -- so many bytes are read
    generalize hcount : min (min (reader.limit - reader.index) bufLen)
      (cursor.data.length - cursor.position) = count
    have hlimit : reader.index + count ≤ reader.limit := by omega
    have hlength : (cut file.plaintext reader.index (reader.index + count)).length = count := by
      rw [length_cut_file h.flow (Nat.le_add_right _ _) hlimit, Nat.add_sub_cancel_left]
    rw [hlength]
    have hsome : 0 < bufLen → cut file.plaintext reader.index (reader.index + count) ≠ [] := by
      intro hbuf hempty
      rw [hempty, length_nil] at hlength
      omega
    have hle : (cut file.plaintext reader.index (reader.index + count)).length ≤ bufLen := by
      rw [hlength]
      omega
    by_cases hmore : cursor.position + count < cursor.data.length ∧ reader.index + count < reader.limit
    · rw [if_pos hmore]
      refine ⟨_, _, rfl, h.hand_stay hcurr rfl hmore.1 hmore.2, hle, ?_, fun _ => ⟨?_, hsome⟩⟩
      · intro hshort
        rw [hlength] at hshort
        omega
      · exact fun _ => Or.inl nofun
    rw [if_neg hmore]
    have hend : reader.index + count =
        min ((reader.index / chunkSize + 1) * chunkSize) reader.limit := by
      rw [hmin]
      omega
    obtain ⟨hstanding, hhanded⟩ := h.hand_leave hcurr rfl hend
    exact ⟨_, _, rfl, hhanded, hle, fun _ => (push_frame _).2.1,
      fun _ => ⟨hstanding.flow.push_fed, hsome⟩⟩

theorem Standing.consume (amt : Nat) :
    HandedOut blake3 file first limit reader (reader.consume amt).1 (reader.consume amt).2 := by
  obtain rfl := h.flow.bounded
  unfold Reader.consume
  cases hcurr : reader.currChunk with
  | none => exact .nothing h
  | some cursor =>
    dsimp only
    obtain ⟨hpositive, hmin⟩ := h.flow.rest hcurr
    obtain ⟨hindex, -⟩ := h.flow.current cursor hcurr
    rw [unread_eq_take cursor, take_take, h.flow.take_rest hcurr]
    -- so many bytes are consumed
    generalize hcount : min (min amt (reader.limit - reader.index))
      (cursor.data.length - cursor.position) = count
    have hlimit : reader.index + count ≤ reader.limit := by omega
    have hlength : (cut file.plaintext reader.index (reader.index + count)).length = count := by
      rw [length_cut_file h.flow (Nat.le_add_right _ _) hlimit, Nat.add_sub_cancel_left]
    rw [hlength]
    have hleft := length_unread ⟨cursor.data, cursor.position + count⟩ (reader.index + count) reader.limit
    dsimp only at hleft
    by_cases hall : Reader.unread ⟨cursor.data, cursor.position + count⟩ (reader.index + count)
        reader.limit = []
    · rw [if_pos hall]
      rw [hall, length_nil] at hleft
      refine (h.hand_leave hcurr rfl ?_).2
      rw [hmin]
      omega
    rw [if_neg hall]
    have hpos := length_pos_iff.mpr hall
    rw [hleft] at hpos
    exact h.hand_stay hcurr rfl (by omega) (by omega)

end

end Current

/-! ## Polls -/

/-- A reader between the polls of a read by bytes. -/
structure Going (blake3 : List UInt8 → Hash) (file : RemoteFile Hash) (first limit : Nat)
    (reader : Reader Hash) : Prop where
  standing : Standing blake3 file first limit reader
  live : Live limit reader

/-- A fetch or an acquire will wake the reader. -/
def Outstanding (reader : Reader Hash) : Prop := reader.futures ≠ [] ∨ reader.allocating = true

/-- The bytes of an answer follow on from a place in the range, and where some were asked for
and none came the place is the range's end. -/
def Told (blake3 : List UInt8 → Hash) (file : RemoteFile Hash) (first limit start : Nat) (asked : Prop) :
    ReadAnswer (List UInt8) × Reader Hash → Prop
  | (.pending, after) => Outstanding after
  | (.ok bytes, _) =>
    bytes = cut file.plaintext start (start + bytes.length) ∧ start + bytes.length ≤ limit ∧
      (asked → bytes = [] → start = limit ∧ Sealed blake3 file first limit)
  | (.err _, _) => True
  | (.panicked, _) => False

def Kept (Good : Reader Hash → Prop) (file : RemoteFile Hash) (first limit start : Nat) :
    ReadAnswer (List UInt8) × Reader Hash → Prop
  | (.pending, after) => Good after ∧ after.index = start
  | (.ok bytes, after) =>
    Good after ∧ after.index = start + bytes.length ∧
      bytes = cut file.plaintext start (start + bytes.length)
  | (.err _, after) => Wanted first limit after.fetched
  | (.panicked, _) => False

/-- What a read answers, and the reader it leaves. -/
def Reads (blake3 : List UInt8 → Hash) (file : RemoteFile Hash) (first limit start bufLen : Nat)
    (polled : ReadAnswer (List UInt8) × Reader Hash) : Prop :=
  Told blake3 file first limit start (0 < bufLen) polled ∧
    Kept (Going blake3 file first limit) file first limit start polled

theorem follows_append {start : Nat} {read bytes : List UInt8}
    (hread : read = cut file.plaintext start (start + read.length))
    (hbytes : bytes = cut file.plaintext (start + read.length) (start + read.length + bytes.length)) :
    read ++ bytes = cut file.plaintext start (start + (read ++ bytes).length) := by
  have happend := @cut_append_cut _ file.plaintext start (start + read.length)
    (start + read.length + bytes.length) (Nat.le_add_right _ _) (Nat.le_add_right _ _)
  rw [← hread, ← hbytes, Nat.add_assoc, ← length_append] at happend
  exact happend

theorem Standing.at_end (h : Standing blake3 file first limit reader) (hcurr : reader.currChunk = none)
    (hfutures : reader.futures = []) (hfed : Fed limit reader) : reader.index = limit := by
  refine Nat.le_antisymm h.flow.index_le (Nat.not_lt.mp fun hindex => ?_)
  rcases hfed hindex with hsome | hsome
  · exact hsome hcurr
  · exact hsome hfutures

section Polls

variable [DecidableEq Hash] {start bufLen : Nat} {shouldPend : Bool} {read : List UInt8}

theorem Standing.readLoop_turn {arrivals : List Bool} (h : Standing blake3 file first limit reader)
    (hcurr : reader.currChunk = none) (hwait : shouldPend → reader.allocating)
    (hfed : shouldPend = false → Fed limit reader) (hread : read = cut file.plaintext start (start + read.length))
    (hindex : reader.index = start + read.length) (hshort : read.length < bufLen)
    (hrest : ∀ arrival rest, arrivals = arrival :: rest → ∀ (next : Reader Hash) (more : List UInt8),
      Standing blake3 file first limit next → next.currChunk = none →
        (shouldPend → next.allocating) → (shouldPend = false → Fed limit next) →
          more = cut file.plaintext start (start + more.length) →
            next.index = start + more.length → more.length < bufLen →
              Reads blake3 file first limit start bufLen
                (Reader.readLoop blake3 bufLen shouldPend rest more next)) :
    Reads blake3 file first limit start bufLen
      (Reader.readLoop blake3 bufLen shouldPend arrivals read reader) := by
  have hlimit : start + read.length ≤ limit := by
    rw [← hindex]
    exact h.flow.index_le
  have hlive : Live limit reader := by
    cases shouldPend with
    | true => exact Or.inr (hwait rfl)
    | false => exact Or.inl (hfed rfl)
  have hmet := h.pollNextFetched hcurr arrivals.head?
  unfold Reader.readLoop
  generalize reader.pollNextFetched blake3 arrivals.head? = met at hmet ⊢
  obtain ⟨fetched, after⟩ := met
  cases fetched with
  | pending =>
    obtain ⟨rfl, hfutures⟩ := hmet
    by_cases hempty : read = []
    · rw [if_pos hempty]
      subst hempty
      exact ⟨Or.inl hfutures, ⟨h, hlive⟩, hindex⟩
    rw [if_neg hempty]
    exact ⟨⟨hread, hlimit, fun _ hnone => absurd hnone hempty⟩, ⟨h, hlive⟩, hindex, hread⟩
  | failed error =>
    have hsame : after.fetched = reader.fetched := hmet
    refine ⟨trivial, ?_⟩
    show Wanted first limit after.fetched
    rw [hsame]
    exact h.flow.wanted
  | none =>
    obtain ⟨hstanding, hplace, hnone, hacquire, hfutures, hsealed⟩ := hmet
    have hlater : Live limit after := by
      rcases hlive with hbefore | hwaits
      · refine Or.inl fun hmore => ?_
        rw [hplace] at hmore
        exact absurd (h.at_end hcurr hfutures hbefore) (Nat.ne_of_lt hmore)
      · exact Or.inr (hacquire.trans hwaits)
    by_cases hpend : shouldPend ∧ read = []
    · rw [if_pos hpend]
      obtain ⟨hwaits, rfl⟩ := hpend
      exact ⟨Or.inr (hacquire.trans (hwait hwaits)), ⟨hstanding, hlater⟩, hplace.trans hindex⟩
    rw [if_neg hpend]
    refine ⟨⟨hread, hlimit, fun _ hempty => ?_⟩, ⟨hstanding, hlater⟩, hplace.trans hindex, hread⟩
    have hnowait : shouldPend = false := by
      cases hwaits : shouldPend with
      | false => rfl
      | true => exact absurd ⟨hwaits, hempty⟩ hpend
    have hend := h.at_end hcurr hfutures (hfed hnowait)
    refine ⟨?_, hsealed (Nat.le_of_eq hend.symm)⟩
    rw [← hend, hindex, hempty]
    rfl
  | chunk cursor =>
    obtain ⟨harrival, hstanding, hplace, -, hacquire⟩ := hmet
    obtain ⟨bytes, last, heq, hhanded, hle, hfull, hmore⟩ := hstanding.readNextChunk (bufLen - read.length)
    obtain ⟨hlastfed, hsome⟩ := hmore nofun
    have hbytes := hsome (Nat.sub_pos_of_lt hshort)
    have hlast : last.index = start + (read ++ bytes).length := by
      rw [hhanded.index, length_append, ← Nat.add_assoc, ← hindex, ← hplace]
    have hfollows : read ++ bytes = cut file.plaintext start (start + (read ++ bytes).length) := by
      refine follows_append hread ?_
      rw [← hindex, ← hplace]
      exact hhanded.follows
    have hacquired : last.allocating = reader.allocating := hhanded.acquire.trans hacquire
    dsimp only
    rw [heq]
    dsimp only
    by_cases hdone : bufLen ≤ (read ++ bytes).length
    · rw [if_pos hdone]
      refine ⟨⟨hfollows, ?_, fun _ hempty => ?_⟩, ⟨hhanded.standing, Or.inl hlastfed⟩, hlast, hfollows⟩
      · rw [← hlast]
        exact hhanded.standing.flow.index_le
      · exact absurd (append_eq_nil_iff.mp hempty).2 hbytes
    rw [if_neg hdone]
    rw [length_append] at hdone
    cases arrivals with
    | nil => cases harrival
    | cons arrival rest =>
      refine hrest arrival rest rfl last (read ++ bytes) hhanded.standing (hfull (by omega)) ?_
        (fun _ => hlastfed) hfollows hlast ?_
      · intro hwaits
        rw [hacquired]
        exact hwait hwaits
      rw [length_append]
      omega

theorem Standing.readLoop {arrivals : List Bool} (h : Standing blake3 file first limit reader)
    (hcurr : reader.currChunk = none) (hwait : shouldPend → reader.allocating)
    (hfed : shouldPend = false → Fed limit reader) (hread : read = cut file.plaintext start (start + read.length))
    (hindex : reader.index = start + read.length) (hshort : read.length < bufLen) :
    Reads blake3 file first limit start bufLen
      (Reader.readLoop blake3 bufLen shouldPend arrivals read reader) := by
  induction arrivals generalizing reader read with
  | nil => exact h.readLoop_turn hcurr hwait hfed hread hindex hshort fun _ _ hnone => nomatch hnone
  | cons arrival arrivals ih =>
    refine h.readLoop_turn hcurr hwait hfed hread hindex hshort ?_
    rintro _ _ ⟨⟩ next more hnext hnone hwaits hfeds hmore hplace hlength
    exact ih hnext hnone hwaits hfeds hmore hplace hlength

theorem Going.pollRead (h : Going blake3 file first limit reader) (bufLen : Nat) (turn : ReadTurn) :
    Reads blake3 file first limit reader.index bufLen (reader.pollRead blake3 bufLen turn) := by
  obtain ⟨hahead, hwait, hfed⟩ := h.standing.flow.pollReadAhead h.live turn
  unfold Reader.pollRead
  rw [if_pos h.standing.flow.reader_consistent]
  generalize reader.pollReadAhead turn = ahead at hahead hwait hfed ⊢
  obtain ⟨shouldPend, queued⟩ := ahead
  dsimp only at hahead hwait hfed ⊢
  have hstanding := h.standing.ahead hahead
  have hlive : Live limit queued := by
    cases shouldPend with
    | true => exact Or.inr (hwait rfl)
    | false => exact Or.inl (hfed rfl)
  obtain ⟨bytes, last, heq, hhanded, hle, hfull, hmore⟩ := hstanding.readNextChunk bufLen
  rw [heq]
  dsimp only
  rw [← hahead.index]
  have hlimit : queued.index + bytes.length ≤ limit := by
    rw [← hhanded.index]
    exact hhanded.standing.flow.index_le
  by_cases hdone : bufLen ≤ bytes.length
  · rw [if_pos hdone]
    refine ⟨⟨hhanded.follows, hlimit, fun hasked hempty => ?_⟩, ⟨hhanded.standing, hhanded.live hlive⟩,
      hhanded.index, hhanded.follows⟩
    rw [hempty, length_nil] at hdone
    omega
  rw [if_neg hdone]
  have hshort := Nat.not_le.mp hdone
  refine hhanded.standing.readLoop (hfull hshort) (fun hwaits => hhanded.acquire.trans (hwait hwaits))
    (fun hnowait => hhanded.fed (hfed hnowait)) hhanded.follows hhanded.index hshort

/-! ## Filling and consuming -/

/-- What filling answers, and the reader it leaves: nothing is handed out. -/
def Fills (blake3 : List UInt8 → Hash) (file : RemoteFile Hash) (first limit start : Nat)
    (polled : ReadAnswer (List UInt8) × Reader Hash) : Prop :=
  Told blake3 file first limit start True polled ∧
    Kept (Going blake3 file first limit) file first limit start (polled.1.map fun _ => [], polled.2)

section

variable (h : Going blake3 file first limit reader)
include h

omit [DecidableEq Hash] in
theorem Going.fills_current {cursor : Cursor}
    (hcurr : reader.currChunk = some cursor) :
    Reader.unread cursor reader.index reader.limit ≠ [] ∧
      Fills blake3 file first limit reader.index
        (.ok (Reader.unread cursor reader.index reader.limit), reader) := by
  obtain rfl := h.standing.flow.bounded
  obtain ⟨hpositive, hmin⟩ := h.standing.flow.rest hcurr
  obtain ⟨hindex, -⟩ := h.standing.flow.current cursor hcurr
  have hlength := length_unread cursor reader.index reader.limit
  have hsome : Reader.unread cursor reader.index reader.limit ≠ [] := by
    rw [← length_pos_iff, hlength]
    omega
  refine ⟨hsome, ⟨?_, ?_, fun _ hempty => absurd hempty hsome⟩, h, rfl, (cut_self _ _).symm⟩
  · rw [hlength, ← hmin]
    exact h.standing.flow.unread_eq hcurr
  · omega

theorem Going.fillLoop {arrivals : List Bool}
    (hwait : shouldPend → reader.allocating) (hfed : shouldPend = false → Fed limit reader) :
    Fills blake3 file first limit reader.index
      (Reader.fillLoop blake3 shouldPend arrivals reader) := by
  unfold Reader.fillLoop
  cases hcurr : reader.currChunk with
  | some cursor => exact (h.fills_current hcurr).2
  | none =>
    have hmet := h.standing.pollNextFetched hcurr arrivals.head?
    generalize reader.pollNextFetched blake3 arrivals.head? = met at hmet ⊢
    obtain ⟨fetched, after⟩ := met
    cases fetched with
    | pending =>
      obtain ⟨rfl, hfutures⟩ := hmet
      exact ⟨Or.inl hfutures, h, rfl⟩
    | failed error =>
      have hsame : after.fetched = reader.fetched := hmet
      refine ⟨trivial, ?_⟩
      show Wanted first limit after.fetched
      rw [hsame]
      exact h.standing.flow.wanted
    | none =>
      obtain ⟨hstanding, hplace, hnone, hacquire, hfutures, hsealed⟩ := hmet
      cases shouldPend with
      | true =>
        have hwaits : after.allocating := hacquire.trans (hwait rfl)
        exact ⟨Or.inr hwaits, ⟨hstanding, Or.inr hwaits⟩, hplace⟩
      | false =>
        have hend := h.standing.at_end hcurr hfutures (hfed rfl)
        have hlive : Live limit after := by
          refine Or.inl fun hmore => ?_
          rw [hplace] at hmore
          exact absurd hend (Nat.ne_of_lt hmore)
        exact ⟨⟨(cut_self _ _).symm, Nat.le_of_eq hend,
            fun _ _ => ⟨hend, hsealed (Nat.le_of_eq hend.symm)⟩⟩,
          ⟨hstanding, hlive⟩, hplace, (cut_self _ _).symm⟩
    | chunk cursor =>
      obtain ⟨-, hstanding, hplace, -, -⟩ := hmet
      have hgoing : Going blake3 file first limit { after with currChunk := some cursor } :=
        ⟨hstanding, Or.inl fun _ => Or.inl nofun⟩
      obtain ⟨hsome, hfills⟩ := hgoing.fills_current rfl
      dsimp only at hsome hfills ⊢
      rw [if_pos hsome, ← hplace]
      exact hfills

theorem Going.pollFillBuf (turn : ReadTurn) :
    Fills blake3 file first limit reader.index (reader.pollFillBuf blake3 turn) := by
  obtain ⟨hahead, hwait, hfed⟩ := h.standing.flow.pollReadAhead h.live turn
  unfold Reader.pollFillBuf
  rw [if_pos h.standing.flow.reader_consistent]
  generalize reader.pollReadAhead turn = ahead at hahead hwait hfed ⊢
  obtain ⟨shouldPend, queued⟩ := ahead
  have hlive : Live limit queued := by
    cases shouldPend with
    | true => exact Or.inr (hwait rfl)
    | false => exact Or.inl (hfed rfl)
  have hgoing : Going blake3 file first limit queued := ⟨h.standing.ahead hahead, hlive⟩
  rw [← hahead.index]
  exact hgoing.fillLoop hwait hfed

end

/-! ## Chunk by chunk -/

/-- A reader between the polls of a read by chunks, which keeps none at hand. -/
structure Handing (blake3 : List UInt8 → Hash) (file : RemoteFile Hash) (first limit : Nat)
    (reader : Reader Hash) : Prop where
  standing : Standing blake3 file first limit reader
  empty : reader.currChunk = none

/-- What a chunk's poll answers, and the reader it leaves. -/
def HandsChunk (blake3 : List UInt8 → Hash) (file : RemoteFile Hash) (first limit start : Nat)
    (polled : ReadAnswer (List UInt8) × Reader Hash) : Prop :=
  Told blake3 file first limit start True polled ∧
    Kept (Handing blake3 file first limit) file first limit start polled

omit [DecidableEq Hash] in
theorem Handing.armed (h : Handing blake3 file first limit reader) {armed : Reader Hash} (harmed : armed =
      if reader.futures.isEmpty && !reader.allocating then
        { reader with allocating := reader.allocateNextChunk }
      else reader) :
    Ahead file first limit reader armed ∧ Live limit armed := by
  cases hallocating : reader.allocating with
  | true =>
    rw [hallocating, Bool.not_true, Bool.and_false, if_neg Bool.false_ne_true] at harmed
    subst harmed
    exact ⟨.rfl h.standing.flow, Or.inr hallocating⟩
  | false =>
    cases hfutures : reader.futures with
    | nil =>
      rw [hallocating, hfutures, Bool.not_false, Bool.and_true, isEmpty_nil, if_pos rfl] at harmed
      rw [← hfutures] at harmed
      subst harmed
      exact ⟨h.standing.flow.acquire _, h.standing.flow.armed hallocating⟩
    | cons fetch futures =>
      rw [hallocating, hfutures, Bool.not_false, Bool.and_true, isEmpty_cons,
        if_neg Bool.false_ne_true] at harmed
      subst harmed
      refine ⟨.rfl h.standing.flow, Or.inl fun _ => Or.inr ?_⟩
      rw [hfutures]
      exact cons_ne_nil _ _

theorem drop_min_take (data : List UInt8) (skip wanted : Nat) :
    (data.take (skip + wanted)).drop (min skip (data.take (skip + wanted)).length) =
      (data.drop skip).take wanted := by
  rw [← drop_eq_drop_min, drop_take, Nat.add_sub_cancel_left]

theorem Handing.pollNextChunk (h : Handing blake3 file first limit reader) (turn : ReadTurn)
    {answer : ReadAnswer (Option (List UInt8))} {after : Reader Hash}
    (hpoll : reader.pollNextChunk blake3 turn = (answer, after)) :
    HandsChunk blake3 file first limit reader.index (answer.map (fun data => data.getD []), after) := by
  unfold Reader.pollNextChunk at hpoll
  rw [if_pos h.standing.flow.reader_consistent] at hpoll
  dsimp only at hpoll
  generalize harmed : (if reader.futures.isEmpty && !reader.allocating then
    { reader with allocating := reader.allocateNextChunk } else reader) = armed at hpoll
  obtain ⟨hframe, hlive⟩ := h.armed harmed.symm
  obtain ⟨hahead, hwait, hfed⟩ := hframe.flow.pollReadAhead hlive turn
  generalize armed.pollReadAhead turn = ahead at hahead hwait hfed hpoll
  obtain ⟨waitingForMemory, queued⟩ := ahead
  dsimp only at hahead hwait hfed hpoll
  have hqueued := hframe.trans hahead
  have hstanding := h.standing.ahead hqueued
  have hcurr : queued.currChunk = none := hqueued.current.trans h.empty
  have hmet := hstanding.pollNextFetched hcurr turn.arrivals.head?
  generalize queued.pollNextFetched blake3 turn.arrivals.head? = met at hmet hpoll
  obtain ⟨fetched, last⟩ := met
  rw [← hqueued.index]
  cases fetched with
  | pending =>
    obtain ⟨rfl, hfutures⟩ := hmet
    cases hpoll
    exact ⟨Or.inl hfutures, ⟨hstanding, hcurr⟩, rfl⟩
  | failed error =>
    have hsame : last.fetched = queued.fetched := hmet
    cases hpoll
    refine ⟨trivial, ?_⟩
    show Wanted first limit after.fetched
    rw [hsame]
    exact hstanding.flow.wanted
  | none =>
    obtain ⟨hlast, hplace, hnone, hacquire, hfutures, hsealed⟩ := hmet
    cases waitingForMemory with
    | true =>
      cases hpoll
      exact ⟨Or.inr (hacquire.trans (hwait rfl)), ⟨hlast, hnone⟩, hplace⟩
    | false =>
      cases hpoll
      have hend := hstanding.at_end hcurr hfutures (hfed rfl)
      exact ⟨⟨(cut_self _ _).symm, Nat.le_of_eq hend,
          fun _ _ => ⟨hend, hsealed (Nat.le_of_eq hend.symm)⟩⟩,
        ⟨hlast, hnone⟩, hplace, (cut_self _ _).symm⟩
  | chunk cursor =>
    obtain ⟨-, hcurrent, hplace, hnone, -⟩ := hmet
    dsimp only at hpoll
    have hbounded : last.limit = limit := hcurrent.flow.bounded
    subst hbounded
    obtain ⟨hpositive, hmin⟩ := hcurrent.flow.rest rfl
    obtain ⟨hindex, -⟩ := hcurrent.flow.current cursor rfl
    have htake := hcurrent.flow.take_rest (@rfl _ (some cursor)) (last.limit - last.index)
    dsimp only at hpositive hmin hindex htake
    rw [drop_min_take, htake] at hpoll
    -- so many bytes are handed out
    generalize hcount : min (last.limit - last.index) (cursor.data.length - cursor.position) = count
      at hpoll hmin
    have hlength : (cut file.plaintext last.index (last.index + count)).length = count := by
      rw [length_cut_file hcurrent.flow (Nat.le_add_right _ _) (by omega), Nat.add_sub_cancel_left]
    have hleave := hcurrent.leave rfl hmin.symm
    have hlast : { last with index := last.index + count } =
        { { last with currChunk := some cursor } with index := last.index + count, currChunk := none } := by
      rw [← hnone]
    rw [hlength, hlast] at hpoll
    cases hpoll
    rw [← hplace]
    refine ⟨⟨?_, ?_, fun _ hempty => ?_⟩, ⟨hleave, rfl⟩, ?_, ?_⟩
    · show cut file.plaintext _ _ = cut file.plaintext _ (_ + List.length (cut file.plaintext _ _))
      rw [hlength]
    · show _ + List.length (cut file.plaintext _ _) ≤ _
      rw [hlength]
      omega
    · have hzero : (cut file.plaintext last.index (last.index + count)) = [] := hempty
      rw [hzero, length_nil] at hlength
      omega
    · show _ = _ + List.length (cut file.plaintext _ _)
      rw [hlength]
    show cut file.plaintext _ _ = cut file.plaintext _ (_ + List.length (cut file.plaintext _ _))
    rw [hlength]

end Polls

end SyncEngine.Transfer
