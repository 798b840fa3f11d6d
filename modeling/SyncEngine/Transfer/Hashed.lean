import SyncEngine.Transfer.Ranged

/-! # What a whole read is checked against

A reader of a whole file hashes every chunk before it is at hand. Once the last one is
hashed, or there is none, either the file has the hash it declares or nothing more is
handed out.
-/

namespace SyncEngine.Transfer

open Collections Reader List

variable {Hash : Type}

section Checks

variable (blake3 : List UInt8 → Hash) (file : RemoteFile Hash) (first limit : Nat)

/-- A check as it stands at a position, before the next chunk. -/
def Checks (next index : Nat) : ContentCheck Hash → Prop
  | .unchecked => ∀ expected, file.hash = some expected → first = 0 → limit ≠ file.size
  | .hashing expected hashed =>
    file.hash = some expected ∧ limit = file.size ∧
      hashed = file.plaintext.take (next * chunkSize) ∧
        (index < limit ∧ next * chunkSize < limit ∨ limit = 0)
  | .matched => ∃ expected, file.hash = some expected ∧ blake3 file.plaintext = expected
  | .mismatched => False

/-- A whole read has the hash its file declares. -/
def Sealed : Prop :=
  ∀ expected, file.hash = some expected → first = 0 → limit = file.size →
    blake3 file.plaintext = expected

end Checks

section Hashed

variable {blake3 : List UInt8 → Hash} {file : RemoteFile Hash} {first limit next index : Nat}
  {check : ContentCheck Hash}

section

variable (h : Checks blake3 file first limit next index check)
include h

theorem Checks.sealed
    (hended : ∀ expected hashed, check ≠ .hashing expected hashed) : Sealed blake3 file first limit := by
  intro declared hdeclared hfirst hlimit
  cases check with
  | unchecked => exact absurd hlimit (h declared hdeclared hfirst)
  | hashing expected hashed => exact absurd rfl (hended expected hashed)
  | matched =>
    obtain ⟨expected, hexpected, hmatch⟩ := h
    rw [hexpected] at hdeclared
    cases hdeclared
    exact hmatch
  | mismatched => exact h.elim

theorem Checks.within {after : Nat}
    (hafter : after ≤ next * chunkSize) : Checks blake3 file first limit next after check := by
  cases check with
  | hashing expected hashed =>
    obtain ⟨hexpected, hwhole, hhashed, hmore⟩ := h
    refine ⟨hexpected, hwhole, hhashed, ?_⟩
    rcases hmore with ⟨-, hnext⟩ | hempty
    · exact Or.inl ⟨Nat.lt_of_le_of_lt hafter hnext, hnext⟩
    · exact Or.inr hempty
  | unchecked => exact h
  | matched => exact h
  | mismatched => exact h

theorem Checks.past (hindex : index < limit)
    (hpast : limit ≤ next * chunkSize) (number place : Nat) :
    Checks blake3 file first limit number place check := by
  cases check with
  | hashing expected hashed =>
    obtain ⟨-, -, -, ⟨-, hnext⟩ | hempty⟩ := h
    · exact absurd hpast (Nat.not_le.mpr hnext)
    · omega
  | unchecked => exact h
  | matched => exact h
  | mismatched => exact h

end

/-- A reader where it stands, with its check. -/
structure Standing (blake3 : List UInt8 → Hash) (file : RemoteFile Hash) (first limit : Nat)
    (reader : Reader Hash) : Prop where
  flow : Flow file first limit reader
  check : Checks blake3 file first limit reader.base reader.index reader.contentCheck

theorem Standing.ahead {before after : Reader Hash} (h : Standing blake3 file first limit before)
    (hahead : Ahead file first limit before after) : Standing blake3 file first limit after := by
  refine ⟨hahead.flow, ?_⟩
  unfold Reader.base
  rw [hahead.check, hahead.index, hahead.current]
  exact h.check

variable {reader : Reader Hash}

/-! ## The next fetched chunk -/

theorem Flow.arrive {fetch : Fetch} {futures : List Fetch} (h : Flow file first limit reader)
    (hcurr : reader.currChunk = none) (hfutures : reader.futures = fetch :: futures) :
    reader.index < limit ∧ fetch = ⟨reader.index / chunkSize, reader.index % chunkSize⟩ ∧
      ∀ contentCheck, Flow file first limit { reader with
        futures
        contentCheck
        currChunk := some ⟨file.chunk (reader.index / chunkSize), reader.index % chunkSize⟩ } := by
  have hindex : reader.index < limit := by
    by_contra hended
    have hnone := h.ended (Nat.not_lt.mp hended)
    rw [hfutures] at hnone
    cases hnone
  obtain ⟨count, hqueue, hnext⟩ := h.queue hindex
  rw [base_of_none hcurr] at hqueue hnext
  rw [hfutures] at hqueue
  cases count with
  | zero => cases hqueue
  | succ count =>
    rw [range'_succ, map_cons] at hqueue
    obtain ⟨hhead, htail⟩ := List.cons.inj hqueue
    refine ⟨hindex, ?_, fun contentCheck => ?_⟩
    · rw [hhead]
      unfold Reader.fetchAt
      rw [if_pos rfl]
    refine ⟨h.same, h.bounded, h.consistent, h.limit_le, h.first_le, h.index_le, h.log, h.needed,
      fun _ => ⟨count, htail, ?_⟩, ?_, fun hended => absurd hended (Nat.not_le.mpr hindex)⟩
    · rw [base_of_some rfl]
      show reader.nextChunkIdx = reader.index / chunkSize + 1 + count
      rw [hnext, Nat.add_assoc, Nat.add_comm 1]
    rintro cursor hcursor
    cases hcursor
    exact ⟨hindex, rfl⟩

theorem hashed_chunk {hashed : List UInt8} (hhashed : hashed = file.plaintext.take (next * chunkSize)) :
    hashed ++ (file.chunk next).take (file.size - hashed.length) =
      file.plaintext.take ((next + 1) * chunkSize) := by
  have hlength : hashed.length = min (next * chunkSize) file.size := by
    rw [hhashed, length_take]
    rfl
  have hwhole : (file.chunk next).take (file.size - hashed.length) = file.chunk next := by
    refine take_of_length_le ?_
    unfold RemoteFile.chunk
    rw [length_piece_eq, hlength]
    show min chunkSize (file.size - _) ≤ _
    omega
  rw [hwhole, hhashed]
  exact take_append_piece chunkSize file.plaintext next

section Finish

variable [DecidableEq Hash] {fetched : Fetched}

theorem finishCheck_false (blake3 : List UInt8 → Hash) (fetched : Fetched) (reader : Reader Hash) :
    finishCheck blake3 false fetched reader = (fetched, reader) := rfl

theorem finishCheck_done (finished : Bool) (hdone : ∀ expected hashed, reader.contentCheck ≠ .hashing expected hashed) :
    finishCheck blake3 finished fetched reader = (fetched, reader) := by
  unfold Reader.finishCheck
  split
  · rename_i expected hashed heq
    exact absurd heq (hdone expected hashed)
  · rfl

omit [DecidableEq Hash] in
theorem hashChunk_done (data : List UInt8) (hdone : ∀ expected hashed, reader.contentCheck ≠ .hashing expected hashed) :
    hashChunk data reader = reader := by
  unfold Reader.hashChunk
  split
  · rename_i expected hashed heq
    exact absurd heq (hdone expected hashed)
  · rfl

theorem finishCheck_whole {expected : Hash} {hashed : List UInt8}
    (hcheck : reader.contentCheck = .hashing expected hashed) (hexpected : file.hash = some expected)
    (hhashed : hashed = file.plaintext) (number place : Nat) :
    (∃ check, finishCheck blake3 true fetched reader = (fetched, { reader with contentCheck := check }) ∧
        Checks blake3 file first limit number place check ∧
          ∀ expected hashed, check ≠ .hashing expected hashed) ∨
      finishCheck blake3 true fetched reader =
        (.failed .contentHashMismatch, { reader with contentCheck := .mismatched }) := by
  unfold Reader.finishCheck
  rw [hcheck]
  dsimp only
  by_cases hmatch : blake3 hashed = expected
  · rw [if_pos hmatch]
    rw [hhashed] at hmatch
    exact Or.inl ⟨.matched, rfl, ⟨expected, hexpected, hmatch⟩, fun _ _ heq => nomatch heq⟩
  rw [if_neg hmatch]
  exact Or.inr rfl

theorem finishCheck_chunk (h : Checks blake3 file first limit next index reader.contentCheck)
    (hindex : index < limit) (hsame : reader.file = file) {data : List UInt8}
    (hdata : data = file.chunk next) (cursor : Cursor) :
    (∃ check, finishCheck blake3 (hashChunk data reader).coversTheFile
          (.chunk cursor) (hashChunk data reader) =
            (.chunk cursor, { reader with contentCheck := check }) ∧
        Checks blake3 file first limit (next + 1) index check) ∨
      finishCheck blake3 (hashChunk data reader).coversTheFile
          (.chunk cursor) (hashChunk data reader) =
        (.failed .contentHashMismatch, { reader with contentCheck := .mismatched }) := by
  subst hdata
  cases hcheck : reader.contentCheck with
  | hashing expected hashed =>
    rw [hcheck] at h
    obtain ⟨hexpected, hwhole, hhashed, -⟩ := h
    have hmore := hashed_chunk hhashed
    have hhash : hashChunk (file.chunk next) reader = { reader with
        contentCheck := .hashing expected (file.plaintext.take ((next + 1) * chunkSize)) } := by
      unfold Reader.hashChunk
      rw [hcheck]
      dsimp only
      rw [hsame, hmore]
    have hcovers : (hashChunk (file.chunk next) reader).coversTheFile =
        decide (file.size ≤ (file.plaintext.take ((next + 1) * chunkSize)).length) := by
      rw [hhash]
      unfold Reader.coversTheFile
      rw [hsame]
    rw [hcovers, hhash]
    by_cases hall : file.size ≤ (file.plaintext.take ((next + 1) * chunkSize)).length
    · rw [decide_eq_true hall]
      have htake : file.plaintext.take ((next + 1) * chunkSize) = file.plaintext := by
        refine take_of_length_le ?_
        rw [length_take] at hall
        exact (Nat.le_min.mp hall).1
      have hfinish := @finishCheck_whole Hash blake3 file first limit
        { reader with
          contentCheck := .hashing expected (file.plaintext.take ((next + 1) * chunkSize)) }
        inferInstance (.chunk cursor) expected _ rfl hexpected htake (next + 1) index
      rcases hfinish with ⟨check, heq, hchecks, -⟩ | heq
      · exact Or.inl ⟨check, heq, hchecks⟩
      · exact Or.inr heq
    rw [decide_eq_false hall, finishCheck_false]
    refine Or.inl ⟨_, rfl, hexpected, hwhole, rfl, Or.inl ⟨hindex, ?_⟩⟩
    rw [length_take] at hall
    rw [hwhole]
    by_contra hpast
    exact hall (Nat.le_min.mpr ⟨Nat.not_lt.mp hpast, Nat.le_refl _⟩)
  | unchecked =>
    rw [hcheck] at h
    have hdone := fun expected hashed =>
      show reader.contentCheck ≠ .hashing expected hashed by rw [hcheck]; exact nofun
    rw [hashChunk_done _ hdone, finishCheck_done _ hdone]
    exact Or.inl ⟨.unchecked, by rw [← hcheck], h⟩
  | matched =>
    rw [hcheck] at h
    have hdone := fun expected hashed =>
      show reader.contentCheck ≠ .hashing expected hashed by rw [hcheck]; exact nofun
    rw [hashChunk_done _ hdone, finishCheck_done _ hdone]
    exact Or.inl ⟨.matched, by rw [← hcheck], h⟩
  | mismatched =>
    rw [hcheck] at h
    exact h.elim

/-- What the next fetched chunk is, and the reader that met it. -/
def Met (blake3 : List UInt8 → Hash) (file : RemoteFile Hash) (first limit : Nat) (arrival : Option Bool)
    (reader : Reader Hash) : Fetched × Reader Hash → Prop
  | (.pending, after) => after = reader ∧ reader.futures ≠ []
  | (.chunk cursor, after) =>
    arrival = some false ∧ Standing blake3 file first limit { after with currChunk := some cursor } ∧
      after.index = reader.index ∧ after.currChunk = none ∧ after.allocating = reader.allocating
  | (.failed _, after) => after.fetched = reader.fetched
  | (.none, after) =>
    Standing blake3 file first limit after ∧ after.index = reader.index ∧ after.currChunk = none ∧
      after.allocating = reader.allocating ∧ reader.futures = [] ∧
        (limit ≤ reader.index → Sealed blake3 file first limit)

theorem Standing.met_none (h : Standing blake3 file first limit reader) (hcurr : reader.currChunk = none)
    (hfutures : reader.futures = []) (arrival : Option Bool) :
    Met blake3 file first limit arrival reader
      (finishCheck blake3 reader.nextChunkSize.isNone .none reader) := by
  cases hcheck : reader.contentCheck with
  | hashing expected hashed =>
    have hchecks := h.check
    rw [hcheck] at hchecks
    obtain ⟨hexpected, hwhole, hhashed, hmore⟩ := hchecks
    by_cases hindex : reader.index < limit
    · obtain ⟨memory, hnext⟩ := h.flow.nextChunkSize_isSome hindex hcurr hfutures
      rw [hnext, Option.isNone_some, finishCheck_false]
      exact ⟨h, rfl, hcurr, rfl, hfutures, fun hle => absurd hindex (Nat.not_lt.mpr hle)⟩
    have hzero : limit = 0 := hmore.resolve_left fun hlt => hindex hlt.1
    have hnext := h.flow.nextChunkSize_eq_none.mpr (Or.inl (Nat.not_lt.mp hindex))
    have hempty : file.plaintext = [] := eq_nil_of_length_eq_zero (hwhole.symm.trans hzero)
    have hall : hashed = file.plaintext := by
      rw [hhashed, hempty, take_nil]
    rw [hnext, Option.isNone_none]
    rcases @finishCheck_whole Hash blake3 file first limit reader _ .none expected hashed hcheck
        hexpected hall reader.base reader.index with ⟨check, heq, hchecks, hdone⟩ | heq
    · rw [heq]
      have hflow : Flow file first limit { reader with contentCheck := check } :=
        ⟨h.flow.same, h.flow.bounded, h.flow.consistent, h.flow.limit_le, h.flow.first_le,
          h.flow.index_le, h.flow.log, h.flow.needed, h.flow.queue, h.flow.current, h.flow.ended⟩
      exact ⟨⟨hflow, hchecks⟩, rfl, hcurr, rfl, hfutures, fun _ => hchecks.sealed hdone⟩
    rw [heq]
    exact rfl
  | unchecked | matched =>
    have hdone := fun expected hashed =>
      show reader.contentCheck ≠ .hashing expected hashed by rw [hcheck]; exact nofun
    rw [finishCheck_done _ hdone]
    exact ⟨h, rfl, hcurr, rfl, hfutures, fun _ => h.check.sealed hdone⟩
  | mismatched =>
    have hfalse := h.check
    rw [hcheck] at hfalse
    exact hfalse.elim

theorem Standing.pollNextFetched (h : Standing blake3 file first limit reader)
    (hcurr : reader.currChunk = none) (arrival : Option Bool) :
    Met blake3 file first limit arrival reader (reader.pollNextFetched blake3 arrival) := by
  unfold Reader.pollNextFetched
  split
  · rename_i hcheck
    have hfalse := h.check
    rw [hcheck] at hfalse
    exact hfalse.elim
  · rename_i hfutures _
    exact h.met_none hcurr hfutures _
  · rename_i fetch futures hfutures _
    refine ⟨rfl, ?_⟩
    rw [hfutures]
    exact cons_ne_nil _ _
  · exact rfl
  rename_i fetch futures hfutures _
  obtain ⟨hindex, hfetch, harrive⟩ := h.flow.arrive hcurr hfutures
  have hcheck := h.check
  rw [base_of_none hcurr] at hcheck
  subst hfetch
  have hdata : reader.file.chunk (reader.index / chunkSize) = file.chunk (reader.index / chunkSize) := by
    rw [h.flow.same]
  rcases @finishCheck_chunk Hash blake3 file first limit _ reader.index { reader with futures } _ hcheck
      hindex h.flow.same _ hdata
      ⟨reader.file.chunk (reader.index / chunkSize), reader.index % chunkSize⟩ with
    ⟨check, heq, hchecks⟩ | heq
  · rw [heq]
    refine ⟨rfl, ⟨?_, hchecks⟩, rfl, hcurr, rfl⟩
    rw [hdata]
    exact harrive check
  rw [heq]
  exact rfl

end Finish

end Hashed

end SyncEngine.Transfer
