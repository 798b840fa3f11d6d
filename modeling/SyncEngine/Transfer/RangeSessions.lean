import Mathlib.Algebra.GroupWithZero.Nat
import SyncEngine.Transfer.RangeReads

/-! # Reading a range

Whatever is polled, and whenever memory is granted and fetches are done, a reader hands out
its range in order, up to the first error.
-/

namespace SyncEngine.Transfer

open Collections Reader ReadSession

section Claims

variable {Hash : Type} (blake3 : List UInt8 → Hash) (file : RemoteFile Hash) (first limit : Nat)

/-- All of the range was handed out, and a whole file's hash is the declared one. -/
def Complete (handed : List UInt8) : Prop :=
  handed = cut file.plaintext first limit ∧
    ∀ expected, file.hash = some expected → first = 0 → limit = file.size → blake3 handed = expected

/-- What a poll says of the bytes still to be handed out, where some are asked for or not. -/
def Truthful (handed : List UInt8) (asked : Prop) : ReadAnswer (List UInt8) × Reader Hash → Prop
  | (.pending, after) => after.futures ≠ [] ∨ after.allocating = true
  | (.ok bytes, _) =>
    handed ++ bytes <+: cut file.plaintext first limit ∧
      (asked → bytes = [] → Complete blake3 file first limit handed)
  | (.err _, _) => True
  | (.panicked, _) => False

end Claims

variable {Hash : Type} {blake3 : List UInt8 → Hash} {file : RemoteFile Hash} {first limit : Nat}

/-- A session that handed out the range up to where its reader is. -/
structure Sound (Good : Reader Hash → Prop) (file : RemoteFile Hash) (first limit : Nat)
    (session : ReadSession Hash) : Prop where
  handed : session.handed = cut file.plaintext first (first + session.handed.length)
  within : first + session.handed.length ≤ limit
  wanted : Wanted first limit session.reader.fetched
  good : session.stopped = false →
    Good session.reader ∧ session.reader.index = first + session.handed.length

section Sound

variable {Good : Reader Hash → Prop} {session : ReadSession Hash}

section

variable (h : Sound Good file first limit session)
include h

theorem Sound.handed_range :
    session.handed <+: cut file.plaintext first limit := by
  rw [h.handed]
  exact cut_prefix_cut (Nat.le_add_right _ _) h.within

theorem Sound.truthful {asked : Prop}
    {polled : ReadAnswer (List UInt8) × Reader Hash}
    (htold : Told blake3 file first limit (first + session.handed.length) asked polled) :
    Truthful blake3 file first limit session.handed asked polled := by
  obtain ⟨answer, after⟩ := polled
  cases answer with
  | pending => exact htold
  | err error => trivial
  | panicked => exact htold
  | ok bytes =>
    obtain ⟨hfollows, hle, hend⟩ := htold
    have hall := follows_append h.handed hfollows
    constructor
    · rw [hall]
      refine cut_prefix_cut (Nat.le_add_right _ _) ?_
      rw [List.length_append, ← Nat.add_assoc]
      exact hle
    intro hasked hempty
    obtain ⟨hlimit, hsealed⟩ := hend hasked hempty
    have hrange : session.handed = cut file.plaintext first limit := by
      rw [← hlimit]
      exact h.handed
    refine ⟨hrange, fun expected hhash hfirst hwhole => ?_⟩
    rw [hrange, hfirst, hwhole]
    unfold RemoteFile.size
    rw [cut_zero_length]
    exact hsealed expected hhash hfirst hwhole

theorem Sound.answered
    (hflow : ∀ reader, Good reader → Flow file first limit reader) {answer : ReadAnswer (List UInt8)}
    {after : Reader Hash} (hkept : Kept Good file first limit (first + session.handed.length) (answer, after)) :
    Sound Good file first limit (session.answered answer after) := by
  cases answer with
  | pending =>
    obtain ⟨hgood, hindex⟩ := hkept
    exact ⟨h.handed, h.within, (hflow after hgood).wanted, fun _ => ⟨hgood, hindex⟩⟩
  | err error => exact ⟨h.handed, h.within, hkept, nofun⟩
  | panicked => exact hkept.elim
  | ok bytes =>
    obtain ⟨hgood, hindex, hfollows⟩ := hkept
    have hlength : first + (session.handed ++ bytes).length = after.index := by
      rw [hindex, List.length_append, Nat.add_assoc]
    refine ⟨follows_append h.handed hfollows, ?_, (hflow after hgood).wanted, fun _ => ⟨hgood, hlength.symm⟩⟩
    show first + (session.handed ++ bytes).length ≤ limit
    rw [hlength]
    exact (hflow after hgood).index_le

end

end Sound

/-! ## Runs -/

def Reader.opened (file : RemoteFile Hash) (first limit maxBufferSize : Nat)
    (contentCheck : ContentCheck Hash) : Reader Hash where
  file
  index := first
  limit
  nextChunkIdx := first / chunkSize
  currChunk := none
  futures := []
  allocating := false
  maxBufferSize
  contentCheck
  fetched := []

def openedCheck (file : RemoteFile Hash) (first limit : Nat) : ContentCheck Hash :=
  if first = 0 ∧ limit = file.size then
    match file.hash with
    | some expected => .hashing expected []
    | none => .unchecked
  else .unchecked

theorem Checks.opened (blake3 : List UInt8 → Hash) (file : RemoteFile Hash) (first limit : Nat) :
    Checks blake3 file first limit (first / chunkSize) first (openedCheck file first limit) := by
  unfold openedCheck
  by_cases hwhole : first = 0 ∧ limit = file.size
  · obtain ⟨rfl, hlimit⟩ := hwhole
    rw [if_pos ⟨rfl, hlimit⟩, Nat.zero_div]
    cases hhash : file.hash with
    | some expected =>
      refine ⟨hhash, hlimit, ?_, ?_⟩
      · rw [Nat.zero_mul, List.take_zero]
      rw [Nat.zero_mul]
      rcases Nat.eq_zero_or_pos limit with hzero | hpos
      · exact Or.inr hzero
      · exact Or.inl ⟨hpos, hpos⟩
    | none =>
      intro expected hexpected
      rw [hhash] at hexpected
      cases hexpected
  rw [if_neg hwhole]
  exact fun _ _ hfirst hlimit => hwhole ⟨hfirst, hlimit⟩

theorem Standing.opened (blake3 : List UInt8 → Hash)
    (hconsistent : chunksConsistentWithSize file.chunks file.size) (hle : limit ≤ file.size)
    (hfirst : first ≤ limit) (maxBufferSize : Nat) :
    Standing blake3 file first limit
      (opened file first limit maxBufferSize (openedCheck file first limit)) := by
  refine ⟨⟨rfl, rfl, hconsistent, hle, Nat.le_refl _, hfirst, ⟨0, rfl, rfl⟩, ?_, fun _ => ⟨0, rfl, rfl⟩, ?_,
    fun _ => rfl⟩, Checks.opened blake3 file first limit⟩
  · exact fun _ hmem => absurd hmem List.not_mem_nil
  · exact fun _ hnone => nomatch hnone

theorem build_going (blake3 : List UInt8 → Hash) (hconsistent : chunksConsistentWithSize file.chunks file.size)
    (start end' maxBufferSize : Option Nat) (tries : Nat)
    (hlimit : limit = min (end'.getD file.size) file.size) (hfirst : first = min (start.getD 0) limit) :
    Going blake3 file first limit (build file start end' maxBufferSize tries) ∧
      (build file start end' maxBufferSize tries).index = first ∧
        (build file start end' maxBufferSize tries).currChunk = none := by
  have hle : limit ≤ file.size := by
    rw [hlimit]
    exact Nat.min_le_right _ _
  have hfirstle : first ≤ limit := by
    rw [hfirst]
    exact Nat.min_le_right _ _
  have hstanding := Standing.opened blake3 hconsistent hle hfirstle (maxBufferSize.getD file.size)
  obtain ⟨hahead, hacquire⟩ := hstanding.flow.fetchAhead tries
  have hbuild : build file start end' maxBufferSize tries =
      let reader := fetchAhead tries (opened file first limit (maxBufferSize.getD file.size)
        (openedCheck file first limit))
      { reader with allocating := reader.allocateNextChunk } := by
    unfold Reader.build
    dsimp only
    rw [← hlimit, ← hfirst]
    exact if_pos hconsistent
  rw [hbuild]
  generalize fetchAhead tries (opened file first limit (maxBufferSize.getD file.size)
    (openedCheck file first limit)) = reader at hahead hacquire
  have hbefore := hstanding.ahead hahead
  have harmed := hbefore.flow.acquire reader.allocateNextChunk
  exact ⟨⟨hbefore.ahead harmed, hbefore.flow.armed hacquire⟩, hahead.index, hahead.current⟩

theorem Sound.begun {Good : Reader Hash → Prop} {reader : Reader Hash}
    (hflow : ∀ reader, Good reader → Flow file first limit reader) (hgood : Good reader)
    (hindex : reader.index = first) :
    Sound Good file first limit { reader, handed := [], stopped := false } := by
  have hle := (hflow reader hgood).index_le
  rw [hindex] at hle
  exact ⟨(cut_self _ _).symm, hle, (hflow reader hgood).wanted, fun _ => ⟨hgood, hindex⟩⟩

section Runs

variable {session next : ReadSession Hash}

theorem Sound.pushed {Good : Reader Hash → Prop} (h : Sound Good file first limit session)
    (hopen : session.stopped = false) (hflow : ∀ reader, Good reader → Flow file first limit reader)
    (hgood : ∀ reader, Good reader → Good reader.pushFetchNextChunk) :
    Sound Good file first limit { session with reader := session.reader.pushFetchNextChunk } := by
  obtain ⟨hreader, hindex⟩ := h.good hopen
  have hnext := hgood _ hreader
  exact ⟨h.handed, h.within, (hflow _ hnext).wanted,
    fun _ => ⟨hnext, (push_frame session.reader).1.trans hindex⟩⟩

theorem Going.pushed {reader : Reader Hash} (h : Going blake3 file first limit reader) :
    Going blake3 file first limit reader.pushFetchNextChunk :=
  ⟨h.standing.ahead h.standing.flow.push_ahead, Or.inl h.standing.flow.push_fed⟩

theorem Handing.pushed {reader : Reader Hash} (h : Handing blake3 file first limit reader) :
    Handing blake3 file first limit reader.pushFetchNextChunk :=
  ⟨h.standing.ahead h.standing.flow.push_ahead, (push_frame reader).2.1.trans h.empty⟩

variable [DecidableEq Hash]

theorem Sound.step_bytes (h : Sound (Going blake3 file first limit) file first limit session)
    {move : ReadMove} (hallowed : ByBytes Hash session move)
    (hstep : step blake3 move session = some next) :
    Sound (Going blake3 file first limit) file first limit next := by
  have hflow := fun reader (hgood : Going blake3 file first limit reader) => hgood.standing.flow
  cases move with
  | read bufLen turn =>
    obtain ⟨hgoing, hindex⟩ := h.good hallowed
    have hkept := (hgoing.pollRead bufLen turn).2
    rw [hindex] at hkept
    cases hstep
    exact h.answered hflow hkept
  | fill turn =>
    obtain ⟨hgoing, hindex⟩ := h.good hallowed
    have hkept := (hgoing.pollFillBuf turn).2
    rw [hindex] at hkept
    cases hstep
    exact h.answered hflow hkept
  | consume amt =>
    obtain ⟨hgoing, hindex⟩ := h.good hallowed
    have hhanded := hgoing.standing.consume amt
    cases hstep
    refine h.answered hflow ?_
    rw [← hindex]
    exact ⟨⟨hhanded.standing, hhanded.live hgoing.live⟩, hhanded.index, hhanded.follows⟩
  | next turn => exact hallowed.elim
  | recycle => exact hallowed.elim
  | reserve =>
    cases hstep
    exact h.pushed hallowed hflow fun _ hgood => hgood.pushed

theorem Sound.step_chunks (h : Sound (Handing blake3 file first limit) file first limit session)
    {move : ReadMove} (hallowed : ByReadChunks Hash session move)
    (hstep : step blake3 move session = some next) :
    Sound (Handing blake3 file first limit) file first limit next := by
  have hflow := fun reader (hgood : Handing blake3 file first limit reader) => hgood.standing.flow
  cases move with
  | read bufLen turn => exact hallowed.elim
  | fill turn => exact hallowed.elim
  | consume amt => exact hallowed.elim
  | next turn =>
    obtain ⟨hhanding, hindex⟩ := h.good hallowed
    unfold ReadSession.step at hstep
    dsimp only at hstep
    generalize hpoll : session.reader.pollNextChunk blake3 turn = polled at hstep
    obtain ⟨answer, after⟩ := polled
    have hkept := (hhanding.pollNextChunk turn hpoll).2
    rw [hindex] at hkept
    cases hstep
    exact h.answered hflow hkept
  | recycle | reserve =>
    cases hstep
    exact h.pushed hallowed hflow fun _ hgood => hgood.pushed

end Runs

/-- A reader of a file with as many chunks as its size takes hands out the bytes of its range
in order, whatever the sizes of the buffers and the order in which memory is granted and
fetches are done. It fetches each chunk of the range at most once, and no other. It waits only
for a fetch or for memory, and says that the data ended only once the range was handed out;
a whole file then has the hash it declares. -/
theorem reads_its_range {Hash : Type} [DecidableEq Hash] (blake3 : List UInt8 → Hash)
    (file : RemoteFile Hash) (start end' maxBufferSize : Option Nat) (tries : Nat)
    (hconsistent : chunksConsistentWithSize file.chunks file.size = true) :
    let limit := min (end'.getD file.size) file.size
    let first := min (start.getD 0) limit
    let machine := machine blake3 file start end' maxBufferSize tries
    (∀ session, machine.Reaches (ByBytes Hash) session →
      session.handed <+: cut file.plaintext first limit ∧ Wanted first limit session.reader.fetched ∧
        (session.stopped = false → ∀ turn,
          (∀ bufLen, Truthful blake3 file first limit session.handed (0 < bufLen)
            (session.reader.pollRead blake3 bufLen turn)) ∧
          Truthful blake3 file first limit session.handed True
            (session.reader.pollFillBuf blake3 turn))) ∧
    (∀ session, machine.Reaches (ByReadChunks Hash) session →
      session.handed <+: cut file.plaintext first limit ∧ Wanted first limit session.reader.fetched ∧
        (session.stopped = false → ∀ turn answer after,
          session.reader.pollNextChunk blake3 turn = (answer, after) →
            Truthful blake3 file first limit session.handed True
              (answer.map fun data => data.getD [], after))) := by
  intro limit first machine
  obtain ⟨hgoing, hindex, hcurr⟩ := @build_going Hash file first limit blake3 hconsistent start end'
    maxBufferSize tries rfl rfl
  constructor
  · intro session hreach
    have hsound : Sound (Going blake3 file first limit) file first limit session := by
      refine hreach.invariant ?_ fun _ _ _ h hallowed hstep => h.step_bytes hallowed hstep
      exact .begun (fun _ hgood => hgood.standing.flow) hgoing hindex
    refine ⟨hsound.handed_range, hsound.wanted, fun hopen turn => ?_⟩
    obtain ⟨hreader, hplace⟩ := hsound.good hopen
    refine ⟨fun bufLen => hsound.truthful ?_, hsound.truthful ?_⟩
    · rw [← hplace]
      exact (hreader.pollRead bufLen turn).1
    rw [← hplace]
    exact (hreader.pollFillBuf turn).1
  intro session hreach
  have hsound : Sound (Handing blake3 file first limit) file first limit session := by
    refine hreach.invariant ?_ fun _ _ _ h hallowed hstep => h.step_chunks hallowed hstep
    exact .begun (fun _ hgood => hgood.standing.flow) ⟨hgoing.standing, hcurr⟩ hindex
  refine ⟨hsound.handed_range, hsound.wanted, fun hopen turn answer after hpoll => hsound.truthful ?_⟩
  obtain ⟨hreader, hplace⟩ := hsound.good hopen
  rw [← hplace]
  exact (hreader.pollNextChunk turn hpoll).1

/-- Two of three bytes read, and then the third filled. -/
theorem reads_its_range_three :
    let file : RemoteFile Nat :=
      {
        plaintext := [1, 2, 3]
        chunks := 1
        hash := some 6
      }
    let blake3 := fun bytes : List UInt8 => (bytes.map UInt8.toNat).sum
    let turn : ReadTurn :=
      {
        tries := 1
        granted := true
        arrivals := [false]
      }
    let start := (machine blake3 file none none none 1).start
    let polled := start.reader.pollRead blake3 2 turn
    let session := start.answered polled.1 polled.2
    session.handed = [1, 2] ∧ session.handed <+: cut file.plaintext 0 3 ∧
      Truthful blake3 file 0 3 session.handed True (session.reader.pollFillBuf blake3 turn) := by
  intro file blake3 turn start polled session
  have hconsistent : chunksConsistentWithSize file.chunks file.size := by decide +kernel
  have hclaim := reads_its_range blake3 file none none none 1 hconsistent
  have hreach : (machine blake3 file none none none 1).Reaches (ByBytes Nat) session :=
    @Machine.Reaches.step _ _ _ _ _ _ (.read 2 turn) .start rfl rfl
  have hhanded : session.handed = [1, 2] := by decide +kernel
  have hopen : session.stopped = false := by decide +kernel
  obtain ⟨hrange, -, hpolls⟩ := hclaim.1 session hreach
  exact ⟨hhanded, hrange, (hpolls hopen turn).2⟩

end SyncEngine.Transfer
