import SyncEngine.Archive.Input

/-! # The feed of a codec

What was fetched and is being fetched are the chunks from the one the codec reads next on,
each once and in order, and the job's own slot is with one chunk at most. So an ask is
answered with the chunk asked for, and while it waits the chunk is being fetched.
-/

namespace SyncEngine.Archive

open Collections Feed List Transfer

variable {archive : List UInt8} {input : ArchiveInput} {index : Nat}

namespace ArchiveInput

/-- The chunks that are in, and the ones being fetched. -/
def inOrder (input : ArchiveInput) : List Nat :=
  input.ready.map ReadyChunk.index ++ input.fetches.map Prod.fst

end ArchiveInput

/-- An input that has the chunks from the next one on, and no memory twice. -/
structure Piped (archive : List UInt8) (input : ArchiveInput) : Prop where
  size : input.size = archive.length
  chunks : input.chunks = pieceCount chunkSize archive.length
  order : input.inOrder = List.range' input.served input.inOrder.length
  next : input.nextFetch = input.served + input.inOrder.length
  within : input.nextFetch ≤ input.chunks
  whole : ∀ chunk ∈ input.ready, chunk.data = piece chunkSize archive chunk.index
  slot : input.slot + input.holders.count .slot = 1
  waits : ∀ index, input.ask = some index →
    index = input.served ∧ input.reading = none ∧ index < input.chunks
  hashed : input.sequential = true → input.hashed = archive.take (input.served * chunkSize)

/-- While an ask waits, nothing is in. -/
def Unanswered (input : ArchiveInput) : Prop := ∀ index, input.ask = some index → input.ready = []

theorem piped_new (archive : List UInt8) : Piped archive (.new archive.length) where
  size := rfl
  chunks := rfl
  order := rfl
  next := rfl
  within := Nat.zero_le _
  whole _ h := nomatch h
  slot := rfl
  waits _ h := nomatch h
  hashed _ := by
    unfold ArchiveInput.new
    rw [Nat.zero_mul, take_zero]

theorem Piped.serveAsk (h : Piped archive input) :
    Piped archive input.serveAsk.2 ∧ Unanswered input.serveAsk.2 ∧
      (input.serveAsk = (none, input) ∨
        ∃ index, input.ask = some index ∧
          input.serveAsk.1 = some (index, piece chunkSize archive index) ∧
          input.serveAsk.2.ask = none ∧ input.serveAsk.2.served = input.served + 1 ∧
          input.serveAsk.2.sequential = input.sequential) := by
  unfold ArchiveInput.serveAsk
  cases hask : input.ask with
  | none =>
    refine ⟨h, fun index hsome => ?_, Or.inl rfl⟩
    rw [hask] at hsome
    cases hsome
  | some index =>
    obtain ⟨rfl, hreading, hlt⟩ := h.waits index hask
    have horder := h.order
    unfold ArchiveInput.inOrder at horder
    cases hready : input.ready with
    | nil => exact ⟨h, fun _ _ => hready, Or.inl rfl⟩
    | cons chunk ready =>
      rw [hready, map_cons, cons_append, length_cons, range'_succ] at horder
      obtain ⟨hindex, hrest⟩ := List.cons.inj horder
      dsimp only
      rw [if_pos hindex]
      have hnext := h.next
      have hslot := h.slot
      have hdata := h.whole chunk (hready ▸ mem_cons_self)
      unfold ArchiveInput.inOrder at hnext
      unfold ArchiveInput.holders at hslot
      rw [hready, map_cons, cons_append, length_cons] at hnext
      rw [hready, hreading, Option.toList_none, nil_append] at hslot
      rw [hindex] at hdata
      refine ⟨⟨h.size, h.chunks, hrest, ?_, h.within, fun other hmem => ?_, hslot,
        (fun _ hsome => nomatch hsome), fun hsequential => ?_⟩, (fun _ hsome => nomatch hsome),
        Or.inr ⟨_, rfl, ?_, rfl, rfl, rfl⟩⟩
      · show input.nextFetch = input.served + 1 + _
        rw [hnext, Nat.add_assoc, Nat.add_comm 1]
        rfl
      · exact h.whole other (hready ▸ mem_cons_of_mem _ hmem)
      · show input.hashed ++ chunk.data = archive.take ((input.served + 1) * chunkSize)
        rw [h.hashed hsequential, hdata, take_append_piece]
      · rw [hdata]

theorem takeMemory_cases {slot grants slot' grants' : Nat} {permit : Permit}
    (h : takeMemory slot grants = some (permit, slot', grants')) :
    slot' + [permit].count .slot = slot := by
  unfold takeMemory at h
  split at h
  · cases h
    rfl
  · cases h
    rfl
  · cases h

section

variable (h : Piped archive input)
include h

theorem Piped.fetch {slot : Nat} {permit : Permit}
    (hmore : input.nextFetch < input.chunks) (hslot : slot + [permit].count .slot = input.slot) :
    Piped archive { input with
      slot := slot
      nextFetch := input.nextFetch + 1
      fetches := input.fetches ++ [(input.nextFetch, permit)] } := by
  have horder : ArchiveInput.inOrder { input with
      slot := slot
      nextFetch := input.nextFetch + 1
      fetches := input.fetches ++ [(input.nextFetch, permit)] } = input.inOrder ++ [input.nextFetch] := by
    unfold ArchiveInput.inOrder
    rw [map_append, ← append_assoc]
    rfl
  refine ⟨h.size, h.chunks, ?_, ?_, hmore, h.whole, ?_, h.waits, h.hashed⟩
  · rw [horder, length_append, length_singleton, range'_concat, ← h.order, Nat.one_mul,
      ← h.next]
  · rw [horder, length_append, length_singleton, ← Nat.add_assoc, ← h.next]
  have hone := h.slot
  unfold ArchiveInput.holders at hone ⊢
  rw [map_append, ← append_assoc, ← append_assoc, count_append,
    Nat.add_comm (List.count _ _), ← Nat.add_assoc]
  rw [← append_assoc, ← hslot] at hone
  exact hone

theorem Piped.fetchAhead (ahead room grants : Nat) :
    Piped archive (input.fetchAhead ahead room grants) ∧
      (input.fetchAhead ahead room grants).ready = input.ready ∧
      (input.fetchAhead ahead room grants).ask = input.ask ∧
      (input.fetchAhead ahead room grants).served = input.served ∧
      (input.fetchAhead ahead room grants).sequential = input.sequential ∧
      input.fetches <+: (input.fetchAhead ahead room grants).fetches := by
  induction room generalizing grants input with
  | zero => exact ⟨h, rfl, rfl, rfl, rfl, prefix_refl _⟩
  | succ room ih =>
    unfold ArchiveInput.fetchAhead
    split
    · rename_i hmore
      cases htake : takeMemory input.slot grants with
      | none => exact ⟨h, rfl, rfl, rfl, rfl, prefix_refl _⟩
      | some taken =>
        obtain ⟨permit, slot, grants'⟩ := taken
        have hfetch := h.fetch hmore.1 (takeMemory_cases htake)
        obtain ⟨hpiped, hready, hask, hserved, hsequential, hfetches⟩ := ih hfetch grants'
        exact ⟨hpiped, hready, hask, hserved, hsequential,
          (prefix_append _ _).trans hfetches⟩
    · exact ⟨h, rfl, rfl, rfl, rfl, prefix_refl _⟩

theorem Piped.fetches_ask (hunanswered : Unanswered input)
    (hask : input.ask = some index) (hsome : input.fetches ≠ []) :
    input.fetches.head?.map Prod.fst = some index := by
  have horder := h.order
  unfold ArchiveInput.inOrder at horder
  rw [hunanswered index hask, map_nil, nil_append, (h.waits index hask).1.symm] at horder
  cases hfetches : input.fetches with
  | nil => exact absurd hfetches hsome
  | cons fetch rest =>
    rw [hfetches, map_cons, length_cons, range'_succ] at horder
    rw [head?_cons, Option.map_some, (List.cons.inj horder).1]

theorem Piped.fetchAhead_ask (hunanswered : Unanswered input)
    (hask : input.ask = some index) (ahead room grants : Nat) :
    (input.fetchAhead ahead (room + 1) grants).fetches ≠ [] := by
  cases hfetches : input.fetches with
  | cons fetch rest =>
    have hgoes := (h.fetchAhead ahead (room + 1) grants).2.2.2.2.2
    rw [hfetches] at hgoes
    intro hnil
    rw [hnil] at hgoes
    cases prefix_nil.mp hgoes
  | nil =>
    obtain ⟨rfl, hreading, hlt⟩ := h.waits index hask
    have hready := hunanswered _ hask
    have hnext := h.next
    have hslot := h.slot
    unfold ArchiveInput.inOrder at hnext
    unfold ArchiveInput.holders at hslot
    rw [hready, hfetches] at hnext hslot
    rw [hreading] at hslot
    have hserved : input.nextFetch = input.served := hnext
    have hone : input.slot = 1 := hslot
    have hmore : input.nextFetch < input.chunks := hserved ▸ hlt
    have hfetch := @Piped.fetch archive input h 0 .slot hmore hone.symm
    have hgoes := (hfetch.fetchAhead ahead room grants).2.2.2.2.2
    unfold ArchiveInput.fetchAhead
    rw [if_pos ⟨hmore, Or.inr ⟨by rw [hask]; rfl, Nat.le_of_eq hserved⟩⟩, hone]
    intro hnil
    have hnone := @Eq.subst _ (fun fetches => input.fetches ++ [(input.nextFetch, .slot)] <+: fetches) _ _
      hnil hgoes
    exact append_ne_nil_of_right_ne_nil _ (cons_ne_nil _ _) (prefix_nil.mp hnone)

theorem Piped.codecDone : Piped archive input.codecDone := by
  refine ⟨h.size, h.chunks, h.order, h.next, h.within, h.whole, ?_, fun index hask => ?_, h.hashed⟩
  · have hone := h.slot
    unfold ArchiveInput.holders at hone
    rw [count_append, ← Nat.add_assoc] at hone
    exact hone
  obtain ⟨hserved, -, hlt⟩ := h.waits index hask
  exact ⟨hserved, rfl, hlt⟩

theorem Piped.dropFetched :
    input.dropFetched.slot + input.dropFetched.holders.count .slot = 1 := by
  have hone := h.slot
  unfold ArchiveInput.holders at hone
  rw [count_append, Nat.add_comm (List.count _ _), ← Nat.add_assoc] at hone
  unfold ArchiveInput.holders ArchiveInput.dropFetched
  rw [map_nil, map_nil, append_nil, append_nil]
  exact hone

theorem Piped.dropPrefetched : Piped archive input.dropPrefetched := by
  refine ⟨h.size, h.chunks, rfl, rfl, ?_, (fun _ hmem => nomatch hmem), h.dropFetched, h.waits, h.hashed⟩
  exact Nat.le_trans (Nat.le_trans (Nat.le_add_right _ _) (Nat.le_of_eq h.next.symm)) h.within

theorem Piped.holdOnSlot : Piped archive input.holdOnSlot := by
  unfold ArchiveInput.holdOnSlot
  split
  · rename_i permit slot hreading hslot
    refine ⟨h.size, h.chunks, h.order, h.next, h.within, h.whole, ?_, fun index hask => ?_, h.hashed⟩
    · have hone := h.slot
      unfold ArchiveInput.holders at hone ⊢
      rw [hreading, hslot, count_append] at hone
      dsimp only
      rw [count_append]
      rw [← hone]
      show slot + [permit].count .slot + (1 + _) = slot + 1 + ([permit].count .slot + _)
      omega
    rw [(h.waits index hask).2.1] at hreading
    cases hreading
  · exact h

theorem Piped.askFor (hlt : index < input.chunks) :
    ∃ waiting, Piped archive waiting ∧ input.askFor index = waiting.serveAsk ∧ waiting.ask = some index ∧
      waiting.served = index ∧
      waiting.sequential = (input.sequential && index = input.served) := by
  have hdone := h.codecDone
  unfold ArchiveInput.askFor
  dsimp only
  have hserved : input.codecDone.served = input.served := rfl
  rw [hserved]
  by_cases hsame : index = input.served
  · rw [if_pos hsame]
    refine ⟨{ input.codecDone with ask := some index }, ⟨hdone.size, hdone.chunks, hdone.order, hdone.next, hdone.within, hdone.whole, hdone.slot,
      fun other hask => ?_, hdone.hashed⟩, rfl, rfl, hsame.symm, ?_⟩
    · cases hask
      exact ⟨hsame, rfl, hlt⟩
    rw [decide_eq_true hsame, Bool.and_true]
    rfl
  rw [if_neg hsame]
  refine ⟨{ input.codecDone.dropFetched with
    sequential := false
    nextFetch := index
    served := index
    run := 0
    ask := some index }, ⟨hdone.size, hdone.chunks, rfl, rfl, Nat.le_of_lt hlt, (fun _ hmem => nomatch hmem),
    hdone.dropFetched, fun other hask => ?_, nofun⟩, rfl, rfl, rfl, ?_⟩
  · cases hask
    exact ⟨rfl, rfl, hlt⟩
  · rw [decide_eq_false hsame, Bool.and_false]

end

/-! ## Runs -/

/-- A feed that answered what it was asked with the chunks asked for, up to the last ask. -/
structure Owing (archive : List UInt8) (feed : Feed) : Prop where
  piped : Piped archive feed.input
  answered : feed.answers.map Prod.fst ++ feed.input.ask.toList = feed.asked
  right : ∀ answer ∈ feed.answers, answer.2 = piece chunkSize archive answer.1
  sequential : feed.input.sequential = true ↔ feed.asked = List.range feed.asked.length
  counted : feed.input.sequential = true →
    feed.asked.length = feed.input.served + feed.input.ask.toList.length

/-- A feed that answered what it could. -/
structure Fed (archive : List UInt8) (feed : Feed) : Prop extends Owing archive feed where
  unanswered : Unanswered feed.input

variable {feed : Feed}

theorem Owing.serve (h : Owing archive feed) : Fed archive (feed.after feed.input.serveAsk) := by
  obtain ⟨hpiped, hunanswered, hanswer⟩ := h.piped.serveAsk
  rcases hanswer with hsame | ⟨index, hask, hanswer, hnone, hserved, hsequential⟩
  · have hfeed : feed.after feed.input.serveAsk = feed := by
      rw [hsame]
      unfold Feed.after
      rw [Option.toList_none, append_nil]
    rw [hsame] at hunanswered
    rw [hfeed]
    exact ⟨h, hunanswered⟩
  have hcount := h.counted
  have hansweredBefore := h.answered
  rw [hask] at hcount hansweredBefore
  unfold Feed.after
  rw [hanswer]
  refine ⟨⟨hpiped, ?_, fun answer hmem => ?_, ?_, fun hseq => ?_⟩, hunanswered⟩
  · dsimp only
    rw [hnone, map_append, Option.toList_none, append_nil]
    exact hansweredBefore
  · rcases mem_append.mp hmem with hold | hnew
    · exact h.right answer hold
    cases mem_singleton.mp hnew
    rfl
  · dsimp only
    rw [hsequential]
    exact h.sequential
  rw [hserved, hnone]
  rw [hsequential] at hseq
  exact hcount hseq

theorem concat_eq_range {l : List Nat} {index : Nat} :
    l ++ [index] = List.range (l ++ [index]).length ↔ l = List.range l.length ∧ index = l.length := by
  rw [length_append, length_singleton, range_succ]
  constructor
  · intro h
    obtain ⟨hfront, hlast⟩ := append_inj' h rfl
    exact ⟨hfront, singleton_inj.mp hlast⟩
  rintro ⟨hfront, hlast⟩
  rw [← hfront, hlast]

theorem Fed.ask (h : Fed archive feed) (hnone : feed.input.ask = none) (hlt : index < feed.input.chunks) :
    Fed archive ({ feed with asked := feed.asked ++ [index] }.after (feed.input.askFor index)) := by
  obtain ⟨waiting, hpiped, haskFor, hask, hserved, hsequential⟩ := h.piped.askFor hlt
  have hanswered := h.answered
  have hcounted := h.counted
  rw [hnone, Option.toList_none, append_nil] at hanswered
  rw [hnone, Option.toList_none, length_nil, Nat.add_zero] at hcounted
  have howing : Owing archive { input := waiting, asked := feed.asked ++ [index], answers := feed.answers } := by
    refine ⟨hpiped, ?_, h.right, ?_, fun hseq => ?_⟩
    · dsimp only
      rw [hask, hanswered]
      rfl
    · dsimp only
      rw [hsequential, Bool.and_eq_true, decide_eq_true_iff, concat_eq_range, ← h.sequential]
      refine and_congr_right fun hseq => ?_
      rw [hcounted hseq]
    rw [hsequential, Bool.and_eq_true, decide_eq_true_iff] at hseq
    rw [hask, hserved, length_append, hcounted hseq.1, ← hseq.2]
    rfl
  rw [haskFor]
  exact howing.serve

theorem Owing.moved (h : Owing archive feed) {after : ArchiveInput} (hpiped : Piped archive after)
    (hask : after.ask = feed.input.ask) (hserved : after.served = feed.input.served)
    (hsequential : after.sequential = feed.input.sequential) :
    Owing archive { feed with input := after } := by
  refine ⟨hpiped, ?_, h.right, ?_, ?_⟩
  · dsimp only
    rw [hask]
    exact h.answered
  · dsimp only
    rw [hsequential]
    exact h.sequential
  dsimp only
  rw [hask, hserved, hsequential]
  exact h.counted

theorem Fed.advance (h : Fed archive feed) (grants : Nat) :
    Fed archive (feed.after (feed.input.advance grants)) := by
  have hserve := h.toOwing.serve
  unfold ArchiveInput.advance
  generalize feed.input.serveAsk = served at hserve
  obtain ⟨answer, input⟩ := served
  obtain ⟨hpiped, hready, hask, hserved, hsequential, -⟩ := hserve.piped.fetchAhead
    (if 2 ≤ input.run then prefetchChunks else 1)
    ((if 2 ≤ input.run then prefetchChunks else 1) - (input.fetches.length + input.ready.length)) grants
  refine ⟨hserve.toOwing.moved hpiped hask hserved hsequential, fun index hsome => ?_⟩
  exact hready.trans (hserve.unanswered index (hask.symm.trans hsome))

theorem Fed.fetched (h : Fed archive feed) {permit : Permit} {fetches : List (Nat × Permit)}
    (hfetches : feed.input.fetches = (index, permit) :: fetches) {data : List UInt8}
    (hdata : data = piece chunkSize archive index) :
    Fed archive (feed.after (ArchiveInput.serveAsk
      { feed.input with fetches, ready := feed.input.ready ++ [⟨index, data, permit⟩] })) := by
  have horder : ArchiveInput.inOrder
      { feed.input with fetches, ready := feed.input.ready ++ [⟨index, data, permit⟩] } =
        feed.input.inOrder := by
    unfold ArchiveInput.inOrder
    rw [hfetches, map_append, append_assoc]
    rfl
  have hpiped : Piped archive
      { feed.input with fetches, ready := feed.input.ready ++ [⟨index, data, permit⟩] } := by
    refine ⟨h.piped.size, h.piped.chunks, ?_, ?_, h.piped.within, fun chunk hmem => ?_, ?_, h.piped.waits,
      h.piped.hashed⟩
    · rw [horder]
      exact h.piped.order
    · rw [horder]
      exact h.piped.next
    · rcases mem_append.mp hmem with hold | hnew
      · exact h.piped.whole chunk hold
      cases mem_singleton.mp hnew
      exact hdata
    have hone := h.piped.slot
    unfold ArchiveInput.holders at hone ⊢
    rw [hfetches] at hone
    rw [map_append, append_assoc]
    exact hone
  exact (h.toOwing.moved hpiped rfl rfl rfl).serve

theorem Fed.step {Error : Type} {short : Error} {move : FeedMove Error} {after : Feed}
    (h : Fed archive feed) (htruthful : Truthful archive feed move)
    (hstep : step short move feed = some after) : Fed archive after := by
  cases move with
  | ask index =>
    unfold Feed.step at hstep
    dsimp only at hstep
    split at hstep
    · rename_i hready
      cases hstep
      exact h.ask hready.1 hready.2
    · cases hstep
  | advance grants =>
    cases hstep
    exact h.advance grants
  | fetched result =>
    unfold Feed.step at hstep
    dsimp only at hstep
    split at hstep
    · cases hstep
    rename_i index permit fetches hfetches
    unfold ArchiveInput.fetchFinished at hstep
    cases result with
    | error error => cases hstep
    | ok data =>
      unfold wholeChunk at hstep
      dsimp only [Except.bind] at hstep
      by_cases hwhole : data.length = chunkPlaintextLen feed.input.size index
      · rw [if_pos hwhole] at hstep
        cases hstep
        rw [h.piped.size] at hwhole
        exact h.fetched hfetches (htruthful index permit fetches hfetches hwhole)
      rw [if_neg hwhole] at hstep
      cases hstep
  | pause =>
    cases hstep
    have hkeep : ∀ input : ArchiveInput, input.holdOnSlot.ask = input.ask ∧
        input.holdOnSlot.served = input.served ∧ input.holdOnSlot.sequential = input.sequential ∧
          input.holdOnSlot.ready = input.ready := by
      intro input
      unfold ArchiveInput.holdOnSlot
      split
      all_goals exact ⟨rfl, rfl, rfl, rfl⟩
    obtain ⟨hask, hserved, hsequential, hready⟩ := hkeep feed.input.dropPrefetched
    exact ⟨h.toOwing.moved h.piped.dropPrefetched.holdOnSlot hask hserved hsequential, fun _ _ => hready⟩
  | codecDone =>
    cases hstep
    exact ⟨h.toOwing.moved h.piped.codecDone rfl rfl rfl, h.unanswered⟩

theorem fed_of_reaches {Error : Type} {short : Error}
    (hreach : (machine short archive.length).Reaches (Truthful archive) feed) : Fed archive feed := by
  refine hreach.invariant ?_ fun s t move h hallowed hstep => h.step hallowed hstep
  exact ⟨⟨piped_new archive, rfl, (fun _ hmem => nomatch hmem), ⟨fun _ => rfl, fun _ => rfl⟩, fun _ => rfl⟩,
    fun _ hask => nomatch hask⟩

theorem Fed.readWhole {Hash : Type} (h : Fed archive feed) (hash : List UInt8 → Hash) (digest : Hash) :
    feed.input.readWhole hash = some digest ↔
      feed.answers.map Prod.fst = List.range (pieceCount chunkSize archive.length) ∧
        feed.input.ask = none ∧ digest = hash archive := by
  have hanswered := h.answered
  have hcounted := h.counted
  have hsequential := h.sequential
  unfold ArchiveInput.readWhole
  constructor
  · intro hsome
    split at hsome
    · rename_i hwhole
      cases hsome
      have hnone : feed.input.ask = none := by
        cases hask : feed.input.ask with
        | none => rfl
        | some index =>
          obtain ⟨hserved, -, hlt⟩ := h.piped.waits index hask
          rw [hserved, hwhole.2] at hlt
          exact absurd hlt (Nat.lt_irrefl _)
      rw [hnone, Option.toList_none, append_nil] at hanswered
      rw [hnone, Option.toList_none, length_nil, Nat.add_zero] at hcounted
      refine ⟨?_, hnone, ?_⟩
      · rw [hanswered, hsequential.mp hwhole.1, hcounted hwhole.1, hwhole.2, h.piped.chunks]
      rw [h.piped.hashed hwhole.1, hwhole.2, h.piped.chunks,
        take_of_length_le (le_pieceCount_mul chunkSize_pos _)]
    · cases hsome
  rintro ⟨hall, hnone, rfl⟩
  rw [hnone, Option.toList_none, append_nil, hall] at hanswered
  rw [hnone, Option.toList_none, length_nil, Nat.add_zero, ← hanswered, length_range] at hcounted
  have hseq : feed.input.sequential := by
    rw [hsequential, ← hanswered, length_range]
  have hserved := (hcounted hseq).symm
  rw [if_pos ⟨hseq, hserved.trans h.piped.chunks.symm⟩, h.piped.hashed hseq, hserved,
    take_of_length_le (le_pieceCount_mul chunkSize_pos _)]

/-- In every run of a feed an ask is answered with the chunk asked for. While one waits, an
advance has the chunk it waits for as the first of the fetches, with however little of the
client's memory, and the job's own slot is with one chunk at most. The hash is answered once
the chunks were served each once and in order and no further ask waits, and it is the hash of
the whole archive. -/
theorem feed_serves_in_order {Error Hash : Type} (short : Error) (hash : List UInt8 → Hash)
    (archive : List UInt8) {feed : Feed}
    (hreach : (machine short archive.length).Reaches (Truthful archive) feed) :
    feed.answers.map Prod.fst ++ feed.input.ask.toList = feed.asked ∧
      (∀ answer ∈ feed.answers, answer.2 = piece chunkSize archive answer.1) ∧
      (∀ grants index, feed.input.ask = some index →
        (feed.input.advance grants).2.ask = some index ∧
          (feed.input.advance grants).2.fetches.head?.map Prod.fst = some index) ∧
      feed.input.holders.count .slot ≤ 1 ∧
      (∀ digest, feed.input.readWhole hash = some digest ↔
        feed.answers.map Prod.fst = List.range (pieceCount chunkSize archive.length) ∧
          feed.input.ask = none ∧ digest = hash archive) := by
  have hfed := fed_of_reaches hreach
  refine ⟨hfed.answered, hfed.right, fun grants index hask => ?_, ?_, hfed.readWhole hash⟩
  · have hserve : feed.input.serveAsk = (none, feed.input) := by
      unfold ArchiveInput.serveAsk
      rw [hask, hfed.unanswered index hask]
    unfold ArchiveInput.advance
    rw [hserve]
    dsimp only
    have hroom : ∀ ahead, 0 < ahead → (feed.input.fetches = [] →
        ∃ room, ahead - (feed.input.fetches.length + feed.input.ready.length) = room + 1) := by
      intro ahead hpos hempty
      rw [hempty, hfed.unanswered index hask]
      exact ⟨ahead - 1, (Nat.sub_add_cancel hpos).symm⟩
    have hahead : 0 < (if 2 ≤ feed.input.run then prefetchChunks else 1) := by
      split
      · decide
      · decide
    generalize (if 2 ≤ feed.input.run then prefetchChunks else 1) = ahead at hahead
    obtain ⟨hpiped, hready, hasked, -, -, hgoes⟩ := hfed.piped.fetchAhead ahead
      (ahead - (feed.input.fetches.length + feed.input.ready.length)) grants
    have hask' := hasked.trans hask
    refine ⟨hask', hpiped.fetches_ask (fun other hother => ?_) hask' ?_⟩
    · exact hready.trans (hfed.unanswered other (hasked.symm.trans hother))
    by_cases hempty : feed.input.fetches = []
    · obtain ⟨room, hroom⟩ := hroom ahead hahead hempty
      rw [hroom]
      exact hfed.piped.fetchAhead_ask hfed.unanswered hask ahead room grants
    intro hnil
    rw [hnil] at hgoes
    exact hempty (prefix_nil.mp hgoes)
  · exact Nat.le_trans (Nat.le_add_left _ _) (Nat.le_of_eq hfed.piped.slot)

theorem truthful_three (feed : Feed) : @Truthful Unit [1, 2, 3] feed (.fetched (.ok [1, 2, 3])) := by
  intro index permit rest hfetches hlength
  unfold chunkPlaintextLen at hlength
  have hpos : 3 ≤ chunkSize := by
    unfold chunkSize
    decide
  cases index with
  | zero =>
    unfold piece
    rw [Nat.zero_mul, drop_zero, take_of_length_le hpos]
  | succ index =>
    rw [Nat.succ_mul] at hlength
    generalize index * chunkSize = before at hlength
    simp only [length_cons, length_nil] at hlength
    omega

/-- The three bytes are asked for, fetched and read whole. -/
theorem feed_serves_in_order_three :
    ∃ feed, (machine () 3).run [.ask 0, .advance 0, .fetched (.ok [1, 2, 3])]
        (machine () 3).start = some feed ∧
      feed.answers = [(0, [1, 2, 3])] ∧ feed.input.readWhole id = some [1, 2, 3] ∧
        feed.input.holders.count .slot ≤ 1 := by
  have hsome : ((machine () 3).run [.ask 0, .advance 0, .fetched (.ok [1, 2, 3])]
      (machine () 3).start).map (fun feed => (feed.answers, feed.input.readWhole id)) =
        some ([(0, [1, 2, 3])], some [1, 2, 3]) := by
    decide +kernel
  obtain ⟨feed, hrun, hseen⟩ := Option.map_eq_some_iff.mp hsome
  obtain ⟨hanswers, hwhole⟩ := Prod.mk.inj hseen
  have hreach : (machine () 3).Reaches (Truthful [1, 2, 3]) feed := by
    refine Machine.reaches_of_run_of .start ?_ hrun
    intro move hmem s
    simp only [mem_cons, not_mem_nil, or_false] at hmem
    rcases hmem with rfl | rfl | rfl
    · trivial
    · trivial
    · exact truthful_three s
  exact ⟨feed, hrun, hanswers, hwhole, (feed_serves_in_order () id [1, 2, 3] hreach).2.2.2.1⟩

/-- With its one chunk served and asked for again, an archive was served whole and in order,
and no hash is answered. -/
theorem second_ask_hides_hash :
    ¬∀ (archive : List UInt8) (feed : Feed),
      (machine () archive.length).Reaches (Truthful archive) feed →
        ((feed.input.readWhole id).isSome = true ↔
          feed.answers.map Prod.fst = List.range (pieceCount chunkSize archive.length)) := by
  intro hall
  have hsome : ((machine () 3).run [.ask 0, .advance 0, .fetched (.ok [1, 2, 3]), .ask 0]
      (machine () 3).start).map (fun feed => (feed.answers.map Prod.fst, feed.input.readWhole id)) =
        some (List.range (pieceCount chunkSize 3), none) := by
    decide +kernel
  obtain ⟨feed, hrun, hseen⟩ := Option.map_eq_some_iff.mp hsome
  obtain ⟨hanswers, hwhole⟩ := Prod.mk.inj hseen
  have hreach : (machine () 3).Reaches (Truthful [1, 2, 3]) feed := by
    refine Machine.reaches_of_run_of .start ?_ hrun
    intro move hmem s
    simp only [mem_cons, not_mem_nil, or_false] at hmem
    rcases hmem with rfl | rfl | rfl | rfl
    · trivial
    · trivial
    · exact truthful_three s
    · trivial
  have hiff := hall [1, 2, 3] feed hreach
  rw [hwhole] at hiff
  exact absurd (hiff.mpr hanswers) Bool.false_ne_true

end SyncEngine.Archive
