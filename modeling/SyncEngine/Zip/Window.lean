import SyncEngine.Zip.Queue
import Mathlib.Algebra.Order.BigOperators.Group.List
import Mathlib.Algebra.Order.Ring.Nat

/-! # The window of entries

What was listed is, in order, what was written, what is being written, the window and the
entry that waits for room. The window holds what it reserved, within its budget but for an
entry that is heavier alone.
-/

namespace SyncEngine.Zip

open Collections Lookahead List

theorem encryptedChunkSize_lt {chunks size chunkIdx memory : Nat}
    (h : Transfer.encryptedChunkSize chunks size chunkIdx = some memory) : memory < 2 ^ 32 := by
  unfold Transfer.encryptedChunkSize at h
  split at h
  · cases h
  split at h
  · cases h
    exact Transfer.fullChunk_lt
  split at h
  · split at h
    · cases h
    split at h
    · cases h
    split at h
    · rename_i hfits
      cases h
      exact hfits
    · cases h
  · cases h

theorem firstChunkCost_lt (entry : Entry) : firstChunkCost entry < 2 ^ 32 := by
  unfold firstChunkCost
  split
  · unfold firstChunkSize
    split
    · decide
    rename_i chunks size path _
    cases hsize : Transfer.encryptedChunkSize chunks size 0 with
    | none => decide
    | some memory => exact encryptedChunkSize_lt hsize
  · decide
  · decide

theorem saturatingAdd_eq {a b : Nat} (h : a + b < 2 ^ 64) : saturatingAdd a b = a + b :=
  min_eq_left (Nat.le_sub_one_of_lt h)

/-! ## The window -/

variable {Error : Type} {look : Lookahead Error}

namespace Lookahead

/-- The entries in the window, in order. -/
def window (look : Lookahead Error) : List Entry :=
  look.fetched.map Fetched.entry ++ look.fetching.map Fetching.entry

def reservations (look : Lookahead Error) : List Nat :=
  look.fetched.map Fetched.reserved ++ look.fetching.map Fetching.reserved

@[simp] theorem length_window : look.window.length = look.len := by
  unfold window len
  rw [length_append, length_map, length_map, Nat.add_comm]

end Lookahead

/-- A window that lost nothing of the items, after the entries ahead of it. -/
structure Steady {Error : Type} (items : List (Except Error Entry)) (ahead : List Entry) (budget : Nat)
    (idle : Bool) (look : Lookahead Error) : Prop where
  listing : items = (ahead ++ look.window ++ look.waiting.toList).map .ok ++ look.entries.getD []
  costs : look.reservations = look.window.map firstChunkCost
  reserved : look.reserved = look.reservations.sum
  count : look.len ≤ maxWindowEntries
  bounded : look.budget = budget
  within : look.reserved ≤ budget ∨ idle = true ∧ look.len = 1
  whole : look.failure = none

section Steady

variable {items : List (Except Error Entry)} {ahead : List Entry} {budget : Nat} {idle : Bool}
  {entry : Entry} {listed : Nat}

theorem Steady.reserved_le (h : Steady items ahead budget idle look) :
    look.reserved ≤ look.len * 2 ^ 32 := by
  rw [h.reserved, h.costs]
  have hsum := sum_le_card_nsmul (look.window.map firstChunkCost) (2 ^ 32) fun cost hmem => by
    obtain ⟨entry, -, rfl⟩ := mem_map.mp hmem
    exact le_of_lt (firstChunkCost_lt entry)
  rw [length_map, length_window] at hsum
  exact hsum

theorem Steady.pollEntry (h : Steady items ahead budget idle look) (listed : Nat) :
    match look.pollEntry listed with
    | (none, _, after) =>
      after.failure ≠ none ∨ Steady items ahead budget idle after ∧ after.waiting = none
    | (some entry, _, after) =>
      after.waiting = none ∧ Steady items ahead budget idle { after with waiting := some entry } ∧
        after.len = look.len := by
  have hlisting := h.listing
  unfold Lookahead.pollEntry
  cases hwaiting : look.waiting with
  | some entry =>
    rw [hwaiting] at hlisting
    exact ⟨rfl, ⟨hlisting, h.costs, h.reserved, h.count, h.bounded, h.within, h.whole⟩, rfl⟩
  | none =>
    rw [hwaiting] at hlisting
    cases hentries : look.entries with
    | none => exact Or.inr ⟨h, hwaiting⟩
    | some entries =>
      rw [hentries] at hlisting
      cases listed with
      | zero => exact Or.inr ⟨h, hwaiting⟩
      | succ listed =>
        cases entries with
        | nil =>
          exact Or.inr ⟨⟨hlisting, h.costs, h.reserved, h.count, h.bounded, h.within, h.whole⟩, rfl⟩
        | cons item entries =>
          cases item with
          | error error => exact Or.inl nofun
          | ok entry =>
            refine ⟨rfl, ⟨?_, h.costs, h.reserved, h.count, h.bounded, h.within, h.whole⟩, rfl⟩
            rw [hlisting, Option.toList_none, append_nil]
            show _ = (ahead ++ look.window ++ [entry]).map Except.ok ++ entries
            generalize ahead ++ look.window = before
            rw [map_append, append_assoc]
            rfl

theorem Steady.takeIn (h : Steady items ahead budget idle { look with waiting := some entry })
    (hwaiting : look.waiting = none) (hroom : look.len < maxWindowEntries)
    (hadmitted : look.admitted idle (firstChunkCost entry)) :
    Steady items ahead budget idle (look.takeIn entry) := by
  have hcost := firstChunkCost_lt entry
  have hsmall : look.reserved ≤ look.len * 2 ^ 32 := h.reserved_le
  have hsum : saturatingAdd look.reserved (firstChunkCost entry) =
      look.reserved + firstChunkCost entry := by
    refine saturatingAdd_eq ?_
    unfold maxWindowEntries at hroom
    omega
  have hreserved : look.reserved = look.reservations.sum := h.reserved
  have hcosts : look.reservations = look.window.map firstChunkCost := h.costs
  have hwindow : (look.takeIn entry).window = look.window ++ [entry] := by
    unfold Lookahead.window Lookahead.takeIn
    rw [map_append, ← append_assoc]
    rfl
  have hreservations : (look.takeIn entry).reservations = look.reservations ++ [firstChunkCost entry] := by
    unfold Lookahead.reservations Lookahead.takeIn
    rw [map_append, ← append_assoc]
    rfl
  have hlen : (look.takeIn entry).len = look.len + 1 := by
    rw [← length_window, hwindow, length_append, length_window]
    rfl
  have htotal : (look.takeIn entry).reserved = look.reserved + firstChunkCost entry := hsum
  refine ⟨?_, ?_, ?_, ?_, h.bounded, ?_, h.whole⟩
  · rw [hwindow]
    show items = (ahead ++ (look.window ++ [entry]) ++ look.waiting.toList).map .ok ++ _
    rw [hwaiting, Option.toList_none, append_nil, ← append_assoc]
    exact h.listing
  · rw [hreservations, hwindow, map_append, hcosts]
    rfl
  · rw [hreservations, sum_append, sum_singleton, htotal, hreserved]
  · rw [hlen]
    exact hroom
  rw [htotal, hlen]
  unfold Lookahead.admitted at hadmitted
  rw [Bool.or_eq_true, decide_eq_true_eq, Bool.and_eq_true, decide_eq_true_eq, hsum] at hadmitted
  have hbounded : look.budget = budget := h.bounded
  rw [hbounded] at hadmitted
  rcases hadmitted with hfits | ⟨hidle, hempty⟩
  · exact Or.inl hfits
  · exact Or.inr ⟨hidle, by rw [hempty]⟩

theorem Steady.fillWindow {room : Nat} (h : Steady items ahead budget idle look) (listed : Nat)
    (hroom : look.len + room ≤ maxWindowEntries) :
    (Lookahead.fillWindow idle room listed look).failure ≠ none ∨
      Steady items ahead budget idle (Lookahead.fillWindow idle room listed look) := by
  induction room generalizing look listed with
  | zero => exact Or.inr h
  | succ room ih =>
    have hpoll := h.pollEntry listed
    unfold Lookahead.fillWindow
    generalize look.pollEntry listed = polled at hpoll ⊢
    obtain ⟨found, more, after⟩ := polled
    cases found with
    | none => exact hpoll.imp_right And.left
    | some entry =>
      obtain ⟨hwaiting, hholding, hlen⟩ := hpoll
      dsimp only
      by_cases hadmitted : after.admitted idle (firstChunkCost entry)
      · rw [if_pos hadmitted]
        have hnext := hholding.takeIn hwaiting (by omega) hadmitted
        have hgrown : (after.takeIn entry).len = after.len + 1 := by
          unfold Lookahead.len Lookahead.takeIn
          rw [length_append, Nat.add_right_comm]
          rfl
        exact ih hnext more (by omega)
      rw [if_neg hadmitted]
      exact Or.inr hholding

theorem fillWindow_waiting {room : Nat} (h : Steady items ahead budget true look) (listed : Nat)
    (hroom : look.len + room ≤ maxWindowEntries) (hfull : room = 0 → look.len ≠ 0)
    (hwaits : (Lookahead.fillWindow true room listed look).waiting ≠ none) :
    (Lookahead.fillWindow true room listed look).failure ≠ none ∨
      (Lookahead.fillWindow true room listed look).len ≠ 0 := by
  induction room generalizing look listed with
  | zero => exact Or.inr (hfull rfl)
  | succ room ih =>
    have hpoll := h.pollEntry listed
    unfold Lookahead.fillWindow at hwaits ⊢
    generalize look.pollEntry listed = polled at hpoll hwaits ⊢
    obtain ⟨found, more, after⟩ := polled
    cases found with
    | none =>
      rcases hpoll with hfailed | ⟨-, hnone⟩
      · exact Or.inl hfailed
      · exact absurd hnone hwaits
    | some entry =>
      obtain ⟨hwaiting, hholding, hlen⟩ := hpoll
      dsimp only at hwaits ⊢
      by_cases hadmitted : after.admitted true (firstChunkCost entry)
      · rw [if_pos hadmitted] at hwaits ⊢
        have hnext := hholding.takeIn hwaiting (by omega) hadmitted
        have hgrown : (after.takeIn entry).len = after.len + 1 := by
          unfold Lookahead.len Lookahead.takeIn
          rw [length_append, Nat.add_right_comm]
          rfl
        exact ih hnext more (by omega) (fun _ => by omega) hwaits
      rw [if_neg hadmitted]
      refine Or.inr fun hempty => hadmitted ?_
      unfold Lookahead.admitted
      rw [Bool.true_and, decide_eq_true (show after.len = 0 from hempty), Bool.or_true]

/-! ## Fetches that are done -/

theorem settle_failed {fetching : List (Fetching Error)} (h : look.failure ≠ none) :
    (settle fetching look).failure ≠ none := by
  induction fetching generalizing look with
  | nil => exact h
  | cons fetching rest ih =>
    unfold Lookahead.settle
    split
    · exact h
    · exact ih h
    · exact ih nofun

theorem Steady.settle {fetching : List (Fetching Error)} (h : Steady items ahead budget idle { look with fetching }) :
    (settle fetching look).failure ≠ none ∨
      Steady items ahead budget idle (settle fetching look) ∧
        (settle fetching look).len = fetching.length + look.fetched.length ∧
          (settle fetching look).waiting = look.waiting := by
  induction fetching generalizing look with
  | nil => exact Or.inr ⟨h, rfl, rfl⟩
  | cons fetching rest ih =>
    unfold Lookahead.settle
    split
    · exact Or.inr ⟨h, rfl, rfl⟩
    · rename_i firstChunk _
      have hwindow : window { look with
            fetching := rest
            fetched := look.fetched ++ [⟨fetching.entry, firstChunk, fetching.reserved⟩] } =
          window { look with fetching := fetching :: rest } := by
        unfold Lookahead.window
        rw [map_append, append_assoc]
        rfl
      have hreservations : reservations { look with
            fetching := rest
            fetched := look.fetched ++ [⟨fetching.entry, firstChunk, fetching.reserved⟩] } =
          reservations { look with fetching := fetching :: rest } := by
        unfold Lookahead.reservations
        rw [map_append, append_assoc]
        rfl
      have hlen : len { look with
            fetching := rest
            fetched := look.fetched ++ [⟨fetching.entry, firstChunk, fetching.reserved⟩] } =
          len { look with fetching := fetching :: rest } := by
        rw [← length_window, ← length_window, hwindow]
      have hnext : Steady items ahead budget idle { look with
          fetching := rest
          fetched := look.fetched ++ [⟨fetching.entry, firstChunk, fetching.reserved⟩] } := by
        refine ⟨?_, ?_, ?_, ?_, h.bounded, ?_, h.whole⟩
        · rw [hwindow]
          exact h.listing
        · rw [hreservations, hwindow]
          exact h.costs
        · rw [hreservations]
          exact h.reserved
        · rw [hlen]
          exact h.count
        rw [hlen]
        exact h.within
      rcases @ih { look with fetched := look.fetched ++ [⟨fetching.entry, firstChunk, fetching.reserved⟩] }
          hnext with hfailed | ⟨hsteady, hsettled, hwaiting⟩
      · exact Or.inl hfailed
      refine Or.inr ⟨hsteady, ?_, hwaiting⟩
      rw [hsettled, length_append, length_singleton, length_cons]
      omega
    · exact Or.inl (settle_failed nofun)

/-- Filling keeps the window, or fails. With nothing being written an entry waits only behind
others. -/
theorem Steady.pollFill (h : Steady items ahead budget idle look) (listed : Nat) :
    (look.pollFill idle listed).failure ≠ none ∨
      Steady items ahead budget idle (look.pollFill idle listed) ∧
        (idle → (look.pollFill idle listed).waiting ≠ none →
          (look.pollFill idle listed).len ≠ 0) := by
  have hroom : look.len + (maxWindowEntries - look.len) ≤ maxWindowEntries :=
    le_of_eq (Nat.add_sub_cancel' h.count)
  have hfilled := h.fillWindow listed hroom
  have hwaits : idle →
      (Lookahead.fillWindow idle (maxWindowEntries - look.len) listed look).waiting ≠ none →
        (Lookahead.fillWindow idle (maxWindowEntries - look.len) listed look).failure ≠ none ∨
          (Lookahead.fillWindow idle (maxWindowEntries - look.len) listed look).len ≠ 0 := by
    rintro rfl
    refine fillWindow_waiting h listed hroom fun hzero hempty => ?_
    rw [hempty] at hzero
    cases hzero
  unfold Lookahead.pollFill
  generalize Lookahead.fillWindow idle (maxWindowEntries - look.len) listed look = filled
    at hfilled hwaits ⊢
  rcases hfilled with hfailed | hsteady
  · exact Or.inl (settle_failed hfailed)
  rcases Steady.settle (show Steady items ahead budget idle { filled with fetching := filled.fetching } from
    hsteady) with hfailed | ⟨hsettled, hlen, hwaiting⟩
  · exact Or.inl hfailed
  refine Or.inr ⟨hsettled, fun hidle hsome => ?_⟩
  rw [hwaiting] at hsome
  rw [hlen]
  exact (hwaits hidle hsome).resolve_left fun hfailed => hfailed hsteady.whole

end Steady

end SyncEngine.Zip
