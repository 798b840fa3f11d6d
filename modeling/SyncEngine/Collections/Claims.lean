import Mathlib.Data.List.Basic

/-! # Admitting items in batches

Items that may clash are weighed against those already admitted. A batch is asked about once,
before any of it is admitted, so items of one batch are never weighed against one another. What is
admitted depends on where the batches are cut exactly when two admissible items clash.
-/

namespace SyncEngine.Collections

open List

section Batches

variable {α : Type}

/-- The batches of a stream cut whenever the pending items reach a size, with what is left at its
end as the last one. A size of zero is never reached. -/
def cutBatches (size : Nat) : List α → List α → List (List α)
  | pending, [] => if pending.isEmpty then [] else [pending]
  | pending, x :: xs =>
    let pending := pending ++ [x]
    if pending.length = size then pending :: cutBatches size [] xs else cutBatches size pending xs

theorem flatten_cutBatches (size : Nat) (pending xs : List α) :
    (cutBatches size pending xs).flatten = pending ++ xs := by
  induction xs generalizing pending with
  | nil =>
    unfold cutBatches
    by_cases hempty : pending.isEmpty
    · rw [if_pos hempty, isEmpty_iff.mp hempty]
      rfl
    · rw [if_neg hempty, flatten_singleton, append_nil]
  | cons x xs ih =>
    simp only [cutBatches]
    by_cases hfull : (pending ++ [x]).length = size
    · rw [if_pos hfull, flatten_cons, ih, nil_append, append_assoc]
      rfl
    rw [if_neg hfull, ih, append_assoc]
    rfl

theorem cutBatches_one (xs : List α) : cutBatches 1 [] xs = xs.map fun x => [x] := by
  induction xs with
  | nil => rfl
  | cons x xs ih =>
    simp only [cutBatches, nil_append, length_singleton, if_true, ih, map_cons]

theorem map_cutBatches {β : Type} (f : α → β) (size : Nat) (pending xs : List α) :
    (cutBatches size pending xs).map (List.map f) = cutBatches size (pending.map f) (xs.map f) := by
  induction xs generalizing pending with
  | nil =>
    simp only [cutBatches, map_nil, isEmpty_map]
    split <;> rfl
  | cons x xs ih =>
    have hpending : (pending ++ [x]).map f = pending.map f ++ [f x] := map_append
    have hlen : (pending.map f ++ [f x]).length = (pending ++ [x]).length := by
      rw [← hpending, length_map]
    simp only [cutBatches, map_cons, hlen]
    by_cases hfull : (pending ++ [x]).length = size
    · rw [if_pos hfull, if_pos hfull, map_cons, ih, hpending]
      rfl
    · rw [if_neg hfull, if_neg hfull, ih, hpending]

theorem cutBatches_of_short {size : Nat} {pending xs : List α} (hsize : pending.length + xs.length < size)
    (hne : pending ++ xs ≠ []) : cutBatches size pending xs = [pending ++ xs] := by
  induction xs generalizing pending with
  | nil =>
    rw [append_nil] at hne ⊢
    simp only [cutBatches, List.isEmpty_iff, if_neg hne]
  | cons x xs ih =>
    rw [length_cons] at hsize
    have hlen : (pending ++ [x]).length = pending.length + 1 := length_append
    have hshort : (pending ++ [x]).length ≠ size := by omega
    have happend : pending ++ x :: xs = pending ++ [x] ++ xs := append_cons pending x xs
    simp only [cutBatches, if_neg hshort]
    rw [happend] at hne ⊢
    exact ih (by omega) hne

/-! ## Admitting -/

variable (clash : α → α → Bool)

/-- Whether an item clashes with nothing admitted. -/
def free (admitted : List α) (x : α) : Bool := admitted.all fun y => !clash y x

/-- What a batch adds. -/
def admissible (admitted batch : List α) : List α := batch.filter (free clash admitted)

def claimAll (admitted : List α) (batches : List (List α)) : List α :=
  batches.foldl (fun admitted batch => admitted ++ admissible clash admitted batch) admitted

variable {clash}

theorem free_iff {admitted : List α} {x : α} :
    free clash admitted x ↔ ∀ y ∈ admitted, clash y x = false := by
  simp [free]

theorem free_append (admitted more : List α) (x : α) :
    free clash (admitted ++ more) x = (free clash admitted x && free clash more x) :=
  all_append

theorem claimAll_cons (admitted batch : List α) (batches : List (List α)) :
    claimAll clash admitted (batch :: batches) =
      claimAll clash (admitted ++ admissible clash admitted batch) batches := rfl

/-- What is free of the admitted items is still free once a batch apart from it is admitted. -/
theorem admissible_append {admitted batch xs : List α}
    (hapart : ∀ x ∈ admissible clash admitted batch, ∀ y ∈ admissible clash admitted xs, clash x y = false) :
    admissible clash (admitted ++ admissible clash admitted batch) xs = admissible clash admitted xs := by
  unfold admissible at hapart ⊢
  refine filter_congr fun y hy => ?_
  rw [free_append]
  by_cases hfree : free clash admitted y
  · rw [hfree, Bool.true_and]
    exact free_iff.mpr fun x hx => hapart x hx y (mem_filter.mpr ⟨hy, hfree⟩)
  have hheld : free clash admitted y = false := eq_false_of_ne_true hfree
  rw [hheld, Bool.false_and]

/-- Where no two admissible items clash, the batches take what the items read at once do. -/
theorem claimAll_of_apart {admitted : List α} {batches : List (List α)}
    (hapart : (admissible clash admitted batches.flatten).Pairwise fun x y => clash x y = false) :
    claimAll clash admitted batches = admitted ++ admissible clash admitted batches.flatten := by
  induction batches generalizing admitted with
  | nil => exact (append_nil admitted).symm
  | cons batch batches ih =>
    have hsplit : admissible clash admitted (batch :: batches).flatten =
        admissible clash admitted batch ++ admissible clash admitted batches.flatten := by
      rw [flatten_cons]
      exact filter_append _ _
    rw [hsplit] at hapart ⊢
    obtain ⟨-, hrest, hcross⟩ := pairwise_append.mp hapart
    have hsame := admissible_append hcross
    rw [claimAll_cons, ih (by rw [hsame]; exact hrest), hsame, append_assoc]

variable (clash) in
theorem claimAll_singletons (admitted xs : List α) :
    ∃ added, claimAll clash admitted (xs.map fun x => [x]) = admitted ++ added ∧
      added.Pairwise fun x y => clash x y = false := by
  suffices h : ∀ added : List α, (added.Pairwise fun x y => clash x y = false) →
      ∃ added', claimAll clash (admitted ++ added) (xs.map fun x => [x]) = admitted ++ added' ∧
        added'.Pairwise fun x y => clash x y = false by
    simpa using h [] List.Pairwise.nil
  induction xs with
  | nil => exact fun added hpairwise => ⟨added, rfl, hpairwise⟩
  | cons x xs ih =>
    intro added hpairwise
    rw [map_cons, claimAll_cons, append_assoc]
    refine ih _ (pairwise_append.mpr ⟨hpairwise, ?_, ?_⟩)
    · exact (pairwise_singleton _ x).sublist filter_sublist
    intro y hy z hz
    obtain ⟨-, hfree⟩ := mem_filter.mp hz
    exact free_iff.mp hfree y (mem_append_right admitted hy)

/-- Wherever the stream is cut the same is admitted, exactly when no two admissible items clash. -/
theorem claimAll_cuts_iff (admitted xs : List α) (size : Nat) :
    (∀ other, 0 < other →
        claimAll clash admitted (cutBatches other [] xs) = claimAll clash admitted (cutBatches size [] xs)) ↔
      (admissible clash admitted xs).Pairwise fun x y => clash x y = false := by
  constructor
  · intro hsame
    by_cases hne : xs = []
    · rw [hne]
      exact List.Pairwise.nil
    obtain ⟨added, hadded, hpairwise⟩ := claimAll_singletons clash admitted xs
    have hone := hsame 1 Nat.one_pos
    have hwhole := hsame (xs.length + 1) (Nat.succ_pos _)
    rw [cutBatches_one, hadded] at hone
    have hcut : cutBatches (xs.length + 1) [] xs = [xs] :=
      cutBatches_of_short (by rw [length_nil, Nat.zero_add]; exact Nat.lt_succ_self _) hne
    rw [hcut, ← hone, claimAll_cons] at hwhole
    have heq : admissible clash admitted xs = added := append_cancel_left hwhole
    rw [heq]
    exact hpairwise
  intro hapart other _
  have hflat (n : Nat) : (cutBatches n [] xs).flatten = xs := flatten_cutBatches n [] xs
  rw [claimAll_of_apart (by rw [hflat]; exact hapart), claimAll_of_apart (by rw [hflat]; exact hapart),
    hflat, hflat]

end Batches

end SyncEngine.Collections
