import Mathlib.Algebra.BigOperators.Group.Finset.Piecewise
import Mathlib.Tactic.Abel

/-! # Sums over a forest whose parents come first

The nodes of a forest are numbered, each after its parent. Passing every node's sum on
to its parent, from the last node to the first, leaves at each node the sum over
everything below it.
-/

namespace SyncEngine.Collections

open Classical Function List

variable {M α : Type} [AddCommMonoid M] (parent : Nat → Option Nat)

/-- Whether a node is another or lies below it. -/
def Within (k j : Nat) : Prop := Relation.ReflTransGen (fun a b => parent b = some a) k j

/-- Whether what hangs under a place hangs below a node. -/
def Under (k : Nat) (place : Option Nat) : Prop := ∃ p, place = some p ∧ Within parent k p

/-- Pass a node's sum on to its parent, and one for the node itself. -/
def passUp (one : M) (acc : Nat → M) (i : Nat) : Nat → M :=
  match parent i with
  | some p => update acc p (acc p + (acc i + one))
  | none => acc

section Pass

variable {parent} (hbefore : ∀ j p, parent j = some p → p < j)

include hbefore in
theorem Within.le {k j : Nat} (h : Within parent k j) : k ≤ j := by
  induction h with
  | refl => exact Nat.le_refl k
  | tail _ hstep ih => exact ih.trans (hbefore _ _ hstep).le

include hbefore in
theorem not_under_of_le {k j : Nat} (h : j ≤ k) : ¬ Under parent k (parent j) := by
  rintro ⟨p, hp, hwithin⟩
  have hle := hwithin.le hbefore
  have hlt := hbefore j p hp
  omega

theorem within_iff {k j : Nat} : Within parent k j ↔ j = k ∨ Under parent k (parent j) := by
  constructor
  · intro h
    rcases Relation.ReflTransGen.cases_tail h with heq | ⟨p, hwithin, hp⟩
    · exact Or.inl heq
    · exact Or.inr ⟨p, hp, hwithin⟩
  rintro (rfl | ⟨p, hp, hwithin⟩)
  · exact Relation.ReflTransGen.refl
  · exact hwithin.tail hp

include hbefore in
theorem foldl_passUp (one : M) (n : Nat) (own : Nat → M) (k : Nat) :
    (List.range n).reverse.foldl (passUp parent one) own k =
      own k + ∑ j ∈ Finset.range n with Under parent k (parent j), (own j + one) := by
  induction n generalizing own with
  | zero => simp
  | succ n ih =>
    -- the last node is a leaf: what it passes on reaches the nodes it lies below
    rw [range_succ, reverse_append, reverse_singleton, singleton_append,
      foldl_cons, ih, Finset.range_add_one, Finset.filter_insert]
    cases hp : parent n with
    | none =>
      have hroot : ¬ Under parent k none := fun ⟨p, hp, _⟩ => by cases hp
      rw [if_neg hroot]
      unfold passUp
      rw [hp]
    | some p =>
      have hpn := hbefore n p hp
      have hout : n ∉ (Finset.range n).filter fun j => Under parent k (parent j) := by simp
      have hown : passUp parent one own n = update own p (own p + (own n + one)) := by
        unfold passUp
        rw [hp]
      have hsum : ∑ j ∈ Finset.range n with Under parent k (parent j),
            (update own p (own p + (own n + one)) j + one) =
          (∑ j ∈ Finset.range n with Under parent k (parent j), (own j + one)) +
            if Under parent k (parent p) then own n + one else 0 := by
        have hone : (if Under parent k (parent p) then own n + one else 0) =
            ∑ j ∈ Finset.range n with Under parent k (parent j), if j = p then own n + one else 0 := by
          rw [Finset.sum_ite_eq']
          simp [hpn]
        rw [hone, ← Finset.sum_add_distrib]
        refine Finset.sum_congr rfl fun j _ => ?_
        by_cases heq : j = p
        · subst heq
          rw [update_self, if_pos rfl]
          abel
        · rw [update_of_ne heq, if_neg heq, add_zero]
      rw [hown, hsum]
      by_cases hk : k = p
      · subst hk
        have hself : ¬ Under parent k (parent k) := not_under_of_le hbefore (Nat.le_refl k)
        rw [update_self, if_neg hself, if_pos ⟨k, rfl, Relation.ReflTransGen.refl⟩,
          Finset.sum_insert hout]
        abel
      rw [update_of_ne hk]
      have hiff : Under parent k (some p) ↔ Under parent k (parent p) := by
        constructor
        · rintro ⟨q, hq, hwithin⟩
          cases hq
          exact (within_iff.mp hwithin).resolve_left (Ne.symm hk)
        · exact fun h => ⟨p, rfl, within_iff.mpr (Or.inr h)⟩
      by_cases hunder : Under parent k (parent p)
      · rw [if_pos hunder, if_pos (hiff.mpr hunder), Finset.sum_insert hout]
        abel
      · rw [if_neg hunder, if_neg fun h => hunder (hiff.mp h), add_zero]

include hbefore in
/-- Where each node starts with the sum of what hangs under it, a pass leaves the sum of
what hangs below it and one for every node below it. -/
theorem foldl_passUp_hung (one : M) (n : Nat) (place : α → Option Nat) (weight : α → M)
    (xs : List α) (hplace : ∀ x ∈ xs, ∀ p, place x = some p → p < n) (k : Nat) :
    (List.range n).reverse.foldl (passUp parent one)
        (fun j => ((xs.filter fun x => place x = some j).map weight).sum) k =
      ((xs.filter fun x => Under parent k (place x)).map weight).sum +
        ((Finset.range n).filter fun j => Under parent k (parent j)).card • one := by
  rw [foldl_passUp hbefore, Finset.sum_add_distrib, Finset.sum_const, ← add_assoc]
  congr 1
  induction xs with
  | nil => simp
  | cons x xs ih =>
    have hrest := ih fun y hy => hplace y (mem_cons_of_mem _ hy)
    -- what hangs under a place is summed at that place alone
    have hone : ∀ j, (((x :: xs).filter fun x => place x = some j).map weight).sum =
        (if place x = some j then weight x else 0) +
          ((xs.filter fun x => place x = some j).map weight).sum := by
      intro j
      by_cases hx : place x = some j <;> simp [hx]
    simp only [hone, Finset.sum_add_distrib]
    rw [add_add_add_comm, hrest]
    cases hx : place x with
    | none =>
      have hroot : ¬ Under parent k none := fun ⟨p, hp, _⟩ => by cases hp
      simp [hx, hroot]
    | some p =>
      have hpn := hplace x mem_cons_self p hx
      have hsum : (if p = k then weight x else 0) +
          (∑ j ∈ Finset.range n with Under parent k (parent j), if p = j then weight x else 0) =
          if Under parent k (some p) then weight x else 0 := by
        have hiff : Under parent k (some p) ↔ p = k ∨ Under parent k (parent p) :=
          ⟨fun ⟨q, hq, hwithin⟩ => by cases hq; exact within_iff.mp hwithin,
            fun h => ⟨p, rfl, within_iff.mpr h⟩⟩
        rw [Finset.sum_ite_eq]
        by_cases hk : p = k
        · subst hk
          have hself := not_under_of_le hbefore (Nat.le_refl p)
          simp [hiff, hself]
        · simp [hiff, hk, hpn]
      by_cases hunder : Under parent k (some p)
      · rw [if_pos hunder] at hsum
        simp only [Option.some.injEq, hsum]
        simp [hx, hunder]
      rw [if_neg hunder] at hsum
      simp only [Option.some.injEq, hsum, zero_add]
      simp [hx, hunder]

end Pass

end SyncEngine.Collections
