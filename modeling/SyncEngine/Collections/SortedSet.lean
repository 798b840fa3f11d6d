import Mathlib.Data.List.Sort
import Mathlib.Data.List.Dedup

/-! # Finite sets listed in order

A set kept as its strictly ascending enumeration. Iterating such a set yields
each element once, in order, so two sets with the same members have the same
enumeration, and a fold over one is a fold over the other.
-/

namespace SyncEngine.Collections

open List

/-- A finite set together with its strictly ascending enumeration. -/
structure SortedSet (α : Type) [LinearOrder α] where
  toList : List α
  sorted : toList.Pairwise (· < ·)

namespace SortedSet

variable {α : Type} [LinearOrder α]

instance : Membership α (SortedSet α) := ⟨fun s a => a ∈ s.toList⟩

instance (a : α) (s : SortedSet α) : Decidable (a ∈ s) :=
  inferInstanceAs (Decidable (a ∈ s.toList))

variable {a : α} {s t : SortedSet α}

theorem mem_def : a ∈ s ↔ a ∈ s.toList := Iff.rfl

theorem nodup (s : SortedSet α) : s.toList.Nodup :=
  s.sorted.imp ne_of_lt

theorem toList_injective (h : s.toList = t.toList) : s = t := by
  cases s
  cases t
  cases h
  rfl

@[ext] theorem ext (h : ∀ a, a ∈ s ↔ a ∈ t) : s = t := by
  apply toList_injective
  exact s.sorted.eq_of_mem_iff t.sorted h

/-- The ordered set of the elements of a list. -/
def ofList (xs : List α) : SortedSet α where
  toList := xs.dedup.insertionSort (· ≤ ·)
  sorted := by
    have hle : (xs.dedup.insertionSort (· ≤ ·)).Pairwise (· ≤ ·) :=
      pairwise_insertionSort _ _
    have hnd : (xs.dedup.insertionSort (· ≤ ·)).Nodup :=
      (perm_insertionSort _ _).nodup_iff.mpr (nodup_dedup xs)
    exact (hle.and hnd).imp fun h => lt_of_le_of_ne h.1 h.2

@[simp] theorem mem_ofList {xs : List α} : a ∈ ofList xs ↔ a ∈ xs := by
  simp [mem_def, ofList]

theorem length_ofList_le (xs : List α) : (ofList xs).toList.length ≤ xs.length := by
  unfold ofList
  rw [length_insertionSort]
  exact (dedup_sublist xs).length_le

def insert (s : SortedSet α) (a : α) : SortedSet α := ofList (a :: s.toList)

@[simp] theorem mem_insert {b : α} : a ∈ s.insert b ↔ a = b ∨ a ∈ s := by
  unfold insert
  rw [mem_ofList, mem_cons, mem_def]

def empty : SortedSet α := ⟨[], List.Pairwise.nil⟩

instance : Inhabited (SortedSet α) := ⟨empty⟩

@[simp] theorem not_mem_empty (a : α) : ¬ a ∈ (empty : SortedSet α) := by
  simp [mem_def, empty]

def contains (s : SortedSet α) (a : α) : Bool := decide (a ∈ s)

@[simp] theorem contains_iff : s.contains a ↔ a ∈ s := by
  simp [contains]

/-- How many members satisfy a test. -/
def count (s : SortedSet α) (test : α → Bool) : Nat := (s.toList.filter test).length

theorem count_eq_of_mem_iff {f g : α → Bool}
    (h : ∀ a, a ∈ s ∧ f a ↔ a ∈ t ∧ g a) : s.count f = t.count g := by
  have hs : (s.toList.filter f).Pairwise (· < ·) := s.sorted.filter _
  have ht : (t.toList.filter g).Pairwise (· < ·) := t.sorted.filter _
  have heq : s.toList.filter f = t.toList.filter g := by
    refine hs.eq_of_mem_iff ht fun a => ?_
    simpa [mem_def] using h a
  unfold count
  rw [heq]

end SortedSet

end SyncEngine.Collections
