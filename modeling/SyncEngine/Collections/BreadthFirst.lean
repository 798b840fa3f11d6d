import Mathlib.Data.List.Nodup
import Mathlib.Data.List.Perm.Subperm
import Mathlib.Order.Basic

/-! # Searching breadth first

A search keeps what it found in the order it found it, each entry with the place of the
one it was found under. Entries are searched in that same order, and an entry is found
once, under the first that lists its key.
-/

namespace SyncEngine.Collections

open List

variable {κ ε : Type} [DecidableEq κ] (key : ε → κ)

/-- The entries whose keys were not seen, the first of each key. -/
def fresh (seen : List κ) : List ε → List ε
  | [] => []
  | e :: rest => if key e ∈ seen then fresh seen rest else e :: fresh (key e :: seen) rest

section Fresh

variable {key} {seen : List κ} {entries : List ε} {e : ε}

theorem mem_of_mem_fresh (h : e ∈ fresh key seen entries) :
    key e ∉ seen ∧ entries.find? (fun other => key other = key e) = some e := by
  induction entries generalizing seen with
  | nil => cases h
  | cons head rest ih =>
    unfold fresh at h
    split at h
    · rename_i hseen
      obtain ⟨hout, hfind⟩ := ih h
      refine ⟨hout, ?_⟩
      have hne : key head ≠ key e := fun heq => hout (heq ▸ hseen)
      rw [find?_cons_of_neg (by simpa using hne), hfind]
    rename_i hnew
    rcases mem_cons.mp h with rfl | h
    · exact ⟨hnew, find?_cons_of_pos (by simp)⟩
    obtain ⟨hout, hfind⟩ := ih h
    rw [mem_cons, not_or] at hout
    rw [find?_cons_of_neg (by simpa using Ne.symm hout.1), hfind]
    exact ⟨hout.2, rfl⟩

theorem nodup_fresh (seen : List κ) (entries : List ε) :
    ((fresh key seen entries).map key).Nodup := by
  induction entries generalizing seen with
  | nil => exact nodup_nil
  | cons head rest ih =>
    unfold fresh
    split
    · exact ih seen
    refine nodup_cons.mpr ⟨fun hmem => ?_, ih _⟩
    obtain ⟨e, he, heq⟩ := mem_map.mp hmem
    exact (mem_of_mem_fresh he).1 (heq ▸ mem_cons_self)

theorem key_mem_fresh (he : e ∈ entries) :
    key e ∈ seen ∨ key e ∈ (fresh key seen entries).map key := by
  induction entries generalizing seen with
  | nil => cases he
  | cons head rest ih =>
    unfold fresh
    rcases mem_cons.mp he with rfl | he
    · split
      · exact Or.inl ‹_›
      · exact Or.inr mem_cons_self
    split
    · exact ih he
    rcases @ih (key head :: seen) he with hold | hfound
    · rcases mem_cons.mp hold with heq | hold
      · rw [heq]
        exact Or.inr mem_cons_self
      · exact Or.inl hold
    · exact Or.inr (mem_cons_of_mem _ hfound)

theorem length_fresh_le (seen : List κ) (entries : List ε) :
    (fresh key seen entries).length ≤ entries.length := by
  induction entries generalizing seen with
  | nil => exact Nat.le_refl _
  | cons head rest ih =>
    unfold fresh
    split
    · exact Nat.le_succ_of_le (ih _)
    · exact Nat.succ_le_succ (ih _)

theorem fresh_congr {seen' : List κ} (h : ∀ k, k ∈ seen ↔ k ∈ seen') (entries : List ε) :
    fresh key seen entries = fresh key seen' entries := by
  induction entries generalizing seen seen' with
  | nil => rfl
  | cons head rest ih =>
    unfold fresh
    rw [ih h, @ih (key head :: seen) (key head :: seen') fun k => by
      rw [mem_cons, mem_cons, h]]
    by_cases hin : key head ∈ seen
    · rw [if_pos hin, if_pos ((h _).mp hin)]
    · rw [if_neg hin, if_neg fun hin' => hin ((h _).mpr hin')]

end Fresh

/-! ## What a search found -/

/-- What holds of a search that has searched so many of the entries it found. -/
structure Searched (children : κ → List ε) (root : ε) (found : List (ε × Option Nat))
    (done : Nat) : Prop where
  start : found[0]? = some (root, none)
  nodup : (found.map fun at' => key at'.1).Nodup
  le : done ≤ found.length
  /-- Each entry but the first is the first of its key under an earlier one, and no
  entry before that one lists its key. -/
  under : ∀ k e o, found[k]? = some (e, o) → 0 < k → ∃ p f o', o = some p ∧ p < k ∧ p < done ∧
    found[p]? = some (f, o') ∧ (children (key f)).find? (fun other => key other = key e) = some e ∧
    ∀ q < p, ∀ f o', found[q]? = some (f, o') → key e ∉ (children (key f)).map key
  closed : ∀ p < done, ∀ f o, found[p]? = some (f, o) → ∀ e ∈ children (key f),
    key e ∈ found.map fun at' => key at'.1

/-- Whether a key is listed under another. -/
def Lists (children : κ → List ε) (a b : κ) : Prop := ∃ e ∈ children a, key e = b

section Searched

variable {key} {children : κ → List ε} {root : ε} {found : List (ε × Option Nat)} {done : Nat}

theorem searched_start (children : κ → List ε) (root : ε) :
    Searched key children root [(root, none)] 0 where
  start := rfl
  nodup := nodup_singleton _
  le := Nat.zero_le _
  under k e o hk hpos := by
    rw [getElem?_eq_none (Nat.succ_le_of_lt hpos)] at hk
    cases hk
  closed p hp := absurd hp (Nat.not_lt_zero p)

section

variable (h : Searched key children root found done)
include h

theorem Searched.step {e : ε} {o : Option Nat}
    (hnext : found[done]? = some (e, o)) :
    Searched key children root (found ++ (fresh key (found.map fun at' => key at'.1)
      (children (key e))).map fun child => (child, some done)) (done + 1) := by
  have hdone : done < found.length := (List.getElem?_eq_some_iff.mp hnext).choose
  have hold : ∀ {k : Nat} {at' : ε × Option Nat}, found[k]? = some at' → ∀ more, (found ++ more)[k]? = some at' := by
    intro k at' hk more
    rw [List.getElem?_append_left (List.getElem?_eq_some_iff.mp hk).choose, hk]
  have hback : ∀ {k : Nat}, k < found.length → ∀ more : List (ε × Option Nat),
      (found ++ more)[k]? = found[k]? := fun hk more => getElem?_append_left hk
  constructor
  · exact hold h.start _
  · rw [map_append, map_map]
    refine h.nodup.append (nodup_fresh _ _) fun k hk hnew => ?_
    obtain ⟨child, hchild, rfl⟩ := mem_map.mp hnew
    exact (mem_of_mem_fresh hchild).1 hk
  · rw [length_append]
    omega
  · intro k child o hk hpos
    by_cases hlt : k < found.length
    · rw [hback hlt] at hk
      obtain ⟨p, f, o', ho, hpk, hp, hf, hfirst, hbefore⟩ := h.under k child o hk hpos
      refine ⟨p, f, o', ho, hpk, by omega, hold hf _, hfirst, fun q hq f o' hf => ?_⟩
      rw [hback (by omega)] at hf
      exact hbefore q hq f o' hf
    rw [getElem?_append_right (Nat.le_of_not_lt hlt), getElem?_map] at hk
    obtain ⟨found', hget, heq⟩ := Option.map_eq_some_iff.mp hk
    cases heq
    obtain ⟨hnew, hfirst⟩ := mem_of_mem_fresh (mem_of_getElem? hget)
    refine ⟨done, e, o.elim none some, rfl, by omega, by omega, ?_, hfirst, fun q hq f o' hf hlisted => ?_⟩
    · rw [hold hnext]
      cases o <;> rfl
    rw [hback (by omega)] at hf
    obtain ⟨other, hother, heq⟩ := mem_map.mp hlisted
    exact hnew (heq ▸ h.closed q hq f o' hf other hother)
  intro p hp f o' hf child hchild
  rw [map_append, map_map, mem_append]
  rw [hback (by omega)] at hf
  rcases Nat.lt_succ_iff_lt_or_eq.mp hp with hp | rfl
  · exact Or.inl (h.closed p hp f o' hf child hchild)
  rw [hnext] at hf
  cases hf
  exact key_mem_fresh hchild

theorem Searched.reached (hdone : found.length ≤ done) (k : κ) :
    k ∈ found.map (fun at' => key at'.1) ↔ Relation.ReflTransGen (Lists key children) (key root) k := by
  constructor
  · intro hk
    obtain ⟨at', hmem, rfl⟩ := mem_map.mp hk
    obtain ⟨i, hi⟩ := mem_iff_getElem?.mp hmem
    clear hk hmem
    -- each entry was found under an earlier one
    induction i using Nat.strongRecOn generalizing at' with
    | _ i ih =>
      rcases Nat.eq_zero_or_pos i with rfl | hpos
      · rw [h.start] at hi
        cases hi
        exact Relation.ReflTransGen.refl
      obtain ⟨p, f, o', -, hpi, -, hf, hfirst, -⟩ := h.under i at'.1 at'.2 hi hpos
      exact (ih p hpi (f, o') hf).tail ⟨at'.1, mem_of_find?_eq_some hfirst, rfl⟩
  intro hreach
  induction hreach with
  | refl =>
    exact mem_map.mpr ⟨(root, none), mem_of_getElem? h.start, rfl⟩
  | tail _ hlists ih =>
    obtain ⟨at', hmem, rfl⟩ := mem_map.mp ih
    obtain ⟨p, hp⟩ := mem_iff_getElem?.mp hmem
    obtain ⟨e, he, rfl⟩ := hlists
    have hlt : p < found.length := (List.getElem?_eq_some_iff.mp hp).choose
    exact h.closed p (by omega) at'.1 at'.2 hp e he

theorem Searched.length_le {all : List ε}
    (hall : ∀ k, ∀ e ∈ children k, e ∈ all) : found.length ≤ all.length + 1 := by
  cases found with
  | nil =>
    have := h.start
    simp at this
  | cons first rest =>
    have hsub : (rest.map fun at' => key at'.1) ⊆ all.map key := by
      intro k hk
      obtain ⟨at', hmem, rfl⟩ := mem_map.mp hk
      obtain ⟨i, hi⟩ := mem_iff_getElem?.mp hmem
      obtain ⟨-, f, -, -, -, -, -, hfirst, -⟩ := h.under (i + 1) at'.1 at'.2 hi (Nat.succ_pos i)
      exact mem_map_of_mem (hall _ _ (mem_of_find?_eq_some hfirst))
    have hle := ((nodup_cons.mp h.nodup).2.subperm hsub).length_le
    simpa using hle

end

end Searched

end SyncEngine.Collections
