import Mathlib.Data.List.Induction
import Mathlib.Data.List.Perm.Basic
import Mathlib.Data.List.Nodup

/-! # Places that hold one item each

Items arrive at places. A place holds the item that arrived there alone; a second one
takes both away for good, and the place remembers how the first was marked and whether an
arrival there was ever marked otherwise. What the places hold in the end does not depend on
the order of the arrivals.
-/

namespace SyncEngine.Collections

open Function List

/-- An item that arrives at a place, with a mark. -/
structure Arrival (κ μ α : Type) where
  place : κ
  mark : μ
  item : α

structure Slots (κ μ α : Type) where
  /-- The item at a place and its mark. -/
  sole : κ → Option (μ × α)
  /-- The mark of the first arrival at a place that holds nothing any more. -/
  held : κ → Option μ
  mixed : κ → Prop

namespace Slots

variable {κ μ α : Type} [DecidableEq κ]

def empty : Slots κ μ α where
  sole _ := none
  held _ := none
  mixed _ := False

/-- Note how an arrival at a held place is marked. -/
def note (slots : Slots κ μ α) (place : κ) (first mark : μ) : Slots κ μ α :=
  { slots with mixed := fun k => slots.mixed k ∨ k = place ∧ first ≠ mark }

def arrive (slots : Slots κ μ α) (arrival : Arrival κ μ α) : Slots κ μ α :=
  match slots.held arrival.place with
  | some first => slots.note arrival.place first arrival.mark
  | none =>
    match slots.sole arrival.place with
    | none =>
      { slots with
        sole := update slots.sole arrival.place (some (arrival.mark, arrival.item)) }
    | some (first, _) =>
      note
        { slots with
          sole := update slots.sole arrival.place none
          held := update slots.held arrival.place (some first) }
        arrival.place first arrival.mark

/-! ## What arrived at a place -/

variable {arrivals arrivals' : List (Arrival κ μ α)} {k : κ}

/-- What arrived at a place, in order. -/
def arrivedAt (arrivals : List (Arrival κ μ α)) (k : κ) : List (Arrival κ μ α) :=
  arrivals.filter fun arrival => arrival.place = k

def soleOf : List (Arrival κ μ α) → Option (μ × α)
  | [arrival] => some (arrival.mark, arrival.item)
  | _ => none

def heldOf : List (Arrival κ μ α) → Option μ
  | first :: _ :: _ => some first.mark
  | _ => none

/-- Slots that hold what so many arrivals leave. -/
structure Settled (arrivals : List (Arrival κ μ α)) (slots : Slots κ μ α) : Prop where
  sole : ∀ k, slots.sole k = soleOf (arrivedAt arrivals k)
  held : ∀ k, slots.held k = heldOf (arrivedAt arrivals k)
  mixed : ∀ k, slots.mixed k ↔
    ∃ a ∈ arrivedAt arrivals k, ∃ b ∈ arrivedAt arrivals k, a.mark ≠ b.mark

theorem settled_empty : Settled [] (empty : Slots κ μ α) := by
  constructor
  · exact fun _ => rfl
  · exact fun _ => rfl
  intro k
  constructor
  · exact False.elim
  rintro ⟨a, ha, -⟩
  cases ha

theorem arrivedAt_concat (arrivals : List (Arrival κ μ α)) (arrival : Arrival κ μ α) (k : κ) :
    arrivedAt (arrivals ++ [arrival]) k =
      arrivedAt arrivals k ++ if arrival.place = k then [arrival] else [] := by
  unfold arrivedAt
  rw [filter_append]
  congr 1
  by_cases h : arrival.place = k
  · rw [if_pos h, filter_singleton, decide_eq_true h, cond_true]
  · rw [if_neg h, filter_singleton, decide_eq_false h, cond_false]

variable {arrival : Arrival κ μ α} {slots slots' : Slots κ μ α} {xs ys : List (Arrival κ μ α)}

theorem arrivedAt_concat_of_ne (arrivals : List (Arrival κ μ α))
    (h : k ≠ arrival.place) : arrivedAt (arrivals ++ [arrival]) k = arrivedAt arrivals k := by
  rw [arrivedAt_concat, if_neg (Ne.symm h), append_nil]

theorem arrivedAt_concat_self (arrivals : List (Arrival κ μ α)) (arrival : Arrival κ μ α) :
    arrivedAt (arrivals ++ [arrival]) arrival.place = arrivedAt arrivals arrival.place ++ [arrival] := by
  rw [arrivedAt_concat, if_pos rfl]

omit [DecidableEq κ] in
/-- Marks differ among arrivals with one more just when they differed or it differs from
the first. -/
theorem mixed_concat (first : Arrival κ μ α) (rest : List (Arrival κ μ α)) (last : Arrival κ μ α) :
    (∃ a ∈ first :: rest ++ [last], ∃ b ∈ first :: rest ++ [last], a.mark ≠ b.mark) ↔
      (∃ a ∈ first :: rest, ∃ b ∈ first :: rest, a.mark ≠ b.mark) ∨ first.mark ≠ last.mark := by
  constructor
  · rintro ⟨a, ha, b, hb, hne⟩
    by_contra hnot
    push Not at hnot
    obtain ⟨hsame, hlast⟩ := hnot
    have hall : ∀ c ∈ first :: rest ++ [last], c.mark = first.mark := by
      intro c hc
      rcases mem_append.mp hc with hc | hc
      · exact hsame c hc first mem_cons_self
      rw [mem_singleton.mp hc]
      exact hlast.symm
    exact hne ((hall a ha).trans (hall b hb).symm)
  rintro (⟨a, ha, b, hb, hne⟩ | hne)
  · exact ⟨a, mem_append_left _ ha, b, mem_append_left _ hb, hne⟩
  exact ⟨first, mem_append_left _ mem_cons_self, last,
    mem_append_right _ (mem_singleton_self last), hne⟩

theorem Settled.other (h : Settled arrivals slots) (hsole : ∀ k, k ≠ arrival.place → slots'.sole k = slots.sole k)
    (hheld : ∀ k, k ≠ arrival.place → slots'.held k = slots.held k)
    (hmixed : ∀ k, k ≠ arrival.place → (slots'.mixed k ↔ slots.mixed k))
    (hat : slots'.sole arrival.place = soleOf (arrivedAt arrivals arrival.place ++ [arrival]) ∧
      slots'.held arrival.place = heldOf (arrivedAt arrivals arrival.place ++ [arrival]) ∧
      (slots'.mixed arrival.place ↔
        ∃ a ∈ arrivedAt arrivals arrival.place ++ [arrival],
          ∃ b ∈ arrivedAt arrivals arrival.place ++ [arrival], a.mark ≠ b.mark)) :
    Settled (arrivals ++ [arrival]) slots' := by
  rw [← arrivedAt_concat_self] at hat
  obtain ⟨hs, hh, hm⟩ := hat
  constructor
  · intro k
    by_cases hk : k = arrival.place
    · rw [hk]
      exact hs
    rw [hsole k hk, arrivedAt_concat_of_ne arrivals hk]
    exact h.sole k
  · intro k
    by_cases hk : k = arrival.place
    · rw [hk]
      exact hh
    rw [hheld k hk, arrivedAt_concat_of_ne arrivals hk]
    exact h.held k
  intro k
  by_cases hk : k = arrival.place
  · rw [hk]
    exact hm
  rw [hmixed k hk, arrivedAt_concat_of_ne arrivals hk]
  exact h.mixed k

theorem Settled.arrive (h : Settled arrivals slots) (arrival : Arrival κ μ α) :
    Settled (arrivals ++ [arrival]) (slots.arrive arrival) := by
  have hsole := h.sole arrival.place
  have hheld := h.held arrival.place
  have hmixed := h.mixed arrival.place
  unfold Slots.arrive
  match hat : arrivedAt arrivals arrival.place with
  | [] =>
    rw [hat] at hsole hheld hmixed
    rw [hheld, hsole]
    refine h.other (fun k hk => update_of_ne hk _ _) (fun _ _ => rfl)
      (fun _ _ => Iff.rfl) ?_
    rw [hat]
    refine ⟨update_self .., hheld, hmixed.trans ?_⟩
    constructor
    · rintro ⟨a, ha, -⟩
      cases ha
    rintro ⟨a, ha, b, hb, hne⟩
    rw [mem_singleton.mp ha, mem_singleton.mp hb] at hne
    exact absurd rfl hne
  | [first] =>
    rw [hat] at hsole hheld hmixed
    rw [hheld, hsole]
    refine h.other (fun k hk => update_of_ne hk _ _)
      (fun k hk => update_of_ne hk _ _) (fun k hk => ?_) ?_
    · exact or_iff_left fun hnew => hk hnew.1
    rw [hat]
    refine ⟨update_self .., update_self .., ?_⟩
    rw [mixed_concat, ← hmixed]
    exact or_congr_right (and_iff_right rfl)
  | first :: second :: rest =>
    rw [hat] at hsole hheld hmixed
    rw [hheld]
    refine h.other (fun _ _ => rfl) (fun _ _ => rfl) (fun k hk => ?_) ?_
    · exact or_iff_left fun hnew => hk hnew.1
    rw [hat]
    refine ⟨hsole, hheld, ?_⟩
    rw [mixed_concat, ← hmixed]
    exact or_congr_right (and_iff_right rfl)

theorem settled_foldl (arrivals : List (Arrival κ μ α)) :
    Settled arrivals (arrivals.foldl arrive empty) := by
  induction arrivals using List.reverseRecOn with
  | nil => exact settled_empty
  | append_singleton arrivals arrival ih =>
    rw [foldl_append]
    exact ih.arrive arrival

theorem Settled.exists_of_sole (h : Settled arrivals slots) {mark : μ} {item : α}
    (hsole : slots.sole k = some (mark, item)) :
    ∃ a ∈ arrivals, a.place = k ∧ a.mark = mark ∧ a.item = item := by
  rw [h.sole] at hsole
  match hat : arrivedAt arrivals k with
  | [] =>
    rw [hat] at hsole
    cases hsole
  | [a] =>
    rw [hat] at hsole
    cases hsole
    have hmem : a ∈ arrivedAt arrivals k := by
      rw [hat]
      exact mem_singleton_self a
    obtain ⟨hin, hplace⟩ := mem_filter.mp hmem
    exact ⟨a, hin, of_decide_eq_true hplace, rfl, rfl⟩
  | _ :: _ :: _ =>
    rw [hat] at hsole
    cases hsole

theorem Settled.exists_of_held (h : Settled arrivals slots) {mark : μ}
    (hheld : slots.held k = some mark) : ∃ a ∈ arrivals, a.place = k ∧ a.mark = mark := by
  rw [h.held] at hheld
  match hat : arrivedAt arrivals k with
  | [] | [_] =>
    rw [hat] at hheld
    cases hheld
  | a :: _ :: _ =>
    rw [hat] at hheld
    cases hheld
    have hmem : a ∈ arrivedAt arrivals k := by
      rw [hat]
      exact mem_cons_self
    obtain ⟨hin, hplace⟩ := mem_filter.mp hmem
    exact ⟨a, hin, of_decide_eq_true hplace, rfl⟩

omit [DecidableEq κ] in
theorem soleOf_perm (h : xs.Perm ys) : soleOf xs = soleOf ys := by
  match xs, h with
  | [], h => rw [h.nil_eq]
  | [x], h => rw [singleton_perm.mp h]
  | x :: x' :: xs, h =>
    have hlength := h.length_eq
    match ys, hlength with
    | _ :: _ :: _, _ => rfl

omit [DecidableEq κ] in
theorem isSome_heldOf_perm (h : xs.Perm ys) :
    (heldOf xs).isSome = (heldOf ys).isSome := by
  have hlength := h.length_eq
  match xs, ys, hlength with
  | [], [], _ => rfl
  | [_], [_], _ => rfl
  | _ :: _ :: _, _ :: _ :: _, _ => rfl

/-- In whatever order items arrive, the same ones are alone, and the same places are held
and mixed. -/
theorem Settled.perm (h : Settled arrivals slots)
    (h' : Settled arrivals' slots') (hperm : arrivals.Perm arrivals') (k : κ) :
    slots.sole k = slots'.sole k ∧ (slots.held k).isSome = (slots'.held k).isSome ∧
      (slots.mixed k ↔ slots'.mixed k) := by
  have hat : (arrivedAt arrivals k).Perm (arrivedAt arrivals' k) := hperm.filter _
  refine ⟨?_, ?_, ?_⟩
  · rw [h.sole, h'.sole]
    exact soleOf_perm hat
  · rw [h.held, h'.held]
    exact isSome_heldOf_perm hat
  rw [h.mixed, h'.mixed]
  constructor
  · rintro ⟨a, ha, b, hb, hne⟩
    exact ⟨a, hat.mem_iff.mp ha, b, hat.mem_iff.mp hb, hne⟩
  rintro ⟨a, ha, b, hb, hne⟩
  exact ⟨a, hat.mem_iff.mpr ha, b, hat.mem_iff.mpr hb, hne⟩

end Slots

/-! ## Rows kept under their places -/

section Rows

variable {κ ρ : Type} [DecidableEq κ] {key : ρ → κ} {rows rows' : List ρ}

/-- The row at a place. -/
def rowAt (key : ρ → κ) (rows : List ρ) (k : κ) : Option ρ := rows.find? fun row => key row = k

variable {row : ρ}

theorem key_of_rowAt {k : κ} (h : rowAt key rows k = some row) : key row = k := by
  have htest := @find?_some ρ (fun row => key row = k) row rows h
  exact of_decide_eq_true htest

theorem rowAt_append (hnone : rowAt key rows (key row) = none) (k : κ) :
    rowAt key (rows ++ [row]) k = if key row = k then some row else rowAt key rows k := by
  unfold rowAt at hnone ⊢
  rw [find?_append]
  by_cases h : key row = k
  · rw [← h, hnone, Option.none_or, if_pos rfl]
    exact find?_cons_of_pos (decide_eq_true rfl)
  · rw [if_neg h, find?_cons_of_neg (by simpa using h), find?_nil, Option.or_none]

theorem rowAt_filter_ne (at' k : κ) :
    rowAt key (rows.filter fun row => key row ≠ at') k = if at' = k then none else rowAt key rows k := by
  unfold rowAt
  rw [find?_filter]
  by_cases h : at' = k
  · rw [if_pos h, find?_eq_none]
    intro row _
    rw [← h]
    simp
  rw [if_neg h]
  congr 1
  funext row
  by_cases hrow : key row = k
  · rw [hrow]
    simp [Ne.symm h]
  · simp [hrow]

section

variable (h : (rows.map key).Nodup)
include h

theorem nodup_map_append (hnone : rowAt key rows (key row) = none) :
    ((rows ++ [row]).map key).Nodup := by
  rw [map_append, map_singleton]
  refine List.Nodup.append h (nodup_singleton _) ?_
  intro k hk hlast
  obtain ⟨old, hold, rfl⟩ := mem_map.mp hk
  rw [mem_singleton] at hlast
  have hnot := find?_eq_none.mp hnone old hold
  exact hnot (decide_eq_true hlast)

theorem rowAt_eq_some :
    rowAt key rows (key row) = some row ↔ row ∈ rows := by
  constructor
  · exact mem_of_find?_eq_some
  intro hmem
  cases hat : rowAt key rows (key row) with
  | none => exact absurd (decide_eq_true rfl) (find?_eq_none.mp hat row hmem)
  | some other =>
    have hother := mem_of_find?_eq_some hat
    rw [inj_on_of_nodup_map h hother hmem (key_of_rowAt hat)]

theorem length_filter_ne {k : κ} (hat : rowAt key rows k = some row) :
    (rows.filter fun other => key other ≠ k).length + 1 = rows.length := by
  have hkey := key_of_rowAt hat
  have hmem := mem_of_find?_eq_some hat
  obtain ⟨front, back, rfl⟩ := append_of_mem hmem
  rw [map_append, map_cons, nodup_middle, nodup_cons] at h
  have hothers : ∀ other ∈ front ++ back, decide (key other ≠ k) := by
    intro other hother
    refine decide_eq_true fun heq => h.1 ?_
    rw [← map_append, hkey, ← heq]
    exact mem_map_of_mem hother
  have hfront := filter_eq_self.mpr fun other ho => hothers other (mem_append_left _ ho)
  have hback := filter_eq_self.mpr fun other ho => hothers other (mem_append_right _ ho)
  rw [filter_append, filter_cons_of_neg (by simp [hkey]), hfront, hback,
    length_append, length_append, length_cons, Nat.add_assoc]

theorem perm_of_rowAt (h' : (rows'.map key).Nodup)
    (hat : ∀ k, rowAt key rows k = rowAt key rows' k) : rows.Perm rows' := by
  refine (perm_ext_iff_of_nodup (List.Nodup.of_map _ h) (List.Nodup.of_map _ h')).mpr fun row => ?_
  rw [← rowAt_eq_some h, ← rowAt_eq_some h', hat]

end

end Rows

end SyncEngine.Collections
