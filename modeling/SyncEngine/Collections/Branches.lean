import Mathlib.Data.List.Induction
import Mathlib.Data.List.Nodup
import Mathlib.Data.List.Perm.Basic

/-! # Branches below a root

Rows name their parents. A branch leads down from a key through open rows, each the child
of the one before; it may not pass the root again. Listing what lies below the root
top-down, to a depth, meets each row whose parent a branch from the root leads to, once.
-/

namespace SyncEngine.Collections

open List

/-- Rows with a key and a parent's key, some shown and some of these open. -/
structure Branching (κ ρ : Type) where
  rows : List ρ
  key : ρ → κ
  parent : ρ → κ
  shown : ρ → Bool
  opens : ρ → Bool
  root : κ
  distinct : (rows.map key).Nodup
  shown_of_opens : ∀ r, opens r = true → shown r = true
  root_closed : ∀ r, key r = root → opens r = false

namespace Branching

variable {κ ρ : Type} [DecidableEq κ] (b : Branching κ ρ)

def children (u : κ) : List ρ := b.rows.filter fun r => b.parent r = u

/-- The rows shown below a key down to a depth, each with the open rows that lead to it. -/
def below : Nat → κ → List ρ → List (List ρ × ρ)
  | 0, _, _ => []
  | n + 1, u, trail =>
    (b.children u).flatMap fun r =>
      if b.shown r then
        (trail, r) :: if b.opens r then below n (b.key r) (trail ++ [r]) else []
      else []

/-- Open rows that lead from one key down to another. -/
inductive Leads : κ → List ρ → κ → Prop where
  | nil (u : κ) : Leads u [] u
  | cons {u v : κ} {r : ρ} {trail : List ρ} (hmem : r ∈ b.rows) (hparent : b.parent r = u)
      (hopens : b.opens r = true) (h : Leads (b.key r) trail v) : Leads u (r :: trail) v

variable {b} {u v : κ} {trail trail' : List ρ} {r : ρ}

omit [DecidableEq κ] in
theorem Leads.concat (h : b.Leads u trail v) (hmem : r ∈ b.rows) (hparent : b.parent r = v)
    (hopens : b.opens r) : b.Leads u (trail ++ [r]) (b.key r) := by
  induction h with
  | nil u => exact .cons hmem hparent hopens (.nil _)
  | cons hmem' hparent' hopens' _ ih => exact .cons hmem' hparent' hopens' (ih hparent)

omit [DecidableEq κ] in
theorem Leads.cases_concat (h : b.Leads u trail v) :
    (trail = [] ∧ u = v) ∨
      ∃ front r, trail = front ++ [r] ∧ r ∈ b.rows ∧ b.opens r ∧ b.key r = v ∧
        b.Leads u front (b.parent r) := by
  induction h with
  | nil u => exact Or.inl ⟨rfl, rfl⟩
  | cons hmem hparent hopens h ih =>
    rename_i u v r trail
    right
    rcases ih with ⟨rfl, hkey⟩ | ⟨front, last, rfl, hlast, hopen, hkey, hfront⟩
    · refine ⟨[], r, rfl, hmem, hopens, hkey, ?_⟩
      rw [hparent]
      exact .nil u
    · exact ⟨r :: front, last, rfl, hlast, hopen, hkey, .cons hmem hparent hopens hfront⟩

omit [DecidableEq κ] in
theorem eq_of_key {r r' : ρ} (h : r ∈ b.rows) (h' : r' ∈ b.rows) (hkey : b.key r = b.key r') :
    r = r' :=
  inj_on_of_nodup_map b.distinct h h' hkey

omit [DecidableEq κ] in
theorem Leads.unique (h : b.Leads b.root trail v) (h' : b.Leads b.root trail' v) : trail = trail' := by
  induction trail using List.reverseRecOn generalizing v trail' with
  | nil =>
    rcases h.cases_concat with ⟨-, rfl⟩ | ⟨front, r, heq, -⟩
    · rcases h'.cases_concat with ⟨rfl, -⟩ | ⟨front, r, -, -, hopens, hkey, -⟩
      · rfl
      rw [b.root_closed r hkey] at hopens
      cases hopens
    cases front with
    | nil => cases heq
    | cons => cases heq
  | append_singleton trail r ih =>
    rcases h.cases_concat with ⟨heq, -⟩ | ⟨front, last, heq, hlast, hopens, hkey, hfront⟩
    · cases trail with
      | nil => cases heq
      | cons => cases heq
    obtain ⟨rfl, hsame⟩ := append_inj' heq rfl
    cases hsame
    rcases h'.cases_concat with ⟨-, rfl⟩ | ⟨front', last', rfl, hlast', hopens', hkey', hfront'⟩
    · rw [b.root_closed r hkey] at hopens
      cases hopens
    have hsame := eq_of_key hlast hlast' (hkey.trans hkey'.symm)
    cases hsame
    rw [ih hfront hfront']

theorem mem_children : r ∈ b.children u ↔ r ∈ b.rows ∧ b.parent r = u := by
  unfold children
  rw [mem_filter, decide_eq_true_iff]

/-- What is listed below a key is what a short enough branch leads to the parent of. -/
theorem mem_below {n : Nat} {start : List ρ} :
    (trail, r) ∈ b.below n u start ↔
      r ∈ b.rows ∧ b.shown r ∧
        ∃ s, trail = start ++ s ∧ s.length < n ∧ b.Leads u s (b.parent r) := by
  induction n generalizing u start with
  | zero =>
    constructor
    · intro h
      cases h
    rintro ⟨-, -, s, -, hlt, -⟩
    cases hlt
  | succ n ih =>
    unfold below
    rw [mem_flatMap]
    constructor
    · rintro ⟨child, hchild, h⟩
      obtain ⟨hmem, hparent⟩ := mem_children.mp hchild
      split at h
      · rename_i hshown
        rcases mem_cons.mp h with heq | h
        · cases heq
          refine ⟨hmem, hshown, [], (append_nil _).symm, Nat.succ_pos n, ?_⟩
          rw [hparent]
          exact .nil u
        split at h
        · rename_i hopens
          obtain ⟨hr, hrs, s, hs, hlt, hleads⟩ := ih.mp h
          refine ⟨hr, hrs, child :: s, ?_, Nat.succ_lt_succ hlt, .cons hmem hparent hopens hleads⟩
          rw [hs, append_assoc, singleton_append]
        · cases h
      · cases h
    rintro ⟨hr, hrs, s, hs, hlt, hleads⟩
    cases hleads with
    | nil =>
      refine ⟨r, mem_children.mpr ⟨hr, rfl⟩, ?_⟩
      rw [if_pos hrs, hs, append_nil]
      exact mem_cons_self
    | cons hmem hparent hopens h =>
      rename_i child s
      refine ⟨child, mem_children.mpr ⟨hmem, hparent⟩, ?_⟩
      rw [if_pos (b.shown_of_opens child hopens), if_pos hopens]
      refine mem_cons_of_mem _ (ih.mpr ⟨hr, hrs, s, ?_, Nat.lt_of_succ_lt_succ hlt, h⟩)
      rw [hs, append_assoc, singleton_append]

theorem nodup_below (n : Nat) (u : κ) (start : List ρ) : (b.below n u start).Nodup := by
  induction n generalizing u start with
  | zero => exact nodup_nil
  | succ n ih =>
    unfold below
    rw [nodup_flatMap]
    have hdistinct : (b.children u).Nodup := (List.Nodup.of_map _ b.distinct).filter _
    constructor
    · intro child hchild
      split
      · split
        · refine nodup_cons.mpr ⟨fun h => ?_, ih _ _⟩
          obtain ⟨-, -, s, hs, -⟩ := mem_below.mp h
          have hlength := congrArg List.length hs
          rw [length_append, length_append, length_singleton] at hlength
          omega
        · exact nodup_singleton _
      · exact nodup_nil
    refine hdistinct.imp fun {child child'} hne => ?_
    -- a row listed under two children would have a branch through both
    rintro ⟨trail, r⟩ h h'
    have hthrough : ∀ c : ρ, (trail, r) ∈ (if b.shown c then
        (start, c) :: if b.opens c then b.below n (b.key c) (start ++ [c]) else [] else []) →
        (trail = start ∧ r = c) ∨ ∃ s, trail = start ++ c :: s := by
      intro c hc
      split at hc
      · rcases mem_cons.mp hc with heq | hc
        · cases heq
          exact Or.inl ⟨rfl, rfl⟩
        split at hc
        · obtain ⟨-, -, s, hs, -⟩ := mem_below.mp hc
          rw [append_assoc, singleton_append] at hs
          exact Or.inr ⟨s, hs⟩
        · cases hc
      · cases hc
    rcases hthrough child h with ⟨htrail, hr⟩ | ⟨s, hs⟩
    · rcases hthrough child' h' with ⟨-, hr'⟩ | ⟨s', hs'⟩
      · exact hne (hr.symm.trans hr')
      rw [htrail] at hs'
      exact absurd (self_eq_append_right.mp hs') (cons_ne_nil _ _)
    rcases hthrough child' h' with ⟨htrail, -⟩ | ⟨s', hs'⟩
    · rw [htrail] at hs
      exact absurd (self_eq_append_right.mp hs) (cons_ne_nil _ _)
    rw [hs'] at hs
    have hcons := append_cancel_left hs
    cases hcons
    exact hne rfl

theorem nodup_map_below (n : Nat) : ((b.below n b.root []).map Prod.snd).Nodup := by
  refine List.Nodup.map_on ?_ (nodup_below n b.root [])
  rintro ⟨trail, r⟩ h ⟨trail', r'⟩ h' heq
  cases heq
  obtain ⟨-, -, s, rfl, -, hleads⟩ := mem_below.mp h
  obtain ⟨-, -, s', rfl, -, hleads'⟩ := mem_below.mp h'
  rw [hleads.unique hleads']

end Branching

end SyncEngine.Collections
