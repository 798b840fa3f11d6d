import Mathlib.Data.List.Induction

/-! # Trees of named children

A node has at most one child of a name, and a child one parent and one name there. So a
node other than the root is found under one list of names alone. New children under new
names keep what was found.
-/

namespace SyncEngine.Collections

open List

variable {Node Key : Type} {child more : Node → Key → Option Node} {root : Node}

/-- The node under a list of names. -/
def follow (child : Node → Key → Option Node) : Node → List Key → Option Node
  | node, [] => some node
  | node, key :: keys => (child node key).bind fun next => follow child next keys

theorem follow_append (node : Node) (front back : List Key) :
    follow child node (front ++ back) = (follow child node front).bind fun next => follow child next back := by
  induction front generalizing node with
  | nil => rfl
  | cons key front ih =>
    rw [cons_append, follow, follow, Option.bind_assoc]
    exact congrArg _ (funext ih)

theorem follow_concat {node last : Node} {front : List Key} {key : Key}
    (h : follow child node (front ++ [key]) = some last) :
    ∃ next, follow child node front = some next ∧ child next key = some last := by
  rw [follow_append] at h
  obtain ⟨next, hfront, hlast⟩ := Option.bind_eq_some_iff.mp h
  refine ⟨next, hfront, ?_⟩
  rw [follow] at hlast
  obtain ⟨found, hchild, hsame⟩ := Option.bind_eq_some_iff.mp hlast
  rw [hchild]
  exact hsame

/-- Every child stays where it was. -/
def Grows (child more : Node → Key → Option Node) : Prop :=
  ∀ node key next, child node key = some next → more node key = some next

theorem Grows.refl (child : Node → Key → Option Node) : Grows child child := fun _ _ _ h => h

theorem Grows.trans {most : Node → Key → Option Node} (h : Grows child more) (hthen : Grows more most) :
    Grows child most :=
  fun node key next hchild => hthen node key next (h node key next hchild)

theorem Grows.follow (h : Grows child more) {node last : Node} {keys : List Key}
    (hfollow : follow child node keys = some last) : follow more node keys = some last := by
  induction keys generalizing node with
  | nil => exact hfollow
  | cons key keys ih =>
    rw [Collections.follow] at hfollow
    obtain ⟨next, hchild, hrest⟩ := Option.bind_eq_some_iff.mp hfollow
    rw [Collections.follow, h node key next hchild]
    exact ih hrest

/-- The root is no child, and a child has one parent and one name. -/
structure Treelike (child : Node → Key → Option Node) (root : Node) : Prop where
  root_free : ∀ node key, child node key ≠ some root
  unique : ∀ node key node' key' next, child node key = some next → child node' key' = some next →
    node = node' ∧ key = key'

theorem Treelike.follow_injective (h : Treelike child root) {keys keys' : List Key} {last : Node}
    (hkeys : follow child root keys = some last) (hkeys' : follow child root keys' = some last) :
    keys = keys' := by
  induction keys using List.reverseRecOn generalizing keys' last with
  | nil =>
    cases hkeys
    rcases eq_nil_or_concat keys' with rfl | ⟨front', key', rfl⟩
    · rfl
    rw [concat_eq_append] at hkeys'
    obtain ⟨next, -, hchild⟩ := follow_concat hkeys'
    exact absurd hchild (h.root_free next key')
  | append_singleton front key ih =>
    obtain ⟨next, hfront, hchild⟩ := follow_concat hkeys
    rcases eq_nil_or_concat keys' with rfl | ⟨front', key', rfl⟩
    · cases hkeys'
      exact absurd hchild (h.root_free next key)
    rw [concat_eq_append] at hkeys' ⊢
    obtain ⟨next', hfront', hchild'⟩ := follow_concat hkeys'
    obtain ⟨rfl, rfl⟩ := h.unique next key next' key' last hchild hchild'
    rw [ih hfront hfront']

section Extend

variable [DecidableEq Node] [DecidableEq Key] {node fresh : Node} {key : Key}

/-- One more child, under a name that had none. -/
def extend (child : Node → Key → Option Node) (node : Node) (key : Key) (fresh : Node) :
    Node → Key → Option Node :=
  fun node' key' => if node' = node ∧ key' = key then some fresh else child node' key'

theorem extend_self : extend child node key fresh node key = some fresh := if_pos ⟨rfl, rfl⟩

theorem grows_extend (hnone : child node key = none) : Grows child (extend child node key fresh) := by
  intro node' key' next hchild
  unfold extend
  rw [if_neg]
  · exact hchild
  rintro ⟨rfl, rfl⟩
  rw [hnone] at hchild
  cases hchild

theorem Treelike.extend (h : Treelike child root) (hroot : fresh ≠ root)
    (hfresh : ∀ node key, child node key ≠ some fresh) :
    Treelike (extend child node key fresh) root := by
  constructor
  · intro node' key' hchild
    unfold Collections.extend at hchild
    split at hchild
    · exact hroot (Option.some.inj hchild)
    · exact h.root_free node' key' hchild
  intro node₁ key₁ node₂ key₂ next h₁ h₂
  unfold Collections.extend at h₁ h₂
  split at h₁
  · rename_i heq₁
    cases h₁
    split at h₂
    · rename_i heq₂
      exact ⟨heq₁.1.trans heq₂.1.symm, heq₁.2.trans heq₂.2.symm⟩
    · exact absurd h₂ (hfresh node₂ key₂)
  split at h₂
  · cases h₂
    exact absurd h₁ (hfresh node₁ key₁)
  · exact h.unique node₁ key₁ node₂ key₂ next h₁ h₂

end Extend

end SyncEngine.Collections
