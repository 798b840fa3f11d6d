import SyncEngine.Collections.Forest

/-! # Sweeping what lies below some nodes

A sweep takes the nodes off a stack one by one and puts each one's children on it. In a
forest it meets what lies within the nodes it started with, each once, and nothing else.
-/

namespace SyncEngine.Collections

open Classical List

variable {parent : Nat → Option Nat} {children : Nat → List Nat} {stack : List Nat} {n : Nat}

/-- The nodes a sweep meets, in order, with rounds enough for each. -/
def sweep (children : Nat → List Nat) : Nat → List Nat → List Nat
  | 0, _ => []
  | _ + 1, [] => []
  | fuel + 1, node :: stack => node :: sweep children fuel ((children node).reverse ++ stack)

/-- Numbered nodes, each after its parent, with the children of each. -/
structure Family (parent : Nat → Option Nat) (children : Nat → List Nat) (n : Nat) : Prop where
  before : ∀ node up, parent node = some up → up < node
  lists : ∀ node child, child ∈ children node ↔ parent child = some node
  once : ∀ node, (children node).Nodup
  bounded : ∀ node up, parent node = some up → node < n

/-- None of the nodes is within another. -/
def Apart (parent : Nat → Option Nat) (stack : List Nat) : Prop :=
  stack.Pairwise fun a b => ¬Within parent a b ∧ ¬Within parent b a

/-- The nodes within any of some. -/
noncomputable def withinAny (parent : Nat → Option Nat) (n : Nat) (stack : List Nat) : Finset Nat :=
  (Finset.range n).filter fun node => ∃ root ∈ stack, Within parent root node

theorem mem_withinAny {node : Nat} :
    node ∈ withinAny parent n stack ↔ node < n ∧ ∃ root ∈ stack, Within parent root node := by
  unfold withinAny
  rw [Finset.mem_filter, Finset.mem_range]

section Family

variable (family : Family parent children n)

include family

theorem Family.within_iff_children {root node : Nat} :
    Within parent root node ↔ node = root ∨ ∃ child ∈ children root, Within parent child node := by
  constructor
  · intro h
    rcases Relation.ReflTransGen.cases_head h with heq | ⟨child, hparent, hwithin⟩
    · exact Or.inl heq.symm
    · exact Or.inr ⟨child, (family.lists root child).mpr hparent, hwithin⟩
  rintro (rfl | ⟨child, hmem, hwithin⟩)
  · exact Relation.ReflTransGen.refl
  · exact Relation.ReflTransGen.head ((family.lists root child).mp hmem) hwithin

/-- A node's children are apart from one another, and from what the node is apart from. -/
theorem Family.apart_children {root : Nat} (h : Apart parent (root :: stack)) :
    Apart parent ((children root).reverse ++ stack) := by
  obtain ⟨hroot, hstack⟩ := pairwise_cons.mp h
  have hsibling : ∀ a ∈ children root, ∀ b ∈ children root, a ≠ b → ¬Within parent a b := by
    intro a ha b hb hne hwithin
    rcases within_iff.mp hwithin with heq | ⟨up, hup, hbelow⟩
    · exact hne heq.symm
    rw [(family.lists root b).mp hb] at hup
    cases hup
    have hle := hbelow.le family.before
    have hlt := family.before a root ((family.lists root a).mp ha)
    exact absurd hle (not_le.mpr hlt)
  refine pairwise_append.mpr ⟨?_, hstack, fun a ha b hb => ?_⟩
  · refine List.Pairwise.imp_of_mem ?_ (nodup_reverse.mpr (family.once root))
    intro a b ha hb hne
    rw [mem_reverse] at ha hb
    exact ⟨hsibling a ha b hb hne, hsibling b hb a ha (Ne.symm hne)⟩
  rw [mem_reverse] at ha
  obtain ⟨hdown, hup⟩ := hroot b hb
  have hparent := (family.lists root a).mp ha
  refine ⟨fun hwithin => hdown (Relation.ReflTransGen.head hparent hwithin), fun hwithin => ?_⟩
  rcases within_iff.mp hwithin with rfl | ⟨up, hsome, hbelow⟩
  · exact hdown (Relation.ReflTransGen.single hparent)
  rw [hparent] at hsome
  cases hsome
  exact hup hbelow

theorem Family.card_withinAny {root : Nat} (h : Apart parent (root :: stack)) (hlt : root < n) :
    (withinAny parent n (root :: stack)).card =
      (withinAny parent n ((children root).reverse ++ stack)).card + 1 := by
  obtain ⟨hroot, -⟩ := pairwise_cons.mp h
  have hnot : root ∉ withinAny parent n ((children root).reverse ++ stack) := by
    intro hmem
    obtain ⟨-, other, hother, hwithin⟩ := mem_withinAny.mp hmem
    rcases mem_append.mp hother with hchild | hrest
    · rw [mem_reverse] at hchild
      have hle := hwithin.le family.before
      have hbefore := family.before other root ((family.lists root other).mp hchild)
      exact absurd hle (not_le.mpr hbefore)
    · exact (hroot other hrest).2 hwithin
  have hsame : withinAny parent n (root :: stack) =
      insert root (withinAny parent n ((children root).reverse ++ stack)) := by
    ext node
    rw [Finset.mem_insert, mem_withinAny, mem_withinAny, exists_mem_cons_iff, family.within_iff_children]
    constructor
    · rintro ⟨hnode, (rfl | ⟨child, hchild, hwithin⟩) | ⟨other, hother, hwithin⟩⟩
      · exact Or.inl rfl
      · exact Or.inr ⟨hnode, child, mem_append_left _ (mem_reverse.mpr hchild), hwithin⟩
      · exact Or.inr ⟨hnode, other, mem_append_right _ hother, hwithin⟩
    rintro (rfl | ⟨hnode, other, hother, hwithin⟩)
    · exact ⟨hlt, Or.inl (Or.inl rfl)⟩
    rcases mem_append.mp hother with hchild | hrest
    · exact ⟨hnode, Or.inl (Or.inr ⟨other, mem_reverse.mp hchild, hwithin⟩)⟩
    · exact ⟨hnode, Or.inr ⟨other, hrest, hwithin⟩⟩
  rw [hsame, Finset.card_insert_of_notMem hnot]

theorem Family.sweep_spec {fuel : Nat} (hapart : Apart parent stack) (hlt : ∀ node ∈ stack, node < n)
    (hfuel : (withinAny parent n stack).card ≤ fuel) :
    (sweep children fuel stack).Nodup ∧
      ∀ node, node ∈ sweep children fuel stack ↔ ∃ root ∈ stack, Within parent root node := by
  induction fuel generalizing stack with
  | zero =>
    cases stack with
    | nil => exact ⟨nodup_nil, fun node => ⟨nofun, fun ⟨_, h, _⟩ => nomatch h⟩⟩
    | cons root stack =>
      rw [family.card_withinAny hapart (hlt root mem_cons_self)] at hfuel
      exact absurd hfuel (Nat.not_succ_le_zero _)
  | succ fuel ih =>
    cases stack with
    | nil => exact ⟨nodup_nil, fun node => ⟨nofun, fun ⟨_, h, _⟩ => nomatch h⟩⟩
    | cons root stack =>
      have hroot := hlt root mem_cons_self
      rw [family.card_withinAny hapart hroot] at hfuel
      have hbelow : ∀ node ∈ (children root).reverse ++ stack, node < n := by
        intro node hmem
        rcases mem_append.mp hmem with hchild | hrest
        · rw [mem_reverse] at hchild
          exact family.bounded node root ((family.lists root node).mp hchild)
        · exact hlt node (mem_cons_of_mem _ hrest)
      obtain ⟨hnodup, hmem⟩ := ih (family.apart_children hapart) hbelow (Nat.le_of_succ_le_succ hfuel)
      have hapart' := pairwise_cons.mp hapart
      refine ⟨nodup_cons.mpr ⟨fun hin => ?_, hnodup⟩, fun node => ?_⟩
      · obtain ⟨other, hother, hwithin⟩ := (hmem root).mp hin
        rcases mem_append.mp hother with hchild | hrest
        · rw [mem_reverse] at hchild
          have hle := hwithin.le family.before
          have hbefore := family.before other root ((family.lists root other).mp hchild)
          exact absurd hle (not_le.mpr hbefore)
        · exact (hapart'.1 other hrest).2 hwithin
      rw [sweep, mem_cons, hmem, exists_mem_cons_iff, family.within_iff_children]
      constructor
      · rintro (rfl | ⟨other, hother, hwithin⟩)
        · exact Or.inl (Or.inl rfl)
        rcases mem_append.mp hother with hchild | hrest
        · exact Or.inl (Or.inr ⟨other, mem_reverse.mp hchild, hwithin⟩)
        · exact Or.inr ⟨other, hrest, hwithin⟩
      rintro ((rfl | ⟨child, hchild, hwithin⟩) | ⟨other, hother, hwithin⟩)
      · exact Or.inl rfl
      · exact Or.inr ⟨child, mem_append_left _ (mem_reverse.mpr hchild), hwithin⟩
      · exact Or.inr ⟨other, mem_append_right _ hother, hwithin⟩

theorem Family.sweep_one {root : Nat} (hlt : root < n) :
    (sweep children n [root]).Nodup ∧ ∀ node, node ∈ sweep children n [root] ↔ Within parent root node := by
  have hcard : (withinAny parent n [root]).card ≤ n := by
    have hle := Finset.card_filter_le (Finset.range n) fun node => ∃ other ∈ [root], Within parent other node
    rw [Finset.card_range] at hle
    exact hle
  obtain ⟨hnodup, hmem⟩ := family.sweep_spec (pairwise_singleton _ _)
    (fun node hnode => mem_singleton.mp hnode ▸ hlt) hcard
  refine ⟨hnodup, fun node => ?_⟩
  rw [hmem]
  constructor
  · rintro ⟨other, hother, hwithin⟩
    rw [mem_singleton.mp hother] at hwithin
    exact hwithin
  · exact fun hwithin => ⟨root, mem_singleton_self _, hwithin⟩

end Family

end SyncEngine.Collections
