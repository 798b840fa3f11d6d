import Mathlib.Algebra.Group.Nat.Defs
import Mathlib.Data.List.Basic

/-! # Hashing in a tree

Data is hashed in leaves of one length. A tree over more than a leaf is split after the most
whole leaves that are a power of two and leave something over, so the blocks of such lengths
are trees of their own. A hasher that takes the data block by block keeps the blocks that are
complete, newest first, and merges two as soon as they are of one height.
-/

namespace SyncEngine.Collections

open List

structure TreeHash (α V Root : Type) where
  leafLen : Nat
  leafLen_pos : 0 < leafLen
  /-- A leaf's value, of how many leaves are before it. -/
  leaf : Nat → List α → V
  node : V → V → V
  rootLeaf : List α → Root
  rootNode : V → V → Root

namespace TreeHash

variable {α V Root : Type} {t : TreeHash α V Root} {data block tail : List α} {k n offset : Nat}

/-- How much of data longer than a leaf goes to the left. -/
def leftLen (t : TreeHash α V Root) (length : Nat) : Nat := 2 ^ ((length - 1) / t.leafLen).log2 * t.leafLen

theorem leftLen_within (h : t.leafLen < data.length) :
    0 < t.leftLen data.length ∧ t.leftLen data.length < data.length := by
  have hpos := t.leafLen_pos
  have hone : 1 ≤ (data.length - 1) / t.leafLen := (Nat.one_le_div_iff hpos).mpr (Nat.le_sub_one_of_lt h)
  constructor
  · exact Nat.mul_pos (Nat.two_pow_pos _) hpos
  have hle : t.leftLen data.length ≤ (data.length - 1) / t.leafLen * t.leafLen :=
    Nat.mul_le_mul_right _ (Nat.log2_self_le (Nat.ne_of_gt hone))
  have hdiv := Nat.div_mul_le_self (data.length - 1) t.leafLen
  omega

/-- The value of a tree that starts at an offset of the whole. -/
def subtree (t : TreeHash α V Root) (offset : Nat) (data : List α) : V :=
  if _h : t.leafLen < data.length then
    t.node (t.subtree offset (data.take (t.leftLen data.length)))
      (t.subtree (offset + t.leftLen data.length) (data.drop (t.leftLen data.length)))
  else t.leaf (offset / t.leafLen) data
termination_by data.length
decreasing_by
  · have hwithin := t.leftLen_within _h
    rw [length_take]
    omega
  have hwithin := t.leftLen_within _h
  rw [length_drop]
  omega

/-- The hash of the whole. -/
def hash (t : TreeHash α V Root) (data : List α) : Root :=
  if t.leafLen < data.length then
    t.rootNode (t.subtree 0 (data.take (t.leftLen data.length)))
      (t.subtree (t.leftLen data.length) (data.drop (t.leftLen data.length)))
  else t.rootLeaf data

section

variable (hblock : block.length = 2 ^ k * t.leafLen)
include hblock

section

variable (hpos : 0 < tail.length)
include hpos

theorem leftLen_append
    (hle : tail.length ≤ block.length) : t.leftLen (block ++ tail).length = block.length := by
  have hleaf := t.leafLen_pos
  have hquot : ((block ++ tail).length - 1) / t.leafLen = (tail.length - 1) / t.leafLen + 2 ^ k := by
    have hsplit : (block ++ tail).length - 1 = tail.length - 1 + 2 ^ k * t.leafLen := by
      rw [length_append, hblock]
      omega
    rw [hsplit, Nat.add_mul_div_right _ _ hleaf]
  have hrest : (tail.length - 1) / t.leafLen < 2 ^ k := by
    rw [Nat.div_lt_iff_lt_mul hleaf]
    omega
  have hne : (tail.length - 1) / t.leafLen + 2 ^ k ≠ 0 :=
    Nat.ne_of_gt (Nat.lt_of_lt_of_le (Nat.two_pow_pos k) (Nat.le_add_left _ _))
  have hlog : ((tail.length - 1) / t.leafLen + 2 ^ k).log2 = k := by
    rw [Nat.log2_eq_iff hne, Nat.pow_succ, Nat.mul_two]
    exact ⟨Nat.le_add_left _ _, Nat.add_lt_add_right hrest _⟩
  unfold leftLen
  rw [hquot, hlog, hblock]

theorem leafLen_lt_append :
    t.leafLen < (block ++ tail).length := by
  have hle : 1 * t.leafLen ≤ 2 ^ k * t.leafLen := Nat.mul_le_mul_right _ Nat.one_le_two_pow
  rw [length_append, hblock]
  omega

theorem subtree_append
    (hle : tail.length ≤ block.length) :
    t.subtree offset (block ++ tail) =
      t.node (t.subtree offset block) (t.subtree (offset + block.length) tail) := by
  rw [subtree, dif_pos (leafLen_lt_append hblock hpos), leftLen_append hblock hpos hle, take_left,
    drop_left]

theorem hash_append
    (hle : tail.length ≤ block.length) :
    t.hash (block ++ tail) = t.rootNode (t.subtree 0 block) (t.subtree block.length tail) := by
  unfold hash
  rw [if_pos (leafLen_lt_append hblock hpos), leftLen_append hblock hpos hle, take_left,
    drop_left]

end

end

/-! ## Blocks one after another -/

/-- Put the value of a block onto the complete ones, once so many blocks are there: merge it
with the newest as long as two are of one height. -/
def mergeUp (t : TreeHash α V Root) : (total : Nat) → V → List V → List V
  | _, value, [] => [value]
  | total, value, left :: stack =>
    if total % 2 = 0 then t.mergeUp (total / 2) (t.node left value) stack
    else value :: left :: stack

/-- Data of so many blocks of `2 ^ k` leaves, with the values of the complete trees in it,
newest first. -/
inductive Spine (t : TreeHash α V Root) : (k n : Nat) → List α → List V → Prop where
  | nil {k : Nat} : Spine t k 0 [] []
  | odd {k n : Nat} {data block : List α} {stack : List V} (h : Spine t (k + 1) n data stack)
      (hblock : block.length = 2 ^ k * t.leafLen) :
      Spine t k (2 * n + 1) (data ++ block) (t.subtree data.length block :: stack)
  | even {k n : Nat} {data : List α} {stack : List V} (h : Spine t (k + 1) n data stack) (hpos : 0 < n) :
      Spine t k (2 * n) data stack

theorem length_double {first second : List α} (hfirst : first.length = 2 ^ k * t.leafLen)
    (hsecond : second.length = 2 ^ k * t.leafLen) :
    (first ++ second).length = 2 ^ (k + 1) * t.leafLen := by
  rw [length_append, hfirst, hsecond, Nat.pow_succ, Nat.mul_two, Nat.add_mul]

theorem Spine.mergeUp {stack : List V} (h : Spine t k n data stack) (hblock : block.length = 2 ^ k * t.leafLen) :
    Spine t k (n + 1) (data ++ block) (t.mergeUp (n + 1) (t.subtree data.length block) stack) := by
  induction h generalizing block with
  | nil => exact Spine.odd .nil hblock
  | @odd k n data before stack h hbefore ih =>
    have hpos : 0 < block.length := by
      rw [hblock]
      exact Nat.mul_pos (Nat.two_pow_pos k) t.leafLen_pos
    have hmerge := ih (length_double hbefore hblock)
    rw [subtree_append hbefore hpos (Nat.le_of_eq (hblock.trans hbefore.symm)), ← append_assoc] at hmerge
    have hnext := Spine.even hmerge (Nat.succ_pos n)
    unfold TreeHash.mergeUp
    rw [if_pos (by omega), length_append, show (2 * n + 1 + 1) / 2 = n + 1 by omega]
    exact hnext
  | @even k n data stack h hpos ih =>
    have hodd := Spine.odd h hblock
    cases stack with
    | nil => exact hodd
    | cons left stack =>
      unfold TreeHash.mergeUp
      rw [if_neg (by omega)]
      exact hodd

theorem Spine.eq_nil {stack : List V} (h : Spine t k n data stack) (hstack : stack = []) : data = [] := by
  induction h with
  | nil => rfl
  | odd h hblock ih => cases hstack
  | even h hpos ih => exact ih hstack

/-- The hash is of the oldest tree and of the others folded onto what is left over. -/
theorem Spine.hash {full stack : List V} {oldest : V} (h : Spine t k n data full)
    (hfull : full = stack ++ [oldest]) (hpos : 0 < tail.length) (hle : tail.length ≤ 2 ^ k * t.leafLen) :
    t.hash (data ++ tail) =
      t.rootNode oldest
        (stack.foldl (fun right left => t.node left right) (t.subtree data.length tail)) := by
  induction h generalizing tail stack with
  | nil => exact absurd hfull.symm (append_ne_nil_of_right_ne_nil _ (cons_ne_nil _ _))
  | @odd k n data block rest h hblock ih =>
    have hshort : tail.length ≤ block.length := hblock ▸ hle
    cases stack with
    | nil =>
      obtain ⟨rfl, hrest⟩ := List.cons.inj hfull
      rw [h.eq_nil hrest, nil_append, hash_append hblock hpos hshort]
      rfl
    | cons newest stack =>
      obtain ⟨rfl, hrest⟩ := List.cons.inj hfull
      have hlong : (block ++ tail).length ≤ 2 ^ (k + 1) * t.leafLen := by
        rw [length_append, hblock, Nat.pow_succ, Nat.mul_two, Nat.add_mul]
        exact Nat.add_le_add_left hle _
      have hboth : 0 < (block ++ tail).length := by
        rw [length_append]
        exact Nat.add_pos_right _ hpos
      rw [append_assoc, ih hrest hboth hlong, subtree_append hblock hpos hshort,
        length_append]
      rfl
  | @even k n data rest h hn ih =>
    refine ih hfull hpos (Nat.le_trans hle ?_)
    exact Nat.mul_le_mul_right _ (Nat.pow_le_pow_right (by decide) (Nat.le_succ k))

end TreeHash

end SyncEngine.Collections
