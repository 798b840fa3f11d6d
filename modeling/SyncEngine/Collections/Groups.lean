import Mathlib.Algebra.GroupWithZero.Nat
import Mathlib.Algebra.Order.BigOperators.Group.List
import Mathlib.Algebra.Order.Group.Nat
import Mathlib.Data.List.Induction

/-! # Groups of a list

A list is told apart by a key into groups, each with its first element and the others in
order. One element of each group is its champion, which a comparison picks from the first on.
-/

namespace SyncEngine.Collections

open List

variable {α β κ : Type} [DecidableEq κ]

/-- The elements of one key: the first, and the others in order. -/
structure Group (κ α : Type) where
  key : κ
  first : α
  extra : List α
deriving Repr

def Group.members (group : Group κ α) : List α := group.first :: group.extra

def Group.map (f : α → β) (group : Group κ α) : Group κ β where
  key := group.key
  first := f group.first
  extra := group.extra.map f

section Place

variable (key : α → κ)

/-- Add an element to the group of its key, or as a group of its own. -/
def place (x : α) : List (Group κ α) → List (Group κ α)
  | [] => [⟨key x, x, []⟩]
  | group :: rest =>
    if group.key = key x then { group with extra := group.extra ++ [x] } :: rest else group :: place x rest

def groups (xs : List α) : List (Group κ α) := xs.foldl (fun found x => place key x found) []

/-- The element a comparison keeps, from the first on. -/
def champion (prefers : α → α → Bool) (group : Group κ α) : α :=
  group.extra.foldl (fun best x => if prefers best x then x else best) group.first

end Place

section Lemmas

variable {key : α → κ} {xs : List α} {found : List (Group κ α)}

theorem groups_concat (xs : List α) (x : α) : groups key (xs ++ [x]) = place key x (groups key xs) := by
  unfold groups
  rw [foldl_append]
  rfl

theorem keys_place (x : α) (found : List (Group κ α)) :
    (place key x found).map Group.key =
      if key x ∈ found.map Group.key then found.map Group.key else found.map Group.key ++ [key x] := by
  induction found with
  | nil => rfl
  | cons group rest ih =>
    unfold place
    by_cases hsame : group.key = key x
    · rw [if_pos hsame, map_cons, map_cons, if_pos]
      rw [← hsame]
      exact mem_cons_self
    rw [if_neg hsame, map_cons, map_cons, ih]
    have hiff : key x ∈ group.key :: rest.map Group.key ↔ key x ∈ rest.map Group.key := by
      rw [mem_cons]
      exact or_iff_right fun heq => hsame heq.symm
    by_cases hmem : key x ∈ rest.map Group.key
    · rw [if_pos hmem, if_pos (hiff.mpr hmem)]
    · rw [if_neg hmem, if_neg fun h => hmem (hiff.mp h), cons_append]

theorem nodup_keys_groups (xs : List α) : ((groups key xs).map Group.key).Nodup := by
  induction xs using List.reverseRecOn with
  | nil => exact nodup_nil
  | append_singleton xs x ih =>
    rw [groups_concat, keys_place]
    split
    · exact ih
    rename_i hnot
    exact nodup_append.mpr ⟨ih, (pairwise_singleton _ _), fun a ha b hb heq =>
      hnot (mem_singleton.mp hb ▸ heq ▸ ha)⟩

theorem key_of_member (xs : List α) : ∀ group ∈ groups key xs, ∀ x ∈ group.members, key x = group.key := by
  have hplace : ∀ (x : α) (found : List (Group κ α)), (∀ group ∈ found, ∀ y ∈ group.members, key y = group.key) →
      ∀ group ∈ place key x found, ∀ y ∈ group.members, key y = group.key := by
    intro x found hfound
    induction found with
    | nil =>
      intro group hgroup y hy
      obtain rfl := mem_singleton.mp hgroup
      obtain rfl := mem_singleton.mp hy
      rfl
    | cons first rest ih =>
      obtain ⟨hfirst, hrest⟩ := forall_mem_cons.mp hfound
      unfold place
      split
      · rename_i hsame
        refine forall_mem_cons.mpr ⟨fun y hy => ?_, hrest⟩
        have hsplit : y ∈ first.members ++ [x] := hy
        rcases mem_append.mp hsplit with hy | hy
        · exact hfirst y hy
        rw [mem_singleton.mp hy]
        exact hsame.symm
      · exact forall_mem_cons.mpr ⟨hfirst, ih hrest⟩
  induction xs using List.reverseRecOn with
  | nil => exact fun _ hnone => nomatch hnone
  | append_singleton xs x ih =>
    rw [groups_concat]
    exact hplace x _ ih

variable (key) in
theorem members_groups_perm (xs : List α) : ((groups key xs).flatMap Group.members).Perm xs := by
  have hplace : ∀ (x : α) (found : List (Group κ α)),
      ((place key x found).flatMap Group.members).Perm (found.flatMap Group.members ++ [x]) := by
    intro x found
    induction found with
    | nil => exact List.Perm.refl _
    | cons first rest ih =>
      unfold place
      split
      · rw [flatMap_cons, flatMap_cons, append_assoc]
        have hmembers : ({ first with extra := first.extra ++ [x] } : Group κ α).members = first.members ++ [x] := rfl
        rw [hmembers, append_assoc]
        exact (List.Perm.refl _).append perm_append_comm
      rw [flatMap_cons, flatMap_cons, append_assoc]
      exact (List.Perm.refl _).append ih
  induction xs using List.reverseRecOn with
  | nil => exact List.Perm.refl _
  | append_singleton xs x ih =>
    rw [groups_concat]
    exact (hplace x _).trans (ih.append_right [x])

theorem groups_map (f : β → α) (ys : List β) :
    groups key (ys.map f) = (groups (key ∘ f) ys).map (Group.map f) := by
  have hplace : ∀ (y : β) (found : List (Group κ β)),
      place key (f y) (found.map (Group.map f)) = (place (key ∘ f) y found).map (Group.map f) := by
    intro y found
    induction found with
    | nil => rfl
    | cons first rest ih =>
      rw [map_cons]
      unfold place
      have hkey : (Group.map f first).key = first.key := rfl
      rw [hkey, Function.comp_apply]
      split
      · rw [map_cons]
        unfold Group.map
        rw [map_append]
        rfl
      · rw [map_cons, ih]
  induction ys using List.reverseRecOn with
  | nil => rfl
  | append_singleton ys y ih => rw [map_append, map_singleton, groups_concat, ih, hplace, groups_concat]

omit [DecidableEq κ] in
theorem champion_mem (prefers : α → α → Bool) (group : Group κ α) : champion prefers group ∈ group.members := by
  have hfold : ∀ (xs : List α) (best : α),
      xs.foldl (fun best x => if prefers best x then x else best) best ∈ best :: xs := by
    intro xs
    induction xs with
    | nil => exact fun best => mem_singleton_self best
    | cons x xs ih =>
      intro best
      rw [foldl_cons]
      rcases mem_cons.mp (ih (if prefers best x then x else best)) with heq | hmem
      · rw [heq]
        split
        · exact mem_cons_of_mem _ mem_cons_self
        · exact mem_cons_self
      · exact mem_cons_of_mem _ (mem_cons_of_mem _ hmem)
  exact hfold group.extra group.first

omit [DecidableEq κ] in
theorem champion_map (f : β → α) (prefers : α → α → Bool) (group : Group κ β) :
    champion prefers (group.map f) = f (champion (fun a b => prefers (f a) (f b)) group) := by
  have hfold : ∀ (ys : List β) (best : β),
      (ys.map f).foldl (fun best x => if prefers best x then x else best) (f best) =
        f (ys.foldl (fun best y => if prefers (f best) (f y) then y else best) best) := by
    intro ys
    induction ys with
    | nil => exact fun _ => rfl
    | cons y ys ih =>
      intro best
      rw [map_cons, foldl_cons, foldl_cons, ← ih]
      split <;> rfl
  exact hfold group.extra group.first

theorem champions_map (f : β → α) (prefers : α → α → Bool) (ys : List β) :
    (groups key (ys.map f)).map (champion prefers) =
      ((groups (key ∘ f) ys).map (champion fun a b => prefers (f a) (f b))).map f := by
  rw [groups_map, map_map, map_map]
  exact congrArg (List.map · _) (funext fun group => champion_map f prefers group)

theorem groups_of_nodup (h : (xs.map key).Nodup) : groups key xs = xs.map fun x => ⟨key x, x, []⟩ := by
  have hplace : ∀ (x : α) (ys : List α), key x ∉ ys.map key →
      place key x (ys.map fun y => (⟨key y, y, []⟩ : Group κ α)) =
        (ys ++ [x]).map fun y => (⟨key y, y, []⟩ : Group κ α) := by
    intro x ys
    induction ys with
    | nil => exact fun _ => rfl
    | cons y ys ih =>
      intro hnot
      obtain ⟨hne, hrest⟩ := not_or.mp fun hor => hnot (mem_cons.mpr hor)
      rw [map_cons]
      unfold place
      rw [if_neg fun heq => hne heq.symm, ih hrest]
      rfl
  induction xs using List.reverseRecOn with
  | nil => rfl
  | append_singleton xs x ih =>
    rw [map_append, map_singleton] at h
    obtain ⟨hxs, -, hdisjoint⟩ := nodup_append.mp h
    rw [groups_concat, ih hxs, hplace]
    exact fun hmem => hdisjoint _ hmem _ (mem_singleton_self _) rfl

variable (key) in
theorem sum_champions_le (prefers : α → α → Bool) (w : α → Nat) (xs : List α) :
    (((groups key xs).map (champion prefers)).map w).sum ≤ (xs.map w).sum := by
  have hfound : ∀ found : List (Group κ α),
      ((found.map (champion prefers)).map w).sum ≤ ((found.flatMap Group.members).map w).sum := by
    intro found
    induction found with
    | nil => exact le_rfl
    | cons group rest ih =>
      rw [map_cons, map_cons, sum_cons, flatMap_cons, map_append, sum_append]
      exact Nat.add_le_add (single_le_sum (fun _ _ => Nat.zero_le _) _ (mem_map_of_mem (champion_mem prefers group))) ih
  have hsame := ((members_groups_perm key xs).map w).sum_eq
  rw [← hsame]
  exact hfound _

end Lemmas

end SyncEngine.Collections
