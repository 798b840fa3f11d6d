import Mathlib.Data.List.Lookmap
import Mathlib.Data.Option.Basic

/-! # Trees of named entries

A tree is a leaf, or a branch with its entries by key. A place is the keys that lead to it
from the root, and may hold nothing. What is put at a place changes only what stands there.
-/

namespace SyncEngine.Collections

open List

inductive Tree (κ α : Type) where
  | leaf (a : α)
  | branch (entries : List (κ × Tree κ α))

namespace Tree

variable {κ α : Type} [DecidableEq κ]

/-- What the entries of a branch have by a key. -/
def child (entries : List (κ × Tree κ α)) (key : κ) : Option (Tree κ α) :=
  (entries.find? fun entry => entry.1 = key).map Prod.snd

/-- The entries of a branch with another entry by a key, or none. -/
def place (entries : List (κ × Tree κ α)) (key : κ) : Option (Tree κ α) → List (κ × Tree κ α)
  | none => entries.filter fun entry => entry.1 ≠ key
  | some tree => (key, tree) :: entries.filter fun entry => entry.1 ≠ key

/-- What stands at a place. -/
def find : List κ → Option (Tree κ α) → Option (Tree κ α)
  | [], tree => tree
  | key :: keys, some (branch entries) => find keys (child entries key)
  | _ :: _, _ => none

/-- Put something at a place of a branch that stands, or take away what is there. -/
def put : List κ → Option (Tree κ α) → Option (Tree κ α) → Option (Tree κ α)
  | [], new, _ => new
  | key :: keys, new, some (branch entries) => some (branch (place entries key (put keys new (child entries key))))
  | _ :: _, _, tree => tree

/-- Make the branches on the way to a place that are missing; a leaf on the way fails it. -/
def makeBranches : List κ → Option (Tree κ α) → Option (Tree κ α)
  | _, some (leaf _) => none
  | [], none => some (branch [])
  | [], some (branch entries) => some (branch entries)
  | key :: keys, none => (makeBranches keys none).map fun made => branch (place [] key (some made))
  | key :: keys, some (branch entries) =>
    (makeBranches keys (child entries key)).map fun made => branch (place entries key (some made))

/-- What a place is seen to hold. -/
inductive Kind (α : Type) where
  | nothing
  | leaf (a : α)
  | branch
  deriving DecidableEq

def kind : Option (Tree κ α) → Kind α
  | none => .nothing
  | some (leaf a) => .leaf a
  | some (branch _) => .branch

def isBranch : Option (Tree κ α) → Bool
  | some (branch _) => true
  | _ => false

variable {entries : List (κ × Tree κ α)} {key other : κ} {new tree : Option (Tree κ α)} {keys place : List κ} {a : α}

theorem child_filter_ne (hne : other ≠ key) :
    child (entries.filter fun entry => entry.1 ≠ key) other = child entries other := by
  unfold child
  rw [find?_filter]
  congr 2
  funext entry
  by_cases hother : entry.1 = other
  · simp [hother, hne]
  · simp [hother]

theorem child_filter_self : child (entries.filter fun entry => entry.1 ≠ key) key = none := by
  unfold child
  rw [Option.map_eq_none_iff, find?_eq_none]
  intro entry hmem
  exact fun hkey => of_decide_eq_true (mem_filter.mp hmem).2 (of_decide_eq_true hkey)

@[simp] theorem child_place_self : child (Tree.place entries key new) key = new := by
  cases new with
  | none => exact child_filter_self
  | some tree =>
    change (((key, tree) :: _ : List (κ × Tree κ α)).find? _).map Prod.snd = some tree
    rw [find?_cons, decide_eq_true rfl]
    rfl

theorem child_place_ne (hne : other ≠ key) : child (Tree.place entries key new) other = child entries other := by
  cases new with
  | none => exact child_filter_ne hne
  | some tree =>
    refine Eq.trans ?_ (child_filter_ne hne)
    change (((key, tree) :: _ : List (κ × Tree κ α)).find? _).map Prod.snd = _
    rw [find?_cons_of_neg fun hkey => hne (of_decide_eq_true hkey).symm]
    rfl

theorem mem_of_child (h : child entries key ≠ none) : key ∈ entries.map Prod.fst := by
  unfold child at h
  cases hfound : entries.find? fun entry => entry.1 = key with
  | none =>
    rw [hfound] at h
    exact absurd rfl h
  | some entry =>
    have hkey := find?_some hfound
    exact of_decide_eq_true hkey ▸ mem_map_of_mem (mem_of_find?_eq_some hfound)

@[simp] theorem find_nil : find [] tree = tree := by
  cases tree <;> rfl

theorem find_none : find keys (none : Option (Tree κ α)) = none := by
  cases keys <;> rfl

theorem find_append (keys place : List κ) (tree : Option (Tree κ α)) :
    find (keys ++ place) tree = find place (find keys tree) := by
  induction keys generalizing tree with
  | nil => rw [nil_append, find_nil]
  | cons key keys ih =>
    match tree with
    | none => exact find_none.symm
    | some (leaf _) => exact find_none.symm
    | some (branch entries) => exact ih _

theorem find_append_of_kind {q : List κ} (hq : q ≠ []) (h : kind (find keys tree) ≠ .branch) : find (keys ++ q) tree = none := by
  rw [find_append]
  obtain ⟨first, rest, rfl⟩ := exists_cons_of_ne_nil hq
  match hfound : find keys tree with
  | none => rfl
  | some (leaf _) => rfl
  | some (branch _) => exact absurd (by rw [hfound]; rfl) h

omit [DecidableEq κ] in
theorem kind_eq_nothing : kind tree = .nothing ↔ tree = none := by
  match tree with
  | none => exact ⟨fun _ => rfl, fun _ => rfl⟩
  | some (leaf _) => exact ⟨nofun, nofun⟩
  | some (branch _) => exact ⟨nofun, nofun⟩

omit [DecidableEq κ] in
theorem kind_eq_leaf : kind tree = .leaf a ↔ tree = some (leaf a) := by
  match tree with
  | none => exact ⟨nofun, nofun⟩
  | some (leaf b) => exact ⟨fun h => by cases h; rfl, fun h => by cases h; rfl⟩
  | some (branch _) => exact ⟨nofun, nofun⟩

omit [DecidableEq κ] in
theorem kind_eq_branch : kind tree = .branch ↔ ∃ entries, tree = some (branch entries) := by
  match tree with
  | none => exact ⟨nofun, fun ⟨_, h⟩ => nomatch h⟩
  | some (leaf _) => exact ⟨nofun, fun ⟨_, h⟩ => nomatch h⟩
  | some (branch entries) => exact ⟨fun _ => ⟨entries, rfl⟩, fun _ => rfl⟩

omit [DecidableEq κ] in
theorem isBranch_iff : isBranch tree ↔ kind tree = .branch := by
  match tree with
  | none => exact ⟨nofun, nofun⟩
  | some (leaf _) => exact ⟨nofun, nofun⟩
  | some (branch _) => exact ⟨fun _ => rfl, fun _ => rfl⟩

theorem find_put_self {last : κ} (h : kind (find keys tree) = .branch) :
    find (keys ++ [last]) (put (keys ++ [last]) new tree) = new := by
  induction keys generalizing tree with
  | nil =>
    rw [find_nil] at h
    obtain ⟨entries, rfl⟩ := kind_eq_branch.mp h
    change find [] (child (Tree.place entries last new) last) = new
    rw [find_nil, child_place_self]
  | cons key keys ih =>
    match tree with
    | none => exact nomatch h
    | some (leaf _) => exact nomatch h
    | some (branch entries) =>
      change find (keys ++ [last]) (child (Tree.place entries key (put (keys ++ [last]) new (child entries key))) key) = new
      rw [child_place_self]
      exact ih h

theorem find_put_none : find keys (put keys none tree) = none := by
  induction keys generalizing tree with
  | nil => rfl
  | cons key keys ih =>
    match tree with
    | none => rfl
    | some (leaf _) => rfl
    | some (branch entries) =>
      change find keys (child (Tree.place entries key (put keys none (child entries key))) key) = none
      rw [child_place_self]
      exact ih

theorem find_put_of_apart (hbelow : ¬ keys <+: place) (habove : ¬ place <+: keys) :
    find place (put keys new tree) = find place tree := by
  induction keys generalizing tree place with
  | nil => exact absurd nil_prefix hbelow
  | cons key keys ih =>
    match place with
    | [] => exact absurd nil_prefix habove
    | other :: place =>
      match tree with
      | none => rfl
      | some (leaf _) => rfl
      | some (branch entries) =>
        change find place (child (Tree.place entries key _) other) = find place (child entries other)
        by_cases hsame : other = key
        · subst hsame
          rw [child_place_self]
          exact ih (fun h => hbelow (cons_prefix_cons.mpr ⟨rfl, h⟩))
            (fun h => habove (cons_prefix_cons.mpr ⟨rfl, h⟩))
        · rw [child_place_ne hsame]

theorem kind_find_put (hbelow : ¬ keys <+: place) : kind (find place (put keys new tree)) = kind (find place tree) := by
  induction keys generalizing tree place with
  | nil => exact absurd nil_prefix hbelow
  | cons key keys ih =>
    match tree with
    | none => rfl
    | some (leaf _) => rfl
    | some (branch entries) =>
      match place with
      | [] => rfl
      | other :: place =>
        change kind (find place (child (Tree.place entries key _) other)) = kind (find place (child entries other))
        by_cases hsame : other = key
        · subst hsame
          rw [child_place_self]
          exact ih fun h => hbelow (cons_prefix_cons.mpr ⟨rfl, h⟩)
        · rw [child_place_ne hsame]

/-! ## Making branches -/

theorem makeBranches_none : ∃ made, makeBranches keys (none : Option (Tree κ α)) = some made := by
  induction keys with
  | nil => exact ⟨_, rfl⟩
  | cons key keys ih =>
    obtain ⟨made, hmade⟩ := ih
    exact ⟨_, congrArg (Option.map _) hmade⟩

variable {made : Tree κ α}

theorem makeBranches_cons (h : makeBranches (key :: keys) tree = some made) :
    ∃ entries inner, made = branch (Tree.place entries key (some inner)) ∧
      makeBranches keys (child entries key) = some inner ∧
      ∀ first rest, find (first :: rest) tree = find rest (child entries first) := by
  match tree with
  | none =>
    obtain ⟨inner, hinner, rfl⟩ := Option.map_eq_some_iff.mp h
    exact ⟨[], inner, rfl, hinner, fun _ _ => find_none.symm⟩
  | some (leaf _) => exact nomatch h
  | some (branch entries) =>
    obtain ⟨inner, hinner, rfl⟩ := Option.map_eq_some_iff.mp h
    exact ⟨entries, inner, rfl, hinner, fun _ _ => rfl⟩

theorem kind_find_makeBranches (h : makeBranches keys tree = some made) (hon : place <+: keys) :
    kind (find place (some made)) = .branch := by
  induction keys generalizing tree made place with
  | nil =>
    rw [prefix_nil.mp hon, find_nil]
    match tree with
    | none =>
      cases h
      rfl
    | some (leaf _) => exact nomatch h
    | some (branch _) =>
      cases h
      rfl
  | cons key keys ih =>
    obtain ⟨entries, inner, rfl, hinner, -⟩ := makeBranches_cons h
    match place with
    | [] => rfl
    | first :: place =>
      obtain ⟨rfl, hrest⟩ := cons_prefix_cons.mp hon
      change kind (find place (child (Tree.place entries first (some inner)) first)) = _
      rw [child_place_self]
      exact ih hinner hrest

theorem find_makeBranches_of_off (h : makeBranches keys tree = some made) (hoff : ¬ place <+: keys) :
    find place (some made) = find place tree := by
  match place with
  | [] => exact absurd nil_prefix hoff
  | first :: rest =>
  induction keys generalizing tree made first rest with
  | nil =>
    match tree with
    | none =>
      cases h
      exact find_none
    | some (leaf _) => exact nomatch h
    | some (branch _) =>
      cases h
      rfl
  | cons key keys ih =>
    obtain ⟨entries, inner, rfl, hinner, hfind⟩ := makeBranches_cons h
    rw [hfind]
    change find rest (child (Tree.place entries key (some inner)) first) = _
    by_cases hsame : first = key
    · subst hsame
      rw [child_place_self]
      have hrest : ¬ rest <+: keys := fun hrest => hoff (cons_prefix_cons.mpr ⟨rfl, hrest⟩)
      match rest with
      | [] => exact absurd nil_prefix hrest
      | next :: rest => exact ih hinner next rest hrest
    · rw [child_place_ne hsame]

theorem makeBranches_eq_none_iff :
    makeBranches keys tree = none ↔ ∃ place, place <+: keys ∧ ∃ a, find place tree = some (leaf a) := by
  induction keys generalizing tree with
  | nil =>
    constructor
    · intro h
      match tree with
      | none => exact nomatch h
      | some (leaf a) => exact ⟨[], nil_prefix, a, rfl⟩
      | some (branch _) => exact nomatch h
    rintro ⟨place, hplace, a, ha⟩
    rw [prefix_nil.mp hplace, find_nil] at ha
    rw [ha]
    rfl
  | cons key keys ih =>
    match tree with
    | none =>
      obtain ⟨made, hmade⟩ := @makeBranches_none κ α _ (key :: keys)
      rw [hmade]
      exact ⟨nofun, fun ⟨_, _, _, ha⟩ => nomatch find_none.symm.trans ha⟩
    | some (leaf a) => exact ⟨fun _ => ⟨[], nil_prefix, a, rfl⟩, fun _ => rfl⟩
    | some (branch entries) =>
      change (makeBranches keys (child entries key)).map _ = none ↔ _
      rw [Option.map_eq_none_iff, ih]
      constructor
      · rintro ⟨place, hplace, ha⟩
        exact ⟨key :: place, cons_prefix_cons.mpr ⟨rfl, hplace⟩, ha⟩
      rintro ⟨place, hplace, a, ha⟩
      match place with
      | [] => exact nomatch ha
      | first :: place =>
        obtain ⟨rfl, hrest⟩ := cons_prefix_cons.mp hplace
        exact ⟨place, hrest, a, ha⟩

theorem kind_makeBranches (h : makeBranches keys tree = some made) (hstands : find place tree ≠ none) :
    kind (find place (some made)) = kind (find place tree) := by
  by_cases hon : place <+: keys
  · rw [kind_find_makeBranches h hon]
    match hfound : find place tree with
    | none => exact absurd hfound hstands
    | some (leaf a) => exact nomatch h.symm.trans (makeBranches_eq_none_iff.mpr ⟨place, hon, a, hfound⟩)
    | some (branch _) => rfl
  · rw [find_makeBranches_of_off h hon]

end Tree

end SyncEngine.Collections
