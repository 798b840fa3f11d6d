import Mathlib.Algebra.GroupWithZero.Nat
import Mathlib.Data.List.Basic
import Mathlib.Data.List.TakeWhile

/-! # Depth-first walks

A grove holds its trees side by side, each with what is below it. A walk lists it depth first
with how deep each entry is, and every list that reads as one is the walk of some grove.
-/

namespace SyncEngine.Collections

open List

/-- Trees side by side. -/
inductive Grove (α : Type) where
  | nil
  | node (a : α) (below beside : Grove α)
deriving Repr

namespace Grove

variable {α β : Type}

/-- Its entries, each before what is below it, with their depths. -/
def walk (depth : Nat) : Grove α → List (α × Nat)
  | .nil => []
  | .node a below beside => (a, depth) :: (below.walk (depth + 1) ++ beside.walk depth)

/-- How many entries it has. -/
def size : Grove α → Nat
  | .nil => 0
  | .node _ below beside => 1 + below.size + beside.size

/-- Its trees. -/
def roots : Grove α → List (α × Grove α)
  | .nil => []
  | .node a below beside => (a, below) :: beside.roots

def ofRoots : List (α × Grove α) → Grove α
  | [] => .nil
  | (a, below) :: rest => .node a below (ofRoots rest)

/-- Its entries as it is walked, each with the names on the way to it. -/
def paths {ν : Type} (name : α → ν) (above : List ν) : Grove α → List (α × List ν)
  | .nil => []
  | .node a below beside =>
    (a, above ++ [name a]) :: (below.paths name (above ++ [name a]) ++ beside.paths name above)

theorem walk_eq_paths {ν : Type} (name : α → ν) (above : List ν) (g : Grove α) :
    g.walk above.length = (g.paths name above).map fun entry => (entry.1, entry.2.length - 1) := by
  induction g generalizing above with
  | nil => rfl
  | node a below beside hbelow hbeside =>
    have hlength : (above ++ [name a]).length = above.length + 1 := length_append
    have hbelow' := hbelow (above ++ [name a])
    rw [hlength] at hbelow'
    rw [walk, paths, map_cons, map_append, hbelow', hbeside, hlength, Nat.add_sub_cancel]

theorem ofRoots_roots (g : Grove α) : ofRoots g.roots = g := by
  induction g with
  | nil => rfl
  | node a below beside _ ih =>
    unfold roots ofRoots
    rw [ih]

theorem length_walk (g : Grove α) (depth : Nat) : (g.walk depth).length = g.size := by
  induction g generalizing depth with
  | nil => rfl
  | node a below beside hbelow hbeside =>
    unfold walk size
    rw [length_cons, length_append, hbelow, hbeside]
    omega

theorem size_ofRoots (trees : List (α × Grove α)) : (ofRoots trees).size = (trees.map fun tree => 1 + tree.2.size).sum := by
  induction trees with
  | nil => rfl
  | cons tree trees ih =>
    rw [map_cons, sum_cons, ← ih]
    rfl

theorem depth_of_mem_walk {g : Grove α} {depth : Nat} {entry : α × Nat} (h : entry ∈ g.walk depth) : depth ≤ entry.2 := by
  induction g generalizing depth with
  | nil => cases h
  | node a below beside hbelow hbeside =>
    unfold walk at h
    rcases mem_cons.mp h with rfl | h
    · exact le_rfl
    rcases mem_append.mp h with h | h
    · exact Nat.le_of_succ_le (hbelow h)
    · exact hbeside h

variable (opens : α → Bool)

/-- What does not open has nothing below it. -/
def Closed : Grove α → Prop
  | .nil => True
  | .node a below beside => (opens a = false → below = .nil) ∧ below.Closed ∧ beside.Closed

/-- Each entry is no deeper than just below the one before it, if that opens. -/
def DepthFirst (base : Nat) : Nat → List (α × Nat) → Prop
  | _, [] => True
  | top, entry :: rest =>
    base ≤ entry.2 ∧ entry.2 ≤ top ∧ DepthFirst base (if opens entry.1 then entry.2 + 1 else entry.2) rest

instance decidableDepthFirst (base : Nat) : (top : Nat) → (entries : List (α × Nat)) → Decidable (DepthFirst opens base top entries)
  | _, [] => .isTrue trivial
  | top, entry :: rest =>
    have := decidableDepthFirst base (if opens entry.1 then entry.2 + 1 else entry.2) rest
    inferInstanceAs (Decidable (base ≤ entry.2 ∧ entry.2 ≤ top ∧ _))

variable {opens}

theorem DepthFirst.of_append {base : Nat} {deep flat : List (α × Nat)} {top : Nat}
    (h : DepthFirst opens base top (deep ++ flat)) (hflat : ∀ entry ∈ flat.head?, entry.2 ≤ base) :
    DepthFirst opens base base flat := by
  induction deep generalizing top with
  | nil =>
    cases flat with
    | nil => trivial
    | cons entry flat => exact ⟨h.1, hflat entry rfl, h.2.2⟩
  | cons entry deep ih => exact ih h.2.2

theorem DepthFirst.deeper {base : Nat} {deep flat : List (α × Nat)} {top : Nat} (h : DepthFirst opens base top (deep ++ flat))
    (hdeep : ∀ entry ∈ deep, base < entry.2) : DepthFirst opens (base + 1) top deep := by
  induction deep generalizing top with
  | nil => trivial
  | cons entry deep ih =>
    obtain ⟨hentry, hrest⟩ := forall_mem_cons.mp hdeep
    exact ⟨hentry, h.2.1, ih h.2.2 hrest⟩

theorem exists_walk {base : Nat} {entries : List (α × Nat)} (h : DepthFirst opens base base entries) :
    ∃ g : Grove α, g.walk base = entries ∧ g.Closed opens := by
  induction hn : entries.length using Nat.strong_induction_on generalizing base entries with
  | _ n ih =>
    cases entries with
    | nil => exact ⟨.nil, rfl, trivial⟩
    | cons entry rest =>
      obtain ⟨a, depth⟩ := entry
      obtain ⟨hle, hge, hrest⟩ := h
      obtain rfl : depth = base := le_antisymm hge hle
      have hsplit := takeWhile_append_dropWhile (p := fun entry : α × Nat => depth < entry.2) (l := rest)
      generalize hdeep : rest.takeWhile (fun entry : α × Nat => depth < entry.2) = deep at hsplit
      generalize hflat : rest.dropWhile (fun entry : α × Nat => depth < entry.2) = flat at hsplit
      have hdeeper : ∀ entry ∈ deep, depth < entry.2 := by
        intro entry hmem
        rw [← hdeep] at hmem
        have hlt := mem_takeWhile_imp hmem
        exact of_decide_eq_true hlt
      have hhead : ∀ entry ∈ flat.head?, entry.2 ≤ depth := by
        intro entry hentry
        have hnot := head?_dropWhile_not (fun entry : α × Nat => depth < entry.2) rest
        rw [hflat, hentry] at hnot
        exact not_lt.mp (of_decide_eq_false hnot)
      have hlength : deep.length + flat.length = rest.length := by
        rw [← length_append, hsplit]
      rw [← hsplit] at hrest
      rw [length_cons] at hn
      obtain ⟨beside, hbeside, hclosed⟩ := ih flat.length (by omega) (hrest.of_append hhead) rfl
      by_cases hopens : opens a
      · rw [if_pos hopens] at hrest
        obtain ⟨below, hbelow, hclosed'⟩ := ih deep.length (by omega) (hrest.deeper hdeeper) rfl
        refine ⟨.node a below beside, ?_, fun hfalse => ?_, hclosed', hclosed⟩
        · unfold walk
          rw [hbelow, hbeside, hsplit]
        rw [hopens] at hfalse
        cases hfalse
      rw [if_neg hopens] at hrest
      have hnil : deep = [] := by
        cases deep with
        | nil => rfl
        | cons entry deep => exact absurd (hdeeper entry mem_cons_self) (not_lt.mpr hrest.2.1)
      refine ⟨.node a .nil beside, ?_, fun _ => rfl, trivial, hclosed⟩
      unfold walk
      rw [hbeside, ← hsplit, hnil]
      rfl

section Passing

variable (wanted : List α → Bool)

/-- Whether an entry is wanted, told by the entries on the way to it. -/
def anyWanted (above : List α) : Grove α → Bool
  | .nil => false
  | .node a below beside => wanted (above ++ [a]) || below.anyWanted (above ++ [a]) || beside.anyWanted above

/-- The entries that are wanted, and those above them, as they are walked. -/
def passing (above : List α) : Grove α → List α
  | .nil => []
  | .node a below beside =>
    (if wanted (above ++ [a]) || below.anyWanted wanted (above ++ [a]) then [a] else []) ++
      (below.passing (above ++ [a]) ++ beside.passing above)

variable {wanted}

theorem passing_eq_nil {above : List α} {g : Grove α} : g.passing wanted above = [] ↔ g.anyWanted wanted above = false := by
  induction g generalizing above with
  | nil => exact ⟨fun _ => rfl, fun _ => rfl⟩
  | node a below beside hbelow hbeside =>
    rw [passing, anyWanted, append_eq_nil_iff, append_eq_nil_iff, hbelow, hbeside]
    cases wanted (above ++ [a]) <;> cases below.anyWanted wanted (above ++ [a]) <;> simp

theorem anyWanted_eq (above : List α) (g : Grove α) : g.anyWanted wanted above = !(g.passing wanted above).isEmpty := by
  cases hany : g.anyWanted wanted above with
  | false =>
    rw [passing_eq_nil.mpr hany]
    rfl
  | true =>
    cases hpassing : g.passing wanted above with
    | nil =>
      rw [passing_eq_nil.mp hpassing] at hany
      cases hany
    | cons a rest => rfl

theorem anyWanted_of_none {above : List α} {g : Grove α} (h : ∀ more, wanted (above ++ more) = false) :
    g.anyWanted wanted above = false := by
  induction g generalizing above with
  | nil => rfl
  | node a below beside hbelow hbeside =>
    have hdeeper : ∀ more, wanted ((above ++ [a]) ++ more) = false := fun more => by
      rw [append_assoc]
      exact h _
    rw [anyWanted, h, hbelow hdeeper, hbeside h]
    rfl

end Passing

end Grove

end SyncEngine.Collections
