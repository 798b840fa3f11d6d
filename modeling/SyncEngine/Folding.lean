import Mathlib.Data.List.TakeWhile
import SyncEngine.Paths

/-! # Names up to case

The server compares names without their case, so a path is taken where any
spelling of it is. The fold of a character is its lowercase expansion. What the
engine relies on is that an expansion is never empty and yields a separator for
the separator alone; the components of a folded path are then the folded
components of the path.
-/

namespace SyncEngine

open List

/-! ## Depth and parents -/

def depth (path : Path) : Nat := path.count '/'

theorem depth_append_slash (pre rest : Path) :
    depth (pre ++ '/' :: rest) = depth pre + depth rest + 1 := by
  unfold depth
  rw [count_append, count_cons_self]
  omega

variable {path dir : Path}

theorem depth_lt_of_isUnder {pre : Path} (h : isUnder path pre) :
    depth pre < depth path := by
  obtain ⟨rest, rfl⟩ := isUnder_iff.mp h
  rw [depth_append_slash]
  omega

theorem depth_le_of_atOrUnder (h : AtOrUnder path dir) :
    depth dir ≤ depth path := by
  rcases h with rfl | h
  · exact le_rfl
  · exact (depth_lt_of_isUnder h).le

theorem eq_of_atOrUnder_of_depth (h : AtOrUnder path dir) (hd : depth path ≤ depth dir) : path = dir := by
  rcases h with rfl | h
  · rfl
  have := depth_lt_of_isUnder h
  omega

theorem parentPath_of_append {par name : Path} (h : '/' ∉ name) :
    parentPath (par ++ '/' :: name) = par := by
  have hname : ∀ c ∈ name.reverse, decide (c ≠ '/') := by
    intro c hc
    have hne : c ≠ '/' := fun heq => h (heq ▸ mem_reverse.mp hc)
    exact decide_eq_true hne
  unfold parentPath
  rw [reverse_append, reverse_cons, append_assoc,
    dropWhile_append_of_pos hname]
  simp

theorem parentPath_of_not_mem (h : '/' ∉ path) : parentPath path = [] := by
  have hall : ∀ c ∈ path.reverse, decide (c ≠ '/') := by
    intro c hc
    have hne : c ≠ '/' := fun heq => h (heq ▸ mem_reverse.mp hc)
    exact decide_eq_true hne
  have hdrop : path.reverse.dropWhile (fun c => c ≠ '/') = [] :=
    dropWhile_eq_nil_iff.mpr hall
  unfold parentPath
  rw [hdrop]
  rfl

theorem leaf_of_noSlash {name : Path} (h : '/' ∉ name) : leaf name = name := by
  unfold leaf
  rw [takeWhile_eq_self_iff.mpr, reverse_reverse]
  intro c hc
  exact decide_eq_true fun heq => h (heq ▸ mem_reverse.mp hc)

theorem leaf_joinPath {name : Path} (parent : Path) (h : '/' ∉ name) : leaf (joinPath parent name) = name := by
  unfold joinPath
  split
  · exact leaf_of_noSlash h
  rw [leaf_append_slash parent []]
  have hnone : ∀ c ∈ name.reverse, decide (c ≠ '/') := fun c hc =>
    decide_eq_true fun heq => h (heq ▸ mem_reverse.mp hc)
  unfold leaf
  rw [nil_append, reverse_cons, takeWhile_append_of_pos hnone]
  simp

theorem parentPath_cases (path : Path) :
    ('/' ∉ path ∧ parentPath path = []) ∨
      ∃ name, '/' ∉ name ∧ path = parentPath path ++ '/' :: name := by
  by_cases h : '/' ∈ path
  · right
    obtain ⟨front, rest, heq, hfront⟩ := eq_append_cons_of_mem (mem_reverse.mpr h)
    have hpath : path = rest.reverse ++ '/' :: front.reverse := by
      rw [← reverse_reverse path, heq]
      simp
    have hname : '/' ∉ front.reverse := by simpa using hfront
    refine ⟨front.reverse, hname, ?_⟩
    conv_lhs => rw [hpath]
    rw [hpath, parentPath_of_append hname]
  · exact Or.inl ⟨h, parentPath_of_not_mem h⟩

theorem length_parentPath_lt (h : path ≠ []) :
    (parentPath path).length < path.length := by
  rcases parentPath_cases path with ⟨-, hnil⟩ | ⟨name, -, heq⟩
  · rw [hnil]
    exact length_pos_of_ne_nil h
  have hlen := congrArg List.length heq
  rw [length_append, length_cons] at hlen
  omega

theorem isUnder_iff_parentPath (hdir : dir ≠ []) :
    isUnder path dir ↔ AtOrUnder (parentPath path) dir := by
  rcases parentPath_cases path with ⟨hno, hnil⟩ | ⟨name, hname, heq⟩
  · rw [hnil]
    constructor
    · intro h
      obtain ⟨rest, rfl⟩ := isUnder_iff.mp h
      simp at hno
    rintro (h | h)
    · exact absurd h.symm hdir
    have := length_lt_of_isUnder h
    simp at this
  constructor
  · intro h
    obtain ⟨rest, hrest⟩ := isUnder_iff.mp h
    rw [heq] at hrest
    rcases append_eq_append_iff.mp hrest with ⟨t, hdir', ht⟩ | ⟨t, hpar, ht⟩
    · cases t with
      | nil => exact Or.inl (by simpa using hdir'.symm)
      | cons c t =>
        rw [cons_append, List.cons.injEq] at ht
        rw [ht.2] at hname
        simp at hname
    cases t with
    | nil => exact Or.inl (by simpa using hpar)
    | cons c t =>
      rw [cons_append, List.cons.injEq] at ht
      rw [← ht.1] at hpar
      exact Or.inr (isUnder_iff.mpr ⟨t, hpar⟩)
  intro h
  have hpar : isUnder path (parentPath path) := isUnder_iff.mpr ⟨name, heq⟩
  rcases h with h | h
  · rw [← h]
    exact hpar
  · exact isUnder_trans hpar h

/-! ## Folding the case of a path -/

structure CaseFold where
  lower : Char → List Char
  nonempty : ∀ c, lower c ≠ []
  slash : lower '/' = ['/']
  noSlash : ∀ c, c ≠ '/' → '/' ∉ lower c

def asciiFold : CaseFold where
  lower c := [c.toLower]
  nonempty _ := cons_ne_nil _ _
  slash := rfl
  noSlash c hc := by
    rw [mem_singleton]
    intro h
    unfold Char.toLower at h
    split at h
    · rename_i hrange
      have hval := congrArg Char.val h
      have hlo := UInt32.le_iff_toNat_le.mp hrange.1
      have hhi := UInt32.le_iff_toNat_le.mp hrange.2
      have hsum := congrArg UInt32.toNat hval
      simp at hlo hhi hsum
      omega
    · exact hc h.symm

namespace CaseFold

variable (fold : CaseFold)

def collisionKey (relPath : Path) : Path := relPath.flatMap fold.lower

/-- Whether `path` is `pre` or lies under it, whatever the case of either. -/
def atOrUnderFolded (path pre : Path) : Bool :=
  let folded := fold.collisionKey path
  let want := fold.collisionKey pre
  want.isPrefixOf folded &&
    match (folded.drop want.length).head? with
    | none => true
    | some c => c == '/'

variable {fold}

variable {path dir : Path}

theorem atOrUnderFolded_iff {pre : Path} :
    fold.atOrUnderFolded path pre ↔
      AtOrUnder (fold.collisionKey path) (fold.collisionKey pre) := by
  unfold atOrUnderFolded
  rw [atOrUnder_iff_tail, Bool.and_eq_true, isPrefixOf_iff_prefix]
  constructor
  · rintro ⟨⟨rest, hrest⟩, h⟩
    rw [← hrest, drop_left] at h
    refine ⟨rest, ?_, hrest.symm⟩
    cases rest with
    | nil => exact Or.inl rfl
    | cons c rest => exact Or.inr (by simpa using h)
  rintro ⟨rest, htail, hrest⟩
  refine ⟨⟨rest, hrest.symm⟩, ?_⟩
  rw [hrest, drop_left]
  rcases htail with rfl | h
  · rfl
  rw [h]
  rfl

theorem collisionKey_append (p q : Path) :
    fold.collisionKey (p ++ q) = fold.collisionKey p ++ fold.collisionKey q :=
  flatMap_append

theorem collisionKey_slash (rest : Path) :
    fold.collisionKey ('/' :: rest) = '/' :: fold.collisionKey rest := by
  unfold collisionKey
  rw [flatMap_cons, fold.slash]
  rfl

theorem collisionKey_ne_nil (h : path ≠ []) : fold.collisionKey path ≠ [] := by
  cases path with
  | nil => exact absurd rfl h
  | cons c rest =>
    intro hnil
    exact fold.nonempty c (append_eq_nil_iff.mp hnil).1

theorem collisionKey_split {a b : Path} (h : fold.collisionKey path = a ++ '/' :: b) :
    ∃ p q, path = p ++ '/' :: q ∧ fold.collisionKey p = a ∧ fold.collisionKey q = b := by
  induction path generalizing a with
  | nil =>
    have hlen := congrArg List.length h
    simp [collisionKey] at hlen
  | cons c path ih =>
    have hcons : fold.lower c ++ fold.collisionKey path = a ++ '/' :: b := h
    rcases append_eq_append_iff.mp hcons with ⟨t, ha, ht⟩ | ⟨t, hc, ht⟩
    · obtain ⟨p, q, rfl, hp, hq⟩ := ih ht
      refine ⟨c :: p, q, rfl, ?_, hq⟩
      rw [ha, ← hp]
      rfl
    cases t with
    | nil =>
      rw [append_nil] at hc
      obtain ⟨p, q, rfl, hp, hq⟩ := ih (a := []) ht.symm
      refine ⟨c :: p, q, rfl, ?_, hq⟩
      rw [← hc]
      unfold collisionKey at hp ⊢
      rw [flatMap_cons, hp, append_nil]
    | cons d t =>
      rw [cons_append, List.cons.injEq] at ht
      have hmem : '/' ∈ fold.lower c := by
        rw [hc, ht.1]
        simp
      have heq : c = '/' := by
        by_contra hne
        exact fold.noSlash c hne hmem
      rw [heq, fold.slash] at hc
      cases a with
      | nil =>
        have ht' : '/' = d ∧ t = [] := by simpa using hc
        refine ⟨[], path, by rw [heq]; rfl, rfl, ?_⟩
        rw [ht.2, ht'.2]
        rfl
      | cons x a =>
        have hlen := congrArg List.length hc
        simp at hlen

theorem atOrUnder_collisionKey (h : AtOrUnder path dir) :
    AtOrUnder (fold.collisionKey path) (fold.collisionKey dir) := by
  rcases h with rfl | h
  · exact atOrUnder_refl _
  obtain ⟨rest, rfl⟩ := isUnder_iff.mp h
  rw [collisionKey_append, collisionKey_slash]
  exact Or.inr (isUnder_append _ _)

theorem atOrUnder_of_collisionKey
    (h : AtOrUnder (fold.collisionKey path) (fold.collisionKey dir)) :
    ∃ dir', AtOrUnder path dir' ∧ fold.collisionKey dir' = fold.collisionKey dir := by
  rcases h with h | h
  · exact ⟨path, atOrUnder_refl path, h⟩
  obtain ⟨rest, hrest⟩ := isUnder_iff.mp h
  obtain ⟨p, q, rfl, hp, -⟩ := collisionKey_split hrest
  exact ⟨p, Or.inr (isUnder_append p q), hp⟩

theorem depth_collisionKey (fold : CaseFold) (path : Path) : depth (fold.collisionKey path) = depth path := by
  induction path with
  | nil => rfl
  | cons c path ih =>
    unfold depth at ih ⊢
    have hcons : fold.collisionKey (c :: path) = fold.lower c ++ fold.collisionKey path := rfl
    rw [hcons, count_append, ih]
    by_cases hc : c = '/'
    · rw [hc, fold.slash, count_cons_self]
      simp
      omega
    rw [count_eq_zero.mpr (fold.noSlash c hc), count_cons_of_ne hc]
    omega

theorem depth_eq_of_collisionKey {p q : Path} (h : fold.collisionKey p = fold.collisionKey q) :
    depth p = depth q := by
  rw [← fold.depth_collisionKey p, h, fold.depth_collisionKey]

end CaseFold

end SyncEngine
