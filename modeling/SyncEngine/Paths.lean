import Mathlib.Data.Char
import Mathlib.Data.List.Lex
import SyncEngine.Collections.SortedSet

/-! # Relative paths of a synced pair

A path is the NFC-normalized, `/`-joined text relative to the sync root. The
engine compares paths bytewise; UTF-8 keeps the order of code points, so the
lexicographic order on characters below is that order. `/` is a single byte
that occurs inside no other character's encoding, which lets the byte-offset
tests of the source be read on characters.
-/

namespace SyncEngine

open Collections List

abbrev Path := List Char

abbrev PathSet := SortedSet Path

instance : LawfulBEq Path := inferInstance

theorem sorted_nil : ([] : List Path).Pairwise (· < ·) := .nil

/-! ## Ancestors and descendants -/

/-- Whether `path` is a strict descendant of `pre`. -/
def isUnder (path pre : Path) : Bool :=
  pre.length < path.length && path[pre.length]? == some '/' &&
    path.take pre.length == pre

variable {path pre a b dir src dst out : Path}

theorem isUnder_iff :
    isUnder path pre ↔ ∃ rest, path = pre ++ '/' :: rest := by
  constructor
  · intro h
    simp only [isUnder, Bool.and_eq_true, decide_eq_true_eq, beq_iff_eq] at h
    obtain ⟨⟨hlen, hslash⟩, htake⟩ := h
    refine ⟨path.drop (pre.length + 1), ?_⟩
    have hget : path[pre.length] = '/' := by
      rw [getElem?_eq_getElem hlen] at hslash
      simpa using hslash
    calc path = path.take pre.length ++ path.drop pre.length := (take_append_drop _ _).symm
      _ = pre ++ '/' :: path.drop (pre.length + 1) := by
        rw [htake, drop_eq_getElem_cons hlen, hget]
  rintro ⟨rest, rfl⟩
  simp [isUnder]

theorem isUnder_append (pre rest : Path) : isUnder (pre ++ '/' :: rest) pre :=
  isUnder_iff.mpr ⟨rest, rfl⟩

theorem length_lt_of_isUnder (h : isUnder path pre) :
    pre.length < path.length := by
  obtain ⟨rest, rfl⟩ := isUnder_iff.mp h
  simp

theorem lt_of_isUnder (h : isUnder path pre) : pre < path := by
  obtain ⟨rest, rfl⟩ := isUnder_iff.mp h
  induction pre with
  | nil => exact List.Lex.nil
  | cons c pre ih => exact List.Lex.cons (ih (isUnder_append pre rest))

@[simp] theorem isUnder_self (path : Path) : isUnder path path = false := by
  cases h : isUnder path path with
  | false => rfl
  | true => exact absurd (length_lt_of_isUnder h) (lt_irrefl _)

theorem isUnder_trans {c : Path} (hab : isUnder a b) (hbc : isUnder b c) :
    isUnder a c := by
  obtain ⟨r, rfl⟩ := isUnder_iff.mp hab
  obtain ⟨s, rfl⟩ := isUnder_iff.mp hbc
  exact isUnder_iff.mpr ⟨s ++ '/' :: r, by simp⟩

/-- Every proper ancestor of `path`, shallowest first. -/
def ancestors (path : Path) : List Path :=
  (List.range path.length).filterMap fun cut =>
    if path[cut]? = some '/' then some (path.take cut) else none

theorem mem_ancestors : a ∈ ancestors path ↔ isUnder path a := by
  constructor
  · intro h
    obtain ⟨i, hi, hcut⟩ := mem_filterMap.mp h
    have hlen := mem_range.mp hi
    split at hcut
    · rename_i hslash
      cases hcut
      refine isUnder_iff.mpr ⟨path.drop (i + 1), ?_⟩
      have hget : path[i] = '/' := by
        rw [getElem?_eq_getElem hlen] at hslash
        simpa using hslash
      calc path = path.take i ++ path.drop i := (take_append_drop _ _).symm
        _ = path.take i ++ '/' :: path.drop (i + 1) := by
          rw [drop_eq_getElem_cons hlen, hget]
    · cases hcut
  intro h
  obtain ⟨rest, rfl⟩ := isUnder_iff.mp h
  refine mem_filterMap.mpr ⟨a.length, ?_, ?_⟩
  · simp
  · simp

/-- Whether `path` is one of `roots` or lives under one. -/
def atOrUnderRoot (roots : PathSet) (path : Path) : Bool :=
  roots.contains path || (ancestors path).any fun a => roots.contains a

theorem atOrUnderRoot_iff {roots : PathSet} :
    atOrUnderRoot roots path ↔
      ∃ root ∈ roots, path = root ∨ isUnder path root := by
  simp only [atOrUnderRoot, Bool.or_eq_true, SortedSet.contains_iff, any_eq_true,
    mem_ancestors]
  constructor
  · rintro (h | ⟨a, ha, hr⟩)
    · exact ⟨path, h, Or.inl rfl⟩
    · exact ⟨a, hr, Or.inr ha⟩
  rintro ⟨root, hr, rfl | hu⟩
  · exact Or.inl hr
  · exact Or.inr ⟨root, hu, hr⟩

def isUnderHeldPath (key : Path) (held : PathSet) : Bool := atOrUnderRoot held key

/-- The half-open key range of everything strictly under `dir`: `0` is the
character after `/`. -/
def subtreeBounds (dir : Path) : Path × Path := (dir ++ ['/'], dir ++ ['0'])

private theorem slash_le_lt_zero {c : Char} : '/' ≤ c ∧ c < '0' ↔ c = '/' := by
  constructor
  · rintro ⟨hlo, hhi⟩
    have h1 : ('/' : Char).toNat ≤ c.toNat := hlo
    have h2 : c.toNat < ('0' : Char).toNat := hhi
    have h3 : ('/' : Char).toNat = 47 := rfl
    have h4 : ('0' : Char).toNat = 48 := rfl
    exact Char.toNat_inj.mp (by omega)
  rintro rfl
  decide

private theorem cons_le_cons_iff_lex {a b : Char} {l m : Path} :
    a :: l ≤ b :: m ↔ a < b ∨ a = b ∧ l ≤ m := by
  rw [← not_lt, cons_lt_cons_iff, ← not_lt (a := m)]
  rcases lt_trichotomy a b with h | rfl | h
  · simp [h, h.ne', not_lt_of_gt h]
  · simp
  · simp [h, h.ne', not_lt_of_gt h]

theorem mem_subtreeBounds :
    (subtreeBounds dir).1 ≤ path ∧ path < (subtreeBounds dir).2 ↔ isUnder path dir := by
  rw [isUnder_iff]
  induction dir generalizing path with
  | nil =>
    cases path with
    | nil => simp [subtreeBounds]
    | cons c rest =>
      have key := @slash_le_lt_zero c
      rw [le_iff_lt_or_eq] at key
      have hnil : ([] : Path) ≤ rest := not_lt.mp (not_lt_nil _)
      simp only [subtreeBounds, nil_append, cons_le_cons_iff_lex, cons_lt_cons_iff,
        not_lt_nil, and_false, or_false, hnil, and_true]
      rw [key]
      simp
  | cons d dir ih =>
    cases path with
    | nil => simp [subtreeBounds]
    | cons c rest =>
      simp only [subtreeBounds, cons_append, cons_le_cons_iff_lex,
        cons_lt_cons_iff, List.cons.injEq] at ih ⊢
      constructor
      · rintro ⟨hlo | ⟨rfl, hlo⟩, hhi | ⟨hc, hhi⟩⟩
        · exact absurd (lt_trans hlo hhi) (lt_irrefl _)
        · exact absurd (hc ▸ hlo) (lt_irrefl _)
        · exact absurd hhi (lt_irrefl _)
        obtain ⟨r, hr⟩ := ih.mp ⟨hlo, hhi⟩
        exact ⟨r, rfl, hr⟩
      rintro ⟨r, rfl, hr⟩
      obtain ⟨hlo, hhi⟩ := ih.mpr ⟨r, hr⟩
      exact ⟨Or.inr ⟨rfl, hlo⟩, Or.inr ⟨rfl, hhi⟩⟩

/-- Whether a directory move with `end'` as one of its ends touches a held
path: at or under one, or above one. -/
def touchesHeld (end' : Path) (held : PathSet) : Bool :=
  isUnderHeldPath end' held ||
    held.toList.any fun p =>
      (subtreeBounds end').1 ≤ p && p < (subtreeBounds end').2

theorem touchesHeld_iff {end' : Path} {held : PathSet} :
    touchesHeld end' held ↔
      ∃ h ∈ held, end' = h ∨ isUnder end' h ∨ isUnder h end' := by
  simp only [touchesHeld, isUnderHeldPath, Bool.or_eq_true, atOrUnderRoot_iff, any_eq_true,
    Bool.and_eq_true, decide_eq_true_eq, mem_subtreeBounds]
  constructor
  · rintro (⟨h, hh, heq | hu⟩ | ⟨h, hh, hu⟩)
    · exact ⟨h, hh, Or.inl heq⟩
    · exact ⟨h, hh, Or.inr (Or.inl hu)⟩
    · exact ⟨h, hh, Or.inr (Or.inr hu)⟩
  rintro ⟨h, hh, heq | hu | hu⟩
  · exact Or.inl ⟨h, hh, Or.inl heq⟩
  · exact Or.inl ⟨h, hh, Or.inr hu⟩
  · exact Or.inr ⟨h, hh, hu⟩

/-! ## Moving a subtree -/

/-- Where `path` lands when the directory at `src` moves to `dst`; `none` when
it is neither `src` nor under it. -/
def movedPath (path src dst : Path) : Option Path :=
  if src.isPrefixOf path then
    let rest := path.drop src.length
    if rest = [] ∨ rest.head? = some '/' then some (dst ++ rest) else none
  else none

/-- `path` is `dir` or lies under it. -/
def AtOrUnder (path dir : Path) : Prop := path = dir ∨ isUnder path dir = true

instance (path dir : Path) : Decidable (AtOrUnder path dir) :=
  inferInstanceAs (Decidable (_ ∨ _))

/-- The tails a moved path keeps: nothing, or a `/` and what follows it. -/
def IsTail (rest : Path) : Prop := rest = [] ∨ rest.head? = some '/'

theorem atOrUnder_iff_tail :
    AtOrUnder path dir ↔ ∃ rest, IsTail rest ∧ path = dir ++ rest := by
  unfold AtOrUnder IsTail
  rw [isUnder_iff]
  constructor
  · rintro (rfl | ⟨r, rfl⟩)
    · exact ⟨[], Or.inl rfl, by simp⟩
    · exact ⟨'/' :: r, Or.inr rfl, rfl⟩
  rintro ⟨rest, hrest | hrest, rfl⟩
  · subst hrest
    exact Or.inl (by simp)
  cases rest with
  | nil => simp at hrest
  | cons c r =>
    have hc : c = '/' := by simpa using hrest
    subst hc
    exact Or.inr ⟨r, rfl⟩

theorem movedPath_eq_some :
    movedPath path src dst = some out ↔
      ∃ rest, IsTail rest ∧ path = src ++ rest ∧ out = dst ++ rest := by
  unfold movedPath IsTail
  constructor
  · intro h
    split at h
    · rename_i hpre
      obtain ⟨rest, rfl⟩ := isPrefixOf_iff_prefix.mp hpre
      simp only [drop_left] at h
      split at h
      · rename_i htail
        exact ⟨rest, htail, rfl, by simpa using h.symm⟩
      · cases h
    · cases h
  rintro ⟨rest, htail, rfl, rfl⟩
  have hpre : src.isPrefixOf (src ++ rest) :=
    isPrefixOf_iff_prefix.mpr (prefix_append _ _)
  simp only [hpre, if_true, drop_left, htail]

theorem movedPath_append {rest : Path} (h : IsTail rest) :
    movedPath (src ++ rest) src dst = some (dst ++ rest) :=
  movedPath_eq_some.mpr ⟨rest, h, rfl, rfl⟩

@[simp] theorem movedPath_self (src dst : Path) : movedPath src src dst = some dst := by
  have h : movedPath (src ++ []) src dst = some (dst ++ []) := movedPath_append (Or.inl rfl)
  simpa using h

theorem movedPath_isSome (dst : Path) :
    (movedPath path src dst).isSome ↔ AtOrUnder path src := by
  rw [Option.isSome_iff_exists, atOrUnder_iff_tail]
  simp only [movedPath_eq_some]
  constructor
  · rintro ⟨out, rest, ht, hp, -⟩
    exact ⟨rest, ht, hp⟩
  rintro ⟨rest, ht, hp⟩
  exact ⟨dst ++ rest, rest, ht, hp, rfl⟩

theorem movedPath_eq_none :
    movedPath path src dst = none ↔ ¬ AtOrUnder path src := by
  rw [← movedPath_isSome dst]
  cases movedPath path src dst <;> simp

theorem movedPath_symm :
    movedPath path src dst = some out ↔ movedPath out dst src = some path := by
  rw [movedPath_eq_some, movedPath_eq_some]
  constructor <;> rintro ⟨rest, ht, h1, h2⟩ <;> exact ⟨rest, ht, h2, h1⟩

theorem atOrUnder_of_movedPath
    (h : movedPath path src dst = some out) : AtOrUnder path src ∧ AtOrUnder out dst := by
  obtain ⟨rest, ht, hp, ho⟩ := movedPath_eq_some.mp h
  exact ⟨atOrUnder_iff_tail.mpr ⟨rest, ht, hp⟩, atOrUnder_iff_tail.mpr ⟨rest, ht, ho⟩⟩

theorem movedPath_injective {p q : Path} (hp : movedPath p src dst = some out)
    (hq : movedPath q src dst = some out) : p = q := by
  have h1 := movedPath_symm.mp hp
  have h2 := movedPath_symm.mp hq
  simpa [h1] using h2

theorem atOrUnder_refl (path : Path) : AtOrUnder path path := Or.inl rfl

theorem atOrUnder_trans {c : Path} (hab : AtOrUnder a b) (hbc : AtOrUnder b c) :
    AtOrUnder a c := by
  rcases hab with rfl | hab
  · exact hbc
  rcases hbc with rfl | hbc
  · exact Or.inr hab
  · exact Or.inr (isUnder_trans hab hbc)

theorem atOrUnder_total (ha : AtOrUnder path a) (hb : AtOrUnder path b) :
    AtOrUnder a b ∨ AtOrUnder b a := by
  obtain ⟨r, hr, rfl⟩ := atOrUnder_iff_tail.mp ha
  obtain ⟨s, hs, heq⟩ := atOrUnder_iff_tail.mp hb
  rcases append_eq_append_iff.mp heq with ⟨t, rfl, hrt⟩ | ⟨t, rfl, hst⟩
  · right
    refine atOrUnder_iff_tail.mpr ⟨t, ?_, rfl⟩
    cases t with
    | nil => exact Or.inl rfl
    | cons c t =>
      rcases hr with hr | hr
      · simp [hr] at hrt
      right
      rw [hrt] at hr
      simpa using hr
  left
  refine atOrUnder_iff_tail.mpr ⟨t, ?_, rfl⟩
  cases t with
  | nil => exact Or.inl rfl
  | cons c t =>
    rcases hs with hs | hs
    · simp [hs] at hst
    right
    rw [hst] at hs
    simpa using hs

theorem not_atOrUnder_both (hne : a ≠ b) (hab : isUnder a b = false)
    (hba : isUnder b a = false) (ha : AtOrUnder path a) : ¬ AtOrUnder path b := by
  intro hb
  rcases atOrUnder_total ha hb with (h | h) | (h | h)
  · exact hne h
  · simp [h] at hab
  · exact hne h.symm
  · simp [h] at hba

def leaf (relPath : Path) : Path := (relPath.reverse.takeWhile (· ≠ '/')).reverse

theorem leaf_append_slash (dir dir' below : Path) :
    leaf (dir ++ '/' :: below) = leaf (dir' ++ '/' :: below) := by
  have htake : ∀ pre : Path, (pre ++ '/' :: below).reverse.takeWhile (fun c => c ≠ '/') =
      below.reverse.takeWhile fun c => decide (c ≠ '/') := by
    intro pre
    rw [reverse_append, reverse_cons, append_assoc, takeWhile_append]
    split
    · rename_i hall
      have hself := takeWhile_append_dropWhile
        (p := fun c => c ≠ '/') (l := below.reverse)
      have hdrop : below.reverse.dropWhile (fun c => c ≠ '/') = [] := by
        have hlen := congrArg List.length hself
        rw [length_append, hall] at hlen
        exact length_eq_zero_iff.mp (by omega)
      rw [hdrop, append_nil] at hself
      rw [singleton_append, takeWhile_cons_of_neg (by simp), append_nil, hself]
    · rfl
  unfold leaf
  rw [htake, htake]

/-- The parent part of a path, empty at the top level. -/
def parentPath (relPath : Path) : Path :=
  ((relPath.reverse.dropWhile (· ≠ '/')).drop 1).reverse

def joinPath (parent name : Path) : Path :=
  if parent = [] then name else parent ++ '/' :: name

end SyncEngine
