import Mathlib.Logic.Basic

/-! # Change feeds

A store stamps every row it changes with the next number of a counter, and stamps
a key that no row carries any more as retired. A replica that has applied every
change up to an anchor then asks for the changes above it. The store may be
written to between the reads a page of changes is made of: what it is read at
first bounds the anchor, and whatever lands later is stamped above it.
-/

namespace SyncEngine.Collections

/-- A store as a feed of changes sees it: the rows that carry a key, each with its
value and stamp, and the stamps of the retired keys. -/
structure Feed (κ α : Type) where
  rows : κ → α → Nat → Prop
  retired : κ → Nat → Prop
  counter : Nat

namespace Feed

variable {κ α : Type}

def Carries (f : Feed κ α) (k : κ) : Prop := ∃ a n, f.rows k a n

/-- The counter is above every stamp, and no retired key is carried. -/
structure Sound (f : Feed κ α) : Prop where
  stamped : ∀ k a n, f.rows k a n → 0 < n ∧ n ≤ f.counter
  retired : ∀ k n, f.retired k n → n ≤ f.counter
  apart : ∀ k n, f.retired k n → ¬ f.Carries k

/-- No key has two values. -/
def Functional (f : Feed κ α) : Prop :=
  ∀ k a n b m, f.rows k a n → f.rows k b m → a = b ∧ n = m

/-- Whatever changed on the way from `f` to `g` is stamped above `f`'s counter. -/
structure Tracks (f g : Feed κ α) : Prop where
  counter : f.counter ≤ g.counter
  rows : ∀ k a n, g.rows k a n → f.counter < n ∨ f.rows k a n
  gone : ∀ k, ¬ g.Carries k → (∃ n, g.retired k n ∧ f.counter < n) ∨
    ¬ f.Carries k ∧ ∀ n, f.retired k n → g.retired k n

namespace Tracks

theorem refl (f : Feed κ α) : Tracks f f where
  counter := Nat.le_refl _
  rows _ _ _ h := Or.inr h
  gone _ h := Or.inr ⟨h, fun _ hn => hn⟩

theorem trans {f g h : Feed κ α} (hfg : Tracks f g) (hgh : Tracks g h) : Tracks f h where
  counter := Nat.le_trans hfg.counter hgh.counter
  rows k a n hrow := by
    rcases hgh.rows k a n hrow with hlt | hrow
    · exact Or.inl (Nat.lt_of_le_of_lt hfg.counter hlt)
    · exact hfg.rows k a n hrow
  gone k hk := by
    rcases hgh.gone k hk with ⟨n, hn, hlt⟩ | ⟨hg, hsame⟩
    · exact Or.inl ⟨n, hn, Nat.lt_of_le_of_lt hfg.counter hlt⟩
    rcases hfg.gone k hg with ⟨n, hn, hlt⟩ | ⟨hf, hsame'⟩
    · exact Or.inl ⟨n, hsame n hn, hlt⟩
    · exact Or.inr ⟨hf, fun n hn => hsame n (hsame' n hn)⟩

end Tracks

/-- A feed seen under other names for its keys. -/
def comap {ι : Type} (f : Feed κ α) (name : ι → κ) : Feed ι α where
  rows i := f.rows (name i)
  retired i := f.retired (name i)
  counter := f.counter

variable {f g : Feed κ α} {anchor : Nat} {replica : κ → Option α}

theorem Sound.comap {ι : Type} (h : f.Sound) (name : ι → κ) :
    (f.comap name).Sound where
  stamped i := h.stamped (name i)
  retired i := h.retired (name i)
  apart i := h.apart (name i)

theorem Tracks.comap {ι : Type} (h : Tracks f g) (name : ι → κ) :
    Tracks (f.comap name) (g.comap name) where
  counter := h.counter
  rows i := h.rows (name i)
  gone i := h.gone (name i)

/-- A replica at an anchor holds what the store holds, but for changes above it. -/
def Accurate (f : Feed κ α) (anchor : Nat) (replica : κ → Option α) : Prop :=
  ∀ k, (∃ a n, f.rows k a n ∧ anchor < n) ∨ (∃ n, f.retired k n ∧ anchor < n) ∨
    ∀ a, replica k = some a ↔ ∃ n, f.rows k a n

theorem accurate_empty (hsound : f.Sound) : f.Accurate 0 fun _ => none := by
  intro k
  by_cases hk : f.Carries k
  · obtain ⟨a, n, hrow⟩ := hk
    exact Or.inl ⟨a, n, hrow, (hsound.stamped k a n hrow).1⟩
  refine Or.inr (Or.inr fun a => ?_)
  constructor
  · intro h
    cases h
  rintro ⟨n, hrow⟩
  exact absurd ⟨a, n, hrow⟩ hk

theorem Accurate.tracks
    (h : f.Accurate anchor replica) (htracks : Tracks f g) (hf : f.Functional)
    (hsound : f.Sound) (hanchor : anchor ≤ f.counter) : g.Accurate anchor replica := by
  intro k
  by_cases hk : g.Carries k
  · obtain ⟨a, n, hrow⟩ := hk
    rcases htracks.rows k a n hrow with hlt | hold
    · exact Or.inl ⟨a, n, hrow, Nat.lt_of_le_of_lt hanchor hlt⟩
    rcases h k with ⟨b, m, hb, hlt⟩ | ⟨m, hm, -⟩ | hsame
    · obtain ⟨-, rfl⟩ := hf k a n b m hold hb
      exact Or.inl ⟨a, n, hrow, hlt⟩
    · exact absurd ⟨a, n, hold⟩ (hsound.apart k m hm)
    by_cases hfresh : ∃ b m, g.rows k b m ∧ anchor < m
    · exact Or.inl hfresh
    -- every row of the key is one the replica knows
    refine Or.inr (Or.inr fun b => ?_)
    rw [hsame b]
    constructor
    · rintro ⟨m, hb⟩
      obtain ⟨rfl, rfl⟩ := hf k a n b m hold hb
      exact ⟨n, hrow⟩
    rintro ⟨m, hb⟩
    rcases htracks.rows k b m hb with hlt | hb
    · exact absurd ⟨b, m, hb, Nat.lt_of_le_of_lt hanchor hlt⟩ hfresh
    · exact ⟨m, hb⟩
  rcases htracks.gone k hk with ⟨n, hn, hlt⟩ | ⟨hgone, hretired⟩
  · exact Or.inr (Or.inl ⟨n, hn, Nat.lt_of_le_of_lt hanchor hlt⟩)
  rcases h k with ⟨b, m, hb, -⟩ | ⟨m, hm, hlt⟩ | hsame
  · exact absurd ⟨b, m, hb⟩ hgone
  · exact Or.inr (Or.inl ⟨m, hretired m hm, hlt⟩)
  refine Or.inr (Or.inr fun b => ?_)
  rw [hsame b]
  constructor
  · rintro ⟨m, hb⟩
    exact absurd ⟨b, m, hb⟩ hgone
  rintro ⟨m, hb⟩
  exact absurd ⟨b, m, hb⟩ hk

/-! ## Pages -/

/-- Whether a stamp is in the page above `floor`, up to `cutoff` if it has one. -/
def InPage (floor : Nat) (cutoff : Option Nat) (n : Nat) : Prop :=
  floor < n ∧ ∀ c, cutoff = some c → n ≤ c

/-- A page applied to a replica: its rows are read from `rowsAt`, its retired keys
from `retiredAt`. -/
structure Applies (rowsAt retiredAt : Feed κ α) (floor : Nat) (cutoff : Option Nat)
    (before after : κ → Option α) : Prop where
  updated : ∀ k a n, rowsAt.rows k a n → InPage floor cutoff n → after k = some a
  deleted : ∀ k, (∀ a n, rowsAt.rows k a n → ¬ InPage floor cutoff n) →
    (∃ n, retiredAt.retired k n ∧ InPage floor cutoff n) → after k = none
  kept : ∀ k, (∀ a n, rowsAt.rows k a n → ¬ InPage floor cutoff n) →
    (∀ n, retiredAt.retired k n → ¬ InPage floor cutoff n) → after k = before k

/-- A page keeps a replica accurate: its anchor is a number the counter had reached
before the rows of the page were read, and the page leaves no stamp out up to it. -/
theorem Accurate.page {start rowsAt retiredAt : Feed κ α} {floor : Nat}
    {cutoff : Option Nat} {before after : κ → Option α} (h : retiredAt.Accurate floor before)
    (happlies : Applies rowsAt retiredAt floor cutoff before after)
    (hanchor : anchor ≤ start.counter) (hcutoff : ∀ c, cutoff = some c → anchor = c)
    (hfirst : Tracks start rowsAt) (hsecond : Tracks rowsAt retiredAt)
    (hrows : rowsAt.Functional) (hlast : retiredAt.Functional) (hsound : retiredAt.Sound) :
    retiredAt.Accurate anchor after := by
  have hreached : anchor ≤ rowsAt.counter := Nat.le_trans hanchor hfirst.counter
  -- a stamp up to the anchor is in the page if it is above the floor
  have hpage : ∀ n, n ≤ anchor → floor < n → InPage floor cutoff n := by
    intro n hle hlt
    refine ⟨hlt, fun c hc => ?_⟩
    rw [← hcutoff c hc]
    exact hle
  intro k
  by_cases hk : retiredAt.Carries k
  · obtain ⟨a, n, hrow⟩ := hk
    by_cases hfresh : anchor < n
    · exact Or.inl ⟨a, n, hrow, hfresh⟩
    have hle : n ≤ anchor := Nat.le_of_not_lt hfresh
    have hread : rowsAt.rows k a n := by
      rcases hsecond.rows k a n hrow with hlt | hread
      · exact absurd (Nat.le_trans hle hreached) (Nat.not_le_of_lt hlt)
      · exact hread
    have hafter : after k = some a := by
      by_cases hlt : floor < n
      · exact happlies.updated k a n hread (hpage n hle hlt)
      have hout : ∀ b m, rowsAt.rows k b m → ¬ InPage floor cutoff m := by
        intro b m hb hin
        obtain ⟨-, rfl⟩ := hrows k a n b m hread hb
        exact hlt hin.1
      have hnone : ∀ m, retiredAt.retired k m → ¬ InPage floor cutoff m := by
        intro m hm
        exact absurd ⟨a, n, hrow⟩ (hsound.apart k m hm)
      rw [happlies.kept k hout hnone]
      rcases h k with ⟨b, m, hb, hm⟩ | ⟨m, hm, -⟩ | hsame
      · obtain ⟨-, rfl⟩ := hlast k a n b m hrow hb
        exact absurd hm hlt
      · exact absurd ⟨a, n, hrow⟩ (hsound.apart k m hm)
      · exact (hsame a).mpr ⟨n, hrow⟩
    refine Or.inr (Or.inr fun b => ?_)
    rw [hafter, Option.some.injEq]
    constructor
    · rintro rfl
      exact ⟨n, hrow⟩
    rintro ⟨m, hb⟩
    exact (hlast k a n b m hrow hb).1
  by_cases hretired : ∃ n, retiredAt.retired k n ∧ anchor < n
  · exact Or.inr (Or.inl hretired)
  -- no row of the page is the key's: it would have been retired since
  have hout : ∀ b m, rowsAt.rows k b m → ¬ InPage floor cutoff m := by
    intro b m hb _
    rcases hsecond.gone k hk with ⟨n, hn, hlt⟩ | ⟨hgone, -⟩
    · exact hretired ⟨n, hn, Nat.lt_of_le_of_lt hreached hlt⟩
    · exact hgone ⟨b, m, hb⟩
  have hafter : after k = none := by
    by_cases hpaged : ∃ n, retiredAt.retired k n ∧ InPage floor cutoff n
    · exact happlies.deleted k hout hpaged
    rw [happlies.kept k hout fun n hn hin => hpaged ⟨n, hn, hin⟩]
    rcases h k with ⟨b, m, hb, -⟩ | ⟨m, hm, hlt⟩ | hsame
    · exact absurd ⟨b, m, hb⟩ hk
    · have hle : m ≤ anchor := Nat.le_of_not_lt fun hgt => hretired ⟨m, hm, hgt⟩
      exact absurd ⟨m, hm, hpage m hle hlt⟩ hpaged
    cases hbefore : before k with
    | none => rfl
    | some b =>
      obtain ⟨m, hb⟩ := (hsame b).mp hbefore
      exact absurd ⟨b, m, hb⟩ hk
  refine Or.inr (Or.inr fun b => ?_)
  rw [hafter]
  constructor
  · intro hb
    cases hb
  rintro ⟨m, hb⟩
  exact absurd ⟨b, m, hb⟩ hk

theorem Accurate.exact
    (h : f.Accurate f.counter replica) (hsound : f.Sound) (k : κ) (a : α) :
    replica k = some a ↔ ∃ n, f.rows k a n := by
  rcases h k with ⟨b, n, hrow, hlt⟩ | ⟨n, hn, hlt⟩ | hsame
  · exact absurd (hsound.stamped k b n hrow).2 (Nat.not_le_of_lt hlt)
  · exact absurd (hsound.retired k n hn) (Nat.not_le_of_lt hlt)
  · exact hsame a

end Feed

end SyncEngine.Collections
