import Mathlib.Data.List.Nodup

/-! # Moving keys of a store one at a time

A store answers each key, some keys with nothing. A step takes what one key
answers and answers it at another, telling it its new key. Run over a list of
moves whose targets are no sources, each target answers what its source did,
and each source answers nothing.
-/

namespace SyncEngine.Collections

open List

section Rekey

variable {σ κ ρ : Type} [DecidableEq κ]

/-- What one step of a re-keying does to every key's answer. -/
def RekeyStep (read : σ → κ → ρ) (empty : ρ) (moved : ρ → κ → ρ) (step : σ → κ × κ → σ) : Prop :=
  ∀ s a b p, a ≠ b →
    (read s a = empty → read (step s (a, b)) p = read s p) ∧
      (read s a ≠ empty →
        read (step s (a, b)) p =
          if p = b then moved (read s a) b else if p = a then empty else read s p)

variable {read : σ → κ → ρ} {empty : ρ} {moved : ρ → κ → ρ} {step : σ → κ × κ → σ}

theorem RekeyStep.read_other (h : RekeyStep read empty moved step) {s : σ} {a b p : κ}
    (hab : a ≠ b) (ha : p ≠ a) (hb : p ≠ b) : read (step s (a, b)) p = read s p := by
  by_cases he : read s a = empty
  · exact (h s a b p hab).1 he
  · rw [(h s a b p hab).2 he, if_neg hb, if_neg ha]

theorem RekeyStep.read_source (h : RekeyStep read empty moved step) {s : σ} {a b : κ}
    (hab : a ≠ b) : read (step s (a, b)) a = empty := by
  by_cases he : read s a = empty
  · rw [(h s a b a hab).1 he, he]
  · rw [(h s a b a hab).2 he, if_neg hab, if_pos rfl]

/-- A partial renaming of keys none of whose targets is itself renamed. -/
structure Renaming (κ : Type) where
  forward : κ → Option κ
  backward : κ → Option κ
  inverse : ∀ a b, forward a = some b ↔ backward b = some a
  apart : ∀ a b, forward a = some b → forward b = none

namespace Renaming

variable (f : Renaming κ)

omit [DecidableEq κ] in
theorem ne {a b : κ} (h : f.forward a = some b) : a ≠ b := by
  intro heq
  subst heq
  have := f.apart a a h
  rw [h] at this
  cases this

/-- What every key answers once a list of moves has run. -/
structure Ran (f : Renaming κ) (pairs : List (κ × κ)) (read : σ → κ → ρ) (empty : ρ)
    (moved : ρ → κ → ρ) (s t : σ) : Prop where
  target : ∀ p a, f.backward p = some a → a ∈ pairs.map Prod.fst → read s a ≠ empty →
    read t p = moved (read s a) p
  untouched : ∀ p a, f.backward p = some a → a ∉ pairs.map Prod.fst ∨ read s a = empty →
    read t p = read s p
  source : ∀ p, f.backward p = none → p ∈ pairs.map Prod.fst → read t p = empty
  other : ∀ p, f.backward p = none → p ∉ pairs.map Prod.fst → read t p = read s p

theorem ran_foldl (hstep : RekeyStep read empty moved step) (pairs : List (κ × κ))
    (hpairs : ∀ e ∈ pairs, f.forward e.1 = some e.2) (hnodup : (pairs.map Prod.fst).Nodup)
    (s : σ) : f.Ran pairs read empty moved s (pairs.foldl step s) := by
  induction pairs generalizing s with
  | nil => exact ⟨by simp, fun _ _ _ _ => rfl, by simp, fun _ _ _ => rfl⟩
  | cons e rest ih =>
    rcases e with ⟨a, b⟩
    have hab : f.forward a = some b := hpairs (a, b) (by simp)
    have hne := f.ne hab
    have hrest : a ∉ rest.map Prod.fst := (nodup_cons.mp hnodup).1
    have hran := ih (fun e he => hpairs e (mem_cons_of_mem _ he))
      (nodup_cons.mp hnodup).2 (step s (a, b))
    rw [foldl_cons]
    -- a key other than the two ends of this move answers as it did
    have hsame : ∀ p, p ≠ a → p ≠ b → read (step s (a, b)) p = read s p :=
      fun p ha hb => hstep.read_other hne ha hb
    have hsourceNe : ∀ p c, f.backward p = some c → c ≠ b := by
      intro p c hp hcb
      have hfc := (f.inverse c p).mpr hp
      rw [hcb, f.apart a b hab] at hfc
      cases hfc
    have htargetNe : ∀ p c, f.backward p = some c → p ≠ a := by
      intro p c hp hpa
      have hfc := f.apart c p ((f.inverse c p).mpr hp)
      rw [hpa, hab] at hfc
      cases hfc
    have htarget : ∀ p c, f.backward p = some c → c ≠ a → p ≠ b := by
      intro p c hp hca hpb
      rw [hpb, (f.inverse a b).mp hab] at hp
      exact hca (Option.some.inj hp).symm
    refine ⟨?_, ?_, ?_, ?_⟩
    · intro p c hp hc hread
      by_cases hca : c = a
      · subst hca
        have hpb : p = b := by
          have := (f.inverse c p).mpr hp
          rw [hab] at this
          exact (Option.some.inj this).symm
        subst hpb
        rw [hran.untouched p c hp (Or.inl hrest), (hstep s c p p hne).2 hread, if_pos rfl]
      have hcrest : c ∈ rest.map Prod.fst :=
        (mem_cons.mp hc).resolve_left hca
      have hsc := hsame c hca (hsourceNe p c hp)
      rw [hran.target p c hp hcrest (hsc ▸ hread), hsc]
    · intro p c hp hc
      by_cases hca : c = a
      · subst hca
        have hread : read s c = empty := hc.resolve_left (by simp)
        rw [hran.untouched p c hp (Or.inl hrest), (hstep s c b p hne).1 hread]
      have hsc := hsame c hca (hsourceNe p c hp)
      have hsp := hsame p (htargetNe p c hp) (htarget p c hp hca)
      rw [hran.untouched p c hp, hsp]
      rcases hc with hc | hc
      · exact Or.inl fun h => hc (mem_cons_of_mem _ h)
      · exact Or.inr (hsc.trans hc)
    · intro p hp hmem
      by_cases hrestp : p ∈ rest.map Prod.fst
      · exact hran.source p hp hrestp
      have hpa : p = a := (mem_cons.mp hmem).resolve_right hrestp
      rw [hran.other p hp hrestp, hpa, hstep.read_source hne]
    intro p hp hmem
    have hpa : p ≠ a := fun h => hmem (by simp [h])
    have hpb : p ≠ b := by
      intro h
      rw [h, (f.inverse a b).mp hab] at hp
      cases hp
    have hrestp : p ∉ rest.map Prod.fst := fun h => hmem (mem_cons_of_mem _ h)
    rw [hran.other p hp hrestp, hsame p hpa hpb]

end Renaming

end Rekey

end SyncEngine.Collections
