import Mathlib.Data.DFinsupp.WellFounded

/-! # Loops that go down in tiers

A loop may keep a number from growing without making it smaller. It still ends
when each step that leaves the number alone also leaves some part of the state
alone and lowers, over that part, a finite vector of levels: the levels before
some index stay as they are and the level at it goes down.
-/

namespace SyncEngine.Collections

section Tiers

variable {σ κ β : Type} [Preorder β] [WellFoundedLT β] {step : σ → σ → Prop}

/-- One step of such a loop. -/
inductive Descends (major : σ → Nat) (part : σ → κ) (width : κ → Nat)
    (level : σ → Nat → β) (s' s : σ) : Prop where
  | major (h : major s' < major s)
  | level (same : part s' = part s) (le : major s' ≤ major s) (i : Nat) (hi : i < width (part s))
      (above : ∀ j < i, level s' j = level s j) (lower : level s' i < level s i)

theorem wellFounded_of_descends (major : σ → Nat) (part : σ → κ) (width : κ → Nat) (level : σ → Nat → β)
    (h : ∀ s' s, step s' s → Descends major part width level s' s) : WellFounded step := by
  have hacc : ∀ (n : Nat) (k : κ) (m : Lex (Fin (width k) → β)) (s : σ), major s ≤ n →
      part s = k → toLex (fun i : Fin (width k) => level s i) = m → Acc step s := by
    intro n
    induction n using Nat.strong_induction_on with
    | _ n ihn =>
      intro k m
      induction m using WellFoundedLT.induction with
      | _ m ihm =>
        intro s hmajor hpart hlevel
        refine Acc.intro s fun s' hstep => ?_
        cases h s' s hstep with
        | major hlt =>
          exact ihn (major s') (by omega) (part s') _ s' le_rfl rfl rfl
        | level same le i hi above lower =>
          subst hpart
          refine ihm (toLex fun i : Fin (width (part s)) => level s' i) ?_ s' (by omega)
            same rfl
          rw [← hlevel]
          exact ⟨⟨i, hi⟩, fun j hj => above j hj, lower⟩
  exact ⟨fun s => hacc (major s) (part s) _ s le_rfl rfl rfl⟩

end Tiers

end SyncEngine.Collections
