import Mathlib.Data.List.Basic

/-! # Folds that skip

A fold over a list agrees with one over the part of it that matters, where the
rest is ignored, adds nothing, or is not noted for the other fold to run over.
-/

namespace SyncEngine.Collections

open List

variable {α β : Type} {xs : List α} {keep : α → Bool} {ε : Type} {ys : List β} {f : α → Option β} {γ : Type}
    {r : Except ε α} {s : Except ε β} {g : β → γ}

theorem foldl_id {f : β → α → β} (h : ∀ x ∈ xs, ∀ acc, f acc x = acc) (acc : β) : xs.foldl f acc = acc := by
  induction xs with
  | nil => rfl
  | cons x xs ih =>
    rw [foldl_cons, h x (by simp) acc]
    exact ih fun y hy => h y (by simp [hy])

theorem foldl_filter_of_id {step : β → α → β} (xs : List α)
    (h : ∀ x ∈ xs, keep x = false → ∀ acc, step acc x = acc) (init : β) :
    (xs.filter keep).foldl step init = xs.foldl step init := by
  rw [foldl_filter]
  refine foldl_ext _ _ _ fun acc x hx => ?_
  cases hk : keep x with
  | true => rfl
  | false => simp [h x hx hk acc]

/-- What every dropped element maps to nothing may be dropped before mapping. -/
theorem flatMap_filter_of_nil {f : α → List β} (xs : List α)
    (h : ∀ x ∈ xs, keep x = false → f x = []) : (xs.filter keep).flatMap f = xs.flatMap f := by
  induction xs with
  | nil => rfl
  | cons x xs ih =>
    have hrest := ih fun y hy => h y (mem_cons_of_mem _ hy)
    cases hk : keep x with
    | true => simp [hk, hrest]
    | false => simp [hk, hrest, h x (by simp) hk]

/-- Two folds stay related where one runs over what the other's elements note,
and every step of the other with nothing noted changes nothing. -/
theorem foldl_noted {σ τ : Type} {R : σ → τ → Prop} {note : α → Option β} {f : σ → β → σ} {g : τ → α → τ}
    (hskip : ∀ a ∈ xs, keep a = false ∨ note a = none → ∀ s t, R s t → g t a = t)
    (hstep : ∀ a ∈ xs, keep a → ∀ x, note a = some x → ∀ s t, R s t → R (f s x) (g t a))
    {s : σ} {t : τ} (h : R s t) :
    R (((xs.filter keep).filterMap note).foldl f s) (xs.foldl g t) := by
  induction xs generalizing s t with
  | nil => exact h
  | cons a xs ih =>
    have hrest := @ih (fun a ha => hskip a (mem_cons_of_mem _ ha))
      (fun a ha => hstep a (mem_cons_of_mem _ ha))
    rw [foldl_cons]
    cases hkeep : keep a with
    | false =>
      rw [hskip a (by simp) (Or.inl hkeep) s t h]
      simpa [hkeep] using hrest h
    | true =>
      cases hnote : note a with
      | none =>
        rw [hskip a (by simp) (Or.inr hnote) s t h]
        simpa [hkeep, hnote] using hrest h
      | some x =>
        have hnext := hstep a (by simp) hkeep x hnote s t h
        simpa [hkeep, hnote] using hrest hnext

/-- A map that may fail and did not has a result for each element, and no other. -/
theorem mapM_ok {f : α → Except ε β} (h : xs.mapM f = .ok ys) :
    (∀ x ∈ xs, ∃ y ∈ ys, f x = .ok y) ∧ ∀ y ∈ ys, ∃ x ∈ xs, f x = .ok y := by
  induction xs generalizing ys with
  | nil =>
    cases h
    exact ⟨nofun, nofun⟩
  | cons x xs ih =>
    rw [mapM_cons] at h
    cases hx : f x with
    | error e =>
      rw [hx] at h
      cases h
    | ok y =>
      cases hrest : xs.mapM f with
      | error e =>
        rw [hx, hrest] at h
        cases h
      | ok ys' =>
        rw [hx, hrest] at h
        cases h
        obtain ⟨hto, hfrom⟩ := ih hrest
        constructor
        · intro z hz
          rcases mem_cons.mp hz with rfl | hz
          · exact ⟨y, mem_cons_self, hx⟩
          obtain ⟨w, hw, heq⟩ := hto z hz
          exact ⟨w, mem_cons_of_mem _ hw, heq⟩
        intro w hw
        rcases mem_cons.mp hw with rfl | hw
        · exact ⟨x, mem_cons_self, hx⟩
        obtain ⟨z, hz, heq⟩ := hfrom w hw
        exact ⟨z, mem_cons_of_mem _ hz, heq⟩

theorem mapM_eq_map {g : α → β} (h : ∀ x ∈ xs, f x = some (g x)) :
    xs.mapM f = some (xs.map g) := by
  induction xs with
  | nil => rfl
  | cons x xs ih =>
    obtain ⟨hx, hrest⟩ := forall_mem_cons.mp h
    rw [mapM_cons, hx, ih hrest]
    rfl

/-- Results alike in what a function tells of them, taken further by steps that keep them alike. -/
theorem map_bind_congr {δ : Type} {s : Except ε α} {f : α → β} {next next' : α → Except ε γ} {g : γ → δ}
    (h : r.map f = s.map f) (hnext : ∀ x y, f x = f y → (next x).map g = (next' y).map g) :
    (r >>= next).map g = (s >>= next').map g := by
  cases r with
  | error e =>
    cases s with
    | error e' =>
      cases h
      rfl
    | ok y => cases h
  | ok x =>
    cases s with
    | error e' => cases h
    | ok y => exact hnext x y (Except.ok.inj h)

theorem ok_of_map_eq {f : α → γ} (h : r.map f = s.map g) {y : β} (hs : s = .ok y) : ∃ x, r = .ok x ∧ f x = g y := by
  subst hs
  cases r with
  | error e => cases h
  | ok x => exact ⟨x, rfl, Except.ok.inj h⟩

theorem error_of_map_eq {f : α → γ} (h : r.map f = s.map g) {e : ε} (hs : s = .error e) : r = .error e := by
  subst hs
  cases r with
  | error e' =>
    cases h
    rfl
  | ok x => cases h

end SyncEngine.Collections
