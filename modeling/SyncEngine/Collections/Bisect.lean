import Mathlib.Data.List.Basic

/-! # Bisecting what holds up to a point

A bisection keeps the last place it found a predicate to hold and halves what is after it.
What it gives where the predicate holds here and there is told by the places it looks at.
-/

namespace SyncEngine.Collections

variable {p : Nat → Bool} {fuel base size last : Nat}

/-- Where a bisection of some places from a base on ends, with rounds enough. -/
def narrow (p : Nat → Bool) : Nat → Nat → Nat → Nat
  | 0, base, _ => base
  | fuel + 1, base, size =>
    if size ≤ 1 then base
    else
      let half := size / 2
      let mid := base + half
      narrow p fuel (if p mid then mid else base) (size - half)

/-- The first of some places where a predicate fails, if it holds at those before and nowhere
after. -/
def partitionPoint (p : Nat → Bool) (n : Nat) : Nat :=
  if n = 0 then 0
  else
    let base := narrow p n 0 n
    if p base then base + 1 else base

/-- The places a bisection looks at where a predicate holds up to the last place and no further. -/
def probes (last : Nat) : Nat → Nat → Nat → List Nat
  | 0, _, _ => []
  | fuel + 1, base, size =>
    if size ≤ 1 then []
    else
      let half := size / 2
      let mid := base + half
      mid :: probes last fuel (if mid ≤ last then mid else base) (size - half)

theorem narrow_bounds (hpos : 0 < size) : base ≤ narrow p fuel base size ∧ narrow p fuel base size < base + size := by
  induction fuel generalizing base size with
  | zero => exact ⟨Nat.le_refl _, Nat.lt_add_of_pos_right hpos⟩
  | succ fuel ih =>
    rw [narrow]
    split
    · exact ⟨Nat.le_refl _, Nat.lt_add_of_pos_right hpos⟩
    rename_i hsize
    dsimp only
    have hleft : 0 < size - size / 2 := by omega
    split
    · obtain ⟨hge, hlt⟩ := @ih (base + size / 2) _ hleft
      exact ⟨by omega, by omega⟩
    obtain ⟨hge, hlt⟩ := @ih base _ hleft
    exact ⟨hge, by omega⟩

/-- Where the predicate holds at the base, it holds where the bisection ends. -/
theorem narrow_holds (hbase : p base) : p (narrow p fuel base size) := by
  induction fuel generalizing base size with
  | zero => exact hbase
  | succ fuel ih =>
    rw [narrow]
    split
    · exact hbase
    dsimp only
    split
    · rename_i hmid
      exact ih hmid
    · exact ih hbase

/-- A bisection ends at the last place a predicate holds just where the predicate holds at
each place it looks at on the way there. -/
theorem narrow_eq_iff (hfuel : size ≤ fuel) (hge : base ≤ last) (hlt : last < base + size)
    (hlast : p last) (hafter : ∀ i, last < i → i < base + size → p i = false) :
    narrow p fuel base size = last ↔ ∀ mid ∈ probes last fuel base size, mid ≤ last → p mid := by
  induction fuel generalizing base size with
  | zero => omega
  | succ fuel ih =>
    rw [narrow, probes]
    split
    · rename_i hsize
      have hat : base = last := by omega
      exact ⟨(fun _ _ hnone => nomatch hnone), fun _ => hat⟩
    rename_i hsize
    dsimp only
    have hrest : size - size / 2 ≤ fuel := by omega
    rw [List.forall_mem_cons]
    rcases Nat.lt_or_ge last (base + size / 2) with hbefore | hbehind
    · have hmid : p (base + size / 2) = false := hafter _ hbefore (by omega)
      have hnot : ¬base + size / 2 ≤ last := Nat.not_le.mpr hbefore
      have hagain := ih hrest hge (by omega) fun i hi hbound => hafter i hi (by omega)
      rw [if_neg (by rw [hmid]; exact Bool.false_ne_true), if_neg hnot, hagain]
      exact (and_iff_right fun hle => absurd hle hnot).symm
    rw [if_pos hbehind]
    cases hmid : p (base + size / 2) with
    | true =>
      have hagain := @ih (base + size / 2) _ hrest hbehind (by omega)
        fun i hi hbound => hafter i hi (by omega)
      rw [if_pos rfl, hagain]
      exact (and_iff_right fun _ => rfl).symm
    | false =>
      rw [if_neg Bool.false_ne_true]
      -- the last place is after this one, and is looked for before it
      refine ⟨fun hend => ?_, fun hall => absurd (hall.1 hbehind) Bool.false_ne_true⟩
      have hne : base + size / 2 ≠ last := fun heq => by
        rw [heq, hlast] at hmid
        cases hmid
      have hends := (@narrow_bounds p fuel base _ (by omega : 0 < size - size / 2)).2
      omega

/-- The partition point is behind the last place a predicate holds just where it holds at
each place looked at on the way there. -/
theorem partitionPoint_eq_iff {n : Nat} (hfirst : p 0) (hlt : last < n) (hlast : p last)
    (hafter : ∀ i, last < i → i < n → p i = false) :
    partitionPoint p n = last + 1 ↔ ∀ mid ∈ probes last n 0 n, mid ≤ last → p mid := by
  have hn : n ≠ 0 := Nat.ne_of_gt (Nat.zero_lt_of_lt hlt)
  have hholds := @narrow_holds p n 0 n hfirst
  unfold partitionPoint
  rw [if_neg hn]
  rw [if_pos hholds, ← narrow_eq_iff (Nat.le_refl n) (Nat.zero_le last) (by omega) hlast
    fun i hi hbound => hafter i hi (by omega)]
  exact Nat.succ_inj

/-- A partition point is behind a place the predicate holds at, where it holds at the first. -/
theorem partitionPoint_behind {n : Nat} (hpos : 0 < n) (hfirst : p 0) :
    ∃ i < n, partitionPoint p n = i + 1 ∧ p i := by
  have hholds := @narrow_holds p n 0 n hfirst
  have hlt := (@narrow_bounds p n 0 n hpos).2
  refine ⟨narrow p n 0 n, by omega, ?_, hholds⟩
  unfold partitionPoint
  rw [if_neg (Nat.ne_of_gt hpos)]
  exact if_pos hholds

end SyncEngine.Collections
