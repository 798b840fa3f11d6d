import Mathlib.Data.List.Pairwise
import Mathlib.Order.MinMax

/-! # Sets kept as runs that never touch

A set of points of a line is kept as half-open runs under their starts, in order, each
ending before the next one starts. Adding a run joins it with every run it overlaps or
touches, so the run around a point is found from any point inside it.
-/

namespace SyncEngine.Collections

open List

variable {κ : Type} [LinearOrder κ]

/-- Half-open runs, each its start and the end it stops before, in the order of the
starts. -/
abbrev Runs (κ : Type) := List (κ × κ)

namespace Runs

variable {runs : Runs κ} {n first last : κ}

/-- Whether a point is in some run. -/
def Covers (runs : Runs κ) (n : κ) : Prop := ∃ run ∈ runs, run.1 ≤ n ∧ n < run.2

/-- No run is empty, and each ends before the next one starts. -/
structure Apart (runs : Runs κ) : Prop where
  nonempty : ∀ run ∈ runs, run.1 < run.2
  apart : runs.Pairwise fun a b => a.2 < b.1

/-- The last run that starts at or before a point. -/
def lastUpTo (runs : Runs κ) (n : κ) : Option (κ × κ) :=
  (runs.filter fun run => run.1 ≤ n).getLast?

/-- The last run that starts before a point. -/
def lastBefore (runs : Runs κ) (n : κ) : Option (κ × κ) :=
  (runs.filter fun run => run.1 < n).getLast?

/-- The first run that starts between two points. -/
def firstWithin (runs : Runs κ) (lo hi : κ) : Option (κ × κ) :=
  runs.find? fun run => lo ≤ run.1 && run.1 ≤ hi

/-- Take out the run at a start. -/
def remove (runs : Runs κ) (start : κ) : Runs κ := runs.filter fun run => run.1 ≠ start

/-- Put a run in, over the run at its start. -/
def insert (runs : Runs κ) (first last : κ) : Runs κ :=
  runs.filter (fun run => run.1 < first) ++
    (first, last) :: runs.filter (fun run => first < run.1)

/-- Take out the runs that start within the run being added, moving its end on to
theirs. Each is one fewer, so as many rounds as there are runs take them all. -/
def absorb (first : κ) : Nat → Runs κ → κ → Runs κ × κ
  | 0, runs, last => (runs, last)
  | fuel + 1, runs, last =>
    match runs.firstWithin first last with
    | none => (runs, last)
    | some run => absorb first fuel (runs.remove run.1) (max last run.2)

/-- Add a run, joined with the runs it overlaps or touches. -/
def addRun (runs : Runs κ) (first last : κ) : Runs κ :=
  let joined := match runs.lastBefore first with
    | some before => if first ≤ before.2 then (before.1, max last before.2) else (first, last)
    | none => (first, last)
  let absorbed := absorb joined.1 runs.length runs joined.2
  absorbed.1.insert joined.1 absorbed.2

theorem Apart.sublist {other : Runs κ} (h : Apart runs) (hsub : other.Sublist runs) :
    Apart other :=
  ⟨fun run hrun => h.nonempty run (hsub.subset hrun), h.apart.sublist hsub⟩

theorem Apart.apart_of_ne (h : Apart runs) {a b : κ × κ} (ha : a ∈ runs) (hb : b ∈ runs)
    (hne : a ≠ b) : a.2 < b.1 ∨ b.2 < a.1 := by
  have : Std.Symm fun a b : κ × κ => a.2 < b.1 ∨ b.2 < a.1 := ⟨fun _ _ hab => hab.symm⟩
  exact (h.apart.imp Or.inl : runs.Pairwise fun a b => a.2 < b.1 ∨ b.2 < a.1).forall ha hb hne

private theorem getLast_filter (h : Apart runs) {test : κ × κ → Bool} {run : κ × κ}
    (hlast : (runs.filter test).getLast? = some run) :
    run ∈ runs ∧ test run ∧ ∀ other ∈ runs, test other → other = run ∨ other.2 < run.1 := by
  obtain ⟨before, hsplit⟩ := getLast?_eq_some_iff.mp hlast
  have hmem : run ∈ runs.filter test := by
    rw [hsplit]
    exact mem_append_right _ (mem_singleton_self run)
  refine ⟨(mem_filter.mp hmem).1, (mem_filter.mp hmem).2, fun other hother htest => ?_⟩
  have hin : other ∈ before ++ [run] := hsplit ▸ mem_filter.mpr ⟨hother, htest⟩
  rcases mem_append.mp hin with hin | hin
  · have hpair := h.apart.filter test
    rw [hsplit] at hpair
    exact Or.inr ((pairwise_append.mp hpair).2.2 other hin run (mem_singleton_self run))
  · exact Or.inl (mem_singleton.mp hin)

omit [LinearOrder κ] in
private theorem getLast_filter_eq_none {test : κ × κ → Bool}
    (hlast : (runs.filter test).getLast? = none) : ∀ other ∈ runs, test other = false := by
  intro other hother
  rw [getLast?_eq_none_iff, filter_eq_nil_iff] at hlast
  simpa using hlast other hother

theorem Apart.lastUpTo_spec (h : Apart runs) {run : κ × κ} (hlast : runs.lastUpTo n = some run) :
    run ∈ runs ∧ run.1 ≤ n := by
  obtain ⟨hrun, hbefore, -⟩ := getLast_filter h hlast
  exact ⟨hrun, of_decide_eq_true hbefore⟩

/-! ## What adding a run covers -/

theorem remove_sublist (runs : Runs κ) (start : κ) : (runs.remove start).Sublist runs :=
  filter_sublist

/-- What absorbing leaves: fewer runs, a further end, the same points covered, and no
run starting within what is added. -/
structure Absorbed (first last : κ) (runs : Runs κ) (out : Runs κ × κ) : Prop where
  sublist : out.1.Sublist runs
  le : last ≤ out.2
  covers : ∀ n, Covers out.1 n ∨ first ≤ n ∧ n < out.2 ↔ Covers runs n ∨ first ≤ n ∧ n < last
  outside : ∀ run ∈ out.1, run.1 < first ∨ out.2 < run.1

theorem firstWithin_eq_none {lo hi : κ} (h : runs.firstWithin lo hi = none) :
    ∀ run ∈ runs, run.1 < lo ∨ hi < run.1 := by
  intro run hrun
  have hnone := find?_eq_none.mp h run hrun
  simp only [Bool.and_eq_true, decide_eq_true_eq, not_and, not_le] at hnone
  rcases lt_or_ge run.1 lo with hlt | hge
  · exact Or.inl hlt
  · exact Or.inr (hnone hge)

theorem firstWithin_eq_some {lo hi : κ} {run : κ × κ} (h : runs.firstWithin lo hi = some run) :
    run ∈ runs ∧ lo ≤ run.1 ∧ run.1 ≤ hi := by
  have htest := find?_some h
  simp only [Bool.and_eq_true, decide_eq_true_eq] at htest
  exact ⟨mem_of_find?_eq_some h, htest.1, htest.2⟩

theorem absorbed_absorb {fuel : Nat} (h : Apart runs) (hfuel : runs.length ≤ fuel) (last : κ) :
    Absorbed first last runs (absorb first fuel runs last) := by
  induction fuel generalizing runs last with
  | zero =>
    have hnil : runs = [] := length_eq_zero_iff.mp (Nat.le_zero.mp hfuel)
    subst hnil
    exact ⟨List.Sublist.refl _, le_rfl, fun _ => Iff.rfl, fun run hrun => by cases hrun⟩
  | succ fuel ih =>
    unfold absorb
    cases hfound : runs.firstWithin first last with
    | none =>
      exact ⟨List.Sublist.refl _, le_rfl, fun _ => Iff.rfl, firstWithin_eq_none hfound⟩
    | some run =>
      obtain ⟨hrun, hlo, hhi⟩ := firstWithin_eq_some hfound
      have hfewer : (runs.remove run.1).length < runs.length := by
        refine lt_of_le_of_ne (remove_sublist runs run.1).length_le fun heq => ?_
        have hall := length_filter_eq_length_iff.mp heq run hrun
        simp at hall
      have hrest := ih (h.sublist (remove_sublist runs run.1)) (by omega) (max last run.2)
      refine ⟨hrest.sublist.trans (remove_sublist runs run.1), (le_max_left _ _).trans hrest.le,
        fun n => (hrest.covers n).trans ?_, hrest.outside⟩
      -- the run taken out and the one added reach the same points as their join
      have hsplit : Covers runs n ↔ Covers (runs.remove run.1) n ∨ run.1 ≤ n ∧ n < run.2 := by
        unfold Covers
        constructor
        · rintro ⟨other, hother, hin⟩
          by_cases heq : other = run
          · exact Or.inr (heq ▸ hin)
          refine Or.inl ⟨other, mem_filter.mpr ⟨hother, decide_eq_true fun hstart => ?_⟩, hin⟩
          rcases h.apart_of_ne hother hrun heq with hlt | hlt
          · exact absurd (hlt.trans (hstart ▸ h.nonempty other hother)) (lt_irrefl _)
          · exact absurd (hlt.trans (hstart ▸ h.nonempty run hrun)) (lt_irrefl _)
        rintro (⟨other, hother, hin⟩ | hin)
        · exact ⟨other, (mem_filter.mp hother).1, hin⟩
        · exact ⟨run, hrun, hin⟩
      rw [hsplit, or_assoc]
      refine or_congr_right ?_
      constructor
      · rintro ⟨hfirst, hlt⟩
        rcases lt_max_iff.mp hlt with hlt | hlt
        · exact Or.inr ⟨hfirst, hlt⟩
        rcases lt_or_ge n run.1 with hbefore | hafter
        · exact Or.inr ⟨hfirst, lt_of_lt_of_le hbefore hhi⟩
        · exact Or.inl ⟨hafter, hlt⟩
      rintro (⟨hafter, hlt⟩ | ⟨hfirst, hlt⟩)
      · exact ⟨hlo.trans hafter, lt_max_iff.mpr (Or.inr hlt)⟩
      · exact ⟨hfirst, lt_max_iff.mpr (Or.inl hlt)⟩

theorem apart_insert (h : Apart runs) (hlt : first < last) (hbefore : ∀ run ∈ runs, run.1 < first → run.2 < first)
    (hafter : ∀ run ∈ runs, first ≤ run.1 → last < run.1) : Apart (runs.insert first last) := by
  constructor
  · intro run hrun
    rcases mem_append.mp hrun with hrun | hrun
    · exact h.nonempty run (mem_filter.mp hrun).1
    rcases mem_cons.mp hrun with rfl | hrun
    · exact hlt
    · exact h.nonempty run (mem_filter.mp hrun).1
  refine pairwise_append.mpr ⟨h.apart.filter _, pairwise_cons.mpr ⟨?_, h.apart.filter _⟩, ?_⟩
  · intro run hrun
    obtain ⟨hmem, hstart⟩ := mem_filter.mp hrun
    exact hafter run hmem (of_decide_eq_true hstart).le
  intro a ha b hb
  obtain ⟨hmem, hstart⟩ := mem_filter.mp ha
  have hend := hbefore a hmem (of_decide_eq_true hstart)
  rcases mem_cons.mp hb with rfl | hb
  · exact hend
  · exact hend.trans (of_decide_eq_true (mem_filter.mp hb).2)

theorem covers_insert (hfresh : ∀ run ∈ runs, run.1 ≠ first) :
    Covers (runs.insert first last) n ↔ Covers runs n ∨ first ≤ n ∧ n < last := by
  unfold Covers insert
  simp only [mem_append, mem_cons, mem_filter, decide_eq_true_eq]
  constructor
  · rintro ⟨run, ⟨hrun, -⟩ | rfl | ⟨hrun, -⟩, hin⟩
    · exact Or.inl ⟨run, hrun, hin⟩
    · exact Or.inr hin
    · exact Or.inl ⟨run, hrun, hin⟩
  rintro (⟨run, hrun, hin⟩ | hin)
  · rcases lt_or_gt_of_ne (hfresh run hrun) with hlt | hgt
    · exact ⟨run, Or.inl ⟨hrun, hlt⟩, hin⟩
    · exact ⟨run, Or.inr (Or.inr ⟨hrun, hgt⟩), hin⟩
  · exact ⟨(first, last), Or.inr (Or.inl rfl), hin⟩

/-- A run added joins those it meets: the runs stay apart and cover its points too. -/
theorem addRun_spec (h : Apart runs) (hlt : first < last) :
    Apart (runs.addRun first last) ∧
      ∀ n, Covers (runs.addRun first last) n ↔ Covers runs n ∨ first ≤ n ∧ n < last := by
  -- the run before, when it reaches, is added along
  have hjoined : ∃ first' last', first' < last' ∧
      runs.addRun first last = (absorb first' runs.length runs last').1.insert first'
        (absorb first' runs.length runs last').2 ∧
      (∀ run ∈ runs, run.1 < first' → run.2 < first') ∧
      ∀ n, Covers runs n ∨ first' ≤ n ∧ n < last' ↔ Covers runs n ∨ first ≤ n ∧ n < last := by
    unfold addRun
    cases hbefore : runs.lastBefore first with
    | none =>
      refine ⟨first, last, hlt, rfl, fun run hrun hstart => ?_, fun _ => Iff.rfl⟩
      exact absurd hstart (of_decide_eq_false (getLast_filter_eq_none hbefore run hrun))
    | some before =>
      obtain ⟨hmem, hstart, hothers⟩ := getLast_filter h hbefore
      have hstart : before.1 < first := of_decide_eq_true hstart
      dsimp only
      split
      · rename_i hreaches
        refine ⟨before.1, max last before.2, (hstart.trans hlt).trans_le (le_max_left _ _), rfl,
          fun run hrun hlo => ?_, fun n => ?_⟩
        · rcases hothers run hrun (decide_eq_true (hlo.trans hstart)) with rfl | hend
          · exact absurd hlo (lt_irrefl _)
          · exact hend
        constructor
        · rintro (hcovers | ⟨hlo, hhi⟩)
          · exact Or.inl hcovers
          rcases lt_or_ge n before.2 with hin | hout
          · exact Or.inl ⟨before, hmem, hlo, hin⟩
          rcases lt_max_iff.mp hhi with hhi | hhi
          · exact Or.inr ⟨hreaches.trans hout, hhi⟩
          · exact absurd hhi (not_lt.mpr hout)
        rintro (hcovers | ⟨hlo, hhi⟩)
        · exact Or.inl hcovers
        · exact Or.inr ⟨hstart.le.trans hlo, lt_max_iff.mpr (Or.inl hhi)⟩
      rename_i hshort
      refine ⟨first, last, hlt, rfl, fun run hrun hlo => ?_, fun _ => Iff.rfl⟩
      rcases hothers run hrun (decide_eq_true hlo) with rfl | hend
      · exact not_le.mp hshort
      · exact hend.trans hstart
  obtain ⟨first', last', hlt', heq, hbefore, hsame⟩ := hjoined
  have habsorbed := @absorbed_absorb κ _ runs first' runs.length h le_rfl last'
  have hafter : ∀ run ∈ (absorb first' runs.length runs last').1, first' ≤ run.1 →
      (absorb first' runs.length runs last').2 < run.1 := fun run hrun hlo =>
    (habsorbed.outside run hrun).resolve_left (not_lt.mpr hlo)
  have hfresh : ∀ run ∈ (absorb first' runs.length runs last').1, run.1 ≠ first' := by
    rintro run hrun rfl
    exact absurd ((hlt'.trans_le habsorbed.le).trans (hafter run hrun le_rfl)) (lt_irrefl _)
  rw [heq]
  refine ⟨apart_insert (h.sublist habsorbed.sublist) (hlt'.trans_le habsorbed.le) ?_ hafter,
    fun n => ?_⟩
  · exact fun run hrun => hbefore run (habsorbed.sublist.subset hrun)
  · rw [covers_insert hfresh, habsorbed.covers, hsame]

end Runs

end SyncEngine.Collections
