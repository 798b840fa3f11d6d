import Mathlib.Algebra.Group.Nat.Defs
import Mathlib.Data.Finset.Basic
import SyncEngine.Collections.Machine

/-! # The reconcile debt

A pass over the materialized containers is owed while a counter is not zero. Every mark raises the
counter, a pass clears the value it read if that is still what the counter holds, and both leave a
write of the saved flag behind, which takes effect when its task reaches the writer lock. Marks,
passes and writes may fall between one another in any order.
-/

namespace SyncEngine.Live

open List SyncEngine.Collections

variable {C : Type} [DecidableEq C]

inductive Phase (C : Type) where
  /-- The debt is read, the container set is not. -/
  | owedRead
  | listing (containers : Finset C)
  | converged (containers : Finset C)
deriving DecidableEq

structure Pass (C : Type) where
  owed : Nat
  phase : Phase C
  /-- The containers it read, less those reported anew since. A fact of the run, not of the code. -/
  covers : Finset C
  /-- Whether another pass cleared a debt since this one read it. A fact of the run. -/
  stale : Bool
deriving DecidableEq

namespace Pass

def reportedAnew (pass : Pass C) (added : Finset C) : Pass C := { pass with covers := pass.covers \ added }

def cleared (pass : Pass C) : Pass C := { pass with stale := true }

end Pass

structure System (C : Type) where
  pendingReconcile : Nat
  saved : Option Bool
  /-- The writes of the flag whose tasks have not reached the lock, oldest first. -/
  writes : List Bool
  materializedContainers : Finset C
  /-- The calls that have yet to raise the counter, each with the containers its report added. -/
  marks : List (Finset C)
  passes : List (Pass C)
  /-- The containers reported for the first time, once the report has raised the counter. A fact of
  the run, as is which of them a pass listed that read the set after the report and converged. -/
  reported : Finset C
  listed : Finset C
deriving DecidableEq

namespace System

def boot (saved : Option Bool) (containers : Finset C) : System C where
  pendingReconcile := if saved.getD false then 1 else 0
  saved := saved
  writes := []
  materializedContainers := containers
  marks := []
  passes := []
  reported := ∅
  listed := ∅

/-- Raise the counter, which wraps at 64 bits. Where a debt is already known nothing is written. -/
def markPendingReconcile (s : System C) : System C :=
  let raised := { s with pendingReconcile := (s.pendingReconcile + 1) % 2 ^ 64 }
  if 0 < s.pendingReconcile then raised else { raised with writes := s.writes ++ [true] }

/-- Clear the debt a pass read, and only that one. -/
def clearPendingReconcile (owed : Nat) (s : System C) : System C :=
  if owed = 0 ∨ s.pendingReconcile ≠ owed then s
  else { s with
    pendingReconcile := 0
    writes := s.writes ++ [false]
    passes := s.passes.map Pass.cleared }

/-- Replace the reported set, and owe a pass for what it adds. -/
def setMaterializedContainers (root : C) (ids : Finset C) (s : System C) : System C :=
  let parsed := ids.erase root
  let added := parsed \ s.materializedContainers
  { s with
    materializedContainers := parsed
    marks := if added = ∅ then s.marks else s.marks ++ [added]
    passes := s.passes.map fun pass => pass.reportedAnew added
    reported := s.reported \ added
    listed := s.listed \ added }

/-- A pass reads the containers it is to list, the root always among them. -/
def readContainers (root : C) (pass : Pass C) (s : System C) : Pass C :=
  let containers := insert root s.materializedContainers
  { pass with phase := .listing containers, covers := containers }

end System

inductive Move (C : Type) where
  | report (ids : Finset C)
  | failApply
  | mark (call : Nat)
  | beginPass
  | readContainers (pass : Nat)
  | relisted (pass : Nat) (converged : Bool)
  | clear (pass : Nat)
  | write (task : Nat)

namespace System

def step (root : C) : Move C → System C → Option (System C)
  | .report ids, s => some (s.setMaterializedContainers root ids)
  | .failApply, s => some { s with marks := s.marks ++ [∅] }
  | .mark call, s =>
    (s.marks[call]?).map fun added =>
      markPendingReconcile { s with marks := s.marks.eraseIdx call, reported := s.reported ∪ added }
  | .beginPass, s => some { s with passes := s.passes ++ [⟨s.pendingReconcile, .owedRead, ∅, false⟩] }
  | .readContainers k, s =>
    match s.passes[k]? with
    | some pass =>
      match pass.phase with
      | .owedRead => some { s with passes := s.passes.set k (s.readContainers root pass) }
      | _ => none
    | none => none
  | .relisted k converged, s =>
    match s.passes[k]? with
    | some pass =>
      match pass.phase with
      | .listing containers =>
        if converged then
          some { s with
            passes := s.passes.set k { pass with phase := .converged containers }
            listed := s.listed ∪ pass.covers }
        else some { s with passes := s.passes.eraseIdx k, marks := s.marks ++ [∅] }
      | _ => none
    | none => none
  | .clear k, s =>
    match s.passes[k]? with
    | some pass =>
      match pass.phase with
      | .converged _ => some (clearPendingReconcile pass.owed { s with passes := s.passes.eraseIdx k })
      | _ => none
    | none => none
  | .write task, s =>
    (s.writes[task]?).map fun pending => { s with saved := some pending, writes := s.writes.eraseIdx task }

end System

def machine (root : C) (saved : Option Bool) (containers : Finset C) : Machine (System C) (Move C) where
  start := System.boot saved containers
  step := System.step root

/-- With no write outstanding the saved flag is the debt, and a container reported for the first
time and still reported is listed or a pass is owed. -/
def System.DebtKept (s : System C) : Prop :=
  (s.writes = [] → (s.saved.getD false = true ↔ s.pendingReconcile ≠ 0)) ∧
    ∀ c ∈ s.reported, c ∈ s.materializedContainers → c ∈ s.listed ∨ s.pendingReconcile ≠ 0

instance (s : System C) : Decidable s.DebtKept := inferInstanceAs (Decidable (_ ∧ _))

/-- The moves that keep the debt. The last write asked for does not overtake an opposite one, no pass
clears a debt once another has cleared since it read its own, and the counter does not wrap. -/
def Orderly (s : System C) : Move C → Prop
  | .write task => ∀ pending ∈ s.writes[task]?, task + 1 = s.writes.length → ∀ other ∈ s.writes, other = pending
  | .clear k => ∀ pass ∈ s.passes[k]?, pass.owed ≠ 0 → s.pendingReconcile = pass.owed → pass.stale = false
  | .mark _ => s.pendingReconcile + 1 < 2 ^ 64
  | _ => True

instance (s : System C) (move : Move C) : Decidable (Orderly s move) := by
  cases move <;> unfold Orderly <;> infer_instance

/-! ## What a run keeps -/

namespace System

def unlisted (s : System C) : Finset C := (s.reported ∩ s.materializedContainers) \ s.listed

theorem mem_unlisted {s : System C} {c : C} :
    c ∈ s.unlisted ↔ (c ∈ s.reported ∧ c ∈ s.materializedContainers) ∧ c ∉ s.listed := by
  unfold unlisted
  rw [Finset.mem_sdiff, Finset.mem_inter]

/-- What a pass that would clear the debt has listed of what is owed. -/
def Listed (unlisted : Finset C) (pass : Pass C) : Prop :=
  match pass.phase with
  | .owedRead => True
  | .listing _ => unlisted ⊆ pass.covers
  | .converged _ => unlisted = ∅

/-- A pass no other cleared behind read a debt that has only grown since, and where it has not,
lists all that is owed. -/
def PassKept (debt : Nat) (unlisted : Finset C) (pass : Pass C) : Prop :=
  pass.stale = false → pass.owed ≤ debt ∧ (debt = pass.owed → Listed unlisted pass)

structure Sound (s : System C) : Prop where
  /-- The last write asked for, or the file where there is none, tells the debt. -/
  flag : s.writes.getLast?.getD (s.saved.getD false) = decide (s.pendingReconcile ≠ 0)
  owed : ∀ c ∈ s.unlisted, s.pendingReconcile ≠ 0
  passes : ∀ pass ∈ s.passes, PassKept s.pendingReconcile s.unlisted pass

theorem sound_boot (saved : Option Bool) (containers : Finset C) : (boot saved containers).Sound where
  flag := by
    cases saved with
    | none => rfl
    | some pending => cases pending <;> rfl
  owed c hc := by
    obtain ⟨⟨hreported, -⟩, -⟩ := mem_unlisted.mp hc
    exact absurd hreported (Finset.notMem_empty c)
  passes _ h := absurd h not_mem_nil

variable {unlisted fewer : Finset C} {pass : Pass C} {debt : Nat}

omit [DecidableEq C] in
theorem Listed.mono (h : Listed unlisted pass) (hsub : fewer ⊆ unlisted) :
    Listed fewer pass := by
  unfold Listed at h ⊢
  cases hphase : pass.phase with
  | owedRead => trivial
  | listing containers =>
    rw [hphase] at h
    exact hsub.trans h
  | converged containers =>
    rw [hphase] at h
    have hempty : unlisted = ∅ := h
    exact Finset.subset_empty.mp (hempty ▸ hsub)

omit [DecidableEq C] in
theorem PassKept.mono
    (h : PassKept debt unlisted pass) (hsub : fewer ⊆ unlisted) : PassKept debt fewer pass := fun hfresh =>
  ⟨(h hfresh).1, fun hdebt => ((h hfresh).2 hdebt).mono hsub⟩

omit [DecidableEq C] in
theorem PassKept.raise {more : Finset C} (h : PassKept debt unlisted pass) :
    PassKept (debt + 1) more pass := by
  intro hfresh
  have hle := (h hfresh).1
  exact ⟨Nat.le_succ_of_le hle, fun heq => absurd heq (ne_of_gt (Nat.lt_succ_of_le hle))⟩

section Steps

variable {root : C} {s t : System C}

theorem Sound.report (h : s.Sound) (ids : Finset C) : (s.setMaterializedContainers root ids).Sound := by
  have hsub : (s.setMaterializedContainers root ids).unlisted ⊆ s.unlisted \ (ids.erase root \ s.materializedContainers) := by
    intro c hc
    obtain ⟨⟨hreported, hheld⟩, hlisted⟩ := mem_unlisted.mp hc
    obtain ⟨hreported, hold⟩ := Finset.mem_sdiff.mp hreported
    have hkept : c ∈ s.materializedContainers := by
      by_contra hnew
      exact hold (Finset.mem_sdiff.mpr ⟨hheld, hnew⟩)
    have hunlisted : c ∉ s.listed := fun hin => hlisted (Finset.mem_sdiff.mpr ⟨hin, hold⟩)
    exact Finset.mem_sdiff.mpr ⟨mem_unlisted.mpr ⟨⟨hreported, hkept⟩, hunlisted⟩, hold⟩
  have hfewer := hsub.trans Finset.sdiff_subset
  refine ⟨h.flag, fun c hc => h.owed c (hfewer hc), ?_⟩
  intro pass hpass
  obtain ⟨old, hold, rfl⟩ := mem_map.mp hpass
  intro hfresh
  obtain ⟨hle, hlisted⟩ := h.passes old hold hfresh
  refine ⟨hle, fun hdebt => ?_⟩
  have hbefore := hlisted hdebt
  unfold Listed Pass.reportedAnew at *
  cases hphase : old.phase with
  | owedRead => trivial
  | listing containers =>
    rw [hphase] at hbefore
    exact fun c hc => Finset.mem_sdiff.mpr
      ⟨hbefore (hfewer hc), (Finset.mem_sdiff.mp (hsub hc)).2⟩
  | converged containers =>
    rw [hphase] at hbefore
    have hempty : s.unlisted = ∅ := hbefore
    exact Finset.subset_empty.mp (hempty ▸ hfewer)

theorem Sound.mark (h : s.Sound) (marks : List (Finset C)) (added : Finset C) (hroom : s.pendingReconcile + 1 < 2 ^ 64) :
    (markPendingReconcile { s with marks := marks, reported := s.reported ∪ added }).Sound := by
  have hraised : (s.pendingReconcile + 1) % 2 ^ 64 = s.pendingReconcile + 1 := Nat.mod_eq_of_lt hroom
  unfold markPendingReconcile
  rw [hraised]
  by_cases hknown : 0 < s.pendingReconcile
  · rw [if_pos hknown]
    refine ⟨?_, fun _ _ => Nat.succ_ne_zero _, fun pass hpass => (h.passes pass hpass).raise⟩
    have hflag := h.flag
    rw [decide_eq_true hknown.ne'] at hflag
    exact hflag.trans (decide_eq_true (Nat.succ_ne_zero _)).symm
  rw [if_neg hknown]
  refine ⟨?_, fun _ _ => Nat.succ_ne_zero _, fun pass hpass => (h.passes pass hpass).raise⟩
  rw [getLast?_append_of_ne_nil _ (cons_ne_nil _ _)]
  exact (decide_eq_true (Nat.succ_ne_zero _)).symm

theorem Sound.clear (h : s.Sound) {owed : Nat} (hempty : owed ≠ 0 → s.pendingReconcile = owed → s.unlisted = ∅) :
    (clearPendingReconcile owed s).Sound := by
  unfold clearPendingReconcile
  by_cases hkeep : owed = 0 ∨ s.pendingReconcile ≠ owed
  · rw [if_pos hkeep]
    exact h
  rw [if_neg hkeep]
  rw [not_or, ne_eq, not_not] at hkeep
  have hnone := hempty hkeep.1 hkeep.2
  refine ⟨?_, ?_, ?_⟩
  · dsimp only
    rw [getLast?_append_of_ne_nil _ (cons_ne_nil _ _)]
    rfl
  · intro c hc
    have hin : c ∈ s.unlisted := hc
    rw [hnone] at hin
    exact absurd hin (Finset.notMem_empty c)
  intro pass hpass hfresh
  obtain ⟨old, -, rfl⟩ := mem_map.mp hpass
  exact nomatch hfresh

theorem Sound.write (h : s.Sound) {task : Nat} {pending : Bool} (hget : s.writes[task]? = some pending)
    (horder : task + 1 = s.writes.length → ∀ other ∈ s.writes, other = pending) :
    Sound { s with saved := some pending, writes := s.writes.eraseIdx task } := by
  refine ⟨?_, h.owed, h.passes⟩
  obtain ⟨hlt, hat⟩ := List.getElem?_eq_some_iff.mp hget
  have hflag := h.flag
  rw [← hflag]
  by_cases hlast : task + 1 = s.writes.length
  · have hsame := horder hlast
    have hwritten : s.writes.getLast? = some pending := by
      rw [getLast?_eq_getElem?, ← hlast, Nat.add_sub_cancel]
      exact hget
    rw [hwritten]
    cases hleft : (s.writes.eraseIdx task).getLast? with
    | none => rfl
    | some other =>
      have hmem : other ∈ s.writes := mem_of_mem_eraseIdx (mem_of_getLast? hleft)
      exact hsame other hmem
  have hbefore : task < s.writes.length - 1 := by omega
  have hsame : (s.writes.eraseIdx task).getLast? = s.writes.getLast? := by
    rw [getLast?_eq_getElem?, getLast?_eq_getElem?, length_eraseIdx_of_lt hlt,
      getElem?_eraseIdx_of_ge (by omega)]
    congr 1
    omega
  have hsome : s.writes.getLast? ≠ none := by
    rw [ne_eq, getLast?_eq_none_iff]
    intro hnil
    rw [hnil] at hlt
    exact absurd hlt (Nat.not_lt_zero _)
  rw [hsame]
  cases hleft : s.writes.getLast? with
  | none => exact absurd hleft hsome
  | some other => rfl

variable {pass : Pass C}

theorem Sound.readContainers (h : s.Sound) {k : Nat} (hget : s.passes[k]? = some pass) :
    Sound { s with passes := s.passes.set k (s.readContainers root pass) } := by
  refine ⟨h.flag, h.owed, fun other hother => ?_⟩
  rcases mem_or_eq_of_mem_set hother with hin | rfl
  · exact h.passes other hin
  intro hfresh
  refine ⟨(h.passes pass (mem_of_getElem? hget) hfresh).1, fun _ => ?_⟩
  intro c hc
  obtain ⟨⟨-, hheld⟩, -⟩ := mem_unlisted.mp hc
  exact Finset.mem_insert_of_mem hheld

theorem Sound.converge (h : s.Sound) {k : Nat} {containers : Finset C}
    (hget : s.passes[k]? = some pass) (hphase : pass.phase = .listing containers) :
    Sound { s with
      passes := s.passes.set k { pass with phase := .converged containers }
      listed := s.listed ∪ pass.covers } := by
  have hfewer : System.unlisted { s with
      passes := s.passes.set k { pass with phase := .converged containers }
      listed := s.listed ∪ pass.covers } ⊆ s.unlisted \ pass.covers := by
    intro c hc
    obtain ⟨hreported, hlisted⟩ := mem_unlisted.mp hc
    rw [Finset.mem_union, not_or] at hlisted
    exact Finset.mem_sdiff.mpr ⟨mem_unlisted.mpr ⟨hreported, hlisted.1⟩, hlisted.2⟩
  have hsub := hfewer.trans Finset.sdiff_subset
  refine ⟨h.flag, fun c hc => h.owed c (hsub hc), fun other hother => ?_⟩
  rcases mem_or_eq_of_mem_set hother with hin | rfl
  · exact (h.passes other hin).mono hsub
  intro hfresh
  obtain ⟨hle, hlisted⟩ := h.passes pass (mem_of_getElem? hget) hfresh
  refine ⟨hle, fun hdebt => ?_⟩
  have hcovered := hlisted hdebt
  unfold Listed at hcovered ⊢
  rw [hphase] at hcovered
  have hnone : s.unlisted \ pass.covers = ∅ := Finset.sdiff_eq_empty_iff_subset.mpr hcovered
  exact Finset.subset_empty.mp (hnone ▸ hfewer)

theorem Sound.step (h : s.Sound) {move : Move C} (horderly : Orderly s move) (hstep : step root move s = some t) :
    t.Sound := by
  cases move with
  | report ids =>
    cases hstep
    exact h.report ids
  | failApply =>
    cases hstep
    exact ⟨h.flag, h.owed, h.passes⟩
  | mark call =>
    obtain ⟨added, -, rfl⟩ := Option.map_eq_some_iff.mp hstep
    exact h.mark _ added horderly
  | beginPass =>
    cases hstep
    refine ⟨h.flag, h.owed, fun pass hpass => ?_⟩
    rcases mem_append.mp hpass with hin | hnew
    · exact h.passes pass hin
    rw [mem_singleton.mp hnew]
    exact fun _ => ⟨le_rfl, fun _ => trivial⟩
  | readContainers k =>
    simp only [System.step] at hstep
    split at hstep
    · rename_i pass hget
      split at hstep
      · cases hstep
        exact h.readContainers hget
      · exact nomatch hstep
    · exact nomatch hstep
  | relisted k converged =>
    simp only [System.step] at hstep
    split at hstep
    · rename_i pass hget
      split at hstep
      · rename_i containers hphase
        split at hstep
        · cases hstep
          exact h.converge hget hphase
        cases hstep
        exact ⟨h.flag, h.owed, fun other hother => h.passes other (mem_of_mem_eraseIdx hother)⟩
      · exact nomatch hstep
    · exact nomatch hstep
  | clear k =>
    simp only [System.step] at hstep
    split at hstep
    · rename_i pass hget
      split at hstep
      · rename_i containers hphase
        cases hstep
        have hleft : Sound { s with passes := s.passes.eraseIdx k } :=
          ⟨h.flag, h.owed, fun other hother => h.passes other (mem_of_mem_eraseIdx hother)⟩
        refine hleft.clear fun howed hdebt => ?_
        have hfresh := horderly pass hget howed hdebt
        have hlisted := (h.passes pass (mem_of_getElem? hget) hfresh).2 hdebt
        unfold Listed at hlisted
        rw [hphase] at hlisted
        exact hlisted
      · exact nomatch hstep
    · exact nomatch hstep
  | write task =>
    obtain ⟨pending, hget, rfl⟩ := Option.map_eq_some_iff.mp hstep
    exact h.write hget (horderly pending hget)

end Steps

theorem Sound.debtKept {s : System C} (h : s.Sound) : s.DebtKept := by
  refine ⟨fun hquiet => ?_, fun c hreported hheld => ?_⟩
  · have hflag := h.flag
    rw [hquiet] at hflag
    exact (Bool.eq_iff_iff.mp hflag).trans decide_eq_true_iff
  by_cases hlisted : c ∈ s.listed
  · exact Or.inl hlisted
  · exact Or.inr (h.owed c (mem_unlisted.mpr ⟨⟨hreported, hheld⟩, hlisted⟩))

end System

/-- In every orderly run the debt is kept. -/
theorem debt_kept (root : C) (saved : Option Bool) (containers : Finset C) (s : System C)
    (h : (machine root saved containers).Reaches Orderly s) : s.DebtKept := by
  have hsound : s.Sound := Machine.Reaches.invariant (P := System.Sound) (System.sound_boot saved containers)
    (fun _ _ _ hs horderly hstep => hs.step horderly hstep) h
  exact hsound.debtKept

section Small

/-- A container is reported and a pass lists it; another is reported once the pass has cleared. -/
def reportedTwice : List (Move Nat) :=
  [.report {1}, .mark 0, .write 0, .beginPass, .readContainers 0, .relisted 0 true, .clear 0, .report {1, 2}, .mark 0]

theorem debt_kept_small :
    ∃ s, (machine 0 none ∅).Reaches Orderly s ∧ s.pendingReconcile = 1 ∧ s.writes = [] ∧ s.DebtKept := by
  have hrun : (((machine 0 none ∅).guarded Orderly).run (reportedTwice ++ [.write 0, .write 0])
      (machine 0 none ∅).start).any (fun s => decide (s.pendingReconcile = 1 ∧ s.writes = [])) := by
    decide
  obtain ⟨s, hs, hend⟩ := (Option.any_eq_true _ _).mp hrun
  have hreaches := Machine.reaches_of_run_guarded Machine.Reaches.start hs
  obtain ⟨hdebt, hquiet⟩ := of_decide_eq_true hend
  exact ⟨s, hreaches, hdebt, hquiet, debt_kept 0 none ∅ s hreaches⟩

/-- The write of the new debt overtakes the write of the cleared one: the file forgets the debt. -/
theorem debt_overtaken :
    ¬ ∀ s, (machine (0 : Nat) none ∅).Reaches (fun _ _ => True) s → s.DebtKept := by
  intro h
  have hrun : ((machine 0 none ∅).run (reportedTwice ++ [.write 1, .write 0])
      (machine 0 none ∅).start).any (fun s => decide (¬ s.DebtKept)) := by
    decide
  obtain ⟨s, hs, hlost⟩ := (Option.any_eq_true _ _).mp hrun
  exact of_decide_eq_true hlost (h s (Machine.reaches_of_run Machine.Reaches.start hs))

end Small

end SyncEngine.Live
