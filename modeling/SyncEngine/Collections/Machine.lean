import Mathlib.Data.List.Chain
import Mathlib.Data.Option.Basic

/-! # Machines that take one move at a time

A machine refuses a move by having no next state for it. A run takes moves from
the start, each one allowed in the state it is taken in. What holds at the start
and is kept by every allowed move holds wherever a run gets to. An operation on
a durable store commits a list of states, and a crash keeps the last committed.
-/

namespace SyncEngine.Collections

open List

structure Machine (σ Move : Type) where
  start : σ
  step : Move → σ → Option σ

namespace Machine

variable {σ Move : Type} {machine : Machine σ Move} {allowed : σ → Move → Prop}

/-- The states a run may get to. -/
inductive Reaches (machine : Machine σ Move) (allowed : σ → Move → Prop) : σ → Prop where
  | start : Reaches machine allowed machine.start
  | step {s t : σ} {move : Move} (h : Reaches machine allowed s) (hallowed : allowed s move)
      (hstep : machine.step move s = some t) : Reaches machine allowed t

variable {P : σ → Prop} {s : σ} {moves : List Move} {t : σ}

theorem Reaches.invariant (hstart : P machine.start)
    (hkeep : ∀ s t move, P s → allowed s move → machine.step move s = some t → P t)
    (h : machine.Reaches allowed s) : P s := by
  induction h with
  | start => exact hstart
  | step _ hallowed hstep ih => exact hkeep _ _ _ ih hallowed hstep

/-- Take the moves in order. -/
def run (machine : Machine σ Move) : List Move → σ → Option σ
  | [], s => some s
  | move :: moves, s => (machine.step move s).bind (machine.run moves)

/-- What every move makes of a state it makes of it in any run, where it adds up. -/
theorem run_grows {R : σ → σ → Prop} (hrefl : ∀ s, R s s) (htrans : ∀ s t u, R s t → R t u → R s u)
    (hkeep : ∀ s t move, P s → machine.step move s = some t → P t ∧ R s t) (hs : P s)
    (hrun : machine.run moves s = some t) : R s t := by
  induction moves generalizing s with
  | nil =>
    cases hrun
    exact hrefl _
  | cons move moves ih =>
    obtain ⟨next, hstep, hrest⟩ := Option.bind_eq_some_iff.mp hrun
    obtain ⟨hnext, hgrown⟩ := hkeep _ next move hs hstep
    exact htrans _ _ _ hgrown (ih hnext hrest)

/-- A list of moves the machine takes, each allowed in every state, is a run. -/
theorem reaches_of_run_of (h : machine.Reaches allowed s)
    (hallowed : ∀ move ∈ moves, ∀ s, allowed s move) (hrun : machine.run moves s = some t) :
    machine.Reaches allowed t := by
  induction moves generalizing s with
  | nil =>
    cases hrun
    exact h
  | cons move moves ih =>
    obtain ⟨next, hstep, hrest⟩ := Option.bind_eq_some_iff.mp hrun
    exact ih (h.step (hallowed move mem_cons_self s) hstep)
      (fun other hmem => hallowed other (mem_cons_of_mem _ hmem)) hrest

/-- Where nothing is forbidden, every list of moves the machine takes is a run. -/
theorem reaches_of_run
    (h : machine.Reaches (fun _ _ => True) s) (hrun : machine.run moves s = some t) :
    machine.Reaches (fun _ _ => True) t :=
  reaches_of_run_of h (fun _ _ _ => trivial) hrun

/-- The machine that refuses every move that is not allowed. -/
def guarded (machine : Machine σ Move) (allowed : σ → Move → Prop) [∀ s move, Decidable (allowed s move)] :
    Machine σ Move where
  start := machine.start
  step move s := if allowed s move then machine.step move s else none

theorem reaches_of_run_guarded [∀ s move, Decidable (allowed s move)]
    (h : machine.Reaches allowed s) (hrun : (machine.guarded allowed).run moves s = some t) :
    machine.Reaches allowed t := by
  induction moves generalizing s with
  | nil =>
    cases hrun
    exact h
  | cons move moves ih =>
    obtain ⟨next, hstep, hrest⟩ := Option.bind_eq_some_iff.mp hrun
    dsimp only [guarded] at hstep
    by_cases hallowed : allowed s move
    · rw [if_pos hallowed] at hstep
      exact ih (h.step hallowed hstep) hrest
    rw [if_neg hallowed] at hstep
    exact nomatch hstep

end Machine

/-! ## Machines that refuse no move -/

section Total

variable {σ Move : Type} {step : σ → Move → σ} {s : σ} {Inv : σ → Prop} {P Q : σ → Move → Prop}

theorem forall_splits_cons (P : List Move → Move → Prop) (move : Move) (moves : List Move) :
    (∀ front next back, move :: moves = front ++ next :: back → P front next) ↔
      P [] move ∧ ∀ front next back, moves = front ++ next :: back → P (move :: front) next := by
  constructor
  · intro h
    refine ⟨h [] move moves rfl, fun front next back heq => h (move :: front) next back ?_⟩
    rw [heq, cons_append]
  rintro ⟨hhead, htail⟩ front next back heq
  cases front with
  | nil =>
    cases heq
    exact hhead
  | cons first front =>
    cases heq
    exact htail front next back rfl

/-- What comes down to a condition on each move, in a state that is as it should be and stays so
where the condition is met, comes down to it in a run of any length. -/
theorem forall_moves_iff (hiff : ∀ s move, Inv s → (P s move ↔ Q s move))
    (hkeep : ∀ s move, Inv s → Q s move → Inv (step s move)) (hs : Inv s) (moves : List Move) :
    (∀ front move back, moves = front ++ move :: back → P (front.foldl step s) move) ↔
      ∀ front move back, moves = front ++ move :: back → Q (front.foldl step s) move := by
  induction moves generalizing s with
  | nil => exact iff_of_true (fun front _ _ h => by cases front <;> cases h) fun front _ _ h => by cases front <;> cases h
  | cons move moves ih =>
    rw [forall_splits_cons fun front => P (front.foldl step s), forall_splits_cons fun front => Q (front.foldl step s)]
    constructor
    · rintro ⟨hhead, htail⟩
      have hmet := (hiff s move hs).mp hhead
      exact ⟨hmet, (ih (hkeep s move hs hmet)).mp htail⟩
    · rintro ⟨hmet, htail⟩
      exact ⟨(hiff s move hs).mpr hmet, (ih (hkeep s move hs hmet)).mpr htail⟩

end Total

/-! ## Stores that commit one state after another -/

variable {σ Op : Type}

/-- The last state of a trace, or the one it starts from. -/
def finish (s : σ) (trace : List σ) : σ := trace.getLastD s

@[simp] theorem finish_cons (s t : σ) (trace : List σ) :
    finish s (t :: trace) = finish t trace := getLastD_cons

theorem finish_append (s : σ) (first second : List σ) :
    finish s (first ++ second) = finish (finish s first) second := by
  induction first generalizing s with
  | nil => rfl
  | cons t first ih => rw [cons_append, finish_cons, ih, finish_cons]

/-- Each state a trace commits is related to the one before it. -/
def Chained (R : σ → σ → Prop) (s : σ) (trace : List σ) : Prop := List.IsChain R (s :: trace)

namespace Chained

variable {R : σ → σ → Prop}

theorem nil (s : σ) : Chained R s [] := isChain_singleton s

theorem cons {s t : σ} {trace : List σ} (h : R s t) (htail : Chained R t trace) :
    Chained R s (t :: trace) := isChain_cons_cons.mpr ⟨h, htail⟩

theorem append {s : σ} {first second : List σ} (h : Chained R s first)
    (hsecond : Chained R (finish s first) second) : Chained R s (first ++ second) := by
  induction first generalizing s with
  | nil => exact hsecond
  | cons t first ih =>
    obtain ⟨hst, htail⟩ := isChain_cons_cons.mp h
    rw [finish_cons] at hsecond
    exact cons hst (ih htail hsecond)

theorem mono {R' : σ → σ → Prop} {s : σ} {trace : List σ} (h : Chained R s trace)
    (himp : ∀ a b, R a b → R' a b) : Chained R' s trace := h.imp himp

theorem invariant {P : σ → Prop} {s : σ} {trace : List σ} (h : Chained R s trace) (hs : P s)
    (hstep : ∀ a b, P a → R a b → P b) : ∀ t ∈ trace, P t := by
  induction trace generalizing s with
  | nil =>
    intro t ht
    cases ht
  | cons u trace ih =>
    obtain ⟨hsu, htail⟩ := isChain_cons_cons.mp h
    have hu : P u := hstep s u hs hsu
    intro t ht
    rcases mem_cons.mp ht with rfl | ht
    · exact hu
    · exact ih htail hu t ht

end Chained

theorem finish_mem {P : σ → Prop} {s : σ} {trace : List σ} (hs : P s) (h : ∀ t ∈ trace, P t) :
    P (finish s trace) := by
  induction trace generalizing s with
  | nil => exact hs
  | cons t trace ih =>
    rw [finish_cons]
    exact ih (h t mem_cons_self) fun u hu => h u (mem_cons_of_mem t hu)

/-- A store that starts fresh, and what each operation commits to it. -/
structure Store (σ Op : Type) where
  fresh : σ
  commits : Op → σ → List σ

/-- The states a store may hold, with crashes between any two commits. -/
inductive Committed (store : Store σ Op) : σ → Prop where
  | fresh : Committed store store.fresh
  | commit {s t : σ} {op : Op} (h : Committed store s) (ht : t ∈ store.commits op s) :
      Committed store t

theorem Committed.invariant {store : Store σ Op} {P : σ → Prop} (hfresh : P store.fresh)
    (hcommit : ∀ s op, P s → ∀ t ∈ store.commits op s, P t) {s : σ} (h : Committed store s) :
    P s := by
  induction h with
  | fresh => exact hfresh
  | commit h ht ih => exact hcommit _ _ ih _ ht

end SyncEngine.Collections
