import Mathlib.Algebra.Group.Int.Defs
import Mathlib.Algebra.Group.Nat.Defs
import Mathlib.Data.List.Forall2

/-! # Programs that must not fault

A program changes a state and ends with an answer or an error of its own, unless it
faults: an addition that leaves the machine's range, an index past an end, an allocation
past a limit, a broken assertion, a recursion that does not end. A program meets a condition where it cannot fault and whatever it
answers satisfies the condition.
-/

namespace SyncEngine.Collections

open List

/-- What a program must never do. -/
inductive Fault where
  | overflow
  | index
  | division
  | memory
  | assertion
  | endless
  deriving DecidableEq, Repr

/-- How a program ends. -/
inductive Outcome (ε α : Type) where
  | done (a : α)
  | failed (e : ε)
  | faulted (f : Fault)
  deriving DecidableEq, Repr

/-- A program with errors of type ε over a state of type σ. -/
def Checked (ε σ α : Type) : Type := σ → Outcome ε α × σ

namespace Checked

variable {ε σ α β : Type}

def pure (a : α) : Checked ε σ α := fun s => (.done a, s)

def bind (m : Checked ε σ α) (next : α → Checked ε σ β) : Checked ε σ β := fun s =>
  match m s with
  | (.done a, t) => next a t
  | (.failed e, t) => (.failed e, t)
  | (.faulted f, t) => (.faulted f, t)

instance : Monad (Checked ε σ) where
  pure := pure
  bind := bind

def fail (e : ε) : Checked ε σ α := fun s => (.failed e, s)

def fault (f : Fault) : Checked ε σ α := fun s => (.faulted f, s)

/-- Go on with an option's value, or fail. -/
def expect (e : ε) : Option α → Checked ε σ α
  | some a => pure a
  | none => fail e

/-- Take a failure as no answer. -/
def attempt {δ : Type} (m : Checked δ σ α) : Checked ε σ (Option α) := fun s =>
  match m s with
  | (.done a, t) => (.done (some a), t)
  | (.failed _, t) => (.done none, t)
  | (.faulted f, t) => (.faulted f, t)

/-- An unsigned sum of the given width. -/
def addWithin (width a b : Nat) : Checked ε σ Nat :=
  if a + b < 2 ^ width then pure (a + b) else fault .overflow

def mulWithin (width a b : Nat) : Checked ε σ Nat :=
  if a * b < 2 ^ width then pure (a * b) else fault .overflow

/-- An unsigned difference. -/
def subWithin (a b : Nat) : Checked ε σ Nat := if b ≤ a then pure (a - b) else fault .overflow

/-- A signed value of 32 bits. -/
def int32 (i : Int) : Checked ε σ Int := if -2 ^ 31 ≤ i ∧ i < 2 ^ 31 then pure i else fault .overflow

/-- A quotient and a remainder. -/
def divMod (a b : Nat) : Checked ε σ (Nat × Nat) := if b = 0 then fault .division else pure (a / b, a % b)

/-- The item at an index. -/
def item (items : List α) (i : Nat) : Checked ε σ α :=
  match items[i]? with
  | some a => pure a
  | none => fault .index

/-- Replace the item at an index. -/
def replace (items : List α) (i : Nat) (a : α) : Checked ε σ (List α) :=
  if i < items.length then pure (items.set i a) else fault .index

/-- Take steps until one is the last, so many at most. -/
def loop (step : β → Checked ε σ (β ⊕ α)) : Nat → β → Checked ε σ α
  | 0, _ => fault .endless
  | fuel + 1, b => bind (step b) fun
    | .inl b => loop step fuel b
    | .inr a => pure a

/-- Take the steps numbered from zero to the given number, not itself. -/
def upTo (step : Nat → β → Checked ε σ β) : Nat → β → Checked ε σ β
  | 0, b => pure b
  | n + 1, b => bind (upTo step n b) (step n)

/-- The answers of a program for every item in turn. -/
def mapWith (step : α → Checked ε σ β) : List α → Checked ε σ (List β)
  | [] => pure []
  | a :: as => bind (step a) fun b => bind (mapWith step as) fun bs => pure (b :: bs)

/-- A program without a state, where there is one. -/
def lift (m : Checked ε Unit α) : Checked ε σ α := fun s => ((m ()).1, s)

/-- Pass a value through a program for every item in turn. -/
def foldWith (step : β → α → Checked ε σ β) : List α → β → Checked ε σ β
  | [], b => pure b
  | a :: as, b => bind (step b a) (foldWith step as)

/-! ## One run -/

variable {s t : σ} {step : β → Checked ε σ (β ⊕ α)} {b : β}

theorem bind_done {m : Checked ε σ α} {next : α → Checked ε σ β} {a : α} (h : m s = (.done a, t)) :
    (m >>= next) s = next a t := by
  change bind m next s = _
  unfold bind
  rw [h]

theorem bind_faulted {m : Checked ε σ α} {next : α → Checked ε σ β} {f : Fault}
    (h : m s = (.faulted f, t)) : (m >>= next) s = (.faulted f, t) := by
  change bind m next s = _
  unfold bind
  rw [h]

theorem loop_again {b' : β} (h : step b s = (.done (.inl b'), t))
    (fuel : Nat) : loop step (fuel + 1) b s = loop step fuel b' t := bind_done h

theorem loop_last {a : α} (h : step b s = (.done (.inr a), t))
    (fuel : Nat) : loop step (fuel + 1) b s = (.done a, t) := bind_done h

theorem loop_faulted {f : Fault} (h : step b s = (.faulted f, t))
    (fuel : Nat) : loop step (fuel + 1) b s = (.faulted f, t) := bind_faulted h

/-- From a state of the kind, the program does not fault, and an answer satisfies the condition. -/
def Meets (before : σ → Prop) (m : Checked ε σ α) (after : α → σ → Prop) : Prop :=
  ∀ s, before s →
    match m s with
    | (.done a, t) => after a t
    | (.failed _, _) => True
    | (.faulted _, _) => False

/-- A round of a loop satisfies one condition where it goes on and another where it is the last. -/
def Rounds (again : β → σ → Prop) (after : α → σ → Prop) : β ⊕ α → σ → Prop
  | .inl b, s => again b s
  | .inr a, s => after a s

namespace Meets

variable {before before' : σ → Prop} {m : Checked ε σ α} {next : α → Checked ε σ β} {after after' : α → σ → Prop}
  {last : β → σ → Prop}

theorem pure {a : α} (h : ∀ s, before s → after a s) : Meets before (Pure.pure a : Checked ε σ α) after :=
  fun s hs => h s hs

theorem fail {e : ε} : Meets before (fail e : Checked ε σ α) after := fun _ _ => trivial

theorem bind (h : Meets before m after) (hnext : ∀ a, Meets (after a) (next a) last) :
    Meets before (m >>= next) last := by
  intro s hs
  have hfirst := h s hs
  change match Checked.bind m next s with
    | (.done b, t) => last b t
    | (.failed _, _) => True
    | (.faulted _, _) => False
  unfold Checked.bind
  rcases hm : m s with ⟨_ | _ | _, t⟩ <;> rw [hm] at hfirst
  · exact hnext _ t hfirst
  · trivial
  · exact hfirst

theorem mono (h : Meets before m after) (hbefore : ∀ s, before' s → before s)
    (hafter : ∀ a s, after a s → after' a s) : Meets before' m after' := by
  intro s hs
  have hm := h s (hbefore s hs)
  rcases heq : m s with ⟨_ | _ | _, t⟩ <;> rw [heq] at hm
  · exact hafter _ _ hm
  · trivial
  · exact hm

theorem weaken (h : Meets before m after) (hafter : ∀ a s, after a s → after' a s) : Meets before m after' :=
  h.mono (fun _ hs => hs) hafter

theorem of_pre {P : Prop} (h : P → Meets (fun _ => True) m after) : Meets (fun _ => P) m after :=
  fun s hs => h hs s trivial

theorem known {a : α} (hm : m = Checked.pure a) (h : Meets before (next a) last) : Meets before (m >>= next) last := by
  rw [hm]
  exact h

theorem expect {e : ε} {found : Option α} (h : ∀ a, found = some a → Meets before (next a) last) :
    Meets before (Checked.expect e found >>= next) last := by
  cases found with
  | none => exact fun _ _ => trivial
  | some a => exact h a rfl

theorem ghost {γ : Type} (view : σ → γ) (h : ∀ g, Meets (fun s => before s ∧ view s = g) m after) :
    Meets before m after :=
  fun s hs => h (view s) s ⟨hs, rfl⟩

theorem both (h : Meets before m after) (h' : Meets before m after') :
    Meets before m fun a s => after a s ∧ after' a s := by
  intro s hs
  have hm := h s hs
  have hm' := h' s hs
  rcases heq : m s with ⟨_ | _ | _, t⟩ <;> rw [heq] at hm hm'
  · exact ⟨hm, hm'⟩
  · trivial
  · exact hm

theorem of_exists {γ : Type} {holds : γ → σ → Prop} (h : ∀ g, Meets (holds g) m after) :
    Meets (fun s => ∃ g, holds g s) m after := by
  rintro s ⟨g, hg⟩
  exact h g s hg

theorem given {P : Prop} (h : P → Meets before m after) : Meets (fun s => P ∧ before s) m after :=
  fun s hs => h hs.1 s hs.2

theorem knowing (P : Prop) (known : σ → Prop) (h : P → Meets known m after) (hbefore : ∀ s, before s → P ∧ known s) :
    Meets before m after :=
  (given h).mono hbefore fun _ _ hafter => hafter

variable {P : α → Prop} {b a width : Nat} {items : List α}

theorem lift {m : Checked ε Unit α} (h : Meets (fun _ => True) m fun a _ => P a) :
    Meets before (Checked.lift m) fun a s => P a ∧ before s := by
  intro s hs
  have hm := h () trivial
  unfold Checked.lift
  rcases heq : m () with ⟨_ | _ | _, t⟩ <;> rw [heq] at hm
  · exact ⟨hm, hs⟩
  · trivial
  · exact hm

theorem attempt {δ : Type} (h : Meets before m fun a _ => P a) :
    Meets before (Checked.attempt m : Checked δ σ (Option α)) fun found _ => ∀ a, found = some a → P a := by
  intro s hs
  have hm := h s hs
  unfold Checked.attempt
  rcases heq : m s with ⟨_ | _ | _, t⟩ <;> rw [heq] at hm
  · intro a ha
    cases ha
    exact hm
  · exact fun _ ha => nomatch ha
  · exact hm

theorem mapWith {step : α → Checked ε σ β} (R : α → β → Prop) (items : List α)
    (hstep : ∀ a ∈ items, Meets before (step a) fun b s => R a b ∧ before s) :
    Meets before (Checked.mapWith step items) fun bs s => List.Forall₂ R items bs ∧ before s := by
  induction items with
  | nil => exact fun s hs => ⟨List.Forall₂.nil, hs⟩
  | cons a as ih =>
    have hrest := ih fun other hmem => hstep other (mem_cons_of_mem _ hmem)
    refine (hstep a mem_cons_self).bind fun b => Meets.given fun hb => hrest.bind fun bs => ?_
    exact Meets.pure fun _ h => ⟨List.Forall₂.cons hb h.1, h.2⟩

theorem add {sum : Nat → Checked ε σ β} (hlt : a + b < 2 ^ width)
    (h : Meets before (sum (a + b)) last) : Meets before (addWithin width a b >>= sum) last :=
  known (if_pos hlt) h

theorem mul {product : Nat → Checked ε σ β} (hlt : a * b < 2 ^ width)
    (h : Meets before (product (a * b)) last) : Meets before (mulWithin width a b >>= product) last :=
  known (if_pos hlt) h

theorem sub {difference : Nat → Checked ε σ β} (hle : b ≤ a)
    (h : Meets before (difference (a - b)) last) : Meets before (subWithin a b >>= difference) last :=
  known (if_pos hle) h

theorem int32 {i : Int} (h32 : -2 ^ 31 ≤ i ∧ i < 2 ^ 31) {value : Int → Checked ε σ β}
    (h : Meets before (value i) last) : Meets before (Checked.int32 i >>= value) last :=
  known (if_pos h32) h

theorem divMod {quotient : Nat × Nat → Checked ε σ β} (hpos : 0 < b)
    (h : Meets before (quotient (a / b, a % b)) last) : Meets before (Checked.divMod a b >>= quotient) last :=
  known (if_neg (Nat.ne_of_gt hpos)) h

theorem item {i : Nat} (hlt : i < items.length) (h : Meets before (next items[i]) last) :
    Meets before (Checked.item items i >>= next) last := by
  refine known ?_ h
  unfold Checked.item
  rw [getElem?_eq_getElem hlt]

theorem replace {i : Nat} {a : α} {rest : List α → Checked ε σ β} (hlt : i < items.length)
    (h : Meets before (rest (items.set i a)) last) : Meets before (Checked.replace items i a >>= rest) last :=
  known (if_pos hlt) h

theorem foldWith {step : β → α → Checked ε σ β} (inv : β → σ → Prop) (items : List α)
    (hstep : ∀ a ∈ items, ∀ b, Meets (inv b) (step b a) inv) (b : β) :
    Meets (inv b) (foldWith step items b) inv := by
  induction items generalizing b with
  | nil => exact fun s hs => hs
  | cons a as ih =>
    have hfirst := hstep a mem_cons_self b
    exact hfirst.bind fun b' => ih (fun other hmem => hstep other (mem_cons_of_mem _ hmem)) b'

/-- A loop whose steps keep an invariant and lower a measure ends before its steps run out. -/
theorem loop {step : β → Checked ε σ (β ⊕ α)} (inv : β → σ → Prop) (measure : β → σ → Nat)
    (hstep : ∀ m b, Meets (fun s => inv b s ∧ measure b s = m) (step b)
      (Rounds (fun b s => inv b s ∧ measure b s < m) after)) {fuel : Nat} {b : β} :
    Meets (fun s => inv b s ∧ measure b s < fuel) (Checked.loop step fuel b) after := by
  induction fuel generalizing b with
  | zero => exact fun s hs => (Nat.not_lt_zero _ hs.2).elim
  | succ fuel ih =>
    intro s hs
    have hfirst := hstep (measure b s) b s ⟨hs.1, rfl⟩
    change match Checked.bind (step b) (fun
        | .inl b => Checked.loop step fuel b
        | .inr a => Checked.pure a) s with
      | (.done a, t) => after a t
      | (.failed _, _) => True
      | (.faulted _, _) => False
    unfold Checked.bind
    rcases hs' : step b s with ⟨(b' | a) | e | f, t⟩ <;> rw [hs'] at hfirst
    · exact ih t ⟨hfirst.1, Nat.lt_of_lt_of_le hfirst.2 (Nat.le_of_lt_succ hs.2)⟩
    · exact hfirst
    · trivial
    · exact hfirst

/-- Steps that take the invariant of each number to that of the next one take the first to the last. -/
theorem upTo {step : Nat → β → Checked ε σ β} (inv : Nat → β → σ → Prop) (n : Nat)
    (hstep : ∀ i, i < n → ∀ b, Meets (inv i b) (step i b) (inv (i + 1))) (b : β) :
    Meets (inv 0 b) (Checked.upTo step n b) (inv n) := by
  induction n with
  | zero => exact fun s hs => hs
  | succ n ih =>
    have hbefore := ih fun i hi => hstep i (Nat.lt_succ_of_lt hi)
    exact hbefore.bind fun b' => hstep n (Nat.lt_succ_self n) b'

theorem ends (h : Meets before m after) {s : σ} (hs : before s) :
    (∃ a t, m s = (.done a, t) ∧ after a t) ∨ ∃ e t, m s = (.failed e, t) := by
  have hm := h s hs
  rcases heq : m s with ⟨a | e | f, t⟩ <;> rw [heq] at hm
  · exact Or.inl ⟨a, t, rfl, hm⟩
  · exact Or.inr ⟨e, t, rfl⟩
  · exact hm.elim

end Meets

end Checked

end SyncEngine.Collections
