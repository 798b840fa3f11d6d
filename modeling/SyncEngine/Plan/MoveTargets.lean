import Mathlib.Data.List.AList

/-! # The index of a join, keyed from its smaller side

Sources ask for their keys first and each gets an empty slot; a target fills a
slot only where one was asked for. Once the sources have asked for more keys
than the targets carry, the index drops the slots and takes every target. In
both forms a key a source looks up holds the same targets, met in the same
order.
-/

namespace SyncEngine

open List

structure MoveTargets (κ ν : Type) [DecidableEq κ] where
  slots : AList fun _ : κ => ν
  targets : Nat
  /-- Whether `slots` is keyed by every target. -/
  byTargets : Bool

namespace MoveTargets

variable {κ ν : Type} [DecidableEq κ] [Inhabited ν]

def new (targets : Nat) : MoveTargets κ ν := ⟨∅, targets, false⟩

/-- A source will look `key` up. -/
def want (m : MoveTargets κ ν) (key : κ) : MoveTargets κ ν :=
  if m.byTargets = true ∨ m.targets = 0 ∨ key ∈ m.slots then m
  else if m.slots.keys.length = m.targets then { m with slots := ∅, byTargets := true }
  else { m with slots := m.slots.insert key default }

def wantsTargets (m : MoveTargets κ ν) : Bool := m.byTargets || !m.slots.keys.isEmpty

/-- A target carrying `key` changes the slot it goes into, where the index
keeps one. -/
def slot (m : MoveTargets κ ν) (key : κ) (change : ν → ν) : MoveTargets κ ν :=
  if m.byTargets then
    { m with slots := m.slots.insert key (change ((m.slots.lookup key).getD default)) }
  else
    match m.slots.lookup key with
    | some held => { m with slots := m.slots.insert key (change held) }
    | none => m

def get (m : MoveTargets κ ν) (key : κ) : Option ν := m.slots.lookup key

def any (m : MoveTargets κ ν) (met : ν → Bool) : Bool := m.slots.entries.any fun e => met e.2

def held (m : MoveTargets κ ν) (key : κ) : ν := (m.get key).getD default

/-- The index keeps what targets carrying `key` leave. -/
def Keeps (m : MoveTargets κ ν) (key : κ) : Prop := m.byTargets = true ∨ key ∈ m.slots

variable {m : MoveTargets κ ν} {key other : κ} {change : ν → ν} {wanted : List κ}

theorem slot_keeps (h : m.Keeps key) :
    (m.slot other change).Keeps key := by
  unfold slot
  by_cases hb : m.byTargets
  · simp [hb, Keeps]
  have hk : key ∈ m.slots := h.resolve_left hb
  cases hl : m.slots.lookup other with
  | none => simp [hb, Keeps, hk]
  | some v => simp [hb, Keeps, hk]

theorem slot_held (h : m.Keeps key) :
    (m.slot other change).held key = if other = key then change (m.held key) else m.held key := by
  by_cases heq : other = key
  · subst heq
    unfold slot
    by_cases hb : m.byTargets
    · simp [hb, held, get]
    have hk : other ∈ m.slots := h.resolve_left hb
    have hsome := AList.lookup_isSome.mpr hk
    cases hl : m.slots.lookup other with
    | none => simp [hl] at hsome
    | some v => simp [hb, held, get, hl]
  have hne : key ≠ other := fun hk => heq hk.symm
  unfold slot
  by_cases hb : m.byTargets
  · simp [hb, held, get, heq, AList.lookup_insert_ne hne]
  cases hl : m.slots.lookup other with
  | none => simp [hb, heq]
  | some v => simp [hb, held, get, heq, AList.lookup_insert_ne hne]

/-- Walk the targets, each with the key it carries and what it does to a slot. -/
def fill (m : MoveTargets κ ν) (walk : List (κ × (ν → ν))) : MoveTargets κ ν :=
  walk.foldl (fun m t => m.slot t.1 t.2) m

theorem fill_held (walk : List (κ × (ν → ν))) (h : m.Keeps key) :
    (m.fill walk).held key =
      (walk.filter fun t => t.1 = key).foldl (fun v t => t.2 v) (m.held key) := by
  induction walk generalizing m with
  | nil => rfl
  | cons t walk ih =>
    have hstep := ih (m := m.slot t.1 t.2) (slot_keeps h)
    rw [slot_held h] at hstep
    unfold fill at hstep ⊢
    rw [foldl_cons, hstep]
    by_cases ht : t.1 = key
    · simp [ht]
    · simp [ht]

/-! ## What the sources asked for -/

/-- No slot holds anything yet, and the index keeps every key asked for as long
as there is a target at all. -/
structure Asked (m : MoveTargets κ ν) (wanted : List κ) : Prop where
  empty : ∀ key, m.held key = default
  keeps : m.targets ≠ 0 → ∀ key ∈ wanted, m.Keeps key
  none : m.targets = 0 → m.byTargets = false ∧ m.slots.keys = []

theorem asked_new (targets : Nat) : (new targets : MoveTargets κ ν).Asked [] where
  empty := by simp [held, get, new]
  keeps := by simp
  none := by simp [new]

@[simp] theorem want_targets (m : MoveTargets κ ν) (key : κ) : (m.want key).targets = m.targets := by
  unfold want
  split
  · rfl
  · split <;> rfl

theorem asked_want (h : m.Asked wanted) (key : κ) :
    (m.want key).Asked (key :: wanted) := by
  by_cases hkeep : m.byTargets ∨ m.targets = 0 ∨ key ∈ m.slots
  · have hm : m.want key = m := if_pos hkeep
    rw [hm]
    refine ⟨h.empty, ?_, h.none⟩
    intro ht k hk
    rcases mem_cons.mp hk with heq | hk
    · subst heq
      rcases hkeep with hb | h0 | hin
      · exact Or.inl hb
      · exact absurd h0 ht
      · exact Or.inr hin
    · exact h.keeps ht k hk
  have ht : m.targets ≠ 0 := fun h0 => hkeep (Or.inr (Or.inl h0))
  have hb : ¬ m.byTargets := fun hb => hkeep (Or.inl hb)
  have hkey : key ∉ m.slots := fun hin => hkeep (Or.inr (Or.inr hin))
  by_cases hfull : m.slots.keys.length = m.targets
  · have hm : m.want key = { m with slots := ∅, byTargets := true } := by
      simp only [want, if_neg hkeep, if_pos hfull]
    rw [hm]
    exact ⟨fun k => by simp [held, get], fun _ k _ => Or.inl rfl, fun h0 => absurd h0 ht⟩
  have hm : m.want key = { m with slots := m.slots.insert key default } := by
    simp only [want, if_neg hkeep, if_neg hfull]
  rw [hm]
  refine ⟨?_, ?_, fun h0 => absurd h0 ht⟩
  · intro k
    by_cases hk : k = key
    · subst hk
      simp [held, get]
    have := h.empty k
    simpa [held, get, AList.lookup_insert_ne hk] using this
  intro _ k hk
  rcases mem_cons.mp hk with heq | hk
  · exact Or.inr (by simp [heq])
  rcases h.keeps ht k hk with hbt | hin
  · exact absurd hbt hb
  · exact Or.inr (by simp [hin])

/-- The index a join reads: the sources ask, then the targets are walked. -/
def build (wanted : List κ) (walk : List (κ × (ν → ν))) : MoveTargets κ ν :=
  (wanted.foldl want (new walk.length)).fill walk

theorem asked_foldl {seen : List κ} (h : m.Asked seen) (wanted : List κ) :
    (wanted.foldl want m).targets = m.targets ∧
      ∃ all, (wanted.foldl want m).Asked all ∧ ∀ key, key ∈ wanted ∨ key ∈ seen → key ∈ all := by
  induction wanted generalizing m seen with
  | nil => exact ⟨rfl, seen, h, fun key hk => hk.resolve_left (by simp)⟩
  | cons k wanted ih =>
    have hstep := ih (asked_want h k)
    refine ⟨by simpa using hstep.1, ?_⟩
    rcases hstep.2 with ⟨all, hall, hmem⟩
    refine ⟨all, hall, ?_⟩
    intro key hkey
    rcases hkey with hkey | hkey
    · rcases mem_cons.mp hkey with heq | hkey
      · exact hmem key (Or.inr (by simp [heq]))
      · exact hmem key (Or.inl hkey)
    · exact hmem key (Or.inr (mem_cons_of_mem _ hkey))

/-- A key a source asked for holds what the targets carrying it leave, whichever
side the index is keyed from. -/
theorem build_held (walk : List (κ × (ν → ν))) (h : key ∈ wanted) :
    (build wanted walk).held key =
      (walk.filter fun t => t.1 = key).foldl (fun v t => t.2 v) default := by
  have hasked := asked_foldl (asked_new (ν := ν) walk.length) wanted
  rcases hasked with ⟨htargets, all, hall, hmem⟩
  by_cases hwalk : walk.length = 0
  · have hnil : walk = [] := length_eq_zero_iff.mp hwalk
    subst hnil
    exact hall.empty key
  have ht : (wanted.foldl want (new walk.length : MoveTargets κ ν)).targets ≠ 0 := by
    rw [htargets]
    exact hwalk
  have hkeeps := hall.keeps ht key (hmem key (Or.inl h))
  unfold build
  rw [fill_held walk hkeeps, hall.empty]

theorem held_of_any_false {met : ν → Bool} (h : m.any met = false)
    (hd : met default = false) (key : κ) : met (m.held key) = false := by
  unfold held get
  cases hl : m.slots.lookup key with
  | none => exact hd
  | some v =>
    have hmem : (⟨key, v⟩ : Sigma fun _ : κ => ν) ∈ m.slots.entries :=
      AList.mem_lookup_iff.mp hl
    have hall := any_eq_false.mp h _ hmem
    simpa using hall

theorem held_of_not_wantsTargets (h : m.wantsTargets = false) (key : κ) :
    m.held key = default := by
  have hempty : m.slots.keys = [] := by simpa using (Bool.or_eq_false_iff.mp h).2
  have hnot : key ∉ m.slots := by
    intro hin
    have : key ∈ m.slots.keys := hin
    simp [hempty] at this
  unfold held get
  rw [AList.lookup_eq_none.mpr hnot]
  rfl

end MoveTargets

end SyncEngine
