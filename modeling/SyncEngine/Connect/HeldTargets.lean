import Mathlib.Algebra.Group.Nat.Defs
import SyncEngine.Collections.Machine
import Mathlib.Data.Finset.Basic

/-! # Links and shares kept for a hold of the drive lock

The public links and shared users a directory belongs to are looked up once during a hold
of the drive lock and answered from memory afterwards. A lookup spans a server read, and
what it read is kept only where the hold, its lease and the generation are still those it
began under, and this client changes no membership itself meanwhile.
-/

namespace SyncEngine.Connect

open Collections

abbrev Dir := Nat

/-- A hold of the drive lock, by the allocation it is told apart by. -/
abbrev Hold := Nat

/-- The links and users kept for a directory, and the hold they were kept in. -/
structure Kept (τ : Type) where
  targets : Finset τ
  during : Hold
  deriving DecidableEq

structure HeldTargets (τ : Type) where
  hold : Option Hold
  forgotten : Nat
  changing : Nat
  dirs : Dir → Option (Kept τ)

namespace HeldTargets

variable {τ : Type}

def new : HeldTargets τ := ⟨none, 0, 0, fun _ => none⟩

def generationOf (forgotten : Nat) : Nat := forgotten % 2 ^ 64

def forget (held : HeldTargets τ) : HeldTargets τ :=
  { held with dirs := fun _ => none, forgotten := held.forgotten + 1 }

/-- What is kept for one hold is forgotten at the first lookup of another. -/
def during (held : HeldTargets τ) (hold : Hold) : HeldTargets τ :=
  if held.hold = some hold then held else forget { held with hold := some hold }

/-- The targets of a directory kept during a hold, if it still is valid and no change runs. -/
def cached (held : HeldTargets τ) (hold : Hold) (valid : Bool) (dir : Dir) : Option (Kept τ) × HeldTargets τ :=
  let held := held.during hold
  if ¬ valid then (none, held.forget)
  else if 0 < held.changing then (none, held)
  else (held.dirs dir, held)

/-- Stores targets, unless the hold changed or was lost, a change is running, or the entries
were forgotten since the lookup began. -/
def keep (held : HeldTargets τ) (hold : Hold) (valid : Bool) (dir : Dir) (targets : Finset τ) (began : Nat) :
    HeldTargets τ :=
  if held.hold = some hold ∧ valid ∧ held.changing = 0 ∧ generationOf began = generationOf held.forgotten then
    { held with dirs := Function.update held.dirs dir (some ⟨targets, hold⟩) }
  else held

def beginChange (held : HeldTargets τ) : HeldTargets τ := forget { held with changing := held.changing + 1 }

def endChange (held : HeldTargets τ) : HeldTargets τ := forget { held with changing := held.changing - 1 }

end HeldTargets

/-! ## Tasks -/

/-- A lookup that is not answered from what was kept. -/
structure Lookup (τ : Type) where
  hold : Hold
  dir : Dir
  /-- How often the entries had been forgotten when it began. -/
  began : Nat
  read : Option (Finset τ)
  deriving DecidableEq

structure HeldLookup (τ : Type) where
  targets : Finset τ
  began : Nat
  hold : Hold
  deriving DecidableEq

/-- A new directory on its way into the targets of its parent. -/
structure Creation (τ : Type) where
  dir : Dir
  lookup : HeldLookup τ
  /-- Those it was not added to yet. -/
  remaining : Finset τ
  deriving DecidableEq

/-- An answer from what was kept, and what the server had at that moment. -/
structure Answer (τ : Type) where
  hold : Hold
  kept : Kept τ
  actual : Option (Finset τ)
  deriving DecidableEq

structure World (τ : Type) where
  /-- The links and users of each directory there is. -/
  server : Dir → Option (Finset τ)
  known : List Dir
  held : HeldTargets τ
  holds : Nat
  /-- The lease of a hold has stood without a break. -/
  standing : Hold → Bool
  guards : Nat
  lookups : List (Lookup τ)
  answered : List (HeldLookup τ)
  /-- The new directories not on their way yet. -/
  made : List Dir
  creations : List (Creation τ)
  answers : List (Answer τ)

inductive Move (τ : Type) where
  | acquire
  /-- A hold ends, or its lease is lost. -/
  | lose (hold : Hold)
  /-- Another device changes a membership, or makes or removes a directory. -/
  | other (dir : Dir) (targets : Option (Finset τ))
  | beginChange
  /-- This client changes a membership while a guard lives. -/
  | own (dir : Dir) (targets : Option (Finset τ))
  | endChange
  /-- A lookup begins; the hold is found valid or not. -/
  | look (hold : Hold) (valid : Bool) (dir : Dir)
  | read (n : Nat)
  /-- The server fails a lookup. -/
  | fail (n : Nat)
  /-- What a lookup read is kept, where it may be, and answered. -/
  | keep (n : Nat) (valid : Bool)
  /-- What was kept for an ended hold is forgotten. -/
  | forget
  /-- This client makes a new directory. -/
  | create (dir : Dir)
  /-- The parent of a new directory was looked up, whose targets it is to be added to. -/
  | follow (dir : Dir) (n : Nat)
  /-- A new directory is added to one of the targets of its parent. -/
  | join (n : Nat) (target : τ)
  /-- A new directory that was added to all of them inherits them. -/
  | inherit (n : Nat) (hold : Hold) (valid : Bool)

namespace World

variable {τ : Type} [DecidableEq τ]

def new : World τ where
  server _ := none
  known := []
  held := .new
  holds := 0
  standing _ := false
  guards := 0
  lookups := []
  answered := []
  made := []
  creations := []
  answers := []

def change (world : World τ) (dir : Dir) (targets : Option (Finset τ)) : World τ :=
  { world with server := Function.update world.server dir targets, known := dir :: world.known }

/-- A hold that is found valid has had its lease standing since it was taken. -/
def mayFind (world : World τ) (hold : Hold) (valid : Bool) : Bool :=
  hold < world.holds && (!valid || world.standing hold)

def step (world : World τ) : Move τ → Option (World τ)
  | .acquire => some { world with
      holds := world.holds + 1
      standing := Function.update world.standing world.holds true }
  | .lose hold => some { world with standing := Function.update world.standing hold false }
  | .other dir targets =>
    if ∃ hold ∈ List.range world.holds, world.standing hold then none else some (world.change dir targets)
  | .beginChange => some { world with held := world.held.beginChange, guards := world.guards + 1 }
  | .own dir targets => if world.guards = 0 then none else some (world.change dir targets)
  | .endChange =>
    if world.guards = 0 then none
    else some { world with held := world.held.endChange, guards := world.guards - 1 }
  | .look hold valid dir =>
    if world.mayFind hold valid then
      match world.held.cached hold valid dir with
      | (some kept, held) => some { world with
          held
          answered := ⟨kept.targets, held.forgotten, hold⟩ :: world.answered
          answers := ⟨hold, kept, world.server dir⟩ :: world.answers }
      | (none, held) => some { world with held, lookups := ⟨hold, dir, held.forgotten, none⟩ :: world.lookups }
    else none
  | .read n =>
    match world.lookups[n]? with
    | some lookup =>
      if lookup.read.isNone ∧ (world.server lookup.dir).isSome then
        some { world with lookups := world.lookups.set n { lookup with read := world.server lookup.dir } }
      else none
    | none => none
  | .fail n => some { world with lookups := world.lookups.eraseIdx n }
  | .keep n valid =>
    match world.lookups[n]? with
    | some ⟨hold, dir, began, some targets⟩ =>
      if world.mayFind hold valid then
        some { world with
          held := world.held.keep hold valid dir targets began
          lookups := world.lookups.eraseIdx n
          answered := ⟨targets, began, hold⟩ :: world.answered }
      else none
    | _ => none
  | .forget => some { world with held := world.held.forget }
  | .create dir =>
    if dir ∈ world.known then none else some { world.change dir (some ∅) with made := dir :: world.made }
  | .follow dir n =>
    match world.answered[n]? with
    | some lookup =>
      if dir ∈ world.made then
        some { world with
          made := world.made.erase dir
          creations := ⟨dir, lookup, lookup.targets⟩ :: world.creations }
      else none
    | none => none
  | .join n target =>
    match world.creations[n]? with
    | some creation =>
      if target ∈ creation.remaining then
        some { world.change creation.dir ((world.server creation.dir).map (insert target)) with
          creations := world.creations.set n { creation with remaining := creation.remaining.erase target } }
      else none
    | none => none
  | .inherit n hold valid =>
    match world.creations[n]? with
    | some creation =>
      if creation.remaining = ∅ ∧ world.mayFind hold valid then
        some { world with
          held := world.held.keep hold valid creation.dir creation.lookup.targets creation.lookup.began }
      else none
    | none => none

def machine : Machine (World τ) (Move τ) := ⟨new, fun move world => world.step move⟩

/-- A lookup read the server, and the entries were not forgotten since it began. -/
def fresh (world : World τ) (lookup : Lookup τ) : Bool :=
  lookup.read.isSome && lookup.began = world.held.forgotten

/-- The count of a lookup is not met again after the counter went once around. -/
def Unwrapped (world : World τ) (began : Nat) : Prop :=
  HeldTargets.generationOf began = HeldTargets.generationOf world.held.forgotten → began = world.held.forgotten

/-- A directory comes to what its parent's lookup answered in none but those targets, and is added
to one only while nothing is kept of it or about to be. No answer is kept a whole round of the
counter after its lookup began. -/
def Careful (world : World τ) : Move τ → Prop
  | .follow dir n => ∀ lookup ∈ world.answered[n]?, lookup.began = world.held.forgotten →
      ∃ targets ∈ world.server dir, targets ⊆ lookup.targets
  | .join n _ => ∀ creation ∈ world.creations[n]?, world.held.dirs creation.dir = none ∧
      ∀ lookup ∈ world.lookups, lookup.dir = creation.dir → world.fresh lookup = false
  | .keep n _ => ∀ lookup ∈ world.lookups[n]?, world.Unwrapped lookup.began
  | .inherit n _ _ => ∀ creation ∈ world.creations[n]?, world.Unwrapped creation.lookup.began
  | _ => True

instance (world : World τ) (began : Nat) : Decidable (world.Unwrapped began) := by
  unfold Unwrapped
  infer_instance

instance (world : World τ) (move : Move τ) : Decidable (world.Careful move) := by
  cases move <;> unfold Careful <;> infer_instance

end World

end SyncEngine.Connect
