import SyncEngine.Collections.Runs
import SyncEngine.Names.Candidates

/-! # The names taken in one directory

Names are taken up to case, in a set that can hold only so many. An item's name is
given as it is while free, and numbered otherwise, by a walk over counters that jumps
the runs of counters earlier walks found taken.
-/

namespace SyncEngine

open Collections

/-- How many strings a set can hold: what it allocates has an `isize` of bytes, and each
takes 24. -/
def maxKeys : Nat := (2 ^ 63 - 1) / 24

/-- The names taken in one destination, under the keys they collide on, and per counter
key the runs of counters whose candidates are all taken. -/
structure TakenNames where
  keys : List Name
  takenRuns : CounterKey → Runs Nat
  nodup : keys.Nodup
  fits : keys.length ≤ maxKeys

namespace TakenNames

def empty : TakenNames := ⟨[], fun _ => [], List.nodup_nil, Nat.zero_le _⟩

/-- Take a key, and whether it was free. A set that cannot grow any further aborts. -/
def insertKey (taken : TakenNames) (key : Name) : Option (Bool × TakenNames) :=
  if hin : key ∈ taken.keys then some (false, taken)
  else if hroom : taken.keys.length < maxKeys then
    some (true, { taken with
      keys := key :: taken.keys
      nodup := List.nodup_cons.mpr ⟨hin, taken.nodup⟩
      fits := hroom })
  else none

def record (taken : TakenNames) (key : CounterKey) (first last : Nat) : TakenNames :=
  { taken with
    takenRuns := Function.update taken.takenRuns key ((taken.takenRuns key).addRun first last) }

variable (u : Unicode)

def insert (taken : TakenNames) (name : Name) : Option (Bool × TakenNames) :=
  taken.insertKey (u.lower name)

def new (names : List Name) : Option TakenNames :=
  names.foldlM (fun taken name => (taken.insert u name).map Prod.snd) empty

end TakenNames

/-! ## Allocating -/

inductive Allocation where
  | named (name : ValidatedName) (taken : TakenNames)
  | refused (error : EntryNameError) (taken : TakenNames)
  | aborted

/-- A walk over counters: the base and counter it is at, and the counter from which on
every counter was seen taken under the key it walked. -/
structure Walk where
  base : Name
  n : Nat
  since : Nat
  walked : Option CounterKey

namespace TakenNames

/-- What is known of the walk kept when its key changes: the counters seen taken under
the last key. -/
def turn (taken : TakenNames) (walk : Walk) (key : Option CounterKey) : TakenNames × Walk :=
  if key = walk.walked then (taken, walk)
  else
    let taken := match walk.walked with
      | some walked => if walk.since < walk.n then taken.record walked walk.since walk.n else taken
      | none => taken
    (taken, { walk with since := walk.n, walked := key })

def skipTo (taken : TakenNames) (key : Option CounterKey) (n : Nat) : Option Nat :=
  (key.bind fun key => ((taken.takenRuns key).lastUpTo n).map Prod.snd).filter fun last => n < last

/-- The counter a walk tries next; one that cannot grow starts the whole stem over. -/
def nextWalk (stem : Name) (walk : Walk) : Walk :=
  match nextCounter walk.n with
  | some next => { walk with n := next }
  | none => { walk with base := stem, n := 1 }

/-- The walk over counters, for so many candidates. -/
def allocateFrom (u : Unicode) (stem ext : Name) : Nat → TakenNames → Walk → Option Allocation
  | 0, _, _ => none
  | fuel + 1, taken, walk =>
    match numberedCandidate u walk.base walk.n ext with
    | .error error => some (.refused error taken)
    | .ok (candidate, key) =>
      let turned := taken.turn walk key
      let taken := turned.1
      let walk := turned.2
      match taken.skipTo key walk.n with
      | some last => allocateFrom u stem ext fuel taken { walk with n := last }
      | none =>
        match taken.insert u candidate.text with
        | none => some .aborted
        | some (true, taken) =>
          match key, nextCounter walk.n with
          | some key, some last => some (.named candidate (taken.record key walk.since last))
          | _, _ => some (.named candidate taken)
        | some (false, _) => allocateFrom u stem ext fuel taken (nextWalk stem walk)

/-- Take a free name for an item: its own, or the first free candidate of the walk. -/
def allocate (u : Unicode) (fuel : Nat) (taken : TakenNames) (name : ValidatedName)
    (shape : NameShape) : Option Allocation :=
  match taken.insert u name.text with
  | none => some .aborted
  | some (true, taken) => some (.named name taken)
  | some (false, _) =>
    let parts := splitExtension name.text shape
    let start := startOf parts.1
    allocateFrom u parts.1 parts.2 fuel taken ⟨start.1, start.2, start.2, none⟩

end TakenNames

/-- The walk over counters without its runs: each candidate is tried, and the first whose
key is free is the name. -/
def plainWalk (u : Unicode) (keys : List Name) (stem ext : Name) :
    Nat → Name → Nat → Option (Except EntryNameError ValidatedName)
  | 0, _, _ => none
  | fuel + 1, base, n =>
    match numberedCandidate u base n ext with
    | .error error => some (.error error)
    | .ok (candidate, _) =>
      if u.lower candidate.text ∈ keys then
        match nextCounter n with
        | some next => plainWalk u keys stem ext fuel base next
        | none => plainWalk u keys stem ext fuel stem 1
      else some (.ok candidate)

/-- The name an item is to be given where some keys are taken. -/
def plainName (u : Unicode) (keys : List Name) (fuel : Nat) (name : ValidatedName)
    (shape : NameShape) : Option (Except EntryNameError ValidatedName) :=
  if u.lower name.text ∈ keys then
    let parts := splitExtension name.text shape
    let start := startOf parts.1
    plainWalk u keys parts.1 parts.2 fuel start.1 start.2
  else some (.ok name)

/-- What calls of `insert` and `allocate` reach from a set made of some names. -/
inductive Reached (u : Unicode) : TakenNames → Prop
  | new {names : List Name} {taken : TakenNames} : TakenNames.new u names = some taken →
      Reached u taken
  | insert {taken next : TakenNames} {name : Name} {free : Bool} : Reached u taken →
      taken.insert u name = some (free, next) → Reached u next
  | allocate {taken next : TakenNames} {name given : ValidatedName} {shape : NameShape} {fuel : Nat} :
      Reached u taken → Validated u name → shape.Fits name.text →
      taken.allocate u fuel name shape = some (.named given next) → Reached u next
  | refuse {taken next : TakenNames} {name : ValidatedName} {shape : NameShape} {fuel : Nat}
      {error : EntryNameError} : Reached u taken → Validated u name → shape.Fits name.text →
      taken.allocate u fuel name shape = some (.refused error next) → Reached u next

end SyncEngine
