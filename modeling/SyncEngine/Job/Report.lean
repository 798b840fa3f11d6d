import Mathlib.Algebra.Group.Nat.Defs
import SyncEngine.Collections.Machine

/-! # Reporting a job

The job-agnostic half of a job's progress reporting: pause and cancel state, the
active-time clock, the rate estimator and event batching, and the reporter that turns
state changes into throttled, ordered callbacks. Every call reads the clock and then does
its work in one hold of the state lock, while operations are counted outside of it.
-/

namespace SyncEngine.Job

open Collections

abbrev Duration := Nat

structure EventBatcher (E : Type) where
  events : List E
  interval : Duration
  maxEvents : Nat
  lastUpdate : Option Duration
  urgent : Bool

namespace EventBatcher

variable {E : Type}

def new (interval : Duration) (maxEvents : Nat) : EventBatcher E :=
  { events := [], interval, maxEvents := max maxEvents 1, lastUpdate := none, urgent := false }

def CALLBACK_INTERVAL : Duration := 200 * 1000000

def MAX_EVENTS_PER_UPDATE : Nat := 1000

def default : EventBatcher E := new CALLBACK_INTERVAL MAX_EVENTS_PER_UPDATE

def push (batcher : EventBatcher E) (event : E) : EventBatcher E :=
  { batcher with events := batcher.events ++ [event] }

def markUrgent (batcher : EventBatcher E) : EventBatcher E := { batcher with urgent := true }

/-- An update carrying no change is never due on the interval alone. -/
def isDue (batcher : EventBatcher E) (now : Duration) (changed : Bool) : Bool :=
  if batcher.urgent || decide (batcher.maxEvents ≤ batcher.events.length) then true
  else if !changed && batcher.events.isEmpty then false
  else match batcher.lastUpdate with
    | none => true
    | some last => batcher.interval ≤ now - last

/-- Starts a new batch, returning the events of the one just delivered. -/
def take (batcher : EventBatcher E) (now : Duration) : List E × EventBatcher E :=
  (batcher.events, { batcher with lastUpdate := some now, urgent := false, events := [] })

end EventBatcher

structure ActiveClock where
  accumulated : Duration
  runningSince : Option Duration
  deriving DecidableEq, Repr

namespace ActiveClock

def resume (clock : ActiveClock) (now : Duration) : ActiveClock :=
  match clock.runningSince with
  | none => { clock with runningSince := some now }
  | some _ => clock

def pause (clock : ActiveClock) (now : Duration) : ActiveClock :=
  match clock.runningSince with
  | none => clock
  | some since => { accumulated := clock.accumulated + (now - since), runningSince := none }

def active (clock : ActiveClock) (now : Duration) : Duration :=
  clock.accumulated + match clock.runningSince with
    | none => 0
    | some since => now - since

end ActiveClock

structure Sample where
  active : Duration
  bytesDone : Nat
  unitsDone : Nat
  deriving DecidableEq, Repr

structure RateEstimator where
  window : Duration
  samples : List Sample

namespace RateEstimator

def RATE_WINDOW : Duration := 10 * 1000000000

def default : RateEstimator := ⟨RATE_WINDOW, []⟩

/-- Keep one sample at or before the window start, so the window stays fully covered. -/
def trim (window active : Duration) : List Sample → List Sample
  | first :: second :: third :: rest =>
    if window ≤ active - second.active then trim window active (second :: third :: rest)
    else first :: second :: third :: rest
  | samples => samples

/-- Records progress. Samples must not go back in time. -/
def record (rate : RateEstimator) (active : Duration) (bytesDone unitsDone : Nat) : RateEstimator :=
  if rate.samples.getLast? = some ⟨active, bytesDone, unitsDone⟩ then rate
  else { rate with samples := trim rate.window active (rate.samples ++ [⟨active, bytesDone, unitsDone⟩]) }

/-- The progress made across the window, unless the samples span no active time. -/
def span (rate : RateEstimator) : Option Sample := do
  let first ← rate.samples.head?
  let last ← rate.samples.getLast?
  if first.active < last.active then
    some ⟨last.active - first.active, last.bytesDone - first.bytesDone, last.unitsDone - first.unitsDone⟩
  else none

def bytesPerSecond (rate : RateEstimator) : Option Nat :=
  rate.span.map fun span => min (span.bytesDone * 1000000000 / span.active) (2 ^ 64 - 1)

/-- The time left, extrapolated from the work done over the window. -/
def eta (extrapolate : Nat → Sample → Option Duration) (rate : RateEstimator) (remainingUnits : Nat) :
    Option Duration :=
  if remainingUnits = 0 then some 0
  else do
    let span ← rate.span
    if span.unitsDone = 0 then none else extrapolate remainingUnits span

end RateEstimator

/-! ## The state every job has -/

/-- Whether a job is running, and how far a pause or cancel has got. -/
inductive RunState where
  | running
  /-- A pause was requested and in-flight work is still finishing. -/
  | pausing
  | paused
  /-- Cancelled and winding down; a cancel overrides a pause. -/
  | cancelling
  deriving DecidableEq, Repr

/-- Whether a job winds down, and why; it only ever goes further down this list. -/
inductive WindingDown where
  | no
  | forError
  | forCancel
  deriving DecidableEq, Repr

def WindingDown.rank : WindingDown → Nat
  | no => 0
  | forError => 1
  | forCancel => 2

/-- A job's phase: every job ends in one of the three terminal ones. -/
class JobPhase (P : Type) where
  DONE : P
  CANCELLED : P
  FAILED : P

def JobPhase.isTerminal {P : Type} [DecidableEq P] [JobPhase P] (phase : P) : Bool :=
  phase = DONE || phase = CANCELLED || phase = FAILED

inductive CopyPhase where
  | scanning
  | creatingDirectories
  | copyingFiles
  | finishing
  | done
  | cancelled
  | failed
  deriving DecidableEq, Repr

instance : JobPhase CopyPhase := ⟨.done, .cancelled, .failed⟩

structure Progress where
  bytesDone : Nat
  done : Nat
  settled : Nat
  total : Nat

/-- What a job counts: its progress, its counts settled once it has ended, and what is left
of them once an update told them. -/
structure Counts (J : Type) where
  progress : J → Progress
  settle : J → J
  deliver : J → J

structure Update (E P : Type) where
  phase : P
  runState : RunState
  events : List E
  bytesPerSecond : Option Nat
  eta : Option Duration
  /-- Time spent running, paused time left out. -/
  activeTime : Duration

structure RunCore (E P : Type) where
  phase : P
  pauseRequested : Bool
  paused : Bool
  windingDown : WindingDown
  /-- Whether anything moved since the last update. -/
  changed : Bool
  clock : ActiveClock
  rate : RateEstimator
  batcher : EventBatcher E

namespace RunCore

variable {E P : Type}

def new (phase : P) : RunCore E P where
  phase := phase
  pauseRequested := false
  paused := false
  windingDown := .no
  changed := true
  clock := ActiveClock.resume ⟨0, none⟩ 0
  rate := .default
  batcher := .default

def runState (core : RunCore E P) : RunState :=
  if core.windingDown = .forCancel then .cancelling
  else if core.paused then .paused
  else if core.pauseRequested && core.windingDown = .no then .pausing
  else .running

def markChanged (core : RunCore E P) : RunCore E P := { core with changed := true }

def push (core : RunCore E P) (event : E) : RunCore E P :=
  { core with changed := true, batcher := core.batcher.push event }

def markUrgent (core : RunCore E P) : RunCore E P := { core with batcher := core.batcher.markUrgent }

def isDue (core : RunCore E P) (now : Duration) : Bool := core.batcher.isDue now core.changed

def snapshot [DecidableEq P] [JobPhase P] (extrapolate : Nat → Sample → Option Duration) (core : RunCore E P) (now : Duration)
    (progress : Progress) : Update E P × RunCore E P :=
  let activeTime := core.clock.active now
  let rate := core.rate.record activeTime progress.bytesDone progress.done
  let (events, batcher) := core.batcher.take now
  ({ phase := core.phase
     runState := core.runState
     events
     bytesPerSecond := rate.bytesPerSecond
     -- a job winding down does nothing more, so there is no time left to estimate
     eta := if core.windingDown ≠ .no ∧ ¬ JobPhase.isTerminal core.phase then none
       else rate.eta extrapolate (progress.total - progress.settled)
     activeTime },
   { core with rate, batcher, changed := false })

def requestPause (core : RunCore E P) (requested : Bool) : RunCore E P :=
  if core.pauseRequested ≠ requested then { core with pauseRequested := requested }.markUrgent else core

def setPhase [DecidableEq P] (core : RunCore E P) (phase : P) : RunCore E P :=
  if core.phase ≠ phase then { core with phase }.markUrgent else core

def stop (core : RunCore E P) (cancelled : Bool) : RunCore E P :=
  let why := if cancelled then .forCancel else .forError
  if core.windingDown.rank < why.rank then { core with windingDown := why }.markUrgent else core

/-- Whether the job counts as paused while so many operations are in flight. -/
def restsWith (core : RunCore E P) (inFlight : Nat) : Bool :=
  core.pauseRequested && core.windingDown = .no && inFlight = 0

def updatePaused (core : RunCore E P) (inFlight : Nat) (now : Duration) : RunCore E P :=
  if core.restsWith inFlight ≠ core.paused then
    { core with
      paused := core.restsWith inFlight
      clock := if core.restsWith inFlight then core.clock.pause now else core.clock.resume now }.markUrgent
  else core

/-- Settled for the last update: a finished job is neither pausing nor paused. -/
def finished (core : RunCore E P) (now : Duration) : RunCore E P :=
  { core with pauseRequested := false, paused := false, clock := core.clock.pause now }

end RunCore

/-! ## Calls -/

/-- What a job's own change of state may do to the state every job has. -/
inductive Mark (E : Type) where
  | changed
  | urgent
  | push (event : E)

def Mark.apply {E P : Type} (core : RunCore E P) : Mark E → RunCore E P
  | changed => core.markChanged
  | urgent => core.markUrgent
  | push event => core.push event

def Mark.event? {E : Type} : Mark E → Option E
  | push event => some event
  | _ => none

inductive Call (J E P : Type) where
  /-- A change of the job's own state, with what it marks; a tick changes nothing. -/
  | withState (change : J → J) (marks : List (Mark E))
  | setPauseRequested (requested : Bool)
  | setPhase (phase : P)
  | windDown (cancelled : Bool)
  /-- Sends an update at once. -/
  | updateNow
  /-- Sends an update at once and calls into the callback. -/
  | flushThenCall
  /-- The tick of an operation that was counted. -/
  | opStarted
  /-- The tick of an operation that is no longer counted. -/
  | opFinished
  | finishWith (phase : P) (prepare : J → J) (marks : List (Mark E))

structure JobState (J E P : Type) where
  core : RunCore E P
  own : J

section Locked

variable {J E P : Type} [DecidableEq P] [JobPhase P] (counts : Counts J) (extrapolate : Nat → Sample → Option Duration)

def flush (now : Duration) (state : JobState J E P) : Update E P × JobState J E P :=
  let (update, core) := state.core.snapshot extrapolate now (counts.progress state.own)
  (update, ⟨core, counts.deliver state.own⟩)

def Call.change (now : Duration) (state : JobState J E P) : Call J E P → JobState J E P
  | withState change marks => ⟨marks.foldl Mark.apply state.core, change state.own⟩
  | setPauseRequested requested => { state with core := state.core.requestPause requested }
  | setPhase phase => { state with core := state.core.setPhase phase }
  | windDown cancelled => { state with core := state.core.stop cancelled }
  | finishWith phase prepare marks =>
    ⟨{ marks.foldl Mark.apply state.core with phase }.finished now, counts.settle (prepare state.own)⟩
  | _ => state

/-- Whether a call sends an update whether or not one is due, without settling whether the
job counts as paused. -/
def Call.flushes : Call J E P → Bool
  | updateNow | flushThenCall | finishWith .. => true
  | _ => false

def Call.settled (call : Call J E P) (inFlight : Nat) (now : Duration) (state : JobState J E P) : JobState J E P :=
  let changed := call.change counts now state
  if call.flushes then changed else { changed with core := changed.core.updatePaused inFlight now }

def Call.sends (call : Call J E P) (inFlight : Nat) (now : Duration) (state : JobState J E P) : Bool :=
  call.flushes || (call.settled counts inFlight now state).core.isDue now

def Call.locked (call : Call J E P) (inFlight : Nat) (now : Duration) (state : JobState J E P) :
    Option (Update E P) × JobState J E P :=
  let settled := call.settled counts inFlight now state
  if call.sends counts inFlight now state then
    let (update, state) := flush counts extrapolate now settled
    (some update, state)
  else (none, settled)

end Locked

def Call.pushes {J E P : Type} : Call J E P → List E
  | withState _ marks | finishWith _ _ marks => marks.filterMap Mark.event?
  | _ => []

def Call.isStart {J E P : Type} : Call J E P → Bool
  | opStarted => true
  | _ => false

/-- The tick of an operation that is no longer counted. -/
def Call.isDrop {J E P : Type} : Call J E P → Bool
  | opFinished => true
  | _ => false

def Call.ends {J E P : Type} : Call J E P → Option P
  | finishWith phase _ _ => some phase
  | _ => none

/-! ## Tasks -/

/-- An update as it was delivered: while so many guards were held. -/
structure Told (E P : Type) where
  update : Update E P
  held : Nat

structure Reporter (J E P : Type) where
  state : JobState J E P
  /-- Each guard also counts as an owner of the reporter, of which there are fewer than a
  machine word holds. -/
  opsInFlight : Nat
  elapsed : Duration
  /-- Operations counted, their tick without a clock reading yet. -/
  starting : Nat
  /-- Operations no longer counted, their tick without a clock reading yet. -/
  ending : Nat
  /-- Calls that read the clock and wait for the lock. -/
  waiting : List (Duration × Call J E P)
  /-- Guards handed out and not dropped. -/
  held : Nat
  pushed : List E
  told : List (Told E P)
  ended : Option P

inductive Move (J E P : Type) where
  | pass (time : Duration)
  /-- A task reads the clock for a call of its own. -/
  | call (call : Call J E P)
  | start
  | drop
  /-- A task reads the clock for the tick of an operation it counted. -/
  | tickStart
  /-- A task reads the clock for the tick of a guard it dropped. -/
  | tickDrop
  /-- The waiting call of the number gets the lock. -/
  | lock (n : Nat)

namespace Reporter

variable {J E P : Type} [DecidableEq P] [JobPhase P] (counts : Counts J) (extrapolate : Nat → Sample → Option Duration)

def fromParts (phase : P) (own : J) : Reporter J E P where
  state := ⟨.new phase, own⟩
  opsInFlight := 0
  elapsed := 0
  starting := 0
  ending := 0
  waiting := []
  held := 0
  pushed := []
  told := []
  ended := none

/-- A call gets the lock, with the time it read before. -/
def locked (reporter : Reporter J E P) (now : Duration) (call : Call J E P) : Reporter J E P :=
  let (update, state) := call.locked counts extrapolate reporter.opsInFlight now reporter.state
  { reporter with
    state
    pushed := reporter.pushed ++ call.pushes
    told := reporter.told ++ (update.map fun update => ⟨update, reporter.held⟩).toList
    held := reporter.held + if call.isStart then 1 else 0
    ended := call.ends <|> reporter.ended }

/-- Once a job ended, guards are dropped and nothing else is asked. -/
def step (reporter : Reporter J E P) : Move J E P → Option (Reporter J E P)
  | .pass time => some { reporter with elapsed := reporter.elapsed + time }
  | .call call =>
    if call.isStart ∨ call.isDrop ∨ reporter.ended.isSome then none
    else some { reporter with waiting := (reporter.elapsed, call) :: reporter.waiting }
  | .start =>
    if reporter.ended.isSome then none
    else some { reporter with opsInFlight := reporter.opsInFlight + 1, starting := reporter.starting + 1 }
  | .drop =>
    if reporter.held = 0 then none
    else some { reporter with
      opsInFlight := reporter.opsInFlight - 1
      held := reporter.held - 1
      ending := reporter.ending + 1 }
  | .tickStart =>
    if reporter.starting = 0 ∨ reporter.ended.isSome then none
    else some { reporter with
      starting := reporter.starting - 1
      waiting := (reporter.elapsed, .opStarted) :: reporter.waiting }
  | .tickDrop =>
    if reporter.ending = 0 then none
    else some { reporter with
      ending := reporter.ending - 1
      waiting := (reporter.elapsed, .opFinished) :: reporter.waiting }
  | .lock n =>
    match reporter.waiting[n]? with
    | none => none
    | some (now, call) =>
      if reporter.ended.isSome ∧ ¬ call.isDrop then none
      else some ({ reporter with waiting := reporter.waiting.eraseIdx n }.locked counts extrapolate now call)

def machine (phase : P) (own : J) : Machine (Reporter J E P) (Move J E P) where
  start := fromParts phase own
  step move reporter := reporter.step counts extrapolate move

end Reporter

end SyncEngine.Job
