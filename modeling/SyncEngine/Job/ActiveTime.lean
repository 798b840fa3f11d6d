import SyncEngine.Job.Told

/-! # The active time of a job

Every call reads the clock before it has the lock, so calls may get the lock in another
order than they read the clock in. Where the readings the running clock is used with are
in order, the active time told never decreases, and the last one is the time since the
start less the stretches the job was paused.
-/

namespace SyncEngine.Job

open Collections ActiveClock Call RunCore List

/-! ## The clock -/

namespace ActiveClock

variable {clock : ActiveClock} {now later : Duration}

theorem active_mono (h : now ≤ later) : clock.active now ≤ clock.active later := by
  unfold active
  cases clock.runningSince with
  | none => exact Nat.le_refl _
  | some since => exact Nat.add_le_add_left (Nat.sub_le_sub_right h since) _

theorem active_pause (clock : ActiveClock) (now other : Duration) : (clock.pause now).active other = clock.active now := by
  unfold pause
  cases h : clock.runningSince with
  | none =>
    unfold active
    rw [h]
  | some since =>
    unfold active
    rw [h]
    rfl

theorem active_stopped (h : clock.runningSince = none) : clock.active now = clock.accumulated := by
  unfold active
  rw [h]
  rfl

end ActiveClock

/-- The time the clock shows and the time paused add up to the reading it was last started or
stopped with. -/
structure ActiveClock.Adds (clock : ActiveClock) (paused : Bool) (pausedAt : Option Duration)
    (pausedFor used : Duration) : Prop where
  running : paused = false → pausedAt = none ∧ ∃ since, clock.runningSince = some since ∧
    clock.accumulated + pausedFor = since ∧ since ≤ used
  paused : paused = true → clock.runningSince = none ∧ ∃ since, pausedAt = some since ∧
    clock.accumulated + pausedFor = since ∧ since ≤ used

theorem add_since {shown paused since used now : Nat} (hadds : shown + paused = since) (hle : since ≤ used)
    (hused : used ≤ now) : shown + (now - since) + paused = now ∧ shown + (paused + (now - since)) = now := by omega

namespace ActiveClock.Adds

variable {clock : ActiveClock} {pausedAt : Option Duration} {pausedFor used now : Duration}

theorem pause (h : clock.Adds false pausedAt pausedFor used) (hused : used ≤ now) :
    (clock.pause now).accumulated + pausedFor = now ∧
      (clock.pause now).Adds true (some now) pausedFor now := by
  obtain ⟨-, since, hsince, hadds, hle⟩ := h.running rfl
  have hpause : clock.pause now = ⟨clock.accumulated + (now - since), none⟩ := by
    unfold ActiveClock.pause
    rw [hsince]
  rw [hpause]
  have hsum := (add_since hadds hle hused).1
  exact ⟨hsum, nofun, fun _ => ⟨rfl, now, rfl, hsum, Nat.le_refl _⟩⟩

theorem resume (h : clock.Adds true pausedAt pausedFor used) (hused : used ≤ now) :
    clock.accumulated + (pausedFor + (pausedAt.map (now - ·)).getD 0) = now ∧
      (clock.resume now).Adds false none (pausedFor + (pausedAt.map (now - ·)).getD 0) now ∧
      (clock.resume now).active now = clock.accumulated := by
  obtain ⟨hstopped, since, hat, hadds, hle⟩ := h.paused rfl
  have hresume : clock.resume now = ⟨clock.accumulated, some now⟩ := by
    unfold ActiveClock.resume
    rw [hstopped]
  rw [hresume, hat]
  have hsum := (add_since hadds hle hused).2
  refine ⟨hsum, ⟨fun _ => ⟨rfl, now, rfl, hsum, Nat.le_refl _⟩, nofun⟩, ?_⟩
  exact (congrArg _ (Nat.sub_self now)).trans (Nat.add_zero _)

theorem mono {paused : Bool} {other : Duration} (h : clock.Adds paused pausedAt pausedFor used) (hle : used ≤ other) :
    clock.Adds paused pausedAt pausedFor other := by
  refine ⟨fun hpaused => ?_, fun hpaused => ?_⟩
  · obtain ⟨hnone, since, hsince, hadds, hbefore⟩ := h.running hpaused
    exact ⟨hnone, since, hsince, hadds, Nat.le_trans hbefore hle⟩
  obtain ⟨hstopped, since, hat, hadds, hbefore⟩ := h.paused hpaused
  exact ⟨hstopped, since, hat, hadds, Nat.le_trans hbefore hle⟩

end ActiveClock.Adds

namespace RateEstimator

theorem trim_suffix (window active : Duration) (samples : List Sample) : trim window active samples <:+ samples := by
  induction samples with
  | nil => exact suffix_refl _
  | cons first rest ih =>
    rcases rest with _ | ⟨second, _ | ⟨third, rest⟩⟩
    · exact suffix_refl _
    · exact suffix_refl _
    unfold trim
    split
    · exact ih.trans (suffix_cons _ _)
    · exact suffix_refl _

/-- The samples are in the order of their times, none behind the given one. -/
def UpTo (rate : RateEstimator) (bound : Duration) : Prop :=
  (rate.samples.map Sample.active).Pairwise (· ≤ ·) ∧ ∀ sample ∈ rate.samples, sample.active ≤ bound

variable {rate : RateEstimator} {bound other : Duration}

theorem UpTo.mono (h : rate.UpTo bound) (hle : bound ≤ other) : rate.UpTo other :=
  ⟨h.1, fun sample hmem => Nat.le_trans (h.2 sample hmem) hle⟩

theorem UpTo.record (h : rate.UpTo bound) (bytesDone unitsDone : Nat) :
    (rate.record bound bytesDone unitsDone).UpTo bound := by
  unfold RateEstimator.record
  split
  · exact h
  have hsub := (trim_suffix rate.window bound (rate.samples ++ [⟨bound, bytesDone, unitsDone⟩])).sublist
  refine ⟨List.Pairwise.sublist (hsub.map Sample.active) ?_, fun sample hmem => ?_⟩
  · rw [map_append, pairwise_append]
    refine ⟨h.1, pairwise_singleton _ _, fun a ha b hb => ?_⟩
    obtain ⟨sample, hmem, rfl⟩ := mem_map.mp ha
    rw [mem_singleton.mp hb]
    exact h.2 sample hmem
  rcases mem_append.mp (hsub.subset hmem) with hmem | hmem
  · exact h.2 sample hmem
  · exact Nat.le_of_eq (congrArg Sample.active (mem_singleton.mp hmem))

end RateEstimator

/-! ## What is seen of a run -/

section Uses

variable {J E P : Type} {inFlight : Nat} {now : Duration}

theorem RunCore.marks_clock (core : RunCore E P) (marks : List (Mark E)) :
    (marks.foldl Mark.apply core).clock = core.clock ∧ (marks.foldl Mark.apply core).rate = core.rate := by
  induction marks generalizing core with
  | nil => exact ⟨rfl, rfl⟩
  | cons mark marks ih =>
    obtain ⟨hclock, hrate⟩ := ih (Mark.apply core mark)
    cases mark <;> exact ⟨hclock, hrate⟩

theorem RunCore.updatePaused_clock (core : RunCore E P) :
    ((core.updatePaused inFlight now).paused = core.paused ∧ (core.updatePaused inFlight now).clock = core.clock) ∨
    (core.paused = false ∧ (core.updatePaused inFlight now).paused ∧
      (core.updatePaused inFlight now).clock = core.clock.pause now) ∨
    (core.paused ∧ (core.updatePaused inFlight now).paused = false ∧
      (core.updatePaused inFlight now).clock = core.clock.resume now) := by
  unfold RunCore.updatePaused
  cases hrests : core.restsWith inFlight <;> cases hpaused : core.paused
  · exact Or.inl ⟨hpaused, rfl⟩
  · exact Or.inr (Or.inr ⟨rfl, rfl, rfl⟩)
  · exact Or.inr (Or.inl ⟨rfl, rfl, rfl⟩)
  · exact Or.inl ⟨hpaused, rfl⟩

theorem RunCore.updatePaused_rate (core : RunCore E P) : (core.updatePaused inFlight now).rate = core.rate := by
  unfold RunCore.updatePaused
  split <;> rfl

variable [DecidableEq P] {counts : Counts J} {call : Call J E P} {state : JobState J E P}

theorem Call.change_clock (hends : call.ends = none) :
    (call.change counts now state).core.clock = state.core.clock ∧
      (call.change counts now state).core.paused = state.core.paused := by
  cases call with
  | withState change marks =>
    exact ⟨(marks_clock state.core marks).1, (marks_core state.core marks).1⟩
  | setPauseRequested requested =>
    dsimp only [change]
    unfold RunCore.requestPause
    split <;> exact ⟨rfl, rfl⟩
  | setPhase phase =>
    dsimp only [change]
    unfold RunCore.setPhase
    split <;> exact ⟨rfl, rfl⟩
  | windDown cancelled =>
    dsimp only [change]
    rcases state.core.stop_cases cancelled with hsame | ⟨why, -, hstop⟩
    · rw [hsame]
      exact ⟨rfl, rfl⟩
    rw [hstop]
    exact ⟨rfl, rfl⟩
  | finishWith phase prepare marks => exact nomatch hends
  | _ => exact ⟨rfl, rfl⟩

theorem Call.settled_clock (hends : call.ends = none) :
    ((call.settled counts inFlight now state).core.paused = state.core.paused ∧
      (call.settled counts inFlight now state).core.clock = state.core.clock) ∨
    (state.core.paused = false ∧ (call.settled counts inFlight now state).core.paused ∧
      (call.settled counts inFlight now state).core.clock = state.core.clock.pause now) ∨
    (state.core.paused ∧ (call.settled counts inFlight now state).core.paused = false ∧
      (call.settled counts inFlight now state).core.clock = state.core.clock.resume now) := by
  have hkept : (call.change counts now state).core.clock = state.core.clock ∧
      (call.change counts now state).core.paused = state.core.paused := change_clock hends
  obtain ⟨hclock, hpaused⟩ := hkept
  unfold Call.settled
  split
  · exact Or.inl ⟨hpaused, hclock⟩
  rw [← hclock, ← hpaused]
  exact updatePaused_clock _

theorem Call.settled_rate : (call.settled counts inFlight now state).core.rate = state.core.rate := by
  have hchange : (call.change counts now state).core.rate = state.core.rate := by
    cases call with
    | withState change marks => exact (marks_clock state.core marks).2
    | setPauseRequested requested =>
      dsimp only [change]
      unfold RunCore.requestPause
      split <;> rfl
    | setPhase phase =>
      dsimp only [change]
      unfold RunCore.setPhase
      split <;> rfl
    | windDown cancelled =>
      dsimp only [change]
      rcases state.core.stop_cases cancelled with hsame | ⟨why, -, hstop⟩
      · rw [hsame]
      rw [hstop]
      rfl
    | finishWith phase prepare marks => exact (marks_clock state.core marks).2
    | _ => rfl
  unfold Call.settled
  split
  · exact hchange
  rw [updatePaused_rate]
  exact hchange

variable (counts)

def Call.toggles (call : Call J E P) (inFlight : Nat) (now : Duration) (state : JobState J E P) : Bool :=
  state.core.paused != (call.settled counts inFlight now state).core.paused

/-- A call uses its reading on the running clock: to stop it, to start it, or to tell what it shows. -/
def Call.usesClock (call : Call J E P) (inFlight : Nat) (now : Duration) (state : JobState J E P) : Bool :=
  call.toggles counts inFlight now state ||
    (call.sends counts inFlight now state && !(call.settled counts inFlight now state).core.paused)

end Uses

structure Watched (J E P : Type) where
  reporter : Reporter J E P
  /-- The latest reading the running clock was used with. -/
  used : Duration
  /-- The reading the pause the job is in took hold with. -/
  pausedAt : Option Duration
  pausedFor : Duration
  endedAt : Option Duration

namespace Watched

variable {J E P : Type} [DecidableEq P] (counts : Counts J)

def seen (watched : Watched J E P) (now : Duration) (call : Call J E P) (after : Reporter J E P) : Watched J E P :=
  let toggles := call.toggles counts watched.reporter.opsInFlight now watched.reporter.state
  { reporter := after
    used :=
      if call.usesClock counts watched.reporter.opsInFlight now watched.reporter.state then max watched.used now
      else watched.used
    pausedAt := if toggles then (if watched.pausedAt.isSome then none else some now) else watched.pausedAt
    pausedFor := if toggles then watched.pausedFor + (watched.pausedAt.map (now - ·)).getD 0 else watched.pausedFor
    endedAt := if call.ends.isSome then some now else watched.endedAt }

/-! ## What is kept -/

variable {counts} {watched : Watched J E P} {now : Duration} {call : Call J E P}

/-- The active times told are in order, the clock shows no less than any, and the last one
is what was not spent paused. -/
structure Kept (watched : Watched J E P) : Prop where
  adds : watched.reporter.ended = none → watched.reporter.state.core.clock.Adds
    watched.reporter.state.core.paused watched.pausedAt watched.pausedFor watched.used
  told : (watched.reporter.told.map fun told => told.update.activeTime).Pairwise (· ≤ ·)
  shown : ∀ told ∈ watched.reporter.told,
    told.update.activeTime ≤ watched.reporter.state.core.clock.active watched.used
  samples : watched.reporter.state.core.rate.UpTo (watched.reporter.state.core.clock.active watched.used)
  ended : watched.reporter.ended = none → watched.endedAt = none
  last : ∀ reading, watched.endedAt = some reading → ∃ before last, watched.reporter.told = before ++ [last] ∧
    last.update.activeTime + watched.pausedFor = reading

omit [DecidableEq P] in
theorem Kept.same (hkept : watched.Kept) {after : Reporter J E P}
    (hstate : after.state = watched.reporter.state) (htold : after.told = watched.reporter.told)
    (hended : after.ended = watched.reporter.ended) : ({ watched with reporter := after } : Watched J E P).Kept := by
  refine ⟨?_, ?_, ?_, ?_, ?_, ?_⟩
  · rw [hstate, hended]
    exact hkept.adds
  · rw [htold]
    exact hkept.told
  · rw [htold, hstate]
    exact hkept.shown
  · rw [hstate]
    exact hkept.samples
  · rw [hended]
    exact hkept.ended
  rw [htold]
  exact hkept.last

/-- What a call makes of the clock, by what is seen of it. -/
structure Settles (counts : Counts J) (watched : Watched J E P) (now : Duration) (call : Call J E P)
    (seen : Watched J E P) (core : RunCore E P) : Prop where
  adds : call.ends = none → core.clock.Adds core.paused seen.pausedAt seen.pausedFor seen.used
  shown : watched.reporter.state.core.clock.active watched.used ≤ core.clock.active seen.used
  sent : call.sends counts watched.reporter.opsInFlight now watched.reporter.state = true →
    core.clock.active now = core.clock.active seen.used
  last : call.ends.isSome → core.clock.active now + seen.pausedFor = now

theorem seen_toggles (after : Reporter J E P)
    (htoggles : call.toggles counts watched.reporter.opsInFlight now watched.reporter.state)
    (htimely : watched.used ≤ now) :
    (watched.seen counts now call after).used = now ∧
      (watched.seen counts now call after).pausedAt = (if watched.pausedAt.isSome then none else some now) ∧
      (watched.seen counts now call after).pausedFor =
        watched.pausedFor + (watched.pausedAt.map (now - ·)).getD 0 := by
  have huses : call.usesClock counts watched.reporter.opsInFlight now watched.reporter.state := by
    unfold Call.usesClock
    rw [htoggles, Bool.true_or]
  unfold seen
  dsimp only
  rw [if_pos huses, if_pos htoggles, if_pos htoggles]
  exact ⟨Nat.max_eq_right htimely, rfl, rfl⟩

theorem seen_quiet (after : Reporter J E P)
    (htoggles : call.toggles counts watched.reporter.opsInFlight now watched.reporter.state = false) :
    watched.used ≤ (watched.seen counts now call after).used ∧
      (watched.seen counts now call after).pausedAt = watched.pausedAt ∧
      (watched.seen counts now call after).pausedFor = watched.pausedFor := by
  unfold seen
  dsimp only
  rw [if_neg (Bool.eq_false_iff.mp htoggles), if_neg (Bool.eq_false_iff.mp htoggles)]
  refine ⟨?_, rfl, rfl⟩
  split
  · exact Nat.le_max_left _ _
  · exact Nat.le_refl _

theorem seen_tells (after : Reporter J E P)
    (htimely : call.usesClock counts watched.reporter.opsInFlight now watched.reporter.state →
      watched.used ≤ now) (hsends : call.sends counts watched.reporter.opsInFlight now watched.reporter.state)
    (hruns : (call.settled counts watched.reporter.opsInFlight now watched.reporter.state).core.paused = false) :
    (watched.seen counts now call after).used = now := by
  have huses : call.usesClock counts watched.reporter.opsInFlight now watched.reporter.state := by
    unfold Call.usesClock
    rw [hsends, hruns, Bool.not_false, Bool.and_true, Bool.or_true]
  unfold seen
  rw [if_pos huses]
  exact Nat.max_eq_right (htimely huses)

theorem settled_ends {inFlight : Nat} {state : JobState J E P} (hends : call.ends.isSome) :
    (call.settled counts inFlight now state).core.clock = state.core.clock.pause now ∧
      (call.settled counts inFlight now state).core.paused = false ∧
      call.sends counts inFlight now state := by
  cases call with
  | finishWith phase prepare marks =>
    exact ⟨congrArg (pause · now) (marks_clock state.core marks).1, rfl, rfl⟩
  | _ => exact nomatch hends

theorem Kept.settles (hkept : watched.Kept) (hended : watched.reporter.ended = none)
    (htimely : call.usesClock counts watched.reporter.opsInFlight now watched.reporter.state →
      watched.used ≤ now) (after : Reporter J E P) :
    watched.Settles counts now call (watched.seen counts now call after)
      (call.settled counts watched.reporter.opsInFlight now watched.reporter.state).core := by
  have hadds := hkept.adds hended
  have huses : call.toggles counts watched.reporter.opsInFlight now watched.reporter.state →
      watched.used ≤ now := fun h => htimely (by unfold Call.usesClock; rw [h, Bool.true_or])
  cases hends : call.ends with
  | none =>
    have hlast : ¬ call.ends.isSome := by
      rw [hends]
      exact nofun
    rcases @settled_clock _ _ _ watched.reporter.opsInFlight now _ counts call watched.reporter.state hends with
      ⟨hpaused, hclock⟩ | ⟨hbefore, hpaused, hclock⟩ | ⟨hbefore, hpaused, hclock⟩
    · have htoggles : call.toggles counts watched.reporter.opsInFlight now watched.reporter.state = false := by
        unfold Call.toggles
        rw [hpaused, bne_self_eq_false]
      obtain ⟨hle, hat, hfor⟩ := seen_quiet after htoggles
      refine ⟨fun _ => ?_, ?_, fun hsends => ?_, fun h => (hlast h).elim⟩
      · rw [hclock, hpaused, hat, hfor]
        exact hadds.mono hle
      · rw [hclock]
        exact active_mono hle
      cases hruns : (call.settled counts watched.reporter.opsInFlight now watched.reporter.state).core.paused with
      | false => rw [seen_tells after htimely hsends hruns]
      | true =>
        rw [hclock]
        have hstopped := (hadds.paused (hpaused.symm.trans hruns)).1
        rw [active_stopped hstopped, active_stopped hstopped]
    · have htoggles : call.toggles counts watched.reporter.opsInFlight now watched.reporter.state := by
        unfold Call.toggles
        rw [hpaused, hbefore]
        rfl
      rw [hbefore] at hadds
      obtain ⟨hused, hat, hfor⟩ := seen_toggles after htoggles (huses htoggles)
      rw [(hadds.running rfl).1] at hat hfor
      refine ⟨fun _ => ?_, ?_, fun _ => ?_, fun h => (hlast h).elim⟩
      · rw [hclock, hpaused, hused, hat, hfor]
        exact (hadds.pause (huses htoggles)).2
      · rw [hclock, active_pause]
        exact active_mono (huses htoggles)
      · rw [hused]
    have htoggles : call.toggles counts watched.reporter.opsInFlight now watched.reporter.state := by
      unfold Call.toggles
      rw [hpaused, hbefore]
      rfl
    rw [hbefore] at hadds
    obtain ⟨hused, hat, hfor⟩ := seen_toggles after htoggles (huses htoggles)
    obtain ⟨hstopped, since, hsince, -⟩ := hadds.paused rfl
    obtain ⟨-, hresumed, hshown⟩ := hadds.resume (huses htoggles)
    rw [hsince, Option.isSome_some, if_pos rfl] at hat
    refine ⟨fun _ => ?_, ?_, fun _ => ?_, fun h => (hlast h).elim⟩
    · rw [hclock, hpaused, hused, hat, hfor]
      exact hresumed
    · refine Nat.le_of_eq ?_
      rw [hclock, hused, hshown, active_stopped hstopped]
    · rw [hused]
  | some phase =>
    have hsome : call.ends.isSome := by
      rw [hends]
      rfl
    obtain ⟨hclock, hpaused, hsends⟩ :=
      @settled_ends _ _ _ _ counts now call watched.reporter.opsInFlight watched.reporter.state hsome
    have hused := seen_tells after htimely hsends hpaused
    have htime : watched.used ≤ now := htimely (by
      unfold Call.usesClock
      rw [hsends, hpaused, Bool.not_false, Bool.and_true, Bool.or_true])
    refine ⟨(fun h => nomatch hends.symm.trans h), ?_, fun _ => by rw [hused], fun _ => ?_⟩
    · rw [hclock, active_pause]
      exact active_mono htime
    rw [hclock, active_pause]
    cases hbefore : watched.reporter.state.core.paused with
    | false =>
      have htoggles : call.toggles counts watched.reporter.opsInFlight now watched.reporter.state = false := by
        unfold Call.toggles
        rw [hpaused, hbefore]
        rfl
      rw [hbefore] at hadds
      rw [(seen_quiet after htoggles).2.2, ← active_pause _ _ now,
        active_stopped ((hadds.pause htime).2.paused rfl).1]
      exact (hadds.pause htime).1
    | true =>
      have htoggles : call.toggles counts watched.reporter.opsInFlight now watched.reporter.state := by
        unfold Call.toggles
        rw [hpaused, hbefore]
        rfl
      rw [hbefore] at hadds
      rw [(seen_toggles after htoggles htime).2.2, active_stopped (hadds.paused rfl).1]
      exact (hadds.resume htime).1

theorem seen_ended (hquiet : watched.reporter.state.core.Quiet)
    (hmax : 0 < watched.reporter.state.core.batcher.maxEvents) (after : Reporter J E P) :
    watched.seen counts now .opFinished after = { watched with reporter := after } := by
  obtain ⟨hsettled, hsends⟩ := @Reporter.settled_quiet _ _ _ _ counts watched.reporter now hquiet hmax
  have htoggles : toggles counts .opFinished watched.reporter.opsInFlight now watched.reporter.state = false := by
    unfold Call.toggles
    rw [hsettled, bne_self_eq_false]
  have huses : usesClock counts .opFinished watched.reporter.opsInFlight now watched.reporter.state = false := by
    unfold Call.usesClock
    rw [htoggles, hsends]
    rfl
  unfold seen
  rw [htoggles, huses]
  rfl

/-! ## Whole runs -/

variable (counts) in
/-- A call that uses its reading on the running clock read it no earlier than any such call before it. -/
def Timely (watched : Watched J E P) : Move J E P → Prop
  | .lock n => ∀ waiter ∈ watched.reporter.waiting[n]?,
      waiter.2.usesClock counts watched.reporter.opsInFlight waiter.1 watched.reporter.state = true →
        watched.used ≤ waiter.1
  | _ => True

variable (counts) in
instance (watched : Watched J E P) (move : Move J E P) : Decidable (watched.Timely counts move) := by
  cases move <;> (unfold Timely; infer_instance)

variable [JobPhase P] (counts) (extrapolate : Nat → Sample → Option Duration)

def step (watched : Watched J E P) (move : Move J E P) : Option (Watched J E P) :=
  (watched.reporter.step counts extrapolate move).map fun after =>
    match move with
    | .lock n =>
      match watched.reporter.waiting[n]? with
      | some (now, call) => watched.seen counts now call after
      | none => { watched with reporter := after }
    | _ => { watched with reporter := after }

def machine (phase : P) (own : J) : Machine (Watched J E P) (Move J E P) where
  start := ⟨.fromParts phase own, 0, none, 0, none⟩
  step move watched := watched.step counts extrapolate move

variable {counts extrapolate}

theorem locked_clock (counts : Counts J) (extrapolate : Nat → Sample → Option Duration) (reporter : Reporter J E P)
    (now : Duration) (call : Call J E P) :
    (reporter.locked counts extrapolate now call).state.core.clock =
        (call.settled counts reporter.opsInFlight now reporter.state).core.clock ∧
      (reporter.locked counts extrapolate now call).state.core.paused =
        (call.settled counts reporter.opsInFlight now reporter.state).core.paused ∧
      ((call.sends counts reporter.opsInFlight now reporter.state = false ∧
        (reporter.locked counts extrapolate now call).told = reporter.told ∧
        (reporter.locked counts extrapolate now call).state.core.rate = reporter.state.core.rate) ∨
      (call.sends counts reporter.opsInFlight now reporter.state ∧ ∃ told bytesDone unitsDone,
        (reporter.locked counts extrapolate now call).told = reporter.told ++ [told] ∧
        told.update.activeTime =
          (call.settled counts reporter.opsInFlight now reporter.state).core.clock.active now ∧
        (reporter.locked counts extrapolate now call).state.core.rate =
          reporter.state.core.rate.record told.update.activeTime bytesDone unitsDone)) := by
  have hrate : (call.settled counts reporter.opsInFlight now reporter.state).core.rate = reporter.state.core.rate :=
    settled_rate
  unfold Reporter.locked Call.locked
  cases hsends : call.sends counts reporter.opsInFlight now reporter.state with
  | false =>
    rw [if_neg Bool.false_ne_true]
    exact ⟨rfl, rfl, Or.inl ⟨rfl, append_nil _, hrate⟩⟩
  | true =>
    rw [if_pos rfl, ← hrate]
    exact ⟨rfl, rfl, Or.inr ⟨rfl, _, _, _, rfl, rfl, rfl⟩⟩

theorem Kept.locked (hkept : watched.Kept) (hended : watched.reporter.ended = none)
    (hsettles : watched.Settles counts now call
      (watched.seen counts now call (watched.reporter.locked counts extrapolate now call))
      (call.settled counts watched.reporter.opsInFlight now watched.reporter.state).core) :
    (watched.seen counts now call (watched.reporter.locked counts extrapolate now call)).Kept := by
  obtain ⟨hclock, hpaused, hsent⟩ := locked_clock counts extrapolate watched.reporter now call
  generalize hseen : watched.seen counts now call (watched.reporter.locked counts extrapolate now call) = seen at hsettles ⊢
  have hafter : seen.reporter = watched.reporter.locked counts extrapolate now call := by
    rw [← hseen]
    rfl
  have hends : seen.reporter.ended = call.ends := by
    rw [hafter]
    change (call.ends <|> watched.reporter.ended) = call.ends
    rw [hended]
    cases call.ends <;> rfl
  have hendedAt : seen.endedAt = if call.ends.isSome then some now else none := by
    rw [← hseen, ← hkept.ended hended]
    rfl
  rw [← hafter] at hclock hpaused hsent
  have hbefore : ∀ told ∈ watched.reporter.told,
      told.update.activeTime ≤ seen.reporter.state.core.clock.active seen.used := by
    intro told hmem
    rw [hclock]
    exact Nat.le_trans (hkept.shown told hmem) hsettles.shown
  have hsamples : watched.reporter.state.core.rate.UpTo (seen.reporter.state.core.clock.active seen.used) := by
    rw [hclock]
    exact hkept.samples.mono hsettles.shown
  have hadds : seen.reporter.ended = none → seen.reporter.state.core.clock.Adds
      seen.reporter.state.core.paused seen.pausedAt seen.pausedFor seen.used := by
    intro hnone
    rw [hclock, hpaused]
    exact hsettles.adds (hends.symm.trans hnone)
  have hnot : seen.reporter.ended = none → seen.endedAt = none := by
    intro hnone
    rw [hendedAt, ← hends, hnone]
    rfl
  rcases hsent with ⟨hsends, htold, hrate⟩ | ⟨hsends, told, bytesDone, unitsDone, htold, htime, hrate⟩
  · refine ⟨hadds, ?_, ?_, ?_, hnot, fun reading hreading => ?_⟩
    · rw [htold]
      exact hkept.told
    · rw [htold]
      exact hbefore
    · rw [hrate]
      exact hsamples
    rw [hendedAt] at hreading
    split at hreading
    · rename_i hsome
      rw [(settled_ends hsome).2.2] at hsends
      exact nomatch hsends
    · exact nomatch hreading
  have hlatest : told.update.activeTime = seen.reporter.state.core.clock.active seen.used := by
    rw [htime, hclock]
    exact hsettles.sent hsends
  refine ⟨hadds, ?_, ?_, ?_, hnot, fun reading hreading => ?_⟩
  · rw [htold, map_append, pairwise_append]
    refine ⟨hkept.told, pairwise_singleton _ _, fun a ha b hb => ?_⟩
    obtain ⟨other, hmem, rfl⟩ := mem_map.mp ha
    rw [mem_singleton.mp hb]
    exact Nat.le_trans (hbefore other hmem) (Nat.le_of_eq hlatest.symm)
  · intro other hmem
    rw [htold] at hmem
    rcases mem_append.mp hmem with hmem | hmem
    · exact hbefore other hmem
    refine Nat.le_of_eq ?_
    rw [mem_singleton.mp hmem, hlatest]
  · rw [hrate, hlatest]
    exact hsamples.record _ _
  rw [hendedAt] at hreading
  split at hreading
  · rename_i hsome
    cases hreading
    refine ⟨_, told, htold, ?_⟩
    rw [htime]
    exact hsettles.last hsome
  · exact nomatch hreading

theorem step_same {reporter after : Reporter J E P} {move : Move J E P} (hmove : ∀ n, move ≠ .lock n)
    (h : reporter.step counts extrapolate move = some after) :
    after.state = reporter.state ∧ after.told = reporter.told ∧ after.ended = reporter.ended := by
  cases move with
  | lock n => exact (hmove n rfl).elim
  | pass time =>
    cases h
    exact ⟨rfl, rfl, rfl⟩
  | _ =>
    dsimp only [Reporter.step] at h
    split at h
    · exact nomatch h
    cases h
    exact ⟨rfl, rfl, rfl⟩

theorem Kept.step (hkept : watched.Kept) (hsound : watched.reporter.Sound) {move : Move J E P}
    {after : Watched J E P} (htimely : watched.Timely counts move)
    (hstep : watched.step counts extrapolate move = some after) : after.Kept := by
  obtain ⟨reporter, hmoved, hafter⟩ := Option.map_eq_some_iff.mp hstep
  by_cases hlock : ∃ n, move = .lock n
  · obtain ⟨n, rfl⟩ := hlock
    dsimp only at hafter
    dsimp only [Reporter.step] at hmoved
    cases hwaits : watched.reporter.waiting[n]? with
    | none =>
      rw [hwaits] at hmoved
      exact nomatch hmoved
    | some waiter =>
      obtain ⟨now, call⟩ := waiter
      rw [hwaits] at hmoved hafter
      dsimp only at hmoved hafter
      split at hmoved
      · exact nomatch hmoved
      rename_i hmay
      cases hmoved
      have herased : ({ watched with reporter :=
          { watched.reporter with waiting := watched.reporter.waiting.eraseIdx n } } : Watched J E P).Kept :=
        hkept.same rfl rfl rfl
      by_cases hended : watched.reporter.ended = none
      · rw [← hafter]
        exact herased.locked hended (herased.settles hended (htimely (now, call) hwaits) _)
      have hsome := Option.isSome_iff_ne_none.mpr hended
      have hdrop : call = .opFinished := by
        cases call <;> first | rfl | exact (hmay ⟨hsome, Bool.false_ne_true⟩).elim
      subst hdrop
      have hquiet := hsound.honest.quiet hsome
      have hmax := hsound.honest.maxEvents
      rw [seen_ended hquiet hmax] at hafter
      have hlocked := @Reporter.locked_quiet _ _ _ _ counts
        { watched.reporter with waiting := watched.reporter.waiting.eraseIdx n } now _ extrapolate hquiet hmax
      rw [← hafter, hlocked]
      exact herased
  have hother : ∀ n, move ≠ .lock n := fun n h => hlock ⟨n, h⟩
  obtain ⟨hstate, htold, hended⟩ := step_same hother hmoved
  have hsame : after = { watched with reporter } := by
    rw [← hafter]
    cases move <;> first | rfl | exact (hother _ rfl).elim
  rw [hsame]
  exact hkept.same hstate htold hended

theorem step_reporter (watched : Watched J E P) (move : Move J E P) :
    (watched.step counts extrapolate move).map Watched.reporter = watched.reporter.step counts extrapolate move := by
  unfold step
  rw [Option.map_map]
  refine (Option.map_congr fun after _ => ?_).trans Option.map_id'
  dsimp only [Function.comp]
  cases move with
  | lock n =>
    dsimp only
    split <;> rfl
  | _ => rfl

/-- Where no call uses an earlier reading on the running clock than a call before it, the
active time of the updates never decreases, no sample is recorded behind another one, and the
last update tells the time since the start less the time spent paused. -/
theorem active_time_ordered (phase : P) (own : J) {watched : Watched J E P}
    (h : (machine counts extrapolate phase own).Reaches (Timely counts) watched) :
    (watched.reporter.told.map fun told => told.update.activeTime).Pairwise (· ≤ ·) ∧
    (watched.reporter.state.core.rate.samples.map Sample.active).Pairwise (· ≤ ·) ∧
    ∀ reading, watched.endedAt = some reading → ∃ before last, watched.reporter.told = before ++ [last] ∧
      last.update.activeTime + watched.pausedFor = reading := by
  have hkept : watched.reporter.Sound ∧ watched.Kept := by
    refine Machine.Reaches.invariant (P := fun w => w.reporter.Sound ∧ w.Kept) ⟨Reporter.fromParts_sound phase own, ?_⟩
      (fun w after move hw htimely hstep => ?_) h
    · refine ⟨fun _ => ⟨fun _ => ⟨rfl, 0, rfl, rfl, Nat.le_refl _⟩, nofun⟩, List.Pairwise.nil, (fun _ h => nomatch h),
        ⟨List.Pairwise.nil, fun _ h => nomatch h⟩, fun _ => rfl, (fun _ h => nomatch h)⟩
    have hmoved : w.reporter.step counts extrapolate move = some after.reporter := by
      rw [← step_reporter, show w.step counts extrapolate move = some after from hstep]
      rfl
    exact ⟨(hw.1.step hmoved).1, hw.2.step hw.1 htimely hstep⟩
  exact ⟨hkept.2.told, hkept.2.samples.1, hkept.2.last⟩

def idle : Machine (Watched Unit Unit CopyPhase) (Move Unit Unit CopyPhase) :=
  machine Reporter.idleCounts (fun _ _ => none) .scanning ()

def pausedForAWhile : List (Move Unit Unit CopyPhase) :=
  [.pass 5, .call (.setPauseRequested true), .lock 0, .pass 10, .call (.setPauseRequested false), .lock 0, .pass 7,
    .call (.finishWith .done id []), .lock 0]

theorem active_time_ordered_paused : ∃ watched,
    (idle.guarded (Timely Reporter.idleCounts)).run pausedForAWhile idle.start = some watched ∧
    watched.endedAt = some 22 ∧ watched.pausedFor = 10 ∧
    ∃ before last, watched.reporter.told = before ++ [last] ∧ last.update.activeTime + watched.pausedFor = 22 := by
  have hended : ((idle.guarded (Timely Reporter.idleCounts)).run pausedForAWhile idle.start).map
      (fun watched => (watched.endedAt, watched.pausedFor)) = some (some 22, 10) := by decide +kernel
  obtain ⟨watched, hrun, hended⟩ := Option.map_eq_some_iff.mp hended
  obtain ⟨hat, hpaused⟩ := Prod.mk.inj hended
  have hreached : idle.Reaches (Timely Reporter.idleCounts) watched := Machine.reaches_of_run_guarded .start hrun
  exact ⟨watched, hrun, hat, hpaused, (active_time_ordered CopyPhase.scanning () hreached).2.2 22 hat⟩

/-- Two tasks send an update at once, and the one that read the clock first has the lock last. -/
def lateReading : List (Move Unit Unit CopyPhase) :=
  [.pass 5, .call .updateNow, .pass 5, .call .updateNow, .lock 0, .lock 0]

theorem active_time_decreases : ∃ reporter, Reporter.idle.run lateReading Reporter.idle.start = some reporter ∧
    ¬ (reporter.told.map fun told => told.update.activeTime).Pairwise (· ≤ ·) := by
  have htimes : (Reporter.idle.run lateReading Reporter.idle.start).map
      (fun reporter => reporter.told.map fun told => told.update.activeTime) = some [10, 5] := by decide +kernel
  obtain ⟨reporter, hrun, htimes⟩ := Option.map_eq_some_iff.mp htimes
  refine ⟨reporter, hrun, ?_⟩
  rw [htimes]
  decide

end Watched

end SyncEngine.Job
