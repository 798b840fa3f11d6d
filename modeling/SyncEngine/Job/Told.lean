import SyncEngine.Job.Report
import Mathlib.Data.List.Perm.Basic

/-! # What the updates of a job tell

A job is reported paused only while no guard is held, a job that winds down is neither
pausing nor paused any more, and every event is told once, in order.
-/

namespace SyncEngine.Job

open Collections RunCore WindingDown Call List

/-! ## The state under the lock -/

namespace RunCore

variable {E P : Type} {core : RunCore E P} {inFlight : Nat} {now : Duration}

theorem updatePaused_paused : (core.updatePaused inFlight now).paused = core.restsWith inFlight := by
  unfold updatePaused
  split
  · rfl
  rename_i hsame
  exact (not_not.mp hsame).symm

theorem updatePaused_windingDown : (core.updatePaused inFlight now).windingDown = core.windingDown := by
  unfold updatePaused
  split <;> rfl

theorem updatePaused_events : (core.updatePaused inFlight now).batcher.events = core.batcher.events := by
  unfold updatePaused
  split <;> rfl

theorem updatePaused_maxEvents : (core.updatePaused inFlight now).batcher.maxEvents = core.batcher.maxEvents := by
  unfold updatePaused
  split <;> rfl

theorem of_restsWith (h : core.restsWith inFlight) : core.windingDown = .no ∧ inFlight = 0 := by
  unfold restsWith at h
  rw [Bool.and_eq_true, Bool.and_eq_true, decide_eq_true_iff, decide_eq_true_iff] at h
  exact ⟨h.1.2, h.2⟩

theorem runState_eq_paused (h : core.runState = .paused) : core.paused := by
  unfold runState at h
  split at h
  · exact nomatch h
  split at h
  · assumption
  · split at h <;> exact nomatch h

theorem runState_windingDown (hwinding : core.windingDown ≠ .no) (hpaused : core.paused = false) :
    core.runState ≠ .pausing ∧ core.runState ≠ .paused := by
  unfold runState
  rw [hpaused, decide_eq_false hwinding, Bool.and_false]
  split
  all_goals exact ⟨nofun, nofun⟩

theorem runState_cancelled (h : core.windingDown = .forCancel) : core.runState = .cancelling := if_pos h

theorem marks_core (core : RunCore E P) (marks : List (Mark E)) :
    (marks.foldl Mark.apply core).paused = core.paused ∧
      (marks.foldl Mark.apply core).windingDown = core.windingDown ∧
      (marks.foldl Mark.apply core).batcher.maxEvents = core.batcher.maxEvents ∧
      (marks.foldl Mark.apply core).batcher.events = core.batcher.events ++ marks.filterMap Mark.event? := by
  induction marks generalizing core with
  | nil => exact ⟨rfl, rfl, rfl, (append_nil _).symm⟩
  | cons mark marks ih =>
    obtain ⟨hpaused, hwinding, hmax, hevents⟩ := ih (Mark.apply core mark)
    cases mark with
    | changed => exact ⟨hpaused, hwinding, hmax, hevents⟩
    | urgent => exact ⟨hpaused, hwinding, hmax, hevents⟩
    | push event =>
      refine ⟨hpaused, hwinding, hmax, hevents.trans ?_⟩
      exact append_assoc _ [event] _

theorem stop_cases (cancelled : Bool) : core.stop cancelled = core ∨
    ∃ why, core.windingDown.rank < why.rank ∧ core.stop cancelled = { core with windingDown := why }.markUrgent := by
  by_cases hfurther : core.windingDown.rank < (if cancelled then forCancel else .forError).rank
  · exact Or.inr ⟨_, hfurther, if_pos hfurther⟩
  · exact Or.inl (if_neg hfurther)

end RunCore

theorem WindingDown.rank_pos {why : WindingDown} : 0 < why.rank ↔ why ≠ .no := by cases why <;> decide

theorem WindingDown.eq_forCancel {why : WindingDown} : 2 ≤ why.rank ↔ why = .forCancel := by cases why <;> decide

section Locked

variable {J E P : Type} [DecidableEq P] {counts : Counts J} {call : Call J E P} {inFlight : Nat} {now : Duration}
  {state : JobState J E P}

/-- What a call leaves of what matters here. -/
structure Changes (call : Call J E P) (before after : RunCore E P) : Prop where
  winding : before.windingDown.rank ≤ after.windingDown.rank
  maxEvents : after.batcher.maxEvents = before.batcher.maxEvents
  events : after.batcher.events = before.batcher.events ++ call.pushes

theorem Call.change_changes : Changes call state.core (call.change counts now state).core := by
  cases call with
  | withState change marks =>
    obtain ⟨-, hwinding, hmax, hevents⟩ := marks_core state.core marks
    exact ⟨Nat.le_of_eq (congrArg _ hwinding.symm), hmax, hevents⟩
  | setPauseRequested requested =>
    dsimp only [change]
    unfold RunCore.requestPause
    split <;> exact ⟨Nat.le_refl _, rfl, (append_nil _).symm⟩
  | setPhase phase =>
    dsimp only [change]
    unfold RunCore.setPhase
    split <;> exact ⟨Nat.le_refl _, rfl, (append_nil _).symm⟩
  | windDown cancelled =>
    dsimp only [change]
    rcases state.core.stop_cases cancelled with hsame | ⟨why, hfurther, hstop⟩
    · rw [hsame]
      exact ⟨Nat.le_refl _, rfl, (append_nil _).symm⟩
    rw [hstop]
    exact ⟨Nat.le_of_lt hfurther, rfl, (append_nil _).symm⟩
  | updateNow => exact ⟨Nat.le_refl _, rfl, (append_nil _).symm⟩
  | flushThenCall => exact ⟨Nat.le_refl _, rfl, (append_nil _).symm⟩
  | opStarted => exact ⟨Nat.le_refl _, rfl, (append_nil _).symm⟩
  | opFinished => exact ⟨Nat.le_refl _, rfl, (append_nil _).symm⟩
  | finishWith phase prepare marks =>
    obtain ⟨-, hwinding, hmax, hevents⟩ := marks_core state.core marks
    exact ⟨Nat.le_of_eq (congrArg _ hwinding.symm), hmax, hevents⟩

theorem Call.settled_changes : Changes call state.core (call.settled counts inFlight now state).core := by
  have hchange : Changes call state.core (call.change counts now state).core := call.change_changes
  unfold Call.settled
  split
  · exact hchange
  refine ⟨?_, ?_, ?_⟩
  · rw [updatePaused_windingDown]
    exact hchange.winding
  · rw [updatePaused_maxEvents]
    exact hchange.maxEvents
  rw [updatePaused_events]
  exact hchange.events

/-- A call leaves a job paused where nothing is in flight, or where it did not look and the job was. -/
theorem Call.settled_paused (h : (call.settled counts inFlight now state).core.paused) :
    (inFlight = 0 ∧ (call.settled counts inFlight now state).core.windingDown = .no) ∨
      (call.isStart = false ∧ state.core.paused ∧
        (call.settled counts inFlight now state).core.windingDown = state.core.windingDown) := by
  unfold Call.settled at h ⊢
  split at h
  · rename_i hflushes
    rw [if_pos hflushes]
    right
    cases call with
    | updateNow => exact ⟨rfl, h, rfl⟩
    | flushThenCall => exact ⟨rfl, h, rfl⟩
    | finishWith phase prepare marks => exact nomatch h
    | _ => exact nomatch hflushes
  rename_i hflushes
  rw [if_neg hflushes]
  left
  rw [updatePaused_paused] at h
  obtain ⟨hwinding, hnone⟩ := of_restsWith h
  exact ⟨hnone, updatePaused_windingDown.trans hwinding⟩

variable [JobPhase P] (extrapolate : Nat → Sample → Option Duration) (call : Call J E P) (counts : Counts J)
  (inFlight : Nat) (now : Duration) (state : JobState J E P)

theorem Call.locked_core :
    (call.locked counts extrapolate inFlight now state).2.core.paused =
        (call.settled counts inFlight now state).core.paused ∧
      (call.locked counts extrapolate inFlight now state).2.core.windingDown =
        (call.settled counts inFlight now state).core.windingDown ∧
      (call.locked counts extrapolate inFlight now state).2.core.batcher.maxEvents =
        (call.settled counts inFlight now state).core.batcher.maxEvents := by
  unfold Call.locked
  split <;> exact ⟨rfl, rfl, rfl⟩

theorem Call.locked_sent :
    (∃ update, (call.locked counts extrapolate inFlight now state).1 = some update ∧
      update.runState = (call.settled counts inFlight now state).core.runState ∧
      update.events = (call.settled counts inFlight now state).core.batcher.events ∧
      (call.locked counts extrapolate inFlight now state).2.core.batcher.events = []) ∨
    ((call.locked counts extrapolate inFlight now state).1 = none ∧
      (call.locked counts extrapolate inFlight now state).2.core.batcher.events =
        (call.settled counts inFlight now state).core.batcher.events) := by
  unfold Call.locked
  split
  · exact Or.inl ⟨_, rfl, rfl, rfl, rfl⟩
  · exact Or.inr ⟨rfl, rfl⟩

end Locked

/-! ## Whole runs -/

/-- Nothing is left to tell. -/
structure RunCore.Quiet {E P : Type} (core : RunCore E P) : Prop where
  pauseRequested : core.pauseRequested = false
  paused : core.paused = false
  changed : core.changed = false
  urgent : core.batcher.urgent = false
  events : core.batcher.events = []

namespace Reporter

variable {J E P : Type}

def delivered (reporter : Reporter J E P) : List E := reporter.told.flatMap fun told => told.update.events

/-- What the state and the updates sent say of the rest. -/
structure Honest (reporter : Reporter J E P) : Prop where
  rests : reporter.state.core.paused = true → reporter.held = 0 ∧ reporter.state.core.windingDown = .no
  maxEvents : 0 < reporter.state.core.batcher.maxEvents
  queued : reporter.delivered ++ reporter.state.core.batcher.events = reporter.pushed
  truth : ∀ told ∈ reporter.told, told.update.runState = .paused → told.held = 0
  quiet : reporter.ended.isSome → reporter.state.core.Quiet
  last : ∀ phase, reporter.ended = some phase →
    ∃ before last, reporter.told = before ++ [last] ∧ last.update.phase = phase

def starts (waiter : Duration × Call J E P) : Bool := waiter.2.isStart

/-- What holds between steps: the operations counted are those of the guards held and of
the ticks on their way. -/
structure Sound (reporter : Reporter J E P) : Prop where
  counted : reporter.opsInFlight =
    reporter.held + reporter.starting + reporter.waiting.countP starts
  honest : reporter.Honest

/-- What every step adds. -/
structure Grows (before after : Reporter J E P) (later : List (Told E P)) : Prop where
  told : after.told = before.told ++ later
  winding : before.state.core.windingDown.rank ≤ after.state.core.windingDown.rank
  stopped : before.state.core.windingDown ≠ .no →
    ∀ told ∈ later, told.update.runState ≠ .pausing ∧ told.update.runState ≠ .paused
  cancelled : before.state.core.windingDown = .forCancel → ∀ told ∈ later, told.update.runState = .cancelling
  ended : before.ended.isSome → after.ended = before.ended ∧ later = []

theorem Grows.refl (reporter : Reporter J E P) : reporter.Grows reporter [] :=
  ⟨(append_nil _).symm, Nat.le_refl _, (fun _ _ h => nomatch h), (fun _ _ h => nomatch h), fun _ => ⟨rfl, rfl⟩⟩

theorem Grows.trans {r s t : Reporter J E P} {later more : List (Told E P)} (h : r.Grows s later)
    (hmore : s.Grows t more) : r.Grows t (later ++ more) := by
  refine ⟨?_, Nat.le_trans h.winding hmore.winding, fun hstopped told hmem => ?_, fun hcancelled told hmem => ?_,
    fun hended => ?_⟩
  · rw [hmore.told, h.told, append_assoc]
  · rcases mem_append.mp hmem with hmem | hmem
    · exact h.stopped hstopped told hmem
    have hlater := Nat.lt_of_lt_of_le (rank_pos.mpr hstopped) h.winding
    exact hmore.stopped (rank_pos.mp hlater) told hmem
  · rcases mem_append.mp hmem with hmem | hmem
    · exact h.cancelled hcancelled told hmem
    have hlater := Nat.le_trans (eq_forCancel.mpr hcancelled) h.winding
    exact hmore.cancelled (eq_forCancel.mp hlater) told hmem
  obtain ⟨hsame, hnone⟩ := h.ended hended
  obtain ⟨hsame', hnone'⟩ := hmore.ended (hsame ▸ hended)
  exact ⟨hsame'.trans hsame, by rw [hnone, hnone']; rfl⟩

theorem Honest.same {reporter other : Reporter J E P} (hhonest : reporter.Honest) (hstate : other.state = reporter.state)
    (hheld : other.held ≤ reporter.held) (hpushed : other.pushed = reporter.pushed)
    (htold : other.told = reporter.told) (hended : other.ended = reporter.ended) : other.Honest := by
  refine ⟨fun h => ?_, ?_, ?_, ?_, ?_, ?_⟩
  · rw [hstate] at h ⊢
    obtain ⟨hnone, hno⟩ := hhonest.rests h
    exact ⟨Nat.le_zero.mp (hnone ▸ hheld), hno⟩
  · rw [hstate]
    exact hhonest.maxEvents
  · unfold delivered
    rw [hstate, htold, hpushed]
    exact hhonest.queued
  · rw [htold]
    exact hhonest.truth
  · rw [hstate, hended]
    exact hhonest.quiet
  rw [hended, htold]
  exact hhonest.last

theorem Grows.same {reporter other : Reporter J E P} (hstate : other.state = reporter.state)
    (htold : other.told = reporter.told) (hended : other.ended = reporter.ended) : reporter.Grows other [] := by
  refine ⟨?_, ?_, (fun _ _ h => nomatch h), (fun _ _ h => nomatch h), fun _ => ⟨hended, rfl⟩⟩
  · rw [htold, append_nil]
  · exact Nat.le_of_eq (congrArg (·.core.windingDown.rank) hstate.symm)

theorem fromParts_sound (phase : P) (own : J) : (fromParts phase own : Reporter J E P).Sound :=
  ⟨rfl, nofun, Nat.zero_lt_succ _, rfl, (fun _ h => nomatch h), nofun, (fun _ h => nomatch h)⟩

variable [DecidableEq P] {counts : Counts J} {reporter : Reporter J E P} {now : Duration} {call : Call J E P}

theorem Honest.settled_paused (hhonest : reporter.Honest)
    (hcounted : reporter.held + (if call.isStart then 1 else 0) ≤ reporter.opsInFlight)
    (h : (call.settled counts reporter.opsInFlight now reporter.state).core.paused) :
    reporter.held = 0 ∧ call.isStart = false ∧
      (call.settled counts reporter.opsInFlight now reporter.state).core.windingDown = .no := by
  rcases call.settled_paused h with ⟨hnone, hwinding⟩ | ⟨hstart, hpaused, hwinding⟩
  · cases hstart : call.isStart with
    | true =>
      rw [hstart, if_pos rfl] at hcounted
      omega
    | false => exact ⟨by omega, rfl, hwinding⟩
  obtain ⟨hheld, hno⟩ := hhonest.rests hpaused
  exact ⟨hheld, hstart, hwinding.trans hno⟩

theorem settled_quiet (hquiet : reporter.state.core.Quiet) (hmax : 0 < reporter.state.core.batcher.maxEvents) :
    settled counts .opFinished reporter.opsInFlight now reporter.state = reporter.state ∧
      sends counts .opFinished reporter.opsInFlight now reporter.state = false := by
  have hrests : reporter.state.core.restsWith reporter.opsInFlight = false := by
    unfold RunCore.restsWith
    rw [hquiet.pauseRequested]
    rfl
  have hsettled : settled counts .opFinished reporter.opsInFlight now reporter.state = reporter.state := by
    have hsame : reporter.state.core.updatePaused reporter.opsInFlight now = reporter.state.core := by
      unfold RunCore.updatePaused
      rw [hrests, hquiet.paused]
      rfl
    change { reporter.state with core := reporter.state.core.updatePaused reporter.opsInFlight now } = reporter.state
    rw [hsame]
  refine ⟨hsettled, ?_⟩
  unfold Call.sends
  rw [hsettled]
  change reporter.state.core.isDue now = false
  unfold RunCore.isDue EventBatcher.isDue
  rw [hquiet.urgent, hquiet.events, hquiet.changed, length_nil, decide_eq_false (Nat.not_le_of_gt hmax)]
  rfl

variable [JobPhase P] {extrapolate : Nat → Sample → Option Duration}

theorem locked_quiet (hquiet : reporter.state.core.Quiet) (hmax : 0 < reporter.state.core.batcher.maxEvents) :
    reporter.locked counts extrapolate now .opFinished = reporter := by
  obtain ⟨hsettled, hsends⟩ := @settled_quiet _ _ _ _ counts reporter now hquiet hmax
  have hlocked : Call.locked counts extrapolate .opFinished reporter.opsInFlight now reporter.state =
      (none, reporter.state) := by
    unfold Call.locked
    rw [hsends, hsettled]
    rfl
  unfold Reporter.locked
  rw [hlocked]
  dsimp only [pushes, Option.map_none, Option.toList_none]
  rw [append_nil, append_nil]
  rfl

theorem locked_ends {phase : P} (hended : reporter.ended = none)
    (h : (reporter.locked counts extrapolate now call).ended = some phase) :
    (reporter.locked counts extrapolate now call).state.core.Quiet ∧
      ∃ last, (reporter.locked counts extrapolate now call).told = reporter.told ++ [last] ∧
        last.update.phase = phase := by
  cases call with
  | finishWith phase prepare marks =>
    cases h
    exact ⟨⟨rfl, rfl, rfl, rfl, rfl⟩, _, rfl, rfl⟩
  | _ => exact nomatch hended.symm.trans h

theorem locked_later : ∃ later, (reporter.locked counts extrapolate now call).told = reporter.told ++ later ∧
    (∀ told ∈ later, told.held = reporter.held ∧ told.update.runState =
      (call.settled counts reporter.opsInFlight now reporter.state).core.runState) ∧
    (later.flatMap fun told => told.update.events) ++
      (reporter.locked counts extrapolate now call).state.core.batcher.events =
        reporter.state.core.batcher.events ++ call.pushes := by
  have hchanges : Changes call reporter.state.core
    (call.settled counts reporter.opsInFlight now reporter.state).core := call.settled_changes
  have htold : (reporter.locked counts extrapolate now call).told = reporter.told ++
      ((call.locked counts extrapolate reporter.opsInFlight now reporter.state).1.map fun update =>
        (⟨update, reporter.held⟩ : Told E P)).toList := rfl
  rcases call.locked_sent extrapolate counts reporter.opsInFlight now reporter.state with
    ⟨update, hupdate, hstate, hevents, hempty⟩ | ⟨hnone, hkept⟩
  · rw [hupdate] at htold
    refine ⟨[⟨update, reporter.held⟩], htold, fun told hmem => ?_, ?_⟩
    · rw [mem_singleton.mp hmem]
      exact ⟨rfl, hstate⟩
    change [(⟨update, reporter.held⟩ : Told E P)].flatMap _ ++
      (call.locked counts extrapolate reporter.opsInFlight now reporter.state).2.core.batcher.events = _
    rw [hempty, append_nil, flatMap_singleton, hevents]
    exact hchanges.events
  rw [hnone] at htold
  refine ⟨[], htold, (fun _ hmem => nomatch hmem), ?_⟩
  change (call.locked counts extrapolate reporter.opsInFlight now reporter.state).2.core.batcher.events = _
  rw [hkept]
  exact hchanges.events

theorem Honest.locked (hhonest : reporter.Honest) (hended : reporter.ended = none)
    (hcounted : reporter.held + (if call.isStart then 1 else 0) ≤ reporter.opsInFlight) :
    (reporter.locked counts extrapolate now call).Honest := by
  have hsettled := @Honest.settled_paused _ _ _ _ counts _ now _ hhonest hcounted
  obtain ⟨hpaused, hwinding, hmax⟩ := call.locked_core extrapolate counts reporter.opsInFlight now reporter.state
  obtain ⟨later, htold, hlater, hevents⟩ :=
    @locked_later _ _ _ _ counts reporter now call _ extrapolate
  refine ⟨fun h => ?_, ?_, ?_, fun told hmem hrun => ?_, fun h => ?_, fun phase hphase => ?_⟩
  · obtain ⟨hheld, hstart, hno⟩ := hsettled (hpaused.symm.trans h)
    refine ⟨?_, hwinding.trans hno⟩
    change reporter.held + (if call.isStart then 1 else 0) = 0
    rw [hstart, hheld]
    rfl
  · change 0 < (call.locked counts extrapolate reporter.opsInFlight now reporter.state).2.core.batcher.maxEvents
    rw [hmax, settled_changes.maxEvents]
    exact hhonest.maxEvents
  · unfold delivered
    rw [htold, flatMap_append, append_assoc, hevents, ← append_assoc]
    exact congrArg (· ++ call.pushes) hhonest.queued
  · rw [htold] at hmem
    rcases mem_append.mp hmem with hmem | hmem
    · exact hhonest.truth told hmem hrun
    obtain ⟨hheld, hstate⟩ := hlater told hmem
    rw [hheld]
    exact (hsettled (runState_eq_paused (hstate.symm.trans hrun))).1
  · obtain ⟨phase, hphase⟩ := Option.isSome_iff_exists.mp h
    exact (locked_ends hended hphase).1
  obtain ⟨-, last, hsame, hlast⟩ := locked_ends hended hphase
  exact ⟨_, last, hsame, hlast⟩

theorem Honest.grows (hhonest : reporter.Honest) (hended : reporter.ended = none)
    (hcounted : reporter.held + (if call.isStart then 1 else 0) ≤ reporter.opsInFlight) :
    ∃ later, reporter.Grows (reporter.locked counts extrapolate now call) later := by
  have hsettled := @Honest.settled_paused _ _ _ _ counts _ now _ hhonest hcounted
  have hrank := (@settled_changes _ _ _ _ counts call reporter.opsInFlight now reporter.state).winding
  obtain ⟨-, hwinding, -⟩ := call.locked_core extrapolate counts reporter.opsInFlight now reporter.state
  obtain ⟨later, htold, hlater, -⟩ := @locked_later _ _ _ _ counts reporter now call _ extrapolate
  refine ⟨later, htold, Nat.le_trans hrank (Nat.le_of_eq (congrArg _ hwinding.symm)), fun hstopped told hmem => ?_,
    fun hcancelled told hmem => ?_, fun h => nomatch hended ▸ h⟩
  · have hno := rank_pos.mp (Nat.lt_of_lt_of_le (rank_pos.mpr hstopped) hrank)
    have hruns : (call.settled counts reporter.opsInFlight now reporter.state).core.paused = false :=
      Bool.eq_false_iff.mpr fun h => hno (hsettled h).2.2
    rw [(hlater told hmem).2]
    exact runState_windingDown hno hruns
  rw [(hlater told hmem).2]
  refine runState_cancelled (eq_forCancel.mp ?_)
  exact Nat.le_trans (eq_forCancel.mpr hcancelled) hrank

theorem countP_eraseIdx {α : Type} (p : α → Bool) {items : List α} {n : Nat} {item : α} (h : items[n]? = some item) :
    items.countP p = (items.eraseIdx n).countP p + if p item then 1 else 0 := by
  obtain ⟨hlt, hitem⟩ := List.getElem?_eq_some_iff.mp h
  rw [← (getElem_cons_eraseIdx_perm hlt).countP_eq, hitem, countP_cons]

theorem Sound.step (hsound : reporter.Sound) {move : Move J E P} {after : Reporter J E P}
    (hstep : reporter.step counts extrapolate move = some after) :
    after.Sound ∧ ∃ later, reporter.Grows after later := by
  have hhonest := hsound.honest
  have hcounted := hsound.counted
  cases move with
  | pass time =>
    cases hstep
    exact ⟨⟨hcounted, hhonest.same rfl (Nat.le_refl _) rfl rfl rfl⟩, [], .same rfl rfl rfl⟩
  | call call =>
    dsimp only [Reporter.step] at hstep
    split at hstep
    · exact nomatch hstep
    rename_i hmay
    cases hstep
    refine ⟨⟨?_, hhonest.same rfl (Nat.le_refl _) rfl rfl rfl⟩, [], .same rfl rfl rfl⟩
    have hother : ¬ starts (reporter.elapsed, call) := fun h => hmay (Or.inl h)
    exact hcounted.trans (congrArg _ (countP_cons_of_neg hother).symm)
  | start =>
    dsimp only [Reporter.step] at hstep
    split at hstep
    · exact nomatch hstep
    cases hstep
    refine ⟨⟨?_, hhonest.same rfl (Nat.le_refl _) rfl rfl rfl⟩, [], .same rfl rfl rfl⟩
    dsimp only
    omega
  | drop =>
    dsimp only [Reporter.step] at hstep
    split at hstep
    · exact nomatch hstep
    cases hstep
    refine ⟨⟨?_, hhonest.same rfl (Nat.sub_le _ _) rfl rfl rfl⟩, [], .same rfl rfl rfl⟩
    dsimp only
    omega
  | tickStart =>
    dsimp only [Reporter.step] at hstep
    split at hstep
    · exact nomatch hstep
    cases hstep
    refine ⟨⟨?_, hhonest.same rfl (Nat.le_refl _) rfl rfl rfl⟩, [], .same rfl rfl rfl⟩
    dsimp only
    rw [countP_cons_of_pos (p := starts) rfl]
    omega
  | tickDrop =>
    dsimp only [Reporter.step] at hstep
    split at hstep
    · exact nomatch hstep
    cases hstep
    refine ⟨⟨?_, hhonest.same rfl (Nat.le_refl _) rfl rfl rfl⟩, [], .same rfl rfl rfl⟩
    have hother : ¬ starts (reporter.elapsed, (.opFinished : Call J E P)) := Bool.false_ne_true
    exact hcounted.trans (congrArg _ (countP_cons_of_neg hother).symm)
  | lock n =>
    dsimp only [Reporter.step] at hstep
    split at hstep
    · exact nomatch hstep
    rename_i now call hwaits
    split at hstep
    · exact nomatch hstep
    rename_i hmay
    cases hstep
    have herased := countP_eraseIdx starts hwaits
    change _ = _ + (if call.isStart then 1 else 0) at herased
    have hhonest' : ({ reporter with waiting := reporter.waiting.eraseIdx n } : Reporter J E P).Honest :=
      hhonest.same rfl (Nat.le_refl _) rfl rfl rfl
    by_cases hended : reporter.ended = none
    · have hroom : reporter.held + (if call.isStart then 1 else 0) ≤ reporter.opsInFlight := by omega
      obtain ⟨later, hgrows⟩ := @Honest.grows _ _ _ _ counts _ now call _ extrapolate hhonest' hended hroom
      refine ⟨⟨?_, hhonest'.locked hended hroom⟩, later, ?_⟩
      · change reporter.opsInFlight = reporter.held + (if call.isStart then 1 else 0) + reporter.starting +
          (reporter.waiting.eraseIdx n).countP starts
        omega
      · exact ⟨hgrows.told, hgrows.winding, hgrows.stopped, hgrows.cancelled, hgrows.ended⟩
    have hsome := Option.isSome_iff_ne_none.mpr hended
    have hdrop : call = .opFinished := by
      cases call <;> first | rfl | exact (hmay ⟨hsome, Bool.false_ne_true⟩).elim
    subst hdrop
    rw [locked_quiet (hhonest'.quiet hsome) hhonest'.maxEvents]
    exact ⟨⟨hcounted.trans (congrArg _ herased), hhonest'⟩, [], .same rfl rfl rfl⟩

/-- A job is reported paused only while no guard is held, every operation that ends was
counted, and every event is told once, in order and no later than the last update, which
is the one the job ended with. Whatever is told later of a job that winds down is neither
pausing nor paused, of a cancelled one cancelling, and of an ended one nothing. -/
theorem machine_tells (phase : P) (own : J) {reporter : Reporter J E P}
    (h : (machine counts extrapolate phase own).Reaches (fun _ _ => True) reporter) :
    (∀ told ∈ reporter.told, told.update.runState = .paused → told.held = 0) ∧
    (0 < reporter.held → 0 < reporter.opsInFlight) ∧
    reporter.delivered ++ reporter.state.core.batcher.events = reporter.pushed ∧
    (∀ phase, reporter.ended = some phase → reporter.delivered = reporter.pushed ∧
      ∃ before last, reporter.told = before ++ [last] ∧ last.update.phase = phase) ∧
    ∀ moves after, (machine counts extrapolate phase own).run moves reporter = some after →
      ∃ later, after.told = reporter.told ++ later ∧
        (reporter.state.core.windingDown ≠ .no →
          ∀ told ∈ later, told.update.runState ≠ .pausing ∧ told.update.runState ≠ .paused) ∧
        (reporter.state.core.windingDown = .forCancel → ∀ told ∈ later, told.update.runState = .cancelling) ∧
        (reporter.ended.isSome → later = []) := by
  have hsound : reporter.Sound :=
    Machine.Reaches.invariant (P := Sound) (fromParts_sound phase own) (fun r s move hr _ hstep => (Sound.step hr hstep).1) h
  have hhonest := hsound.honest
  refine ⟨hhonest.truth, fun hheld => ?_, hhonest.queued, fun phase hended => ⟨?_, hhonest.last phase hended⟩,
    fun moves after hrun => ?_⟩
  · have hcounted := hsound.counted
    omega
  · have hqueued := hhonest.queued
    rwa [(hhonest.quiet (by rw [hended]; rfl)).events, append_nil] at hqueued
  have hgrown : ∃ later, reporter.Grows after later := by
    refine Machine.run_grows (P := Sound) (R := fun r t => ∃ later, r.Grows t later) (fun r => ⟨[], .refl r⟩) ?_
      (fun r s move hr hstep => Sound.step hr hstep) hsound hrun
    rintro r s t ⟨later, hlater⟩ ⟨more, hmore⟩
    exact ⟨later ++ more, hlater.trans hmore⟩
  obtain ⟨later, hlater⟩ := hgrown
  exact ⟨later, hlater.told, hlater.stopped, hlater.cancelled, fun hended => (hlater.ended hended).2⟩

def idleCounts : Counts Unit := ⟨fun _ => ⟨0, 0, 0, 0⟩, id, id⟩

def idle : Machine (Reporter Unit Unit CopyPhase) (Move Unit Unit CopyPhase) :=
  machine idleCounts (fun _ _ => none) .scanning ()

def pausedThenCancelled : List (Move Unit Unit CopyPhase) :=
  [.start, .tickStart, .lock 0, .call (.setPauseRequested true), .lock 0, .drop, .tickDrop, .lock 0,
    .call (.windDown true), .lock 0]

theorem machine_tells_paused : ∃ reporter, idle.run pausedThenCancelled idle.start = some reporter ∧
    reporter.told.map (fun told => told.update.runState) = [.running, .pausing, .paused, .cancelling] ∧
    ∀ told ∈ reporter.told, told.update.runState = .paused → told.held = 0 := by
  have hstates : (idle.run pausedThenCancelled idle.start).map
      (fun reporter => reporter.told.map fun told => told.update.runState) =
        some [.running, .pausing, .paused, .cancelling] := by decide +kernel
  obtain ⟨reporter, hrun, hstates⟩ := Option.map_eq_some_iff.mp hstates
  have hreached : idle.Reaches (fun _ _ => True) reporter := Machine.reaches_of_run .start hrun
  exact ⟨reporter, hrun, hstates, (machine_tells CopyPhase.scanning () hreached).1⟩

end Reporter

end SyncEngine.Job
