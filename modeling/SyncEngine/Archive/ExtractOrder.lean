import SyncEngine.Archive.ExtractRuns
import SyncEngine.Archive.Extracted

/-! # Extracted directories are created once, parents first

In every run what is ready to be created is what is planned below a created directory, and
what failed is below a create that failed. A file is registered in a created directory only.
-/

namespace SyncEngine.Archive

open Collections Extracting List

section Order

variable {Error : Type} {u : Unicode}

/-- An extraction in order, with what it registered in created directories. -/
structure InOrder (s : Extracting Error) : Prop where
  extracts : Extracts s.driver s.made s.failures s.opened
  registered : ∀ file ∈ s.registered, stateIn s.driver.dirs.slots file.2 = some .created

/-- What was created stays so, and a create starts only for what is ready. -/
structure Advances (s t : Extracting Error) : Prop where
  created : Keeps s.driver.dirs.slots t.driver.dirs.slots
  creates : ∀ dir ∈ t.driver.dirs.creates, dir ∈ s.driver.dirs.creates ∨ dir ∈ s.driver.dirs.ready

/-- A step takes an extraction in order to one. -/
def Steps (s : Extracting Error) (t : Option (Extracting Error)) : Prop :=
  ∃ after, t = some after ∧ InOrder after ∧ Advances s after

section Steps

variable {s : Extracting Error} {after : ExtractDriver Error}

section

variable (h : InOrder s)
include h

theorem InOrder.stay : Steps s (some s) :=
  ⟨s, rfl, h, fun _ hdir => hdir, fun _ hdir => Or.inl hdir⟩

theorem InOrder.onward {driver : Option (ExtractDriver Error)} (hsome : driver = some after)
    (hextracts : Extracts after s.made s.failures s.opened) (honward : Onward s.driver.dirs after.dirs) :
    Steps s (s.withDriver driver) := by
  refine ⟨{ s with driver := after }, ?_, ⟨hextracts, fun file hfile => ?_⟩, honward.created, fun dir hdir => ?_⟩
  · rw [hsome]
    rfl
  · exact honward.created _ (h.registered file hfile)
  · exact Or.inl (honward.creates dir hdir)

theorem InOrder.dirFinished (place : Nat) (result : CreateResult Error) :
    Steps s (s.onDirFinished place result) := by
  unfold Extracting.onDirFinished
  cases hplace : s.driver.dirs.creates[place]? with
  | none => exact h.stay
  | some dir =>
    obtain ⟨after, hfinished, hextracts, honward⟩ := h.extracts.dirFinished hplace result
    dsimp only
    rw [hfinished, Option.map_some]
    have hregistered : ∀ file ∈ s.registered, stateIn after.dirs.slots file.2 = some .created :=
      fun file hfile => honward.created _ (h.registered file hfile)
    have hcreates : ∀ other ∈ after.dirs.creates, other ∈ s.driver.dirs.creates ∨ other ∈ s.driver.dirs.ready :=
      fun other hother => Or.inl (honward.creates other hother)
    cases result with
    | created name => exact ⟨_, rfl, ⟨hextracts, hregistered⟩, honward.created, hcreates⟩
    | notStarted => exact ⟨_, rfl, ⟨hextracts, hregistered⟩, honward.created, hcreates⟩
    | failed error fatal => exact ⟨_, rfl, ⟨hextracts, hregistered⟩, honward.created, hcreates⟩

theorem InOrder.finalizeFinished (place : Nat) (registration : Registration) :
    Steps s (some (s.onFinalizeFinished place registration)) := by
  refine ⟨_, rfl, ?_⟩
  unfold Extracting.onFinalizeFinished
  cases hplace : s.driver.finalizes[place]? with
  | none => exact ⟨h, fun _ hdir => hdir, fun _ hdir => Or.inl hdir⟩
  | some ordinal =>
    dsimp only
    obtain ⟨hextracts, hrefiled⟩ := h.extracts.finalizeFinished ordinal place registration
    have honward := Onward.of_eq hrefiled.dirs
    have hregistered : ∀ file ∈ s.registered, stateIn (ExtractDriver.finalizeFinished ordinal registration
        { s.driver with finalizes := s.driver.finalizes.eraseIdx place }).dirs.slots file.2 = some .created :=
      fun file hfile => honward.created _ (h.registered file hfile)
    have hcreates := fun other hother =>
      (Or.inl (honward.creates other hother) : other ∈ s.driver.dirs.creates ∨ other ∈ s.driver.dirs.ready)
    split
    · rename_i file hfile
      refine ⟨⟨hextracts, fun found hfound => ?_⟩, honward.created, hcreates⟩
      rcases mem_append.mp hfound with hold | hlast
      · exact hregistered found hold
      rw [mem_singleton.mp hlast]
      exact honward.created _
        (h.extracts.filed.settled _ (fileAt_mem hfile) (mem_of_getElem? hplace))
    · exact ⟨⟨hextracts, hregistered⟩, honward.created, hcreates⟩

theorem InOrder.step {move : ExtractMove Error} (hallowed : Numbered s move) :
    Steps s (step u move s) := by
  have hgoing : s.takesEvents → s.driver.stopping = false := by
    intro htakes
    exact Bool.not_eq_true' _ ▸ (Bool.and_eq_true_iff.mp htakes).1
  have hrefiled : ∀ {driver : Option (ExtractDriver Error)}, (∃ after, driver = some after ∧
      Extracts after s.made s.failures s.opened ∧ Refiled s.driver after) → Steps s (s.withDriver driver) := by
    rintro driver ⟨after, hsome, hextracts, hfiles⟩
    exact h.onward hsome hextracts (Onward.of_eq hfiles.dirs)
  cases move with
  | dirEntry fuel segments =>
    unfold Extracting.step
    dsimp only
    split
    · rename_i htakes
      obtain ⟨found, after, hresolve, hextracts, honward, -⟩ :=
        @Extracts.resolveDirs _ u _ _ _ _ h.extracts (hgoing htakes) fuel segments
      exact h.onward (by rw [hresolve]; rfl) hextracts honward
    · exact h.stay
  | fileEntry fuel parents name ordinal link =>
    unfold Extracting.step
    dsimp only
    split
    · rename_i htakes
      obtain ⟨after, hnew, hextracts, honward⟩ :=
        @Extracts.newFile _ u _ _ _ _ _ h.extracts (hgoing htakes) hallowed fuel parents name link
      rw [hnew]
      exact ⟨_, rfl, ⟨hextracts, fun file hfile => honward.created _ (h.registered file hfile)⟩,
        honward.created, fun dir hdir => Or.inl (honward.creates dir hdir)⟩
    · exact h.stay
  | startDir =>
    obtain ⟨after, hstart, hextracts, hkeeps, hcreates⟩ := h.extracts.startDir
    refine ⟨{ s with driver := after }, ?_, ⟨hextracts, fun file hfile => hkeeps _ (h.registered file hfile)⟩,
      hkeeps, hcreates⟩
    show s.withDriver s.driver.startDir = _
    rw [hstart]
    rfl
  | dirFinished place result => exact h.dirFinished place result
  | upload ordinal => exact hrefiled (h.extracts.upload ordinal)
  | uploadFinished place failed =>
    unfold Extracting.step
    dsimp only
    cases hplace : s.driver.uploads[place]? with
    | none => exact h.stay
    | some ordinal => exact hrefiled (h.extracts.uploadFinished hplace failed)
  | endFile ordinal => exact hrefiled (h.extracts.endFile ordinal)
  | failFile ordinal =>
    unfold Extracting.step
    dsimp only
    cases hfile : s.driver.fileAt ordinal with
    | none => exact h.stay
    | some file =>
      dsimp only
      split
      · obtain ⟨after, hfail, hextracts, hfiles, -⟩ :=
          h.extracts.failFile (mem_map_of_mem (f := Prod.fst) (fileAt_mem hfile))
        exact hrefiled ⟨after, hfail, hextracts, hfiles⟩
      · exact h.stay
  | finalizeReady => exact hrefiled h.extracts.finalizeReady
  | finalizeFinished place registration => exact h.finalizeFinished place registration
  | pause pauseRequested =>
    exact ⟨_, rfl, ⟨⟨h.extracts.orderly, h.extracts.filed, h.extracts.linked⟩, h.registered⟩,
      fun _ hdir => hdir, fun _ hdir => Or.inl hdir⟩
  | stop =>
    exact ⟨_, rfl, ⟨⟨h.extracts.orderly, h.extracts.filed, nofun⟩, h.registered⟩,
      fun _ hdir => hdir, fun _ hdir => Or.inl hdir⟩
  | dropTransfers =>
    unfold Extracting.step
    dsimp only
    split
    · exact ⟨_, rfl, ⟨h.extracts.dropTransfers, h.registered⟩, fun _ hdir => hdir, fun _ hdir => Or.inl hdir⟩
    · exact h.stay

end

end Steps

theorem inOrder_start {existing : List Name} {resolver : PathResolver}
    (hnew : PathResolver.new u existing = some resolver) (maxItems : Option Nat) (maxMembers : Nat) :
    InOrder (@machine Error u resolver maxItems maxMembers).start := by
  obtain ⟨taken, -, rfl⟩ := Option.map_eq_some_iff.mp hnew
  have hstates : ∀ dir state, stateIn [(⟨.root, .created, []⟩ : DirSlot Error)] dir = some state →
      dir = rootDir ∧ state = .created := by
    intro dir state hsome
    cases dir with
    | zero => exact ⟨rfl, (Option.some.inj hsome).symm⟩
    | succ dir => cases hsome
  have hparents : ∀ dir up, parentIn [(⟨.root, .created, []⟩ : DirSlot Error)] dir = some up → False := by
    intro dir up hsome
    cases dir with
    | zero => cases hsome
    | succ dir => cases hsome
  have hchildren : ∀ dir, childrenIn [(⟨.root, .created, []⟩ : DirSlot Error)] dir = [] := by
    intro dir
    cases dir with
    | zero => rfl
    | succ dir => rfl
  refine ⟨⟨⟨⟨rfl, rfl⟩, ⟨?_, ?_, ?_, ?_⟩, ?_, rfl, rfl, nodup_nil, ?_, nodup_nil, ?_, ?_, nodup_nil,
    ?_, nodup_nil, ?_, fun _ hnone => nomatch hnone⟩, ⟨nodup_nil, (fun _ hnone => nomatch hnone),
    (fun _ hnone => nomatch hnone), (fun _ hnone => nomatch hnone), (fun _ hnone => nomatch hnone),
    fun _ hnone => nomatch hnone⟩, fun _ => ⟨rfl, Nat.one_pos, ?_⟩⟩, fun _ hnone => nomatch hnone⟩
  · exact fun dir up hsome => (hparents dir up hsome).elim
  · intro dir child
    refine ⟨fun hmem => ?_, fun hsome => (hparents child dir hsome).elim⟩
    have hnone : childrenIn [(⟨.root, .created, []⟩ : DirSlot Error)] dir = [] := hchildren dir
    exact absurd hmem (hnone ▸ not_mem_nil)
  · exact fun dir => (hchildren dir).symm ▸ nodup_nil
  · exact fun dir up hsome => (hparents dir up hsome).elim
  · exact fun dir hlt hne => absurd (Nat.lt_one_iff.mp hlt) hne
  · intro dir
    exact ⟨nofun, fun ⟨_, up, hup, _⟩ => (hparents dir up hup).elim⟩
  · intro dir
    refine ⟨nofun, fun hsome => ?_⟩
    cases (hstates dir _ hsome).2
  · exact fun dir up hsome => (hparents dir up hsome).elim
  · intro dir
    exact ⟨nofun, fun ⟨hne, hsome⟩ => absurd (hstates dir _ hsome).1 hne⟩
  · intro dir
    refine ⟨fun ⟨_, hsome⟩ => ?_, fun ⟨_, own, hnone, _⟩ => absurd hnone not_mem_nil⟩
    cases (hstates dir _ hsome).2
  intro dir key next hnext
  cases dir with
  | zero => cases hnext
  | succ dir => cases hnext

/-- In every run what is left to create is counted exactly, and what is ready, each once, is
what is planned below a created directory. No move stops where it should not, and a create
starts only for what is ready. No directory is created twice, and one failed just where its
create or one above it failed, which is counted once. A file is registered only in a
directory that is created and stays so. -/
theorem directories_created_once {existing : List Name} {resolver : PathResolver}
    (hnew : PathResolver.new u existing = some resolver) {maxItems : Option Nat} {maxMembers : Nat}
    {s : Extracting Error} (h : (machine u resolver maxItems maxMembers).Reaches Numbered s) :
    let dirs := s.driver.dirs
    let state := stateIn dirs.slots
    let parent := parentIn dirs.slots
    (dirs.uncreated = dirs.slots.countP fun slot => slot.state.isPending) ∧
    (dirs.ready.Nodup ∧ ∀ dir, dir ∈ dirs.ready ↔
      state dir = some .planned ∧ ∃ up, parent dir = some up ∧ state up = some .created) ∧
    (∀ move, Numbered s move → ∃ t, step u move s = some t ∧
      ∀ dir ∈ t.driver.dirs.creates, dir ∉ dirs.creates →
        state dir = some .planned ∧ ∃ up, parent dir = some up ∧ state up = some .created) ∧
    (dirs.creates.Nodup ∧ ∀ dir, dir ∈ dirs.creates ↔ state dir = some .creating) ∧
    (s.made.Nodup ∧ ∀ dir, dir ∈ s.made ↔ dir ≠ rootDir ∧ state dir = some .created) ∧
    (∀ dir < dirs.slots.length, (∃ error, state dir = some (.failed error)) ↔
      ∃ own ∈ s.failures, Within parent own dir) ∧
    (s.driver.dirsFailed = dirs.slots.countP fun slot => slot.state.isFailed) ∧
    ∀ file ∈ s.registered, state file.2 = some .created := by
  intro dirs state parent
  have hinOrder : InOrder s := by
    refine h.invariant (inOrder_start hnew maxItems maxMembers) fun before after move hbefore hallowed hstep => ?_
    obtain ⟨reached, hsome, hreached, -⟩ := hbefore.step (u := u) hallowed
    have hsame : some reached = some after := hsome.symm.trans hstep
    exact Option.some.inj hsame ▸ hreached
  have horderly := hinOrder.extracts.orderly
  refine ⟨horderly.uncreated, ⟨horderly.ready_once, horderly.ready⟩, fun move hallowed => ?_,
    ⟨horderly.creates_once, horderly.creates⟩, ⟨horderly.done_once, horderly.done⟩, fun dir hlt => ?_,
    horderly.tally, hinOrder.registered⟩
  · obtain ⟨t, hsome, -, hadvances⟩ := hinOrder.step (u := u) hallowed
    refine ⟨t, hsome, fun dir hdir hnew => ?_⟩
    exact (horderly.ready dir).mp ((hadvances.creates dir hdir).resolve_left hnew)
  · exact (horderly.lost dir).trans (and_iff_right hlt)

end Order

/-- A directory is created, and the create of the one below it fails. -/
def oneFails : List (ExtractMove Unit) :=
  [.dirEntry 4 [⟨"d".toList⟩, ⟨"e".toList⟩], .startDir, .dirFinished 0 (.created ⟨"d".toList⟩), .startDir,
    .dirFinished 0 (.failed () false)]

theorem directories_created_once_two :
    let start : PathResolver := ⟨[⟨oneTaken, fun _ => none⟩]⟩
    let machine := @machine Unit caronUnicode start none 8
    ∃ s, machine.run oneFails machine.start = some s ∧ s.made = [1] ∧ s.failures = [2] ∧
      s.driver.dirs.uncreated = s.driver.dirs.slots.countP (fun slot => slot.state.isPending) ∧
      s.driver.dirsFailed = s.driver.dirs.slots.countP fun slot => slot.state.isFailed := by
  intro start machine
  have hrun : (machine.run oneFails machine.start).map (fun s => (s.made, s.failures)) = some ([1], [2]) := by
    decide +kernel
  obtain ⟨s, hs, hpair⟩ := Option.map_eq_some_iff.mp hrun
  have hreach : machine.Reaches Numbered s := by
    refine Machine.reaches_of_run_of .start ?_ hs
    intro move hmove t
    unfold oneFails at hmove
    simp only [mem_cons, not_mem_nil, or_false] at hmove
    rcases hmove with rfl | rfl | rfl | rfl | rfl <;> trivial
  have hnew : PathResolver.new caronUnicode ["a.txt".toList] = some start := rfl
  obtain ⟨huncreated, -, -, -, -, -, htally, -⟩ := directories_created_once hnew hreach
  exact ⟨s, hs, congrArg Prod.fst hpair, congrArg Prod.snd hpair, huncreated, htally⟩

end SyncEngine.Archive
