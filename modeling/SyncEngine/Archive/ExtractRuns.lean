import SyncEngine.Archive.OpenFiles
import SyncEngine.Archive.Resolved

/-! # Runs of an extraction

Directories are planned as the resolver numbers them, so that none is planned out of order.
No move stops where it should not, and each keeps the directories and the files in order.
-/

namespace SyncEngine.Archive

open Collections PathResolver List

/-! ## What the resolver plans -/

section Resolver

variable {u : Unicode} {resolver : PathResolver} {n : Nat} {node : DirNode} {current : DirId}

theorem Linked.withTaken (h : Linked resolver n) (hnode : resolver.dirs[current]? = some node)
    (taken : TakenNames) : Linked (resolver.withTaken current node taken) n where
  length := (resolver.length_withTaken current node taken).trans h.length
  rooted := h.rooted
  below := by
    rw [child_withTaken hnode]
    exact h.below

theorem Linked.withDir (h : Linked resolver n) (hnode : resolver.dirs[current]? = some node) (key : Name)
    (taken : TakenNames) : Linked (resolver.withDir current node key taken) (n + 1) where
  length := by rw [length_withDir, h.length]
  rooted := Nat.succ_pos n
  below dir name next hnext := by
    rw [child_withDir hnode] at hnext
    unfold extend at hnext
    split at hnext
    · cases hnext
      rw [h.length]
      exact Nat.lt_succ_self n
    · exact Nat.lt_succ_of_lt (h.below dir name next hnext)

/-- What resolving a path plans, of the directories from a number on. -/
def LinksTo (n : Nat) (planned : List PlannedDir) : Resolution DirId → Prop
  | .ok id planned' resolver => ∃ new, planned' = planned ++ new ∧
      new.map PlannedDir.id = List.range' n new.length ∧ (∀ plan ∈ new, plan.parent < plan.id) ∧
      Linked resolver (n + new.length) ∧ id < n + new.length
  | .refused _ _ _ => True
  | .aborted => True
  | .panicked => False

theorem Linked.resolveFrom {segments : List ValidatedName} {planned : List PlannedDir} {fuel : Nat}
    {out : Resolution DirId} (h : Linked resolver n) (hcurrent : current < n)
    (hrun : resolveFrom u fuel segments current planned resolver = some out) :
    LinksTo n planned out := by
  induction segments generalizing current planned resolver n with
  | nil =>
    cases hrun
    exact ⟨[], (append_nil _).symm, rfl, (fun _ hnone => nomatch hnone), h, hcurrent⟩
  | cons segment segments ih =>
    have hlt : current < resolver.dirs.length := h.length.symm ▸ hcurrent
    have hnode := getElem?_eq_getElem hlt
    generalize resolver.dirs[current] = node at hnode
    unfold PathResolver.resolveFrom at hrun
    rw [hnode] at hrun
    dsimp only at hrun
    cases hfound : node.children (u.lower segment.text) with
    | some child =>
      rw [hfound] at hrun
      exact ih h (h.below _ _ _ ((child_of_some hnode _).trans hfound)) hrun
    | none =>
      rw [hfound] at hrun
      cases hallocate : node.taken.allocate u fuel segment .dir with
      | none =>
        rw [hallocate] at hrun
        cases hrun
      | some allocation =>
        rw [hallocate] at hrun
        cases allocation with
        | aborted | refused error taken =>
          cases hrun
          trivial
        | named name taken =>
          rw [h.length] at hrun
          have hlinks := ih (h.withDir hnode (u.lower segment.text) taken) (Nat.lt_succ_self n) hrun
          cases out with
          | ok id planned' resolver' =>
            obtain ⟨new, hplanned, hids, hparents, hlinked, hlt⟩ := hlinks
            have hsum : n + 1 + new.length = n + (new.length + 1) := by omega
            rw [append_assoc] at hplanned
            refine ⟨_, hplanned, ?_, forall_mem_cons.mpr ⟨hcurrent, hparents⟩, hsum ▸ hlinked,
              hsum ▸ hlt⟩
            show n :: new.map PlannedDir.id = List.range' n (new.length + 1)
            rw [hids, range'_succ]
          | refused error planned' resolver' => trivial
          | aborted => trivial
          | panicked => exact hlinks

end Resolver

/-! ## Directories that are planned -/

section Runs

variable {Error : Type} {u : Unicode} {driver : ExtractDriver Error} {made failures : List DirId}
  {opened : List Nat} {dir : DirId} {place ordinal : Nat}

/-- What was created stays so, and no create starts. -/
structure Onward (before after : Dirs Error) : Prop where
  created : Keeps before.slots after.slots
  creates : ∀ dir ∈ after.creates, dir ∈ before.creates

theorem Onward.refl (dirs : Dirs Error) : Onward dirs dirs := ⟨fun _ h => h, fun _ h => h⟩

theorem Onward.of_eq {before after : Dirs Error} (h : after = before) : Onward before after := h ▸ Onward.refl _

theorem Onward.trans {first second third : Dirs Error} (h : Onward first second)
    (hthen : Onward second third) : Onward first third :=
  ⟨fun dir hdir => hthen.created dir (h.created dir hdir), fun dir hdir => h.creates dir (hthen.creates dir hdir)⟩

/-- A driver after it planned some directories, or none where it stops. -/
structure Plans (before after : ExtractDriver Error) (made failures : List DirId) (opened : List Nat)
    (going : Bool) (n : Nat) : Prop where
  orderly : Orderly after.dirs after.dirsFailed made failures
  filed : Filed after.dirs.slots after.files after.uploads after.finalizes opened
  onward : Onward before.dirs after.dirs
  resolver : after.resolver = before.resolver
  stops : going = false → after.stopping = true
  goes : going = true → after.stopping = before.stopping
  length : going = true → after.dirs.slots.length = before.dirs.slots.length + n

theorem countItem_cases (driver : ExtractDriver Error) :
    driver.countItem = (false, { driver with items := driver.items + 1 }.stop) ∨
      driver.countItem = (true, { driver with items := driver.items + 1 }) := by
  unfold ExtractDriver.countItem
  dsimp only
  split
  · exact Or.inl rfl
  · exact Or.inr rfl

theorem plans_stop (n : Nat) (horderly : Orderly driver.dirs driver.dirsFailed made failures)
    (hfiled : Filed driver.dirs.slots driver.files driver.uploads driver.finalizes opened) :
    Plans driver { driver with items := driver.items + 1 }.stop made failures opened false n :=
  ⟨horderly, hfiled, Onward.refl _, rfl, fun _ => rfl, nofun, nofun⟩

theorem planDir_plans {plan : PlannedDir} (horderly : Orderly driver.dirs driver.dirsFailed made failures)
    (hfiled : Filed driver.dirs.slots driver.files driver.uploads driver.finalizes opened)
    (hid : plan.id = driver.dirs.slots.length) (hparent : plan.parent < plan.id) :
    ∃ going after, driver.planDir plan = (going, after) ∧ Plans driver after made failures opened going 1 := by
  unfold ExtractDriver.planDir
  rcases countItem_cases driver with hcount | hcount
  · rw [hcount]
    exact ⟨_, _, rfl, plans_stop 1 horderly hfiled⟩
  rw [hcount]
  dsimp only
  split
  · exact ⟨_, _, rfl, plans_stop 1 horderly hfiled⟩
  have hlt : plan.parent < driver.dirs.slots.length := hid ▸ hparent
  have hup := getElem?_eq_getElem hlt
  generalize driver.dirs.slots[plan.parent] = up at hup
  obtain ⟨hplan, hkeeps⟩ := horderly.plan hup hid
  rw [hup]
  refine ⟨_, _, rfl, hplan, hfiled.keeps hkeeps, ⟨hkeeps, fun _ hmem => hmem⟩, rfl,
    nofun, fun _ => rfl, fun _ => ?_⟩
  show (driver.dirs.slots.modify plan.parent _ ++ _).length = _
  rw [length_append, length_modify]
  rfl

theorem planDirs_plans {planned : List PlannedDir} {n : Nat}
    (horderly : Orderly driver.dirs driver.dirsFailed made failures)
    (hfiled : Filed driver.dirs.slots driver.files driver.uploads driver.finalizes opened)
    (hlength : driver.dirs.slots.length = n) (hids : planned.map PlannedDir.id = List.range' n planned.length)
    (hparents : ∀ plan ∈ planned, plan.parent < plan.id) :
    ∃ going after, ExtractDriver.planDirs planned driver = (going, after) ∧
      Plans driver after made failures opened going planned.length := by
  induction planned generalizing driver n with
  | nil =>
    exact ⟨true, driver, rfl, horderly, hfiled, Onward.refl _, rfl, nofun,
      fun _ => rfl, fun _ => rfl⟩
  | cons plan planned ih =>
    obtain ⟨hparent, hrest⟩ := forall_mem_cons.mp hparents
    rw [map_cons, length_cons, range'_succ] at hids
    obtain ⟨hid, hids⟩ := List.cons.inj hids
    obtain ⟨going, mid, hplan, hmid⟩ := planDir_plans horderly hfiled (hid.trans hlength.symm) hparent
    unfold ExtractDriver.planDirs
    rw [hplan]
    cases going with
    | false =>
      exact ⟨_, _, rfl, hmid.orderly, hmid.filed, hmid.onward, hmid.resolver, hmid.stops,
        nofun, nofun⟩
    | true =>
      have hnext : mid.dirs.slots.length = n + 1 := by rw [hmid.length rfl, hlength]
      obtain ⟨going, after, hplans, hafter⟩ := ih hmid.orderly hmid.filed hnext hids hrest
      refine ⟨going, after, hplans, hafter.orderly, hafter.filed, hmid.onward.trans hafter.onward,
        hafter.resolver.trans hmid.resolver, hafter.stops, fun hgoing => ?_, fun hgoing => ?_⟩
      · rw [hafter.goes hgoing, hmid.goes rfl]
      · rw [hafter.length hgoing, hmid.length rfl, length_cons, Nat.add_assoc, Nat.add_comm 1]

theorem Extracts.resolveDirs (h : Extracts driver made failures opened) (hgoing : driver.stopping = false)
    (fuel : Nat) (segments : List ValidatedName) :
    ∃ found after, driver.resolveDirs u fuel segments = some (found, after) ∧
      Extracts after made failures opened ∧ Onward driver.dirs after.dirs ∧
      ∀ dir, found = some dir → after.stopping = false ∧ dir < after.dirs.slots.length := by
  have hlinked := h.linked hgoing
  have hstops : ∀ resolver : PathResolver, Extracts { driver with resolver }.stop made failures opened :=
    fun _ => ⟨h.orderly, h.filed, nofun⟩
  unfold ExtractDriver.resolveDirs
  cases hrun : driver.resolver.resolveDirs u fuel segments [] with
  | none => exact ⟨_, _, rfl, h, Onward.refl _, fun _ hnone => nomatch hnone⟩
  | some out =>
    have hlinks := hlinked.resolveFrom hlinked.rooted hrun
    cases out with
    | panicked => exact hlinks.elim
    | aborted => exact ⟨_, _, rfl, hstops driver.resolver, Onward.refl _, fun _ hnone => nomatch hnone⟩
    | refused error planned resolver =>
      exact ⟨_, _, rfl, hstops resolver, Onward.refl _, fun _ hnone => nomatch hnone⟩
    | ok dir planned resolver =>
      obtain ⟨new, hplanned, hids, hparents, hnext, hlt⟩ := hlinks
      rw [nil_append] at hplanned
      subst hplanned
      obtain ⟨going, after, hplans, hafter⟩ := @planDirs_plans _ { driver with resolver } _ _ _ planned _
        h.orderly h.filed rfl hids hparents
      dsimp only
      rw [hplans]
      cases going with
      | false =>
        refine ⟨_, _, rfl, ⟨hafter.orderly, hafter.filed, fun hstop => ?_⟩, hafter.onward,
          fun _ hnone => nomatch hnone⟩
        rw [hafter.stops rfl] at hstop
        cases hstop
      | true =>
        refine ⟨_, _, rfl, ⟨hafter.orderly, hafter.filed, fun _ => ?_⟩, hafter.onward, fun found hfound => ?_⟩
        · rw [hafter.length rfl, hafter.resolver]
          exact hnext
        cases hfound
        refine ⟨(hafter.goes rfl).trans hgoing, ?_⟩
        rw [hafter.length rfl]
        exact hlt

theorem Extracts.newFile (h : Extracts driver made failures opened) (hgoing : driver.stopping = false)
    (hnew : ordinal ∉ opened) (fuel : Nat) (parents : List ValidatedName) (name : ValidatedName) (link : Bool) :
    ∃ after, driver.newFile u fuel parents name ordinal link = some after ∧
      Extracts after made failures (opened ++ [ordinal]) ∧ Onward driver.dirs after.dirs := by
  have hmore : ∀ {driver : ExtractDriver Error}, Extracts driver made failures opened →
      Extracts driver made failures (opened ++ [ordinal]) := fun hextracts =>
    ⟨hextracts.orderly, { hextracts.filed with
      ordinals := fun file hfile => mem_append_left _ (hextracts.filed.ordinals file hfile)
      uploads_opened := fun other hother => mem_append_left _ (hextracts.filed.uploads_opened other hother)
      finalizes_opened := fun other hother =>
        mem_append_left _ (hextracts.filed.finalizes_opened other hother) }, hextracts.linked⟩
  obtain ⟨found, mid, hresolve, hmid, honward, hfound⟩ := @Extracts.resolveDirs _ u _ _ _ _ h hgoing fuel parents
  unfold ExtractDriver.newFile
  rw [hresolve]
  cases found with
  | none => exact ⟨mid, rfl, hmore hmid, honward⟩
  | some parent =>
    obtain ⟨hmidgoing, hlt⟩ := hfound parent rfl
    have hlinked := hmid.linked hmidgoing
    dsimp only
    have hstops : ∀ resolver : PathResolver,
        Extracts { mid with items := mid.items + 1, resolver }.stop made failures opened := fun _ =>
      ⟨hmid.orderly, hmid.filed, nofun⟩
    rcases countItem_cases mid with hcount | hcount
    · rw [hcount]
      exact ⟨_, rfl, hmore (hstops mid.resolver), honward⟩
    rw [hcount]
    dsimp only
    unfold PathResolver.fileName
    have hknown : parent < mid.resolver.dirs.length := hlinked.length.symm ▸ hlt
    have hnode := getElem?_eq_getElem hknown
    generalize mid.resolver.dirs[parent] = node at hnode
    rw [hnode]
    dsimp only
    have hcounted : Extracts { mid with items := mid.items + 1 } made failures opened :=
      ⟨hmid.orderly, hmid.filed, hmid.linked⟩
    cases node.taken.allocate u fuel name .file with
    | none => exact ⟨_, rfl, hmore hcounted, honward⟩
    | some allocation =>
      cases allocation with
      | aborted => exact ⟨_, rfl, hmore (hstops mid.resolver), honward⟩
      | refused error taken => exact ⟨_, rfl, hmore (hstops _), honward⟩
      | named given taken =>
        have hnamed : Extracts { mid with
            items := mid.items + 1
            resolver := mid.resolver.withTaken parent node taken } made failures opened :=
          ⟨hmid.orderly, hmid.filed, fun _ => hlinked.withTaken hnode taken⟩
        unfold ExtractDriver.openFile
        dsimp only
        rw [getElem?_eq_getElem hlt]
        dsimp only
        obtain ⟨hinserted, -, hthere⟩ := hnamed.insertFile hnew
          {
            parent
            phase := .receiving
            uploading := 0
            link
          }
        split
        · obtain ⟨after, hfail, hafter, hrefiled, -⟩ := hinserted.failFile hthere
          exact ⟨after, hfail, hafter, honward.trans (Onward.of_eq hrefiled.dirs)⟩
        · exact ⟨_, rfl, hinserted, honward⟩

/-! ## Directories that are created -/

theorem Extracts.startDir (h : Extracts driver made failures opened) :
    ∃ after, driver.startDir = some after ∧ Extracts after made failures opened ∧
      Keeps driver.dirs.slots after.dirs.slots ∧
      ∀ dir ∈ after.dirs.creates, dir ∈ driver.dirs.creates ∨ dir ∈ driver.dirs.ready := by
  unfold ExtractDriver.startDir
  cases hready : driver.dirs.ready with
  | nil => exact ⟨driver, rfl, h, fun _ hdir => hdir, fun _ hdir => Or.inl hdir⟩
  | cons dir rest =>
    dsimp only
    split
    · exact ⟨driver, rfl, h, fun _ hdir => hdir, fun _ hdir => Or.inl hdir⟩
    obtain ⟨after, hstart, horderly, hkeeps⟩ := h.orderly.start hready
    rw [hstart]
    have hshape : after.slots.length = driver.dirs.slots.length ∧ after.creates = driver.dirs.creates ++ [dir] := by
      unfold Dirs.start at hstart
      split at hstart
      · cases hstart
      split at hstart
      · cases hstart
        exact ⟨length_modify _ _ _, rfl⟩
      · cases hstart
    refine ⟨_, rfl, ⟨horderly, h.filed.keeps hkeeps, fun hgoing => ?_⟩, hkeeps, fun other hother => ?_⟩
    · show Linked driver.resolver after.slots.length
      rw [hshape.1]
      exact h.linked hgoing
    have hmem : other ∈ after.creates := hother
    rw [hshape.2] at hmem
    rcases mem_append.mp hmem with hold | hlast
    · exact Or.inl hold
    rw [mem_singleton.mp hlast]
    exact Or.inr mem_cons_self

theorem Extracts.failSubtree (h : Extracts driver made failures opened)
    (hplace : driver.dirs.creates[place]? = some dir) (error : Error) (fatal : Bool) :
    ∃ after, ExtractDriver.failSubtree dir error
        { ({ driver with
          dirs := { driver.dirs with creates := driver.dirs.creates.eraseIdx place } } :
            ExtractDriver Error).noteError fatal with dirsFailed := driver.dirsFailed + 1 } = some after ∧
      Extracts after made (failures ++ [dir]) opened ∧ Onward driver.dirs after.dirs := by
  obtain ⟨after, n, hfail, horderly, hkeeps, hcreates, hlength⟩ := h.orderly.fail hplace error
  have hcase : ∀ stopping, (stopping = false → driver.stopping = false) →
      ∃ final, ExtractDriver.failSubtree dir error { driver with
          dirs := { driver.dirs with creates := driver.dirs.creates.eraseIdx place }
          dirsFailed := driver.dirsFailed + 1
          stopping } = some final ∧
        Extracts final made (failures ++ [dir]) opened ∧ Onward driver.dirs final.dirs := by
    intro stopping hstop
    have hfailed : Extracts { driver with
        dirs := { after with ready := after.ready.filter fun dir => !after.failedAt dir }
        dirsFailed := n
        stopping } made (failures ++ [dir]) opened := by
      refine ⟨horderly, h.filed.keeps hkeeps, fun hgoing => ?_⟩
      show Linked driver.resolver after.slots.length
      rw [hlength]
      exact h.linked (hstop hgoing)
    have hthere : ∀ ordinal ∈ (driver.files.filter fun file => !file.2.failed && Dirs.failedAt
        { after with ready := after.ready.filter fun dir => !after.failedAt dir } file.2.parent).map Prod.fst,
        ordinal ∈ driver.files.map Prod.fst := fun ordinal hordinal =>
      (filter_sublist.map Prod.fst).mem hordinal
    obtain ⟨final, hfiles, hfinal, hrefiled⟩ := hfailed.failFiles hthere
    refine ⟨final, ?_, hfinal, ?_⟩
    · unfold ExtractDriver.failSubtree
      rw [hfail]
      exact hfiles
    rw [hrefiled.dirs]
    exact ⟨hkeeps, hcreates⟩
  cases fatal with
  | true => exact hcase true nofun
  | false => exact hcase driver.stopping id

def madeBy (dir : DirId) (made : List DirId) : CreateResult Error → List DirId
  | .created _ => made ++ [dir]
  | .notStarted => made
  | .failed _ _ => made

def lostBy (dir : DirId) (failures : List DirId) : CreateResult Error → List DirId
  | .created _ => failures
  | .notStarted => failures
  | .failed _ _ => failures ++ [dir]

theorem Extracts.dirFinished (h : Extracts driver made failures opened)
    (hplace : driver.dirs.creates[place]? = some dir) (result : CreateResult Error) :
    ∃ after, ExtractDriver.dirFinished dir result
        { driver with dirs := { driver.dirs with creates := driver.dirs.creates.eraseIdx place } } = some after ∧
      Extracts after (madeBy dir made result) (lostBy dir failures result) opened ∧
      Onward driver.dirs after.dirs := by
  have herased : ∀ other ∈ driver.dirs.creates.eraseIdx place, other ∈ driver.dirs.creates := fun other hother =>
    (eraseIdx_sublist _ _).mem hother
  cases result with
  | created name =>
    obtain ⟨dirs, hcreated, horderly, hkeeps⟩ := h.orderly.created hplace name
    have hshape : dirs.slots.length = driver.dirs.slots.length ∧
        dirs.creates = driver.dirs.creates.eraseIdx place := by
      unfold Dirs.created at hcreated
      split at hcreated
      · cases hcreated
      split at hcreated
      · cases hcreated
      obtain ⟨settled, hsettled, rfl⟩ := Option.map_eq_some_iff.mp hcreated
      have hslots : settled.slots = driver.dirs.slots ∧
          settled.creates = driver.dirs.creates.eraseIdx place := by
        unfold Dirs.settleOne at hsettled
        split at hsettled
        · cases hsettled
        cases hsettled
        exact ⟨rfl, rfl⟩
      refine ⟨?_, hslots.2⟩
      rw [length_modify, hslots.1]
    have hmade : Extracts { driver with
        dirs
        dirsCreated := driver.dirsCreated + 1 } (made ++ [dir]) failures opened := by
      refine ⟨horderly, h.filed.keeps hkeeps, fun hgoing => ?_⟩
      show Linked driver.resolver dirs.slots.length
      rw [hshape.1]
      exact h.linked hgoing
    obtain ⟨after, hfinalize, hafter, hrefiled⟩ := hmade.finalizeReady
    refine ⟨after, ?_, hafter, ?_⟩
    · unfold ExtractDriver.dirFinished
      dsimp only
      rw [hcreated]
      exact hfinalize
    rw [hrefiled.dirs]
    refine ⟨hkeeps, fun other hother => ?_⟩
    have hmem : other ∈ dirs.creates := hother
    rw [hshape.2] at hmem
    exact herased other hmem
  | notStarted =>
    obtain ⟨horderly, hkeeps⟩ := h.orderly.notStarted hplace
    refine ⟨_, rfl, ⟨horderly, h.filed.keeps hkeeps, fun hgoing => ?_⟩, hkeeps, herased⟩
    show Linked driver.resolver (driver.dirs.slots.modify dir _).length
    rw [length_modify]
    exact h.linked hgoing
  | failed error fatal =>
    obtain ⟨after, hfail, hafter, honward⟩ := h.failSubtree hplace error fatal
    refine ⟨after, ?_, hafter, honward⟩
    cases fatal with
    | true => exact hfail
    | false => exact hfail

end Runs

end SyncEngine.Archive
