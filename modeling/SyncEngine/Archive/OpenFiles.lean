import SyncEngine.Archive.DirSteps
import Mathlib.Data.List.Find

/-! # The files an extraction has open

A file is known by its ordinal. It is registered only from a directory that is created, and
has as many chunks uploading as it waits for.
-/

namespace SyncEngine.Archive

open Collections ExtractDriver List

/-- The open files, with their uploads and registrations in flight. -/
structure Filed {Error : Type} (slots : List (DirSlot Error)) (files : List (Nat × FileSlot))
    (uploads finalizes opened : List Nat) : Prop where
  once : (files.map Prod.fst).Nodup
  ordinals : ∀ file ∈ files, file.1 ∈ opened
  uploading : ∀ file ∈ files, uploads.count file.1 ≤ file.2.uploading
  uploads_opened : ∀ ordinal ∈ uploads, ordinal ∈ opened
  finalizes_opened : ∀ ordinal ∈ finalizes, ordinal ∈ opened
  /-- What is being registered is in a created directory. -/
  settled : ∀ file ∈ files, file.1 ∈ finalizes → stateIn slots file.2.parent = some .created

/-- A resolver that knows the directories planned so far. -/
structure Linked (resolver : PathResolver) (n : Nat) : Prop where
  length : resolver.dirs.length = n
  rooted : 0 < n
  below : ∀ dir key next, resolver.child dir key = some next → next < n

/-- A driver whose directories are in order, with its files in them. -/
structure Extracts {Error : Type} (driver : ExtractDriver Error) (made failures : List DirId)
    (opened : List Nat) : Prop where
  orderly : Orderly driver.dirs driver.dirsFailed made failures
  filed : Filed driver.dirs.slots driver.files driver.uploads driver.finalizes opened
  linked : driver.stopping = false → Linked driver.resolver driver.dirs.slots.length

section OpenFiles

variable {Error : Type} {driver after : ExtractDriver Error} {slots : List (DirSlot Error)}
  {files : List (Nat × FileSlot)} {uploads finalizes opened : List Nat} {made failures : List DirId}
  {ordinal other place : Nat} {file : FileSlot} {f : FileSlot → FileSlot}

/-! ## Files by ordinal -/

theorem fileAt_mem (h : driver.fileAt ordinal = some file) : (ordinal, file) ∈ driver.files := by
  obtain ⟨found, hfind, rfl⟩ := Option.map_eq_some_iff.mp h
  have hat := find?_some hfind
  have hfst : found.1 = ordinal := of_decide_eq_true hat
  rw [← hfst]
  exact mem_of_find?_eq_some hfind

theorem fileAt_isSome (h : ordinal ∈ driver.files.map Prod.fst) : ∃ file, driver.fileAt ordinal = some file := by
  obtain ⟨found, hmem, hfst⟩ := mem_map.mp h
  unfold ExtractDriver.fileAt
  cases hfind : driver.files.find? (fun file => file.1 = ordinal) with
  | some other => exact ⟨other.2, rfl⟩
  | none => exact absurd (decide_eq_true hfst) (find?_eq_none.mp hfind found hmem)

theorem fileAt_of_mem (honce : (driver.files.map Prod.fst).Nodup) (hmem : (ordinal, file) ∈ driver.files) :
    driver.fileAt ordinal = some file := by
  obtain ⟨found, hfound⟩ := fileAt_isSome (mem_map_of_mem hmem)
  have hpair := inj_on_of_nodup_map honce (fileAt_mem hfound) hmem rfl
  have hsnd : found = file := congrArg Prod.snd hpair
  exact hfound.trans (congrArg some hsnd)

theorem fileAt_setFile (f : FileSlot → FileSlot) :
    (driver.setFile ordinal f).fileAt other =
      if other = ordinal then (driver.fileAt ordinal).map f else driver.fileAt other := by
  unfold ExtractDriver.fileAt ExtractDriver.setFile
  induction driver.files with
  | nil =>
    split
    · rfl
    · rfl
  | cons found files ih =>
    have hfst : ∀ g : FileSlot → FileSlot,
        (if found.1 = ordinal then (found.1, g found.2) else found).1 = found.1 := fun g => by
      split
      · rfl
      · rfl
    rw [map_cons, find?_cons, hfst f]
    by_cases hother : other = ordinal
    · rw [if_pos hother] at ih ⊢
      rw [find?_cons]
      subst hother
      cases hat : decide (found.1 = other) with
      | true =>
        rw [if_pos (of_decide_eq_true hat)]
        rfl
      | false => exact ih
    rw [if_neg hother] at ih ⊢
    rw [find?_cons]
    cases hat : decide (found.1 = other) with
    | true =>
      rw [if_neg fun heq => hother ((of_decide_eq_true hat).symm.trans heq)]
    | false => exact ih

theorem fileAt_removeFile (h : other ≠ ordinal) :
    (driver.removeFile ordinal).fileAt other = driver.fileAt other := by
  unfold ExtractDriver.fileAt ExtractDriver.removeFile
  rw [find?_filter]
  refine congrArg (Option.map Prod.snd) (find?_congr fun found _ => ?_)
  by_cases hat : found.1 = other
  · have hne : found.1 ≠ ordinal := hat ▸ h
    rw [decide_eq_true hat, decide_eq_true hne]
    rfl
  rw [decide_eq_false hat]
  exact decide_eq_false fun hand => nomatch hand.2

theorem map_fst_setFile (f : FileSlot → FileSlot) :
    (driver.setFile ordinal f).files.map Prod.fst = driver.files.map Prod.fst := by
  unfold ExtractDriver.setFile
  rw [map_map]
  refine map_congr_left fun found _ => ?_
  show (if found.1 = ordinal then (found.1, f found.2) else found).1 = found.1
  split
  · rfl
  · rfl

theorem Filed.change (h : Filed slots files uploads finalizes opened) {files' : List (Nat × FileSlot)}
    (honce : (files'.map Prod.fst).Nodup)
    (hfrom : ∀ file ∈ files', ∃ old ∈ files, file.1 = old.1 ∧ file.2.parent = old.2.parent ∧
      old.2.uploading ≤ file.2.uploading) : Filed slots files' uploads finalizes opened where
  once := honce
  ordinals file hfile := by
    obtain ⟨old, hold, hsame, -⟩ := hfrom file hfile
    rw [hsame]
    exact h.ordinals old hold
  uploading file hfile := by
    obtain ⟨old, hold, hsame, -, hle⟩ := hfrom file hfile
    rw [hsame]
    exact le_trans (h.uploading old hold) hle
  uploads_opened := h.uploads_opened
  finalizes_opened := h.finalizes_opened
  settled file hfile hmem := by
    obtain ⟨old, hold, hsame, hparent, -⟩ := hfrom file hfile
    rw [hsame] at hmem
    rw [hparent]
    exact h.settled old hold hmem

theorem Filed.filter (h : Filed slots files uploads finalizes opened) (p : Nat × FileSlot → Bool) :
    Filed slots (files.filter p) uploads finalizes opened :=
  h.change (h.once.sublist (filter_sublist.map Prod.fst)) fun file hfile =>
    ⟨file, mem_of_mem_filter hfile, rfl, rfl, le_rfl⟩

theorem Filed.set (h : Filed slots driver.files uploads finalizes opened) (ordinal : Nat)
    (hparent : ∀ file, (f file).parent = file.parent) (huploading : ∀ file, file.uploading ≤ (f file).uploading) :
    Filed slots (driver.setFile ordinal f).files uploads finalizes opened := by
  refine h.change ?_ fun file hfile => ?_
  · rw [map_fst_setFile]
    exact h.once
  obtain ⟨old, hold, rfl⟩ := mem_map.mp hfile
  refine ⟨old, hold, ?_⟩
  split
  · exact ⟨rfl, hparent _, huploading _⟩
  · exact ⟨rfl, rfl, le_rfl⟩

theorem Filed.keeps (h : Filed slots files uploads finalizes opened) {slots' : List (DirSlot Error)}
    (hkeeps : ∀ dir, stateIn slots dir = some .created → stateIn slots' dir = some .created) :
    Filed slots' files uploads finalizes opened :=
  { h with settled := fun file hfile hmem => hkeeps _ (h.settled file hfile hmem) }

theorem FileSlot.fail_parent (file : FileSlot) : file.fail.parent = file.parent := rfl

theorem FileSlot.fail_uploading (file : FileSlot) : file.fail.uploading = file.uploading := rfl

/-- Only files changed, and what is in flight for them. -/
structure Refiled (before after : ExtractDriver Error) : Prop where
  dirs : after.dirs = before.dirs
  dirsFailed : after.dirsFailed = before.dirsFailed
  resolver : after.resolver = before.resolver
  stopping : after.stopping = false → before.stopping = false

theorem Refiled.refl (driver : ExtractDriver Error) : Refiled driver driver := ⟨rfl, rfl, rfl, id⟩

theorem Refiled.trans {first second third : ExtractDriver Error} (h : Refiled first second)
    (hthen : Refiled second third) : Refiled first third :=
  ⟨hthen.dirs.trans h.dirs, hthen.dirsFailed.trans h.dirsFailed, hthen.resolver.trans h.resolver, fun hstop =>
    h.stopping (hthen.stopping hstop)⟩

theorem Extracts.refile (h : Extracts driver made failures opened) (hrefiled : Refiled driver after)
    (hfiled : Filed driver.dirs.slots after.files after.uploads after.finalizes opened) :
    Extracts after made failures opened where
  orderly := by
    rw [hrefiled.dirs, hrefiled.dirsFailed]
    exact h.orderly
  filed := by
    rw [hrefiled.dirs]
    exact hfiled
  linked hstop := by
    rw [hrefiled.dirs, hrefiled.resolver]
    exact h.linked (hrefiled.stopping hstop)

theorem refiled_noteError (fatal : Bool) (driver : ExtractDriver Error) : Refiled driver (driver.noteError fatal) := by
  unfold ExtractDriver.noteError
  split
  · exact ⟨rfl, rfl, rfl, nofun⟩
  · exact Refiled.refl driver

theorem Extracts.noteError (h : Extracts driver made failures opened) (fatal : Bool) :
    Extracts (driver.noteError fatal) made failures opened := by
  refine h.refile (refiled_noteError fatal driver) ?_
  unfold ExtractDriver.noteError
  split
  · exact h.filed
  · exact h.filed

/-! ## Files that fail -/

section

variable (h : Extracts driver made failures opened)
include h

theorem Extracts.failFile (hmem : ordinal ∈ driver.files.map Prod.fst) :
    ∃ after, driver.failFile ordinal = some after ∧ Extracts after made failures opened ∧
      Refiled driver after ∧ after.files.map Prod.fst = driver.files.map Prod.fst := by
  obtain ⟨file, hfile⟩ := fileAt_isSome hmem
  refine ⟨{ driver.setFile ordinal FileSlot.fail with filesFailed := driver.filesFailed + 1 }, ?_, ?_,
    ⟨rfl, rfl, rfl, id⟩, map_fst_setFile _⟩
  · unfold ExtractDriver.failFile
    rw [hfile]
    rfl
  exact h.refile ⟨rfl, rfl, rfl, id⟩
    (h.filed.set ordinal FileSlot.fail_parent fun file => le_of_eq (file.fail_uploading).symm)

theorem Extracts.failFiles {ordinals : List Nat}
    (hmem : ∀ ordinal ∈ ordinals, ordinal ∈ driver.files.map Prod.fst) :
    ∃ after, driver.failFiles ordinals = some after ∧ Extracts after made failures opened ∧
      Refiled driver after := by
  induction ordinals generalizing driver with
  | nil => exact ⟨driver, rfl, h, Refiled.refl driver⟩
  | cons ordinal ordinals ih =>
    obtain ⟨mid, hfail, hmid, hrefiled, hsame⟩ := h.failFile (hmem ordinal mem_cons_self)
    obtain ⟨after, hrest, hafter, hthen⟩ := ih hmid fun other hother => by
      rw [hsame]
      exact hmem other (mem_cons_of_mem _ hother)
    refine ⟨after, ?_, hafter, hrefiled.trans hthen⟩
    unfold ExtractDriver.failFiles
    rw [foldlM_cons, hfail]
    exact hrest

theorem Extracts.insertFile (hnew : ordinal ∉ opened) (file : FileSlot) :
    Extracts (driver.insertFile ordinal file) made failures (opened ++ [ordinal]) ∧
      Refiled driver (driver.insertFile ordinal file) ∧
      ordinal ∈ (driver.insertFile ordinal file).files.map Prod.fst := by
  have hrefiled : Refiled driver (driver.insertFile ordinal file) := ⟨rfl, rfl, rfl, id⟩
  have hperm : (driver.insertFile ordinal file).files.Perm
      ((ordinal, file) :: ((driver.files.filter fun other => other.1 < ordinal) ++
        driver.files.filter fun other => ordinal < other.1)) := perm_middle
  have hmem : ∀ found, found ∈ (driver.insertFile ordinal file).files →
      found = (ordinal, file) ∨ found ∈ driver.files := by
    intro found hfound
    rcases mem_cons.mp (hperm.mem_iff.mp hfound) with heq | hrest
    · exact Or.inl heq
    rcases mem_append.mp hrest with hbefore | hafter
    · exact Or.inr (mem_of_mem_filter hbefore)
    · exact Or.inr (mem_of_mem_filter hafter)
  have hold := h.filed
  refine ⟨⟨h.orderly, ⟨?_, fun found hfound => ?_, fun found hfound => ?_, fun other hother => ?_,
    fun other hother => ?_, fun found hfound hfinal => ?_⟩, h.linked⟩, hrefiled, ?_⟩
  · rw [(hperm.map Prod.fst).nodup_iff, map_cons, map_append]
    refine nodup_cons.mpr ⟨fun hin => ?_, nodup_append.mpr ⟨?_, ?_, ?_⟩⟩
    · rw [← map_append] at hin
      obtain ⟨found, hfound, hfst⟩ := mem_map.mp hin
      have hthere : found ∈ driver.files := by
        rcases mem_append.mp hfound with hbefore | hafter
        · exact mem_of_mem_filter hbefore
        · exact mem_of_mem_filter hafter
      have hin := hold.ordinals found hthere
      rw [hfst] at hin
      exact hnew hin
    · exact hold.once.sublist (filter_sublist.map Prod.fst)
    · exact hold.once.sublist (filter_sublist.map Prod.fst)
    intro before hbefore after hafter heq
    obtain ⟨found, hfound, rfl⟩ := mem_map.mp hbefore
    obtain ⟨found', hfound', rfl⟩ := mem_map.mp hafter
    have hlt : found.1 < ordinal := of_decide_eq_true (mem_filter.mp hfound).2
    have hgt : ordinal < found'.1 := of_decide_eq_true (mem_filter.mp hfound').2
    rw [heq] at hlt
    exact absurd hlt (not_lt.mpr (le_of_lt hgt))
  · rcases hmem found hfound with rfl | hthere
    · exact mem_append_right _ (mem_singleton_self _)
    · exact mem_append_left _ (hold.ordinals found hthere)
  · rcases hmem found hfound with rfl | hthere
    · have hnone : ordinal ∉ driver.uploads := fun hin => hnew (hold.uploads_opened ordinal hin)
      show driver.uploads.count ordinal ≤ _
      rw [count_eq_zero_of_not_mem hnone]
      exact Nat.zero_le _
    · exact hold.uploading found hthere
  · exact mem_append_left _ (hold.uploads_opened other hother)
  · exact mem_append_left _ (hold.finalizes_opened other hother)
  · rcases hmem found hfound with rfl | hthere
    · exact absurd (hold.finalizes_opened ordinal hfinal) hnew
    · exact hold.settled found hthere hfinal
  · exact mem_map_of_mem (f := Prod.fst) (hperm.mem_iff.mpr mem_cons_self)

end

/-! ## Files that are registered -/

section

variable (h : Extracts driver made failures opened)
include h

theorem Extracts.finalizeOne (hfile : driver.fileAt ordinal = some file)
    (hready : finalizable driver.dirs file) :
    ∃ after, driver.finalizeOne ordinal = some after ∧ Extracts after made failures opened ∧
      Refiled driver after ∧ ∀ other, other ≠ ordinal → after.fileAt other = driver.fileAt other := by
  have hmem := fileAt_mem hfile
  unfold ExtractDriver.finalizeOne
  rw [hfile]
  dsimp only
  split
  · exact ⟨_, rfl, h.refile ⟨rfl, rfl, rfl, id⟩ (h.filed.filter _), ⟨rfl, rfl, rfl, id⟩, fun other hother =>
      fileAt_removeFile hother⟩
  rename_i hnot
  have hcreated : driver.dirs.createdAt file.parent := by
    have hphase := (Bool.and_eq_true_iff.mp hready).2
    unfold FileSlot.failed at hnot
    cases hp : file.phase with
    | receiving =>
      rw [hp] at hphase
      cases hphase
    | ended =>
      rw [hp] at hphase
      exact hphase
    | finalizing =>
      rw [hp] at hphase
      cases hphase
    | failed ended =>
      rw [hp] at hnot
      exact absurd rfl hnot
  split
  · unfold ExtractDriver.startFinalize
    rw [hfile]
    dsimp only
    rw [if_pos hcreated]
    have hset := h.filed.set (f := fun file => { file with phase := .finalizing }) ordinal (fun _ => rfl)
      fun _ => le_rfl
    refine ⟨_, rfl, h.refile ⟨rfl, rfl, rfl, id⟩ { hset with
      finalizes_opened := fun other hother => ?_
      settled := fun found hfound hfinal => ?_ }, ⟨rfl, rfl, rfl, id⟩, fun other hother => ?_⟩
    · rcases mem_append.mp hother with hold | hlast
      · exact h.filed.finalizes_opened other hold
      rw [mem_singleton.mp hlast]
      exact h.filed.ordinals _ hmem
    · rcases mem_append.mp hfinal with hold | hlast
      · exact hset.settled found hfound hold
      obtain ⟨old, hold, rfl⟩ := mem_map.mp hfound
      have hfst : old.1 = ordinal := by
        have hsame := mem_singleton.mp hlast
        split at hsame
        · exact hsame
        · exact hsame
      have hpair := inj_on_of_nodup_map h.filed.once hold hmem hfst
      rw [if_pos hfst, hpair]
      exact createdAt_iff.mp hcreated
    have hkept := @fileAt_setFile _ driver ordinal other fun file => { file with phase := .finalizing }
    exact hkept.trans (if_neg hother)
  · exact ⟨driver, rfl, h, Refiled.refl driver, fun _ _ => rfl⟩

theorem Extracts.finalizeEach {ordinals : List Nat}
    (honce : ordinals.Nodup) (hready : ∀ ordinal ∈ ordinals, ∃ file, driver.fileAt ordinal = some file ∧
      finalizable driver.dirs file) :
    ∃ after, ordinals.foldlM ExtractDriver.finalizeOne driver = some after ∧
      Extracts after made failures opened ∧ Refiled driver after := by
  induction ordinals generalizing driver with
  | nil => exact ⟨driver, rfl, h, Refiled.refl driver⟩
  | cons ordinal ordinals ih =>
    obtain ⟨hnew, hrest⟩ := nodup_cons.mp honce
    obtain ⟨file, hfile, hone⟩ := hready ordinal mem_cons_self
    obtain ⟨mid, hstep, hmid, hrefiled, hothers⟩ := h.finalizeOne hfile hone
    obtain ⟨after, hfold, hafter, hthen⟩ := ih hmid hrest fun other hother => by
      have hne : other ≠ ordinal := fun heq => hnew (heq ▸ hother)
      rw [hothers other hne, hrefiled.dirs]
      exact hready other (mem_cons_of_mem _ hother)
    refine ⟨after, ?_, hafter, hrefiled.trans hthen⟩
    rw [foldlM_cons, hstep]
    exact hfold

theorem Extracts.finalizeReady :
    ∃ after, driver.finalizeReady = some after ∧ Extracts after made failures opened ∧
      Refiled driver after := by
  unfold ExtractDriver.finalizeReady
  split
  · exact ⟨driver, rfl, h, Refiled.refl driver⟩
  refine h.finalizeEach (h.filed.once.sublist (filter_sublist.map Prod.fst)) fun ordinal hordinal => ?_
  obtain ⟨found, hfound, rfl⟩ := mem_map.mp hordinal
  obtain ⟨hmem, hready⟩ := mem_filter.mp hfound
  exact ⟨found.2, fileAt_of_mem h.filed.once hmem, hready⟩

end

/-! ## Transfers -/

section

variable (h : Extracts driver made failures opened)
include h

theorem Extracts.upload (ordinal : Nat) :
    ∃ after, driver.upload ordinal = some after ∧ Extracts after made failures opened ∧ Refiled driver after := by
  unfold ExtractDriver.upload
  cases hfile : driver.fileAt ordinal with
  | none => exact ⟨driver, rfl, h, Refiled.refl driver⟩
  | some file =>
    dsimp only
    split
    · exact ⟨driver, rfl, h, Refiled.refl driver⟩
    have hset := h.filed.set (f := fun file => { file with uploading := file.uploading + 1 }) ordinal
      (fun _ => rfl) fun _ => Nat.le_succ _
    refine ⟨_, rfl, h.refile ⟨rfl, rfl, rfl, id⟩ { hset with
      uploading := fun found hfound => ?_
      uploads_opened := fun other hother => ?_ }, ⟨rfl, rfl, rfl, id⟩⟩
    · obtain ⟨old, hold, rfl⟩ := mem_map.mp hfound
      have hle := h.filed.uploading old hold
      rw [count_append]
      split
      · rename_i hsame
        rw [hsame] at hle ⊢
        rw [count_singleton_self]
        exact Nat.succ_le_succ hle
      rename_i hother
      rw [count_eq_zero_of_not_mem (l := [ordinal]) fun hin => hother (mem_singleton.mp hin)]
      exact hle
    rcases mem_append.mp hother with hold | hlast
    · exact h.filed.uploads_opened other hold
    rw [mem_singleton.mp hlast]
    exact h.filed.ordinals _ (fileAt_mem hfile)

theorem Extracts.uploadFinished
    (hplace : driver.uploads[place]? = some ordinal) (failed : Option Bool) :
    ∃ after, uploadFinished ordinal failed
        { driver with uploads := driver.uploads.eraseIdx place } = some after ∧
      Extracts after made failures opened ∧ Refiled driver after := by
  obtain ⟨hlt, hat⟩ := List.getElem?_eq_some_iff.mp hplace
  have hperm : (ordinal :: driver.uploads.eraseIdx place).Perm driver.uploads :=
    hat ▸ getElem_cons_eraseIdx_perm hlt
  have hcount : ∀ other, driver.uploads.count other =
      (driver.uploads.eraseIdx place).count other + if ordinal = other then 1 else 0 := by
    intro other
    rw [← hperm.count_eq other, count_cons]
    by_cases heq : ordinal = other
    · rw [if_pos (beq_iff_eq.mpr heq), if_pos heq]
    · rw [if_neg fun hbeq => heq (beq_iff_eq.mp hbeq), if_neg heq]
  have hopened : ∀ other ∈ driver.uploads.eraseIdx place, other ∈ opened := fun other hother =>
    h.filed.uploads_opened other ((eraseIdx_sublist _ _).mem hother)
  have herased : Extracts { driver with uploads := driver.uploads.eraseIdx place } made failures opened :=
    h.refile ⟨rfl, rfl, rfl, id⟩ { h.filed with
      uploading := fun found hfound =>
        le_trans (Nat.le.intro (hcount found.1).symm) (h.filed.uploading found hfound)
      uploads_opened := hopened }
  have hrefiled : Refiled driver { driver with uploads := driver.uploads.eraseIdx place } := ⟨rfl, rfl, rfl, id⟩
  unfold ExtractDriver.uploadFinished
  cases hfile : fileAt { driver with uploads := driver.uploads.eraseIdx place } ordinal with
  | none => exact ⟨_, rfl, herased, hrefiled⟩
  | some file =>
    dsimp only
    have hmem : (ordinal, file) ∈ driver.files := fileAt_mem hfile
    have hpos := h.filed.uploading _ hmem
    rw [hcount, if_pos rfl] at hpos
    cases hup : file.uploading with
    | zero =>
      rw [hup] at hpos
      exact absurd hpos (Nat.not_succ_le_zero _)
    | succ uploading =>
      dsimp only
      have hset : Extracts (setFile ordinal (fun file => { file with uploading })
          { driver with uploads := driver.uploads.eraseIdx place }) made failures opened := by
        refine h.refile ⟨rfl, rfl, rfl, id⟩ ⟨?_, fun found hfound => ?_, fun found hfound => ?_, hopened,
          h.filed.finalizes_opened, fun found hfound hfinal => ?_⟩
        · rw [map_fst_setFile]
          exact h.filed.once
        · obtain ⟨old, hold, rfl⟩ := mem_map.mp hfound
          split
          all_goals exact h.filed.ordinals old hold
        · obtain ⟨old, hold, rfl⟩ := mem_map.mp hfound
          split
          · rename_i hsame
            have hpair := inj_on_of_nodup_map h.filed.once hold hmem hsame
            have hle := h.filed.uploading old hold
            rw [hcount, if_pos hsame.symm, hpair, hup] at hle
            rw [hpair]
            exact Nat.le_of_succ_le_succ hle
          · exact herased.filed.uploading old hold
        obtain ⟨old, hold, rfl⟩ := mem_map.mp hfound
        by_cases hsame : old.1 = ordinal
        · rw [if_pos hsame] at hfinal ⊢
          exact h.filed.settled old hold hfinal
        rw [if_neg hsame] at hfinal ⊢
        exact h.filed.settled old hold hfinal
      have hrefiled' : Refiled driver (setFile ordinal (fun file => { file with uploading })
          { driver with uploads := driver.uploads.eraseIdx place }) := ⟨rfl, rfl, rfl, id⟩
      cases failed with
      | none =>
        obtain ⟨after, hfinalize, hafter, hthen⟩ := hset.finalizeReady
        exact ⟨after, hfinalize, hafter, hrefiled'.trans hthen⟩
      | some fatal =>
        dsimp only
        have hnoted := hset.noteError fatal
        have hnotes := refiled_noteError fatal (setFile ordinal
          (fun file => { file with uploading }) { driver with uploads := driver.uploads.eraseIdx place })
        split
        · obtain ⟨after, hfinalize, hafter, hthen⟩ := hnoted.finalizeReady
          exact ⟨after, hfinalize, hafter, (hrefiled'.trans hnotes).trans hthen⟩
        have hthere : ordinal ∈ ((setFile ordinal (fun file => { file with uploading })
            { driver with uploads := driver.uploads.eraseIdx place }).noteError fatal).files.map
              Prod.fst := by
          have hkept : ((setFile ordinal (fun file => { file with uploading })
            { driver with uploads := driver.uploads.eraseIdx place }).noteError fatal).files =
              (setFile ordinal (fun file => { file with uploading })
                { driver with uploads := driver.uploads.eraseIdx place }).files := by
            unfold ExtractDriver.noteError
            split
            · rfl
            · rfl
          rw [hkept, map_fst_setFile]
          exact mem_map_of_mem hmem
        obtain ⟨mid, hfail, hmid, hfailed, -⟩ := hnoted.failFile hthere
        obtain ⟨after, hfinalize, hafter, hthen⟩ := hmid.finalizeReady
        rw [hfail]
        exact ⟨after, hfinalize, hafter, ((hrefiled'.trans hnotes).trans hfailed).trans hthen⟩

theorem Extracts.endFile (ordinal : Nat) :
    ∃ after, driver.endFile ordinal = some after ∧ Extracts after made failures opened ∧
      Refiled driver after := by
  unfold ExtractDriver.endFile
  cases driver.fileAt ordinal with
  | none => exact ⟨driver, rfl, h, Refiled.refl driver⟩
  | some file =>
    have hset : Extracts (driver.setFile ordinal FileSlot.ended) made failures opened :=
      h.refile ⟨rfl, rfl, rfl, id⟩ (h.filed.set ordinal (fun _ => rfl) fun _ => le_rfl)
    obtain ⟨after, hfinalize, hafter, hthen⟩ := hset.finalizeReady
    have hrefiled : Refiled driver (driver.setFile ordinal FileSlot.ended) := ⟨rfl, rfl, rfl, id⟩
    exact ⟨after, hfinalize, hafter, hrefiled.trans hthen⟩

theorem Extracts.finalizeFinished (ordinal place : Nat)
    (registration : Registration) :
    Extracts (finalizeFinished ordinal registration
        { driver with finalizes := driver.finalizes.eraseIdx place }) made failures opened ∧
      Refiled driver (finalizeFinished ordinal registration
        { driver with finalizes := driver.finalizes.eraseIdx place }) := by
  have hsub := (eraseIdx_sublist driver.finalizes place)
  have herased : Extracts { driver with finalizes := driver.finalizes.eraseIdx place } made failures opened :=
    h.refile ⟨rfl, rfl, rfl, id⟩ { h.filed with
      finalizes_opened := fun other hother => h.filed.finalizes_opened other (hsub.mem hother)
      settled := fun found hfound hfinal => h.filed.settled found hfound (hsub.mem hfinal) }
  cases registration with
  | paused =>
    exact ⟨herased.refile ⟨rfl, rfl, rfl, id⟩ (herased.filed.set ordinal (fun _ => rfl) fun _ => le_rfl),
      ⟨rfl, rfl, rfl, id⟩⟩
  | registered => exact ⟨herased.refile ⟨rfl, rfl, rfl, id⟩ (herased.filed.filter _), ⟨rfl, rfl, rfl, id⟩⟩
  | stopped => exact ⟨herased.refile ⟨rfl, rfl, rfl, id⟩ (herased.filed.filter _), ⟨rfl, rfl, rfl, id⟩⟩
  | failed fatal =>
    have hremoved : Extracts (removeFile ordinal
        { driver with finalizes := driver.finalizes.eraseIdx place }) made failures opened :=
      herased.refile ⟨rfl, rfl, rfl, id⟩ (herased.filed.filter _)
    have hnoted := hremoved.noteError fatal
    have hnotes := refiled_noteError fatal (removeFile ordinal
      { driver with finalizes := driver.finalizes.eraseIdx place })
    exact ⟨hnoted.refile ⟨rfl, rfl, rfl, id⟩ hnoted.filed, ⟨hnotes.dirs, hnotes.dirsFailed, hnotes.resolver,
      hnotes.stopping⟩⟩

theorem Extracts.dropTransfers :
    Extracts driver.dropTransfers made failures opened :=
  have hkept := h.filed.filter fun file => file.2.phase = .finalizing
  h.refile ⟨rfl, rfl, rfl, id⟩ { hkept with
    uploading := fun _ _ => Nat.zero_le _
    uploads_opened := fun _ hnone => nomatch hnone }

end

end OpenFiles

end SyncEngine.Archive
