import SyncEngine.Stage.Screened

/-! # The order of a plan is safe

Phases alone order a plan, and the path inside one. What the phases cannot tell apart, a
directory deleted and created again at its path, no reconcile plans.
-/

namespace SyncEngine

open Collections List SyncAction

namespace SyncAction

def deletesDir : SyncAction → Bool
  | deleteLocal _ .dir | trashRemote _ .dir _ => true
  | _ => false

def createsDir : SyncAction → Bool
  | createLocalDir _ | createRemoteDir _ => true
  | _ => false

def isTransfer : SyncAction → Bool
  | uploadFile _ | downloadFile .. => true
  | _ => false

def movesFile : SyncAction → Bool
  | moveLocal _ _ .file | moveRemote _ _ .file _ => true
  | _ => false

end SyncAction

/-- What the apply relies on, for every two actions in the order they run. -/
structure SafeOrder (actions : List SyncAction) : Prop where
  /-- Nothing is created or transferred at a path before a deletion there. -/
  emptied : actions.Pairwise fun earlier later =>
    earlier.isCreate = true → later.isDelete = true → earlier.relPath ≠ later.relPath
  /-- Nothing is created, moved or transferred below a directory before it is created. -/
  hosted : actions.Pairwise fun earlier later =>
    later.createsDir = true → (earlier.isCreate = true ∨ earlier.movesFile = true) →
      isUnder earlier.relPath later.relPath = false
  /-- No directory is deleted before a file moves out of it. -/
  carried : actions.Pairwise fun earlier later =>
    earlier.deletesDir = true → later.movesFile = true → isUnder later.endpoints.1 earlier.relPath = false
  /-- A directory is deleted before what is below it only where a file takes its path, and nothing that of the other. -/
  cascades : actions.Pairwise fun earlier later =>
    earlier.deletesDir = true → later.isDelete = true → isUnder later.relPath earlier.relPath = true →
      (∀ a ∈ actions, a.isCreate = true → a.relPath ≠ later.relPath) ∧
        ∃ a ∈ actions, a.isTransfer = true ∧ a.relPath = earlier.relPath

/-! ## What the phases say -/

section Phases

variable {actions replanned : List SyncAction} {replaced : List Path} {a b d c : SyncAction} {p q : Path}

theorem isDelete_of_deletesDir (h : a.deletesDir) : a.isDelete := by
  cases a <;> first | rfl | exact (Bool.false_ne_true h).elim

theorem phase_of_isDelete (h : a.isDelete) :
    actionPhase a replaced =
      if replaced.contains a.relPath then (if a.deletesDir then phaseDirReplaceDelete else phaseFileReplaceDelete)
      else phaseDelete := by
  cases a with
  | deleteLocal p kind => cases kind <;> rfl
  | trashRemote p kind uuid => cases kind <;> rfl
  | _ => exact nomatch h

theorem phase_of_createsDir (h : a.createsDir) : actionPhase a replaced = phaseCreate := by
  cases a <;> first | rfl | exact (Bool.false_ne_true h).elim

theorem phase_of_isTransfer (h : a.isTransfer) : actionPhase a replaced = phaseTransfer := by
  cases a <;> first | rfl | exact (Bool.false_ne_true h).elim

theorem phase_of_movesFile (h : a.movesFile) : actionPhase a replaced = phaseMove := by
  cases a with
  | moveLocal src dst kind => cases kind <;> first | rfl | exact nomatch h
  | moveRemote src dst kind uuid => cases kind <;> first | rfl | exact nomatch h
  | _ => exact nomatch h

theorem createsDir_or_isTransfer (h : a.isCreate) : a.createsDir ∨ a.isTransfer := by
  cases a <;> first | exact .inl rfl | exact .inr rfl | exact (Bool.false_ne_true h).elim

theorem orderActions_sorted (actions : List SyncAction) :
    (orderActions actions).Pairwise (screenLe fun a => actionPhase a (replacedPaths actions)) := by
  have hiff : ∀ a b, screenLe (fun a => actionPhase a (replacedPaths actions)) a b ↔
      actionLe (replacedPaths actions) a b := fun a b => screenLe_iff rfl rfl
  have : Std.Total fun a b => actionLe (replacedPaths actions) a b :=
    ⟨fun a b => (Std.Total.total a b).imp (hiff a b).mp (hiff b a).mp⟩
  have : IsTrans SyncAction fun a b => actionLe (replacedPaths actions) a b :=
    ⟨fun a b c hab hbc => (hiff a c).mp (IsTrans.trans a b c ((hiff a b).mpr hab) ((hiff b c).mpr hbc))⟩
  exact (pairwise_insertionSort _ actions).imp fun h => (hiff _ _).mpr h

theorem screenLe_phase {phase : SyncAction → Nat} (h : screenLe phase a b) : phase a ≤ phase b :=
  h.elim le_of_lt fun h => le_of_eq h.1

theorem screenLe_path {phase : SyncAction → Nat} (h : screenLe phase a b) (hsame : phase a = phase b) :
    if cascading (phase a) then b.relPath ≤ a.relPath else a.relPath ≤ b.relPath :=
  h.elim (fun h => absurd hsame (ne_of_lt h)) And.right

theorem orderActions_safe
    (hflips : ∀ d ∈ actions, ∀ c ∈ actions, d.deletesDir → c.createsDir → d.relPath ≠ c.relPath) :
    SafeOrder (orderActions actions) := by
  have hmem : ∀ {a}, a ∈ orderActions actions ↔ a ∈ actions := mem_insertionSort _
  have hsorted := orderActions_sorted actions
  constructor
  · refine hsorted.imp_of_mem fun {c d} hc hd hle hcreate hdelete hpath => ?_
    have hreplaced : d.relPath ∈ replacedPaths actions :=
      mem_replacedPaths.mpr ⟨⟨d, hmem.mp hd, hdelete, rfl⟩, c, hmem.mp hc, hcreate, hpath⟩
    have hphase := screenLe_phase hle
    rw [phase_of_isDelete hdelete, if_pos (contains_iff_mem.mpr hreplaced)] at hphase
    rcases createsDir_or_isTransfer hcreate with hdir | hfile
    · rw [phase_of_createsDir hdir] at hphase
      split at hphase
      · rename_i hgone
        exact hflips d (hmem.mp hd) c (hmem.mp hc) hgone hdir hpath.symm
      · exact absurd hphase (by decide)
    rw [phase_of_isTransfer hfile] at hphase
    split at hphase <;> exact absurd hphase (by decide)
  · refine hsorted.imp fun {a c} hle hdir hbelow => ?_
    rw [Bool.eq_false_iff]
    intro hunder
    have hphase := screenLe_phase hle
    rw [phase_of_createsDir hdir] at hphase
    have hcreates : a.createsDir := by
      rcases hbelow with hcreate | hmove
      · refine (createsDir_or_isTransfer hcreate).resolve_right fun hfile => ?_
        rw [phase_of_isTransfer hfile] at hphase
        exact absurd hphase (by decide)
      rw [phase_of_movesFile hmove] at hphase
      exact absurd hphase (by decide)
    have hpath := screenLe_path hle ((phase_of_createsDir hcreates).trans (phase_of_createsDir hdir).symm)
    have hcascades : ¬ cascading (actionPhase a (replacedPaths actions)) := by
      rw [phase_of_createsDir hcreates]
      decide
    rw [if_neg hcascades] at hpath
    exact absurd hpath (not_le_of_gt (lt_of_isUnder hunder))
  · refine hsorted.imp fun {d a} hle hgone hmove => ?_
    have hphase := screenLe_phase hle
    rw [phase_of_isDelete (isDelete_of_deletesDir hgone), phase_of_movesFile hmove, if_pos hgone] at hphase
    split at hphase <;> exact absurd hphase (by decide)
  refine hsorted.imp_of_mem fun {d a} hd ha hle hgone hdelete hunder => ?_
  -- inside a phase of deletions what is below goes first
  have hother : actionPhase d (replacedPaths actions) ≠ actionPhase a (replacedPaths actions) := by
    intro hsame
    have hpath := screenLe_path hle hsame
    have hcascades : cascading (actionPhase d (replacedPaths actions)) := by
      rw [phase_of_isDelete (isDelete_of_deletesDir hgone), if_pos hgone]
      split
      · exact .inl rfl
      · exact .inr rfl
    rw [if_pos hcascades] at hpath
    exact absurd hpath (not_le_of_gt (lt_of_isUnder hunder))
  have hphase := lt_of_le_of_ne (screenLe_phase hle) hother
  rw [phase_of_isDelete (isDelete_of_deletesDir hgone), phase_of_isDelete hdelete, if_pos hgone] at hphase
  have hd' := hmem.mp hd
  split at hphase
  · rename_i hreplaced
    obtain ⟨-, c, hc, hcreate, hpath⟩ := mem_replacedPaths.mp (contains_iff_mem.mp hreplaced)
    refine ⟨fun b hb hbcreate hbpath => ?_, c, hmem.mpr hc, ?_, hpath⟩
    · have hagain : a.relPath ∈ replacedPaths actions :=
        mem_replacedPaths.mpr ⟨⟨a, hmem.mp ha, hdelete, rfl⟩, b, hmem.mp hb, hbcreate, hbpath⟩
      rw [if_pos (contains_iff_mem.mpr hagain)] at hphase
      split at hphase <;> exact absurd hphase (by decide)
    · exact (createsDir_or_isTransfer hcreate).resolve_left fun hdir => hflips d hd' c hc hgone hdir hpath.symm
  split at hphase
  · split at hphase <;> exact absurd hphase (by decide)
  · exact absurd hphase (by decide)

end Phases

/-! ## A deleted directory is not created again -/

section Flips

variable {base : Option BaselineEntry} {l : Option LocalNode} {r : Option RemoteNode} {p : Path} {d c : SyncAction}
  {deleteOk : Bool} {mode : SyncMode} {marked : List (Path × MarkedExit)}

/-- A planned deletion of a directory and creation of one. -/
def FlipsDir (planned : List SyncAction) : Prop :=
  ∃ d ∈ planned, ∃ c ∈ planned, d.deletesDir = true ∧ c.createsDir = true

theorem createRemote_createsDir {kind : NodeKind} (h : (createRemote p kind).createsDir) : kind = .dir := by
  cases kind with
  | file => exact nomatch h
  | dir => rfl

theorem createRemote_deletesDir (kind : NodeKind) : (createRemote p kind).deletesDir = false := by
  cases kind <;> rfl

theorem createLocal_createsDir {n : RemoteNode} (h : (createLocal p n).createsDir) : n.kind = .dir := by
  unfold createLocal at h
  cases hkind : n.kind with
  | file =>
    rw [hkind] at h
    exact nomatch h
  | dir => rfl

theorem createLocal_deletesDir (n : RemoteNode) : (createLocal p n).deletesDir = false := by
  unfold createLocal
  cases n.kind <;> rfl

theorem pushToRemote_flips : ¬ FlipsDir (pushToRemote p l r base deleteOk) := by
  rintro ⟨d, hd, c, hc, hgone, hdir⟩
  rcases mem_pushToRemote hd with rfl | ⟨n, -, rfl, hother⟩ | ⟨m, -, rfl⟩
  · exact nomatch hgone
  · have hn : n.kind = .dir := by
      cases hkind : n.kind with
      | file =>
        rw [hkind] at hgone
        exact nomatch hgone
      | dir => rfl
    rcases mem_pushToRemote hc with rfl | ⟨_, -, rfl, -⟩ | ⟨m, hm, rfl⟩
    · exact nomatch hdir
    · exact nomatch hdir
    · exact hother m hm ((createRemote_createsDir hdir).trans hn.symm)
  · exact (Bool.eq_false_iff.mp (createRemote_deletesDir m.kind)) hgone

theorem pullToLocal_flips : ¬ FlipsDir (pullToLocal p l r base deleteOk) := by
  rintro ⟨d, hd, c, hc, hgone, hdir⟩
  rcases mem_pullToLocal hd with rfl | ⟨m, -, rfl, hother⟩ | ⟨n, -, rfl⟩
  · exact nomatch hgone
  · have hm : m.kind = .dir := by
      cases hkind : m.kind with
      | file =>
        rw [hkind] at hgone
        exact nomatch hgone
      | dir => rfl
    rcases mem_pullToLocal hc with rfl | ⟨_, -, rfl, -⟩ | ⟨n, hn, rfl⟩
    · exact nomatch hdir
    · exact nomatch hdir
    · exact hother n hn (hm.trans (createLocal_createsDir hdir).symm)
  · exact (Bool.eq_false_iff.mp (createLocal_deletesDir n)) hgone

theorem singleton_flips (h : d.deletesDir = false) : ¬ FlipsDir [d] := by
  rintro ⟨a, ha, -, -, hgone, -⟩
  rw [mem_singleton.mp ha, h] at hgone
  exact nomatch hgone

theorem decideByMode_flips : ¬ FlipsDir (decideByMode mode p l r base) := by
  have hnone : ¬ FlipsDir [] := fun ⟨_, hd, _⟩ => nomatch hd
  cases mode with
  | localToRemote => exact pushToRemote_flips
  | localBackup => exact pushToRemote_flips
  | remoteToLocal => exact pullToLocal_flips
  | remoteBackup => exact pullToLocal_flips
  | twoWay =>
    unfold decideByMode reconcileTwoWay
    dsimp only
    split
    · exact hnone
    · exact pushToRemote_flips
    · split
      · exact singleton_flips rfl
      · exact pullToLocal_flips
    · split <;> exact singleton_flips rfl

theorem decidePath_flips_dir : ¬ FlipsDir (decidePath mode p base marked l r) := by
  unfold decidePath
  split
  · exact singleton_flips rfl
  split
  · exact singleton_flips rfl
  · exact singleton_flips rfl
  split
  · split
    · exact decideByMode_flips
    · exact fun ⟨_, hd, _⟩ => nomatch hd
  · exact decideByMode_flips

theorem JoinAction.flips {s : MoveSides} {planned : List SyncAction} (h : JoinAction s planned c) :
    c.deletesDir = false ∧ c.createsDir = false := by
  cases h <;> exact ⟨rfl, rfl⟩

theorem planActions_flips {b : Baseline} {l : Nodes LocalNode} {r : Nodes RemoteNode} {holds : PassHolds}
    {paths : PassPaths} (hd : d ∈ planActions mode b l r holds paths) (hc : c ∈ planActions mode b l r holds paths)
    (hgone : d.deletesDir) (hdir : c.createsDir) : d.relPath ≠ c.relPath := by
  have hsound := detectMoves_sound ⟨mode, l, r, b⟩ paths
    (withheldKeys (reconcileKeys paths b l r holds.heldRemote) holds.heldRemote)
  rcases mem_planActions hd with hd | ⟨p, -, -, hd⟩
  · rw [(hsound.actions d hd).flips.1] at hgone
    exact nomatch hgone
  rcases mem_planActions hc with hc | ⟨q, -, -, hc⟩
  · rw [(hsound.actions c hc).flips.2] at hdir
    exact nomatch hdir
  rw [(decidePath_staysAt hd).1, (decidePath_staysAt hc).1]
  rintro rfl
  exact decidePath_flips_dir ⟨d, hd, c, hc, hgone, hdir⟩

end Flips

/-- Every plan a reconcile makes is in a safe order. -/
theorem reconcile_safe (mode : SyncMode) (b : Baseline) (l : Nodes LocalNode) (r : Nodes RemoteNode)
    (holds : PassHolds) (paths : PassPaths) : SafeOrder (reconcile mode b l r holds paths).actions := by
  unfold reconcile
  rw [finishPlan_actions]
  refine orderActions_safe fun d hd c hc => ?_
  exact planActions_flips (mem_filter.mp hd).1 (mem_filter.mp hc).1

end SyncEngine
