import SyncEngine.Plan.Reconcile

/-! # Two-way never overwrites a side that changed

An overwrite or a deletion of one side is planned only where that side holds
nothing or still holds what its row records. The per-path matrix is one half of
the argument. The move join is the other: it runs first and takes paths away
from the matrix, so each of its moves has to answer for both of its ends.
-/

namespace SyncEngine

open Collections JoinState List SyncAction

/-! ## What a step of the join can do -/

/-- A row whose rename is surfaced as a conflict: the remote holds its file by
lineage alone, and nothing of its content is on record, or the remote's version
is another client's edit over a push nothing confirmed. -/
def RenamedEdit (s : MoveSides) (targets : List (Path × RemoteNode)) (base : BaselineEntry) : Prop :=
  (base.contentHash.isSome → classifyLocal (s.l.nodeAt base.relPath) (some base) = .unchanged) ∧
    ∃ uuid dst, s.pullUuid base = some uuid ∧ pullTarget targets base uuid = some (dst, true) ∧
      (base.contentHash.isNone ∨
        isUnconfirmedConcurrentEdit (s.l.nodeAt base.relPath) (s.r.nodeAt dst) (some base) = true)

theorem pullUuid_file {s : MoveSides} {base : BaselineEntry}
    (h : (s.pullUuid base).isSome) : base.kind = .file ∧ base.state = .synced := by
  unfold MoveSides.pullUuid pullSource at h
  split at h
  · cases h
  rename_i hsrc
  simpa using hsrc

/-- The rename of a row a pull would carry out to `dst`, were neither end
taken. -/
structure Renames (s : MoveSides) (targets : List (Path × RemoteNode)) (row : BaselineEntry)
    (dst : Path) : Prop where
  target : ∃ uuid carriesEdit, s.pullUuid row = some uuid ∧
    pullTarget targets row uuid = some (dst, carriesEdit)
  content : row.contentHash.isSome = true →
    classifyLocal (s.l.nodeAt row.relPath) (some row) = .unchanged
  moved : dst ≠ row.relPath
  untracked : s.baseline.containsKey dst = false
  source : s.l.holds row.relPath = true
  vacant : s.l.holds dst = false

/-- What a pull downloads onto the path it renamed a row to. -/
def pairedDownload (r : Nodes RemoteNode) (dst : Path) (carriesEdit : Bool) : List SyncAction :=
  if carriesEdit then ((r.nodeAt dst).map fun node => downloadFile dst node.remoteUuid).toList else []

theorem mem_pairedDownload {r : Nodes RemoteNode} {dst : Path} {carriesEdit : Bool} {a : SyncAction}
    (h : a ∈ pairedDownload r dst carriesEdit) : ∃ u, a = downloadFile dst u := by
  unfold pairedDownload at h
  split at h
  · obtain ⟨node, -, rfl⟩ := Option.map_eq_some_iff.mp (Option.mem_toList.mp h)
    exact ⟨node.remoteUuid, rfl⟩
  · cases h

theorem pullStep_cases (s : MoveSides) (targets : List (Path × RemoteNode)) (state : JoinState) (base : BaselineEntry) :
    (pullStep s (pullTarget targets) state base = state ∧
        ∀ dst, Renames s targets base dst → base.relPath ∈ state.2 ∨ dst ∈ state.2) ∨
      base.relPath ∉ state.2 ∧ (s.pullUuid base).isSome ∧
        (pullStep s (pullTarget targets) state base =
            (state.1 ++ [conflict base.relPath], base.relPath :: state.2) ∧
            RenamedEdit s targets base ∧ s.mode.pushes ∨
          ∃ dst carriesEdit uuid, pullStep s (pullTarget targets) state base =
              (state.1 ++ moveLocal base.relPath dst .file :: pairedDownload s.r dst carriesEdit,
                dst :: base.relPath :: state.2) ∧
            Renames s targets base dst ∧ dst ∉ state.2 ∧ s.pullUuid base = some uuid ∧
            pullTarget targets base uuid = some (dst, carriesEdit)) := by
  unfold pullStep
  cases hu : s.pullUuid base with
  | none =>
    refine Or.inl ⟨rfl, fun dst h => ?_⟩
    obtain ⟨uuid, -, huuid, -⟩ := h.target
    rw [hu] at huuid
    cases huuid
  | some uuid =>
    unfold pullMove
    dsimp only
    by_cases hsrc : state.2.contains base.relPath
    · rw [if_pos hsrc]
      refine Or.inl ⟨by simp [took], fun dst _ => Or.inl ?_⟩
      simpa using hsrc
    have hnot : base.relPath ∉ state.2 := by simpa using hsrc
    rw [if_neg hsrc]
    split
    · rename_i hchanged
      refine Or.inl ⟨by simp [took], fun dst h => ?_⟩
      exact absurd (h.content hchanged.1) hchanged.2
    rename_i hcontent
    have hnames : ∀ dst, Renames s targets base dst →
        ∃ carriesEdit, pullTarget targets base uuid = some (dst, carriesEdit) := by
      intro dst h
      obtain ⟨uuid', carriesEdit, huuid, hdst⟩ := h.target
      rw [hu] at huuid
      cases huuid
      exact ⟨carriesEdit, hdst⟩
    cases htarget : pullTarget targets base uuid with
    | none =>
      refine Or.inl ⟨by simp [took], fun dst h => ?_⟩
      obtain ⟨_, hdst⟩ := hnames dst h
      rw [htarget] at hdst
      cases hdst
    | some found =>
      rcases found with ⟨dst, carriesEdit⟩
      dsimp only
      split
      · rename_i hedit
        refine Or.inr ⟨hnot, rfl, Or.inl ⟨rfl, ⟨fun hsome => ?_, uuid, dst, hu, ?_, hedit.2.2⟩, hedit.2.1⟩⟩
        · exact by_contra fun hne => hcontent ⟨hsome, hne⟩
        rw [htarget, hedit.1]
      split
      · rename_i htaken
        refine Or.inl ⟨by simp [took], fun dst' h => Or.inr ?_⟩
        obtain ⟨_, hdst⟩ := hnames dst' h
        rw [htarget] at hdst
        cases hdst
        rcases htaken with hself | hrow | hgone | hheld | hcons
        · exact absurd hself h.moved
        · rw [h.untracked] at hrow
          cases hrow
        · obtain ⟨node, hnode⟩ := Nodes.holds_iff.mp h.source
          rw [hnode] at hgone
          cases hgone
        · rw [h.vacant] at hheld
          cases hheld
        · simpa using hcons
      rename_i hfree
      simp only [not_or] at hfree
      obtain ⟨hself, hrow, hgone, hheld, hcons⟩ := hfree
      refine Or.inr ⟨hnot, rfl, Or.inr ⟨dst, carriesEdit, uuid, rfl, ?_, by simpa using hcons, rfl, htarget⟩⟩
      exact
        { target := ⟨uuid, carriesEdit, hu, htarget⟩
          content := fun hsome => by_contra fun hne => hcontent ⟨hsome, hne⟩
          moved := hself
          untracked := by simpa using hrow
          source := Nodes.holds_iff.mpr (Option.ne_none_iff_exists'.mp (by simpa using hgone))
          vacant := by simpa using hheld }

theorem pullStep_renamedEdit {s : MoveSides} {targets : List (Path × RemoteNode)} {state : JoinState}
    {base : BaselineEntry} (h : RenamedEdit s targets base) (hpushes : s.mode.pushes) (hfree : base.relPath ∉ state.2) :
    pullStep s (pullTarget targets) state base =
      (state.1 ++ [conflict base.relPath], base.relPath :: state.2) := by
  obtain ⟨hcontent, uuid, dst, huuid, htarget, hedit⟩ := h
  have hsrc : ¬state.2.contains base.relPath := by simpa using hfree
  unfold pullStep pullMove
  rw [huuid]
  dsimp only
  rw [if_neg hsrc, if_neg fun hchanged => hchanged.2 (hcontent hchanged.1), htarget]
  dsimp only
  rw [if_pos ⟨rfl, hpushes, hedit⟩]
  rfl

theorem pushStep_cases (s : MoveSides) (candidates : Blake3Hash → Option (List Path))
    (state : JoinState) (base : BaselineEntry) :
    pushStep s candidates state base = state ∨
      ∃ dst hash uuid held, base.contentHash = some hash ∧ base.remoteUuid = some uuid ∧
        candidates hash = some held ∧ dst ∈ held ∧ base.relPath ∉ state.2 ∧ dst ∉ state.2 ∧
        s.r.holds dst = false ∧
        pushStep s candidates state base =
          (state.1 ++ [moveRemote base.relPath dst .file uuid],
            dst :: base.relPath :: state.2) := by
  unfold pushStep pushMove
  by_cases hsrc : state.2.contains base.relPath
  · left
    rw [if_pos hsrc]
    simp [took]
  have hnot : base.relPath ∉ state.2 := by simpa using hsrc
  rw [if_neg hsrc]
  cases hhash : base.contentHash with
  | none =>
    left
    simp [took]
  | some hash =>
    cases huuid : base.remoteUuid with
    | none =>
      left
      simp [took]
    | some uuid =>
      dsimp only
      cases hheld : candidates hash with
      | none =>
        left
        simp [took]
      | some held =>
        dsimp only [Option.map_some]
        split
        · rename_i fresh dst hfresh
          have hmem : dst ∈ held.filter fun dst =>
              !state.2.contains dst && !s.r.holds dst := by
            rw [Option.some.inj hfresh]
            simp
          have hkeep := mem_filter.mp hmem
          have hboth : state.2.contains dst = false ∧ s.r.holds dst = false := by
            simpa using hkeep.2
          refine Or.inr ⟨dst, hash, uuid, held, rfl, rfl, hheld, hkeep.1, hnot, ?_,
            hboth.2, rfl⟩
          simpa using hboth.1
        left
        simp [took]

/-! ## What the join leaves behind -/

inductive JoinAction (s : MoveSides) (planned : List SyncAction) : SyncAction → Prop where
  | conflict (p : Path) : JoinAction s planned (conflict p)
  | moveLocal (src dst : Path) : JoinAction s planned (moveLocal src dst .file)
  /-- A new version is pulled onto a path the same join renames a copy to. -/
  | download (src dst : Path) (u : Uuid) (free : s.l.holds dst = false)
      (paired : SyncAction.moveLocal src dst .file ∈ planned) :
      JoinAction s planned (downloadFile dst u)
  /-- The remote still holds the row's own version where the move starts. -/
  | moveRemote (row : BaselineEntry) (dst : Path) (uuid : Uuid) (node : RemoteNode)
      (hrow : s.baseline.get row.relPath = some row) (hkind : row.kind = .file)
      (huuid : row.remoteUuid = some uuid) (hnode : s.r.nodeAt row.relPath = some node)
      (hsame : node.remoteUuid = uuid) :
      JoinAction s planned (moveRemote row.relPath dst .file uuid)

variable {a : SyncAction} {base : Option BaselineEntry} {p : Path}

theorem JoinAction.mono {s : MoveSides} {planned more : List SyncAction}
    (h : JoinAction s planned a) (hsub : ∀ a ∈ planned, a ∈ more) : JoinAction s more a := by
  cases h with
  | conflict p => exact .conflict p
  | moveLocal src dst => exact .moveLocal src dst
  | download src dst u free paired => exact .download src dst u free (hsub _ paired)
  | moveRemote row dst uuid node hrow hkind huuid hnode hsame =>
    exact .moveRemote row dst uuid node hrow hkind huuid hnode hsame

/-- A path is an end of a move among `planned`. -/
def MoveEndpoint (planned : List SyncAction) (p : Path) : Prop :=
  ∃ a ∈ planned, a.isMove = true ∧ (a.endpoints.1 = p ∨ a.endpoints.2 = p)

/-- What holds of the join at every point of its run: each action is one of the
four kinds, and each path taken was withheld from the start, surfaced as a
conflict, or is an end of a move. -/
structure JoinSound (s : MoveSides) (withheld : List Path) (state : JoinState) : Prop where
  actions : ∀ a ∈ state.1, JoinAction s state.1 a
  taken : ∀ p ∈ state.2,
    p ∈ withheld ∨ SyncAction.conflict p ∈ state.1 ∨ MoveEndpoint state.1 p

namespace JoinSound

variable {s : MoveSides} {withheld : List Path} {state : JoinState}

theorem start (s : MoveSides) (withheld : List Path) : JoinSound s withheld ([], withheld) where
  actions := by simp
  taken := fun p hp => Or.inl hp

section

variable (h : JoinSound s withheld state)
include h

theorem extend (more : List SyncAction) (taken : List Path)
    (hmore : ∀ a ∈ more, JoinAction s (state.1 ++ more) a)
    (htaken : ∀ p ∈ taken, SyncAction.conflict p ∈ more ∨ MoveEndpoint more p) :
    JoinSound s withheld (state.1 ++ more, taken ++ state.2) where
  actions := by
    intro a ha
    rcases mem_append.mp ha with hold | hnew
    · exact (h.actions a hold).mono fun b hb => mem_append_left _ hb
    · exact hmore a hnew
  taken := by
    intro p hp
    rcases mem_append.mp hp with hnew | hold
    · rcases htaken p hnew with hc | ⟨a, ha, hmove, hend⟩
      · exact Or.inr (Or.inl (mem_append_right _ hc))
      · exact Or.inr (Or.inr ⟨a, mem_append_right _ ha, hmove, hend⟩)
    rcases h.taken p hold with hw | hc | ⟨a, ha, hmove, hend⟩
    · exact Or.inl hw
    · exact Or.inr (Or.inl (mem_append_left _ hc))
    · exact Or.inr (Or.inr ⟨a, mem_append_left _ ha, hmove, hend⟩)

theorem pullStep (targets : List (Path × RemoteNode)) (base : BaselineEntry) :
    JoinSound s withheld (pullStep s (pullTarget targets) state base) := by
  rcases pullStep_cases s targets state base with ⟨hsame, -⟩ | ⟨-, -, ⟨hconf, -⟩ | hmove⟩
  · rw [hsame]
    exact h
  · rw [hconf]
    refine h.extend [SyncAction.conflict base.relPath] [base.relPath] ?_ ?_
    · intro a ha
      have heq : a = SyncAction.conflict base.relPath := by simpa using ha
      subst heq
      exact .conflict _
    intro p hp
    have heq : p = base.relPath := by simpa using hp
    exact Or.inl (by simp [heq])
  rcases hmove with ⟨dst, carriesEdit, -, heq, hrenames, -⟩
  rw [heq]
  refine h.extend (SyncAction.moveLocal base.relPath dst .file :: pairedDownload s.r dst carriesEdit)
    [dst, base.relPath] ?_ ?_
  · intro a ha
    rcases mem_cons.mp ha with hmv | hdl
    · subst hmv
      exact .moveLocal _ _
    rcases mem_pairedDownload hdl with ⟨u, hu⟩
    subst hu
    exact .download base.relPath dst u hrenames.vacant (by simp)
  intro p hp
  right
  refine ⟨SyncAction.moveLocal base.relPath dst .file, by simp, rfl, ?_⟩
  rcases mem_cons.mp hp with hd | hs
  · exact Or.inr hd.symm
  have heq : p = base.relPath := by simpa using hs
  exact Or.inl heq.symm

theorem pushStep {candidates : Blake3Hash → Option (List Path)} {base : BaselineEntry}
    (hbase : s.baseline.get base.relPath = some base) (hsource : (s.pushHash base).isSome) :
    JoinSound s withheld (pushStep s candidates state base) := by
  rcases pushStep_cases s candidates state base with hsame | hmove
  · rw [hsame]
    exact h
  rcases hmove with ⟨dst, hash, uuid, held, hhash, huuid, -, -, -, -, -, heq⟩
  rw [heq]
  refine h.extend [SyncAction.moveRemote base.relPath dst .file uuid] [dst, base.relPath] ?_ ?_
  · intro a ha
    have hmv : a = SyncAction.moveRemote base.relPath dst .file uuid := by simpa using ha
    -- a row is a source of a push only while the remote holds its own version there
    unfold MoveSides.pushHash pushSource at hsource
    split at hsource
    · cases hsource
    rename_i hsrc
    simp only [not_or, not_not] at hsrc
    rw [hhash, huuid] at hsource
    dsimp only at hsource
    split at hsource
    · rename_i hat
      rcases Option.map_eq_some_iff.mp hat with ⟨node, hnode, hsame⟩
      subst hmv
      exact .moveRemote base dst uuid node hbase hsrc.1 huuid hnode hsame
    · cases hsource
  intro p hp
  right
  refine ⟨SyncAction.moveRemote base.relPath dst .file uuid, by simp, rfl, ?_⟩
  rcases mem_cons.mp hp with hd | hs
  · exact Or.inr hd.symm
  have heq : p = base.relPath := by simpa using hs
  exact Or.inl heq.symm

end

end JoinSound

theorem get_of_mem_sources {paths : PassPaths} {b : Baseline} {base : BaselineEntry}
    (h : base ∈ visitMoveSources paths b) : b.get base.relPath = some base := by
  cases paths with
  | whole => exact Baseline.get_of_mem h
  | changed set =>
    rcases mem_filterMap.mp h with ⟨p, -, hp⟩
    rw [Baseline.get_relPath hp]
    exact hp

theorem detectMoves_sound (s : MoveSides) (paths : PassPaths) (withheld : List Path) :
    JoinSound s withheld (detectMoves s paths withheld) := by
  rw [detectMoves_eq]
  refine List.foldlRecOn _ _ ?_ ?_
  · refine List.foldlRecOn _ _ (JoinSound.start s withheld) ?_
    intro state hstate base _
    exact hstate.pullStep _ base
  intro state hstate base hbase
  have hmem := mem_filter.mp hbase
  exact hstate.pushStep (get_of_mem_sources hmem.1) hmem.2

/-! ## What the matrix can do -/

/-- The local side holds nothing at `p`, or what the row there records. -/
def LocalSpared (b : Baseline) (l : Nodes LocalNode) (p : Path) : Prop :=
  l.nodeAt p = none ∨
    ∃ node row, l.nodeAt p = some node ∧ b.get p = some row ∧ LocalUnchanged node row

/-- The remote holds nothing at `p`, or what the row there records. -/
def RemoteSpared (b : Baseline) (r : Nodes RemoteNode) (p : Path) : Prop :=
  r.nodeAt p = none ∨
    ∃ node row, r.nodeAt p = some node ∧ b.get p = some row ∧ RemoteUnchanged node row

/-- Whether an action overwrites or deletes the local copy at its path. -/
def overwritesLocal : SyncAction → Bool
  | downloadFile .. | deleteLocal .. => true
  | _ => false

/-- Whether an action overwrites, deletes or moves away the remote copy. -/
def overwritesRemote : SyncAction → Bool
  | uploadFile .. | createRemoteDir .. | trashRemote .. | moveRemote .. => true
  | _ => false

theorem overwritesLocal_createRemote (p : Path) (kind : NodeKind) :
    overwritesLocal (createRemote p kind) = false := by
  cases kind <;> rfl

theorem overwritesRemote_createLocal (p : Path) (r : RemoteNode) :
    overwritesRemote (createLocal p r) = false := by
  unfold createLocal
  cases r.kind <;> rfl

variable {r : Option RemoteNode}
variable {l : Option LocalNode}

theorem pushToRemote_overwritesLocal {d : Bool}
    (h : a ∈ pushToRemote p l r base d) : overwritesLocal a = false := by
  rcases mem_pushToRemote h with rfl | ⟨n, -, rfl, -⟩ | ⟨m, -, rfl⟩
  · rfl
  · rfl
  · exact overwritesLocal_createRemote p m.kind

theorem pullToLocal_overwritesRemote {d : Bool}
    (h : a ∈ pullToLocal p l r base d) : overwritesRemote a = false := by
  rcases mem_pullToLocal h with rfl | ⟨m, -, rfl, -⟩ | ⟨n, -, rfl⟩
  · rfl
  · rfl
  · exact overwritesRemote_createLocal p n

theorem reconcileTwoWay_overwritesLocal
    (h : a ∈ reconcileTwoWay p l r base) (ho : overwritesLocal a) : (classifyLocal l base).changed = false := by
  unfold reconcileTwoWay at h
  split at h
  · cases h
  · rw [pushToRemote_overwritesLocal h] at ho
    cases ho
  · assumption
  · split at h <;> simp only [mem_singleton] at h <;> subst h <;> cases ho

theorem reconcileTwoWay_overwritesRemote
    (h : a ∈ reconcileTwoWay p l r base) (ho : overwritesRemote a) :
    (classifyRemote r base).changed = false := by
  unfold reconcileTwoWay at h
  split at h
  · cases h
  · assumption
  · split at h
    · simp only [mem_singleton] at h
      subst h
      cases ho
    rw [pullToLocal_overwritesRemote h] at ho
    cases ho
  · split at h <;> simp only [mem_singleton] at h <;> subst h <;> cases ho

theorem readBase_eq_some
    {row : BaselineEntry} (h : readBase base l r = some row) :
    base = some row := by
  unfold readBase at h
  split at h
  · cases h
  · exact h

theorem decidePath_twoWay_cases {key : Path}
    (h : a ∈ decidePath .twoWay key base [] l r) :
    a = conflict key ∨ a ∈ reconcileTwoWay key l r (readBase base l r) := by
  cases hconf : base.any fun b => b.state.isConflict with
  | true =>
    left
    unfold decidePath at h
    rw [if_pos hconf] at h
    simpa using h
  | false =>
    rw [decidePath_twoWay hconf] at h
    exact Or.inr h

section Pass

variable {b : Baseline} {l : Nodes LocalNode} {r : Nodes RemoteNode} {holds : PassHolds}
  {paths : PassPaths}

variable {a : SyncAction}

theorem decidePath_localSpared {p : Path} (h : a ∈ decidePath .twoWay p (b.get p) [] (l.nodeAt p) (r.nodeAt p))
    (ho : overwritesLocal a) : LocalSpared b l p := by
  rcases decidePath_twoWay_cases h with rfl | hmat
  · cases ho
  rcases not_changed_local (reconcileTwoWay_overwritesLocal hmat ho) with hnone | hrow
  · exact Or.inl hnone.1
  rcases hrow with ⟨node, row, hnode, hbase, hsame⟩
  exact Or.inr ⟨node, row, hnode, readBase_eq_some hbase, hsame⟩

theorem decidePath_remoteSpared {p : Path} (h : a ∈ decidePath .twoWay p (b.get p) [] (l.nodeAt p) (r.nodeAt p))
    (ho : overwritesRemote a) : RemoteSpared b r p := by
  rcases decidePath_twoWay_cases h with rfl | hmat
  · cases ho
  rcases not_changed_remote (reconcileTwoWay_overwritesRemote hmat ho) with hnone | hrow
  · exact Or.inl hnone.1
  rcases hrow with ⟨node, row, hnode, hbase, hsame⟩
  exact Or.inr ⟨node, row, hnode, readBase_eq_some hbase, hsame⟩

theorem mem_planActions {mode : SyncMode} (h : a ∈ planActions mode b l r holds paths) :
    a ∈ (detectMoves ⟨mode, l, r, b⟩ paths
        (withheldKeys (reconcileKeys paths b l r holds.heldRemote) holds.heldRemote)).1 ∨
      ∃ key ∈ reconcileKeys paths b l r holds.heldRemote,
        key ∉ (detectMoves ⟨mode, l, r, b⟩ paths
          (withheldKeys (reconcileKeys paths b l r holds.heldRemote) holds.heldRemote)).2 ∧
        a ∈ decidePath mode key (b.get key) holds.markedExits (l.nodeAt key) (r.nodeAt key) := by
  rcases mem_append.mp h with hj | hd
  · exact Or.inl hj
  rcases mem_flatMap.mp hd with ⟨key, hkey, ha⟩
  split at ha
  · cases ha
  rename_i hfree
  exact Or.inr ⟨key, hkey, by simpa using hfree, ha⟩

end Pass

/-! ## The guarantee -/

/-- A remote version id names items of one kind, in the rows and on the remote. -/
def UuidNamesOneKind (b : Baseline) (r : Nodes RemoteNode) : Prop :=
  ∃ kindOf : Uuid → NodeKind,
    (∀ p node, r.nodeAt p = some node → node.kind = kindOf node.remoteUuid) ∧
      ∀ row ∈ b.rows, ∀ uuid, row.remoteUuid = some uuid → row.kind = kindOf uuid

/-- What an action of `plan` owes the side it writes to. -/
def Spares (b : Baseline) (l : Nodes LocalNode) (r : Nodes RemoteNode) (plan : Plan) :
    SyncAction → Prop
  | downloadFile p _ | deleteLocal p _ =>
    LocalSpared b l p ∨
      ∃ src kind, moveLocal src p kind ∈ plan.actions ∧ LocalSpared b l src
  | uploadFile p | createRemoteDir p | trashRemote p _ _ | moveRemote p _ _ _ => RemoteSpared b r p
  | _ => True

/-- Both sides changed at `p` against the row a two-way reconcile reads there. -/
def BothChanged (b : Baseline) (l : Nodes LocalNode) (r : Nodes RemoteNode) (p : Path) : Prop :=
  let base := readBase (b.get p) (l.nodeAt p) (r.nodeAt p)
  (classifyLocal (l.nodeAt p) base).changed = true ∧
    (classifyRemote (r.nodeAt p) base).changed = true

section Guarantee

variable {b : Baseline} {l : Nodes LocalNode} {r : Nodes RemoteNode} {holds : PassHolds}
  {paths : PassPaths}

variable {a : SyncAction} {plan : Plan} {p : Path}

theorem joinAction_spares (hkind : UuidNamesOneKind b r) {planned : List SyncAction}
    (h : JoinAction ⟨.twoWay, l, r, b⟩ planned a) :
    Spares b l r plan a := by
  cases h with
  | conflict p => trivial
  | moveLocal src dst => trivial
  | download src dst u free paired => exact Or.inl (Or.inl (Nodes.holds_eq_false.mp free))
  | moveRemote row dst uuid node hrow hfile huuid hnode hsame =>
    rcases hkind with ⟨kindOf, hremote, hrows⟩
    have hk : node.kind = row.kind := by
      rw [hremote _ node hnode, hrows row (Baseline.mem_rows_of_get hrow) uuid huuid, hsame]
    refine Or.inr ⟨node, row, hnode, hrow, hk, fun _ => Or.inl ?_⟩
    rw [huuid, hsame]

theorem decidePath_spares
    (h : a ∈ decidePath .twoWay p (b.get p) [] (l.nodeAt p) (r.nodeAt p)) :
    Spares b l r plan a := by
  have hstays := decidePath_staysAt h
  have hat := hstays.1
  subst hat
  have hl := fun ho => decidePath_localSpared h ho
  have hr := fun ho => decidePath_remoteSpared h ho
  cases a with
  | downloadFile q u => exact Or.inl (hl rfl)
  | deleteLocal q k => exact Or.inl (hl rfl)
  | uploadFile q => exact hr rfl
  | createRemoteDir q => exact hr rfl
  | trashRemote q k u => exact hr rfl
  | moveRemote src dst k u => cases hstays.2
  | _ => trivial

theorem decidePath_of_bothChanged (hboth : BothChanged b l r p) :
    decidePath .twoWay p (b.get p) [] (l.nodeAt p) (r.nodeAt p) = [conflict p] ∨
      nodesAgree (l.nodeAt p) (r.nodeAt p) ∧
        decidePath .twoWay p (b.get p) [] (l.nodeAt p) (r.nodeAt p) = [adoptBaseline p] := by
  cases hconf : (b.get p).any fun b => b.state.isConflict with
  | true =>
    left
    unfold decidePath
    rw [if_pos hconf]
  | false =>
    rw [decidePath_twoWay hconf]
    unfold reconcileTwoWay
    rw [hboth.1, hboth.2]
    by_cases hagree : nodesAgree (l.nodeAt p) (r.nodeAt p)
    · exact Or.inr ⟨hagree, if_pos hagree⟩
    · exact Or.inl (if_neg hagree)

theorem not_mem_withheld {keys held : PathSet} (h : isUnderHeldPath p held = false) : p ∉ withheldKeys keys held := by
  intro hmem
  have hheld := (mem_filter.mp hmem).2
  simp [h] at hheld

end Guarantee

/-- Two-way reconcile overwrites or deletes only a side that holds nothing or
what its row records, and where both sides changed it plans a conflict, or the
recording of a row where they hold the same content. -/
theorem reconcile_twoWay_spares_changes (b : Baseline) (l : Nodes LocalNode)
    (r : Nodes RemoteNode) (hkind : UuidNamesOneKind b r) (holds : PassHolds)
    (hmarked : holds.markedExits = []) (paths : PassPaths) :
    (∀ a ∈ (reconcile .twoWay b l r holds paths).actions,
        Spares b l r (reconcile .twoWay b l r holds paths) a) ∧
      ∀ p ∈ reconcileKeys paths b l r holds.heldRemote,
        isUnderHeldPath p holds.heldRemote = false →
        ¬ MoveEndpoint (planActions .twoWay b l r holds paths) p →
        BothChanged b l r p →
          (∀ a ∈ (reconcile .twoWay b l r holds paths).actions,
              a.relPath = p → a = conflict p ∨ a = adoptBaseline p) ∧
            (nodesAgree (l.nodeAt p) (r.nodeAt p) = false →
              conflict p ∈ (reconcile .twoWay b l r holds paths).actions) := by
  have hsound := detectMoves_sound ⟨.twoWay, l, r, b⟩ paths
    (withheldKeys (reconcileKeys paths b l r holds.heldRemote) holds.heldRemote)
  constructor
  · intro a ha
    rcases mem_planActions (mem_finishPlan.mp ha).1 with hjoin | ⟨p, -, -, hdecide⟩
    · exact joinAction_spares hkind (hsound.actions a hjoin)
    rw [hmarked] at hdecide
    exact decidePath_spares hdecide
  intro p hp hheld hend hboth
  have hjoined : ∀ a ∈ (detectMoves ⟨.twoWay, l, r, b⟩ paths (withheldKeys
      (reconcileKeys paths b l r holds.heldRemote) holds.heldRemote)).1,
      a ∈ planActions .twoWay b l r holds paths :=
    fun a ha => mem_append_left _ ha
  constructor
  · intro a ha hat
    rcases mem_planActions (mem_finishPlan.mp ha).1 with hjoin | ⟨key, -, -, hdecide⟩
    · cases hsound.actions a hjoin with
      | conflict q => exact Or.inl (congrArg conflict hat)
      | moveLocal src dst =>
        exact absurd ⟨_, hjoined _ hjoin, rfl, Or.inr hat⟩ hend
      | download src dst u free paired =>
        exact absurd ⟨_, hjoined _ paired, rfl, Or.inr hat⟩ hend
      | moveRemote row dst uuid node hrow hfile huuid hnode hsame =>
        exact absurd ⟨_, hjoined _ hjoin, rfl, Or.inr hat⟩ hend
    rw [hmarked] at hdecide
    have hkey := (decidePath_staysAt hdecide).1
    rw [hat] at hkey
    subst hkey
    rcases decidePath_of_bothChanged hboth with hc | ⟨-, hadopt⟩
    · rw [hc] at hdecide
      exact Or.inl (by simpa using hdecide)
    rw [hadopt] at hdecide
    exact Or.inr (by simpa using hdecide)
  intro hagree
  refine conflict_mem_finishPlan ?_
  by_cases htaken : p ∈ (detectMoves ⟨.twoWay, l, r, b⟩ paths (withheldKeys
      (reconcileKeys paths b l r holds.heldRemote) holds.heldRemote)).2
  · rcases hsound.taken p htaken with hw | hc | ⟨a, ha, hmove⟩
    · exact absurd hw (not_mem_withheld hheld)
    · exact hjoined _ hc
    · exact absurd ⟨a, hjoined a ha, hmove⟩ hend
  refine mem_append_right _ (mem_flatMap.mpr ⟨p, hp, ?_⟩)
  rw [if_neg (by simpa using htaken), hmarked]
  rcases decidePath_of_bothChanged hboth with hc | ⟨hyes, -⟩
  · rw [hc]
    simp
  rw [hagree] at hyes
  cases hyes

/-- A file edited locally is pushed over the version its row records; one edited
on both sides is a conflict. -/
theorem reconcile_twoWay_spares_changes_edits :
    let b : Baseline :=
      ⟨[syncedRow ['a'] .file 1 (some 1), syncedRow ['b'] .file 2 (some 2)], by decide⟩
    let l := Nodes.ofList
      [(['a'], localItem ['a'] .file (some 7)), (['b'], localItem ['b'] .file (some 8))] (by decide)
    let r := Nodes.ofList
      [(['a'], remoteItem ['a'] .file 1 (some 1)), (['b'], remoteItem ['b'] .file 3 (some 9))]
      (by decide)
    Spares b l r (reconcile .twoWay b l r .none .whole) (uploadFile ['a']) ∧
      conflict ['b'] ∈ (reconcile .twoWay b l r .none .whole).actions := by
  intro b l r
  have hkind : UuidNamesOneKind b r := by
    have hrows : ∀ row ∈ b.rows, row.kind = .file := by decide +kernel
    have hnodes : ∀ e ∈ r.iter, e.2.kind = .file := by decide +kernel
    refine ⟨fun _ => .file, ?_, fun row hrow _ _ => hrows row hrow⟩
    intro p node hnode
    exact hnodes _ (Nodes.mem_iter.mpr hnode)
  have h := reconcile_twoWay_spares_changes b l r hkind .none rfl .whole
  refine ⟨h.1 _ (by decide +kernel), (h.2 ['b'] (by decide +kernel) (by decide +kernel) ?_
    ⟨by decide +kernel, by decide +kernel⟩).2 (by decide +kernel)⟩
  intro hend
  rcases hend with ⟨a, ha, hmove, -⟩
  have hall : ∀ a ∈ planActions .twoWay b l r .none .whole, a.isMove = false := by decide +kernel
  rw [hall a ha] at hmove
  cases hmove

end SyncEngine
