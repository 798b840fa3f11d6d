import SyncEngine.DirMoves.Detect

/-! # What a found move guarantees

A move is a case-only rename or a move to another path, and carries one side.
Everything later proofs use of the detectors is stated here, once for each of
the four shapes.
-/

namespace SyncEngine

open Collections List

/-- The destination of a move to another path: free on the side it carries and
in the rows under any spelling, apart from the source, and with its parents
ready. -/
structure Clear {ν : Type} [Kinded ν] (fold : CaseFold) (held : PathSet) (side : Nodes ν)
    (b : Baseline) (src dst : Path) : Prop where
  key_ne : fold.collisionKey src ≠ fold.collisionKey dst
  not_under : isUnder (fold.collisionKey src) (fold.collisionKey dst) = false
  not_over : isUnder (fold.collisionKey dst) (fold.collisionKey src) = false
  side_free : side.occupied fold dst = false
  rows_free : b.occupied fold dst = false
  held_src : touchesHeld src held = false
  held_dst : touchesHeld dst held = false
  ready : ∃ pending, parentsReady fold side b pending dst = true

/-- A directory the local side spells `l` and the remote `r`, under one parent. -/
structure CaseOnly (fold : CaseFold) (held : PathSet) (s : MoveSides) (l r : Path) (uuid : Uuid) :
    Prop where
  key_eq : fold.collisionKey l = fold.collisionKey r
  parent_eq : parentPath l = parentPath r
  local_dir : s.l.dirAt l = true
  remote_free : s.r.holds l = false
  remote_dir : ∃ node, s.r.nodeAt r = some node ∧ node.kind = .dir ∧ node.remoteUuid = uuid
  local_free : s.l.holds r = false
  held_local : touchesHeld l held = false
  held_remote : touchesHeld r held = false

inductive Found (fold : CaseFold) (held : PathSet) (s : MoveSides) : SyncAction → Prop where
  | pull {src dst : Path} {row : BaselineEntry} {uuid : Uuid}
      (mode : s.mode.pulls = true)
      (row_at : s.baseline.get src = some row)
      (source : dirMoveSource row = some uuid)
      (local_dir : s.l.dirAt src = true)
      (remote_at : remoteDirAt s.r uuid = some dst)
      (clear : Clear fold held s.l s.baseline src dst) :
      Found fold held s (.moveLocal src dst .dir)
  | push {src dst : Path} {row : BaselineEntry} {uuid : Uuid}
      (mode : s.mode.pushes = true)
      (row_at : s.baseline.get src = some row)
      (remote_dir : ∃ node, s.r.nodeAt src = some node ∧ node.kind = .dir ∧ node.remoteUuid = uuid)
      (local_gone : s.l.occupied fold src = false)
      (local_new : s.l.dirAt dst = true)
      (clear : Clear fold held s.r s.baseline src dst) :
      Found fold held s (.moveRemote src dst .dir uuid)
  | caseLocal {l r : Path} {uuid : Uuid}
      (mode : s.mode.pulls = true)
      (spelled : CaseOnly fold held s l r uuid) :
      Found fold held s (.moveLocal l r .dir)
  | caseRemote {l r : Path} {uuid : Uuid}
      (mode : s.mode.pushes = true)
      (row_at : s.mode.pulls = true → s.baseline.containsKey r = true)
      (spelled : CaseOnly fold held s l r uuid) :
      Found fold held s (.moveRemote r l .dir uuid)

section Found

variable {fold : CaseFold} {digest : Digest} {held : PathSet} {s : MoveSides}

theorem mem_visitLocalOnly {p : Path} (h : p ∈ visitLocalOnly s) :
    s.l.dirAt p ∧ s.r.holds p = false := by
  obtain ⟨⟨q, node⟩, hmem, rfl⟩ := mem_map.mp h
  obtain ⟨hdir, hfree⟩ := mem_filter.mp hmem
  exact ⟨Nodes.dirAt_iff.mpr ⟨node, Nodes.mem_dirs.mp hdir⟩, by simpa using hfree⟩

theorem mem_visitLocalNew {p : Path} (h : p ∈ visitLocalNew s) : s.l.dirAt p := by
  obtain ⟨⟨q, node⟩, hmem, rfl⟩ := mem_map.mp h
  exact Nodes.dirAt_iff.mpr ⟨node, Nodes.mem_dirs.mp (mem_filter.mp hmem).1⟩

theorem mem_visitRemoteOnly {e : Path × Uuid} (h : e ∈ visitRemoteOnly s) :
    (∃ node, s.r.nodeAt e.1 = some node ∧ node.kind = .dir ∧ node.remoteUuid = e.2) ∧
      s.l.holds e.1 = false := by
  obtain ⟨⟨q, node⟩, hmem, rfl⟩ := mem_map.mp h
  obtain ⟨hdir, hfree⟩ := mem_filter.mp hmem
  have hnode := Nodes.mem_dirs.mp hdir
  exact ⟨⟨node, hnode.1, hnode.2, rfl⟩, by simpa using hfree⟩

variable {c : CaseCandidate} {source : MoveSource} {move : SyncAction × Matched}

theorem mem_caseCandidates (h : c ∈ caseCandidates fold s)
    (hl : touchesHeld c.localPath held = false) (hr : touchesHeld c.remotePath held = false) :
    CaseOnly fold held s c.localPath c.remotePath c.remoteUuid := by
  unfold caseCandidates at h
  rw [mem_insertionSort] at h
  obtain ⟨e, he, hfound⟩ := mem_filterMap.mp h
  obtain ⟨localPath, hlast, hc⟩ := Option.bind_eq_some_iff.mp hfound
  have hmem := mem_filter.mp (mem_of_getLast? hlast)
  split at hc
  · rename_i hparent
    cases hc
    have hlocal := mem_visitLocalOnly hmem.1
    have hremote := mem_visitRemoteOnly he
    exact ⟨of_decide_eq_true hmem.2, hparent, hlocal.1, hlocal.2, hremote.1, hremote.2, hl, hr⟩
  · cases hc

theorem renameRemote_pushes (h : renameRemote s c) :
    s.mode.pushes ∧ (s.mode.pulls → s.baseline.containsKey c.remotePath) := by
  unfold renameRemote at h
  cases hmode : s.mode with
  | localToRemote => exact ⟨rfl, fun hp => absurd hp (by decide)⟩
  | localBackup => exact ⟨rfl, fun hp => absurd hp (by decide)⟩
  | remoteToLocal => simp [hmode] at h
  | remoteBackup => simp [hmode] at h
  | twoWay =>
    refine ⟨rfl, fun _ => ?_⟩
    simp only [hmode, Bool.and_eq_true] at h
    obtain ⟨row, hrow, -⟩ := (Option.any_eq_true _ _).mp h.2
    exact Baseline.containsKey_iff.mpr ⟨row, hrow⟩

theorem renameRemote_pulls (h : renameRemote s c = false) :
    s.mode.pulls := by
  unfold renameRemote at h
  cases hmode : s.mode with
  | localToRemote => simp [hmode] at h
  | localBackup => simp [hmode] at h
  | remoteToLocal => rfl
  | remoteBackup => rfl
  | twoWay => rfl

theorem found_of_nextCaseOnlyDirRename {a : SyncAction}
    (h : nextCaseOnlyDirRename fold held s = some a) : Found fold held s a := by
  obtain ⟨c, hc, hrename⟩ := exists_of_findSome?_eq_some h
  unfold caseRename at hrename
  split at hrename
  · cases hrename
  rename_i hclear
  simp only [Bool.or_eq_true, not_or, Bool.not_eq_true] at hclear
  have hspelled := mem_caseCandidates hc hclear.1.2 hclear.2
  split at hrename
  · rename_i hremote
    cases hrename
    obtain ⟨hmode, hrow⟩ := renameRemote_pushes hremote
    exact .caseRemote hmode hrow hspelled
  rename_i hremote
  cases hrename
  exact .caseLocal (renameRemote_pulls (by simpa using hremote)) hspelled

/-! ## Moves to another path -/

/-- A source is a synced directory row, and where the local side still has its
directory the mode pulls. -/
theorem mem_visitSources (h : source ∈ visitSources s) :
    (∃ row, s.baseline.get source.path = some row ∧ dirMoveSource row = some source.uuid) ∧
      (source.localDir → s.mode.pulls ∧ s.l.dirAt source.path) := by
  obtain ⟨row, hrow, hbind⟩ := mem_filterMap.mp h
  obtain ⟨uuid, huuid, hsource⟩ := Option.bind_eq_some_iff.mp hbind
  have hget := Baseline.get_of_mem (mem_filter.mp hrow).1
  cases hdir : s.l.dirAt row.relPath with
  | false =>
    simp only [hdir, Bool.false_eq_true, if_false, Bool.false_and] at hsource
    split at hsource
    · cases hsource
    cases hsource
    exact ⟨⟨row, hget, huuid⟩, fun h => absurd h (by simp)⟩
  | true =>
    simp only [hdir, if_true] at hsource
    split at hsource
    · cases hsource
    rename_i hwanted
    split at hsource
    · cases hsource
    cases hsource
    exact ⟨⟨row, hget, huuid⟩, fun _ => ⟨by simpa using hwanted, hdir⟩⟩

theorem clear_of_clearMove {ν : Type} [Kinded ν] {side : Nodes ν} {src dst : Path}
    (h : clearMove fold held s.baseline src dst) (hfree : side.occupied fold dst = false)
    (hready : ∃ pending, parentsReady fold side s.baseline pending dst) :
    Clear fold held side s.baseline src dst := by
  simp only [clearMove, Bool.and_eq_true, Bool.not_eq_true', Bool.or_eq_false_iff,
    decide_eq_true_eq] at h
  obtain ⟨⟨⟨⟨⟨hne, hover⟩, hunder⟩, hrows⟩, hheld⟩, -⟩ := h
  exact ⟨hne, hunder, hover, hfree, hrows, hheld.1, hheld.2, hready⟩

theorem pulledMove_eq_some
    (h : pulledMove fold s source = some move) :
    ∃ dst, move.1 = .moveLocal source.path dst .dir ∧
      remoteDirAt s.r source.uuid = some dst ∧ s.l.occupied fold dst = false := by
  obtain ⟨dst, hdst, hmove⟩ := Option.bind_eq_some_iff.mp h
  split at hmove
  · cases hmove
  split at hmove
  · cases hmove
  rename_i hfree
  cases hmove
  exact ⟨dst, rfl, hdst, by simpa using hfree⟩

theorem pushedMove_eq_some {sources : List MoveSource} (h : pushedMove fold digest s sources source = some move) :
    ∃ dst, move.1 = .moveRemote source.path dst .dir source.uuid ∧
      s.l.dirAt dst ∧ s.r.occupied fold dst = false := by
  obtain ⟨signature, -, hmove⟩ := Option.bind_eq_some_iff.mp h
  dsimp only at hmove
  split at hmove
  · rename_i dir full hmatch
    have hin := mem_singleton_self (dir, full)
    rw [← hmatch] at hin
    have hnew := mem_visitLocalNew (mem_newLocalDirSignatures (mem_matching hin))
    split at hmove
    · rename_i hgo
      cases hmove
      rw [Bool.and_eq_true] at hgo
      exact ⟨dir.path, rfl, hnew, by simpa using hgo.2⟩
    · cases hmove
  · cases hmove

theorem found_of_nextDirMove
    (h : nextDirMove fold digest held s = some move) : Found fold held s move.1 := by
  have hready := find?_some h
  obtain ⟨source, hsource, hfrom⟩ := mem_filterMap.mp (mem_of_find?_eq_some h)
  rw [mem_insertionSort] at hsource
  obtain ⟨⟨row, hrow, huuid⟩, hlocal⟩ := mem_visitSources hsource
  obtain ⟨hfound, hclear⟩ := Option.filter_eq_some_iff.mp hfrom
  split at hfound
  · rename_i hdir
    obtain ⟨hmode, hat⟩ := hlocal hdir
    obtain ⟨dst, haction, hremote, hfree⟩ := pulledMove_eq_some hfound
    rw [haction] at hready hclear ⊢
    exact .pull hmode hrow huuid hat hremote (clear_of_clearMove hclear hfree ⟨_, hready⟩)
  split at hfound
  · rename_i hpush
    simp only [Bool.and_eq_true, Bool.not_eq_true'] at hpush
    obtain ⟨⟨hmode, hremote⟩, hgone⟩ := hpush
    obtain ⟨node, hnode, hkind⟩ := (Option.any_eq_true _ _).mp hremote
    obtain ⟨dst, haction, hnew, hfree⟩ := pushedMove_eq_some hfound
    rw [haction] at hready hclear ⊢
    have hdir : node.kind = .dir ∧ node.remoteUuid = source.uuid := by simpa using hkind
    exact .push hmode hrow ⟨node, hnode, hdir⟩ hgone hnew
      (clear_of_clearMove hclear hfree ⟨_, hready⟩)
  · cases hfound

theorem found_of_nextMove
    (h : nextMove fold digest held s = some move) : Found fold held s move.1 := by
  unfold nextMove at h
  cases hcase : nextCaseOnlyDirRename fold held s with
  | some action =>
    rw [hcase] at h
    cases h
    exact found_of_nextCaseOnlyDirRename hcase
  | none =>
    rw [hcase] at h
    exact found_of_nextDirMove h

end Found

end SyncEngine
