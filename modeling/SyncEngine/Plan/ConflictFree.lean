import Mathlib.Data.List.Flatten
import SyncEngine.Plan.Backup

/-! # A plan agrees with itself

The join takes both ends of what it moves, the matrix decides what is not taken,
neither reaches a held path, and the tail only drops actions. So a path carries
one move, or what was decided there.
-/

namespace SyncEngine

open Collections List SyncAction

/-- The actions with an end at `p`. -/
def actionsAt (plan : List SyncAction) (p : Path) : List SyncAction :=
  plan.filter fun a => a.endpoints.1 = p ∨ a.endpoints.2 = p

/-- What a path of a plan can carry: an end of a move no other action, unless a
move found by lineage alone pulls the version it leads to. -/
inductive PathCarries (s : MoveSides) (paths : PassPaths) (p : Path) : List SyncAction → Prop where
  | nothing : PathCarries s paths p []
  | one (a : SyncAction) : PathCarries s paths p [a]
  | flipsRemote (kind other : NodeKind) (uuid : Uuid) (hkind : other ≠ kind) :
      PathCarries s paths p [trashRemote p kind uuid, createRemote p other]
  | flipsLocal (kind : NodeKind) (node : RemoteNode) (hkind : kind ≠ node.kind) :
      PathCarries s paths p [deleteLocal p kind, createLocal p node]
  | pulled (row : BaselineEntry) (uuid : Uuid) (node : RemoteNode) (hrow : row ∈ visitMoveSources paths s.baseline)
      (huuid : s.pullUuid row = some uuid)
      (htarget : pullTarget (visitMoveTargets paths s.r) row uuid = some (p, true))
      (hnode : s.r.nodeAt p = some node) :
      PathCarries s paths p [moveLocal row.relPath p .file, downloadFile p node.remoteUuid]

structure ConflictFree (s : MoveSides) (paths : PassPaths) (held : PathSet) (plan : List SyncAction) : Prop where
  distinct : (plan.flatMap moveEnds).Nodup
  carries : ∀ p, ∃ l, PathCarries s paths p l ∧ (actionsAt plan p).Perm l
  held : ∀ p, isUnderHeldPath p held = true → actionsAt plan p = []
  suppressed : ∀ a ∈ plan, a.isConflict = false → ∀ c, conflict c ∈ plan →
    isUnder a.endpoints.1 c = false ∧ isUnder a.endpoints.2 c = false

section Carries

variable {s : MoveSides} {paths : PassPaths} {p : Path} {xs ys kept : List SyncAction} {a : SyncAction}

theorem actionsAt_append : actionsAt (xs ++ ys) p = actionsAt xs p ++ actionsAt ys p := filter_append _ _

theorem actionsAt_eq_nil : actionsAt xs p = [] ↔ ∀ a ∈ xs, a.endpoints.1 ≠ p ∧ a.endpoints.2 ≠ p := by
  simp [actionsAt]

theorem actionsAt_ne_nil (h : p ∈ xs.flatMap moveEnds) : actionsAt xs p ≠ [] := by
  obtain ⟨a, ha, hp⟩ := mem_flatMap.mp h
  intro hnil
  obtain ⟨hsrc, hdst⟩ := actionsAt_eq_nil.mp hnil a ha
  unfold moveEnds at hp
  split at hp
  · rcases mem_cons.mp hp with rfl | hp
    · exact hsrc rfl
    · exact hdst (mem_singleton.mp hp).symm
  · cases hp

theorem PathCarries.sublist (h : PathCarries s paths p xs) (hsub : kept.Sublist xs) : PathCarries s paths p kept := by
  have htwo : xs.length ≤ 2 := by cases h <;> simp
  by_cases hlen : xs.length ≤ kept.length
  · rw [hsub.eq_of_length_le hlen]
    exact h
  match kept with
  | [] => exact .nothing
  | [a] => exact .one a
  | _ :: _ :: _ =>
    simp only [length_cons] at hlen
    omega

theorem carries_singleton (a : SyncAction) : PathCarries s paths p (actionsAt [a] p) :=
  (PathCarries.one a).sublist filter_sublist

variable {l : Option LocalNode} {r : Option RemoteNode} {base : Option BaselineEntry} {d : Bool} {mode : SyncMode}

theorem carries_adopt : PathCarries s paths p (adoptIfBaselineStale p l r base) := by
  unfold adoptIfBaselineStale
  split
  · exact .nothing
  · exact .one _

theorem carries_push : PathCarries s paths p (pushToRemote p l r base d) := by
  unfold pushToRemote
  split
  · exact .one _
  · split
    · exact carries_adopt
    split
    · next hkind => exact .flipsRemote _ _ _ hkind
    · exact .one _
  · split
    · exact .one _
    · exact .nothing
  · exact carries_adopt

theorem carries_pull : PathCarries s paths p (pullToLocal p l r base d) := by
  unfold pullToLocal
  split
  · exact .one _
  · split
    · exact carries_adopt
    split
    · next hkind => exact .flipsLocal _ _ hkind
    · exact .one _
  · split
    · exact .one _
    · exact .nothing
  · exact carries_adopt

theorem carries_decideByMode : PathCarries s paths p (decideByMode mode p l r base) := by
  cases mode with
  | localToRemote | localBackup => exact carries_push
  | remoteToLocal | remoteBackup => exact carries_pull
  | twoWay =>
    unfold decideByMode reconcileTwoWay
    dsimp only
    split
    · exact .nothing
    · exact carries_push
    · split
      · exact .one _
      · exact carries_pull
    · split <;> exact .one _

theorem carries_decidePath (marked : List (Path × MarkedExit)) :
    PathCarries s paths p (decidePath mode p base marked l r) := by
  unfold decidePath
  split
  · exact .one _
  split
  · exact .one _
  · exact .one _
  split
  · split
    · exact carries_decideByMode
    · exact .nothing
  · exact carries_decideByMode

theorem StaysAt.endpoints (h : StaysAt p a) : a.endpoints = (p, p) := by
  obtain ⟨rfl, hmove⟩ := h
  cases a <;> first | rfl | cases hmove

end Carries

/-! ## The join -/

/-- What holds of the join at every point of its run: it has taken the paths its
actions are at, and none of them is held. -/
structure JoinFree (s : MoveSides) (paths : PassPaths) (held : PathSet) (state : JoinState) : Prop where
  distinct : (state.1.flatMap moveEnds).Nodup
  carries : ∀ p, PathCarries s paths p (actionsAt state.1 p)
  taken : ∀ p, actionsAt state.1 p ≠ [] → p ∈ state.2 ∧ isUnderHeldPath p held = false
  withheld : ∀ p ∈ withheldKeys (reconcileKeys paths s.baseline s.l s.r held) held, p ∈ state.2

section Join

variable {s : MoveSides} {paths : PassPaths} {held : PathSet} {state : JoinState}
  {base : BaselineEntry} {more : List SyncAction}

theorem JoinFree.extend (h : JoinFree s paths held state) (ends : List Path)
    (hends : ∀ a ∈ more, a.endpoints.1 ∈ ends ∧ a.endpoints.2 ∈ ends)
    (hfree : ∀ p ∈ ends, p ∉ state.2 ∧ p ∈ reconcileKeys paths s.baseline s.l s.r held)
    (hcarries : ∀ p, PathCarries s paths p (actionsAt more p)) (hdistinct : (more.flatMap moveEnds).Nodup) :
    JoinFree s paths held (state.1 ++ more, ends ++ state.2) := by
  have hnew : ∀ p ∉ ends, actionsAt more p = [] := fun p hp => actionsAt_eq_nil.mpr fun a ha =>
    ⟨fun heq => hp (heq ▸ (hends a ha).1), fun heq => hp (heq ▸ (hends a ha).2)⟩
  have hold : ∀ p ∈ ends, actionsAt state.1 p = [] := fun p hp =>
    by_contra fun hne => (hfree p hp).1 (h.taken p hne).1
  refine ⟨?_, fun p => ?_, fun p hne => ?_, fun p hp => mem_append_right _ (h.withheld p hp)⟩
  · rw [flatMap_append]
    refine nodup_append.mpr ⟨h.distinct, hdistinct, ?_⟩
    rintro p hp _ hq rfl
    have hin : p ∈ ends := by_contra fun hp' => actionsAt_ne_nil hq (hnew p hp')
    exact actionsAt_ne_nil hp (hold p hin)
  · rw [actionsAt_append]
    by_cases hp : p ∈ ends
    · rw [hold p hp]
      exact hcarries p
    rw [hnew p hp, append_nil]
    exact h.carries p
  by_cases hp : p ∈ ends
  · refine ⟨mem_append_left _ hp, (not_mem_withheldKeys_iff (hfree p hp).2).mp fun hw => ?_⟩
    exact (hfree p hp).1 (h.withheld p hw)
  rw [actionsAt_append, hnew p hp, append_nil] at hne
  exact ⟨mem_append_right _ (h.taken p hne).1, (h.taken p hne).2⟩

theorem JoinFree.pullStep {targets : List (Path × RemoteNode)} (h : JoinFree s paths held state)
    (htargets : ∀ row uuid, pullTarget targets row uuid = none ∨
      pullTarget targets row uuid = pullTarget (visitMoveTargets paths s.r) row uuid)
    (hbase : base ∈ visitMoveSources paths s.baseline) :
    JoinFree s paths held (pullStep s (pullTarget targets) state base) := by
  rcases pullStep_cases s targets state base with
    ⟨hsame, -⟩ | ⟨hsrc, -, ⟨hconf, -⟩ | ⟨dst, edit, uuid, heq, hren, hdst, huuid, htarget⟩⟩
  · rw [hsame]
    exact h
  · rw [hconf]
    exact h.extend [base.relPath] (by simp [endpoints, SyncAction.relPath])
      (by simp [hsrc, mem_keys_of_source hbase]) (fun p => carries_singleton _) (by simp [moveEnds, isMove])
  rcases htargets base uuid with hnone | hsame
  · rw [hnone] at htarget
    cases htarget
  rw [hsame] at htarget
  rw [heq]
  have hstill : (pairedDownload s.r dst edit).flatMap moveEnds = [] := by
    refine flatMap_eq_nil_iff.mpr fun a ha => ?_
    obtain ⟨u, rfl⟩ := mem_pairedDownload ha
    rfl
  refine h.extend [dst, base.relPath] (fun a ha => ?_)
    (by simp [hsrc, mem_keys_of_source hbase, hdst, mem_keys_of_pullTarget htarget]) (fun p => ?_)
    (by simp [hstill, moveEnds, isMove, endpoints, hren.moved.symm])
  · rcases mem_cons.mp ha with rfl | ha
    · simp [endpoints]
    obtain ⟨u, rfl⟩ := mem_pairedDownload ha
    simp [endpoints, SyncAction.relPath]
  unfold pairedDownload
  cases edit with
  | false => exact carries_singleton _
  | true =>
    cases hnode : s.r.nodeAt dst with
    | none => exact carries_singleton _
    | some node =>
      by_cases hp : dst = p
      · subst hp
        exact (PathCarries.pulled base uuid node hbase huuid htarget hnode).sublist filter_sublist
      refine (PathCarries.one (moveLocal base.relPath dst .file)).sublist ?_
      have hnot : actionsAt [downloadFile dst node.remoteUuid] p = [] :=
        actionsAt_eq_nil.mpr (by simp [endpoints, SyncAction.relPath, hp])
      show (actionsAt ([moveLocal base.relPath dst .file] ++ [downloadFile dst node.remoteUuid]) p).Sublist _
      rw [actionsAt_append, hnot, append_nil]
      exact filter_sublist

theorem JoinFree.pushStep {targets : List (Path × LocalNode)} (h : JoinFree s paths held state)
    (htargets : targets.Sublist (visitMoveTargets paths s.l)) (hbase : base ∈ visitMoveSources paths s.baseline) :
    JoinFree s paths held (pushStep s (fun hash => some (hashTargets s targets hash)) state base) := by
  rcases pushStep_cases s (fun hash => some (hashTargets s targets hash)) state base with
    hsame | ⟨dst, hash, uuid, held', -, -, hheld, hin, hsrc, hdst, -, heq⟩
  · rw [hsame]
    exact h
  rw [heq]
  rw [← Option.some.inj hheld] at hin
  have hne : base.relPath ≠ dst := by
    rintro rfl
    have hkey := Baseline.containsKey_iff.mpr ⟨base, get_of_mem_sources hbase⟩
    rw [containsKey_hashTargets hin] at hkey
    cases hkey
  obtain ⟨⟨dst, node⟩, ht, rfl⟩ := mem_map.mp hin
  obtain ⟨hdecided, hholds⟩ := decided_of_target (htargets.mem (mem_filter.mp ht).1)
  have hkey : dst ∈ reconcileKeys paths s.baseline s.l s.r held := mem_keys_of_decided hdecided (Or.inl hholds)
  exact h.extend [dst, base.relPath] (by simp [endpoints])
    (by simp [hsrc, mem_keys_of_source hbase, hdst, hkey]) (fun p => carries_singleton _)
    (by simp [moveEnds, isMove, endpoints, hne])

theorem detectMoves_free (s : MoveSides) (paths : PassPaths) (held : PathSet) :
    JoinFree s paths held (detectMoves s paths (withheldKeys (reconcileKeys paths s.baseline s.l s.r held) held)) := by
  rw [detectMoves_eq]
  have hstart : JoinFree s paths held ([], withheldKeys (reconcileKeys paths s.baseline s.l s.r held) held) :=
    ⟨by simp, fun p => .nothing, fun p h => (h rfl).elim, fun p h => h⟩
  refine List.foldlRecOn _ _ (List.foldlRecOn _ _ hstart ?_) ?_
  · intro state hstate base hbase
    refine hstate.pullStep (fun row uuid => ?_) hbase
    split
    · exact Or.inr rfl
    · exact Or.inl (pullTarget_nil row uuid)
  intro state hstate base hbase
  refine hstate.pushStep ?_ (mem_filter.mp hbase).1
  split
  · exact List.Sublist.refl _
  · exact nil_sublist _

end Join

/-! ## The plan -/

section Plan

variable {mode : SyncMode} {b : Baseline} {l : Nodes LocalNode} {r : Nodes RemoteNode} {holds : PassHolds}
  {paths : PassPaths} {keys consumed : List Path} {p : Path}

theorem actionsAt_decideKeys {marked : List (Path × MarkedExit)} (hnodup : keys.Nodup) :
    actionsAt (decideKeys mode b l r marked keys consumed) p = [] ∨ p ∈ keys ∧ p ∉ consumed ∧
      actionsAt (decideKeys mode b l r marked keys consumed) p =
        decidePath mode p (b.get p) marked (l.nodeAt p) (r.nodeAt p) := by
  induction keys with
  | nil => exact Or.inl rfl
  | cons key keys ih =>
    obtain ⟨hnot, hrest⟩ := nodup_cons.mp hnodup
    unfold decideKeys
    rw [flatMap_cons, actionsAt_append]
    by_cases hp : key = p
    · subst hp
      rcases ih hrest with hnone | ⟨hin, -⟩
      · unfold decideKeys at hnone
        rw [hnone, append_nil]
        split
        · exact Or.inl rfl
        next hfree =>
        refine Or.inr ⟨mem_cons_self, by simpa using hfree, filter_eq_self.mpr fun a ha => ?_⟩
        simp [(decidePath_staysAt ha).endpoints]
      · exact absurd hin hnot
    have hnone : actionsAt (if consumed.contains key then []
        else decidePath mode key (b.get key) marked (l.nodeAt key) (r.nodeAt key)) p = [] := by
      split
      · rfl
      · exact actionsAt_eq_nil.mpr fun a ha => by simp [(decidePath_staysAt ha).endpoints, hp]
    rw [hnone, nil_append]
    exact (ih hrest).imp_right fun h => ⟨mem_cons_of_mem _ h.1, h.2⟩

theorem planActions_free :
    (∀ p, PathCarries ⟨mode, l, r, b⟩ paths p (actionsAt (planActions mode b l r holds paths) p)) ∧
      ∀ p, isUnderHeldPath p holds.heldRemote → actionsAt (planActions mode b l r holds paths) p = [] := by
  have hjoin := detectMoves_free ⟨mode, l, r, b⟩ paths holds.heldRemote
  have hcase := fun p => @actionsAt_decideKeys mode b l r _ (joined mode b l r holds paths).2 p holds.markedExits
    (reconcileKeys paths b l r holds.heldRemote).nodup
  unfold planActions
  constructor
  · intro p
    rw [actionsAt_append]
    rcases hcase p with hnone | ⟨-, hfree, heq⟩
    · rw [hnone, append_nil]
      exact hjoin.carries p
    rw [heq, by_contra fun hne => hfree (hjoin.taken p hne).1, nil_append]
    exact carries_decidePath _
  intro p hheld
  rw [actionsAt_append, by_contra fun hne => Bool.eq_false_iff.mp (hjoin.taken p hne).2 hheld, nil_append]
  rcases hcase p with hnone | ⟨hkey, hfree, -⟩
  · exact hnone
  · exact absurd (hjoin.withheld p (mem_withheldKeys.mpr ⟨hkey, hheld⟩)) hfree

theorem finishPlan_perm (actions : List SyncAction) (n : Nat) (holds : PassHolds) :
    ∃ kept, (finishPlan actions n holds).actions.Perm kept ∧ kept.Sublist actions := by
  unfold finishPlan orderActions
  dsimp only
  refine ⟨_, perm_insertionSort _ _, ?_⟩
  rw [suppress_eq_filter]
  exact filter_sublist.trans filter_sublist

theorem nodup_moveEnds : ((reconcile mode b l r holds paths).actions.flatMap moveEnds).Nodup := by
  obtain ⟨kept, hperm, hsub⟩ := finishPlan_perm (planActions mode b l r holds paths)
    (deferredKeys (reconcileKeys paths b l r holds.heldRemote) holds.heldRemote) holds
  have hdecided : (decideKeys mode b l r holds.markedExits (reconcileKeys paths b l r holds.heldRemote).toList
      (joined mode b l r holds paths).2).flatMap moveEnds = [] := by
    refine flatMap_eq_nil_iff.mpr fun a ha => ?_
    obtain ⟨key, -, hkey⟩ := mem_flatMap.mp ha
    split at hkey
    · cases hkey
    unfold moveEnds
    rw [(decidePath_staysAt hkey).2]
    rfl
  have hall : ((planActions mode b l r holds paths).flatMap moveEnds).Nodup := by
    unfold planActions
    dsimp only
    rw [flatMap_append, hdecided, append_nil]
    exact (detectMoves_free ⟨mode, l, r, b⟩ paths holds.heldRemote).distinct
  exact (hperm.flatMap_right moveEnds).nodup_iff.mpr (hall.sublist (hsub.flatMap moveEnds))

end Plan

/-- Every plan agrees with itself: no path is an end of two moves, a path carries
one move or what was decided there, a held path nothing, and nothing is planned
below a conflict. -/
theorem reconcile_conflictFree (mode : SyncMode) (b : Baseline) (l : Nodes LocalNode) (r : Nodes RemoteNode)
    (holds : PassHolds) (paths : PassPaths) :
    ConflictFree ⟨mode, l, r, b⟩ paths holds.heldRemote (reconcile mode b l r holds paths).actions := by
  obtain ⟨kept, hperm, hsub⟩ := finishPlan_perm (planActions mode b l r holds paths)
    (deferredKeys (reconcileKeys paths b l r holds.heldRemote) holds.heldRemote) holds
  obtain ⟨hcarries, hheld⟩ := @planActions_free mode b l r holds paths
  constructor
  · exact nodup_moveEnds
  · exact fun p => ⟨_, (hcarries p).sublist (hsub.filter _), hperm.filter _⟩
  · intro p hp
    have hnone : (actionsAt kept p).Sublist [] := hheld p hp ▸ hsub.filter _
    exact perm_nil.mp (sublist_nil.mp hnone ▸ hperm.filter _)
  intro a ha hconf c hc
  have hunder := (mem_finishPlan.mp ha).2.2
  unfold underConflict at hunder
  rw [hconf] at hunder
  have hclear := any_eq_false.mp hunder c
    (mem_conflictedPaths.mpr (mem_filter.mpr ⟨(mem_finishPlan.mp hc).1, rfl⟩))
  simpa using hclear

end SyncEngine
