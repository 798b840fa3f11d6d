import SyncEngine.Plan.Reconcile
import SyncEngine.Side.Carried

/-! # A change-scoped reconcile plans what a whole one plans

A path the pass recorded nothing at, whose row is carried, holds on both sides
what its row records. Nothing is decided there, no move starts or ends there,
and nothing withheld there goes uncounted, so leaving it out changes nothing.
-/

namespace SyncEngine

open Collections FromRow Baseline Nodes List SyncAction

section Row

variable {row : BaselineEntry}

theorem state_of_carryable (h : row.carryable) : row.state = .synced := by
  unfold BaselineEntry.carryable at h
  simp only [Bool.and_eq_true, decide_eq_true_eq] at h
  exact h.1.1

variable {l : LocalNode} {r : RemoteNode}

theorem carried_fields (h : carried row = some (l, r)) :
    l.kind = row.kind ∧ r.kind = row.kind ∧ row.remoteUuid = some r.remoteUuid ∧
      r.stableUuid = row.remoteStableUuid ∧ r.contentHash = row.contentHash ∧
      (row.kind = .file → l.contentHash = row.contentHash ∧ row.contentHash.isSome) := by
  unfold carried extracted writtenNode at h
  split at h
  · cases hu : row.remoteUuid with
    | none => simp [hu] at h
    | some uuid =>
      cases hk : row.kind with
      | dir =>
        simp only [hu, hk, Option.map_some, Option.bind_some, Option.some.injEq,
          Prod.mk.injEq] at h
        rcases h with ⟨rfl, rfl⟩
        simp
      | file =>
        simp only [hu, hk, Option.map_some, Option.bind_some] at h
        split at h
        · rename_i hm hs ht hc
          simp only [Option.some.injEq, Prod.mk.injEq] at h
          rcases h with ⟨rfl, rfl⟩
          simp [hc]
        · cases h
  · cases h

theorem carried_of_carryable (h : row.carryable) : ∃ l r, carried row = some (l, r) := by
  have hs := carried_isSome row
  rw [h] at hs
  rcases Option.isSome_iff_exists.mp hs with ⟨pair, hpair⟩
  exact ⟨pair.1, pair.2, hpair⟩

theorem decidePath_of_carried (h : carried row = some (l, r)) (hc : row.carryable) (mode : SyncMode) {key : Path}
    {marked : List (Path × MarkedExit)} (hm : marked.lookup key = none) :
    decidePath mode key (some row) marked (some l) (some r) = [] := by
  rcases carried_fields h with ⟨hlk, hrk, huuid, -, hhash, hfile⟩
  have hstate := state_of_carryable hc
  have hmatch : remoteMatchesLocal l r (some row) := by
    unfold remoteMatchesLocal
    rw [hlk, hrk]
    cases hk : row.kind with
    | dir => simp
    | file =>
      rcases Option.isSome_iff_exists.mp (hfile hk).2 with ⟨content, hcontent⟩
      simp [(hfile hk).1, hhash, hcontent]
  have hcurrent : baselineIsCurrent (some l) (some r) (some row) := by
    simp only [baselineIsCurrent, hlk]
    cases hk : row.kind with
    | dir => simp [huuid]
    | file => simp [huuid, (hfile hk).1]
  have hlocal : classifyLocal (some l) (some row) = .unchanged := by
    refine classifyLocal_eq_unchanged.mpr ⟨hlk, fun hk => ?_⟩
    rw [hlk] at hk
    rcases Option.isSome_iff_exists.mp (hfile hk).2 with ⟨content, hcontent⟩
    exact ⟨content, (hfile hk).1.trans hcontent, hcontent⟩
  have hremote : classifyRemote (some r) (some row) = .unchanged :=
    classifyRemote_eq_unchanged.mpr ⟨hrk, fun _ => Or.inl huuid⟩
  have hdecide : decideByMode mode key (some l) (some r) (some row) = [] := by
    cases mode <;>
      simp [decideByMode, pushToRemote, pullToLocal, reconcileTwoWay, adoptIfBaselineStale, hmatch,
        hcurrent, hlocal, hremote, SideState.changed]
  unfold decidePath
  simp [hstate, BaselineState.isConflict, hm, hdecide]

end Row

/-- Two carried sides over one baseline, and a set of paths that names every
path whose nodes need not be its row's. -/
structure ChangeScope (b : Baseline) (lo : Overlay LocalNode) (ro : Overlay RemoteNode)
    (marked : List (Path × MarkedExit)) (set : PathSet) : Prop where
  localRecords : ∀ p, lo.records p = true → p ∈ set
  remoteRecords : ∀ p, ro.records p = true → p ∈ set
  uncarryable : ∀ p row, b.get p = some row → row.carryable = false → p ∈ set
  marked : ∀ p, (marked.lookup p).isSome = true → p ∈ set

/-- No two synced rows record one remote id, by version or by lineage, and a
version sits at one remote path. -/
structure OneItemPerId (b : Baseline) (r : Nodes RemoteNode) : Prop where
  uuidRow : ∀ x ∈ b.rows, ∀ y ∈ b.rows, x.state = .synced → y.state = .synced →
    ∀ uuid, x.remoteUuid = some uuid → y.remoteUuid = some uuid → x = y
  lineageRow : ∀ x ∈ b.rows, ∀ y ∈ b.rows, x.state = .synced → y.state = .synced →
    ∀ lineage, x.remoteStableUuid = some lineage → y.remoteStableUuid = some lineage → x = y
  uuidPath : ∀ p q m n, r.nodeAt p = some m → r.nodeAt q = some n →
    m.remoteUuid = n.remoteUuid → p = q

/-- Files of one lineage that the overlay records are walked in path order, as
they are where a lineage sits at one path. -/
def LineagesInPathOrder (ro : Overlay RemoteNode) : Prop :=
  ro.nodes.iter.Pairwise fun e f =>
    e.2.fileLineage.isSome = true → e.2.fileLineage = f.2.fileLineage → e.1 < f.1

section Scope

variable {mode : SyncMode} {b : Baseline} {lo : Overlay LocalNode} {ro : Overlay RemoteNode}
  {holds : PassHolds} {set : PathSet}

/-- A path left out of the set, if any input knows it, has a carried row, and
both sides hold the nodes of that row there. -/
theorem ChangeScope.row_of_known {marked : List (Path × MarkedExit)}
    (h : ChangeScope b lo ro marked set) {p : Path} (hp : p ∉ set)
    (hknown : (carriedSide lo b).holds p ∨ (carriedSide ro b).holds p ∨
      b.containsKey p) :
    ∃ row l r, b.get p = some row ∧ row.carryable ∧ carried row = some (l, r) ∧
      (carriedSide lo b).nodeAt p = some l ∧ (carriedSide ro b).nodeAt p = some r := by
  have hlo : lo.get p = .nothing :=
    Overlay.records_eq_false.mp (by simpa using fun hr => hp (h.localRecords p hr))
  have hro : ro.get p = .nothing :=
    Overlay.records_eq_false.mp (by simpa using fun hr => hp (h.remoteRecords p hr))
  have hrow : ∃ row, b.get p = some row := by
    rcases hknown with hl | hr | hb
    · rcases holds_iff.mp hl with ⟨node, hnode⟩
      rw [nodeAt_carriedSide] at hnode
      unfold carriedAt at hnode
      rw [hlo] at hnode
      rcases Option.bind_eq_some_iff.mp hnode with ⟨row, hrow, -⟩
      exact ⟨row, hrow⟩
    · rcases holds_iff.mp hr with ⟨node, hnode⟩
      rw [nodeAt_carriedSide] at hnode
      unfold carriedAt at hnode
      rw [hro] at hnode
      rcases Option.bind_eq_some_iff.mp hnode with ⟨row, hrow, -⟩
      exact ⟨row, hrow⟩
    · exact containsKey_iff.mp hb
  rcases hrow with ⟨row, hrow⟩
  have hc : row.carryable := by
    cases hcarry : row.carryable with
    | true => rfl
    | false => exact absurd (h.uncarryable p row hrow hcarry) hp
  rcases carried_of_carryable hc with ⟨l, r, hlr⟩
  refine ⟨row, l, r, hrow, hc, hlr, ?_, ?_⟩
  · rw [nodeAt_carriedSide]
    unfold carriedAt
    rw [hlo, hrow]
    simp [fromRow, hlr]
  rw [nodeAt_carriedSide]
  unfold carriedAt
  rw [hro, hrow]
  simp [fromRow, hlr]

/-! ## The decided paths -/

theorem rows_of_set (b : Baseline) (set : PathSet) :
    set.toList.filterMap b.get = b.rows.filter fun row => set.contains row.relPath := by
  have hsorted : (set.toList.filterMap b.get).Pairwise
      fun x y : BaselineEntry => x.relPath < y.relPath := by
    refine List.Pairwise.filterMap _ ?_ set.sorted
    intro p q hpq x hx y hy
    rw [get_relPath hx, get_relPath hy]
    exact hpq
  have hrows : (b.rows.filter fun row => set.contains row.relPath).Pairwise
      fun x y : BaselineEntry => x.relPath < y.relPath :=
    (pairwise_map.mp b.sorted).filter _
  have : Std.Irrefl fun x y : BaselineEntry => x.relPath < y.relPath := ⟨fun x => lt_irrefl _⟩
  have : Std.Antisymm fun x y : BaselineEntry => x.relPath < y.relPath :=
    ⟨fun x y hxy hyx => absurd (lt_trans hxy hyx) (lt_irrefl _)⟩
  refine hsorted.eq_of_mem_iff hrows fun row => ?_
  rw [mem_filterMap, mem_filter, SortedSet.contains_iff]
  constructor
  · intro h
    rcases h with ⟨p, hp, hget⟩
    rw [get_relPath hget]
    exact ⟨mem_rows_of_get hget, hp⟩
  intro h
  exact ⟨row.relPath, h.2, Baseline.get_of_mem h.1⟩

theorem mem_visitMoveTargets_changed {ν : Type} {side : Nodes ν} {set : PathSet} {p : Path}
    {node : ν} : (p, node) ∈ visitMoveTargets (.changed set) side ↔
      p ∈ set ∧ side.nodeAt p = some node := by
  unfold visitMoveTargets
  rw [mem_filterMap]
  constructor
  · intro h
    rcases h with ⟨q, hq, heq⟩
    rcases Option.map_eq_some_iff.mp heq with ⟨n, hn, hpair⟩
    cases hpair
    exact ⟨hq, hn⟩
  intro h
  exact ⟨p, h.1, by simp [h.2]⟩

theorem visitMoveTargets_changed_sorted {ν : Type} (side : Nodes ν) (set : PathSet) :
    (visitMoveTargets (.changed set) side).Pairwise fun e f => e.1 < f.1 := by
  refine List.Pairwise.filterMap _ ?_ set.sorted
  intro p q hpq e he f hf
  rcases Option.map_eq_some_iff.mp he with ⟨m, -, hem⟩
  rcases Option.map_eq_some_iff.mp hf with ⟨n, -, hfn⟩
  rw [← hem, ← hfn]
  exact hpq

theorem known_of_row {l : Nodes LocalNode} {r : Nodes RemoteNode} {row : BaselineEntry}
    (h : row ∈ b.rows) : l.holds row.relPath ∨ r.holds row.relPath ∨
      b.containsKey row.relPath :=
  Or.inr (Or.inr (containsKey_iff.mpr ⟨row, Baseline.get_of_mem h⟩))

section Same

variable {lo : Overlay LocalNode} {ro : Overlay RemoteNode} {marked : List (Path × MarkedExit)}
  (h : ChangeScope b lo ro marked set)

variable {l : Nodes LocalNode} {r : Nodes RemoteNode} {held : PathSet} {p : Path} {s : MoveSides} {uuid : Uuid}
    {node : RemoteNode} {lineage : StableUuid}

theorem mem_reconcileKeys_changed
    : p ∈ reconcileKeys (.changed set) b l r held ↔
      (l.holds p ∨ r.holds p ∨ b.containsKey p) ∧
        (p ∈ set ∨ p ∈ held ∨
          ∃ root ∈ held, isUnder p root ∧ b.containsKey p) := by
  simp only [reconcileKeys, SortedSet.mem_ofList, mem_append, mem_filter,
    mem_flatMap, Bool.or_eq_true, or_assoc]
  constructor
  · intro hp
    rcases hp with ⟨hset, hknown⟩ | ⟨root, hroot, hat | hunder⟩
    · exact ⟨hknown, Or.inl hset⟩
    · split at hat
      · rename_i hknown
        have hpr : p = root := by simpa using hat
        exact ⟨hpr ▸ hknown, Or.inr (Or.inl (hpr ▸ hroot))⟩
      · cases hat
    rcases mem_map.mp hunder with ⟨row, hrow, hrp⟩
    have hmem := mem_filter.mp hrow
    have hkey : b.containsKey p :=
      containsKey_iff.mpr ⟨row, hrp ▸ Baseline.get_of_mem hmem.1⟩
    exact ⟨Or.inr (Or.inr hkey), Or.inr (Or.inr ⟨root, hroot, hrp ▸ hmem.2, hkey⟩)⟩
  intro hp
  rcases hp.2 with hset | hheld | ⟨root, hroot, hunder, hkey⟩
  · exact Or.inl ⟨hset, hp.1⟩
  · refine Or.inr ⟨p, hheld, Or.inl ?_⟩
    rw [if_pos hp.1]
    simp
  rcases containsKey_iff.mp hkey with ⟨row, hget⟩
  refine Or.inr ⟨root, hroot, Or.inr (mem_map.mpr ⟨row, ?_, get_relPath hget⟩)⟩
  refine mem_filter.mpr ⟨mem_rows_of_get hget, ?_⟩
  rw [get_relPath hget]
  exact hunder

theorem changed_subset_whole
    (hp : p ∈ reconcileKeys (.changed set) b l r held) :
    p ∈ reconcileKeys .whole b l r held :=
  mem_reconcileKeys_whole.mpr (mem_reconcileKeys_changed.mp hp).1

include h in
theorem mem_changed_of_held
    (hp : p ∈ reconcileKeys .whole b (carriedSide lo b) (carriedSide ro b) held)
    (hheld : isUnderHeldPath p held) :
    p ∈ reconcileKeys (.changed set) b (carriedSide lo b) (carriedSide ro b) held := by
  have hknown := mem_reconcileKeys_whole.mp hp
  refine mem_reconcileKeys_changed.mpr ⟨hknown, ?_⟩
  by_cases hset : p ∈ set
  · exact Or.inl hset
  right
  rcases atOrUnderRoot_iff.mp hheld with ⟨root, hroot, heq | hunder⟩
  · exact Or.inl (heq ▸ hroot)
  rcases h.row_of_known hset hknown with ⟨row, -, -, hrow, -⟩
  exact Or.inr ⟨root, hroot, hunder, containsKey_iff.mpr ⟨row, hrow⟩⟩

theorem keys_filter {keys kept : PathSet} (hsub : ∀ p, p ∈ kept → p ∈ keys) :
    kept.toList = keys.toList.filter fun p => kept.contains p := by
  refine kept.sorted.eq_of_mem_iff (keys.sorted.filter _) fun p => ?_
  rw [mem_filter, SortedSet.contains_iff]
  constructor
  · intro hp
    exact ⟨hsub p hp, hp⟩
  intro hp
  exact hp.2

include h in
theorem withheldKeys_same (held : PathSet) :
    withheldKeys (reconcileKeys (.changed set) b (carriedSide lo b) (carriedSide ro b) held) held =
      withheldKeys (reconcileKeys .whole b (carriedSide lo b) (carriedSide ro b) held) held := by
  unfold withheldKeys
  rw [keys_filter fun p hp => changed_subset_whole hp, filter_filter]
  refine filter_congr fun p hp => ?_
  cases hheld : isUnderHeldPath p held with
  | false => rfl
  | true =>
    have hmem := mem_changed_of_held h hp hheld
    simpa using hmem

include h in
theorem deferredKeys_same (held : PathSet) :
    deferredKeys (reconcileKeys (.changed set) b (carriedSide lo b) (carriedSide ro b) held) held =
      deferredKeys (reconcileKeys .whole b (carriedSide lo b) (carriedSide ro b) held) held := by
  unfold deferredKeys
  rw [withheldKeys_same h]
  congr 1
  refine SortedSet.count_eq_of_mem_iff fun p => and_congr_right fun hp => ?_
  have hheld : isUnderHeldPath p held := atOrUnderRoot_iff.mpr ⟨p, hp, Or.inl rfl⟩
  simp only [Bool.not_eq_true', ← Bool.not_eq_true, SortedSet.contains_iff]
  constructor
  · intro hn hw
    exact hn (mem_changed_of_held h hw hheld)
  intro hn hc
  exact hn (changed_subset_whole hc)

include h in
theorem decideKeys_same (held : PathSet) (consumed : List Path) :
    decideKeys mode b (carriedSide lo b) (carriedSide ro b) marked
        (reconcileKeys (.changed set) b (carriedSide lo b) (carriedSide ro b) held).toList consumed =
      decideKeys mode b (carriedSide lo b) (carriedSide ro b) marked
        (reconcileKeys .whole b (carriedSide lo b) (carriedSide ro b) held).toList consumed := by
  rw [keys_filter fun p hp => changed_subset_whole hp]
  refine flatMap_filter_of_nil _ fun p hp hc => ?_
  have hknown := mem_reconcileKeys_whole.mp hp
  have hset : p ∉ set := by
    intro hs
    rw [SortedSet.contains_iff.mpr (mem_reconcileKeys_changed.mpr ⟨hknown, Or.inl hs⟩)] at hc
    cases hc
  rcases h.row_of_known hset hknown with ⟨row, l, r, hrow, hcarry, hlr, hl, hr⟩
  have hm : marked.lookup p = none := by
    cases hlook : marked.lookup p with
    | none => rfl
    | some exit => exact absurd (h.marked p (by simp [hlook])) hset
  split
  · rfl
  · rw [hrow, hl, hr, decidePath_of_carried hlr hcarry mode hm]

/-! ## The move join -/

variable {row : BaselineEntry}

include h in
theorem no_source_outside (hrow : row ∈ b.rows) (hset : row.relPath ∉ set) :
    (⟨mode, carriedSide lo b, carriedSide ro b, b⟩ : MoveSides).pullUuid row = none ∧
      (⟨mode, carriedSide lo b, carriedSide ro b, b⟩ : MoveSides).pushHash row = none := by
  rcases h.row_of_known hset (known_of_row hrow) with ⟨row', l, r, hget, hcarry, hlr, hl, hr⟩
  rw [Baseline.get_of_mem hrow] at hget
  cases hget
  rcases carried_fields hlr with ⟨-, hrk, huuid, -⟩
  constructor
  · unfold MoveSides.pullUuid pullSource
    rw [hr, huuid]
    split
    · rfl
    rename_i hfile
    have hk : row.kind = .file := by
      by_contra hk
      exact hfile (Or.inl hk)
    simp [hrk, hk]
  unfold MoveSides.pushHash pushSource
  rw [if_pos (Or.inr (Or.inr (holds_iff.mpr ⟨l, hl⟩)))]

/-- The row a version id is pulled for is synced and records that id, and the
remote does not hold the id at the row's path. -/
theorem pullUuid_some (hu : s.pullUuid row = some uuid) :
    row.kind = .file ∧ row.state = .synced ∧ row.remoteUuid = some uuid ∧
      ∀ node, s.r.nodeAt row.relPath = some node → node.kind = .file →
        node.remoteUuid ≠ uuid := by
  unfold MoveSides.pullUuid pullSource at hu
  split at hu
  · cases hu
  rename_i hsrc
  simp only [not_or, not_not] at hsrc
  split at hu
  · cases hu
  rename_i found hfound
  split at hu
  · cases hu
  rename_i hstay
  cases hu
  refine ⟨hsrc.1, hsrc.2, hfound, ?_⟩
  intro node hnode hkind heq
  rw [hnode] at hstay
  simp [hkind, heq] at hstay

theorem fileUuid_some (hn : node.fileUuid = some uuid) :
    node.kind = .file ∧ node.remoteUuid = uuid := by
  unfold RemoteNode.fileUuid at hn
  split at hn
  · exact ⟨by assumption, Option.some.inj hn⟩
  · cases hn

theorem fileLineage_some
    (hn : node.fileLineage = some lineage) :
    node.kind = .file ∧ node.stableUuid = some lineage := by
  unfold RemoteNode.fileLineage at hn
  split at hn
  · exact ⟨by assumption, hn⟩
  · cases hn

/-- Where every node a test keeps lies in the set, and a whole walk meets those
nodes in path order, both passes meet the same nodes in the same order. -/
theorem targets_same {ν : Type} {side : Nodes ν} (keep : ν → Bool)
    (hin : ∀ p node, side.nodeAt p = some node → keep node → p ∈ set)
    (horder : (side.iter.filter fun e => keep e.2).Pairwise fun e f => e.1 < f.1) :
    ((visitMoveTargets (.changed set) side).filter fun e => keep e.2).map Prod.fst =
      ((visitMoveTargets .whole side).filter fun e => keep e.2).map Prod.fst := by
  have hchanged : (((visitMoveTargets (.changed set) side).filter fun e => keep e.2).map
      Prod.fst).Pairwise (· < ·) := by
    exact pairwise_map.mpr ((visitMoveTargets_changed_sorted side set).filter _)
  refine hchanged.eq_of_mem_iff (pairwise_map.mpr horder) fun p => ?_
  simp only [mem_map, mem_filter, Prod.exists, exists_and_right, exists_eq_right,
    mem_visitMoveTargets_changed]
  constructor
  · intro hp
    rcases hp with ⟨node, ⟨-, hnode⟩, hkeep⟩
    exact ⟨node, mem_iter.mpr hnode, hkeep⟩
  intro hp
  rcases hp with ⟨node, hnode, hkeep⟩
  have hat := mem_iter.mp hnode
  exact ⟨node, ⟨hin p node hat hkeep, hat⟩, hkeep⟩

include h in
theorem uuidTarget_same (hid : OneItemPerId b (carriedSide ro b)) (hrow : row ∈ b.rows)
    (hu : (⟨mode, carriedSide lo b, carriedSide ro b, b⟩ : MoveSides).pullUuid row = some uuid) :
    uuidTarget (visitMoveTargets (.changed set) (carriedSide ro b)) uuid =
      uuidTarget (visitMoveTargets .whole (carriedSide ro b)) uuid := by
  rcases pullUuid_some hu with ⟨hfile, hsynced, hrec, hgone⟩
  -- a node of this version outside the set is carried from its row, which is then the source's
  have hin : ∀ p node, (carriedSide ro b).nodeAt p = some node → node.fileUuid = some uuid →
      p ∈ set := by
    intro p node hnode hnu
    by_contra hset
    rcases h.row_of_known hset (Or.inr (Or.inl (holds_iff.mpr ⟨node, hnode⟩))) with
      ⟨row', l, r, hget, hcarry, hlr, -, hr⟩
    rw [hnode] at hr
    cases hr
    rcases carried_fields hlr with ⟨-, -, huuid, -⟩
    have hnode' := fileUuid_some hnu
    rw [hnode'.2] at huuid
    have heq := hid.uuidRow row hrow row' (mem_rows_of_get hget) hsynced
      (state_of_carryable hcarry) uuid hrec huuid
    have hp := get_relPath hget
    rw [← heq] at hp
    rw [← hp] at hnode
    exact hgone node hnode hnode'.1 hnode'.2
  have hone : ((carriedSide ro b).iter.filter fun e => e.2.fileUuid = some uuid).Pairwise
      fun e f => e.1 < f.1 := by
    have hnodup : (carriedSide ro b).iter.Pairwise fun e f => e.1 ≠ f.1 :=
      pairwise_map.mp (carriedSide ro b).nodup_paths
    refine (hnodup.filter _).imp_of_mem fun he hf hne => absurd ?_ hne
    have hme := mem_filter.mp he
    have hmf := mem_filter.mp hf
    refine hid.uuidPath _ _ _ _ (mem_iter.mp hme.1) (mem_iter.mp hmf.1) ?_
    rw [(fileUuid_some (of_decide_eq_true hme.2)).2, (fileUuid_some (of_decide_eq_true hmf.2)).2]
  unfold uuidTarget
  have hsame := targets_same (fun node => node.fileUuid = some uuid)
    (fun p node hnode hk => hin p node hnode (of_decide_eq_true hk)) hone
  rw [hsame]

include h in
theorem lineageTarget_same (hid : OneItemPerId b (carriedSide ro b))
    (horder : LineagesInPathOrder ro) (hrow : row ∈ b.rows)
    (hu : (⟨mode, carriedSide lo b, carriedSide ro b, b⟩ : MoveSides).pullUuid row = some uuid)
    (hl : row.remoteStableUuid = some lineage) :
    lineageTarget (visitMoveTargets (.changed set) (carriedSide ro b)) lineage =
      lineageTarget (visitMoveTargets .whole (carriedSide ro b)) lineage := by
  rcases pullUuid_some hu with ⟨hfile, hsynced, hrec, hgone⟩
  -- a node of this lineage that no record put there would be the source's own, still in place
  have hrecorded : ∀ p node, (carriedSide ro b).nodeAt p = some node →
      node.fileLineage = some lineage → ro.records p := by
    intro p node hnode hnl
    by_contra hnot
    have hnothing : ro.get p = .nothing := Overlay.records_eq_false.mp (by simpa using hnot)
    have hcarried := hnode
    rw [nodeAt_carriedSide] at hcarried
    unfold carriedAt at hcarried
    rw [hnothing] at hcarried
    rcases Option.bind_eq_some_iff.mp hcarried with ⟨row', hget, hfrom⟩
    rcases Option.map_eq_some_iff.mp hfrom with ⟨⟨l, r⟩, hlr, hsnd⟩
    cases hsnd
    rcases carried_fields hlr with ⟨-, -, huuid, hstable, -⟩
    have hcarry : row'.carryable := by
      rw [← carried_isSome, hlr]
      rfl
    have hnode' := fileLineage_some hnl
    rw [hstable] at hnode'
    have heq := hid.lineageRow row hrow row' (mem_rows_of_get hget) hsynced
      (state_of_carryable hcarry) lineage hl hnode'.2
    have hp := get_relPath hget
    subst heq
    rw [← hp] at hnode
    refine hgone _ hnode hnode'.1 ?_
    rw [hrec] at huuid
    exact (Option.some.inj huuid).symm
  have hwalk : ((carriedSide ro b).iter.filter fun e =>
      e.2.fileLineage = some lineage).Pairwise fun e f => e.1 < f.1 := by
    unfold carriedSide
    rw [iter_ofList]
    unfold carriedEntries
    rw [filter_append]
    have hnil : (List.filter (fun e : Path × RemoteNode =>
        e.2.fileLineage = some lineage) (b.rows.filterMap fun row =>
          if ro.records row.relPath then none
          else (fromRow row).map fun node => (row.relPath, node))) = [] := by
      refine filter_eq_nil_iff.mpr fun e he hk => ?_
      have hmem := mem_carriedRows.mp (show (e.1, e.2) ∈ _ from he)
      have hnode : (carriedSide ro b).nodeAt e.1 = some e.2 := by
        rw [nodeAt_carriedSide]
        unfold carriedAt
        rw [Overlay.records_eq_false.mp hmem.1]
        exact hmem.2
      rw [hrecorded e.1 e.2 hnode (of_decide_eq_true hk)] at hmem
      cases hmem.1
    rw [hnil, nil_append]
    refine (horder.filter _).imp_of_mem fun he hf hlt => hlt ?_ ?_
    · rw [of_decide_eq_true (mem_filter.mp he).2]
      rfl
    rw [of_decide_eq_true (mem_filter.mp he).2,
      of_decide_eq_true (mem_filter.mp hf).2]
  unfold lineageTarget
  have hsame := targets_same (fun node => node.fileLineage = some lineage)
    (fun p node hnode hk =>
      h.remoteRecords p (hrecorded p node hnode (of_decide_eq_true hk))) hwalk
  rw [hsame]

include h in
theorem hashTargets_perm (hash : Blake3Hash) :
    (hashTargets ⟨mode, carriedSide lo b, carriedSide ro b, b⟩
        (visitMoveTargets (.changed set) (carriedSide lo b)) hash).Perm
      (hashTargets ⟨mode, carriedSide lo b, carriedSide ro b, b⟩
        (visitMoveTargets .whole (carriedSide lo b)) hash) := by
  have hnodup : ∀ paths, ((visitMoveTargets paths (carriedSide lo b)).map Prod.fst).Nodup := by
    intro paths
    cases paths with
    | whole => exact (carriedSide lo b).nodup_paths
    | changed set =>
      exact (pairwise_map.mpr (visitMoveTargets_changed_sorted _ set)).imp ne_of_lt
  unfold hashTargets
  refine (perm_ext_iff_of_nodup ?_ ?_).mpr fun p => ?_
  · exact (hnodup _).sublist (filter_sublist.map _)
  · exact (hnodup _).sublist (filter_sublist.map _)
  simp only [mem_map, mem_filter, Prod.exists, exists_and_right, exists_eq_right,
    mem_visitMoveTargets_changed]
  constructor
  · intro hp
    rcases hp with ⟨node, ⟨-, hnode⟩, hkeep⟩
    exact ⟨node, mem_iter.mpr hnode, hkeep⟩
  intro hp
  rcases hp with ⟨node, hnode, hkeep⟩
  have hat := mem_iter.mp hnode
  refine ⟨node, ⟨?_, hat⟩, hkeep⟩
  -- outside the set the path has a row, which no push may end at
  by_contra hset
  rcases h.row_of_known hset (Or.inl (holds_iff.mpr ⟨node, hat⟩)) with ⟨row, _, _, hget, _⟩
  have hkey := containsKey_iff.mpr ⟨row, hget⟩
  have hcreated := of_decide_eq_true hkeep
  unfold MoveSides.created pushTarget at hcreated
  rw [if_pos (Or.inr (Or.inr hkey))] at hcreated
  cases hcreated

theorem pushStep_perm {c d : Blake3Hash → List Path} (hperm : ∀ hash, (c hash).Perm (d hash)) :
    pushStep s (fun hash => some (c hash)) = pushStep s fun hash => some (d hash) := by
  funext state base
  unfold pushStep pushMove
  dsimp only
  split
  · rfl
  split
  · rename_i hash uuid _ _
    have hfree := (hperm hash).filter fun dst => !state.2.contains dst && !s.r.holds dst
    simp only [Option.map_some]
    generalize (c hash).filter (fun dst => !state.2.contains dst && !s.r.holds dst) = cs at hfree
    generalize (d hash).filter (fun dst => !state.2.contains dst && !s.r.holds dst) = ds at hfree
    cases cs with
    | nil => rw [nil_perm.mp hfree]
    | cons x xs =>
      cases xs with
      | nil => rw [singleton_perm.mp hfree]
      | cons y ys =>
        have hlen := hfree.length_eq
        cases ds with
        | nil => simp at hlen
        | cons u us =>
          cases us with
          | nil => simp at hlen
          | cons v vs => rfl
  · rfl

include h in
theorem detectMoves_same (hid : OneItemPerId b (carriedSide ro b))
    (horder : LineagesInPathOrder ro) (withheld : List Path) :
    detectMoves ⟨mode, carriedSide lo b, carriedSide ro b, b⟩ (.changed set) withheld =
      detectMoves ⟨mode, carriedSide lo b, carriedSide ro b, b⟩ .whole withheld := by
  rw [detectMoves_eq, detectMoves_eq]
  unfold joinMoves
  have hsources : visitMoveSources (.changed set) b =
      (visitMoveSources .whole b).filter fun row => set.contains row.relPath := rows_of_set b set
  have hrows : ∀ row, row ∈ visitMoveSources .whole b → row ∈ b.rows := fun row hrow => hrow
  have houtside : ∀ row ∈ visitMoveSources .whole b, set.contains row.relPath = false →
      (⟨mode, carriedSide lo b, carriedSide ro b, b⟩ : MoveSides).pullUuid row = none ∧
        (⟨mode, carriedSide lo b, carriedSide ro b, b⟩ : MoveSides).pushHash row = none := by
    intro row hrow hset
    refine no_source_outside h (hrows row hrow) fun hin => ?_
    rw [SortedSet.contains_iff.mpr hin] at hset
    cases hset
  have hpull : ∀ rt rt', (∀ row ∈ visitMoveSources .whole b, ∀ uuid,
        (⟨mode, carriedSide lo b, carriedSide ro b, b⟩ : MoveSides).pullUuid row = some uuid →
        pullTarget rt row uuid = pullTarget rt' row uuid) → ∀ init : JoinState,
      (visitMoveSources (.changed set) b).foldl
          (pullStep ⟨mode, carriedSide lo b, carriedSide ro b, b⟩ (pullTarget rt)) init =
        (visitMoveSources .whole b).foldl
          (pullStep ⟨mode, carriedSide lo b, carriedSide ro b, b⟩ (pullTarget rt')) init := by
    intro rt rt' hsame init
    rw [hsources, foldl_filter_of_id]
    · refine foldl_ext _ _ _ fun state row hrow => ?_
      unfold pullStep
      cases hu : (⟨mode, carriedSide lo b, carriedSide ro b, b⟩ : MoveSides).pullUuid row with
      | none => rfl
      | some uuid => simp only [hsame row hrow uuid hu]
    intro row hrow hset state
    unfold pullStep
    rw [(houtside row hrow hset).1]
  have hpushSources : ((visitMoveSources (.changed set) b).filter fun base =>
      ((⟨mode, carriedSide lo b, carriedSide ro b, b⟩ : MoveSides).pushHash base).isSome) =
      (visitMoveSources .whole b).filter fun base =>
        ((⟨mode, carriedSide lo b, carriedSide ro b, b⟩ : MoveSides).pushHash base).isSome := by
    rw [hsources, filter_filter]
    refine filter_congr fun row hrow => ?_
    cases hset : set.contains row.relPath with
    | true => simp
    | false => simp [(houtside row hrow hset).2]
  have htargets : ∀ row ∈ visitMoveSources .whole b, ∀ uuid,
      (⟨mode, carriedSide lo b, carriedSide ro b, b⟩ : MoveSides).pullUuid row = some uuid →
      pullTarget (if mode.pulls then visitMoveTargets (.changed set) (carriedSide ro b) else [])
          row uuid =
        pullTarget (if mode.pulls then visitMoveTargets .whole (carriedSide ro b) else [])
          row uuid := by
    intro row hrow uuid hu
    cases hmode : mode.pulls with
    | false => rfl
    | true =>
      simp only [if_true]
      unfold pullTarget
      rw [uuidTarget_same h hid (hrows row hrow) hu]
      cases uuidTarget (visitMoveTargets .whole (carriedSide ro b)) uuid with
      | some dst => rfl
      | none =>
        cases hl : row.remoteStableUuid with
        | none => rfl
        | some lineage =>
          simp only [Option.bind_some]
          rw [lineageTarget_same h hid horder (hrows row hrow) hu hl]
  rw [hpull _ _ htargets, hpushSources]
  congr 1
  refine pushStep_perm fun hash => ?_
  cases mode.pushes with
  | false => exact List.Perm.refl _
  | true => exact hashTargets_perm h hash

end Same

/-- Over carried sides, a reconcile scoped to the paths that may differ from
their rows plans the actions of a whole one, in the same order, and defers as
many paths. -/
theorem reconcile_changed_eq_whole (mode : SyncMode) (b : Baseline) (lo : Overlay LocalNode)
    (ro : Overlay RemoteNode) (holds : PassHolds) (set : PathSet)
    (h : ChangeScope b lo ro holds.markedExits set) (hid : OneItemPerId b (carriedSide ro b))
    (horder : LineagesInPathOrder ro) :
    reconcile mode b (carriedSide lo b) (carriedSide ro b) holds (.changed set) =
      reconcile mode b (carriedSide lo b) (carriedSide ro b) holds .whole := by
  unfold reconcile planActions
  dsimp only
  rw [withheldKeys_same h, deferredKeys_same h, detectMoves_same h hid horder, decideKeys_same h]

end Scope

/-! ## A lineage at two paths

One file's row at `a`, and a remote that shows two files of its lineage, at `b`
and at `c`, in the order a walk of the overlay meets them.
-/

def lineageRows : Baseline :=
  ⟨[{ syncedRow ['a'] .file 1 (some 1) with remoteStableUuid := some 9 }], by decide⟩

def lineageCopy (path : Path) (uuid : Uuid) : RemoteNode :=
  { remoteItem path .file uuid (some 2) with stableUuid := some 9 }

def lineageOverlay (first second : Path) : Overlay RemoteNode :=
  ((Overlay.empty.put second (lineageCopy second 3)).put first (lineageCopy first 2)).tombstone
    ['a']

def lineageSet : PathSet := SortedSet.ofList [['a'], ['b'], ['c']]

theorem lineage_changeScope {first second : Path} (hpaths : ∀ p ∈ (lineageOverlay first second).paths, p ∈ lineageSet) :
    ChangeScope lineageRows Overlay.empty (lineageOverlay first second) [] lineageSet where
  localRecords := by
    intro p hp
    simp [Overlay.records, Overlay.get, Overlay.empty] at hp
  remoteRecords := fun p hp => hpaths p (Overlay.mem_paths.mpr hp)
  uncarryable := by
    intro p row hrow hcarry
    have hall : ∀ row ∈ lineageRows.rows, row.carryable := by decide +kernel
    rw [hall row (mem_rows_of_get hrow)] at hcarry
    cases hcarry
  marked := by simp

theorem lineage_oneItemPerId {side : Nodes RemoteNode}
    (hside : ∀ e ∈ side.iter, ∀ f ∈ side.iter, e.2.remoteUuid = f.2.remoteUuid → e.1 = f.1) :
    OneItemPerId lineageRows side where
  uuidRow := by
    intro x hx y hy _ _ _ _ _
    rw [mem_singleton.mp hx, mem_singleton.mp hy]
  lineageRow := by
    intro x hx y hy _ _ _ _ _
    rw [mem_singleton.mp hx, mem_singleton.mp hy]
  uuidPath := fun p q m n hm hn heq =>
    hside _ (mem_iter.mpr hm) _ (mem_iter.mpr hn) heq

/-- Walked out of path order, the two copies take the row's file to different
paths: the whole pass moves it to `b`, the scoped one to `c`. -/
theorem reconcile_changed_ne_whole :
    ChangeScope lineageRows Overlay.empty (lineageOverlay ['c'] ['b']) [] lineageSet ∧
      OneItemPerId lineageRows (carriedSide (lineageOverlay ['c'] ['b']) lineageRows) ∧
      reconcile .remoteToLocal lineageRows (carriedSide Overlay.empty lineageRows)
          (carriedSide (lineageOverlay ['c'] ['b']) lineageRows) .none (.changed lineageSet) ≠
        reconcile .remoteToLocal lineageRows (carriedSide Overlay.empty lineageRows)
          (carriedSide (lineageOverlay ['c'] ['b']) lineageRows) .none .whole := by
  refine ⟨lineage_changeScope (by decide +kernel), lineage_oneItemPerId (by decide +kernel), ?_⟩
  decide +kernel

/-- Walked in path order, they do not. -/
theorem reconcile_changed_eq_whole_lineage :
    reconcile .remoteToLocal lineageRows (carriedSide Overlay.empty lineageRows)
        (carriedSide (lineageOverlay ['b'] ['c']) lineageRows) .none (.changed lineageSet) =
      reconcile .remoteToLocal lineageRows (carriedSide Overlay.empty lineageRows)
        (carriedSide (lineageOverlay ['b'] ['c']) lineageRows) .none .whole :=
  reconcile_changed_eq_whole .remoteToLocal lineageRows Overlay.empty (lineageOverlay ['b'] ['c'])
    .none lineageSet (lineage_changeScope (by decide +kernel))
    (lineage_oneItemPerId (by decide +kernel)) (by unfold LineagesInPathOrder; decide +kernel)

end SyncEngine
