import SyncEngine.Rows

/-! # How each side stands against its row

A node is compared with the baseline row at its path and with the node on the
other side. The comparisons here are what every per-path decision and every
move of the join is made of.
-/

namespace SyncEngine

inductive SideState where
  | absent
  | unchanged
  | created
  | modified
  | deleted
deriving DecidableEq, Repr

def SideState.changed : SideState → Bool
  | .created | .modified | .deleted => true
  | .absent | .unchanged => false

def classifyLocal : Option LocalNode → Option BaselineEntry → SideState
  | none, none => .absent
  | some _, none => .created
  | none, some _ => .deleted
  | some node, some base =>
    if node.kind ≠ base.kind then .modified
    else
      match node.kind with
      | .dir => .unchanged
      | .file =>
        if node.contentHash.isSome ∧ node.contentHash = base.contentHash then .unchanged
        else .modified

/-- Whether the remote item is the same file the row recorded, whatever
version id it now wears. An unknown lineage is no evidence of sameness. -/
def sameFileLineage (base : BaselineEntry) (node : RemoteNode) : Bool :=
  match base.remoteStableUuid, node.stableUuid with
  | some recorded, some current => recorded == current
  | _, _ => false

def identicalContent (recorded current : Option Blake3Hash) : Bool :=
  match recorded, current with
  | some recorded, some current => recorded == current
  | _, _ => false

def classifyRemoteFile (node : RemoteNode) (base : BaselineEntry) : SideState :=
  if base.remoteUuid = some node.remoteUuid then .unchanged
  else if sameFileLineage base node ∧ identicalContent base.contentHash node.contentHash then
    .unchanged
  else .modified

def classifyRemote : Option RemoteNode → Option BaselineEntry → SideState
  | none, none => .absent
  | some _, none => .created
  | none, some _ => .deleted
  | some node, some base =>
    if node.kind ≠ base.kind then .modified
    else
      match node.kind with
      | .file => classifyRemoteFile node base
      | .dir => .unchanged

/-- Whether the local item matches the remote one by content. A remote file
with no stored hash is judged by the row instead. -/
def remoteMatchesLocal (l : LocalNode) (r : RemoteNode) (base : Option BaselineEntry) : Bool :=
  if l.kind ≠ r.kind then false
  else
    match l.kind with
    | .dir => true
    | .file =>
      match l.contentHash, r.contentHash with
      | some lh, some rh => lh == rh
      | _, _ =>
        base.any fun b => b.contentHash == l.contentHash && b.remoteUuid == some r.remoteUuid

/-- Whether the two nodes hold the same content now; both absent agree. -/
def nodesAgree : Option LocalNode → Option RemoteNode → Bool
  | none, none => true
  | some l, some r =>
    l.kind == r.kind &&
      match l.kind with
      | .dir => true
      | .file => l.contentHash.isSome && l.contentHash == r.contentHash
  | _, _ => false

def baselineIsCurrent : Option LocalNode → Option RemoteNode → Option BaselineEntry → Bool
  | none, none, base => base.isNone
  | some l, some r, some base =>
    base.kind == l.kind && base.remoteUuid == some r.remoteUuid &&
      match l.kind with
      | .dir => true
      | .file => base.contentHash == l.contentHash
  | _, _, _ => false

def differentContent (ours theirs : Option Blake3Hash) : Bool :=
  match ours, theirs with
  | some ours, some theirs => ours != theirs
  | _, _ => false

/-- Whether the remote change is another client's edit made concurrently with
a push of this engine that nothing ever confirmed. -/
def isUnconfirmedConcurrentEdit :
    Option LocalNode → Option RemoteNode → Option BaselineEntry → Bool
  | some l, some r, some base =>
    l.kind == .file && r.kind == .file && base.kind == .file &&
      base.contentHash != base.agreedHash && base.remoteUuid != some r.remoteUuid &&
      sameFileLineage base r && differentContent base.contentHash r.contentHash
  | _, _, _ => false

/-! ## What unchanged means -/

/-- The local node is what its row records: the same kind, and for a file a
known content hash equal to the row's. -/
def LocalUnchanged (node : LocalNode) (row : BaselineEntry) : Prop :=
  node.kind = row.kind ∧
    (node.kind = .file → ∃ h, node.contentHash = some h ∧ row.contentHash = some h)

/-- The remote node is what its row records: the same kind, and for a file the
same version, or the same lineage with the same known hash. -/
def RemoteUnchanged (node : RemoteNode) (row : BaselineEntry) : Prop :=
  node.kind = row.kind ∧
    (node.kind = .file →
      row.remoteUuid = some node.remoteUuid ∨
        (∃ s, row.remoteStableUuid = some s ∧ node.stableUuid = some s) ∧
          ∃ h, row.contentHash = some h ∧ node.contentHash = some h)

theorem identicalContent_iff {a b : Option Blake3Hash} :
    identicalContent a b ↔ ∃ h, a = some h ∧ b = some h := by
  cases a with
  | none => simp [identicalContent]
  | some x =>
    cases b with
    | none => simp [identicalContent]
    | some y => simp [identicalContent, @eq_comm _ y x]

theorem sameFileLineage_iff {base : BaselineEntry} {node : RemoteNode} :
    sameFileLineage base node ↔
      ∃ s, base.remoteStableUuid = some s ∧ node.stableUuid = some s := by
  unfold sameFileLineage
  cases base.remoteStableUuid with
  | none => simp
  | some x =>
    cases node.stableUuid with
    | none => simp
    | some y => simp [@eq_comm _ y x]

theorem classifyLocal_eq_unchanged {node : LocalNode} {row : BaselineEntry} :
    classifyLocal (some node) (some row) = .unchanged ↔ LocalUnchanged node row := by
  unfold classifyLocal LocalUnchanged
  by_cases hkind : node.kind = row.kind
  · cases hk : node.kind with
    | dir => simp [← hkind, hk]
    | file =>
      cases hc : node.contentHash with
      | none => simp [← hkind, hk, hc]
      | some h => simp [← hkind, hk, hc, eq_comm]
  · simp [hkind]

theorem classifyRemote_eq_unchanged {node : RemoteNode} {row : BaselineEntry} :
    classifyRemote (some node) (some row) = .unchanged ↔ RemoteUnchanged node row := by
  unfold classifyRemote RemoteUnchanged classifyRemoteFile
  rw [← sameFileLineage_iff, ← identicalContent_iff]
  by_cases hkind : node.kind = row.kind
  · cases hk : node.kind with
    | dir => simp [← hkind, hk]
    | file =>
      by_cases hu : row.remoteUuid = some node.remoteUuid
      all_goals simp [← hkind, hk, hu]
  · simp [hkind]

theorem classifyLocal_both (node : LocalNode) (row : BaselineEntry) :
    classifyLocal (some node) (some row) = .unchanged ∨
      classifyLocal (some node) (some row) = .modified := by
  simp only [classifyLocal]
  split
  · exact Or.inr rfl
  cases node.kind with
  | dir => exact Or.inl rfl
  | file =>
    dsimp only
    split
    · exact Or.inl rfl
    · exact Or.inr rfl

theorem classifyRemote_both (node : RemoteNode) (row : BaselineEntry) :
    classifyRemote (some node) (some row) = .unchanged ∨
      classifyRemote (some node) (some row) = .modified := by
  simp only [classifyRemote, classifyRemoteFile]
  split
  · exact Or.inr rfl
  cases node.kind with
  | dir => exact Or.inl rfl
  | file =>
    dsimp only
    split
    · exact Or.inl rfl
    split
    · exact Or.inl rfl
    · exact Or.inr rfl

theorem not_changed_local {node : Option LocalNode} {base : Option BaselineEntry}
    (h : (classifyLocal node base).changed = false) :
    node = none ∧ base = none ∨
      ∃ n row, node = some n ∧ base = some row ∧ LocalUnchanged n row := by
  cases node with
  | none =>
    cases base with
    | none => exact Or.inl ⟨rfl, rfl⟩
    | some row => simp [classifyLocal, SideState.changed] at h
  | some n =>
    cases base with
    | none => simp [classifyLocal, SideState.changed] at h
    | some row =>
      refine Or.inr ⟨n, row, rfl, rfl, classifyLocal_eq_unchanged.mp ?_⟩
      rcases classifyLocal_both n row with hu | hm
      · exact hu
      · simp [hm, SideState.changed] at h

theorem not_changed_remote {node : Option RemoteNode} {base : Option BaselineEntry}
    (h : (classifyRemote node base).changed = false) :
    node = none ∧ base = none ∨
      ∃ n row, node = some n ∧ base = some row ∧ RemoteUnchanged n row := by
  cases node with
  | none =>
    cases base with
    | none => exact Or.inl ⟨rfl, rfl⟩
    | some row => simp [classifyRemote, SideState.changed] at h
  | some n =>
    cases base with
    | none => simp [classifyRemote, SideState.changed] at h
    | some row =>
      refine Or.inr ⟨n, row, rfl, rfl, classifyRemote_eq_unchanged.mp ?_⟩
      rcases classifyRemote_both n row with hu | hm
      · exact hu
      · simp [hm, SideState.changed] at h

end SyncEngine
