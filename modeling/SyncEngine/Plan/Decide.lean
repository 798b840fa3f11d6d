import SyncEngine.Plan.Classify

/-! # The decision at one path

What a reconcile plans at a path no move took, from the local node, the remote
node and the row there. One-way modes make the destination match the source;
two-way uses the row to tell which side changed.
-/

namespace SyncEngine

open SyncAction

/-- Record an already converged path, unless the row says so already. -/
def adoptIfBaselineStale (relPath : Path) (l : Option LocalNode) (r : Option RemoteNode)
    (base : Option BaselineEntry) : List SyncAction :=
  if baselineIsCurrent l r base then [] else [adoptBaseline relPath]

def createRemote (relPath : Path) : NodeKind → SyncAction
  | .file => uploadFile relPath
  | .dir => createRemoteDir relPath

def createLocal (relPath : Path) (r : RemoteNode) : SyncAction :=
  match r.kind with
  | .file => downloadFile relPath r.remoteUuid
  | .dir => createLocalDir relPath

def pushToRemote (relPath : Path) (l : Option LocalNode) (r : Option RemoteNode)
    (base : Option BaselineEntry) (deleteOk : Bool) : List SyncAction :=
  match l, r with
  | some l, none => [createRemote relPath l.kind]
  | some l, some r =>
    if remoteMatchesLocal l r base then adoptIfBaselineStale relPath (some l) (some r) base
    else
      -- a type flip trashes the stale remote node before the new kind is created
      (if l.kind ≠ r.kind then [trashRemote relPath r.kind r.remoteUuid] else []) ++
        [createRemote relPath l.kind]
  | none, some r => if deleteOk then [trashRemote relPath r.kind r.remoteUuid] else []
  | none, none => adoptIfBaselineStale relPath none none base

def pullToLocal (relPath : Path) (l : Option LocalNode) (r : Option RemoteNode)
    (base : Option BaselineEntry) (deleteOk : Bool) : List SyncAction :=
  match r, l with
  | some r, none => [createLocal relPath r]
  | some r, some l =>
    if remoteMatchesLocal l r base then adoptIfBaselineStale relPath (some l) (some r) base
    else
      (if l.kind ≠ r.kind then [deleteLocal relPath l.kind] else []) ++ [createLocal relPath r]
  | none, some l => if deleteOk then [deleteLocal relPath l.kind] else []
  | none, none => adoptIfBaselineStale relPath none none base

def reconcileTwoWay (relPath : Path) (l : Option LocalNode) (r : Option RemoteNode)
    (base : Option BaselineEntry) : List SyncAction :=
  match (classifyLocal l base).changed, (classifyRemote r base).changed with
  | false, false => []
  | true, false => pushToRemote relPath l r base true
  | false, true =>
    if isUnconfirmedConcurrentEdit l r base then [conflict relPath]
    else pullToLocal relPath l r base true
  | true, true => if nodesAgree l r then [adoptBaseline relPath] else [conflict relPath]

def sourceHolds (mode : SyncMode) (l : Option LocalNode) (r : Option RemoteNode) : Bool :=
  match mode with
  | .localToRemote | .localBackup => l.isSome
  | .remoteToLocal | .remoteBackup => r.isSome
  | .twoWay => l.isSome || r.isSome

/-- The arm of the mode, against the row classification reads. -/
def decideByMode (mode : SyncMode) (key : Path) (l : Option LocalNode) (r : Option RemoteNode)
    (base : Option BaselineEntry) : List SyncAction :=
  match mode with
  | .localToRemote | .localBackup => pushToRemote key l r base mode.propagatesDeletes
  | .remoteToLocal | .remoteBackup => pullToLocal key l r base mode.propagatesDeletes
  | .twoWay => reconcileTwoWay key l r base

def decidePath (mode : SyncMode) (key : Path) (base : Option BaselineEntry)
    (markedExits : List (Path × MarkedExit)) (l : Option LocalNode) (r : Option RemoteNode) :
    List SyncAction :=
  if base.any fun b => b.state.isConflict then [conflict key]
  else
    match markedExits.lookup key with
    | some .upload => [createRemote key .file]
    | some .conflict => [conflict key]
    | none =>
      -- An adopted row is no baseline while either side holds the path; in a one-way mode it
      -- keeps the destination's copy for as long as the source is empty.
      if (base.any fun b => b.state = .adopted) ∧ (l.isSome ∨ r.isSome) then
        if sourceHolds mode l r then decideByMode mode key l r none else []
      else decideByMode mode key l r base

/-- The row a two-way decision classifies against: an adopted row is none
while either side holds the path. -/
def readBase (base : Option BaselineEntry) (l : Option LocalNode) (r : Option RemoteNode) :
    Option BaselineEntry :=
  if (base.any fun b => b.state = .adopted) ∧ (l.isSome ∨ r.isSome) then none else base

variable {base : Option BaselineEntry} {l : Option LocalNode} {r : Option RemoteNode} {p : Path} {a : SyncAction}
    {d : Bool} {mode : SyncMode}

theorem decidePath_twoWay {key : Path} (hbase : (base.any fun b => b.state.isConflict) = false) :
    decidePath .twoWay key base [] l r = reconcileTwoWay key l r (readBase base l r) := by
  unfold decidePath readBase
  rw [hbase]
  by_cases hadopt : (base.any fun b => b.state = .adopted) ∧ (l.isSome ∨ r.isSome)
  · have hsource : sourceHolds .twoWay l r := by
      simpa [sourceHolds] using hadopt.2
    simp [hadopt, hsource, decideByMode]
  · simp [hadopt, decideByMode]

/-! ## What the arms can plan -/

theorem mem_adoptIfBaselineStale
    (h : a ∈ adoptIfBaselineStale p l r base) : a = adoptBaseline p := by
  unfold adoptIfBaselineStale at h
  split at h
  · cases h
  · simpa using h

/-- A push records the path, trashes the remote node where the local side has
nothing or another kind, or creates what the local side holds. -/
theorem mem_pushToRemote
    (h : a ∈ pushToRemote p l r base d) :
    a = adoptBaseline p ∨
      (∃ n, r = some n ∧ a = trashRemote p n.kind n.remoteUuid ∧ ∀ m, l = some m → m.kind ≠ n.kind) ∨
      ∃ m, l = some m ∧ a = createRemote p m.kind := by
  unfold pushToRemote at h
  cases l with
  | none =>
    cases r with
    | none => exact Or.inl (mem_adoptIfBaselineStale h)
    | some n =>
      cases d with
      | false => simp at h
      | true =>
        have ha : a = trashRemote p n.kind n.remoteUuid := by simpa using h
        exact Or.inr (Or.inl ⟨n, rfl, ha, by simp⟩)
  | some m =>
    cases r with
    | none =>
      have ha : a = createRemote p m.kind := by simpa using h
      exact Or.inr (Or.inr ⟨m, rfl, ha⟩)
    | some n =>
      dsimp only at h
      split at h
      · exact Or.inl (mem_adoptIfBaselineStale h)
      rcases List.mem_append.mp h with hflip | hcreate
      · split at hflip
        · rename_i hkind
          have ha : a = trashRemote p n.kind n.remoteUuid := by simpa using hflip
          refine Or.inr (Or.inl ⟨n, rfl, ha, ?_⟩)
          intro m' hm'
          cases hm'
          exact hkind
        · cases hflip
      have ha : a = createRemote p m.kind := by simpa using hcreate
      exact Or.inr (Or.inr ⟨m, rfl, ha⟩)

/-- A pull records the path, deletes the local node where the remote side has
nothing or another kind, or creates what the remote side holds. -/
theorem mem_pullToLocal
    (h : a ∈ pullToLocal p l r base d) :
    a = adoptBaseline p ∨
      (∃ m, l = some m ∧ a = deleteLocal p m.kind ∧ ∀ n, r = some n → m.kind ≠ n.kind) ∨
      ∃ n, r = some n ∧ a = createLocal p n := by
  unfold pullToLocal at h
  cases r with
  | none =>
    cases l with
    | none => exact Or.inl (mem_adoptIfBaselineStale h)
    | some m =>
      cases d with
      | false => simp at h
      | true =>
        have ha : a = deleteLocal p m.kind := by simpa using h
        exact Or.inr (Or.inl ⟨m, rfl, ha, by simp⟩)
  | some n =>
    cases l with
    | none =>
      have ha : a = createLocal p n := by simpa using h
      exact Or.inr (Or.inr ⟨n, rfl, ha⟩)
    | some m =>
      dsimp only at h
      split at h
      · exact Or.inl (mem_adoptIfBaselineStale h)
      rcases List.mem_append.mp h with hflip | hcreate
      · split at hflip
        · rename_i hkind
          have ha : a = deleteLocal p m.kind := by simpa using hflip
          refine Or.inr (Or.inl ⟨m, rfl, ha, ?_⟩)
          intro n' hn'
          cases hn'
          exact hkind
        · cases hflip
      have ha : a = createLocal p n := by simpa using hcreate
      exact Or.inr (Or.inr ⟨n, rfl, ha⟩)

/-- An action of the per-path decision stays at its path and moves nothing. -/
def StaysAt (p : Path) (a : SyncAction) : Prop := a.relPath = p ∧ a.isMove = false

theorem createRemote_staysAt (p : Path) (kind : NodeKind) : StaysAt p (createRemote p kind) := by
  cases kind <;> exact ⟨rfl, rfl⟩

theorem createLocal_staysAt (p : Path) (r : RemoteNode) : StaysAt p (createLocal p r) := by
  unfold createLocal
  cases r.kind <;> exact ⟨rfl, rfl⟩

theorem pushToRemote_staysAt
    (h : a ∈ pushToRemote p l r base d) : StaysAt p a := by
  rcases mem_pushToRemote h with rfl | ⟨n, -, rfl, -⟩ | ⟨m, -, rfl⟩
  · exact ⟨rfl, rfl⟩
  · exact ⟨rfl, rfl⟩
  · exact createRemote_staysAt p m.kind

theorem pullToLocal_staysAt
    (h : a ∈ pullToLocal p l r base d) : StaysAt p a := by
  rcases mem_pullToLocal h with rfl | ⟨m, -, rfl, -⟩ | ⟨n, -, rfl⟩
  · exact ⟨rfl, rfl⟩
  · exact ⟨rfl, rfl⟩
  · exact createLocal_staysAt p n

theorem reconcileTwoWay_staysAt
    (h : a ∈ reconcileTwoWay p l r base) : StaysAt p a := by
  unfold reconcileTwoWay at h
  split at h
  · cases h
  · exact pushToRemote_staysAt h
  · split at h
    · have ha : a = conflict p := by simpa using h
      exact ha ▸ ⟨rfl, rfl⟩
    · exact pullToLocal_staysAt h
  split at h
  · have ha : a = adoptBaseline p := by simpa using h
    exact ha ▸ ⟨rfl, rfl⟩
  have ha : a = conflict p := by simpa using h
  exact ha ▸ ⟨rfl, rfl⟩

theorem decideByMode_staysAt
    (h : a ∈ decideByMode mode p l r base) : StaysAt p a := by
  cases mode with
  | localToRemote => exact pushToRemote_staysAt h
  | localBackup => exact pushToRemote_staysAt h
  | remoteToLocal => exact pullToLocal_staysAt h
  | remoteBackup => exact pullToLocal_staysAt h
  | twoWay => exact reconcileTwoWay_staysAt h

theorem decidePath_staysAt
    {marked : List (Path × MarkedExit)} (h : a ∈ decidePath mode p base marked l r) : StaysAt p a := by
  unfold decidePath at h
  split at h
  · have ha : a = conflict p := by simpa using h
    exact ha ▸ ⟨rfl, rfl⟩
  split at h
  · have ha : a = createRemote p .file := by simpa using h
    exact ha ▸ createRemote_staysAt p .file
  · have ha : a = conflict p := by simpa using h
    exact ha ▸ ⟨rfl, rfl⟩
  split at h
  · split at h
    · exact decideByMode_staysAt h
    · cases h
  · exact decideByMode_staysAt h

end SyncEngine
