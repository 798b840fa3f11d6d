import SyncEngine.Plan.TwoWay

/-! # What a planned deletion of a directory says of the inputs

A two-way pass deletes a directory on one side where that side still holds what
the row records and the other side holds no directory there. Nothing is decided
below a conflict, so no path above the directory is one.
-/

namespace SyncEngine

open Collections SortedSet Baseline List SyncAction

/-- The local node at `p` is the one its synced row records. -/
def KeptLocal (b : Baseline) (l : Nodes LocalNode) (p : Path) : Prop :=
  ∃ node row, l.nodeAt p = some node ∧ b.get p = some row ∧ row.state = .synced ∧
    LocalUnchanged node row

/-- The remote node at `p` is the one its synced row records. -/
def KeptRemote (b : Baseline) (r : Nodes RemoteNode) (p : Path) : Prop :=
  ∃ node row, r.nodeAt p = some node ∧ b.get p = some row ∧ row.state = .synced ∧
    RemoteUnchanged node row

/-- What the sides hold at a path no move takes is in conflict: its row is held in
one, both sides changed and disagree, or the remote changed what a push that
nothing confirmed wrote there. -/
def Disputed (b : Baseline) (l : Nodes LocalNode) (r : Nodes RemoteNode) (p : Path) : Prop :=
  let base := readBase (b.get p) (l.nodeAt p) (r.nodeAt p)
  (∃ row, b.get p = some row ∧ row.state.isConflict) ∨
    (BothChanged b l r p ∧ nodesAgree (l.nodeAt p) (r.nodeAt p) = false) ∨
      (classifyLocal (l.nodeAt p) base).changed = false ∧ (classifyRemote (r.nodeAt p) base).changed ∧
        isUnconfirmedConcurrentEdit (l.nodeAt p) (r.nodeAt p) base

/-- The remote renamed what a row records, and the rename carries an edit that
is in conflict with what the row knows. -/
def RenamedConflict (b : Baseline) (l : Nodes LocalNode) (r : Nodes RemoteNode) (p : Path) : Prop :=
  ∃ row, b.get p = some row ∧ RenamedEdit ⟨.twoWay, l, r, b⟩ r.iter row

/-- A path the move join finds or leaves in conflict. -/
def ConflictAt (b : Baseline) (l : Nodes LocalNode) (r : Nodes RemoteNode) (p : Path) : Prop :=
  RenamedConflict b l r p ∨ (Disputed b l r p ∧ p ∉ (detectMoves ⟨.twoWay, l, r, b⟩ .whole []).2)

def ConflictAbove (b : Baseline) (l : Nodes LocalNode) (r : Nodes RemoteNode) (d : Path) : Prop :=
  ∃ q, isUnder d q = true ∧ ConflictAt b l r q

/-- A path the join can take: a file row's, or one no row tracks that a side
does not hold. -/
def JoinEnd (s : MoveSides) (p : Path) : Prop :=
  (∃ row, s.baseline.get p = some row ∧ row.kind = .file ∧ row.state = .synced) ∨
    s.baseline.containsKey p = false ∧ (s.l.holds p = false ∨ s.r.holds p = false)

/-- What one action of the join takes. -/
structure JoinTakes (s : MoveSides) (targets : List (Path × RemoteNode)) (a : SyncAction) : Prop where
  ends : a.isMove = true → JoinEnd s a.endpoints.1 ∧ JoinEnd s a.endpoints.2
  file : ∀ src dst kind, (∃ uuid, a = moveRemote src dst kind uuid) ∨ a = moveLocal src dst kind →
    kind = .file
  conflict : ∀ p, a = SyncAction.conflict p →
    ∃ row, s.baseline.get p = some row ∧ RenamedEdit s targets row
  noDelete : a.isDelete = false

theorem containsKey_hashTargets {s : MoveSides} {targets : List (Path × LocalNode)}
    {hash : Blake3Hash} {dst : Path} (h : dst ∈ hashTargets s targets hash) :
    s.baseline.containsKey dst = false := by
  obtain ⟨⟨p, node⟩, hmem, rfl⟩ := mem_map.mp h
  have hcreated := of_decide_eq_true (mem_filter.mp hmem).2
  unfold MoveSides.created pushTarget at hcreated
  split at hcreated
  · cases hcreated
  rename_i hno
  simp only [not_or] at hno
  simpa using hno.2.2

theorem pushHash_file {s : MoveSides} {base : BaselineEntry}
    (h : (s.pushHash base).isSome) : base.kind = .file ∧ base.state = .synced := by
  unfold MoveSides.pushHash pushSource at h
  split at h
  · cases h
  rename_i hsrc
  simp only [not_or, not_not] at hsrc
  exact ⟨hsrc.1, hsrc.2.1⟩

section Join

variable {s : MoveSides} {withheld : List Path}

variable {state : JoinState} {base : BaselineEntry}

theorem JoinTakes.pullStep {targets : List (Path × RemoteNode)} (h : ∀ a ∈ state.1, JoinTakes s targets a)
    (hbase : s.baseline.get base.relPath = some base) :
    ∀ a ∈ (pullStep s (pullTarget targets) state base).1, JoinTakes s targets a := by
  intro a ha
  rcases pullStep_cases s targets state base with ⟨hsame, -⟩ | ⟨-, hpull, hcase⟩
  · rw [hsame] at ha
    exact h a ha
  rcases hcase with ⟨hconf, hedit, -⟩ | ⟨dst, carriesEdit, -, heq, hrenames, -⟩
  · rw [hconf] at ha
    rcases mem_append.mp ha with hold | hnew
    · exact h a hold
    have ha' : a = SyncAction.conflict base.relPath := by simpa using hnew
    subst ha'
    refine ⟨fun hm => (by cases hm), ?_, ?_, rfl⟩
    · rintro src dst kind (⟨uuid, h'⟩ | h') <;> cases h'
    intro p hp
    cases hp
    exact ⟨base, hbase, hedit⟩
  rw [heq] at ha
  rcases mem_append.mp ha with hold | hnew
  · exact h a hold
  rcases mem_cons.mp hnew with rfl | hdl
  · obtain ⟨hfile, hsynced⟩ := pullUuid_file hpull
    refine ⟨fun _ => ⟨Or.inl ⟨base, hbase, hfile, hsynced⟩,
      Or.inr ⟨hrenames.untracked, Or.inl hrenames.vacant⟩⟩, ?_, ?_, rfl⟩
    · rintro src dst' kind (⟨uuid, h'⟩ | h') <;> cases h'
      rfl
    intro p hp
    cases hp
  obtain ⟨u, rfl⟩ := mem_pairedDownload hdl
  refine ⟨fun hm => (by cases hm), ?_, ?_, rfl⟩
  · rintro src dst' kind (⟨uuid, h'⟩ | h') <;> cases h'
  intro p hp
  cases hp

theorem JoinTakes.pushStep {targets : List (Path × LocalNode)} {remote : List (Path × RemoteNode)}
    (h : ∀ a ∈ state.1, JoinTakes s remote a)
    (hbase : s.baseline.get base.relPath = some base) (hsource : (s.pushHash base).isSome) :
    ∀ a ∈ (pushStep s (fun hash => some (hashTargets s targets hash)) state base).1,
      JoinTakes s remote a := by
  intro a ha
  obtain ⟨hfile, hsynced⟩ := pushHash_file hsource
  rcases pushStep_cases s (fun hash => some (hashTargets s targets hash)) state base with
    hsame | ⟨dst, hash, uuid, held, -, -, hheld, hdst, -, -, hfree, heq⟩
  · rw [hsame] at ha
    exact h a ha
  rw [heq] at ha
  rcases mem_append.mp ha with hold | hnew
  · exact h a hold
  have ha' : a = moveRemote base.relPath dst .file uuid := by simpa using hnew
  subst ha'
  have hrow : s.baseline.containsKey dst = false := by
    rw [← Option.some.inj hheld] at hdst
    exact containsKey_hashTargets hdst
  refine ⟨fun _ => ⟨Or.inl ⟨base, hbase, hfile, hsynced⟩,
    Or.inr ⟨hrow, Or.inr hfree⟩⟩, ?_, ?_, rfl⟩
  · rintro src dst' kind (⟨uuid', h'⟩ | h') <;> cases h'
    rfl
  intro p hp
  cases hp

theorem detectMoves_takes (s : MoveSides) (paths : PassPaths) (withheld : List Path) :
    ∀ a ∈ (detectMoves s paths withheld).1,
      JoinTakes s (if s.mode.pulls then visitMoveTargets paths s.r else []) a := by
  rw [detectMoves_eq]
  generalize (if s.mode.pulls then visitMoveTargets paths s.r else []) = targets
  refine List.foldlRecOn (motive := fun state : JoinState => ∀ a ∈ state.1, JoinTakes s targets a)
    _ _ ?_ ?_
  · refine List.foldlRecOn (motive := fun state : JoinState => ∀ a ∈ state.1, JoinTakes s targets a)
      _ _ (by simp) ?_
    intro state hstate base hbase
    exact JoinTakes.pullStep hstate (get_of_mem_sources hbase)
  intro state hstate base hbase
  have hmem := mem_filter.mp hbase
  exact JoinTakes.pushStep hstate (get_of_mem_sources hmem.1) hmem.2

end Join

/-! ## The plan of a whole two-way pass -/

section Plan

variable {b : Baseline} {l : Nodes LocalNode} {r : Nodes RemoteNode}

variable {p : Path} {a : SyncAction} {d : Path} {kind : NodeKind}

/-! ### Conflicts of the join -/

theorem mem_pullStep {s : MoveSides} {target : BaselineEntry → Uuid → Option (Path × Bool)} {state : JoinState}
    (h : a ∈ state.1) (base : BaselineEntry) : a ∈ (pullStep s target state base).1 := by
  unfold pullStep
  split
  · exact h
  · exact mem_append_left _ h

/-- The rows before a row take no path of its own. -/
theorem not_taken_pullSteps {s : MoveSides} (targets : List (Path × RemoteNode)) {rows : List BaselineEntry}
    (hne : ∀ base ∈ rows, base.relPath ≠ p) (hp : s.baseline.containsKey p) :
    p ∉ (rows.foldl (pullStep s (pullTarget targets)) ([], [])).2 := by
  refine List.foldlRecOn (motive := fun state : JoinState => p ∉ state.2) _ _ not_mem_nil ?_
  intro state hfree base hbase
  have hself := (hne base hbase).symm
  rcases pullStep_cases s targets state base with
    ⟨hsame, -⟩ | ⟨-, -, ⟨hconf, -⟩ | ⟨dst, carriesEdit, uuid, heq, hrenames, -⟩⟩
  · rw [hsame]
    exact hfree
  · rw [hconf]
    exact not_mem_cons_of_ne_of_not_mem hself hfree
  rw [heq]
  refine not_mem_cons_of_ne_of_not_mem ?_ (not_mem_cons_of_ne_of_not_mem hself hfree)
  rintro rfl
  rw [hrenames.untracked] at hp
  cases hp

theorem conflict_detectMoves_iff :
    conflict p ∈ (detectMoves ⟨.twoWay, l, r, b⟩ .whole []).1 ↔ RenamedConflict b l r p := by
  constructor
  · exact fun h => (detectMoves_takes _ _ _ _ h).conflict p rfl
  rintro ⟨row, hrow, hedit⟩
  have hat : row.relPath = p := get_relPath hrow
  obtain ⟨front, back, hrows⟩ := append_of_mem (mem_rows_of_get hrow)
  have hbefore : ∀ base ∈ front, base.relPath ≠ p := by
    have hsorted := b.sorted
    rw [hrows, map_append, pairwise_append, map_cons] at hsorted
    intro base hbase heq
    have hlt := hsorted.2.2 _ (mem_map_of_mem hbase) _ mem_cons_self
    rw [hat, heq] at hlt
    exact lt_irrefl _ hlt
  have hfree := not_taken_pullSteps (s := ⟨.twoWay, l, r, b⟩) r.iter hbefore
    (containsKey_iff.mpr ⟨row, hrow⟩)
  rw [detectMoves_eq]
  unfold joinMoves
  refine List.foldlRecOn (motive := fun state : JoinState => conflict p ∈ state.1) _ _ ?_ ?_
  · show conflict p ∈ (b.rows.foldl (pullStep ⟨.twoWay, l, r, b⟩ (pullTarget r.iter)) ([], [])).1
    rw [hrows, foldl_append, foldl_cons]
    refine List.foldlRecOn (motive := fun state : JoinState => conflict p ∈ state.1) _ _ ?_ ?_
    · rw [pullStep_renamedEdit hedit rfl (hat ▸ hfree), hat]
      exact mem_append_right _ (mem_singleton_self _)
    · exact fun state h base _ => mem_pullStep h base
  · exact fun state h base _ => mem_append_left _ h

/-! ### Conflicts of the plan -/

theorem conflict_not_mem_pushToRemote {q : Path} {here : Option LocalNode} {there : Option RemoteNode}
    {base : Option BaselineEntry} {ok : Bool} : conflict p ∉ pushToRemote q here there base ok := by
  intro h
  rcases mem_pushToRemote h with h | ⟨node, -, h, -⟩ | ⟨node, -, h⟩
  · cases h
  · cases h
  unfold createRemote at h
  split at h
  all_goals cases h

theorem conflict_not_mem_pullToLocal {q : Path} {here : Option LocalNode} {there : Option RemoteNode}
    {base : Option BaselineEntry} {ok : Bool} : conflict p ∉ pullToLocal q here there base ok := by
  intro h
  rcases mem_pullToLocal h with h | ⟨node, -, h, -⟩ | ⟨node, -, h⟩
  · cases h
  · cases h
  unfold createLocal at h
  split at h
  all_goals cases h

theorem conflict_decided_iff :
    conflict p ∈ decidePath .twoWay p (b.get p) [] (l.nodeAt p) (r.nodeAt p) ↔ Disputed b l r p := by
  cases hconf : (b.get p).any fun row => row.state.isConflict with
  | true =>
    obtain ⟨row, hrow, hheld⟩ := (Option.any_eq_true _ _).mp hconf
    refine iff_of_true ?_ (Or.inl ⟨row, hrow, hheld⟩)
    unfold SyncEngine.decidePath
    rw [if_pos hconf]
    exact mem_singleton_self _
  | false =>
    have hnone : ¬∃ row, b.get p = some row ∧ row.state.isConflict := by
      rintro ⟨row, hrow, hheld⟩
      rw [hrow, Option.any_some, hheld] at hconf
      cases hconf
    rw [decidePath_twoWay hconf]
    unfold Disputed BothChanged reconcileTwoWay
    dsimp only
    rw [or_iff_right hnone]
    generalize readBase (b.get p) (l.nodeAt p) (r.nodeAt p) = base
    cases (classifyLocal (l.nodeAt p) base).changed with
    | false =>
      cases (classifyRemote (r.nodeAt p) base).changed with
      | false => simp
      | true =>
        cases isUnconfirmedConcurrentEdit (l.nodeAt p) (r.nodeAt p) base with
        | true => simp
        | false => simpa using conflict_not_mem_pullToLocal
    | true =>
      cases (classifyRemote (r.nodeAt p) base).changed with
      | false => simpa using conflict_not_mem_pushToRemote
      | true => cases nodesAgree (l.nodeAt p) (r.nodeAt p) <;> simp

theorem Disputed.mem_keys (h : Disputed b l r p) : p ∈ reconcileKeys .whole b l r empty := by
  rw [mem_reconcileKeys_whole]
  by_contra hnone
  simp only [not_or, Bool.not_eq_true] at hnone
  obtain ⟨hl, hr, hrow⟩ := hnone
  have hget : b.get p = none := by
    cases hget : b.get p with
    | none => rfl
    | some row =>
      rw [containsKey_iff.mpr ⟨row, hget⟩] at hrow
      cases hrow
  have hgone := conflict_decided_iff.mpr h
  rw [hget, Nodes.holds_eq_false.mp hl, Nodes.holds_eq_false.mp hr] at hgone
  simp [decidePath, decideByMode, reconcileTwoWay, classifyLocal, classifyRemote, SideState.changed] at hgone

theorem withheldKeys_empty (keys : PathSet) : withheldKeys keys empty = [] := by
  refine filter_eq_nil_iff.mpr fun key _ hunder => ?_
  obtain ⟨root, hroot, -⟩ := atOrUnderRoot_iff.mp hunder
  exact not_mem_empty root hroot

theorem conflict_planned_iff :
    conflict p ∈ planActions .twoWay b l r .none .whole ↔ ConflictAt b l r p := by
  have hkeys : planActions .twoWay b l r .none .whole =
      (detectMoves ⟨.twoWay, l, r, b⟩ .whole []).1 ++ decideKeys .twoWay b l r []
        (reconcileKeys .whole b l r empty).toList (detectMoves ⟨.twoWay, l, r, b⟩ .whole []).2 := by
    rw [← withheldKeys_empty (reconcileKeys .whole b l r empty)]
    rfl
  rw [hkeys, mem_append, conflict_detectMoves_iff]
  refine or_congr_right ⟨fun h => ?_, fun ⟨hdisputed, hfree⟩ => ?_⟩
  · obtain ⟨key, -, ha⟩ := mem_flatMap.mp h
    split at ha
    · cases ha
    rename_i hfree
    have hkey : p = key := (decidePath_staysAt ha).1
    subst hkey
    exact ⟨conflict_decided_iff.mp ha, by simpa using hfree⟩
  refine mem_flatMap.mpr ⟨p, hdisputed.mem_keys, ?_⟩
  rw [if_neg (by rw [contains_iff_mem]; exact hfree)]
  exact conflict_decided_iff.mpr hdisputed

section

variable (ha : a ∈ (reconcile .twoWay b l r .none .whole).actions)
include ha

end

theorem readBase_of_synced {row : BaselineEntry} (hrow : b.get p = some row) (hsynced : row.state = .synced) :
    readBase (b.get p) (l.nodeAt p) (r.nodeAt p) = some row := by
  rw [hrow]
  exact if_neg (by simp [hsynced])

/-! ## What plans the deletion of a directory -/

theorem not_taken_of_dirRow {row : BaselineEntry} (hrow : b.get p = some row) (hdir : row.kind = .dir) :
    p ∉ (detectMoves ⟨.twoWay, l, r, b⟩ .whole []).2 := by
  have hnot : ¬JoinEnd ⟨.twoWay, l, r, b⟩ p := by
    rintro (⟨other, hother, hfile, -⟩ | ⟨hkey, -⟩)
    · cases hrow.symm.trans hother
      cases hdir.symm.trans hfile
    · have hsome := containsKey_iff.mpr ⟨row, hrow⟩
      cases hsome.symm.trans hkey
  intro htaken
  rcases (detectMoves_sound _ _ _).taken p htaken with hw | hconf | ⟨a, ha, hmove, hend⟩
  · cases hw
  · obtain ⟨other, hother, -, uuid, -, hpull, -⟩ := conflict_detectMoves_iff.mp hconf
    cases hrow.symm.trans hother
    cases hdir.symm.trans (pullUuid_file (Option.isSome_iff_exists.mpr ⟨uuid, hpull⟩)).1
  have hends := (detectMoves_takes _ _ _ a ha).ends hmove
  rcases hend with rfl | rfl
  · exact hnot hends.1
  · exact hnot hends.2

theorem planned_of_decided (ha : a ∈ decidePath .twoWay d (b.get d) [] (l.nodeAt d) (r.nodeAt d))
    (hends : a.endpoints = (d, d)) (hheld : l.holds d ∨ r.holds d) {row : BaselineEntry}
    (hrow : b.get d = some row) (hdir : row.kind = .dir) (hclear : ¬ConflictAbove b l r d) :
    a ∈ (reconcile .twoWay b l r .none .whole).actions := by
  refine mem_finishPlan.mpr ⟨mem_append_right _ (mem_flatMap.mpr ⟨d, ?_, ?_⟩), ?_, ?_⟩
  · exact mem_reconcileKeys_whole.mpr (or_assoc.mp (Or.inl hheld))
  · have hfree : ¬(detectMoves ⟨.twoWay, l, r, b⟩ .whole (withheldKeys (reconcileKeys .whole b l r
        PassHolds.none.heldRemote) PassHolds.none.heldRemote)).2.contains d := by
      rw [contains_iff_mem, show PassHolds.none.heldRemote = SortedSet.empty from rfl, withheldKeys_empty]
      exact not_taken_of_dirRow hrow hdir
    rw [if_neg hfree]
    exact ha
  · cases a <;> rfl
  unfold underConflict
  rw [hends, Bool.and_eq_false_iff]
  right
  rw [any_eq_false]
  intro q hq
  rw [mem_conflictedPaths, mem_filter] at hq
  rw [Bool.or_self]
  exact fun hunder => hclear ⟨q, hunder, conflict_planned_iff.mp hq.1⟩

theorem isConflict_of_synced {row : BaselineEntry} (hrow : b.get p = some row) (hsynced : row.state = .synced) :
    ((b.get p).any fun row => row.state.isConflict) = false := by
  rw [hrow, Option.any_some, hsynced]
  rfl

/-- A directory the local side kept is deleted there where the remote holds none
and nothing above it is in conflict. -/
theorem KeptLocal.deletes (h : KeptLocal b l d) (hdir : ∃ node, l.nodeAt d = some node ∧ node.kind = .dir)
    (hother : ∀ node, r.nodeAt d = some node → node.kind ≠ .dir) (hclear : ¬ConflictAbove b l r d) :
    deleteLocal d .dir ∈ (reconcile .twoWay b l r .none .whole).actions := by
  obtain ⟨node, row, hnode, hrow, hsynced, hsame⟩ := h
  obtain ⟨_, hnode', hkind⟩ := hdir
  cases hnode.symm.trans hnode'
  have hrowDir : row.kind = .dir := hsame.1.symm.trans hkind
  refine planned_of_decided (d := d) ?_ rfl (Or.inl (Nodes.holds_iff.mpr ⟨node, hnode⟩)) hrow hrowDir hclear
  rw [decidePath_twoWay (isConflict_of_synced hrow hsynced), readBase_of_synced hrow hsynced, hnode]
  unfold reconcileTwoWay
  rw [classifyLocal_eq_unchanged.mpr hsame]
  cases hthere : r.nodeAt d with
  | none => simp [SideState.changed, classifyRemote, isUnconfirmedConcurrentEdit, pullToLocal, hkind]
  | some there =>
    have hne := hother there hthere
    simp [SideState.changed, classifyRemote, isUnconfirmedConcurrentEdit, pullToLocal, remoteMatchesLocal, hkind,
      hrowDir, hne, hne.symm]

theorem KeptRemote.deletes (h : KeptRemote b r d) (hdir : ∃ node, r.nodeAt d = some node ∧ node.kind = .dir)
    (hother : ∀ node, l.nodeAt d = some node → node.kind ≠ .dir) (hclear : ¬ConflictAbove b l r d) :
    ∃ uuid, trashRemote d .dir uuid ∈ (reconcile .twoWay b l r .none .whole).actions := by
  obtain ⟨node, row, hnode, hrow, hsynced, hsame⟩ := h
  obtain ⟨_, hnode', hkind⟩ := hdir
  cases hnode.symm.trans hnode'
  have hrowDir : row.kind = .dir := hsame.1.symm.trans hkind
  refine ⟨node.remoteUuid,
    planned_of_decided (d := d) ?_ rfl (Or.inr (Nodes.holds_iff.mpr ⟨node, hnode⟩)) hrow hrowDir hclear⟩
  rw [decidePath_twoWay (isConflict_of_synced hrow hsynced), readBase_of_synced hrow hsynced, hnode]
  unfold reconcileTwoWay
  rw [classifyRemote_eq_unchanged.mpr hsame]
  cases hhere : l.nodeAt d with
  | none => simp [SideState.changed, classifyLocal, pushToRemote, hkind]
  | some here =>
    have hne := hother here hhere
    simp [SideState.changed, classifyLocal, pushToRemote, remoteMatchesLocal, hkind, hrowDir, hne]

end Plan

end SyncEngine
