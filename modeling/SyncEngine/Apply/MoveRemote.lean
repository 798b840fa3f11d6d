import SyncEngine.Rows.StoredRuns

/-! # Remote moves

A remote move is up to two calls of the client, one for another directory and one for another
name, and each asks the server for more once its own effect is there. Where only the first is
answered, a directory's rows are re-keyed to where it is; a file's rows are written at the end
alone.
-/

namespace SyncEngine.MoveRemote

open Stored

/-- How a call of the client ends, each request it makes taking effect wholly or not at all. -/
inductive Call where
  | refused
  /-- Its effect is there, and a request for the links and shares after it fails. -/
  | landed
  | done
deriving DecidableEq

/-- What the steps of one move are answered. -/
structure Answers where
  /-- The item is in the snapshot, or is fetched. -/
  found : Bool
  /-- The directory the plan names above the destination. -/
  parent : Option Uuid
  moved : Call
  renamed : Call

/-- Where the remote holds each item, no two at one path, and the stored rows. -/
structure World where
  drive : Uuid → Option Path
  rows : PathRows

namespace World

/-- An item goes to another path, and what is below it along with it. -/
def carry (world : World) (src dst : Path) : World :=
  { world with
    drive := fun id => (world.drive id).map fun path => (placeUnder path src dst).getD path }

/-- The server puts an item into a directory, under the name it has. -/
def innerMove (world : World) (uuid parent : Uuid) : World :=
  match world.drive uuid, world.drive parent with
  | some path, some dir => world.carry path (joinPath dir (leaf path))
  | _, _ => world

/-- The server gives an item another name. -/
def updateMetadata (world : World) (uuid : Uuid) (name : Path) : World :=
  match world.drive uuid with
  | some path => world.carry path (joinPath (parentPath path) name)
  | none => world

def commitDirMove (world : World) (src dst : Path) : World :=
  { world with rows := world.rows.changed (.moveSubtree src dst) }

def commitRemoteWrite (world : World) (src : Path) (entry : BaselineEntry) : World :=
  { world with rows := (world.rows.changed (.delete src)).changed (.upsert entry) }

end World

/-- What a call with an effect leaves. -/
def Call.answer (world after : World) : Call → Except World World
  | refused => .error world
  | landed => .error after
  | done => .ok after

variable (valid : Path → Bool) (answers : Answers) (world : World) (src dst : Path)
  (uuid : Uuid) (entry : BaselineEntry)

/-- The call into another directory, where the destination has one. -/
def reparent : Except World World :=
  if parentPath dst = parentPath src then .ok world
  else
    match answers.parent with
    | none => .error world
    | some parent => answers.moved.answer world (world.innerMove uuid parent)

/-- `MoveRemote` of a file. An error carries what it leaves. -/
def moveFile : Except World World :=
  if answers.found = false then .error world
  else
    match reparent answers world src dst uuid with
    | .error world => .error world
    | .ok world =>
      if leaf dst = leaf src then .ok (world.commitRemoteWrite src entry)
      else if valid (leaf dst) = false then .error world
      else
        match answers.renamed.answer world (world.updateMetadata uuid (leaf dst)) with
        | .error world => .error world
        | .ok world => .ok (world.commitRemoteWrite src entry)

/-- Where a directory is that was moved and not renamed. -/
def via : Path := joinPath (parentPath dst) (leaf src)

/-- `MoveRemote` of a directory. -/
def moveDir : Except World World :=
  if answers.found = false then .error world
  else if leaf dst ≠ leaf src ∧ valid (leaf dst) = false then .error world
  else
    match reparent answers world src dst uuid with
    | .error world => .error world
    | .ok world =>
      if leaf dst = leaf src then .ok (world.commitDirMove src dst)
      else
        match answers.renamed.answer world (world.updateMetadata uuid (leaf dst)) with
        | .ok world => .ok (world.commitDirMove src dst)
        | .error world =>
          if parentPath dst = parentPath src then .error world
          else .error (world.commitDirMove src (via src dst))

def applyOne : NodeKind → Except World World
  | .file => moveFile valid answers world src dst uuid entry
  | .dir => moveDir valid answers world src dst uuid

/-! ## What an error leaves -/

/-- The row of an item is at the path the remote holds it at, and so is each row below. -/
def Described (world : World) (uuid : Uuid) : Prop :=
  ∃ home, (∃ row, world.rows home = some row ∧ row.remoteUuid = some uuid) ∧
    (∀ path row, world.rows path = some row → row.remoteUuid = some uuid → path = home) ∧
    ∀ path row id, path = home ∨ Below path home → world.rows path = some row →
      row.remoteUuid = some id → world.drive id = some path

/-- The rows a move starts from: the item's row is where the remote holds it,
and so is each row below it or below where it could be left. -/
structure Ready (answers : Answers) (world : World) (src dst : Path) (uuid : Uuid) : Prop where
  recorded : ∃ row, world.rows src = some row ∧ row.remoteUuid = some uuid
  once : ∀ path row, world.rows path = some row → row.remoteUuid = some uuid → path = src
  held : ∀ path row id, path = src ∨ Below path src ∨ Below path (via src dst) →
    world.rows path = some row → row.remoteUuid = some id → world.drive id = some path
  parent : ∀ parent, answers.parent = some parent → world.drive parent = some (parentPath dst)

/-- The call into another directory is made, and ends so. -/
def Reparented (call : Call) : Prop :=
  parentPath dst ≠ parentPath src ∧ answers.parent.isSome = true ∧ answers.moved = call

/-- A call takes effect and fails, or a file is moved into another directory and then not renamed. -/
def Stranded (kind : NodeKind) : Prop :=
  answers.found = true ∧ (kind = .dir → leaf dst ≠ leaf src → valid (leaf dst) = true) ∧
    (Reparented answers src dst .landed ∨
      (leaf dst ≠ leaf src ∧ (parentPath dst = parentPath src ∨ Reparented answers src dst .done) ∧
        (valid (leaf dst) = true ∧ answers.renamed = .landed ∨
          kind = .file ∧ parentPath dst ≠ parentPath src ∧
            ¬ (valid (leaf dst) = true ∧ answers.renamed = .done))))

variable {valid answers world src dst uuid entry} {after : World} {path : Path}

theorem slash_notMem_leaf (path : Path) : '/' ∉ leaf path := fun h => by
  have hmem : '/' ∈ path.reverse.takeWhile (· ≠ '/') := List.mem_reverse.mp h
  simpa using List.mem_takeWhile_imp hmem

theorem parentPath_joinPath (parent : Path) {name : Path} (h : '/' ∉ name) :
    parentPath (joinPath parent name) = parent := by
  unfold joinPath
  split
  · rename_i htop
    rw [htop, parentPath_of_not_mem h]
  · exact parentPath_of_append h

theorem parentPath_via : parentPath (via src dst) = parentPath dst :=
  parentPath_joinPath _ (slash_notMem_leaf src)

/-- A path has its place back when what was moved goes back. -/
theorem placeUnder_symm {out : Path} (h : placeUnder path src dst = some out) :
    placeUnder out dst src = some path := by
  rw [placeUnder_eq] at h ⊢
  split at h
  · rename_i hat
    cases h
    rw [if_pos rfl, hat]
  split at h
  · rename_i hbelow
    cases h
    obtain ⟨hplace, hback⟩ := below_place path src dst hbelow
    have hne : dst ++ path.drop src.length ≠ dst := fun heq => by
      rw [heq] at hplace
      exact absurd hplace.1 (by simp)
    rw [if_neg hne, if_pos hplace, hback]
  · cases h

/-- A row that names the item where the remote does not hold it. -/
theorem not_described {row : BaselineEntry} (hrow : world.rows path = some row)
    (huuid : row.remoteUuid = some uuid) (haway : world.drive uuid ≠ some path) :
    ¬ Described world uuid := by
  rintro ⟨home, -, honly, hheld⟩
  cases honly path row hrow huuid
  exact haway (hheld path row uuid (Or.inl rfl) hrow huuid)

theorem placeUnder_self (src dst : Path) : placeUnder src src dst = some dst := by
  rw [placeUnder_eq, if_pos rfl]

theorem carry_drive (h : world.drive uuid = some src) : (world.carry src dst).drive uuid = some dst := by
  unfold World.carry
  dsimp only
  rw [h, Option.map_some, placeUnder_self]
  rfl

theorem updateMetadata_eq {name : Path} (h : world.drive uuid = some path) :
    world.updateMetadata uuid name = world.carry path (joinPath (parentPath path) name) := by
  unfold World.updateMetadata
  rw [h]

/-- A row that names the item under a name the remote no longer holds it under. -/
theorem not_described_renamed {row : BaselineEntry} {parent : Path} (hrow : world.rows path = some row)
    (huuid : row.remoteUuid = some uuid) (hname : leaf dst ≠ leaf path)
    (hdrive : world.drive uuid = some (joinPath parent (leaf dst))) : ¬ Described world uuid := by
  refine not_described hrow huuid fun heq => hname ?_
  rw [← Option.some.inj (hdrive.symm.trans heq), leaf_joinPath parent (slash_notMem_leaf dst)]

theorem not_stranded_of_refused {kind : NodeKind} (hdirs : parentPath dst ≠ parentPath src)
    (hrefused : ∀ call, Reparented answers src dst call → call = .refused) :
    ¬ Stranded valid answers src dst kind := by
  rintro ⟨-, -, hs | ⟨-, hs | hs, -⟩⟩
  · cases hrefused _ hs
  · exact hdirs hs
  · cases hrefused _ hs

section

variable (h : Ready answers world src dst uuid)
include h

theorem Ready.described : Described world uuid :=
  ⟨src, h.recorded, h.once, fun path row id hpath =>
    h.held path row id (hpath.imp_right Or.inl)⟩

/-- The remote holds a moved item, and what is below it, under the new directory. -/
theorem Ready.innerMove {parent : Uuid}
    (hparent : answers.parent = some parent) :
    world.innerMove uuid parent = world.carry src (via src dst) := by
  obtain ⟨row, hrow, huuid⟩ := h.recorded
  unfold World.innerMove
  rw [h.held src row uuid (Or.inl rfl) hrow huuid, h.parent parent hparent]
  rfl

/-- An item that was moved is not where it was. -/
theorem Ready.not_described_carry (hdirs : parentPath dst ≠ parentPath src) :
    ¬ Described (world.carry src (via src dst)) uuid := by
  obtain ⟨row, hrow, huuid⟩ := h.recorded
  have hstays : (world.carry src (via src dst)).rows src = some row := hrow
  refine not_described hstays huuid ?_
  rw [carry_drive (h.held src row uuid (Or.inl rfl) hrow huuid)]
  exact fun heq => hdirs (parentPath_via.symm.trans (congrArg parentPath (Option.some.inj heq)))

end

theorem of_placeUnder {out : Path} (h : placeUnder path src dst = some out) :
    path = src ∨ Below path src := by
  unfold placeUnder at h
  split at h
  · assumption
  · cases h

section

variable (h : Ready answers world src dst uuid)
include h

/-- The rows a directory leaves that is recorded where it was moved: those that
went along, and those of other places. -/
theorem Ready.rows_via {row : BaselineEntry}
    (hrow : world.rows.changed (.moveSubtree src (via src dst)) path = some row) :
    (∃ old oldRow, placeUnder old src (via src dst) = some path ∧
      world.rows old = some oldRow ∧ row.remoteUuid = oldRow.remoteUuid) ∨
    (placeUnder path src (via src dst) = none ∧ path ≠ via src dst ∧
      world.rows path = some row) := by
  unfold PathRows.changed at hrow
  dsimp only at hrow
  cases hback : (placeUnder path (via src dst) src).bind world.rows with
  | some oldRow =>
    obtain ⟨old, hplace, hold⟩ := Option.bind_eq_some_iff.mp hback
    rw [hback] at hrow
    cases hrow
    exact Or.inl ⟨old, oldRow, placeUnder_symm hplace, hold, rfl⟩
  | none =>
    rw [hback] at hrow
    refine Or.inr ?_
    by_cases hsrc : path = src ∨ Below path src
    · rw [if_pos hsrc] at hrow
      cases hrow
    rw [if_neg hsrc] at hrow
    refine ⟨if_neg hsrc, fun hvia => ?_, hrow⟩
    -- The row of the item itself went to the place it was moved to.
    obtain ⟨row', hrow', -⟩ := h.recorded
    rw [hvia, placeUnder_self, Option.bind_some, hrow'] at hback
    cases hback

theorem Ready.row_via :
    ∃ row, world.rows.changed (.moveSubtree src (via src dst)) (via src dst) = some row ∧
      row.remoteUuid = some uuid := by
  obtain ⟨row, hrow, huuid⟩ := h.recorded
  refine ⟨row.movedTo (via src dst), ?_, huuid⟩
  unfold PathRows.changed
  dsimp only
  rw [placeUnder_self, Option.bind_some, hrow]

/-- A directory that was moved and not renamed is recorded where it is. -/
theorem Ready.described_via :
    Described ((world.carry src (via src dst)).commitDirMove src (via src dst)) uuid := by
  refine ⟨via src dst, h.row_via, fun path row hrow huuid => ?_, fun path row id hpath hrow hid => ?_⟩
  · rcases h.rows_via hrow with ⟨old, oldRow, hplace, hold, hsame⟩ | ⟨hplace, -, hold⟩
    · cases h.once old oldRow hold (hsame ▸ huuid)
      rw [placeUnder_self] at hplace
      exact (Option.some.inj hplace).symm
    cases h.once path row hold huuid
    rw [placeUnder_self] at hplace
    cases hplace
  show ((world.drive id).map fun at' => (placeUnder at' src (via src dst)).getD at') = some path
  rcases h.rows_via hrow with ⟨old, oldRow, hplace, hold, hsame⟩ | ⟨hplace, hvia, hold⟩
  · have hfrom := (of_placeUnder hplace).imp_right (Or.inl (b := Below old (via src dst)))
    rw [h.held old oldRow id hfrom hold (hsame ▸ hid), Option.map_some, hplace]
    rfl
  have hbelow := hpath.resolve_left hvia
  rw [h.held path row id (Or.inr (Or.inr hbelow)) hold hid, Option.map_some, hplace]
  rfl

/-- What the call into another directory leaves: nothing is asked or done, or the item is there. -/
theorem Ready.reparent_cases :
    (parentPath dst = parentPath src ∧ reparent answers world src dst uuid = .ok world) ∨
    (parentPath dst ≠ parentPath src ∧ (∀ call, Reparented answers src dst call → call = .refused) ∧
      reparent answers world src dst uuid = .error world) ∨
    (Reparented answers src dst .landed ∧
      reparent answers world src dst uuid = .error (world.carry src (via src dst))) ∨
    (Reparented answers src dst .done ∧
      reparent answers world src dst uuid = .ok (world.carry src (via src dst))) := by
  unfold reparent Reparented
  by_cases hdirs : parentPath dst = parentPath src
  · exact Or.inl ⟨hdirs, if_pos hdirs⟩
  rw [if_neg hdirs]
  refine Or.inr ?_
  cases hparent : answers.parent with
  | none => exact Or.inl ⟨hdirs, nofun, rfl⟩
  | some parent =>
    dsimp only
    rw [h.innerMove hparent]
    cases hmoved : answers.moved with
    | refused => exact Or.inl ⟨hdirs, fun call hcall => hcall.2.2.symm, rfl⟩
    | landed => exact Or.inr (Or.inl ⟨⟨hdirs, rfl, rfl⟩, rfl⟩)
    | done => exact Or.inr (Or.inr ⟨⟨hdirs, rfl, rfl⟩, rfl⟩)

end

variable (answers) in
/-- The call for another name leaves the rows, and does nothing, or puts the item under that name
and fails, or is done. -/
theorem rename_cases (dst : Path) (h : world.drive uuid = some path) :
    (answers.renamed = .refused ∧ answers.renamed.answer world (world.updateMetadata uuid (leaf dst)) = .error world) ∨
    (answers.renamed = .landed ∧ ∃ after, after.rows = world.rows ∧
      after.drive uuid = some (joinPath (parentPath path) (leaf dst)) ∧
      answers.renamed.answer world (world.updateMetadata uuid (leaf dst)) = .error after) ∨
    (answers.renamed = .done ∧ ∃ after,
      answers.renamed.answer world (world.updateMetadata uuid (leaf dst)) = .ok after) := by
  rw [updateMetadata_eq h]
  cases answers.renamed with
  | refused => exact Or.inl ⟨rfl, rfl⟩
  | landed => exact Or.inr (Or.inl ⟨rfl, world.carry path _, rfl, carry_drive h, rfl⟩)
  | done => exact Or.inr (Or.inr ⟨rfl, _, rfl⟩)

theorem Ready.moveFile_error (h : Ready answers world src dst uuid)
    (herr : moveFile valid answers world src dst uuid entry = .error after) :
    Described after uuid ↔ ¬ Stranded valid answers src dst .file := by
  obtain ⟨row, hrow, huuid⟩ := h.recorded
  have hat := h.held src row uuid (Or.inl rfl) hrow huuid
  unfold moveFile at herr
  by_cases hfound : answers.found = false
  · rw [if_pos hfound] at herr
    cases herr
    exact iff_of_true h.described fun hs => by simp [Stranded, hfound] at hs
  rw [if_neg hfound] at herr
  have hfound := eq_true_of_ne_false hfound
  rcases h.reparent_cases with ⟨hdirs, hcall⟩ | ⟨hdirs, hrefused, hcall⟩ | ⟨hlanded, hcall⟩ | ⟨hdone, hcall⟩
  all_goals rw [hcall] at herr; dsimp only at herr
  -- The directory stays: the item moves only where the new name is given and not answered.
  · by_cases hname : leaf dst = leaf src
    · rw [if_pos hname] at herr
      cases herr
    rw [if_neg hname] at herr
    by_cases hvalid : valid (leaf dst) = false
    · rw [if_pos hvalid] at herr
      cases herr
      exact iff_of_true h.described fun hs => by simp [Stranded, Reparented, hdirs, hvalid] at hs
    rw [if_neg hvalid] at herr
    rcases rename_cases answers dst hat with
      ⟨hrenamed, hcall⟩ | ⟨hrenamed, left, hrows, hdrive, hcall⟩ | ⟨-, left, hcall⟩
    all_goals rw [hcall] at herr; cases herr
    · exact iff_of_true h.described fun hs => by simp [Stranded, Reparented, hdirs, hrenamed] at hs
    · refine iff_of_false (not_described_renamed (hrows ▸ hrow) huuid hname hdrive) (not_not_intro ?_)
      exact ⟨hfound, nofun, Or.inr ⟨hname, Or.inl hdirs, Or.inl ⟨eq_true_of_ne_false hvalid, hrenamed⟩⟩⟩
  · cases herr
    exact iff_of_true h.described (not_stranded_of_refused hdirs hrefused)
  · cases herr
    exact iff_of_false (h.not_described_carry hlanded.1) (not_not_intro ⟨hfound, nofun, Or.inl hlanded⟩)
  -- The directory is another: whatever the new name ends as, the row is where the item was.
  by_cases hname : leaf dst = leaf src
  · rw [if_pos hname] at herr
    cases herr
  rw [if_neg hname] at herr
  have hstranded : ¬ (valid (leaf dst) = true ∧ answers.renamed = .done) → Stranded valid answers src dst .file :=
    fun hfails => ⟨hfound, nofun, Or.inr ⟨hname, Or.inr hdone, Or.inr ⟨rfl, hdone.1, hfails⟩⟩⟩
  by_cases hvalid : valid (leaf dst) = false
  · rw [if_pos hvalid] at herr
    cases herr
    exact iff_of_false (h.not_described_carry hdone.1) (not_not_intro (hstranded (by simp [hvalid])))
  rw [if_neg hvalid] at herr
  rcases rename_cases answers dst (@carry_drive world src (via src dst) uuid hat) with
    ⟨hrenamed, hcall⟩ | ⟨hrenamed, left, hrows, hdrive, hcall⟩ | ⟨-, left, hcall⟩
  all_goals rw [hcall] at herr; cases herr
  · exact iff_of_false (h.not_described_carry hdone.1) (not_not_intro (hstranded (by simp [hrenamed])))
  exact iff_of_false (not_described_renamed (hrows ▸ hrow) huuid hname hdrive)
    (not_not_intro (hstranded (by simp [hrenamed])))

/-- A directory's rows follow it wherever it is known to be. -/
theorem Ready.moveDir_error (h : Ready answers world src dst uuid)
    (herr : moveDir valid answers world src dst uuid = .error after) :
    Described after uuid ↔ ¬ Stranded valid answers src dst .dir := by
  obtain ⟨row, hrow, huuid⟩ := h.recorded
  have hat := h.held src row uuid (Or.inl rfl) hrow huuid
  unfold moveDir at herr
  by_cases hfound : answers.found = false
  · rw [if_pos hfound] at herr
    cases herr
    exact iff_of_true h.described fun hs => by simp [Stranded, hfound] at hs
  rw [if_neg hfound] at herr
  by_cases hrefused : leaf dst ≠ leaf src ∧ valid (leaf dst) = false
  · rw [if_pos hrefused] at herr
    cases herr
    exact iff_of_true h.described fun hs => by simp [hs.2.1 rfl hrefused.1] at hrefused
  rw [if_neg hrefused] at herr
  have hvalid : leaf dst ≠ leaf src → valid (leaf dst) = true := fun hname =>
    eq_true_of_ne_false fun hinvalid => hrefused ⟨hname, hinvalid⟩
  rcases h.reparent_cases with ⟨hdirs, hcall⟩ | ⟨hdirs, hrefused, hcall⟩ | ⟨hlanded, hcall⟩ | ⟨hdone, hcall⟩
  all_goals rw [hcall] at herr; dsimp only at herr
  · by_cases hname : leaf dst = leaf src
    · rw [if_pos hname] at herr
      cases herr
    rw [if_neg hname] at herr
    rcases rename_cases answers dst hat with
      ⟨hrenamed, hcall⟩ | ⟨hrenamed, left, hrows, hdrive, hcall⟩ | ⟨-, left, hcall⟩
    all_goals rw [hcall] at herr; simp only [hdirs, if_true] at herr; cases herr
    · exact iff_of_true h.described fun hs => by simp [Stranded, Reparented, hdirs, hrenamed] at hs
    · refine iff_of_false (not_described_renamed (hrows ▸ hrow) huuid hname hdrive) (not_not_intro ?_)
      exact ⟨eq_true_of_ne_false hfound, fun _ => hvalid,
        Or.inr ⟨hname, Or.inl hdirs, Or.inl ⟨hvalid hname, hrenamed⟩⟩⟩
  · cases herr
    exact iff_of_true h.described (not_stranded_of_refused hdirs hrefused)
  · cases herr
    exact iff_of_false (h.not_described_carry hlanded.1)
      (not_not_intro ⟨eq_true_of_ne_false hfound, fun _ => hvalid, Or.inl hlanded⟩)
  by_cases hname : leaf dst = leaf src
  · rw [if_pos hname] at herr
    cases herr
  rw [if_neg hname] at herr
  rcases rename_cases answers dst (@carry_drive world src (via src dst) uuid hat) with
    ⟨hrenamed, hcall⟩ | ⟨hrenamed, left, hrows, hdrive, hcall⟩ | ⟨-, left, hcall⟩
  all_goals rw [hcall] at herr; simp only [hdone.1, if_false] at herr; cases herr
  · exact iff_of_true h.described_via fun hs => by simp [Stranded, Reparented, hdone.2.2, hrenamed] at hs
  -- The rows went to where the directory was moved, and it has its new name by then.
  obtain ⟨row, hvia, huuid⟩ := h.row_via
  refine iff_of_false ?_ (not_not_intro ⟨eq_true_of_ne_false hfound, fun _ => hvalid,
    Or.inr ⟨hname, Or.inr hdone, Or.inl ⟨hvalid hname, hrenamed⟩⟩⟩)
  have hrow : (left.commitDirMove src (via src dst)).rows (via src dst) = some row := by
    unfold World.commitDirMove
    rw [hrows]
    exact hvia
  have hleaf : leaf (via src dst) = leaf src := leaf_joinPath _ (slash_notMem_leaf src)
  exact not_described_renamed hrow huuid (hleaf ▸ hname) hdrive

/-- A move that fails leaves the item's rows where the remote holds it, unless a call of it took
effect and failed, or a file was moved to another directory and then not renamed. -/
theorem move_failure_described_iff {kind : NodeKind} (h : Ready answers world src dst uuid)
    (herr : applyOne valid answers world src dst uuid entry kind = .error after) :
    Described after uuid ↔ ¬ Stranded valid answers src dst kind := by
  cases kind with
  | file => exact h.moveFile_error herr
  | dir => exact h.moveDir_error herr

/-! ### A file that is moved and cannot be renamed -/

def strandedRow : BaselineEntry :=
  ⟨['a'], .file, some 1, none, none, none, none, .synced, none, none, none, none, none, none⟩

/-- The file `a` and the directory `d`. -/
def strandedWorld : World where
  drive id := if id = 1 then some ['a'] else if id = 2 then some ['d'] else none
  rows path := if path = ['a'] then some strandedRow else none

def strandedAnswers : Answers := ⟨true, some 2, .done, .refused⟩

theorem ready_stranded : Ready strandedAnswers strandedWorld ['a'] ['d', '/', 'b'] 1 := by
  have hrow : ∀ path row, strandedWorld.rows path = some row → path = ['a'] ∧ row = strandedRow := by
    intro path row h
    simp only [strandedWorld, Option.ite_none_right_eq_some, Option.some.injEq] at h
    exact ⟨h.1, h.2.symm⟩
  refine ⟨⟨strandedRow, rfl, rfl⟩, fun path row h _ => (hrow path row h).1, ?_, ?_⟩
  · intro path row id _ h hid
    obtain ⟨rfl, rfl⟩ := hrow path row h
    cases hid
    rfl
  intro parent h
  cases h
  rfl

theorem move_failure_described_iff_stranded :
    Described (strandedWorld.carry ['a'] ['d', '/', 'a']) 1 ↔
      ¬ Stranded (fun _ => true) strandedAnswers ['a'] ['d', '/', 'b'] .file := by
  have herr : applyOne (fun _ => true) strandedAnswers strandedWorld ['a'] ['d', '/', 'b'] 1
      strandedRow .file = .error (strandedWorld.carry ['a'] ['d', '/', 'a']) := rfl
  exact move_failure_described_iff ready_stranded herr

theorem file_move_strands :
    applyOne (fun _ => true) strandedAnswers strandedWorld ['a'] ['d', '/', 'b'] 1 strandedRow
        .file = .error (strandedWorld.carry ['a'] ['d', '/', 'a']) ∧
      ¬ Described (strandedWorld.carry ['a'] ['d', '/', 'a']) 1 :=
  ⟨rfl, ready_stranded.not_described_carry (by decide)⟩

end SyncEngine.MoveRemote
