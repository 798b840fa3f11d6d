import Mathlib.Algebra.Order.Group.Int
import Mathlib.Data.Prod.Lex
import SyncEngine.Rows.StoredRuns

/-! # The batch of deletions the guard holds

A screened plan is a table with a row for each action. What the guard holds is
marked in it, a caller restores or approves the whole batch by its token, and a
restoration turns each held deletion into the write that undoes it. A flip, a
deletion at whose path the plan creates, cannot be undone and is set aside.
-/

namespace SyncEngine.Screen

open List Stored

/-- The `op` column. -/
inductive Op where
  | createLocalDir | download | deleteLocal | createRemoteDir | upload | trashRemote | conflict
  | adopt | moveRemote | moveLocal
deriving DecidableEq, Repr

/-- The statements' `op IN (2, 5)`. -/
def Op.isDelete : Op → Bool
  | .deleteLocal | .trashRemote => true
  | _ => false

/-- The statements' `op IN (0, 1, 3, 4)`. -/
def Op.isCreate : Op → Bool
  | .createLocalDir | .download | .createRemoteDir | .upload => true
  | _ => false

/-- The `held` column: 0, 1 or 2. -/
inductive Held where
  | released | held | aside
deriving DecidableEq, Repr

/-- A row of the `screen` table. Positions are far from the ends of a machine word. -/
structure ScreenRow where
  pos : Int
  op : Op
  kind : Option NodeKind
  path : Path
  fromPath : Option Path
  remoteUuid : Option Uuid
  held : Held
deriving DecidableEq, Repr

/-- The `op`, `kind`, `from_path` and `remote_uuid` of an action. -/
def actionColumns : SyncAction → Op × Option NodeKind × Option Path × Option Uuid
  | .createLocalDir _ => (.createLocalDir, none, none, none)
  | .downloadFile _ uuid => (.download, none, none, some uuid)
  | .deleteLocal _ kind => (.deleteLocal, some kind, none, none)
  | .createRemoteDir _ => (.createRemoteDir, none, none, none)
  | .uploadFile _ => (.upload, none, none, none)
  | .trashRemote _ kind uuid => (.trashRemote, some kind, none, some uuid)
  | .conflict _ => (.conflict, none, none, none)
  | .adoptBaseline _ => (.adopt, none, none, none)
  | .moveRemote src _ kind uuid => (.moveRemote, some kind, some src, some uuid)
  | .moveLocal src _ kind => (.moveLocal, some kind, some src, none)

def insert (row : Int × SyncAction) : ScreenRow :=
  let columns := actionColumns row.2
  ⟨row.1, columns.1, columns.2.1, row.2.relPath, columns.2.2.1, columns.2.2.2, .released⟩

/-- The action a row reads back as; a column it lacks fails the read. -/
def actionOf (row : ScreenRow) : Option SyncAction :=
  match row.op with
  | .createLocalDir => some (.createLocalDir row.path)
  | .download => row.remoteUuid.map (.downloadFile row.path)
  | .deleteLocal => row.kind.map (.deleteLocal row.path)
  | .createRemoteDir => some (.createRemoteDir row.path)
  | .upload => some (.uploadFile row.path)
  | .trashRemote => row.kind.bind fun kind => row.remoteUuid.map (.trashRemote row.path kind)
  | .conflict => some (.conflict row.path)
  | .adopt => some (.adoptBaseline row.path)
  | .moveRemote => row.fromPath.bind fun src => row.kind.bind fun kind =>
      row.remoteUuid.map (.moveRemote src row.path kind)
  | .moveLocal => row.fromPath.bind fun src => row.kind.map (.moveLocal src row.path)

theorem actionOf_insert (row : Int × SyncAction) : actionOf (insert row) = some row.2 := by
  obtain ⟨pos, action⟩ := row
  cases action <;> rfl

/-- An `UPDATE`, and how many rows it changed. -/
def update (which : ScreenRow → Bool) (set : ScreenRow → ScreenRow) (screen : List ScreenRow) :
    List ScreenRow × Nat :=
  (screen.map fun row => if which row then set row else row, screen.countP which)

/-- Hold every deletion, and every create at a path a deletion empties. -/
def hold (screen : List ScreenRow) : List ScreenRow × Nat :=
  let creates := screen.any fun row => row.op.isCreate
  let which := fun row : ScreenRow => row.op.isDelete ||
    (creates && row.op.isCreate &&
      screen.any fun deleted => deleted.path = row.path && deleted.op.isDelete)
  update which (fun row => { row with held := .held }) screen

/-- Mark the rows at and under each path that carry one mark with another:
`SET_ASIDE_AT` and `SET_ASIDE_UNDER`, or `HOLD_AGAIN_AT` and `HOLD_AGAIN_UNDER`. -/
def mark (was now : Held) : List Path → List ScreenRow → List ScreenRow × Nat
  | [], screen => (screen, 0)
  | flip :: flips, screen =>
    let set := fun row : ScreenRow => { row with held := now }
    let there := update (fun row => row.path = flip && row.held = was) set screen
    let under := update
      (fun row => (subtreeBounds flip).1 < row.path &&
        row.path < (subtreeBounds flip).2 && row.held = was) set there.1
    let rest := mark was now flips under.1
    (rest.1, there.2 + under.2 + rest.2)

/-- Set every held flip aside: which paths they are at, and how many rows that marks. -/
def setAsideFlips (screen : List ScreenRow) : List Path × List ScreenRow × Nat :=
  let held := screen.filter fun row => row.held = .held && row.op.isCreate
  let flips := (held.map (·.path)).insertionSort (· ≤ ·)
  if flips.isEmpty then (flips, screen, 0) else (flips, mark .held .aside flips screen)

/-- `ORDER BY path, pos`. -/
def byPath (a b : ScreenRow) : Bool :=
  a.path < b.path || (a.path = b.path && a.pos < b.pos)

/-- The `ROW_NUMBER()` of a held row: one more than the held rows before it. -/
def rowNumber (screen : List ScreenRow) (row : ScreenRow) : Nat :=
  screen.countP (fun other => other.held = .held && byPath other row) + 1

/-- `SELECT MAX(pos) FROM screen`; of an empty table nothing is numbered. -/
def maxPos (screen : List ScreenRow) : Int := (screen.map (·.pos)).max?.getD 0

/-- The columns a held deletion is rewritten to. -/
def undone (row : ScreenRow) : ScreenRow :=
  { row with
    op :=
      if row.op = .deleteLocal ∧ row.kind = some .dir then .createRemoteDir
      else if row.op = .deleteLocal then .upload
      else if row.kind = some .dir then .createLocalDir
      else .download
    remoteUuid := if row.op = .trashRemote ∧ row.kind = some .file then row.remoteUuid else none
    kind := none
    held := .released }

/-- Turn the held batch into its undoing, after everything else and by path,
and hold again what was set aside. Says how many actions it restores. -/
def restoreHeld (flips : List Path) (screen : List ScreenRow) : List ScreenRow × Nat :=
  let last := maxPos screen
  let moved := screen.map fun row =>
    if row.held = .held then { row with pos := last + rowNumber screen row } else row
  let restored := update (fun row => row.held = .held && row.op.isDelete) undone moved
  ((mark .aside .held flips restored.1).1, restored.2)

/-! ## What is set aside -/

variable {screen : List ScreenRow} {row other : ScreenRow} {flip path : Path}

/-- At a path, or at one under it. -/
def Covers (flip path : Path) : Prop := path = flip ∨ Below path flip

theorem covers_iff :
    Covers flip path ↔
      path = flip ∨ (subtreeBounds flip).1 < path ∧ path < (subtreeBounds flip).2 :=
  or_congr_right below_iff_range.symm

instance (flip path : Path) : Decidable (Covers flip path) :=
  inferInstanceAs (Decidable (_ ∨ _))

/-- What a row is once the rows some paths cover have another mark. -/
def marked (was now : Held) (flips : List Path) (row : ScreenRow) : ScreenRow :=
  if row.held = was ∧ ∃ flip ∈ flips, Covers flip row.path then { row with held := now } else row

theorem marked_cons {was now : Held} (hne : was ≠ now) (flips : List Path) (row : ScreenRow) :
    marked was now flips (marked was now [flip] row) = marked was now (flip :: flips) row := by
  by_cases hwas : row.held = was
  · by_cases hcovers : Covers flip row.path
    · simp [marked, hwas, hcovers, hne.symm]
    · simp [marked, hwas, hcovers]
  · simp [marked, hwas]

theorem mark_eq {was now : Held} (hne : was ≠ now) (flips : List Path)
    (screen : List ScreenRow) :
    (mark was now flips screen).1 = screen.map (marked was now flips) := by
  induction flips generalizing screen with
  | nil =>
    have hnone : marked was now [] = id := funext fun row => by simp [marked]
    rw [hnone, map_id, mark]
  | cons flip flips ih =>
    rw [mark, ih, update, update, map_map, map_map]
    refine map_congr_left fun row _ => ?_
    rw [← marked_cons hne]
    refine congrArg (marked was now flips) ?_
    -- A row marked at the path is no more one the statement for what is under it marks.
    by_cases hwas : row.held = was
    · by_cases hat : row.path = flip
      · simp [marked, hwas, hat, hne.symm, Covers]
      · simp [marked, hwas, hat, covers_iff]
    · simp [marked, hwas]

/-- The paths of the held flips. -/
theorem mem_flips :
    path ∈ (setAsideFlips screen).1 ↔
      ∃ create ∈ screen, create.held = .held ∧ create.op.isCreate ∧ create.path = path := by
  have hflips : (setAsideFlips screen).1 =
      ((screen.filter fun row => row.held = .held && row.op.isCreate).map
        (·.path)).insertionSort (· ≤ ·) := by
    unfold setAsideFlips
    dsimp only
    split <;> rfl
  rw [hflips, mem_insertionSort]
  simp [and_assoc]

theorem setAsideFlips_rows :
    (setAsideFlips screen).2.1 = screen.map (marked .held .aside (setAsideFlips screen).1) := by
  rw [← mark_eq (by decide : Held.held ≠ .aside)]
  unfold setAsideFlips
  dsimp only
  split
  · rename_i hnone
    rw [isEmpty_iff.mp hnone]
    rfl
  · rfl

/-! ## What is restored -/

theorem pos_le_maxPos (hrow : row ∈ screen) : row.pos ≤ maxPos screen := by
  have hmem : row.pos ∈ screen.map (·.pos) := mem_map_of_mem hrow
  unfold maxPos
  cases hmax : (screen.map (·.pos)).max? with
  | none => rw [max?_eq_none_iff.mp hmax] at hmem; cases hmem
  | some last => exact (max?_eq_some_iff.mp hmax).2 _ hmem

theorem countP_lt {α : Type} {l : List α} {p q : α → Bool} {a : α}
    (hpq : ∀ x ∈ l, p x → q x) (ha : a ∈ l) (hp : p a = false)
    (hq : q a) : l.countP p < l.countP q := by
  obtain ⟨before, after, rfl⟩ := append_of_mem ha
  have hbefore := countP_mono_left (l := before) fun x hx => hpq x (by simp [hx])
  have hafter := countP_mono_left (l := after) fun x hx => hpq x (by simp [hx])
  simp only [countP_append, countP_cons, hp, hq, Bool.false_eq_true, if_false, if_true]
  omega

theorem rowNumber_lt (hrow : row ∈ screen) (hheld : row.held = .held)
    (hlt : row.path < other.path) : rowNumber screen row < rowNumber screen other := by
  refine Nat.succ_lt_succ (countP_lt (fun x _ hx => ?_) hrow ?_ ?_)
  · simp only [byPath, Bool.and_eq_true, Bool.or_eq_true, decide_eq_true_eq] at hx ⊢
    obtain ⟨hx, hbefore | ⟨hpath, -⟩⟩ := hx
    · exact ⟨hx, Or.inl (lt_trans hbefore hlt)⟩
    · exact ⟨hx, Or.inl (hpath ▸ hlt)⟩
  · simp [byPath]
  · simp [byPath, hheld, hlt]

/-- A held deletion that is not half of a flip, nor under the path of one. -/
def Restorable (screen : List ScreenRow) (row : ScreenRow) : Prop :=
  row.held = .held ∧ row.op.isDelete = true ∧
    ∀ create ∈ screen, create.held = .held → create.op.isCreate = true →
      ¬ Covers create.path row.path

/-- A table as the guard leaves it: nothing set aside, nothing held but
deletions and creates, each row written by an insert. -/
structure Guarded (screen : List ScreenRow) : Prop where
  notAside : ∀ row ∈ screen, row.held ≠ .aside
  writes : ∀ row ∈ screen, row.held = .held → row.op.isDelete = true ∨ row.op.isCreate = true
  inserted : ∀ row ∈ screen, ∃ action,
    { row with held := .released } = insert (row.pos, action)

theorem guarded_hold (plan : List (Int × SyncAction)) : Guarded (hold (plan.map insert)).1 := by
  have hrow : ∀ row ∈ (hold (plan.map insert)).1, ∃ step : Int × SyncAction,
      row = insert step ∨ (row = { insert step with held := .held } ∧
        (row.op.isDelete ∨ row.op.isCreate)) := by
    intro row hrow
    obtain ⟨_, hinsert, rfl⟩ := mem_map.mp hrow
    obtain ⟨step, -, rfl⟩ := mem_map.mp hinsert
    refine ⟨step, ?_⟩
    split
    · rename_i hheld
      simp only [Bool.or_eq_true, Bool.and_eq_true] at hheld
      exact Or.inr ⟨rfl, hheld.imp_right fun h => h.1.2⟩
    · exact Or.inl rfl
  refine ⟨fun row h => ?_, fun row h hheld => ?_, fun row h => ?_⟩
  · obtain ⟨step, rfl | ⟨rfl, -⟩⟩ := hrow row h <;> exact nofun
  · obtain ⟨step, rfl | ⟨-, hop⟩⟩ := hrow row h
    · cases hheld
    · exact hop
  · obtain ⟨step, rfl | ⟨rfl, -⟩⟩ := hrow row h <;> exact ⟨step.2, rfl⟩

/-- What a restoration makes of a row of the batch, whose flips are at some paths. -/
def put (flips : List Path) (screen : List ScreenRow) (row : ScreenRow) : ScreenRow :=
  if row.held = .held ∧ ¬ ∃ flip ∈ flips, Covers flip row.path then
    { undone row with pos := maxPos screen + rowNumber screen row }
  else row

theorem restorable_iff (hguarded : Guarded screen) (hrow : row ∈ screen) :
    Restorable screen row ↔
      row.held = .held ∧ ¬ ∃ flip ∈ (setAsideFlips screen).1, Covers flip row.path := by
  constructor
  · rintro ⟨hheld, -, hfree⟩
    refine ⟨hheld, ?_⟩
    rintro ⟨_, hflip, hcovers⟩
    obtain ⟨create, hcreate, hhold, hop, rfl⟩ := mem_flips.mp hflip
    exact hfree create hcreate hhold hop hcovers
  rintro ⟨hheld, hfree⟩
  have hnone : ∀ create ∈ screen, create.held = .held → create.op.isCreate →
      ¬ Covers create.path row.path := fun create hcreate hhold hop hcovers =>
    hfree ⟨_, mem_flips.mpr ⟨create, hcreate, hhold, hop, rfl⟩, hcovers⟩
  refine ⟨hheld, (hguarded.writes row hrow hheld).resolve_right fun hop => ?_, hnone⟩
  exact hnone row hrow hheld hop (Or.inl rfl)

theorem restoreHeld_rows (hguarded : Guarded screen) :
    (restoreHeld (setAsideFlips screen).1 (setAsideFlips screen).2.1).1 =
      screen.map (put (setAsideFlips screen).1 (setAsideFlips screen).2.1) := by
  simp only [restoreHeld, mark_eq (by decide : Held.aside ≠ .held), update, map_map]
  conv_lhs => rw [setAsideFlips_rows, map_map]
  refine map_congr_left fun row hrow => ?_
  rw [← setAsideFlips_rows]
  by_cases hheld : row.held = .held
  · by_cases hcovered : ∃ flip ∈ (setAsideFlips screen).1, Covers flip row.path
    · -- Set aside, the row is passed over, and then held again.
      have hsame : row = { row with held := .held } := by rw [← hheld]
      simp [put, marked, hheld, hcovered, ← hsame]
    have hdelete := ((restorable_iff hguarded hrow).mpr ⟨hheld, hcovered⟩).2.1
    simp [put, marked, hheld, hcovered, hdelete, undone]
  have haside := hguarded.notAside row hrow
  simp [put, marked, hheld, haside]

/-- The write that puts back, from the other side, what a deletion deletes. -/
def undo : SyncAction → SyncAction
  | .deleteLocal path .dir => .createRemoteDir path
  | .deleteLocal path .file => .uploadFile path
  | .trashRemote path .dir _ => .createLocalDir path
  | .trashRemote path .file uuid => .downloadFile path uuid
  | other => other

theorem actionOf_undone (hguarded : Guarded screen) (hrow : row ∈ screen)
    (hdelete : row.op.isDelete) (pos : Int) :
    ∃ action, actionOf row = some action ∧
      actionOf { undone row with pos } = some (undo action) := by
  obtain ⟨action, hinsert⟩ := hguarded.inserted row hrow
  have hread : actionOf row = some action := by
    rw [← actionOf_insert (row.pos, action), ← hinsert]
    rfl
  refine ⟨action, hread, ?_⟩
  have hcolumns : actionOf { undone row with pos } =
      actionOf { undone (insert (row.pos, action)) with pos } := by rw [← hinsert]; rfl
  have hop : (insert (row.pos, action)).op.isDelete := by rw [← hinsert]; exact hdelete
  rw [hcolumns]
  cases action with
  | deleteLocal path kind => cases kind <;> rfl
  | trashRemote path kind uuid => cases kind <;> rfl
  | _ => cases hop

theorem setAsideFlips_pos (hrow : row ∈ screen) :
    row.pos ≤ maxPos (setAsideFlips screen).2.1 := by
  rw [setAsideFlips_rows]
  have hpos : ∀ flips, (marked .held .aside flips row).pos = row.pos := fun flips => by
    unfold marked
    split <;> rfl
  rw [← hpos (setAsideFlips screen).1]
  exact pos_le_maxPos (mem_map_of_mem hrow)

/-- A restoration of the held batch rewrites each deletion that is not part of a
flip into the write that undoes it, after everything else, a directory before
what is under it, and leaves every other row as it was. -/
theorem restore_undoes_batch (plan : List (Int × SyncAction)) :
    let batch := (hold (plan.map insert)).1
    let aside := setAsideFlips batch
    let after := (restoreHeld aside.1 aside.2.1).1
    ∃ put : ScreenRow → ScreenRow, after = batch.map put ∧
      (∀ row ∈ batch, Restorable batch row →
        (∃ action, actionOf row = some action ∧ actionOf (put row) = some (undo action)) ∧
        (put row).held = .released ∧
        (∀ other ∈ batch, ¬ Restorable batch other → other.pos < (put row).pos) ∧
        ∀ other ∈ batch, Restorable batch other → isUnder other.path row.path →
          (put row).pos < (put other).pos) ∧
      (∀ row ∈ batch, ¬ Restorable batch row → put row = row) ∧
      ∀ row ∈ after, row.held = .held → row ∈ batch ∧ ¬ Restorable batch row := by
  intro batch aside after
  have hguarded : Guarded batch := guarded_hold plan
  have hput : ∀ row ∈ batch, Restorable batch row →
      put aside.1 aside.2.1 row =
        { undone row with pos := maxPos aside.2.1 + rowNumber aside.2.1 row } :=
    fun row hrow h => if_pos ((restorable_iff hguarded hrow).mp h)
  have hkept : ∀ row ∈ batch, ¬ Restorable batch row → put aside.1 aside.2.1 row = row :=
    fun row hrow h => if_neg fun hfree => h ((restorable_iff hguarded hrow).mpr hfree)
  refine ⟨put aside.1 aside.2.1, restoreHeld_rows hguarded, ?_, hkept, ?_⟩
  · intro row hrow h
    rw [hput row hrow h]
    refine ⟨actionOf_undone hguarded hrow h.2.1 _, rfl, ?_, ?_⟩
    · intro other hother _
      have hlast : other.pos ≤ maxPos aside.2.1 := setAsideFlips_pos hother
      show other.pos < maxPos aside.2.1 + ((rowNumber aside.2.1 row : Nat) : Int)
      have hnumber : 0 < rowNumber aside.2.1 row := Nat.succ_pos _
      omega
    intro other hother hrestored hunder
    rw [hput other hother hrestored]
    have hmem : row ∈ aside.2.1 := by
      rw [show aside.2.1 = _ from setAsideFlips_rows]
      refine mem_map.mpr ⟨row, hrow, if_neg fun hcovered => ?_⟩
      exact ((restorable_iff hguarded hrow).mp h).2 hcovered.2
    have hlt := rowNumber_lt hmem h.1 (lt_of_isUnder hunder)
    show maxPos aside.2.1 + ((rowNumber aside.2.1 row : Nat) : Int) <
      maxPos aside.2.1 + ((rowNumber aside.2.1 other : Nat) : Int)
    omega
  intro row hrow hheld
  rw [show after = _ from restoreHeld_rows hguarded] at hrow
  obtain ⟨old, hold, rfl⟩ := mem_map.mp hrow
  by_cases h : Restorable batch old
  · rw [hput old hold h] at hheld
    cases hheld
  rw [hkept old hold h]
  exact ⟨hold, h⟩

/-! ## The token -/

inductive GuardReason where
  | scanIncomplete
  | firstSyncWithDeletions (deletions : Nat)
  | remoteUnconverged (deletions : Nat)
  | remoteEmptied (deletions : Nat)
  | exceededThreshold (deletions limit : Nat)
  | restoreUnfinished (deletions : Nat)
deriving DecidableEq, Repr

def tokenKind : GuardReason → String
  | .scanIncomplete => "scan-incomplete"
  | .firstSyncWithDeletions _ => "first-sync"
  | .remoteUnconverged _ => "remote-unconverged"
  | .remoteEmptied _ => "remote-emptied"
  | .exceededThreshold .. => "over-limit"
  | .restoreUnfinished _ => "restore-unfinished"

/-- The side a line of the token names, in the order the lines sort. -/
inductive TokenSide where
  | onLocal | other | onRemote
deriving DecidableEq, Repr

def TokenSide.text : TokenSide → String
  | .onLocal => "local"
  | .other => "other"
  | .onRemote => "remote"

/-- The side and the path of a held action. -/
def tokenLine (row : ScreenRow) : TokenSide × Path :=
  match row.op with
  | .deleteLocal => (.onLocal, row.path)
  | .trashRemote => (.onRemote, row.path)
  | _ => (.other, row.path)

/-- `CASE op WHEN 2 THEN 0 WHEN 5 THEN 2 ELSE 1 END`. -/
def lineRank (row : ScreenRow) : Nat :=
  match row.op with
  | .deleteLocal => 0
  | .trashRemote => 2
  | _ => 1

/-- The held rows in the order of their lines. -/
def eachHeldByLine (screen : List ScreenRow) : List ScreenRow :=
  (screen.filter fun row => row.held = .held).insertionSort fun a b =>
    lineRank a < lineRank b ∨ lineRank a = lineRank b ∧ a.path ≤ b.path

/-- What a token's hasher has read. -/
def BatchToken.new (reason : GuardReason) : List Char := (tokenKind reason).toList ++ ['\n']

def lineText (line : TokenSide × Path) : List Char :=
  line.1.text.toList ++ '\t' :: line.2 ++ ['\n']

def BatchToken.line (token : List Char) (row : ScreenRow) : List Char :=
  token ++ lineText (tokenLine row)

/-- The bytes hashed for the token of a held batch. -/
def BatchToken.hashed (reason : GuardReason) (screen : List ScreenRow) : ByteArray :=
  (String.ofList ((eachHeldByLine screen).foldl BatchToken.line (BatchToken.new reason))).toUTF8

/-- The deletions a table holds, each by its side and its path. -/
def heldLines (screen : List ScreenRow) : List (TokenSide × Path) :=
  (screen.filter fun row => row.held = .held).map tokenLine

/-- No line feed of a path is followed by what a line of the token begins with. -/
def Unbroken (path : Path) : Prop :=
  ∀ (side : TokenSide) (before after : Path),
    path ≠ before ++ '\n' :: (side.text.toList ++ '\t' :: after)

def lineKey (line : TokenSide × Path) : Nat ×ₗ Path :=
  toLex (match line.1 with | .onLocal => 0 | .other => 1 | .onRemote => 2, line.2)

theorem lineKey_injective : Function.Injective lineKey := by
  rintro ⟨side, path⟩ ⟨side', path'⟩ h
  obtain ⟨hside, rfl⟩ := Prod.ext_iff.mp (toLex.injective h)
  cases side <;> cases side' <;> first | rfl | cases hside

theorem lineKey_tokenLine (row : ScreenRow) :
    lineKey (tokenLine row) = toLex (lineRank row, row.path) := by
  unfold tokenLine lineRank
  cases row.op <;> rfl

/-- The lines of a batch are sorted, in whatever order its rows are. -/
theorem map_eachHeldByLine (screen : List ScreenRow) :
    ((eachHeldByLine screen).map tokenLine).map lineKey =
      ((heldLines screen).map lineKey).insertionSort (· ≤ ·) := by
  simp only [heldLines, map_map]
  refine map_insertionSort _ _ _ _ fun a _ b _ => ?_
  simp only [Function.comp_apply, lineKey_tokenLine, Prod.Lex.toLex_le_toLex]

theorem eachHeldByLine_inj {t u : List ScreenRow} :
    (eachHeldByLine t).map tokenLine = (eachHeldByLine u).map tokenLine ↔
      (heldLines t).Perm (heldLines u) := by
  rw [← (map_injective_iff.mpr lineKey_injective).eq_iff, map_eachHeldByLine,
    map_eachHeldByLine]
  constructor
  · intro h
    refine (map_perm_map_iff lineKey_injective).mp ?_
    refine (perm_insertionSort (· ≤ ·) _).symm.trans ?_
    rw [h]
    exact perm_insertionSort _ _
  intro h
  refine (((perm_insertionSort _ _).trans (h.map lineKey)).trans
    (perm_insertionSort _ _).symm).eq_of_sortedLE ?_ ?_ <;>
    exact sortedLE_insertionSort

/-! ## What the bytes tell -/

theorem first_split {c : Char} {a b x y : List Char} (ha : c ∉ a) (hb : c ∉ b)
    (h : a ++ c :: x = b ++ c :: y) : a = b ∧ x = y := by
  induction a generalizing b with
  | nil =>
    cases b with
    | nil => exact ⟨rfl, tail_eq_of_cons_eq h⟩
    | cons d b => exact absurd (head_eq_of_cons_eq h) fun heq => hb (by simp [heq])
  | cons d a ih =>
    cases b with
    | nil => exact absurd (head_eq_of_cons_eq h) fun heq => ha (by simp [heq])
    | cons e b =>
      obtain ⟨rfl, hmore⟩ := cons_eq_cons.mp h
      obtain ⟨rfl, hrest⟩ := ih (fun hin => ha (.tail _ hin)) (fun hin => hb (.tail _ hin)) hmore
      exact ⟨rfl, hrest⟩

theorem lineText_eq (line : TokenSide × Path) (rest : List Char) :
    lineText line ++ rest = line.1.text.toList ++ '\t' :: (line.2 ++ '\n' :: rest) := by
  simp [lineText]

/-- What follows a line: nothing, or one more line. -/
def Begins (rest : List Char) : Prop :=
  rest = [] ∨ ∃ (side : TokenSide) (after : List Char), rest = side.text.toList ++ '\t' :: after

theorem begins_flatMap (lines : List (TokenSide × Path)) : Begins (lines.flatMap lineText) := by
  cases lines with
  | nil => exact Or.inl rfl
  | cons line lines => exact Or.inr ⟨line.1, _, lineText_eq line _⟩

theorem side_clean (side : TokenSide) :
    '\t' ∉ side.text.toList ∧ '\n' ∉ side.text.toList ++ ['\t'] := by
  cases side <;> decide

/-- A path that ends before another one does is followed by a line in the other. -/
theorem path_not_longer {p q rest rest' more : List Char} (hp : Unbroken p)
    (hrest : Begins rest') (hlonger : p = q ++ more)
    (h : '\n' :: rest' = more ++ '\n' :: rest) : more = [] := by
  cases more with
  | nil => rfl
  | cons c more =>
    obtain ⟨rfl, hmore⟩ := cons_eq_cons.mp h
    rcases hrest with rfl | ⟨side, after, rfl⟩
    · cases more <;> cases hmore
    have hline : (side.text.toList ++ ['\t']) ++ after = more ++ '\n' :: rest := by
      rw [append_assoc]
      exact hmore
    rcases append_eq_append_iff.mp hline with ⟨more', rfl, -⟩ | ⟨short, hshort, hfeed⟩
    · exact absurd hlonger (by simpa using hp side q more')
    cases short with
    | nil =>
      rw [append_nil] at hshort
      exact absurd hlonger (by simpa [← hshort] using hp side q [])
    | cons d short =>
      obtain ⟨rfl, -⟩ := cons_eq_cons.mp hfeed
      exact absurd (hshort ▸ by simp) (side_clean side).2

theorem path_split {p q rest rest' : List Char} (hp : Unbroken p) (hq : Unbroken q)
    (hrest : Begins rest) (hrest' : Begins rest')
    (h : p ++ '\n' :: rest = q ++ '\n' :: rest') : p = q ∧ rest = rest' := by
  have hpq : p = q := by
    rcases append_eq_append_iff.mp h with ⟨more, hmore, hfeed⟩ | ⟨more, hmore, hfeed⟩
    · rw [hmore, path_not_longer hq hrest hmore hfeed, append_nil]
    · rw [hmore, path_not_longer hp hrest' hmore hfeed, append_nil]
  subst hpq
  exact ⟨rfl, tail_eq_of_cons_eq (append_cancel_left h)⟩

theorem text_injective {side side' : TokenSide} (h : side.text.toList = side'.text.toList) :
    side = side' := by
  cases side <;> cases side' <;> first | rfl | exact absurd h (by decide)

theorem lines_inj {lines lines' : List (TokenSide × Path)}
    (hl : ∀ line ∈ lines, Unbroken line.2) (hl' : ∀ line ∈ lines', Unbroken line.2)
    (h : lines.flatMap lineText = lines'.flatMap lineText) : lines = lines' := by
  induction lines generalizing lines' with
  | nil =>
    cases lines' with
    | nil => rfl
    | cons line' lines' => simp [lineText] at h
  | cons line lines ih =>
    cases lines' with
    | nil => simp [lineText] at h
    | cons line' lines' =>
      rw [flatMap_cons, flatMap_cons, lineText_eq, lineText_eq] at h
      obtain ⟨hside, h⟩ := first_split (side_clean _).1 (side_clean _).1 h
      obtain ⟨hpath, h⟩ := path_split (hl _ (by simp)) (hl' _ (by simp))
        (begins_flatMap lines) (begins_flatMap lines') h
      rw [Prod.ext (text_injective hside) hpath,
        ih (fun l hin => hl l (by simp [hin])) (fun l hin => hl' l (by simp [hin])) h]

theorem foldl_line (rows : List ScreenRow) (token : List Char) :
    rows.foldl BatchToken.line token = token ++ (rows.map tokenLine).flatMap lineText := by
  induction rows generalizing token with
  | nil => simp
  | cons row rows ih => simp [ih, BatchToken.line]

theorem kind_clean (reason : GuardReason) : '\n' ∉ (tokenKind reason).toList := by
  cases reason <;> (simp only [tokenKind]; decide)

theorem hashed_eq {r s : GuardReason} {t u : List ScreenRow} :
    BatchToken.hashed r t = BatchToken.hashed s u ↔
      tokenKind r = tokenKind s ∧
        ((eachHeldByLine t).map tokenLine).flatMap lineText =
          ((eachHeldByLine u).map tokenLine).flatMap lineText := by
  unfold BatchToken.hashed BatchToken.new
  rw [String.toUTF8_eq_toByteArray, String.toUTF8_eq_toByteArray, String.toByteArray_inj,
    String.ofList_inj, foldl_line, foldl_line, append_assoc, append_assoc]
  constructor
  · intro h
    obtain ⟨hkind, hlines⟩ := first_split (kind_clean r) (kind_clean s) h
    exact ⟨String.toList_injective hkind, hlines⟩
  rintro ⟨hkind, hlines⟩
  rw [hkind, hlines]

theorem mem_eachHeldByLine {line : TokenSide × Path} :
    line ∈ (eachHeldByLine screen).map tokenLine ↔ line ∈ heldLines screen := by
  unfold eachHeldByLine heldLines
  simp only [mem_map, mem_insertionSort]

/-- The bytes hashed for a held batch name the kind of its reason and its
deletions, where no path is broken the way a line is. -/
theorem batch_token_names_batch {r s : GuardReason} {t u : List ScreenRow}
    (ht : ∀ line ∈ heldLines t, Unbroken line.2) (hu : ∀ line ∈ heldLines u, Unbroken line.2) :
    BatchToken.hashed r t = BatchToken.hashed s u ↔
      tokenKind r = tokenKind s ∧ (heldLines t).Perm (heldLines u) := by
  rw [hashed_eq, ← eachHeldByLine_inj]
  refine and_congr_right fun _ => ⟨lines_inj ?_ ?_, fun h => by rw [h]⟩
  · exact fun line hline => ht line (mem_eachHeldByLine.mp hline)
  · exact fun line hline => hu line (mem_eachHeldByLine.mp hline)

/-- A held deletion of a local file. -/
def heldFile (path : String) : ScreenRow :=
  { insert (0, .deleteLocal path.toList .file) with held := .held }

theorem batch_token_names_batch_tabbed :
    BatchToken.hashed (.restoreUnfinished 2) [heldFile "a\tb", heldFile "c"] =
        BatchToken.hashed (.restoreUnfinished 1) [heldFile "c", heldFile "a\tb"] ↔
      tokenKind (.restoreUnfinished 2) = tokenKind (.restoreUnfinished 1) ∧
        (heldLines [heldFile "a\tb", heldFile "c"]).Perm
          (heldLines [heldFile "c", heldFile "a\tb"]) := by
  have hunbroken : ∀ path : Path, '\n' ∉ path → Unbroken path :=
    fun path hfeed side before after h => hfeed (h ▸ by simp)
  exact batch_token_names_batch (fun line hline => hunbroken _ (by revert line; decide))
    fun line hline => hunbroken _ (by revert line; decide)

/-- Two limits give one token, and so do one broken path and two that it spells. -/
theorem batch_token_not_injective :
    BatchToken.hashed (.exceededThreshold 1 0) [heldFile "a"] =
        BatchToken.hashed (.exceededThreshold 1 1) [heldFile "a"] ∧
      BatchToken.hashed (.restoreUnfinished 2) [heldFile "a", heldFile "b"] =
        BatchToken.hashed (.restoreUnfinished 2) [heldFile "a\nlocal\tb"] ∧
      ¬ (heldLines [heldFile "a", heldFile "b"]).Perm (heldLines [heldFile "a\nlocal\tb"]) := by
  refine ⟨rfl, hashed_eq.mpr ⟨rfl, by decide⟩, fun h => ?_⟩
  exact absurd h.length_eq (by decide)

end SyncEngine.Screen
