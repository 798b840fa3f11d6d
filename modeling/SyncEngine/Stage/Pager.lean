import Mathlib.Data.List.Induction
import Mathlib.Data.List.Sort
import Mathlib.Data.Prod.Lex
import SyncEngine.Model

/-! # A plan handed out in the order it is applied

A plan is staged an entry at a time, ordered once it is whole, and handed out a
page at a time. What the transfers land in runs first, with the deletions that
clear a path for a create, then the transfers, then the other deletions. The
drive lock may be let go before an entry unless one handed out ties it to an
entry still to come.
-/

namespace SyncEngine.PlanStage

open List SyncAction

/-- Which part of the apply an action runs in. -/
inductive Run where
  | before
  | transfers
  | after
deriving DecidableEq, Repr

namespace Run

def code : Run → Nat
  | before => 0
  | transfers => 1
  | after => 2

/-- The run of an action, but for the deletion half of a type flip. -/
def of (action : SyncAction) : Run :=
  match action with
  | uploadFile _ | downloadFile .. => transfers
  | _ => if action.isDelete then after else before

end Run

/-- An action with what its apply starts from. -/
structure PlannedEntry (σ : Type) where
  action : SyncAction
  start : σ

/-- A row of `plan`, at its place in the plan as it was made. -/
structure PlanRow (σ : Type) where
  seq : Nat
  entry : PlannedEntry σ
  run : Run
  completes : Bool

/-- Where a directory move is headed, for a directory move. -/
def movedDir : SyncAction → Option Path
  | moveRemote _ dst .dir _ | moveLocal _ dst .dir => some dst
  | _ => none

def fromPath : SyncAction → Option Path
  | moveRemote src .. | moveLocal src .. => some src
  | _ => none

def isUpload : SyncAction → Bool
  | uploadFile _ => true
  | _ => false

namespace PlanRow

variable {σ : Type}

abbrev action (row : PlanRow σ) : SyncAction := row.entry.action

/-- Whether the row deletes at a path the plan creates at. -/
def flips (rows : List (PlanRow σ)) (row : PlanRow σ) : Bool :=
  row.action.isDelete &&
    rows.any fun created => created.action.isCreate && created.action.relPath = row.action.relPath

/-- `ORDER BY run, completes DESC, op = OP_UPLOAD, seq`. -/
def key (row : PlanRow σ) : Lex (Nat × Lex (Nat × Lex (Nat × Nat))) :=
  toLex (row.run.code, toLex ((!row.completes).toNat, toLex ((isUpload row.action).toNat, row.seq)))

end PlanRow

/-- A plan staged in apply order: each row with where its tie on the drive lock ends. -/
structure StagedPlan (σ : Type) where
  exec : List (PlanRow σ × Option Nat)
  before : Nat
  transfers : Nat
  len : Nat

structure PlanWriter (σ : Type) where
  rows : List (PlanRow σ)
  before : Nat
  transfers : Nat
  after : Nat
  creates : Nat
  dirMoves : Nat

namespace PlanWriter

variable {σ : Type}

def new : PlanWriter σ := ⟨[], 0, 0, 0, 0, 0⟩

/-- Stage an entry, next in plan order. -/
def push (w : PlanWriter σ) (entry : PlannedEntry σ) : PlanWriter σ :=
  let run := Run.of entry.action
  { rows := w.rows ++ [⟨w.before + w.transfers + w.after, entry, run, false⟩]
    before := w.before + (decide (run = .before)).toNat
    transfers := w.transfers + (decide (run = .transfers)).toNat
    after := w.after + (decide (run = .after)).toNat
    creates := w.creates + entry.action.isCreate.toNat
    dirMoves := w.dirMoves + (movedDir entry.action).isSome.toNat }

def moveFlips (rows : List (PlanRow σ)) : List (PlanRow σ) :=
  rows.map fun row => if row.flips rows then { row with run := .before } else row

/-- Mark the transfers `test` finds. -/
def complete (test : Path → Bool) (rows : List (PlanRow σ)) : List (PlanRow σ) :=
  rows.map fun row =>
    if row.run = .transfers ∧ test row.action.relPath then { row with completes := true } else row

def completeFlips (rows : List (PlanRow σ)) : List (PlanRow σ) :=
  complete (fun path => rows.any fun flip =>
    flip.action.relPath = path && flip.run = .before && flip.action.isDelete) rows

def under (dir path : Path) : Bool := (subtreeBounds dir).1 ≤ path && path < (subtreeBounds dir).2

/-- The last place of an action that is no deletion and starts or ends `here`. -/
def last (order : List (PlanRow σ)) (here : Path → Bool) : Option Nat :=
  ((order.zipIdx.filter fun x => !x.1.action.isDelete &&
    (here x.1.action.relPath || (fromPath x.1.action).any here)).map Prod.snd).max?

def tieUntil (order : List (PlanRow σ)) (row : PlanRow σ) : Option Nat :=
  match movedDir row.action with
  | some dir => last order (under dir)
  | none =>
    if row.run = .before ∧ row.action.isDelete then last order (decide <| · = row.action.relPath) else none

/-- The plan staged, in the order the apply runs it. -/
def finish (w : PlanWriter σ) : StagedPlan σ :=
  let deletesFlip := 0 < w.after ∧ 0 < w.creates
  let flips := if deletesFlip then w.rows.countP (PlanRow.flips w.rows) else 0
  let rows := if deletesFlip then moveFlips w.rows else w.rows
  let rows := if 0 < flips then completeFlips rows else rows
  let moved := if 0 < w.dirMoves then rows.filterMap (movedDir ·.action) else []
  let rows := moved.foldl (fun rows dir => complete (under dir) (complete (decide <| · = dir) rows)) rows
  let order := rows.insertionSort fun a b => a.key ≤ b.key
  { exec := order.map fun row => (row, if 0 < flips ∨ moved ≠ [] then tieUntil order row else none)
    before := w.before + flips
    transfers := w.transfers
    len := w.before + w.transfers + w.after }

end PlanWriter

structure Staged (σ : Type) where
  run : Run
  /-- Whether the drive lock may be let go just before this action. -/
  releasable : Bool
  entry : PlannedEntry σ

structure Pager (σ : Type) where
  plan : StagedPlan σ
  page : List (Staged σ)
  next : Nat
  /-- The furthest tie among what was read. -/
  reach : Option Nat

def pageRows : Nat := 512

namespace StagedPlan

variable {σ : Type}

def pager (plan : StagedPlan σ) : Pager σ := ⟨plan, [], 0, none⟩

def runAt (plan : StagedPlan σ) (ord : Nat) : Run :=
  if ord < plan.before then .before
  else if ord < plan.before + plan.transfers then .transfers
  else .after

/-- A page of the plan from `start` on, each row with its place. -/
def readPage (plan : StagedPlan σ) (start : Nat) : Option (List ((PlanRow σ × Option Nat) × Nat)) :=
  let read := ((plan.exec.zipIdx.take plan.len).drop start).take pageRows
  if read.length = min pageRows (plan.len - start) then some read else none

end StagedPlan

inductive Call where
  | turn (reads : Bool)
  | peekIn (run : Run) (reads : Bool)
  | nextIn (run : Run) (reads : Bool)

namespace Pager

variable {σ : Type}

def furthest : Option Nat → Option Nat → Option Nat
  | none, tie => tie
  | some reach, none => some reach
  | some reach, some tie => some (max reach tie)

def stage (p : Pager σ) (x : (PlanRow σ × Option Nat) × Nat) : Pager σ :=
  { p with
    page := p.page ++ [⟨p.plan.runAt x.2, p.reach.all (· < x.2), x.1.1.entry⟩]
    reach := furthest p.reach x.1.2 }

/-- Read the next page once the one in hand is used up. A read that fails changes nothing. -/
def turn (p : Pager σ) (reads : Bool) : Option (Pager σ) :=
  if p.page ≠ [] ∨ p.plan.len ≤ p.next then some p
  else if reads then
    (p.plan.readPage p.next).map fun read => read.foldl stage { p with next := p.next + read.length }
  else none

/-- The next action, when it is in `run`. -/
def peekIn (p : Pager σ) (run : Run) (reads : Bool) : Option (Pager σ × Option (Staged σ)) :=
  (p.turn reads).map fun p => (p, p.page.head?.filter (·.run = run))

/-- Take the next action, when it is in `run`. -/
def nextIn (p : Pager σ) (run : Run) (reads : Bool) : Option (Pager σ × Option (Staged σ)) :=
  (p.peekIn run reads).map fun (p, staged) =>
    if staged.isNone then (p, none) else ({ p with page := p.page.tail }, p.page.head?)

/-- A call, with what was handed out before it. -/
def call (state : Pager σ × List (Staged σ)) : Call → Pager σ × List (Staged σ)
  | .turn reads => ((state.1.turn reads).getD state.1, state.2)
  | .peekIn run reads => (((state.1.peekIn run reads).map Prod.fst).getD state.1, state.2)
  | .nextIn run reads =>
    match state.1.nextIn run reads with
    | some (p, staged) => (p, state.2 ++ staged.toList)
    | none => state

end Pager

/-! ## The plan as it is written -/

section Written

variable {σ : Type} {entries : List (PlannedEntry σ)} {w : PlanWriter σ} {rows order : List (PlanRow σ)} {row : PlanRow σ}

/-- What a plan of `entries` holds before it is ordered. -/
structure Written (entries : List (PlannedEntry σ)) (w : PlanWriter σ) : Prop where
  rows : w.rows = entries.zipIdx.map fun x => ⟨x.2, x.1, Run.of x.1.action, false⟩
  before : w.before = w.rows.countP (·.run = .before)
  transfers : w.transfers = w.rows.countP (·.run = .transfers)
  after : w.after = w.rows.countP (·.run = .after)
  creates : w.creates = w.rows.countP (·.action.isCreate)
  dirMoves : w.dirMoves = w.rows.countP fun row => (movedDir row.action).isSome

theorem countP_runs (rows : List (PlanRow σ)) :
    rows.countP (·.run = .before) + rows.countP (·.run = .transfers) + rows.countP (·.run = .after) = rows.length := by
  induction rows with
  | nil => rfl
  | cons row rows ih =>
    simp only [countP_cons, length_cons]
    cases row.run <;> simp <;> omega

theorem countP_push (p : PlanRow σ → Bool) (rows : List (PlanRow σ)) (row : PlanRow σ) :
    (rows ++ [row]).countP p = rows.countP p + (p row).toNat := by
  rw [countP_append, countP_singleton]
  cases p row <;> rfl

theorem written (entries : List (PlannedEntry σ)) : Written entries (entries.foldl PlanWriter.push .new) := by
  induction entries using reverseRecOn with
  | nil => exact ⟨rfl, rfl, rfl, rfl, rfl, rfl⟩
  | append_singleton entries entry ih =>
    rw [foldl_append, foldl_cons, foldl_nil]
    generalize entries.foldl PlanWriter.push .new = w at ih ⊢
    have hseq : w.before + w.transfers + w.after = entries.length := by
      rw [ih.before, ih.transfers, ih.after, countP_runs, ih.rows, length_map, length_zipIdx]
    unfold PlanWriter.push
    refine ⟨?_, ?_, ?_, ?_, ?_, ?_⟩
    · dsimp only
      rw [hseq, ih.rows, zipIdx_append, map_append, zipIdx_singleton, map_singleton, Nat.zero_add]
    · dsimp only
      rw [countP_push, ih.before]
    · dsimp only
      rw [countP_push, ih.transfers]
    · dsimp only
      rw [countP_push, ih.after]
    · dsimp only
      rw [countP_push, ih.creates]
    dsimp only
    rw [countP_push, ih.dirMoves]

/-! ## The plan in order -/

/-- Rows that differ from `base` in what they complete, which only transfers do. -/
structure Marked (base rows : List (PlanRow σ)) : Prop where
  same : rows.map (fun row => { row with completes := false }) = base
  transfers : ∀ row ∈ rows, row.completes = true → row.run = .transfers

theorem Marked.complete {base : List (PlanRow σ)} (h : Marked base rows) (test : Path → Bool) :
    Marked base (PlanWriter.complete test rows) where
  same := by
    rw [← h.same]
    unfold PlanWriter.complete
    rw [map_map]
    refine map_congr_left fun row _ => ?_
    rw [Function.comp_apply]
    split <;> rfl
  transfers := by
    intro row hrow hcompletes
    obtain ⟨before, hbefore, rfl⟩ := mem_map.mp hrow
    split at hcompletes
    · next htest =>
      rw [if_pos htest]
      exact htest.1
    next htest =>
    rw [if_neg htest]
    exact h.transfers before hbefore hcompletes

theorem of_eq_after (h : row.action.isDelete) : Run.of row.action = .after := by
  unfold Run.of
  split
  · next heq =>
    rw [heq] at h
    cases h
  · next heq =>
    rw [heq] at h
    cases h
  · exact if_pos h

theorem flips_iff (h : Written entries w) :
    row.flips w.rows ↔ row.action.isDelete ∧
      ∃ entry ∈ entries, entry.action.isCreate ∧ entry.action.relPath = row.action.relPath := by
  unfold PlanRow.flips
  rw [h.rows, any_map, Bool.and_eq_true, any_eq_true]
  refine and_congr_right fun _ => ⟨?_, ?_⟩
  · rintro ⟨x, hx, hboth⟩
    exact ⟨x.1, fst_mem_of_mem_zipIdx hx, by simpa using hboth⟩
  rintro ⟨entry, hentry, hboth⟩
  obtain ⟨i, hi⟩ := getElem?_of_mem hentry
  exact ⟨(entry, i), mem_zipIdx_iff_getElem?.mpr hi, by simpa using hboth⟩

/-- A plan of `entries` whose rows are `order`. -/
structure Finished (entries : List (PlannedEntry σ)) (order : List (PlanRow σ)) (plan : StagedPlan σ) : Prop where
  exec : plan.exec = order.map fun row => (row, PlanWriter.tieUntil order row)
  once : (order.map fun row => (row.entry, row.seq)).Perm entries.zipIdx
  run : ∀ row ∈ order, row.run = if row.action.isDelete = true ∧
    ∃ entry ∈ entries, entry.action.isCreate = true ∧ entry.action.relPath = row.action.relPath
    then .before else Run.of row.action
  completes : ∀ row ∈ order, row.completes = true → row.run = .transfers
  sorted : order.Pairwise fun a b => a.key ≤ b.key
  before : plan.before = order.countP (·.run = .before)
  transfers : plan.transfers = order.countP (·.run = .transfers)
  len : plan.len = order.length

theorem key_le {a b : PlanRow σ} (h : a.key ≤ b.key) : a.run.code < b.run.code ∨ a.run.code = b.run.code ∧
    (a.completes = b.completes → isUpload a.action = isUpload b.action → a.seq ≤ b.seq) := by
  rcases Prod.Lex.toLex_le_toLex.mp h with hlt | ⟨heq, hrest⟩
  · exact Or.inl hlt
  refine Or.inr ⟨heq, fun hcompletes hupload => ?_⟩
  rcases Prod.Lex.toLex_le_toLex.mp hrest with hlt | ⟨-, hrest⟩
  · rw [hcompletes] at hlt
    exact absurd hlt (lt_irrefl _)
  rcases Prod.Lex.toLex_le_toLex.mp hrest with hlt | ⟨-, hseq⟩
  · rw [hupload] at hlt
    exact absurd hlt (lt_irrefl _)
  · exact hseq

instance : Std.Total fun a b : PlanRow σ => a.key ≤ b.key := ⟨fun a b => le_total a.key b.key⟩

instance : IsTrans (PlanRow σ) fun a b => a.key ≤ b.key := ⟨fun _ _ _ => le_trans⟩

theorem countP_add {p q r : PlanRow σ → Bool} (h : ∀ row ∈ rows, (r row).toNat = (p row).toNat + (q row).toNat) :
    rows.countP r = rows.countP p + rows.countP q := by
  induction rows using reverseRecOn with
  | nil => rfl
  | append_singleton rows row ih =>
    have hrow := h row mem_concat_self
    rw [countP_push, countP_push, countP_push, ih fun row hrow => h row (mem_append_left _ hrow), hrow]
    omega

theorem finished (h : Written entries w) : ∃ order, Finished entries order w.finish := by
  have hrun : ∀ row ∈ w.rows, row.run = Run.of row.action ∧ row.completes = false := by
    intro row hrow
    rw [h.rows] at hrow
    obtain ⟨x, -, rfl⟩ := mem_map.mp hrow
    exact ⟨rfl, rfl⟩
  have hafter : ∀ row ∈ w.rows, row.flips w.rows → row.run = .after := fun row hrow hflips =>
    (hrun row hrow).1.trans (of_eq_after ((flips_iff h).mp hflips).1)
  -- without a deletion or a create nothing flips
  have hnone : ¬ (0 < w.after ∧ 0 < w.creates) → ∀ row ∈ w.rows, row.flips w.rows = false := by
    intro hnot row hrow
    refine Bool.eq_false_iff.mpr fun hflips => hnot ⟨?_, ?_⟩
    · rw [h.after]
      exact countP_pos_iff.mpr ⟨row, hrow, by simpa using hafter row hrow hflips⟩
    unfold PlanRow.flips at hflips
    obtain ⟨created, hmem, hcreated⟩ := any_eq_true.mp (Bool.and_eq_true_iff.mp hflips).2
    rw [h.creates]
    exact countP_pos_iff.mpr ⟨created, hmem, (Bool.and_eq_true_iff.mp hcreated).1⟩
  have hmoved : (if 0 < w.after ∧ 0 < w.creates then PlanWriter.moveFlips w.rows else w.rows) =
      PlanWriter.moveFlips w.rows := by
    split
    · rfl
    next hnot =>
    unfold PlanWriter.moveFlips
    refine ((map_congr_left fun row hrow => ?_).trans (map_id _)).symm
    rw [hnone hnot row hrow]
    rfl
  have hflips : (if 0 < w.after ∧ 0 < w.creates then w.rows.countP (PlanRow.flips w.rows) else 0) =
      w.rows.countP (PlanRow.flips w.rows) := by
    split
    · rfl
    · next hnot => exact (countP_eq_zero.mpr fun row hrow => by simp [hnone hnot row hrow]).symm
  have hstart : Marked (PlanWriter.moveFlips w.rows) (PlanWriter.moveFlips w.rows) := by
    have hplain : ∀ row ∈ PlanWriter.moveFlips w.rows, row.completes = false := by
      intro row hrow
      obtain ⟨before, hbefore, rfl⟩ := mem_map.mp hrow
      split <;> exact (hrun before hbefore).2
    refine ⟨(map_congr_left fun row hrow => ?_).trans (map_id _), fun row hrow hcompletes => ?_⟩
    · rw [← hplain row hrow]
      rfl
    rw [hplain row hrow] at hcompletes
    cases hcompletes
  unfold PlanWriter.finish
  dsimp only
  rw [hmoved, hflips]
  generalize hrows1 : (if 0 < w.rows.countP (PlanRow.flips w.rows) then
    PlanWriter.completeFlips (PlanWriter.moveFlips w.rows) else PlanWriter.moveFlips w.rows) = rows1
  have hmarked1 : Marked (PlanWriter.moveFlips w.rows) rows1 := by
    rw [← hrows1]
    split
    · exact hstart.complete _
    · exact hstart
  generalize hmovedDirs : (if 0 < w.dirMoves then rows1.filterMap (movedDir ·.action) else []) = moved
  have hmarked : Marked (PlanWriter.moveFlips w.rows) (moved.foldl (fun rows dir =>
      PlanWriter.complete (PlanWriter.under dir) (PlanWriter.complete (decide <| · = dir) rows)) rows1) :=
    foldlRecOn _ _ hmarked1 fun rows hrows dir _ => (hrows.complete _).complete _
  generalize hrows : moved.foldl _ rows1 = rows at hmarked ⊢
  have hperm := perm_insertionSort (fun a b : PlanRow σ => a.key ≤ b.key) rows
  have hsorted := pairwise_insertionSort (fun a b : PlanRow σ => a.key ≤ b.key) rows
  generalize (rows.insertionSort fun a b : PlanRow σ => a.key ≤ b.key) = order at hperm hsorted ⊢
  have hbase : (order.map fun row => { row with completes := false }).Perm (PlanWriter.moveFlips w.rows) :=
    hmarked.same ▸ hperm.map _
  have hrow : ∀ row ∈ order, ∃ x ∈ w.rows, row.entry = x.entry ∧
      row.run = if x.flips w.rows then .before else x.run := by
    intro row hin
    obtain ⟨x, hx, heq⟩ := mem_map.mp (hbase.mem_iff.mp (mem_map_of_mem hin))
    split at heq
    · next hflips =>
      exact ⟨x, hx, (congrArg PlanRow.entry heq).symm, (congrArg PlanRow.run heq).symm.trans (if_pos hflips).symm⟩
    next hflips =>
    exact ⟨x, hx, (congrArg PlanRow.entry heq).symm, (congrArg PlanRow.run heq).symm.trans (if_neg hflips).symm⟩
  have hcount : ∀ run, order.countP (·.run = run) =
      w.rows.countP fun x => (if x.flips w.rows then .before else x.run) = run := by
    intro run
    have heq := hbase.countP_eq (·.run = run)
    unfold PlanWriter.moveFlips at heq
    rw [countP_map, countP_map] at heq
    refine heq.trans (countP_congr fun x _ => ?_)
    rw [Function.comp_apply]
    split <;> rfl
  have hrunOf : ∀ row ∈ order, row.run = if row.flips w.rows then .before else Run.of row.action := by
    intro row hin
    obtain ⟨x, hx, hentry, heq⟩ := hrow row hin
    rw [heq, (hrun x hx).1]
    unfold PlanRow.flips PlanRow.action
    rw [hentry]
  have hdirs : moved = [] → ∀ row ∈ order, movedDir row.action = none := by
    rintro rfl row hin
    obtain ⟨x, hx, hentry, -⟩ := hrow row hin
    split at hmovedDirs
    · have hin1 : row ∈ rows1 := by
        rw [foldl_nil] at hrows
        exact hrows ▸ hperm.mem_iff.mp hin
      exact filterMap_eq_nil_iff.mp hmovedDirs row hin1
    next hzero =>
    rw [h.dirMoves, countP_pos_iff] at hzero
    unfold PlanRow.action
    rw [hentry]
    exact Option.not_isSome_iff_eq_none.mp fun hsome => hzero ⟨x, hx, hsome⟩
  refine ⟨order, ⟨?_, ?_, fun row hin => ?_, fun row hin => ?_, hsorted, ?_, ?_, ?_⟩⟩
  · refine map_congr_left fun row hin => congrArg _ ?_
    split
    · rfl
    next hnot =>
    rw [not_or, not_not] at hnot
    unfold PlanWriter.tieUntil
    rw [hdirs hnot.2 row hin]
    refine (if_neg fun hdeletes => ?_).symm
    obtain ⟨x, hx, hentry, heq⟩ := hrow row hin
    unfold PlanRow.action at hdeletes
    rw [hentry] at hdeletes
    cases hflips : x.flips w.rows with
    | true => exact hnot.1 (countP_pos_iff.mpr ⟨x, hx, hflips⟩)
    | false =>
      rw [hflips, if_neg Bool.false_ne_true, (hrun x hx).1, of_eq_after hdeletes.2] at heq
      rw [heq] at hdeletes
      cases hdeletes.1
  · have hpairs := hbase.map fun row => (row.entry, row.seq)
    unfold PlanWriter.moveFlips at hpairs
    rw [map_map, map_map] at hpairs
    refine hpairs.trans (Perm.of_eq ?_)
    rw [h.rows, map_map]
    refine (map_congr_left fun x _ => ?_).trans (map_id _)
    rw [Function.comp_apply, Function.comp_apply]
    split <;> rfl
  · rw [hrunOf row hin]
    exact if_congr (flips_iff h) rfl rfl
  · exact hmarked.transfers row (hperm.mem_iff.mp hin)
  · rw [h.before, hcount]
    refine (countP_add fun x hx => ?_).symm
    cases hflips : x.flips w.rows with
    | true => simp [hafter x hx hflips]
    | false => simp
  · rw [h.transfers, hcount]
    refine countP_congr fun x hx => ?_
    cases hflips : x.flips w.rows with
    | true => simp [hafter x hx hflips]
    | false => simp
  rw [h.before, h.transfers, h.after, countP_runs]
  have hlength := hbase.length_eq
  unfold PlanWriter.moveFlips at hlength
  rw [length_map, length_map] at hlength
  exact hlength.symm

end Written

/-! ## The plan as it is handed out -/

section Handed

variable {σ : Type} {plan : StagedPlan σ} {p : Pager σ} {handed : List (Staged σ)} {seen : Nat}
  {state : Pager σ × List (Staged σ)}

/-- The row at a place of the plan, as it is handed out. -/
def stagedAt (plan : StagedPlan σ) (x : (PlanRow σ × Option Nat) × Nat) : Staged σ :=
  ⟨plan.runAt x.2, !(plan.exec.take x.2).any fun e => e.2.any (x.2 ≤ ·), x.1.1.entry⟩

/-- A pager that has read the first `seen` rows of its plan. -/
structure Handing (plan : StagedPlan σ) (seen : Nat) (state : Pager σ × List (Staged σ)) : Prop where
  same : state.1.plan = plan
  staged : state.2 ++ state.1.page = (plan.exec.zipIdx.take seen).map (stagedAt plan)
  reach : ∀ n, state.1.reach.any (n ≤ ·) = (plan.exec.take seen).any fun e => e.2.any (n ≤ ·)

theorem any_furthest (reach tie : Option Nat) (n : Nat) :
    (Pager.furthest reach tie).any (n ≤ ·) = (reach.any (n ≤ ·) || tie.any (n ≤ ·)) := by
  cases reach <;> cases tie <;> simp [Pager.furthest]

theorem all_lt (reach : Option Nat) (n : Nat) : reach.all (· < n) = !reach.any (n ≤ ·) := by
  cases reach with
  | none => rfl
  | some reach => exact (decide_eq_decide.mpr not_le.symm).trans decide_not

theorem Handing.stage (h : Handing plan seen (p, handed)) {e : PlanRow σ × Option Nat}
    (he : plan.exec[seen]? = some e) : Handing plan (seen + 1) (p.stage (e, seen), handed) where
  same := h.same
  staged := by
    have hat : plan.exec.zipIdx[seen]? = some (e, seen) := by
      rw [getElem?_zipIdx, he, Option.map_some, Nat.zero_add]
    unfold Pager.stage
    rw [← append_assoc, h.staged, take_add_one, hat, map_append, all_lt, h.reach, h.same]
    rfl
  reach n := by
    unfold Pager.stage
    rw [any_furthest, h.reach, take_add_one, he, any_append]
    simp

theorem Handing.fold {read rest : List ((PlanRow σ × Option Nat) × Nat)} (h : Handing plan seen (p, handed))
    (hread : plan.exec.zipIdx.drop seen = read ++ rest) :
    Handing plan (seen + read.length) (read.foldl Pager.stage p, handed) ∧ (read.foldl Pager.stage p).next = p.next := by
  induction read generalizing seen p with
  | nil => exact ⟨h, rfl⟩
  | cons x read ih =>
    have hat : plan.exec.zipIdx[seen]? = some x := by
      rw [← Nat.add_zero seen, ← getElem?_drop, hread]
      rfl
    rw [getElem?_zipIdx, Nat.zero_add] at hat
    obtain ⟨e, he, rfl⟩ := Option.map_eq_some_iff.mp hat
    have hrest : plan.exec.zipIdx.drop (seen + 1) = read ++ rest := by
      rw [← tail_drop, hread]
      rfl
    rw [length_cons, Nat.add_comm read.length, ← Nat.add_assoc]
    exact ih (h.stage he) hrest

theorem Handing.turn (hlen : plan.len = plan.exec.length) (h : Handing plan state.1.next state) {reads : Bool}
    (hturn : state.1.turn reads = some p) : Handing plan p.next (p, state.2) := by
  unfold Pager.turn at hturn
  split at hturn
  · cases hturn
    exact h
  split at hturn
  · obtain ⟨read, hread, rfl⟩ := Option.map_eq_some_iff.mp hturn
    unfold StagedPlan.readPage at hread
    dsimp only at hread
    rw [h.same, hlen, ← length_zipIdx (l := plan.exec), take_length] at hread
    split at hread
    · have hsplit := (take_append_drop pageRows (plan.exec.zipIdx.drop state.1.next)).symm
      rw [Option.some.inj hread] at hsplit
      have hnext : Handing plan state.1.next ({ state.1 with next := state.1.next + read.length }, state.2) :=
        ⟨h.same, h.staged, h.reach⟩
      obtain ⟨hfold, heq⟩ := hnext.fold hsplit
      rw [heq]
      exact hfold
    · cases hread
  · cases hturn

theorem Handing.call (hlen : plan.len = plan.exec.length) (h : Handing plan state.1.next state) (c : Call) :
    Handing plan (Pager.call state c).1.next (Pager.call state c) := by
  cases c with
  | turn reads =>
    unfold Pager.call
    dsimp only
    cases hturn : state.1.turn reads with
    | none => exact h
    | some p => exact h.turn hlen hturn
  | peekIn run reads =>
    unfold Pager.call Pager.peekIn
    dsimp only
    cases hturn : state.1.turn reads with
    | none => exact h
    | some p => exact h.turn hlen hturn
  | nextIn run reads =>
    unfold Pager.call Pager.nextIn Pager.peekIn
    dsimp only
    cases hturn : state.1.turn reads with
    | none => exact h
    | some p =>
      have hturned := h.turn hlen hturn
      dsimp only [Option.map_some]
      split
      · exact ⟨hturned.same, by simpa using hturned.staged, hturned.reach⟩
      next hsome =>
      refine ⟨hturned.same, ?_, hturned.reach⟩
      cases hpage : p.page with
      | nil => simp [hpage] at hsome
      | cons staged page =>
        have hstaged := hturned.staged
        rw [hpage] at hstaged
        simpa using hstaged

theorem handing (hlen : plan.len = plan.exec.length) (calls : List Call) :
    Handing plan (calls.foldl Pager.call (plan.pager, [])).1.next (calls.foldl Pager.call (plan.pager, [])) :=
  foldlRecOn (motive := fun state => Handing plan state.1.next state) _ _ ⟨rfl, rfl, fun _ => rfl⟩
    fun _ h c _ => h.call hlen c

theorem Handing.getElem? (h : Handing plan seen state) {k : Nat} {staged : Staged σ} (hk : state.2[k]? = some staged) :
    ∃ e, plan.exec[k]? = some e ∧ staged = stagedAt plan (e, k) := by
  have hall : (state.2 ++ state.1.page)[k]? = some staged := by
    rw [getElem?_append_left (List.getElem?_eq_some_iff.mp hk).1]
    exact hk
  rw [h.staged, getElem?_map] at hall
  obtain ⟨x, hx, rfl⟩ := Option.map_eq_some_iff.mp hall
  have hlt := (List.getElem?_eq_some_iff.mp hx).1
  rw [getElem?_take_of_lt (lt_of_lt_of_le hlt (length_take_le _ _)), getElem?_zipIdx, Nat.zero_add] at hx
  obtain ⟨e, he, rfl⟩ := Option.map_eq_some_iff.mp hx
  exact ⟨e, he, rfl⟩

end Handed

/-! ## Compound steps -/

/-- A compound step that begins with `x` takes in `y`: the deletion of a type
flip and what fills its path, a directory move and what lands below it. -/
def Ties {σ : Type} (x y : PlanRow σ) : Prop :=
  y.action.isDelete = false ∧
    ((x.action.isDelete = true ∧ x.run = .before ∧
        (y.action.endpoints.1 = x.action.relPath ∨ y.action.endpoints.2 = x.action.relPath)) ∨
      ∃ dir, movedDir x.action = some dir ∧
        (isUnder y.action.endpoints.1 dir = true ∨ isUnder y.action.endpoints.2 dir = true))

section Ties

variable {σ : Type} {entries : List (PlannedEntry σ)} {order : List (PlanRow σ)} {row : PlanRow σ} {plan : StagedPlan σ}

theorem any_max? (xs : List Nat) (n : Nat) : xs.max?.any (n ≤ ·) ↔ ∃ x ∈ xs, n ≤ x := by
  cases hmax : xs.max? with
  | none =>
    rw [max?_eq_none_iff.mp hmax]
    simp
  | some m =>
    obtain ⟨hmem, hle⟩ := max?_eq_some_iff.mp hmax
    rw [Option.any_some, decide_eq_true_eq]
    exact ⟨fun h => ⟨m, hmem, h⟩, fun ⟨x, hx, hn⟩ => le_trans hn (hle x hx)⟩

theorem ends_iff (action : SyncAction) (here : Path → Bool) :
    (here action.relPath || (fromPath action).any here) ↔
      here action.endpoints.1 ∨ here action.endpoints.2 := by
  rw [Bool.or_eq_true]
  cases action with
  | moveRemote src dst kind uuid => exact or_comm
  | moveLocal src dst kind => exact or_comm
  | _ => simp [fromPath, endpoints]

theorem any_last (order : List (PlanRow σ)) (here : Path → Bool) (n : Nat) :
    (PlanWriter.last order here).any (n ≤ ·) ↔ ∃ y ∈ order.drop n, y.action.isDelete = false ∧
      (here y.action.endpoints.1 ∨ here y.action.endpoints.2) := by
  unfold PlanWriter.last
  rw [any_max?]
  constructor
  · rintro ⟨i, hi, hle⟩
    obtain ⟨⟨y, j⟩, hy, rfl⟩ := mem_map.mp hi
    obtain ⟨hat, hends⟩ := mem_filter.mp hy
    rw [Bool.and_eq_true, ends_iff, Bool.not_eq_true'] at hends
    refine ⟨y, mem_iff_getElem?.mpr ⟨j - n, ?_⟩, hends⟩
    rw [getElem?_drop, Nat.add_sub_cancel' hle]
    exact mk_mem_zipIdx_iff_getElem?.mp hat
  rintro ⟨y, hy, hends⟩
  obtain ⟨k, hk⟩ := mem_iff_getElem?.mp hy
  rw [getElem?_drop] at hk
  refine ⟨n + k, mem_map.mpr ⟨(y, n + k), mem_filter.mpr ⟨mk_mem_zipIdx_iff_getElem?.mpr hk, ?_⟩, rfl⟩,
    Nat.le_add_right n k⟩
  rw [Bool.and_eq_true, ends_iff, Bool.not_eq_true']
  exact hends

theorem any_tieUntil (order : List (PlanRow σ)) (row : PlanRow σ) (n : Nat) :
    (PlanWriter.tieUntil order row).any (n ≤ ·) ↔ ∃ y ∈ order.drop n, Ties row y := by
  unfold PlanWriter.tieUntil Ties
  cases hmoved : movedDir row.action with
  | some dir =>
    have hkeeps : row.action.isDelete = false := by
      cases hrow : row.action <;> first | rfl | simp [hrow, movedDir] at hmoved
    dsimp only
    rw [any_last]
    simp [hkeeps, PlanWriter.under, mem_subtreeBounds]
  | none =>
    dsimp only
    split
    · next hflip =>
      rw [any_last]
      simp [hflip]
    next hno =>
    refine ⟨nofun, ?_⟩
    rintro ⟨y, -, -, ⟨hdeletes, hrun, -⟩ | ⟨dir, hdir, -⟩⟩
    · exact absurd ⟨hrun, hdeletes⟩ hno
    · cases hdir

/-! ## What holds of every plan -/

theorem lt_countP_iff {α : Type} {f : α → Nat} {l : List α} (hsorted : l.Pairwise fun a b => f a ≤ f b) (n : Nat)
    {i : Nat} {x : α} (hx : l[i]? = some x) : i < l.countP (f · < n) ↔ f x < n := by
  induction l generalizing i with
  | nil => cases hx
  | cons a l ih =>
    obtain ⟨hle, hrest⟩ := pairwise_cons.mp hsorted
    rw [countP_cons]
    by_cases ha : f a < n
    · rw [if_pos (decide_eq_true ha)]
      cases i with
      | zero =>
        cases hx
        exact iff_of_true (Nat.succ_pos _) ha
      | succ i => exact Nat.succ_lt_succ_iff.trans (ih hrest hx)
    have hall : ∀ b ∈ a :: l, ¬ f b < n := by
      intro b hb
      rcases mem_cons.mp hb with rfl | hb
      · exact ha
      · exact fun hlt => ha (lt_of_le_of_lt (hle b hb) hlt)
    rw [if_neg (by simpa using ha), countP_eq_zero.mpr fun b hb => by simpa using hall b (mem_cons_of_mem _ hb)]
    exact iff_of_false (Nat.not_lt_zero i) (hall x (mem_of_getElem? hx))

theorem Finished.runAt (h : Finished entries order plan) {ord : Nat} (hrow : order[ord]? = some row) :
    plan.runAt ord = row.run := by
  have hcodes : order.Pairwise fun a b => a.run.code ≤ b.run.code :=
    h.sorted.imp fun hle => (key_le hle).elim le_of_lt fun heq => le_of_eq heq.1
  have hone : plan.before = order.countP (·.run.code < 1) := by
    rw [h.before]
    exact countP_congr fun row _ => by cases row.run <;> decide
  have htwo : plan.before + plan.transfers = order.countP (·.run.code < 2) := by
    rw [h.before, h.transfers]
    exact (countP_add fun row _ => by cases row.run <;> rfl).symm
  unfold StagedPlan.runAt
  rw [htwo, hone]
  simp only [lt_countP_iff hcodes _ hrow]
  cases row.run <;> rfl

theorem Finished.not_upload (h : Finished entries order plan) (hrow : row ∈ order) (hnot : row.run ≠ .transfers) :
    isUpload row.action = false := by
  have hrun := h.run row hrow
  cases haction : row.action with
  | uploadFile p =>
    rw [haction] at hrun
    exact absurd (hrun.trans (if_neg fun hdeletes => nomatch hdeletes.1)) hnot
  | _ => rfl

end Ties

/-- A plan of `entries` in the order it is applied: each once, in its run and at
its place there. -/
structure InOrder {σ : Type} (entries : List (PlannedEntry σ)) (plan : StagedPlan σ) : Prop where
  once : (plan.exec.map fun x => (x.1.entry, x.1.seq)).Perm entries.zipIdx
  runs : plan.exec.Pairwise fun x y => x.1.run.code ≤ y.1.run.code
  planned : plan.exec.Pairwise fun x y => x.1.run = y.1.run → x.1.run ≠ .transfers → x.1.seq < y.1.seq
  flips : ∀ x ∈ plan.exec, x.1.run = if x.1.action.isDelete = true ∧
    ∃ entry ∈ entries, entry.action.isCreate = true ∧ entry.action.relPath = x.1.action.relPath
    then .before else Run.of x.1.action

/-- A plan is staged in order, and what is handed out of it may let go of the
drive lock exactly where no compound step begun before takes in an entry still
to come. -/
theorem releases_between_compounds {σ : Type} (entries : List (PlannedEntry σ)) (calls : List Call) :
    let plan := (entries.foldl PlanWriter.push .new).finish
    InOrder entries plan ∧ ∀ k staged, (calls.foldl Pager.call (plan.pager, [])).2[k]? = some staged →
      ∃ x, plan.exec[k]? = some x ∧ staged.entry = x.1.entry ∧ staged.run = x.1.run ∧
        (staged.releasable ↔ ∀ e ∈ plan.exec.take k, ∀ y ∈ plan.exec.drop k, ¬ Ties e.1 y.1) := by
  obtain ⟨order, h⟩ := finished (written entries)
  generalize (entries.foldl PlanWriter.push .new).finish = plan at h ⊢
  refine ⟨⟨?_, ?_, ?_, ?_⟩, fun k staged hk => ?_⟩
  · rw [h.exec, map_map]
    exact h.once
  · rw [h.exec, pairwise_map]
    exact h.sorted.imp fun hle => (key_le hle).elim le_of_lt fun heq => le_of_eq heq.1
  · rw [h.exec, pairwise_map]
    have hseq : order.Pairwise fun a b => a.seq ≠ b.seq := by
      have hplaces := (h.once.map Prod.snd).nodup_iff.mpr (by rw [zipIdx_map_snd]; exact nodup_range')
      rw [map_map] at hplaces
      exact pairwise_map.mp hplaces
    refine (h.sorted.and hseq).imp_of_mem fun {a b} ha hb hboth hrun hnot => ?_
    have hplain := fun row hrow (hrun : row.run ≠ .transfers) => Bool.eq_false_iff.mpr fun hc => hrun (h.completes row hrow hc)
    rcases key_le hboth.1 with hlt | ⟨-, hle⟩
    · rw [hrun] at hlt
      exact absurd hlt (lt_irrefl _)
    refine lt_of_le_of_ne (hle ?_ ?_) hboth.2
    · rw [hplain a ha hnot, hplain b hb (hrun ▸ hnot)]
    · rw [h.not_upload ha hnot, h.not_upload hb (hrun ▸ hnot)]
  · rw [h.exec]
    intro x hx
    obtain ⟨row, hrow, rfl⟩ := mem_map.mp hx
    exact h.run row hrow
  have hlen : plan.len = plan.exec.length := by rw [h.len, h.exec, length_map]
  obtain ⟨x, hx, rfl⟩ := (handing hlen calls).getElem? hk
  have hrow := hx
  rw [h.exec, getElem?_map] at hrow
  obtain ⟨row, hat, rfl⟩ := Option.map_eq_some_iff.mp hrow
  refine ⟨_, hx, rfl, h.runAt hat, ?_⟩
  unfold stagedAt
  rw [Bool.not_eq_true', any_eq_false]
  refine forall₂_congr fun e he => ?_
  rw [h.exec] at he
  obtain ⟨row, -, rfl⟩ := mem_map.mp (mem_of_mem_take he)
  rw [any_tieUntil, h.exec, ← map_drop, forall_mem_map]
  exact ⟨fun hnone y hy hties => hnone ⟨y, hy, hties⟩, fun hall ⟨y, hy, hties⟩ => hall y hy hties⟩

end SyncEngine.PlanStage
