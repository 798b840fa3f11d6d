import SyncEngine.Plan.Decide
import SyncEngine.Plan.MoveJoin

/-! # Reconciling the three inputs

The rows, the local side and the remote side become one ordered plan: the held
paths are withheld, the move join takes its endpoints, every other path is
decided on its own, and the tail orders what is left: deletions of items already
in the trash are deferred, and everything under a conflict is dropped.
-/

namespace SyncEngine

open Collections SyncAction

/-! ## The tail -/

/-- A deletion of a remote item this engine already sent to the trash. -/
def alreadyTrashed (a : SyncAction) (trashed : List Uuid) : Bool :=
  match a with
  | trashRemote _ _ uuid => trashed.contains uuid
  | _ => false

def conflictedPaths (actions : List SyncAction) : List Path :=
  actions.filterMap fun
    | conflict p => some p
    | _ => none

/-- Whether an end of the action sits under a conflict; a conflict itself never
does. -/
def underConflict (a : SyncAction) (conflicted : List Path) : Bool :=
  !a.isConflict &&
    conflicted.any fun c => isUnder a.endpoints.1 c || isUnder a.endpoints.2 c

def suppressConflictedSubtrees (actions : List SyncAction) : List SyncAction :=
  let conflicted := conflictedPaths actions
  if conflicted.isEmpty then actions else actions.filter fun a => !underConflict a conflicted

def phaseDirMove : Nat := 0
def phaseFileReplaceDelete : Nat := 1
def phaseCreate : Nat := 2
def phaseMove : Nat := 3
def phaseDirReplaceDelete : Nat := 4
def phaseTransfer : Nat := 5
def phaseDelete : Nat := 6
def phaseConflict : Nat := 7

/-- The paths a deletion of this pass empties and a create of it fills again.
The smaller side is indexed and probed with the other. -/
def replacedPaths (actions : List SyncAction) : List Path :=
  let deletions := (actions.filter SyncAction.isDelete).map SyncAction.relPath
  let creates := (actions.filter SyncAction.isCreate).map SyncAction.relPath
  if deletions.length ≤ creates.length then creates.filter fun p => deletions.contains p
  else deletions.filter fun p => creates.contains p

/-- The apply phase of an action, lowest first. -/
def actionPhase (a : SyncAction) (replaced : List Path) : Nat :=
  match a with
  | moveRemote _ _ .dir _ | moveLocal _ _ .dir => phaseDirMove
  | deleteLocal p .file | trashRemote p .file _ =>
    if replaced.contains p then phaseFileReplaceDelete else phaseDelete
  | adoptBaseline _ | createLocalDir _ | createRemoteDir _ => phaseCreate
  | moveLocal _ _ .file | moveRemote _ _ .file _ => phaseMove
  | deleteLocal p .dir | trashRemote p .dir _ =>
    if replaced.contains p then phaseDirReplaceDelete else phaseDelete
  | uploadFile _ | downloadFile _ _ => phaseTransfer
  | conflict _ => phaseConflict

/-- Deletes that cascade run child before parent, everything else parent before
child. -/
def actionLe (replaced : List Path) (a b : SyncAction) : Bool :=
  let pa := actionPhase a replaced
  let pb := actionPhase b replaced
  if pa ≠ pb then decide (pa < pb)
  else if pa = phaseDirReplaceDelete ∨ pa = phaseDelete then decide (b.relPath ≤ a.relPath)
  else decide (a.relPath ≤ b.relPath)

def orderActions (actions : List SyncAction) : List SyncAction :=
  actions.insertionSort fun a b => actionLe (replacedPaths actions) a b = true

/-- The plan, from the actions in the order they were planned and the number of
paths deferred. -/
def finishPlan (actions : List SyncAction) (deferredPaths : Nat) (holds : PassHolds) : Plan :=
  let kept := actions.filter fun a => !alreadyTrashed a holds.trashed
  { actions := orderActions (suppressConflictedSubtrees kept)
    deferredPaths := deferredPaths +
      (actions.filter fun a => alreadyTrashed a holds.trashed).length }

variable {actions : List SyncAction}

theorem mem_conflictedPaths {p : Path} :
    p ∈ conflictedPaths actions ↔ conflict p ∈ actions := by
  unfold conflictedPaths
  rw [List.mem_filterMap]
  constructor
  · intro h
    rcases h with ⟨a, ha, hp⟩
    cases a with
    | conflict q =>
      have hq : q = p := by simpa using hp
      exact hq ▸ ha
    | _ => simp at hp
  intro h
  exact ⟨conflict p, h, rfl⟩

theorem suppress_eq_filter (actions : List SyncAction) :
    suppressConflictedSubtrees actions =
      actions.filter fun a => !underConflict a (conflictedPaths actions) := by
  unfold suppressConflictedSubtrees
  by_cases h : (conflictedPaths actions).isEmpty
  · have hnil : conflictedPaths actions = [] := by simpa using h
    rw [if_pos h, hnil]
    simp [underConflict]
  · rw [if_neg h]

theorem mem_finishPlan {n : Nat} {holds : PassHolds} {a : SyncAction} :
    a ∈ (finishPlan actions n holds).actions ↔
      a ∈ actions ∧ alreadyTrashed a holds.trashed = false ∧
        underConflict a (conflictedPaths
          (actions.filter fun a => !alreadyTrashed a holds.trashed)) = false := by
  unfold finishPlan orderActions
  rw [List.mem_insertionSort, suppress_eq_filter, List.mem_filter, List.mem_filter]
  simp only [Bool.not_eq_true']
  constructor
  · intro h
    exact ⟨h.1.1, h.1.2, h.2⟩
  intro h
  exact ⟨⟨h.1, h.2.1⟩, h.2.2⟩

theorem conflict_mem_finishPlan {n : Nat} {holds : PassHolds}
    {p : Path} (h : conflict p ∈ actions) : conflict p ∈ (finishPlan actions n holds).actions :=
  mem_finishPlan.mpr ⟨h, rfl, rfl⟩

/-! ## The plan -/

/-- The paths a reconcile decides, in path order. -/
def reconcileKeys (paths : PassPaths) (b : Baseline) (l : Nodes LocalNode) (r : Nodes RemoteNode)
    (held : PathSet) : PathSet :=
  match paths with
  | .whole =>
    SortedSet.ofList (r.paths ++ l.paths ++
      b.rowPaths.filter fun p => !l.holds p && !r.holds p)
  | .changed set =>
    let known := fun p => l.holds p || r.holds p || b.containsKey p
    SortedSet.ofList (set.toList.filter known ++ held.toList.flatMap fun root =>
      (if known root then [root] else []) ++ (b.subtree root).map BaselineEntry.relPath)

def withheldKeys (keys held : PathSet) : List Path :=
  keys.toList.filter fun key => isUnderHeldPath key held

/-- How many paths the pass withholds: the held paths it does not decide at
all, and the decided ones at or under a held path. -/
def deferredKeys (keys held : PathSet) : Nat :=
  held.count (fun p => !keys.contains p) + (withheldKeys keys held).length

/-- What is planned at every decided path that nothing took, in path order. -/
def decideKeys (mode : SyncMode) (b : Baseline) (l : Nodes LocalNode) (r : Nodes RemoteNode)
    (markedExits : List (Path × MarkedExit)) (keys : List Path) (consumed : List Path) :
    List SyncAction :=
  keys.flatMap fun key =>
    if consumed.contains key then []
    else decidePath mode key (b.get key) markedExits (l.nodeAt key) (r.nodeAt key)

/-- The actions of a reconcile in the order it plans them: the moves, then each
path's. -/
def planActions (mode : SyncMode) (b : Baseline) (l : Nodes LocalNode) (r : Nodes RemoteNode)
    (holds : PassHolds) (paths : PassPaths) : List SyncAction :=
  let keys := reconcileKeys paths b l r holds.heldRemote
  let joined := detectMoves ⟨mode, l, r, b⟩ paths (withheldKeys keys holds.heldRemote)
  joined.1 ++ decideKeys mode b l r holds.markedExits keys.toList joined.2

def reconcile (mode : SyncMode) (b : Baseline) (l : Nodes LocalNode) (r : Nodes RemoteNode)
    (holds : PassHolds) (paths : PassPaths) : Plan :=
  finishPlan (planActions mode b l r holds paths)
    (deferredKeys (reconcileKeys paths b l r holds.heldRemote) holds.heldRemote) holds

theorem mem_reconcileKeys_whole {b : Baseline} {l : Nodes LocalNode} {r : Nodes RemoteNode}
    {held : PathSet} {p : Path} :
    p ∈ reconcileKeys .whole b l r held ↔
      l.holds p ∨ r.holds p ∨ b.containsKey p := by
  simp only [reconcileKeys, SortedSet.mem_ofList, List.mem_append, List.mem_filter,
    Nodes.mem_paths, Baseline.mem_rowPaths, Bool.and_eq_true, Bool.not_eq_true']
  cases l.holds p <;> cases r.holds p <;> simp

end SyncEngine
