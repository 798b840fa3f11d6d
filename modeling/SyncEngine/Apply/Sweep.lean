import SyncEngine.Apply.Run
import SyncEngine.DirMoves.Rooted
import SyncEngine.Plan.Deletions

/-! # What the deletion of a directory takes down

A directory is decided by its own row, and its deletion takes its whole subtree.
The deletion is refused over anything the pass wrote, so what it takes down is
what the pass found there; whether that was all as the rows record it is a
matter of the inputs, and nothing the plan checks.
-/

namespace SyncEngine

open Collections SyncAction Nodes

/-- The deletion of a directory, when it runs and is not refused, takes down
only items the pass found as their rows record them and in no conflict. -/
def SweepsKept (fold : CaseFold) (b : Baseline) (l : Nodes LocalNode) (r : Nodes RemoteNode)
    (plan : Plan) (s : Applied) : SyncAction → Prop
  | deleteLocal d .dir =>
    s.shieldsLocal fold d = false → ∀ p item, isUnder p d = true → s.l p = some item →
      ∃ o, item = .found o ∧ KeptLocal b l o ∧ conflict o ∉ plan.actions
  | trashRemote d .dir uuid =>
    s.shieldsRemote fold d uuid = false → ∀ p item, isUnder p d = true → s.r p = some item →
      ∃ o, item = .found o ∧ KeptRemote b r o ∧ conflict o ∉ plan.actions
  | _ => True

/-- Every run of a two-way plan, whichever of its actions fail, sweeps away only
what the pass found unchanged. -/
def NeverSweepsChanges (fold : CaseFold) (b : Baseline) (l : Nodes LocalNode)
    (r : Nodes RemoteNode) : Prop :=
  ∀ before a after s,
    execOrder (reconcile .twoWay b l r .none .whole).actions = before ++ a :: after →
    Applies fold before (Applied.start l r) s →
      SweepsKept fold b l r (reconcile .twoWay b l r .none .whole) s a

section Run

variable {fold : CaseFold} {b : Baseline} {l : WholeSide LocalNode} {r : WholeSide RemoteNode}

theorem applies_failing (actions : List SyncAction) (s : Applied) : Applies fold actions s s := by
  induction actions with
  | nil => exact .done s
  | cons a actions ih => exact .failed ih

/-- What a planned deletion sweeps where every action before it failed. -/
theorem NeverSweepsChanges.planned {l : Nodes LocalNode} {r : Nodes RemoteNode} {a : SyncAction}
    (h : NeverSweepsChanges fold b l r) (ha : a ∈ (reconcile .twoWay b l r .none .whole).actions) :
    SweepsKept fold b l r (reconcile .twoWay b l r .none .whole) (Applied.start l r) a := by
  obtain ⟨before, after, horder⟩ := List.append_of_mem (mem_execOrder.mpr ha)
  exact h before a after _ horder (applies_failing before _)

end Run

end SyncEngine
