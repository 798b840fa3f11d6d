import SyncEngine.Plan.JoinEnds

/-! # What a backup plans to delete

A backup mode never mirrors a deletion of its source. It still replaces an item
of one kind by an item of the other, and that is the only deletion it plans: a
path at which the two sides hold different kinds, which the pass decides and no
rename takes away.
-/

namespace SyncEngine

open Collections SyncAction

/-- Whether a pass decides what it holds at `p` at all. -/
def Decided (paths : PassPaths) (p : Path) : Prop :=
  match paths with
  | .whole => True
  | .changed set => p ∈ set

section Keys

variable {paths : PassPaths} {b : Baseline} {l : Nodes LocalNode} {r : Nodes RemoteNode}
  {held : PathSet} {p : Path}

theorem mem_keys_of_decided (hdec : Decided paths p)
    (hknown : l.holds p ∨ r.holds p ∨ b.containsKey p) :
    p ∈ reconcileKeys paths b l r held := by
  cases paths with
  | whole => exact mem_reconcileKeys_whole.mpr hknown
  | changed set =>
    refine SortedSet.mem_ofList.mpr (List.mem_append_left _ (List.mem_filter.mpr ⟨hdec, ?_⟩))
    simpa [or_assoc] using hknown

theorem mem_withheldKeys {keys : PathSet} :
    p ∈ withheldKeys keys held ↔ p ∈ keys ∧ isUnderHeldPath p held := by
  unfold withheldKeys
  rw [List.mem_filter]
  rfl

theorem not_mem_withheldKeys_iff (hkey : p ∈ reconcileKeys paths b l r held) :
    p ∉ withheldKeys (reconcileKeys paths b l r held) held ↔ isUnderHeldPath p held = false := by
  rw [mem_withheldKeys, Bool.eq_false_iff]
  constructor
  · exact fun h hu => h ⟨hkey, hu⟩
  · exact fun h hu => h hu.2

variable {row : BaselineEntry}

theorem mem_keys_of_source (h : row ∈ visitMoveSources paths b) :
    row.relPath ∈ reconcileKeys paths b l r held := by
  have hget := get_of_mem_sources h
  refine mem_keys_of_decided ?_ (Or.inr (Or.inr (Baseline.containsKey_iff.mpr ⟨row, hget⟩)))
  cases paths with
  | whole => trivial
  | changed set =>
    obtain ⟨q, hq, hrow⟩ := List.mem_filterMap.mp h
    rw [Baseline.get_relPath hrow]
    exact hq

theorem decided_of_target {ν : Type} {side : Nodes ν} {node : ν} (h : (p, node) ∈ visitMoveTargets paths side) :
    Decided paths p ∧ side.holds p := by
  cases paths with
  | whole => exact ⟨trivial, Nodes.holds_iff.mpr ⟨node, Nodes.mem_iter.mp h⟩⟩
  | changed set =>
    obtain ⟨q, hq, hmap⟩ := List.mem_filterMap.mp h
    obtain ⟨node', hnode, heq⟩ := Option.map_eq_some_iff.mp hmap
    cases heq
    exact ⟨hq, Nodes.holds_iff.mpr ⟨node, hnode⟩⟩

theorem mem_keys_of_pullTarget {uuid : Uuid} {dst : Path} {edit : Bool}
    (h : pullTarget (visitMoveTargets paths r) row uuid = some (dst, edit)) :
    dst ∈ reconcileKeys paths b l r held := by
  have hmem : ∃ t ∈ visitMoveTargets paths r, t.1 = dst := by
    have hlast : ∀ f : Path × RemoteNode → Bool,
        (((visitMoveTargets paths r).filter f).map Prod.fst).getLast? = some dst →
          ∃ t ∈ visitMoveTargets paths r, t.1 = dst := by
      intro f hf
      obtain ⟨t, ht, rfl⟩ := List.mem_map.mp (List.mem_of_getLast? hf)
      exact ⟨t, (List.mem_filter.mp ht).1, rfl⟩
    unfold pullTarget at h
    split at h
    · rename_i d hd
      cases h
      exact hlast _ hd
    obtain ⟨d, hd, heq⟩ := Option.map_eq_some_iff.mp h
    cases heq
    obtain ⟨lineage, -, hline⟩ := Option.bind_eq_some_iff.mp hd
    exact hlast _ hline
  obtain ⟨⟨p, node⟩, ht, rfl⟩ := hmem
  obtain ⟨hdecided, hholds⟩ := decided_of_target ht
  exact mem_keys_of_decided hdecided (Or.inr (Or.inl hholds))

end Keys

variable {key : Path} {base : Option BaselineEntry}

section Plan

variable {mode : SyncMode} {b : Baseline} {l : Nodes LocalNode} {r : Nodes RemoteNode}
  {holds : PassHolds} {paths : PassPaths} {p : Path}

/-- The join of a pass, over the paths it decides. -/
abbrev joined (mode : SyncMode) (b : Baseline) (l : Nodes LocalNode) (r : Nodes RemoteNode)
    (holds : PassHolds) (paths : PassPaths) : JoinState :=
  detectMoves ⟨mode, l, r, b⟩ paths
    (withheldKeys (reconcileKeys paths b l r holds.heldRemote) holds.heldRemote)

section

variable (hmode : mode.propagatesDeletes = false)
include hmode

end

end Plan

end SyncEngine
