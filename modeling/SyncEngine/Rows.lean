import Mathlib.Data.List.AList
import SyncEngine.Model

/-! # Baseline rows and the sides of a pass

The baseline is its rows in path order, one per path. A side is a map from
paths to nodes together with the order a walk of it visits them, which for a
hash map is any order at all; every result about a side therefore holds for
each order its map may be walked in.
-/

namespace SyncEngine

open BaselineEntry List

/-! ## Rows -/

structure Baseline where
  rows : List BaselineEntry
  sorted : (rows.map relPath).Pairwise (· < ·)

namespace Baseline

def empty : Baseline := ⟨[], sorted_nil⟩

def get (b : Baseline) (path : Path) : Option BaselineEntry :=
  b.rows.find? fun row => row.relPath = path

def containsKey (b : Baseline) (path : Path) : Bool := (b.get path).isSome

variable {b : Baseline} {path : Path} {row : BaselineEntry}

theorem get_relPath
    (h : b.get path = some row) : row.relPath = path := by
  have := find?_some h
  simpa using this

theorem mem_rows_of_get
    (h : b.get path = some row) : row ∈ b.rows :=
  mem_of_find?_eq_some h

theorem nodup_relPaths (b : Baseline) : (b.rows.map relPath).Nodup :=
  b.sorted.imp ne_of_lt

theorem relPath_injOn {r s : BaselineEntry} (hr : r ∈ b.rows) (hs : s ∈ b.rows) (h : r.relPath = s.relPath) : r = s :=
  inj_on_of_nodup_map b.nodup_relPaths hr hs h

theorem get_of_mem (h : row ∈ b.rows) :
    b.get row.relPath = some row := by
  cases hget : b.get row.relPath with
  | none =>
    have hnone := find?_eq_none.mp hget row h
    simp at hnone
  | some other =>
    have heq := relPath_injOn (mem_rows_of_get hget) h (get_relPath hget)
    rw [heq]

theorem get_eq_some_iff :
    b.get path = some row ↔ row ∈ b.rows ∧ row.relPath = path := by
  constructor
  · intro h
    exact ⟨mem_rows_of_get h, get_relPath h⟩
  rintro ⟨hm, rfl⟩
  exact get_of_mem hm

theorem containsKey_iff :
    b.containsKey path ↔ ∃ row, b.get path = some row := by
  simp [containsKey, Option.isSome_iff_exists]

def rowPaths (b : Baseline) : List Path := b.rows.map relPath

theorem mem_rowPaths :
    path ∈ b.rowPaths ↔ b.containsKey path := by
  rw [containsKey_iff]
  constructor
  · intro h
    obtain ⟨row, hm, rfl⟩ := mem_map.mp h
    exact ⟨row, get_of_mem hm⟩
  rintro ⟨row, h⟩
  exact mem_map.mpr ⟨row, mem_rows_of_get h, get_relPath h⟩

/-- The rows strictly under `root`, in path order. -/
def subtree (b : Baseline) (root : Path) : List BaselineEntry :=
  b.rows.filter fun row => isUnder row.relPath root

def countSubtree (b : Baseline) (root : Path) : Nat := (b.subtree root).length

/-- Whether the row at `path`, if any, can be carried. -/
def carryable (b : Baseline) (path : Path) : Bool :=
  (b.get path).any BaselineEntry.carryable

def uncarryablePaths (b : Baseline) : List Path :=
  (b.rows.filter fun row => !row.carryable).map relPath

end Baseline

/-- One side of a pass: a node per path, in the order a walk visits them. -/
abbrev Nodes (ν : Type) := AList fun _ : Path => ν

namespace Nodes

variable {ν : Type}

/-- The side walked in the order of `xs`. -/
def ofList (xs : List (Path × ν)) (h : (xs.map Prod.fst).Nodup) : Nodes ν where
  entries := xs.map fun e => ⟨e.1, e.2⟩
  nodupKeys := by
    simpa [List.NodupKeys, List.keys, Function.comp_def] using h

def nodeAt (side : Nodes ν) (path : Path) : Option ν := side.lookup path

def holds (side : Nodes ν) (path : Path) : Bool := (side.nodeAt path).isSome

def iter (side : Nodes ν) : List (Path × ν) := side.entries.map fun e => (e.1, e.2)

@[simp] theorem iter_ofList {xs : List (Path × ν)} (h : (xs.map Prod.fst).Nodup) :
    (ofList xs h).iter = xs := by
  simp [iter, ofList, Function.comp_def]

def paths (side : Nodes ν) : List Path := side.iter.map Prod.fst

theorem paths_eq_keys (side : Nodes ν) : side.paths = side.keys := by
  simp [paths, iter, AList.keys, List.keys, Function.comp_def]

theorem nodup_paths (side : Nodes ν) : side.paths.Nodup := by
  rw [paths_eq_keys]
  exact side.keys_nodup

variable {path : Path} {side : Nodes ν}

theorem mem_iter {node : ν} :
    (path, node) ∈ side.iter ↔ side.nodeAt path = some node := by
  unfold iter nodeAt
  rw [← Option.mem_def, AList.mem_lookup_iff]
  constructor
  · intro h
    obtain ⟨e, he, heq⟩ := mem_map.mp h
    cases heq
    exact he
  intro h
  exact mem_map.mpr ⟨⟨path, node⟩, h, rfl⟩

theorem holds_iff :
    side.holds path ↔ ∃ node, side.nodeAt path = some node := by
  simp [holds, Option.isSome_iff_exists]

theorem holds_eq_false :
    side.holds path = false ↔ side.nodeAt path = none := by
  simp [holds]

theorem mem_paths : path ∈ side.paths ↔ side.holds path := by
  rw [holds_iff]
  constructor
  · intro h
    obtain ⟨⟨p, node⟩, hm, rfl⟩ := mem_map.mp h
    exact ⟨node, mem_iter.mp hm⟩
  rintro ⟨node, h⟩
  exact mem_map.mpr ⟨(path, node), mem_iter.mpr h, rfl⟩

end Nodes

end SyncEngine
