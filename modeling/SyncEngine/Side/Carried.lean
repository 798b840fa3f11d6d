import SyncEngine.Rows

/-! # A side carried by the baseline's rows

A change-scoped pass reads only what changed. What it found is an overlay, a
node where it found one and a tombstone where it found nothing; everywhere else
the row still speaks for the path, through the node it carries. A row stands in
for both sides or for neither.
-/

namespace SyncEngine

open AList List

/-! ## The nodes a row stands in for -/

def writtenNode (entry : BaselineEntry) : Option RemoteNode :=
  entry.remoteUuid.map fun uuid =>
    { relPath := entry.relPath
      kind := entry.kind
      remoteUuid := uuid
      stableUuid := entry.remoteStableUuid
      contentHash := entry.contentHash
      size := entry.size.getD 0
      modifiedMillis := entry.remoteModified.getD 0 }

def extracted (row : BaselineEntry) : Option (LocalNode × RemoteNode) :=
  (writtenNode row).bind fun r =>
    match row.kind with
    | .dir =>
      some ({ relPath := row.relPath
              kind := .dir
              size := 0
              mtimeMillis := row.localMtime.getD 0
              mtimeNanos := 0
              contentHash := none }, r)
    | .file =>
      match row.remoteModified, row.size, row.localMtime, row.contentHash with
      | some _, some size, some mtime, some hash =>
        some ({ relPath := row.relPath
                kind := .file
                size := size
                mtimeMillis := mtime
                mtimeNanos := 0
                contentHash := some hash }, r)
      | _, _, _, _ => none

/-- The two nodes a row stands in for, or neither. -/
def carried (row : BaselineEntry) : Option (LocalNode × RemoteNode) :=
  if row.carryable then extracted row else none

theorem carried_isSome (row : BaselineEntry) : (carried row).isSome = row.carryable := by
  unfold carried
  by_cases hc : row.carryable
  · rw [if_pos hc, hc]
    unfold BaselineEntry.carryable at hc
    unfold extracted writtenNode
    cases hu : row.remoteUuid with
    | none => simp [hu] at hc
    | some uuid =>
      cases hk : row.kind with
      | dir => rfl
      | file =>
        simp only [hk, Bool.and_eq_true, Option.isSome_iff_exists] at hc
        rcases hc.2 with ⟨⟨⟨⟨hash, hhash⟩, size, hsize⟩, mtime, hmtime⟩, modified, hmodified⟩
        simp [hhash, hsize, hmtime, hmodified]
  rw [if_neg hc]
  simp [hc]

/-- One side's half of a row. -/
class FromRow (ν : Type) where
  fromRow : BaselineEntry → Option ν
  setPath : ν → Path → ν
  /-- A row that moved carries the same node at its new path. -/
  fromRow_moved : ∀ row p, fromRow { row with relPath := p } = (fromRow row).map (setPath · p)
  isSome_fromRow : ∀ row, (fromRow row).isSome = row.carryable

theorem carried_moved (row : BaselineEntry) (p : Path) : carried { row with relPath := p } =
    (carried row).map fun nodes => ({ nodes.1 with relPath := p }, { nodes.2 with relPath := p }) := by
  unfold carried extracted writtenNode BaselineEntry.carryable
  dsimp only
  split
  · cases row.remoteUuid with
    | none => rfl
    | some uuid =>
      cases row.kind with
      | dir => rfl
      | file =>
        simp only [Option.map_some, Option.bind_some]
        split <;> rfl
  · rfl

open FromRow

instance : FromRow LocalNode where
  fromRow row := (carried row).map Prod.fst
  setPath node p := { node with relPath := p }
  fromRow_moved row p := by
    rw [carried_moved, Option.map_map, Option.map_map]
    rfl
  isSome_fromRow row := by
    rw [Option.isSome_map, carried_isSome]

instance : FromRow RemoteNode where
  fromRow row := (carried row).map Prod.snd
  setPath node p := { node with relPath := p }
  fromRow_moved row p := by
    rw [carried_moved, Option.map_map, Option.map_map]
    rfl
  isSome_fromRow row := by
    rw [Option.isSome_map, carried_isSome]

/-! ## The overlay -/

inductive Recorded (ν : Type) where
  | node (found : ν)
  | tombstone
  | nothing

/-- What a pass observed: each path is in at most one of the two collections. -/
structure Overlay (ν : Type) where
  nodes : Nodes ν
  gone : List Path
  nodupGone : gone.Nodup
  disjoint : ∀ p ∈ gone, nodes.lookup p = none

namespace Overlay

variable {ν : Type}

def empty : Overlay ν := ⟨∅, [], nodup_nil, by simp⟩

def get (o : Overlay ν) (path : Path) : Recorded ν :=
  match o.nodes.lookup path with
  | some node => .node node
  | none => if o.gone.contains path then .tombstone else .nothing

/-- Whether the pass recorded anything at `path`. -/
def records (o : Overlay ν) (path : Path) : Bool :=
  match o.get path with
  | .nothing => false
  | _ => true

/-- Take whatever is recorded at `path` out. -/
def forget (o : Overlay ν) (path : Path) : Overlay ν where
  nodes := o.nodes.erase path
  gone := o.gone.filter fun p => p ≠ path
  nodupGone := o.nodupGone.filter _
  disjoint := by
    intro p hp
    have hmem := mem_filter.mp hp
    have hne : p ≠ path := by simpa using hmem.2
    rw [lookup_erase_ne hne]
    exact o.disjoint p hmem.1

/-- Record `node` at `path`, over whatever was recorded there. -/
def put (o : Overlay ν) (path : Path) (node : ν) : Overlay ν where
  nodes := o.nodes.insert path node
  gone := o.gone.filter fun p => p ≠ path
  nodupGone := o.nodupGone.filter _
  disjoint := by
    intro p hp
    have hmem := mem_filter.mp hp
    have hne : p ≠ path := by simpa using hmem.2
    rw [lookup_insert_ne hne]
    exact o.disjoint p hmem.1

/-- Record that nothing is at `path`, over whatever was recorded there. -/
def tombstone (o : Overlay ν) (path : Path) : Overlay ν where
  nodes := o.nodes.erase path
  gone := path :: o.gone.filter fun p => p ≠ path
  nodupGone := nodup_cons.mpr ⟨by simp, o.nodupGone.filter _⟩
  disjoint := by
    intro p hp
    by_cases hpath : p = path
    · rw [hpath]
      exact lookup_erase _ _
    have hmem := mem_filter.mp ((mem_cons.mp hp).resolve_left hpath)
    rw [lookup_erase_ne hpath]
    exact o.disjoint p hmem.1

def paths (o : Overlay ν) : List Path := o.nodes.keys ++ o.gone

theorem get_forget (o : Overlay ν) (path p : Path) :
    (o.forget path).get p = if p = path then .nothing else o.get p := by
  unfold get forget
  by_cases h : p = path
  · subst h
    simp
  · simp [h, lookup_erase_ne h]

theorem get_put (o : Overlay ν) (path : Path) (node : ν) (p : Path) :
    (o.put path node).get p = if p = path then .node node else o.get p := by
  unfold get put
  by_cases h : p = path
  · subst h
    simp
  · simp [h, lookup_insert_ne h]

theorem get_tombstone (o : Overlay ν) (path p : Path) :
    (o.tombstone path).get p = if p = path then .tombstone else o.get p := by
  unfold get tombstone
  by_cases h : p = path
  · subst h
    simp
  · simp [h, lookup_erase_ne h]

theorem records_eq_false {o : Overlay ν} {p : Path} : o.records p = false ↔ o.get p = .nothing := by
  unfold records
  cases o.get p <;> simp

theorem mem_paths {o : Overlay ν} {p : Path} : p ∈ o.paths ↔ o.records p := by
  unfold paths records get
  rw [mem_append]
  cases hl : o.nodes.lookup p with
  | some node =>
    have hkey : p ∈ o.nodes.keys := lookup_isSome.mp (by simp [hl])
    simp [hkey]
  | none =>
    have hkey : p ∉ o.nodes.keys := lookup_eq_none.mp hl
    by_cases hg : p ∈ o.gone
    · simp [hg]
    · simp [hkey, hg]

end Overlay

/-! ## What a carried side answers -/

section Carried

variable {ν : Type} [FromRow ν]

/-- The node a carried side holds at `path`: the overlay's, nothing where it
has a tombstone, else the row's. -/
def carriedAt (o : Overlay ν) (b : Baseline) (path : Path) : Option ν :=
  match o.get path with
  | .node node => some node
  | .tombstone => none
  | .nothing => (b.get path).bind fromRow

/-- The nodes a walk of a carried side visits: those derived from its rows, then
the overlay's in their own order. -/
def carriedEntries (o : Overlay ν) (b : Baseline) : List (Path × ν) :=
  (b.rows.filterMap fun row =>
    if o.records row.relPath then none
    else (fromRow row).map fun node => (row.relPath, node)) ++ o.nodes.iter

theorem mem_carriedRows {o : Overlay ν} {b : Baseline} {p : Path} {node : ν} :
    (p, node) ∈ (b.rows.filterMap fun row =>
        if o.records row.relPath then none
        else (fromRow row).map fun node => (row.relPath, node)) ↔
      o.records p = false ∧ (b.get p).bind fromRow = some node := by
  rw [mem_filterMap]
  constructor
  · intro h
    rcases h with ⟨row, hrow, heq⟩
    split at heq
    · cases heq
    rename_i hrec
    rcases Option.map_eq_some_iff.mp heq with ⟨n, hn, hpair⟩
    cases hpair
    exact ⟨by simpa using hrec, by simp [Baseline.get_of_mem hrow, hn]⟩
  intro h
  rcases Option.bind_eq_some_iff.mp h.2 with ⟨row, hget, hnode⟩
  have hp := Baseline.get_relPath hget
  refine ⟨row, Baseline.mem_rows_of_get hget, ?_⟩
  rw [hp, h.1]
  simp [hnode]

theorem nodup_carriedEntries (o : Overlay ν) (b : Baseline) :
    ((carriedEntries o b).map Prod.fst).Nodup := by
  unfold carriedEntries
  rw [map_append, nodup_append]
  refine ⟨?_, o.nodes.nodup_paths, ?_⟩
  · refine List.Nodup.sublist ?_ b.nodup_relPaths
    rw [map_filterMap]
    induction b.rows with
    | nil => simp
    | cons row rows ih =>
      rw [filterMap_cons, map_cons]
      split
      · exact ih.cons _
      rename_i q hq
      rcases Option.map_eq_some_iff.mp hq with ⟨e, he, hpath⟩
      split at he
      · cases he
      rcases Option.map_eq_some_iff.mp he with ⟨n, -, hpair⟩
      have heq : q = row.relPath := by rw [← hpath, ← hpair]
      rw [heq]
      exact ih.cons_cons _
  intro p hp q hq heq
  subst heq
  rcases mem_map.mp hp with ⟨⟨p', node⟩, hmem, hfst⟩
  have hunrec := (mem_carriedRows.mp hmem).1
  rcases mem_map.mp hq with ⟨⟨q', found⟩, hmem', hfst'⟩
  have hlook := Nodes.mem_iter.mp hmem'
  dsimp only at hfst hfst'
  rw [hfst] at hunrec
  rw [hfst'] at hlook
  unfold Nodes.nodeAt at hlook
  simp [Overlay.records, Overlay.get, hlook] at hunrec

def carriedSide (o : Overlay ν) (b : Baseline) : Nodes ν :=
  Nodes.ofList (carriedEntries o b) (nodup_carriedEntries o b)

theorem nodeAt_carriedSide (o : Overlay ν) (b : Baseline) (p : Path) :
    (carriedSide o b).nodeAt p = carriedAt o b p := by
  refine Option.ext fun node => ?_
  rw [← Nodes.mem_iter]
  unfold carriedSide
  rw [Nodes.iter_ofList]
  unfold carriedEntries
  rw [mem_append, mem_carriedRows, Nodes.mem_iter, Overlay.records_eq_false]
  unfold carriedAt Nodes.nodeAt Overlay.get
  cases hl : o.nodes.lookup p with
  | some found => simp
  | none =>
    by_cases hg : p ∈ o.gone
    · simp [hg]
    · simp [hg]

end Carried

end SyncEngine
