import SyncEngine.Side.Carried

/-! # A directory move under both sides of a pass

One side is re-keyed, the other stays where it is, and the rows move beneath
both. A whole side is a map and either follows the move or ignores it. A
carried side answers from the very rows that move, so following means re-keying
only what the pass recorded, and staying means recording what the rows are
about to take away.
-/

namespace SyncEngine

open FromRow BaselineEntry List

/-! ## The rows -/

/-- Rows as a baseline, sorted by path. -/
def Baseline.ofRows (rows : List BaselineEntry)
    (h : (rows.map relPath).Nodup) : Baseline where
  rows := rows.insertionSort fun r s => r.relPath ≤ s.relPath
  sorted := by
    have hmap := map_insertionSort (fun r s : BaselineEntry => r.relPath ≤ s.relPath)
      (fun p q : Path => p ≤ q) relPath rows (fun _ _ _ _ => Iff.rfl)
    rw [hmap]
    have hle := pairwise_insertionSort (fun p q : Path => p ≤ q)
      (rows.map relPath)
    have hnd := (perm_insertionSort (fun p q : Path => p ≤ q)
      (rows.map relPath)).nodup_iff.mpr h
    exact (hle.and hnd).imp fun h => lt_of_le_of_ne h.1 h.2

theorem Baseline.mem_ofRows {rows : List BaselineEntry}
    {h : (rows.map relPath).Nodup} {row : BaselineEntry} :
    row ∈ (Baseline.ofRows rows h).rows ↔ row ∈ rows :=
  mem_insertionSort _

namespace Baseline

/-- The rows at or under `src`, each at the path it lands on. -/
def movingRows (b : Baseline) (src dst : Path) : List BaselineEntry :=
  b.rows.filterMap fun row =>
    (movedPath row.relPath src dst).map fun p => { row with relPath := p }

/-- The rows a move leaves where they are: neither its sources nor the rows it
lands on. -/
def stayingRows (b : Baseline) (src dst : Path) : List BaselineEntry :=
  b.rows.filter fun row =>
    !(movedPath row.relPath src dst).isSome &&
      !((b.movingRows src dst).map relPath).contains row.relPath

theorem mem_movingRows {b : Baseline} {src dst : Path} {out : BaselineEntry} :
    out ∈ b.movingRows src dst ↔
      ∃ row ∈ b.rows, movedPath row.relPath src dst = some out.relPath ∧
        out = { row with relPath := out.relPath } := by
  unfold movingRows
  rw [mem_filterMap]
  constructor
  · intro h
    rcases h with ⟨row, hrow, heq⟩
    rcases Option.map_eq_some_iff.mp heq with ⟨p, hp, hout⟩
    subst hout
    exact ⟨row, hrow, hp, rfl⟩
  intro h
  rcases h with ⟨row, hrow, hp, hout⟩
  exact ⟨row, hrow, by rw [hp, Option.map_some, ← hout]⟩

theorem nodup_moved (b : Baseline) (src dst : Path) :
    ((b.stayingRows src dst ++ b.movingRows src dst).map relPath).Nodup := by
  rw [map_append, nodup_append]
  refine ⟨?_, ?_, ?_⟩
  · exact (b.nodup_relPaths).sublist (filter_sublist.map _)
  · -- distinct sources land on distinct paths
    have hnd : (b.rows.filterMap fun row => movedPath row.relPath src dst).Nodup := by
      have hmap : (b.rows.filterMap fun row => movedPath row.relPath src dst) =
          (b.rows.map relPath).filterMap fun p => movedPath p src dst := by
        rw [filterMap_map]
        rfl
      rw [hmap]
      exact b.nodup_relPaths.filterMap fun p q out hp hq => movedPath_injective hp hq
    have hpaths : (b.movingRows src dst).map relPath =
        b.rows.filterMap fun row => movedPath row.relPath src dst := by
      unfold movingRows
      rw [map_filterMap]
      refine filterMap_congr fun row _ => ?_
      cases movedPath row.relPath src dst <;> rfl
    rw [hpaths]
    exact hnd
  intro p hp q hq heq
  subst heq
  rcases mem_map.mp hp with ⟨row, hrow, hrp⟩
  have hkeep := (Bool.and_eq_true_iff.mp (mem_filter.mp hrow).2).2
  rw [hrp, contains_iff_mem.mpr hq] at hkeep
  cases hkeep

/-- Re-key the rows at and under `src` to sit under `dst`, over whatever sits at
each landing path; the rest of the destination's subtree stays. -/
def moveSubtree (b : Baseline) (src dst : Path) : Baseline :=
  if src = [] ∨ dst = [] ∨ src = dst then b
  else ofRows (b.stayingRows src dst ++ b.movingRows src dst) (b.nodup_moved src dst)

/-- What sits at a path after a move: the row that landed there, nothing where
a row left, else what was there. -/
theorem get_moveSubtree {b : Baseline} {src dst : Path} (hs : src ≠ []) (hd : dst ≠ []) (hne : src ≠ dst) (p : Path) :
    (b.moveSubtree src dst).get p =
      match (movedPath p dst src).bind b.get with
      | some row => some { row with relPath := p }
      | none => if AtOrUnder p src then none else b.get p := by
  have hmove : b.moveSubtree src dst =
      ofRows (b.stayingRows src dst ++ b.movingRows src dst) (b.nodup_moved src dst) :=
    if_neg (by simp [hs, hd, hne])
  have hmem : ∀ row, (b.moveSubtree src dst).get p = some row ↔
      (row ∈ b.stayingRows src dst ∨ row ∈ b.movingRows src dst) ∧ row.relPath = p := by
    intro row
    rw [get_eq_some_iff, hmove, mem_ofRows, mem_append]
  have hland : ∀ row, row ∈ b.movingRows src dst ∧ row.relPath = p ↔
      ∃ old, (movedPath p dst src).bind b.get = some old ∧ row = { old with relPath := p } := by
    intro row
    rw [mem_movingRows]
    constructor
    · intro h
      rcases h with ⟨⟨old, hold, hp, hout⟩, hrp⟩
      rw [hrp] at hp hout
      refine ⟨old, ?_, hout⟩
      rw [movedPath_symm.mp hp, Option.bind_some]
      exact get_of_mem hold
    intro h
    rcases h with ⟨old, hold, hout⟩
    rcases Option.bind_eq_some_iff.mp hold with ⟨q, hq, hget⟩
    have hrp : row.relPath = p := by rw [hout]
    refine ⟨⟨old, mem_rows_of_get hget, ?_, ?_⟩, hrp⟩
    · rw [get_relPath hget, hrp]
      exact movedPath_symm.mp hq
    rw [hrp]
    exact hout
  refine Option.ext fun row => ?_
  rw [hmem]
  cases hold : (movedPath p dst src).bind b.get with
  | some old =>
    constructor
    · intro h
      rcases h with ⟨hstay | hmoving, hrp⟩
      · -- a row stays only where none lands
        have hkeep := (mem_filter.mp hstay).2
        have hlanded := (hland { old with relPath := p }).mpr ⟨old, hold, rfl⟩
        have hin : row.relPath ∈ (b.movingRows src dst).map relPath := by
          rw [hrp]
          exact mem_map.mpr ⟨_, hlanded.1, rfl⟩
        simp [hin] at hkeep
      rcases (hland row).mp ⟨hmoving, hrp⟩ with ⟨old', hold', hout⟩
      rw [hold] at hold'
      cases hold'
      rw [hout]
    intro h
    have heq : row = { old with relPath := p } := (Option.some.inj h).symm
    have hlanded := (hland row).mpr ⟨old, hold, heq⟩
    exact ⟨Or.inr hlanded.1, hlanded.2⟩
  | none =>
    dsimp only
    have hno : ∀ row, row ∈ b.movingRows src dst → row.relPath ≠ p := by
      intro row hrow hrp
      rcases (hland row).mp ⟨hrow, hrp⟩ with ⟨old, hold', -⟩
      rw [hold] at hold'
      cases hold'
    have hfree : p ∉ (b.movingRows src dst).map relPath := by
      intro hin
      rcases mem_map.mp hin with ⟨row, hrow, hrp⟩
      exact hno row hrow hrp
    constructor
    · intro h
      rcases h with ⟨hstay | hmoving, hrp⟩
      · have hkeep := mem_filter.mp hstay
        have hnot : ¬ AtOrUnder p src := by
          rw [← hrp, ← @movedPath_eq_none _ _ dst]
          simpa using (Bool.and_eq_true_iff.mp hkeep.2).1
        rw [if_neg hnot]
        exact get_eq_some_iff.mpr ⟨hkeep.1, hrp⟩
      · exact absurd hrp (hno row hmoving)
    intro h
    split at h
    · cases h
    rename_i hnot
    have hget := get_eq_some_iff.mp h
    refine ⟨Or.inl (mem_filter.mpr ⟨hget.1, ?_⟩), hget.2⟩
    rw [hget.2, movedPath_eq_none.mpr hnot]
    simpa using hfree

end Baseline

namespace Nodes

variable {ν : Type} [FromRow ν]

def rekeyOne (side : Nodes ν) (pair : Path × Path) : Nodes ν :=
  match side.lookup pair.1 with
  | none => side
  | some node => (side.erase pair.1).insert pair.2 (setPath node pair.2)

/-- The paths of a list at or under `src`, each with where it lands. -/
def movingPaths (paths : List Path) (src dst : Path) : List (Path × Path) :=
  paths.filterMap fun p => (movedPath p src dst).map fun q => (p, q)

/-- Move the subtree at `src`, the node at `src` included, onto `dst`. -/
def rekeySubtree (side : Nodes ν) (src dst : Path) : Nodes ν :=
  (movingPaths side.paths src dst).foldl rekeyOne side

end Nodes

def subtreeCap : Nat := 16384

def pastCap (count cap : Nat) : Bool := decide (cap < count)

namespace Overlay

variable {ν : Type} [FromRow ν]

def rekeyOne (o : Overlay ν) (pair : Path × Path) : Overlay ν :=
  match o.get pair.1 with
  | .node node => (o.forget pair.1).put pair.2 (setPath node pair.2)
  | .tombstone => (o.forget pair.1).tombstone pair.2
  | .nothing => o

/-- The recorded paths a row lands on: those with a row at the same place under
`src`. -/
def landingPaths (o : Overlay ν) (b : Baseline) (src dst : Path) : List Path :=
  o.paths.filter fun key => (movedPath key dst src).any b.containsKey

/-- Re-key what the pass recorded at and under `src`. The rows move by
themselves, and supersede what was recorded where they land. -/
def rekeySubtree (o : Overlay ν) (b : Baseline) (src dst : Path) : Overlay ν :=
  let moving := Nodes.movingPaths o.paths src dst
  let cleared := (o.landingPaths b src dst).foldl forget o
  moving.foldl rekeyOne cleared

/-- Record, before one row moves, what this side answers at both its ends. -/
def stayPutRow (b : Baseline) (src dst : Path) (state : Overlay ν × List Path)
    (row : BaselineEntry) : Overlay ν × List Path :=
  match movedPath row.relPath src dst with
  | none => state
  | some landing =>
    -- Each landing path comes up once, so the row there is read from the rows as they stand.
    let landed :=
      if state.1.records landing then state
      else
        match (b.get landing).bind fromRow with
        | some node => (state.1.put landing node, state.2 ++ [landing])
        | none => (state.1.tombstone landing, state.2 ++ [landing])
    if landed.1.records row.relPath then landed
    else
      match fromRow row with
      | some node => (landed.1.put row.relPath node, landed.2 ++ [row.relPath])
      | none => landed

/-- Keep this side where it is while the rows at and under `src` move onto
`dst`, handing back the paths recorded; `none`, with nothing recorded, where the
two subtrees are past the cap. -/
def stayPut (o : Overlay ν) (b : Baseline) (src dst : Path) : Overlay ν × Option (List Path) :=
  if pastCap (b.countSubtree src + b.countSubtree dst) subtreeCap then (o, none)
  else
    let moving := (b.get src).toList ++ b.subtree src
    let out := moving.foldl (stayPutRow b src dst) (o, [])
    (out.1, some out.2)

end Overlay

end SyncEngine
