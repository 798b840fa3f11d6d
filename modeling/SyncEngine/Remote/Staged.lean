import Mathlib.Algebra.BigOperators.Group.List.Basic
import Mathlib.Data.PNat.Defs
import SyncEngine.Remote.ViewBuilder

/-! # The view staged on disk

The read copies a snapshot's items into a table. A walk then goes down from the root, a
directory's children a page at a time, and writes each item it can place into a second
table under its path. What it left is handed to the builder, with the directories above
it, to be recorded.
-/

namespace SyncEngine.Remote

open Collections Function List

structure Raw where
  rowid : Nat
  dir : Bool
  /-- The name as the remote spells it, where it is not the item's NFC name. -/
  spelling : Option Name
  item : RemoteItem
deriving DecidableEq

/-- The copied rows, by the order they were written in. -/
structure RawTable where
  rows : List Raw
  ordered : rows.Pairwise fun a b => a.rowid < b.rowid
  numbered : ∀ row ∈ rows, 0 < row.rowid ∧ row.rowid ≤ rows.length

namespace RawTable

def empty : RawTable where
  rows := []
  ordered := List.Pairwise.nil
  numbered _ h := nomatch h

def append (raw : RawTable) (dir : Bool) (spelling : Option Name) (item : RemoteItem) : RawTable where
  rows := raw.rows ++ [{ rowid := raw.rows.length + 1, dir, spelling, item }]
  ordered := by
    refine pairwise_append.mpr ⟨raw.ordered, pairwise_singleton _ _, ?_⟩
    intro row hrow last hlast
    rw [mem_singleton.mp hlast]
    exact Nat.lt_succ_of_le (raw.numbered row hrow).2
  numbered := by
    intro row hrow
    rw [length_append, length_singleton]
    rcases mem_append.mp hrow with hrow | hrow
    · exact ⟨(raw.numbered row hrow).1, Nat.le_succ_of_le (raw.numbered row hrow).2⟩
    rw [mem_singleton.mp hrow]
    exact ⟨Nat.succ_pos _, Nat.le_refl _⟩

/-- The children of a directory after a row, in order. -/
def childrenAfter (raw : RawTable) (parent : Uuid) (after : Nat) : List Raw :=
  raw.rows.filter fun row => row.item.parent = parent ∧ after < row.rowid

def rawDir (raw : RawTable) (uuid : Uuid) : Option (Name × Uuid) :=
  (raw.rows.find? fun row => row.item.uuid = uuid ∧ row.dir = true).map fun row =>
    (row.item.name, row.item.parent)

end RawTable

structure RemoteSink where
  raw : RawTable
  undecodable : List UndecodableItem

namespace RemoteSink

def new : RemoteSink := ⟨RawTable.empty, []⟩

def takeUndecodable (sink : RemoteSink) (items : List UndecodableItem) : RemoteSink :=
  { sink with undecodable := items }

/-- Copy an item: its NFC name, its own spelling where that differs, and of a directory no
lineage, hash or size. -/
def item (scope : Scope) (sink : RemoteSink) (isDir : Bool) (item : RemoteItem) : RemoteSink :=
  let name := scope.nfc item.name
  { sink with
    raw := sink.raw.append isDir (if name ≠ item.name then some item.name else none)
      {
        uuid := item.uuid
        parent := item.parent
        name
        stableUuid := if isDir then none else item.stableUuid
        hash := if isDir then none else item.hash
        size := if isDir then 0 else item.size
        modifiedMillis := item.modifiedMillis
      } }

end RemoteSink

/-! ## Open directories -/

/-- A directory the walk is in, and the page of its children in hand. -/
structure Dir where
  uuid : Uuid
  path : Path
  depth : Nat
  after : Nat
  page : List Raw
  done : Bool

namespace Dir

def new (uuid : Uuid) (path : Path) (depth : Nat) : Dir where
  uuid := uuid
  path := path
  depth := depth
  after := 0
  page := []
  done := false

/-- Read the next page where the one in hand is used up and was not the last. -/
def turn (raw : RawTable) (size : ℕ+) (dir : Dir) : Dir :=
  if dir.page = [] ∧ dir.done = false then
    let rows := (raw.childrenAfter dir.uuid dir.after).take size
    { dir with
      done := decide (rows.length < size)
      after := (rows.getLast?.map (·.rowid)).getD dir.after
      page := rows }
  else dir

def next (raw : RawTable) (size : ℕ+) (dir : Dir) : Option (Raw × Dir) :=
  match (dir.turn raw size).page with
  | [] => none
  | child :: page => some (child, { dir.turn raw size with page })

def remaining (raw : RawTable) (dir : Dir) : List Raw :=
  dir.page ++ if dir.done then [] else raw.childrenAfter dir.uuid dir.after

end Dir

section Turn

variable {raw : RawTable} {size : ℕ+} {dir dir' : Dir} {child : Raw}

theorem childrenAfter_drop {rows : List Raw} {last : Raw} (raw : RawTable) (parent : Uuid) (after n : Nat)
    (hrows : (raw.childrenAfter parent after).take n = rows) (hlast : rows.getLast? = some last) :
    raw.childrenAfter parent after = rows ++ raw.childrenAfter parent last.rowid := by
  have hordered : (raw.childrenAfter parent after).Pairwise fun a b => a.rowid < b.rowid :=
    raw.ordered.filter _
  have hsplit := take_append_drop n (raw.childrenAfter parent after)
  rw [hrows] at hsplit
  obtain ⟨front, rfl⟩ := getLast?_eq_some_iff.mp hlast
  rw [← hsplit] at hordered
  obtain ⟨hfront, -, hcross⟩ := pairwise_append.mp hordered
  have hlastmem : last ∈ front ++ [last] := mem_append_right _ (mem_singleton_self last)
  have hafter : after < last.rowid := by
    have hmem : last ∈ raw.childrenAfter parent after := by
      rw [← hsplit]
      exact mem_append_left _ hlastmem
    have htest := (mem_filter.mp hmem).2
    rw [decide_eq_true_iff] at htest
    exact htest.2
  have hnarrow : raw.childrenAfter parent last.rowid =
      (raw.childrenAfter parent after).filter fun row => last.rowid < row.rowid := by
    unfold RawTable.childrenAfter
    rw [filter_filter]
    refine filter_congr fun row _ => ?_
    rw [← Bool.decide_and]
    refine decide_eq_decide.mpr ?_
    constructor
    · rintro ⟨hparent, hlt⟩
      exact ⟨hlt, hparent, hafter.trans hlt⟩
    rintro ⟨hlt, hparent, -⟩
    exact ⟨hparent, hlt⟩
  rw [hnarrow, ← hsplit, filter_append]
  have hnone : (front ++ [last]).filter (fun row => last.rowid < row.rowid) = [] := by
    refine filter_eq_nil_iff.mpr fun row hrow => ?_
    rw [decide_eq_true_iff, not_lt]
    rcases mem_append.mp hrow with hrow | hrow
    · exact ((pairwise_append.mp hfront).2.2 row hrow last (mem_singleton_self last)).le
    · rw [mem_singleton.mp hrow]
  have hall : ((raw.childrenAfter parent after).drop n).filter
      (fun row => last.rowid < row.rowid) = (raw.childrenAfter parent after).drop n :=
    filter_eq_self.mpr fun row hrow => decide_eq_true (hcross last hlastmem row hrow)
  rw [hnone, hall, nil_append]

theorem remaining_turn (raw : RawTable) (size : ℕ+) (dir : Dir) :
    (dir.turn raw size).remaining raw = dir.remaining raw := by
  unfold Dir.turn
  split
  · rename_i hempty
    obtain ⟨hpage, hdone⟩ := hempty
    unfold Dir.remaining
    dsimp only
    rw [hpage, hdone, nil_append, if_neg Bool.false_ne_true]
    by_cases hshort : ((raw.childrenAfter dir.uuid dir.after).take size).length < size
    · rw [if_pos (decide_eq_true hshort), append_nil]
      rw [length_take] at hshort
      exact take_of_length_le (by omega)
    rw [if_neg (by simpa using hshort)]
    cases hlast : ((raw.childrenAfter dir.uuid dir.after).take size).getLast? with
    | none =>
      rw [getLast?_eq_none_iff.mp hlast] at hshort
      exact absurd size.pos hshort
    | some last =>
      exact (childrenAfter_drop raw dir.uuid dir.after size rfl hlast).symm
  · rfl

theorem turn_uuid (raw : RawTable) (size : ℕ+) (dir : Dir) :
    (dir.turn raw size).uuid = dir.uuid ∧ (dir.turn raw size).path = dir.path ∧
      (dir.turn raw size).depth = dir.depth := by
  unfold Dir.turn
  split
  all_goals exact ⟨rfl, rfl, rfl⟩

theorem next_some (h : dir.next raw size = some (child, dir')) :
    dir.remaining raw = child :: dir'.remaining raw ∧ dir'.uuid = dir.uuid ∧ dir'.path = dir.path ∧
      dir'.depth = dir.depth := by
  unfold Dir.next at h
  split at h
  · cases h
  rename_i page hpage
  cases h
  rw [← remaining_turn raw size dir]
  refine ⟨?_, turn_uuid raw size dir⟩
  unfold Dir.remaining
  rw [hpage, cons_append]

theorem next_none (h : dir.next raw size = none) : dir.remaining raw = [] := by
  unfold Dir.next at h
  split at h
  · rename_i hpage
    rw [← remaining_turn raw size dir]
    unfold Dir.remaining
    rw [hpage, nil_append]
    split
    · rfl
    rename_i hdone
    unfold Dir.turn at hpage hdone ⊢
    split at hpage
    · rename_i hempty
      rw [if_pos hempty] at hdone ⊢
      dsimp only at hpage hdone ⊢
      rw [hpage] at hdone
      exact absurd (decide_eq_true size.pos) hdone
    rename_i hempty
    rw [if_neg hempty] at hdone
    exact absurd ⟨hpage, Bool.eq_false_iff.mpr hdone⟩ hempty
  · cases h

theorem remaining_new (raw : RawTable) (uuid : Uuid) (path : Path) (depth : Nat) :
    (Dir.new uuid path depth).remaining raw = raw.childrenAfter uuid 0 := rfl

end Turn

/-- The steps a walk below a directory takes at most, to a depth. -/
def weight (raw : RawTable) : Nat → Uuid → Nat
  | 0, _ => 0
  | n + 1, uuid =>
    1 + ((raw.childrenAfter uuid 0).map fun child => 1 + weight raw n child.item.uuid).sum

namespace Dir

def cost (raw : RawTable) (dir : Dir) : Nat :=
  1 + ((dir.remaining raw).map fun child =>
    1 + weight raw (maxRemoteDepth - dir.depth) child.item.uuid).sum

variable {raw : RawTable} {size : ℕ+} {dir dir' : Dir} {child : Raw}

theorem cost_next (h : dir.next raw size = some (child, dir')) :
    dir.cost raw = dir'.cost raw + 1 + weight raw (maxRemoteDepth - dir.depth) child.item.uuid := by
  obtain ⟨hremaining, -, -, hdepth⟩ := next_some h
  unfold cost
  rw [hremaining, hdepth, map_cons, sum_cons]
  omega

theorem cost_new (uuid : Uuid) (path : Path) {depth : Nat} (h : depth + 1 ≤ maxRemoteDepth) :
    (Dir.new uuid path (depth + 1)).cost raw = weight raw (maxRemoteDepth - depth) uuid := by
  have hsub : maxRemoteDepth - depth = maxRemoteDepth - (depth + 1) + 1 := by omega
  unfold cost
  rw [hsub, remaining_new]
  rfl

end Dir

/-! ## The walk -/

/-- A row of the placed table, under its node's path, with the remote's spelling. -/
structure PlacedRow where
  node : RemoteNode
  spelling : Option Name
deriving DecidableEq

structure Walk where
  remote : List PlacedRow
  visited : List Nat
  reached : Nat
  placed : Nat
  held : PathSet
  heldSpellings : Path → Option (Option Name)
  twins : PathSet

namespace Walk

def new : Walk where
  remote := []
  visited := []
  reached := 0
  placed := 0
  held := SortedSet.empty
  heldSpellings _ := none
  twins := SortedSet.empty

/-- Mark a row, and count it when it was unmarked. -/
def mark (walk : Walk) (rowid : Nat) : Walk :=
  if rowid ∈ walk.visited then walk
  else { walk with visited := rowid :: walk.visited, reached := walk.reached + 1 }

def noteSpelling (walk : Walk) (path : Path) (spelling : Option Name) : Walk :=
  let first := (walk.heldSpellings path).join
  if first ≠ spelling then { walk with twins := walk.twins.insert path } else walk

def nodeOf (path : Path) (child : Raw) : RemoteNode where
  relPath := path
  kind := if child.dir then .dir else .file
  remoteUuid := child.item.uuid
  stableUuid := child.item.stableUuid
  contentHash := child.item.hash
  size := child.item.size
  modifiedMillis := child.item.modifiedMillis

/-- Place an item at a path, unless it is reserved or held; a second item at a path takes
the first away and holds the path. -/
def place (scope : Scope) (walk : Walk) (path : Path) (child : Raw) : Walk :=
  if scope.isReservedPath path then walk
  else if path ∈ walk.held then walk.noteSpelling path child.spelling
  else
    match rowAt (·.node.relPath) walk.remote path with
    | none =>
      { walk with
        remote := walk.remote ++ [{ node := nodeOf path child, spelling := child.spelling }]
        placed := walk.placed + 1 }
    | some occupant =>
      noteSpelling
        { walk with
          remote := walk.remote.filter fun row => row.node.relPath ≠ path
          placed := walk.placed - 1
          held := walk.held.insert path
          heldSpellings := update walk.heldSpellings path (some occupant.spelling) }
        path child.spelling

def opens (scope : Scope) (undecodableDirs : List Uuid) (child : Raw) (depth : Nat) : Bool :=
  child.dir && depth ≤ maxRemoteDepth && child.item.uuid ≠ scope.root &&
    child.item.uuid ∉ undecodableDirs

/-- Go on from the directory opened last until none is open. -/
def run (scope : Scope) (undecodableDirs : List Uuid) (raw : RawTable) (size : ℕ+) :
    Walk → List Dir → Walk
  | walk, [] => walk
  | walk, dir :: rest =>
    match _hnext : dir.next raw size with
    | none => run scope undecodableDirs raw size walk rest
    | some (child, dir') =>
      if scope.isPlaceableName child.item.name then
        let path := joinPath dir.path child.item.name
        let walk := (walk.mark child.rowid).place scope path child
        if _hopens : opens scope undecodableDirs child (dir.depth + 1) then
          run scope undecodableDirs raw size walk
            (Dir.new child.item.uuid path (dir.depth + 1) :: dir' :: rest)
        else run scope undecodableDirs raw size walk (dir' :: rest)
      else run scope undecodableDirs raw size walk (dir' :: rest)
termination_by _ open_ => (open_.map (Dir.cost raw)).sum
decreasing_by
  · rw [map_cons, sum_cons]
    unfold Dir.cost
    omega
  · have hcost := Dir.cost_next _hnext
    have hdepth : dir.depth + 1 ≤ maxRemoteDepth := by
      unfold opens at _hopens
      simp only [Bool.and_eq_true, decide_eq_true_eq] at _hopens
      exact _hopens.1.1.2
    rw [map_cons, map_cons, map_cons, sum_cons, sum_cons, sum_cons,
      Dir.cost_new _ _ hdepth]
    omega
  all_goals
    have hcost := Dir.cost_next _hnext
    rw [map_cons, map_cons, sum_cons, sum_cons]
    omega

end Walk

/-! ## What the walk left -/

/-- Every row the walk left unmarked, in order. -/
def unplaced (raw : RawTable) (visited : List Nat) : List (Bool × RemoteItem) :=
  (raw.rows.filter fun row => row.rowid ∉ visited).map fun row => (row.dir, row.item)

def unindexed (raw : RawTable) (dirIndex : DirIndex) : List Raw :=
  raw.rows.filter fun row => row.dir = true ∧ dirIndex row.item.uuid = none

theorem unindexed_update {raw : RawTable} {dirIndex : DirIndex} {at' : Uuid} {entry : Name × Uuid}
    (hnone : dirIndex at' = none) (hrow : raw.rawDir at' = some entry) :
    (unindexed raw (update dirIndex at' (some entry))).length <
      (unindexed raw dirIndex).length := by
  obtain ⟨row, hfind, -⟩ := Option.map_eq_some_iff.mp hrow
  have hmem := mem_of_find?_eq_some hfind
  have htest := find?_some hfind
  simp only [decide_eq_true_eq] at htest
  have hfewer : unindexed raw (update dirIndex at' (some entry)) =
      (unindexed raw dirIndex).filter fun other => other.item.uuid ≠ at' := by
    unfold unindexed
    rw [filter_filter]
    refine filter_congr fun other _ => ?_
    by_cases hat : other.item.uuid = at'
    · rw [hat, update_self]
      simp
    rw [update_of_ne hat]
    simp [hat]
  rw [hfewer, length_filter_lt_length_iff_exists]
  refine ⟨row, mem_filter.mpr ⟨hmem, ?_⟩, ?_⟩
  · rw [htest.1, hnone]
    exact decide_eq_true ⟨htest.2, rfl⟩
  rw [htest.1]
  simp

/-- Index the directories from one up to the root, to one no row is, or to one indexed. -/
def indexUp (scope : Scope) (raw : RawTable) (dirIndex : DirIndex) (at' : Uuid) : DirIndex :=
  if at' = scope.root then dirIndex
  else
    match _hindexed : dirIndex at' with
    | some _ => dirIndex
    | none =>
      match _hrow : raw.rawDir at' with
      | none => dirIndex
      | some entry => indexUp scope raw (update dirIndex at' (some entry)) entry.2
termination_by (unindexed raw dirIndex).length
decreasing_by exact unindexed_update _hindexed _hrow

namespace ViewBuilder

/-- A builder that answers for items a staged walk left, the directories above them given. -/
def forReplay (dirIndex : DirIndex) (undecodable : List UndecodableItem)
    (items : List (Bool × RemoteItem)) : ViewBuilder :=
  { new with dirIndex, deferred := items }.takeUndecodable undecodable

/-- The records of a replay. It places nothing, or the pass stops. -/
def finishUnplaced (scope : Scope) (builder : ViewBuilder) : Option (List SkippedRemote) :=
  let view := builder.finish scope
  if view.heldPaths.toList = [] ∧ view.collisions.toList = [] ∧ view.nodes = [] then
    some view.skipped
  else none

end ViewBuilder

/-- What the builder records for the rows the walk left and for the undecodable records,
over every directory their chains climb. -/
def replay (scope : Scope) (raw : RawTable) (undecodable : List UndecodableItem)
    (left : List (Bool × RemoteItem)) : Option (List SkippedRemote) :=
  if left = [] ∧ undecodable = [] then some []
  else
    let starts := left.map (·.2.parent) ++ undecodable.map (·.parent)
    let dirIndex := starts.foldl (indexUp scope raw) fun _ => none
    (ViewBuilder.forReplay dirIndex undecodable left).finishUnplaced scope

namespace RemoteSink

/-- Place every copied row: the view, and how many nodes it holds. -/
def finish (scope : Scope) (size : ℕ+) (sink : RemoteSink) : Option (RemoteView × Nat) :=
  let walk := Walk.new.run scope (dirsOf sink.undecodable) sink.raw size [Dir.new scope.root [] 0]
  let left := if walk.reached < sink.raw.rows.length then unplaced sink.raw walk.visited else []
  (replay scope sink.raw sink.undecodable left).map fun skipped =>
    ({
      nodes := walk.remote.map (·.node)
      collisions := walk.twins
      heldPaths := walk.held
      skipped
    }, walk.placed)

/-- The view staged from a snapshot, its records first and then its items as they come. -/
def stage (scope : Scope) (size : ℕ+) (undecodable : List UndecodableItem)
    (items : List (Bool × RemoteItem)) : Option (RemoteView × Nat) :=
  (items.foldl (fun sink item => sink.item scope item.1 item.2)
    (new.takeUndecodable undecodable)).finish scope size

end RemoteSink

end SyncEngine.Remote
