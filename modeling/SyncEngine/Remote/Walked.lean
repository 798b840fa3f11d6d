import SyncEngine.Collections.Branches
import SyncEngine.Remote.Built

/-! # What the walk places

The walk down from the root visits, in whatever pages, each row whose chain of parents
resolves and whose name can be placed, once and at its path. What it holds at the paths is
what these rows leave there.
-/

namespace SyncEngine.Remote

open Collections Function List

/-! ## One row after another -/

/-- A walk that holds what so many arrivals leave. -/
structure Walked (arrivals : List Placing) (walk : Walk) : Prop where
  rows : ∀ p, rowAt (·.node.relPath) walk.remote p =
    ((left arrivals).sole p).map fun occupant => ⟨occupant.2, occupant.1⟩
  distinct : (walk.remote.map (·.node.relPath)).Nodup
  placed : walk.placed = walk.remote.length
  held : ∀ p, p ∈ walk.held ↔ ((left arrivals).held p).isSome = true
  first : ∀ p first, (left arrivals).held p = some first → (walk.heldSpellings p).join = first
  twins : ∀ p, p ∈ walk.twins ↔ (left arrivals).mixed p

theorem walked_new : Walked [] Walk.new := by
  constructor
  · exact fun _ => rfl
  · exact nodup_nil
  · rfl
  · exact fun p => ⟨fun h => absurd h (SortedSet.not_mem_empty p), fun h => by cases h⟩
  · intro p first h
    cases h
  · exact fun p => ⟨fun h => absurd h (SortedSet.not_mem_empty p), False.elim⟩

/-- A row as it arrives at a path, unless that is reserved. -/
def arrivalOf (scope : Scope) (path : Path) (child : Raw) : Option Placing :=
  if scope.isReservedPath path then none
  else some ⟨path, child.spelling, Walk.nodeOf path child⟩

section Place

variable {scope : Scope} {arrivals : List Placing} {walk : Walk} {path : Path} {child : Raw}

theorem Walk.mem_noteSpelling {spelling : Option Name} {p : Path} :
    p ∈ (walk.noteSpelling path spelling).twins ↔
      p ∈ walk.twins ∨ p = path ∧ (walk.heldSpellings path).join ≠ spelling := by
  unfold Walk.noteSpelling
  dsimp only
  split
  · rename_i hne
    rw [SortedSet.mem_insert, or_comm]
    exact or_congr_right (and_iff_left hne).symm
  rename_i heq
  exact (or_iff_left fun h => heq h.2).symm

theorem Walk.noteSpelling_eq (walk : Walk) (path : Path) (spelling : Option Name) :
    walk.noteSpelling path spelling = { walk with twins := (walk.noteSpelling path spelling).twins } := by
  unfold Walk.noteSpelling
  dsimp only
  split
  · rfl
  · rfl

theorem Walked.place (h : Walked arrivals walk) :
    Walked (arrivals ++ (arrivalOf scope path child).toList) (walk.place scope path child) := by
  unfold arrivalOf Walk.place
  split
  · rw [Option.toList_none, append_nil]
    exact h
  rw [Option.toList_some]
  by_cases hheld : path ∈ walk.held
  · rw [if_pos hheld]
    obtain ⟨first, hfirst⟩ := Option.isSome_iff_exists.mp ((h.held path).mp hheld)
    have harrive : left (arrivals ++ [⟨path, child.spelling, Walk.nodeOf path child⟩]) =
        (left arrivals).note path first child.spelling := by
      rw [left_append]
      unfold Slots.arrive
      rw [hfirst]
    rw [Walk.noteSpelling_eq]
    constructor
    · rw [harrive]
      exact h.rows
    · exact h.distinct
    · exact h.placed
    · rw [harrive]
      exact h.held
    · rw [harrive]
      exact h.first
    intro p
    rw [harrive]
    refine Walk.mem_noteSpelling.trans (or_congr (h.twins p) (and_congr_right fun _ => ?_))
    rw [h.first path first hfirst]
  rw [if_neg hheld]
  have hnone : (left arrivals).held path = none :=
    Option.not_isSome_iff_eq_none.mp fun hsome => hheld ((h.held path).mpr hsome)
  cases hsole : (left arrivals).sole path with
  | none =>
    have hvacant : rowAt (·.node.relPath) walk.remote path = none := by
      rw [h.rows, hsole]
      rfl
    have harrive : left (arrivals ++ [⟨path, child.spelling, Walk.nodeOf path child⟩]) =
        { left arrivals with
          sole := update (left arrivals).sole path
            (some (child.spelling, Walk.nodeOf path child)) } := by
      rw [left_append]
      unfold Slots.arrive
      rw [hnone, hsole]
    rw [hvacant]
    constructor
    · intro p
      rw [harrive]
      refine (rowAt_append hvacant p).trans ?_
      by_cases hp : path = p
      · refine (if_pos hp).trans ?_
        dsimp only
        rw [← hp, update_self]
        rfl
      refine (if_neg hp).trans ?_
      dsimp only
      rw [update_of_ne (Ne.symm hp)]
      exact h.rows p
    · exact nodup_map_append h.distinct hvacant
    · dsimp only
      rw [h.placed, length_append, length_singleton]
    · rw [harrive]
      exact h.held
    · rw [harrive]
      exact h.first
    rw [harrive]
    exact h.twins
  | some occupant =>
    obtain ⟨first, node⟩ := occupant
    have htaken : rowAt (·.node.relPath) walk.remote path = some ⟨node, first⟩ := by
      rw [h.rows, hsole]
      rfl
    have harrive : left (arrivals ++ [⟨path, child.spelling, Walk.nodeOf path child⟩]) =
        Slots.note
          { left arrivals with
            sole := update (left arrivals).sole path none
            held := update (left arrivals).held path (some first) }
          path first child.spelling := by
      rw [left_append]
      unfold Slots.arrive
      rw [hnone, hsole]
    have hlength := length_filter_ne h.distinct htaken
    rw [htaken]
    dsimp only
    rw [Walk.noteSpelling_eq]
    constructor
    · intro p
      rw [harrive]
      unfold Slots.note
      dsimp only
      rw [rowAt_filter_ne, h.rows]
      by_cases hp : path = p
      · rw [if_pos hp, ← hp, update_self]
        rfl
      · rw [if_neg hp, update_of_ne (Ne.symm hp)]
    · exact h.distinct.sublist (filter_sublist.map _)
    · dsimp only
      rw [h.placed]
      omega
    · intro p
      rw [harrive]
      unfold Slots.note
      dsimp only
      rw [SortedSet.mem_insert, h.held]
      by_cases hp : p = path
      · rw [hp, update_self]
        simp
      rw [update_of_ne hp]
      exact or_iff_right hp
    · intro p first' hp
      rw [harrive] at hp
      unfold Slots.note at hp
      dsimp only at hp ⊢
      by_cases hat : p = path
      · rw [hat, update_self] at hp
        rw [hat, update_self]
        cases hp
        rfl
      rw [update_of_ne hat] at hp
      rw [update_of_ne hat]
      exact h.first p first' hp
    intro p
    rw [harrive]
    refine Walk.mem_noteSpelling.trans (or_congr (h.twins p) (and_congr_right fun _ => ?_))
    dsimp only
    rw [update_self]
    rfl

theorem place_frame (scope : Scope) (walk : Walk) (path : Path) (child : Raw) :
    (walk.place scope path child).visited = walk.visited ∧
      (walk.place scope path child).reached = walk.reached := by
  unfold Walk.place
  split
  · exact ⟨rfl, rfl⟩
  split
  · rw [Walk.noteSpelling_eq]
    exact ⟨rfl, rfl⟩
  split
  · exact ⟨rfl, rfl⟩
  rw [Walk.noteSpelling_eq]
  exact ⟨rfl, rfl⟩

theorem Walked.mark (h : Walked arrivals walk) (rowid : Nat) : Walked arrivals (walk.mark rowid) := by
  unfold Walk.mark
  split
  · exact h
  · exact ⟨h.rows, h.distinct, h.placed, h.held, h.first, h.twins⟩

end Place

/-! ## The rows the walk visits -/

def Walk.visit (scope : Scope) (walk : Walk) (found : Path × Raw) : Walk :=
  (walk.mark found.2.rowid).place scope found.1 found.2

theorem foldl_visit_walked (scope : Scope) {arrivals : List Placing} {walk : Walk}
    (found : List (Path × Raw)) (h : Walked arrivals walk) :
    Walked (arrivals ++ found.filterMap fun row => arrivalOf scope row.1 row.2)
      (found.foldl (Walk.visit scope) walk) := by
  induction found generalizing arrivals walk with
  | nil =>
    rw [filterMap_nil, append_nil]
    exact h
  | cons row found ih =>
    rw [filterMap_cons_append, ← append_assoc]
    exact ih (h.mark row.2.rowid).place

theorem foldl_visit_marked (scope : Scope) (walk : Walk) (found : List (Path × Raw))
    (hnodup : (found.map (·.2.rowid)).Nodup) (hnew : ∀ row ∈ found, row.2.rowid ∉ walk.visited) :
    (∀ n, n ∈ (found.foldl (Walk.visit scope) walk).visited ↔
      n ∈ walk.visited ∨ n ∈ found.map (·.2.rowid)) ∧
      (found.foldl (Walk.visit scope) walk).reached = walk.reached + found.length := by
  induction found generalizing walk with
  | nil => exact ⟨fun n => (or_iff_left (not_mem_nil)).symm, rfl⟩
  | cons row found ih =>
    rw [map_cons, nodup_cons] at hnodup
    have hrow := hnew row mem_cons_self
    have hvisited : (walk.visit scope row).visited = row.2.rowid :: walk.visited := by
      unfold Walk.visit Walk.mark
      rw [(place_frame ..).1, if_neg hrow]
    have hreached : (walk.visit scope row).reached = walk.reached + 1 := by
      unfold Walk.visit Walk.mark
      rw [(place_frame ..).2, if_neg hrow]
    have hnext : ∀ other ∈ found, other.2.rowid ∉ (walk.visit scope row).visited := by
      intro other hother hmem
      rw [hvisited] at hmem
      rcases mem_cons.mp hmem with heq | hmem
      · refine hnodup.1 ?_
        rw [← heq]
        exact mem_map_of_mem hother
      · exact hnew other (mem_cons_of_mem _ hother) hmem
    obtain ⟨hmem, hcount⟩ := ih (walk.visit scope row) hnodup.2 hnext
    rw [foldl_cons]
    constructor
    · intro n
      rw [hmem, hvisited, map_cons, mem_cons, mem_cons]
      exact ⟨fun h => h.elim (fun h => h.elim (fun h => Or.inr (Or.inl h)) Or.inl)
          fun h => Or.inr (Or.inr h),
        fun h => h.elim (fun h => Or.inl (Or.inr h)) fun h =>
          h.elim (fun h => Or.inl (Or.inl h)) Or.inr⟩
    rw [hcount, hreached, length_cons]
    omega

section Listing

variable (scope : Scope) (undecodableDirs : List Uuid) (raw : RawTable)

/-- A directory the walk goes into where it is not too deep. -/
def opensRow (child : Raw) : Bool :=
  child.dir && child.item.uuid ≠ scope.root && child.item.uuid ∉ undecodableDirs

/-- The rows visited below a directory at a path, down to a depth. -/
def listing : Nat → Uuid → Path → List (Path × Raw)
  | 0, _, _ => []
  | n + 1, uuid, path =>
    (raw.childrenAfter uuid 0).flatMap fun child =>
      if scope.isPlaceableName child.item.name then
        (joinPath path child.item.name, child) ::
          if opensRow scope undecodableDirs child then
            listing n child.item.uuid (joinPath path child.item.name)
          else []
      else []

def listed (n : Nat) (path : Path) (child : Raw) : List (Path × Raw) :=
  if scope.isPlaceableName child.item.name then
    (joinPath path child.item.name, child) ::
      if opensRow scope undecodableDirs child then
        listing scope undecodableDirs raw n child.item.uuid (joinPath path child.item.name)
      else []
  else []

def pending (dir : Dir) : List (Path × Raw) :=
  (dir.remaining raw).flatMap (listed scope undecodableDirs raw (maxRemoteDepth - dir.depth) dir.path)

variable {scope undecodableDirs raw}

theorem pending_new (uuid : Uuid) (path : Path) {depth : Nat} (h : depth + 1 ≤ maxRemoteDepth) :
    pending scope undecodableDirs raw (Dir.new uuid path (depth + 1)) =
      listing scope undecodableDirs raw (maxRemoteDepth - depth) uuid path := by
  have hsub : maxRemoteDepth - depth = maxRemoteDepth - (depth + 1) + 1 := by omega
  unfold pending
  rw [hsub, remaining_new]
  rfl

theorem pending_next {size : ℕ+} {dir dir' : Dir} {child : Raw} (h : dir.next raw size = some (child, dir')) :
    pending scope undecodableDirs raw dir =
      listed scope undecodableDirs raw (maxRemoteDepth - dir.depth) dir.path child ++
        pending scope undecodableDirs raw dir' := by
  obtain ⟨hremaining, -, hpath, hdepth⟩ := next_some h
  unfold pending
  rw [hremaining, hpath, hdepth, flatMap_cons]

theorem run_eq (size : ℕ+) (walk : Walk) (open_ : List Dir) :
    walk.run scope undecodableDirs raw size open_ =
      (open_.flatMap (pending scope undecodableDirs raw)).foldl (Walk.visit scope) walk := by
  fun_induction Walk.run scope undecodableDirs raw size walk open_ with
  | case1 walk => rfl
  | case2 walk dir rest hnext ih =>
    rw [ih, flatMap_cons]
    unfold pending
    rw [next_none hnext]
    rfl
  | case3 walk dir rest child dir' hnext hplaceable path walk' hopens ih =>
    have hparts := hopens
    unfold Walk.opens at hparts
    simp only [Bool.and_eq_true, decide_eq_true_eq] at hparts
    obtain ⟨⟨⟨hdir, hdepth⟩, hroot⟩, hdecodable⟩ := hparts
    have hopensRow : opensRow scope undecodableDirs child := by
      unfold opensRow
      simp only [Bool.and_eq_true, decide_eq_true_eq]
      exact ⟨⟨hdir, hroot⟩, hdecodable⟩
    rw [ih, flatMap_cons, flatMap_cons, flatMap_cons, pending_next hnext,
      pending_new _ _ hdepth]
    unfold listed
    rw [if_pos hplaceable, if_pos hopensRow, append_assoc, cons_append, foldl_cons]
    rfl
  | case4 walk dir rest child dir' hnext hplaceable path walk' hopens ih =>
    rw [ih, flatMap_cons, flatMap_cons, pending_next hnext]
    have hnone : (if opensRow scope undecodableDirs child then
        listing scope undecodableDirs raw (maxRemoteDepth - dir.depth) child.item.uuid
          (joinPath dir.path child.item.name) else []) = [] := by
      split
      · rename_i hopensRow
        unfold opensRow at hopensRow
        simp only [Bool.and_eq_true, decide_eq_true_eq] at hopensRow
        unfold Walk.opens at hopens
        simp only [Bool.and_eq_true, decide_eq_true_eq, not_and] at hopens
        have hdeep : ¬ dir.depth + 1 ≤ maxRemoteDepth := fun hle =>
          hopens ⟨⟨hopensRow.1.1, hle⟩, hopensRow.1.2⟩ hopensRow.2
        have hzero : maxRemoteDepth - dir.depth = 0 := by omega
        rw [hzero]
        rfl
      · rfl
    unfold listed
    rw [if_pos hplaceable, hnone, append_assoc, cons_append, foldl_cons]
    rfl
  | case5 walk dir rest child dir' hnext hplaceable ih =>
    rw [ih, flatMap_cons, flatMap_cons, pending_next hnext]
    unfold listed
    rw [if_neg hplaceable, nil_append]

end Listing

end SyncEngine.Remote
