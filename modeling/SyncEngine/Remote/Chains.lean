import SyncEngine.Remote.Walked

/-! # Chains up and branches down

The builder climbs from an item to the root, the walk comes down to it. A chain of at most
so many placeable directories is a branch of at most so many open rows, so both find the
same items at the same paths.
-/

namespace SyncEngine.Remote

open Collections List

/-! ## The copied rows -/

def rawOf (scope : Scope) (item : (Bool × RemoteItem) × Nat) : Raw where
  rowid := item.2 + 1
  dir := item.1.1
  spelling := spellingOf scope item.1.2
  item :=
    {
      uuid := item.1.2.uuid
      parent := item.1.2.parent
      name := scope.nfc item.1.2.name
      stableUuid := stableOf item.1
      hash := if item.1.1 then none else item.1.2.hash
      size := if item.1.1 then 0 else item.1.2.size
      modifiedMillis := item.1.2.modifiedMillis
    }

/-- A snapshot's items, copied. -/
def copied (scope : Scope) (undecodable : List UndecodableItem) (items : List (Bool × RemoteItem)) :
    RemoteSink :=
  items.foldl (fun sink item => sink.item scope item.1 item.2)
    (RemoteSink.new.takeUndecodable undecodable)

section Copied

variable {scope : Scope} {undecodable : List UndecodableItem} {items : List (Bool × RemoteItem)}

theorem copied_undecodable : (copied scope undecodable items).undecodable = undecodable := by
  induction items using List.reverseRecOn with
  | nil => rfl
  | append_singleton items item ih =>
    unfold copied at ih ⊢
    rw [foldl_append]
    exact ih

theorem item_rows (sink : RemoteSink) (item : Bool × RemoteItem) :
    (sink.item scope item.1 item.2).raw.rows =
      sink.raw.rows ++ [rawOf scope (item, sink.raw.rows.length)] := by
  have hspelling : (if scope.nfc item.2.name ≠ item.2.name then some item.2.name else none) =
      spellingOf scope item.2 := by
    unfold spellingOf
    by_cases h : item.2.name = scope.nfc item.2.name
    · rw [if_neg fun hne => hne h.symm, if_neg fun hne => hne h]
    · rw [if_pos (Ne.symm h), if_pos h]
  unfold RemoteSink.item RawTable.append
  dsimp only
  rw [hspelling]
  rfl

theorem copied_rows : (copied scope undecodable items).raw.rows = items.zipIdx.map (rawOf scope) := by
  induction items using List.reverseRecOn with
  | nil => rfl
  | append_singleton items item ih =>
    have hlength := congrArg List.length ih
    rw [length_map, length_zipIdx] at hlength
    unfold copied at ih hlength ⊢
    rw [foldl_append, foldl_cons, foldl_nil, item_rows, ih, zipIdx_append,
      map_append, length_map, length_zipIdx]
    simp only [zipIdx_singleton, map_cons, map_nil, Nat.zero_add]

theorem filterMap_copied {β : Type} {f : Raw → Option β} {g : Bool × RemoteItem → Option β}
    (h : ∀ item n, f (rawOf scope (item, n)) = g item) :
    (copied scope undecodable items).raw.rows.filterMap f = items.filterMap g := by
  rw [copied_rows, filterMap_map]
  have hfst : items.zipIdx.filterMap (f ∘ rawOf scope) = items.zipIdx.filterMap (g ∘ Prod.fst) :=
    filterMap_congr fun item _ => h item.1 item.2
  rw [hfst, ← filterMap_map, zipIdx_map_fst]

theorem mem_copied {row : Raw} :
    row ∈ (copied scope undecodable items).raw.rows ↔
      ∃ item n, (item, n) ∈ items.zipIdx ∧ row = rawOf scope (item, n) := by
  rw [copied_rows, mem_map]
  constructor
  · rintro ⟨⟨item, n⟩, hmem, rfl⟩
    exact ⟨item, n, hmem, rfl⟩
  rintro ⟨item, n, hmem, rfl⟩
  exact ⟨(item, n), hmem, rfl⟩

theorem distinct_copied (hdistinct : (items.map (·.2.uuid)).Nodup) :
    ((copied scope undecodable items).raw.rows.map (·.item.uuid)).Nodup := by
  have hsame : (copied scope undecodable items).raw.rows.map (·.item.uuid) =
      items.map (·.2.uuid) := by
    rw [copied_rows, map_map]
    have hfst : items.zipIdx.map ((·.item.uuid) ∘ rawOf scope) =
        items.zipIdx.map ((fun item : Bool × RemoteItem => item.2.uuid) ∘ Prod.fst) := rfl
    rw [hfst, ← map_map, zipIdx_map_fst]
  rw [hsame]
  exact hdistinct

theorem rawDir_copied (hdistinct : (items.map (·.2.uuid)).Nodup) (u : Uuid) :
    (copied scope undecodable items).raw.rawDir u = fullIndex scope items u := by
  refine Option.ext fun entry => ?_
  rw [fullIndex_eq_some hdistinct]
  unfold RawTable.rawDir
  rw [Option.map_eq_some_iff]
  constructor
  · rintro ⟨row, hfind, rfl⟩
    have htest := @find?_some _ (fun row : Raw =>
      decide (row.item.uuid = u ∧ row.dir)) row _ hfind
    obtain ⟨huuid, hdir⟩ := of_decide_eq_true htest
    obtain ⟨item, n, hmem, rfl⟩ := mem_copied.mp (mem_of_find?_eq_some hfind)
    exact ⟨item, fst_mem_of_mem_zipIdx hmem, hdir, huuid, rfl⟩
  rintro ⟨item, hitem, hdir, huuid, rfl⟩
  obtain ⟨n, hn, hget⟩ := mem_iff_getElem.mp hitem
  have hrow : rawOf scope (item, n) ∈ (copied scope undecodable items).raw.rows :=
    mem_copied.mpr ⟨item, n, mem_zipIdx_iff_getElem?.mpr (by rw [getElem?_eq_getElem hn, hget]),
      rfl⟩
  cases hfind : (copied scope undecodable items).raw.rows.find? fun row =>
      decide (row.item.uuid = u ∧ row.dir) with
  | none => exact absurd (decide_eq_true ⟨huuid, hdir⟩) (find?_eq_none.mp hfind _ hrow)
  | some other =>
    have htest := @find?_some _ (fun row : Raw =>
      decide (row.item.uuid = u ∧ row.dir)) other _ hfind
    obtain ⟨huuid', -⟩ := of_decide_eq_true htest
    have hsame := inj_on_of_nodup_map (distinct_copied hdistinct)
      (mem_of_find?_eq_some hfind) hrow (huuid'.trans huuid.symm)
    exact ⟨other, rfl, by rw [hsame]; rfl⟩

end Copied

/-! ## Chains and branches -/

/-- The rows as branches below the root, open where the walk goes in. -/
def branching (scope : Scope) (undecodableDirs : List Uuid) (raw : RawTable)
    (hdistinct : (raw.rows.map (·.item.uuid)).Nodup) : Branching Uuid Raw where
  rows := raw.rows
  key row := row.item.uuid
  parent row := row.item.parent
  shown row := scope.isPlaceableName row.item.name
  opens row := scope.isPlaceableName row.item.name && opensRow scope undecodableDirs row
  root := scope.root
  distinct := hdistinct
  shown_of_opens row h := (Bool.and_eq_true_iff.mp h).1
  root_closed row h := by
    unfold opensRow
    rw [h]
    simp

def pathOf (trail : List Raw) : Path := ['/'].intercalate (trail.map (·.item.name))

theorem intercalate_concat {names : List Name} (hne : names ≠ []) (name : Name) :
    ['/'].intercalate (names ++ [name]) = ['/'].intercalate names ++ '/' :: name := by
  induction names with
  | nil => exact absurd rfl hne
  | cons first names ih =>
    cases names with
    | nil => simp [List.intercalate]
    | cons second names =>
      have hrest := ih (cons_ne_nil _ _)
      rw [cons_append, cons_append, intercalate_cons_cons,
        intercalate_cons_cons, ← cons_append, hrest]
      simp only [append_assoc]

theorem intercalate_ne_nil {names : List Name} (hne : names ≠ []) (hnames : ∀ name ∈ names, name ≠ []) :
    ['/'].intercalate names ≠ [] := by
  cases names with
  | nil => exact absurd rfl hne
  | cons first names =>
    have hfirst := hnames first mem_cons_self
    cases names with
    | nil => simpa [List.intercalate] using hfirst
    | cons second names =>
      rw [intercalate_cons_cons]
      simp

theorem pathOf_concat {trail : List Raw} (hnames : ∀ row ∈ trail, row.item.name ≠ []) (row : Raw) :
    pathOf (trail ++ [row]) = joinPath (pathOf trail) row.item.name := by
  unfold pathOf joinPath
  cases trail with
  | nil => simp [List.intercalate]
  | cons first trail =>
    have hne : (first :: trail).map (·.item.name) ≠ [] := cons_ne_nil _ _
    have hall : ∀ name ∈ (first :: trail).map (·.item.name), name ≠ [] := by
      intro name hname
      obtain ⟨other, hother, rfl⟩ := mem_map.mp hname
      exact hnames other hother
    rw [map_append, map_singleton, intercalate_concat hne,
      if_neg (intercalate_ne_nil hne hall)]

section Branches

variable {scope : Scope} {undecodableDirs : List Uuid} {raw : RawTable}
  {hdistinct : (raw.rows.map (·.item.uuid)).Nodup}

theorem climb_eq_ok {left : Nat} {below : Option Uuid} {u : Uuid} {parts : List Name} {path : Path} :
    scope.climb raw.rawDir undecodableDirs left below u parts = .ok path ↔
      ∃ trail, (branching scope undecodableDirs raw hdistinct).Leads scope.root trail u ∧
        trail.length ≤ left ∧
        path = ['/'].intercalate (trail.map (·.item.name) ++ parts) := by
  have hroot : ∀ trail, (branching scope undecodableDirs raw hdistinct).Leads scope.root trail
      scope.root → trail = [] := fun trail h => h.unique (.nil _)
  induction left generalizing below u parts with
  | zero =>
    unfold Scope.climb
    constructor
    · intro h
      split at h
      · rename_i hu
        cases h
        rw [hu]
        exact ⟨[], .nil _, Nat.le_refl 0, rfl⟩
      · cases h
    rintro ⟨trail, hleads, hlength, rfl⟩
    rw [length_eq_zero_iff.mp (Nat.le_zero.mp hlength)] at hleads ⊢
    cases hleads
    rw [if_pos rfl]
    rfl
  | succ left ih =>
    unfold Scope.climb
    by_cases hu : u = scope.root
    · rw [if_pos hu, hu]
      constructor
      · intro h
        cases h
        exact ⟨[], .nil _, Nat.zero_le _, rfl⟩
      rintro ⟨trail, hleads, -, rfl⟩
      rw [hroot trail hleads]
      rfl
    rw [if_neg hu]
    dsimp only
    constructor
    · intro h
      split at h
      · cases h
      rename_i hdecodable
      split at h
      · split at h
        · cases h
        · cases h
      rename_i name grandparent hrow
      split at h
      · rename_i hplaceable
        obtain ⟨trail, hleads, hlength, rfl⟩ := ih.mp h
        obtain ⟨row, hfind, hentry⟩ := Option.map_eq_some_iff.mp hrow
        have htest := @find?_some _ (fun row : Raw =>
          decide (row.item.uuid = u ∧ row.dir)) row _ hfind
        obtain ⟨huuid, hdir⟩ := of_decide_eq_true htest
        cases hentry
        have hopens : (branching scope undecodableDirs raw hdistinct).opens row := by
          unfold branching opensRow
          simp only [Bool.and_eq_true, decide_eq_true_eq]
          rw [huuid]
          exact ⟨hplaceable, ⟨hdir, hu⟩, hdecodable⟩
        have hnext := hleads.concat (mem_of_find?_eq_some hfind) rfl hopens
        refine ⟨trail ++ [row], ?_, ?_, ?_⟩
        · rw [← huuid]
          exact hnext
        · rw [length_append, length_singleton]
          exact Nat.succ_le_succ hlength
        rw [map_append, append_assoc]
        rfl
      · cases h
    rintro ⟨trail, hleads, hlength, rfl⟩
    rcases hleads.cases_concat with ⟨-, heq⟩ | ⟨front, row, rfl, hrow, hopens, hkey, hfront⟩
    · exact absurd heq.symm hu
    have hparts := hopens
    unfold branching opensRow at hparts
    simp only [Bool.and_eq_true, decide_eq_true_eq] at hparts
    obtain ⟨hplaceable, ⟨hdir, -⟩, hdecodable⟩ := hparts
    have huuid : row.item.uuid = u := hkey
    rw [huuid] at hdecodable
    have hfound : raw.rawDir u = some (row.item.name, row.item.parent) := by
      unfold RawTable.rawDir
      cases hfind : raw.rows.find? fun row =>
          decide (row.item.uuid = u ∧ row.dir) with
      | none =>
        exact absurd (decide_eq_true ⟨huuid, hdir⟩) (find?_eq_none.mp hfind row hrow)
      | some other =>
        have htest := @find?_some _ (fun row : Raw =>
          decide (row.item.uuid = u ∧ row.dir)) other _ hfind
        obtain ⟨huuid', -⟩ := of_decide_eq_true htest
        have hsame := inj_on_of_nodup_map hdistinct
          (mem_of_find?_eq_some hfind) hrow (huuid'.trans huuid.symm)
        rw [hsame]
        rfl
    rw [if_neg hdecodable, hfound]
    dsimp only
    rw [if_pos hplaceable]
    rw [length_append, length_singleton] at hlength
    have hpath : ['/'].intercalate ((front ++ [row]).map (·.item.name) ++ parts) =
        ['/'].intercalate (front.map (·.item.name) ++ row.item.name :: parts) := by
      rw [map_append, append_assoc]
      rfl
    exact ih.mpr ⟨front, hfront, Nat.le_of_succ_le_succ hlength, hpath⟩

theorem listing_eq (n : Nat) (u : Uuid) (trail : List Raw) (hnames : ∀ row ∈ trail, row.item.name ≠ []) :
    listing scope undecodableDirs raw n u (pathOf trail) =
      ((branching scope undecodableDirs raw hdistinct).below n u trail).map fun found =>
        (joinPath (pathOf found.1) found.2.item.name, found.2) := by
  induction n generalizing u trail with
  | zero => rfl
  | succ n ih =>
    have hchildren : raw.childrenAfter u 0 =
        (branching scope undecodableDirs raw hdistinct).children u := by
      refine filter_congr fun row hrow => decide_eq_decide.mpr ?_
      exact and_iff_left (raw.numbered row hrow).1
    unfold listing Branching.below
    rw [hchildren, map_flatMap]
    refine flatMap_congr fun child _ => ?_
    have hshown : (branching scope undecodableDirs raw hdistinct).shown child =
        scope.isPlaceableName child.item.name := rfl
    have hopens : (branching scope undecodableDirs raw hdistinct).opens child =
        (scope.isPlaceableName child.item.name && opensRow scope undecodableDirs child) := rfl
    rw [hshown, hopens]
    by_cases hplaceable : scope.isPlaceableName child.item.name
    · rw [if_pos hplaceable, if_pos hplaceable, hplaceable, Bool.true_and, map_cons]
      congr 1
      split
      · rw [← pathOf_concat hnames]
        refine ih _ _ fun row hrow => ?_
        rcases mem_append.mp hrow with hrow | hrow
        · exact hnames row hrow
        rw [mem_singleton.mp hrow]
        exact Scope.ne_nil_of_isPlaceableName hplaceable
      · rfl
    rw [if_neg hplaceable, if_neg hplaceable]
    rfl

variable (scope undecodableDirs raw) in
/-- A row whose chain resolves and whose name can be placed, at its path. -/
def pathed (row : Raw) : Option (Path × Raw) :=
  match scope.resolveParent row.item.parent raw.rawDir undecodableDirs with
  | .ok parentPath =>
    if scope.isPlaceableName row.item.name then some (joinPath parentPath row.item.name, row)
    else none
  | .error _ => none

theorem pathed_eq_some {row : Raw} {found : Path × Raw} :
    pathed scope undecodableDirs raw row = some found ↔
      found.2 = row ∧ scope.isPlaceableName row.item.name ∧
        ∃ parentPath, scope.resolveParent row.item.parent raw.rawDir undecodableDirs = .ok parentPath ∧
          found.1 = joinPath parentPath row.item.name := by
  unfold pathed
  constructor
  · intro h
    split at h
    · rename_i parentPath hres
      split at h
      · rename_i hplaceable
        cases h
        exact ⟨rfl, hplaceable, parentPath, hres, rfl⟩
      · cases h
    · cases h
  rintro ⟨hrow, hplaceable, parentPath, hres, hpath⟩
  rw [hres]
  dsimp only
  rw [if_pos hplaceable, ← hpath, ← hrow]

include hdistinct in
theorem listing_perm :
    (listing scope undecodableDirs raw (maxRemoteDepth + 1) scope.root []).Perm
      (raw.rows.filterMap (pathed scope undecodableDirs raw)) := by
  have heq := @listing_eq scope undecodableDirs raw hdistinct (maxRemoteDepth + 1) scope.root []
    fun row hrow => absurd hrow not_mem_nil
  have hsnd : ((listing scope undecodableDirs raw (maxRemoteDepth + 1) scope.root []).map Prod.snd).Nodup := by
    have hnodup := (branching scope undecodableDirs raw hdistinct).nodup_map_below (maxRemoteDepth + 1)
    have hpath : pathOf [] = [] := rfl
    rw [hpath] at heq
    rw [heq, map_map]
    exact hnodup
  have hrows : (raw.rows.filterMap (pathed scope undecodableDirs raw)).Nodup := by
    refine List.Nodup.filterMap ?_ (List.Nodup.of_map _ hdistinct)
    intro row row' found hrow hrow'
    exact (pathed_eq_some.mp hrow).1.symm.trans (pathed_eq_some.mp hrow').1
  refine (perm_ext_iff_of_nodup (List.Nodup.of_map _ hsnd) hrows).mpr ?_
  rintro ⟨path, row⟩
  have hpath : pathOf [] = [] := rfl
  rw [hpath] at heq
  rw [heq, mem_map, mem_filterMap]
  constructor
  · rintro ⟨⟨trail, other⟩, hmem, hfound⟩
    cases hfound
    obtain ⟨hrow, hshown, s, hs, hlength, hleads⟩ := Branching.mem_below.mp hmem
    rw [nil_append] at hs
    refine ⟨other, hrow, pathed_eq_some.mpr ⟨rfl, hshown, pathOf trail, ?_, rfl⟩⟩
    rw [hs]
    refine climb_eq_ok.mpr ⟨s, hleads, Nat.le_of_lt_succ hlength, ?_⟩
    rw [append_nil]
    rfl
  rintro ⟨other, hother, hpathed⟩
  obtain ⟨hrow, hshown, parentPath, hres, hjoin⟩ := pathed_eq_some.mp hpathed
  dsimp only at hrow hjoin
  rw [← hrow] at hother hshown hres hjoin
  obtain ⟨trail, hleads, hlength, hparent⟩ := (@climb_eq_ok scope undecodableDirs raw hdistinct
    _ _ _ _ _).mp hres
  rw [append_nil] at hparent
  refine ⟨(trail, row), Branching.mem_below.mpr
    ⟨hother, hshown, trail, (nil_append _).symm, Nat.lt_succ_of_le hlength, hleads⟩, ?_⟩
  dsimp only
  rw [hjoin, hparent]
  rfl

end Branches

end SyncEngine.Remote
