import SyncEngine.Remote.Chains

/-! # The staged view is the one built in memory

The rows the walk leaves have the outcomes the builder gives them, over an index of the
directories above them alone. With the rows it places, that is every item, so the two views
are the same: nodes, held paths and twins, and the records up to their order.
-/

namespace SyncEngine.Remote

open Collections ViewBuilder RemoteItem List

section Finish

theorem rowAt_perm {κ ρ : Type} [DecidableEq κ] {key : ρ → κ} {rows rows' : List ρ}
    (hperm : rows.Perm rows') (hnodup : (rows.map key).Nodup) (k : κ) :
    rowAt key rows k = rowAt key rows' k := by
  have hnodup' := (hperm.map key).nodup_iff.mp hnodup
  refine Option.ext fun row => ?_
  constructor
  · intro h
    have hkey := key_of_rowAt h
    rw [← hkey] at h ⊢
    exact (rowAt_eq_some hnodup').mpr (hperm.mem_iff.mp ((rowAt_eq_some hnodup).mp h))
  intro h
  have hkey := key_of_rowAt h
  rw [← hkey] at h ⊢
  exact (rowAt_eq_some hnodup).mpr (hperm.mem_iff.mpr ((rowAt_eq_some hnodup').mp h))

variable {recorded recorded' : List SkippedRemote}

/-- The last of each uuid is the same whatever order the later rows come in. -/
theorem find?_reverse_append {ρ : Type} {key : ρ → Uuid} {earlier later later' : List ρ} (hperm : later.Perm later')
    (hnodup : (later.map key).Nodup) (u : Uuid) :
    ((earlier ++ later).reverse.find? fun row => key row = u) =
      (earlier ++ later').reverse.find? fun row => decide (key row = u) := by
  have hreverse : later.reverse.Perm later'.reverse :=
    (reverse_perm later).trans (hperm.trans (reverse_perm later').symm)
  have hnodup' : (later.reverse.map key).Nodup := by
    rw [map_reverse]
    exact nodup_reverse.mpr hnodup
  have hat := rowAt_perm hreverse hnodup' u
  unfold rowAt at hat
  rw [reverse_append, reverse_append, find?_append, find?_append, hat]

variable {under under' : List (Uuid × Option StableUuid × Uuid)}

theorem nearest_congr
    (h : ∀ u, (recorded.reverse.find? fun record => record.remoteUuid = u) =
      recorded'.reverse.find? fun record => record.remoteUuid = u)
    (hunder : ∀ u, (under.reverse.find? fun item => item.1 = u) =
      under'.reverse.find? fun item => item.1 = u) (steps : Nat) (ancestor : Uuid) :
    Skipped.nearest recorded under steps ancestor = Skipped.nearest recorded' under' steps ancestor := by
  induction steps generalizing ancestor with
  | zero => rfl
  | succ steps ih =>
    unfold Skipped.nearest
    rw [h ancestor, hunder ancestor]
    split
    · rfl
    split
    · exact ih _
    · rfl

theorem finish_perm {first : List SkippedRemote} {earlier : List (Uuid × Option StableUuid × Uuid)}
    (hperm : recorded.Perm recorded') (hnodup : (recorded.map (·.remoteUuid)).Nodup)
    (hunder : under.Perm under') (hnodup' : (under.map Prod.fst).Nodup) :
    (Skipped.finish { first, recorded, under := earlier ++ under }).Perm
      (Skipped.finish { first, recorded := recorded', under := earlier ++ under' }) := by
  refine (hperm.append_left first).append ?_
  refine ((hunder.append_left earlier).filterMap _).trans ?_
  rw [filterMap_congr]
  rintro ⟨uuid, stable, ancestor⟩ -
  dsimp only
  rw [nearest_congr (find?_reverse_append hperm hnodup) (find?_reverse_append hunder hnodup')]

end Finish

/-! ## The index of a replay -/

section Replay

variable {scope : Scope} {raw : RawTable}

theorem indexUp_partOf (dirIndex : DirIndex) (at' : Uuid)
    (hsub : ∀ u entry, dirIndex u = some entry → raw.rawDir u = some entry)
    (hclosed : ∀ u entry, dirIndex u = some entry →
      entry.2 = at' ∨ Answers raw.rawDir scope.root dirIndex entry.2) :
    PartOf raw.rawDir scope.root (indexUp scope raw dirIndex at') ∧
      Answers raw.rawDir scope.root (indexUp scope raw dirIndex at') at' ∧
      ∀ u, Answers raw.rawDir scope.root dirIndex u →
        Answers raw.rawDir scope.root (indexUp scope raw dirIndex at') u := by
  fun_induction indexUp scope raw dirIndex at' with
  | case1 dirIndex =>
    refine ⟨⟨hsub, fun u entry hu => ?_⟩, Or.inl rfl, fun _ h => h⟩
    rcases hclosed u entry hu with heq | h
    · exact Or.inl heq
    · exact h
  | case2 dirIndex at' hroot entry hindexed =>
    have hat : Answers raw.rawDir scope.root dirIndex at' := Or.inr (Or.inl ⟨entry, hindexed⟩)
    refine ⟨⟨hsub, fun u entry hu => ?_⟩, hat, fun _ h => h⟩
    rcases hclosed u entry hu with heq | h
    · rw [heq]
      exact hat
    · exact h
  | case3 dirIndex at' hroot hindexed hrow =>
    have hat : Answers raw.rawDir scope.root dirIndex at' := Or.inr (Or.inr hrow)
    refine ⟨⟨hsub, fun u entry hu => ?_⟩, hat, fun _ h => h⟩
    rcases hclosed u entry hu with heq | h
    · rw [heq]
      exact hat
    · exact h
  | case4 dirIndex at' hroot hindexed entry hrow ih =>
    have hat : Answers raw.rawDir scope.root (Function.update dirIndex at' (some entry)) at' :=
      Or.inr (Or.inl ⟨entry, Function.update_self ..⟩)
    obtain ⟨hpart, hup, hmono⟩ := ih
      (by
        intro u found hu
        by_cases heq : u = at'
        · rw [heq, Function.update_self] at hu
          cases hu
          rw [heq]
          exact hrow
        rw [Function.update_of_ne heq] at hu
        exact hsub u found hu)
      (by
        intro u found hu
        by_cases heq : u = at'
        · rw [heq, Function.update_self] at hu
          cases hu
          exact Or.inl rfl
        rw [Function.update_of_ne heq] at hu
        rcases hclosed u found hu with h | h
        · right
          rw [h]
          exact hat
        · exact Or.inr h.update)
    exact ⟨hpart, hmono at' hat, fun u hu => hmono u hu.update⟩

theorem foldl_indexUp (starts : List Uuid) {dirIndex : DirIndex} (hpart : PartOf raw.rawDir scope.root dirIndex) :
    PartOf raw.rawDir scope.root (starts.foldl (indexUp scope raw) dirIndex) ∧
      (∀ u, Answers raw.rawDir scope.root dirIndex u →
        Answers raw.rawDir scope.root (starts.foldl (indexUp scope raw) dirIndex) u) ∧
      ∀ start ∈ starts,
        Answers raw.rawDir scope.root (starts.foldl (indexUp scope raw) dirIndex) start := by
  induction starts generalizing dirIndex with
  | nil => exact ⟨hpart, fun _ h => h, fun _ h => nomatch h⟩
  | cons start starts ih =>
    obtain ⟨hnext, hstart, hmono⟩ := indexUp_partOf dirIndex start hpart.sub
      fun u entry hu => Or.inr (hpart.closed u entry hu)
    obtain ⟨hlast, hkept, hall⟩ := ih hnext
    refine ⟨hlast, fun u hu => hkept u (hmono u hu), fun other hother => ?_⟩
    rcases mem_cons.mp hother with heq | hother
    · rw [heq]
      exact hkept start hstart
    · exact hall other hother

theorem partOf_none (full : DirIndex) (root : Uuid) : PartOf full root fun _ => none where
  sub _ _ h := nomatch h
  closed _ _ h := nomatch h

theorem built_nil_empty {builder : ViewBuilder} (h : Built [] builder) :
    builder.nodes = [] ∧ builder.heldPaths.toList = [] ∧ builder.twins.toList = [] := by
  refine ⟨?_, ?_, ?_⟩
  · refine eq_nil_iff_forall_not_mem.mpr fun node hnode => ?_
    have hat := h.nodes node.relPath
    rw [(rowAt_eq_some h.distinct).mpr hnode] at hat
    cases hat
  · refine eq_nil_iff_forall_not_mem.mpr fun p hp => ?_
    have hheld := (h.held p).mp (SortedSet.mem_def.mpr hp)
    cases hheld
  refine eq_nil_iff_forall_not_mem.mpr fun p hp => ?_
  exact (h.twins p).mp (SortedSet.mem_def.mpr hp)

theorem replay_eq (undecodable : List UndecodableItem) (leftItems : List (Bool × RemoteItem))
    (hnone : leftItems.filterMap (placingOf scope raw.rawDir (dirsOf undecodable)) = [])
    (hfull : ∀ item ∈ leftItems, item.1 →
      raw.rawDir item.2.uuid = some (scope.nfc item.2.name, item.2.parent)) :
    replay scope raw undecodable leftItems = some (Skipped.finish
      {
        first := undecodable.filterMap (firstOf scope raw.rawDir (dirsOf undecodable))
        recorded := leftItems.filterMap (recordOf scope raw.rawDir (dirsOf undecodable))
        under := undecodable.filterMap (underFirstOf scope raw.rawDir (dirsOf undecodable)) ++
          leftItems.filterMap (underOf scope raw.rawDir (dirsOf undecodable))
      }) := by
  unfold replay
  split
  · rename_i hempty
    rw [hempty.1, hempty.2]
    rfl
  dsimp only
  obtain ⟨hpart, -, hstarts⟩ := @foldl_indexUp scope raw
    (leftItems.map (·.2.parent) ++ undecodable.map (·.parent)) _
    (partOf_none raw.rawDir scope.root)
  generalize (leftItems.map (·.2.parent) ++ undecodable.map (·.parent)).foldl (indexUp scope raw)
    (fun _ => none) = dirIndex at hpart hstarts
  have hstands : Stands (dirsOf undecodable) dirIndex [] {} leftItems
      (forReplay dirIndex undecodable leftItems) :=
    ⟨rfl, rfl, built_nil rfl rfl rfl rfl, rfl, rfl⟩
  obtain ⟨dirIndex', hsettled⟩ := settle_stands hstands hpart
    (fun item hitem => hstarts _ (mem_append_right _ (mem_map_of_mem hitem)))
    (fun item hitem => hstarts item.2.parent (mem_append_left _
      (mem_map_of_mem (f := fun item : Bool × RemoteItem => item.2.parent) hitem)))
    hfull (by rw [hnone]; exact fair_nil)
  rw [hnone] at hsettled
  obtain ⟨hnodes, hheld, htwins⟩ := built_nil_empty hsettled.built
  unfold finishUnplaced ViewBuilder.finish
  dsimp only
  rw [if_pos ⟨hheld, htwins, hnodes⟩, hsettled.skipped]
  rfl

end Replay

/-! ## The rows the walk leaves -/

section Staged

variable {scope : Scope} {undecodable : List UndecodableItem} {items : List (Bool × RemoteItem)}

def storedOf (row : Raw) : Bool × RemoteItem := (row.dir, row.item)

theorem recordOf_stored (hnfc : ∀ name, scope.nfc (scope.nfc name) = scope.nfc name) (full : DirIndex)
    (undecodableDirs : List Uuid) (item : Bool × RemoteItem) (n : Nat) :
    recordOf scope full undecodableDirs (storedOf (rawOf scope (item, n))) =
      recordOf scope full undecodableDirs item := by
  have hstable : stableOf (storedOf (rawOf scope (item, n))) = stableOf item := by
    unfold stableOf storedOf rawOf
    unfold stableOf
    split
    · rfl
    · rfl
  unfold recordOf skipOf
  rw [hstable]
  unfold storedOf rawOf
  rw [hnfc]

theorem underOf_stored (full : DirIndex) (undecodableDirs : List Uuid) (item : Bool × RemoteItem) (n : Nat) :
    underOf scope full undecodableDirs (storedOf (rawOf scope (item, n))) =
      underOf scope full undecodableDirs item := by
  have hstable : stableOf (storedOf (rawOf scope (item, n))) = stableOf item := by
    unfold stableOf storedOf rawOf
    unfold stableOf
    split
    · rfl
    · rfl
  unfold underOf
  rw [hstable]
  rfl

variable {undecodableDirs : List Uuid}

theorem outcome_of_pathed (hnfc : ∀ name, scope.nfc (scope.nfc name) = scope.nfc name) {row : Raw} {found : Path × Raw}
    (hrow : row ∈ (copied scope undecodable items).raw.rows)
    (h : pathed scope undecodableDirs (copied scope undecodable items).raw row = some found) :
    recordOf scope (copied scope undecodable items).raw.rawDir undecodableDirs (storedOf row) = none ∧
      underOf scope (copied scope undecodable items).raw.rawDir undecodableDirs (storedOf row) =
        none := by
  obtain ⟨-, hplaceable, parentPath, hres, -⟩ := pathed_eq_some.mp h
  obtain ⟨item, n, -, rfl⟩ := mem_copied.mp hrow
  have hname : scope.unplaceableName (scope.nfc (scope.nfc item.2.name)) = none := by
    rw [hnfc]
    exact Scope.unplaceableName_eq_none.mpr hplaceable
  unfold recordOf skipOf underOf storedOf
  rw [hres]
  dsimp only
  refine ⟨?_, rfl⟩
  have hsame : (rawOf scope (item, n)).item.name = scope.nfc item.2.name := rfl
  rw [hsame, hname]
  rfl

theorem placingOf_of_not_pathed (hnfc : ∀ name, scope.nfc (scope.nfc name) = scope.nfc name) {row : Raw}
    (hrow : row ∈ (copied scope undecodable items).raw.rows)
    (h : pathed scope undecodableDirs (copied scope undecodable items).raw row = none) :
    placingOf scope (copied scope undecodable items).raw.rawDir undecodableDirs (storedOf row) = none := by
  obtain ⟨item, n, -, rfl⟩ := mem_copied.mp hrow
  have hsame : (rawOf scope (item, n)).item.name = scope.nfc item.2.name := rfl
  unfold pathed at h
  unfold placingOf storedOf
  split
  · rename_i parentPath hres
    rw [hres] at h
    dsimp only at h
    split at h
    · cases h
    rename_i hplaceable
    rw [hsame, hnfc, ← hsame, if_neg fun hboth => hplaceable hboth.1]
  · rfl

/-- The rows left unmarked, in order. -/
def unpathed (scope : Scope) (undecodableDirs : List Uuid) (raw : RawTable) : List (Bool × RemoteItem) :=
  (raw.rows.filter fun row => (pathed scope undecodableDirs raw row).isNone).map storedOf

theorem filterMap_unpathed {β : Type} {raw : RawTable} (f : Bool × RemoteItem → Option β)
    (h : ∀ row ∈ raw.rows, ∀ found, pathed scope undecodableDirs raw row = some found →
      f (storedOf row) = none) :
    (unpathed scope undecodableDirs raw).filterMap f = raw.rows.filterMap fun row => f (storedOf row) := by
  unfold unpathed
  rw [filterMap_map, filterMap_filter]
  refine filterMap_congr fun row hrow => ?_
  cases hat : pathed scope undecodableDirs raw row with
  | none => rfl
  | some found =>
    rw [h row hrow found hat]
    rfl

theorem nodup_rowids (raw : RawTable) : (raw.rows.map (·.rowid)).Nodup :=
  (pairwise_map.mpr raw.ordered).imp fun hlt => ne_of_lt hlt

theorem map_snd_pathed {raw : RawTable} (rows : List Raw) :
    (rows.filterMap (pathed scope undecodableDirs raw)).map Prod.snd =
      rows.filter fun row => (pathed scope undecodableDirs raw row).isSome := by
  induction rows with
  | nil => rfl
  | cons row rows ih =>
    cases hat : pathed scope undecodableDirs raw row with
    | none =>
      rw [filterMap_cons_none hat, filter_cons_of_neg (by rw [hat]; exact Bool.false_ne_true)]
      exact ih
    | some found =>
      rw [filterMap_cons_some hat, filter_cons_of_pos (by rw [hat]; rfl), map_cons,
        ih, (pathed_eq_some.mp hat).1]

/-- What the walk from the root ends with: what the rows at a path leave there, and the
others unmarked. -/
theorem walk_spec (hdistinct : (items.map (·.2.uuid)).Nodup) (size : ℕ+) (undecodableDirs : List Uuid) :
    ∃ found : List (Path × Raw),
      found.Perm ((copied scope undecodable items).raw.rows.filterMap
        (pathed scope undecodableDirs (copied scope undecodable items).raw)) ∧
      Walked (found.filterMap fun row => arrivalOf scope row.1 row.2)
        (Walk.new.run scope undecodableDirs (copied scope undecodable items).raw size
          [Dir.new scope.root [] 0]) ∧
      (if (Walk.new.run scope undecodableDirs (copied scope undecodable items).raw size
          [Dir.new scope.root [] 0]).reached < (copied scope undecodable items).raw.rows.length then
        unplaced (copied scope undecodable items).raw
          (Walk.new.run scope undecodableDirs (copied scope undecodable items).raw size
            [Dir.new scope.root [] 0]).visited
        else []) = unpathed scope undecodableDirs (copied scope undecodable items).raw := by
  have hrows := @distinct_copied scope undecodable items hdistinct
  generalize (copied scope undecodable items).raw = raw at hrows
  have hperm := @listing_perm scope undecodableDirs raw hrows
  have hrun : Walk.new.run scope undecodableDirs raw size [Dir.new scope.root [] 0] =
      (listing scope undecodableDirs raw (maxRemoteDepth + 1) scope.root []).foldl
        (Walk.visit scope) Walk.new := by
    rw [run_eq, flatMap_singleton]
    rfl
  rw [hrun]
  generalize listing scope undecodableDirs raw (maxRemoteDepth + 1) scope.root [] = found at hperm
  have hsnd : (found.map Prod.snd).Perm
      (raw.rows.filter fun row => (pathed scope undecodableDirs raw row).isSome) := by
    rw [← map_snd_pathed]
    exact hperm.map _
  have hids : (found.map (·.2.rowid)).Perm
      ((raw.rows.filter fun row => (pathed scope undecodableDirs raw row).isSome).map (·.rowid)) := by
    have hmap := hsnd.map (·.rowid)
    rw [map_map] at hmap
    exact hmap
  have hnodup : (found.map (·.2.rowid)).Nodup :=
    hids.nodup_iff.mpr ((nodup_rowids raw).sublist (filter_sublist.map _))
  obtain ⟨hmarked, hreached⟩ := foldl_visit_marked scope Walk.new found hnodup
    fun _ _ hmem => nomatch hmem
  have hwalked := foldl_visit_walked scope found walked_new
  refine ⟨found, hperm, hwalked, ?_⟩
  generalize found.foldl (Walk.visit scope) Walk.new = walk at hmarked hreached
  have hvisited : ∀ row ∈ raw.rows,
      (row.rowid ∈ walk.visited ↔ (pathed scope undecodableDirs raw row).isSome) := by
    intro row hrow
    have hnew : row.rowid ∉ Walk.new.visited := not_mem_nil
    rw [hmarked, or_iff_right hnew, hids.mem_iff, mem_map]
    constructor
    · rintro ⟨other, hother, hid⟩
      obtain ⟨hmem, htest⟩ := mem_filter.mp hother
      rw [← inj_on_of_nodup_map (nodup_rowids raw) hmem hrow hid]
      exact htest
    intro htest
    exact ⟨row, mem_filter.mpr ⟨hrow, htest⟩, rfl⟩
  have hleft : unplaced raw walk.visited = unpathed scope undecodableDirs raw := by
    unfold unplaced unpathed
    have hfilter : (raw.rows.filter fun row => row.rowid ∉ walk.visited) =
        raw.rows.filter fun row => (pathed scope undecodableDirs raw row).isNone := by
      refine filter_congr fun row hrow => ?_
      rw [Bool.eq_iff_iff, decide_eq_true_iff, hvisited row hrow]
      cases pathed scope undecodableDirs raw row with
      | none => simp
      | some found => simp
    rw [hfilter]
    rfl
  split
  · exact hleft
  rename_i hall
  -- every row was marked, so none is left
  rw [hreached, ← length_map (f := Prod.snd), hsnd.length_eq] at hall
  have hfull : (raw.rows.filter fun row => (pathed scope undecodableDirs raw row).isSome) = raw.rows := by
    refine filter_sublist.eq_of_length_le ?_
    have hzero : Walk.new.reached = 0 := rfl
    omega
  unfold unpathed
  rw [filter_eq_nil_iff.mpr, map_nil]
  intro row hrow
  rw [← hfull] at hrow
  have hsome := (mem_filter.mp hrow).2
  cases hat : pathed scope undecodableDirs raw row with
  | none =>
    rw [hat] at hsome
    cases hsome
  | some found => exact Bool.false_ne_true

theorem arrivalOf_pathed (item : Bool × RemoteItem) (n : Nat) {raw : RawTable}
    :
    (pathed scope undecodableDirs raw (rawOf scope (item, n))).bind
        (fun row => arrivalOf scope row.1 row.2) =
      placingOf scope raw.rawDir undecodableDirs item := by
  have hparent : (rawOf scope (item, n)).item.parent = item.2.parent := rfl
  have hname : (rawOf scope (item, n)).item.name = scope.nfc item.2.name := rfl
  unfold pathed placingOf
  rw [hparent, hname]
  cases scope.resolveParent item.2.parent raw.rawDir undecodableDirs with
  | error unresolved => rfl
  | ok parentPath =>
    dsimp only
    by_cases hplaceable : scope.isPlaceableName (scope.nfc item.2.name)
    · rw [if_pos hplaceable, Option.bind_some]
      unfold arrivalOf
      cases hreserved : scope.isReservedPath (joinPath parentPath (scope.nfc item.2.name)) with
      | true => rw [if_pos rfl, if_neg fun hboth => Bool.noConfusion hboth.2]
      | false =>
        rw [if_neg Bool.false_ne_true, if_pos ⟨hplaceable, rfl⟩]
        rfl
    rw [if_neg hplaceable, if_neg fun hboth => hplaceable hboth.1]
    rfl

theorem rowAt_map_node (rows : List PlacedRow) (p : Path) :
    rowAt RemoteNode.relPath (rows.map (·.node)) p =
      (rowAt (·.node.relPath) rows p).map (·.node) := by
  unfold rowAt
  rw [find?_map]
  rfl

theorem remoteUuid_of_record {full : DirIndex} {item : Bool × RemoteItem}
    {skip : SkippedRemote} (h : recordOf scope full undecodableDirs item = some skip) :
    skip.remoteUuid = item.2.uuid := by
  have hskip := Option.eq_some_of_filter_eq_some h
  unfold skipOf at hskip
  split at hskip
  · obtain ⟨reason, -, rfl⟩ := Option.map_eq_some_iff.mp hskip
    rfl
  · cases hskip
  cases hskip
  rfl

/-- What each item leaves is told apart by the item's uuid. -/
theorem nodup_keys_filterMap {β : Type} {f : Bool × RemoteItem → Option β} {key : β → Uuid}
    (hkey : ∀ {item out}, f item = some out → key out = item.2.uuid) (hdistinct : (items.map (·.2.uuid)).Nodup) :
    ((items.filterMap f).map key).Nodup := by
  induction items with
  | nil => exact nodup_nil
  | cons item items ih =>
    rw [map_cons, nodup_cons] at hdistinct
    cases hat : f item with
    | none =>
      rw [filterMap_cons_none hat]
      exact ih hdistinct.2
    | some out =>
      rw [filterMap_cons_some hat, map_cons, nodup_cons]
      refine ⟨fun hmem => ?_, ih hdistinct.2⟩
      obtain ⟨other, hother, huuid⟩ := mem_map.mp hmem
      obtain ⟨from', hfrom, hout⟩ := mem_filterMap.mp hother
      apply hdistinct.1
      rw [← hkey hat, ← huuid, hkey hout]
      exact mem_map_of_mem hfrom

theorem uuid_of_under {full : DirIndex} {item : Bool × RemoteItem} {out : Uuid × Option StableUuid × Uuid}
    (h : underOf scope full undecodableDirs item = some out) : out.1 = item.2.uuid := by
  unfold underOf at h
  split at h <;> cases h
  rfl

/-- The staged view is the one built in memory, up to the order of its nodes and of its
records. -/
theorem staged_alike (undecodable : List UndecodableItem) (hnfc : ∀ name, scope.nfc (scope.nfc name) = scope.nfc name)
    (hdistinct : (items.map (·.2.uuid)).Nodup) (size : ℕ+) :
    ∃ view placed, RemoteSink.stage scope size undecodable items = some (view, placed) ∧
      view.nodes.Perm (build scope undecodable items).nodes ∧
      (view.nodes.map (·.relPath)).Nodup ∧ placed = view.nodes.length ∧
      view.heldPaths = (build scope undecodable items).heldPaths ∧
      view.collisions = (build scope undecodable items).collisions ∧
      view.skipped.Perm (build scope undecodable items).skipped := by
  obtain ⟨builder, arrivals, recorded, hbuild, hbuilt, harrivals, hrecorded⟩ :=
    @build_spec scope undecodable items hdistinct
  obtain ⟨found, hperm, hwalked, hleft⟩ :=
    @walk_spec scope undecodable items hdistinct size (dirsOf undecodable)
  have hdir : (copied scope undecodable items).raw.rawDir = fullIndex scope items :=
    funext (rawDir_copied hdistinct)
  have hreplay := @replay_eq scope (copied scope undecodable items).raw undecodable
    (unpathed scope (dirsOf undecodable) (copied scope undecodable items).raw)
    (by
      refine filterMap_eq_nil_iff.mpr fun item hitem => ?_
      obtain ⟨row, hrow, rfl⟩ := mem_map.mp hitem
      obtain ⟨hmem, htest⟩ := mem_filter.mp hrow
      exact placingOf_of_not_pathed hnfc hmem (Option.isNone_iff_eq_none.mp htest))
    (by
      intro item hitem hisdir
      obtain ⟨row, hrow, rfl⟩ := mem_map.mp hitem
      obtain ⟨item, n, hzip, rfl⟩ := mem_copied.mp (mem_filter.mp hrow).1
      have hname : (storedOf (rawOf scope (item, n))).2.name = scope.nfc item.2.name := rfl
      rw [hdir, hname, hnfc]
      exact (fullIndex_eq_some hdistinct).mpr
        ⟨item, fst_mem_of_mem_zipIdx (x := (item, n)) hzip, hisdir, rfl, rfl⟩)
  -- what the rows left over record is what all the items record
  have hrecords : (unpathed scope (dirsOf undecodable) (copied scope undecodable items).raw).filterMap
      (recordOf scope (copied scope undecodable items).raw.rawDir (dirsOf undecodable)) =
      items.filterMap (recordOf scope (fullIndex scope items) (dirsOf undecodable)) := by
    rw [filterMap_unpathed _ fun row hrow found h => (outcome_of_pathed hnfc hrow h).1, hdir]
    exact filterMap_copied fun item n => recordOf_stored hnfc _ _ item n
  have hunders : (unpathed scope (dirsOf undecodable) (copied scope undecodable items).raw).filterMap
      (underOf scope (copied scope undecodable items).raw.rawDir (dirsOf undecodable)) =
      items.filterMap (underOf scope (fullIndex scope items) (dirsOf undecodable)) := by
    rw [filterMap_unpathed _ fun row hrow found h => (outcome_of_pathed hnfc hrow h).2, hdir]
    exact filterMap_copied fun item n => underOf_stored _ _ item n
  rw [hrecords, hunders, hdir] at hreplay
  have hplacings : (found.filterMap fun row => arrivalOf scope row.1 row.2).Perm arrivals := by
    refine (hperm.filterMap _).trans ?_
    rw [filterMap_filterMap, filterMap_copied fun item n => arrivalOf_pathed item n, hdir]
    exact harrivals.symm
  have hslots := Slots.Settled.perm (settled_left _) (settled_left _) hplacings
  generalize found.filterMap (fun row => arrivalOf scope row.1 row.2) = placings at hwalked hslots
  generalize hwalk : Walk.new.run scope (dirsOf undecodable) (copied scope undecodable items).raw size
    [Dir.new scope.root [] 0] = walk at hwalked hleft
  have hstage : RemoteSink.stage scope size undecodable items =
      (copied scope undecodable items).finish scope size := rfl
  unfold RemoteSink.finish at hstage
  dsimp only at hstage
  rw [copied_undecodable, hwalk, hleft, hreplay, Option.map_some] at hstage
  refine ⟨_, _, hstage, ?_, ?_, ?_, ?_, ?_, ?_⟩
  · rw [hbuild]
    refine @perm_of_rowAt _ _ _ RemoteNode.relPath _ _ ?_ hbuilt.distinct fun p => ?_
    · rw [map_map]
      exact hwalked.distinct
    rw [hbuilt.nodes, ← (hslots p).1, rowAt_map_node, hwalked.rows, Option.map_map]
    rfl
  · rw [map_map]
    exact hwalked.distinct
  · rw [length_map]
    exact hwalked.placed
  · rw [hbuild]
    refine SortedSet.ext fun p => ?_
    rw [hwalked.held, hbuilt.held, (hslots p).2.1]
  · rw [hbuild]
    refine SortedSet.ext fun p => ?_
    rw [hwalked.twins, hbuilt.twins, (hslots p).2.2]
  rw [hbuild]
  exact finish_perm hrecorded.symm (nodup_keys_filterMap remoteUuid_of_record hdistinct) (.refl _)
    (nodup_keys_filterMap uuid_of_under hdistinct)

/-- A directory below the root with a file in it, handed over first, and a file whose
parent is nowhere. -/
theorem staged_alike_two :
    let scope : Scope :=
      {
        nfc := id
        fold := asciiFold
        windows := false
        root := 0
        pairRoot := .drive
      }
    let dir := mk 1 0 "d".toList none none 0 0
    let file := mk 2 1 "f".toList (some 7) none 3 0
    let lost := mk 3 9 "g".toList (some 8) none 0 0
    let items := [(false, file), (true, dir), (false, lost)]
    (items.map (·.2.uuid)).Nodup ∧
      ∃ view placed, RemoteSink.stage scope 1 [] items = some (view, placed) ∧
        view.nodes.Perm (build scope [] items).nodes ∧
        (view.nodes.map (·.relPath)).Nodup ∧ placed = view.nodes.length ∧
        view.heldPaths = (build scope [] items).heldPaths ∧
        view.collisions = (build scope [] items).collisions ∧
        view.skipped.Perm (build scope [] items).skipped := by
  intro scope dir file lost items
  have hdistinct : (items.map (·.2.uuid)).Nodup := by decide
  exact ⟨hdistinct, staged_alike [] (fun _ => rfl) hdistinct 1⟩

/-! ## The order items arrive in -/

theorem fullIndex_perm {items' : List (Bool × RemoteItem)} (hdistinct : (items.map (·.2.uuid)).Nodup)
    (hperm : items.Perm items') : fullIndex scope items = fullIndex scope items' := by
  have hdistinct' := (hperm.map fun item => item.2.uuid).nodup_iff.mp hdistinct
  refine funext fun u => Option.ext fun entry => ?_
  rw [fullIndex_eq_some hdistinct, fullIndex_eq_some hdistinct']
  constructor
  · rintro ⟨item, hitem, hrest⟩
    exact ⟨item, hperm.mem_iff.mp hitem, hrest⟩
  rintro ⟨item, hitem, hrest⟩
  exact ⟨item, hperm.mem_iff.mpr hitem, hrest⟩

/-- The view is the same whatever order its items arrive in. -/
theorem build_ignores_order (undecodable : List UndecodableItem) {items' : List (Bool × RemoteItem)}
    (hdistinct : (items.map (·.2.uuid)).Nodup) (hperm : items.Perm items') :
    ((build scope undecodable items).nodes.map (·.relPath)).Nodup ∧
      (build scope undecodable items).nodes.Perm (build scope undecodable items').nodes ∧
      (build scope undecodable items).heldPaths =
        (build scope undecodable items').heldPaths ∧
      (build scope undecodable items).collisions =
        (build scope undecodable items').collisions ∧
      (build scope undecodable items).skipped.Perm
        (build scope undecodable items').skipped := by
  have hdistinct' := (hperm.map fun item => item.2.uuid).nodup_iff.mp hdistinct
  obtain ⟨builder, arrivals, recorded, hbuild, hbuilt, harrivals, hrecorded⟩ :=
    @build_spec scope undecodable items hdistinct
  obtain ⟨builder', arrivals', recorded', hbuild', hbuilt', harrivals', hrecorded'⟩ :=
    @build_spec scope undecodable items' hdistinct'
  rw [← fullIndex_perm hdistinct hperm] at hbuild' harrivals' hrecorded'
  have hslots := Slots.Settled.perm (settled_left _) (settled_left _)
    (harrivals.trans ((hperm.filterMap _).trans harrivals'.symm))
  rw [hbuild, hbuild']
  refine ⟨hbuilt.distinct, ?_, ?_, ?_, ?_⟩
  · refine perm_of_rowAt hbuilt.distinct hbuilt'.distinct fun p => ?_
    rw [hbuilt.nodes, hbuilt'.nodes, (hslots p).1]
  · refine SortedSet.ext fun p => ?_
    rw [hbuilt.held, hbuilt'.held, (hslots p).2.1]
  · refine SortedSet.ext fun p => ?_
    rw [hbuilt.twins, hbuilt'.twins, (hslots p).2.2]
  refine finish_perm (hrecorded.trans ((hperm.filterMap _).trans hrecorded'.symm)) ?_ (hperm.filterMap _)
    (nodup_keys_filterMap uuid_of_under hdistinct)
  exact (hrecorded.map _).nodup_iff.mpr (nodup_keys_filterMap remoteUuid_of_record hdistinct)

/-- Two files of one name, a directory that is its own parent and a file below it. -/
theorem build_ignores_order_twins :
    let scope : Scope :=
      {
        nfc := id
        fold := asciiFold
        windows := false
        root := 0
        pairRoot := .drive
      }
    let one := (false, mk 1 0 "a".toList (some 7) none 0 0)
    let other := (false, mk 2 0 "a".toList (some 8) none 0 0)
    let loop := (true, mk 3 3 "d".toList none none 0 0)
    let lost := (false, mk 4 3 "f".toList (some 9) none 0 0)
    let view := build scope [] [one, other, loop, lost]
    let view' := build scope [] [lost, loop, other, one]
    (view.nodes.map (·.relPath)).Nodup ∧ view.nodes.Perm view'.nodes ∧ view.heldPaths = view'.heldPaths ∧
      view.collisions = view'.collisions ∧ view.skipped.Perm view'.skipped := by
  intro scope one other loop lost view view'
  exact build_ignores_order [] (by decide) (by decide)

end Staged

end SyncEngine.Remote
