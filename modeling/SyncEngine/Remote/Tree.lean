import SyncEngine.Remote.Alike

/-! # The view is a tree

What the builder hands the planner: each item once, under a directory of the view or under
a path two items claim, which is held and has no node.
-/

namespace SyncEngine.Remote

open Collections RemoteItem List

variable {scope : Scope}

theorem Scope.isReservedPath_below {path name : Path} (h : scope.isReservedPath path = true) :
    scope.isReservedPath (path ++ '/' :: name) = true := by
  unfold isReservedPath isAccountData at h ⊢
  rw [splitOn_append_cons_of_beq _ _ (beq_self_eq_true '/'), any_append]
  simp only [Bool.or_eq_true, Bool.and_eq_true, beq_iff_eq, isPrefixOf_iff_prefix, CaseFold.atOrUnderFolded_iff] at h ⊢
  rcases h with ((rfl | hbin) | htrash) | ⟨hdrive, hdata⟩
  · exact Or.inl (Or.inl (Or.inr ⟨name, by simp⟩))
  · exact Or.inl (Or.inl (Or.inr (hbin.trans (prefix_append _ _))))
  · exact Or.inl (Or.inr (Or.inl htrash))
  · exact Or.inr ⟨hdrive, atOrUnder_trans (scope.fold.atOrUnder_collisionKey (Or.inr (isUnder_append path name))) hdata⟩

variable {dirIndex : DirIndex} {undecodableDirs : List Uuid}

/-- A climb passes the same names whatever it stepped up from, with as many steps or more. -/
theorem climb_names {left : Nat} {below : Option Uuid} {u : Uuid} {parts : List Name} {path : Path}
    (h : scope.climb dirIndex undecodableDirs left below u parts = .ok path) :
    ∃ names, (∀ name ∈ names, name ≠ []) ∧ path = ['/'].intercalate (names ++ parts) ∧ ∀ more below' parts',
      left ≤ more → scope.climb dirIndex undecodableDirs more below' u parts' = .ok (['/'].intercalate (names ++ parts')) := by
  fun_induction Scope.climb scope dirIndex undecodableDirs left below u parts with
  | case1 left below parts =>
    cases h
    refine ⟨[], nofun, rfl, fun more below' parts' _ => ?_⟩
    unfold Scope.climb
    exact if_pos rfl
  | case6 below u parts hroot left hdecodable name grandparent hentry hname ih =>
    obtain ⟨names, hnames, rfl, hmore⟩ := ih h
    refine ⟨names ++ [name], forall_mem_append.mpr ⟨hnames, forall_mem_singleton.mpr
      (Scope.ne_nil_of_isPlaceableName hname)⟩, by simp, fun more below' parts' hle => ?_⟩
    obtain ⟨more, rfl⟩ := Nat.exists_eq_add_one_of_ne_zero (Nat.ne_zero_of_lt hle)
    unfold Scope.climb
    simp only [if_neg hroot, if_neg hdecodable, hentry, if_pos hname]
    rw [hmore more (some u) (name :: parts') (Nat.le_of_succ_le_succ hle), append_assoc]
    rfl
  | _ => cases h

/-- A parent found below the root is an indexed directory, at that path. -/
theorem resolveParent_up {parent : Uuid} {path : Path} (hne : path ≠ [])
    (h : scope.resolveParent parent dirIndex undecodableDirs = .ok path) :
    ∃ name grandparent above, dirIndex parent = some (name, grandparent) ∧ scope.isPlaceableName name = true ∧
      scope.resolveParent grandparent dirIndex undecodableDirs = .ok above ∧ path = joinPath above name := by
  unfold Scope.resolveParent maxRemoteDepth Scope.climb at h
  split at h
  · cases h
    exact absurd rfl hne
  dsimp only at h
  split at h
  · cases h
  split at h
  · cases h
  rename_i name grandparent hentry
  split at h
  · rename_i hname
    obtain ⟨names, hnames, rfl, hmore⟩ := climb_names h
    refine ⟨name, grandparent, _, hentry, hname, hmore maxRemoteDepth none [] (by decide), ?_⟩
    rw [append_nil]
    unfold joinPath
    by_cases hnil : names = []
    · rw [hnil]
      simp [List.intercalate]
    · rw [if_neg (intercalate_ne_nil hnil hnames), intercalate_concat hnil]
  · cases h

variable {arrivals : List Placing} {builder : ViewBuilder} {node : RemoteNode}

/-- A path has the node of its only arrival; it has none where nothing arrived or it is held. -/
theorem Built.at (h : Built arrivals builder) (p : Path) :
    (∃ a, Slots.arrivedAt arrivals p = [a] ∧ rowAt RemoteNode.relPath builder.nodes p = some a.item ∧
        p ∉ builder.heldPaths) ∨
      rowAt RemoteNode.relPath builder.nodes p = none ∧ (p ∈ builder.heldPaths ∨ Slots.arrivedAt arrivals p = []) := by
  rw [h.nodes, h.held, (settled_left arrivals).sole, (settled_left arrivals).held]
  cases Slots.arrivedAt arrivals p with
  | nil => exact Or.inr ⟨rfl, Or.inr rfl⟩
  | cons a rest =>
    cases rest with
    | nil => exact Or.inl ⟨a, rfl, rfl, nofun⟩
    | cons b rest => exact Or.inr ⟨rfl, Or.inl rfl⟩

theorem Built.arrival (h : Built arrivals builder) (hnode : node ∈ builder.nodes) :
    node.relPath ∉ builder.heldPaths ∧ ∃ a ∈ arrivals, a.item = node := by
  have hrow := (rowAt_eq_some h.distinct).mpr hnode
  rcases h.at node.relPath with ⟨a, hat, hsole, hfree⟩ | ⟨hnone, -⟩
  · exact ⟨hfree, a, mem_of_mem_filter (hat ▸ mem_cons_self), Option.some.inj (hsole.symm.trans hrow)⟩
  · cases hnone.symm.trans hrow

variable {items : List (Bool × RemoteItem)} {undecodable : List UndecodableItem} {view : RemoteView}

/-- Every node of the view is alone at its path and the only one of its item, with a placeable
name under the root, a directory of the view or a held path. -/
theorem build_tree (hdistinct : (items.map (·.2.uuid)).Nodup) (hview : ViewBuilder.build scope undecodable items = view)
    (hnode : node ∈ view.nodes) :
    node.relPath ∉ view.heldPaths ∧ scope.isReservedPath node.relPath = false ∧
      (∀ other ∈ view.nodes, other.relPath = node.relPath ∨ other.remoteUuid = node.remoteUuid → other = node) ∧
      ∃ parent name, node.relPath = joinPath parent name ∧ scope.isPlaceableName name = true ∧
        (parent = [] ∨ parent ∈ view.heldPaths ∨ ∃ dir ∈ view.nodes, dir.relPath = parent ∧ dir.kind = .dir) := by
  obtain ⟨builder, arrivals, recorded, hbuild, hbuilt, hperm, -⟩ := @build_spec scope undecodable items hdistinct
  have hfair := (@fair_placings scope items _ (dirsOf undecodable) hdistinct).perm hperm.symm
  obtain rfl := hbuild.symm.trans hview
  obtain ⟨hfree, a, ha, rfl⟩ := hbuilt.arrival hnode
  obtain ⟨item, hitem, hplacing⟩ := mem_filterMap.mp (hperm.mem_iff.mp ha)
  unfold placingOf at hplacing
  split at hplacing
  · rename_i parent hparent
    dsimp only at hplacing
    split at hplacing
    · rename_i hname
      cases hplacing
      refine ⟨hfree, hname.2, ?_, parent, _, rfl, hname.1, ?_⟩
      · rintro other hother (hpath | huuid)
        · exact inj_on_of_nodup_map hbuilt.distinct hother hnode hpath
        · obtain ⟨-, b, hb, rfl⟩ := hbuilt.arrival hother
          rw [inj_on_of_nodup_map hfair.uuids hb ha huuid]
      by_cases hne : parent = []
      · exact Or.inl hne
      obtain ⟨name, grandparent, above, hentry, hplaceable, habove, rfl⟩ := resolveParent_up hne hparent
      obtain ⟨dir, hdir, hisDir, -, hpair⟩ := (fullIndex_eq_some hdistinct).mp hentry
      obtain ⟨rfl, rfl⟩ := Prod.mk.inj hpair
      have hreserved : scope.isReservedPath (joinPath above (scope.nfc dir.2.name)) = false := by
        rw [joinPath, if_neg hne] at hname
        exact Bool.eq_false_iff.mpr fun hreserved =>
          Bool.eq_false_iff.mp hname.2 (Scope.isReservedPath_below hreserved)
      have hdirPlacing : ∃ b, placingOf scope (fullIndex scope items) (dirsOf undecodable) dir = some b ∧
          b.place = joinPath above (scope.nfc dir.2.name) ∧ b.item.relPath = b.place ∧ b.item.kind = .dir := by
        unfold placingOf
        rw [habove]
        exact ⟨_, if_pos ⟨hplaceable, hreserved⟩, rfl, rfl, if_pos hisDir⟩
      obtain ⟨b, hb, hplace, hpath, hkind⟩ := hdirPlacing
      have hin : b ∈ Slots.arrivedAt arrivals b.place :=
        mem_filter.mpr ⟨hperm.mem_iff.mpr (mem_filterMap.mpr ⟨dir, hdir, hb⟩), decide_eq_true rfl⟩
      rw [← hplace]
      rcases hbuilt.at b.place with ⟨a, hat, hsole, -⟩ | ⟨-, hheld | hnil⟩
      · obtain rfl := mem_singleton.mp (hat ▸ hin)
        exact Or.inr (Or.inr ⟨_, mem_of_find?_eq_some hsole, hpath, hkind⟩)
      · exact Or.inr (Or.inl hheld)
      · cases hnil ▸ hin
    · cases hplacing
  · cases hplacing

/-- A file two directories down, and two directories of one name with a file in one of them. -/
theorem build_tree_nested :
    let scope : Scope := ⟨id, asciiFold, false, 0, .drive⟩
    let view := ViewBuilder.build scope []
      [(false, mk 3 2 "f".toList (some 7) none 3 0), (true, mk 2 1 "e".toList none none 0 0),
        (true, mk 1 0 "d".toList none none 0 0), (true, mk 4 0 "t".toList none none 0 0),
        (true, mk 5 0 "t".toList none none 0 0), (false, mk 6 4 "g".toList (some 8) none 1 0)]
    (view.nodes.map fun node => String.ofList node.relPath) = ["d", "t/g", "d/e/f", "d/e"] ∧
      view.heldPaths.toList = ["t".toList] ∧
      ∀ node ∈ view.nodes, node.relPath ∉ view.heldPaths ∧ scope.isReservedPath node.relPath = false ∧
        (∀ other ∈ view.nodes, other.relPath = node.relPath ∨ other.remoteUuid = node.remoteUuid → other = node) ∧
        ∃ parent name, node.relPath = joinPath parent name ∧ scope.isPlaceableName name = true ∧
          (parent = [] ∨ parent ∈ view.heldPaths ∨ ∃ dir ∈ view.nodes, dir.relPath = parent ∧ dir.kind = .dir) := by
  intro scope view
  exact ⟨by decide +kernel, by decide +kernel, fun node hnode => build_tree (by decide) rfl hnode⟩

end SyncEngine.Remote
