import SyncEngine.FsTree.Kept

/-! # Listing a tree

An array that reads as a grove is iterated as the grove is walked: the levels around an entry
are as many as it is deep, and tell the names on the way to it.
-/

namespace SyncEngine.FsTree

open Collections FSTree List

variable {D F β : Type} {tree : FSTree D F}

namespace FSTree

def around (tree : FSTree D F) (levels : List LevelState) : Option (List Name) :=
  levels.reverse.mapM fun level => (tree.entries[level.start - 1]?).map Entry.name

theorem around_cons {level : LevelState} {levels : List LevelState} {above : List Name} {entry : Entry D F}
    (hentry : tree.entries[level.start - 1]? = some entry) (h : tree.around levels = some above) :
    tree.around (level :: levels) = some (above ++ [entry.name]) := by
  unfold around at h ⊢
  rw [reverse_cons, mapM_append, h]
  simp [hentry]

theorem length_descendants {levels : List LevelState} {name : Name} {names : List Name}
    (h : tree.descendants levels name = some names) : names.length - 1 = levels.length - 1 := by
  have hlength : ∀ (levels : List LevelState) (above : List Name),
      (levels.mapM fun level => (tree.entries[level.start - 1]?).map Entry.name) = some above → above.length = levels.length := by
    intro levels
    induction levels with
    | nil =>
      intro above h
      cases h
      rfl
    | cons level levels ih =>
      intro above h
      rw [mapM_cons] at h
      obtain ⟨name, -, h⟩ := Option.bind_eq_some_iff.mp h
      obtain ⟨rest, hrest, h⟩ := Option.bind_eq_some_iff.mp h
      cases h
      exact congrArg (· + 1) (ih rest hrest)
  unfold descendants at h
  obtain ⟨above, habove, rfl⟩ := Option.map_eq_some_iff.mp h
  have habove := hlength _ _ habove
  rw [length_reverse, length_drop] at habove
  rw [length_append, habove]
  rfl

theorem iterate_through (report : Entry D F → List LevelState → Option β) (k : Nat) {start : Nat} {outer : List LevelState} :
    tree.iterate report k (⟨start, start⟩ :: outer) = tree.iterate report k outer := by
  cases k with
  | zero => rfl
  | succ k =>
    have hnext : LevelState.nextIndex (⟨start, start⟩ :: outer) = LevelState.nextIndex outer :=
      if_neg (lt_irrefl start)
    unfold iterate
    rw [hnext]

theorem iterate_next {report : Entry D F → List LevelState → Option β} {start stop : Nat} {outer : List LevelState}
    {entry : Entry D F} {reported : β} (k : Nat) (hlt : start < stop) (hentry : tree.entries[start]? = some entry)
    (hreport : report entry (⟨start + 1, stop⟩ :: outer) = some reported) :
    tree.iterate report (k + 1) (⟨start, stop⟩ :: outer) =
      (tree.iterate report k (enter entry (⟨start + 1, stop⟩ :: outer))).map (reported :: ·) := by
  have hnext : LevelState.nextIndex (⟨start, stop⟩ :: outer) = some (start, ⟨start + 1, stop⟩ :: outer) := if_pos hlt
  rw [iterate, hnext]
  dsimp only
  rw [hentry]
  dsimp only
  rw [hreport]

end FSTree

theorem reads_nil {entries : List (Entry D F)} {g : Grove (Seen D F)} (h : Reads entries [] g) : g = .nil := by
  cases g with
  | nil => rfl
  | node seen below beside =>
    obtain ⟨entry, rest, hnil, -⟩ := h
    cases hnil

theorem iterate_reads {report : Entry D F → List LevelState → Option β} {f : Entry D F → List Name → β}
    (hreport : ∀ entry levels names, tree.descendants levels entry.name = some names → report entry levels = some (f entry names))
    {g : Grove (Seen D F)} {start count stop : Nat} {outer : List LevelState} {above : List Name}
    (hstop : start + count = stop) (hin : stop ≤ tree.entries.length)
    (h : Reads tree.entries ((tree.entries.drop start).take count) g) (houter : tree.around outer = some above) :
    ∃ found : List (Entry D F × List Name), found.map (fun item => (item.1.seen, item.2)) = g.paths Seen.name above ∧
      ∀ k, tree.iterate report (g.size + k) (⟨start, stop⟩ :: outer) =
        (tree.iterate report k outer).map (found.map (fun item => f item.1 item.2) ++ ·) := by
  induction g generalizing start count stop outer above with
  | nil =>
    have hnone : ((tree.entries.drop start).take count).length = 0 := congrArg List.length h
    rw [length_take, length_drop] at hnone
    obtain rfl : start = stop := by omega
    refine ⟨[], rfl, fun k => ?_⟩
    have hzero : (Grove.nil : Grove (Seen D F)).size + k = k := Nat.zero_add k
    rw [hzero, iterate_through]
    cases tree.iterate report k outer <;> rfl
  | node seen below beside hbelow hbeside =>
    obtain ⟨entry, rest, hlevel, rfl, hrange, hchildren, hrest⟩ := h
    cases count with
    | zero =>
      rw [take_zero] at hlevel
      cases hlevel
    | succ count =>
      have hlt : start < tree.entries.length := by omega
      rw [drop_eq_getElem_cons hlt, take_succ_cons] at hlevel
      obtain ⟨hentry, hrest'⟩ := List.cons.inj hlevel
      have hfound : tree.entries[start]? = some entry := by
        rw [getElem?_eq_getElem hlt, hentry]
      rw [← hrest'] at hrest
      obtain ⟨found', hpaths', hiterate'⟩ := hbeside ((Nat.succ_add_eq_add_succ start count).trans hstop) hin hrest houter
      have htold : report entry (⟨start + 1, stop⟩ :: outer) = some (f entry (above ++ [entry.name])) := by
        refine hreport entry _ _ ?_
        unfold FSTree.descendants
        exact congrArg (Option.map (· ++ [entry.name])) houter
      have hstep := fun k => iterate_next k (show start < stop by omega) hfound htold
      cases entry with
      | file name extra size =>
        obtain rfl := reads_nil hchildren
        refine ⟨(.file name extra size, above ++ [name]) :: found', ?_, fun k => ?_⟩
        · rw [map_cons, hpaths']
          rfl
        have hsize : (Grove.node (Entry.file name extra size : Entry D F).seen .nil beside).size + k =
            (beside.size + k) + 1 := by
          simp only [Grove.size]
          omega
        have henter : enter (.file name extra size : Entry D F) (⟨start + 1, stop⟩ :: outer) =
            ⟨start + 1, stop⟩ :: outer := rfl
        rw [hsize, hstep, henter, hiterate']
        cases tree.iterate report k outer <;> rfl
      | dir name info extra =>
        have hleft : tree.entries[(⟨start + 1, stop⟩ : LevelState).start - 1]? = some (.dir name info extra) := hfound
        have haround := around_cons hleft houter
        obtain ⟨found, hpaths, hiterate⟩ := hbelow rfl hrange hchildren haround
        refine ⟨(.dir name info extra, above ++ [name]) :: (found ++ found'), ?_, fun k => ?_⟩
        · rw [map_cons, map_append, hpaths, hpaths']
          rfl
        have hsize : (Grove.node (Entry.dir name info extra : Entry D F).seen below beside).size + k =
            (below.size + (beside.size + k)) + 1 := by
          simp only [Grove.size]
          omega
        have henter : enter (.dir name info extra : Entry D F) (⟨start + 1, stop⟩ :: outer) =
            ⟨info.startIdx, info.startIdx + info.numChildren⟩ :: ⟨start + 1, stop⟩ :: outer := rfl
        rw [hsize, hstep, henter, hiterate, hiterate', map_cons, map_append]
        cases tree.iterate report k outer with
        | none => rfl
        | some later => exact congrArg (fun tail => some (_ :: tail)) (append_assoc _ _ _).symm

def FSTree.rootLevel (tree : FSTree D F) : List (Entry D F) :=
  (tree.entries.drop tree.rootChildren.startIdx).take tree.rootChildren.numChildren

/-- A tree that reads as a grove. -/
structure FSTree.ReadsAs (tree : FSTree D F) (g : Grove (Seen D F)) : Prop where
  range : tree.rootNumChildren ≤ tree.entries.length
  reads : Reads tree.entries tree.rootLevel g

variable {g : Grove (Seen D F)}

theorem FSTree.ReadsAs.iterate (h : tree.ReadsAs g) (report : Entry D F → List LevelState → Option β)
    (f : Entry D F → List Name → β)
    (hreport : ∀ entry levels names, tree.descendants levels entry.name = some names → report entry levels = some (f entry names)) :
    ∃ found : List (Entry D F × List Name), found.map (fun item => (item.1.seen, item.2)) = g.paths Seen.name [] ∧
      ∀ steps, g.size < steps → tree.iterate report steps [LevelState.fromDirChildrenInfo tree.rootChildren] =
        some (found.map fun item => f item.1 item.2) := by
  obtain ⟨found, hpaths, hiterate⟩ := iterate_reads hreport rfl
    (le_of_eq (Nat.sub_add_cancel h.range)) h.reads (show tree.around [] = some [] from rfl)
  refine ⟨found, hpaths, fun steps hlt => ?_⟩
  obtain ⟨k, rfl⟩ : ∃ k, steps = g.size + (k + 1) := ⟨steps - g.size - 1, by omega⟩
  have hempty : tree.iterate report (k + 1) [] = some [] := rfl
  refine (hiterate (k + 1)).trans ?_
  rw [hempty, Option.map_some, append_nil]

theorem FSTree.ReadsAs.dfsIter (h : tree.ReadsAs g) :
    ∃ found : List (Entry D F × Nat), found.map (fun item => (item.1.seen, item.2)) = g.walk 0 ∧
      ∀ steps, g.size < steps → tree.dfsIter steps = some found := by
  obtain ⟨found, hpaths, hiterate⟩ := h.iterate (fun entry levels => some (entry, levels.length - 1))
    (fun entry names => (entry, names.length - 1))
    (fun entry levels names hnames => congrArg (fun depth => some (entry, depth)) (length_descendants hnames).symm)
  refine ⟨found.map fun item : Entry D F × List Name => (item.1, item.2.length - 1), ?_, hiterate⟩
  have hwalk := Grove.walk_eq_paths Seen.name [] g
  rw [← hpaths, map_map] at hwalk
  rw [map_map]
  exact hwalk.symm

theorem FSTree.ReadsAs.dfsIterWithPath (h : tree.ReadsAs g) (root : Name) :
    ∃ found : List (Entry D F × Name),
      found.map (fun item => (item.1.seen, item.2)) =
        (g.paths Seen.name []).map (fun item => (item.1, buildPathStr root item.2)) ∧
      ∀ steps, g.size < steps → tree.dfsIterWithPath root steps = some found := by
  obtain ⟨found, hpaths, hiterate⟩ := h.iterate
    (fun entry levels => (tree.descendants levels entry.name).map fun names => (entry, buildPathStr root names))
    (fun entry names => (entry, buildPathStr root names))
    (fun entry levels names hnames => congrArg _ hnames)
  refine ⟨found.map fun item : Entry D F × List Name => (item.1, buildPathStr root item.2), ?_, hiterate⟩
  rw [← hpaths, map_map, map_map]
  rfl

end SyncEngine.FsTree
