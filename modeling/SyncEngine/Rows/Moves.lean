import SyncEngine.Rows.Edited

/-! # A folded move over the view

A move recorded as the mapping it is, and a move that writes the rows it moves over
what they land on, both leave the view the plain map has after the move, with the
counts of its rows.
-/

namespace SyncEngine

open Collections BaselineEntry List

/-! ## The plain move, row by row -/

namespace Baseline

variable {b : Baseline} {src dst : Path} {moved : List BaselineEntry}

/-- Rows are those a move takes along, each at the path it lands on. -/
structure MovesRows (b : Baseline) (src dst : Path) (moved : List BaselineEntry) : Prop where
  nodup : (moved.map relPath).Nodup
  mem : ∀ row, row ∈ moved ↔ row ∈ b.movingRows src dst

theorem MovesRows.moveSubtree_eq (h : b.MovesRows src dst moved) (hs : src ≠ []) (hd : dst ≠ [])
    (hne : src ≠ dst) : moved.foldl write (b.dropSubtree src) = b.moveSubtree src dst := by
  refine ext_get fun path => ?_
  obtain ⟨hin, hout⟩ := get_foldl_write (b.dropSubtree src) h.nodup path
  rw [get_moveSubtree hs hd hne]
  cases hold : (movedPath path dst src).bind b.get with
  | some old =>
    obtain ⟨source, hsource, hget⟩ := Option.bind_eq_some_iff.mp hold
    refine hin { old with relPath := path } ((h.mem _).mpr (mem_movingRows.mpr ?_)) rfl
    refine ⟨old, mem_rows_of_get hget, ?_, rfl⟩
    rw [get_relPath hget]
    exact movedPath_symm.mp hsource
  | none =>
    rw [hout, get_dropSubtree]
    intro hmem
    obtain ⟨row, hrow, rfl⟩ := mem_map.mp hmem
    obtain ⟨old, holdmem, hmoved, -⟩ := mem_movingRows.mp ((h.mem row).mp hrow)
    rw [movedPath_symm.mp hmoved, Option.bind_some, get_of_mem holdmem] at hold
    cases hold

/-- The rows a move replaces, in the order of the rows that land on them. -/
def replacedBy (b : Baseline) (moved : List BaselineEntry) : List BaselineEntry :=
  (moved.map relPath).filterMap b.get

/-- The rows no moved row lands on. -/
def keptBeside (b : Baseline) (moved : List BaselineEntry) : List BaselineEntry :=
  b.rows.filter fun row => !decide (row.relPath ∈ moved.map relPath)

theorem mem_replacedBy {row : BaselineEntry} :
    row ∈ b.replacedBy moved ↔ row ∈ b.rows ∧ row.relPath ∈ moved.map relPath := by
  unfold replacedBy
  rw [mem_filterMap]
  constructor
  · rintro ⟨path, hpath, hget⟩
    obtain ⟨hmem, rfl⟩ := get_eq_some_iff.mp hget
    exact ⟨hmem, hpath⟩
  rintro ⟨hmem, hpath⟩
  exact ⟨row.relPath, hpath, get_of_mem hmem⟩

theorem mem_keptBeside {row : BaselineEntry} :
    row ∈ b.keptBeside moved ↔ row ∈ b.rows ∧ row.relPath ∉ moved.map relPath := by
  unfold keptBeside
  rw [mem_filter, Bool.not_eq_true', decide_eq_false_iff_not]

theorem perm_replacedBy (hnd : (moved.map relPath).Nodup) :
    b.rows.Perm (b.replacedBy moved ++ b.keptBeside moved) := by
  have hreplaced : (b.replacedBy moved).Nodup := by
    refine hnd.filterMap fun p q row hp hq => ?_
    rw [← get_relPath hp, ← get_relPath hq]
  refine (perm_ext_iff_of_nodup b.ascending.nodup ?_).mpr fun row => ?_
  · rw [nodup_append]
    refine ⟨hreplaced, b.ascending.nodup.filter _, fun r hr s hs heq => ?_⟩
    exact (mem_keptBeside.mp hs).2 (heq ▸ (mem_replacedBy.mp hr).2)
  rw [mem_append, mem_replacedBy, mem_keptBeside, ← and_or_left]
  exact (and_iff_left (em _)).symm

theorem perm_foldl_write (hnd : (moved.map relPath).Nodup) :
    (moved.foldl write b).rows.Perm (moved ++ b.keptBeside moved) := by
  refine (perm_ext_iff_of_nodup (ascending _).nodup ?_).mpr fun row => ?_
  · rw [nodup_append]
    refine ⟨List.Nodup.of_map _ hnd, b.ascending.nodup.filter _, fun r hr s hs heq => ?_⟩
    exact (mem_keptBeside.mp hs).2 (heq ▸ mem_map_of_mem hr)
  obtain ⟨hin, hout⟩ := get_foldl_write b hnd row.relPath
  rw [mem_rows_iff, mem_append, mem_keptBeside]
  constructor
  · intro hget
    by_cases hpath : row.relPath ∈ moved.map relPath
    · obtain ⟨other, hother, heq⟩ := mem_map.mp hpath
      rw [hin other hother heq] at hget
      cases hget
      exact Or.inl hother
    rw [hout hpath] at hget
    exact Or.inr ⟨mem_rows_iff.mpr hget, hpath⟩
  rintro (hmem | ⟨hmem, hpath⟩)
  · exact hin row hmem rfl
  rw [hout hpath]
  exact get_of_mem hmem

theorem MovesRows.perm_movingRows (h : b.MovesRows src dst moved) :
    moved.Perm (b.movingRows src dst) := by
  have hnd := b.nodup_moved src dst
  rw [map_append, nodup_append] at hnd
  exact (perm_ext_iff_of_nodup (List.Nodup.of_map _ h.nodup)
    (List.Nodup.of_map _ hnd.2.1)).mpr h.mem

end Baseline

namespace Rows

theorem perm_weights {b : SyncEngine.Baseline} {src dst : Path} {moved : List BaselineEntry}
    (h : b.MovesRows src dst moved) :
    (b.rows.map weight).Perm ((moved ++ (b.dropSubtree src).rows).map weight) := by
  have hmoving : ∀ rows : List BaselineEntry,
      (rows.filterMap fun row => (movedPath row.relPath src dst).map fun p =>
        { row with relPath := p }).map weight =
      (rows.filter fun row => decide (AtOrUnder row.relPath src)).map weight := by
    intro rows
    induction rows with
    | nil => rfl
    | cons row rows ih =>
      cases hmoved : movedPath row.relPath src dst with
      | none =>
        have hout : (row :: rows).filter (fun r => decide (AtOrUnder r.relPath src)) =
            rows.filter fun r => decide (AtOrUnder r.relPath src) :=
          filter_cons_of_neg (by simpa using movedPath_eq_none.mp hmoved)
        rw [filterMap_cons_none (by rw [hmoved]; rfl), hout, ih]
      | some landing =>
        have hunder : (row :: rows).filter (fun r => decide (AtOrUnder r.relPath src)) =
            row :: rows.filter fun r => decide (AtOrUnder r.relPath src) :=
          filter_cons_of_pos (decide_eq_true (atOrUnder_of_movedPath hmoved).1)
        rw [filterMap_cons_some (b := { row with relPath := landing })
          (by rw [hmoved]; rfl), hunder, map_cons, map_cons, ih]
        rfl
  have hsplit := filter_append_perm (fun row => decide (AtOrUnder row.relPath src)) b.rows
  have hmap := (hsplit.map weight).symm
  rw [map_append] at hmap ⊢
  refine hmap.trans (List.Perm.append ?_ (List.Perm.refl _))
  rw [← hmoving b.rows]
  exact (h.perm_movingRows.map weight).symm

/-! ## The view as a pass holds it -/

/-- A pass's view answers at each path as a plain map does, over layers as a pass
builds them and with the counts of the map's rows. -/
structure Views (fold : CaseFold) (b : Baseline) (flat : PlainRows) : Prop where
  sound : Sound b.table fold b.layers
  agrees : ∀ path, b.get path = flat.get path
  counted : ∀ edits, b.edits = some edits → Counted edits flat.rows

section Views

variable {fold : CaseFold} {b : Baseline} {flat : PlainRows}

theorem Views.stored (table : Table) : Views fold (Baseline.stored table) table.toBaseline where
  sound := trivial
  agrees := getAt_nil table
  counted edits hedits := by cases hedits

theorem Views.of_over {table : Table} {edits : Edits} (h : Over table fold edits flat)
    (hcounted : Counted edits flat.rows) : Views fold ⟨table, some edits⟩ flat where
  sound := h.sound
  agrees := h.agrees
  counted edits' hedits := by
    cases hedits
    exact hcounted

section

variable (h : Views fold b flat)
include h

theorem Views.over {edits : Edits} (hlayers : edits.layers = b.layers) :
    Over b.table fold edits flat where
  sound := by
    rw [hlayers]
    exact h.sound
  agrees := by
    rw [hlayers]
    exact h.agrees

theorem Views.eq_table (hedits : b.layers = []) :
    flat = b.table.toBaseline := by
  refine SyncEngine.Baseline.ext_get fun path => ?_
  rw [← h.agrees]
  unfold Baseline.get
  rw [hedits, getAt_nil]

theorem Views.editsMut :
    ∃ edits, b.editsMut = some edits ∧ edits.layers = b.layers ∧ Over b.table fold edits flat ∧
      Counted edits flat.rows := by
  unfold Baseline.editsMut
  cases hedits : b.edits with
  | some edits =>
    have hlayers : edits.layers = b.layers := by
      unfold Baseline.layers
      rw [hedits]
      rfl
    exact ⟨edits, rfl, hlayers, h.over hlayers, h.counted edits hedits⟩
  | none =>
    have hlayers : b.layers = [] := by
      unfold Baseline.layers
      rw [hedits]
      rfl
    obtain ⟨edits, hnew, hcounted, hnil⟩ := new_counted b.table
    refine ⟨edits, hnew, hnil.trans hlayers.symm, h.over (hnil.trans hlayers.symm), ?_⟩
    rw [h.eq_table hlayers]
    exact hcounted

theorem Views.clean : flat.Clean := by
  obtain ⟨edits, -, -, hover, -⟩ := h.editsMut
  exact hover.clean

theorem Views.containsKey (path : Path) :
    b.containsKey path = flat.containsKey path := by
  unfold Baseline.containsKey Baseline.carryFlag SyncEngine.Baseline.containsKey
  rw [carryFlagAt_eq, Option.isSome_map]
  exact congrArg Option.isSome (h.agrees path)

theorem Views.mem_subtree {root : Path} (hroot : root ≠ []) (row : BaselineEntry) :
    row ∈ b.subtree root ↔ flat.get row.relPath = some row ∧ isUnder row.relPath root := by
  unfold Baseline.subtree
  rw [rowsIn_under h.sound, or_iff_right hroot, ← h.agrees]
  rfl

theorem Views.mem_rowsAt {root : Path} (hroot : root ≠ []) (row : BaselineEntry) :
    row ∈ (b.get root).toList ++ b.subtree root ↔
      flat.get row.relPath = some row ∧ AtOrUnder row.relPath root := by
  rw [mem_append, Option.mem_toList, h.mem_subtree hroot, h.agrees]
  constructor
  · rintro (hget | ⟨hget, hunder⟩)
    · have hpath := SyncEngine.Baseline.get_relPath hget
      exact ⟨by rw [hpath, hget], Or.inl hpath⟩
    · exact ⟨hget, Or.inr hunder⟩
  rintro ⟨hget, heq | hunder⟩
  · exact Or.inl (heq ▸ hget)
  · exact Or.inr ⟨hget, hunder⟩

theorem Views.nodup_rowsAt {root : Path} (hroot : root ≠ []) :
    (((b.get root).toList ++ b.subtree root).map relPath).Nodup := by
  rw [map_append, nodup_append]
  refine ⟨?_, (rowsIn_rowsOf h.sound (Span.under root) false).ascending.nodup_keys, ?_⟩
  · cases b.get root with
    | none => exact nodup_nil
    | some row => exact nodup_singleton _
  intro p hp q hq heq
  obtain ⟨r, hr, rfl⟩ := mem_map.mp hp
  obtain ⟨s, hs, rfl⟩ := mem_map.mp hq
  have hpath : r.relPath = root := getAt_relPath b.table (Option.mem_toList.mp hr)
  have hunder := ((h.mem_subtree hroot s).mp hs).2
  rw [← heq, hpath, isUnder_self] at hunder
  cases hunder

theorem Views.moving {src : Path} (hsrc : src ≠ []) (dst : Path) :
    flat.MovesRows src dst (b.moving src dst) := by
  have hmoving : b.moving src dst = ((b.get src).toList ++ b.subtree src).filterMap fun row =>
      (movedPath row.relPath src dst).map row.movedTo := by
    unfold Baseline.moving
    rw [filterMap_append]
    congr 1
    cases hget : b.get src with
    | none => rfl
    | some row =>
      have hpath : row.relPath = src := getAt_relPath b.table hget
      simp [hpath]
  rw [hmoving]
  constructor
  · have hpaths : (((b.get src).toList ++ b.subtree src).filterMap fun row =>
        (movedPath row.relPath src dst).map row.movedTo).map relPath =
        (((b.get src).toList ++ b.subtree src).map relPath).filterMap fun p =>
          movedPath p src dst := by
      rw [map_filterMap, filterMap_map]
      refine filterMap_congr fun row _ => ?_
      dsimp only [Function.comp]
      cases movedPath row.relPath src dst <;> rfl
    rw [hpaths]
    exact (h.nodup_rowsAt hsrc).filterMap fun p q out hp hq => movedPath_injective hp hq
  intro row
  rw [mem_filterMap, SyncEngine.Baseline.mem_movingRows]
  constructor
  · rintro ⟨old, hold, hmoved⟩
    obtain ⟨landing, hlanding, rfl⟩ := Option.map_eq_some_iff.mp hmoved
    obtain ⟨hget, -⟩ := (h.mem_rowsAt hsrc old).mp hold
    exact ⟨old, SyncEngine.Baseline.mem_rows_iff.mpr hget, hlanding, rfl⟩
  rintro ⟨old, hold, hmoved, hrow⟩
  refine ⟨old, (h.mem_rowsAt hsrc old).mpr ⟨SyncEngine.Baseline.mem_rows_iff.mp hold,
    (atOrUnder_of_movedPath hmoved).1⟩, ?_⟩
  rw [hmoved, Option.map_some]
  exact congrArg some hrow.symm

end

/-! ## Landing the rows that moved -/

theorem lookup_foldl_insert {rows : List BaselineEntry}
    (hnd : (rows.map relPath).Nodup) (map : Nodes BaselineEntry) (path : Path) :
    (∀ row ∈ rows, row.relPath = path →
      Nodes.nodeAt (rows.foldl (fun map row => map.insert row.relPath row) map) path = some row) ∧
    (path ∉ rows.map relPath →
      Nodes.nodeAt (rows.foldl (fun map row => map.insert row.relPath row) map) path =
        map.nodeAt path) := by
  induction rows generalizing map with
  | nil => exact ⟨fun row hrow => absurd hrow not_mem_nil, fun _ => rfl⟩
  | cons first rows ih =>
    rw [map_cons, nodup_cons] at hnd
    obtain ⟨hin, hout⟩ := ih hnd.2 (map.insert first.relPath first)
    constructor
    · intro row hrow hpath
      rcases mem_cons.mp hrow with rfl | hrow
      · subst hpath
        rw [foldl_cons, hout hnd.1]
        exact AList.lookup_insert _
      · exact hin row hrow hpath
    intro hnot
    rw [map_cons, mem_cons, not_or] at hnot
    rw [foldl_cons, hout hnot.2]
    exact AList.lookup_insert_ne hnot.1

theorem Views.lookup_replaced (h : Views fold b flat) {dst path : Path} (hdst : dst ≠ [])
    (hunder : AtOrUnder path dst) : (Baseline.replaced b dst).nodeAt path = flat.get path := by
  obtain ⟨hin, hout⟩ := lookup_foldl_insert (h.nodup_rowsAt hdst) ∅ path
  unfold Baseline.replaced
  cases hget : flat.get path with
  | some row =>
    have hpath := SyncEngine.Baseline.get_relPath hget
    refine hin row ((h.mem_rowsAt hdst row).mpr ⟨by rw [hpath, hget], by rwa [hpath]⟩) hpath
  | none =>
    rw [hout]
    · rfl
    intro hmem
    obtain ⟨row, hrow, hpath⟩ := mem_map.mp hmem
    have hget' := ((h.mem_rowsAt hdst row).mp hrow).1
    rw [hpath, hget] at hget'
    cases hget'

end Views

theorem foldlM_land {table : Table} {fold : CaseFold} {todo rest : List BaselineEntry}
    {edits : Edits} {map : Nodes BaselineEntry} {flat : PlainRows} (h : Over table fold edits flat)
    (hclean : ∀ row ∈ todo, IsRowPath row.relPath) (hnd : (todo.map relPath).Nodup)
    (hcounted : Counted edits ((todo.map relPath).filterMap map.nodeAt ++ rest)) :
    ∃ state, todo.foldlM (Baseline.land fold) (edits, map) = some state ∧
      Over table fold state.1 (todo.foldl SyncEngine.Baseline.write flat) ∧
      Counted state.1 (todo ++ rest) := by
  induction todo generalizing edits map flat rest with
  | nil => exact ⟨(edits, map), rfl, h, hcounted⟩
  | cons row todo ih =>
    rw [map_cons, nodup_cons] at hnd
    -- the row replaced, if any, is counted first among those still to be replaced
    obtain ⟨edits₁, hone, hcounted₁, hlayers₁⟩ : ∃ edits₁,
        Baseline.land fold (edits, map) row = some ((edits₁.count row).setTop
          ((Edits.topBlock (edits₁.count row).layers).1.write fold row),
            map.erase row.relPath) ∧
        Counted edits₁ ((todo.map relPath).filterMap map.nodeAt ++ rest) ∧
        edits₁.layers = edits.layers := by
      rw [map_cons] at hcounted
      unfold Baseline.land
      cases hlookup : map.nodeAt row.relPath with
      | some old =>
        rw [filterMap_cons_some hlookup] at hcounted
        obtain ⟨edits₁, huncount, hrest⟩ := hcounted.uncount
        refine ⟨edits₁, ?_, hrest⟩
        dsimp only
        rw [huncount, Option.map_some]
      | none =>
        rw [filterMap_cons_none hlookup] at hcounted
        exact ⟨edits, rfl, hcounted, rfl⟩
    have hover₁ : Over table fold (edits₁.count row) flat := by
      have hlayers : (edits₁.count row).layers = edits.layers := hlayers₁
      constructor
      · rw [hlayers]
        exact h.sound
      rw [hlayers]
      exact h.agrees
    have hover₂ := Over.setTop (hover₁.top.write (hclean row mem_cons_self))
    have hmap : (todo.map relPath).filterMap (Nodes.nodeAt (map.erase row.relPath)) =
        (todo.map relPath).filterMap map.nodeAt := by
      refine filterMap_congr fun p hp => AList.lookup_erase_ne ?_
      rintro rfl
      exact hnd.1 hp
    have hcounted₂ : Counted ((edits₁.count row).setTop
        ((Edits.topBlock (edits₁.count row).layers).1.write fold row))
        ((todo.map relPath).filterMap (Nodes.nodeAt (map.erase row.relPath)) ++
          row :: rest) := by
      rw [hmap]
      exact ((hcounted₁.count row).setTop _).perm perm_middle.symm
    obtain ⟨state, hrest, hover, hcounted'⟩ := ih hover₂
      (fun r hr => hclean r (mem_cons_of_mem _ hr)) hnd.2 hcounted₂
    refine ⟨state, ?_, hover, hcounted'.perm perm_middle⟩
    rw [foldlM_cons, hone]
    exact hrest

/-! ## The move -/

section Move

variable {fold : CaseFold} {b : Baseline} {flat : PlainRows} {src dst : Path}

theorem moveSubtree_of_none (hs : src ≠ []) (hd : dst ≠ []) (hne : src ≠ dst)
    (hnone : ∀ path, AtOrUnder path src → flat.get path = none) :
    SyncEngine.Baseline.moveSubtree flat src dst = flat := by
  refine SyncEngine.Baseline.ext_get fun path => ?_
  rw [SyncEngine.Baseline.get_moveSubtree hs hd hne]
  have hempty : (movedPath path dst src).bind (SyncEngine.Baseline.get flat) = none := by
    refine Option.bind_eq_none_iff.mpr fun source hsource => ?_
    exact hnone source (atOrUnder_of_movedPath hsource).2
  rw [hempty]
  dsimp only
  split
  · rename_i hunder
    exact (hnone path hunder).symm
  · rfl

theorem Views.pushMoved (h : Views fold b flat) (hs : src ≠ []) (hdst : IsRowPath dst) (hne : src ≠ dst)
    (hfree : ∀ path, (flat.get path).isSome → AtOrUnder path dst → AtOrUnder path src)
    {edits : Edits} (hover : Over b.table fold edits flat) (hcounted : Counted edits flat.rows) :
    Views fold ⟨b.table, some { edits with layers := .moved src dst :: edits.layers }⟩
      (SyncEngine.Baseline.moveSubtree flat src dst) := by
  have hmoved : MovedSound (getAt b.table edits.layers) src dst :=
    ⟨hs, hdst, hne, fun path hsome => hfree path (by rwa [hover.agrees] at hsome)⟩
  refine Views.of_over ⟨⟨hmoved, hover.sound⟩, fun path => ?_⟩ ?_
  · rw [getAt_moved, SyncEngine.Baseline.get_moveSubtree hs hdst.1 hne]
    cases hpath : movedPath path dst src with
    | none =>
      rw [Option.bind_none, hover.agrees]
    | some source =>
      dsimp only
      rw [Option.bind_some, hover.agrees]
      cases hget : flat.get source with
      | some row => rfl
      | none =>
        have hunder := (atOrUnder_of_movedPath hpath).1
        rw [Option.map_none]
        dsimp only
        split
        · rfl
        rename_i hnot
        cases hold : flat.get path with
        | none => rfl
        | some row => exact absurd (hfree path (by rw [hold]; rfl) hunder) hnot
  -- nothing is replaced, so the rows that are not moved are all kept
  have hmoving := h.moving hs dst
  have hreplaced : (SyncEngine.Baseline.dropSubtree flat src).replacedBy (b.moving src dst) = [] := by
    refine eq_nil_iff_forall_not_mem.mpr fun row hrow => ?_
    obtain ⟨hmem, hpath⟩ := SyncEngine.Baseline.mem_replacedBy.mp hrow
    obtain ⟨hmem', hnot⟩ := SyncEngine.Baseline.mem_dropSubtree.mp hmem
    obtain ⟨landed, hlanded, heq⟩ := mem_map.mp hpath
    obtain ⟨old, -, hto, -⟩ := SyncEngine.Baseline.mem_movingRows.mp ((hmoving.mem landed).mp hlanded)
    refine hnot (hfree row.relPath ?_ ?_)
    · rw [SyncEngine.Baseline.get_of_mem hmem']
      rfl
    rw [← heq]
    exact (atOrUnder_of_movedPath hto).2
  have hkept := SyncEngine.Baseline.perm_replacedBy
    (b := SyncEngine.Baseline.dropSubtree flat src) hmoving.nodup
  rw [hreplaced, nil_append] at hkept
  have hrows := SyncEngine.Baseline.perm_foldl_write
    (b := SyncEngine.Baseline.dropSubtree flat src) hmoving.nodup
  rw [hmoving.moveSubtree_eq hs hdst.1 hne] at hrows
  have hall := hcounted.layers_irrel (.moved src dst :: edits.layers)
  refine hall.of_weights ((perm_weights hmoving).trans ?_)
  exact (((List.Perm.refl _).append hkept).trans hrows.symm).map weight

theorem Views.landMoved (h : Views fold b flat) (hs : src ≠ []) (hdst : IsRowPath dst)
    (hne : src ≠ dst) {edits : Edits} (hover : Over b.table fold edits flat) (hcounted : Counted edits flat.rows) :
    ∃ edits₁ state, (b.moving src dst).foldlM Edits.uncount edits = some edits₁ ∧
      (b.moving src dst).foldlM (Baseline.land fold) (Baseline.vacate edits₁ fold src,
        Baseline.replaced { b with edits := some (Baseline.vacate edits₁ fold src) } dst) =
          some state ∧
      Views fold ⟨b.table, some state.1⟩ (SyncEngine.Baseline.moveSubtree flat src dst) := by
  have hmoving := h.moving hs dst
  have hlanding : ∀ row ∈ b.moving src dst, IsRowPath row.relPath ∧ AtOrUnder row.relPath dst := by
    intro row hrow
    obtain ⟨old, hold, hto, -⟩ := SyncEngine.Baseline.mem_movingRows.mp ((hmoving.mem row).mp hrow)
    obtain ⟨rest, htail, hsource, hland⟩ := movedPath_eq_some.mp hto
    refine ⟨?_, (atOrUnder_of_movedPath hto).2⟩
    have hold' := h.clean old hold
    rw [hsource] at hold'
    rw [hland]
    exact hdst.moved hold' htail
  -- the rows that move are counted out, then the source is vacated
  have hweights : Counted edits (b.moving src dst ++ (SyncEngine.Baseline.dropSubtree flat src).rows) :=
    hcounted.of_weights (perm_weights hmoving)
  obtain ⟨edits₁, huncount, hcounted₁, hlayers₁⟩ := hweights.foldlM_uncount
  have hover₁ : Over b.table fold edits₁ flat := by
    constructor
    · rw [hlayers₁]
      exact hover.sound
    rw [hlayers₁]
    exact hover.agrees
  have hvacated : Over b.table fold (Baseline.vacate edits₁ fold src)
      (SyncEngine.Baseline.dropSubtree flat src) := Over.setTop (hover₁.top.vacate src)
  have hviews : Views fold { b with edits := some (Baseline.vacate edits₁ fold src) }
      (SyncEngine.Baseline.dropSubtree flat src) := Views.of_over hvacated (hcounted₁.setTop _)
  -- what the moved rows replace is what is still there at the paths they land on
  have hlookups : ((b.moving src dst).map relPath).filterMap
      (Baseline.replaced { b with edits := some (Baseline.vacate edits₁ fold src) } dst).nodeAt =
      (SyncEngine.Baseline.dropSubtree flat src).replacedBy (b.moving src dst) := by
    refine filterMap_congr fun path hpath => ?_
    obtain ⟨row, hrow, rfl⟩ := mem_map.mp hpath
    exact hviews.lookup_replaced hdst.1 (hlanding row hrow).2
  have hsplit : Counted (Baseline.vacate edits₁ fold src)
      (((b.moving src dst).map relPath).filterMap
        (Baseline.replaced { b with edits := some (Baseline.vacate edits₁ fold src) } dst).nodeAt ++
        (SyncEngine.Baseline.dropSubtree flat src).keptBeside (b.moving src dst)) := by
    rw [hlookups]
    exact (hcounted₁.setTop _).perm (SyncEngine.Baseline.perm_replacedBy hmoving.nodup)
  obtain ⟨state, hland, hover₂, hcounted₂⟩ := foldlM_land hvacated
    (fun row hrow => (hlanding row hrow).1) hmoving.nodup hsplit
  refine ⟨edits₁, state, huncount, hland, ?_⟩
  rw [← hmoving.moveSubtree_eq hs hdst.1 hne]
  exact Views.of_over hover₂
    (hcounted₂.perm (SyncEngine.Baseline.perm_foldl_write hmoving.nodup).symm)

theorem Views.moveSubtree (h : Views fold b flat) (hdst : dst = [] ∨ IsRowPath dst) :
    ∃ b', b.moveSubtree fold src dst = some b' ∧
      Views fold b' (SyncEngine.Baseline.moveSubtree flat src dst) := by
  unfold Baseline.moveSubtree
  by_cases hroot : src = [] ∨ dst = []
  · refine ⟨b, if_pos hroot, ?_⟩
    rw [SyncEngine.Baseline.moveSubtree, if_pos (by tauto)]
    exact h
  rw [if_neg hroot]
  obtain ⟨hs, hd⟩ := not_or.mp hroot
  have hdst' := hdst.resolve_left hd
  by_cases hstill : src = dst ∨ (b.containsKey src = false ∧ (b.subtree src).isEmpty)
  · refine ⟨b, if_pos hstill, ?_⟩
    by_cases hends : src = dst
    · rw [SyncEngine.Baseline.moveSubtree, if_pos (by tauto)]
      exact h
    obtain ⟨hnokey, hnorows⟩ := hstill.resolve_left hends
    rw [moveSubtree_of_none hs hd hends]
    · exact h
    intro path hunder
    cases hget : flat.get path with
    | none => rfl
    | some row =>
      exfalso
      have hpath := SyncEngine.Baseline.get_relPath hget
      rcases hunder with rfl | hunder
      · rw [h.containsKey, SyncEngine.Baseline.containsKey, hget] at hnokey
        cases hnokey
      have hin := (h.mem_subtree hs row).mpr ⟨by rw [hpath, hget], by rwa [hpath]⟩
      rw [isEmpty_iff.mp hnorows] at hin
      cases hin
  rw [if_neg hstill]
  have hne : src ≠ dst := fun heq => hstill (Or.inl heq)
  obtain ⟨edits, hmut, -, hover, hcounted⟩ := h.editsMut
  dsimp only
  split
  · rename_i hfree
    rw [hmut, Option.map_some]
    refine ⟨_, rfl, h.pushMoved hs hdst' hne ?_ hover hcounted⟩
    rw [Bool.or_eq_false_iff, Bool.and_eq_false_iff, Bool.not_eq_false', decide_eq_true_eq,
      any_eq_false] at hfree
    obtain ⟨hpoint, hrows⟩ := hfree
    intro path hsome hunder
    obtain ⟨row, hget⟩ := Option.isSome_iff_exists.mp hsome
    have hpath := SyncEngine.Baseline.get_relPath hget
    rcases hunder with rfl | hunder
    · refine hpoint.resolve_left ?_
      rw [h.containsKey, SyncEngine.Baseline.containsKey, hget]
      simp
    have hin := (h.mem_subtree hd row).mpr ⟨by rw [hpath, hget], by rwa [hpath]⟩
    have hnot := hrows row hin
    rw [hpath] at hnot
    simpa using hnot
  obtain ⟨edits₁, state, huncount, hland, hviews⟩ := h.landMoved hs hdst' hne hover hcounted
  refine ⟨⟨b.table, some state.1⟩, ?_, hviews⟩
  rw [hmut, Option.bind_some, huncount, Option.bind_some, hland, Option.map_some]

end Move

end Rows

end SyncEngine
