import SyncEngine.Rows.Indexes

/-! # Rows awaiting confirmation, and rows not synced

A marker a block advanced decides whether its row awaits confirmation, and the rows
under a root that are not synced are gathered through whatever moved them there.
-/

namespace SyncEngine.Rows

open Collections BaselineEntry Block List

variable {table : Table} {fold : CaseFold}

/-! ## Awaiting confirmation -/

theorem tableUnconfirmed_eq (table : Table) :
    tableUnconfirmed table = table.rows.filter awaitsConfirmation := by
  have hpages := (table.ascending.filter awaitsConfirmation).pages_eq page
    (table.rows.length + 1) (fun row => [] < row.relPath)
    (fun a _ b _ hlt hpast => decide_eq_true (lt_trans (of_decide_eq_true hpast) hlt))
    (Nat.lt_succ_of_le (le_trans (length_filter_le _ _) (length_filter_le _ _)))
  unfold tableUnconfirmed
  rw [hpages, filter_eq_self]
  intro row hrow
  have hne := (table.clean row (mem_filter.mp hrow).1).1
  have hpos := lt_append_of_ne_nil [] hne
  rw [nil_append] at hpos
  exact decide_eq_true hpos

variable {block : Block} {row : BaselineEntry} {path : Path} {layers : List Layer}

theorem Block.awaits_mark {view : Path → Option BaselineEntry}
    (h : block.Sound fold view) (hview : view row.relPath = some row) (hshows : block.showsBelow row.relPath) :
    (block.mark row).awaitsConfirmation =
      match block.agreed.get row.relPath with
      | some agreed => agreed.awaits
      | none => row.awaitsConfirmation := by
  unfold mark
  cases hagreed : block.agreed.get row.relPath with
  | none => rfl
  | some agreed => exact h.awaits row.relPath agreed row hagreed hshows hview

theorem Block.mem_heldMarks {agreed : Agreed} (hawaits : agreed.awaits) :
    (path, agreed) ∈ (block.agreed.heldMarks.map Nodes.iter).getD [] ↔
      block.agreed.get path = some agreed := by
  cases hmarks : block.agreed with
  | held marks => exact Nodes.mem_iter
  | staged stage =>
    unfold Marks.heldMarks Marks.get
    refine iff_of_false (by simp) fun h => ?_
    obtain ⟨row, -, rfl⟩ := Option.map_eq_some_iff.mp h
    cases hawaits

theorem Block.nodup_heldMarks (block : Block) :
    (((block.agreed.heldMarks.map Nodes.iter).getD []).map Prod.fst).Nodup := by
  cases block.agreed with
  | held marks => exact marks.nodup_paths
  | staged stage => exact nodup_nil

theorem mem_joined {below : List BaselineEntry}
    :
    row ∈ ((block.agreed.heldMarks.map Nodes.iter).getD []).filterMap (fun mark =>
        if mark.2.awaits && !(below.map relPath).contains mark.1 then
          getAt table layers mark.1
        else none) ↔
      getAt table layers row.relPath = some row ∧ row.relPath ∉ below.map relPath ∧
        ∃ agreed, block.agreed.get row.relPath = some agreed ∧ agreed.awaits := by
  rw [mem_filterMap]
  constructor
  · rintro ⟨⟨path, agreed⟩, hmark, hrow⟩
    split at hrow
    · rename_i htest
      rw [Bool.and_eq_true, Bool.not_eq_true'] at htest
      obtain ⟨hawaits, hnot⟩ := htest
      have hpath := getAt_relPath table hrow
      subst hpath
      refine ⟨hrow, ?_, agreed, (mem_heldMarks hawaits).mp hmark, hawaits⟩
      simpa using hnot
    · cases hrow
  rintro ⟨hrow, hnot, agreed, hget, hawaits⟩
  refine ⟨(row.relPath, agreed), (mem_heldMarks hawaits).mpr hget, ?_⟩
  rw [if_pos, hrow]
  rw [hawaits, Bool.true_and, Bool.not_eq_true']
  simpa using hnot

theorem mem_unconfirmedIn (hs : Sound table fold layers)
    :
    row ∈ unconfirmedIn table layers ↔
      getAt table layers row.relPath = some row ∧ row.awaitsConfirmation := by
  induction layers generalizing row with
  | nil =>
    unfold unconfirmedIn
    rw [tableUnconfirmed_eq, mem_filter, Baseline.mem_rows_iff, getAt_nil]
  | cons layer layers ih =>
    cases layer with
    | block block =>
      unfold unconfirmedIn
      rw [mem_append, mem_map, mem_filter, Baseline.mem_rows_iff, getAt_block_iff]
      constructor
      · rintro (⟨old, hold, rfl⟩ | ⟨hget, hawaits⟩)
        · obtain ⟨hmem, htest⟩ := mem_filter.mp hold
          obtain ⟨hshows, hmark⟩ := Bool.and_eq_true_iff.mp htest
          have hview : getAt table layers old.relPath = some old := by
            rcases mem_append.mp hmem with hbelow | hjoined
            · exact ((ih hs.tail).mp hbelow).1
            · exact (mem_joined.mp hjoined).1
          rw [relPath_mark, awaits_mark hs.block hview hshows]
          refine ⟨Or.inl ⟨old, hshows, hview, rfl⟩, ?_⟩
          cases hagreed : block.agreed.get old.relPath with
          | some agreed =>
            rw [hagreed] at hmark
            exact hmark
          | none =>
            rcases mem_append.mp hmem with hbelow | hjoined
            · exact ((ih hs.tail).mp hbelow).2
            obtain ⟨agreed, hget, -⟩ := (mem_joined.mp hjoined).2.2
            rw [hagreed] at hget
            cases hget
        exact ⟨Or.inr hget, hawaits⟩
      rintro ⟨⟨old, hshows, hold, rfl⟩ | hview, hawaits⟩
      · rw [relPath_mark] at hshows hold
        rw [awaits_mark hs.block hold hshows] at hawaits
        refine Or.inl ⟨old, mem_filter.mpr ⟨?_, ?_⟩, rfl⟩
        · rw [mem_append, ih hs.tail, mem_joined]
          by_cases hlisted : old.relPath ∈
              (unconfirmedIn table layers).map relPath
          · obtain ⟨other, hother, heq⟩ := mem_map.mp hlisted
            have hother' := (ih hs.tail).mp hother
            rw [heq, hold] at hother'
            exact Or.inl ⟨hold, by rw [Option.some.inj hother'.1]; exact hother'.2⟩
          cases hagreed : block.agreed.get old.relPath with
          | some agreed =>
            rw [hagreed] at hawaits
            exact Or.inr ⟨hold, hlisted, agreed, rfl, hawaits⟩
          | none =>
            rw [hagreed] at hawaits
            exact Or.inl ⟨hold, hawaits⟩
        rw [hshows, Bool.true_and]
        cases hagreed : block.agreed.get old.relPath with
        | some agreed =>
          rw [hagreed] at hawaits
          exact hawaits
        | none => rfl
      · exact Or.inr ⟨hview, hawaits⟩
    | moved src dst =>
      unfold unconfirmedIn
      rw [mem_map, getAt_moved_iff hs.moved]
      constructor
      · rintro ⟨old, hold, rfl⟩
        obtain ⟨hview, hawaits⟩ := (ih hs.tail).mp hold
        cases hmoved : movedPath old.relPath src dst with
        | none => exact ⟨Or.inl ⟨movedPath_eq_none.mp hmoved, hview⟩, hawaits⟩
        | some path =>
          obtain ⟨rest, htail, hpath, rfl⟩ := movedPath_eq_some.mp hmoved
          refine ⟨Or.inr ⟨rest, old, htail, rfl, ?_, rfl⟩, hawaits⟩
          rw [← hpath, hview]
      rintro ⟨⟨hnot, hold⟩ | ⟨rest, old, htail, hpath, hold, hrow⟩, hawaits⟩
      · refine ⟨row, (ih hs.tail).mpr ⟨hold, hawaits⟩, ?_⟩
        rw [movedPath_eq_none.mpr hnot]
      have hold' := getAt_relPath table hold
      refine ⟨old, (ih hs.tail).mpr ⟨by rw [hold', hold], ?_⟩, ?_⟩
      · rw [hrow] at hawaits
        exact hawaits
      rw [hold', movedPath_append htail]
      rw [← hpath]
      exact hrow.symm

theorem Sound.nodup_movedTo (hs : Sound table fold (.moved src dst :: layers)) (rows : List BaselineEntry)
    (hview : ∀ row ∈ rows, (getAt table layers row.relPath).isSome)
    (hnd : (rows.map relPath).Nodup) :
    (rows.map (relPath ∘ fun row =>
      match movedPath row.relPath src dst with
      | some path => row.movedTo path
      | none => row)).Nodup := by
  have hfun : rows.map (relPath ∘ fun row =>
      match movedPath row.relPath src dst with
      | some path => row.movedTo path
      | none => row) =
      (rows.map relPath).map fun p => (movedPath p src dst).getD p := by
    rw [map_map]
    refine map_congr_left fun row _ => ?_
    dsimp only [Function.comp]
    cases movedPath row.relPath src dst <;> rfl
  rw [hfun]
  refine List.Nodup.map_on (fun p hp q hq heq => ?_) hnd
  obtain ⟨r, hr, rfl⟩ := mem_map.mp hp
  obtain ⟨s, hs', rfl⟩ := mem_map.mp hq
  exact moved_getD_injective hs.moved (hview r hr) (hview s hs') heq

theorem nodup_unconfirmedIn (hs : Sound table fold layers) :
    ((unconfirmedIn table layers).map relPath).Nodup := by
  induction layers with
  | nil =>
    unfold unconfirmedIn
    rw [tableUnconfirmed_eq]
    exact (table.ascending.filter _).nodup_keys
  | cons layer layers ih =>
    cases layer with
    | block block =>
      have hmap : ∀ rows : List BaselineEntry,
          (rows.map block.mark).map relPath = rows.map relPath := by
        intro rows
        rw [map_map]
        exact map_congr_left fun row _ => relPath_mark row
      have hjoined : ((((block.agreed.heldMarks.map Nodes.iter).getD []).filterMap fun mark =>
          if mark.2.awaits && !((unconfirmedIn table layers).map relPath).contains
            mark.1 then getAt table layers mark.1 else none).map relPath).Nodup := by
        refine List.Nodup.sublist ?_ block.nodup_heldMarks
        induction (block.agreed.heldMarks.map Nodes.iter).getD [] with
        | nil => exact List.Sublist.refl _
        | cons mark marks ihm =>
          rw [filterMap_cons, map_cons]
          split
          · exact ihm.cons _
          rename_i row hrow
          split at hrow
          · rw [map_cons, getAt_relPath table hrow]
            exact ihm.cons_cons _
          · cases hrow
      unfold unconfirmedIn
      rw [map_append, nodup_append]
      refine ⟨?_, (block.written.ascending.filter _).nodup_keys, ?_⟩
      · rw [hmap]
        refine List.Nodup.sublist (filter_sublist.map _) ?_
        rw [map_append, nodup_append]
        refine ⟨ih hs.tail, hjoined, fun p hp q hq heq => ?_⟩
        obtain ⟨row, hrow, rfl⟩ := mem_map.mp hq
        exact (mem_joined.mp hrow).2.1 (heq ▸ hp)
      intro p hp q hq heq
      rw [hmap] at hp
      obtain ⟨old, hold, rfl⟩ := mem_map.mp hp
      obtain ⟨row, hrow, rfl⟩ := mem_map.mp hq
      have hshows := (Bool.and_eq_true_iff.mp (mem_filter.mp hold).2).1
      have hget := Baseline.get_of_mem (mem_filter.mp hrow).1
      rw [← heq, (showsBelow_iff.mp hshows).2] at hget
      cases hget
    | moved src dst =>
      unfold unconfirmedIn
      rw [map_map]
      refine hs.nodup_movedTo _ (fun row hrow => ?_) (ih hs.tail)
      rw [((mem_unconfirmedIn hs.tail).mp hrow).1]
      rfl

theorem anyUnconfirmedIn_iff (hs : Sound table fold layers) :
    anyUnconfirmedIn table layers ↔
      ∃ path row, getAt table layers path = some row ∧ row.awaitsConfirmation := by
  induction layers with
  | nil =>
    unfold anyUnconfirmedIn
    rw [any_eq_true]
    constructor
    · rintro ⟨row, hmem, hawaits⟩
      exact ⟨row.relPath, row, by rw [getAt_nil]; exact Baseline.get_of_mem hmem, hawaits⟩
    rintro ⟨path, row, hrow, hawaits⟩
    rw [getAt_nil] at hrow
    exact ⟨row, Baseline.mem_rows_of_get hrow, hawaits⟩
  | cons layer layers ih =>
    cases layer with
    | block block =>
      -- the paths read below are those of the unconfirmed rows, however they are read
      have hbelow : (if layers.isEmpty then
            (table.rows.filter awaitsConfirmation).map relPath
          else (unconfirmedIn table layers).map relPath) =
          (unconfirmedIn table layers).map relPath := by
        split
        · rename_i hempty
          rw [isEmpty_iff.mp hempty]
          unfold unconfirmedIn
          rw [tableUnconfirmed_eq]
        · rfl
      unfold anyUnconfirmedIn
      rw [hbelow, Bool.or_eq_true, Bool.or_eq_true, any_eq_true, any_eq_true,
        any_eq_true]
      constructor
      · rintro ((⟨row, hmem, hawaits⟩ | ⟨⟨path, agreed⟩, hmark, htest⟩) | ⟨path, hmem, htest⟩)
        · exact ⟨row.relPath, row, getAt_block_iff.mpr (Or.inr (Baseline.get_of_mem hmem)), hawaits⟩
        · obtain ⟨hawaits, hshows⟩ := Bool.and_eq_true_iff.mp htest
          have hget := (mem_heldMarks hawaits).mp hmark
          obtain ⟨old, hold⟩ := Option.isSome_iff_exists.mp
            (hs.block.markedRow path agreed hget hawaits hshows)
          have hpath := getAt_relPath table hold
          subst hpath
          refine ⟨old.relPath, block.mark old, getAt_block_iff.mpr (Or.inl ⟨old, hshows, hold, rfl⟩), ?_⟩
          rw [awaits_mark hs.block hold hshows, hget]
          exact hawaits
        obtain ⟨old, hold, rfl⟩ := mem_map.mp hmem
        obtain ⟨hshows, hnone⟩ := Bool.and_eq_true_iff.mp htest
        obtain ⟨hview, hawaits⟩ := (mem_unconfirmedIn hs.tail).mp hold
        refine ⟨old.relPath, block.mark old, getAt_block_iff.mpr (Or.inl ⟨old, hshows, hview, rfl⟩), ?_⟩
        rw [awaits_mark hs.block hview hshows, Option.isNone_iff_eq_none.mp hnone]
        exact hawaits
      rintro ⟨path, row, hrow, hawaits⟩
      rcases getAt_block_iff.mp hrow with ⟨old, hshows, hold, rfl⟩ | hwritten
      · have hpath := getAt_relPath table hold
        subst hpath
        rw [awaits_mark hs.block hold hshows] at hawaits
        cases hagreed : block.agreed.get old.relPath with
        | some agreed =>
          rw [hagreed] at hawaits
          refine Or.inl (Or.inr ⟨(old.relPath, agreed), ?_, ?_⟩)
          · exact (mem_heldMarks hawaits).mpr hagreed
          · exact Bool.and_eq_true_iff.mpr ⟨hawaits, hshows⟩
        | none =>
          rw [hagreed] at hawaits
          refine Or.inr ⟨old.relPath, mem_map.mpr ⟨old, ?_, rfl⟩, ?_⟩
          · exact (mem_unconfirmedIn hs.tail).mpr ⟨hold, hawaits⟩
          rw [hshows, hagreed]
          rfl
      · exact Or.inl (Or.inl ⟨row, Baseline.mem_rows_of_get hwritten, hawaits⟩)
    | moved src dst =>
      unfold anyUnconfirmedIn
      rw [ih hs.tail]
      constructor
      · rintro ⟨path, row, hrow, hawaits⟩
        cases hmoved : movedPath path src dst with
        | none =>
          exact ⟨path, row, getAt_stayed hs.moved (movedPath_eq_none.mp hmoved) hrow, hawaits⟩
        | some landing => exact ⟨landing, _, getAt_landed hmoved hrow, hawaits⟩
      rintro ⟨path, row, hrow, hawaits⟩
      rcases (getAt_moved_iff hs.moved).mp hrow with
        ⟨-, hold⟩ | ⟨rest, old, -, -, hold, rfl⟩
      · exact ⟨path, row, hold, hawaits⟩
      · exact ⟨_, old, hold, hawaits⟩

/-! ## Not synced -/

theorem mem_unsyncedIn (hs : Sound table fold layers) {root : Path} :
    path ∈ unsyncedIn table layers root ↔
      ∃ row, getAt table layers path = some row ∧ row.isUnsynced ∧
        (root = [] ∨ isUnder path root) := by
  induction layers generalizing root path with
  | nil =>
    unfold unsyncedIn unsyncedUnder
    rw [mem_map, getAt_nil]
    have hunder : ∀ row ∈ table.rows, ((root = [] ||
        root ++ ['/'] < row.relPath && row.relPath < root ++ ['0']) ↔
          (root = [] ∨ isUnder row.relPath root)) := by
      intro row hrow
      rw [Bool.or_eq_true, Bool.and_eq_true, decide_eq_true_eq, decide_eq_true_eq,
        decide_eq_true_eq, (table.clean row hrow).under_iff]
    constructor
    · rintro ⟨row, hrow, rfl⟩
      obtain ⟨hmem, htest⟩ := mem_filter.mp hrow
      obtain ⟨hunsynced, hroot⟩ := Bool.and_eq_true_iff.mp htest
      exact ⟨row, Baseline.get_of_mem hmem, hunsynced, (hunder row hmem).mp hroot⟩
    rintro ⟨row, hrow, hunsynced, hroot⟩
    obtain ⟨hmem, hpath⟩ := Baseline.get_eq_some_iff.mp hrow
    subst hpath
    refine ⟨row, mem_filter.mpr ⟨hmem, ?_⟩, rfl⟩
    exact Bool.and_eq_true_iff.mpr ⟨hunsynced, (hunder row hmem).mpr hroot⟩
  | cons layer layers ih =>
    cases layer with
    | block block =>
      have hstate : ∀ row : BaselineEntry, (block.mark row).isUnsynced = row.isUnsynced := by
        intro row
        unfold Block.mark
        split <;> rfl
      unfold unsyncedIn
      rw [mem_append, mem_filter, ih hs.tail, mem_map]
      simp only [getAt_block_iff]
      constructor
      · rintro (⟨⟨row, hrow, hunsynced, hroot⟩, hshows⟩ | ⟨row, hrow, rfl⟩)
        · exact ⟨block.mark row, Or.inl ⟨row, hshows, hrow, rfl⟩, by rwa [hstate], hroot⟩
        obtain ⟨hspan, hunsynced⟩ := mem_filter.mp hrow
        obtain ⟨hmem, hin⟩ := mem_filter.mp hspan
        exact ⟨row, Or.inr (Baseline.get_of_mem hmem), hunsynced,
          (Span.contains_under (hs.block.clean row hmem)).mp hin⟩
      rintro ⟨row, ⟨old, hshows, hold, rfl⟩ | hrow, hunsynced, hroot⟩
      · rw [hstate] at hunsynced
        exact Or.inl ⟨⟨old, hold, hunsynced, hroot⟩, hshows⟩
      obtain ⟨hmem, hpath⟩ := Baseline.get_eq_some_iff.mp hrow
      subst hpath
      refine Or.inr ⟨row, mem_filter.mpr ⟨mem_filter.mpr ⟨hmem, ?_⟩, hunsynced⟩, rfl⟩
      exact (Span.contains_under (hs.block.clean row hmem)).mpr hroot
    | moved src dst =>
      have hsrc := hs.moved.src_ne
      have hstayed : path ∈ (unsyncedIn table layers root).filter
          (fun path => !decide (AtOrUnder path src)) ↔
          ∃ row, ¬ AtOrUnder path src ∧ getAt table layers path = some row ∧
            row.isUnsynced ∧ (root = [] ∨ isUnder path root) := by
        rw [mem_filter, ih hs.tail, Bool.not_eq_true', decide_eq_false_iff_not]
        constructor
        · rintro ⟨⟨row, hrow, hunsynced, hroot⟩, hnot⟩
          exact ⟨row, hnot, hrow, hunsynced, hroot⟩
        rintro ⟨row, hnot, hrow, hunsynced, hroot⟩
        exact ⟨⟨row, hrow, hunsynced, hroot⟩, hnot⟩
      -- each way of gathering what landed finds what landed under the root
      have hsplit : ∀ landed : List Path,
          (path ∈ landed ↔ ∃ rest old, IsTail rest ∧ path = dst ++ rest ∧
            getAt table layers (src ++ rest) = some old ∧ old.isUnsynced ∧
            (root = [] ∨ isUnder (dst ++ rest) root)) →
          (path ∈ (unsyncedIn table layers root).filter
              (fun path => !decide (AtOrUnder path src)) ++ landed ↔
            ∃ row, getAt table (.moved src dst :: layers) path = some row ∧
              row.isUnsynced ∧ (root = [] ∨ isUnder path root)) := by
        intro landed hlanded
        rw [mem_append, hstayed, hlanded]
        constructor
        · rintro (⟨row, hnot, hrow, hunsynced, hroot⟩ |
            ⟨rest, old, htail, rfl, hold, hunsynced, hroot⟩)
          · exact ⟨row, getAt_stayed hs.moved hnot hrow, hunsynced, hroot⟩
          · exact ⟨_, getAt_landed (movedPath_append htail) hold, hunsynced, hroot⟩
        rintro ⟨row, hrow, hunsynced, hroot⟩
        rcases (getAt_moved_iff hs.moved).mp hrow with
          ⟨hnot, hold⟩ | ⟨rest, old, htail, rfl, hold, rfl⟩
        · exact Or.inl ⟨row, hnot, hold, hunsynced, hroot⟩
        · exact Or.inr ⟨rest, old, htail, rfl, hold, hunsynced, hroot⟩
      rw [unsyncedIn]
      split
      · rename_i habove
        rw [append_assoc]
        apply hsplit
        have hroot : ∀ rest, IsTail rest → root = [] ∨ isUnder (dst ++ rest) root := by
          intro rest htail
          rcases habove with hroot | habove
          · exact Or.inl hroot
          obtain ⟨below, hbelow, hne⟩ := (Option.any_eq_true _ _).mp habove
          obtain ⟨htail', rfl⟩ := atOrUnder_eq_some.mp hbelow
          rcases htail'.cases with rfl | ⟨below, rfl⟩
          · cases hne
          rw [append_assoc, cons_append]
          exact Or.inr (isUnder_append _ _)
        rw [mem_append, mem_filterMap]
        constructor
        · rintro (hpoint | ⟨source, hsource, hmoved⟩)
          · split at hpoint
            · rename_i hany
              obtain ⟨old, hold, hunsynced⟩ := (Option.any_eq_true _ _).mp hany
              rw [mem_singleton.mp hpoint]
              refine ⟨[], old, Or.inl rfl, (append_nil _).symm, ?_, hunsynced,
                hroot [] (Or.inl rfl)⟩
              rwa [append_nil]
            · cases hpoint
          obtain ⟨old, hold, hunsynced, -⟩ := (ih hs.tail).mp hsource
          obtain ⟨rest, htail, rfl, rfl⟩ := movedPath_eq_some.mp hmoved
          exact ⟨rest, old, htail, rfl, hold, hunsynced, hroot rest htail⟩
        rintro ⟨rest, old, htail, rfl, hold, hunsynced, -⟩
        rcases htail.cases with rfl | ⟨below, rfl⟩
        · rw [append_nil] at hold ⊢
          left
          rw [if_pos, mem_singleton]
          exact (Option.any_eq_true _ _).mpr ⟨old, hold, hunsynced⟩
        refine Or.inr ⟨src ++ '/' :: below, (ih hs.tail).mpr ?_, movedPath_append htail⟩
        exact ⟨old, hold, hunsynced, Or.inr (isUnder_append _ _)⟩
      rename_i hnotAbove
      have hrootNe : root ≠ [] := fun hroot => hnotAbove (Or.inl hroot)
      have hoff : isUnder dst root = false := by
        rw [Bool.eq_false_iff]
        intro hunder
        obtain ⟨below, heq⟩ := isUnder_iff.mp hunder
        refine hnotAbove (Or.inr ((Option.any_eq_true _ _).mpr ⟨'/' :: below, ?_, rfl⟩))
        exact atOrUnder_eq_some.mpr ⟨Or.inr rfl, heq⟩
      cases hin : atOrUnder root dst with
      | some tail =>
        obtain ⟨htail', rfl⟩ := atOrUnder_eq_some.mp hin
        apply hsplit
        rw [mem_filterMap]
        have hne : src ++ tail ≠ [] := fun hnil => hsrc (append_eq_nil_iff.mp hnil).1
        constructor
        · rintro ⟨source, hsource, hmoved⟩
          obtain ⟨old, hold, hunsynced, hroot⟩ := (ih hs.tail).mp hsource
          obtain ⟨rest, htail, rfl, rfl⟩ := movedPath_eq_some.mp hmoved
          refine ⟨rest, old, htail, rfl, hold, hunsynced, Or.inr ?_⟩
          rw [isUnder_append_iff] at hroot ⊢
          exact hroot.resolve_left hne
        rintro ⟨rest, old, htail, rfl, hold, hunsynced, hroot⟩
        have hunder := hroot.resolve_left hrootNe
        rw [isUnder_append_iff] at hunder
        refine ⟨src ++ rest, (ih hs.tail).mpr ⟨old, hold, hunsynced, Or.inr ?_⟩,
          movedPath_append htail⟩
        rwa [isUnder_append_iff]
      | none =>
        have hnil : (unsyncedIn table layers root).filter
            (fun path => !decide (AtOrUnder path src)) =
            (unsyncedIn table layers root).filter
              (fun path => !decide (AtOrUnder path src)) ++ [] := (append_nil _).symm
        rw [hnil]
        apply hsplit
        refine iff_of_false (by simp) ?_
        rintro ⟨rest, old, htail, rfl, -, -, hroot⟩
        have hunder : AtOrUnder (dst ++ rest) root := Or.inr (hroot.resolve_left hrootNe)
        rcases atOrUnder_total hunder (atOrUnder_append_tail htail) with hover | hover
        · exact atOrUnder_eq_none.mp hin hover
        rcases hover with heq | hover
        · rw [heq] at hin
          exact atOrUnder_eq_none.mp hin (atOrUnder_refl _)
        rw [hoff] at hover
        cases hover

end SyncEngine.Rows
