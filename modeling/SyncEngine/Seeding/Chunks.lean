import SyncEngine.Seeding.Claimed

/-! # What a seeding writes

Over any store that knows its rows a seeding admits, chunk by chunk, the rows whose remote item no
row known so far records. So a preview keeps what a pass writes, and nothing is overwritten. The
rows of one chunk are not weighed against one another: two files of one lineage in one chunk are
both written, and in two chunks the second is dropped.
-/

namespace SyncEngine

open Collections List

namespace Seeding

/-- Whether two rows record one remote item, by its version or by its lineage. -/
def sharesItem (a b : BaselineEntry) : Bool :=
  (a.remoteUuid.isSome && a.remoteUuid = b.remoteUuid) ||
    (a.remoteStableUuid.isSome && a.remoteStableUuid = b.remoteStableUuid)

/-- No two synced rows record one remote item. -/
def RecordedOnce (rows : List BaselineEntry) : Prop :=
  ∀ r ∈ rows, ∀ s ∈ rows, r.state = .synced → s.state = .synced → sharesItem r s = true → r = s

instance (rows : List BaselineEntry) : Decidable (RecordedOnce rows) :=
  inferInstanceAs (Decidable (∀ r ∈ rows, ∀ s ∈ rows, _ → _ → _ → _))

theorem sharesItem_iff {a b : BaselineEntry} :
    sharesItem a b ↔
      (∃ u, b.remoteUuid = some u ∧ a.remoteUuid = some u) ∨
        ∃ l, b.remoteStableUuid = some l ∧ a.remoteStableUuid = some l := by
  have hshared {κ : Type} (x y : Option κ) : (x.isSome ∧ x = y) ↔ ∃ k, y = some k ∧ x = some k := by
    constructor
    · rintro ⟨hsome, rfl⟩
      obtain ⟨k, hk⟩ := Option.isSome_iff_exists.mp hsome
      exact ⟨k, hk, hk⟩
    rintro ⟨k, rfl, rfl⟩
    exact ⟨rfl, rfl⟩
  simp only [sharesItem, Bool.or_eq_true, Bool.and_eq_true, decide_eq_true_eq, hshared]

theorem sharesItem_comm (a b : BaselineEntry) : sharesItem a b = sharesItem b a := by
  refine Bool.eq_iff_iff.mpr ?_
  simp only [sharesItem_iff, and_comm]

theorem recordedAt_isNone {claimed : SyncedPaths} {uuids : List Uuid} {lineages : List StableUuid}
    {known : List BaselineEntry} {row : BaselineEntry} (h : Answers claimed uuids lineages known)
    (huuid : ∀ u, row.remoteUuid = some u → u ∈ uuids) (hlineage : ∀ l, row.remoteStableUuid = some l → l ∈ lineages) :
    (recordedAt claimed row).isNone = free sharesItem known row := by
  have hbyUuid : (row.remoteUuid.bind claimed.pathByUuid).isSome ↔
      ∃ u, row.remoteUuid = some u ∧ ∃ r ∈ known, r.remoteUuid = some u := by
    rw [Option.isSome_bind, Option.any_eq_true]
    exact exists_congr fun u => and_congr_right fun hu => h.uuid.answered u (huuid u hu)
  have hbyLineage : (row.remoteStableUuid.bind claimed.pathByLineage).isSome ↔
      ∃ l, row.remoteStableUuid = some l ∧ ∃ r ∈ known, r.remoteStableUuid = some l := by
    rw [Option.isSome_bind, Option.any_eq_true]
    exact exists_congr fun l => and_congr_right fun hl => h.lineage.answered l (hlineage l hl)
  have hheld : (recordedAt claimed row).isSome ↔ ∃ r ∈ known, sharesItem r row := by
    unfold recordedAt
    rw [Option.isSome_or, Bool.or_eq_true, hbyUuid, hbyLineage]
    simp only [sharesItem_iff]
    constructor
    · rintro (⟨u, hu, r, hr, hru⟩ | ⟨l, hl, r, hr, hrl⟩)
      · exact ⟨r, hr, Or.inl ⟨u, hu, hru⟩⟩
      · exact ⟨r, hr, Or.inr ⟨l, hl, hrl⟩⟩
    rintro ⟨r, hr, ⟨u, hu, hru⟩ | ⟨l, hl, hrl⟩⟩
    · exact Or.inl ⟨u, hu, r, hr, hru⟩
    · exact Or.inr ⟨l, hl, r, hr, hrl⟩
  rw [← Option.not_isSome, Bool.eq_iff_iff, free_iff, Bool.not_eq_true', ← Bool.not_eq_true, hheld]
  push Not
  exact forall₂_congr fun r _ => Bool.eq_false_iff.symm

def Run.tally {σ : Type} (run : Run σ) : SeedCounts × List BaselineEntry := (run.counts, run.handed)

/-- What one chunk adds, after some rows were there first. -/
def weighChunk (first : List BaselineEntry) (tally : SeedCounts × List BaselineEntry)
    (chunk : List (BaselineEntry × Evidence)) : SeedCounts × List BaselineEntry :=
  let unclaimed := chunk.filter fun row => free sharesItem (first ++ tally.2) row.1
  (unclaimed.foldl (fun counts row => counts.count row.2) tally.1, tally.2 ++ unclaimed.map Prod.fst)

section Stage

variable {σ : Type} {ops : SeedStore σ} {knows : σ → List BaselineEntry → Prop}
  {first : List BaselineEntry}

/-- A run whose store knows the first rows and what was handed over. -/
structure Sound (knows : σ → List BaselineEntry → Prop) (first : List BaselineEntry) (run : Run σ)
    (coming : List BaselineEntry) : Prop where
  known : knows run.store (first ++ run.handed)
  paths : ((first ++ run.handed ++ (run.rows.map Prod.fst ++ coming)).map BaselineEntry.relPath).Nodup

theorem writeUnclaimed_tally (hlawful : Lawful ops knows) {run : Run σ}
    (hknown : knows run.store (first ++ run.handed)) :
    (writeUnclaimed ops run).tally = weighChunk first run.tally run.rows := by
  have hanswers := hlawful.answers run.store _ hknown (run.rows.filterMap fun row => row.1.remoteUuid)
    (run.rows.filterMap fun row => row.1.remoteStableUuid)
  have hunclaimed : (run.rows.filter fun row => (recordedAt (ops.syncedPaths run.store
      (run.rows.filterMap fun row => row.1.remoteUuid)
      (run.rows.filterMap fun row => row.1.remoteStableUuid)) row.1).isNone) =
        run.rows.filter fun row => free sharesItem (first ++ run.handed) row.1 := by
    refine filter_congr fun row hrow => recordedAt_isNone hanswers ?_ ?_
    · exact fun u hu => mem_filterMap.mpr ⟨row, hrow, hu⟩
    · exact fun l hl => mem_filterMap.mpr ⟨row, hrow, hl⟩
  unfold writeUnclaimed weighChunk Run.tally
  dsimp only
  rw [hunclaimed]
  cases hrows : run.rows.filter fun row => free sharesItem (first ++ run.handed) row.1 with
  | nil => simp
  | cons row rows => rfl

theorem writeUnclaimed_rows (run : Run σ) : (writeUnclaimed ops run).rows = [] := by
  unfold writeUnclaimed
  dsimp only
  split <;> rfl

theorem writeUnclaimed_legacy (hlawful : Lawful ops knows) (run : Run σ) :
    ops.legacySynced (writeUnclaimed ops run).store = ops.legacySynced run.store := by
  unfold writeUnclaimed
  dsimp only
  split
  · rfl
  · exact hlawful.legacy _ _

theorem Sound.write (hlawful : Lawful ops knows) {run : Run σ} {coming : List BaselineEntry}
    (h : Sound knows first run coming) : Sound knows first (writeUnclaimed ops run) coming := by
  have hrows : (writeUnclaimed ops run).rows = [] := writeUnclaimed_rows run
  refine ⟨?_, ?_⟩
  · unfold writeUnclaimed
    dsimp only
    split
    · exact h.known
    rw [← append_assoc]
    refine hlawful.seeds _ _ _ h.known (h.paths.sublist (List.Sublist.map _ ?_))
    refine List.Sublist.append_left ?_ _
    exact (filter_sublist.map _).trans (sublist_append_left _ _)
  rw [hrows, map_nil, nil_append]
  refine h.paths.sublist (List.Sublist.map _ ?_)
  unfold writeUnclaimed
  dsimp only
  split
  · exact List.Sublist.append_left (sublist_append_right _ _) _
  rw [← append_assoc, append_assoc]
  refine List.Sublist.append_left ?_ _
  exact (filter_sublist.map _).append_right _

variable {nodeMtimeMillis : Int → Nat → Option Int} {read : Read} {imported : Path → Option LegacySynced}
  {anyImported : Bool} {chunk : Nat}

def flush (ops : SeedStore σ) (run : Run σ) : Run σ := if run.rows.isEmpty then run else writeUnclaimed ops run

theorem seedLoop_spec (hlawful : Lawful ops knows) (items : List (Path × RemoteNode)) {run : Run σ}
    (himported : importedAt ops anyImported run.store = imported)
    (h : Sound knows first run ((items.filterMap (weigh nodeMtimeMillis read imported)).map Prod.fst)) :
    Sound knows first (flush ops (seedLoop ops nodeMtimeMillis read chunk anyImported items run)) [] ∧
      (flush ops (seedLoop ops nodeMtimeMillis read chunk anyImported items run)).tally =
        (cutBatches chunk run.rows (items.filterMap (weigh nodeMtimeMillis read imported))).foldl
          (weighChunk first) run.tally := by
  induction items generalizing run with
  | nil =>
    have hdone : seedLoop ops nodeMtimeMillis read chunk anyImported [] run = run := rfl
    rw [hdone]
    simp only [filterMap_nil, cutBatches]
    unfold flush
    by_cases hempty : run.rows.isEmpty
    · rw [if_pos hempty, if_pos hempty]
      exact ⟨h, rfl⟩
    rw [if_neg hempty, if_neg hempty]
    exact ⟨h.write hlawful, writeUnclaimed_tally hlawful h.known⟩
  | cons item items ih =>
    simp only [seedLoop, himported]
    cases hweigh : weigh nodeMtimeMillis read imported item with
    | none =>
      rw [filterMap_cons_none hweigh] at h ⊢
      exact ih himported h
    | some row =>
      rw [filterMap_cons_some hweigh] at h ⊢
      have hnext : Sound knows first { run with rows := run.rows ++ [row] }
          ((items.filterMap (weigh nodeMtimeMillis read imported)).map Prod.fst) := by
        refine ⟨h.known, ?_⟩
        have hpending : (run.rows ++ [row]).map Prod.fst = run.rows.map Prod.fst ++ [row.1] := map_append
        have hpaths := h.paths
        rw [map_cons, append_cons] at hpaths
        rw [hpending]
        exact hpaths
      simp only [cutBatches]
      by_cases hfull : (run.rows ++ [row]).length = chunk
      · rw [if_pos hfull, if_pos hfull, foldl_cons]
        have hwritten := hnext.write hlawful
        have hlegacy : importedAt ops anyImported
            (writeUnclaimed ops { run with rows := run.rows ++ [row] }).store = imported := by
          rw [← himported]
          funext path
          unfold importedAt
          rw [writeUnclaimed_legacy hlawful]
        obtain ⟨hsound, htally⟩ := ih hlegacy hwritten
        rw [writeUnclaimed_rows, writeUnclaimed_tally hlawful hnext.known] at htally
        exact ⟨hsound, htally⟩
      rw [if_neg hfull, if_neg hfull]
      exact ih himported hnext

end Stage

theorem handed_eq_claimAll (first : List BaselineEntry) (chunks : List (List (BaselineEntry × Evidence)))
    (tally : SeedCounts × List BaselineEntry) :
    first ++ (chunks.foldl (weighChunk first) tally).2 =
      claimAll sharesItem (first ++ tally.2) (chunks.map (List.map Prod.fst)) := by
  induction chunks generalizing tally with
  | nil => rfl
  | cons chunk chunks ih =>
    rw [foldl_cons, ih, map_cons, claimAll_cons]
    unfold weighChunk admissible
    rw [filter_map, append_assoc]
    rfl

end Seeding

end SyncEngine
