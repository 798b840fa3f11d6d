import SyncEngine.Rows.StoredRuns
import SyncEngine.Seeding.Seed

/-! # What the two stores answer

A store the stage can seed into knows a list of rows: it answers each id it is asked about by
whether one of them records it, and knows the rows handed to it besides, once they sit at paths of
their own. The baseline store and the preview over it both do.
-/

namespace SyncEngine

open Collections BaselineEntry Stored List

namespace Seeding

/-! ## Slots -/

section Slots

variable {κ : Type} [DecidableEq κ] {slots : Slots κ}

theorem Slots.isSome_offer (relPath : Path) (id : Option κ) (k : κ) :
    (slots.offer relPath id k).isSome = (slots k).isSome := by
  unfold Slots.offer
  split
  · exact Option.isSome_map
  · rfl

theorem Slots.answered_offer {relPath : Path} {id : Option κ} {k : κ} (hasked : (slots k).isSome) :
    (slots.offer relPath id k).join.isSome ↔ (slots k).join.isSome ∨ id = some k := by
  obtain ⟨slot, hslot⟩ := Option.isSome_iff_exists.mp hasked
  unfold Slots.offer
  by_cases hid : id = some k
  · rw [if_pos hid, hslot]
    refine ⟨fun _ => Or.inr hid, fun _ => ?_⟩
    cases slot <;> rfl
  rw [if_neg hid]
  exact ⟨Or.inl, fun h => h.resolve_right hid⟩

/-- The slots were asked about some ids, and answer those that are claimed. -/
structure Tells (slots : Slots κ) (asked : List κ) (claimed : κ → Prop) : Prop where
  slotted : ∀ k, (slots k).isSome = true ↔ k ∈ asked
  answered : ∀ k ∈ asked, ((slots k).join.isSome = true ↔ claimed k)

variable {asked : List κ} {claimed claimed' : κ → Prop}

omit [DecidableEq κ] in
theorem Tells.congr (h : Tells slots asked claimed) (hsame : ∀ k ∈ asked, (claimed k ↔ claimed' k)) :
    Tells slots asked claimed' :=
  ⟨h.slotted, fun k hk => (h.answered k hk).trans (hsame k hk)⟩

theorem Tells.offer (h : Tells slots asked claimed) (relPath : Path) (id : Option κ) :
    Tells (slots.offer relPath id) asked fun k => claimed k ∨ id = some k where
  slotted k := by rw [Slots.isSome_offer, h.slotted]
  answered k hk := by rw [Slots.answered_offer ((h.slotted k).mpr hk), h.answered k hk]

theorem Tells.offers {α : Type} (items : List α) (path : α → Path) (id : α → Option κ) (h : Tells slots asked claimed) :
    Tells (items.foldl (fun out x => Slots.offer out (path x) (id x)) slots) asked
      fun k => claimed k ∨ ∃ x ∈ items, id x = some k := by
  induction items generalizing slots claimed with
  | nil => exact h.congr fun k _ => by simp
  | cons x items ih =>
    refine (ih (h.offer (path x) (id x))).congr fun k _ => ?_
    simp only [mem_cons, exists_eq_or_imp, or_assoc]

end Slots

namespace SyncedPaths

variable {uuids : List Uuid} {lineages : List StableUuid}

variable (uuids lineages) in
theorem tells_asking :
    Tells (asking uuids lineages).byUuid uuids (fun _ => False) ∧
      Tells (asking uuids lineages).byLineage lineages fun _ => False := by
  constructor
  · refine ⟨fun k => ?_, fun k hk => ?_⟩
    · by_cases hk : k ∈ uuids <;> simp [asking, hk]
    · simp [asking, hk]
  refine ⟨fun k => ?_, fun k hk => ?_⟩
  · by_cases hk : k ∈ lineages <;> simp [asking, hk]
  · simp [asking, hk]

theorem byUuid_offers {α : Type} (items : List α) (path : α → Path) (uuid : α → Option Uuid)
    (lineage : α → Option StableUuid) (paths : SyncedPaths) :
    (items.foldl (fun out x => out.offer (path x) (uuid x) (lineage x)) paths).byUuid =
      items.foldl (fun out x => Slots.offer out (path x) (uuid x)) paths.byUuid := by
  induction items generalizing paths with
  | nil => rfl
  | cons x items ih => exact ih (paths.offer (path x) (uuid x) (lineage x))

theorem byLineage_offers {α : Type} (items : List α) (path : α → Path) (uuid : α → Option Uuid)
    (lineage : α → Option StableUuid) (paths : SyncedPaths) :
    (items.foldl (fun out x => out.offer (path x) (uuid x) (lineage x)) paths).byLineage =
      items.foldl (fun out x => Slots.offer out (path x) (lineage x)) paths.byLineage := by
  induction items generalizing paths with
  | nil => rfl
  | cons x items ih => exact ih (paths.offer (path x) (uuid x) (lineage x))

end SyncedPaths

/-- The paths answer the asked ids by whether a row records them. -/
structure Answers (paths : SyncedPaths) (uuids : List Uuid) (lineages : List StableUuid)
    (rows : List BaselineEntry) : Prop where
  uuid : Tells paths.byUuid uuids fun u => ∃ row ∈ rows, row.remoteUuid = some u
  lineage : Tells paths.byLineage lineages fun l => ∃ row ∈ rows, row.remoteStableUuid = some l

structure Lawful {σ : Type} (ops : SeedStore σ) (knows : σ → List BaselineEntry → Prop) : Prop where
  legacy : ∀ store rows, ops.legacySynced (ops.seedRows store rows) = ops.legacySynced store
  answers : ∀ store rows, knows store rows → ∀ uuids lineages,
    Answers (ops.syncedPaths store uuids lineages) uuids lineages rows
  seeds : ∀ store rows more, knows store rows → ((rows ++ more).map relPath).Nodup →
    knows (ops.seedRows store more) (rows ++ more)

/-! ## The baseline store -/

section Seeks

variable {κ : Type} [DecidableEq κ] {rows : List BaselineEntry} {column : BaselineEntry → Option κ}
  {ids : List κ}

theorem mem_seekIds {row : BaselineEntry} :
    row ∈ seekIds rows column ids ↔ row ∈ rows ∧ ∃ id ∈ ids, column row = some id := by
  have hflat : (cutBatches syncedChunk [] ids).flatten = ids := flatten_cutBatches syncedChunk [] ids
  unfold seekIds
  simp only [mem_flatMap, mem_filter, Option.any_eq_true, decide_eq_true_eq]
  constructor
  · rintro ⟨chunk, hchunk, hrow, id, hid, hmem⟩
    refine ⟨hrow, id, ?_, hid⟩
    rw [← hflat]
    exact mem_flatten_of_mem hchunk hmem
  rintro ⟨hrow, id, hmem, hid⟩
  rw [← hflat] at hmem
  obtain ⟨chunk, hchunk, hin⟩ := mem_flatten.mp hmem
  exact ⟨chunk, hchunk, hrow, id, hid, hin⟩

end Seeks

namespace BaselineStore

variable {fold : CaseFold} {pair : PairId}

variable (pair) in
theorem answers_syncedPaths (store : BaselineStore) (uuids : List Uuid) (lineages : List StableUuid) :
    Answers (store.syncedPaths pair uuids lineages) uuids lineages
      (entries store.baseline pair).rows := by
  obtain ⟨huuid, hlineage⟩ := SyncedPaths.tells_asking uuids lineages
  unfold syncedPaths
  refine ⟨?_, ?_⟩
  · rw [SyncedPaths.byUuid_offers]
    refine (huuid.offers _ relPath remoteUuid).congr fun u hu => ?_
    simp only [false_or, mem_append, mem_seekIds, mem_dedup]
    constructor
    · rintro ⟨row, hrow | hrow, hid⟩ <;> exact ⟨row, hrow.1, hid⟩
    rintro ⟨row, hrow, hid⟩
    exact ⟨row, Or.inl ⟨hrow, u, hu, hid⟩, hid⟩
  rw [SyncedPaths.byLineage_offers]
  refine (hlineage.offers _ relPath remoteStableUuid).congr fun l hl => ?_
  simp only [false_or, mem_append, mem_seekIds, mem_dedup]
  constructor
  · rintro ⟨row, hrow | hrow, hid⟩ <;> exact ⟨row, hrow.1, hid⟩
  rintro ⟨row, hrow, hid⟩
  exact ⟨row, Or.inr ⟨hrow, l, hl, hid⟩, hid⟩

variable {rows : List BaselineEntry}

theorem get_seedRows (store : BaselineStore)
    (hpaths : (rows.map relPath).Nodup) (path : Path) :
    (entries (store.seedRows fold pair rows).baseline pair).get path =
      (rows.find? fun row => row.relPath = path).or
        ((entries store.baseline pair).get path) := by
  rw [get_entries, get_entries]
  unfold seedRows
  generalize store.baseline = table
  induction rows generalizing table with
  | nil => rfl
  | cons row rows ih =>
    rw [map_cons, nodup_cons] at hpaths
    rw [foldl_cons, ih hpaths.2, read_upsertRow, find?_cons]
    dsimp only [PathRows.changed]
    by_cases hat : path = row.relPath
    · have hnone : (rows.find? fun r => r.relPath = path) = none := by
        refine find?_eq_none.mpr fun r hr => ?_
        intro heq
        refine hpaths.1 (mem_map.mpr ⟨r, hr, ?_⟩)
        rw [of_decide_eq_true heq, hat]
      rw [hnone, if_pos hat, decide_eq_true hat.symm]
      rfl
    have hne : decide (row.relPath = path) = false := decide_eq_false (Ne.symm hat)
    rw [if_neg hat, hne]

/-- The pair's rows in the store are the ones listed. -/
def Holds (pair : PairId) (store : BaselineStore) (rows : List BaselineEntry) : Prop :=
  ∀ row, row ∈ (entries store.baseline pair).rows ↔ row ∈ rows

variable {store : BaselineStore} {more : List BaselineEntry}

theorem holds_seedRows (h : Holds pair store rows)
    (hpaths : ((rows ++ more).map relPath).Nodup) :
    Holds pair (store.seedRows fold pair more) (rows ++ more) := by
  rw [map_append, nodup_append] at hpaths
  obtain ⟨-, hmore, hapart⟩ := hpaths
  intro row
  rw [Baseline.mem_rows_iff, get_seedRows store hmore, mem_append, Option.or_eq_some_iff,
    ← h row, Baseline.mem_rows_iff]
  constructor
  · rintro (hfound | ⟨-, hheld⟩)
    · exact Or.inr (mem_of_find?_eq_some hfound)
    · exact Or.inl hheld
  rintro (hheld | hnew)
  · refine Or.inr ⟨find?_eq_none.mpr fun r hr heq => ?_, hheld⟩
    have hin : row ∈ rows := (h row).mp (Baseline.mem_rows_iff.mpr hheld)
    exact hapart _ (mem_map_of_mem hin) _ (mem_map_of_mem hr) (of_decide_eq_true heq).symm
  left
  cases hfind : more.find? fun r => decide (r.relPath = row.relPath) with
  | none =>
    have hmiss := find?_eq_none.mp hfind row hnew
    exact absurd (decide_eq_true rfl) hmiss
  | some found =>
    have htest := find?_some hfind
    have hpath : found.relPath = row.relPath := of_decide_eq_true htest
    rw [inj_on_of_nodup_map hmore (mem_of_find?_eq_some hfind) hnew hpath]

/-- The rows of an earlier store, of whatever pair, are still there as they were. -/
def Keeps (origin store : BaselineStore) : Prop :=
  ∀ key row, origin.baseline.get key = some row → store.baseline.get key = some row

theorem Holds.mem (h : Holds pair store rows)
    {key : PairId × Path} {row : StoredRow} (hget : store.baseline.get key = some row)
    (hpair : key.1 = pair) : ∃ entry ∈ rows, entry.relPath = key.2 := by
  have hread : read store.baseline pair key.2 = some row.entry := by
    unfold Stored.read
    rw [← hpair, hget]
    rfl
  rw [← get_entries] at hread
  obtain ⟨hmem, hpath⟩ := Baseline.get_eq_some_iff.mp hread
  exact ⟨row.entry, (h row.entry).mp hmem, hpath⟩

theorem keeps_seedRows {origin : BaselineStore} (h : Holds pair store rows)
    (hkeeps : Keeps origin store) (hpaths : ((rows ++ more).map relPath).Nodup) :
    Keeps origin (store.seedRows fold pair more) := by
  rw [map_append, nodup_append] at hpaths
  intro key row hrow
  have hget := hkeeps key row hrow
  have hother : ∀ entry ∈ more, key ≠ (pair, entry.relPath) := by
    rintro entry hentry rfl
    obtain ⟨held, hheld, hpath⟩ := h.mem hget rfl
    exact hpaths.2.2 _ (mem_map_of_mem hheld) _ (mem_map_of_mem hentry) hpath
  unfold seedRows
  generalize store.baseline = table at hget
  clear hpaths
  induction more generalizing table with
  | nil => exact hget
  | cons entry more ih =>
    refine ih (fun e he => hother e (mem_cons_of_mem entry he)) _ ?_
    unfold Stored.upsertRow
    rw [KeyedTable.get_insertOrReplace, if_neg]
    · exact hget
    · exact hother entry mem_cons_self

/-- The store's own rows are the ones it knows, and it kept every row of an earlier store. -/
def Knows (pair : PairId) (origin store : BaselineStore) (rows : List BaselineEntry) : Prop :=
  Holds pair store rows ∧ Keeps origin store

theorem knows_self (store : BaselineStore) :
    Knows pair store store (entries store.baseline pair).rows :=
  ⟨fun _ => Iff.rfl, fun _ _ h => h⟩

theorem lawful (origin : BaselineStore) : Lawful (seedStore fold pair) (Knows pair origin) where
  legacy _ _ := rfl
  answers store rows h uuids lineages := by
    have hanswers := answers_syncedPaths pair store uuids lineages
    exact ⟨hanswers.uuid.congr fun u _ => by simp only [h.1 _], hanswers.lineage.congr fun l _ => by simp only [h.1 _]⟩
  seeds _ _ _ h hpaths := ⟨holds_seedRows h.1 hpaths, keeps_seedRows h.1 h.2 hpaths⟩

end BaselineStore

/-! ## The preview -/

section Index

variable {κ : Type} [DecidableEq κ] {index : κ → Option Nat} {ids : List (Option κ)}

/-- Each id of a list is indexed by a position in it, and no other id is. -/
structure Indexes (index : κ → Option Nat) (ids : List (Option κ)) : Prop where
  bounded : ∀ k at', index k = some at' → at' < ids.length
  holds : ∀ k, (∃ at', index k = some at') ↔ some k ∈ ids

omit [DecidableEq κ] in
theorem indexes_empty : Indexes (fun _ : κ => none) [] :=
  ⟨(fun _ _ h => nomatch h), fun _ => ⟨(fun h => nomatch h.choose_spec), fun h => absurd h not_mem_nil⟩⟩

theorem Indexes.push (h : Indexes index ids) (id : Option κ) :
    Indexes (orInsert index id ids.length) (ids ++ [id]) where
  bounded k at' hat := by
    rw [length_append, length_singleton]
    unfold orInsert at hat
    by_cases hid : id = some k
    · rw [if_pos hid, Option.or_eq_some_iff] at hat
      rcases hat with hheld | ⟨-, hnew⟩
      · exact Nat.lt_succ_of_lt (h.bounded k at' hheld)
      rw [← Option.some.inj hnew]
      exact Nat.lt_succ_self _
    rw [if_neg hid] at hat
    exact Nat.lt_succ_of_lt (h.bounded k at' hat)
  holds k := by
    rw [mem_append, mem_singleton, ← h.holds k]
    unfold orInsert
    by_cases hid : id = some k
    · rw [if_pos hid]
      refine ⟨fun _ => Or.inr hid.symm, fun _ => ?_⟩
      cases hheld : index k with
      | none => exact ⟨_, rfl⟩
      | some at' => exact ⟨at', rfl⟩
    rw [if_neg hid]
    exact ⟨Or.inl, fun hor => hor.resolve_right fun heq => hid heq.symm⟩

end Index

/-- Both indexes of the kept rows are over those rows. -/
structure Kept.Indexed (kept : Kept) : Prop where
  uuid : Indexes kept.byUuid (kept.rows.map remoteUuid)
  lineage : Indexes kept.byLineage (kept.rows.map remoteStableUuid)

theorem Kept.indexed_none : Kept.none.Indexed := ⟨indexes_empty, indexes_empty⟩

variable {kept : Kept}

theorem Kept.Indexed.push (h : kept.Indexed) (row : BaselineEntry) : (kept.push row).Indexed := by
  have huuid := h.uuid.push row.remoteUuid
  have hlineage := h.lineage.push row.remoteStableUuid
  rw [length_map] at huuid hlineage
  refine ⟨?_, ?_⟩
  · unfold Kept.push
    rw [map_append]
    exact huuid
  unfold Kept.push
  rw [map_append]
  exact hlineage

theorem Kept.indexed_pushes (h : kept.Indexed) (rows : List BaselineEntry) :
    (rows.foldl Kept.push kept).Indexed ∧ (rows.foldl Kept.push kept).rows = kept.rows ++ rows := by
  induction rows generalizing kept with
  | nil => exact ⟨h, (append_nil _).symm⟩
  | cons row rows ih =>
    obtain ⟨hindexed, hrows⟩ := ih (h.push row)
    refine ⟨hindexed, ?_⟩
    rw [foldl_cons, hrows]
    exact append_assoc kept.rows [row] rows

namespace Preview

variable {pair : PairId}

/-- The rows of the store it reads, which were there first, and the ones it kept. -/
def Knows (pair : PairId) (first : List BaselineEntry) (preview : Preview) (rows : List BaselineEntry) : Prop :=
  BaselineStore.Holds pair preview.store first ∧ preview.kept.Indexed ∧ rows = first ++ preview.kept.rows

variable {first : List BaselineEntry} {preview : Preview}

theorem knows_new {store : BaselineStore} (h : BaselineStore.Holds pair store first) :
    Knows pair first (new store) first :=
  ⟨h, Kept.indexed_none, (append_nil first).symm⟩

/-- An asked id the preview kept a row for, and where. -/
abbrev Hit : Type := Option Uuid × Option StableUuid × Nat

variable (pair) in
theorem syncedPaths_eq (h : preview.kept.Indexed) (uuids : List Uuid) (lineages : List StableUuid) :
    ∃ pathAt : Nat → Path, preview.syncedPaths pair uuids lineages =
      ((uuids.filterMap fun uuid =>
          (preview.kept.byUuid uuid).map fun at' => (some uuid, (none : Option StableUuid), at')) ++
        lineages.filterMap fun lineage =>
          (preview.kept.byLineage lineage).map fun at' => ((none : Option Uuid), some lineage, at')).foldl
        (fun out hit => out.offer (pathAt hit.2.2) hit.1 hit.2.1)
        (preview.store.syncedPaths pair uuids lineages) := by
  refine ⟨fun at' => (preview.kept.rows[at']?.map relPath).getD [], ?_⟩
  refine foldl_ext _ _ _ fun out hit hmem => ?_
  dsimp only
  have hlt : hit.2.2 < preview.kept.rows.length := by
    rcases mem_append.mp hmem with hin | hin
    · obtain ⟨uuid, -, hmap⟩ := mem_filterMap.mp hin
      obtain ⟨at', hat, rfl⟩ := Option.map_eq_some_iff.mp hmap
      have hbound := h.uuid.bounded uuid at' hat
      rwa [length_map] at hbound
    obtain ⟨lineage, -, hmap⟩ := mem_filterMap.mp hin
    obtain ⟨at', hat, rfl⟩ := Option.map_eq_some_iff.mp hmap
    have hbound := h.lineage.bounded lineage at' hat
    rwa [length_map] at hbound
  rw [getElem?_eq_getElem hlt]
  rfl

theorem answers_syncedPaths {rows : List BaselineEntry}
    (h : Knows pair first preview rows) (uuids : List Uuid) (lineages : List StableUuid) :
    Answers (preview.syncedPaths pair uuids lineages) uuids lineages rows := by
  obtain ⟨hstore, hindexed, rfl⟩ := h
  obtain ⟨pathAt, heq⟩ := syncedPaths_eq pair hindexed uuids lineages
  have hfirst := BaselineStore.answers_syncedPaths pair preview.store uuids lineages
  rw [heq]
  refine ⟨?_, ?_⟩
  · rw [SyncedPaths.byUuid_offers]
    refine (hfirst.uuid.offers _ (fun hit : Hit => pathAt hit.2.2) Prod.fst).congr fun u hu => ?_
    simp only [hstore _, mem_append, or_and_right, exists_or, mem_filterMap, Option.map_eq_some_iff]
    have hkept := hindexed.uuid.holds u
    rw [mem_map] at hkept
    constructor
    · rintro (hheld | ⟨_, ⟨v, -, at', hat, rfl⟩, hid⟩ | ⟨_, ⟨_, -, _, -, rfl⟩, hid⟩)
      · exact Or.inl hheld
      · cases hid
        exact Or.inr (hkept.mp ⟨at', hat⟩)
      · exact nomatch hid
    rintro (hheld | hnew)
    · exact Or.inl hheld
    obtain ⟨at', hat⟩ := hkept.mpr hnew
    exact Or.inr (Or.inl ⟨_, ⟨u, hu, at', hat, rfl⟩, rfl⟩)
  rw [SyncedPaths.byLineage_offers]
  refine (hfirst.lineage.offers _ (fun hit : Hit => pathAt hit.2.2) fun hit => hit.2.1).congr fun l hl => ?_
  simp only [hstore _, mem_append, or_and_right, exists_or, mem_filterMap, Option.map_eq_some_iff]
  have hkept := hindexed.lineage.holds l
  rw [mem_map] at hkept
  constructor
  · rintro (hheld | ⟨_, ⟨_, -, _, -, rfl⟩, hid⟩ | ⟨_, ⟨_, -, at', hat, rfl⟩, hid⟩)
    · exact Or.inl hheld
    · exact nomatch hid
    cases hid
    exact Or.inr (hkept.mp ⟨at', hat⟩)
  rintro (hheld | hnew)
  · exact Or.inl hheld
  obtain ⟨at', hat⟩ := hkept.mpr hnew
  exact Or.inr (Or.inr ⟨_, ⟨l, hl, at', hat, rfl⟩, rfl⟩)

theorem lawful (first : List BaselineEntry) : Lawful (seedStore pair) (Knows pair first) where
  legacy _ _ := rfl
  answers _ _ h uuids lineages := answers_syncedPaths h uuids lineages
  seeds preview rows more h _ := by
    obtain ⟨hstore, hindexed, rfl⟩ := h
    obtain ⟨hpushed, hrows⟩ := Kept.indexed_pushes hindexed more
    refine ⟨hstore, hpushed, ?_⟩
    rw [append_assoc]
    exact congrArg (first ++ ·) hrows.symm

end Preview

end Seeding

end SyncEngine
