import SyncEngine.MobileCache.Halves

/-! # Unsent edits

A row with an edit the server does not have keeps its id and its mark through every write the
server drives. Its uuid may change, and each change is logged; its stable id gets no tombstone,
and a sweep leaves the directories it hangs under.
-/

namespace SyncEngine.MobileCache

open List

/-- A row holds a pending-upload marker. -/
def ItemRow.Unsent (row : ItemRow) : Prop := row.pendingUploadAt ≠ none

/-- What the schema asks of the rows: their ids tell them apart, those to come are new, and only a
file has bytes to send. -/
structure Tabled (db : MobileDb) : Prop where
  ids : (db.items.map ItemRow.id).Nodup
  bounded : ∀ row ∈ db.items, row.id < db.nextId
  marks : ∀ row ∈ db.items, row.Unsent → row.type = .file

/-- A row is still there, with its mark, and the log leads from its old uuid to its new one. -/
structure ItemRow.Lives (log : List (Uuid × Uuid)) (row row' : ItemRow) : Prop where
  id : row'.id = row.id
  mark : row'.pendingUploadAt = row.pendingUploadAt
  uuid : Relation.ReflTransGen (fun a b => (a, b) ∈ log) row.uuid row'.uuid

/-- Every row with an unsent edit lives on, none gets a mark it did not have, and a tombstone for
its stable id is one there was. -/
structure SparesBy (log : List (Uuid × Uuid)) (db db' : MobileDb) : Prop where
  tabled : Tabled db'
  logged : db'.slotRemints = db.slotRemints ++ log
  stays : ∀ row ∈ db.items, row.Unsent → ∃ row' ∈ db'.items, row.Lives log row'
  back : ∀ row' ∈ db'.items, row'.Unsent → ∃ row ∈ db.items, row.Lives log row' ∧
    ∀ tomb ∈ db'.tombstones, tomb.kind = .file → row'.stableUuid = some tomb.itemId →
      tomb ∈ db.tombstones ∧ row.stableUuid = some tomb.itemId

def Spares (db db' : MobileDb) : Prop := ∃ log, SparesBy log db db'

variable {db db' : MobileDb} {log : List (Uuid × Uuid)} {row old new : ItemRow} {item : ItemRecord} {id : Nat}

theorem ItemRow.Lives.unsent {row' : ItemRow} (h : row.Lives log row') : row'.Unsent ↔ row.Unsent := by
  unfold ItemRow.Unsent
  rw [h.mark]

theorem ItemRow.Lives.trans {a b c : ItemRow} {log' : List (Uuid × Uuid)} (hab : a.Lives log b)
    (hbc : b.Lives log' c) : a.Lives (log ++ log') c where
  id := hbc.id.trans hab.id
  mark := hbc.mark.trans hab.mark
  uuid := .trans (hab.uuid.lift (fun uuid => uuid) fun _ _ => mem_append_left _)
    (hbc.uuid.lift (fun uuid => uuid) fun _ _ => mem_append_right _)

theorem ItemRow.SameIds.lives {row' : ItemRow} (h : row'.SameIds row) : row.Lives [] row' :=
  ⟨h.id, h.pendingUploadAt, h.uuid ▸ .refl⟩

theorem Tabled.eq_of_id (h : Tabled db) {a b : ItemRow} (ha : a ∈ db.items) (hb : b ∈ db.items) (hid : a.id = b.id) :
    a = b := inj_on_of_nodup_map h.ids ha hb hid

theorem nodup_ids_concat {rows : List ItemRow} (hids : (rows.map ItemRow.id).Nodup)
    (hnew : ∀ other ∈ rows, other.id ≠ row.id) : ((rows ++ [row]).map ItemRow.id).Nodup := by
  rw [map_append, nodup_append]
  refine ⟨hids, nodup_singleton _, ?_⟩
  rintro _ hid _ hrow rfl
  obtain ⟨other, hother, hid⟩ := mem_map.mp hid
  exact hnew other hother (hid.trans (mem_singleton.mp hrow))

theorem slotRemintLog_tombstones (db : MobileDb) (old new : ItemRow) :
    (db.slotRemintLog old new).tombstones = db.tombstones := by
  unfold MobileDb.slotRemintLog
  split <;> rfl

theorem SparesBy.trans {a b c : MobileDb} {log' : List (Uuid × Uuid)} (hab : SparesBy log a b)
    (hbc : SparesBy log' b c) : SparesBy (log ++ log') a c := by
  refine ⟨hbc.tabled, ?_, ?_, ?_⟩
  · rw [hbc.logged, hab.logged, append_assoc]
  · intro row hrow hunsent
    obtain ⟨mid, hmid, hlives⟩ := hab.stays row hrow hunsent
    obtain ⟨row', hrow', hlives'⟩ := hbc.stays mid hmid (hlives.unsent.mpr hunsent)
    exact ⟨row', hrow', hlives.trans hlives'⟩
  intro row' hrow' hunsent
  obtain ⟨mid, hmid, hlives', htombs'⟩ := hbc.back row' hrow' hunsent
  obtain ⟨row, hrow, hlives, htombs⟩ := hab.back mid hmid (hlives'.unsent.mp hunsent)
  refine ⟨row, hrow, hlives.trans hlives', fun tomb htomb hkind hstable => ?_⟩
  obtain ⟨hmem, hstable'⟩ := htombs' tomb htomb hkind hstable
  exact htombs tomb hmem hkind hstable'

theorem SparesBy.quiet {a b c : MobileDb} (hab : SparesBy log a b) (hbc : SparesBy [] b c) : SparesBy log a c :=
  append_nil log ▸ hab.trans hbc

theorem Spares.tabled (h : Spares db db') : Tabled db' := h.elim fun _ hby => hby.tabled

theorem Spares.trans {a b c : MobileDb} : Spares a b → Spares b c → Spares a c
  | ⟨_, hab⟩, ⟨_, hbc⟩ => ⟨_, hab.trans hbc⟩

theorem tombstone_retireId {tomb : Tombstone} (htomb : tomb ∈ (db.retireId old).tombstones) :
    tomb ∈ db.tombstones ∨ (tomb.kind = .file → ∀ row ∈ db.items, row.stableUuid ≠ some tomb.itemId) := by
  have hretire : ∀ {kind itemId}, tomb ∈ (db.retire kind itemId).tombstones →
      tomb ∈ db.tombstones ∨ tomb.kind = kind ∧ tomb.itemId = itemId := by
    intro kind itemId h
    rcases mem_cons.mp h with rfl | h
    · exact .inr ⟨rfl, rfl⟩
    · exact .inl (mem_filter.mp h).1
  unfold MobileDb.retireId at htomb
  split at htomb
  · exact .inl htomb
  · split at htomb
    · exact .inl htomb
    exact (hretire htomb).imp_right fun h hkind => nomatch h.1.symm.trans hkind
  split at htomb
  · exact .inl htomb
  split at htomb
  · exact .inl htomb
  next hany =>
  refine (hretire htomb).imp_right fun h _ row hrow hstable => ?_
  exact hany (any_eq_true.mpr ⟨row, hrow, decide_eq_true (h.2 ▸ hstable)⟩)

section

variable (h : Tabled db)
include h

theorem Tabled.map {f : ItemRow → ItemRow} (hsame : ∀ row ∈ db.items, (f row).SameIds row)
    (hitems : db'.items = db.items.map f) (hnext : db'.nextId = db.nextId) (hlog : db'.slotRemints = db.slotRemints)
    (htombs : ∀ tomb ∈ db'.tombstones, tomb ∈ db.tombstones) : SparesBy [] db db' := by
  have hback : ∀ row' ∈ db'.items, ∃ row ∈ db.items, row'.SameIds row := by
    intro row' hrow'
    rw [hitems] at hrow'
    obtain ⟨row, hrow, rfl⟩ := mem_map.mp hrow'
    exact ⟨row, hrow, hsame row hrow⟩
  refine ⟨⟨?_, ?_, ?_⟩, ?_, ?_, ?_⟩
  · have hids : db.items.map (ItemRow.id ∘ f) = db.items.map ItemRow.id :=
      map_congr_left fun row hrow => (hsame row hrow).id
    rw [hitems, map_map, hids]
    exact h.ids
  · intro row' hrow'
    obtain ⟨row, hrow, hids⟩ := hback row' hrow'
    rw [hids.id, hnext]
    exact h.bounded row hrow
  · intro row' hrow' hunsent
    obtain ⟨row, hrow, hids⟩ := hback row' hrow'
    rw [hids.type]
    exact h.marks row hrow (hids.lives.unsent.mp hunsent)
  · rw [hlog, append_nil]
  · intro row hrow _
    exact ⟨f row, hitems ▸ mem_map_of_mem hrow, (hsame row hrow).lives⟩
  intro row' hrow' _
  obtain ⟨row, hrow, hids⟩ := hback row' hrow'
  exact ⟨row, hrow, hids.lives, fun tomb htomb _ hstable => ⟨htombs tomb htomb, hids.stableUuid ▸ hstable⟩⟩

theorem Tabled.refl : SparesBy [] db db :=
  h.map (fun _ _ => ⟨rfl, rfl, rfl, rfl, rfl⟩) (map_id _).symm rfl rfl fun _ h => h

theorem Tabled.setRow (hold : db.row? id = some old) (hsame : new.SameIds old) :
    SparesBy [] db (db.setRow new) := by
  refine h.map (fun row hrow => ?_) rfl rfl rfl fun _ h => h
  split
  · next hid =>
    rw [h.eq_of_id hrow (MobileDb.row?_some hold).1 (hid.trans hsame.id)]
    exact hsame
  · exact ⟨rfl, rfl, rfl, rfl, rfl⟩

theorem Tabled.bump (id : Nat) : SparesBy [] db (db.bump id) := by
  refine h.map (fun row _ => ?_) rfl rfl rfl fun _ h => h
  split <;> exact ⟨rfl, rfl, rfl, rfl, rfl⟩

theorem Tabled.unmarkStale (picks : ItemRow → Bool) : SparesBy [] db (db.unmarkStale picks) := by
  refine h.map (fun row _ => ?_) rfl rfl rfl fun _ h => h
  split <;> exact ⟨rfl, rfl, rfl, rfl, rfl⟩

theorem Tabled.unmarkSpared (spare : List Uuid) : SparesBy [] db (db.unmarkSpared spare) := by
  induction spare generalizing db with
  | nil => exact h.refl
  | cons uuid spare ih =>
    have hfirst := h.unmarkStale fun row => row.uuid = uuid
    exact hfirst.quiet (ih hfirst.tabled)

theorem Tabled.retireId (old : ItemRow) : SparesBy [] db (db.retireId old) := by
  have hitems := MobileDb.retireId_items db old
  have hrest : (db.retireId old).nextId = db.nextId ∧ (db.retireId old).slotRemints = db.slotRemints := by
    unfold MobileDb.retireId
    split
    · exact ⟨rfl, rfl⟩
    · split <;> exact ⟨rfl, rfl⟩
    split
    · exact ⟨rfl, rfl⟩
    split <;> exact ⟨rfl, rfl⟩
  refine ⟨⟨hitems ▸ h.ids, fun row hrow => hrest.1 ▸ h.bounded row (hitems ▸ hrow),
    fun row hrow => h.marks row (hitems ▸ hrow)⟩, hrest.2.trans (append_nil _).symm,
    fun row hrow _ => ⟨row, hitems ▸ hrow, ⟨rfl, rfl, .refl⟩⟩, fun row hrow _ => ?_⟩
  rw [hitems] at hrow
  refine ⟨row, hrow, ⟨rfl, rfl, .refl⟩, fun tomb htomb hkind hstable => ⟨?_, hstable⟩⟩
  exact (tombstone_retireId htomb).resolve_right fun hnone => hnone hkind row hrow hstable

theorem Tabled.delete (hold : old ∈ db.items) (hsent : ¬ old.Unsent) :
    SparesBy [] db ((db.eraseRow old.id).tombstoneOnDelete old) := by
  have hsub : (db.eraseRow old.id).items.Sublist db.items := filter_sublist
  have herased : SparesBy [] db (db.eraseRow old.id) := by
    refine ⟨⟨(hsub.map _).nodup h.ids, fun row hrow => h.bounded row (hsub.subset hrow),
      fun row hrow => h.marks row (hsub.subset hrow)⟩, (append_nil _).symm, fun row hrow hunsent => ?_,
      fun row hrow _ => ⟨row, hsub.subset hrow, ⟨rfl, rfl, .refl⟩, fun _ htomb _ hstable => ⟨htomb, hstable⟩⟩⟩
    refine ⟨row, mem_filter.mpr ⟨hrow, ?_⟩, ⟨rfl, rfl, .refl⟩⟩
    have hne : row.id ≠ old.id := fun hid => hsent (h.eq_of_id hrow hold hid ▸ hunsent)
    exact decide_eq_true hne
  unfold MobileDb.tombstoneOnDelete
  split
  · exact herased.quiet (herased.tabled.retireId old)
  · exact herased

theorem Tabled.deleteRows {ids : List Nat}
    (hids : ∀ row ∈ db.items, row.id ∈ ids → ¬ row.Unsent) : SparesBy [] db (db.deleteRows ids) := by
  refine (deleteWithin_doomed (R := fun a b => Tabled a → SparesBy [] a b) db.items
    (fun id => ∀ row ∈ db.items, row.id = id → ¬ row.Unsent) ?_ ?_ ?_ ?_ _ (fun _ hrow => hrow) ?_).1 h
  · exact fun a ha => ha.refl
  · exact fun a b c hab hbc ha => (hab ha).quiet (hbc (hab ha).tabled)
  · exact fun a old hold hmem hsent ha => ha.delete (MobileDb.row?_some hold).1 (hsent old hmem rfl)
  · rintro old _ row hrow _ _ _ hmark row' hrow' hid
    rw [h.eq_of_id hrow' hrow hid]
    exact fun hunsent => hunsent hmark
  rintro id hid row hrow rfl
  exact hids row hrow hid

theorem Tabled.deleteWhere {picks : ItemRow → Bool} (hpicks : ∀ row ∈ db.items, picks row → ¬ row.Unsent) :
    SparesBy [] db (db.deleteWhere picks) := by
  refine h.deleteRows fun row hrow hid => ?_
  obtain ⟨row', hrow', heq⟩ := mem_map.mp hid
  rw [h.eq_of_id hrow (mem_filter.mp hrow').1 heq.symm]
  exact hpicks row' (mem_filter.mp hrow').1 (mem_filter.mp hrow').2

end

/-! ## Items -/

section

variable (h : Tabled db)
include h

theorem Tabled.clearTombstones (row : ItemRow) : SparesBy [] db (db.clearTombstones row) :=
  h.map (fun _ _ => ⟨rfl, rfl, rfl, rfl, rfl⟩) (map_id _).symm rfl rfl fun _ htomb => (mem_filter.mp htomb).1

theorem Tabled.insertRow (hfresh : ∀ r ∈ db.items, r.id ≠ row.id) (hmark : row.pendingUploadAt = none) :
    SparesBy [] db (db.insertRow row) := by
  have hadded : SparesBy [] db { db with items := db.items ++ [row], nextId := max db.nextId (row.id + 1) } := by
    have hback : ∀ r ∈ db.items ++ [row], r ∈ db.items ∨ r = row := fun r hr =>
      (mem_append.mp hr).imp_right mem_singleton.mp
    refine ⟨⟨?_, ?_, ?_⟩, (append_nil _).symm, ?_, ?_⟩
    · exact nodup_ids_concat h.ids hfresh
    · rintro r hr
      rcases hback r hr with hr | rfl
      · exact lt_of_lt_of_le (h.bounded r hr) (le_max_left ..)
      · exact Nat.le_max_right ..
    · rintro r hr hunsent
      rcases hback r hr with hr | rfl
      · exact h.marks r hr hunsent
      · exact absurd hmark hunsent
    · exact fun r hr _ => ⟨r, mem_append_left _ hr, ⟨rfl, rfl, .refl⟩⟩
    rintro r hr hunsent
    rcases hback r hr with hr | rfl
    · exact ⟨r, hr, ⟨rfl, rfl, .refl⟩, fun _ htomb _ hstable => ⟨htomb, hstable⟩⟩
    · exact absurd hmark hunsent
  unfold MobileDb.insertRow
  split
  · exact hadded
  have hbumped := hadded.quiet (hadded.tabled.bump row.id)
  exact hbumped.quiet (hbumped.tabled.clearTombstones row)

theorem Tabled.rewriteRow (hold : db.row? old.id = some old) (htype : item.type = old.type) :
    ∃ log, (old.type ≠ .file → log = []) ∧ SparesBy log db
      ((((db.setRow (old.rewrite item)).slotRemintLog old (old.rewrite item)).tombstoneOnIdRetirement old
        (old.rewrite item)).bumpOnUpdate old (old.rewrite item)) := by
  have hmem : old ∈ db.items := (MobileDb.row?_some hold).1
  have hset : ∀ row, row ∈ (db.setRow (old.rewrite item)).items ↔ row = old.rewrite item ∨ row ∈ db.items ∧ row.id ≠ old.id :=
    fun row => mem_setRow ⟨old, hmem, rfl⟩
  obtain ⟨log, hlog, hquiet, hlives⟩ : ∃ log,
      ((db.setRow (old.rewrite item)).slotRemintLog old (old.rewrite item)).slotRemints = db.slotRemints ++ log ∧
        (old.type ≠ .file → log = []) ∧ (old.Unsent → old.Lives log (old.rewrite item)) := by
    unfold MobileDb.slotRemintLog
    split
    · next hremint =>
      refine ⟨_, rfl, fun hfile => absurd (h.marks old hmem hremint.2) hfile, fun _ => ⟨rfl, rfl, .single ?_⟩⟩
      exact mem_singleton_self _
    next hsame =>
    refine ⟨[], (append_nil _).symm, fun _ => rfl, fun hunsent => ⟨rfl, rfl, ?_⟩⟩
    have huuid : old.uuid = (old.rewrite item).uuid := not_not.mp fun hne => hsame ⟨hne, hunsent⟩
    exact huuid ▸ .refl
  have hitems : ((db.setRow (old.rewrite item)).slotRemintLog old (old.rewrite item)).items = (db.setRow (old.rewrite item)).items :=
    MobileDb.slotRemintLog_items ..
  have htombs : ((db.setRow (old.rewrite item)).slotRemintLog old (old.rewrite item)).tombstones = db.tombstones :=
    slotRemintLog_tombstones ..
  have hnext : ((db.setRow (old.rewrite item)).slotRemintLog old (old.rewrite item)).nextId = db.nextId := by
    unfold MobileDb.slotRemintLog
    split <;> rfl
  generalize (db.setRow (old.rewrite item)).slotRemintLog old (old.rewrite item) = mid at hlog hitems htombs hnext ⊢
  have hmid : Tabled mid := by
    refine ⟨hitems ▸ setRow_ids db (old.rewrite item) ▸ h.ids, ?_, ?_⟩
    · intro row hrow
      rw [hnext]
      rcases (hset row).mp (hitems ▸ hrow) with rfl | ⟨hrow, -⟩
      · exact h.bounded old hmem
      · exact h.bounded row hrow
    intro row hrow hunsent
    rcases (hset row).mp (hitems ▸ hrow) with rfl | ⟨hrow, -⟩
    · exact htype.trans (h.marks old hmem hunsent)
    · exact h.marks row hrow hunsent
  have hretired : SparesBy [] mid (mid.tombstoneOnIdRetirement old (old.rewrite item)) := by
    unfold MobileDb.tombstoneOnIdRetirement
    split
    · exact hmid.retireId old
    · exact hmid.refl
  generalize mid.tombstoneOnIdRetirement old (old.rewrite item) = retired at hretired ⊢
  obtain ⟨hdone, hcleared⟩ : SparesBy [] mid (retired.bumpOnUpdate old (old.rewrite item)) ∧
      ∀ tomb ∈ (retired.bumpOnUpdate old (old.rewrite item)).tombstones, tomb.kind = .file →
        (old.rewrite item).stableUuid = some tomb.itemId → old.stableUuid = (old.rewrite item).stableUuid := by
    unfold MobileDb.bumpOnUpdate
    split
    · have hbumped := hretired.quiet (hretired.tabled.bump (old.rewrite item).id)
      refine ⟨hbumped.quiet (hbumped.tabled.clearTombstones _), fun tomb htomb hkind hstable => ?_⟩
      have hnot := (mem_filter.mp htomb).2
      simp [ItemRow.answersTo, hkind, hstable] at hnot
    · next hsame => exact ⟨hretired, fun _ _ _ _ => not_not.mp fun hne => hsame (.inr (.inl hne))⟩
  refine ⟨log, hquiet, hdone.tabled, ?_, ?_, ?_⟩
  · rw [hdone.logged, hlog, append_nil]
  · intro row hrow hunsent
    obtain ⟨moved, hmoved, hlives'⟩ : ∃ moved ∈ mid.items, row.Lives log moved := by
      by_cases hid : row.id = old.id
      · obtain rfl := h.eq_of_id hrow hmem hid
        exact ⟨_, hitems ▸ (hset _).mpr (.inl rfl), hlives hunsent⟩
      · exact ⟨row, hitems ▸ (hset row).mpr (.inr ⟨hrow, hid⟩), ⟨rfl, rfl, .refl⟩⟩
    obtain ⟨row', hrow', hlast⟩ := hdone.stays moved hmoved (hlives'.unsent.mpr hunsent)
    exact ⟨row', hrow', append_nil log ▸ hlives'.trans hlast⟩
  intro row' hrow' hunsent
  obtain ⟨moved, hmoved, hlast, hkept⟩ := hdone.back row' hrow' hunsent
  have hunsent' := hlast.unsent.mp hunsent
  rcases (hset moved).mp (hitems ▸ hmoved) with rfl | ⟨hrow, -⟩
  · refine ⟨old, hmem, append_nil log ▸ (hlives hunsent').trans hlast, fun tomb htomb hkind hstable => ?_⟩
    obtain ⟨htomb', hstable'⟩ := hkept tomb htomb hkind hstable
    exact ⟨htombs ▸ htomb', (hcleared tomb htomb hkind hstable').trans hstable'⟩
  have hstill : moved.Lives log moved := ⟨rfl, rfl, .refl⟩
  refine ⟨moved, hrow, append_nil log ▸ hstill.trans hlast, fun tomb htomb hkind hstable => ?_⟩
  obtain ⟨htomb', hstable'⟩ := hkept tomb htomb hkind hstable
  exact ⟨htombs ▸ htomb', hstable'⟩

theorem Tabled.cascaded (uuid : Uuid) : SparesBy [] db (db.deleteRows (db.cascaded uuid)) := by
  refine h.deleteRows fun row hrow hid => ?_
  obtain ⟨row', hrow', heq⟩ := mem_map.mp hid
  obtain ⟨hrow', hpicked⟩ := mem_filter.mp hrow'
  rw [h.eq_of_id hrow hrow' heq.symm]
  simp only [Bool.and_eq_true, decide_eq_true_eq] at hpicked
  exact fun hunsent => hunsent hpicked.2

theorem Tabled.updateRow (hold : db.row? old.id = some old) (htype : item.type = old.type) :
    ∃ log, (old.type ≠ .file → log = []) ∧ SparesBy log db (db.updateRow old (old.rewrite item)) := by
  obtain ⟨log, hquiet, hrewrite⟩ := h.rewriteRow hold htype
  refine ⟨log, hquiet, ?_⟩
  unfold MobileDb.updateRow MobileDb.cascadeOnUpdate
  split
  · exact hrewrite.quiet (hrewrite.tabled.cascaded old.uuid)
  · exact hrewrite

/-- The row a record reuses the uuid of, under another type, has no mark unless the record is of
no file. -/
theorem Tabled.upsertItem
    (hfree : ∀ row ∈ db.items, row.Unsent → row.uuid = item.uuid → item.type = .file) :
    ∃ log, (item.type ≠ .file → log = []) ∧ SparesBy log db (db.upsertItem item).1 := by
  have hretired : SparesBy [] db (db.retireCrossType item.uuid item.type) := by
    refine h.deleteRows fun row hrow hid hunsent => ?_
    obtain ⟨row', hrow', heq⟩ := mem_map.mp hid
    obtain ⟨hrow', hpicked⟩ := mem_filter.mp hrow'
    obtain rfl := h.eq_of_id hrow hrow' heq.symm
    simp only [Bool.and_eq_true, decide_eq_true_eq] at hpicked
    exact hpicked.2 ((h.marks row hrow hunsent).trans (hfree row hrow hunsent hpicked.1).symm)
  have hsub : (db.retireCrossType item.uuid item.type).items.Sublist db.items := deleteRows_sublist _ _
  unfold MobileDb.upsertItem
  dsimp only
  generalize htarget : db.upsertTarget item = target
  generalize db.retireCrossType item.uuid item.type = retired at hretired hsub ⊢
  generalize hid : (target.map ItemRow.id).getD db.nextId = id
  cases hrow : retired.row? id with
  | some old =>
    obtain ⟨hmem, rfl⟩ := MobileDb.row?_some hrow
    obtain rfl : target = some old := by
      cases target with
      | none => exact absurd hid.symm (ne_of_lt (h.bounded old (hsub.subset hmem)))
      | some found => rw [h.eq_of_id (upsertTarget_mem htarget).1 (hsub.subset hmem) hid]
    have htype : item.type = old.type := (upsertTarget_mem htarget).2.symm
    obtain ⟨log, hquiet, hupdate⟩ := hretired.tabled.updateRow hrow htype
    exact ⟨log, htype ▸ hquiet, hretired.trans hupdate⟩
  | none => exact ⟨[], fun _ => rfl, hretired.quiet (hretired.tabled.insertRow (MobileDb.row?_none hrow) rfl)⟩

end

/-! ## Halves and records -/

theorem HalfWrite.spares (hhalf : HalfWrite db row new db') (h : Tabled db) : SparesBy [] db db' := by
  have hset := h.setRow hhalf.found hhalf.same
  rcases hhalf.result with rfl | ⟨rfl, -⟩
  · exact hset.quiet (hset.tabled.bump _)
  · exact hset

theorem Tabled.upsertFileFromRemote {file : RemoteFile} (h : Tabled db)
    (hwrite : db.upsertFileFromRemote file = some (db', id)) : Spares db db' := by
  obtain ⟨log, -, hitem⟩ := @Tabled.upsertItem _ file.item h fun _ _ _ _ => rfl
  obtain ⟨row, half, mid, -, hhalf, hrest⟩ := upsertFileFromRemote_halves hwrite
  have hfile := hitem.quiet (hhalf.spares hitem.tabled)
  rcases hrest with rfl | ⟨other, fileMeta, hmeta⟩
  · exact ⟨log, hfile⟩
  · exact ⟨log, hfile.quiet (hmeta.spares hfile.tabled)⟩

/-- No row with an unsent edit has the uuid of a directory of a list. -/
def FreeOf (dirs : List RemoteDirectory) (db : MobileDb) : Prop :=
  ∀ dir ∈ dirs, ∀ row ∈ db.items, row.Unsent → row.uuid ≠ dir.uuid

theorem SparesBy.free {dirs : List RemoteDirectory} (h : SparesBy [] db db') (hfree : FreeOf dirs db) : FreeOf dirs db' := by
  intro dir hdir row' hrow' hunsent
  obtain ⟨row, hrow, hlives, -⟩ := h.back row' hrow' hunsent
  rcases hlives.uuid.cases_head with heq | ⟨_, hstep, -⟩
  · exact heq ▸ hfree dir hdir row hrow (hlives.unsent.mp hunsent)
  · exact absurd hstep not_mem_nil

theorem Tabled.upsertDirFromRemote {dir : RemoteDirectory} {dirs : List RemoteDirectory} (h : Tabled db)
    (hfree : FreeOf dirs db) (hdir : dir ∈ dirs) (hwrite : db.upsertDirFromRemote dir = some (db', id)) :
    SparesBy [] db db' := by
  obtain ⟨log, hquiet, hitem⟩ := @Tabled.upsertItem _ dir.item h fun row hrow hunsent huuid =>
    absurd huuid (hfree dir hdir row hrow hunsent)
  obtain rfl := hquiet nofun
  obtain ⟨row, half, mid, -, hhalf, hrest⟩ := upsertDirFromRemote_halves hwrite
  have hwritten := hitem.quiet (hhalf.spares hitem.tabled)
  rcases hrest with rfl | ⟨other, dirMeta, hmeta⟩
  · exact hwritten
  · exact hwritten.quiet (hmeta.spares hwritten.tabled)

variable {dirs : List RemoteDirectory} {files : List RemoteFile} {spare : List Uuid} {parent : Uuid}

theorem Tabled.upsertDirsAndFiles (h : Tabled db) (hfree : FreeOf dirs db)
    (hwrite : db.upsertDirsAndFiles dirs files = some db') : Spares db db' := by
  obtain ⟨mid, hmid, hwrite⟩ := Option.bind_eq_some_iff.mp hwrite
  have hdirs := upsertListed_keeps (Q := SparesBy [] db)
    (fun dir hdir a b id ha hb => ha.quiet (ha.tabled.upsertDirFromRemote (ha.free hfree) hdir hb)) h.refl hmid
  exact upsertListed_keeps (Q := Spares db)
    (fun file _ a b id ha hb => ha.trans (ha.tabled.upsertFileFromRemote hb)) ⟨_, hdirs⟩ hwrite

theorem Tabled.setRecent (h : Tabled db) (id : Nat) : SparesBy [] db (db.setRecent id) := by
  refine h.map (fun row _ => ?_) rfl rfl rfl fun _ h => h
  split <;> exact ⟨rfl, rfl, rfl, rfl, rfl⟩

theorem Tabled.updateRecents (h : Tabled db) (hfree : FreeOf dirs db)
    (hwrite : db.updateRecents dirs files = some db') : Spares db db' := by
  have hcleared : SparesBy [] db db.clearRecents :=
    h.map (f := fun row => { row with isRecent := false }) (fun _ _ => ⟨rfl, rfl, rfl, rfl, rfl⟩) rfl rfl rfl fun _ h => h
  obtain ⟨mid, hmid, hwrite⟩ := Option.bind_eq_some_iff.mp hwrite
  have hdirs := upsertRecent_keeps (Q := SparesBy [] db)
    (fun dir hdir a b id ha hb => ha.quiet (ha.tabled.upsertDirFromRemote (ha.free hfree) hdir hb))
    (fun a id ha => ha.quiet (ha.tabled.setRecent id)) hcleared hmid
  exact upsertRecent_keeps (Q := Spares db) (fun file _ a b id ha hb => ha.trans (ha.tabled.upsertFileFromRemote hb))
    (fun a id ha => ha.trans ⟨_, ha.tabled.setRecent id⟩) ⟨_, hdirs⟩ hwrite

/-! ## Sweeps -/

/-- A delete of the upper row would take the lower one with it. -/
def Under (rows : List ItemRow) (low row : ItemRow) : Prop :=
  low.trashed = false ∧ low.parent = some row.uuid ∧ row ∈ rows

/-- An untrashed row with an unsent edit is the row, or hangs under it through untrashed rows only. -/
def Shelters (rows : List ItemRow) (row : ItemRow) : Prop :=
  ∃ file ∈ rows, file.Unsent ∧ file.trashed = false ∧ Relation.ReflTransGen (Under rows) file row

/-- Whatever shelters an unsent edit is still there. -/
def KeepsShelters (listed swept : MobileDb) : Prop :=
  ∀ row ∈ listed.items, Shelters listed.items row → ∃ row' ∈ swept.items, row'.id = row.id

def ItemRow.still (row : ItemRow) : ItemRow := { row with isStale := false }

theorem Shelters.still {rows : List ItemRow} (h : Shelters rows row) : Shelters (rows.map ItemRow.still) row.still := by
  obtain ⟨file, hfile, hunsent, htrashed, hunder⟩ := h
  exact ⟨file.still, mem_map_of_mem hfile, hunsent, htrashed, hunder.lift ItemRow.still
    fun _ _ hunder => ⟨hunder.1, hunder.2.1, mem_map_of_mem hunder.2.2⟩⟩

theorem climb_subset (fuel : Nat) (rows : List ItemRow) : ∀ row ∈ rows, row ∈ db.climb fuel rows := by
  induction fuel generalizing rows with
  | zero => exact fun _ h => h
  | succ fuel ih =>
    intro row hrow
    unfold MobileDb.climb
    dsimp only
    split
    · exact hrow
    · exact ih _ row (mem_append_left _ hrow)

theorem climb_closed (fuel : Nat) (rows : List ItemRow)
    (hfuel : (db.items.filter fun row => !rows.contains row).length ≤ fuel) {low : ItemRow}
    (hlow : low ∈ db.climb fuel rows) (hunder : Under db.items low row) : row ∈ db.climb fuel rows := by
  induction fuel generalizing rows with
  | zero =>
    by_contra hrow
    have hnew : row ∉ rows := hrow
    have hmem : row ∈ db.items.filter fun row => !rows.contains row :=
      mem_filter.mpr ⟨hunder.2.2, by simpa using hnew⟩
    exact ne_nil_of_mem hmem (length_eq_zero_iff.mp (Nat.le_zero.mp hfuel))
  | succ fuel ih =>
    unfold MobileDb.climb at hlow ⊢
    dsimp only at hlow ⊢
    split
    · next hnone =>
      rw [if_pos hnone] at hlow
      by_contra hrow
      refine ne_nil_of_mem (mem_filter.mpr ⟨hunder.2.2, ?_⟩) hnone
      rw [Bool.and_eq_true, any_eq_true]
      exact ⟨by simpa using hrow, low, hlow, by simp [hunder.1, hunder.2.1]⟩
    next habove =>
    rw [if_neg habove] at hlow
    refine ih _ ?_ hlow
    generalize hpicked : (db.items.filter fun row =>
      !rows.contains row && rows.any fun low => !low.trashed && low.parent = some row.uuid) = above at habove
    obtain ⟨top, htop⟩ := exists_mem_of_ne_nil above habove
    obtain ⟨hmem, hnew⟩ := mem_filter.mp (hpicked ▸ htop)
    have hsmaller : (db.items.filter fun row => !(rows ++ above).contains row) =
        (db.items.filter fun row => !rows.contains row).filter fun row => !above.contains row := by
      rw [filter_filter]
      refine filter_congr fun row _ => ?_
      simp [Bool.and_comm]
    rw [hsmaller]
    refine Nat.le_of_lt_succ (lt_of_lt_of_le (length_filter_lt_length_iff_exists.mpr ⟨top, ?_, ?_⟩) hfuel)
    · exact mem_filter.mpr ⟨hmem, (Bool.and_eq_true .. ▸ hnew).1⟩
    · simpa using htop

theorem Shelters.pendingHolders {holders : List ItemRow}
    (hholders : ∀ row ∈ db.items, row.Unsent → row.trashed = false → row ∈ holders)
    (h : Shelters (db.items.map ItemRow.still) row.still) (hrow : row ∈ db.items) :
    row.uuid ∈ db.pendingHolders holders := by
  obtain ⟨file, hfile, hunsent, htrashed, hunder⟩ := h
  suffices hclimb : ∀ last, Relation.ReflTransGen (Under (db.items.map ItemRow.still)) file last →
      ∀ row ∈ db.items, row.still = last → row ∈ db.climb db.items.length holders from
    mem_map_of_mem (hclimb _ hunder row hrow rfl)
  intro last hreach
  induction hreach with
  | refl =>
    rintro row hrow rfl
    exact climb_subset _ _ row (hholders row hrow hunsent htrashed)
  | @tail mid _ hreach hstep ih =>
    rintro row hrow rfl
    have hmid : mid ∈ db.items.map ItemRow.still := by
      rcases hreach.cases_tail with rfl | ⟨_, -, hlast⟩
      · exact hfile
      · exact hlast.2.2
    obtain ⟨low, hlow, rfl⟩ := mem_map.mp hmid
    exact climb_closed _ _ (length_filter_le ..) (ih low hlow rfl) ⟨hstep.1, hstep.2.1, hrow⟩

theorem Tabled.sweep (h : Tabled db) {listed : MobileDb} {picks : ItemRow → Bool}
    (hstill : db.items.map ItemRow.still = listed.items.map ItemRow.still)
    (hpicks : ∀ row ∈ db.items, picks row → ¬ Shelters (db.items.map ItemRow.still) row.still) :
    KeepsShelters listed (db.deleteWhere picks) := by
  intro row hrow hshelters
  have hshelters' := hstill ▸ hshelters.still
  obtain ⟨there, hthere, heq⟩ := mem_map.mp (hstill ▸ mem_map_of_mem (f := ItemRow.still) hrow)
  have hid : there.still.id = row.still.id := by rw [heq]
  rw [← heq] at hshelters'
  refine ⟨there, ?_, hid⟩
  by_contra hgone
  refine (deleteWithin_doomed (R := fun a b => ∀ row ∈ a.items, row ∉ b.items → ∀ row' ∈ db.items, row'.id = row.id →
      ¬ Shelters (db.items.map ItemRow.still) row'.still) db.items
    (fun id => ∀ row ∈ db.items, row.id = id → ¬ Shelters (db.items.map ItemRow.still) row.still)
    ?_ ?_ ?_ ?_ db.items.length (fun _ hrow => hrow) ?_).1 there hthere hgone there hthere rfl hshelters'
  · exact fun a row hrow hnot => absurd hrow hnot
  · intro a b c hab hbc row hrow hnot
    by_cases hb : row ∈ b.items
    · exact hbc row hb hnot
    · exact hab row hrow hb
  · intro a old hold hmem hdoomed row hrow hnot row' hrow' hid
    refine hdoomed row' hrow' (hid.trans ?_)
    by_contra hne
    rw [MobileDb.tombstoneOnDelete_items] at hnot
    exact hnot (mem_filter.mpr ⟨hrow, decide_eq_true hne⟩)
  · rintro old hold low hlow hdoomed hparent htrashed hmark low' hlow' hid ⟨file, hfile, hunsent, htrashed', hunder⟩
    obtain rfl := h.eq_of_id hlow' hlow hid
    exact hdoomed old hold rfl ⟨file, hfile, hunsent, htrashed',
      hunder.tail ⟨htrashed, hparent, mem_map_of_mem hold⟩⟩
  rintro id hid row hrow rfl
  obtain ⟨picked, hpicked, heq⟩ := mem_map.mp hid
  rw [h.eq_of_id hrow (mem_filter.mp hpicked).1 heq.symm]
  exact hpicks picked (mem_filter.mp hpicked).1 (mem_filter.mp hpicked).2

theorem unmarkStale_still (picks : ItemRow → Bool) :
    (db.unmarkStale picks).items.map ItemRow.still = db.items.map ItemRow.still := by
  unfold MobileDb.unmarkStale
  rw [map_map]
  refine map_congr_left fun row _ => ?_
  rw [Function.comp_apply]
  split <;> rfl

theorem unmarkSpared_still (spare : List Uuid) :
    (db.unmarkSpared spare).items.map ItemRow.still = db.items.map ItemRow.still := by
  induction spare generalizing db with
  | nil => rfl
  | cons uuid spare ih => exact ih.trans (unmarkStale_still _)

theorem Tabled.sweepHolders (h : Tabled db) {holders : List ItemRow} {scope picks : ItemRow → Bool}
    (hholders : ∀ row ∈ (db.unmarkSpared spare).items, row.Unsent → row.trashed = false → row ∈ holders)
    (hpicks : ∀ row, picks row → scope row ∧ row.isStale ∧ row.pendingUploadAt = none)
    (hswept : db' = ((db.unmarkSpared spare).unmarkStale fun row => scope row &&
      ((db.unmarkSpared spare).pendingHolders holders).contains row.uuid).deleteWhere picks) :
    SparesBy [] db db' ∧ KeepsShelters db db' := by
  have hspared := h.unmarkSpared spare
  have hunmarked := hspared.quiet (hspared.tabled.unmarkStale fun row => scope row &&
    ((db.unmarkSpared spare).pendingHolders holders).contains row.uuid)
  rw [hswept]
  refine ⟨hunmarked.quiet (hunmarked.tabled.deleteWhere fun row _ hpicked hunsent => hunsent (hpicks row hpicked).2.2),
    hunmarked.tabled.sweep ((unmarkStale_still _).trans (unmarkSpared_still _)) ?_⟩
  rintro row' hrow' hpicked hshelters
  rw [unmarkStale_still] at hshelters
  obtain ⟨row, hrow, rfl⟩ := mem_map.mp hrow'
  obtain ⟨hscoped, hstale, -⟩ := hpicks _ hpicked
  by_cases hheld : (scope row && ((db.unmarkSpared spare).pendingHolders holders).contains row.uuid)
  · rw [if_pos hheld] at hstale
    exact absurd hstale Bool.false_ne_true
  rw [if_neg hheld] at hscoped hshelters
  refine hheld ?_
  rw [hscoped, Bool.true_and]
  exact elem_eq_true_of_mem (hshelters.pendingHolders hholders hrow)

theorem Tabled.updateItemsWithParent (h : Tabled db) (hfree : FreeOf dirs db)
    (hwrite : db.updateItemsWithParent dirs files parent spare = some db') :
    Spares db db' ∧ ∃ listed, (db.markStaleWithParent parent).upsertDirsAndFiles dirs files = some listed ∧
      KeepsShelters listed db' := by
  obtain ⟨listed, hlisted, hdone⟩ := Option.bind_eq_some_iff.mp hwrite
  have hdone : _ = db' := Option.some.inj hdone
  have hmarked : SparesBy [] db (db.markStaleWithParent parent) := by
    refine h.map (fun row _ => ?_) rfl rfl rfl fun _ h => h
    split <;> exact ⟨rfl, rfl, rfl, rfl, rfl⟩
  obtain ⟨log, hupserted⟩ := hmarked.tabled.upsertDirsAndFiles (hmarked.free hfree) hlisted
  have hswept : SparesBy [] listed db' ∧ KeepsShelters listed db' := by
    refine hupserted.tabled.sweepHolders (fun row hrow hunsent htrashed => ?_) (fun row hpicked => ?_) hdone.symm
    · refine mem_filter.mpr ⟨hrow, ?_⟩
      rw [Option.isSome_iff_ne_none.mpr hunsent, htrashed]
      rfl
    simp only [Bool.and_eq_true, decide_eq_true_eq] at hpicked
    exact ⟨decide_eq_true hpicked.1.1.1, hpicked.1.1.2, hpicked.2⟩
  exact ⟨⟨_, hmarked.trans (hupserted.quiet hswept.1)⟩, listed, hlisted, hswept.2⟩

theorem Tabled.updateTrashedItems (h : Tabled db) (hfree : FreeOf dirs db)
    (hwrite : db.updateTrashedItems dirs files spare = some db') :
    Spares db db' ∧ ∃ listed, db.markStaleTrashed.upsertDirsAndFiles dirs files = some listed ∧ KeepsShelters listed db' := by
  obtain ⟨listed, hlisted, hdone⟩ := Option.bind_eq_some_iff.mp hwrite
  have hdone : _ = db' := Option.some.inj hdone
  have hmarked : SparesBy [] db db.markStaleTrashed := by
    refine h.map (fun row _ => ?_) rfl rfl rfl fun _ h => h
    split <;> exact ⟨rfl, rfl, rfl, rfl, rfl⟩
  obtain ⟨log, hupserted⟩ := hmarked.tabled.upsertDirsAndFiles (hmarked.free hfree) hlisted
  have hswept : SparesBy [] listed db' ∧ KeepsShelters listed db' := by
    refine hupserted.tabled.sweepHolders (fun row hrow hunsent _ => ?_) (fun row hpicked => ?_) hdone.symm
    · exact mem_filter.mpr ⟨hrow, Option.isSome_iff_ne_none.mpr hunsent⟩
    simp only [Bool.and_eq_true, decide_eq_true_eq] at hpicked
    exact ⟨hpicked.1.1, hpicked.1.2, hpicked.2⟩
  exact ⟨⟨_, hmarked.trans (hupserted.quiet hswept.1)⟩, listed, hlisted, hswept.2⟩

def CacheWrite.FromServer : CacheWrite → Prop
  | .upsertDir _ => True
  | .upsertFile _ => True
  | .updateItemsWithParent .. => True
  | .updateTrashedItems .. => True
  | .updateRecents .. => True
  | _ => False

theorem Tabled.commit {write : CacheWrite} (h : Tabled db) (hserver : write.FromServer) (hfree : FreeOf write.dirs db) :
    Spares db (write.commit db) := by
  unfold CacheWrite.commit
  cases hwrite : write.transaction db with
  | none => exact ⟨_, h.refl⟩
  | some done =>
    rw [Option.getD_some]
    cases write with
    | upsertDir dir =>
      obtain ⟨⟨_, id⟩, hdone, rfl⟩ := Option.map_eq_some_iff.mp hwrite
      exact ⟨_, h.upsertDirFromRemote hfree mem_cons_self hdone⟩
    | upsertFile file =>
      obtain ⟨⟨_, id⟩, hdone, rfl⟩ := Option.map_eq_some_iff.mp hwrite
      exact h.upsertFileFromRemote hdone
    | updateItemsWithParent dirs files parent spare => exact (h.updateItemsWithParent hfree hwrite).1
    | updateTrashedItems dirs files spare => exact (h.updateTrashedItems hfree hwrite).1
    | updateRecents dirs files => exact h.updateRecents hfree hwrite
    | _ => exact hserver.elim

/-! ## Statements -/

/-- A statement with the triggers it fires; the deletes of a cascade are statements of their own. -/
inductive Statement (db : MobileDb) : MobileDb → Prop where
  | delete (old : ItemRow) (hold : db.row? old.id = some old) :
      Statement db ((db.eraseRow old.id).tombstoneOnDelete old)
  | insert (row : ItemRow) (hnew : ∀ other ∈ db.items, other.id ≠ row.id) : Statement db (db.insertRow row)
  | update (old : ItemRow) (item : ItemRecord) (hold : db.row? old.id = some old) :
      Statement db ((((db.setRow (old.rewrite item)).slotRemintLog old (old.rewrite item)).tombstoneOnIdRetirement old
        (old.rewrite item)).bumpOnUpdate old (old.rewrite item))
  | half {row new : ItemRow} {db' : MobileDb} (hhalf : HalfWrite db row new db') : Statement db db'
  | mark (f : ItemRow → ItemRow) (hsame : ∀ row, (f row).SameIds row) :
      Statement db { db with items := db.items.map f }

abbrev Statements : MobileDb → MobileDb → Prop := Relation.ReflTransGen Statement

/-- No tombstone is written for the stable id of a row with an unsent edit. -/
def KeepsIds (db db' : MobileDb) : Prop :=
  ∀ row ∈ db.items, row.Unsent → ∀ tomb ∈ db'.tombstones, tomb.kind = .file →
    row.stableUuid = some tomb.itemId → tomb ∈ db.tombstones

theorem bump_ids (db : MobileDb) (id : Nat) : (db.bump id).items.map ItemRow.id = db.items.map ItemRow.id := by
  unfold MobileDb.bump
  rw [map_map]
  refine map_congr_left fun row _ => ?_
  rw [Function.comp_apply]
  split <;> rfl

theorem tombstoneOnIdRetirement_items (db : MobileDb) (old new : ItemRow) :
    (db.tombstoneOnIdRetirement old new).items = db.items := by
  unfold MobileDb.tombstoneOnIdRetirement
  split
  · exact MobileDb.retireId_items db old
  · rfl

theorem Statement.ids (h : Statement db db') (hids : (db.items.map ItemRow.id).Nodup) :
    (db'.items.map ItemRow.id).Nodup := by
  cases h with
  | delete old hold =>
    rw [MobileDb.tombstoneOnDelete_items]
    exact (filter_sublist.map _).nodup hids
  | insert row hnew =>
    have hadded := nodup_ids_concat hids hnew
    unfold MobileDb.insertRow
    split
    · exact hadded
    · exact (bump_ids ..).symm ▸ hadded
  | update old item hold =>
    have hset := setRow_ids db (old.rewrite item) ▸ hids
    unfold MobileDb.bumpOnUpdate
    split
    · rw [← MobileDb.slotRemintLog_items _ old (old.rewrite item), ← tombstoneOnIdRetirement_items _ old] at hset
      exact (bump_ids ..).symm ▸ hset
    · rwa [tombstoneOnIdRetirement_items, MobileDb.slotRemintLog_items]
  | @half row new _ hhalf =>
    have hset := setRow_ids db new ▸ hids
    rcases hhalf.result with rfl | ⟨rfl, -⟩
    · exact (bump_ids ..).symm ▸ hset
    · exact hset
  | mark f hsame =>
    have hsameIds : db.items.map (ItemRow.id ∘ f) = db.items.map ItemRow.id :=
      map_congr_left fun row _ => (hsame row).id
    rw [map_map, hsameIds]
    exact hids

/-- A row deleted or rewritten gives up an id for good only where it has no unsent edit, and then
no row with one carries the id. -/
theorem Statement.keepsIds (h : Statement db db') (hids : (db.items.map ItemRow.id).Nodup) : KeepsIds db db' := by
  intro row hrow hunsent tomb htomb hkind hstable
  have hapart : ∀ {old}, db.row? old.id = some old → old.pendingUploadAt = none → row.id ≠ old.id := by
    intro old hold hsent hid
    rw [inj_on_of_nodup_map hids hrow (MobileDb.row?_some hold).1 hid] at hunsent
    exact hunsent hsent
  cases h with
  | delete old hold =>
    unfold MobileDb.tombstoneOnDelete at htomb
    split at htomb
    · next hsent =>
      refine (tombstone_retireId htomb).resolve_right fun hnone => hnone hkind row ?_ hstable
      exact mem_filter.mpr ⟨hrow, decide_eq_true (hapart hold hsent)⟩
    · exact htomb
  | insert row hnew =>
    unfold MobileDb.insertRow at htomb
    split at htomb
    · exact htomb
    · exact (mem_filter.mp htomb).1
  | update old item hold =>
    have htombs : ((db.setRow (old.rewrite item)).slotRemintLog old (old.rewrite item)).tombstones = db.tombstones :=
      slotRemintLog_tombstones ..
    have hretired : tomb ∈ (((db.setRow (old.rewrite item)).slotRemintLog old
        (old.rewrite item)).tombstoneOnIdRetirement old (old.rewrite item)).tombstones := by
      unfold MobileDb.bumpOnUpdate at htomb
      split at htomb
      · exact (mem_filter.mp htomb).1
      · exact htomb
    unfold MobileDb.tombstoneOnIdRetirement at hretired
    split at hretired
    · next hsent =>
      rw [← htombs]
      refine (tombstone_retireId hretired).resolve_right fun hnone => hnone hkind row ?_ hstable
      rw [MobileDb.slotRemintLog_items]
      have hmem : ∃ row ∈ db.items, row.id = (old.rewrite item).id := ⟨old, (MobileDb.row?_some hold).1, rfl⟩
      have hne : row.id ≠ old.id := hapart hold hsent.1
      exact (mem_setRow hmem).mpr (.inr ⟨hrow, hne⟩)
    · exact htombs ▸ hretired
  | half hhalf =>
    rcases hhalf.result with rfl | ⟨rfl, -⟩
    · exact htomb
    · exact htomb
  | mark f hsame => exact htomb

theorem Statements.keepsIds {mid : MobileDb} (hids : (db.items.map ItemRow.id).Nodup) (h : Statements db mid)
    (hnext : Statement mid db') : KeepsIds mid db' := by
  refine hnext.keepsIds ?_
  clear hnext
  induction h with
  | refl => exact hids
  | tail _ hstep ih => exact hstep.ids ih

theorem statements_deleteRows (db : MobileDb) (ids : List Nat) : Statements db (db.deleteRows ids) :=
  deleteWithin_induction (fun _ => .refl) (fun _ _ _ => .trans) (fun _ old hold => .single (.delete old hold)) _ db ids

theorem statements_upsertItem (db : MobileDb) (item : ItemRecord) : Statements db (db.upsertItem item).1 := by
  have hretired : Statements db (db.retireCrossType item.uuid item.type) := statements_deleteRows db _
  unfold MobileDb.upsertItem
  refine hretired.trans ?_
  dsimp only
  cases hrow : (db.retireCrossType item.uuid item.type).row? (((db.upsertTarget item).map ItemRow.id).getD db.nextId) with
  | none => exact .single (.insert _ (MobileDb.row?_none hrow))
  | some old =>
    have hupdate := Statement.update old item (by rwa [(MobileDb.row?_some hrow).2])
    dsimp only
    unfold MobileDb.updateRow MobileDb.cascadeOnUpdate
    split
    · exact (Relation.ReflTransGen.single hupdate).trans (statements_deleteRows ..)
    · exact .single hupdate

theorem statements_upsertFile {file : RemoteFile} (hwrite : db.upsertFileFromRemote file = some (db', id)) :
    Statements db db' := by
  obtain ⟨row, half, mid, -, hhalf, hrest⟩ := upsertFileFromRemote_halves hwrite
  have hfile := (statements_upsertItem db file.item).tail (.half hhalf)
  rcases hrest with rfl | ⟨other, fileMeta, hmeta⟩
  · exact hfile
  · exact hfile.tail (.half hmeta)

theorem statements_upsertDir {dir : RemoteDirectory} (hwrite : db.upsertDirFromRemote dir = some (db', id)) :
    Statements db db' := by
  obtain ⟨row, half, mid, -, hhalf, hrest⟩ := upsertDirFromRemote_halves hwrite
  have hdir := (statements_upsertItem db dir.item).tail (.half hhalf)
  rcases hrest with rfl | ⟨other, dirMeta, hmeta⟩
  · exact hdir
  · exact hdir.tail (.half hmeta)

theorem statements_listed (h : Statements db db') {done : MobileDb}
    (hwrite : db'.upsertDirsAndFiles dirs files = some done) : Statements db done := by
  obtain ⟨mid, hmid, hwrite⟩ := Option.bind_eq_some_iff.mp hwrite
  have hdirs := upsertListed_keeps (Q := Statements db)
    (fun _ _ _ _ _ ha hb => ha.trans (statements_upsertDir hb)) h hmid
  exact upsertListed_keeps (Q := Statements db) (fun _ _ _ _ _ ha hb => ha.trans (statements_upsertFile hb)) hdirs hwrite

theorem statement_unmarkStale (db : MobileDb) (picks : ItemRow → Bool) : Statement db (db.unmarkStale picks) :=
  .mark _ fun row => by split <;> exact ⟨rfl, rfl, rfl, rfl, rfl⟩

theorem statements_unmarkSpared (db : MobileDb) (spare : List Uuid) : Statements db (db.unmarkSpared spare) := by
  induction spare generalizing db with
  | nil => exact .refl
  | cons uuid spare ih => exact (Relation.ReflTransGen.single (statement_unmarkStale db _)).trans (ih _)

theorem statements_transaction {write : CacheWrite} (hserver : write.FromServer) (hwrite : write.transaction db = some db') :
    Statements db db' := by
  cases write with
  | upsertDir dir =>
    obtain ⟨⟨_, id⟩, hdone, rfl⟩ := Option.map_eq_some_iff.mp hwrite
    exact statements_upsertDir hdone
  | upsertFile file =>
    obtain ⟨⟨_, id⟩, hdone, rfl⟩ := Option.map_eq_some_iff.mp hwrite
    exact statements_upsertFile hdone
  | updateItemsWithParent dirs files parent spare =>
    obtain ⟨listed, hlisted, hdone⟩ := Option.bind_eq_some_iff.mp hwrite
    cases hdone
    have hmarked : Statement db (db.markStaleWithParent parent) :=
      .mark _ fun row => by split <;> exact ⟨rfl, rfl, rfl, rfl, rfl⟩
    exact (((statements_listed (.single hmarked) hlisted).trans (statements_unmarkSpared ..)).tail
      (statement_unmarkStale ..)).trans (statements_deleteRows ..)
  | updateTrashedItems dirs files spare =>
    obtain ⟨listed, hlisted, hdone⟩ := Option.bind_eq_some_iff.mp hwrite
    cases hdone
    have hmarked : Statement db db.markStaleTrashed := .mark _ fun row => by split <;> exact ⟨rfl, rfl, rfl, rfl, rfl⟩
    exact (((statements_listed (.single hmarked) hlisted).trans (statements_unmarkSpared ..)).tail
      (statement_unmarkStale ..)).trans (statements_deleteRows ..)
  | updateRecents dirs files =>
    obtain ⟨mid, hmid, hwrite⟩ := Option.bind_eq_some_iff.mp hwrite
    have hcleared : Statement db db.clearRecents :=
      .mark (fun row => { row with isRecent := false }) fun _ => ⟨rfl, rfl, rfl, rfl, rfl⟩
    have hset : ∀ a id, Statements db a → Statements db (a.setRecent id) := fun a id ha =>
      ha.tail (.mark _ fun row => by split <;> exact ⟨rfl, rfl, rfl, rfl, rfl⟩)
    have hdirs := upsertRecent_keeps (Q := Statements db)
      (fun _ _ _ _ _ ha hb => ha.trans (statements_upsertDir hb)) hset (.single hcleared) hmid
    exact upsertRecent_keeps (Q := Statements db) (fun _ _ _ _ _ ha hb => ha.trans (statements_upsertFile hb)) hset
      hdirs hwrite
  | _ => exact hserver.elim

/-- A run of writes the server drives. No record gives the uuid of a row with an unsent edit to a
directory. -/
inductive Driven (db : MobileDb) : MobileDb → Prop where
  | refl : Driven db db
  | write {mid : MobileDb} (h : Driven db mid) (write : CacheWrite) (hserver : write.FromServer)
      (hfree : FreeOf write.dirs mid) : Driven db (write.commit mid)

theorem Driven.spares (h : Tabled db) (hrun : Driven db db') : Spares db db' := by
  induction hrun with
  | refl => exact ⟨_, h.refl⟩
  | write _ write hserver hfree ih =>
    obtain ⟨log, hspared⟩ := ih
    exact Spares.trans ⟨log, hspared⟩ (hspared.tabled.commit hserver hfree)

theorem Driven.statements (hrun : Driven db db') : Statements db db' := by
  induction hrun with
  | refl => exact .refl
  | @write mid _ write hserver _ ih =>
    unfold CacheWrite.commit
    cases hwrite : write.transaction mid with
    | none => exact ih
    | some done => exact ih.trans (statements_transaction hserver hwrite)

/-- A run of writes is a run of statements, none of which writes a tombstone for the stable id of a
row that has an unsent edit then. -/
theorem driven_spares_unsent (h : Tabled db) (hrun : Driven db db') :
    Spares db db' ∧
    (Statements db db' ∧ ∀ mid after, Statements db mid → Statement mid after → KeepsIds mid after) ∧
    ∀ dirs files spare swept, FreeOf dirs db' →
      (∀ parent, db'.updateItemsWithParent dirs files parent spare = some swept →
        ∃ listed, (db'.markStaleWithParent parent).upsertDirsAndFiles dirs files = some listed ∧
          KeepsShelters listed swept) ∧
      (db'.updateTrashedItems dirs files spare = some swept →
        ∃ listed, db'.markStaleTrashed.upsertDirsAndFiles dirs files = some listed ∧ KeepsShelters listed swept) := by
  obtain ⟨log, hspared⟩ := hrun.spares h
  exact ⟨⟨log, hspared⟩, ⟨hrun.statements, fun _ _ => Statements.keepsIds h.ids⟩, fun dirs files spare swept hfree =>
    ⟨fun parent hwrite => (hspared.tabled.updateItemsWithParent hfree hwrite).2,
      fun hwrite => (hspared.tabled.updateTrashedItems hfree hwrite).2⟩⟩

/-- A row takes another uuid and then another stable id, both in place. -/
theorem driven_spares_unsent_remint :
    let row : ItemRow := ⟨1, 7, some 8, some 9, false, .file, false, false, some 5, 0, none, none, none, none⟩
    let db : MobileDb := { MobileDb.init 0 with items := [row], nextId := 2 }
    let edited (stable : Uuid) : RemoteFile := ⟨6, stable, .uuid 9, 10, 1, true, .encrypted⟩
    let last := (CacheWrite.updateItemsWithParent [] [] 9 []).commit
      ((CacheWrite.upsertFile (edited 12)).commit ((CacheWrite.upsertFile (edited 8)).commit db))
    Spares db last ∧ Statements db last ∧ last.tombstones = [] ∧
      last.items.map (fun row => (row.uuid, row.stableUuid, row.pendingUploadAt)) = [(6, some 12, some 5)] := by
  intro row db edited last
  have htabled : Tabled db := by
    refine ⟨nodup_singleton _, fun r hr => ?_, fun r hr _ => ?_⟩ <;> obtain rfl := mem_singleton.mp hr
    · exact Nat.lt_succ_self 1
    · rfl
  have hrun : Driven db last := .write (.write (.write .refl (.upsertFile (edited 8)) trivial nofun)
    (.upsertFile (edited 12)) trivial nofun) (.updateItemsWithParent [] [] 9 []) trivial nofun
  obtain ⟨hspares, ⟨hstatements, -⟩, -⟩ := driven_spares_unsent htabled hrun
  exact ⟨hspares, hstatements, by decide, by decide⟩

end SyncEngine.MobileCache
