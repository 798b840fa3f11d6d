import SyncEngine.MobileCache.Statements

/-! # Items and their halves

An upsert writes the item first and its per-type half after it, in one
transaction: what it commits has no item without its half.
-/

namespace SyncEngine.MobileCache

open MobileDb List SyncEngine.Collections

variable {kindOf : Uuid → ItemType} {db db' : MobileDb}

/-- The row has the half its type calls for. -/
def ItemRow.Whole (row : ItemRow) : Prop :=
  (row.type = .file → row.file.isSome) ∧ (row.type = .dir → row.dir.isSome)

/-- Every row has its half, but for the one of an id. -/
def WholeBut (id : Nat) (db : MobileDb) : Prop := ∀ row ∈ db.items, row.id ≠ id → row.Whole

def Whole (db : MobileDb) : Prop := ∀ row ∈ db.items, row.Whole

theorem Whole.but (h : Whole db) (id : Nat) : WholeBut id db := fun row hrow _ => h row hrow

theorem Whole.sublist (h : Whole db) (hsub : db'.items.Sublist db.items) : Whole db' :=
  fun row hrow => h row (hsub.subset hrow)

theorem Whole.map (h : Whole db) {f : ItemRow → ItemRow} (hitems : db'.items = db.items.map f)
    (hf : ∀ row : ItemRow, row.Whole → (f row).Whole) : Whole db' := by
  intro row' hrow'
  rw [hitems] at hrow'
  obtain ⟨row, hrow, rfl⟩ := mem_map.mp hrow'
  exact hf row (h row hrow)

theorem Whole.bump (h : Whole db) (id : Nat) : Whole (db.bump id) := by
  apply h.map rfl
  intro row hrow
  split
  · exact hrow
  · exact hrow

variable {id : Nat} {new : ItemRow} {item : ItemRecord} {old : ItemRow} {bumped : MobileDb} {changed : Prop}

theorem WholeBut.setRow (h : WholeBut id db) (hnew : new.Whole) (hid : new.id = id) : Whole (db.setRow new) := by
  intro row' hrow'
  rw [← hid] at h
  obtain ⟨row, hrow, rfl⟩ := mem_map.mp hrow'
  split
  · exact hnew
  · next hid => exact h row hrow hid

/-! ## The item -/

/-- A record agrees with the kinds of the ids it is known by. -/
structure ItemRecord.Fits (kindOf : Uuid → ItemType) (item : ItemRecord) : Prop where
  stable : item.type = .file ↔ item.stableUuid.isSome
  kind : ∀ k, (item.row 0 false).key? = some k → kindOf k.2 = k.1

theorem ItemRecord.Fits.row (h : item.Fits kindOf) {row : ItemRow}
    (htype : row.type = item.type) (huuid : row.uuid = item.uuid) (hstable : row.stableUuid = item.stableUuid) :
    ∀ k, row.key? = some k → kindOf k.2 = k.1 := by
  intro k hk
  apply h.kind k
  rw [← hk]
  unfold ItemRow.key? ItemRecord.row
  rw [htype, huuid, hstable]

theorem Kept.updateRow (h : Kept kindOf db) (hold : db.row? old.id = some old) (htype : item.type = old.type)
    (huuid : ∀ row ∈ db.items, row.id ≠ old.id → row.uuid ≠ item.uuid)
    (hfits : item.Fits kindOf) : Advances kindOf db (db.updateRow old (old.rewrite item)) := by
  have hrewrite := h.rewriteRow hold htype huuid hfits.stable (hfits.row rfl rfl rfl)
  have hquiet : (db.setRow (old.rewrite item)).slotRemintLog old (old.rewrite item) = db.setRow (old.rewrite item) :=
    if_neg fun hlog => hlog.2 (h.identified.unmarked old (row?_some hold).1)
  unfold MobileDb.updateRow MobileDb.cascadeOnUpdate
  rw [hquiet]
  split
  · exact hrewrite.trans (hrewrite.kept.deleteRows _)
  · exact hrewrite

theorem upsertTarget_mem {row : ItemRow}
    (h : db.upsertTarget item = some row) : row ∈ db.items ∧ row.type = item.type := by
  rcases Option.or_eq_some_iff.mp h with huuid | ⟨-, hother⟩
  · have htype := find?_some huuid
    exact ⟨mem_of_find?_eq_some huuid, (by simpa using htype : _ ∧ _).2⟩
  cases hstable : item.stableUuid with
  | some stable =>
    rw [hstable] at hother
    obtain ⟨hrow, htype⟩ := Option.filter_eq_some_iff.mp hother
    refine ⟨?_, by simpa using htype⟩
    rcases Option.or_eq_some_iff.mp hrow with hlive | ⟨-, hany⟩
    · exact (mem_filter.mp (mem_filter.mp (oldest_mem hlive)).1).1
    · exact (mem_filter.mp (oldest_mem hany)).1
  | none =>
    rw [hstable] at hother
    cases hparent : item.parent with
    | none =>
      rw [hparent] at hother
      cases hother
    | some parent =>
      cases hname : item.name with
      | none =>
        rw [hparent, hname] at hother
        cases hother
      | some name =>
        rw [hparent, hname] at hother
        obtain ⟨hrow, hpicked⟩ := mem_filter.mp (oldest_mem hother)
        simp only [Bool.and_eq_true, decide_eq_true_eq] at hpicked
        exact ⟨hrow, hpicked.1.2⟩

theorem upsertTarget_uuid (h : Identified db) {row : ItemRow}
    (hrow : row ∈ db.items) (huuid : row.uuid = item.uuid) (htype : row.type = item.type) :
    db.upsertTarget item = some row := by
  unfold MobileDb.upsertTarget MobileDb.byUuid
  cases hfind : db.items.find? fun row => row.uuid = item.uuid && row.type = item.type with
  | none =>
    have hnot := find?_eq_none.mp hfind row hrow
    simp [huuid, htype] at hnot
  | some found =>
    have hfound := find?_some hfind
    have huuid' : found.uuid = item.uuid := (by simpa using hfound : _ ∧ _).1
    rw [h.eq_of_uuid (mem_of_find?_eq_some hfind) hrow (huuid'.trans huuid.symm)]
    rfl

/-- The rows an item upsert leaves are the record's and rows there were. -/
def Upserted (db : MobileDb) (item : ItemRecord) (id : Nat) (db' : MobileDb) : Prop :=
  ∀ row ∈ db'.items, row.id = id ∧ row.type = item.type ∨ row ∈ db.items ∧ row.id ≠ id

theorem Upserted.whole (h : Upserted db item id db') (hwhole : Whole db) : WholeBut id db' := by
  intro row hrow hid
  rcases h row hrow with ⟨heq, -⟩ | ⟨hold, -⟩
  · exact absurd heq hid
  · exact hwhole row hold

theorem Upserted.bump (h : Upserted db item id db') :
    Upserted db item id (db'.bump id) := by
  intro row' hrow'
  obtain ⟨row, hrow, rfl⟩ := mem_map.mp hrow'
  rcases h row hrow with ⟨heq, htype⟩ | ⟨hold, hne⟩
  · rw [if_pos heq]
    exact Or.inl ⟨heq, htype⟩
  rw [if_neg hne]
  exact Or.inr ⟨hold, hne⟩

theorem insertRow_upserted {isRecent : Bool} (hid : ∀ row ∈ db.items, row.id ≠ id) :
    Upserted db item id (db.insertRow (item.row id isRecent)) := by
  have happend : Upserted db item id
      { db with items := db.items ++ [item.row id isRecent], nextId := max db.nextId (id + 1) } := by
    intro row hrow
    rcases mem_append.mp hrow with hrow | hrow
    · exact Or.inr ⟨hrow, hid row hrow⟩
    rw [mem_singleton.mp hrow]
    exact Or.inl ⟨rfl, rfl⟩
  unfold MobileDb.insertRow
  split
  · exact happend
  · exact happend.bump

theorem updateRow_upserted (hold : old ∈ db.items) :
    Upserted db item old.id (db.updateRow old (old.rewrite item)) := by
  have hset : Upserted db item old.id ((db.setRow (old.rewrite item)).slotRemintLog old (old.rewrite item)) := by
    intro row hrow
    rw [slotRemintLog_items] at hrow
    have hid : ∃ row ∈ db.items, row.id = (old.rewrite item).id := ⟨old, hold, rfl⟩
    rcases (mem_setRow hid).mp hrow with rfl | hrow
    · exact Or.inl ⟨rfl, rfl⟩
    · exact Or.inr hrow
  have hretired : Upserted db item old.id
      (((db.setRow (old.rewrite item)).slotRemintLog old (old.rewrite item)).tombstoneOnIdRetirement old
        (old.rewrite item)) := by
    unfold MobileDb.tombstoneOnIdRetirement
    split
    · unfold Upserted
      rw [retireId_items]
      exact hset
    · exact hset
  have hbumped : Upserted db item old.id
      ((((db.setRow (old.rewrite item)).slotRemintLog old (old.rewrite item)).tombstoneOnIdRetirement old
        (old.rewrite item)).bumpOnUpdate old (old.rewrite item)) := by
    unfold MobileDb.bumpOnUpdate
    split
    · exact hretired.bump
    · exact hretired
  unfold MobileDb.updateRow MobileDb.cascadeOnUpdate
  split
  · intro row hrow
    exact hbumped row ((deleteRows_sublist _ _).subset hrow)
  · exact hbumped

theorem Kept.upsertItem (h : Kept kindOf db) (hfits : item.Fits kindOf) :
    Advances kindOf db (db.upsertItem item).1 ∧
      Upserted db item (db.upsertItem item).2 (db.upsertItem item).1 := by
  have hretired : Advances kindOf db (db.retireCrossType item.uuid item.type) := h.deleteRows _
  have hsub : (db.retireCrossType item.uuid item.type).items.Sublist db.items :=
    deleteRows_sublist _ _
  have hcross : ∀ row ∈ (db.retireCrossType item.uuid item.type).items,
      row.uuid = item.uuid → db.upsertTarget item = some row := by
    intro row hrow huuid
    refine upsertTarget_uuid h.identified (hsub.subset hrow) huuid ?_
    by_contra hne
    refine deleteRows_gone _ _ row hrow (mem_map_of_mem (mem_filter.mpr ?_))
    exact ⟨hsub.subset hrow, by simp [huuid, hne]⟩
  have hupserted : ∀ {db' : MobileDb} {id : Nat},
      Upserted (db.retireCrossType item.uuid item.type) item id db' → Upserted db item id db' := by
    intro db' id hup row hrow
    rcases hup row hrow with hrow | ⟨hrow, hne⟩
    · exact Or.inl hrow
    · exact Or.inr ⟨hsub.subset hrow, hne⟩
  unfold MobileDb.upsertItem
  dsimp only
  generalize htarget : db.upsertTarget item = target at hcross ⊢
  generalize db.retireCrossType item.uuid item.type = retired at hretired hsub hcross hupserted ⊢
  generalize hid : (target.map ItemRow.id).getD db.nextId = id
  cases hrow : retired.row? id with
  | some old =>
    obtain ⟨hmem, rfl⟩ := row?_some hrow
    obtain rfl : target = some old := by
      cases target with
      | none =>
        have hlt := h.identified.bounded old (hsub.subset hmem)
        have heq : db.nextId = old.id := by simpa using hid
        omega
      | some found =>
        have heq : found.id = old.id := by simpa using hid
        rw [h.identified.eq_of_id (upsertTarget_mem htarget).1 (hsub.subset hmem) heq]
    have hother : ∀ row ∈ retired.items, row.id ≠ old.id → row.uuid ≠ item.uuid := by
      intro row hrow' hne huuid
      exact hne (congrArg ItemRow.id (Option.some.inj (hcross row hrow' huuid))).symm
    have htype : item.type = old.type := (upsertTarget_mem htarget).2.symm
    have hupdate := hretired.kept.updateRow hrow htype hother hfits
    constructor
    · exact hretired.trans hupdate
    · exact hupserted (updateRow_upserted hmem)
  | none =>
    have hfresh := row?_none hrow
    have huuid : ∀ row ∈ retired.items, row.uuid ≠ item.uuid := by
      intro row hrow' huuid
      have hsome := hcross row hrow' huuid
      rw [hsome] at hid
      exact hfresh row hrow' hid
    constructor
    · exact hretired.trans (hretired.kept.insertRow hfresh huuid hfits.stable rfl
        (hfits.row rfl rfl rfl))
    · exact hupserted (insertRow_upserted hfresh)

/-! ## The halves -/

/-- A half written to a row leaves the row as it was, or stamps it. A root is never stamped. -/
structure HalfWrite (db : MobileDb) (row new : ItemRow) (db' : MobileDb) : Prop where
  found : db.row? row.id = some row
  same : new.SameIds row
  result : db' = (db.setRow new).bump row.id ∨ db' = db.setRow new ∧ (row.type = .root ∨ new = row)

variable {row : ItemRow}

theorem halfWrite_bump (hrow : db.row? row.id = some row) (hsame : new.SameIds row) :
    HalfWrite db row new ((db.setRow new).bump row.id) := ⟨hrow, hsame, Or.inl rfl⟩

theorem halfWrite_bumpDir (hrow : db.row? row.id = some row) (hsame : new.SameIds row) :
    HalfWrite db row new ((db.setRow new).bumpDir row) := by
  unfold MobileDb.bumpDir
  split
  · next hroot => exact ⟨hrow, hsame, Or.inr ⟨rfl, Or.inl hroot⟩⟩
  · exact halfWrite_bump hrow hsame

theorem HalfWrite.quiet [Decidable changed] (h : HalfWrite db row new bumped) (hquiet : ¬ changed → new = row) :
    HalfWrite db row new (if changed then bumped else db.setRow new) := by
  split
  · exact h
  · next hsame => exact ⟨h.found, h.same, Or.inr ⟨rfl, Or.inr (hquiet hsame)⟩⟩

section

variable (h : HalfWrite db row new db')
include h

theorem HalfWrite.mem : row ∈ db.items := (row?_some h.found).1

theorem HalfWrite.kept (hkept : Kept kindOf db) : Advances kindOf db db' := by
  rcases h.result with rfl | ⟨rfl, hquiet⟩
  · exact hkept.setRow_bump h.found h.same
  refine hkept.setRow h.found h.same (hquiet.imp_right ?_)
  rintro rfl
  exact ⟨rfl, rfl⟩

theorem HalfWrite.whole (hnew : new.Whole) (hwhole : WholeBut row.id db) : Whole db' := by
  have hset := hwhole.setRow hnew h.same.id
  rcases h.result with rfl | ⟨rfl, -⟩
  · exact hset.bump _
  · exact hset

end

theorem upsertFile_half {half : FileRow} (hwrite : db.upsertFile id half = some db') :
    ∃ row file, row.id = id ∧ HalfWrite db row { row with file := some file } db' := by
  unfold MobileDb.upsertFile at hwrite
  split at hwrite
  · cases hwrite
  next row hrow =>
  obtain ⟨-, rfl⟩ := row?_some hrow
  split at hwrite
  · cases hwrite
    exact ⟨row, _, rfl, halfWrite_bump hrow ⟨rfl, rfl, rfl, rfl, rfl⟩⟩
  next old hfile =>
  cases hwrite
  refine ⟨row, _, rfl, HalfWrite.quiet (halfWrite_bump hrow ⟨rfl, rfl, rfl, rfl, rfl⟩) fun hsame => ?_⟩
  simp only [ne_eq, not_or, not_not] at hsame
  obtain ⟨hsize, hchunks, hrank, hstate⟩ := hsame
  rw [← hsize, ← hchunks, ← hrank, ← hstate, ← hfile]

theorem upsertFileMeta_half {half : FileMetaRow} (hwrite : db.upsertFileMeta id half = some db') :
    ∃ row, row.id = id ∧ HalfWrite db row { row with fileMeta := some half } db' := by
  unfold MobileDb.upsertFileMeta at hwrite
  split at hwrite
  · cases hwrite
  next row hrow =>
  obtain ⟨-, rfl⟩ := row?_some hrow
  have hbumped := halfWrite_bump hrow (⟨rfl, rfl, rfl, rfl, rfl⟩ : { row with fileMeta := some half }.SameIds row)
  split at hwrite
  · cases hwrite
  split at hwrite
  · cases hwrite
    exact ⟨row, rfl, hbumped⟩
  next old hmeta =>
  cases hwrite
  refine ⟨row, rfl, hbumped.quiet fun hsame => ?_⟩
  simp only [ne_eq, not_or, not_not] at hsame
  obtain ⟨hname, hmime, hmodified, hhash, hcreated⟩ := hsame
  have heq : old = half := by
    cases old
    cases half
    simp_all only
  rw [← heq, ← hmeta]

theorem deleteFileMeta_half (db : MobileDb) (id : Nat) : db.deleteFileMeta id = db ∨
    ∃ row, row.id = id ∧ HalfWrite db row { row with fileMeta := none } (db.deleteFileMeta id) := by
  unfold MobileDb.deleteFileMeta
  split
  · exact Or.inl rfl
  next row hrow =>
  obtain ⟨-, rfl⟩ := row?_some hrow
  split
  · exact Or.inl rfl
  · exact Or.inr ⟨row, rfl, halfWrite_bump hrow ⟨rfl, rfl, rfl, rfl, rfl⟩⟩

theorem upsertDir_half {half : DirRow} (hwrite : db.upsertDir id half = some db') :
    ∃ row dir, row.id = id ∧ HalfWrite db row { row with dir := some dir } db' := by
  unfold MobileDb.upsertDir at hwrite
  split at hwrite
  · cases hwrite
  next row hrow =>
  obtain ⟨-, rfl⟩ := row?_some hrow
  split at hwrite
  · cases hwrite
    exact ⟨row, _, rfl, halfWrite_bumpDir hrow ⟨rfl, rfl, rfl, rfl, rfl⟩⟩
  next old hdir =>
  cases hwrite
  refine ⟨row, _, rfl, HalfWrite.quiet (halfWrite_bumpDir hrow ⟨rfl, rfl, rfl, rfl, rfl⟩) fun hsame => ?_⟩
  simp only [ne_eq, not_or, not_not] at hsame
  obtain ⟨hrank, hcolor, hstate⟩ := hsame
  rw [← hrank, ← hcolor, ← hstate, ← hdir]

theorem upsertDirMeta_half {half : DirMetaRow} (hwrite : db.upsertDirMeta id half = some db') :
    ∃ row, row.id = id ∧ HalfWrite db row { row with dirMeta := some half } db' := by
  unfold MobileDb.upsertDirMeta at hwrite
  split at hwrite
  · cases hwrite
  next row hrow =>
  obtain ⟨-, rfl⟩ := row?_some hrow
  have hbumped := halfWrite_bumpDir hrow (⟨rfl, rfl, rfl, rfl, rfl⟩ : { row with dirMeta := some half }.SameIds row)
  split at hwrite
  · cases hwrite
  split at hwrite
  · cases hwrite
    exact ⟨row, rfl, hbumped⟩
  next old hmeta =>
  cases hwrite
  refine ⟨row, rfl, hbumped.quiet fun hsame => ?_⟩
  simp only [ne_eq, not_or, not_not] at hsame
  obtain ⟨hname, hcreated⟩ := hsame
  have heq : old = half := by
    cases old
    cases half
    simp_all only
  rw [← heq, ← hmeta]

theorem deleteDirMeta_half (db : MobileDb) (id : Nat) : db.deleteDirMeta id = db ∨
    ∃ row, row.id = id ∧ HalfWrite db row { row with dirMeta := none } (db.deleteDirMeta id) := by
  unfold MobileDb.deleteDirMeta
  split
  · exact Or.inl rfl
  next row hrow =>
  obtain ⟨-, rfl⟩ := row?_some hrow
  split
  · exact Or.inl rfl
  · exact Or.inr ⟨row, rfl, halfWrite_bumpDir hrow ⟨rfl, rfl, rfl, rfl, rfl⟩⟩

/-! ## Records and lists -/

section

variable {ρ : Type} {records : List ρ} {upsert : MobileDb → ρ → Option (MobileDb × Nat)} {Q : MobileDb → Prop}

/-- An item's half is written after it, and what is behind the half written or dropped after that. -/
theorem upsertFileFromRemote_halves {file : RemoteFile} (hwrite : db.upsertFileFromRemote file = some (db', id)) :
    ∃ row half mid, row.id = (db.upsertItem file.item).2 ∧
      HalfWrite (db.upsertItem file.item).1 row { row with file := some half } mid ∧
      (db' = mid ∨ ∃ other fileMeta, HalfWrite mid other { other with fileMeta := fileMeta } db') := by
  obtain ⟨mid, hmid, hwrite⟩ := Option.bind_eq_some_iff.mp hwrite
  obtain ⟨row, half, hid, hfile⟩ := upsertFile_half hmid
  refine ⟨row, half, mid, hid, hfile, ?_⟩
  split at hwrite
  · obtain ⟨done, hdone, heq⟩ := Option.map_eq_some_iff.mp hwrite
    cases heq
    obtain ⟨other, -, hmeta⟩ := upsertFileMeta_half hdone
    exact Or.inr ⟨other, _, hmeta⟩
  cases hwrite
  exact (deleteFileMeta_half mid _).imp_right fun ⟨other, _, hmeta⟩ => ⟨other, none, hmeta⟩

theorem upsertDirFromRemote_halves {dir : RemoteDirectory} (hwrite : db.upsertDirFromRemote dir = some (db', id)) :
    ∃ row half mid, row.id = (db.upsertItem dir.item).2 ∧
      HalfWrite (db.upsertItem dir.item).1 row { row with dir := some half } mid ∧
      (db' = mid ∨ ∃ other dirMeta, HalfWrite mid other { other with dirMeta := dirMeta } db') := by
  obtain ⟨mid, hmid, hwrite⟩ := Option.bind_eq_some_iff.mp hwrite
  obtain ⟨row, half, hid, hdir⟩ := upsertDir_half hmid
  refine ⟨row, half, mid, hid, hdir, ?_⟩
  split at hwrite
  · obtain ⟨done, hdone, heq⟩ := Option.map_eq_some_iff.mp hwrite
    cases heq
    obtain ⟨other, -, hmeta⟩ := upsertDirMeta_half hdone
    exact Or.inr ⟨other, _, hmeta⟩
  cases hwrite
  exact (deleteDirMeta_half mid _).imp_right fun ⟨other, _, hmeta⟩ => ⟨other, none, hmeta⟩

/-- What every step keeps, the fold keeps. -/
theorem foldlM_keeps {step : MobileDb → ρ → Option MobileDb}
    (hstep : ∀ record ∈ records, ∀ a b, Q a → step a record = some b → Q b) (h : Q db)
    (hfold : records.foldlM step db = some db') : Q db' := by
  induction records generalizing db with
  | nil =>
    cases hfold
    exact h
  | cons record records ih =>
    rw [foldlM_cons] at hfold
    obtain ⟨mid, hmid, hrest⟩ := Option.bind_eq_some_iff.mp hfold
    exact ih (fun r hr => hstep r (mem_cons_of_mem _ hr)) (hstep record mem_cons_self db mid h hmid) hrest

theorem upsertListed_keeps {item : ρ → ItemRecord} {parent : ρ → ParentUuid}
    (hupsert : ∀ record ∈ records, ∀ a b id, Q a → upsert a record = some (b, id) → Q b) (h : Q db)
    (hwrite : db.upsertListed item parent upsert records = some db') : Q db' := by
  refine foldlM_keeps (fun record hrecord a b ha hb => ?_) h hwrite
  split at hb
  · cases hb
    exact ha
  obtain ⟨⟨c, id⟩, hc, rfl⟩ := Option.map_eq_some_iff.mp hb
  refine hupsert record ?_ a c id ha hc
  rcases mem_append.mp hrecord with hrecord | hrecord
  all_goals exact (mem_filter.mp hrecord).1

theorem upsertRecent_keeps (hupsert : ∀ record ∈ records, ∀ a b id, Q a → upsert a record = some (b, id) → Q b)
    (hset : ∀ a id, Q a → Q (setRecent a id)) (h : Q db)
    (hwrite : upsertRecent upsert db records = some db') : Q db' := by
  refine foldlM_keeps (fun record hrecord a b ha hb => ?_) h hwrite
  obtain ⟨⟨c, id⟩, hc, rfl⟩ := Option.map_eq_some_iff.mp hb
  exact hset c id (hupsert record hrecord a c id ha hc)

end

end SyncEngine.MobileCache
