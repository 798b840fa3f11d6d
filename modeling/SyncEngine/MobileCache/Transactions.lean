import SyncEngine.MobileCache.Halves

/-! # Transactions

Whatever a write does between its first statement and its commit, the tables it
commits are whole, and it stamped all that it changed.
-/

namespace SyncEngine.MobileCache

open ItemRow List SyncEngine.Collections

variable {kindOf : Uuid → ItemType} {db db' : MobileDb}

/-- What holds between transactions. -/
structure Settled (kindOf : Uuid → ItemType) (db : MobileDb) : Prop where
  kept : Kept kindOf db
  whole : Whole db

/-- What a transaction does, or a part of one that leaves the tables whole. -/
structure Commits (kindOf : Uuid → ItemType) (db db' : MobileDb) : Prop where
  advances : Advances kindOf db db'
  whole : Whole db'

theorem Commits.settled (h : Commits kindOf db db') : Settled kindOf db' :=
  ⟨h.advances.kept, h.whole⟩

theorem Commits.refl (h : Settled kindOf db) : Commits kindOf db db :=
  ⟨Advances.refl h.kept, h.whole⟩

theorem Commits.trans {a b c : MobileDb} (hab : Commits kindOf a b) (hbc : Commits kindOf b c) :
    Commits kindOf a c :=
  ⟨hab.advances.trans hbc.advances, hbc.whole⟩

variable {file : RemoteFile} {dir : RemoteDirectory} {id : Nat} {uuid : Uuid} {spare : List Uuid} {write : CacheWrite}

/-! ## Records -/

theorem RemoteFile.item_fits (h : kindOf file.stableUuid = .file) :
    file.item.Fits kindOf where
  stable := by simp [RemoteFile.item]
  kind := by
    rintro ⟨kind, id⟩ hk
    cases kind with
    | root => exact absurd hk key?_root
    | dir => exact absurd (key?_dir.mp hk).1 nofun
    | file =>
      have hstable := (key?_file.mp hk).2
      cases hstable
      exact h

theorem RemoteDirectory.item_fits (h : kindOf dir.uuid = .dir) :
    dir.item.Fits kindOf where
  stable := by simp [RemoteDirectory.item]
  kind := by
    rintro ⟨kind, id⟩ hk
    cases kind with
    | root => exact absurd hk key?_root
    | dir =>
      have huuid := (key?_dir.mp hk).2
      cases huuid
      exact h
    | file => exact absurd (key?_file.mp hk).1 nofun

theorem rootItem_fits (uuid : Uuid) : (rootItem uuid).Fits kindOf where
  stable := by simp [rootItem]
  kind := by
    intro k hk
    cases hk

theorem Upserted.type {item : ItemRecord} (h : Upserted db item id db') :
    ∀ row ∈ db'.items, row.id = id → row.type = item.type := by
  intro row hrow hid
  rcases h row hrow with ⟨-, htype⟩ | ⟨-, hne⟩
  · exact htype
  · exact absurd hid hne

section

variable (h : Settled kindOf db)
include h

theorem Settled.half {row new : ItemRow} (hhalf : HalfWrite db row new db')
    (hnew : row.Whole → new.Whole) : Commits kindOf db db' :=
  ⟨hhalf.kept h.kept, hhalf.whole (hnew (h.whole row hhalf.mem)) (h.whole.but _)⟩

/-- A record's item and the half written after it leave the tables whole. -/
theorem Settled.upserted {item : ItemRecord} {row new : ItemRow} (hfits : item.Fits kindOf)
    (hid : row.id = (db.upsertItem item).2) (hhalf : HalfWrite (db.upsertItem item).1 row new db')
    (hnew : row.type = item.type → new.Whole) : Commits kindOf db db' := by
  obtain ⟨hitem, hrows⟩ := h.kept.upsertItem hfits
  exact ⟨hitem.trans (hhalf.kept hitem.kept),
    hhalf.whole (hnew (hrows.type row hhalf.mem hid)) (hid ▸ hrows.whole h.whole)⟩

theorem Settled.upsertFileFromRemote (hkind : kindOf file.stableUuid = .file)
    (hwrite : db.upsertFileFromRemote file = some (db', id)) : Commits kindOf db db' := by
  obtain ⟨row, half, mid, hid, hfile, hrest⟩ := upsertFileFromRemote_halves hwrite
  have hsettled : Commits kindOf db mid := h.upserted (RemoteFile.item_fits hkind) hid hfile fun htype =>
    ⟨fun _ => rfl, fun hdir => nomatch htype.symm.trans hdir⟩
  rcases hrest with rfl | ⟨other, fileMeta, hmeta⟩
  · exact hsettled
  · exact hsettled.trans (hsettled.settled.half hmeta fun hwhole => hwhole)

theorem Settled.upsertDirFromRemote (hkind : kindOf dir.uuid = .dir)
    (hwrite : db.upsertDirFromRemote dir = some (db', id)) : Commits kindOf db db' := by
  obtain ⟨row, half, mid, hid, hdir, hrest⟩ := upsertDirFromRemote_halves hwrite
  have hsettled : Commits kindOf db mid := h.upserted (RemoteDirectory.item_fits hkind) hid hdir fun htype =>
    ⟨(fun hfile => nomatch htype.symm.trans hfile), fun _ => rfl⟩
  rcases hrest with rfl | ⟨other, dirMeta, hmeta⟩
  · exact hsettled
  · exact hsettled.trans (hsettled.settled.half hmeta fun hwhole => hwhole)

theorem Settled.upsertRootFromRemote
    (hwrite : db.upsertRootFromRemote uuid = some db') : Commits kindOf db db' := by
  obtain ⟨row, half, hid, hdir⟩ := upsertDir_half hwrite
  exact h.upserted (rootItem_fits uuid) hid hdir fun htype => ⟨(fun hfile => nomatch htype.symm.trans hfile), fun _ => rfl⟩

theorem Settled.mark {f : ItemRow → ItemRow}
    (hitems : db'.items = db.items.map f) (hrest : db' = { db with items := db'.items })
    (hsame : ∀ row ∈ db.items, (f row).SameIds row)
    (hquiet : ∀ row, (f row).parent = row.parent ∧ (f row).trashed = row.trashed ∧
      (f row).changeSeq = row.changeSeq ∧ (f row).file = row.file ∧
      (f row).fileMeta = row.fileMeta ∧ (f row).dir = row.dir ∧ (f row).dirMeta = row.dirMeta) :
    Commits kindOf db db' := by
  rw [hrest, hitems]
  constructor
  · apply h.kept.mark hsame
    intro row hrow
    obtain ⟨hparent, htrashed, hseq, hfile, hfileMeta, hdir, hdirMeta⟩ := hquiet row
    refine ⟨?_, hseq.symm⟩
    unfold ItemRow.object
    rw [(hsame row hrow).type, (hsame row hrow).uuid, (hsame row hrow).stableUuid, hparent,
      htrashed, hfile, hfileMeta, hdir, hdirMeta]
  intro row' hrow'
  obtain ⟨row, hrow, rfl⟩ := mem_map.mp hrow'
  obtain ⟨-, -, -, hfile, -, hdir, -⟩ := hquiet row
  have hwhole := h.whole row hrow
  unfold ItemRow.Whole
  rw [(hsame row hrow).type, hfile, hdir]
  exact hwhole

theorem Settled.unmarkStale (picks : ItemRow → Bool) :
    Commits kindOf db (db.unmarkStale picks) := by
  apply h.mark rfl rfl
  · intro row _
    split <;> exact ⟨rfl, rfl, rfl, rfl, rfl⟩
  intro row
  split <;> exact ⟨rfl, rfl, rfl, rfl, rfl, rfl, rfl⟩

theorem Settled.unmarkSpared (spare : List Uuid) :
    Commits kindOf db (db.unmarkSpared spare) := by
  induction spare generalizing db with
  | nil => exact Commits.refl h
  | cons uuid spare ih =>
    have hfirst := h.unmarkStale fun row => row.uuid = uuid
    exact hfirst.trans (ih hfirst.settled)

theorem Settled.deleteWhere (picks : ItemRow → Bool) :
    Commits kindOf db (db.deleteWhere picks) :=
  ⟨h.kept.deleteRows _, h.whole.sublist (deleteRows_sublist _ _)⟩

end

/-! ## Listings -/

variable {dirs : List RemoteDirectory} {files : List RemoteFile}

theorem Settled.upsertDirsAndFiles (h : Settled kindOf db) (hdirs : ∀ dir ∈ dirs, kindOf dir.uuid = .dir)
    (hfiles : ∀ file ∈ files, kindOf file.stableUuid = .file)
    (hwrite : db.upsertDirsAndFiles dirs files = some db') : Commits kindOf db db' := by
  obtain ⟨mid, hmid, hwrite⟩ := Option.bind_eq_some_iff.mp hwrite
  have hfirst := upsertListed_keeps (Q := Commits kindOf db)
    (fun dir hdir a b id ha hb => ha.trans (ha.settled.upsertDirFromRemote (hdirs dir hdir) hb)) (.refl h) hmid
  exact upsertListed_keeps
    (fun file hfile a b id ha hb => ha.trans (ha.settled.upsertFileFromRemote (hfiles file hfile) hb)) hfirst hwrite

theorem Settled.updateItemsWithParent (h : Settled kindOf db) (hdirs : ∀ dir ∈ dirs, kindOf dir.uuid = .dir)
    (hfiles : ∀ file ∈ files, kindOf file.stableUuid = .file) {parent : Uuid}
    (hwrite : db.updateItemsWithParent dirs files parent spare = some db') :
    Commits kindOf db db' := by
  obtain ⟨mid, hmid, hdone⟩ := Option.bind_eq_some_iff.mp hwrite
  cases hdone
  have hmark : Commits kindOf db (db.markStaleWithParent parent) := by
    apply h.mark rfl rfl
    · intro row _
      split <;> exact ⟨rfl, rfl, rfl, rfl, rfl⟩
    intro row
    split <;> exact ⟨rfl, rfl, rfl, rfl, rfl, rfl, rfl⟩
  have hlisted := hmark.trans (hmark.settled.upsertDirsAndFiles hdirs hfiles hmid)
  have hspared := hlisted.trans (hlisted.settled.unmarkSpared spare)
  have hheld : Commits kindOf db ((mid.unmarkSpared spare).unmarkStalePendingWithParent parent) :=
    hspared.trans (hspared.settled.unmarkStale _)
  exact hheld.trans (hheld.settled.deleteWhere _)

theorem Settled.updateTrashedItems (h : Settled kindOf db) (hdirs : ∀ dir ∈ dirs, kindOf dir.uuid = .dir)
    (hfiles : ∀ file ∈ files, kindOf file.stableUuid = .file)
    (hwrite : db.updateTrashedItems dirs files spare = some db') : Commits kindOf db db' := by
  obtain ⟨mid, hmid, hdone⟩ := Option.bind_eq_some_iff.mp hwrite
  cases hdone
  have hmark : Commits kindOf db db.markStaleTrashed := by
    apply h.mark rfl rfl
    · intro row _
      split <;> exact ⟨rfl, rfl, rfl, rfl, rfl⟩
    intro row
    split <;> exact ⟨rfl, rfl, rfl, rfl, rfl, rfl, rfl⟩
  have hlisted := hmark.trans (hmark.settled.upsertDirsAndFiles hdirs hfiles hmid)
  have hspared := hlisted.trans (hlisted.settled.unmarkSpared spare)
  have hheld : Commits kindOf db (mid.unmarkSpared spare).unmarkStalePendingTrashed :=
    hspared.trans (hspared.settled.unmarkStale _)
  exact hheld.trans (hheld.settled.deleteWhere _)

theorem Settled.setRecent (h : Settled kindOf db) (id : Nat) : Commits kindOf db (db.setRecent id) := by
  refine h.mark rfl rfl ?_ ?_
  · intro row _
    split <;> exact ⟨rfl, rfl, rfl, rfl, rfl⟩
  intro row
  split <;> exact ⟨rfl, rfl, rfl, rfl, rfl, rfl, rfl⟩

theorem Settled.updateRecents (h : Settled kindOf db) (hdirs : ∀ dir ∈ dirs, kindOf dir.uuid = .dir)
    (hfiles : ∀ file ∈ files, kindOf file.stableUuid = .file)
    (hwrite : db.updateRecents dirs files = some db') : Commits kindOf db db' := by
  obtain ⟨mid, hmid, hwrite⟩ := Option.bind_eq_some_iff.mp hwrite
  have hclear : Commits kindOf db db.clearRecents :=
    h.mark rfl rfl (fun row _ => ⟨rfl, rfl, rfl, rfl, rfl⟩)
      fun row => ⟨rfl, rfl, rfl, rfl, rfl, rfl, rfl⟩
  have hset : ∀ a id, Commits kindOf db a → Commits kindOf db (MobileDb.setRecent a id) := fun _ id ha =>
    ha.trans (ha.settled.setRecent id)
  have hfirst := upsertRecent_keeps (Q := Commits kindOf db)
    (fun dir hdir a b id ha hb => ha.trans (ha.settled.upsertDirFromRemote (hdirs dir hdir) hb)) hset hclear hmid
  exact upsertRecent_keeps
    (fun file hfile a b id ha hb => ha.trans (ha.settled.upsertFileFromRemote (hfiles file hfile) hb)) hset hfirst hwrite

/-! ## Single items -/

section

variable (h : Settled kindOf db)
include h

theorem Settled.deleteItem (uuid : Uuid) :
    Commits kindOf db (db.deleteItem uuid) := by
  have hclear : Commits kindOf db (db.clearPendingUploadSubtree uuid) := by
    apply h.mark rfl rfl
    · intro row hrow
      split
      · exact ⟨rfl, rfl, rfl, rfl, (h.kept.identified.unmarked row hrow).symm⟩
      · exact ⟨rfl, rfl, rfl, rfl, rfl⟩
    intro row
    split <;> exact ⟨rfl, rfl, rfl, rfl, rfl, rfl, rfl⟩
  exact hclear.trans (hclear.settled.deleteWhere _)

theorem Settled.updateFileFavoriteRank (id : Nat) (rank : Int) :
    Commits kindOf db (db.updateFileFavoriteRank id rank) := by
  unfold MobileDb.updateFileFavoriteRank
  cases hrow : db.row? id with
  | none => exact Commits.refl h
  | some row =>
    obtain ⟨-, rfl⟩ := MobileDb.row?_some hrow
    dsimp only
    cases hfile : row.file with
    | none => exact Commits.refl h
    | some old =>
      refine h.half (HalfWrite.quiet (halfWrite_bump hrow ⟨rfl, rfl, rfl, rfl, rfl⟩) fun hsame => ?_)
        fun hwhole => ⟨fun _ => rfl, hwhole.2⟩
      rw [← not_not.mp hsame, ← hfile]

theorem Settled.updateDirFavoriteRank (id : Nat) (rank : Int) :
    Commits kindOf db (db.updateDirFavoriteRank id rank) := by
  unfold MobileDb.updateDirFavoriteRank
  cases hrow : db.row? id with
  | none => exact Commits.refl h
  | some row =>
    obtain ⟨-, rfl⟩ := MobileDb.row?_some hrow
    dsimp only
    cases hdir : row.dir with
    | none => exact Commits.refl h
    | some old =>
      refine h.half (HalfWrite.quiet (halfWrite_bumpDir hrow ⟨rfl, rfl, rfl, rfl, rfl⟩) fun hsame => ?_)
        fun hwhole => ⟨hwhole.1, fun _ => rfl⟩
      rw [← not_not.mp hsame, ← hdir]

theorem Settled.insertRoot
    (hwrite : db.insertRoot uuid = some db') : Commits kindOf db db' := by
  unfold MobileDb.insertRoot at hwrite
  have hsub : (db.retireCrossType uuid .root).items.Sublist db.items := deleteRows_sublist _ _
  have hretired : Commits kindOf db (db.retireCrossType uuid .root) :=
    ⟨h.kept.deleteRows _, h.whole.sublist hsub⟩
  dsimp only at hwrite
  split at hwrite
  · cases hwrite
  next hfree =>
    cases hwrite
    constructor
    · refine hretired.advances.trans (hretired.advances.kept.insertRow ?_ ?_ ?_ rfl ?_)
      · intro row hrow
        exact ne_of_lt (h.kept.identified.bounded row (hsub.subset hrow))
      · intro row hrow huuid
        exact hfree (any_eq_true.mpr ⟨row, hrow, by simpa using huuid⟩)
      · simp
      intro k hk
      cases hk
    intro row hrow
    rcases mem_append.mp hrow with hrow | hrow
    · exact hretired.whole row hrow
    rw [mem_singleton.mp hrow]
    exact ⟨nofun, nofun⟩

end

/-- The records a write brings in agree with the kinds of their ids. -/
def CacheWrite.Fits (kindOf : Uuid → ItemType) (write : CacheWrite) : Prop :=
  (∀ dir ∈ write.dirs, kindOf dir.uuid = .dir) ∧
    ∀ file ∈ write.files, kindOf file.stableUuid = .file

theorem Settled.transaction (h : Settled kindOf db)
    (hfits : write.Fits kindOf) (hwrite : write.transaction db = some db') :
    Commits kindOf db db' := by
  obtain ⟨hdirs, hfiles⟩ := hfits
  cases write with
  | insertRoot uuid => exact h.insertRoot hwrite
  | upsertRoot uuid => exact h.upsertRootFromRemote hwrite
  | upsertDir dir =>
    obtain ⟨⟨done, id⟩, hdone, rfl⟩ := Option.map_eq_some_iff.mp hwrite
    exact h.upsertDirFromRemote (hdirs dir mem_cons_self) hdone
  | upsertFile file =>
    obtain ⟨⟨done, id⟩, hdone, rfl⟩ := Option.map_eq_some_iff.mp hwrite
    exact h.upsertFileFromRemote (hfiles file mem_cons_self) hdone
  | updateItemsWithParent dirs files parent spare =>
    exact h.updateItemsWithParent hdirs hfiles hwrite
  | updateTrashedItems dirs files spare => exact h.updateTrashedItems hdirs hfiles hwrite
  | updateRecents dirs files => exact h.updateRecents hdirs hfiles hwrite
  | deleteItem uuid =>
    cases hwrite
    exact h.deleteItem uuid
  | updateFileFavoriteRank id rank =>
    cases hwrite
    exact h.updateFileFavoriteRank id rank
  | updateDirFavoriteRank id rank =>
    cases hwrite
    exact h.updateDirFavoriteRank id rank

theorem Settled.commit (h : Settled kindOf db) (hfits : write.Fits kindOf) :
    Commits kindOf db (write.commit db) := by
  unfold CacheWrite.commit
  cases hwrite : write.transaction db with
  | none => exact Commits.refl h
  | some done => exact h.transaction hfits hwrite

end SyncEngine.MobileCache
