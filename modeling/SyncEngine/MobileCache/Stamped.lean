import SyncEngine.Collections.ChangeFeed
import SyncEngine.MobileCache.ChangesSince

/-! # What the triggers keep

The tables are a feed of changes, keyed by the provider id of each row. Every
statement keeps the rows under distinct ids, the feed sound, and stamps whatever
it changes above the counter it started at.
-/

namespace SyncEngine.MobileCache

open List SyncEngine.Collections

/-! ## Identities -/

/-- The two rows answer to the same ids. -/
structure ItemRow.SameIds (a b : ItemRow) : Prop where
  id : a.id = b.id
  uuid : a.uuid = b.uuid
  stableUuid : a.stableUuid = b.stableUuid
  type : a.type = b.type
  pendingUploadAt : a.pendingUploadAt = b.pendingUploadAt

theorem ItemRow.SameIds.key? {a b : ItemRow} (h : a.SameIds b) : a.key? = b.key? := by
  unfold ItemRow.key?
  rw [h.type, h.uuid, h.stableUuid]

theorem ItemRow.key?_dir {row : ItemRow} {uuid : Uuid} :
    row.key? = some (.dir, uuid) ↔ row.type = .dir ∧ row.uuid = uuid := by
  unfold ItemRow.key?
  cases row.type <;> simp

theorem ItemRow.key?_file {row : ItemRow} {stable : Uuid} :
    row.key? = some (.file, stable) ↔ row.type = .file ∧ row.stableUuid = some stable := by
  unfold ItemRow.key?
  cases row.type <;> simp

theorem ItemRow.key?_root {row : ItemRow} {uuid : Uuid} : row.key? ≠ some (.root, uuid) := by
  unfold ItemRow.key?
  cases row.type <;> simp

/-- The rows carry distinct ids, files alone a stable one, and none an edit that
was not sent. -/
structure Identified (db : MobileDb) : Prop where
  ids : (db.items.map ItemRow.id).Nodup
  bounded : ∀ row ∈ db.items, row.id < db.nextId
  uuids : (db.items.map ItemRow.uuid).Nodup
  stables : ∀ row ∈ db.items, row.type = .file ↔ row.stableUuid.isSome
  unmarked : ∀ row ∈ db.items, row.pendingUploadAt = none

namespace Identified

variable {db db' : MobileDb}

section

variable (h : Identified db)
include h

theorem map {f : ItemRow → ItemRow}
    (hsame : ∀ row ∈ db.items, (f row).SameIds row) (hitems : db'.items = db.items.map f)
    (hnext : db.nextId ≤ db'.nextId) : Identified db' := by
  have hids : db'.items.map ItemRow.id = db.items.map ItemRow.id := by
    rw [hitems, map_map]
    exact map_congr_left fun row hrow => (hsame row hrow).id
  have huuids : db'.items.map ItemRow.uuid = db.items.map ItemRow.uuid := by
    rw [hitems, map_map]
    exact map_congr_left fun row hrow => (hsame row hrow).uuid
  have hback : ∀ row' ∈ db'.items, ∃ row ∈ db.items, row'.SameIds row := by
    intro row' hrow'
    rw [hitems] at hrow'
    obtain ⟨row, hrow, rfl⟩ := mem_map.mp hrow'
    exact ⟨row, hrow, hsame row hrow⟩
  constructor
  · rw [hids]
    exact h.ids
  · intro row' hrow'
    obtain ⟨row, hrow, hids'⟩ := hback row' hrow'
    rw [hids'.id]
    exact lt_of_lt_of_le (h.bounded row hrow) hnext
  · rw [huuids]
    exact h.uuids
  · intro row' hrow'
    obtain ⟨row, hrow, hids'⟩ := hback row' hrow'
    rw [hids'.type, hids'.stableUuid]
    exact h.stables row hrow
  intro row' hrow'
  obtain ⟨row, hrow, hids'⟩ := hback row' hrow'
  rw [hids'.pendingUploadAt]
  exact h.unmarked row hrow

theorem sublist (hsub : db'.items.Sublist db.items)
    (hnext : db'.nextId = db.nextId) : Identified db' where
  ids := (hsub.map ItemRow.id).nodup h.ids
  bounded row hrow := hnext ▸ h.bounded row (hsub.subset hrow)
  uuids := (hsub.map ItemRow.uuid).nodup h.uuids
  stables row hrow := h.stables row (hsub.subset hrow)
  unmarked row hrow := h.unmarked row (hsub.subset hrow)

theorem eq_of_id {a b : ItemRow} (ha : a ∈ db.items) (hb : b ∈ db.items)
    (hid : a.id = b.id) : a = b := inj_on_of_nodup_map h.ids ha hb hid

theorem eq_of_uuid {a b : ItemRow} (ha : a ∈ db.items) (hb : b ∈ db.items)
    (huuid : a.uuid = b.uuid) : a = b := inj_on_of_nodup_map h.uuids ha hb huuid

end

end Identified

namespace MobileDb

variable {db : MobileDb}

theorem row?_some {id : Nat} {row : ItemRow} (h : db.row? id = some row) :
    row ∈ db.items ∧ row.id = id :=
  ⟨mem_of_find?_eq_some h, by simpa using find?_some h⟩

theorem row?_none {id : Nat} (h : db.row? id = none) :
    ∀ row ∈ db.items, row.id ≠ id := by
  intro row hrow
  simpa using find?_eq_none.mp h row hrow

/-! ## The feed -/

def feed (db : MobileDb) : Feed (ItemType × Uuid) (Except CacheError FfiObject) where
  rows k object n :=
    ∃ row ∈ db.items, row.key? = some k ∧ row.object = object ∧ row.changeSeq = n
  retired k n := (⟨k.1, k.2, n⟩ : Tombstone) ∈ db.tombstones
  counter := db.counter

theorem retired_iff {k : ItemType × Uuid} {n : Nat} :
    db.feed.retired k n ↔ (⟨k.1, k.2, n⟩ : Tombstone) ∈ db.tombstones := Iff.rfl

theorem carries_iff {k : ItemType × Uuid} :
    db.feed.Carries k ↔ ∃ row ∈ db.items, row.key? = some k := by
  constructor
  · rintro ⟨object, n, row, hrow, hkey, -, -⟩
    exact ⟨row, hrow, hkey⟩
  rintro ⟨row, hrow, hkey⟩
  exact ⟨row.object, row.changeSeq, row, hrow, hkey, rfl, rfl⟩

end MobileDb

variable {kindOf : Uuid → ItemType}

/-- What every statement keeps. `kindOf` tells which kind of item an id is for. -/
structure Kept (kindOf : Uuid → ItemType) (db : MobileDb) : Prop where
  identified : Identified db
  sound : db.feed.Sound
  kinds : ∀ k, db.feed.Carries k → kindOf k.2 = k.1
  retiredKinds : ∀ k n, db.feed.retired k n → kindOf k.2 = k.1

/-- A statement keeps the tables in order, and stamps what it changes. -/
structure Advances (kindOf : Uuid → ItemType) (db db' : MobileDb) : Prop where
  kept : Kept kindOf db'
  tracks : Feed.Tracks db.feed db'.feed

theorem Advances.refl {db : MobileDb} (h : Kept kindOf db) : Advances kindOf db db :=
  ⟨h, Feed.Tracks.refl _⟩

theorem Advances.trans {a b c : MobileDb} (hab : Advances kindOf a b)
    (hbc : Advances kindOf b c) : Advances kindOf a c :=
  ⟨hbc.kept, hab.tracks.trans hbc.tracks⟩

/-- A row of the new tables shows what a row of the old ones did, or is stamped
above them. A root is not shown at all. -/
def Shown (db db' : MobileDb) (row' : ItemRow) : Prop :=
  row'.key? = none ∨
    (∃ row ∈ db.items, row.key? = row'.key? ∧ row.object = row'.object ∧
      row.changeSeq = row'.changeSeq) ∨
    db.counter < row'.changeSeq ∧ row'.changeSeq ≤ db'.counter

/-- What is to be checked of a statement: each row it leaves is shown, each key it
takes away is retired, and each tombstone it takes away is of a key carried again. -/
theorem Kept.advances {db db' : MobileDb} (h : Kept kindOf db) (hids : Identified db')
    (hcounter : db.counter ≤ db'.counter) (hrows : ∀ row' ∈ db'.items, Shown db db' row')
    (hkinds : ∀ k, db'.feed.Carries k → db.feed.Carries k ∨ kindOf k.2 = k.1) (hgone : ∀ k, db.feed.Carries k →
      db'.feed.Carries k ∨ ∃ n, db'.feed.retired k n ∧ db.counter < n) (hretired : ∀ k n, db'.feed.retired k n →
      (db.feed.retired k n ∨ db.feed.Carries k ∧ n ≤ db'.counter) ∧ ¬ db'.feed.Carries k)
    (hlost : ∀ k n, db.feed.retired k n → db'.feed.retired k n ∨ db'.feed.Carries k) :
    Advances kindOf db db' := by
  refine ⟨⟨hids, ⟨?_, ?_, ?_⟩, ?_, ?_⟩, ⟨hcounter, ?_, ?_⟩⟩
  · rintro k object n ⟨row', hrow', hkey, hobject, rfl⟩
    rcases hrows row' hrow' with hnone | ⟨row, hrow, hkey', hobject', hseq⟩ | hstamp
    · rw [hnone] at hkey
      cases hkey
    · have hold := h.sound.stamped k object row.changeSeq
        ⟨row, hrow, hkey'.trans hkey, hobject'.trans hobject, rfl⟩
      rw [← hseq]
      exact ⟨hold.1, le_trans hold.2 hcounter⟩
    · exact ⟨Nat.zero_lt_of_lt hstamp.1, hstamp.2⟩
  · intro k n hn
    rcases (hretired k n hn).1 with hold | hnew
    · exact le_trans (h.sound.retired k n hold) hcounter
    · exact hnew.2
  · intro k n hn
    exact (hretired k n hn).2
  · intro k hk
    rcases hkinds k hk with hold | hkind
    · exact h.kinds k hold
    · exact hkind
  · intro k n hn
    rcases (hretired k n hn).1 with hold | hnew
    · exact h.retiredKinds k n hold
    · exact h.kinds k hnew.1
  · rintro k object n ⟨row', hrow', hkey, hobject, rfl⟩
    rcases hrows row' hrow' with hnone | ⟨row, hrow, hkey', hobject', hseq⟩ | hstamp
    · rw [hnone] at hkey
      cases hkey
    · exact Or.inr ⟨row, hrow, hkey'.trans hkey, hobject'.trans hobject, hseq⟩
    · exact Or.inl hstamp.1
  intro k hk
  by_cases hold : db.feed.Carries k
  · rcases hgone k hold with hcarried | hnew
    · exact absurd hcarried hk
    · exact Or.inl hnew
  refine Or.inr ⟨hold, fun n hn => ?_⟩
  rcases hlost k n hn with hkept | hcarried
  · exact hkept
  · exact absurd hcarried hk

end SyncEngine.MobileCache
