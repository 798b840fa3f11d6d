import SyncEngine.Collections.Folds
import SyncEngine.MobileCache.Transactions

/-! # Replicas that follow the cache

A replica that applies every page it is handed holds what the cache holds, but for
what the next page has in store for it; and when there is no next page, exactly
what the cache holds.
-/

namespace SyncEngine.MobileCache

open MobileDb ItemRow List SyncEngine.Collections

/-- No stable id is carried by two rows. -/
def OneRowPerStable (db : MobileDb) : Prop :=
  ∀ a ∈ db.items, ∀ b ∈ db.items, a.stableUuid.isSome → a.stableUuid = b.stableUuid → a = b

instance (db : MobileDb) : Decidable (OneRowPerStable db) := by
  unfold OneRowPerStable
  infer_instance

/-- A write commits, and the ids keep their kinds and their rows. -/
def Step (kindOf : Uuid → ItemType) (db db' : MobileDb) : Prop :=
  ∃ write : CacheWrite, write.Fits kindOf ∧ write.commit db = db' ∧ OneRowPerStable db'

def Writes (kindOf : Uuid → ItemType) : MobileDb → MobileDb → Prop :=
  Relation.ReflTransGen (Step kindOf)

/-- A replica that started empty, the anchor it holds, and the cache it follows.
Writes fall between its pages, and between the reads of one page. -/
inductive Follows (kindOf : Uuid → ItemType) : MobileDb → Replica → Option SyncAnchor → Prop where
  | start (dbInstance : BitVec 128) : Follows kindOf (init dbInstance) (fun _ => none) none
  | write {db db' : MobileDb} {replica : Replica} {anchor : Option SyncAnchor}
      (h : Follows kindOf db replica anchor) (hstep : Step kindOf db db') :
      Follows kindOf db' replica anchor
  | page {first paged rows retired : MobileDb} {replica : Replica} {anchor : Option SyncAnchor}
      {limit : Nat} {page : FfiChanges} (h : Follows kindOf first replica anchor)
      (hpaged : Writes kindOf first paged) (hrows : Writes kindOf paged rows)
      (hretired : Writes kindOf rows retired)
      (hpage : changesSince first paged rows retired anchor limit = .ok page) :
      Follows kindOf retired (replica.apply page) (some page.anchor)

/-- No tombstone names an id that a row of its kind carries. -/
def Apart (db : MobileDb) : Prop :=
  ∀ tomb ∈ db.tombstones, ∀ row ∈ db.items, row.key? ≠ some (tomb.kind, tomb.itemId)

/-- The replica holds exactly the rows that are no root, each as it is shown. -/
structure Replica.Mirrors (replica : Replica) (db : MobileDb) : Prop where
  shown : ∀ row ∈ db.items, row.type ≠ .root →
    ∃ kind id object, row.key? = some (kind, id) ∧ row.object = .ok object ∧
      replica id = some object
  held : ∀ id object, replica id = some object →
    ∃ row ∈ db.items, ∃ kind, row.key? = some (kind, id) ∧ row.object = .ok object

/-! ## Pages applied -/

namespace Replica

variable {replica : Replica} {k : Uuid}

theorem foldl_erase (ids : List Uuid) :
    ids.foldl Replica.erase replica k = if k ∈ ids then none else replica k := by
  induction ids generalizing replica with
  | nil => simp
  | cons id ids ih =>
    rw [foldl_cons, ih]
    unfold Replica.erase
    by_cases hmem : k ∈ ids
    · simp [hmem]
    by_cases hid : k = id
    · simp [hid]
    · simp [hmem, hid]

theorem foldl_insert_of_absent (objects : List FfiObject) (h : ∀ object ∈ objects, object.providerId ≠ k) :
    objects.foldl Replica.insert replica k = replica k := by
  induction objects generalizing replica with
  | nil => rfl
  | cons object objects ih =>
    rw [foldl_cons, ih fun other hother => h other (mem_cons_of_mem _ hother)]
    unfold Replica.insert
    rw [if_neg fun heq => h object mem_cons_self heq.symm]

theorem foldl_insert_of_mem {objects : List FfiObject} {object : FfiObject}
    (hmem : object ∈ objects) (hid : object.providerId = k)
    (h : ∀ other ∈ objects, other.providerId = k → other = object) :
    objects.foldl Replica.insert replica k = some object := by
  induction objects generalizing replica with
  | nil => cases hmem
  | cons head objects ih =>
    rw [foldl_cons]
    have htail : ∀ other ∈ objects, other.providerId = k → other = object :=
      fun other hother => h other (mem_cons_of_mem _ hother)
    by_cases hin : object ∈ objects
    · exact ih hin htail
    have hhead : head = object := (mem_cons.mp hmem).resolve_right hin ▸ rfl
    rw [foldl_insert_of_absent]
    · unfold Replica.insert
      rw [hhead, if_pos hid.symm]
    intro other hother heq
    exact hin (htail other hother heq ▸ hother)

end Replica

variable {row : ItemRow} {object : FfiObject} {floor : Nat} {cutoff : Option Nat} {db : MobileDb} {limit : Nat}
    {first paged rows retired : MobileDb} {anchor : Option SyncAnchor} {db' : MobileDb}

theorem ItemRow.object_key? (h : row.object = .ok object) :
    ∃ kind, row.key? = some (kind, object.providerId) := by
  unfold ItemRow.object at h
  cases htype : row.type with
  | root =>
    rw [htype] at h
    cases h
  | dir =>
    refine ⟨.dir, key?_dir.mpr ⟨htype, ?_⟩⟩
    rw [htype] at h
    cases hparent : combineParent row.parent row.trashed with
    | none =>
      rw [hparent] at h
      cases h
    | some parent =>
      rw [hparent] at h
      cases hdir : row.dir with
      | none =>
        rw [hdir] at h
        cases h
      | some dir =>
        rw [hdir] at h
        cases hmeta : decodedMeta dir.metadataState row.dirMeta with
        | error e =>
          simp only [hmeta] at h
          cases h
        | ok value =>
          simp only [hmeta] at h
          cases h
          rfl
  | file =>
    rw [htype] at h
    cases hparent : combineParent row.parent row.trashed with
    | none =>
      rw [hparent] at h
      cases h
    | some parent =>
      rw [hparent] at h
      cases hstable : row.stableUuid with
      | none =>
        rw [hstable] at h
        cases h
      | some stable =>
        refine ⟨.file, key?_file.mpr ⟨htype, ?_⟩⟩
        rw [hstable] at h ⊢
        cases hfile : row.file with
        | none =>
          rw [hfile] at h
          cases h
        | some file =>
          rw [hfile] at h
          cases hmeta : decodedMeta file.metadataState row.fileMeta with
          | error e =>
            simp only [hmeta] at h
            cases h
          | ok value =>
            simp only [hmeta] at h
            cases h
            rfl

theorem inPage_iff {n : Nat} :
    inPage floor cutoff n ↔ Feed.InPage floor cutoff n := by
  unfold inPage Feed.InPage
  cases cutoff with
  | none => simp
  | some last => simp

theorem mem_selectRetiredIds {id : Uuid} :
    id ∈ db.selectRetiredIds floor cutoff ↔
      ∃ tomb ∈ db.tombstones, tomb.itemId = id ∧ Feed.InPage floor cutoff tomb.seq := by
  unfold MobileDb.selectRetiredIds
  simp only [mem_map, mem_insertionSort, mem_filter, inPage_iff]
  constructor
  · rintro ⟨tomb, ⟨htomb, hin⟩, rfl⟩
    exact ⟨tomb, htomb, rfl, hin⟩
  rintro ⟨tomb, htomb, rfl, hin⟩
  exact ⟨tomb, ⟨htomb, hin⟩, rfl⟩

theorem selectChangedItems_ok (hwhole : Whole db) {updated : List FfiObject}
    (h : db.selectChangedItems floor cutoff = .ok updated) :
    (∀ row ∈ db.items, row.type ≠ .root → Feed.InPage floor cutoff row.changeSeq →
      ∃ object ∈ updated, row.object = .ok object) ∧
    ∀ object ∈ updated, ∃ row ∈ db.items,
      row.object = .ok object ∧ Feed.InPage floor cutoff row.changeSeq := by
  obtain ⟨hto, hfrom⟩ := mapM_ok h
  constructor
  · intro row hrow htype hin
    apply hto row
    refine (mem_insertionSort _).mpr (mem_filter.mpr ⟨hrow, ?_⟩)
    have hhalf : row.file.isSome ∨ row.dir.isSome := by
      cases hkind : row.type with
      | root => exact absurd hkind htype
      | dir => exact Or.inr ((hwhole row hrow).2 hkind)
      | file => exact Or.inl ((hwhole row hrow).1 hkind)
    simp [inPage_iff.mpr hin, htype, hhalf]
  intro object hobject
  obtain ⟨row, hrow, heq⟩ := hfrom object hobject
  obtain ⟨hmem, hpicked⟩ := mem_filter.mp ((mem_insertionSort _).mp hrow)
  simp only [Bool.and_eq_true] at hpicked
  exact ⟨row, hmem, heq, inPage_iff.mp hpicked.1.1⟩

theorem mem_selectChangeSeqsPage {seq : Nat} (h : seq ∈ db.selectChangeSeqsPage floor limit) :
    (∃ row ∈ db.items, row.type ≠ .root ∧ row.changeSeq = seq) ∨
      ∃ tomb ∈ db.tombstones, tomb.seq = seq := by
  have hpooled := (mem_insertionSort _).mp (mem_of_mem_take h)
  rcases mem_append.mp hpooled with hitem | htomb
  · obtain ⟨row, hrow, rfl⟩ := mem_map.mp hitem
    obtain ⟨hmem, hpicked⟩ := mem_filter.mp hrow
    exact Or.inl ⟨row, hmem, by simpa using (Bool.and_eq_true_iff.mp hpicked).2, rfl⟩
  obtain ⟨tomb, hmem, rfl⟩ := mem_map.mp htomb
  exact Or.inr ⟨tomb, (mem_filter.mp hmem).1, rfl⟩

variable {kindOf : Uuid → ItemType}

theorem ItemRow.key?_isSome (h : Identified db)
    (hrow : row ∈ db.items) (htype : row.type ≠ .root) : ∃ k, row.key? = some k := by
  cases hkind : row.type with
  | root => exact absurd hkind htype
  | dir => exact ⟨_, key?_dir.mpr ⟨hkind, rfl⟩⟩
  | file =>
    obtain ⟨stable, hstable⟩ := Option.isSome_iff_exists.mp ((h.stables row hrow).mp hkind)
    exact ⟨_, key?_file.mpr ⟨hkind, hstable⟩⟩

theorem Kept.pageCutoff (h : Kept kindOf db) {last : Nat}
    (hlast : pageCutoff db floor limit = some last) : last ≤ db.counter := by
  unfold MobileCache.pageCutoff at hlast
  split at hlast
  · cases hlast
  dsimp only at hlast
  split at hlast
  · rcases mem_selectChangeSeqsPage (mem_of_getElem? hlast) with
      ⟨row, hrow, htype, rfl⟩ | ⟨tomb, htomb, rfl⟩
    · obtain ⟨k, hk⟩ := key?_isSome h.identified hrow htype
      exact (h.sound.stamped k row.object row.changeSeq ⟨row, hrow, hk, rfl, rfl⟩).2
    · exact h.sound.retired (tomb.kind, tomb.itemId) tomb.seq htomb
  · cases hlast

theorem changesSince_ok
    {page : FfiChanges} (h : changesSince first paged rows retired anchor limit = .ok page) :
    ∃ floor, floor = (anchor.map SyncAnchor.seq).getD 0 ∧
      rows.selectChangedItems floor (pageCutoff paged floor limit) = .ok page.updated ∧
      page.deletedIds =
        (if anchor.isSome then retired.selectRetiredIds floor (pageCutoff paged floor limit)
        else []) ∧
      page.anchor.seq = (pageCutoff paged floor limit).getD first.counter ∧
      page.more = (pageCutoff paged floor limit).isSome := by
  unfold changesSince at h
  cases anchor with
  | none =>
    refine ⟨0, rfl, ?_⟩
    cases hupdated : rows.selectChangedItems 0 (pageCutoff paged 0 limit) with
    | error e =>
      simp only [bind, Except.bind, hupdated] at h
      cases h
    | ok updated =>
      simp only [bind, Except.bind, hupdated] at h
      cases h
      exact ⟨rfl, rfl, rfl, rfl⟩
  | some anchor =>
    refine ⟨anchor.seq, rfl, ?_⟩
    unfold decodeAnchor at h
    by_cases hissued : anchor.dbInstance = first.dbInstance
    · cases hupdated : rows.selectChangedItems anchor.seq (pageCutoff paged anchor.seq limit) with
      | error e =>
        simp only [bind, Except.bind, if_pos hissued, hupdated] at h
        cases h
      | ok updated =>
        simp only [bind, Except.bind, if_pos hissued, hupdated] at h
        cases h
        exact ⟨rfl, rfl, rfl, rfl⟩
    simp only [bind, Except.bind, if_neg hissued] at h
    cases h

/-! ## Following -/

/-- The feed under provider ids, each of which is for one kind of item. -/
def providerFeed (kindOf : Uuid → ItemType) (db : MobileDb) :
    Feed Uuid (Except CacheError FfiObject) := db.feed.comap fun id => (kindOf id, id)

/-- What a replica holds, as the feed gives it. -/
def Replica.given (replica : Replica) : Uuid → Option (Except CacheError FfiObject) :=
  fun id => (replica id).map Except.ok

theorem OneRowPerStable.functional (h : OneRowPerStable db)
    (hids : Identified db) : (providerFeed kindOf db).Functional := by
  rintro id a n b m ⟨row, hrow, hkey, rfl, rfl⟩ ⟨row', hrow', hkey', rfl, rfl⟩
  dsimp only at hkey hkey'
  have heq : row = row' := by
    cases hkind : kindOf id with
    | root =>
      rw [hkind] at hkey
      exact absurd hkey key?_root
    | dir =>
      rw [hkind] at hkey hkey'
      refine hids.eq_of_uuid hrow hrow' ?_
      exact (key?_dir.mp hkey).2.trans (key?_dir.mp hkey').2.symm
    | file =>
      rw [hkind] at hkey hkey'
      have hstable := (key?_file.mp hkey).2
      refine h row hrow row' hrow' ?_ (hstable.trans (key?_file.mp hkey').2.symm)
      rw [hstable]
      rfl
  rw [heq]
  exact ⟨rfl, rfl⟩

theorem Kept.rows_of_object (h : Kept kindOf db) (hrow : row ∈ db.items) (hobject : row.object = .ok object) :
    (providerFeed kindOf db).rows object.providerId (.ok object) row.changeSeq := by
  obtain ⟨kind, hkey⟩ := object_key? hobject
  have hkind : kindOf object.providerId = kind :=
    h.kinds _ (carries_iff.mpr ⟨row, hrow, hkey⟩)
  refine ⟨row, hrow, ?_, hobject, rfl⟩
  dsimp only
  rw [hkind]
  exact hkey

variable {replica : Replica}

theorem applies_page {page : FfiChanges}
    (hrows : Settled kindOf rows) (hone : OneRowPerStable rows) (hretired : Kept kindOf retired)
    (hempty : anchor = none → replica = fun _ => none)
    (hupdated : rows.selectChangedItems floor cutoff = .ok page.updated) (hdeleted : page.deletedIds =
      if anchor.isSome then retired.selectRetiredIds floor cutoff else []) :
    Feed.Applies (providerFeed kindOf rows) (providerFeed kindOf retired) floor cutoff
      replica.given (replica.apply page).given := by
  obtain ⟨hto, hfrom⟩ := selectChangedItems_ok hrows.whole hupdated
  have hfunctional : (providerFeed kindOf rows).Functional := hone.functional hrows.kept.identified
  have habsent : ∀ k, (∀ a n, (providerFeed kindOf rows).rows k a n →
      ¬ Feed.InPage floor cutoff n) → ∀ object ∈ page.updated, object.providerId ≠ k := by
    rintro k hout object hobject rfl
    obtain ⟨row, hrow, heq, hin⟩ := hfrom object hobject
    exact hout _ _ (hrows.kept.rows_of_object hrow heq) hin
  constructor
  · rintro k a n ⟨row, hrow, hkey, rfl, rfl⟩ hin
    have htype : row.type ≠ .root := by
      intro hroot
      unfold ItemRow.key? at hkey
      rw [hroot] at hkey
      cases hkey
    obtain ⟨object, hobject, heq⟩ := hto row hrow htype hin
    obtain ⟨kind, hkey'⟩ := object_key? heq
    have hid : object.providerId = k :=
      (Prod.mk.inj (Option.some.inj (hkey'.symm.trans hkey))).2
    unfold Replica.given Replica.apply
    rw [Replica.foldl_insert_of_mem hobject hid, heq]
    · rfl
    intro other hother hotherId
    obtain ⟨row', hrow', heq', -⟩ := hfrom other hother
    have hrow'' := hrows.kept.rows_of_object hrow' heq'
    rw [hotherId] at hrow''
    have hsame := (hfunctional k _ _ _ _ hrow'' ⟨row, hrow, hkey, heq, rfl⟩).1
    exact Except.ok.inj hsame
  · intro k hout hgone
    unfold Replica.given Replica.apply
    rw [Replica.foldl_insert_of_absent _ (habsent k hout), Replica.foldl_erase, hdeleted]
    cases anchor with
    | none =>
      rw [hempty rfl]
      rfl
    | some anchor =>
      obtain ⟨n, hn, hin⟩ := hgone
      have hmem : k ∈ retired.selectRetiredIds floor cutoff :=
        mem_selectRetiredIds.mpr ⟨_, hn, rfl, hin⟩
      rw [Option.isSome_some, if_pos rfl, if_pos hmem]
      rfl
  intro k hout hnone
  unfold Replica.given Replica.apply
  rw [Replica.foldl_insert_of_absent _ (habsent k hout), Replica.foldl_erase, hdeleted]
  cases anchor with
  | none => rfl
  | some anchor =>
    have hnot : k ∉ retired.selectRetiredIds floor cutoff := by
      intro hmem
      obtain ⟨tomb, htomb, rfl, hin⟩ := mem_selectRetiredIds.mp hmem
      have hkind : kindOf tomb.itemId = tomb.kind :=
        hretired.retiredKinds (tomb.kind, tomb.itemId) tomb.seq htomb
      refine hnone tomb.seq ?_ hin
      change (⟨kindOf tomb.itemId, tomb.itemId, tomb.seq⟩ : Tombstone) ∈ retired.tombstones
      rw [hkind]
      exact htomb
    rw [Option.isSome_some, if_pos rfl, if_neg hnot]

/-- What holds between transactions of a run. -/
structure Ready (kindOf : Uuid → ItemType) (db : MobileDb) : Prop where
  settled : Settled kindOf db
  oneRow : OneRowPerStable db

theorem Ready.sound (h : Ready kindOf db) : (providerFeed kindOf db).Sound :=
  h.settled.kept.sound.comap _

theorem Ready.functional (h : Ready kindOf db) :
    (providerFeed kindOf db).Functional := h.oneRow.functional h.settled.kept.identified

theorem ready_init (dbInstance : BitVec 128) : Ready kindOf (init dbInstance) := by
  have hitems : ∀ row, row ∉ (init dbInstance).items := fun row hrow => nomatch hrow
  have hnone : ∀ k, ¬ (init dbInstance).feed.Carries k := by
    intro k hk
    obtain ⟨row, hrow, -⟩ := carries_iff.mp hk
    exact hitems row hrow
  have hretired : ∀ k n, ¬ (init dbInstance).feed.retired k n := by
    intro k n hn
    exact not_mem_nil (retired_iff.mp hn)
  have hids : Identified (init dbInstance) :=
    ⟨nodup_nil, fun row hrow => absurd hrow (hitems row), nodup_nil,
      fun row hrow => absurd hrow (hitems row), fun row hrow => absurd hrow (hitems row)⟩
  have hsound : (init dbInstance).feed.Sound :=
    ⟨fun k a n hrow => absurd ⟨a, n, hrow⟩ (hnone k), fun k n hn => absurd hn (hretired k n),
      fun k n hn => absurd hn (hretired k n)⟩
  refine ⟨⟨⟨hids, hsound, ?_, ?_⟩, ?_⟩, ?_⟩
  · exact fun k hk => absurd hk (hnone k)
  · exact fun k n hn => absurd hn (hretired k n)
  all_goals exact fun row hrow => absurd hrow (hitems row)

theorem Ready.step (h : Ready kindOf db) (hstep : Step kindOf db db') :
    Ready kindOf db' ∧ Feed.Tracks (providerFeed kindOf db) (providerFeed kindOf db') := by
  obtain ⟨write, hfits, rfl, hone⟩ := hstep
  have hcommit := h.settled.commit hfits
  exact ⟨⟨hcommit.settled, hone⟩, hcommit.advances.tracks.comap _⟩

theorem Ready.writes (h : Ready kindOf db) (hwrites : Writes kindOf db db') :
    Ready kindOf db' ∧ Feed.Tracks (providerFeed kindOf db) (providerFeed kindOf db') := by
  induction hwrites with
  | refl => exact ⟨h, Feed.Tracks.refl _⟩
  | tail _ hstep ih =>
    obtain ⟨hready, htracks⟩ := ih
    obtain ⟨hready', htracks'⟩ := hready.step hstep
    exact ⟨hready', htracks.trans htracks'⟩

/-- The replica is accurate at its anchor. -/
structure InStep (kindOf : Uuid → ItemType) (db : MobileDb) (replica : Replica)
    (anchor : Option SyncAnchor) : Prop where
  ready : Ready kindOf db
  reached : (anchor.map SyncAnchor.seq).getD 0 ≤ db.counter
  accurate :
    (providerFeed kindOf db).Accurate ((anchor.map SyncAnchor.seq).getD 0) replica.given
  empty : anchor = none → replica = fun _ => none

theorem InStep.writes (h : InStep kindOf db replica anchor) (hwrites : Writes kindOf db db') :
    InStep kindOf db' replica anchor := by
  obtain ⟨hready, htracks⟩ := h.ready.writes hwrites
  exact ⟨hready, le_trans h.reached htracks.counter,
    h.accurate.tracks htracks h.ready.functional h.ready.sound h.reached, h.empty⟩

theorem InStep.page {page : FfiChanges}
    (h : InStep kindOf first replica anchor) (hpaged : Writes kindOf first paged)
    (hrows : Writes kindOf paged rows) (hretired : Writes kindOf rows retired)
    (hpage : changesSince first paged rows retired anchor limit = .ok page) :
    InStep kindOf retired (replica.apply page) (some page.anchor) := by
  obtain ⟨floor, hfloor, hupdated, hdeleted, hanchor, -⟩ := changesSince_ok hpage
  obtain ⟨hpagedReady, hpagedTracks⟩ := h.ready.writes hpaged
  obtain ⟨hrowsReady, hrowsTracks⟩ := hpagedReady.writes hrows
  obtain ⟨hretiredReady, hretiredTracks⟩ := hrowsReady.writes hretired
  have hbefore := ((h.writes hpaged).writes hrows).writes hretired
  have happlies := applies_page hrowsReady.settled hrowsReady.oneRow hretiredReady.settled.kept
    h.empty hupdated hdeleted
  have hle : page.anchor.seq ≤ (providerFeed kindOf paged).counter := by
    rw [hanchor]
    cases hcutoff : pageCutoff paged floor limit with
    | none => exact hpagedTracks.counter
    | some last => exact hpagedReady.settled.kept.pageCutoff hcutoff
  have hlast : ∀ c, pageCutoff paged floor limit = some c → page.anchor.seq = c := by
    intro c hc
    rw [hanchor, hc]
    rfl
  have haccurate := hbefore.accurate
  rw [← hfloor] at haccurate
  constructor
  · exact hretiredReady
  · exact le_trans hle (le_trans hrowsTracks.counter hretiredTracks.counter)
  · exact haccurate.page happlies hle hlast hrowsTracks hretiredTracks hrowsReady.functional
      hretiredReady.functional hretiredReady.sound
  · nofun

theorem Follows.inStep
    (h : Follows kindOf db replica anchor) : InStep kindOf db replica anchor := by
  induction h with
  | start dbInstance =>
    exact ⟨ready_init dbInstance, Nat.zero_le _,
      Feed.accurate_empty (ready_init dbInstance).sound, fun _ => rfl⟩
  | write _ hstep ih => exact ih.writes (Relation.ReflTransGen.single hstep)
  | page _ hpaged hrows hretired hpage ih => exact ih.page hpaged hrows hretired hpage

theorem mirrors_of_accurate (h : Ready kindOf db)
    (haccurate : (providerFeed kindOf db).Accurate db.counter replica.given) :
    replica.Mirrors db := by
  have hexact := fun id a => Feed.Accurate.exact haccurate h.sound id a
  constructor
  · intro row hrow htype
    obtain ⟨⟨kind, id⟩, hkey⟩ := key?_isSome h.settled.kept.identified hrow htype
    have hkind : kindOf id = kind :=
      h.settled.kept.kinds (kind, id) (carries_iff.mpr ⟨row, hrow, hkey⟩)
    have hgiven : replica.given id = some row.object := by
      refine (hexact id row.object).mpr ⟨row.changeSeq, row, hrow, ?_, rfl, rfl⟩
      dsimp only
      rw [hkind]
      exact hkey
    obtain ⟨object, hobject, heq⟩ := Option.map_eq_some_iff.mp hgiven
    exact ⟨kind, id, object, hkey, heq.symm, hobject⟩
  intro id object hobject
  have hgiven : replica.given id = some (.ok object) := by
    unfold Replica.given
    rw [hobject]
    rfl
  obtain ⟨n, row, hrow, hkey, heq, -⟩ := (hexact id (.ok object)).mp hgiven
  exact ⟨row, hrow, kindOf id, hkey, heq⟩

/-- In every state a run reaches, no tombstone names an id that a row of its kind
carries, and a last page read in it leaves the replica equal to the cache. -/
theorem follows_mirrors {db : MobileDb} {replica : Replica} {anchor : Option SyncAnchor}
    (h : Follows kindOf db replica anchor) :
    Apart db ∧ ∀ limit page, changesSince db db db db anchor limit = .ok page →
      page.more = false → (replica.apply page).Mirrors db := by
  have hinStep := h.inStep
  constructor
  · intro tomb htomb row hrow hkey
    exact hinStep.ready.settled.kept.sound.apart (tomb.kind, tomb.itemId) tomb.seq htomb
      (carries_iff.mpr ⟨row, hrow, hkey⟩)
  intro limit page hpage hmore
  have hdone := hinStep.page Relation.ReflTransGen.refl Relation.ReflTransGen.refl
    Relation.ReflTransGen.refl hpage
  obtain ⟨floor, -, -, -, hanchor, hsome⟩ := changesSince_ok hpage
  have hlast : pageCutoff db floor limit = none := by
    rw [← Option.not_isSome_iff_eq_none, ← hsome, hmore]
    nofun
  have haccurate := hdone.accurate
  rw [Option.map_some, Option.getD_some, hanchor, hlast] at haccurate
  exact mirrors_of_accurate hdone.ready haccurate

def docs : RemoteDirectory := ⟨20, .uuid 9, false, none, .decoded ⟨"docs", none⟩⟩

def report : RemoteFile := ⟨7, 8, .uuid 20, 10, 1, true, .decoded ⟨"a", "b", none, 0, none⟩⟩

def photo : RemoteFile := ⟨11, 12, .uuid 9, 30, 1, false, .encrypted⟩

def kindOfDocs (id : Uuid) : ItemType := if id = 20 then .dir else .file

/-- A directory, a file in it and one beside it. -/
def filledDb : MobileDb :=
  (CacheWrite.upsertFile photo).commit ((CacheWrite.upsertFile report).commit
    ((CacheWrite.upsertDir docs).commit (init 0)))

/-- The directory is deleted, and the file in it with it. -/
def emptiedDb : MobileDb := (CacheWrite.deleteItem 20).commit filledDb

theorem follows_filledDb : Follows kindOfDocs filledDb (fun _ => none) none := by
  have hdocs : Step kindOfDocs (init 0) ((CacheWrite.upsertDir docs).commit (init 0)) :=
    ⟨.upsertDir docs, ⟨by decide, by decide⟩, rfl, by decide +kernel⟩
  have hreport : Step kindOfDocs _ ((CacheWrite.upsertFile report).commit
      ((CacheWrite.upsertDir docs).commit (init 0))) :=
    ⟨.upsertFile report, ⟨by decide, by decide⟩, rfl, by decide +kernel⟩
  exact .write (.write (.write (.start 0) hdocs) hreport)
    ⟨.upsertFile photo, ⟨by decide, by decide⟩, rfl, by decide +kernel⟩

theorem step_emptiedDb : Step kindOfDocs filledDb emptiedDb :=
  ⟨.deleteItem 20, ⟨by decide, by decide⟩, rfl, by decide +kernel⟩

/-- The directory and its file. -/
def firstPage : FfiChanges where
  updated := [.dir ⟨20, .uuid 9, some ⟨"docs", none⟩, .decoded, none, 0⟩,
    .file ⟨7, 8, .uuid 20, some ⟨"a", "b", none, 0, none⟩, .decoded, 10, 1⟩]
  deletedIds := []
  anchor := ⟨0, 6⟩
  more := true

/-- The file beside them, and the first tombstone. -/
def secondPage : FfiChanges where
  updated := [.file ⟨11, 12, .uuid 9, none, .encrypted, 30, 0⟩]
  deletedIds := [20]
  anchor := ⟨0, 9⟩
  more := true

def lastPage : FfiChanges where
  updated := []
  deletedIds := [8]
  anchor := ⟨0, 10⟩
  more := false

/-- A replica asks for two changes at a time, and what its first page held is deleted then. -/
theorem follows_mirrors_last_page :
    changesSince filledDb filledDb filledDb filledDb none 2 = .ok firstPage ∧
      changesSince emptiedDb emptiedDb emptiedDb emptiedDb (some firstPage.anchor) 2 = .ok secondPage ∧
      changesSince emptiedDb emptiedDb emptiedDb emptiedDb (some secondPage.anchor) 2 = .ok lastPage ∧
      Apart emptiedDb ∧
      (Replica.apply (Replica.apply (Replica.apply (fun _ => none) firstPage) secondPage) lastPage).Mirrors
        emptiedDb := by
  have hfirst : changesSince filledDb filledDb filledDb filledDb none 2 = .ok firstPage := by
    decide +kernel
  have hsecond : changesSince emptiedDb emptiedDb emptiedDb emptiedDb (some firstPage.anchor) 2 =
      .ok secondPage := by
    decide +kernel
  have hlast : changesSince emptiedDb emptiedDb emptiedDb emptiedDb (some secondPage.anchor) 2 =
      .ok lastPage := by
    decide +kernel
  have hpaged := Follows.page follows_filledDb .refl .refl .refl hfirst
  have hfollows := Follows.page (.write hpaged step_emptiedDb) .refl .refl .refl hsecond
  obtain ⟨hapart, hmirrors⟩ := follows_mirrors hfollows
  exact ⟨hfirst, hsecond, hlast, hapart, hmirrors 2 lastPage hlast rfl⟩

/-- Whatever falls between two states of a run, a row that shows anything else than before is stamped
past the first state, and so is a tombstone of each row that is gone. -/
theorem writes_stamp_changes (h : Follows kindOf db replica anchor) (hwrites : Writes kindOf db db') :
    (∀ row ∈ db'.items, row.type ≠ .root → db.counter < row.changeSeq ∧ row.changeSeq ≤ db'.counter ∨
      ∃ old ∈ db.items, old.key? = row.key? ∧ old.object = row.object ∧ old.changeSeq = row.changeSeq) ∧
    ∀ kind id, (∃ row ∈ db.items, row.key? = some (kind, id)) →
      (∃ row ∈ db'.items, row.key? = some (kind, id)) ∨
        ∃ tomb ∈ db'.tombstones, tomb.kind = kind ∧ tomb.itemId = id ∧ db.counter < tomb.seq := by
  obtain ⟨hready, htracks⟩ := h.inStep.ready.writes hwrites
  constructor
  · intro row hrow htype
    obtain ⟨⟨kind, id⟩, hkey⟩ := key?_isSome hready.settled.kept.identified hrow htype
    obtain rfl : kindOf id = kind := hready.settled.kept.kinds _ (carries_iff.mpr ⟨row, hrow, hkey⟩)
    have hshown : (providerFeed kindOf db').rows id row.object row.changeSeq := ⟨row, hrow, hkey, rfl, rfl⟩
    rcases htracks.rows id _ _ hshown with hnew | ⟨old, hold, hkey', hsame⟩
    · exact Or.inl ⟨hnew, (hready.sound.stamped _ _ _ hshown).2⟩
    · exact Or.inr ⟨old, hold, hkey'.trans hkey.symm, hsame⟩
  rintro kind id ⟨row, hrow, hkey⟩
  obtain rfl : kindOf id = kind := h.inStep.ready.settled.kept.kinds _ (carries_iff.mpr ⟨row, hrow, hkey⟩)
  by_cases hthere : (providerFeed kindOf db').Carries id
  · obtain ⟨-, -, row', hrow', hkey', -⟩ := hthere
    exact Or.inl ⟨row', hrow', hkey'⟩
  rcases htracks.gone id hthere with ⟨n, htomb, hlt⟩ | ⟨hnone, -⟩
  · exact Or.inr ⟨_, htomb, rfl, rfl, hlt⟩
  · exact absurd ⟨row.object, row.changeSeq, row, hrow, hkey, rfl, rfl⟩ hnone

theorem writes_stamp_changes_emptied :
    (∀ row ∈ emptiedDb.items, row.type ≠ .root →
      filledDb.counter < row.changeSeq ∧ row.changeSeq ≤ emptiedDb.counter ∨
        ∃ old ∈ filledDb.items, old.key? = row.key? ∧ old.object = row.object ∧ old.changeSeq = row.changeSeq) ∧
    ∃ tomb ∈ emptiedDb.tombstones, tomb.kind = .file ∧ tomb.itemId = 8 ∧ filledDb.counter < tomb.seq := by
  obtain ⟨hstamped, hgone⟩ := writes_stamp_changes follows_filledDb (.single step_emptiedDb)
  refine ⟨hstamped, (hgone .file 8 (by decide +kernel)).resolve_left ?_⟩
  decide +kernel

end SyncEngine.MobileCache
