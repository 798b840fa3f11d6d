import SyncEngine.MobileCache.Stamped

/-! # Statements

One lemma for each statement: what it writes advances the feed. A delete takes
rows away and nothing else, however far it cascades.
-/

namespace SyncEngine.MobileCache

open MobileDb ItemRow List SyncEngine.Collections

variable {kindOf : Uuid → ItemType} {db db' : MobileDb}

/-! ## Rows rewritten in place -/

variable {f : ItemRow → ItemRow} {old new : ItemRow} {k : ItemType × Uuid} {row : ItemRow} {item : ItemRecord}

section

variable (h : Kept kindOf db)
include h

theorem Kept.mapRows
    (hitems : db'.items = db.items.map f) (htombs : db'.tombstones = db.tombstones)
    (hnext : db'.nextId = db.nextId) (hcounter : db.counter ≤ db'.counter)
    (hsame : ∀ row ∈ db.items, (f row).SameIds row) (hshown : ∀ row ∈ db.items, row.type = .root ∨
      row.object = (f row).object ∧ row.changeSeq = (f row).changeSeq ∨
      db.counter < (f row).changeSeq ∧ (f row).changeSeq ≤ db'.counter) :
    Advances kindOf db db' := by
  have hcarries : ∀ k, db'.feed.Carries k ↔ db.feed.Carries k := by
    intro k
    rw [carries_iff, carries_iff, hitems]
    constructor
    · rintro ⟨row', hrow', hkey⟩
      obtain ⟨row, hrow, rfl⟩ := mem_map.mp hrow'
      exact ⟨row, hrow, (hsame row hrow).key? ▸ hkey⟩
    rintro ⟨row, hrow, hkey⟩
    exact ⟨f row, mem_map_of_mem hrow, (hsame row hrow).key?.trans hkey⟩
  have hretired : ∀ k n, db'.feed.retired k n ↔ db.feed.retired k n := by
    intro k n
    unfold MobileDb.feed
    rw [htombs]
  apply h.advances (h.identified.map hsame hitems (le_of_eq hnext.symm)) hcounter
  · intro row' hrow'
    rw [hitems] at hrow'
    obtain ⟨row, hrow, rfl⟩ := mem_map.mp hrow'
    rcases hshown row hrow with hroot | ⟨hobject, hseq⟩ | hstamp
    · refine Or.inl ?_
      rw [(hsame row hrow).key?]
      unfold ItemRow.key?
      rw [hroot]
    · exact Or.inr (Or.inl ⟨row, hrow, (hsame row hrow).key?.symm, hobject, hseq⟩)
    · exact Or.inr (Or.inr hstamp)
  · intro k hk
    exact Or.inl ((hcarries k).mp hk)
  · intro k hk
    exact Or.inl ((hcarries k).mpr hk)
  · intro k n hn
    rw [hretired] at hn
    rw [hcarries]
    exact ⟨Or.inl hn, h.sound.apart k n hn⟩
  intro k n hn
  exact Or.inl ((hretired k n).mpr hn)

theorem Kept.mark (hsame : ∀ row ∈ db.items, (f row).SameIds row)
    (hquiet : ∀ row ∈ db.items, row.object = (f row).object ∧ row.changeSeq = (f row).changeSeq) :
    Advances kindOf db { db with items := db.items.map f } :=
  h.mapRows rfl rfl rfl le_rfl hsame fun row hrow => Or.inr (Or.inl (hquiet row hrow))

theorem Kept.setRow (hold : db.row? old.id = some old) (hsame : new.SameIds old)
    (hquiet : old.type = .root ∨ old.object = new.object ∧ old.changeSeq = new.changeSeq) :
    Advances kindOf db (db.setRow new) := by
  have hmem : old ∈ db.items := (row?_some hold).1
  refine h.mapRows rfl rfl rfl le_rfl ?_ ?_
  · intro row hrow
    split
    · next hid =>
        rw [h.identified.eq_of_id hrow hmem (hid.trans hsame.id)]
        exact hsame
    · exact ⟨rfl, rfl, rfl, rfl, rfl⟩
  intro row hrow
  split
  · next hid =>
      rw [h.identified.eq_of_id hrow hmem (hid.trans hsame.id)]
      rcases hquiet with hroot | hquiet
      · exact Or.inl hroot
      · exact Or.inr (Or.inl hquiet)
  · exact Or.inr (Or.inl ⟨rfl, rfl⟩)

theorem Kept.setRow_bump (hold : db.row? old.id = some old) (hsame : new.SameIds old) :
    Advances kindOf db ((db.setRow new).bump old.id) := by
  have hmem : old ∈ db.items := (row?_some hold).1
  refine h.mapRows (map_map ..) rfl rfl (Nat.le_succ _) ?_ ?_
  · intro row hrow
    by_cases hid : row.id = old.id
    · obtain rfl := h.identified.eq_of_id hrow hmem hid
      rw [Function.comp_apply, if_pos hsame.id.symm, if_pos hsame.id]
      exact ⟨hsame.id, hsame.uuid, hsame.stableUuid, hsame.type, hsame.pendingUploadAt⟩
    have hnew : row.id ≠ new.id := fun hrow => hid (hrow.trans hsame.id)
    rw [Function.comp_apply, if_neg hnew, if_neg hid]
    exact ⟨rfl, rfl, rfl, rfl, rfl⟩
  intro row hrow
  by_cases hid : row.id = old.id
  · obtain rfl := h.identified.eq_of_id hrow hmem hid
    refine Or.inr (Or.inr ?_)
    rw [Function.comp_apply, if_pos hsame.id.symm, if_pos hsame.id]
    exact ⟨Nat.lt_succ_self _, le_rfl⟩
  refine Or.inr (Or.inl ?_)
  have hnew : row.id ≠ new.id := fun hrow => hid (hrow.trans hsame.id)
  rw [Function.comp_apply, if_neg hnew, if_neg hid]
  exact ⟨rfl, rfl⟩

end

/-! ## Deletes -/

theorem retireId_cases (db : MobileDb) (old : ItemRow)
    (hstables : ∀ row ∈ db.items, row.type = .file ↔ row.stableUuid.isSome)
    (huuids : old.type = .dir → ∀ row ∈ db.items, row.uuid ≠ old.uuid) :
    ((∀ k, old.key? = some k → db.feed.Carries k) ∧ db.retireId old = db) ∨
      ∃ k, old.key? = some k ∧ ¬ db.feed.Carries k ∧ db.retireId old = db.retire k.1 k.2 := by
  unfold MobileDb.retireId ItemRow.key?
  cases htype : old.type with
  | root => exact Or.inl ⟨by simp, rfl⟩
  | dir =>
    refine Or.inr ⟨_, rfl, ?_, ?_⟩
    · rw [carries_iff]
      rintro ⟨row, hrow, hkey⟩
      exact huuids htype row hrow (key?_dir.mp hkey).2
    have hany : (db.items.any fun row => row.uuid = old.uuid) = false := by
      simpa using huuids htype
    simp [hany]
  | file =>
    cases hstable : old.stableUuid with
    | none => exact Or.inl ⟨by simp, rfl⟩
    | some stable =>
      have hiff : (db.items.any fun row => row.stableUuid = some stable) ↔
          db.feed.Carries (.file, stable) := by
        rw [carries_iff, any_eq_true]
        constructor
        · rintro ⟨row, hrow, hrow'⟩
          have hcarried : row.stableUuid = some stable := by simpa using hrow'
          refine ⟨row, hrow, key?_file.mpr ⟨?_, hcarried⟩⟩
          rw [hstables row hrow, hcarried]
          rfl
        rintro ⟨row, hrow, hkey⟩
        exact ⟨row, hrow, by simpa using (key?_file.mp hkey).2⟩
      by_cases hany : (db.items.any fun row => row.stableUuid = some stable)
      · refine Or.inl ⟨?_, by simp [hany]⟩
        intro k hk
        obtain rfl : (ItemType.file, stable) = k := by simpa using hk
        exact hiff.mp hany
      · exact Or.inr ⟨_, rfl, fun hcarried => hany (hiff.mpr hcarried), by simp [hany]⟩

theorem feed_retire_retired {k' : ItemType × Uuid} {n : Nat} :
    (db.retire k.1 k.2).feed.retired k' n ↔
      k' = k ∧ n = db.counter + 1 ∨ k' ≠ k ∧ db.feed.retired k' n := by
  obtain ⟨kind, id⟩ := k
  obtain ⟨kind', id'⟩ := k'
  simp only [feed, retire, mem_cons, mem_filter, Tombstone.mk.injEq,
    Prod.mk.injEq, ne_eq, decide_eq_true_eq]
  constructor
  · rintro (⟨rfl, rfl, rfl⟩ | ⟨hmem, hne⟩)
    · exact Or.inl ⟨⟨rfl, rfl⟩, rfl⟩
    · exact Or.inr ⟨hne, hmem⟩
  rintro (⟨⟨rfl, rfl⟩, rfl⟩ | ⟨hne, hmem⟩)
  · exact Or.inl ⟨rfl, rfl, rfl⟩
  · exact Or.inr ⟨hmem, hne⟩

theorem Kept.delete (h : Kept kindOf db) {id : Nat} (hold : db.row? id = some old) :
    Advances kindOf db ((db.eraseRow id).tombstoneOnDelete old) := by
  obtain ⟨hmem, hid⟩ := row?_some hold
  have hsub : (db.eraseRow id).items.Sublist db.items := filter_sublist
  have hmem_erase : ∀ row, row ∈ (db.eraseRow id).items ↔ row ∈ db.items ∧ row.id ≠ id := by
    intro row
    simp [eraseRow]
  have hids : Identified (db.eraseRow id) := h.identified.sublist hsub rfl
  have hcarries : ∀ k, db.feed.Carries k → (db.eraseRow id).feed.Carries k ∨ old.key? = some k := by
    intro k hk
    obtain ⟨row, hrow, hkey⟩ := carries_iff.mp hk
    by_cases hrid : row.id = id
    · obtain rfl := h.identified.eq_of_id hrow hmem (hrid.trans hid.symm)
      exact Or.inr hkey
    · exact Or.inl (carries_iff.mpr ⟨row, (hmem_erase row).mpr ⟨hrow, hrid⟩, hkey⟩)
  have hback : ∀ k, (db.eraseRow id).feed.Carries k → db.feed.Carries k := by
    intro k hk
    obtain ⟨row, hrow, hkey⟩ := carries_iff.mp hk
    exact carries_iff.mpr ⟨row, hsub.subset hrow, hkey⟩
  have hshown : ∀ db' : MobileDb, ∀ row ∈ (db.eraseRow id).items, Shown db db' row := by
    intro db' row hrow
    exact Or.inr (Or.inl ⟨row, hsub.subset hrow, rfl, rfl, rfl⟩)
  unfold MobileDb.tombstoneOnDelete
  rw [if_pos (h.identified.unmarked old hmem)]
  have hcases := retireId_cases (db.eraseRow id) old hids.stables fun _ row hrow huuid =>
    ((hmem_erase row).mp hrow).2
      ((congrArg ItemRow.id (h.identified.eq_of_uuid (hsub.subset hrow) hmem huuid)).trans hid)
  rcases hcases with ⟨hcarried, heq⟩ | ⟨k, hkey, hcarried, heq⟩
  · rw [heq]
    apply h.advances hids le_rfl (hshown _) (fun k hk => Or.inl (hback k hk))
    · intro k hk
      rcases hcarries k hk with hk | hk
      · exact Or.inl hk
      · exact Or.inl (hcarried k hk)
    · intro k n hn
      exact ⟨Or.inl hn, fun hk => h.sound.apart k n hn (hback k hk)⟩
    intro k n hn
    exact Or.inl hn
  have hids' : Identified ((db.eraseRow id).retire k.1 k.2) :=
    hids.sublist (List.Sublist.refl _) rfl
  rw [heq]
  apply h.advances hids' (Nat.le_succ _) (hshown _) (fun k hk => Or.inl (hback k hk))
  · intro k' hk'
    rcases hcarries k' hk' with hk' | hk'
    · exact Or.inl hk'
    obtain rfl : k = k' := Option.some.inj (hkey.symm.trans hk')
    exact Or.inr ⟨_, feed_retire_retired.mpr (Or.inl ⟨rfl, rfl⟩), Nat.lt_succ_self _⟩
  · intro k' n hn
    rcases feed_retire_retired.mp hn with ⟨rfl, rfl⟩ | ⟨-, hn⟩
    · exact ⟨Or.inr ⟨carries_iff.mpr ⟨old, hmem, hkey⟩, le_rfl⟩, hcarried⟩
    · exact ⟨Or.inl hn, fun hk => h.sound.apart k' n hn (hback k' hk)⟩
  intro k' n hn
  refine Or.inl (feed_retire_retired.mpr (Or.inr ⟨?_, hn⟩))
  rintro rfl
  exact h.sound.apart k' n hn (carries_iff.mpr ⟨old, hmem, hkey⟩)

/-- Deletes and their cascades are single deletes, one after another, of the rows to be deleted and
of those below them. -/
theorem deleteWithin_doomed {R : MobileDb → MobileDb → Prop} (all : List ItemRow) (Doomed : Nat → Prop)
    (hrefl : ∀ db, R db db) (htrans : ∀ a b c, R a b → R b c → R a c)
    (hdelete : ∀ (db : MobileDb) (old : ItemRow), db.row? old.id = some old → old ∈ all → Doomed old.id →
      R db ((db.eraseRow old.id).tombstoneOnDelete old))
    (hcascade : ∀ old ∈ all, ∀ row ∈ all, Doomed old.id → row.parent = some old.uuid → row.trashed = false →
      row.pendingUploadAt = none → Doomed row.id)
    (fuel : Nat) (hall : ∀ row ∈ db.items, row ∈ all) {ids : List Nat} (hids : ∀ id ∈ ids, Doomed id) :
    R db (deleteWithin fuel db ids) ∧ ∀ row ∈ (deleteWithin fuel db ids).items, row ∈ all := by
  induction fuel generalizing db ids with
  | zero => exact ⟨hrefl db, hall⟩
  | succ fuel ih =>
    unfold MobileDb.deleteWithin
    induction ids generalizing db with
    | nil => exact ⟨hrefl db, hall⟩
    | cons id rest ihrest =>
      rw [foldl_cons]
      have hrest := fun (next : MobileDb) (hnext : ∀ row ∈ next.items, row ∈ all) =>
        ihrest hnext fun id hid => hids id (mem_cons_of_mem _ hid)
      cases hrow : db.row? id with
      | none => exact hrest db hall
      | some old =>
        obtain ⟨hmem, rfl⟩ := row?_some hrow
        have hold := hids old.id mem_cons_self
        have hfirst := hdelete db old hrow (hall old hmem) hold
        have herased : ∀ row ∈ ((db.eraseRow old.id).tombstoneOnDelete old).items, row ∈ all := by
          intro row hrow'
          rw [tombstoneOnDelete_items] at hrow'
          exact hall row (mem_filter.mp hrow').1
        dsimp only
        split
        · exact ⟨htrans _ _ _ hfirst (hrest _ herased).1, (hrest _ herased).2⟩
        have hbelow := @ih _ herased (((db.eraseRow old.id).tombstoneOnDelete old).cascaded old.uuid) (by
          intro id hid
          obtain ⟨row, hrow', rfl⟩ := mem_map.mp hid
          obtain ⟨hrow', hpicked⟩ := mem_filter.mp hrow'
          simp only [Bool.and_eq_true, decide_eq_true_eq, Bool.not_eq_true'] at hpicked
          exact hcascade old (hall old hmem) row (herased row hrow') hold hpicked.1.1 hpicked.1.2 hpicked.2)
        exact ⟨htrans _ _ _ hfirst (htrans _ _ _ hbelow.1 (hrest _ hbelow.2).1), (hrest _ hbelow.2).2⟩

theorem deleteWithin_induction {R : MobileDb → MobileDb → Prop} (hrefl : ∀ db, R db db)
    (htrans : ∀ a b c, R a b → R b c → R a c)
    (hdelete : ∀ (db : MobileDb) (old : ItemRow), db.row? old.id = some old →
      R db ((db.eraseRow old.id).tombstoneOnDelete old))
    (fuel : Nat) (db : MobileDb) (ids : List Nat) : R db (deleteWithin fuel db ids) :=
  (deleteWithin_doomed db.items (fun _ => True) hrefl htrans (fun db old hold _ _ => hdelete db old hold)
    (fun _ _ _ _ _ _ _ _ => trivial) fuel (fun _ hrow => hrow) fun _ _ => trivial).1

theorem deleteWithin_sublist (fuel : Nat) (db : MobileDb) (ids : List Nat) :
    (deleteWithin fuel db ids).items.Sublist db.items := by
  refine deleteWithin_induction (R := fun a b => b.items.Sublist a.items) ?_ ?_ ?_ fuel db ids
  · exact fun db => List.Sublist.refl _
  · exact fun a b c hab hbc => hbc.trans hab
  intro db old _
  rw [tombstoneOnDelete_items]
  exact filter_sublist

theorem deleteRows_sublist (db : MobileDb) (ids : List Nat) :
    (db.deleteRows ids).items.Sublist db.items := deleteWithin_sublist _ db ids

theorem deleteRows_gone (db : MobileDb) (ids : List Nat) :
    ∀ row ∈ (db.deleteRows ids).items, row.id ∉ ids := by
  unfold MobileDb.deleteRows
  cases hfuel : db.items.length with
  | zero =>
    intro row hrow
    have hmem : row ∈ db.items := hrow
    rw [length_eq_zero_iff.mp hfuel] at hmem
    cases hmem
  | succ fuel =>
    clear hfuel
    induction ids generalizing db with
    | nil => simp
    | cons id rest ih =>
      unfold MobileDb.deleteWithin at ih ⊢
      rw [foldl_cons]
      intro row hrow hmem
      rcases mem_cons.mp hmem with hid | hmem
      · -- what is left of the rest was left of the first delete
        have hleft := (deleteWithin_sublist (fuel + 1) _ rest).subset hrow
        cases hold : db.row? id with
        | none =>
          rw [hold] at hleft
          exact row?_none hold row hleft hid
        | some old =>
          rw [hold] at hleft
          dsimp only at hleft
          have herased : row ∈ ((db.eraseRow id).tombstoneOnDelete old).items := by
            split at hleft
            · exact hleft
            · exact (deleteWithin_sublist _ _ _).subset hleft
          rw [tombstoneOnDelete_items] at herased
          exact absurd hid (by simpa using (mem_filter.mp herased).2)
      · exact ih _ row hrow hmem

theorem Kept.deleteRows (h : Kept kindOf db) (ids : List Nat) :
    Advances kindOf db (db.deleteRows ids) := by
  refine deleteWithin_induction (R := fun a b => Kept kindOf a → Advances kindOf a b)
    ?_ ?_ ?_ _ db ids h
  · exact fun db h => Advances.refl h
  · exact fun a b c hab hbc h => (hab h).trans (hbc (hab h).kept)
  · exact fun db old hold h => h.delete hold

/-! ## Inserts -/

theorem answersTo_iff (hstable : row.type = .file ↔ row.stableUuid.isSome)
    {kind : ItemType} {id : Uuid} : row.answersTo kind id ↔ row.key? = some (kind, id) := by
  unfold ItemRow.answersTo
  cases kind with
  | root => simp [key?_root]
  | dir =>
    rw [key?_dir]
    simp [and_comm]
  | file =>
    rw [key?_file, hstable]
    constructor
    · intro h
      have hkey : row.stableUuid = some id := by simpa using h
      exact ⟨by rw [hkey, Option.isSome_some], hkey⟩
    rintro ⟨-, hkey⟩
    simp [hkey]

theorem clearTombstones_retired
    (hstable : row.type = .file ↔ row.stableUuid.isSome) {n : Nat} :
    (db.clearTombstones row).feed.retired k n ↔ db.feed.retired k n ∧ row.key? ≠ some k := by
  rw [retired_iff, retired_iff, ne_eq, ← answersTo_iff hstable]
  unfold MobileDb.clearTombstones
  rw [mem_filter, Bool.not_eq_true', Bool.not_eq_true]

theorem Kept.insertRow (h : Kept kindOf db) (hid : ∀ r ∈ db.items, r.id ≠ row.id)
    (huuid : ∀ r ∈ db.items, r.uuid ≠ row.uuid)
    (hstable : row.type = .file ↔ row.stableUuid.isSome) (hunmarked : row.pendingUploadAt = none)
    (hkind : ∀ k, row.key? = some k → kindOf k.2 = k.1) :
    Advances kindOf db (db.insertRow row) := by
  have hcarries : ∀ (db' : MobileDb) (f : ItemRow → ItemRow),
      (∀ r, (f r).key? = r.key?) → db'.items = (db.items ++ [row]).map f →
        ∀ k, db'.feed.Carries k ↔ db.feed.Carries k ∨ row.key? = some k := by
    intro db' f hf hitems k
    rw [carries_iff, carries_iff, hitems]
    constructor
    · rintro ⟨r', hr', hkey⟩
      obtain ⟨r, hr, rfl⟩ := mem_map.mp hr'
      rw [hf] at hkey
      rcases mem_append.mp hr with hr | hr
      · exact Or.inl ⟨r, hr, hkey⟩
      rw [mem_singleton.mp hr] at hkey
      exact Or.inr hkey
    rintro (⟨r, hr, hkey⟩ | hkey)
    · exact ⟨f r, mem_map_of_mem (mem_append_left _ hr), (hf r).trans hkey⟩
    refine ⟨f row, mem_map_of_mem ?_, (hf row).trans hkey⟩
    exact mem_append_right _ (mem_singleton_self row)
  have hids : Identified
      { db with items := db.items ++ [row], nextId := max db.nextId (row.id + 1) } := by
    constructor
    · rw [map_append, nodup_append]
      refine ⟨h.identified.ids, nodup_singleton _, fun a ha b hb heq => ?_⟩
      obtain ⟨r, hr, rfl⟩ := mem_map.mp ha
      exact hid r hr (heq.trans (mem_singleton.mp hb))
    · intro r hr
      rcases mem_append.mp hr with hr | hr
      · exact lt_of_lt_of_le (h.identified.bounded r hr) (le_max_left _ _)
      rw [mem_singleton.mp hr]
      exact Nat.le_max_right _ _
    · rw [map_append, nodup_append]
      refine ⟨h.identified.uuids, nodup_singleton _, fun a ha b hb heq => ?_⟩
      obtain ⟨r, hr, rfl⟩ := mem_map.mp ha
      exact huuid r hr (heq.trans (mem_singleton.mp hb))
    · intro r hr
      rcases mem_append.mp hr with hr | hr
      · exact h.identified.stables r hr
      rw [mem_singleton.mp hr]
      exact hstable
    intro r hr
    rcases mem_append.mp hr with hr | hr
    · exact h.identified.unmarked r hr
    rw [mem_singleton.mp hr]
    exact hunmarked
  unfold MobileDb.insertRow
  split
  · next hroot =>
      have hkey : row.key? = none := by
        unfold ItemRow.key?
        rw [hroot]
      have hsame := hcarries
        { db with items := db.items ++ [row], nextId := max db.nextId (row.id + 1) } id
        (fun _ => rfl) (map_id _).symm
      rw [hkey] at hsame
      apply h.advances hids le_rfl
      · intro r hr
        rcases mem_append.mp hr with hr | hr
        · exact Or.inr (Or.inl ⟨r, hr, rfl, rfl, rfl⟩)
        rw [mem_singleton.mp hr]
        exact Or.inl hkey
      · intro k hk
        exact Or.inl (((hsame k).mp hk).resolve_right nofun)
      · intro k hk
        exact Or.inl ((hsame k).mpr (Or.inl hk))
      · intro k n hn
        refine ⟨Or.inl hn, fun hk => ?_⟩
        exact h.sound.apart k n hn (((hsame k).mp hk).resolve_right nofun)
      intro k n hn
      exact Or.inl hn
  have hsame := hcarries
    ((bump { db with
      items := db.items ++ [row], nextId := max db.nextId (row.id + 1) } row.id).clearTombstones
      row)
    (fun r => if r.id = row.id then { r with changeSeq := db.counter + 1 } else r)
    (fun r => by split <;> rfl) rfl
  have hids' := hids.map (fun r _ => by split <;> exact ⟨rfl, rfl, rfl, rfl, rfl⟩)
    (rfl : ((bump { db with
      items := db.items ++ [row], nextId := max db.nextId (row.id + 1) } row.id).clearTombstones
      row).items = _) le_rfl
  apply h.advances hids' (Nat.le_succ _)
  · intro r' hr'
    obtain ⟨r, hr, rfl⟩ := mem_map.mp hr'
    rcases mem_append.mp hr with hr | hr
    · rw [if_neg (hid r hr)]
      exact Or.inr (Or.inl ⟨r, hr, rfl, rfl, rfl⟩)
    rw [mem_singleton.mp hr, if_pos rfl]
    exact Or.inr (Or.inr ⟨Nat.lt_succ_self _, le_rfl⟩)
  · intro k hk
    rcases (hsame k).mp hk with hk | hk
    · exact Or.inl hk
    · exact Or.inr (hkind k hk)
  · intro k hk
    exact Or.inl ((hsame k).mpr (Or.inl hk))
  · intro k n hn
    obtain ⟨hold, hkey⟩ := (clearTombstones_retired hstable).mp hn
    refine ⟨Or.inl hold, fun hk => ?_⟩
    exact h.sound.apart k n hold (((hsame k).mp hk).resolve_right hkey)
  intro k n hn
  by_cases hkey : row.key? = some k
  · exact Or.inr ((hsame k).mpr (Or.inr hkey))
  · exact Or.inl ((clearTombstones_retired hstable).mpr ⟨hn, hkey⟩)

/-! ## Updates -/

/-- What the id retirement of an update leaves, `mid` being the rows already
updated. -/
structure Retires (db mid mid' : MobileDb) (old : ItemRow) : Prop where
  items : mid'.items = mid.items
  nextId : mid'.nextId = mid.nextId
  counter : db.counter ≤ mid'.counter
  retired : ∀ k n, mid'.feed.retired k n →
    db.feed.retired k n ∨ old.key? = some k ∧ n ≤ mid'.counter ∧ ¬ mid.feed.Carries k
  kept : ∀ k n, db.feed.retired k n → mid'.feed.retired k n
  gone : ∀ k, old.key? = some k →
    mid.feed.Carries k ∨ ∃ n, mid'.feed.retired k n ∧ db.counter < n

theorem setRow_ids (db : MobileDb) (new : ItemRow) : (db.setRow new).items.map ItemRow.id = db.items.map ItemRow.id := by
  unfold MobileDb.setRow
  rw [map_map]
  refine map_congr_left fun row _ => ?_
  rw [Function.comp_apply]
  split
  · next hid => exact hid.symm
  · rfl

theorem mem_setRow (hnew : ∃ row ∈ db.items, row.id = new.id) :
    row ∈ (db.setRow new).items ↔ row = new ∨ row ∈ db.items ∧ row.id ≠ new.id := by
  unfold MobileDb.setRow
  rw [mem_map]
  constructor
  · rintro ⟨r, hr, rfl⟩
    split
    · exact Or.inl rfl
    · next hid => exact Or.inr ⟨hr, hid⟩
  rintro (rfl | ⟨hrow, hid⟩)
  · obtain ⟨r, hr, hid⟩ := hnew
    exact ⟨r, hr, if_pos hid⟩
  · exact ⟨row, hrow, if_neg hid⟩

theorem Kept.retires (h : Kept kindOf db) (hold : db.row? old.id = some old)
    (hid : new.id = old.id) (htype : new.type = old.type) (hstable : new.type = .file ↔ new.stableUuid.isSome) :
    Retires db (db.setRow new) ((db.setRow new).tombstoneOnIdRetirement old new) old := by
  have hmem : old ∈ db.items := (row?_some hold).1
  have hset : ∀ row, row ∈ (db.setRow new).items ↔ row = new ∨ row ∈ db.items ∧ row.id ≠ old.id := by
    intro row
    rw [← hid]
    exact mem_setRow ⟨old, hmem, hid.symm⟩
  have hquiet : (∀ k, old.key? = some k → (db.setRow new).feed.Carries k) →
      Retires db (db.setRow new) (db.setRow new) old := fun hcarried =>
    { items := rfl
      nextId := rfl
      counter := le_rfl
      retired := fun k n hn => Or.inl hn
      kept := fun k n hn => hn
      gone := fun k hk => Or.inl (hcarried k hk) }
  unfold MobileDb.tombstoneOnIdRetirement
  split
  · next hguard =>
      have hstables : ∀ row ∈ (db.setRow new).items, row.type = .file ↔ row.stableUuid.isSome := by
        intro row hrow
        rcases (hset row).mp hrow with rfl | ⟨hrow, -⟩
        · exact hstable
        · exact h.identified.stables row hrow
      have huuids : old.type = .dir → ∀ row ∈ (db.setRow new).items, row.uuid ≠ old.uuid := by
        intro hdir row hrow huuid
        rcases (hset row).mp hrow with rfl | ⟨hrow, hne⟩
        · rcases hguard.2 with ⟨hfile, -⟩ | ⟨-, hne⟩
          · rw [hdir] at hfile
            cases hfile
          · exact hne huuid.symm
        · exact hne (congrArg ItemRow.id (h.identified.eq_of_uuid hrow hmem huuid))
      rcases retireId_cases _ old hstables huuids with ⟨hcarried, heq⟩ | ⟨k, hkey, hcarried, heq⟩
      · rw [heq]
        exact hquiet hcarried
      rw [heq]
      constructor
      · rfl
      · rfl
      · exact Nat.le_succ _
      · intro k' n hn
        rcases feed_retire_retired.mp hn with ⟨rfl, rfl⟩ | ⟨-, hn⟩
        · exact Or.inr ⟨hkey, le_rfl, hcarried⟩
        · exact Or.inl hn
      · intro k' n hn
        refine feed_retire_retired.mpr (Or.inr ⟨?_, hn⟩)
        rintro rfl
        exact h.sound.apart k' n hn (carries_iff.mpr ⟨old, hmem, hkey⟩)
      intro k' hk'
      obtain rfl : k = k' := Option.some.inj (hkey.symm.trans hk')
      exact Or.inr ⟨_, feed_retire_retired.mpr (Or.inl ⟨rfl, rfl⟩), Nat.lt_succ_self _⟩
  next hguard =>
    -- the row still answers to the id
    apply hquiet
    intro k hk
    refine carries_iff.mpr ⟨new, (hset new).mpr (Or.inl rfl), ?_⟩
    have hunmarked := h.identified.unmarked old hmem
    obtain ⟨kind, id⟩ := k
    cases kind with
    | root => exact absurd hk key?_root
    | dir =>
      obtain ⟨hdir, huuid⟩ := key?_dir.mp hk
      refine key?_dir.mpr ⟨htype.trans hdir, ?_⟩
      by_contra hne
      exact hguard ⟨hunmarked, Or.inr ⟨hdir, fun heq => hne (heq ▸ huuid)⟩⟩
    | file =>
      obtain ⟨hfile, hsome⟩ := key?_file.mp hk
      refine key?_file.mpr ⟨htype.trans hfile, ?_⟩
      by_contra hne
      exact hguard ⟨hunmarked, Or.inl ⟨hfile, fun heq => hne (heq ▸ hsome)⟩⟩

theorem Identified.rewrite (h : Identified db) (hold : db.row? old.id = some old)
    (huuid : ∀ row ∈ db.items, row.id ≠ old.id → row.uuid ≠ item.uuid)
    (hstable : item.type = .file ↔ item.stableUuid.isSome) :
    Identified (db.setRow (old.rewrite item)) := by
  have hmem : old ∈ db.items := (row?_some hold).1
  have hset : ∀ row, row ∈ (db.setRow (old.rewrite item)).items →
      row = old.rewrite item ∨ row ∈ db.items ∧ row.id ≠ old.id := by
    have hid : ∃ row ∈ db.items, row.id = (old.rewrite item).id := ⟨old, hmem, rfl⟩
    exact fun row hrow => (mem_setRow hid).mp hrow
  have hmap := setRow_ids db (old.rewrite item)
  constructor
  · rw [hmap]
    exact h.ids
  · intro row hrow
    rcases hset row hrow with rfl | ⟨hrow, -⟩
    · exact h.bounded old hmem
    · exact h.bounded row hrow
  · refine (nodup_map_iff_inj_on (hmap ▸ h.ids).of_map).mpr ?_
    intro a ha b hb heq
    rcases hset a ha with rfl | ⟨ha, hane⟩
    · rcases hset b hb with rfl | ⟨hb, hbne⟩
      · rfl
      · exact absurd heq.symm (huuid b hb hbne)
    rcases hset b hb with rfl | ⟨hb, -⟩
    · exact absurd heq (huuid a ha hane)
    · exact h.eq_of_uuid ha hb heq
  · intro row hrow
    rcases hset row hrow with rfl | ⟨hrow, -⟩
    · exact hstable
    · exact h.stables row hrow
  intro row hrow
  rcases hset row hrow with rfl | ⟨hrow, -⟩
  · exact h.unmarked old hmem
  · exact h.unmarked row hrow

/-- A row rewritten to a record: the id it answered to is retired, the row is
stamped, and the id it answers to now is not gone. -/
theorem Kept.rewriteRow (h : Kept kindOf db) (hold : db.row? old.id = some old) (htype : item.type = old.type)
    (huuid : ∀ row ∈ db.items, row.id ≠ old.id → row.uuid ≠ item.uuid)
    (hstable : item.type = .file ↔ item.stableUuid.isSome)
    (hkind : ∀ k, (old.rewrite item).key? = some k → kindOf k.2 = k.1) :
    Advances kindOf db
      (((db.setRow (old.rewrite item)).tombstoneOnIdRetirement old (old.rewrite item)).bumpOnUpdate
        old (old.rewrite item)) := by
  have hmem : old ∈ db.items := (row?_some hold).1
  have hretires := h.retires hold (rfl : (old.rewrite item).id = old.id) htype hstable
  have hset : ∀ row, row ∈ (db.setRow (old.rewrite item)).items ↔
      row = old.rewrite item ∨ row ∈ db.items ∧ row.id ≠ old.id :=
    fun row => mem_setRow ⟨old, hmem, rfl⟩
  unfold MobileDb.bumpOnUpdate
  split
  · generalize (db.setRow (old.rewrite item)).tombstoneOnIdRetirement old (old.rewrite item) = mid
      at hretires ⊢
    have hids := h.identified.rewrite hold huuid hstable
    have hitems : ((mid.bump old.id).clearTombstones (old.rewrite item)).items =
        (db.setRow (old.rewrite item)).items.map fun row =>
          if row.id = old.id then { row with changeSeq := mid.counter + 1 } else row := by
      rw [← hretires.items]
      rfl
    have hcarries : ∀ k, ((mid.bump old.id).clearTombstones (old.rewrite item)).feed.Carries k ↔
        (db.setRow (old.rewrite item)).feed.Carries k := by
      intro k
      rw [carries_iff, carries_iff, hitems]
      constructor
      · rintro ⟨row', hrow', hkey⟩
        obtain ⟨row, hrow, rfl⟩ := mem_map.mp hrow'
        refine ⟨row, hrow, ?_⟩
        rw [← hkey]
        split <;> rfl
      rintro ⟨row, hrow, hkey⟩
      refine ⟨_, mem_map_of_mem hrow, ?_⟩
      rw [← hkey]
      split <;> rfl
    have hback : ∀ k, (db.setRow (old.rewrite item)).feed.Carries k →
        (old.rewrite item).key? = some k ∨ db.feed.Carries k := by
      intro k hk
      obtain ⟨row, hrow, hkey⟩ := carries_iff.mp hk
      rcases (hset row).mp hrow with rfl | ⟨hrow, -⟩
      · exact Or.inl hkey
      · exact Or.inr (carries_iff.mpr ⟨row, hrow, hkey⟩)
    have hnew : ∀ k, (old.rewrite item).key? = some k →
        (db.setRow (old.rewrite item)).feed.Carries k := fun k hk =>
      carries_iff.mpr ⟨_, (hset _).mpr (Or.inl rfl), hk⟩
    have hretired : ∀ k n,
        ((mid.bump old.id).clearTombstones (old.rewrite item)).feed.retired k n ↔
          mid.feed.retired k n ∧ (old.rewrite item).key? ≠ some k :=
      fun k n => clearTombstones_retired hstable
    have hids' := hids.map (fun row _ => by split <;> exact ⟨rfl, rfl, rfl, rfl, rfl⟩) hitems
      (le_of_eq hretires.nextId.symm)
    apply h.advances hids' (Nat.le_succ_of_le hretires.counter)
    · intro row' hrow'
      rw [hitems] at hrow'
      obtain ⟨row, hrow, rfl⟩ := mem_map.mp hrow'
      rcases (hset row).mp hrow with rfl | ⟨hrow, hne⟩
      · refine Or.inr (Or.inr ?_)
        have hid : (old.rewrite item).id = old.id := rfl
        rw [if_pos hid]
        exact ⟨Nat.lt_succ_of_le hretires.counter, le_rfl⟩
      rw [if_neg hne]
      exact Or.inr (Or.inl ⟨row, hrow, rfl, rfl, rfl⟩)
    · intro k hk
      rcases hback k ((hcarries k).mp hk) with hkey | hk
      · exact Or.inr (hkind k hkey)
      · exact Or.inl hk
    · intro k hk
      rw [hcarries]
      obtain ⟨row, hrow, hkey⟩ := carries_iff.mp hk
      by_cases hid : row.id = old.id
      · obtain rfl := h.identified.eq_of_id hrow hmem hid
        rcases hretires.gone k hkey with hcarried | ⟨n, hn, hlt⟩
        · exact Or.inl hcarried
        by_cases hkey' : (row.rewrite item).key? = some k
        · exact Or.inl (hnew k hkey')
        · exact Or.inr ⟨n, (hretired k n).mpr ⟨hn, hkey'⟩, hlt⟩
      · exact Or.inl (carries_iff.mpr ⟨row, (hset row).mpr (Or.inr ⟨hrow, hid⟩), hkey⟩)
    · intro k n hn
      rw [hcarries]
      obtain ⟨hn, hkey⟩ := (hretired k n).mp hn
      rcases hretires.retired k n hn with hold' | ⟨hold', hle, hcarried⟩
      · refine ⟨Or.inl hold', fun hk => ?_⟩
        exact h.sound.apart k n hold' ((hback k hk).resolve_left hkey)
      refine ⟨Or.inr ⟨carries_iff.mpr ⟨old, hmem, hold'⟩, ?_⟩, hcarried⟩
      exact Nat.le_succ_of_le hle
    intro k n hn
    rw [hcarries]
    by_cases hkey : (old.rewrite item).key? = some k
    · exact Or.inr (hnew k hkey)
    · exact Or.inl ((hretired k n).mpr ⟨hretires.kept k n hn, hkey⟩)
  next hsame =>
    -- nothing a replica sees changed
    have huuid' : old.uuid = item.uuid := by
      by_contra hne
      exact hsame (Or.inl hne)
    have hstable' : old.stableUuid = item.stableUuid := by
      by_contra hne
      exact hsame (Or.inr (Or.inl hne))
    have hparent : old.parent = item.parent := by
      by_contra hne
      exact hsame (Or.inr (Or.inr (Or.inl hne)))
    have htrashed : old.trashed = item.trashed := by
      by_contra hne
      exact hsame (Or.inr (Or.inr (Or.inr hne)))
    have hguard : ¬ (old.pendingUploadAt = none ∧
        (old.type = .file ∧ old.stableUuid ≠ (old.rewrite item).stableUuid ∨
          old.type = .dir ∧ old.uuid ≠ (old.rewrite item).uuid)) := by
      rintro ⟨-, ⟨-, hne⟩ | ⟨-, hne⟩⟩
      · exact hne hstable'
      · exact hne huuid'
    unfold MobileDb.tombstoneOnIdRetirement
    rw [if_neg hguard]
    have hids : (old.rewrite item).SameIds old := ⟨rfl, huuid'.symm, hstable'.symm, htype, rfl⟩
    apply h.setRow hold hids
    refine Or.inr ⟨?_, rfl⟩
    unfold ItemRow.object ItemRow.rewrite
    rw [← huuid', ← hstable', ← hparent, ← htrashed, htype]

end SyncEngine.MobileCache
