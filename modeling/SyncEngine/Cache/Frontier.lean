import SyncEngine.Cache.Drain

/-! # How far a drain takes the watermark

A drain that asks for no resync leaves the watermark at or past every id it
consumed, and it never takes the watermark to an id it was not given.
-/

namespace SyncEngine.Cache

open List SyncEngine.Collections

variable {ε : Type} {limit : ℕ+}

def CacheDb.level (db : CacheDb ε) : Nat := (db.watermark.getD 0).toNat

variable {a b : CacheDb ε} {i : DriveId} {burst : List (Option DriveId × ε)} {bound : Nat}

theorem level_of_reach (h : reach a.watermark ≤ reach b.watermark) :
    a.level ≤ b.level := by
  unfold CacheDb.level
  cases ha : a.watermark with
  | none => exact Nat.zero_le _
  | some v =>
    rw [ha] at h
    cases hb : b.watermark with
    | none =>
      rw [hb] at h
      simp [reach] at h
    | some w =>
      rw [hb] at h
      simp only [reach] at h
      simp only [Option.getD_some]
      omega

variable {db : CacheDb ε}

theorem le_level_of_reach {id : DriveId} (h : id.toNat < reach db.watermark) :
    id.toNat ≤ db.level := by
  unfold CacheDb.level
  cases hw : db.watermark with
  | none =>
    rw [hw] at h
    cases h
  | some w =>
    rw [hw] at h
    simp only [reach] at h
    simp only [Option.getD_some]
    omega

/-! ## Within a batch -/

section Rows

variable {bulk : Bool} {outcome : EventRow ε → ApplyOutcome} {watermark : Option DriveId}
  {rows : List (EventRow ε)} {cursor after : DrainCursor} {db : CacheDb ε}
  {trace : List (CacheDb ε)}

theorem applyRows_behind
    (h : applyRows bulk outcome watermark rows cursor db = some (after, trace))
    (hstart : reach watermark ≤ reach cursor.frontier) (hresync : after.resyncNeeded = false) :
    ∀ row ∈ rows, ∀ id, row.driveMessageId = some id → id.toNat < reach after.frontier := by
  have hend : reach watermark ≤ reach after.frontier := le_trans hstart (applyRows_reach h)
  refine applyRows_induct
    (P := fun rows _ _ after _ => reach watermark ≤ reach after.frontier →
      after.resyncNeeded = false → ∀ row ∈ rows, ∀ id, row.driveMessageId = some id →
        id.toNat < reach after.frontier) ?_ ?_ ?_ ?_ h hend hresync
  · intro cursor db _ _ row hrow
    cases hrow
  · intro row rest cursor db after trace hskip ih hend hresync other hother id hid
    rcases mem_cons.mp hother with rfl | hother
    · obtain ⟨i, w, hi, hw, hle⟩ := alreadyApplied_iff.mp hskip
      have hsame : i = id := Option.some.inj (hi.symm.trans hid)
      rw [hw] at hend
      rw [← hsame]
      exact lt_of_lt_of_le (Nat.lt_succ_of_le hle) hend
    · exact ih hend hresync other hother id hid
  · intro row rest cursor db marks after trace htail ih hend hresync other hother id hid
    rcases mem_cons.mp hother with rfl | hother
    · rw [hid] at htail
      have hcursor : (cursor.advance id).resyncNeeded = false := by
        rw [Bool.eq_false_iff]
        intro hset
        exact absurd (applyRows_resyncNeeded htail hset) (Bool.eq_false_iff.mp hresync)
      have hmove : reach (cursor.advance id).frontier ≤ reach after.frontier :=
        applyRows_reach htail
      rw [(DrainCursor.advance_of_resyncNeeded hcursor).1] at hmove
      exact hmove
    · exact ih hend hresync other hother id hid
  intro row rest cursor db marks after trace htail _ _ hresync
  have hset : after.resyncNeeded := applyRows_resyncNeeded htail rfl
  rw [hresync] at hset
  cases hset

theorem applyRows_frontier
    (h : applyRows bulk outcome watermark rows cursor db = some (after, trace)) :
    after.frontier = cursor.frontier ∨ ∃ row ∈ rows, row.driveMessageId = after.frontier := by
  refine applyRows_induct
    (P := fun rows cursor _ after _ => after.frontier = cursor.frontier ∨
      ∃ row ∈ rows, row.driveMessageId = after.frontier) ?_ ?_ ?_ ?_ h
  · intro cursor db
    exact Or.inl rfl
  · intro row rest cursor db after trace _ ih
    exact ih.imp_right fun ⟨other, hother, hid⟩ => ⟨other, mem_cons_of_mem row hother, hid⟩
  · intro row rest cursor db marks after trace _ ih
    rcases ih with hstay | ⟨other, hother, hid⟩
    · cases hrow : row.driveMessageId with
      | none =>
        rw [hrow] at hstay
        exact Or.inl hstay
      | some id =>
        rw [hrow] at hstay
        by_cases hadvance : (cursor.advance id).frontier = cursor.frontier
        · exact Or.inl (hstay.trans hadvance)
        refine Or.inr ⟨row, mem_cons_self, ?_⟩
        have hmoved : (cursor.advance id).frontier = some id := by
          unfold DrainCursor.advance at hadvance ⊢
          split at hadvance
          · rename_i hrun
            rw [if_pos hrun]
          · exact absurd rfl hadvance
        rw [hrow]
        exact hmoved.symm.trans hstay.symm
    · exact Or.inr ⟨other, mem_cons_of_mem row hother, hid⟩
  intro row rest cursor db marks after trace _ ih
  exact ih.imp_right fun ⟨other, hother, hid⟩ => ⟨other, mem_cons_of_mem row hother, hid⟩

end Rows

/-! ## From one state to a later one -/

/-- What the transactions of a drain do to the ids of the store: with no resync
asked for, those that are gone are behind the watermark. -/
structure Paces (a b : CacheDb ε) : Prop where
  rows : ∀ row ∈ b.events.rows, row ∈ a.events.rows
  flag : a.needsResync = true → b.needsResync = true
  reach : reach a.watermark ≤ reach b.watermark
  source : b.watermark = a.watermark ∨
    ∃ row ∈ a.events.rows, row.driveMessageId = b.watermark
  behind : b.needsResync = false → ∀ row ∈ a.events.rows, row ∉ b.events.rows →
    ∀ id, row.driveMessageId = some id → id.toNat < Cache.reach b.watermark

namespace Paces

theorem refl (a : CacheDb ε) : Paces a a where
  rows _ hrow := hrow
  flag hflag := hflag
  reach := le_refl _
  source := Or.inl rfl
  behind _ _ hrow hgone := absurd hrow hgone

variable {a b : CacheDb ε}

theorem clear (h : Paces a b) (hclear : b.needsResync = false) :
    a.needsResync = false := by
  rw [Bool.eq_false_iff]
  intro hset
  exact absurd (h.flag hset) (Bool.eq_false_iff.mp hclear)

theorem trans {c : CacheDb ε} (h : Paces a b) (h' : Paces b c) : Paces a c where
  rows row hrow := h.rows row (h'.rows row hrow)
  flag hflag := h'.flag (h.flag hflag)
  reach := le_trans h.reach h'.reach
  source := by
    rcases h'.source with hstay | ⟨row, hrow, hid⟩
    · rw [hstay]
      exact h.source
    · exact Or.inr ⟨row, h.rows row hrow, hid⟩
  behind hclear row hrow hgone id hid := by
    by_cases hmid : row ∈ b.events.rows
    · exact h'.behind hclear row hmid hgone id hid
    · exact lt_of_lt_of_le (h.behind (h'.clear hclear) row hrow hmid id hid) h'.reach

theorem of_grows (h : Grows a b) : Paces a b where
  rows row hrow := h.events ▸ hrow
  flag := h.flag
  reach := by rw [h.watermark]
  source := Or.inl h.watermark
  behind _ row hrow hgone := absurd (h.events.symm ▸ hrow) hgone

theorem of_chained {trace : List (CacheDb ε)} (h : Chained Paces a trace) :
    ∀ t ∈ trace, Paces a t :=
  h.invariant (refl a) fun _ _ => trans

end Paces

section Batch

variable {bulk : Bool} {faults : Faults ε} {attempt : Nat} {watermark : Option DriveId}
  {loaded : List (EventRow ε)} {cursor after : DrainCursor} {db : CacheDb ε}
  {applied trace : List (CacheDb ε)}

theorem batchCommit_paces (hsync : Synced watermark cursor db) (hloaded : ∀ row ∈ loaded, row ∈ db.events.rows)
    (hrows : applyRows bulk (faults.applies attempt) watermark (readable faults attempt loaded)
      (startCursor faults attempt loaded cursor) db = some (after, applied)) :
    Paces (finish db applied)
      (batchCommit faults attempt watermark loaded cursor after (finish db applied)) := by
  have hgrows := Grows.finish (applyRows_grows hrows)
  have hmark := batchCommit_watermark hrows hsync
  have hkeeps := batchCommit_keeps hrows hsync hloaded
  have hstart : reach watermark ≤ reach (startCursor faults attempt loaded cursor).frontier := by
    rw [startCursor_frontier]
    exact hsync.start
  refine ⟨fun row hrow => (EventStore.mem_delete.mp hrow).1, fun hflag => ?_, hkeeps.watermark,
    ?_, fun hclear row hrow hgone id hid => ?_⟩
  · show ((finish db applied).needsResync || after.resyncNeeded)
    rw [hflag]
    rfl
  · rw [hmark, hgrows.watermark, hgrows.events, hsync.frontier]
    rcases applyRows_frontier hrows with hstay | ⟨row, hrow, hid⟩
    · rw [startCursor_frontier] at hstay
      exact Or.inl hstay
    · exact Or.inr ⟨row, hloaded row (mem_filter.mp hrow).1, hid⟩
  have hboth : (finish db applied).needsResync = false ∧ after.resyncNeeded = false := by
    simpa [batchCommit, CacheDb.commitDrainBatch] using hclear
  rcases batchCommit_consumed hrows hloaded hrow hgone with hset | htaken
  · cases hboth.2.symm.trans hset
  rw [hmark]
  exact applyRows_behind hrows hstart hboth.2 row htaken id hid

theorem applyDrainBatch_paces (hsync : Synced watermark cursor db) (hloaded : ∀ row ∈ loaded, row ∈ db.events.rows)
    (h : applyDrainBatch bulk faults attempt watermark loaded cursor db =
      .committed after trace) : Chained Paces db trace := by
  obtain ⟨applied, hrows, rfl⟩ := applyDrainBatch_committed h
  have hchain : Chained Paces db applied :=
    (applyRows_grows hrows).mono fun _ _ => Paces.of_grows
  have hgrows := Grows.finish (applyRows_grows hrows)
  have hpaces := batchCommit_paces hsync hloaded hrows
  cases bulk with
  | true => exact Chained.cons ((Paces.of_grows hgrows).trans hpaces) (Chained.nil _)
  | false => exact hchain.append (Chained.cons hpaces (Chained.nil _))

end Batch

theorem drainPersisted_paces (faults : Faults ε) (db : CacheDb ε) :
    Chained Paces db (drainPersisted limit faults db).trace :=
  drainLoop_trace (P := fun db trace => Chained Paces db trace)
    (fun _ _ _ hfirst hsecond => hfirst.append hsecond)
    (fun _ _ hchain => hchain.mono fun _ _ => Paces.of_grows)
    (fun hsync hbatch => applyDrainBatch_paces hsync
      (fun _ => EventStore.mem_of_mem_loadBatch) hbatch)
    _ _ _ db (synced_start db)

variable {faults : Faults ε}

/-- Where every write succeeds and no resync is asked for, a drain takes the
watermark past the whole store. -/
theorem drainPersisted_behind (hbegins : ∀ k, faults.begins k)
    (hcommits : ∀ k, faults.commits k) (db : CacheDb ε)
    (hclear : (finish db (drainPersisted limit faults db).trace).needsResync = false) :
    ∀ row ∈ db.events.rows, ∀ id, row.driveMessageId = some id →
      id.toNat ≤ (finish db (drainPersisted limit faults db).trace).level := by
  intro row hrow id hid
  have hpaces : Paces db (finish db (drainPersisted limit faults db).trace) :=
    finish_mem (Paces.refl db) (Paces.of_chained (drainPersisted_paces faults db))
  have hempty : (finish db (drainPersisted limit faults db).trace).events.rows = [] :=
    ((drainLoop_ends _ _ _ db (synced_start db) (Nat.lt_succ_self _)).2 hbegins hcommits).2
  have hgone : row ∉ (finish db (drainPersisted limit faults db).trace).events.rows := by
    rw [hempty]
    exact not_mem_nil
  exact le_level_of_reach (hpaces.behind hclear row hrow hgone id hid)

/-! ## A burst and its drain -/

/-- The drive ids that wait in the table. -/
def CacheDb.Waits (db : CacheDb ε) (id : DriveId) : Prop :=
  ∃ row ∈ db.events.rows, row.driveMessageId = some id

theorem EventStore.insert_ids {store : EventStore ε} {id : Option DriveId} {event : ε}
    : (∃ row ∈ (store.insert id event).rows, row.driveMessageId = some i) ↔
      (∃ row ∈ store.rows, row.driveMessageId = some i) ∨ id = some i := by
  unfold EventStore.insert
  split
  · constructor
    · rintro ⟨row, hrow, hid⟩
      rcases mem_append.mp hrow with hrow | hrow
      · exact Or.inl ⟨row, hrow, hid⟩
      rw [mem_singleton.mp hrow] at hid
      exact Or.inr hid
    rintro (⟨row, hrow, hid⟩ | hid)
    · exact ⟨row, mem_append_left _ hrow, hid⟩
    · exact ⟨_, mem_append_right _ (mem_singleton.mpr rfl), hid⟩
  rename_i hstored
  constructor
  · exact Or.inl
  rintro (hmem | hid)
  · exact hmem
  rw [hid, stores, Option.any_some, Bool.not_eq_false, contains_iff_mem] at hstored
  exact mem_filterMap.mp hstored

theorem waits_insertEventsBatch
    : (db.insertEventsBatch burst).Waits i ↔
      db.Waits i ∨ ∃ e ∈ burst, e.1 = some i := by
  show (∃ row ∈ (burst.foldl (fun store e => store.insert e.1 e.2) db.events).rows,
    row.driveMessageId = some i) ↔ (∃ row ∈ db.events.rows, row.driveMessageId = some i) ∨ _
  generalize db.events = store
  induction burst generalizing store with
  | nil => simp
  | cons e burst ih =>
    rw [foldl_cons, ih, EventStore.insert_ids, exists_mem_cons_iff, or_assoc]

/-- Neither the watermark nor an id in the table is past a bound. -/
structure CacheDb.Within (db : CacheDb ε) (bound : Nat) : Prop where
  level : db.level ≤ bound
  waits : ∀ id, db.Waits id → id.toNat ≤ bound

theorem CacheDb.Within.mono {bound' : Nat} (h : db.Within bound)
    (hle : bound ≤ bound') : db.Within bound' :=
  ⟨le_trans h.level hle, fun id hid => le_trans (h.waits id hid) hle⟩

theorem Paces.within (h : Paces a b) (ha : a.Within bound) :
    b.Within bound where
  level := by
    unfold CacheDb.level
    rcases h.source with hstay | ⟨row, hrow, hid⟩
    · rw [hstay]
      exact ha.level
    cases hmark : b.watermark with
    | none => exact Nat.zero_le bound
    | some w => exact ha.waits w ⟨row, hrow, hid.trans hmark⟩
  waits id := by
    rintro ⟨row, hrow, hid⟩
    exact ha.waits id ⟨row, h.rows row hrow, hid⟩

theorem drainPending_eq (burst : List (Option DriveId × ε)) (faults : Faults ε) (db : CacheDb ε) :
    drainPending limit burst true true faults false true db = db.insertEventsBatch burst ::
      (drainPersisted limit faults (db.insertEventsBatch burst)).trace := by
  unfold drainPending persist
  simp [finish]

theorem drainPending_paces
    : ∀ t ∈ drainPending limit burst true true faults false true db,
      Paces (db.insertEventsBatch burst) t := by
  intro t ht
  rw [drainPending_eq] at ht
  rcases mem_cons.mp ht with rfl | ht
  · exact Paces.refl _
  · exact Paces.of_chained (drainPersisted_paces faults _) t ht

theorem drainPending_finish (burst : List (Option DriveId × ε)) (faults : Faults ε)
    (db : CacheDb ε) : Paces (db.insertEventsBatch burst)
      (finish db (drainPending limit burst true true faults false true db)) := by
  rw [drainPending_eq, finish_cons]
  exact finish_mem (Paces.refl _) (Paces.of_chained (drainPersisted_paces faults _))

/-- A drain whose writes succeed takes the watermark past the burst and the table,
or asks for a resync. -/
theorem drainPending_behind (hbegins : ∀ k, faults.begins k)
    (hcommits : ∀ k, faults.commits k)
    (hclear : (finish db (drainPending limit burst true true faults false true db)).needsResync =
      false) :
    ∀ id, (db.insertEventsBatch burst).Waits id →
      id.toNat ≤ (finish db (drainPending limit burst true true faults false true db)).level := by
  intro id ⟨row, hrow, hid⟩
  rw [drainPending_eq, finish_cons] at hclear ⊢
  exact drainPersisted_behind hbegins hcommits _ hclear row hrow id hid

end SyncEngine.Cache
