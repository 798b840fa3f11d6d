import SyncEngine.Cache.Events

/-! # A drain loses no event silently

Between two batches the frontier of a drain is the watermark of the store. Within
a batch it runs ahead of it along ids that are all applied, or the cursor asks for
a resync; the batch then commits both at once. What a crash leaves is a state some
batch, or some event on its own, committed.
-/

namespace SyncEngine.Cache

open EventRow EventStore CacheDb List SyncEngine.Collections

variable {ε : Type} {limit : ℕ+}

/-- Some event of this drive id took effect. -/
def CacheDb.Applied (db : CacheDb ε) (id : DriveId) : Prop :=
  ∃ row ∈ db.applied, row.driveMessageId = some id

/-- The snapshot id of the last resync, or else the first id ever drained. -/
def floorOf (snapshot : Option DriveId) (drained : List (EventRow ε)) : Option DriveId :=
  snapshot.or (drained.findSome? driveMessageId)

def CacheDb.floor (db : CacheDb ε) : Option DriveId := floorOf db.snapshot db.drained

/-- A resync is asked for, or every id above the floor and at most the watermark
was applied. -/
def CacheDb.Covered (db : CacheDb ε) : Prop :=
  db.needsResync = true ∨ ∀ w, db.watermark = some w → ∃ f, db.floor = some f ∧
    ∀ id : DriveId, f.toNat < id.toNat → id.toNat ≤ w.toNat → db.Applied id

/-- From the floor every id up to the frontier is applied; with no frontier there
is no floor yet. -/
def Reaches (floor : Option DriveId) (applied : List (EventRow ε)) (frontier : Option DriveId) :
    Prop :=
  match frontier with
  | none => floor = none
  | some w => ∃ f, floor = some f ∧ ∀ id : DriveId, f.toNat < id.toNat → id.toNat ≤ w.toNat →
      ∃ row ∈ applied, row.driveMessageId = some id

/-- What every committed state keeps. -/
def CacheDb.Sound (db : CacheDb ε) : Prop :=
  db.needsResync = true ∨ Reaches db.floor db.applied db.watermark

variable {db : CacheDb ε}

theorem CacheDb.Sound.covered (h : db.Sound) : db.Covered := by
  rcases h with h | h
  · exact Or.inl h
  right
  intro w hw
  rw [hw] at h
  exact h

variable {frontier snapshot : Option DriveId} {drained : List (EventRow ε)} {row : EventRow ε} {a b : CacheDb ε}
    {burst : List (Option DriveId × ε)} {inserted : Bool}

theorem Reaches.mono {floor : Option DriveId} {before after : List (EventRow ε)}
    (h : Reaches floor before frontier) (hsub : before ⊆ after) : Reaches floor after frontier := by
  cases frontier with
  | none => exact h
  | some w =>
    obtain ⟨f, hf, hall⟩ := h
    refine ⟨f, hf, fun id hlo hhi => ?_⟩
    obtain ⟨row, hrow, hid⟩ := hall id hlo hhi
    exact ⟨row, hsub hrow, hid⟩

theorem floorOf_append {more : List (EventRow ε)} {f : DriveId} (h : floorOf snapshot drained = some f) :
    floorOf snapshot (drained ++ more) = some f := by
  unfold floorOf at h ⊢
  cases snapshot with
  | some s => exact h
  | none =>
    rw [Option.none_or] at h ⊢
    rw [findSome?_append, h]
    rfl

theorem floorOf_synthetic
    (h : row.driveMessageId = none) :
    floorOf snapshot (drained ++ [row]) = floorOf snapshot drained := by
  unfold floorOf
  rw [findSome?_append]
  simp [h]

theorem floorOf_first
    {id : DriveId} (hnone : floorOf snapshot drained = none)
    (h : row.driveMessageId = some id) : floorOf snapshot (drained ++ [row]) = some id := by
  unfold floorOf at hnone ⊢
  rw [Option.or_eq_none_iff] at hnone
  rw [findSome?_append, hnone.1, hnone.2]
  simp [h]

/-! ## How far a watermark is -/

def reach : Option DriveId → Nat
  | none => 0
  | some id => id.toNat + 1

theorem reach_injective {a b : Option DriveId} (h : reach a = reach b) : a = b := by
  cases a with
  | none =>
    cases b with
    | none => rfl
    | some j => simp [reach] at h
  | some i =>
    cases b with
    | none => simp [reach] at h
    | some j =>
      have hij : i.toNat = j.toNat := by simpa [reach] using h
      rw [BitVec.toNat_inj.mp hij]

theorem alreadyApplied_iff {watermark : Option DriveId} :
    alreadyApplied watermark row ↔
      ∃ id w, row.driveMessageId = some id ∧ watermark = some w ∧ id.toNat ≤ w.toNat := by
  unfold alreadyApplied
  cases row.driveMessageId with
  | none => simp
  | some id => cases watermark <;> simp

theorem advancedTo_or {watermark before : Option DriveId}
    (hstart : reach watermark ≤ reach before) (hmove : reach before ≤ reach frontier) :
    (advancedTo watermark before frontier).or before = frontier := by
  unfold advancedTo
  cases frontier with
  | none =>
    have hbefore : before = none := reach_injective (by simpa [reach] using hmove)
    simp [hbefore]
  | some f =>
    by_cases heq : some f = before
    · simp [heq]
    have hne : reach before ≠ reach (some f) := fun h => heq (reach_injective h).symm
    have hpast : watermark.all (fun w => w.toNat < f.toNat) := by
      cases watermark with
      | none => rfl
      | some w =>
        have hlt : reach (some w) < reach (some f) := by omega
        simpa [reach] using hlt
    dsimp only
    rw [if_pos ⟨heq, hpast⟩]
    rfl

namespace DrainCursor

variable {id : DriveId}

theorem advance_of_resyncNeeded {cursor : DrainCursor} (h : (cursor.advance id).resyncNeeded = false) :
    cursor.advance id = { cursor with frontier := some id } ∧
      ∀ f, cursor.frontier = some f → f.toNat + 1 = id.toNat := by
  unfold advance at h ⊢
  split at h
  · rename_i hrun
    rw [if_pos hrun]
    refine ⟨rfl, fun f hf => ?_⟩
    rw [hf] at hrun
    simp only [Bool.and_eq_true, Option.all_some, decide_eq_true_eq] at hrun
    exact checkedSucc_eq_some.mp hrun.2
  · cases h

theorem resyncNeeded_advance {cursor : DrainCursor}
    (h : cursor.resyncNeeded) : (cursor.advance id).resyncNeeded := by
  unfold advance
  split
  · exact h
  · rfl

theorem reach_advance (cursor : DrainCursor) (id : DriveId) :
    reach cursor.frontier ≤ reach (cursor.advance id).frontier := by
  unfold advance
  split
  · rename_i hrun
    cases hf : cursor.frontier with
    | none => simp [reach]
    | some f =>
      rw [hf] at hrun
      simp only [Bool.and_eq_true, Option.all_some, decide_eq_true_eq] at hrun
      have := checkedSucc_eq_some.mp hrun.2
      simp only [reach]
      omega
  · exact le_refl _

end DrainCursor

/-! ## Applying the rows of a batch -/

/-- What an event of its own may change: nothing a drain decides by goes back. -/
structure Grows (a b : CacheDb ε) : Prop where
  events : b.events = a.events
  watermark : b.watermark = a.watermark
  drained : b.drained = a.drained
  snapshot : b.snapshot = a.snapshot
  applied : a.applied ⊆ b.applied
  flag : a.needsResync = true → b.needsResync = true

namespace Grows

theorem refl (a : CacheDb ε) : Grows a a := ⟨rfl, rfl, rfl, rfl, fun _ h => h, id⟩

variable {a b : CacheDb ε}

theorem trans {c : CacheDb ε} (h : Grows a b) (h' : Grows b c) : Grows a c where
  events := h'.events.trans h.events
  watermark := h'.watermark.trans h.watermark
  drained := h'.drained.trans h.drained
  snapshot := h'.snapshot.trans h.snapshot
  applied := List.Subset.trans h.applied h'.applied
  flag hflag := h'.flag (h.flag hflag)

theorem marked (db : CacheDb ε) (marks : Bool) : Grows db (db.marked marks) where
  events := rfl
  watermark := rfl
  drained := rfl
  snapshot := rfl
  applied _ h := h
  flag h := by simp [CacheDb.marked, h]

theorem apply (db : CacheDb ε) (row : EventRow ε) (marks : Bool) :
    Grows db (db.apply row marks) where
  events := rfl
  watermark := rfl
  drained := rfl
  snapshot := rfl
  applied := subset_append_left _ _
  flag h := by simp [CacheDb.apply, CacheDb.marked, h]

theorem floor (h : Grows a b) : b.floor = a.floor := by
  unfold CacheDb.floor
  rw [h.snapshot, h.drained]

theorem sound (h : Grows a b) (ha : a.Sound) : b.Sound := by
  rcases ha with hflag | hreach
  · exact Or.inl (h.flag hflag)
  right
  rw [h.floor, h.watermark]
  exact hreach.mono h.applied

theorem finish {db : CacheDb ε} {trace : List (CacheDb ε)} (h : Chained Grows db trace) :
    Grows db (Collections.finish db trace) :=
  finish_mem (refl db) (h.invariant (refl db) fun _ _ => trans)

end Grows

section Rows

variable {bulk : Bool} {outcome : EventRow ε → ApplyOutcome} {watermark : Option DriveId}

theorem applyRows_induct
    {P : List (EventRow ε) → DrainCursor → CacheDb ε → DrainCursor → List (CacheDb ε) → Prop}
    (nil : ∀ cursor db, P [] cursor db cursor [])
    (skip : ∀ row rest cursor db after trace, alreadyApplied watermark row →
      P rest cursor db after trace → P (row :: rest) cursor db after trace)
    (ok : ∀ row rest cursor db marks after trace,
      applyRows bulk outcome watermark rest (row.driveMessageId.elim cursor cursor.advance)
        (db.apply row marks) = some (after, trace) →
      P rest (row.driveMessageId.elim cursor cursor.advance) (db.apply row marks) after trace →
      P (row :: rest) cursor db after (db.apply row marks :: trace)) (failed : ∀ row rest cursor db marks after trace,
      applyRows bulk outcome watermark rest cursor.broken (db.marked marks) =
        some (after, trace) →
      P rest cursor.broken (db.marked marks) after trace →
      P (row :: rest) cursor db after (db.marked marks :: trace))
    {rows : List (EventRow ε)} {cursor after : DrainCursor} {db : CacheDb ε} {trace : List (CacheDb ε)}
    (h : applyRows bulk outcome watermark rows cursor db = some (after, trace)) :
    P rows cursor db after trace := by
  induction rows generalizing cursor db trace with
  | nil =>
    cases h
    exact nil _ db
  | cons row rest ih =>
    unfold applyRows at h
    split at h
    · rename_i hskip
      exact skip row rest cursor db after trace hskip (ih h)
    split at h
    · rename_i marks _
      obtain ⟨⟨after', trace'⟩, hout, heq⟩ := Option.map_eq_some_iff.mp h
      cases heq
      exact ok row rest cursor db marks _ trace' hout (ih hout)
    rename_i marks _
    split at h
    · cases h
    obtain ⟨⟨after', trace'⟩, hout, heq⟩ := Option.map_eq_some_iff.mp h
    cases heq
    exact failed row rest cursor db marks _ trace' hout (ih hout)

theorem applyRows_each_ne_none (rows : List (EventRow ε)) (cursor : DrainCursor)
    (db : CacheDb ε) : applyRows false outcome watermark rows cursor db ≠ none := by
  induction rows generalizing cursor db with
  | nil => simp [applyRows]
  | cons row rest ih =>
    unfold applyRows
    split
    · exact ih cursor db
    split
    · rw [ne_eq, Option.map_eq_none_iff]
      exact ih _ _
    rw [if_neg (by decide), ne_eq, Option.map_eq_none_iff]
    exact ih _ _

variable {rows : List (EventRow ε)} {cursor after : DrainCursor} {db : CacheDb ε}
  {trace : List (CacheDb ε)}

section

variable (h : applyRows bulk outcome watermark rows cursor db = some (after, trace))
include h

theorem applyRows_grows :
    Chained Grows db trace := by
  refine applyRows_induct (P := fun _ _ db _ trace => Chained Grows db trace) ?_ ?_ ?_ ?_ h
  · intro cursor db
    exact Chained.nil db
  · intro row rest cursor db after trace _ ih
    exact ih
  · intro row rest cursor db marks after trace _ ih
    exact Chained.cons (Grows.apply db row marks) ih
  intro row rest cursor db marks after trace _ ih
  exact Chained.cons (Grows.marked db marks) ih

theorem applyRows_reach :
    reach cursor.frontier ≤ reach after.frontier := by
  refine applyRows_induct
    (P := fun _ cursor _ after _ => reach cursor.frontier ≤ reach after.frontier) ?_ ?_ ?_ ?_ h
  · intro cursor db
    exact le_refl _
  · intro row rest cursor db after trace _ ih
    exact ih
  · intro row rest cursor db marks after trace _ ih
    cases hid : row.driveMessageId with
    | none =>
      rw [hid] at ih
      exact ih
    | some id =>
      rw [hid] at ih
      exact le_trans (cursor.reach_advance id) ih
  intro row rest cursor db marks after trace _ ih
  exact ih

theorem applyRows_resyncNeeded :
    cursor.resyncNeeded → after.resyncNeeded := by
  refine applyRows_induct
    (P := fun _ cursor _ after _ => cursor.resyncNeeded → after.resyncNeeded)
    ?_ ?_ ?_ ?_ h
  · intro cursor db hcursor
    exact hcursor
  · intro row rest cursor db after trace _ ih
    exact ih
  · intro row rest cursor db marks after trace _ ih hcursor
    apply ih
    cases row.driveMessageId with
    | none => exact hcursor
    | some id => exact DrainCursor.resyncNeeded_advance hcursor
  intro row rest cursor db marks after trace _ ih _
  exact ih rfl

theorem applyRows_consumed :
    ∀ row ∈ rows, row ∈ (finish db trace).applied ∨ alreadyApplied watermark row ∨
      after.resyncNeeded := by
  refine applyRows_induct
    (P := fun rows _ db after trace => ∀ row ∈ rows, row ∈ (finish db trace).applied ∨
      alreadyApplied watermark row ∨ after.resyncNeeded) ?_ ?_ ?_ ?_ h
  · intro cursor db row hrow
    cases hrow
  · intro row rest cursor db after trace hskip ih other hother
    rcases mem_cons.mp hother with rfl | hother
    · exact Or.inr (Or.inl hskip)
    · exact ih other hother
  · intro row rest cursor db marks after trace htail ih other hother
    rw [finish_cons]
    rcases mem_cons.mp hother with rfl | hother
    · left
      apply (Grows.finish (applyRows_grows htail)).applied
      exact mem_append_right _ (mem_singleton.mpr rfl)
    · exact ih other hother
  intro row rest cursor db marks after trace htail ih other hother
  rw [finish_cons]
  rcases mem_cons.mp hother with rfl | hother
  · exact Or.inr (Or.inr (applyRows_resyncNeeded htail rfl))
  · exact ih other hother

end

/-- What holds within a batch, `taken` being the rows it is past: unless a resync
is asked for, the frontier is reached. -/
def Running (taken : List (EventRow ε)) (cursor : DrainCursor) (db : CacheDb ε) : Prop :=
  cursor.resyncNeeded = false → db.needsResync = false →
    Reaches (floorOf db.snapshot (db.drained ++ taken)) db.applied cursor.frontier

variable {row : EventRow ε} {taken : List (EventRow ε)}

theorem Running.ok {marks : Bool} (h : Running taken cursor db) :
    Running (taken ++ [row]) (row.driveMessageId.elim cursor cursor.advance)
      (db.apply row marks) := by
  intro hresync hflag
  have hgrows := Grows.apply db row marks
  have hflag' : db.needsResync = false := by
    rw [Bool.eq_false_iff]
    intro hset
    rw [hgrows.flag hset] at hflag
    cases hflag
  rw [hgrows.snapshot, hgrows.drained, ← append_assoc]
  cases hid : row.driveMessageId with
  | none =>
    rw [hid] at hresync
    rw [floorOf_synthetic hid]
    exact (h hresync hflag').mono hgrows.applied
  | some id =>
    rw [hid] at hresync
    obtain ⟨hadvance, hnext⟩ := DrainCursor.advance_of_resyncNeeded hresync
    have hcursor : cursor.resyncNeeded = false := by
      rw [Bool.eq_false_iff]
      intro hset
      exact absurd (DrainCursor.resyncNeeded_advance hset) (Bool.eq_false_iff.mp hresync)
    have hreach := h hcursor hflag'
    show Reaches _ _ (cursor.advance id).frontier
    rw [hadvance]
    cases hf : cursor.frontier with
    | none =>
      rw [hf] at hreach
      refine ⟨id, floorOf_first hreach hid, fun other hlo hhi => ?_⟩
      omega
    | some w =>
      rw [hf] at hreach
      obtain ⟨f, hfloor, hall⟩ := hreach
      have hsucc := hnext w hf
      refine ⟨f, floorOf_append hfloor, fun other hlo hhi => ?_⟩
      by_cases heq : other = id
      · rw [heq]
        exact ⟨row, mem_append_right _ (mem_singleton.mpr rfl), hid⟩
      have hne : other.toNat ≠ id.toNat := fun h => heq (BitVec.toNat_inj.mp h)
      obtain ⟨applied, hmem, happlied⟩ := hall other hlo (by omega)
      exact ⟨applied, hgrows.applied hmem, happlied⟩

theorem Running.skip
    (h : Running taken cursor db) (hstart : reach watermark ≤ reach cursor.frontier)
    (hskip : alreadyApplied watermark row) : Running (taken ++ [row]) cursor db := by
  intro hresync hflag
  have hreach := h hresync hflag
  obtain ⟨id, w, hid, hw, -⟩ := alreadyApplied_iff.mp hskip
  rw [hw] at hstart
  rw [← append_assoc]
  cases hf : cursor.frontier with
  | none =>
    rw [hf] at hstart
    simp [reach] at hstart
  | some f =>
    rw [hf] at hreach
    obtain ⟨b, hfloor, hall⟩ := hreach
    exact ⟨b, floorOf_append hfloor, hall⟩

theorem applyRows_running
    (h : applyRows bulk outcome watermark rows cursor db = some (after, trace))
    (hstart : reach watermark ≤ reach cursor.frontier) (hrunning : Running taken cursor db) :
    Running (taken ++ rows) after (finish db trace) := by
  refine applyRows_induct
    (P := fun rows cursor db after trace => ∀ taken, reach watermark ≤ reach cursor.frontier →
      Running taken cursor db → Running (taken ++ rows) after (finish db trace))
    ?_ ?_ ?_ ?_ h taken hstart hrunning
  · intro cursor db taken _ hrunning
    rw [append_nil]
    exact hrunning
  · intro row rest cursor db after trace hskip ih taken hstart hrunning
    have hnext := ih (taken ++ [row]) hstart (hrunning.skip hstart hskip)
    rwa [append_assoc] at hnext
  · intro row rest cursor db marks after trace _ ih taken hstart hrunning
    have hmove : reach watermark ≤
        reach (row.driveMessageId.elim cursor cursor.advance).frontier := by
      cases row.driveMessageId with
      | none => exact hstart
      | some id => exact le_trans hstart (cursor.reach_advance id)
    have hnext := ih (taken ++ [row]) hmove hrunning.ok
    rw [finish_cons]
    rwa [append_assoc] at hnext
  intro row rest cursor db marks after trace _ ih taken hstart _
  have hbroken : Running (taken ++ [row]) cursor.broken (db.marked marks) := by
    intro hresync
    cases hresync
  have hnext := ih (taken ++ [row]) hstart hbroken
  rw [finish_cons]
  rwa [append_assoc] at hnext

end Rows

/-! ## One batch -/

/-- What one transaction of a drain keeps: it deletes no row without a reason, and
takes the watermark no way back. -/
structure Keeps (a b : CacheDb ε) : Prop where
  deleted : ∀ row ∈ a.events.rows, row ∉ b.events.rows → row ∈ b.applied ∨
    (∃ id w, row.driveMessageId = some id ∧ b.watermark = some w ∧ id.toNat ≤ w.toNat) ∨
    b.needsResync = true
  watermark : reach a.watermark ≤ reach b.watermark

theorem Grows.keeps (h : Grows a b) : Keeps a b where
  deleted row hrow hgone := absurd (h.events.symm ▸ hrow) hgone
  watermark := by rw [h.watermark]

theorem Keeps.of_grows {c : CacheDb ε} (h : Grows a b) (h' : Keeps b c) : Keeps a c where
  deleted row hrow hgone := h'.deleted row (h.events.symm ▸ hrow) hgone
  watermark := by
    rw [← h.watermark]
    exact h'.watermark

/-- Between two batches the frontier is the watermark. -/
structure Synced (watermark : Option DriveId) (cursor : DrainCursor) (db : CacheDb ε) : Prop where
  frontier : db.watermark = cursor.frontier
  flag : cursor.resyncNeeded = true → db.needsResync = true
  start : reach watermark ≤ reach cursor.frontier

section Batch

variable {bulk : Bool} {faults : Faults ε} {attempt : Nat} {watermark : Option DriveId}
  {loaded : List (EventRow ε)} {cursor after : DrainCursor} {db : CacheDb ε}
  {trace : List (CacheDb ε)}

def startCursor (faults : Faults ε) (attempt : Nat) (loaded : List (EventRow ε))
    (cursor : DrainCursor) : DrainCursor :=
  if ((loaded.filter (faults.corrupt attempt)).map seq).isEmpty then cursor
  else cursor.broken

def readable (faults : Faults ε) (attempt : Nat) (loaded : List (EventRow ε)) :
    List (EventRow ε) :=
  loaded.filter fun row => !faults.corrupt attempt row

def batchCommit (faults : Faults ε) (attempt : Nat) (watermark : Option DriveId)
    (loaded : List (EventRow ε)) (cursor after : DrainCursor) (db : CacheDb ε) : CacheDb ε :=
  db.commitDrainBatch (advancedTo watermark cursor.frontier after.frontier)
    ((loaded.filter (faults.corrupt attempt)).map seq ++
      (readable faults attempt loaded).map seq)
    after.resyncNeeded (readable faults attempt loaded)

theorem applyDrainBatch_committed
    (h : applyDrainBatch bulk faults attempt watermark loaded cursor db =
      .committed after trace) :
    ∃ applied, applyRows bulk (faults.applies attempt) watermark
        (readable faults attempt loaded) (startCursor faults attempt loaded cursor) db =
          some (after, applied) ∧
      trace = (if bulk then [] else applied) ++
        [batchCommit faults attempt watermark loaded cursor after (finish db applied)] := by
  unfold applyDrainBatch at h
  dsimp only at h
  split at h
  · cases h
  split at h
  · cases h
  rename_i after' applied heq
  split at h
  · cases h
    refine ⟨applied, heq, ?_⟩
    cases bulk <;> rfl
  · cases h

theorem applyDrainBatch_failed
    (h : applyDrainBatch bulk faults attempt watermark loaded cursor db = .failed trace) :
    trace = [] ∨ ∃ after, applyRows bulk (faults.applies attempt) watermark
      (readable faults attempt loaded) (startCursor faults attempt loaded cursor) db =
        some (after, trace) := by
  unfold applyDrainBatch at h
  dsimp only at h
  split at h
  · cases h
    exact Or.inl rfl
  split at h
  · cases h
  rename_i after' applied heq
  split at h
  · cases h
  cases h
  cases bulk with
  | true => exact Or.inl rfl
  | false => exact Or.inr ⟨after', heq⟩

theorem applyDrainBatch_ne_failed (hbegin : faults.begins attempt) (hcommit : faults.commits attempt) :
    applyDrainBatch bulk faults attempt watermark loaded cursor db ≠ .failed trace := by
  unfold applyDrainBatch
  dsimp only
  rw [hbegin, hcommit]
  split
  · simp_all
  split
  · simp
  · simp

theorem applyDrainBatch_each_ne_aborted :
    applyDrainBatch false faults attempt watermark loaded cursor db ≠ .aborted := by
  unfold applyDrainBatch
  dsimp only
  split
  · simp
  split
  · rename_i hnone
    exact absurd hnone (applyRows_each_ne_none _ _ _)
  · split <;> simp

theorem startCursor_frontier :
    (startCursor faults attempt loaded cursor).frontier = cursor.frontier := by
  unfold startCursor
  split <;> rfl

theorem startCursor_of_corrupt {row : EventRow ε} (hrow : row ∈ loaded) (h : faults.corrupt attempt row) :
    (startCursor faults attempt loaded cursor).resyncNeeded := by
  have hmem : row.seq ∈ (loaded.filter (faults.corrupt attempt)).map seq :=
    mem_map_of_mem (mem_filter.mpr ⟨hrow, h⟩)
  unfold startCursor
  rw [if_neg ?_]
  · rfl
  rw [List.isEmpty_iff]
  intro hnil
  rw [hnil] at hmem
  cases hmem

variable {applied : List (CacheDb ε)}

section

variable (hrows : applyRows bulk (faults.applies attempt) watermark (readable faults attempt loaded)
  (startCursor faults attempt loaded cursor) db = some (after, applied))
include hrows

/-- What a batch deletes was corrupt, and a resync is needed, or was handed to the rows. -/
theorem batchCommit_consumed {row : EventRow ε} (hloaded : ∀ row ∈ loaded, row ∈ db.events.rows)
    (hrow : row ∈ (finish db applied).events.rows)
    (hgone : row ∉ (batchCommit faults attempt watermark loaded cursor after (finish db applied)).events.rows) :
    after.resyncNeeded ∨ row ∈ readable faults attempt loaded := by
  have hconsumed : row.seq ∈ (loaded.filter (faults.corrupt attempt)).map seq ++
      (readable faults attempt loaded).map seq := by
    by_contra hkept
    exact hgone (mem_delete.mpr ⟨hrow, hkept⟩)
  rw [(Grows.finish (applyRows_grows hrows)).events] at hrow
  rcases mem_append.mp hconsumed with hseq | hseq
  · obtain ⟨lost, hlost, -⟩ := mem_map.mp hseq
    obtain ⟨hmem, hcorrupt⟩ := mem_filter.mp hlost
    exact Or.inl (applyRows_resyncNeeded hrows (startCursor_of_corrupt hmem hcorrupt))
  obtain ⟨taken, htaken, heq⟩ := mem_map.mp hseq
  have hsame : taken = row := eq_of_seq (hloaded taken (mem_filter.mp htaken).1) hrow heq
  exact Or.inr (hsame ▸ htaken)

variable (hsync : Synced watermark cursor db)
include hsync

theorem batchCommit_watermark :
    (batchCommit faults attempt watermark loaded cursor after (finish db applied)).watermark =
      after.frontier := by
  have hmove := applyRows_reach hrows
  rw [startCursor_frontier] at hmove
  have hgrows := Grows.finish (applyRows_grows hrows)
  show (advancedTo watermark cursor.frontier after.frontier).or
    (finish db applied).watermark = after.frontier
  rw [hgrows.watermark, hsync.frontier]
  exact advancedTo_or hsync.start hmove

theorem batchCommit_synced :
    Synced watermark after
      (batchCommit faults attempt watermark loaded cursor after (finish db applied)) where
  frontier := batchCommit_watermark hrows hsync
  flag h := by simp [batchCommit, commitDrainBatch, h]
  start := by
    have hmove := applyRows_reach hrows
    rw [startCursor_frontier] at hmove
    exact le_trans hsync.start hmove

theorem batchCommit_keeps (hloaded : ∀ row ∈ loaded, row ∈ db.events.rows) :
    Keeps (finish db applied)
      (batchCommit faults attempt watermark loaded cursor after (finish db applied)) where
  deleted row hrow hgone := by
    have hresync : after.resyncNeeded → (batchCommit faults attempt watermark loaded cursor
        after (finish db applied)).needsResync := by
      intro h
      simp [batchCommit, commitDrainBatch, h]
    rcases batchCommit_consumed hrows hloaded hrow hgone with hset | htaken
    · exact Or.inr (Or.inr (hresync hset))
    rcases applyRows_consumed hrows row htaken with hdone | hdone | hdone
    · exact Or.inl hdone
    · obtain ⟨id, w, hid, hw, hle⟩ := alreadyApplied_iff.mp hdone
      have hmark := batchCommit_watermark hrows hsync
      have hstart : reach (some w) ≤ reach after.frontier :=
        hw ▸ (batchCommit_synced hrows hsync).start
      right
      left
      cases hf : after.frontier with
      | none =>
        rw [hf] at hstart
        simp [reach] at hstart
      | some v =>
        rw [hf] at hstart hmark
        refine ⟨id, v, hid, hmark, ?_⟩
        simp only [reach] at hstart
        omega
    · exact Or.inr (Or.inr (hresync hdone))
  watermark := by
    have hmove := applyRows_reach hrows
    rw [startCursor_frontier] at hmove
    rw [batchCommit_watermark hrows hsync, (Grows.finish (applyRows_grows hrows)).watermark,
      hsync.frontier]
    exact hmove

theorem batchCommit_sound (hsound : db.Sound) :
    (batchCommit faults attempt watermark loaded cursor after (finish db applied)).Sound := by
  cases hflag : (batchCommit faults attempt watermark loaded cursor after
    (finish db applied)).needsResync with
  | true => exact Or.inl hflag
  | false =>
    have hboth : (finish db applied).needsResync = false ∧ after.resyncNeeded = false := by
      simpa [batchCommit, commitDrainBatch] using hflag
    have hstart : Running [] (startCursor faults attempt loaded cursor) db := by
      intro hresync hclear
      rw [append_nil, startCursor_frontier, ← hsync.frontier]
      rcases hsound with hset | hreach
      · rw [hclear] at hset
        cases hset
      · exact hreach
    have hmove : reach watermark ≤ reach (startCursor faults attempt loaded cursor).frontier := by
      rw [startCursor_frontier]
      exact hsync.start
    have hreach := applyRows_running hrows hmove hstart hboth.2 hboth.1
    right
    rw [batchCommit_watermark hrows hsync]
    exact hreach

end

theorem applyDrainBatch_spec (hsync : Synced watermark cursor db) (hloaded : ∀ row ∈ loaded, row ∈ db.events.rows)
    (h : applyDrainBatch bulk faults attempt watermark loaded cursor db =
      .committed after trace) :
    Synced watermark after (finish db trace) ∧ Chained Keeps db trace ∧
      (db.Sound → ∀ t ∈ trace, t.Sound) ∧
      (finish db trace).events = db.events.delete
        ((loaded.filter (faults.corrupt attempt)).map seq ++
          (readable faults attempt loaded).map seq) := by
  obtain ⟨applied, hrows, rfl⟩ := applyDrainBatch_committed h
  have hchain := applyRows_grows hrows
  have hgrows := Grows.finish hchain
  have hlast : ∀ first : List (CacheDb ε), finish db (first ++
      [batchCommit faults attempt watermark loaded cursor after (finish db applied)]) =
        batchCommit faults attempt watermark loaded cursor after (finish db applied) := by
    intro first
    rw [finish_append]
    rfl
  have hkeeps := batchCommit_keeps hrows hsync hloaded
  rw [hlast]
  refine ⟨batchCommit_synced hrows hsync, ?_, ?_, ?_⟩
  · cases bulk with
    | true => exact Chained.cons (Keeps.of_grows hgrows hkeeps) (Chained.nil _)
    | false =>
      exact (hchain.mono fun _ _ => Grows.keeps).append (Chained.cons hkeeps (Chained.nil _))
  · intro hsound t ht
    rcases mem_append.mp ht with ht | ht
    · have hmem : t ∈ applied := by
        cases bulk with
        | true => cases ht
        | false => exact ht
      exact hchain.invariant hsound (fun _ _ ha hab => Grows.sound hab ha) t hmem
    rw [mem_singleton.mp ht]
    exact batchCommit_sound hrows hsync hsound
  show (finish db applied).events.delete _ = _
  rw [hgrows.events]

theorem applyDrainBatch_failed_grows
    (h : applyDrainBatch bulk faults attempt watermark loaded cursor db = .failed trace) :
    Chained Grows db trace := by
  rcases applyDrainBatch_failed h with rfl | ⟨after, hrows⟩
  · exact Chained.nil db
  · exact applyRows_grows hrows

theorem length_delete_lt (faults : Faults ε) (attempt : Nat) (hne : loaded ≠ [])
    (hloaded : ∀ row ∈ loaded, row ∈ db.events.rows) :
    (db.events.delete ((loaded.filter (faults.corrupt attempt)).map seq ++
      (readable faults attempt loaded).map seq)).rows.length < db.events.rows.length := by
  obtain ⟨row, hrow⟩ := exists_mem_of_ne_nil loaded hne
  have hseq : row.seq ∈ (loaded.filter (faults.corrupt attempt)).map seq ++
      (readable faults attempt loaded).map seq := by
    by_cases hcorrupt : faults.corrupt attempt row
    · exact mem_append_left _ (mem_map_of_mem (mem_filter.mpr ⟨hrow, hcorrupt⟩))
    have hread : row ∈ readable faults attempt loaded :=
      mem_filter.mpr ⟨hrow, by simpa using hcorrupt⟩
    exact mem_append_right _ (mem_map_of_mem hread)
  apply length_filter_lt_length_iff_exists.mpr
  refine ⟨row, hloaded row hrow, ?_⟩
  rw [contains_iff_mem.mpr hseq]
  decide

end Batch

/-! ## The whole drain -/

section Loop

variable {faults : Faults ε} {watermark : Option DriveId}

theorem drainBatch_attempt (faults : Faults ε) (watermark : Option DriveId)
    (loaded : List (EventRow ε)) (n : Nat) (cursor : DrainCursor) (db : CacheDb ε) :
    drainBatch faults watermark n loaded cursor db ≠ .aborted ∧
      ∃ bulk attempt, applyDrainBatch bulk faults attempt watermark loaded cursor db =
        drainBatch faults watermark n loaded cursor db := by
  unfold drainBatch
  cases hfirst : applyDrainBatch true faults (2 * n) watermark loaded cursor db with
  | aborted => exact ⟨applyDrainBatch_each_ne_aborted, false, 2 * n + 1, rfl⟩
  | failed trace => exact ⟨by simp, true, 2 * n, hfirst⟩
  | committed after trace => exact ⟨by simp, true, 2 * n, hfirst⟩

/-- What holds of the commits of every batch, and of one batch after another,
holds of the commits of a drain. -/
theorem drainLoop_trace {P : CacheDb ε → List (CacheDb ε) → Prop}
    (happend : ∀ db first second, P db first → P (finish db first) second →
      P db (first ++ second)) (hgrows : ∀ db trace, Chained Grows db trace → P db trace)
    (hcommitted : ∀ {bulk attempt cursor after db trace}, Synced watermark cursor db →
      applyDrainBatch bulk faults attempt watermark (db.events.loadBatch limit) cursor db =
        .committed after trace → P db trace)
    (fuel n : Nat) (cursor : DrainCursor) (db : CacheDb ε) (hsync : Synced watermark cursor db) :
    P db (drainLoop limit faults watermark fuel n cursor db).trace := by
  induction fuel generalizing n cursor db with
  | zero => exact hgrows db [] (Chained.nil db)
  | succ fuel ih =>
    unfold drainLoop
    dsimp only
    split
    · exact hgrows db [] (Chained.nil db)
    obtain ⟨hnot, bulk, attempt, hbatch⟩ := drainBatch_attempt
        faults watermark (db.events.loadBatch limit) n cursor db
    cases hended : drainBatch faults watermark n (db.events.loadBatch limit) cursor db with
    | aborted => exact absurd hended hnot
    | failed trace =>
      rw [hended] at hbatch
      exact hgrows db trace (applyDrainBatch_failed_grows hbatch)
    | committed after trace =>
      rw [hended] at hbatch
      have hsync' := (applyDrainBatch_spec hsync
        (fun row => mem_of_mem_loadBatch) hbatch).1
      exact happend db _ _ (hcommitted hsync hbatch)
        (ih (n + 1) after (finish db trace) hsync')

/-- With more fuel than the store has rows a drain ends, and with writes that
succeed it ends with the store empty. -/
theorem drainLoop_ends (fuel n : Nat) (cursor : DrainCursor) (db : CacheDb ε)
    (hsync : Synced watermark cursor db) (hfuel : db.events.rows.length < fuel) :
    (drainLoop limit faults watermark fuel n cursor db).ending ≠ .outOfFuel ∧
      ((∀ k, faults.begins k) → (∀ k, faults.commits k) →
        (∃ resync, (drainLoop limit faults watermark fuel n cursor db).ending = .done resync) ∧
          (finish db (drainLoop limit faults watermark fuel n cursor db).trace).events.rows =
            []) := by
  induction fuel generalizing n cursor db with
  | zero => exact absurd hfuel (Nat.not_lt_zero _)
  | succ fuel ih =>
    unfold drainLoop
    dsimp only
    split
    · rename_i hempty
      refine ⟨by simp, fun _ _ => ⟨⟨_, rfl⟩, ?_⟩⟩
      exact loadBatch_eq_nil.mp (isEmpty_iff.mp hempty)
    rename_i hsome
    obtain ⟨hnot, bulk, attempt, hbatch⟩ := drainBatch_attempt
        faults watermark (db.events.loadBatch limit) n cursor db
    cases hended : drainBatch faults watermark n (db.events.loadBatch limit) cursor db with
    | aborted => exact absurd hended hnot
    | failed trace =>
      rw [hended] at hbatch
      refine ⟨by simp, fun hbegins hcommits => ?_⟩
      exact absurd hbatch
        (applyDrainBatch_ne_failed (hbegins attempt) (hcommits attempt))
    | committed after trace =>
      rw [hended] at hbatch
      have hne : db.events.loadBatch limit ≠ [] := fun h => hsome (isEmpty_iff.mpr h)
      obtain ⟨hsync', -, -, hevents⟩ := applyDrainBatch_spec hsync
        (fun row => mem_of_mem_loadBatch) hbatch
      have hlt : (finish db trace).events.rows.length < fuel := by
        rw [hevents]
        have hless := length_delete_lt faults attempt hne fun row =>
          mem_of_mem_loadBatch
        exact lt_of_lt_of_le hless (Nat.le_of_lt_succ hfuel)
      obtain ⟨hfuel', hdone⟩ := ih (n + 1) after (finish db trace) hsync' hlt
      refine ⟨hfuel', fun hbegins hcommits => ?_⟩
      obtain ⟨hending, hlast⟩ := hdone hbegins hcommits
      rw [finish_append]
      exact ⟨hending, hlast⟩

end Loop

theorem synced_start (db : CacheDb ε) : Synced db.watermark ⟨db.watermark, false, false⟩ db where
  frontier := rfl
  flag h := by cases h
  start := le_refl _

theorem drainPersisted_keeps (faults : Faults ε) (db : CacheDb ε) :
    Chained Keeps db (drainPersisted limit faults db).trace :=
  drainLoop_trace (P := fun db trace => Chained Keeps db trace)
    (fun _ _ _ hfirst hsecond => hfirst.append hsecond)
    (fun _ _ hchain => hchain.mono fun _ _ => Grows.keeps)
    (fun hsync hbatch => (applyDrainBatch_spec hsync
      (fun _ => mem_of_mem_loadBatch) hbatch).2.1)
    _ _ _ db (synced_start db)

theorem drainPersisted_sound (faults : Faults ε) (h : db.Sound) :
    ∀ t ∈ (drainPersisted limit faults db).trace, t.Sound := by
  refine drainLoop_trace (P := fun db trace => db.Sound → ∀ t ∈ trace, t.Sound)
    ?_ ?_ ?_ _ _ _ db (synced_start db) h
  · intro db first second hfirst hsecond hsound t ht
    rcases mem_append.mp ht with ht | ht
    · exact hfirst hsound t ht
    · exact hsecond (finish_mem hsound (hfirst hsound)) t ht
  · intro db trace hchain hsound
    exact hchain.invariant hsound fun _ _ ha hab => Grows.sound hab ha
  intro bulk attempt cursor after db trace hsync hbatch
  exact (applyDrainBatch_spec hsync (fun _ => mem_of_mem_loadBatch) hbatch).2.2.1

/-! ## What the worker commits -/

theorem CacheDb.markNeedsResync_sound (db : CacheDb ε) : db.markNeedsResync.Sound := Or.inl rfl

theorem CacheDb.insertEventsBatch_sound (h : db.Sound)
    (burst : List (Option DriveId × ε)) : (db.insertEventsBatch burst).Sound := h

theorem CacheDb.commitResyncWatermark_sound (db : CacheDb ε) (remote : DriveId) (mark : Bool) :
    (db.commitResyncWatermark remote mark).Sound := by
  refine Or.inr ⟨remote, rfl, fun id hlo hhi => ?_⟩
  exact absurd hhi (Nat.not_le_of_lt hlo)

theorem EventStore.mem_insert {store : EventStore ε} {id : Option DriveId} {event : ε}
    (h : row ∈ store.rows) : row ∈ (store.insert id event).rows := by
  unfold EventStore.insert
  split
  · exact mem_append_left _ h
  · exact h

theorem mem_insertEventsBatch (h : row ∈ db.events.rows) :
    row ∈ (db.insertEventsBatch burst).events.rows := by
  show row ∈ (burst.foldl (fun store e => store.insert e.1 e.2) db.events).rows
  generalize db.events = store at h
  induction burst generalizing store with
  | nil => exact h
  | cons e burst ih =>
    have hstep : row ∈ (store.insert e.1 e.2).rows := mem_insert h
    rw [foldl_cons]
    exact ih _ hstep

theorem persist_sound {marked : Bool}
    (h : db.Sound) : ∀ t ∈ persist burst inserted marked db, t.Sound := by
  intro t ht
  unfold persist at ht
  split at ht
  · rw [mem_singleton.mp ht]
    exact db.insertEventsBatch_sound h burst
  split at ht
  · rw [mem_singleton.mp ht]
    exact db.markNeedsResync_sound
  · cases ht

theorem drainPending_sound
    {marked shed shedMarked : Bool} {faults : Faults ε} (h : db.Sound) :
    ∀ t ∈ drainPending limit burst inserted marked faults shed shedMarked db, t.Sound := by
  intro t ht
  have hpersist : ∀ t ∈ persist burst inserted marked db, t.Sound := persist_sound h
  rcases mem_append.mp ht with ht | ht
  · rcases mem_append.mp ht with ht | ht
    · exact hpersist t ht
    · exact drainPersisted_sound faults (finish_mem h hpersist) t ht
  split at ht
  · rw [mem_singleton.mp ht]
    exact markNeedsResync_sound _
  · cases ht

theorem populateNewFileRoots_sound {marked cleared : Bool} (h : db.Sound) :
    ∀ t ∈ populateNewFileRoots marked cleared db, t.Sound := by
  intro t ht
  unfold populateNewFileRoots at ht
  split at ht
  · cases ht
  rename_i hclear
  have hreach : Reaches db.floor db.applied db.watermark := h.resolve_left hclear
  rcases mem_append.mp ht with ht | ht
  · split at ht
    · rw [mem_singleton.mp ht]
      exact db.markNeedsResync_sound
    · cases ht
  split at ht
  · rw [mem_singleton.mp ht]
    right
    cases marked with
    | true => exact hreach
    | false => exact hreach
  · cases ht

theorem commits_sound (op : CacheOp ε) (h : db.Sound) :
    ∀ t ∈ op.commits limit db, t.Sound := by
  cases op with
  | drainPending burst inserted marked faults shed shedMarked => exact drainPending_sound h
  | markNeedsResync =>
    intro t ht
    rw [mem_singleton.mp ht]
    exact db.markNeedsResync_sound
  | populateNewFileRoots marked cleared => exact populateNewFileRoots_sound h
  | commitResync remote mark =>
    intro t ht
    rw [mem_singleton.mp ht]
    exact db.commitResyncWatermark_sound remote mark

/-- What one transaction of the worker does to the rows of the store. -/
def Justified (a b : CacheDb ε) : Prop :=
  ∀ row ∈ a.events.rows, row ∉ b.events.rows → row ∈ b.applied ∨
    (∃ id w, row.driveMessageId = some id ∧ b.watermark = some w ∧ id.toNat ≤ w.toNat) ∨
    b.needsResync = true

theorem Justified.of_kept
    (h : ∀ row ∈ a.events.rows, row ∈ b.events.rows) : Justified a b :=
  fun row hrow hgone => absurd (h row hrow) hgone

theorem persist_justified (burst : List (Option DriveId × ε)) (inserted marked : Bool)
    (db : CacheDb ε) : Chained Justified db (persist burst inserted marked db) := by
  unfold persist
  split
  · exact Chained.cons (Justified.of_kept fun row => mem_insertEventsBatch) (Chained.nil _)
  split
  · exact Chained.cons (Justified.of_kept fun row hrow => hrow) (Chained.nil _)
  · exact Chained.nil db

theorem Justified.single (h : b.events = a.events) : Chained Justified a [b] :=
  Chained.cons (Justified.of_kept fun _ hrow => h ▸ hrow) (Chained.nil _)

theorem drainPending_justified (burst : List (Option DriveId × ε))
    (inserted marked : Bool) (faults : Faults ε) (shed shedMarked : Bool) (db : CacheDb ε) :
    Chained Justified db (drainPending limit burst inserted marked faults shed shedMarked db) := by
  have hdrain : Chained Justified (finish db (persist burst inserted marked db))
      (drainPersisted limit faults (finish db (persist burst inserted marked db))).trace :=
    (drainPersisted_keeps faults _).mono fun _ _ => Keeps.deleted
  refine Chained.append ((persist_justified burst inserted marked db).append hdrain) ?_
  split
  · exact Justified.single rfl
  · exact Chained.nil _

theorem populateNewFileRoots_justified (marked cleared : Bool) (db : CacheDb ε) :
    Chained Justified db (populateNewFileRoots marked cleared db) := by
  unfold populateNewFileRoots
  split
  · exact Chained.nil db
  have hcleared : ∀ covered : CacheDb ε, Chained Justified covered
      (if cleared then [covered.clearNeedsResync] else []) := by
    intro covered
    split
    · exact Justified.single rfl
    · exact Chained.nil covered
  refine Chained.append ?_ (hcleared _)
  split
  · exact Justified.single rfl
  · exact Chained.nil db

theorem commits_justified (op : CacheOp ε) (db : CacheDb ε) :
    Chained Justified db (op.commits limit db) := by
  cases op with
  | drainPending burst inserted marked faults shed shedMarked =>
    exact drainPending_justified burst inserted marked faults shed shedMarked db
  | markNeedsResync => exact Justified.single rfl
  | populateNewFileRoots marked cleared => exact populateNewFileRoots_justified marked cleared db
  | commitResync remote mark => exact Justified.single rfl

/-- What a drain promises, whatever arrives, fails or crashes. -/
structure DrainsSafely (ε : Type) (limit : ℕ+) : Prop where
  covered : ∀ db : CacheDb ε, Committed (cacheStore ε limit) db → db.Covered
  deleted : ∀ (db : CacheDb ε) (op : CacheOp ε),
    Chained Justified db ((cacheStore ε limit).commits op db)
  watermark : ∀ (db : CacheDb ε) (faults : Faults ε),
    Chained (fun a b => reach a.watermark ≤ reach b.watermark) db
      (drainPersisted limit faults db).trace
  returns : ∀ (db : CacheDb ε) (faults : Faults ε),
    (drainPersisted limit faults db).ending ≠ .outOfFuel
  empties : ∀ (db : CacheDb ε) (faults : Faults ε), (∀ k, faults.begins k = true) →
    (∀ k, faults.commits k = true) →
    (∃ resync, (drainPersisted limit faults db).ending = .done resync) ∧
      (finish db (drainPersisted limit faults db).trace).events.rows = []

/-- The drain never loses an event silently. -/
theorem drain_drainsSafely (ε : Type) (limit : ℕ+) : DrainsSafely ε limit where
  covered db h := by
    have hfresh : (cacheStore ε limit).fresh.Sound := Or.inr rfl
    have hsound : db.Sound :=
      Committed.invariant (P := Sound) hfresh (fun _ op hs => commits_sound op hs) h
    exact hsound.covered
  deleted db op := commits_justified op db
  watermark db faults := (drainPersisted_keeps faults db).mono fun _ _ => Keeps.watermark
  returns db faults := (drainLoop_ends _ _ _ db (synced_start db) (Nat.lt_succ_self _)).1
  empties db faults := (drainLoop_ends _ _ _ db (synced_start db) (Nat.lt_succ_self _)).2

end SyncEngine.Cache
