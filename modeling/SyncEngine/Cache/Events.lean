import Mathlib.Algebra.Group.Nat.Defs
import Mathlib.Data.List.Sort
import Mathlib.Data.PNat.Defs
import SyncEngine.Collections.Machine

/-! # The durable store of drive events

Drive events wait in a table until the worker has applied them. The worker loads
them in order, applies each, advances the watermark along the ids that follow
each other without a gap, and deletes what it consumed. An event it could not
read or apply, or an id it did not see, is made up for by a resync the store
asks for.
-/

namespace SyncEngine.Cache

open List SyncEngine.Collections

/-- The number the server gives a drive event, as stored in 64 bits. -/
abbrev DriveId := BitVec 64

/-- The id after `id`, unless the counter is exhausted. -/
def checkedSucc (id : DriveId) : Option DriveId :=
  if id.toNat + 1 < 2 ^ 64 then some (id + 1) else none

theorem checkedSucc_eq_some {f id : DriveId} :
    checkedSucc f = some id ↔ f.toNat + 1 = id.toNat := by
  unfold checkedSucc
  have hadd : (f + 1).toNat = (f.toNat + 1) % 2 ^ 64 := by
    rw [BitVec.toNat_add]
    rfl
  by_cases h : f.toNat + 1 < 2 ^ 64
  · rw [if_pos h, Option.some.injEq, ← BitVec.toNat_inj, hadd, Nat.mod_eq_of_lt h]
  rw [if_neg h]
  have := id.isLt
  constructor
  · intro hnone
    cases hnone
  · omega

/-! ## The table -/

variable {ε : Type}

/-- A row of the table. One with no drive id is a synthetic event. -/
structure EventRow (ε : Type) where
  seq : Nat
  driveMessageId : Option DriveId
  event : ε

/-- Rows under distinct sequence numbers, no two of them of one drive id. -/
structure EventStore (ε : Type) where
  rows : List (EventRow ε)
  nextSeq : Nat
  bounded : ∀ row ∈ rows, row.seq < nextSeq
  seqs : (rows.map EventRow.seq).Nodup
  ids : (rows.filterMap EventRow.driveMessageId).Nodup

namespace EventStore

def empty : EventStore ε where
  rows := []
  nextSeq := 0
  bounded := by simp
  seqs := nodup_nil
  ids := nodup_nil

def stores (store : EventStore ε) (id : Option DriveId) : Bool :=
  id.any fun i => (store.rows.filterMap EventRow.driveMessageId).contains i

/-- Insert one event; a drive id that is stored already is ignored. -/
def insert (store : EventStore ε) (id : Option DriveId) (event : ε) : EventStore ε :=
  if h : store.stores id = false then
    { rows := store.rows ++ [⟨store.nextSeq, id, event⟩]
      nextSeq := store.nextSeq + 1
      bounded := by
        intro row hrow
        rcases mem_append.mp hrow with hrow | hrow
        · exact Nat.lt_succ_of_lt (store.bounded row hrow)
        rw [mem_singleton.mp hrow]
        exact Nat.lt_succ_self _
      seqs := by
        rw [map_append, nodup_append]
        refine ⟨store.seqs, nodup_singleton _, fun a ha b hb heq => ?_⟩
        obtain ⟨row, hrow, rfl⟩ := mem_map.mp ha
        have hlt := store.bounded row hrow
        rw [heq, mem_singleton.mp hb] at hlt
        exact Nat.lt_irrefl _ hlt
      ids := by
        rw [filterMap_append, nodup_append]
        cases id with
        | none => simp [store.ids]
        | some i =>
          refine ⟨store.ids, by simp, fun a ha b hb heq => ?_⟩
          have hb' : b = i := by simpa using hb
          have hnew : i ∉ store.rows.filterMap EventRow.driveMessageId := by
            intro hmem
            rw [stores, Option.any_some, contains_iff_mem.mpr hmem] at h
            cases h
          exact hnew (hb' ▸ heq ▸ ha) }
  else store

def delete (store : EventStore ε) (consumed : List Nat) : EventStore ε where
  rows := store.rows.filter fun row => !consumed.contains row.seq
  nextSeq := store.nextSeq
  bounded row hrow := store.bounded row (mem_filter.mp hrow).1
  seqs := (List.Sublist.map EventRow.seq filter_sublist).nodup store.seqs
  ids := (List.Sublist.filterMap EventRow.driveMessageId filter_sublist).nodup store.ids

/-- The order of a drain: synthetic events first, then by drive id as the table
stores it, a signed number, then by insertion. -/
def drainLe (a b : EventRow ε) : Prop :=
  match a.driveMessageId, b.driveMessageId with
  | none, none => a.seq ≤ b.seq
  | none, some _ => True
  | some _, none => False
  | some i, some j => i.toInt < j.toInt ∨ i.toInt = j.toInt ∧ a.seq ≤ b.seq

instance (a b : EventRow ε) : Decidable (drainLe a b) := by
  unfold drainLe
  split <;> infer_instance

def loadBatch (store : EventStore ε) (limit : ℕ+) : List (EventRow ε) :=
  (store.rows.insertionSort drainLe).take limit

variable {store : EventStore ε} {limit : ℕ+} {row : EventRow ε}

theorem mem_of_mem_loadBatch
    (h : row ∈ store.loadBatch limit) : row ∈ store.rows :=
  (perm_insertionSort _ _).mem_iff.mp (mem_of_mem_take h)

theorem loadBatch_eq_nil :
    store.loadBatch limit = [] ↔ store.rows = [] := by
  unfold loadBatch
  rw [take_eq_nil_iff, ← length_eq_zero_iff, length_insertionSort,
    length_eq_zero_iff]
  constructor
  · rintro (h | h)
    · exact absurd h limit.ne_zero
    · exact h
  · exact Or.inr

theorem mem_delete {consumed : List Nat} :
    row ∈ (store.delete consumed).rows ↔ row ∈ store.rows ∧ row.seq ∉ consumed := by
  unfold delete
  simp

theorem eq_of_seq {a b : EventRow ε} (ha : a ∈ store.rows) (hb : b ∈ store.rows) (h : a.seq = b.seq) : a = b :=
  inj_on_of_nodup_map store.seqs ha hb h

end EventStore

/-- What a drain reads and writes, with a record of what has happened that no
part of the cache reads: the rows whose event took effect, the rows a drain
committed as consumed, and the snapshot id of the last resync. -/
structure CacheDb (ε : Type) where
  events : EventStore ε
  watermark : Option DriveId
  needsResync : Bool
  applied : List (EventRow ε)
  drained : List (EventRow ε)
  snapshot : Option DriveId

namespace CacheDb

def fresh : CacheDb ε := ⟨EventStore.empty, none, false, [], [], none⟩

def markNeedsResync (db : CacheDb ε) : CacheDb ε := { db with needsResync := true }

def clearNeedsResync (db : CacheDb ε) : CacheDb ε := { db with needsResync := false }

def insertEventsBatch (db : CacheDb ε) (burst : List (Option DriveId × ε)) : CacheDb ε :=
  { db with events := burst.foldl (fun store e => store.insert e.1 e.2) db.events }

def marked (db : CacheDb ε) (marks : Bool) : CacheDb ε :=
  { db with needsResync := db.needsResync || marks }

def apply (db : CacheDb ε) (row : EventRow ε) (marks : Bool) : CacheDb ε :=
  { db.marked marks with applied := db.applied ++ [row] }

/-- The result of one batch: the watermark if it moved, the resync flag if one
is needed, and the rows consumed gone. -/
def commitDrainBatch (db : CacheDb ε) (advanced : Option DriveId) (deleted : List Nat)
    (markResync : Bool) (batch : List (EventRow ε)) : CacheDb ε :=
  { db with
    events := db.events.delete deleted
    watermark := advanced.or db.watermark
    needsResync := db.needsResync || markResync
    drained := db.drained ++ batch }

/-- The result of a resync: the watermark at the snapshot id of its listing. -/
def commitResyncWatermark (db : CacheDb ε) (remoteUnderLock : DriveId) (markResync : Bool) :
    CacheDb ε :=
  { db with
    watermark := some remoteUnderLock
    needsResync := markResync
    snapshot := some remoteUnderLock }

end CacheDb

/-! ## Draining -/

/-- What applying one event comes to, and whether it asked for a resync. -/
inductive ApplyOutcome where
  | ok (marks : Bool)
  | failed (marks : Bool)

/-- What goes wrong in a drain, batch attempt by batch attempt. -/
structure Faults (ε : Type) where
  corrupt : Nat → EventRow ε → Bool
  applies : Nat → EventRow ε → ApplyOutcome
  begins : Nat → Bool
  commits : Nat → Bool

structure DrainCursor where
  frontier : Option DriveId
  frontierBroken : Bool
  resyncNeeded : Bool

namespace DrainCursor

def broken (cursor : DrainCursor) : DrainCursor :=
  { cursor with frontierBroken := true, resyncNeeded := true }

/-- Advance along an unbroken run of ids, or note the gap below `id`. -/
def advance (cursor : DrainCursor) (id : DriveId) : DrainCursor :=
  if !cursor.frontierBroken && cursor.frontier.all fun f => decide (checkedSucc f = some id) then
    { cursor with frontier := some id }
  else cursor.broken

end DrainCursor

/-- Whether a drain that started at `watermark` finds a row applied already. -/
def alreadyApplied (watermark : Option DriveId) (row : EventRow ε) : Bool :=
  match row.driveMessageId with
  | none => false
  | some id => watermark.any fun w => id.toNat ≤ w.toNat

/-- Apply the rows of a batch in order: what each commits on its own, and the
cursor after them. With `bulk` the first failure ends it with nothing. -/
def applyRows (bulk : Bool) (outcome : EventRow ε → ApplyOutcome) (watermark : Option DriveId) :
    List (EventRow ε) → DrainCursor → CacheDb ε → Option (DrainCursor × List (CacheDb ε))
  | [], cursor, _ => some (cursor, [])
  | row :: rest, cursor, db =>
    if alreadyApplied watermark row then applyRows bulk outcome watermark rest cursor db
    else
      match outcome row with
      | .ok marks =>
        let db' := db.apply row marks
        let cursor' := row.driveMessageId.elim cursor cursor.advance
        (applyRows bulk outcome watermark rest cursor' db').map fun out =>
          (out.1, db' :: out.2)
      | .failed marks =>
        if bulk then none
        else
          let db' := db.marked marks
          (applyRows bulk outcome watermark rest cursor.broken db').map fun out =>
            (out.1, db' :: out.2)

/-- How one batch ends, with the states it committed. -/
inductive BatchEnd (ε : Type) where
  /-- An apply failed in the one transaction, which is rolled back. -/
  | aborted
  | failed (trace : List (CacheDb ε))
  | committed (cursor : DrainCursor) (trace : List (CacheDb ε))

/-- The watermark a batch writes: the frontier, if it moved past where the drain
started. -/
def advancedTo (watermark before frontier : Option DriveId) : Option DriveId :=
  match frontier with
  | none => none
  | some f =>
    if frontier ≠ before ∧ watermark.all (fun w => w.toNat < f.toNat) then some f
    else none

/-- Process one loaded batch, in one transaction or event by event. -/
def applyDrainBatch (bulk : Bool) (faults : Faults ε) (attempt : Nat)
    (watermark : Option DriveId) (loaded : List (EventRow ε)) (cursor : DrainCursor)
    (db : CacheDb ε) : BatchEnd ε :=
  let batch := loaded.filter fun row => !faults.corrupt attempt row
  let corruptSeqs := (loaded.filter (faults.corrupt attempt)).map EventRow.seq
  if bulk && !faults.begins attempt then .failed []
  else
    -- a corrupt row is a lost event of unknown id
    let cursor' := if corruptSeqs.isEmpty then cursor else cursor.broken
    match applyRows bulk (faults.applies attempt) watermark batch cursor' db with
    | none => .aborted
    | some (after, trace) =>
      let committed := (finish db trace).commitDrainBatch
        (advancedTo watermark cursor.frontier after.frontier)
        (corruptSeqs ++ batch.map EventRow.seq) after.resyncNeeded batch
      if faults.commits attempt then
        .committed after (if bulk then [committed] else trace ++ [committed])
      else .failed (if bulk then [] else trace)

/-- One batch in one transaction, and event by event where an apply fails there.
The attempts of batch `n` are numbered `2 * n` and `2 * n + 1`. -/
def drainBatch (faults : Faults ε) (watermark : Option DriveId) (n : Nat)
    (loaded : List (EventRow ε)) (cursor : DrainCursor) (db : CacheDb ε) : BatchEnd ε :=
  match applyDrainBatch true faults (2 * n) watermark loaded cursor db with
  | .aborted => applyDrainBatch false faults (2 * n + 1) watermark loaded cursor db
  | .failed trace => .failed trace
  | .committed cursor' trace => .committed cursor' trace

inductive DrainEnd where
  /-- The store is empty; whether a resync is needed. -/
  | done (resyncNeeded : Bool)
  | failed
  | outOfFuel
deriving DecidableEq

structure DrainRun (ε : Type) where
  trace : List (CacheDb ε)
  ending : DrainEnd

/-- Batch after batch until the store is empty. -/
def drainLoop (limit : ℕ+) (faults : Faults ε) (watermark : Option DriveId) :
    Nat → Nat → DrainCursor → CacheDb ε → DrainRun ε
  | 0, _, _, _ => ⟨[], .outOfFuel⟩
  | fuel + 1, n, cursor, db =>
    let loaded := db.events.loadBatch limit
    if loaded.isEmpty then ⟨[], .done cursor.resyncNeeded⟩
    else
      match drainBatch faults watermark n loaded cursor db with
      | .aborted => ⟨[], .failed⟩
      | .failed trace => ⟨trace, .failed⟩
      | .committed cursor' trace =>
        let rest := drainLoop limit faults watermark fuel (n + 1) cursor' (finish db trace)
        ⟨trace ++ rest.trace, rest.ending⟩

def drainPersisted (limit : ℕ+) (faults : Faults ε) (db : CacheDb ε) : DrainRun ε :=
  drainLoop limit faults db.watermark (db.events.rows.length + 1) 0
    ⟨db.watermark, false, false⟩ db

/-- What persisting a burst commits: the burst, or the flag in its place. -/
def persist (burst : List (Option DriveId × ε)) (inserted marked : Bool) (db : CacheDb ε) :
    List (CacheDb ε) :=
  if inserted then [db.insertEventsBatch burst]
  else if marked then [db.markNeedsResync] else []

/-- Persist a burst, drain, and note what the router shed. The booleans say which
of the writes succeed. -/
def drainPending (limit : ℕ+) (burst : List (Option DriveId × ε)) (inserted marked : Bool)
    (faults : Faults ε) (shed shedMarked : Bool) (db : CacheDb ε) : List (CacheDb ε) :=
  let persisted := persist burst inserted marked db
  let drained := (drainPersisted limit faults (finish db persisted)).trace
  let after := finish db (persisted ++ drained)
  persisted ++ drained ++ if shed && shedMarked then [after.markNeedsResync] else []

/-- Populate file roots under the cover of the flag, unless it is set already. -/
def populateNewFileRoots (marked cleared : Bool) (db : CacheDb ε) : List (CacheDb ε) :=
  if db.needsResync then []
  else
    let covered := if marked then [db.markNeedsResync] else []
    covered ++ if cleared then [(finish db covered).clearNeedsResync] else []

inductive CacheOp (ε : Type) where
  | drainPending (burst : List (Option DriveId × ε)) (inserted marked : Bool) (faults : Faults ε)
      (shed shedMarked : Bool)
  | markNeedsResync
  | populateNewFileRoots (marked cleared : Bool)
  | commitResync (remoteUnderLock : DriveId) (markResync : Bool)

/-- The states an operation commits, one after another. -/
def CacheOp.commits (limit : ℕ+) (op : CacheOp ε) (db : CacheDb ε) : List (CacheDb ε) :=
  match op with
  | .drainPending burst inserted marked faults shed shedMarked =>
    Cache.drainPending limit burst inserted marked faults shed shedMarked db
  | .markNeedsResync => [db.markNeedsResync]
  | .populateNewFileRoots marked cleared => Cache.populateNewFileRoots marked cleared db
  | .commitResync remoteUnderLock markResync =>
    [db.commitResyncWatermark remoteUnderLock markResync]

def cacheStore (ε : Type) (limit : ℕ+) : Store (CacheDb ε) (CacheOp ε) where
  fresh := CacheDb.fresh
  commits := CacheOp.commits limit

end SyncEngine.Cache
