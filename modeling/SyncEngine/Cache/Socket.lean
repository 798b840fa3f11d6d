import SyncEngine.Cache.Frontier
import SyncEngine.Collections.Machine

/-! # The socket, its channel and the worker

The server numbers the operations on the drive. While the socket is up it hands
their events to the router in order, with the socket's own signals in between. The
router puts them on a channel that may be full, and then sheds them and latches
that it did. The worker drains the channel into the store, and reads the server's
last number where it checks for a gap and where it lists.
-/

namespace SyncEngine.Cache

open SyncEngine.Collections

variable {κ : Type}

/-- What a drive event does to the cache; one it has no use for does nothing. -/
inductive CacheEventType (κ : Type) where
  | noOp
  | change (change : κ)

inductive CacheEventMaybeDecrypted (κ : Type) where
  | decrypted (id : DriveId) (event : CacheEventType κ)
  /-- A drive event the cache cannot take: its id still counts. -/
  | frontierAdvance (id : DriveId)
  | resyncSignal
  | connected

/-- What the worker receives. A manual event upserts a listing, and touches
neither the watermark nor the flag. -/
inductive CacheThreadEvent (κ : Type) where
  | socket (event : CacheEventMaybeDecrypted κ)
  | manual

inductive GapCheck where
  | awaitingSubscription
  | due
  | done
deriving DecidableEq

/-- The event of the operation numbered `id`. -/
def fromDecryptedEvent (id : DriveId) (cacheable : Option κ) : CacheEventMaybeDecrypted κ :=
  match cacheable with
  | some change => .decrypted id (.change change)
  | none => .frontierAdvance id

/-- Sort one event of the channel: what is to be persisted, and the gap-check. -/
def classifyThreadEvent (sorted : List (Option DriveId × CacheEventType κ) × GapCheck)
    (event : CacheThreadEvent κ) : List (Option DriveId × CacheEventType κ) × GapCheck :=
  match event with
  | .socket (.decrypted id event) => (sorted.1 ++ [(some id, event)], sorted.2)
  | .socket (.frontierAdvance id) => (sorted.1 ++ [(some id, .noOp)], sorted.2)
  | .socket .resyncSignal => (sorted.1, .awaitingSubscription)
  | .socket .connected =>
    (sorted.1, if sorted.2 = .awaitingSubscription then .due else sorted.2)
  | .manual => sorted

def classify (gapCheck : GapCheck) (channel : List (CacheThreadEvent κ)) :
    List (Option DriveId × CacheEventType κ) × GapCheck :=
  channel.foldl classifyThreadEvent ([], gapCheck)

/-! ## The system -/

/-- What the worker goes on with after a drain. -/
inductive Resume where
  | loop
  /-- A resync, if the drain asked for one. -/
  | heal
  | wait
deriving DecidableEq

inductive Phase where
  | starting
  /-- Past a drain, before it looks at what the router shed. -/
  | swapping (resume : Resume)
  | idle
  /-- In a gap-check, before the server is read. -/
  | checking
  /-- In a resync that waits for the drive lock. -/
  | waiting
  /-- In a resync that lists under the lock. -/
  | listing (remoteUnderLock : DriveId)
deriving DecidableEq

/-- The server, the socket, the channel and the worker with its database. -/
structure System (κ : Type) where
  server : DriveId
  socketUp : Bool
  wire : List (CacheEventMaybeDecrypted κ)
  channel : List (CacheThreadEvent κ)
  shed : Bool
  gapCheck : GapCheck
  phase : Phase
  db : CacheDb (CacheEventType κ)

/-- What a drain finds wrong with events; its writes all succeed. -/
structure Hitches (κ : Type) where
  corrupt : Nat → EventRow (CacheEventType κ) → Bool
  applies : Nat → EventRow (CacheEventType κ) → ApplyOutcome

def Hitches.faults (hitches : Hitches κ) : Faults (CacheEventType κ) :=
  ⟨hitches.corrupt, hitches.applies, fun _ => true, fun _ => true⟩

namespace System

/-- A worker that starts on a database, its socket not connected yet. -/
def boot (server : DriveId) (db : CacheDb (CacheEventType κ)) : System κ :=
  ⟨server, false, [], [], false, .awaitingSubscription, .starting, db⟩

def sends (s : System κ) (event : CacheEventMaybeDecrypted κ) : System κ :=
  { s with wire := s.wire ++ [event] }

def operate (s : System κ) (id : DriveId) (cacheable : Option κ) : System κ :=
  let operated := { s with server := id }
  if s.socketUp then operated.sends (fromDecryptedEvent id cacheable) else operated

def connect (s : System κ) : System κ := { s with socketUp := true }.sends .connected

/-- The end of a connection, of which some events still arrive. -/
def disconnect (s : System κ) (delivered : Nat) : System κ :=
  { s with socketUp := false, wire := s.wire.take delivered }.sends .resyncSignal

/-- Put one event on the channel, or shed it where the channel is full. -/
def routeThreadEvent (s : System κ) (event : CacheEventMaybeDecrypted κ) (full : Bool) :
    System κ :=
  if full then { s with shed := true } else { s with channel := s.channel ++ [.socket event] }

/-- The worker at the select loop, no gap-check being due. -/
def selects (s : System κ) : Bool :=
  match s.phase with
  | .idle => s.gapCheck ≠ .due
  | _ => false

/-- Where the worker drains, and what it goes on with then. -/
def drains (s : System κ) : Option Resume :=
  match s.phase with
  | .starting => some .loop
  | .idle => if s.selects && !s.channel.isEmpty then some .heal else none
  | .waiting => if s.channel.isEmpty then none else some .wait
  | _ => none

def drainTrace (limit : ℕ+) (hitches : Hitches κ) (s : System κ) :
    List (CacheDb (CacheEventType κ)) :=
  drainPending limit (classify s.gapCheck s.channel).1 true true hitches.faults false true s.db

/-- Drain the channel, up to the look at the latch. -/
def drainPending (limit : ℕ+) (hitches : Hitches κ) (s : System κ) (resume : Resume) :
    System κ :=
  { s with
    channel := []
    gapCheck := (classify s.gapCheck s.channel).2
    phase := .swapping resume
    db := finish s.db (s.drainTrace limit hitches) }

def swapShed (s : System κ) : System κ :=
  { s with shed := false, db := if s.shed then s.db.markNeedsResync else s.db }

def maybeRunResync (s : System κ) : System κ :=
  { s with phase := if s.db.needsResync then .waiting else .idle }

def resumed (s : System κ) : Resume → System κ
  | .loop => { s with phase := .idle }
  | .heal => s.maybeRunResync
  | .wait => { s with phase := .waiting }

/-- Whether a gap-check that read `remote` resyncs. -/
def shouldResyncForRemote (s : System κ) (remote : DriveId) : Bool :=
  s.db.needsResync || (s.db.watermark.getD 0).toNat < remote.toNat

/-- The socket is subscribed, nothing waits anywhere, and nothing is owed. -/
def Quiet (s : System κ) : Prop :=
  s.socketUp = true ∧ s.wire = [] ∧ s.channel = [] ∧ s.shed = false ∧ s.gapCheck = .done ∧
    s.phase = .idle ∧ s.db.needsResync = false

instance (s : System κ) : Decidable s.Quiet :=
  inferInstanceAs (Decidable (_ ∧ _ = [] ∧ _ = [] ∧ _ ∧ _ ∧ _ ∧ _))

end System

/-! ## Its moves -/

inductive Move (κ : Type) where
  /-- An operation on the drive, and what its event tells the cache. -/
  | op (cacheable : Option κ)
  | connect
  /-- The socket goes down; only so many of the events under way still arrive. -/
  | disconnect (delivered : Nat)
  /-- The next event reaches the router. -/
  | deliver (full : Bool)
  | updateListDir
  | drain (hitches : Hitches κ)
  | swapShed
  | runGapCheck
  | catchUp
  | readRemote
  /-- A resync that was not completed is tried again. -/
  | retry
  /-- A resync for a new root, or for roots that were short. -/
  | relist
  /-- The lock is there: the snapshot id is read. -/
  | lock
  /-- The wait for the lock is given up. -/
  | abort
  | commit (markResync : Bool)
  /-- The process ends and is started again. -/
  | restart
  /-- The process ends in a drain, past some of its commits. -/
  | crash (hitches : Hitches κ) (committed : Nat)

namespace System

/-- Take one move, where it can be taken. -/
def step (limit : ℕ+) (move : Move κ) (s : System κ) : Option (System κ) :=
  match move with
  | .op cacheable => (checkedSucc s.server).map fun id => s.operate id cacheable
  | .connect => if s.socketUp then none else some s.connect
  | .disconnect delivered => if s.socketUp then some (s.disconnect delivered) else none
  | .deliver full =>
    match s.wire with
    | [] => none
    | event :: wire => some ({ s with wire := wire }.routeThreadEvent event full)
  | .updateListDir => some { s with channel := s.channel ++ [.manual] }
  | .drain hitches => s.drains.map (s.drainPending limit hitches)
  | .swapShed =>
    match s.phase with
    | .swapping resume => some (s.swapShed.resumed resume)
    | _ => none
  | .runGapCheck =>
    match s.phase with
    | .idle =>
      if s.gapCheck = .due then some { s with gapCheck := .done, phase := .checking } else none
    | _ => none
  | .catchUp => if s.selects then some { s with phase := .checking } else none
  | .readRemote =>
    match s.phase with
    | .checking =>
      some { s with phase := if s.shouldResyncForRemote s.server then .waiting else .idle }
    | _ => none
  | .retry => if s.selects then some s.maybeRunResync else none
  | .relist =>
    if s.selects then some { s with db := s.db.markNeedsResync, phase := .waiting } else none
  | .lock =>
    match s.phase with
    | .waiting => some { s with phase := .listing s.server }
    | _ => none
  | .abort =>
    match s.phase with
    | .waiting => some { s with db := s.db.markNeedsResync, phase := .idle }
    | _ => none
  | .commit markResync =>
    match s.phase with
    | .listing remoteUnderLock =>
      some { s with
        db := s.db.commitResyncWatermark remoteUnderLock markResync
        phase := .idle }
    | _ => none
  | .restart => some (boot s.server s.db)
  | .crash hitches committed =>
    s.drains.map fun _ =>
      boot s.server (finish s.db ((s.drainTrace limit hitches).take committed))

end System

def system (κ : Type) (limit : ℕ+) : Machine (System κ) (Move κ) where
  start := System.boot 0 CacheDb.fresh
  step := System.step limit

/-- Whenever all is quiet the cache is as far as the server, in the runs whose
moves are allowed. -/
def NothingBetween (κ : Type) (limit : ℕ+) (allowed : System κ → Move κ → Prop) : Prop :=
  ∀ s, (system κ limit).Reaches allowed s → s.Quiet → s.db.watermark.getD 0 = s.server

end SyncEngine.Cache
