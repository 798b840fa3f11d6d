import SyncEngine.Cache.Socket

/-! # Nothing between the socket and the gap-check

Past the last number the worker knows it has everything up to, an operation has
its event on the way, or a gap-check is owed, or the flag or the latch is set. A
socket that is down owes a check for its next subscription, as long as the signal
of its disconnect is not shed while the worker takes the last check as done.
-/

namespace SyncEngine.Cache

open CacheThreadEvent List SyncEngine.Collections

variable {κ : Type} {limit : ℕ+}

/-! ## Sorting the channel -/

def CacheThreadEvent.driveId : CacheThreadEvent κ → Option DriveId
  | .socket (.decrypted id _) => some id
  | .socket (.frontierAdvance id) => some id
  | .socket .resyncSignal => none
  | .socket .connected => none
  | .manual => none

def gapAfter (gapCheck : GapCheck) (channel : List (CacheThreadEvent κ)) : GapCheck :=
  (classify gapCheck channel).2

theorem foldl_classify_snd (sorted : List (Option DriveId × CacheEventType κ) × GapCheck)
    (channel : List (CacheThreadEvent κ)) :
    (channel.foldl classifyThreadEvent sorted).2 = gapAfter sorted.2 channel := by
  unfold gapAfter classify
  induction channel generalizing sorted with
  | nil => rfl
  | cons event channel ih =>
    rw [foldl_cons, foldl_cons, ih, ih (classifyThreadEvent ([], sorted.2) event)]
    congr 1
    unfold classifyThreadEvent
    split <;> rfl

theorem gapAfter_append (gapCheck : GapCheck) (first second : List (CacheThreadEvent κ)) :
    gapAfter gapCheck (first ++ second) = gapAfter (gapAfter gapCheck first) second := by
  unfold gapAfter classify
  rw [foldl_append, foldl_classify_snd]
  rfl

theorem gapAfter_cons (gapCheck : GapCheck) (event : CacheThreadEvent κ) (channel : List (CacheThreadEvent κ)) :
    gapAfter gapCheck (event :: channel) = gapAfter (gapAfter gapCheck [event]) channel :=
  gapAfter_append gapCheck [event] channel

theorem gapAfter_singleton (event : CacheThreadEvent κ) :
    event = .socket .resyncSignal ∧
        (∀ gapCheck, gapAfter gapCheck [event] = .awaitingSubscription) ∨
      event = .socket .connected ∧ (∀ gapCheck, gapAfter gapCheck [event] =
        if gapCheck = .awaitingSubscription then .due else gapCheck) ∨
      (∀ gapCheck, gapAfter gapCheck [event] = gapCheck) ∧
        event ≠ .socket .resyncSignal ∧ event ≠ .socket .connected := by
  match event with
  | .socket .resyncSignal => exact Or.inl ⟨rfl, fun _ => rfl⟩
  | .socket .connected => exact Or.inr (Or.inl ⟨rfl, fun _ => rfl⟩)
  | .socket (.decrypted _ _) => exact Or.inr (Or.inr ⟨fun _ => rfl, by simp, by simp⟩)
  | .socket (.frontierAdvance _) => exact Or.inr (Or.inr ⟨fun _ => rfl, by simp, by simp⟩)
  | .manual => exact Or.inr (Or.inr ⟨fun _ => rfl, by simp, by simp⟩)

variable {gapCheck : GapCheck} {channel : List (CacheThreadEvent κ)}

theorem gapAfter_awaiting
    (h : gapAfter gapCheck channel = .awaitingSubscription) :
    gapCheck = .awaitingSubscription ∨ socket .resyncSignal ∈ channel := by
  induction channel generalizing gapCheck with
  | nil => exact Or.inl h
  | cons event channel ih =>
    rw [gapAfter_cons] at h
    rcases ih h with hevent | hmem
    · rcases gapAfter_singleton event with ⟨rfl, -⟩ | ⟨-, hgap⟩ | ⟨hgap, -⟩
      · exact Or.inr mem_cons_self
      · rw [hgap] at hevent
        split at hevent
        · cases hevent
        · exact Or.inl hevent
      rw [hgap] at hevent
      exact Or.inl hevent
    · exact Or.inr (mem_cons_of_mem event hmem)

theorem gapAfter_forgets
    (hgap : gapCheck ≠ .awaitingSubscription)
    (h : gapAfter gapCheck channel = .awaitingSubscription) (other : GapCheck) :
    gapAfter other channel = .awaitingSubscription := by
  induction channel generalizing gapCheck other with
  | nil => exact absurd h hgap
  | cons event channel ih =>
    rw [gapAfter_cons] at h ⊢
    rcases gapAfter_singleton event with ⟨-, hsame⟩ | ⟨-, hsame⟩ | ⟨hsame, -⟩
    · rw [hsame] at h ⊢
      exact h
    · rw [hsame, if_neg hgap] at h
      exact ih hgap h _
    rw [hsame] at h
    exact ih hgap h _

theorem gapAfter_ne_done
    (h : gapCheck ≠ .done ∨ socket .resyncSignal ∈ channel) :
    gapAfter gapCheck channel ≠ .done := by
  induction channel generalizing gapCheck with
  | nil => exact h.resolve_right not_mem_nil
  | cons event channel ih =>
    rw [gapAfter_cons]
    apply ih
    rcases gapAfter_singleton event with ⟨-, hsame⟩ | ⟨hevent, hsame⟩ | ⟨hsame, hevent, -⟩
    · rw [hsame]
      exact Or.inl (by simp)
    · rw [hsame]
      rcases h with h | h
      · left
        split
        · simp
        · exact h
      rw [hevent] at h
      exact Or.inr ((mem_cons.mp h).resolve_left (by simp))
    rw [hsame]
    exact h.imp_right fun hmem =>
      (mem_cons.mp hmem).resolve_left fun heq => hevent heq.symm

theorem mem_classify {id : DriveId} :
    (∃ e ∈ (classify gapCheck channel).1, e.1 = some id) ↔
      ∃ event ∈ channel, event.driveId = some id := by
  have hfold : ∀ sorted : List (Option DriveId × CacheEventType κ) × GapCheck,
      (∃ e ∈ (channel.foldl classifyThreadEvent sorted).1, e.1 = some id) ↔
        (∃ e ∈ sorted.1, e.1 = some id) ∨ ∃ event ∈ channel, event.driveId = some id := by
    induction channel with
    | nil => simp
    | cons event channel ih =>
      intro sorted
      rw [foldl_cons, ih, exists_mem_cons_iff, ← or_assoc]
      refine or_congr_left ?_
      match event with
      | .socket (.decrypted _ _) | .socket (.frontierAdvance _) =>
        simp [classifyThreadEvent, driveId, or_and_right, exists_or]
      | .socket .resyncSignal => simp [classifyThreadEvent, driveId]
      | .socket .connected => simp [classifyThreadEvent, driveId]
      | .manual => simp [classifyThreadEvent, driveId]
  exact (hfold ([], gapCheck)).trans (by simp)

/-! ## What a run keeps -/

namespace System

def pending (s : System κ) : List (CacheThreadEvent κ) :=
  s.channel ++ s.wire.map .socket

/-- The event of the operation is on its way. -/
def Queued (s : System κ) (id : DriveId) : Prop :=
  ∃ event ∈ s.pending, event.driveId = some id

/-- A gap-check is still to come. -/
def Owed (s : System κ) : Prop :=
  s.gapCheck ≠ .done ∨ socket .resyncSignal ∈ s.pending

/-- The number the worker takes itself to have everything up to, where it does. -/
def caughtUp (s : System κ) : Option Nat :=
  match s.phase with
  | .starting | .idle | .swapping .loop | .swapping .heal =>
    if s.db.needsResync then none else some s.db.level
  | .listing remoteUnderLock => some remoteUnderLock.toNat
  | .swapping .wait | .checking | .waiting => none

variable {s t : System κ} {id : DriveId} {event : CacheThreadEvent κ} {resume : Resume}

theorem caughtUp_cases {n : Nat} (h : s.caughtUp = some n) :
    (s.db.needsResync = false ∧ s.db.level = n) ∨
      ∃ remoteUnderLock, s.phase = .listing remoteUnderLock ∧ remoteUnderLock.toNat = n := by
  have hclear : (if s.db.needsResync then none else some s.db.level) = some n →
      s.db.needsResync = false ∧ s.db.level = n := by
    cases s.db.needsResync <;> simp
  unfold caughtUp at h
  split at h
  · exact Or.inl (hclear h)
  · exact Or.inl (hclear h)
  · exact Or.inl (hclear h)
  · exact Or.inl (hclear h)
  · rename_i remoteUnderLock hphase
    exact Or.inr ⟨remoteUnderLock, hphase, Option.some.inj h⟩
  · cases h
  · cases h
  · cases h

/-- What the worker is past it has, or it will hear of it. -/
def Covered (s : System κ) : Prop :=
  s.shed = false → ∀ n, s.caughtUp = some n →
    ∀ id : DriveId, n < id.toNat → id.toNat ≤ s.server.toNat → s.Queued id ∨ s.Owed

/-- Nothing is ahead of the server. -/
structure Bounded (s : System κ) : Prop where
  db : s.db.Within s.server.toNat
  queued : ∀ id, s.Queued id → id.toNat ≤ s.server.toNat
  listed : ∀ remoteUnderLock, s.phase = .listing remoteUnderLock →
    remoteUnderLock.toNat ≤ s.server.toNat

/-- A socket that is down has a check wait for its next subscription. -/
def AwaitsSocket (s : System κ) : Prop :=
  s.socketUp = false → gapAfter s.gapCheck s.pending = .awaitingSubscription

/-- What every state of a run keeps. -/
structure Sound (s : System κ) : Prop where
  bounded : s.Bounded
  awaits : s.AwaitsSocket
  covered : s.Covered

theorem owed_of_down (h : s.AwaitsSocket) (hdown : s.socketUp = false) :
    s.Owed := by
  rcases gapAfter_awaiting (h hdown) with hgap | hmem
  · left
    rw [hgap]
    simp
  · exact Or.inr hmem

theorem Sound.current (h : s.Sound) (hquiet : s.Quiet) :
    s.db.watermark.getD 0 = s.server := by
  obtain ⟨-, hwire, hchannel, hshed, hgap, hphase, hclear⟩ := hquiet
  have hpending : s.pending = [] := by
    unfold pending
    rw [hwire, hchannel]
    rfl
  have hcaught : s.caughtUp = some s.db.level := by
    unfold caughtUp
    rw [hphase]
    simp [hclear]
  have hreached : s.server.toNat ≤ s.db.level := by
    by_contra hbehind
    rcases h.covered hshed _ hcaught s.server (Nat.lt_of_not_le hbehind) (le_refl _) with
      ⟨event, hevent, -⟩ | howed | howed
    · rw [hpending] at hevent
      cases hevent
    · exact howed hgap
    rw [hpending] at howed
    cases howed
  exact BitVec.toNat_inj.mp (le_antisymm h.bounded.db.level hreached)

/-! ## The server, the socket and the router -/

/-- A move that leaves the worker alone and forgets nothing. -/
structure Carries (s t : System κ) : Prop where
  phase : t.phase = s.phase
  db : t.db = s.db
  server : s.server.toNat ≤ t.server.toNat
  owed : s.Owed → t.Owed
  latch : t.shed = false → s.shed = false ∧ ∀ id, s.Queued id → t.Queued id ∨ t.Owed
  arrives : ∀ id : DriveId, s.server.toNat < id.toNat → id.toNat ≤ t.server.toNat →
    t.Queued id ∨ t.Owed
  queued : ∀ id, t.Queued id → s.Queued id ∨ id.toNat ≤ t.server.toNat

theorem Carries.caughtUp (h : s.Carries t) : t.caughtUp = s.caughtUp := by
  unfold System.caughtUp
  rw [h.phase, h.db]

theorem Carries.bounded (h : s.Carries t) (hs : s.Bounded) : t.Bounded where
  db := by
    rw [h.db]
    exact hs.db.mono h.server
  queued id hid := by
    rcases h.queued id hid with hqueued | hle
    · exact le_trans (hs.queued id hqueued) h.server
    · exact hle
  listed remote hremote := le_trans (hs.listed remote (h.phase ▸ hremote)) h.server

theorem Carries.covered (h : s.Carries t) (hs : s.Covered) : t.Covered := by
  intro hshed n hn id hlo hhi
  obtain ⟨hlatch, hqueued⟩ := h.latch hshed
  by_cases hnew : s.server.toNat < id.toNat
  · exact h.arrives id hnew hhi
  rw [h.caughtUp] at hn
  rcases hs hlatch n hn id hlo (Nat.le_of_not_lt hnew) with hmem | howed
  · exact hqueued id hmem
  · exact Or.inr (h.owed howed)

theorem Carries.sound (h : s.Carries t) (hs : s.Sound) (hawaits : t.AwaitsSocket) :
    t.Sound :=
  ⟨h.bounded hs.bounded, hawaits, h.covered hs.covered⟩

theorem Carries.of_append {more : List (CacheThreadEvent κ)}
    (hphase : t.phase = s.phase) (hdb : t.db = s.db) (hgap : t.gapCheck = s.gapCheck)
    (hshed : t.shed = s.shed) (hserver : t.server = s.server)
    (hpending : t.pending = s.pending ++ more) (hmore : ∀ e ∈ more, e.driveId = none) :
    s.Carries t where
  phase := hphase
  db := hdb
  server := by rw [hserver]
  owed howed := by
    unfold Owed
    rw [hgap, hpending]
    exact howed.imp_right (mem_append_left more)
  latch hclear := by
    refine ⟨hshed ▸ hclear, fun id ⟨event, hevent, hid⟩ => Or.inl ⟨event, ?_, hid⟩⟩
    rw [hpending]
    exact mem_append_left more hevent
  arrives id hlo hhi := by
    rw [hserver] at hhi
    exact absurd hhi (Nat.not_le_of_lt hlo)
  queued id := by
    rintro ⟨event, hevent, hid⟩
    rw [hpending] at hevent
    rcases mem_append.mp hevent with hevent | hevent
    · exact Or.inl ⟨event, hevent, hid⟩
    rw [hmore event hevent] at hid
    cases hid

theorem pending_sends (s : System κ) (event : CacheEventMaybeDecrypted κ) :
    (s.sends event).pending = s.pending ++ [.socket event] := by
  unfold pending sends
  rw [map_append, ← append_assoc]
  rfl

theorem operate_sound (hs : s.Sound) (hid : checkedSucc s.server = some id) (cacheable : Option κ) :
    (s.operate id cacheable).Sound := by
  have hsucc : s.server.toNat + 1 = id.toNat := checkedSucc_eq_some.mp hid
  have hserver : s.server.toNat ≤ id.toNat := by omega
  unfold operate
  split
  · rename_i hup
    have hpending := pending_sends { s with server := id } (fromDecryptedEvent id cacheable)
    have hevent : (socket (fromDecryptedEvent id cacheable)).driveId =
        some id := by
      cases cacheable <;> rfl
    have hcarries : s.Carries
        ({ s with server := id }.sends (fromDecryptedEvent id cacheable)) := by
      refine ⟨rfl, rfl, hserver, ?_, fun h => ⟨h, ?_⟩, ?_, ?_⟩
      · unfold Owed
        rw [hpending]
        exact Or.imp_right fun hmem => mem_append_left _ hmem
      · rintro other ⟨event, hmem, hother⟩
        refine Or.inl ⟨event, ?_, hother⟩
        rw [hpending]
        exact mem_append_left _ hmem
      · -- the operation itself
        intro other hlo hhi
        have hother : id = other := BitVec.toNat_inj.mp (le_antisymm (hsucc ▸ hlo) hhi)
        refine Or.inl ⟨.socket (fromDecryptedEvent id cacheable), ?_, hother ▸ hevent⟩
        rw [hpending]
        exact mem_append_right _ (mem_singleton.mpr rfl)
      rintro other ⟨event, hmem, hother⟩
      rw [hpending] at hmem
      rcases mem_append.mp hmem with hmem | hmem
      · exact Or.inl ⟨event, hmem, hother⟩
      rw [mem_singleton.mp hmem, hevent] at hother
      cases hother
      exact Or.inr (le_refl _)
    refine hcarries.sound hs fun hdown => ?_
    exact absurd (hup.symm.trans hdown) (by simp)
  rename_i hup
  have howed : s.Owed := owed_of_down hs.awaits (Bool.eq_false_iff.mpr hup)
  have hcarries : s.Carries { s with server := id } :=
    ⟨rfl, rfl, hserver, fun h => h, fun h => ⟨h, fun _ => Or.inl⟩,
      fun _ _ _ => Or.inr howed, fun _ => Or.inl⟩
  exact hcarries.sound hs hs.awaits

theorem connect_sound (hs : s.Sound) : s.connect.Sound := by
  have hcarries : s.Carries s.connect :=
    Carries.of_append rfl rfl rfl rfl rfl (pending_sends { s with socketUp := true } .connected)
      (by simp [driveId])
  refine hcarries.sound hs fun hdown => ?_
  cases hdown

theorem disconnect_sound (hs : s.Sound) (delivered : Nat) :
    (s.disconnect delivered).Sound := by
  have hpending := pending_sends { s with socketUp := false, wire := s.wire.take delivered }
    .resyncSignal
  have howed : (s.disconnect delivered).Owed := by
    right
    unfold disconnect
    rw [hpending]
    exact mem_append_right _ (mem_singleton.mpr rfl)
  have hcarries : s.Carries (s.disconnect delivered) := by
    refine ⟨rfl, rfl, le_refl _, fun _ => howed, fun h => ⟨h, fun _ _ => Or.inr howed⟩,
      fun _ _ _ => Or.inr howed, ?_⟩
    rintro other ⟨event, hmem, hother⟩
    unfold disconnect at hmem
    rw [hpending] at hmem
    rcases mem_append.mp hmem with hmem | hmem
    · refine Or.inl ⟨event, ?_, hother⟩
      rcases mem_append.mp hmem with hmem | hmem
      · exact mem_append_left _ hmem
      obtain ⟨e, he, rfl⟩ := mem_map.mp hmem
      exact mem_append_right _ (mem_map_of_mem (mem_of_mem_take he))
    rw [mem_singleton.mp hmem] at hother
    cases hother
  refine hcarries.sound hs fun _ => ?_
  unfold disconnect
  rw [hpending, gapAfter_append]
  rfl

/-- What a full channel sheds is no disconnect, or one that changes nothing for
the worker. -/
def ShedsHarmlessly (s : System κ) (move : Move κ) : Prop :=
  match move, s.wire with
  | .deliver true, .resyncSignal :: _ =>
    gapAfter s.gapCheck s.channel = .awaitingSubscription
  | _, _ => True

theorem gapAfter_shed {gapCheck : GapCheck} {rest : List (CacheThreadEvent κ)}
    (hevent : event = .socket .resyncSignal → gapCheck = .awaitingSubscription)
    (h : gapAfter gapCheck (event :: rest) = .awaitingSubscription) :
    gapAfter gapCheck rest = .awaitingSubscription := by
  rw [gapAfter_cons] at h
  rcases gapAfter_singleton event with ⟨hsignal, hsame⟩ | ⟨-, hsame⟩ | ⟨hsame, -⟩
  · rw [hsame] at h
    rw [hevent hsignal]
    exact h
  · rw [hsame] at h
    split at h
    · exact gapAfter_forgets (by simp) h gapCheck
    · exact h
  rw [hsame] at h
  exact h

theorem deliver_sound {event : CacheEventMaybeDecrypted κ}
    {wire : List (CacheEventMaybeDecrypted κ)} (hs : s.Sound) (hwire : s.wire = event :: wire)
    {full : Bool} (hallowed : s.ShedsHarmlessly (.deliver full)) :
    ({ s with wire := wire }.routeThreadEvent event full).Sound := by
  have hpending : s.pending = s.channel ++ .socket event :: wire.map .socket := by
    unfold pending
    rw [hwire]
    rfl
  cases full with
  | false =>
    have hsame : ({ s with wire := wire }.routeThreadEvent event false).pending = s.pending := by
      rw [hpending]
      exact append_cons _ _ _ ▸ rfl
    have hcarries : s.Carries ({ s with wire := wire }.routeThreadEvent event false) :=
      Carries.of_append rfl rfl rfl rfl rfl (hsame.trans (append_nil _).symm) (by simp)
    refine hcarries.sound hs fun hdown => ?_
    rw [hsame]
    exact hs.awaits hdown
  | true =>
    have hsignal : socket event = .socket .resyncSignal →
        gapAfter s.gapCheck s.channel = .awaitingSubscription := by
      intro heq
      cases heq
      unfold ShedsHarmlessly at hallowed
      rw [hwire] at hallowed
      exact hallowed
    have hsub : ∀ e ∈ s.channel ++ wire.map socket, e ∈ s.pending := by
      intro e he
      rw [hpending]
      exact ((sublist_cons_self _ _).append_left s.channel).subset he
    have hcarries : s.Carries ({ s with wire := wire }.routeThreadEvent event true) := by
      refine ⟨rfl, rfl, le_refl _, ?_, fun hshed => ?_, fun id hlo hhi => ?_, ?_⟩
      · rintro (hgap | hmem)
        · exact Or.inl hgap
        rw [hpending] at hmem
        rcases mem_append.mp hmem with hmem | hmem
        · exact Or.inr (mem_append_left _ hmem)
        rcases mem_cons.mp hmem with heq | hmem
        · -- the one that is shed: the worker waits already
          rcases gapAfter_awaiting (hsignal heq.symm) with hgap | hmem
          · left
            show s.gapCheck ≠ .done
            rw [hgap]
            simp
          · exact Or.inr (mem_append_left _ hmem)
        · exact Or.inr (mem_append_right _ hmem)
      · cases hshed
      · exact absurd hhi (Nat.not_le_of_lt hlo)
      rintro id ⟨e, he, hid⟩
      exact Or.inl ⟨e, hsub e he, hid⟩
    refine hcarries.sound hs fun hdown => ?_
    have hawaits := hs.awaits hdown
    rw [hpending, gapAfter_append] at hawaits
    show gapAfter s.gapCheck (s.channel ++ wire.map .socket) = .awaitingSubscription
    rw [gapAfter_append]
    exact gapAfter_shed hsignal hawaits

theorem updateListDir_sound (hs : s.Sound) :
    { s with channel := s.channel ++ [.manual] : System κ }.Sound := by
  have hpending : { s with channel := s.channel ++ [.manual] : System κ }.pending =
      s.channel ++ (.manual :: s.wire.map .socket) := (append_cons _ _ _).symm
  have hmem : ∀ e, e ≠ manual →
      (e ∈ { s with channel := s.channel ++ [.manual] : System κ }.pending ↔ e ∈ s.pending) := by
    intro e hne
    rw [hpending]
    unfold pending
    simp [hne]
  have hqueued : ∀ id,
      { s with channel := s.channel ++ [.manual] : System κ }.Queued id ↔ s.Queued id := by
    intro id
    refine exists_congr fun e => and_congr_left fun hid => hmem e ?_
    rintro rfl
    cases hid
  have hcarries : s.Carries { s with channel := s.channel ++ [.manual] } := by
    refine ⟨rfl, rfl, le_refl _, Or.imp_right (hmem _ (by simp)).mpr,
      fun hshed => ⟨hshed, fun id hid => Or.inl ((hqueued id).mpr hid)⟩,
      fun id hlo hhi => absurd hhi (Nat.not_le_of_lt hlo),
      fun id hid => Or.inl ((hqueued id).mp hid)⟩
  refine hcarries.sound hs fun hdown => ?_
  have hawaits := hs.awaits hdown
  unfold pending at hawaits
  rw [hpending, gapAfter_append, gapAfter_cons]
  rw [gapAfter_append] at hawaits
  exact hawaits

/-! ## The worker -/

/-- A move of the worker alone, which takes the watermark no further than the server. -/
structure Works (s t : System κ) : Prop where
  server : t.server = s.server
  socketUp : t.socketUp = s.socketUp
  pending : ∀ e ∈ t.pending, e ∈ s.pending
  awaits : gapAfter s.gapCheck s.pending = .awaitingSubscription →
    gapAfter t.gapCheck t.pending = .awaitingSubscription
  db : t.db.Within s.server.toNat
  listed : ∀ remoteUnderLock, t.phase = .listing remoteUnderLock →
    remoteUnderLock.toNat ≤ s.server.toNat

theorem Works.sound (h : s.Works t) (hs : s.Sound) (hcovered : t.Covered) :
    t.Sound where
  bounded := by
    refine ⟨?_, fun id ⟨event, hevent, hid⟩ => ?_, ?_⟩
    · rw [h.server]
      exact h.db
    · rw [h.server]
      exact hs.bounded.queued id ⟨event, h.pending event hevent, hid⟩
    rw [h.server]
    exact h.listed
  awaits hdown := h.awaits (hs.awaits (h.socketUp ▸ hdown))
  covered := hcovered

theorem covered_of_none (h : s.caughtUp = none) : s.Covered := by
  intro _ n hn
  rw [h] at hn
  cases hn

theorem works_of_kept (hs : s.Bounded) (hserver : t.server = s.server)
    (hsocket : t.socketUp = s.socketUp) (hpending : t.pending = s.pending)
    (hgap : t.gapCheck = s.gapCheck) (hdb : t.db = s.db ∨ t.db = s.db.markNeedsResync)
    (hlisted : ∀ remote, t.phase = .listing remote → remote.toNat ≤ s.server.toNat) :
    s.Works t where
  server := hserver
  socketUp := hsocket
  pending e he := hpending ▸ he
  awaits hawaits := by
    rw [hgap, hpending]
    exact hawaits
  db := by
    rcases hdb with hdb | hdb
    · rw [hdb]
      exact hs.db
    rw [hdb]
    exact ⟨hs.db.level, hs.db.waits⟩
  listed := hlisted

theorem drainTrace_within (hs : s.Bounded) (hitches : Hitches κ) :
    ∀ t ∈ s.drainTrace limit hitches, t.Within s.server.toNat := by
  intro t ht
  refine (drainPending_paces t ht).within ⟨hs.db.level, fun id hid => ?_⟩
  rcases waits_insertEventsBatch.mp hid with hid | hid
  · exact hs.db.waits id hid
  obtain ⟨event, hevent, hdrive⟩ := mem_classify.mp hid
  exact hs.queued id ⟨event, mem_append_left _ hevent, hdrive⟩

/-- The worker drains where it takes itself to have everything up to the watermark,
or in the wait of a resync. -/
theorem caughtUp_of_drains (h : s.drains = some resume) (hclear : s.db.needsResync = false) :
    resume = .wait ∨ s.caughtUp = some s.db.level := by
  unfold drains at h
  unfold caughtUp
  split at h
  · rename_i hphase
    right
    rw [hphase]
    simp [hclear]
  · rename_i hphase
    right
    rw [hphase]
    simp [hclear]
  · split at h
    · cases h
    cases h
    exact Or.inl rfl
  · cases h

theorem le_level_of_drained {hitches : Hitches κ} (h : (finish s.db (s.drainTrace limit hitches)).needsResync = false)
    (hevent : event ∈ s.channel) (hid : event.driveId = some id) :
    id.toNat ≤ (finish s.db (s.drainTrace limit hitches)).level :=
  drainPending_behind (fun _ => rfl) (fun _ => rfl) h id
    (waits_insertEventsBatch.mpr (Or.inr (mem_classify.mpr ⟨event, hevent, hid⟩)))

theorem drainPending_sound (hs : s.Sound) (hdrains : s.drains = some resume) (hitches : Hitches κ) :
    (s.drainPending limit hitches resume).Sound := by
  have hwithin : (finish s.db (s.drainTrace limit hitches)).Within s.server.toNat :=
    finish_mem (P := fun t : CacheDb (CacheEventType κ) => t.Within s.server.toNat)
      hs.bounded.db (drainTrace_within hs.bounded hitches)
  have hworks : s.Works (s.drainPending limit hitches resume) := by
    refine ⟨rfl, rfl, fun e he => mem_append_right _ he, fun hawaits => ?_, hwithin, ?_⟩
    · unfold pending at hawaits
      rw [gapAfter_append] at hawaits
      exact hawaits
    intro remote hremote
    cases hremote
  have howed : s.Owed → (s.drainPending limit hitches resume).Owed := by
    rintro (hgap | hmem)
    · exact Or.inl (gapAfter_ne_done (Or.inl hgap))
    rcases mem_append.mp hmem with hmem | hmem
    · exact Or.inl (gapAfter_ne_done (Or.inr hmem))
    · exact Or.inr (mem_append_right _ hmem)
  refine hworks.sound hs fun hshed n hn id hlo hhi => ?_
  rcases caughtUp_cases hn with ⟨hclear, rfl⟩ | ⟨remote, hlisting, -⟩
  swap
  · cases hlisting
  have hwait : resume ≠ .wait := by
    rintro rfl
    cases hn
  have hpaces : Paces (s.db.insertEventsBatch (classify s.gapCheck s.channel).1)
      (finish s.db (s.drainTrace limit hitches)) := drainPending_finish _ _ _
  have hlevel : s.db.level ≤ (finish s.db (s.drainTrace limit hitches)).level :=
    level_of_reach hpaces.reach
  have hcaught := (caughtUp_of_drains hdrains (hpaces.clear hclear)).resolve_left hwait
  rcases hs.covered hshed _ hcaught id (lt_of_le_of_lt hlevel hlo) hhi with
    ⟨event, hevent, hid⟩ | h
  · rcases mem_append.mp hevent with hevent | hevent
    · exact absurd (le_level_of_drained hclear hevent hid) (Nat.not_le_of_lt hlo)
    · exact Or.inl ⟨event, mem_append_right _ hevent, hid⟩
  · exact Or.inr (howed h)

theorem Covered.mono (hs : s.Covered) (hserver : t.server = s.server)
    (hpending : t.pending = s.pending) (hgap : t.gapCheck = s.gapCheck)
    (h : t.shed = false → ∀ n, t.caughtUp = some n → s.shed = false ∧ s.caughtUp = some n) :
    t.Covered := by
  intro hshed n hn id hlo hhi
  obtain ⟨hclear, hcaught⟩ := h hshed n hn
  unfold Queued Owed
  rw [hpending, hgap]
  exact hs hclear n hcaught id hlo (hserver ▸ hhi)

theorem caughtUp_of_flag (h : s.db.needsResync)
    (hphase : ∀ remote, s.phase ≠ .listing remote) : s.caughtUp = none := by
  cases hn : s.caughtUp with
  | none => rfl
  | some n =>
    rcases caughtUp_cases hn with ⟨hclear, -⟩ | ⟨remote, hlisting, -⟩
    · rw [h] at hclear
      cases hclear
    · exact absurd hlisting (hphase remote)

theorem resumed_phase (s : System κ) (resume : Resume) (remote : DriveId) :
    (s.resumed resume).phase ≠ .listing remote := by
  cases resume with
  | loop => simp [resumed]
  | heal =>
    unfold resumed maybeRunResync
    dsimp only
    split <;> simp
  | wait => simp [resumed]

theorem swapShed_sound (hs : s.Sound) (hphase : s.phase = .swapping resume) : (s.swapShed.resumed resume).Sound := by
  have hdb : (s.swapShed.resumed resume).db = if s.shed then s.db.markNeedsResync else s.db := by
    cases resume <;> rfl
  have hworks : s.Works (s.swapShed.resumed resume) := by
    refine works_of_kept hs.bounded ?_ ?_ ?_ ?_ ?_ fun remote hremote => ?_
    · cases resume <;> rfl
    · cases resume <;> rfl
    · cases resume <;> rfl
    · cases resume <;> rfl
    · rw [hdb]
      cases s.shed with
      | true => exact Or.inr rfl
      | false => exact Or.inl rfl
    · exact absurd hremote (resumed_phase _ _ _)
  refine hworks.sound hs ?_
  cases hshed : s.shed with
  | true =>
    have hflag : (s.swapShed.resumed resume).db.needsResync := by
      rw [hdb, hshed]
      rfl
    exact covered_of_none (caughtUp_of_flag hflag (resumed_phase _ _))
  | false =>
    have hsame : s.swapShed = s := by
      cases s
      cases hshed
      rfl
    rw [hsame]
    refine hs.covered.mono ?_ ?_ ?_ fun _ n hn => ⟨hshed, ?_⟩
    · cases resume <;> rfl
    · cases resume <;> rfl
    · cases resume <;> rfl
    rcases caughtUp_cases hn with ⟨hclear, rfl⟩ | ⟨remote, hlisting, -⟩
    · cases resume with
      | loop | heal =>
        have hclear : s.db.needsResync = false := hclear
        unfold caughtUp
        rw [hphase]
        simp only [hclear]
        rfl
      | wait => cases hn
    · exact absurd hlisting (resumed_phase _ _ _)

theorem Works.sound_of_none (h : s.Works t) (hs : s.Sound) (hnone : t.caughtUp = none) : t.Sound :=
  h.sound hs (covered_of_none hnone)

theorem selects_phase (h : s.selects) : s.phase = .idle := by
  unfold selects at h
  split at h
  · assumption
  · cases h

section

variable (hs : s.Sound)
include hs

theorem maybeRunResync_sound (hphase : s.phase = .idle) :
    s.maybeRunResync.Sound := by
  unfold maybeRunResync
  split
  · have hworks : s.Works { s with phase := .waiting } :=
      works_of_kept hs.bounded rfl rfl rfl rfl (Or.inl rfl) (by simp)
    exact hworks.sound_of_none hs rfl
  have hsame : { s with phase := .idle } = s := by
    rw [← hphase]
  rw [hsame]
  exact hs

theorem runGapCheck_sound (hdue : s.gapCheck = .due) :
    { s with gapCheck := .done, phase := .checking }.Sound := by
  have hworks : s.Works { s with gapCheck := .done, phase := .checking } := by
    refine ⟨rfl, rfl, fun e he => he, fun hawaits => ?_, hs.bounded.db, by simp⟩
    rw [hdue] at hawaits
    exact gapAfter_forgets (by simp) hawaits .done
  exact hworks.sound_of_none hs rfl

theorem readRemote_sound :
    { s with phase :=
      if s.shouldResyncForRemote s.server then Phase.waiting else .idle }.Sound := by
  cases hresync : s.shouldResyncForRemote s.server with
  | true =>
    have hworks : s.Works { s with phase := .waiting } :=
      works_of_kept hs.bounded rfl rfl rfl rfl (Or.inl rfl) (by simp)
    exact hworks.sound_of_none hs rfl
  | false =>
    have hworks : s.Works { s with phase := .idle } :=
      works_of_kept hs.bounded rfl rfl rfl rfl (Or.inl rfl) (by simp)
    have hlevel : s.server.toNat ≤ s.db.level := by
      have h := (Bool.or_eq_false_iff.mp hresync).2
      exact Nat.le_of_not_lt (of_decide_eq_false h)
    refine hworks.sound hs fun _ n hn id hlo hhi => ?_
    rcases caughtUp_cases hn with ⟨-, rfl⟩ | ⟨remote, hlisting, -⟩
    · exact absurd hlo (Nat.not_lt_of_le (le_trans hhi hlevel))
    · cases hlisting

theorem lock_sound :
    { s with phase := .listing s.server }.Sound := by
  have hworks : s.Works { s with phase := .listing s.server } := by
    refine works_of_kept hs.bounded rfl rfl rfl rfl (Or.inl rfl) fun remote hremote => ?_
    cases hremote
    exact le_refl _
  refine hworks.sound hs fun _ n hn id hlo hhi => ?_
  cases hn
  exact absurd hlo (Nat.not_lt_of_le hhi)

theorem commit_sound {remoteUnderLock : DriveId}
    (hphase : s.phase = .listing remoteUnderLock) (markResync : Bool) :
    { s with
      db := s.db.commitResyncWatermark remoteUnderLock markResync
      phase := .idle }.Sound := by
  have hworks : s.Works { s with
      db := s.db.commitResyncWatermark remoteUnderLock markResync
      phase := .idle } :=
    ⟨rfl, rfl, fun e he => he, fun hawaits => hawaits,
      ⟨hs.bounded.listed _ hphase, hs.bounded.db.waits⟩, by simp⟩
  refine hworks.sound hs (hs.covered.mono rfl rfl rfl fun hshed n hn => ⟨hshed, ?_⟩)
  rcases caughtUp_cases hn with ⟨-, rfl⟩ | ⟨remote, hlisting, -⟩
  · unfold caughtUp
    rw [hphase]
    rfl
  · cases hlisting

end

theorem boot_sound {server : DriveId} {db : CacheDb (CacheEventType κ)}
    (h : db.Within server.toNat) : (boot server db).Sound where
  bounded := by
    refine ⟨h, fun id => ?_, fun remote hremote => ?_⟩
    · rintro ⟨event, hevent, -⟩
      cases hevent
    · cases hremote
  awaits _ := rfl
  covered _ _ _ _ _ _ := Or.inr (Or.inl (by simp [boot]))

/-- Every move keeps what a run keeps, as long as no disconnect is shed that the
worker would have to hear of. -/
theorem step_sound {move : Move κ} (hs : s.Sound)
    (hallowed : s.ShedsHarmlessly move) (h : step limit move s = some t) : t.Sound := by
  cases move with
  | op cacheable =>
    obtain ⟨id, hid, rfl⟩ := Option.map_eq_some_iff.mp h
    exact operate_sound hs hid cacheable
  | connect =>
    obtain ⟨-, ⟨⟩⟩ := Option.ite_none_left_eq_some.mp h
    exact connect_sound hs
  | disconnect delivered =>
    obtain ⟨-, ⟨⟩⟩ := Option.ite_none_right_eq_some.mp h
    exact disconnect_sound hs delivered
  | deliver full =>
    unfold step at h
    dsimp only at h
    split at h
    · cases h
    rename_i event wire hwire
    cases h
    exact deliver_sound hs hwire hallowed
  | updateListDir =>
    cases h
    exact updateListDir_sound hs
  | drain hitches =>
    obtain ⟨resume, hdrains, rfl⟩ := Option.map_eq_some_iff.mp h
    exact drainPending_sound hs hdrains hitches
  | swapShed =>
    unfold step at h
    dsimp only at h
    split at h
    · rename_i resume hphase
      cases h
      exact swapShed_sound hs hphase
    · cases h
  | runGapCheck =>
    unfold step at h
    dsimp only at h
    split at h
    · obtain ⟨hdue, ⟨⟩⟩ := Option.ite_none_right_eq_some.mp h
      exact runGapCheck_sound hs hdue
    · cases h
  | catchUp =>
    obtain ⟨-, ⟨⟩⟩ := Option.ite_none_right_eq_some.mp h
    have hworks : s.Works { s with phase := .checking } :=
      works_of_kept hs.bounded rfl rfl rfl rfl (Or.inl rfl) (by simp)
    exact hworks.sound_of_none hs rfl
  | readRemote =>
    unfold step at h
    dsimp only at h
    split at h
    · cases h
      exact readRemote_sound hs
    · cases h
  | retry =>
    obtain ⟨hselects, ⟨⟩⟩ := Option.ite_none_right_eq_some.mp h
    exact maybeRunResync_sound hs (selects_phase hselects)
  | relist =>
    obtain ⟨-, ⟨⟩⟩ := Option.ite_none_right_eq_some.mp h
    have hworks : s.Works { s with db := s.db.markNeedsResync, phase := .waiting } :=
      works_of_kept hs.bounded rfl rfl rfl rfl (Or.inr rfl) (by simp)
    exact hworks.sound_of_none hs rfl
  | lock =>
    unfold step at h
    dsimp only at h
    split at h
    · cases h
      exact lock_sound hs
    · cases h
  | abort =>
    unfold step at h
    dsimp only at h
    split at h
    · cases h
      have hworks : s.Works { s with db := s.db.markNeedsResync, phase := .idle } :=
        works_of_kept hs.bounded rfl rfl rfl rfl (Or.inr rfl) (by simp)
      exact hworks.sound_of_none hs rfl
    · cases h
  | commit markResync =>
    unfold step at h
    dsimp only at h
    split at h
    · rename_i remoteUnderLock hphase
      cases h
      exact commit_sound hs hphase markResync
    · cases h
  | restart =>
    cases h
    exact boot_sound hs.bounded.db
  | crash hitches committed =>
    obtain ⟨-, -, rfl⟩ := Option.map_eq_some_iff.mp h
    have hcut : ∀ t ∈ (s.drainTrace limit hitches).take committed, t.Within s.server.toNat :=
      fun t ht => drainTrace_within hs.bounded hitches t (mem_of_mem_take ht)
    exact boot_sound (finish_mem (P := fun t : CacheDb (CacheEventType κ) =>
      t.Within s.server.toNat) hs.bounded.db hcut)

/-- In such runs nothing is ahead of the server, and an operation past what the worker takes itself
to have has its event under way or a gap-check to come, the socket's next subscription if it is down. -/
theorem nothing_forgotten (h : (system κ limit).Reaches ShedsHarmlessly s) :
    s.db.Within s.server.toNat ∧ (s.socketUp = false → gapAfter s.gapCheck s.pending = .awaitingSubscription) ∧
      (s.shed = false → ∀ n, s.caughtUp = some n → ∀ id : DriveId, n < id.toNat → id.toNat ≤ s.server.toNat →
        s.Queued id ∨ s.Owed) := by
  have hfresh : (CacheDb.fresh : CacheDb (CacheEventType κ)).Within (0 : DriveId).toNat :=
    ⟨le_rfl, fun _ hid => absurd hid.choose_spec.1 not_mem_nil⟩
  have hsound : s.Sound := Machine.Reaches.invariant (P := Sound) (boot_sound hfresh) (fun _ _ _ hs => step_sound hs) h
  exact ⟨hsound.bounded.db, hsound.awaits, hsound.covered⟩

theorem nothing_forgotten_down : (boot 1 CacheDb.fresh : System Unit).Owed := by
  have hreach : (system Unit 1).Reaches ShedsHarmlessly (boot 1 CacheDb.fresh) :=
    .step .start (show ShedsHarmlessly _ (.op none) from trivial) rfl
  exact ((nothing_forgotten hreach).2.2 rfl 0 rfl 1 (by decide) le_rfl).resolve_left nofun

end System

/-- Nothing falls between the socket and the gap-check where no disconnect is shed
that the worker would have to hear of. -/
theorem nothingBetween_of_shedsHarmlessly (κ : Type) (limit : ℕ+) :
    NothingBetween κ limit System.ShedsHarmlessly := by
  intro s hreaches hquiet
  have hfresh : (CacheDb.fresh : CacheDb (CacheEventType κ)).Within (0 : DriveId).toNat := by
    refine ⟨le_refl _, fun id => ?_⟩
    rintro ⟨row, hrow, -⟩
    cases hrow
  have hsound : s.Sound := Machine.Reaches.invariant (P := System.Sound) (System.boot_sound hfresh)
    (fun _ _ _ hs hallowed hstep => System.step_sound hs hallowed hstep) hreaches
  exact hsound.current hquiet

def Hitches.none : Hitches κ := ⟨fun _ _ => false, fun _ _ => .ok false⟩

/-- The channel is full as the socket goes down. What was shed is listed while the
socket is down still, and the last operation comes between the listing and the next
subscription, for which no check is owed. -/
def shedDisconnect : List (Move Unit) :=
  [.drain .none, .swapShed, .connect, .deliver false, .drain .none, .swapShed, .runGapCheck,
    .readRemote, .op (some ()), .deliver false, .disconnect 0, .deliver true, .drain .none,
    .swapShed, .lock, .commit false, .op (some ()), .connect, .deliver false, .drain .none,
    .swapShed]

/-- With any disconnect shed, the cache may be quiet and behind. -/
theorem shed_disconnect_leaves_stale : ¬ NothingBetween Unit 1 fun _ _ => True := by
  intro h
  have hrun : ((system Unit 1).run shedDisconnect (system Unit 1).start).any (fun s =>
      decide (s.Quiet ∧ s.db.watermark.getD 0 ≠ s.server)) := by decide +kernel
  obtain ⟨s, hs, hstale⟩ := (Option.any_eq_true _ _).mp hrun
  obtain ⟨hquiet, hbehind⟩ := of_decide_eq_true hstale
  exact hbehind (h s (Machine.reaches_of_run Machine.Reaches.start hs) hquiet)

end SyncEngine.Cache
