import SyncEngine.Remote.ViewBuilder
import SyncEngine.Screening.Filters

/-! # What changed since the last pass

Two changelists of a pair, one fed by the filesystem watcher and one by the cache, each bounded
and collapsing to a reason to read everything. What a pass leaves undone is owed to the next one
apart from them. A pass takes all of it at once.
-/

namespace SyncEngine.Changes

open Collections List Remote

/-! ## What is announced -/

inductive FullPassReason where
  | firstPass | emptyBaseline | kernelDropped | rootChanged | unmappedLocalPath | localOverflow
  | remoteOverflow | remoteWiped | remoteEmptied | remoteUnplaceable | localEventsDegraded
  | remoteEventsDegraded | localEventsUnwatched | safetyNet | requested | previousRefusal
  | nameCollision | deletionHold | interruptedPass | rulesChanged | unappliedWork | carriedOver
  | conflictResolved | incompleteObservation | assemblyMismatch
deriving DecidableEq

structure FileMeta where
  name : Name
  size : Nat
  hash : Option Blake3Hash
  lastModified : Int

structure CacheFile extends FileMeta where
  uuid : Uuid
  parent : Uuid
  stableUuid : StableUuid

structure CacheDir where
  uuid : Uuid
  parent : Uuid
  name : Name
  created : Option Int

inductive FileEvent where
  | new (f : CacheFile) | move (f : CacheFile) | changed (f : CacheFile)
  | metadataChanged (uuid : Uuid) (data : FileMeta)
  | trashed (uuid : Uuid) (newUuid : Option Uuid) | archived (uuid : Uuid) (newUuid : Option Uuid)
  | removed (uuid : Uuid)

inductive DirEvent where
  | new (d : CacheDir) | restored (d : CacheDir) | move (d : CacheDir) | changed (d : CacheDir)
  | metadataChanged (uuid : Uuid) (name : Name)
  | removed (uuid : Uuid) | colorChanged (uuid : Uuid)

inductive CacheEventType where
  | file (event : FileEvent)
  | dir (event : DirEvent)
  | deleteAll | trashEmpty | deleteVersioned | noOp

structure CacheEvent where
  id : Option Nat
  event : CacheEventType

structure FileContent where
  size : Nat
  hash : Option Blake3Hash
  modifiedMillis : Int

inductive RemoteChange where
  | upsert (item : RemoteItem)
  | renamed (uuid : Uuid) (name : Name) (content : Option FileContent)
  | gone (uuid : Uuid) (successor : Option Uuid)

structure RemoteDeltaEntry where
  id : Option Nat
  change : RemoteChange

namespace RemoteChange

def touchesRuleFile : RemoteChange → Bool
  | upsert item => item.name = FILENIGNORE
  | renamed _ name _ => name = FILENIGNORE
  | gone _ _ => false

def ofFile (f : CacheFile) : RemoteChange :=
  upsert ⟨f.uuid, f.parent, f.name, some f.stableUuid, f.hash, f.size, f.lastModified⟩

def ofDir (d : CacheDir) : RemoteChange := upsert ⟨d.uuid, d.parent, d.name, none, none, 0, d.created.getD 0⟩

/-- What an event changes about the remote tree; an account-wide wipe is no change of any one
item. -/
def fromEvent (event : CacheEvent) : Except FullPassReason (Option RemoteChange) :=
  match event.event with
  | .file (.new f) | .file (.move f) | .file (.changed f) => .ok (some (ofFile f))
  | .file (.metadataChanged uuid data) =>
    .ok (some (renamed uuid data.name (some ⟨data.size, data.hash, data.lastModified⟩)))
  | .file (.trashed uuid newUuid) | .file (.archived uuid newUuid) => .ok (some (gone uuid newUuid))
  | .file (.removed uuid) | .dir (.removed uuid) => .ok (some (gone uuid none))
  | .dir (.new d) | .dir (.restored d) | .dir (.move d) | .dir (.changed d) => .ok (some (ofDir d))
  | .dir (.metadataChanged uuid name) => .ok (some (renamed uuid name none))
  | .dir (.colorChanged _) => .ok none
  | .deleteAll => .error .remoteWiped
  | .trashEmpty | .deleteVersioned | .noOp => .ok none

end RemoteChange

inductive EventKind where
  | any | create | modify | remove | other
  | closeWrite
  | access

structure Event (AbsPath : Type) where
  needRescan : Bool
  info : Option (List Char)
  kind : EventKind
  paths : List AbsPath

inductive LocalEventScope where
  | collapse (reason : FullPassReason)
  | paths
  | ignore
deriving DecidableEq

def localEventScope {AbsPath : Type} (event : Event AbsPath) : LocalEventScope :=
  if event.needRescan then .collapse .kernelDropped
  else if event.info = some "root changed".toList then .collapse .rootChanged
  else
    match event.kind with
    | .closeWrite => .paths
    | .access => .ignore
    | _ => .paths

/-! ## The lists -/

def DIRTY_CAP : Nat := 7700

def pastCap (count cap : Nat) : Bool := decide (cap < count)

def dirtyCap (lastItems : Nat) : Nat := min (max (lastItems / 4) 1) DIRTY_CAP

def isRuleFile (rel : Path) : Bool := decide (leaf rel = FILENIGNORE)

structure LocalDirty where
  paths : PathSet := .empty
  full : Option FullPassReason := none

def LocalDirty.collapse (dirty : LocalDirty) (reason : FullPassReason) : LocalDirty :=
  ⟨.empty, dirty.full.or (some reason)⟩

structure RemoteDelta where
  entries : List RemoteDeltaEntry := []
  full : Option FullPassReason := none

def RemoteDelta.collapse (delta : RemoteDelta) (reason : FullPassReason) : RemoteDelta :=
  ⟨[], delta.full.or (some reason)⟩

section Lists

variable {AbsPath : Type} (relativeKey : AbsPath → AbsPath → Option Path)

/-- Collect the paths of one event, up to the first that no path set describes. -/
def LocalDirty.notePaths (root : AbsPath) (cap : Nat) : LocalDirty → List AbsPath → LocalDirty
  | dirty, [] => dirty
  | dirty, path :: rest =>
    match relativeKey root path with
    | none => dirty.collapse .unmappedLocalPath
    | some rel =>
      if isRuleFile rel then dirty.collapse .rulesChanged
      else
        let dirty := { dirty with paths := dirty.paths.insert rel }
        if pastCap dirty.paths.toList.length cap then dirty.collapse .localOverflow
        else LocalDirty.notePaths root cap dirty rest

def RemoteDelta.noteEvents (cap : Nat) : RemoteDelta → List CacheEvent → RemoteDelta
  | delta, [] => delta
  | delta, event :: rest =>
    if delta.full.isSome then delta
    else
      match RemoteChange.fromEvent event with
      | .ok none => RemoteDelta.noteEvents cap delta rest
      | .ok (some change) =>
        if change.touchesRuleFile then delta.collapse .rulesChanged
        else
          let delta := { delta with entries := delta.entries ++ [⟨event.id, change⟩] }
          if pastCap delta.entries.length cap then delta.collapse .remoteOverflow
          else RemoteDelta.noteEvents cap delta rest
      | .error reason => RemoteDelta.noteEvents cap (delta.collapse reason) rest

/-! ## The state of a pair -/

inductive CatchUp where
  | recent
  | now
deriving DecidableEq

def CatchUp.max : Option CatchUp → CatchUp → CatchUp
  | some .now, _ => .now
  | _, wants => wants

structure ChangeState where
  localDirty : LocalDirty := {}
  remoteDelta : RemoteDelta := {}
  forced : Option FullPassReason := none
  held : Bool := false
  degraded : Option FullPassReason := none
  currentRemote : Option CatchUp := none
  localCovered : Bool := false
  lastItems : Nat := 0
  owed : PathSet := .empty
  owedRemote : List RemoteDeltaEntry := []

structure PassScope where
  localPaths : PathSet
  remote : List RemoteDeltaEntry
  full : Option FullPassReason
  currentRemote : Option CatchUp

namespace ChangeState

def fullPending (state : ChangeState) : Bool :=
  state.degraded.isSome || !state.localCovered || state.localDirty.full.isSome ||
    state.remoteDelta.full.isSome || state.forced.isSome

def noteLocalEvent (state : ChangeState) (root : AbsPath) (event : Event AbsPath) (isStaging : AbsPath → Bool) :
    ChangeState :=
  match localEventScope event with
  | .collapse reason => { state with localDirty := state.localDirty.collapse reason }
  | .ignore => state
  | .paths =>
    if state.localDirty.full.isSome then state
    else
      { state with
        localDirty := state.localDirty.notePaths relativeKey root (dirtyCap state.lastItems)
          (event.paths.filter fun path => !isStaging path) }

def noteRemoteBatch (state : ChangeState) (events : List CacheEvent) : ChangeState :=
  { state with remoteDelta := state.remoteDelta.noteEvents (dirtyCap state.lastItems) events }

def degrade (state : ChangeState) (reason : FullPassReason) : ChangeState :=
  { state with degraded := state.degraded.or (some reason) }

def force (state : ChangeState) (reason : FullPassReason) : ChangeState :=
  let state := { state with forced := state.forced.or (some reason) }
  match reason with
  | .safetyNet => { state with currentRemote := some (CatchUp.max state.currentRemote .recent) }
  | .requested => { state with currentRemote := some (CatchUp.max state.currentRemote .now) }
  | _ => state

/-- The set of the paths owed, unless it passes the cap. -/
def owedSet : PathSet → List Path → Option PathSet
  | owed, [] => some owed
  | owed, path :: rest =>
    let owed := owed.insert path
    if pastCap owed.toList.length DIRTY_CAP then none else owedSet owed rest

def noteOwed (state : ChangeState) (paths : List Path) : ChangeState :=
  match owedSet .empty paths with
  | some owed => { state with owed }
  | none => { state with owed := .empty }.force .carriedOver

def noteOwedRemote (state : ChangeState) (delta : List RemoteDeltaEntry) : ChangeState :=
  if pastCap delta.length DIRTY_CAP then
    { state with remoteDelta := state.remoteDelta.collapse .remoteOverflow }
  else { state with owedRemote := delta }

def isIdle (state : ChangeState) : Bool :=
  !state.fullPending && state.localDirty.paths.toList.isEmpty && state.remoteDelta.entries.isEmpty &&
    state.owed.toList.isEmpty && state.owedRemote.isEmpty

/-- The most specific reason first, a deletion hold last. -/
def fullReason (state : ChangeState) : Option FullPassReason :=
  state.degraded.or ((if state.localCovered then none else some .localEventsUnwatched).or
    (state.localDirty.full.or (state.remoteDelta.full.or
      (state.forced.or (if state.held then some .deletionHold else none)))))

def take (state : ChangeState) : PassScope × ChangeState :=
  (⟨.ofList (state.localDirty.paths.toList ++ state.owed.toList),
      state.owedRemote ++ state.remoteDelta.entries, state.fullReason, state.currentRemote⟩,
    { state with
      localDirty := {}
      remoteDelta := {}
      forced := none
      held := false
      currentRemote := none
      owed := .empty
      owedRemote := [] })

end ChangeState

inductive Note (AbsPath : Type) where
  | localEvent (root : AbsPath) (event : Event AbsPath) (isStaging : AbsPath → Bool)
  | remoteBatch (events : List CacheEvent)
  | force (reason : FullPassReason)
  | degrade (reason : FullPassReason)
  | coverLocal
  | uncoverLocal
  | owed (paths : List Path)
  | owedRemote (delta : List RemoteDeltaEntry)
  | deletionHold
  | treeSize (items : Nat)

def ChangeState.note (state : ChangeState) : Note AbsPath → ChangeState
  | .localEvent root event isStaging => state.noteLocalEvent relativeKey root event isStaging
  | .remoteBatch events => state.noteRemoteBatch events
  | .force reason => state.force reason
  | .degrade reason => state.degrade reason
  | .coverLocal => { state with localCovered := true }
  | .uncoverLocal => { state with localCovered := false }
  | .owed paths => state.noteOwed paths
  | .owedRemote delta => state.noteOwedRemote delta
  | .deletionHold => { state with held := true }
  | .treeSize items => { state with lastItems := items }

def ChangeState.noteAll (state : ChangeState) (notes : List (Note AbsPath)) : ChangeState :=
  notes.foldl (ChangeState.note relativeKey) state

/-- The state after rounds of notes, each round ended by a take. -/
def afterRounds (rounds : List (List (Note AbsPath))) : ChangeState :=
  rounds.foldl (fun state notes => (state.noteAll relativeKey notes).take.2) {}

end Lists

/-! ## Nothing noted is lost -/

/-- What the events of a batch announce, in order. -/
def changesOf (events : List CacheEvent) : List RemoteDeltaEntry :=
  events.filterMap fun event =>
    match RemoteChange.fromEvent event with
    | .ok (some change) => some ⟨event.id, change⟩
    | _ => none

section Lost

variable {AbsPath : Type} {relativeKey : AbsPath → AbsPath → Option Path} {root : AbsPath} {cap : Nat}
  {dirty : LocalDirty} {delta : RemoteDelta} {rel : Path} {reason : FullPassReason}

theorem isSome_or {α : Type} {a b : Option α} (h : a.isSome ∨ b.isSome) : (a.or b).isSome := by
  cases a with
  | some a => rfl
  | none => exact h.resolve_left nofun

theorem LocalDirty.collapse_full : (dirty.collapse reason).full.isSome := isSome_or (.inr rfl)

theorem RemoteDelta.collapse_full : (delta.collapse reason).full.isSome := isSome_or (.inr rfl)

/-- A path is on the list, or the list says why it holds none. -/
def LocalDirty.Tells (dirty : LocalDirty) (rel : Path) : Prop := rel ∈ dirty.paths ∨ dirty.full.isSome = true

theorem LocalDirty.Tells.notePaths (h : dirty.Tells rel) (paths : List AbsPath) :
    (dirty.notePaths relativeKey root cap paths).Tells rel := by
  induction paths generalizing dirty with
  | nil => exact h
  | cons path rest ih =>
    unfold LocalDirty.notePaths
    split
    · exact .inr collapse_full
    split
    · exact .inr collapse_full
    dsimp only
    split
    · exact .inr collapse_full
    exact ih (h.imp_left fun hmem => SortedSet.mem_insert.mpr (.inr hmem))

/-- Each path of an event is keyed onto the list, or the list says why it holds none. -/
theorem LocalDirty.notePaths_tells (paths : List AbsPath) {path : AbsPath} (hpath : path ∈ paths) :
    (∃ rel, relativeKey root path = some rel ∧ (dirty.notePaths relativeKey root cap paths).Tells rel) ∨
      (dirty.notePaths relativeKey root cap paths).full.isSome := by
  induction paths generalizing dirty with
  | nil => cases hpath
  | cons other rest ih =>
    unfold LocalDirty.notePaths
    split
    · exact .inr collapse_full
    rename_i key hkey
    split
    · exact .inr collapse_full
    dsimp only
    split
    · exact .inr collapse_full
    rcases mem_cons.mp hpath with rfl | hpath
    · exact .inl ⟨key, hkey, .notePaths (.inl (SortedSet.mem_insert.mpr (.inl rfl))) rest⟩
    · exact ih hpath

theorem LocalDirty.notePaths_full (h : dirty.full.isSome) (paths : List AbsPath) :
    (dirty.notePaths relativeKey root cap paths).full.isSome := by
  induction paths generalizing dirty with
  | nil => exact h
  | cons path rest ih =>
    unfold LocalDirty.notePaths
    split
    · exact collapse_full
    split
    · exact collapse_full
    dsimp only
    split
    · exact collapse_full
    exact ih h

/-- A list that took in changes: all of them in order, or those it holds and a reason. -/
structure RemoteDelta.Took (delta after : RemoteDelta) (changes : List RemoteDeltaEntry) : Prop where
  full : delta.full.isSome = true → after.full.isSome = true
  whole : after.full = none → after.entries = delta.entries ++ changes
  ordered : after.entries.Sublist (delta.entries ++ changes)

namespace RemoteDelta.Took

theorem refl (delta : RemoteDelta) : delta.Took delta [] :=
  ⟨fun h => h, fun _ => (append_nil _).symm, sublist_append_left _ _⟩

theorem trans {after last : RemoteDelta} {changes more : List RemoteDeltaEntry} (h : delta.Took after changes)
    (h' : after.Took last more) : delta.Took last (changes ++ more) where
  full hfull := h'.full (h.full hfull)
  whole hnone := by
    have hbefore : after.full = none := by
      by_contra hsome
      have hfull := h'.full (Option.isSome_iff_ne_none.mpr hsome)
      rw [hnone] at hfull
      cases hfull
    rw [h'.whole hnone, h.whole hbefore, append_assoc]
  ordered := by
    rw [← append_assoc]
    exact h'.ordered.trans (h.ordered.append_right more)

theorem of_full {after : RemoteDelta} {changes : List RemoteDeltaEntry} (hfull : after.full.isSome)
    (hordered : after.entries.Sublist (delta.entries ++ changes)) : delta.Took after changes where
  full _ := hfull
  whole hnone := by
    rw [hnone] at hfull
    cases hfull
  ordered := hordered

theorem collapse (reason : FullPassReason) (changes : List RemoteDeltaEntry) :
    delta.Took (delta.collapse reason) changes := of_full collapse_full (nil_sublist _)

theorem noteEvents (events : List CacheEvent) : delta.Took (delta.noteEvents cap events) (changesOf events) := by
  induction events generalizing delta with
  | nil => exact refl delta
  | cons event rest ih =>
    unfold RemoteDelta.noteEvents
    split
    · rename_i hfull
      exact of_full hfull (sublist_append_left _ _)
    unfold changesOf
    cases hevent : RemoteChange.fromEvent event with
    | error reason =>
      rw [filterMap_cons_none (by rw [hevent])]
      exact trans (collapse reason []) ih
    | ok change =>
      cases change with
      | none =>
        rw [filterMap_cons_none (by rw [hevent])]
        exact ih
      | some change =>
        rw [filterMap_cons_some (by rw [hevent])]
        dsimp only
        split
        · exact collapse _ _
        split
        · exact collapse _ _
        have htook : delta.Took { delta with entries := delta.entries ++ [⟨event.id, change⟩] }
            [⟨event.id, change⟩] := ⟨fun h => h, fun _ => rfl, .refl _⟩
        exact htook.trans ih

end RemoteDelta.Took

/-- An event that describes no change of an item leaves a reason behind. -/
theorem RemoteDelta.noteEvents_error {events : List CacheEvent} {event : CacheEvent} (hevent : event ∈ events)
    (herror : RemoteChange.fromEvent event = .error reason) : (delta.noteEvents cap events).full.isSome := by
  induction events generalizing delta with
  | nil => cases hevent
  | cons other rest ih =>
    unfold RemoteDelta.noteEvents
    split
    · assumption
    rcases mem_cons.mp hevent with rfl | hevent
    · rw [herror]
      exact (Took.noteEvents rest).full collapse_full
    split
    · exact ih hevent
    · split
      · exact collapse_full
      dsimp only
      split
      · exact collapse_full
      · exact ih hevent
    · exact ih hevent

def Note.changes : Note AbsPath → List RemoteDeltaEntry
  | .remoteBatch events => changesOf events
  | _ => []

/-- What a note leaves owed of the remote, if it says. -/
def Note.owes (owed : List RemoteDeltaEntry) : Note AbsPath → List RemoteDeltaEntry
  | .owedRemote delta => if pastCap delta.length DIRTY_CAP then owed else delta
  | _ => owed

/-- What notes may change of a state: no path and no reason goes. -/
structure ChangeState.Grows (state after : ChangeState) (changes : List RemoteDeltaEntry) : Prop where
  degraded : state.degraded.isSome = true → after.degraded.isSome = true
  forced : state.forced.isSome = true → after.forced.isSome = true
  held : state.held = true → after.held = true
  localFull : state.localDirty.full.isSome = true → after.localDirty.full.isSome = true
  tells : ∀ rel, state.localDirty.Tells rel → after.localDirty.Tells rel
  took : state.remoteDelta.Took after.remoteDelta changes

namespace ChangeState

variable {state after : ChangeState}

theorem Grows.refl (state : ChangeState) : state.Grows state [] :=
  ⟨fun h => h, fun h => h, fun h => h, fun h => h, fun _ h => h, .refl _⟩

theorem Grows.trans {last : ChangeState} {changes more : List RemoteDeltaEntry} (h : state.Grows after changes)
    (h' : after.Grows last more) : state.Grows last (changes ++ more) where
  degraded hd := h'.degraded (h.degraded hd)
  forced hf := h'.forced (h.forced hf)
  held hh := h'.held (h.held hh)
  localFull hl := h'.localFull (h.localFull hl)
  tells rel hr := h'.tells rel (h.tells rel hr)
  took := h.took.trans h'.took

theorem force_eq (state : ChangeState) (reason : FullPassReason) :
    ∃ currentRemote, state.force reason =
      { state with forced := state.forced.or (some reason), currentRemote } := by
  cases reason <;> exact ⟨_, rfl⟩

theorem force_forced : (state.force reason).forced.isSome := by
  obtain ⟨_, heq⟩ := state.force_eq reason
  rw [heq]
  exact isSome_or (.inr rfl)

theorem force_owedRemote : (state.force reason).owedRemote = state.owedRemote := by
  obtain ⟨_, heq⟩ := state.force_eq reason
  rw [heq]

theorem grows_force (reason : FullPassReason) : state.Grows (state.force reason) [] := by
  obtain ⟨_, heq⟩ := state.force_eq reason
  rw [heq]
  exact ⟨fun h => h, fun h => isSome_or (.inl h), fun h => h, fun h => h, fun _ h => h, .refl _⟩

theorem grows_note (note : Note AbsPath) : state.Grows (state.note relativeKey note) note.changes := by
  cases note with
  | localEvent root event isStaging =>
    unfold ChangeState.note noteLocalEvent
    dsimp only
    split
    · exact ⟨fun h => h, fun h => h, fun h => h, fun _ => LocalDirty.collapse_full,
        fun _ _ => .inr LocalDirty.collapse_full, .refl _⟩
    · exact .refl _
    split
    · exact .refl _
    exact ⟨fun h => h, fun h => h, fun h => h, fun h => LocalDirty.notePaths_full h _, fun _ h => h.notePaths _,
      .refl _⟩
  | remoteBatch events =>
    exact ⟨fun h => h, fun h => h, fun h => h, fun h => h, fun _ h => h, .noteEvents events⟩
  | force reason => exact grows_force reason
  | degrade reason => exact { Grows.refl state with degraded := fun h => isSome_or (.inl h) }
  | coverLocal => exact { Grows.refl state with }
  | uncoverLocal => exact { Grows.refl state with }
  | owed paths =>
    unfold ChangeState.note noteOwed
    dsimp only
    split
    · exact { Grows.refl state with }
    have hcleared : state.Grows { state with owed := .empty } [] := { Grows.refl state with }
    exact hcleared.trans (grows_force .carriedOver)
  | owedRemote delta =>
    unfold ChangeState.note noteOwedRemote
    dsimp only
    split
    · exact { Grows.refl state with took := .collapse _ _ }
    exact { Grows.refl state with }
  | deletionHold => exact { Grows.refl state with held := fun _ => rfl }
  | treeSize items => exact { Grows.refl state with }

theorem grows_noteAll (notes : List (Note AbsPath)) :
    state.Grows (state.noteAll relativeKey notes) (notes.flatMap Note.changes) := by
  induction notes generalizing state with
  | nil => exact .refl _
  | cons note notes ih =>
    rw [flatMap_cons]
    exact (grows_note note).trans ih

theorem noteAll_append (state : ChangeState) (earlier : List (Note AbsPath)) (note : Note AbsPath) (later : List (Note AbsPath)) :
    state.noteAll relativeKey (earlier ++ note :: later) =
      ((state.noteAll relativeKey earlier).note relativeKey note).noteAll relativeKey later := by
  unfold noteAll
  rw [foldl_append, foldl_cons]

/-- What a note leaves behind stays until the take. -/
theorem grows_from {notes : List (Note AbsPath)} {note : Note AbsPath} (h : note ∈ notes) :
    ∃ (before : ChangeState) (changes : List RemoteDeltaEntry),
      (before.note relativeKey note).Grows (state.noteAll relativeKey notes) changes := by
  obtain ⟨earlier, later, rfl⟩ := mem_iff_append.mp h
  refine ⟨state.noteAll relativeKey earlier, later.flatMap Note.changes, ?_⟩
  rw [noteAll_append]
  exact grows_noteAll later

theorem owedRemote_noteAll (notes : List (Note AbsPath)) :
    (state.noteAll relativeKey notes).owedRemote = notes.foldl Note.owes state.owedRemote := by
  induction notes generalizing state with
  | nil => rfl
  | cons note notes ih =>
    have hstep : (state.note relativeKey note).owedRemote = note.owes state.owedRemote := by
      cases note with
      | localEvent root event isStaging =>
        unfold ChangeState.note noteLocalEvent
        dsimp only
        split
        · rfl
        · rfl
        · split <;> rfl
      | force reason => exact force_owedRemote
      | owed paths =>
        unfold ChangeState.note noteOwed
        dsimp only
        split
        · rfl
        · exact force_owedRemote
      | owedRemote delta =>
        unfold ChangeState.note noteOwedRemote Note.owes
        dsimp only
        split <;> rfl
      | _ => rfl
    unfold noteAll at ih ⊢
    rw [foldl_cons, foldl_cons, ih, hstep]

/-- A path that is owed stays so until what is owed is told anew. -/
theorem owed_noteAll {notes : List (Note AbsPath)} (h : ∀ paths, .owed paths ∉ notes) :
    (state.noteAll relativeKey notes).owed = state.owed := by
  induction notes generalizing state with
  | nil => rfl
  | cons note notes ih =>
    have hstep : (state.note relativeKey note).owed = state.owed := by
      cases note with
      | localEvent root event isStaging =>
        unfold ChangeState.note noteLocalEvent
        dsimp only
        split
        · rfl
        · rfl
        · split <;> rfl
      | force reason =>
        obtain ⟨_, heq⟩ := state.force_eq reason
        exact (congrArg ChangeState.owed heq :)
      | owed paths => exact absurd mem_cons_self (h paths)
      | owedRemote delta =>
        unfold ChangeState.note noteOwedRemote
        dsimp only
        split <;> rfl
      | _ => rfl
    exact (ih fun paths hmem => h paths (mem_cons_of_mem _ hmem)).trans hstep

theorem owes_of_forall {notes : List (Note AbsPath)} (h : ∀ delta, .owedRemote delta ∉ notes)
    (owed : List RemoteDeltaEntry) : notes.foldl Note.owes owed = owed := by
  induction notes with
  | nil => rfl
  | cons note notes ih =>
    have hstep : note.owes owed = owed := by
      cases note with
      | owedRemote delta => exact absurd mem_cons_self (h delta)
      | _ => rfl
    rw [foldl_cons, hstep]
    exact ih fun delta hmem => h delta (mem_cons_of_mem _ hmem)

theorem mem_owedSet {owed out : PathSet} {paths : List Path} (h : owedSet owed paths = some out) :
    ∀ rel, rel ∈ owed ∨ rel ∈ paths → rel ∈ out := by
  induction paths generalizing owed with
  | nil =>
    cases h
    exact fun rel hrel => hrel.resolve_right not_mem_nil
  | cons path rest ih =>
    unfold owedSet at h
    dsimp only at h
    split at h
    · cases h
    intro rel hrel
    refine ih h rel ?_
    rcases hrel with hrel | hrel
    · exact .inl (SortedSet.mem_insert.mpr (.inr hrel))
    rcases mem_cons.mp hrel with rfl | hrel
    · exact .inl (SortedSet.mem_insert.mpr (.inl rfl))
    · exact .inr hrel

/-- Each path noted as owed is, or both sides are read whole. -/
theorem noteOwed_tells (paths : List Path) :
    (∀ rel ∈ paths, rel ∈ (state.noteOwed paths).owed) ∨ (state.noteOwed paths).forced.isSome := by
  unfold noteOwed
  split
  · rename_i owed howed
    exact .inl fun rel hrel => mem_owedSet howed rel (.inr hrel)
  · exact .inr force_forced

theorem emptied (rounds : List (List (Note AbsPath))) :
    (afterRounds relativeKey rounds).remoteDelta.entries = [] ∧ (afterRounds relativeKey rounds).owedRemote = [] := by
  induction rounds using List.reverseRecOn with
  | nil => exact ⟨rfl, rfl⟩
  | append_singleton rounds notes _ =>
    unfold afterRounds
    rw [foldl_concat]
    exact ⟨rfl, rfl⟩

theorem isSome_fullReason : state.fullReason.isSome ↔ state.fullPending ∨ state.held := by
  unfold fullReason fullPending
  simp only [Option.isSome_or, Bool.or_eq_true]
  cases state.localCovered <;> cases state.held <;> simp [or_assoc]

theorem full_of_pending (h : state.fullPending) : state.take.1.full.isSome :=
  isSome_fullReason.mpr (.inl h)

theorem full_of_local (h : state.localDirty.full.isSome) : state.take.1.full.isSome := by
  refine full_of_pending ?_
  unfold fullPending
  rw [h, Bool.or_true, Bool.true_or, Bool.true_or]

theorem full_of_remote (h : state.remoteDelta.full.isSome) : state.take.1.full.isSome := by
  refine full_of_pending ?_
  unfold fullPending
  rw [h, Bool.or_true, Bool.true_or]

theorem isIdle_take (h : state.isIdle) :
    (state.take.1.full = none ∨ state.take.1.full = some .deletionHold) ∧
      state.take.1.localPaths = .empty ∧ state.take.1.remote = [] := by
  unfold isIdle fullPending at h
  simp only [Bool.and_eq_true, Bool.not_eq_true', Bool.or_eq_false_iff, List.isEmpty_iff, Option.isSome_eq_false_iff,
    Option.isNone_iff_eq_none, Bool.not_eq_false'] at h
  obtain ⟨⟨⟨⟨⟨⟨⟨⟨hdegraded, hcovered⟩, hlocal⟩, hremote⟩, hforced⟩, hpaths⟩, hentries⟩, howed⟩, hremoteOwed⟩ := h
  refine ⟨?_, ?_, ?_⟩
  · change state.fullReason = none ∨ state.fullReason = some .deletionHold
    unfold fullReason
    rw [hdegraded, hcovered, hlocal, hremote, hforced]
    cases state.held with
    | false => exact .inl rfl
    | true => exact .inr rfl
  · change SortedSet.ofList (state.localDirty.paths.toList ++ state.owed.toList) = .empty
    rw [hpaths, howed]
    rfl
  change state.owedRemote ++ state.remoteDelta.entries = []
  rw [hentries, hremoteOwed]
  rfl

end ChangeState

open ChangeState

/-- Whatever is noted between two takes, less what is owed and then told anew, is in what the
second takes, or that one has a reason to read everything; a pair that says it is idle has nothing
to take but a deletion hold. -/
theorem no_change_lost (relativeKey : AbsPath → AbsPath → Option Path) (rounds : List (List (Note AbsPath)))
    (notes : List (Note AbsPath)) :
    let state := (afterRounds relativeKey rounds).noteAll relativeKey notes
    let scope := state.take.1
    (∀ root event isStaging, .localEvent root event isStaging ∈ notes → localEventScope event ≠ .ignore →
      ∀ path ∈ event.paths, isStaging path = false →
        (∃ rel, relativeKey root path = some rel ∧ rel ∈ scope.localPaths) ∨ scope.full.isSome) ∧
    (∀ earlier paths later, notes = earlier ++ .owed paths :: later → (∀ more, .owed more ∉ later) →
      ∀ rel ∈ paths, rel ∈ scope.localPaths ∨ scope.full.isSome) ∧
    (∀ earlier delta later, notes = earlier ++ .owedRemote delta :: later →
      (∀ more, .owedRemote more ∉ later) → ∀ change ∈ delta, change ∈ scope.remote ∨ scope.full.isSome) ∧
    (∀ events, .remoteBatch events ∈ notes →
      (∀ change ∈ changesOf events, change ∈ scope.remote ∨ scope.full.isSome) ∧
      ∀ event ∈ events, ∀ reason, RemoteChange.fromEvent event = .error reason → scope.full.isSome) ∧
    (∀ reason, .force reason ∈ notes ∨ .degrade reason ∈ notes → scope.full.isSome) ∧
    (.deletionHold ∈ notes → scope.full.isSome) ∧
    (∃ announced, scope.remote = notes.foldl Note.owes [] ++ announced ∧
      announced.Sublist (notes.flatMap Note.changes) ∧
      (scope.full = none → announced = notes.flatMap Note.changes)) ∧
    (state.isIdle → (scope.full = none ∨ scope.full = some .deletionHold) ∧
      scope.localPaths = .empty ∧ scope.remote = []) := by
  intro state scope
  obtain ⟨hentries, howed⟩ := @emptied _ relativeKey rounds
  have hgrows : (afterRounds relativeKey rounds).Grows state (notes.flatMap Note.changes) := grows_noteAll notes
  have hremote : scope.remote = notes.foldl Note.owes [] ++ state.remoteDelta.entries := by
    rw [← howed, ← owedRemote_noteAll]
    rfl
  have hwhole := hgrows.took.whole
  have hordered := hgrows.took.ordered
  rw [hentries, nil_append] at hwhole hordered
  have hnone : scope.full = none → state.remoteDelta.full = none := by
    intro hscope
    by_contra hsome
    have hfull := @full_of_remote state (Option.isSome_iff_ne_none.mpr hsome)
    rw [hscope] at hfull
    cases hfull
  have hforced : state.forced.isSome → scope.full.isSome := fun hforced => by
    refine full_of_pending ?_
    unfold fullPending
    rw [hforced, Bool.or_true]
  refine ⟨?_, ?_, ?_, ?_, ?_, ?_, ⟨_, hremote, hordered, fun hscope => hwhole (hnone hscope)⟩, isIdle_take⟩
  · intro root event isStaging hnote hscope path hpath hstaging
    obtain ⟨before, _, hlater⟩ := @grows_from _ relativeKey (afterRounds relativeKey rounds) _ _ hnote
    have htold : (∃ rel, relativeKey root path = some rel ∧ state.localDirty.Tells rel) ∨
        state.localDirty.full.isSome := by
      have hlocal : (∃ rel, relativeKey root path = some rel ∧
            (before.note relativeKey (.localEvent root event isStaging)).localDirty.Tells rel) ∨
          (before.note relativeKey (.localEvent root event isStaging)).localDirty.full.isSome := by
        unfold ChangeState.note noteLocalEvent
        dsimp only
        split
        · exact .inr LocalDirty.collapse_full
        · rename_i hignored
          exact absurd hignored hscope
        split
        · exact .inr ‹_›
        exact LocalDirty.notePaths_tells _ (mem_filter.mpr ⟨hpath, by rw [hstaging]; rfl⟩)
      rcases hlocal with ⟨rel, hkey, htells⟩ | hfull
      · exact .inl ⟨rel, hkey, hlater.tells rel htells⟩
      · exact .inr (hlater.localFull hfull)
    rcases htold with ⟨rel, hkey, hmem | hfull⟩ | hfull
    · exact .inl ⟨rel, hkey, SortedSet.mem_ofList.mpr (mem_append_left _ hmem)⟩
    all_goals exact .inr (full_of_local hfull)
  · intro earlier paths later hnotes hlast rel hrel
    have hstate : state = (((afterRounds relativeKey rounds).noteAll relativeKey earlier).noteOwed paths).noteAll
        relativeKey later := by
      have hsplit := @noteAll_append _ relativeKey (afterRounds relativeKey rounds) earlier (.owed paths) later
      rw [← hnotes] at hsplit
      exact hsplit
    rcases @noteOwed_tells ((afterRounds relativeKey rounds).noteAll relativeKey earlier) paths with howes | hfull
    · refine .inl (SortedSet.mem_ofList.mpr (mem_append_right _ ?_))
      rw [hstate, owed_noteAll hlast]
      exact howes rel hrel
    refine .inr (hforced ?_)
    rw [hstate]
    exact (grows_noteAll later).forced hfull
  · rintro earlier delta later rfl hlast change hchange
    rw [hremote, foldl_append, foldl_cons, owes_of_forall hlast]
    unfold Note.owes
    dsimp only
    split
    · rename_i hpast
      obtain ⟨before, _, hlater⟩ := @grows_from _ relativeKey (afterRounds relativeKey rounds) _ (.owedRemote delta)
        (mem_append_right earlier mem_cons_self)
      refine .inr (full_of_remote (hlater.took.full ?_))
      unfold ChangeState.note noteOwedRemote
      dsimp only
      rw [if_pos hpast]
      exact RemoteDelta.collapse_full
    · exact .inl (mem_append_left _ hchange)
  · intro events hnote
    constructor
    · intro change hchange
      cases hscope : scope.full with
      | some reason => exact .inr rfl
      | none =>
        rw [hremote, hwhole (hnone hscope)]
        exact .inl (mem_append_right _ (mem_flatMap.mpr ⟨_, hnote, hchange⟩))
    intro event hevent reason herror
    obtain ⟨before, _, hlater⟩ := @grows_from _ relativeKey (afterRounds relativeKey rounds) _ _ hnote
    exact full_of_remote (hlater.took.full (RemoteDelta.noteEvents_error hevent herror))
  · rintro reason (hnote | hnote)
    · obtain ⟨before, _, hlater⟩ := @grows_from _ relativeKey (afterRounds relativeKey rounds) _ _ hnote
      exact hforced (hlater.forced force_forced)
    obtain ⟨before, _, hlater⟩ := @grows_from _ relativeKey (afterRounds relativeKey rounds) _ _ hnote
    refine full_of_pending ?_
    unfold fullPending
    rw [hlater.degraded (isSome_or (.inr rfl)), Bool.true_or, Bool.true_or, Bool.true_or, Bool.true_or]
  intro hnote
  obtain ⟨before, _, hlater⟩ := @grows_from _ relativeKey (afterRounds relativeKey rounds) _ _ hnote
  exact isSome_fullReason.mpr (.inr (hlater.held rfl))

/-- What is owed replaces what was owed before. -/
theorem owed_replaced :
    let notes : List (Note Unit) := [.coverLocal, .owed [['a']], .owed [['b']]]
    let scope := (ChangeState.noteAll (fun _ _ => none) {} notes).take.1
    scope.full = none ∧ ['a'] ∉ scope.localPaths ∧ ['b'] ∈ scope.localPaths := by
  decide

end Lost

end SyncEngine.Changes
