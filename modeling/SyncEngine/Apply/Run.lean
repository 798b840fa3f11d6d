import SyncEngine.Folding
import SyncEngine.Rows

/-! # Applying a plan

The apply runs a plan in three runs: everything but the transfers and the
deletions, with the deletion half of each type flip; the transfers; the other
deletions. Any action may fail and leave both trees alone. What lands is noted
by collision key on the side it was written, and a deletion over something noted
is refused.
-/

namespace SyncEngine

open List SyncAction

inductive Run where
  | before
  | transfers
  | after
deriving DecidableEq, Repr

/-- The run an action is in, but for a type flip's deletion. -/
def Run.of (a : SyncAction) : Run :=
  match a with
  | uploadFile .. | downloadFile .. => .transfers
  | _ => if a.isDelete then .after else .before

/-- Whether an action deletes what the plan then creates at the same path. -/
def flips (plan : List SyncAction) (a : SyncAction) : Bool :=
  a.isDelete && plan.any fun created => created.isCreate && created.relPath = a.relPath

def runIn (plan : List SyncAction) (a : SyncAction) : Run :=
  if flips plan a then .before else Run.of a

def movedDir : SyncAction → Option Path
  | moveRemote _ dst .dir _ | moveLocal _ dst .dir => some dst
  | _ => none

/-- Whether a transfer finishes a compound step of the first run: the create
half of a type flip, or anything at or under a moved directory. -/
def completes (plan : List SyncAction) (a : SyncAction) : Bool :=
  (plan.any fun flip => flips plan flip && flip.relPath = a.relPath) ||
    (plan.filterMap movedDir).any fun dir => a.relPath = dir || isUnder a.relPath dir

def isUpload : SyncAction → Bool
  | uploadFile .. => true
  | _ => false

def execOrder (plan : List SyncAction) : List SyncAction :=
  let inRun (run : Run) := plan.filter fun a => runIn plan a = run
  let transfers (done upload : Bool) := (inRun .transfers).filter fun a =>
    completes plan a = done && isUpload a = upload
  inRun .before ++ transfers true false ++ transfers true true ++ transfers false false ++
    transfers false true ++ inRun .after

theorem mem_execOrder {plan : List SyncAction} {a : SyncAction} :
    a ∈ execOrder plan ↔ a ∈ plan := by
  unfold execOrder
  simp only [mem_append, mem_filter, decide_eq_true_eq, Bool.and_eq_true]
  constructor
  · rintro (((((h | h) | h) | h) | h) | h)
    · exact h.1
    · exact h.1.1
    · exact h.1.1
    · exact h.1.1
    · exact h.1.1
    · exact h.1
  intro h
  cases hrun : runIn plan a with
  | before => simp [h]
  | after => simp [h]
  | transfers => cases completes plan a <;> cases isUpload a <;> simp [h]

/-! ## What a run leaves -/

/-- An item of a tree while a plan runs: one the pass found, by where it found
it, or one the pass wrote. -/
inductive Item where
  | found (origin : Path)
  | written
deriving DecidableEq, Repr

/-- The two trees, and what the pass has noted as written: the collision keys
per side, and the remote items it moved or was handed by a create. -/
structure Applied where
  l : Path → Option Item
  r : Path → Option Item
  wroteLocal : List Path
  wroteRemote : List Path
  wroteUuids : List Uuid

def Applied.start (l : Nodes LocalNode) (r : Nodes RemoteNode) : Applied where
  l p := if l.holds p then some (.found p) else none
  r p := if r.holds p then some (.found p) else none
  wroteLocal := []
  wroteRemote := []
  wroteUuids := []

/-- Write an item at `p`, with the directories above it that are missing. -/
def writeAt (tree : Path → Option Item) (p : Path) : Path → Option Item := fun q =>
  if q = p ∨ (isUnder p q = true ∧ tree q = none) then some .written else tree q

/-- Take away what is at `p` and under it. -/
def removeAt (tree : Path → Option Item) (p : Path) : Path → Option Item := fun q =>
  if AtOrUnder q p then none else tree q

/-- Rename one item, or for a directory its subtree. -/
def renameItem (tree : Path → Option Item) (kind : NodeKind) (src dst : Path) :
    Path → Option Item := fun q =>
  match kind with
  | .file => if q = dst then tree src else if q = src then none else tree q
  | .dir =>
    match movedPath q dst src with
    | some a => tree a
    | none => if AtOrUnder q src then none else tree q

/-- Whether a key noted as written is the key of `p` or lies under it. -/
def shields (wrote : List Path) (fold : CaseFold) (p : Path) : Bool :=
  wrote.any fun key => key = fold.collisionKey p || isUnder key (fold.collisionKey p)

def Applied.shieldsLocal (s : Applied) (fold : CaseFold) (p : Path) : Bool :=
  shields s.wroteLocal fold p

def Applied.shieldsRemote (s : Applied) (fold : CaseFold) (p : Path) (uuid : Uuid) : Bool :=
  s.wroteUuids.contains uuid || shields s.wroteRemote fold p

/-- What an action that lands does; a deletion over something written is
refused. The server answers the create of a directory with `result`, which may
be a directory it already had under another spelling. -/
def Applied.land (fold : CaseFold) (s : Applied) (result : Uuid) : SyncAction → Applied
  | createLocalDir p | downloadFile p _ =>
    { s with l := writeAt s.l p, wroteLocal := fold.collisionKey p :: s.wroteLocal }
  | moveLocal src dst kind =>
    { s with
      l := renameItem s.l kind src dst
      wroteLocal := fold.collisionKey dst :: s.wroteLocal }
  | uploadFile p =>
    { s with r := writeAt s.r p, wroteRemote := fold.collisionKey p :: s.wroteRemote }
  | createRemoteDir p =>
    { s with
      r := writeAt s.r p
      wroteRemote := fold.collisionKey p :: s.wroteRemote
      wroteUuids := result :: s.wroteUuids }
  | moveRemote src dst kind uuid =>
    { s with
      r := renameItem s.r kind src dst
      wroteRemote := fold.collisionKey dst :: s.wroteRemote
      wroteUuids := uuid :: s.wroteUuids }
  | deleteLocal p _ => if s.shieldsLocal fold p then s else { s with l := removeAt s.l p }
  | trashRemote p _ uuid =>
    if s.shieldsRemote fold p uuid then s else { s with r := removeAt s.r p }
  | conflict _ | adoptBaseline _ => s

/-- A run of some actions, each of which lands or fails. -/
inductive Applies (fold : CaseFold) : List SyncAction → Applied → Applied → Prop where
  | done (s : Applied) : Applies fold [] s s
  | landed {a : SyncAction} {rest : List SyncAction} {s s' : Applied} (result : Uuid)
      (next : Applies fold rest (s.land fold result a) s') : Applies fold (a :: rest) s s'
  | failed {a : SyncAction} {rest : List SyncAction} {s s' : Applied}
      (next : Applies fold rest s s') : Applies fold (a :: rest) s s'

/-! ## Where the items of a run come from -/

/-- Each item stands where it was found, or something written is noted at its
path or under it. -/
def Traced (fold : CaseFold) (held : Path → Bool) (wrote : List Path)
    (tree : Path → Option Item) : Prop :=
  ∀ p item, tree p = some item →
    (item = .found p ∧ held p = true) ∨ ∃ key ∈ wrote, AtOrUnder key (fold.collisionKey p)

section Traced

variable {fold : CaseFold} {held : Path → Bool} {wrote : List Path} {tree : Path → Option Item}

section

variable (h : Traced fold held wrote tree)
include h

theorem Traced.mono (key : Path) :
    Traced fold held (key :: wrote) tree := by
  intro p item hp
  rcases h p item hp with hfound | ⟨k, hk, hover⟩
  · exact Or.inl hfound
  · exact Or.inr ⟨k, mem_cons_of_mem _ hk, hover⟩

theorem Traced.writeAt (p : Path) :
    Traced fold held (fold.collisionKey p :: wrote) (writeAt tree p) := by
  intro q item hq
  unfold SyncEngine.writeAt at hq
  split at hq
  · rename_i hwrite
    refine Or.inr ⟨fold.collisionKey p, mem_cons_self, ?_⟩
    rcases hwrite with rfl | ⟨hu, -⟩
    · exact atOrUnder_refl _
    · exact CaseFold.atOrUnder_collisionKey (Or.inr hu)
  · exact h.mono _ q item hq

theorem Traced.renameItem (src dst : Path) :
    Traced fold held (fold.collisionKey dst :: wrote) (renameItem tree .file src dst) := by
  intro q item hq
  unfold SyncEngine.renameItem at hq
  dsimp only at hq
  split at hq
  · rename_i hdst
    subst hdst
    exact Or.inr ⟨fold.collisionKey q, mem_cons_self, atOrUnder_refl _⟩
  split at hq
  · cases hq
  · exact h.mono _ q item hq

theorem Traced.removeAt (p : Path) :
    Traced fold held wrote (removeAt tree p) := by
  intro q item hq
  unfold SyncEngine.removeAt at hq
  split at hq
  · cases hq
  · exact h q item hq

end

end Traced

/-- Both trees of a run, against the sides the pass found. -/
structure TracedRun (fold : CaseFold) (l : Nodes LocalNode) (r : Nodes RemoteNode) (s : Applied) :
    Prop where
  l : Traced fold l.holds s.wroteLocal s.l
  r : Traced fold r.holds s.wroteRemote s.r

section Run

variable {fold : CaseFold} {l : Nodes LocalNode} {r : Nodes RemoteNode} {s s' : Applied}

theorem TracedRun.start (fold : CaseFold) (l : Nodes LocalNode) (r : Nodes RemoteNode) :
    TracedRun fold l r (Applied.start l r) := by
  constructor
  all_goals
    intro p item hp
    simp only [Applied.start] at hp
    split at hp
    · rename_i hheld
      cases hp
      exact Or.inl ⟨rfl, hheld⟩
    · cases hp

def MovesFile : SyncAction → Prop
  | moveLocal _ _ kind | moveRemote _ _ kind _ => kind = .file
  | _ => True

theorem TracedRun.land (h : TracedRun fold l r s) {a : SyncAction} (hfile : MovesFile a)
    (result : Uuid) : TracedRun fold l r (s.land fold result a) := by
  cases a with
  | createLocalDir p => exact ⟨h.l.writeAt p, h.r⟩
  | downloadFile p u => exact ⟨h.l.writeAt p, h.r⟩
  | uploadFile p => exact ⟨h.l, h.r.writeAt p⟩
  | createRemoteDir p => exact ⟨h.l, h.r.writeAt p⟩
  | moveLocal src dst kind =>
    have hk : kind = .file := hfile
    subst hk
    exact ⟨h.l.renameItem src dst, h.r⟩
  | moveRemote src dst kind uuid =>
    have hk : kind = .file := hfile
    subst hk
    exact ⟨h.l, h.r.renameItem src dst⟩
  | deleteLocal p kind =>
    simp only [Applied.land]
    split
    · exact h
    · exact ⟨h.l.removeAt p, h.r⟩
  | trashRemote p kind uuid =>
    simp only [Applied.land]
    split
    · exact h
    · exact ⟨h.l, h.r.removeAt p⟩
  | conflict p => exact h
  | adoptBaseline p => exact h

theorem TracedRun.applies {actions : List SyncAction} (hrun : Applies fold actions s s')
    (hfile : ∀ a ∈ actions, MovesFile a) (h : TracedRun fold l r s) : TracedRun fold l r s' := by
  induction hrun with
  | done s => exact h
  | landed result next ih =>
    exact ih (fun a ha => hfile a (mem_cons_of_mem _ ha))
      (h.land (hfile _ mem_cons_self) result)
  | failed next ih => exact ih (fun a ha => hfile a (mem_cons_of_mem _ ha)) h

end Run

end SyncEngine
