import SyncEngine.Remote.Staged

/-! # What becomes of an item

Once every directory is indexed, each item has one outcome: it arrives at a path, is
recorded with a reason, or lies under a directory that is left out. An index that lacks
directories answers the same about an item as long as it has the ones above it.
-/

namespace SyncEngine.Remote

open Collections Function

/-! ## Indexes that answer alike -/

/-- What an index answers for: the root, a directory it has, and one that is nowhere. -/
def Answers (full : DirIndex) (root : Uuid) (part : DirIndex) (u : Uuid) : Prop :=
  u = root ∨ (∃ entry, part u = some entry) ∨ full u = none

/-- A part of an index that has every directory above each of its own. -/
structure PartOf (full : DirIndex) (root : Uuid) (part : DirIndex) : Prop where
  sub : ∀ u entry, part u = some entry → full u = some entry
  closed : ∀ u entry, part u = some entry → Answers full root part entry.2

section PartOf

variable {scope : Scope} {full part : DirIndex} {undecodableDirs : List Uuid} {u : Uuid}

theorem partOf_self (full : DirIndex) (root : Uuid) : PartOf full root full where
  sub _ _ h := h
  closed u entry _ := by
    cases hat : full entry.2 with
    | none => exact Or.inr (Or.inr hat)
    | some up => exact Or.inr (Or.inl ⟨up, hat⟩)

theorem answers_self (full : DirIndex) (root u : Uuid) : Answers full root full u := by
  cases hat : full u with
  | none => exact Or.inr (Or.inr hat)
  | some entry => exact Or.inr (Or.inl ⟨entry, hat⟩)

theorem Answers.update {at' : Uuid} {entry : Name × Uuid} (h : Answers full scope.root part u) :
    Answers full scope.root (update part at' (some entry)) u := by
  rcases h with h | ⟨up, h⟩ | h
  · exact Or.inl h
  · right
    left
    by_cases hat : u = at'
    · rw [hat, update_self]
      exact ⟨entry, rfl⟩
    rw [update_of_ne hat]
    exact ⟨up, h⟩
  · exact Or.inr (Or.inr h)

theorem PartOf.update {at' : Uuid} {entry : Name × Uuid} (h : PartOf full scope.root part)
    (hfull : full at' = some entry) (hup : Answers full scope.root part entry.2) :
    PartOf full scope.root (update part at' (some entry)) := by
  constructor
  · intro u found hu
    by_cases hat : u = at'
    · rw [hat, update_self] at hu
      cases hu
      rw [hat]
      exact hfull
    rw [update_of_ne hat] at hu
    exact h.sub u found hu
  intro u found hu
  by_cases hat : u = at'
  · rw [hat, update_self] at hu
    cases hu
    exact hup.update
  rw [update_of_ne hat] at hu
  exact (h.closed u found hu).update

theorem climb_partOf (hpart : PartOf full scope.root part) (hu : Answers full scope.root part u)
    (left : Nat) (below : Option Uuid) (parts : List Name) :
    scope.climb part undecodableDirs left below u parts =
      scope.climb full undecodableDirs left below u parts := by
  induction left generalizing u below parts with
  | zero => rfl
  | succ left ih =>
    unfold Scope.climb
    by_cases hroot : u = scope.root
    · rw [if_pos hroot, if_pos hroot]
    rw [if_neg hroot, if_neg hroot]
    dsimp only
    by_cases hundecodable : u ∈ undecodableDirs
    · rw [if_pos hundecodable, if_pos hundecodable]
    rw [if_neg hundecodable, if_neg hundecodable]
    cases hat : part u with
    | some entry =>
      rw [hpart.sub u entry hat]
      dsimp only
      rw [ih (hpart.closed u entry hat)]
    | none =>
      rcases hu with hu | ⟨entry, hu⟩ | hu
      · exact absurd hu hroot
      · rw [hat] at hu
        cases hu
      · rw [hu]

theorem resolveParent_partOf (hpart : PartOf full scope.root part) (hu : Answers full scope.root part u) :
    scope.resolveParent u part undecodableDirs = scope.resolveParent u full undecodableDirs :=
  climb_partOf hpart hu _ _ _

theorem climb_ok_of_sub (hsub : ∀ u entry, part u = some entry → full u = some entry) {left : Nat}
    {below : Option Uuid} {parts : List Name} {path : Path}
    (h : scope.climb part undecodableDirs left below u parts = .ok path) :
    scope.climb full undecodableDirs left below u parts = .ok path := by
  induction left generalizing u below parts with
  | zero => exact h
  | succ left ih =>
    unfold Scope.climb at h ⊢
    split at h
    · rename_i hroot
      rw [if_pos hroot]
      exact h
    rename_i hroot
    rw [if_neg hroot]
    dsimp only at h ⊢
    split at h
    · cases h
    rename_i hundecodable
    rw [if_neg hundecodable]
    split at h
    · split at h
      · cases h
      · cases h
    rename_i name grandparent hat
    rw [hsub u _ hat]
    dsimp only
    split at h
    · rename_i hplaceable
      rw [if_pos hplaceable]
      exact ih h
    · cases h

end PartOf

/-! ## Outcomes -/

def fullIndex (scope : Scope) (items : List (Bool × RemoteItem)) : DirIndex := fun u =>
  (items.find? fun item => item.1 = true ∧ item.2.uuid = u).map fun item =>
    (scope.nfc item.2.name, item.2.parent)

abbrev Placing := Arrival Path (Option Name) RemoteNode

/-- How the remote spells an item's name, where that is not NFC. -/
def spellingOf (scope : Scope) (item : RemoteItem) : Option Name :=
  if item.name ≠ scope.nfc item.name then some item.name else none

def stableOf (item : Bool × RemoteItem) : Option StableUuid :=
  if item.1 then none else item.2.stableUuid

section Outcome

variable (scope : Scope) (dirIndex : DirIndex) (undecodableDirs : List Uuid)

def placingOf (item : Bool × RemoteItem) : Option Placing :=
  match scope.resolveParent item.2.parent dirIndex undecodableDirs with
  | .ok parentPath =>
    let path := joinPath parentPath (scope.nfc item.2.name)
    if scope.isPlaceableName (scope.nfc item.2.name) = true ∧ scope.isReservedPath path = false then
      some ⟨path, spellingOf scope item.2, ViewBuilder.nodeAt path item.1 item.2 (stableOf item)⟩
    else none
  | .error _ => none

def skipOf (item : Bool × RemoteItem) : Option SkippedRemote :=
  let name := scope.nfc item.2.name
  match scope.resolveParent item.2.parent dirIndex undecodableDirs with
  | .ok parentPath =>
    (scope.unplaceableName name).map fun reason =>
      {
        remoteUuid := item.2.uuid
        stableUuid := stableOf item
        relPath := joinPath parentPath name
        pathIsDir := item.1
        reason
      }
  | .error (.underSkipped _) => none
  | .error .brokenParent =>
    some
      {
        remoteUuid := item.2.uuid
        stableUuid := stableOf item
        relPath := name
        pathIsDir := item.1
        reason := .remoteBrokenParent
      }

def unreserved (skip : Option SkippedRemote) : Option SkippedRemote :=
  skip.filter fun skip => !scope.isReservedPath skip.relPath

def recordOf (item : Bool × RemoteItem) : Option SkippedRemote :=
  unreserved scope (skipOf scope dirIndex undecodableDirs item)

def underOf (item : Bool × RemoteItem) : Option (Uuid × Option StableUuid × Uuid) :=
  match scope.resolveParent item.2.parent dirIndex undecodableDirs with
  | .error (.underSkipped ancestor) => some (item.2.uuid, stableOf item, ancestor)
  | _ => none

def firstOf (item : UndecodableItem) : Option SkippedRemote :=
  match scope.resolveParent item.parent dirIndex undecodableDirs with
  | .ok relPath =>
    unreserved scope (some
      {
        remoteUuid := item.uuid
        stableUuid := item.stableUuid
        relPath
        pathIsDir := true
        reason := .remoteUndecodable
      })
  | .error _ => none

def underFirstOf (item : UndecodableItem) : Option (Uuid × Option StableUuid × Uuid) :=
  match scope.resolveParent item.parent dirIndex undecodableDirs with
  | .error (.underSkipped ancestor) => some (item.uuid, item.stableUuid, ancestor)
  | _ => none

end Outcome

section Records

variable {scope : Scope}

theorem Skipped.record_eq (skipped : Skipped) (skip : SkippedRemote) :
    skipped.record scope skip =
      { skipped with recorded := skipped.recorded ++ (unreserved scope (some skip)).toList } := by
  unfold Skipped.record unreserved
  cases h : scope.isReservedPath skip.relPath with
  | true => simp [Option.filter, h]
  | false => simp [Option.filter, h]

theorem Skipped.recordFirst_eq (skipped : Skipped) (skip : SkippedRemote) :
    skipped.recordFirst scope skip =
      { skipped with first := skipped.first ++ (unreserved scope (some skip)).toList } := by
  unfold Skipped.recordFirst unreserved
  cases h : scope.isReservedPath skip.relPath with
  | true => simp [Option.filter, h]
  | false => simp [Option.filter, h]

end Records

end SyncEngine.Remote
