import SyncEngine.Collections.Slots
import SyncEngine.Remote.Names

/-! # The view built in memory

The builder takes a snapshot's items as they arrive, in any order. It indexes the
directories, places an item whose chain of parents it can follow to the root, and sets the
others aside until every item has arrived. What has no place is recorded with a reason of
its own, or under the directory above it that is left out.
-/

namespace SyncEngine.Remote

open Collections

def maxRemoteDepth : Nat := 256

structure RemoteItem where
  uuid : Uuid
  parent : Uuid
  /-- The name as the cache holds it, not normalized. -/
  name : Name
  stableUuid : Option StableUuid
  hash : Option Blake3Hash
  size : Nat
  modifiedMillis : Int
deriving DecidableEq

/-- A record the cache could not decode; it has a whole-life id just when it is a file's. -/
structure UndecodableItem where
  uuid : Uuid
  parent : Uuid
  stableUuid : Option StableUuid
deriving DecidableEq

structure SkippedRemote where
  remoteUuid : Uuid
  stableUuid : Option StableUuid
  relPath : Path
  pathIsDir : Bool
  reason : UnsyncableReason
deriving DecidableEq

structure RemoteView where
  nodes : List RemoteNode
  collisions : PathSet
  heldPaths : PathSet
  skipped : List SkippedRemote

inductive Unresolved where
  | underSkipped (ancestor : Uuid)
  | brokenParent
deriving DecidableEq

abbrev DirIndex := Uuid → Option (Name × Uuid)

namespace Scope

variable (scope : Scope)

/-- Climb from a directory to the root, so many steps at most. `below` is the directory the
climb stepped up from, and `parts` the names passed. -/
def climb (dirIndex : DirIndex) (undecodableDirs : List Uuid) :
    Nat → Option Uuid → Uuid → List Name → Except Unresolved Path
  | left, below, current, parts =>
    if current = scope.root then .ok (['/'].intercalate parts)
    else
      match left with
      | 0 => .error .brokenParent
      | left + 1 =>
        if current ∈ undecodableDirs then .error (.underSkipped current)
        else
          match dirIndex current with
          | none =>
            match below with
            -- its parent is missing, and it is the one recorded as broken
            | some orphan => .error (.underSkipped orphan)
            | none => .error .brokenParent
          | some (name, grandparent) =>
            if scope.isPlaceableName name then
              climb dirIndex undecodableDirs left (some current) grandparent (name :: parts)
            else .error (.underSkipped current)

def resolveParent (parent : Uuid) (dirIndex : DirIndex) (undecodableDirs : List Uuid) :
    Except Unresolved Path :=
  scope.climb dirIndex undecodableDirs maxRemoteDepth none parent []

end Scope

structure Skipped where
  first : List SkippedRemote := []
  recorded : List SkippedRemote := []
  /-- Items under a skipped directory: uuid, whole-life id and that directory. -/
  under : List (Uuid × Option StableUuid × Uuid) := []

namespace Skipped

def record (scope : Scope) (skipped : Skipped) (skip : SkippedRemote) : Skipped :=
  if scope.isReservedPath skip.relPath then skipped
  else { skipped with recorded := skipped.recorded ++ [skip] }

def recordFirst (scope : Scope) (skipped : Skipped) (skip : SkippedRemote) : Skipped :=
  if scope.isReservedPath skip.relPath then skipped
  else { skipped with first := skipped.first ++ [skip] }

def addUnder (skipped : Skipped) (remoteUuid : Uuid) (stableUuid : Option StableUuid)
    (ancestor : Uuid) : Skipped :=
  { skipped with under := skipped.under ++ [(remoteUuid, stableUuid, ancestor)] }

/-- The record of the nearest recorded directory, up from one through the directories above
that are skipped too; the last of a uuid counts. -/
def nearest (recorded : List SkippedRemote) (under : List (Uuid × Option StableUuid × Uuid)) :
    Nat → Uuid → Option SkippedRemote
  | 0, _ => none
  | steps + 1, ancestor =>
    match recorded.reverse.find? fun record => record.remoteUuid = ancestor with
    | some record => some record
    | none =>
      match under.reverse.find? fun item => item.1 = ancestor with
      | some (_, _, up) => nearest recorded under steps up
      | none => none

def finish (skipped : Skipped) : List SkippedRemote :=
  let recorded := skipped.first ++ skipped.recorded
  recorded ++ skipped.under.filterMap fun (remoteUuid, stableUuid, ancestor) =>
    (nearest recorded skipped.under (maxRemoteDepth + 1) ancestor).map fun record =>
      {
        remoteUuid
        stableUuid
        relPath := record.relPath
        pathIsDir := true
        reason := record.reason
      }

end Skipped

/-! ## The builder -/

structure ViewBuilder where
  dirIndex : DirIndex
  undecodable : List UndecodableItem
  undecodableDirs : List Uuid
  nodes : List RemoteNode
  heldPaths : PathSet
  /-- The remote name of a placed item where it is not NFC. -/
  spellings : Uuid → Option Name
  /-- The spelling of the first item at a held path, none where it is NFC. -/
  heldSpellings : Path → Option (Option Name)
  twins : PathSet
  skipped : Skipped
  deferred : List (Bool × RemoteItem)

def dirsOf (items : List UndecodableItem) : List Uuid :=
  (items.filter fun item => item.stableUuid.isNone).map (·.uuid)

namespace ViewBuilder

def new : ViewBuilder where
  dirIndex _ := none
  undecodable := []
  undecodableDirs := []
  nodes := []
  heldPaths := SortedSet.empty
  spellings _ := none
  heldSpellings _ := none
  twins := SortedSet.empty
  skipped := {}
  deferred := []

def takeUndecodable (builder : ViewBuilder) (items : List UndecodableItem) : ViewBuilder :=
  { builder with undecodable := items, undecodableDirs := dirsOf items }

/-- Note that an item arrived at a held path, its NFC name and its spelling given. -/
def noteSpelling (builder : ViewBuilder) (relPath : Path) (name spelled : Name) : ViewBuilder :=
  let first := ((builder.heldSpellings relPath).join).getD name
  if first ≠ spelled then { builder with twins := builder.twins.insert relPath } else builder

def nodeAt (relPath : Path) (isDir : Bool) (item : RemoteItem) (stableUuid : Option StableUuid) :
    RemoteNode where
  relPath := relPath
  kind := if isDir then .dir else .file
  remoteUuid := item.uuid
  stableUuid := stableUuid
  contentHash := if isDir then none else item.hash
  size := if isDir then 0 else item.size
  modifiedMillis := item.modifiedMillis

def insert (scope : Scope) (builder : ViewBuilder) (relPath : Path) (isDir : Bool)
    (item : RemoteItem) (stableUuid : Option StableUuid) (name : Name) : ViewBuilder :=
  if scope.isReservedPath relPath then builder
  else if relPath ∈ builder.heldPaths then builder.noteSpelling relPath name item.name
  else
    match rowAt RemoteNode.relPath builder.nodes relPath with
    | some occupant =>
      let first := builder.spellings occupant.remoteUuid
      noteSpelling
        { builder with
          nodes := builder.nodes.filter fun node => node.relPath ≠ relPath
          heldPaths := builder.heldPaths.insert relPath
          spellings := Function.update builder.spellings occupant.remoteUuid none
          heldSpellings := Function.update builder.heldSpellings relPath (some first) }
        relPath name item.name
    | none =>
      { builder with
        nodes := builder.nodes ++ [nodeAt relPath isDir item stableUuid]
        spellings := if item.name ≠ name then
            Function.update builder.spellings item.uuid (some item.name)
          else builder.spellings }

/-- Index an item if it is a directory, then place it or record why it has no place; while
items still arrive, one whose chain cannot be followed is set aside. -/
def place (scope : Scope) (builder : ViewBuilder) (isDir : Bool) (item : RemoteItem)
    (defer : Bool) : ViewBuilder :=
  let name := scope.nfc item.name
  let builder :=
    if isDir then
      { builder with
        dirIndex := Function.update builder.dirIndex item.uuid (some (name, item.parent)) }
    else builder
  let stableUuid := if isDir then none else item.stableUuid
  match scope.resolveParent item.parent builder.dirIndex builder.undecodableDirs with
  | .ok parentPath =>
    match scope.unplaceableName name with
    | none => builder.insert scope (joinPath parentPath name) isDir item stableUuid name
    | some reason =>
      { builder with
        skipped := builder.skipped.record scope
          {
            remoteUuid := item.uuid
            stableUuid
            relPath := joinPath parentPath name
            pathIsDir := isDir
            reason
          } }
  | .error unresolved =>
    if defer then { builder with deferred := builder.deferred ++ [(isDir, item)] }
    else
      match unresolved with
      | .underSkipped ancestor =>
        { builder with skipped := builder.skipped.addUnder item.uuid stableUuid ancestor }
      | .brokenParent =>
        { builder with
          skipped := builder.skipped.record scope
            {
              remoteUuid := item.uuid
              stableUuid
              relPath := name
              pathIsDir := isDir
              reason := .remoteBrokenParent
            } }

def recordUndecodable (scope : Scope) (builder : ViewBuilder) (item : UndecodableItem) : ViewBuilder :=
  match scope.resolveParent item.parent builder.dirIndex builder.undecodableDirs with
  | .ok relPath =>
    { builder with
      skipped := builder.skipped.recordFirst scope
        {
          remoteUuid := item.uuid
          stableUuid := item.stableUuid
          relPath
          pathIsDir := true
          reason := .remoteUndecodable
        } }
  | .error (.underSkipped ancestor) =>
    { builder with skipped := builder.skipped.addUnder item.uuid item.stableUuid ancestor }
  -- not under this root at all
  | .error .brokenParent => builder

/-- Answer what needed every item: the undecodable records, then the items set aside. -/
def settle (scope : Scope) (builder : ViewBuilder) : ViewBuilder :=
  let settled := builder.undecodable.foldl (recordUndecodable scope) { builder with undecodable := [] }
  settled.deferred.foldl (fun builder item => builder.place scope item.1 item.2 false)
    { settled with deferred := [] }

def finish (scope : Scope) (builder : ViewBuilder) : RemoteView :=
  let builder := builder.settle scope
  {
    nodes := builder.nodes
    collisions := builder.twins
    heldPaths := builder.heldPaths
    skipped := builder.skipped.finish
  }

/-- The view built from a snapshot, its records first and then its items as they come. -/
def build (scope : Scope) (undecodable : List UndecodableItem) (items : List (Bool × RemoteItem)) :
    RemoteView :=
  (items.foldl (fun builder item => builder.place scope item.1 item.2 true)
    (new.takeUndecodable undecodable)).finish scope

end ViewBuilder

end SyncEngine.Remote
