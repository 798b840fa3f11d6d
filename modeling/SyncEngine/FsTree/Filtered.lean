import SyncEngine.FsTree.Builder
import SyncEngine.Collections.Walks

/-! # A walk through a filter

A filter takes of a walk what it includes and leaves out what it excludes. Under an include
filter a directory is held back until something inside it is taken.
-/

namespace SyncEngine.FsTree

open Collections

variable {D F : Type}

def WalkEntry.isDir (entry : WalkEntry D F) : Bool :=
  match entry.entryType with
  | .ok (.dir _) => true
  | _ => false

/-- Whether what is at a path, and whether that is a directory, matches. -/
abbrev PathMatcher := Name → Bool → Bool

structure TransferFilter where
  includePaths : Option PathMatcher
  excludePaths : Option PathMatcher

def TransferFilter.excludes (filter : TransferFilter) (relPath : Name) (isDir : Bool) : Bool :=
  filter.excludePaths.any fun matches' => matches' relPath isDir

/-- Whether what is at a path is included, given whether the directory it is in is. -/
def TransferFilter.includes (filter : TransferFilter) (parent : Bool) (relPath : Name) (isDir : Bool) : Bool :=
  match filter.includePaths with
  | none => true
  | some matches' => parent || matches' relPath isDir

structure Ancestor (D F : Type) where
  name : Name
  held : Option (WalkEntry D F)
  /-- Whether the include filter matched it or a directory above it. -/
  included : Bool

structure FilteredWalk (D F : Type) where
  ancestors : List (Ancestor D F)
  /-- The depth of an excluded directory whose descendants are still being skipped. -/
  skippingBelow : Option Nat
  /-- What was taken and not yet handed out. -/
  ready : List (Except WalkError (WalkEntry D F))

namespace FilteredWalk

variable (filter : TransferFilter)

def new : FilteredWalk D F := ⟨[], none, []⟩

/-- Hand out the directories held back above an entry that is taken, then the entry. -/
def take (entry : WalkEntry D F) (walk : FilteredWalk D F) : FilteredWalk D F :=
  { walk with
    ancestors := walk.ancestors.map fun ancestor => { ancestor with held := none }
    ready := walk.ready ++ (walk.ancestors.filterMap Ancestor.held).map .ok ++ [.ok entry] }

def push (ancestor : Ancestor D F) (walk : FilteredWalk D F) : FilteredWalk D F :=
  { walk with ancestors := walk.ancestors ++ [ancestor] }

def lookBelow (entry : WalkEntry D F) (walk : FilteredWalk D F) : FilteredWalk D F :=
  match entry.name with
  | .error _ => (if entry.isDir then walk.push ⟨[], none, true⟩ else walk).take entry
  | .ok name =>
    let relPath := FSTree.joinPath (walk.ancestors.map Ancestor.name ++ [name])
    if filter.excludes relPath entry.isDir then
      if entry.isDir then { walk with skippingBelow := some entry.depth } else walk
    else
      match entry.isDir, filter.includes (walk.ancestors.getLast?.any Ancestor.included) relPath entry.isDir with
      | true, true => (walk.take entry).push ⟨name, none, true⟩
      | true, false => walk.push ⟨name, some entry, false⟩
      | false, true => walk.take entry
      | false, false => walk

def lookAt (entry : WalkEntry D F) (walk : FilteredWalk D F) : FilteredWalk D F :=
  if walk.skippingBelow.any (fun excluded => excluded < entry.depth) then walk
  else
    lookBelow filter entry { walk with
      ancestors := walk.ancestors.take (entry.depth - 1)
      skippingBelow := none }

/-- The next item, with what is left. -/
def next : List (Except WalkError (WalkEntry D F)) → FilteredWalk D F →
    Option (Except WalkError (WalkEntry D F) × List (Except WalkError (WalkEntry D F)) × FilteredWalk D F)
  | inner, ⟨ancestors, skipping, item :: ready⟩ => some (item, inner, ⟨ancestors, skipping, ready⟩)
  | [], ⟨_, _, []⟩ => none
  | .ok entry :: inner, walk => next inner (lookAt filter entry walk)
  | .error e :: inner, walk => some (.error e, inner, walk)

def collect : Nat → List (Except WalkError (WalkEntry D F)) → FilteredWalk D F →
    Option (List (Except WalkError (WalkEntry D F)))
  | 0, _, _ => none
  | steps + 1, inner, walk =>
    match next filter inner walk with
    | none => some []
    | some (item, inner, walk) => (collect steps inner walk).map (item :: ·)

end FilteredWalk

namespace TransferFilter

variable (filter : TransferFilter)

/-- The path of an entry, by the entries on the way to it: an unreadable name leaves its place empty. -/
def pathOf (chain : List (WalkEntry D F)) : Name :=
  FSTree.joinPath (chain.map fun entry =>
    match entry.name with
    | .ok name => name
    | .error _ => [])

def excludesLast (chain : List (WalkEntry D F)) : Bool :=
  chain.getLast?.any fun entry =>
    match entry.name with
    | .ok _ => filter.excludes (pathOf chain) entry.isDir
    | .error _ => false

def includesLast (chain : List (WalkEntry D F)) : Bool :=
  chain.getLast?.any fun entry =>
    match entry.name with
    | .ok _ => filter.includePaths.any fun matches' => matches' (pathOf chain) entry.isDir
    | .error _ => true

/-- Whether an entry is taken for itself: nothing on the way to it is excluded, nor is it, and one of
them is included, if there is an include filter. -/
def takes (chain : List (WalkEntry D F)) : Bool :=
  chain.inits.all (fun above => !filter.excludesLast above) &&
    (filter.includePaths.isNone || chain.inits.any filter.includesLast)

end TransferFilter

end SyncEngine.FsTree
