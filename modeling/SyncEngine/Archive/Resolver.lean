import SyncEngine.Collections.Machine
import SyncEngine.Collections.Tries
import SyncEngine.Names.Allocation

/-! # Where archive entries go

A directory an archive names is planned once, under a name that is free where it is
created. It is known by the names the archive gave it and its parents.
-/

namespace SyncEngine.Archive

open Collections

/-- A planned directory, or the root the entries land in. -/
abbrev DirId := Nat

def rootDir : DirId := 0

structure PlannedDir where
  id : DirId
  parent : DirId
  name : ValidatedName
  /-- The name the archive gave it, where it is created under another. -/
  archiveName : Option ValidatedName
deriving DecidableEq, Repr

structure DirNode where
  taken : TakenNames
  /-- Subdirectories by the key of the name the archive gave them. -/
  children : Name → Option DirId

structure PathResolver where
  dirs : List DirNode

inductive Resolution (α : Type) where
  | ok (value : α) (planned : List PlannedDir) (resolver : PathResolver)
  | refused (error : EntryNameError) (planned : List PlannedDir) (resolver : PathResolver)
  /-- A set of names cannot grow any further. -/
  | aborted
  /-- There is no such directory. -/
  | panicked

namespace PathResolver

variable (u : Unicode)

def new (existing : List Name) : Option PathResolver :=
  (TakenNames.new u existing).map fun taken => ⟨[⟨taken, fun _ => none⟩]⟩

/-- A directory below another, by the key of the name the archive gave it. -/
def child (resolver : PathResolver) (dir : DirId) (key : Name) : Option DirId :=
  (resolver.dirs[dir]?).bind fun node => node.children key

def withTaken (resolver : PathResolver) (dir : DirId) (node : DirNode) (taken : TakenNames) : PathResolver :=
  ⟨resolver.dirs.set dir { node with taken }⟩

def withDir (resolver : PathResolver) (dir : DirId) (node : DirNode) (key : Name) (taken : TakenNames) :
    PathResolver :=
  ⟨resolver.dirs.set dir
      {
        taken
        children := Function.update node.children key (some resolver.dirs.length)
      } ++ [⟨TakenNames.empty, fun _ => none⟩]⟩

/-- The directory a path names below another, with rounds enough to name each one. -/
def resolveFrom (fuel : Nat) : List ValidatedName → DirId → List PlannedDir → PathResolver →
    Option (Resolution DirId)
  | [], current, planned, resolver => some (.ok current planned resolver)
  | segment :: segments, current, planned, resolver =>
    let key := u.lower segment.text
    match resolver.dirs[current]? with
    | none => some .panicked
    | some node =>
      match node.children key with
      | some child => resolveFrom fuel segments child planned resolver
      | none =>
        match node.taken.allocate u fuel segment .dir with
        | none => none
        | some .aborted => some .aborted
        | some (.refused error taken) =>
          some (.refused error planned (resolver.withTaken current node taken))
        | some (.named name taken) =>
          let id := resolver.dirs.length
          let plan :=
            {
              id
              parent := current
              name
              archiveName := if name = segment then none else some segment
            }
          resolveFrom fuel segments id (planned ++ [plan])
            (resolver.withDir current node key taken)

def resolveDirs (fuel : Nat) (segments : List ValidatedName) (planned : List PlannedDir)
    (resolver : PathResolver) : Option (Resolution DirId) :=
  resolveFrom u fuel segments rootDir planned resolver

def fileName (fuel : Nat) (dir : DirId) (name : ValidatedName) (planned : List PlannedDir)
    (resolver : PathResolver) : Option (Resolution ValidatedName) :=
  match resolver.dirs[dir]? with
  | none => some .panicked
  | some node =>
    match node.taken.allocate u fuel name .file with
    | none => none
    | some .aborted => some .aborted
    | some (.refused error taken) => some (.refused error planned (resolver.withTaken dir node taken))
    | some (.named given taken) => some (.ok given planned (resolver.withTaken dir node taken))

end PathResolver

/-- A resolver, and what its calls answered. -/
structure Extraction where
  resolver : PathResolver
  planned : List PlannedDir
  /-- The paths asked for, each with its directory. -/
  resolved : List (List ValidatedName × DirId)
  /-- The names given to files, each with its directory. -/
  files : List (DirId × ValidatedName)

inductive ResolverCall where
  | resolveDirs (fuel : Nat) (segments : List ValidatedName)
  | fileName (fuel : Nat) (dir : DirId) (name : ValidatedName)

/-- The names given out in a directory, to subdirectories and to files. -/
def givenIn (planned : List PlannedDir) (files : List (DirId × ValidatedName)) (dir : DirId) :
    List ValidatedName :=
  (planned.filter fun plan => plan.parent = dir).map PlannedDir.name ++
    (files.filter fun file => file.1 = dir).map Prod.snd

namespace Extraction

/-- A call that was refused names nothing. -/
def step (u : Unicode) : ResolverCall → Extraction → Option Extraction
  | .resolveDirs fuel segments, extraction =>
    match extraction.resolver.resolveDirs u fuel segments extraction.planned with
    | some (.ok id planned resolver) =>
      some { extraction with
        resolver
        planned
        resolved := extraction.resolved ++ [(segments, id)] }
    | some (.refused _ planned resolver) => some { extraction with resolver, planned }
    | _ => none
  | .fileName fuel dir name, extraction =>
    match extraction.resolver.fileName u fuel dir name extraction.planned with
    | some (.ok given planned resolver) =>
      some { extraction with
        resolver
        planned
        files := extraction.files ++ [(dir, given)] }
    | some (.refused _ planned resolver) => some { extraction with resolver, planned }
    | _ => none

def machine (u : Unicode) (start : PathResolver) : Machine Extraction ResolverCall where
  start :=
    {
      resolver := start
      planned := []
      resolved := []
      files := []
    }
  step := step u

end Extraction

def ResolverCall.Valid (u : Unicode) : ResolverCall → Prop
  | .resolveDirs _ segments => ∀ segment ∈ segments, Validated u segment
  | .fileName _ _ name => Validated u name

end SyncEngine.Archive
