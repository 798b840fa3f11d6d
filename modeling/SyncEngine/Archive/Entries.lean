import SyncEngine.Archive.EntryPath
import SyncEngine.Archive.Resolved

/-! # What becomes of each entry

A partial extraction takes the entries chosen and what is below the directories chosen. An
entry is skipped for its kind or its path, and as macOS metadata where that is left out.
Folders of metadata are held back until every entry was judged.
-/

namespace SyncEngine.Archive.Codec

open Collections

inductive ExtractSkipReason where
  | symlink (target : Name)
  | hardlink (target : Name)
  | device
  | sparse
  | unsupportedType
  | pathTooLong
  | pathTooDeep
  | unsafePath
  | overlappingData
  | unsupportedMethod
  | antiItem
  | macMetadata
deriving DecidableEq, Repr

inductive ArchiveEntryKind where
  | file
  | dir
  | symlink (target : Name)
  /-- With the ordinal of the file it copies, where that is known. -/
  | hardlink (target : Name) (targetId : Option Nat)
  | device
  | other
deriving DecidableEq, Repr

structure Found where
  ordinal : Nat
  stored : Name
  path : Except PathRejection ArchivePath
  kind : ArchiveEntryKind
  /-- Why its kind or data keeps it from being extracted. -/
  unreadable : Option ExtractSkipReason
  size : Nat
  modified : Option Nat
  encrypted : Bool
  method : Option Name

structure SkippedMember where
  ordinal : Nat
  path : Name
  pathTruncated : Bool
  bytes : Nat
  reason : ExtractSkipReason
deriving DecidableEq, Repr

def macMetadataDir : Name := "__MACOSX".toList

inductive MacShape where
  /-- A folder of metadata, or anything but a file or a hard link in one. -/
  | inMacFolder
  /-- A file in one, or named as one: its first bytes tell. -/
  | appleDoubleName
deriving DecidableEq, Repr

/-- A path as shown, and whether it was cut. -/
def displayPath (path : Name) : Name × Bool :=
  if utf8Len path ≤ maxArchivePathBytes then (path, false) else (truncate maxArchivePathBytes path, true)

/-- The path of an entry as drive names, where its reader may have changed it already. -/
def foundPath (u : Unicode) (stored : Name) (rewritten : Bool) : Except PathRejection ArchivePath :=
  (entryPath u stored).map fun path => { path with rewritten := path.rewritten || rewritten }

def pathSkipReason : PathRejection → ExtractSkipReason
  | .tooLong => .pathTooLong
  | .tooDeep => .pathTooDeep
  | .unsafePath => .unsafePath
  | .empty => .unsafePath

namespace Found

def isDir (found : Found) : Bool := decide (found.kind = .dir)

def inMacFolder (path : ArchivePath) : Bool := path.segments.head?.any fun first => first.text = macMetadataDir

def macShape (found : Found) : Option MacShape :=
  match found.path with
  | .error _ => none
  | .ok path =>
    match found.kind with
    | .file =>
      let name := path.name.text
      if inMacFolder path || (2 < utf8Len name && ['.', '_'].isPrefixOf name) then some .appleDoubleName
      else none
    | .hardlink _ _ => none
    | _ => if inMacFolder path then some .inMacFolder else none

def skipRecord (found : Found) (reason : ExtractSkipReason) : SkippedMember where
  ordinal := found.ordinal
  path := (displayPath found.stored).1
  pathTruncated := (displayPath found.stored).2
  bytes := found.size
  reason

end Found

/-- The entries a partial extraction takes, and the directory they land relative to. -/
structure Selection where
  /-- Sorted, each once. -/
  ordinals : List Nat
  sorted : ordinals.Pairwise (· < ·)
  base : List ValidatedName

inductive SelectionError where
  /-- A chosen entry is not in the archive, or not below the base. -/
  | notHeld
  | notAFile
  /-- The folders of metadata hold more directories than may be. -/
  | tooLarge
deriving DecidableEq, Repr

section Digests

variable {D : Type} (u : Unicode) (digest : List Name → D)

def collisionKeys (path : ArchivePath) : List Name := path.segments.map (collisionKey u)

def prefixDigests (keys : List Name) : List D := (List.range keys.length).map fun i => digest (keys.take (i + 1))

def pathDigest [Inhabited D] (keys : List Name) : D := ((prefixDigests digest keys).getLast?).getD default

end Digests

/-- Which entries a partial extraction takes, and where they land. -/
structure Chooser (D : Type) where
  selection : Selection
  base : List Name
  dirs : Finset D
  met : Nat

namespace Chooser

section Choose

variable {D : Type} [DecidableEq D] [Inhabited D] (u : Unicode) (digest : List Name → D)

def new (selection : Selection) : Chooser D where
  selection
  base := selection.base.map (collisionKey u)
  dirs := ∅
  met := 0

/-- The collision keys of a path, which has to be below the base. -/
def belowBase (chooser : Chooser D) (path : ArchivePath) : Except SelectionError (List Name) :=
  let keys := collisionKeys u path
  if chooser.base.isPrefixOf keys then .ok keys else .error .notHeld

def chosen (chooser : Chooser D) (ordinal : Nat) : Bool := decide (ordinal ∈ chooser.selection.ordinals)

/-- Whether a path is a chosen directory, or below one. -/
def inChosenDir (chooser : Chooser D) (keys : List Name) : Bool :=
  (prefixDigests digest keys).any fun found => found ∈ chooser.dirs

def takes (chooser : Chooser D) (ordinal : Nat) (path : Except PathRejection ArchivePath) : Bool :=
  chooser.chosen ordinal ||
    match path with
    | .ok path => chooser.inChosenDir digest (collisionKeys u path)
    | .error _ => false

/-- The path below the base an entry is extracted at, if it is extracted. -/
def choose (chooser : Chooser D) (ordinal : Nat) (path : Except PathRejection ArchivePath) (isDir : Bool) :
    Except SelectionError (Option (Except PathRejection ArchivePath)) × Chooser D :=
  let chosen := chooser.chosen ordinal
  let chooser := if chosen then { chooser with met := chooser.met + 1 } else chooser
  match path with
  | .error rejection => (.ok (if chosen then some (.error rejection) else none), chooser)
  | .ok path =>
    let keys := collisionKeys u path
    let inChosenDir := chooser.inChosenDir digest keys
    if !chosen && !inChosenDir then (.ok none, chooser)
    else
      match chooser.belowBase u path with
      | .error e => (.error e, chooser)
      | .ok keys =>
        let chooser := if chosen && isDir && !inChosenDir then
          { chooser with dirs := insert (pathDigest digest keys) chooser.dirs } else chooser
        if keys.length = chooser.base.length then
          -- the base itself, which the entries below it land in
          if isDir then (.ok (some (.error .empty)), chooser) else (.error .notHeld, chooser)
        else
          match path.below chooser.base.length with
          | none => (.error .notHeld, chooser)
          | some below => (.ok (some (.ok below)), chooser)

end Choose

end Chooser

/-- A folder held back, and what it is sent as once it is left out or created. -/
structure HeldMacFolder where
  stored : ArchivePath
  skipped : SkippedMember
  modified : Option Nat
deriving DecidableEq, Repr

structure MacFolders (D : Type) where
  max : Nat
  held : List HeldMacFolder
  occupied : Finset D
  created : Finset D

namespace MacFolders

section Folders

variable {D : Type} [DecidableEq D] (u : Unicode) (digest : List Name → D)

def new (max : Nat) : MacFolders D where
  max
  held := []
  occupied := ∅
  created := ∅

/-- Hold a folder back, which an extraction is about to create. -/
def hold (found : Found) (folders : MacFolders D) : MacFolders D :=
  match found.path with
  | .error _ => folders
  | .ok stored =>
    { folders with
      held := folders.held ++ [⟨stored, found.skipRecord .macMetadata, found.modified⟩] }

/-- Note an entry judged, or created, in the folders above it. -/
def below (path : Except PathRejection ArchivePath) (created : Bool) (folders : MacFolders D) :
    Except SelectionError Unit × MacFolders D :=
  match path with
  | .error _ => (.ok (), folders)
  | .ok path =>
    if Found.inMacFolder path then
      let above := (prefixDigests digest (collisionKeys u path).dropLast).toFinset
      if created then (.ok (), { folders with created := folders.created ∪ above })
      else
        let folders := { folders with occupied := folders.occupied ∪ above }
        (if folders.max < folders.occupied.card then .error .tooLarge else .ok (), folders)
    else (.ok (), folders)

end Folders

end MacFolders

/-! ## The walk -/

inductive Task where
  | extract (selection : Option Selection)
  | list
  | download (selection : Selection)

inductive Mode (D : Type) where
  | extract (chooser : Option (Chooser D))
  | list
  | download (chooser : Chooser D)

inductive Verdict where
  /-- A partial extraction did not choose it. -/
  | ignore
  /-- It is the root the others land in. -/
  | root
  | skip (reason : ExtractSkipReason)
  /-- A folder of metadata, sent once every entry was judged. -/
  | held
  /-- Where it is extracted, and whether its first bytes decide. -/
  | take (path : ArchivePath) (appleDouble : Bool)
deriving DecidableEq, Repr

structure Walk (D : Type) where
  skipMacMetadata : Bool
  mode : Mode D
  macFolders : MacFolders D

namespace Walk

variable {D : Type} [DecidableEq D] [Inhabited D] (u : Unicode) (digest : List Name → D)

def new (task : Task) (skipMacMetadata : Bool) (maxMembers : Nat) : Walk D where
  skipMacMetadata
  mode :=
    match task with
    | .extract selection => .extract (selection.map (Chooser.new u))
    | .list => .list
    | .download selection => .download (Chooser.new u selection)
  macFolders := MacFolders.new maxMembers

def chooser (walk : Walk D) : Option (Chooser D) :=
  match walk.mode with
  | .extract chooser => chooser
  | .download chooser => some chooser
  | .list => none

def withChooser (chooser : Chooser D) (walk : Walk D) : Walk D :=
  match walk.mode with
  | .extract (some _) => { walk with mode := .extract (some chooser) }
  | .extract none => walk
  | .download _ => { walk with mode := .download chooser }
  | .list => walk

def downloading (walk : Walk D) : Bool :=
  match walk.mode with
  | .download _ => true
  | _ => false

/-- One entry of an index: whether it is chosen and where, its directory noted. -/
def checkEntry (downloading : Bool) (ordinal : Nat) (stored : Name) (isDir : Bool)
    (s : Nat × Chooser D) : Except SelectionError (Nat × Chooser D) :=
  let (found, chooser) := s
  if chooser.chosen ordinal then
    if downloading && isDir then .error .notAFile
    else
      match entryPath u stored with
      | .error _ => .ok (found + 1, chooser)
      | .ok path =>
        match chooser.belowBase u path with
        | .error e => .error e
        | .ok keys =>
          if isDir then .ok (found + 1, { chooser with dirs := insert (pathDigest digest keys) chooser.dirs })
          else if keys.length = chooser.base.length then .error .notHeld
          else .ok (found + 1, chooser)
  else .ok (found, chooser)

/-- Check that an archive's index holds every entry chosen, each below the base. -/
def checkSelection (entries : List (Nat × Name × Bool)) (walk : Walk D) : Except SelectionError (Walk D) :=
  match walk.chooser with
  | none => .ok walk
  | some chooser =>
    let checked := entries.foldlM
      (fun s entry => checkEntry u digest walk.downloading entry.1 entry.2.1 entry.2.2 s) (0, chooser)
    match checked with
    | .error e => .error e
    | .ok (found, chooser) =>
      if found < chooser.selection.ordinals.length then .error .notHeld else .ok (walk.withChooser chooser)

def takes (walk : Walk D) (ordinal : Nat) (stored : Name) : Bool :=
  match walk.chooser with
  | none => true
  | some chooser => chooser.takes u digest ordinal (entryPath u stored)

/-- Judge an entry that was chosen, by its path below the base. -/
def judgePath (found : Found) (path : Except PathRejection ArchivePath) (walk : Walk D) :
    Except SelectionError Verdict × Walk D :=
  match found.unreadable, path with
  | some reason, _ => (.ok (.skip reason), walk)
  | none, .error rejection =>
    (.ok (if rejection = .empty && found.isDir then .root else .skip (pathSkipReason rejection)), walk)
  | none, .ok path =>
    let (noted, folders) := if walk.skipMacMetadata then walk.macFolders.below u digest found.path false
      else (.ok (), walk.macFolders)
    let walk := { walk with macFolders := folders }
    match noted with
    | .error e => (.error e, walk)
    | .ok () =>
      if walk.skipMacMetadata && decide (found.macShape = some .inMacFolder) then
        if found.isDir then (.ok .held, { walk with macFolders := walk.macFolders.hold found })
        else (.ok (.skip .macMetadata), walk)
      else
        let appleDouble := walk.skipMacMetadata && found.macShape = some .appleDoubleName
        let walk := if walk.skipMacMetadata && !appleDouble then
          { walk with macFolders := (walk.macFolders.below u digest found.path true).2 } else walk
        (.ok (.take path appleDouble), walk)

def judge (found : Found) (walk : Walk D) : Except SelectionError Verdict × Walk D :=
  match walk.chooser with
  | none => judgePath u digest found found.path walk
  | some chooser =>
    let (choice, chooser) := chooser.choose u digest found.ordinal found.path found.isDir
    let walk := walk.withChooser chooser
    match choice with
    | .error e => (.error e, walk)
    | .ok none => (.ok .ignore, walk)
    | .ok (some path) => judgePath u digest found path walk

def takenAfterAll (found : Found) (walk : Walk D) : Walk D :=
  if walk.skipMacMetadata then { walk with macFolders := (walk.macFolders.below u digest found.path true).2 }
  else walk

/-- An entry judged, with whether it stays unnoted where its first bytes are to tell: one they make
AppleDouble, or of which a 7z stores no bytes. Any other is noted as extracted after all. -/
def takeEntry (entry : Found × Bool) (walk : Walk D) : Except SelectionError Verdict × Walk D :=
  match walk.judge u digest entry.1 with
  | (.ok (.take path true), walk) =>
    (.ok (.take path true), if entry.2 then walk else walk.takenAfterAll u digest entry.1)
  | judged => judged

/-- What becomes of each entry in turn, until one fails the job. -/
def takeEntries : List (Found × Bool) → Walk D → Except SelectionError (List Verdict × Walk D)
  | [], walk => .ok ([], walk)
  | entry :: rest, walk =>
    match walk.takeEntry u digest entry with
    | (.error e, _) => .error e
    | (.ok verdict, walk) => (takeEntries rest walk).map fun done => (verdict :: done.1, done.2)

def u64Max : Nat := 2 ^ 64 - 1

/-- One more file of those counted, where it is extracted. -/
def countFile (s : Option (Chooser D) × Nat) (file : Nat × Name × Nat) : Option (Chooser D) × Nat :=
  let path := entryPath u file.2.1
  let (kept, chooser) :=
    match s.1 with
    | none => (path.toOption.isSome, none)
    | some chooser =>
      let (choice, chooser) := chooser.choose u digest file.1 path false
      (match choice with
        | .ok (some (.ok _)) => true
        | _ => false, some chooser)
  (chooser, if kept then min u64Max (s.2 + file.2.2) else s.2)

def extractedBytes (walk : Walk D) (files : List (Nat × Name × Nat)) : Nat :=
  (files.foldl (countFile u digest) (walk.chooser, 0)).2

end Walk

end SyncEngine.Archive.Codec
