import SyncEngine.Collections.Machine
import SyncEngine.Collections.Trees
import SyncEngine.Names.KeepBoth
import SyncEngine.Remote.Names

/-! # The pair's bin on disk

The bin is a directory under the local root, filed by the day an item entered it: each item
keeps its tree position under its day's bucket. A marker at the top says that the names there
that read as days are buckets. The root is a tree of directories and files; links are left out.
-/

namespace SyncEngine.Bin

open Collections

/-- A name as the file system holds it, which need not be text. -/
inductive OsName where
  | text (name : Name)
  | raw (bytes : List UInt8)
  deriving DecidableEq

def OsName.toStr : OsName → Option Name
  | .text name => some name
  | .raw _ => none

/-- A path below the local root, by its components. -/
abbrev Place := List OsName

abbrev Node (File : Type) := Tree OsName File

abbrev Disk (File : Type) := Option (Node File)

def quarantineDir : OsName := .text Remote.quarantineDir

def markerName : Name := ".filed-by-day".toList

def datedMarker : OsName := .text markerName

def bin : Place := [quarantineDir]

def marker : Place := [quarantineDir, datedMarker]

/-- A place of the tree the bin is not part of. -/
def InTree : Place → Prop
  | [] => False
  | first :: _ => first ≠ quarantineDir

instance (place : Place) : Decidable (InTree place) := by
  cases place <;> unfold InTree <;> infer_instance

/-- A day, counted from the first the calendar has. -/
abbrev Day := Nat

structure Calendar where
  format : Day → Name
  parse : Name → Option Day
  parse_format : ∀ day, parse (format day) = some day
  parse_marker : parse markerName = none

namespace Calendar

variable (calendar : Calendar)

def bucketName (day : Day) : OsName := .text (calendar.format day)

def parseBucket (name : OsName) : Option Day :=
  name.toStr.bind fun name => (calendar.parse name).filter fun day => calendar.format day = name

def bucketDir (day : Day) : Place := bin ++ [calendar.bucketName day]

end Calendar

variable {File : Type}

def rename (source dest : Place) (disk : Disk File) : Option (Disk File) :=
  if source <+: dest ∨ dest = [] ∨ ¬ Tree.isBranch (Tree.find dest.dropLast disk) then none
  else
    match Tree.find source disk with
    | none => none
    | some node =>
      match Tree.find dest disk, node with
      | none, _ | some (.leaf _), .leaf _ | some (.branch []), .branch _ =>
        some (Tree.put dest (some node) (Tree.put source none disk))
      | _, _ => none

/-- Link a file to another place, which never replaces what is there. -/
def hardLink (source dest : Place) (disk : Disk File) : Option (Disk File) :=
  if dest = [] ∨ ¬ Tree.isBranch (Tree.find dest.dropLast disk) ∨ (Tree.find dest disk).isSome then none
  else
    match Tree.find source disk with
    | some (.leaf file) => some (Tree.put dest (some (.leaf file)) disk)
    | _ => none

/-- Where the key of an item is found on disk: each component as its directory spells it. -/
structure Spelling (File : Type) where
  onDisk : Disk File → Place → Place
  /-- The target of a write, where it is confined to the root. -/
  confined : Disk File → Place → Option Place
  onDisk_inTree : ∀ disk rel, InTree rel → InTree (onDisk disk rel)
  confined_inTree : ∀ disk rel target, InTree rel → confined disk rel = some target → InTree target

/-- Mark the bin as filed by day; a bin already marked is left as it is. -/
def markDated (disk : Disk File) : Disk File :=
  if (Tree.find marker disk).isSome then disk else Tree.put marker (some (.branch [])) disk

/-- The places tried for an item, in order. -/
def candidate (base : Place) (n : Nat) : Place :=
  base.dropLast ++ [.text (((base.getLast?.bind OsName.toStr).getD "quarantined".toList) ++ counterSuffix n)]

/-- A place of the bin that holds nothing: the base, or it numbered. After the last number the
base is handed back, occupied. -/
def uniqueQuarantineDest (disk : Disk File) (base : Place) : Place :=
  if (Tree.find base disk).isNone then base
  else
    match (List.range' 1 99999).find? fun n => (Tree.find (candidate base n) disk).isNone with
    | some n => candidate base n
    | none => base

variable (calendar : Calendar) (spelling : Spelling File)

/-- Move an item of the tree into the bin, to its position under the bucket of a day. -/
def quarantineLocal (marks : Bool) (day : Day) (rel : Place) (disk : Disk File) :
    Except Unit (Option Place) × Disk File :=
  let source := spelling.onDisk disk rel
  if (Tree.find source disk).isNone then (.ok none, disk)
  else
    -- Only a bin this call creates is known to hold nothing but buckets.
    let newBin := (Tree.find bin disk).isNone
    let dest := uniqueQuarantineDest disk (calendar.bucketDir day ++ rel)
    match Tree.makeBranches dest.dropLast disk with
    | none => (.error (), disk)
    | some made =>
      let marked := if newBin && marks then markDated (some made) else some made
      match rename source dest marked with
      | some moved => (.ok (some dest), moved)
      | none => (.error (), marked)

structure Listing where
  order : List OsName → List OsName
  perm : ∀ names, (order names).Perm names
  /-- Entries it fails to read. -/
  unreadable : OsName → Bool

/-- The day buckets of a bin, newest first. -/
structure Binned where
  buckets : List Place

def Binned.open (listing : Option Listing) (disk : Disk File) : Option Binned :=
  match Tree.find bin disk, listing with
  | some (.branch entries), some listing =>
    if (Tree.find marker disk).isNone then none
    else
      let names := (listing.order (entries.map Prod.fst)).filter fun name => !listing.unreadable name
      let days := names.filterMap calendar.parseBucket
      if days = [] then none else some ⟨(days.insertionSort (· ≥ ·)).map calendar.bucketDir⟩
  | _, _ => none

structure Content (Hash : Type) where
  size : Nat
  hash : Hash
  deriving DecidableEq

/-- Put a file of the bin back at its place in the tree, where nothing is; says what went where. -/
def Binned.takeBack {Hash : Type} [DecidableEq Hash] (content : File → Content Hash) (links unlinks : Bool) (binned : Binned)
    (rel : Place) (wanted : Content Hash) (disk : Disk File) : Option (Place × File) × Disk File :=
  let held := binned.buckets.findSome? fun bucket =>
    match Tree.find (bucket ++ rel) disk with
    | some (.leaf file) => if content file = wanted then some (bucket ++ rel, file) else none
    | _ => none
  match held, spelling.confined disk rel with
  | some (place, file), some target =>
    match Tree.makeBranches target.dropLast disk with
    | none => (none, disk)
    | some made =>
      match if links then hardLink place target (some made) else none with
      | none => (none, some made)
      | some linked => (some (target, file), if unlinks then Tree.put place none linked else linked)
  | _, _ => (none, disk)

/-! ## Pruning -/

def retentionDays : Nat := 30

def expired (day today : Day) : Bool :=
  if retentionDays ≤ today then decide (day < today - retentionDays) else false

structure PruneSummary where
  removed : Nat
  adopted : Nat
  errors : Nat
  stopped : Bool
  deriving DecidableEq

/-- What fails at an entry of the bin. -/
structure Trouble (File : Type) where
  /-- Its removal fails and leaves this of it. -/
  removing : Option (Node File)
  creating : Bool
  moving : Bool

/-- Move an entry that is no bucket into the bucket of today under the same name. -/
def adopt (trouble : Trouble File) (name : OsName) (today : Day) (disk : Disk File) : Bool × Disk File :=
  let bucket := calendar.bucketDir today
  match if trouble.creating then none else Tree.makeBranches bucket disk with
  | none => (false, disk)
  | some made =>
    let dest := uniqueQuarantineDest (some made) (bucket ++ [name])
    if (Tree.find dest (some made)).isSome then (false, some made)
    else
      match if trouble.moving then none else rename (bin ++ [name]) dest (some made) with
      | none => (false, some made)
      | some moved => (true, moved)

def pruneEntry (dated : Bool) (today : Day) (trouble : Trouble File) (name : OsName) :
    PruneSummary × Disk File → PruneSummary × Disk File
  | (summary, disk) =>
    let adopting := match adopt calendar trouble name today disk with
      | (true, moved) => ({ summary with adopted := summary.adopted + 1 }, moved)
      | (false, left) => ({ summary with errors := summary.errors + 1 }, left)
    match calendar.parseBucket name with
    | none => adopting
    | some day =>
      -- Nothing can be adopted into itself: today's bucket stays, whether the bin is marked or not.
      if day = today || (dated && !expired day today) then (summary, disk)
      else if dated then
        match trouble.removing with
        | none => ({ summary with removed := summary.removed + 1 }, Tree.put (bin ++ [name]) none disk)
        | some left => ({ summary with errors := summary.errors + 1 }, Tree.put (bin ++ [name]) (some left) disk)
      else adopting

/-- Go through the entries, as long as the gate lets the prune go on. -/
def pruneEntries (dated : Bool) (today : Day) (trouble : OsName → Trouble File) :
    List OsName → Nat → PruneSummary × Disk File → PruneSummary × Disk File
  | [], _, state => state
  | name :: names, patience, state =>
    if name = datedMarker then pruneEntries dated today trouble names patience state
    else
      match patience with
      | 0 => ({ state.1 with stopped := true }, state.2)
      | patience + 1 =>
        pruneEntries dated today trouble names patience (pruneEntry calendar dated today (trouble name) name state)

/-- Delete the buckets that expired, and file everything that is no bucket under today. An
unmarked bin has no buckets but today's, and is marked once all of it was filed. -/
def pruneBin (listing : Option Listing) (patience : Nat) (trouble : OsName → Trouble File) (marks : Bool) (today : Day)
    (disk : Disk File) : PruneSummary × Disk File :=
  match Tree.find bin disk, listing with
  | none, _ => (⟨0, 0, 0, false⟩, disk)
  | some (.leaf _), _ | _, none => (⟨0, 0, 1, false⟩, disk)
  | some (.branch entries), some listing =>
    let names := listing.order (entries.map Prod.fst)
    if names.any listing.unreadable then (⟨0, 0, 1, false⟩, disk)
    else
      let dated := (Tree.find marker disk).isSome
      let (summary, pruned) := pruneEntries calendar dated today trouble names patience (⟨0, 0, 0, false⟩, disk)
      if !dated && summary.errors == 0 && !summary.stopped then
        if marks then (summary, markDated pruned) else ({ summary with errors := summary.errors + 1 }, pruned)
      else (summary, pruned)

structure MigrateSummary where
  moved : Nat
  errors : Nat
  stopped : Bool
  /-- Trash folders found and still in place. -/
  unmoved : List Place
  deriving DecidableEq

def relText (place : Place) : Path := ['/'].intercalate (place.filterMap OsName.toStr)

/-- Note a trash folder, or open a directory that may hold one. -/
def walkEntry (scope : Remote.Scope) (entries : List (OsName × Node File)) (relDir : Place) (state : List Place × List Place)
    (name : OsName) : List Place × List Place :=
  let (found, dirs) := state
  if relDir = [] ∧ name = quarantineDir then state
  else
    let trash := name = .text Remote.legacyTrashDir
    if ¬ trash ∧ ¬ Tree.isBranch (Tree.child entries name) then state
    else
      let rel := relDir ++ [name]
      if name.toStr.isNone ∨ scope.isAccountData (relText rel) then state
      else if trash then (found ++ [rel], dirs) else (found, rel :: dirs)

/-- The trash folders of the tree; the directories still to list are a stack. -/
def findLegacyTrash (scope : Remote.Scope) (listing : Place → Option Listing) (disk : Disk File) :
    Nat → List Place → MigrateSummary × List Place → MigrateSummary × List Place
  | _, [], state => state
  | 0, _ :: _, (summary, found) => ({ summary with stopped := true }, found)
  | patience + 1, relDir :: dirs, (summary, found) =>
    match Tree.find relDir disk, listing relDir with
    | none, _ => findLegacyTrash scope listing disk patience dirs (summary, found)
    | some (.leaf _), _ | _, none =>
      findLegacyTrash scope listing disk patience dirs ({ summary with errors := summary.errors + 1 }, found)
    | some (.branch entries), some listed =>
      let names := listed.order (entries.map Prod.fst)
      let unread := (names.filter listed.unreadable).length
      let (found, dirs) := (names.filter fun name => !listed.unreadable name).foldl (walkEntry scope entries relDir) (found, dirs)
      findLegacyTrash scope listing disk patience dirs ({ summary with errors := summary.errors + unread }, found)

/-- Move each of the trash folders into the bin, as long as the gate lets it. -/
def moveLegacyTrash (marks : Bool) (day : Day) : Nat → List Place → MigrateSummary × Disk File → MigrateSummary × Disk File
  | _, [], state => state
  | 0, rel :: found, (summary, disk) =>
    ({ summary with stopped := true, unmoved := summary.unmoved ++ rel :: found }, disk)
  | patience + 1, rel :: found, (summary, disk) =>
    match quarantineLocal calendar spelling marks day rel disk with
    | (.ok (some _), disk) => moveLegacyTrash marks day patience found ({ summary with moved := summary.moved + 1 }, disk)
    | (.ok none, disk) => moveLegacyTrash marks day patience found (summary, disk)
    | (.error _, disk) => moveLegacyTrash marks day patience found
        ({ summary with errors := summary.errors + 1, unmoved := summary.unmoved ++ [rel] }, disk)

def migrateLegacyTrash (scope : Remote.Scope) (listing : Place → Option Listing) (walks moves : Nat) (marks : Bool) (day : Day)
    (disk : Disk File) : MigrateSummary × Disk File :=
  let (summary, found) := findLegacyTrash scope listing disk walks [[]] (⟨0, 0, false, []⟩, [])
  moveLegacyTrash calendar spelling marks day moves found (summary, disk)

/-- Move the trash folders that were left in place, without walking the tree again. -/
def retryLegacyTrash (unmoved : List Place) (moves : Nat) (marks : Bool) (day : Day) (disk : Disk File) :
    MigrateSummary × Disk File :=
  moveLegacyTrash calendar spelling marks day moves unmoved (⟨0, 0, false, []⟩, disk)

/-! ## Runs

The engine bins items, takes files back and prunes, on days that never go back; the tree around
the bin changes in between as it likes.
-/

section Runs

variable {File Hash : Type} [DecidableEq Hash]

structure Engine (File Hash : Type) where
  calendar : Calendar
  spelling : Spelling File
  scope : Remote.Scope
  content : File → Content Hash

structure World (File : Type) where
  disk : Disk File
  today : Day
  opened : Option Binned
  /-- What was taken back, the latest first, and where it was put. -/
  putBack : List (Place × File)

inductive Move (File Hash : Type) where
  | quarantineLocal (marks : Bool) (day : Day) (rel : Place)
  | open (listing : Option Listing)
  | takeBack (links unlinks : Bool) (rel : Place) (wanted : Content Hash)
  | migrateLegacyTrash (listing : Place → Option Listing) (walks moves : Nat) (marks : Bool) (day : Day)
  | retryLegacyTrash (unmoved : List Place) (moves : Nat) (marks : Bool) (day : Day)
  | pruneBin (listing : Option Listing) (patience : Nat) (trouble : OsName → Trouble File) (marks : Bool) (day : Day)
  | other (tree : Disk File)

def Move.day : Move File Hash → Option Day
  | .quarantineLocal _ day _ | .migrateLegacyTrash _ _ _ _ day | .retryLegacyTrash _ _ _ day | .pruneBin _ _ _ _ day => some day
  | .open _ | .takeBack _ _ _ _ | .other _ => none

namespace World

def new (disk : Disk File) : World File := ⟨disk, 0, none, []⟩

def around (tree disk : Disk File) : Disk File := Tree.put bin (Tree.find bin disk) tree

def step (engine : Engine File Hash) (world : World File) : Move File Hash → Option (World File)
  | .quarantineLocal marks day rel =>
    if world.today ≤ day ∧ InTree rel then
      let (_, disk) := quarantineLocal engine.calendar engine.spelling marks day rel world.disk
      some { world with disk, today := day }
    else none
  | .open listing => some { world with opened := Binned.open engine.calendar listing world.disk }
  | .takeBack links unlinks rel wanted =>
    match world.opened with
    | some binned =>
      if InTree rel then
        let (taken, disk) := binned.takeBack engine.spelling engine.content links unlinks rel wanted world.disk
        some { world with disk, putBack := taken.toList ++ world.putBack }
      else none
    | none => none
  | .migrateLegacyTrash listing walks moves marks day =>
    if world.today ≤ day then
      let (_, disk) := migrateLegacyTrash engine.calendar engine.spelling engine.scope listing walks moves marks day world.disk
      some { world with disk, today := day }
    else none
  | .retryLegacyTrash unmoved moves marks day =>
    if world.today ≤ day ∧ ∀ rel ∈ unmoved, InTree rel then
      let (_, disk) := retryLegacyTrash engine.calendar engine.spelling unmoved moves marks day world.disk
      some { world with disk, today := day }
    else none
  | .pruneBin listing patience trouble marks day =>
    if world.today ≤ day then
      let (_, disk) := pruneBin engine.calendar listing patience trouble marks day world.disk
      some { world with disk, today := day }
    else none
  | .other tree => if Tree.isBranch tree then some { world with disk := around tree world.disk } else none

def machine (engine : Engine File Hash) (start : World File) : Machine (World File) (Move File Hash) :=
  ⟨start, fun move world => world.step engine move⟩

end World

end Runs

end SyncEngine.Bin
