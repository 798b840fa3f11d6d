import Mathlib.Data.UInt
import SyncEngine.Model
import SyncEngine.Names.Allocation

/-! # Planning the items of a drive job

The sources of a job that recreates drive items are turned into the directories to
create, parent first, and the files to write into them. Siblings whose names collide are
renamed rather than dropped, a directory whose metadata cannot be decrypted is named
after its uuid, and a file whose metadata cannot be decrypted is skipped.
-/

namespace SyncEngine.DriveJob

inductive DirColor where
  | default
  | blue
  | green
  | purple
  | red
  | gray
  | custom (color : String)
deriving DecidableEq, Repr

/-- A source directory, with what the job needs to address it again. -/
structure SourceDir (D : Type) where
  uuid : Uuid
  /-- `none` when the metadata could not be decrypted. -/
  name : Option Name
  created : Option Int
  color : DirColor
  handle : D

structure RemoteFileType (K : Type) where
  uuid : Uuid
  name : Option Name
  key : Option K
  size : UInt64

/-- A file without a name or a key to read it with cannot be recreated. -/
def RemoteFileType.readable {K : Type} (file : RemoteFileType K) : Bool :=
  file.name.isSome && file.key.isSome

/-- An entry of a recursive listing, under the directory it is in. -/
structure Listed (T : Type) where
  parent : Uuid
  item : T

inductive PlanSource (D K : Type) where
  | file (file : RemoteFileType K)
  | dir (root : SourceDir D) (dirs : List (Listed (SourceDir D)))
      (files : List (Listed (RemoteFileType K)))

structure PlanRequest (D K : Type) where
  source : PlanSource D K
  destination : Uuid
  name : Option ValidatedName

/-! ## Plans -/

/-- Where a planned item goes: an existing directory, or one the plan creates. -/
inductive DestParent where
  | existing (uuid : Uuid)
  | planned (index : Nat)
deriving DecidableEq, Repr

def DestParent.index : DestParent → Option Nat
  | .existing _ => none
  | .planned index => some index

structure PlannedDir (D : Type) where
  request : Nat
  sourceUuid : Uuid
  destUuid : Uuid
  parent : DestParent
  name : ValidatedName
  created : Option Int
  color : DirColor
  sourcePath : Path
  descendantDirs : Nat
  descendantFiles : Nat
  descendantBytes : UInt64
  handle : D

structure PlannedFile (K : Type) where
  request : Nat
  source : RemoteFileType K
  destUuid : Uuid
  parent : DestParent
  name : ValidatedName
  size : UInt64
  sourcePath : Path

inductive PlannedItem where
  | dir (index : Nat)
  | file (index : Nat)
deriving DecidableEq, Repr

structure PlannedTopLevel where
  request : Nat
  item : PlannedItem
deriving DecidableEq, Repr

inductive SkipReason where
  | undecryptableFile (uuid : Uuid)
  | unreachable (count : Nat)
deriving DecidableEq, Repr

structure SkippedEntry where
  sourcePath : Path
  bytes : UInt64
  reason : SkipReason
deriving DecidableEq

inductive RenameReason where
  | duplicateName
  | undecryptable
  | invalidName
deriving DecidableEq, Repr

structure RenamedEntry where
  sourceUuid : Uuid
  sourcePath : Path
  name : ValidatedName
  reason : RenameReason

structure PlanTotals where
  dirs : Nat
  files : Nat
  bytes : UInt64

structure ItemPlan (D K : Type) where
  dirs : List (PlannedDir D)
  files : List (PlannedFile K)
  topLevel : List PlannedTopLevel
  skipped : List SkippedEntry
  renamed : List RenamedEntry
  totals : PlanTotals
  unverifiedDestinations : List Uuid

def ItemPlan.empty (D K : Type) : ItemPlan D K := ⟨[], [], [], [], [], ⟨0, 0, 0⟩, []⟩

inductive ErrorKind where
  | internal
  | invalidState
deriving DecidableEq, Repr

structure Refusal where
  kind : ErrorKind
  message : String
deriving DecidableEq, Repr

def unregistered : Refusal := ⟨.internal, "copy destination was not registered with the planner"⟩

def intoItself : Refusal :=
  ⟨.invalidState, "cannot copy a directory into itself or one of its subdirectories"⟩

/-- A plan refused, a process that died (of a set that cannot grow, or of an index out of
range), or a walk over names cut short. -/
inductive Halt where
  | refused (error : Refusal)
  | aborted
  | exhausted
deriving DecidableEq, Repr

/-! ## Names -/

/-- A uuid as it is written, hyphenated and in lowercase. -/
def uuidText (uuid : Uuid) : Name :=
  (List.range 32).flatMap fun i =>
    let digit := Nat.digitChar (uuid.toNat / 16 ^ (31 - i) % 16)
    if i = 8 ∨ i = 12 ∨ i = 16 ∨ i = 20 then ['-', digit] else [digit]

def uuidName (uuid : Uuid) : ValidatedName := ⟨uuidText uuid⟩

/-- A source item's name made valid: as it is, or encoded. -/
inductive SourceName where
  | valid (name : ValidatedName)
  | encoded (name : ValidatedName)
deriving DecidableEq, Repr

def SourceName.parse (u : Unicode) (name : Name) : Except EntryNameError SourceName :=
  match parseName u.nfc name with
  | .ok name => .ok (.valid name)
  | .error _ => (encodeName u.nfc name).map .encoded

def SourceName.intoName : SourceName → ValidatedName
  | .valid name => name
  | .encoded name => name

/-- Why the name a source name was given is not the source's. -/
def renameReason (sourceName : SourceName) (given : ValidatedName) : Option RenameReason :=
  if given ≠ sourceName.intoName then some .duplicateName
  else
    match sourceName with
    | .encoded _ => some .invalidName
    | .valid _ => none

def pathSegment (name : Option Name) (uuid : Uuid) : Path := name.getD (uuidText uuid)

section Allocate

variable (u : Unicode) (fuel : Nat)

/-- What an allocation of a name gives, the name it falls back on when it is refused. -/
def allocated (fallback : TakenNames → Except Halt (ValidatedName × TakenNames)) :
    Option Allocation → Except Halt (ValidatedName × TakenNames)
  | none => .error .exhausted
  | some .aborted => .error .aborted
  | some (.named name taken) => .ok (name, taken)
  | some (.refused _ taken) => fallback taken

def byUuid (taken : TakenNames) (uuid : Uuid) (shape : NameShape) :
    Except Halt (ValidatedName × TakenNames) :=
  allocated (fun taken => .ok (uuidName uuid, taken)) (taken.allocate u fuel (uuidName uuid) shape)

/-- The name an item gets, and why it is not the source's. -/
def allocateName (taken : TakenNames) (uuid : Uuid) (name : Option Name) (shape : NameShape) :
    Except Halt ((ValidatedName × Option RenameReason) × TakenNames) :=
  match name with
  | none => do
    let (name, taken) ← byUuid u fuel taken uuid shape
    .ok ((name, some .undecryptable), taken)
  | some name =>
    match SourceName.parse u name with
    | .error _ => do
      let (name, taken) ← byUuid u fuel taken uuid shape
      .ok ((name, some .invalidName), taken)
    | .ok sourceName =>
      match taken.allocate u fuel sourceName.intoName shape with
      | none => .error .exhausted
      | some .aborted => .error .aborted
      | some (.refused _ taken) => do
        let (name, taken) ← byUuid u fuel taken uuid shape
        .ok ((name, some .invalidName), taken)
      | some (.named name taken) => .ok ((name, renameReason sourceName name), taken)

end Allocate

section Plan

variable {D K : Type} (u : Unicode) (fuel : Nat) (mint : Nat → Uuid)

namespace ItemPlan

/-- Record a rename worth reporting: at the top level keep-both renames are expected. -/
def noteRename (plan : ItemPlan D K) (sourceUuid : Uuid) (sourcePath : Path) (name : ValidatedName)
    (reason : Option RenameReason) (topLevel : Bool) : ItemPlan D K :=
  match reason.filter fun reason => !topLevel || reason != .duplicateName with
  | none => plan
  | some reason => { plan with renamed := plan.renamed ++ [⟨sourceUuid, sourcePath, name, reason⟩] }

/-- Plan a file into a directory, or record it as skipped when it cannot be read. Every
item planned takes the next fresh uuid. -/
def planFile (plan : ItemPlan D K) (request : Nat) (file : RemoteFileType K) (parent : DestParent)
    (preferred : Option Name) (taken : TakenNames) (sourcePath : Path) (topLevel : Bool) :
    Except Halt (Option Nat × ItemPlan D K × TakenNames) :=
  if file.readable then do
    let ((name, reason), taken) ← allocateName u fuel taken file.uuid (preferred.or file.name) .file
    let noted := plan.noteRename file.uuid sourcePath name reason topLevel
    let planned : PlannedFile K :=
      { request, source := file, destUuid := mint (plan.dirs.length + plan.files.length), parent, name
        size := file.size, sourcePath }
    .ok (some plan.files.length, { noted with files := plan.files ++ [planned] }, taken)
  else
    .ok (none, { plan with skipped := plan.skipped ++
      [⟨sourcePath, file.size, .undecryptableFile file.uuid⟩] }, taken)

def pushDir (plan : ItemPlan D K) (request : Nat) (dir : SourceDir D) (parent : DestParent)
    (preferred : Option Name) (taken : TakenNames) (sourcePath : Path) (topLevel : Bool) :
    Except Halt (Nat × ItemPlan D K × TakenNames) := do
  let ((name, reason), taken) ← allocateName u fuel taken dir.uuid (preferred.or dir.name) .dir
  let noted := plan.noteRename dir.uuid sourcePath name reason topLevel
  let planned : PlannedDir D :=
    { request, sourceUuid := dir.uuid, destUuid := mint (plan.dirs.length + plan.files.length), parent
      name, created := dir.created, color := dir.color, sourcePath, descendantDirs := 0
      descendantFiles := 0, descendantBytes := 0, handle := dir.handle }
  .ok (plan.dirs.length, { noted with dirs := plan.dirs ++ [planned] }, taken)

end ItemPlan

/-! ## Planning a tree -/

/-- Take the children of a directory out of a listing, in listing order. -/
def takeChildren {T : Type} (parent : Uuid) (listing : List (Listed T)) : List T × List (Listed T) :=
  ((listing.filter fun listed => listed.parent = parent).map (·.item),
    listing.filter fun listed => listed.parent ≠ parent)

/-- The walk over a source tree: the plan so far, the children no directory took yet, the
directories reached, and those still to be walked with where they are planned. -/
structure TreeWalk (D K : Type) where
  plan : ItemPlan D K
  childDirs : List (Listed (SourceDir D))
  childFiles : List (Listed (RemoteFileType K))
  visited : List Uuid
  queue : List (Uuid × Nat)

def childPath (path : Path) (name : Option Name) (uuid : Uuid) : Path :=
  path ++ '/' :: pathSegment name uuid

/-- Plan the directories in a directory; one reached before is planned once. -/
def planChildDirs (request : Nat) (parent : DestParent) (path : Path) :
    List (SourceDir D) → TreeWalk D K → TakenNames → Except Halt (TreeWalk D K × TakenNames)
  | [], walk, taken => .ok (walk, taken)
  | dir :: rest, walk, taken =>
    if dir.uuid ∈ walk.visited then planChildDirs request parent path rest walk taken
    else do
      let (index, plan, taken) ← walk.plan.pushDir u fuel mint request dir parent none taken
        (childPath path dir.name dir.uuid) false
      let walk := { walk with
        plan, visited := dir.uuid :: walk.visited, queue := walk.queue ++ [(dir.uuid, index)] }
      planChildDirs request parent path rest walk taken

def planChildFiles (request : Nat) (parent : DestParent) (path : Path) :
    List (RemoteFileType K) → ItemPlan D K → TakenNames → Except Halt (ItemPlan D K × TakenNames)
  | [], plan, taken => .ok (plan, taken)
  | file :: rest, plan, taken => do
    let (_, plan, taken) ← plan.planFile u fuel mint request file parent none taken
      (childPath path file.name file.uuid) false
    planChildFiles request parent path rest plan taken

/-- Walk the queue, for so many directories. -/
def walkQueue (request : Nat) : Nat → TreeWalk D K → Except Halt (TreeWalk D K)
  | 0, walk => .ok walk
  | rounds + 1, walk =>
    match walk.queue with
    | [] => .ok walk
    | (sourceUuid, plannedIndex) :: queue =>
      match walk.plan.dirs[plannedIndex]? with
      | none => .error .aborted
      | some dir => do
        let parent := DestParent.planned plannedIndex
        let (dirs, childDirs) := takeChildren sourceUuid walk.childDirs
        let (walk, taken) ← planChildDirs u fuel mint request parent dir.sourcePath dirs
          { walk with childDirs, queue } TakenNames.empty
        let (files, childFiles) := takeChildren sourceUuid walk.childFiles
        let (plan, _) ← planChildFiles u fuel mint request parent dir.sourcePath files walk.plan
          taken
        walkQueue request rounds { walk with plan, childFiles }

/-- The entries a walk never reached: files no directory took, and directories no
directory reached took that were not reached another way. -/
def TreeWalk.unreachable (walk : TreeWalk D K) : Nat × UInt64 :=
  let dirs := (walk.childDirs.filter fun listed => listed.item.uuid ∉ walk.visited).length
  let (files, bytes) := walk.childFiles.foldl
    (fun (count, bytes) listed => (count + 1, bytes + listed.item.size)) (0, 0)
  (dirs + files, bytes)

/-- Plan a source directory and everything reachable below it, breadth first. Each
directory is queued once, so there are rounds for all that are listed. -/
def ItemPlan.planTree (plan : ItemPlan D K) (request : Nat) (root : SourceDir D)
    (dirs : List (Listed (SourceDir D))) (files : List (Listed (RemoteFileType K)))
    (parent : DestParent) (preferred : Option Name) (taken : TakenNames) :
    Except Halt (Nat × ItemPlan D K × TakenNames) := do
  let rootPath := pathSegment root.name root.uuid
  let (rootIndex, plan, taken) ← plan.pushDir u fuel mint request root parent preferred taken rootPath true
  let walk ← walkQueue u fuel mint request (dirs.length + 1)
    { plan, childDirs := dirs, childFiles := files, visited := [root.uuid]
      queue := [(root.uuid, rootIndex)] }
  let (count, bytes) := walk.unreachable
  if 0 < count then
    .ok (rootIndex, { walk.plan with
      skipped := walk.plan.skipped ++ [⟨rootPath, bytes, .unreachable count⟩] }, taken)
  else .ok (rootIndex, walk.plan, taken)

def addFile (dirs : List (PlannedDir D)) (file : PlannedFile K) : List (PlannedDir D) :=
  match file.parent with
  | .planned parent => dirs.modify parent fun dir => { dir with
      descendantFiles := dir.descendantFiles + 1, descendantBytes := dir.descendantBytes + file.size }
  | .existing _ => dirs

/-- Add what a directory counts to what its parent does, and the directory itself. -/
def addDir (dirs : List (PlannedDir D)) (index : Nat) : List (PlannedDir D) :=
  match dirs[index]? with
  | none => dirs
  | some dir =>
    match dir.parent with
    | .planned parent => dirs.modify parent fun above => { above with
        descendantDirs := above.descendantDirs + (dir.descendantDirs + 1)
        descendantFiles := above.descendantFiles + dir.descendantFiles
        descendantBytes := above.descendantBytes + dir.descendantBytes }
    | .existing _ => dirs

/-- Sum each directory's descendants. Children follow their parent, so one reverse pass
goes from the bottom up. -/
def ItemPlan.fillDescendantCounts (plan : ItemPlan D K) : ItemPlan D K :=
  { plan with
    dirs := (List.range plan.dirs.length).reverse.foldl addDir (plan.files.foldl addFile plan.dirs) }

/-- The names taken in each registered destination, and the destinations whose names are
not fully known. -/
structure ItemPlanner where
  destinations : Uuid → Option TakenNames
  unverifiedDestinations : List Uuid

namespace ItemPlanner

def empty : ItemPlanner := ⟨fun _ => none, []⟩

def addDestination (planner : ItemPlanner) (uuid : Uuid) (names : List Name) : Option ItemPlanner :=
  (TakenNames.new u names).map fun taken => { planner with
    destinations := Function.update planner.destinations uuid (some taken) }

def markUnverified (planner : ItemPlanner) (uuid : Uuid) : ItemPlanner :=
  { planner with unverifiedDestinations := planner.unverifiedDestinations.insert uuid }

/-- Whether a source is a directory the destination is, or lists it. -/
def contains (destination : Uuid) : PlanSource D K → Bool
  | .file _ => false
  | .dir root dirs _ =>
    root.uuid == destination || dirs.any fun listed => listed.item.uuid == destination

/-- A destination must be registered, and lie outside the source. -/
def validate (planner : ItemPlanner) (request : PlanRequest D K) : Except Halt Unit :=
  if (planner.destinations request.destination).isNone then .error (.refused unregistered)
  else if contains request.destination request.source then .error (.refused intoItself)
  else .ok ()

def planRequest (state : (Uuid → Option TakenNames) × ItemPlan D K)
    (indexed : PlanRequest D K × Nat) : Except Halt ((Uuid → Option TakenNames) × ItemPlan D K) :=
  let (destinations, plan) := state
  let (request, index) := indexed
  match destinations request.destination with
  | none => .error .aborted
  | some taken =>
    let parent := DestParent.existing request.destination
    let preferred := request.name.map (·.text)
    match request.source with
    | .file file => do
      let (planned, plan, taken) ← plan.planFile u fuel mint index file parent preferred taken
        (pathSegment file.name file.uuid) true
      let topLevel := planned.toList.map fun file => ⟨index, .file file⟩
      .ok (Function.update destinations request.destination (some taken),
        { plan with topLevel := plan.topLevel ++ topLevel })
    | .dir root dirs files => do
      let (dir, plan, taken) ← plan.planTree u fuel mint index root dirs files parent preferred taken
      .ok (Function.update destinations request.destination (some taken),
        { plan with topLevel := plan.topLevel ++ [⟨index, .dir dir⟩] })

/-- Validate every request, then plan them in order. -/
def plan (planner : ItemPlanner) (requests : List (PlanRequest D K)) : Except Halt (ItemPlan D K) := do
  requests.forM planner.validate
  let (_, plan) ← requests.zipIdx.foldlM (planRequest u fuel mint)
    (planner.destinations,
      { ItemPlan.empty D K with unverifiedDestinations := planner.unverifiedDestinations })
  let plan := plan.fillDescendantCounts
  .ok { plan with
    totals := ⟨plan.dirs.length, plan.files.length, (plan.files.map (·.size)).sum⟩ }

end ItemPlanner

end Plan

end SyncEngine.DriveJob
