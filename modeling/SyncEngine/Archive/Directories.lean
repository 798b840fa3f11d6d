import SyncEngine.Archive.Resolver

/-! # The directories an extraction creates

The directories entries name are planned as they come and created once their parent is. A
create that fails takes what is below with it. A file is registered once its data is up and
its directory is created.
-/

namespace SyncEngine.Archive

open Collections

inductive DirState (Error : Type) where
  | planned
  | creating
  | created
  | failed (error : Error)

inductive DirPlace where
  | root
  /-- A directory an entry names, with the name the archive gave it where that is another. -/
  | named (parent : DirId) (name : ValidatedName) (archiveName : Option ValidatedName)

structure DirSlot (Error : Type) where
  place : DirPlace
  state : DirState Error
  children : List DirId

structure Dirs (Error : Type) where
  slots : List (DirSlot Error)
  /-- How many are planned and neither created nor failed. -/
  uncreated : Nat
  /-- The planned ones whose parent is created, in the order they start. -/
  ready : List DirId
  creates : List DirId

inductive CreateResult (Error : Type) where
  | created (name : ValidatedName)
  | notStarted
  /-- It failed, and the job with it where nothing can succeed any more. -/
  | failed (error : Error) (fatal : Bool)

inductive FilePhase where
  | receiving
  | ended
  | finalizing
  | failed (ended : Bool)
deriving DecidableEq, Repr

structure FileSlot where
  parent : DirId
  phase : FilePhase
  uploading : Nat
  link : Bool
deriving DecidableEq, Repr

inductive Registration where
  | paused
  | registered
  | stopped
  | failed (fatal : Bool)
deriving DecidableEq, Repr

def maxSmallParallelRequests : Nat := 64

section Driver

variable {Error : Type}

namespace DirState

def isPending : DirState Error → Bool
  | planned => true
  | creating => true
  | created => false
  | failed _ => false

def isFailed : DirState Error → Bool
  | planned => false
  | creating => false
  | created => false
  | failed _ => true

def isCreated : DirState Error → Bool
  | planned => false
  | creating => false
  | created => true
  | failed _ => false

end DirState

def DirSlot.parent (slot : DirSlot Error) : Option DirId :=
  match slot.place with
  | .root => none
  | .named parent _ _ => some parent

namespace Dirs

def withState (dir : DirId) (state : DirState Error) (dirs : Dirs Error) : Dirs Error :=
  { dirs with slots := dirs.slots.modify dir fun slot => { slot with state } }

/-- One less is to be created; there is no less than none. -/
def settleOne (dirs : Dirs Error) : Option (Dirs Error) :=
  match dirs.uncreated with
  | 0 => none
  | uncreated + 1 => some { dirs with uncreated }

def createdAt (dirs : Dirs Error) (dir : DirId) : Bool := (dirs.slots[dir]?).any (·.state.isCreated)

def failedAt (dirs : Dirs Error) (dir : DirId) : Bool := (dirs.slots[dir]?).any (·.state.isFailed)

def plan (plan : PlannedDir) (up : DirState Error) (dirs : Dirs Error) : Dirs Error where
  slots :=
    dirs.slots.modify plan.parent (fun slot => { slot with children := slot.children ++ [plan.id] }) ++
      [{
        place := .named plan.parent plan.name plan.archiveName
        state := if up.isFailed then up else .planned
        children := []
      }]
  uncreated := if up.isFailed then dirs.uncreated else dirs.uncreated + 1
  ready := if up.isCreated then dirs.ready ++ [plan.id] else dirs.ready
  creates := dirs.creates

/-- Start to create a directory, which has a parent that is created. -/
def start (dir : DirId) (dirs : Dirs Error) : Option (Dirs Error) :=
  match (dirs.slots[dir]?).bind DirSlot.parent with
  | none => none
  | some parent =>
    if dirs.createdAt parent then
      some { dirs.withState dir .creating with creates := dirs.creates ++ [dir] }
    else none

/-- A directory is created, under a name it may have got only then. -/
def created (dir : DirId) (name : ValidatedName) (dirs : Dirs Error) : Option (Dirs Error) :=
  match dirs.slots[dir]? with
  | none => none
  | some slot =>
    match slot.place with
    | .root => none
    | .named parent planned archiveName =>
      let place := if name = planned then slot.place
        else .named parent name (some (archiveName.getD planned))
      (dirs.settleOne).map fun dirs =>
        { dirs with
          slots := dirs.slots.modify dir fun slot => { slot with place, state := .created }
          ready := dirs.ready ++ slot.children }

/-- A create that did not start is tried again first. -/
def notStarted (dir : DirId) (dirs : Dirs Error) : Dirs Error :=
  { dirs.withState dir .planned with ready := dir :: dirs.ready }

/-- Mark a directory failed, and count it unless it is the one whose create failed. -/
def markFailed (error : Error) (root dir : DirId) (s : Dirs Error × Nat) : Option (Dirs Error × Nat) :=
  match s.1.slots[dir]? with
  | none => none
  | some slot =>
    (if slot.state.isPending then s.1.settleOne else some s.1).map fun dirs =>
      (dirs.withState dir (.failed error), if dir = root then s.2 else s.2 + 1)

/-- Mark what is on a stack failed, and all below it, with rounds enough for each. -/
def failFrom (error : Error) (root : DirId) : Nat → List DirId → Dirs Error × Nat → Option (Dirs Error × Nat)
  | 0, _, s => some s
  | _ + 1, [], s => some s
  | fuel + 1, dir :: stack, s =>
    match s.1.slots[dir]? with
    | none => none
    | some slot =>
      (markFailed error root dir s).bind fun s => failFrom error root fuel (slot.children.reverse ++ stack) s

end Dirs

namespace FileSlot

def failed (file : FileSlot) : Bool :=
  match file.phase with
  | .failed _ => true
  | _ => false

def ended (file : FileSlot) : FileSlot :=
  { file with
    phase := match file.phase with
      | .receiving => .ended
      | .failed _ => .failed true
      | .ended => .ended
      | .finalizing => .finalizing }

/-- The phase of a file that failed; nothing more comes for a hard link's copy. -/
def fail (file : FileSlot) : FileSlot :=
  { file with
    phase := match file.phase with
      | .receiving => .failed file.link
      | .ended => .failed true
      | .finalizing => .failed true
      | .failed ended => .failed ended }

end FileSlot

structure ExtractDriver (Error : Type) where
  resolver : PathResolver
  dirs : Dirs Error
  /-- The open files, by their ordinal. -/
  files : List (Nat × FileSlot)
  uploads : List Nat
  finalizes : List Nat
  items : Nat
  maxItems : Option Nat
  maxMembers : Nat
  dirsCreated : Nat
  dirsFailed : Nat
  filesFailed : Nat
  pauseRequested : Bool
  stopping : Bool

namespace ExtractDriver

def stop (driver : ExtractDriver Error) : ExtractDriver Error := { driver with stopping := true }

/-- End the job where nothing can succeed any more. -/
def noteError (fatal : Bool) (driver : ExtractDriver Error) : ExtractDriver Error :=
  if fatal then driver.stop else driver

/-- Count an item, and whether the job goes on. -/
def countItem (driver : ExtractDriver Error) : Bool × ExtractDriver Error :=
  let driver := { driver with items := driver.items + 1 }
  if driver.maxItems.any fun max => decide (max < driver.items) then (false, driver.stop) else (true, driver)

/-- Plan a directory the resolver planned, and say whether the job goes on. -/
def planDir (plan : PlannedDir) (driver : ExtractDriver Error) : Bool × ExtractDriver Error :=
  match driver.countItem with
  | (false, driver) => (false, driver)
  | (true, driver) =>
    if driver.maxMembers < driver.dirs.slots.length then (false, driver.stop)
    else
      match driver.dirs.slots[plan.parent]? with
      | none => (false, driver.stop)
      | some up =>
        if plan.id = driver.dirs.slots.length then
          (true, { driver with
            dirs := driver.dirs.plan plan up.state
            dirsFailed := if up.state.isFailed then driver.dirsFailed + 1 else driver.dirsFailed })
        else (false, driver.stop)

def planDirs : List PlannedDir → ExtractDriver Error → Bool × ExtractDriver Error
  | [], driver => (true, driver)
  | plan :: planned, driver =>
    match driver.planDir plan with
    | (false, driver) => (false, driver)
    | (true, driver) => planDirs planned driver

/-- The directory a path names, unless the job ends. -/
def resolveDirs (u : Unicode) (fuel : Nat) (segments : List ValidatedName) (driver : ExtractDriver Error) :
    Option (Option DirId × ExtractDriver Error) :=
  match driver.resolver.resolveDirs u fuel segments [] with
  | none => some (none, driver)
  | some .panicked => none
  | some .aborted => some (none, driver.stop)
  | some (.refused _ _ resolver) => some (none, { driver with resolver }.stop)
  | some (.ok dir planned resolver) =>
    match planDirs planned { driver with resolver } with
    | (false, driver) => some (none, driver)
    | (true, driver) => some (some dir, driver)

/-! ### Files -/

def fileAt (driver : ExtractDriver Error) (ordinal : Nat) : Option FileSlot :=
  (driver.files.find? fun file => file.1 = ordinal).map Prod.snd

def setFile (ordinal : Nat) (f : FileSlot → FileSlot) (driver : ExtractDriver Error) : ExtractDriver Error :=
  { driver with files := driver.files.map fun file => if file.1 = ordinal then (file.1, f file.2) else file }

def removeFile (ordinal : Nat) (driver : ExtractDriver Error) : ExtractDriver Error :=
  { driver with files := driver.files.filter fun file => file.1 ≠ ordinal }

def insertFile (ordinal : Nat) (file : FileSlot) (driver : ExtractDriver Error) : ExtractDriver Error :=
  { driver with
    files := (driver.files.filter fun other => other.1 < ordinal) ++
      (ordinal, file) :: driver.files.filter fun other => ordinal < other.1 }

def failFile (ordinal : Nat) (driver : ExtractDriver Error) : Option (ExtractDriver Error) :=
  (driver.fileAt ordinal).map fun _ =>
    { driver.setFile ordinal FileSlot.fail with filesFailed := driver.filesFailed + 1 }

def failFiles (ordinals : List Nat) (driver : ExtractDriver Error) : Option (ExtractDriver Error) :=
  ordinals.foldlM (fun driver ordinal => driver.failFile ordinal) driver

def openFile (ordinal : Nat) (parent : DirId) (link : Bool) (driver : ExtractDriver Error) :
    Option (ExtractDriver Error) :=
  match driver.dirs.slots[parent]? with
  | none => none
  | some slot =>
    let file :=
      {
        parent
        phase := .receiving
        uploading := 0
        link
      }
    if slot.state.isFailed then (driver.insertFile ordinal file).failFile ordinal
    else some (driver.insertFile ordinal file)

/-- A file entry: its directories are planned and a free name taken for it. -/
def newFile (u : Unicode) (fuel : Nat) (parents : List ValidatedName) (name : ValidatedName) (ordinal : Nat)
    (link : Bool) (driver : ExtractDriver Error) : Option (ExtractDriver Error) :=
  match driver.resolveDirs u fuel parents with
  | none => none
  | some (none, driver) => some driver
  | some (some parent, driver) =>
    match driver.countItem with
    | (false, driver) => some driver
    | (true, driver) =>
      match driver.resolver.fileName u fuel parent name [] with
      | none => some driver
      | some .panicked => none
      | some .aborted => some driver.stop
      | some (.refused _ _ resolver) => some { driver with resolver }.stop
      | some (.ok _ _ resolver) => { driver with resolver }.openFile ordinal parent link

/-- Register a file, whose directory is created. -/
def startFinalize (ordinal : Nat) (driver : ExtractDriver Error) : Option (ExtractDriver Error) :=
  match driver.fileAt ordinal with
  | none => none
  | some file =>
    if driver.dirs.createdAt file.parent then
      some { driver.setFile ordinal (fun file => { file with phase := .finalizing }) with
        finalizes := driver.finalizes ++ [ordinal] }
    else none

/-- Whether a file's data is all up and its directory created, or it failed for good. -/
def finalizable (dirs : Dirs Error) (file : FileSlot) : Bool :=
  file.uploading = 0 &&
    match file.phase with
    | .ended => dirs.createdAt file.parent
    | .failed ended => ended
    | .receiving => false
    | .finalizing => false

def finalizeOne (driver : ExtractDriver Error) (ordinal : Nat) : Option (ExtractDriver Error) :=
  match driver.fileAt ordinal with
  | none => none
  | some file =>
    if file.failed then some (driver.removeFile ordinal)
    else if driver.finalizes.length < maxSmallParallelRequests then driver.startFinalize ordinal
    else some driver

/-- Register the files that are ready, and forget the ones that failed. -/
def finalizeReady (driver : ExtractDriver Error) : Option (ExtractDriver Error) :=
  if driver.pauseRequested then some driver
  else ((driver.files.filter fun file => finalizable driver.dirs file.2).map Prod.fst).foldlM finalizeOne driver

/-- Upload a chunk of a file, once its directory is created. -/
def upload (ordinal : Nat) (driver : ExtractDriver Error) : Option (ExtractDriver Error) :=
  match driver.fileAt ordinal with
  | none => some driver
  | some file =>
    if file.failed || !driver.dirs.createdAt file.parent then some driver
    else
      some { driver.setFile ordinal (fun file => { file with uploading := file.uploading + 1 }) with
        uploads := driver.uploads ++ [ordinal] }

def uploadFinished (ordinal : Nat) (failed : Option Bool) (driver : ExtractDriver Error) :
    Option (ExtractDriver Error) :=
  match driver.fileAt ordinal with
  | none => some driver
  | some file =>
    match file.uploading with
    | 0 => none
    | uploading + 1 =>
      let driver := driver.setFile ordinal fun file => { file with uploading }
      match failed with
      | none => driver.finalizeReady
      | some fatal =>
        (if file.failed then some (driver.noteError fatal)
          else (driver.noteError fatal).failFile ordinal).bind finalizeReady

def endFile (ordinal : Nat) (driver : ExtractDriver Error) : Option (ExtractDriver Error) :=
  match driver.fileAt ordinal with
  | none => some driver
  | some _ => (driver.setFile ordinal FileSlot.ended).finalizeReady

def finalizeFinished (ordinal : Nat) (registration : Registration) (driver : ExtractDriver Error) :
    ExtractDriver Error :=
  match registration with
  | .paused => driver.setFile ordinal fun file => { file with phase := .ended }
  | .registered => driver.removeFile ordinal
  | .stopped => driver.removeFile ordinal
  | .failed fatal =>
    { (driver.removeFile ordinal).noteError fatal with filesFailed := driver.filesFailed + 1 }

/-- Drop the transfers of a job that stops; what is being registered finishes. -/
def dropTransfers (driver : ExtractDriver Error) : ExtractDriver Error :=
  { driver with
    uploads := []
    files := driver.files.filter fun file => file.2.phase = .finalizing }

def startDir (driver : ExtractDriver Error) : Option (ExtractDriver Error) :=
  match driver.dirs.ready with
  | [] => some driver
  | dir :: ready =>
    if driver.pauseRequested || driver.stopping ||
        decide (maxSmallParallelRequests ≤ driver.dirs.creates.length) then some driver
    else (Dirs.start dir { driver.dirs with ready }).map fun dirs => { driver with dirs }

/-- A directory and all below it failed, and the files waiting in them fail. -/
def failSubtree (root : DirId) (error : Error) (driver : ExtractDriver Error) : Option (ExtractDriver Error) :=
  (Dirs.failFrom error root driver.dirs.slots.length [root] (driver.dirs, driver.dirsFailed)).bind fun s =>
    let dirs := { s.1 with ready := s.1.ready.filter fun dir => !s.1.failedAt dir }
    let waiting := (driver.files.filter fun file => !file.2.failed && dirs.failedAt file.2.parent).map Prod.fst
    { driver with dirs, dirsFailed := s.2 }.failFiles waiting

def dirFinished (dir : DirId) (result : CreateResult Error) (driver : ExtractDriver Error) :
    Option (ExtractDriver Error) :=
  match result with
  | .created name =>
    (driver.dirs.created dir name).bind fun dirs =>
      { driver with
        dirs
        dirsCreated := driver.dirsCreated + 1 }.finalizeReady
  | .notStarted => some { driver with dirs := driver.dirs.notStarted dir }
  | .failed error fatal =>
    failSubtree dir error { driver.noteError fatal with dirsFailed := driver.dirsFailed + 1 }

end ExtractDriver

/-! ## Runs -/

/-- A driver, and what came of its requests. -/
structure Extracting (Error : Type) where
  driver : ExtractDriver Error
  made : List DirId
  failures : List DirId
  opened : List Nat
  /-- The files registered, each with its directory. -/
  registered : List (Nat × DirId)

inductive ExtractMove (Error : Type) where
  | dirEntry (fuel : Nat) (segments : List ValidatedName)
  | fileEntry (fuel : Nat) (parents : List ValidatedName) (name : ValidatedName) (ordinal : Nat) (link : Bool)
  | startDir
  /-- The create at a place among the ones in flight is done. -/
  | dirFinished (place : Nat) (result : CreateResult Error)
  | upload (ordinal : Nat)
  /-- The upload at a place among the ones in flight is done, or failed. -/
  | uploadFinished (place : Nat) (failed : Option Bool)
  | endFile (ordinal : Nat)
  | failFile (ordinal : Nat)
  | finalizeReady
  /-- The registration at a place among the ones in flight is done. -/
  | finalizeFinished (place : Nat) (registration : Registration)
  | pause (requested : Bool)
  | stop
  | dropTransfers

namespace Extracting

def takesEvents (s : Extracting Error) : Bool := !s.driver.stopping && !s.driver.pauseRequested

def withDriver (s : Extracting Error) (driver : Option (ExtractDriver Error)) : Option (Extracting Error) :=
  driver.map fun driver => { s with driver }

def onDirFinished (place : Nat) (result : CreateResult Error) (s : Extracting Error) :
    Option (Extracting Error) :=
  match s.driver.dirs.creates[place]? with
  | none => some s
  | some dir =>
    let dirs := { s.driver.dirs with creates := s.driver.dirs.creates.eraseIdx place }
    (ExtractDriver.dirFinished dir result { s.driver with dirs }).map fun driver =>
      match result with
      | .created _ => { s with driver, made := s.made ++ [dir] }
      | .notStarted => { s with driver }
      | .failed _ _ => { s with driver, failures := s.failures ++ [dir] }

def onFinalizeFinished (place : Nat) (registration : Registration) (s : Extracting Error) : Extracting Error :=
  match s.driver.finalizes[place]? with
  | none => s
  | some ordinal =>
    let finalizes := s.driver.finalizes.eraseIdx place
    let driver := ExtractDriver.finalizeFinished ordinal registration { s.driver with finalizes }
    match registration, s.driver.fileAt ordinal with
    | .registered, some file => { s with driver, registered := s.registered ++ [(ordinal, file.parent)] }
    | _, _ => { s with driver }

def step (u : Unicode) (move : ExtractMove Error) (s : Extracting Error) : Option (Extracting Error) :=
  match move with
  | .dirEntry fuel segments =>
    if s.takesEvents then s.withDriver ((s.driver.resolveDirs u fuel segments).map Prod.snd) else some s
  | .fileEntry fuel parents name ordinal link =>
    if s.takesEvents then
      (s.driver.newFile u fuel parents name ordinal link).map fun driver =>
        { s with driver, opened := s.opened ++ [ordinal] }
    else some s
  | .startDir => s.withDriver s.driver.startDir
  | .dirFinished place result => s.onDirFinished place result
  | .upload ordinal => s.withDriver (s.driver.upload ordinal)
  | .uploadFinished place failed =>
    match s.driver.uploads[place]? with
    | none => some s
    | some ordinal =>
      let uploads := s.driver.uploads.eraseIdx place
      s.withDriver (ExtractDriver.uploadFinished ordinal failed { s.driver with uploads })
  | .endFile ordinal => s.withDriver (s.driver.endFile ordinal)
  | .failFile ordinal =>
    match s.driver.fileAt ordinal with
    | some file => if file.link && !file.failed && file.phase ≠ .finalizing
        then s.withDriver (s.driver.failFile ordinal) else some s
    | none => some s
  | .finalizeReady => s.withDriver s.driver.finalizeReady
  | .finalizeFinished place registration => some (s.onFinalizeFinished place registration)
  | .pause pauseRequested => some { s with driver := { s.driver with pauseRequested } }
  | .stop => some { s with driver := s.driver.stop }
  | .dropTransfers => if s.driver.stopping then some { s with driver := s.driver.dropTransfers } else some s

def machine (u : Unicode) (resolver : PathResolver) (maxItems : Option Nat) (maxMembers : Nat) :
    Machine (Extracting Error) (ExtractMove Error) where
  start :=
    {
      driver :=
        {
          resolver
          dirs := ⟨[⟨.root, .created, []⟩], 0, [], []⟩
          files := []
          uploads := []
          finalizes := []
          items := 0
          maxItems
          maxMembers
          dirsCreated := 0
          dirsFailed := 0
          filesFailed := 0
          pauseRequested := false
          stopping := false
        }
      made := []
      failures := []
      opened := []
      registered := []
    }
  step := step u

end Extracting

end Driver

def Numbered {Error : Type} (s : Extracting Error) : ExtractMove Error → Prop
  | .fileEntry _ _ _ ordinal _ => ordinal ∉ s.opened
  | _ => True

end SyncEngine.Archive
