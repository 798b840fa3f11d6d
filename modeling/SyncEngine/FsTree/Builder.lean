import SyncEngine.Collections.Groups
import SyncEngine.Names.Validation

/-! # The tree a walk builds

A walk hands over its entries depth first. The builder keeps the directories it is in on a
stack and, once one is left, appends the children kept of it to a flat array. A second pass
over what the first left lists each directory's children anew, without what lost a name.
-/

namespace SyncEngine.FsTree

open Collections

inductive WalkError where
  | loop (path : Name)
  | io (path : Option Name)
  | invalidName (path : Name)
  | unsupportedFileType (path : Name)
  | encryptedMeta (uuid : Nat)
  | duplicateName (path : Name)
  | unreachableEntries (count : Nat)
deriving DecidableEq, Repr

structure DirChildrenInfo where
  startIdx : Nat
  numChildren : Nat
deriving DecidableEq, Repr

inductive Entry (D F : Type) where
  | dir (name : Name) (childrenInfo : DirChildrenInfo) (extra : D)
  | file (name : Name) (extra : F) (size : Nat)
deriving DecidableEq, Repr

/-- What a walk tells of an entry, without where its children are. -/
inductive Seen (D F : Type) where
  | dir (name : Name) (extra : D)
  | file (name : Name) (extra : F) (size : Nat)
deriving DecidableEq, Repr

def Seen.name {D F : Type} : Seen D F → Name
  | .dir name _ => name
  | .file name _ _ => name

namespace Entry

variable {D F : Type}

def seen : Entry D F → Seen D F
  | .dir name _ extra => .dir name extra
  | .file name extra size => .file name extra size

def name (entry : Entry D F) : Name := entry.seen.name

end Entry

structure FSTree (D F : Type) where
  entries : List (Entry D F)
  rootNumChildren : Nat
deriving DecidableEq, Repr

/-! ## Iterating depth first -/

/-- The children of a directory that are still to come. -/
structure LevelState where
  start : Nat
  stop : Nat
deriving DecidableEq, Repr

namespace LevelState

def fromDirChildrenInfo (info : DirChildrenInfo) : LevelState := ⟨info.startIdx, info.startIdx + info.numChildren⟩

/-- The next child, with the levels it left behind, the innermost first. -/
def nextIndex : List LevelState → Option (Nat × List LevelState)
  | [] => none
  | level :: levels =>
    if level.start < level.stop then some (level.start, { level with start := level.start + 1 } :: levels)
    else nextIndex levels

end LevelState

namespace FSTree

variable {D F β : Type} (tree : FSTree D F)

def rootChildren : DirChildrenInfo := ⟨tree.entries.length - tree.rootNumChildren, tree.rootNumChildren⟩

/-- The levels once an entry was taken, those of a directory above those it is in. -/
def enter (entry : Entry D F) (levels : List LevelState) : List LevelState :=
  match entry with
  | .dir _ info _ => LevelState.fromDirChildrenInfo info :: levels
  | .file _ _ _ => levels

/-- What is reported of each entry in turn, depth first: nothing where an index is out of range or the
steps run out. -/
def iterate (report : Entry D F → List LevelState → Option β) : Nat → List LevelState → Option (List β)
  | 0, _ => none
  | steps + 1, levels =>
    match LevelState.nextIndex levels with
    | none => some []
    | some (index, levels) =>
      match tree.entries[index]? with
      | none => none
      | some entry =>
        match report entry levels with
        | none => none
        | some reported => (iterate report steps (enter entry levels)).map (reported :: ·)

/-- The names on the way to an entry, which the levels around it tell. -/
def descendants (levels : List LevelState) (currentName : Name) : Option (List Name) :=
  ((levels.drop 1).reverse.mapM fun level => (tree.entries[level.start - 1]?).map Entry.name).map (· ++ [currentName])

def joinPath (names : List Name) : Name := (names.intersperse ['/']).flatten

def buildPathStr (root : Name) (names : List Name) : Name :=
  joinPath (if root = [] then names else root :: names)

def dfsIter (steps : Nat) : Option (List (Entry D F × Nat)) :=
  tree.iterate (fun entry levels => some (entry, levels.length - 1)) steps
    [LevelState.fromDirChildrenInfo tree.rootChildren]

def dfsIterWithPath (root : Name) (steps : Nat) : Option (List (Entry D F × Name)) :=
  tree.iterate (fun entry levels => (tree.descendants levels entry.name).map fun names => (entry, buildPathStr root names))
    steps [LevelState.fromDirChildrenInfo tree.rootChildren]

end FSTree

structure CharTables where
  nfc : Name → Name
  toLowercase : Char → Name

def isWhitespace (c : Char) : Bool :=
  let code := c.toNat
  decide (0x9 ≤ code ∧ code ≤ 0xD) || code = 0x20 || code = 0x85 || code = 0xA0 ||
    code = 0x1680 || decide (0x2000 ≤ code ∧ code ≤ 0x200A) || code = 0x2028 ||
    code = 0x2029 || code = 0x202F || code = 0x205F || code = 0x3000

def trim (name : Name) : Name := ((name.dropWhile isWhitespace).reverse.dropWhile isWhitespace).reverse

def normalizeCollisionKey (tables : CharTables) (name : Name) : Name :=
  let trimmed := trim name
  if trimmed.all (fun c => c.toNat < 128) && !trimmed.any Char.isUpper then trimmed
  else (tables.nfc trimmed).flatMap tables.toLowercase

/-- The order a hash table is iterated in, which may be another for every size of the array. -/
structure HashOrder (α : Type) where
  order : Nat → List α → List α
  perm : ∀ n xs, (order n xs).Perm xs

inductive Stop where
  /-- The stack would be adjusted to a depth below the current one. -/
  | misaligned
  | tooManyEntries
  | cancelled
  | panicked
deriving DecidableEq, Repr

/-! ## The builder -/

structure UnfinalizedDirEntry (D : Type) where
  name : Name
  extra : D
deriving DecidableEq, Repr

structure FSStats where
  dirs : Nat
  files : Nat
  bytes : Nat
deriving DecidableEq, Repr

namespace FSStats

def new : FSStats := ⟨0, 0, 0⟩

def addFile (size : Nat) (stats : FSStats) : FSStats :=
  { stats with
    files := stats.files + 1
    bytes := (stats.bytes + size) % 2 ^ 64 }

def addDir (stats : FSStats) : FSStats := { stats with dirs := stats.dirs + 1 }

end FSStats

inductive EntryType (D F : Type) where
  | dir (extra : D)
  | file (extra : F) (size : Except WalkError Nat)

/-- An entry of a walk: its name, its type and its size may each fail. -/
structure WalkEntry (D F : Type) where
  depth : Nat
  name : Except WalkError Name
  entryType : Except WalkError (EntryType D F)

structure Builder (D F : Type) where
  /-- The directories the walk is in, the innermost first, each with its children so far. -/
  stack : List (UnfinalizedDirEntry D × List (Entry D F))
  rootChildren : List (Entry D F)
  finalEntries : List (Entry D F)
  errors : List WalkError
  stats : FSStats
  /-- Entries deeper than this are below an entry that was rejected. -/
  rejectedEntryDepth : Option Nat
deriving DecidableEq, Repr

/-- What tells which of two entries keeps their name; nothing where it panics. -/
abbrev CompareStrategy (D F : Type) := Seen D F → Seen D F → Option Bool

def panicCompareStrategy {D F : Type} : CompareStrategy D F := fun _ _ => none

def u32Max : Nat := 2 ^ 32 - 1

namespace Builder

variable {D F : Type} (key : Name → Name) (hash : HashOrder (Group Name (Entry D F))) (strategy : CompareStrategy D F)

def new : Builder D F where
  stack := []
  rootChildren := []
  finalEntries := []
  errors := []
  stats := .new
  rejectedEntryDepth := none

def appendToTopLevel (entry : Entry D F) (b : Builder D F) : Builder D F :=
  match b.stack with
  | (dir, children) :: rest => { b with stack := (dir, children ++ [entry]) :: rest }
  | [] => { b with rootChildren := b.rootChildren ++ [entry] }

def preferred (group : Group Name (Entry D F)) : Option (Entry D F) :=
  group.extra.foldlM (fun max candidate =>
    (strategy max.seen candidate.seen).map fun replace => if replace then candidate else max) group.first

/-- The children that keep their names, and an error for each name that others had too. -/
def filterChildren (n : Nat) (ancestors : List Name) (parent : Option Name) (children : List (Entry D F)) :
    Except Stop (List (Entry D F) × List WalkError) :=
  let found := hash.order n (groups (fun entry => key entry.name) children)
  let errors := (found.filter fun group => !group.extra.isEmpty).map fun group =>
    WalkError.duplicateName (FSTree.joinPath (ancestors ++ parent.toList ++ [group.key]))
  match found.mapM (preferred strategy) with
  | none => .error .panicked
  | some kept => .ok (kept, errors)

/-- Finalize the innermost level: its directory joins the level it is in, and the root's children are
told of. -/
def closeLevel (b : Builder D F) : Except Stop (Option DirChildrenInfo × Builder D F) :=
  let n := b.finalEntries.length
  match b.stack with
  | (dir, children) :: rest =>
    match filterChildren key hash strategy n (rest.reverse.map fun level => level.1.name) (some dir.name) children with
    | .error e => .error e
    | .ok (kept, errors) =>
      if u32Max < n + kept.length then .error .tooManyEntries
      else
        let b := { b with
          stack := rest
          finalEntries := b.finalEntries ++ kept
          errors := b.errors ++ errors }
        .ok (none, b.appendToTopLevel (.dir dir.name ⟨n, kept.length⟩ dir.extra))
  | [] =>
    match filterChildren key hash strategy n [] none b.rootChildren with
    | .error e => .error e
    | .ok (kept, errors) =>
      if u32Max < n + kept.length then .error .tooManyEntries
      else
        .ok (some ⟨n, kept.length⟩, { b with
          rootChildren := []
          finalEntries := b.finalEntries ++ kept
          errors := b.errors ++ errors })

/-- Close the levels below a depth, each step one. -/
def closeLevels (target : Nat) : Nat → Builder D F → Except Stop (Option DirChildrenInfo × Builder D F)
  | 0, b => .ok (none, b)
  | steps + 1, b =>
    if target < b.stack.length + 1 then
      match closeLevel key hash strategy b with
      | .error e => .error e
      | .ok (some info, b) => .ok (some info, b)
      | .ok (none, b) => closeLevels target steps b
    else .ok (none, b)

def adjustStackUntilDepth (target : Nat) (b : Builder D F) : Except Stop (Option DirChildrenInfo × Builder D F) :=
  if b.stack.length + 1 < target then .error .misaligned
  else closeLevels key hash strategy target (b.stack.length + 1) b

def reject (error : WalkError) (depth : Nat) (b : Builder D F) : Builder D F :=
  { b with
    errors := b.errors ++ [error]
    rejectedEntryDepth := some depth }

def takeEntry (entry : WalkEntry D F) (b : Builder D F) : Builder D F :=
  match entry.name with
  | .error e => b.reject e entry.depth
  | .ok name =>
    match entry.entryType with
    | .error e => b.reject e entry.depth
    | .ok (.file _ (.error e)) => { b with errors := b.errors ++ [e] }
    | .ok (.file extra (.ok size)) =>
      { b with stats := b.stats.addFile size }.appendToTopLevel (.file name extra size)
    | .ok (.dir extra) =>
      { b with
        stats := b.stats.addDir
        stack := (⟨name, extra⟩, []) :: b.stack }

def processEntry (item : Except WalkError (WalkEntry D F)) (b : Builder D F) : Except Stop (Builder D F) :=
  match item with
  | .error e => .ok { b with errors := b.errors ++ [e] }
  | .ok entry =>
    if b.rejectedEntryDepth.any (fun rejected => rejected < entry.depth) then .ok b
    else
      match adjustStackUntilDepth key hash strategy entry.depth { b with rejectedEntryDepth := none } with
      | .error e => .error e
      | .ok (_, b) => .ok (b.takeEntry entry)

/-- The entries of the second pass, as the first left them. -/
def secondPassEntry (item : Entry D F × Nat) : WalkEntry D F where
  depth := item.2 + 1
  name := .ok item.1.name
  entryType :=
    match item.1 with
    | .dir _ _ extra => .ok (.dir extra)
    | .file _ extra size => .ok (.file extra (.ok size))

def finish (b : Builder D F) : Except Stop (FSTree D F × Builder D F) :=
  match adjustStackUntilDepth key hash strategy 0 b with
  | .error e => .error e
  | .ok (none, _) => .error .panicked
  | .ok (some info, b) => .ok (⟨b.finalEntries, info.numChildren⟩, b)

def processAll (items : List (Except WalkError (WalkEntry D F))) (b : Builder D F) : Except Stop (Builder D F) :=
  items.foldlM (fun b item => processEntry key hash strategy item b) b

/-- The tree, its stats and the errors not reported yet: the second pass unwraps whatever it is given. -/
def finalize (again : HashOrder (Group Name (Entry D F))) (b : Builder D F) :
    Except Stop (FSTree D F × FSStats × List WalkError) :=
  match finish key hash strategy b with
  | .error e => .error e
  | .ok (first, b) =>
    match first.dfsIter (first.entries.length + 1) with
    | none => .error .panicked
    | some listed =>
      match processAll key again panicCompareStrategy (listed.map fun item => .ok (secondPassEntry item)) new with
      | .error _ => .error .panicked
      | .ok second =>
        match finish key again panicCompareStrategy second with
        | .error _ => .error .panicked
        | .ok (tree, second) => .ok (tree, second.stats, b.errors)

end Builder

/-- When callbacks are due, and whether the caller cancelled by then. -/
structure Clock where
  due : Nat → Bool
  cancelled : Nat → Bool

section Build

variable {D F : Type} (key : Name → Name) (hash again : HashOrder (Group Name (Entry D F)))
  (strategy : CompareStrategy D F) (clock : Clock)

/-- Take the walk's entries, reporting what failed so far as callbacks come due. -/
def takeWalk : Nat → List (Except WalkError (WalkEntry D F)) → Builder D F →
    Except Stop (Builder D F × List WalkError)
  | _, [], b => .ok (b, [])
  | i, item :: items, b =>
    match b.processEntry key hash strategy item with
    | .error e => .error e
    | .ok b =>
      if clock.due i then
        if clock.cancelled i then .error .cancelled
        else (takeWalk (i + 1) items { b with errors := [] }).map fun done => (done.1, b.errors ++ done.2)
      else takeWalk (i + 1) items b

/-- The tree of a walk below its root, its stats, and the errors reported of it. -/
def buildFsTree (walk : List (Except WalkError (WalkEntry D F))) :
    Except Stop (FSTree D F × FSStats × List WalkError) :=
  match takeWalk key hash strategy clock 0 walk Builder.new with
  | .error e => .error e
  | .ok (b, reported) =>
    (b.finalize key hash strategy again).map fun done => (done.1, done.2.1, reported ++ done.2.2)

end Build

end SyncEngine.FsTree
