import SyncEngine.Model
import SyncEngine.Folding

/-! # Screening a plan

What a pass may not act on is dropped from its plan in two sweeps. `Blocking`
drops what is planned at a blocked path and the deletions that would take the
source of a dropped move with them; `Withholding` then drops the deletions of
directories that still hold something the pass cannot act on, with the creates
planned at the same paths. Each sweep reads the plan once before it decides any
action of it.
-/

namespace SyncEngine

open Collections

/-- A map keyed by path, listed in path order. -/
structure PathMap (ν : Type) where
  entries : List (Path × ν)
  sorted : (entries.map Prod.fst).Pairwise (· < ·)

namespace PathMap

variable {ν : Type}

def empty : PathMap ν := ⟨[], sorted_nil⟩

def isEmpty (map : PathMap ν) : Bool := map.entries.isEmpty

def keys (map : PathMap ν) : PathSet := ⟨map.entries.map Prod.fst, map.sorted⟩

def values (map : PathMap ν) : List ν := map.entries.map Prod.snd

def get (map : PathMap ν) (path : Path) : Option ν :=
  (map.entries.find? fun e => e.1 = path).map Prod.snd

end PathMap

/-- Whether a key lies strictly under `dir`, asked of the key range. -/
def inSubtree (dir key : Path) : Bool :=
  (subtreeBounds dir).1 ≤ key && key < (subtreeBounds dir).2

theorem inSubtree_iff {dir key : Path} : inSubtree dir key ↔ isUnder key dir := by
  unfold inSubtree
  rw [Bool.and_eq_true, decide_eq_true_iff, decide_eq_true_iff, mem_subtreeBounds]

/-- The entries strictly under `dir`. -/
def underDir {ν : Type} (map : PathMap ν) (dir : Path) : List (Path × ν) :=
  map.entries.filter fun e => inSubtree dir e.1

def anyUnder (set : PathSet) (dir : Path) : Bool := set.toList.any (inSubtree dir)

theorem anyUnder_iff {set : PathSet} {dir : Path} :
    anyUnder set dir ↔ ∃ p ∈ set, isUnder p dir := by
  unfold anyUnder
  rw [List.any_eq_true]
  simp only [inSubtree_iff]
  rfl

inductive IgnoreLevel where
  | default
  | user
  | file (dir : Path)
deriving DecidableEq, Repr

structure IgnoreDecision where
  level : IgnoreLevel
  pattern : List Char
deriving DecidableEq, Repr

def FILENIGNORE : Path := ".filenignore".toList

def originFile (dir : Path) : Path := if dir = [] then FILENIGNORE else dir ++ '/' :: FILENIGNORE

section Collisions

variable (fold : CaseFold)

structure Collisions where
  folded : PathSet

namespace Collisions

def new (paths : List Path) : Collisions := ⟨SortedSet.ofList (paths.map fold.collisionKey)⟩

def isEmpty (c : Collisions) : Bool := c.folded.toList.isEmpty

/-- Whether `path` folds like a colliding path or like one under it. -/
def covers (c : Collisions) (path : Path) : Bool :=
  !c.isEmpty && atOrUnderRoot c.folded (fold.collisionKey path)

/-- Whether a colliding path folds like one strictly under `dir`. -/
def under (c : Collisions) (dir : Path) : Bool :=
  !c.isEmpty && anyUnder c.folded (fold.collisionKey dir)

end Collisions

structure Blocking where
  blocked : PathSet
  ignored : PathSet
  collisions : Collisions
  /-- The sources of the moves this drops: their content stays where it is. -/
  stranded : List Path

namespace Blocking

def new (blocked ignored : PathSet) (collisions : Collisions) : Option Blocking :=
  if !blocked.toList.isEmpty || !ignored.toList.isEmpty || !collisions.isEmpty then
    some ⟨blocked, ignored, collisions, []⟩
  else
    none

/-- Whether `path` is at or under one of `roots`; the pair root covers everything. -/
def atOrUnder (roots : PathSet) (path : Path) : Bool :=
  roots.contains [] || atOrUnderRoot roots path

/-- Whether no action may be planned at `path`. -/
def blocks (b : Blocking) (path : Path) : Bool :=
  atOrUnder b.blocked path || b.collisions.covers fold path

/-- Whether an action is a move whose source is ignored, or folds like a name
collision. -/
def movesIgnored (b : Blocking) : SyncAction → Bool
  | .moveRemote src _ _ _ | .moveLocal src _ _ =>
    atOrUnder b.ignored src || b.collisions.covers fold src
  | _ => false

/-- Note the source an action strands, when it is a move this drops for the path
it moves to. -/
def note (b : Blocking) (a : SyncAction) : Blocking :=
  match a with
  | .moveRemote src _ _ _ | .moveLocal src _ _ =>
    if !b.movesIgnored fold a && b.blocks fold a.relPath then
      { b with stranded := b.stranded ++ [src] }
    else b
  | _ => b

def keeps (b : Blocking) (a : SyncAction) : Bool :=
  if b.movesIgnored fold a then false
  else if b.blocks fold a.relPath then false
  else
    -- a move that was not made leaves its source in place, which reads as gone elsewhere
    !(a.isDelete && b.stranded.any fun src => src = a.relPath || isUnder src a.relPath)

end Blocking

/-! ## What is withheld -/

structure Withholding where
  unknown : PathSet
  held : PathSet
  ignoredLocal : PathMap IgnoreDecision
  ignoredRemote : PathMap IgnoreDecision
  ignoreBlocked : PathSet
  collisions : Collisions
  /-- The directories withheld, and the rule files that keep one. -/
  withheld : List Path
  /-- How many deletions wait over ignored content alone. -/
  overIgnored : Nat

namespace Withholding

def new (unknown held : PathSet) (ignoredLocal ignoredRemote : PathMap IgnoreDecision)
    (ignoreBlocked : PathSet) (collisions : Collisions) : Withholding where
  unknown := unknown
  held := held
  ignoredLocal := ignoredLocal
  ignoredRemote := ignoredRemote
  ignoreBlocked := ignoreBlocked
  collisions := collisions
  withheld := []
  overIgnored := 0

def mayWithhold (w : Withholding) : Bool :=
  !w.held.toList.isEmpty || !w.unknown.toList.isEmpty || !w.ignoredLocal.isEmpty ||
    !w.ignoredRemote.isEmpty || !w.ignoreBlocked.toList.isEmpty || !w.collisions.isEmpty

def withholds (w : Withholding) : Bool := !w.withheld.isEmpty

/-- Whether the directory keeps content `ignored` hides: by level alone. -/
def keepsIgnored (w : Withholding) (ignored : PathMap IgnoreDecision) (dir : Path) : Bool :=
  anyUnder w.ignoreBlocked dir ||
    (underDir ignored dir).any fun e => e.2.level ≠ .default

/-- Whether something under `dir` keeps either side from deleting it. -/
def aboveHeld (w : Withholding) (dir : Path) : Bool :=
  anyUnder w.held dir || w.collisions.under fold dir

/-- What a deletion asks: whether it is above something out of reach, and the
ignored content of the side it deletes on. -/
def question (w : Withholding) : SyncAction → Option (Bool × PathMap IgnoreDecision)
  | .deleteLocal dir _ => some (w.aboveHeld fold dir || anyUnder w.unknown dir, w.ignoredLocal)
  | .trashRemote dir _ _ => some (w.aboveHeld fold dir, w.ignoredRemote)
  | _ => none

/-- The rule files of `side` at or under `dir`. -/
def ruleFiles (side : PathMap IgnoreDecision) (dir : Path) : List Path :=
  side.values.filterMap fun decision =>
    match decision.level with
    | .file rules =>
      if rules = dir ∨ isUnder rules dir = true then some (originFile rules) else none
    | .default | .user => none

/-- Note an action, when it is a deletion that waits. -/
def note (w : Withholding) (a : SyncAction) : Withholding :=
  match w.question fold a with
  | none => w
  | some (unreachable, side) =>
    let dir := a.relPath
    let ignored := w.keepsIgnored side dir
    { w with
      withheld := w.withheld ++ (if ignored then ruleFiles side dir else []) ++
        (if unreachable || ignored then [dir] else [])
      overIgnored := w.overIgnored + if ignored && !unreachable then 1 else 0 }

def keeps (w : Withholding) (a : SyncAction) : Bool :=
  !((a.isDelete || a.isCreate) && w.withheld.contains a.relPath)

end Withholding

end Collisions

structure MismatchedVersion where
  remoteUuid : Uuid
  declaredHash : Blake3Hash
deriving DecidableEq, Repr

structure PathFailure where
  mismatched : Option MismatchedVersion
deriving DecidableEq, Repr

structure Prepared where
  failures : PathMap PathFailure
  refusedNames : PathSet
  aliasedDirs : PathSet
  collisionsLocal : PathSet
  collisionsRemote : PathSet
  unknownRemote : PathSet
  ignoredLocal : PathMap IgnoreDecision
  ignoredRemote : PathMap IgnoreDecision
  ignoreBlocked : PathSet
  remoteBlocked : PathSet
  heldRemote : PathSet

namespace Prepared

/-- Every path a pass must not plan an action for. -/
def blockedPaths (p : Prepared) : PathSet :=
  SortedSet.ofList (p.failures.keys.toList ++ p.refusedNames.toList ++ p.aliasedDirs.toList ++
    p.collisionsLocal.toList ++ p.collisionsRemote.toList ++ p.unknownRemote.toList ++
    p.ignoredLocal.keys.toList ++ p.ignoredRemote.keys.toList ++ p.ignoreBlocked.toList ++
    p.remoteBlocked.toList)

/-- Every directory whose ignore rules the pass could not use, from either side. -/
def blockedRules (p : Prepared) : PathSet :=
  SortedSet.ofList (p.ignoreBlocked.toList ++ p.remoteBlocked.toList)

def ignoredRoots (p : Prepared) : PathSet :=
  SortedSet.ofList (p.ignoredLocal.keys.toList ++ p.ignoredRemote.keys.toList)

def collisionPaths (p : Prepared) : List Path :=
  p.collisionsLocal.toList ++ p.collisionsRemote.toList

def collisions (fold : CaseFold) (p : Prepared) : Collisions := Collisions.new fold p.collisionPaths

/-- Whether an action is dropped only for a hash mismatch at its path, which the
failure row owes to the next pass. A move is always counted. -/
def skipsForMismatch (p : Prepared) (a : SyncAction) : Bool :=
  !a.isMove &&
    match p.failures.get a.relPath with
    | some failure => failure.mismatched.isSome
    | none => false

end Prepared

/-- What is left of a plan, and how much of it the pass owes. -/
structure Screened where
  actions : List SyncAction
  dropped : Nat
  overIgnored : Nat
deriving DecidableEq, Repr

def dropBlocked (fold : CaseFold) (prep : Prepared) (plan : List SyncAction) : Screened :=
  match Blocking.new prep.blockedPaths prep.ignoredRoots (prep.collisions fold) with
  | none => ⟨plan, 0, 0⟩
  | some blocking =>
    let noted := (plan.filter SyncAction.isMove).foldl (Blocking.note fold) blocking
    let taken := plan.filter fun a => !noted.keeps fold a
    ⟨plan.filter (noted.keeps fold),
      taken.length - (taken.filter prep.skipsForMismatch).length, 0⟩

def dropWithheld (fold : CaseFold) (prep : Prepared) (plan : List SyncAction) : Screened :=
  let withholding := Withholding.new prep.unknownRemote prep.heldRemote prep.ignoredLocal
    prep.ignoredRemote prep.blockedRules (prep.collisions fold)
  if withholding.mayWithhold then
    let noted := (plan.filter SyncAction.isDelete).foldl (Withholding.note fold) withholding
    if noted.withholds then
      ⟨plan.filter noted.keeps, (plan.filter fun a => !noted.keeps a).length, noted.overIgnored⟩
    else
      ⟨plan, 0, noted.overIgnored⟩
  else
    ⟨plan, 0, 0⟩

/-- The plan a pass carries out, up to the order it runs it in: what neither sweep
drops. -/
def screenPlan (fold : CaseFold) (prep : Prepared) (plan : List SyncAction) : Screened :=
  let blocked := dropBlocked fold prep plan
  let withheld := dropWithheld fold prep blocked.actions
  ⟨withheld.actions, blocked.dropped + withheld.dropped, withheld.overIgnored⟩

end SyncEngine
