import SyncEngine.Collections.Bisect
import SyncEngine.DriveJob.ItemPlan

/-! # Entry paths as drive names

A stored path is split at both separators and loses what made it absolute. Each segment
becomes a name the drive accepts, and a path that climbs is refused.
-/

namespace SyncEngine.Archive

open Collections
open DriveJob (SourceName)

def maxArchivePathBytes : Nat := 4096

def maxArchivePathDepth : Nat := 256

/-- An entry's path as drive names, parent directories first. -/
structure ArchivePath where
  segments : List ValidatedName
  nonempty : segments ≠ []
  deep : segments.length ≤ maxArchivePathDepth
  /-- Whether any segment differs from what the archive stored. -/
  rewritten : Bool
  /-- Whether it reads as something it is not. -/
  suspicious : Bool
deriving DecidableEq, Repr

inductive PathRejection where
  | tooLong
  | tooDeep
  /-- It climbs, or a segment cannot be made into a name. -/
  | unsafePath
  /-- Nothing is left: the archive's root. -/
  | empty
deriving DecidableEq, Repr

namespace ArchivePath

def name (path : ArchivePath) : ValidatedName := path.segments.getLast path.nonempty

/-- The path below its first segments, if anything is left. -/
def below (depth : Nat) (path : ArchivePath) : Option ArchivePath :=
  if h : path.segments.drop depth = [] then none
  else
    some { path with
      segments := path.segments.drop depth
      nonempty := h
      deep := Nat.le_trans (List.drop_sublist depth path.segments).length_le path.deep }

end ArchivePath

def isSuspicious (c : Char) : Bool :=
  let code := c.toNat
  code ≤ 0x1F || decide (0x7F ≤ code ∧ code ≤ 0x9F) || code = 0xAD || code = 0x61C ||
    code = 0x180E || decide (0x200B ≤ code ∧ code ≤ 0x200F) || decide (0x202A ≤ code ∧ code ≤ 0x202E) ||
    decide (0x2060 ≤ code ∧ code ≤ 0x2064) || decide (0x2066 ≤ code ∧ code ≤ 0x206F) || code = 0xFEFF ||
    decide (0xFFF9 ≤ code ∧ code ≤ 0xFFFB) || code = 0xE0001 || decide (0xE0020 ≤ code ∧ code ≤ 0xE007F)

def isDrive (segment : Name) : Bool :=
  match segment with
  | [letter, ':'] => letter.isAlpha
  | _ => false

def pathParts (raw : Name) : List Name := raw.splitOnP fun c => c = '/' || c = '\\'

/-- The parts behind what makes a path absolute, and whether there was any. -/
def relativeParts (parts : List Name) : Bool × List Name :=
  let leading := (parts.takeWhile (· = [])).length
  if 0 < leading ∧ leading < parts.length then
    -- two separators make a UNC path, whose server and share go too
    (true, parts.drop (if 2 ≤ leading then leading + 2 else leading))
  else if parts.head?.any isDrive then (true, parts.drop 1)
  else (false, parts)

section Segments

variable (u : Unicode)

/-- The name of a segment's beginning, by how many characters that takes. -/
def fits (segment : Name) (cut : Nat) : Option ValidatedName :=
  match SourceName.parse u (segment.take cut) with
  | .ok name => some name.intoName
  | .error _ => none

/-- How many characters of a segment are kept: the cuts are behind the first character, behind
the second, and so on to the last but one. -/
def shortenedAt (segment : Name) : Option Nat :=
  let cuts := (List.range segment.length).drop 1
  let fitting := partitionPoint (fun i => (cuts[i]?).any fun cut => (fits u segment cut).isSome) cuts.length
  match fitting with
  | 0 => none
  | last + 1 => cuts[last]?

/-- A segment as a drive name, and whether that is another. -/
def segmentName (segment : Name) : Option (ValidatedName × Bool) :=
  match SourceName.parse u segment with
  | .ok (.valid name) => some (name, false)
  | .ok (.encoded name) => some (name, true)
  | .error _ => ((shortenedAt u segment).bind fun cut => fits u segment cut).map fun name => (name, true)

/-- The names of a path's parts, and whether any is another. -/
def segmentNames : List Name → Option (List ValidatedName × Bool)
  | [] => some ([], false)
  | part :: parts =>
    match segmentName u part with
    | none => none
    | some (name, rewritten) =>
      (segmentNames parts).map fun rest => (name :: rest.1, rewritten || rest.2)

theorem length_segmentNames {parts : List Name} {names : List ValidatedName} {rewritten : Bool}
    (h : segmentNames u parts = some (names, rewritten)) : names.length = parts.length := by
  induction parts generalizing names rewritten with
  | nil =>
    cases h
    rfl
  | cons part parts ih =>
    unfold segmentNames at h
    cases hname : segmentName u part with
    | none =>
      rw [hname] at h
      cases h
    | some found =>
      rw [hname] at h
      obtain ⟨rest, hrest, heq⟩ := Option.map_eq_some_iff.mp h
      cases heq
      rw [List.length_cons, List.length_cons, ih hrest]

/-- An entry path as the archive stored it, made into drive names. -/
def entryPath (raw : Name) : Except PathRejection ArchivePath :=
  if maxArchivePathBytes < utf8Len raw then .error .tooLong
  else
    let (absolute, relative) := relativeParts (pathParts raw)
    let parts := relative.filter fun part => !part.isEmpty && part ≠ ['.']
    if hdeep : maxArchivePathDepth < parts.length then .error .tooDeep
    else if ['.', '.'] ∈ parts then .error .unsafePath
    else if hempty : parts = [] then .error .empty
    else
      match hnames : segmentNames u parts with
      | none => .error .unsafePath
      | some (segments, rewritten) =>
        have hlength := length_segmentNames u hnames
        .ok {
          segments
          nonempty := fun hnone => hempty (List.length_eq_zero_iff.mp (hlength ▸ congrArg List.length hnone))
          deep := hlength ▸ Nat.not_lt.mp hdeep
          rewritten := absolute || rewritten
          suspicious := parts.any fun part => part.any isSuspicious
        }

end Segments

end SyncEngine.Archive
