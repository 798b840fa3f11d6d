import Mathlib.Algebra.GroupWithZero.Nat
import Mathlib.Algebra.Ring.Int.Defs
import SyncEngine.Collections.Reading

/-! # The tar reader

The reader walks the members of a tar stream: a header, the records before it that modify
it, its sparse map, and its data up to the next block. What a header's fields say is the
tar library's parsing and is taken as given; where the next header starts is decided here
alone.
-/

namespace SyncEngine.Archive

open Collections List

def tarBlock : Nat := 512

structure Block where
  bytes : List UInt8
  length_eq : bytes.length = tarBlock

inductive EntryType where
  | regular
  | link
  | symlink
  | char
  | block
  | directory
  | fifo
  | continuous
  | gnuLongName
  | gnuLongLink
  | gnuSparse
  | xGlobalHeader
  | xHeader
  | other (byte : UInt8)
  deriving DecidableEq

def EntryType.asByte : EntryType → UInt8
  | .regular => 48
  | .link => 49
  | .symlink => 50
  | .char => 51
  | .block => 52
  | .directory => 53
  | .fifo => 54
  | .continuous => 55
  | .gnuLongName => 76
  | .gnuLongLink => 75
  | .gnuSparse => 83
  | .xGlobalHeader => 103
  | .xHeader => 120
  | .other byte => byte

structure HeaderFields where
  entryType : Block → EntryType
  entrySize : Block → Option UInt64
  mtime : Block → Option UInt64
  pathBytes : Block → List UInt8
  linkNameBytes : Block → Option (List UInt8)
  isGnu : Block → Bool
  isUstar : Block → Bool
  /-- Whether a GNU header's sparse map goes on in a further block. -/
  isExtended : Block → Bool
  /-- Whether a further block of a sparse map is itself followed by one. -/
  mapExtended : Block → Bool

inductive TarError where
  | read
  | corrupt (reason : String)
  | tooManyMembers (max : UInt64)
  deriving DecidableEq

/-- A tar octal number field: leading spaces, octal digits, then NUL or space padding. -/
def parseOctal (field : List UInt8) : Option Nat :=
  let digits := (field.dropWhile (· == 32)).takeWhile fun b => b != 0 && b != 32
  if digits = [] then none
  else
    digits.foldlM (fun value b =>
      if 48 ≤ b ∧ b ≤ 55 ∧ value * 8 + (b.toNat - 48) < 2 ^ 64 then
        some (value * 8 + (b.toNat - 48))
      else none) 0

def checksummed (block : Block) : List UInt8 :=
  block.bytes.take 148 ++ List.replicate 8 32 ++ block.bytes.drop 156

/-- Whether a block's checksum field matches the sum of its bytes, unsigned or signed. -/
def isTarHeader (block : Block) : Bool :=
  match parseOctal ((block.bytes.drop 148).take 8) with
  | none => false
  | some stored =>
    let unsigned := ((checksummed block).map UInt8.toNat).sum
    let signed := ((checksummed block).map fun byte => byte.toInt8.toInt).sum
    unsigned != 8 * 32 && (stored == unsigned || (stored < 2 ^ 63 && (stored : Int) == signed))

inductive Flavor where
  | old
  | gnu
  | ustar
  | pax
  deriving DecidableEq

def Flavor.after (flavor : Flavor) (f : HeaderFields) (header : Block) : Flavor :=
  match (f.entryType header).asByte.toNat with
  -- PAX extended and global headers, Sun's and Solaris ACLs
  | 120 | 103 | 88 | 65 => .pax
  -- GNU long names and links and volume headers change nothing
  | 76 | 75 | 86 => flavor
  | _ =>
    if f.isGnu header then .gnu
    else if f.isUstar header && flavor == .pax then .pax
    else if f.isUstar header then .ustar
    else .old

/-! ## Records -/

structure MemberTime where
  secs : Int
  nanos : Nat
  deriving DecidableEq

structure PaxOverrides where
  path : Option (List UInt8) := none
  linkPath : Option (List UInt8) := none
  size : Option UInt64 := none
  modified : Option MemberTime := none
  sparse : Bool := false

/-- The records seen before a member. -/
structure Pending where
  longName : Option (List UInt8) := none
  longLink : Option (List UInt8) := none
  pax : Option PaxOverrides := none

def isDigit (b : UInt8) : Bool := 48 ≤ b && b ≤ 57

/-- A number written in decimal digits and nothing else, when it is below a bound. -/
def parseDigits (bound : Nat) (digits : List UInt8) : Option Nat :=
  if digits = [] ∨ digits.all isDigit = false then none
  else
    let value := digits.foldl (fun value b => value * 10 + (b.toNat - 48)) 0
    if value < bound then some value else none

/-- A 64-bit number as Rust parses it, a plus sign before it allowed. -/
def parseU64 (value : List UInt8) : Option UInt64 :=
  let digits := match value with
    | 43 :: digits => digits
    | digits => digits
  (parseDigits (2 ^ 64) digits).map UInt64.ofNat

/-- A PAX time: optional sign, whole seconds, optional fraction. -/
def parsePaxTime (value : List UInt8) : Option MemberTime :=
  let (negative, value) := match value with
    | 45 :: rest => (true, rest)
    | value => (false, value)
  let (whole, fraction) := match value.findIdx? (· == 46) with
    | some dot => (value.take dot, value.drop (dot + 1))
    | none => (value, [])
  if fraction.all isDigit then
    (parseDigits (2 ^ 63) whole).map fun whole =>
      let shown := fraction.take 9
      let nanos := (shown ++ List.replicate (9 - shown.length) 48).foldl
        (fun value (b : UInt8) => value * 10 + (b.toNat - 48)) 0
      if negative && 0 < nanos then { secs := -(whole : Int) - 1, nanos := 1000000000 - nanos }
      else { secs := if negative then -(whole : Int) else whole, nanos }
  else none

def ascii (text : String) : List UInt8 := text.toList.map fun c => UInt8.ofNat c.toNat

/-- What one PAX record sets; none when its value is malformed. -/
def PaxOverrides.set (overrides : PaxOverrides) (key value : List UInt8) : Option PaxOverrides :=
  if key = ascii "path" then some { overrides with path := some value }
  else if key = ascii "linkpath" then some { overrides with linkPath := some value }
  else if key = ascii "size" then
    (parseU64 value).map fun size => { overrides with size := some size }
  else if key = ascii "mtime" then some { overrides with modified := parsePaxTime value }
  else if (ascii "GNU.sparse.").isPrefixOf key then some { overrides with sparse := true }
  else some overrides

/-- The first record of a PAX header, `LEN KEY=VALUE` and a line feed, as its key, its
value and what follows it. -/
def splitRecord (record : List UInt8) : Option (List UInt8 × List UInt8 × List UInt8) :=
  match record.findIdx? (· == 32) with
  | none => none
  | some space =>
    match parseDigits (2 ^ 64) (record.take space) with
    | none => none
    | some len =>
      if len ≤ space + 1 ∨ record.length < len ∨ record[len - 1]? ≠ some 10 then none
      else
        let body := (record.take (len - 1)).drop (space + 1)
        (body.findIdx? (· == 61)).map fun equals =>
          (body.take equals, body.drop (equals + 1), record.drop len)

theorem splitRecord_length {record key value rest : List UInt8}
    (h : splitRecord record = some (key, value, rest)) : rest.length < record.length := by
  unfold splitRecord at h
  split at h
  · cases h
  split at h
  · cases h
  rename_i len _
  split at h
  · cases h
  rename_i hlen
  push Not at hlen
  obtain ⟨equals, -, heq⟩ := Option.map_eq_some_iff.mp h
  cases heq
  rw [length_drop]
  omega

def malformed : TarError := .corrupt "a PAX record is malformed"

def parsePaxFrom (overrides : PaxOverrides) (record : List UInt8) : Except TarError PaxOverrides :=
  if record = [] then .ok overrides
  else
    match _hsplit : splitRecord record with
    | none => .error malformed
    | some (key, value, rest) =>
      match overrides.set key value with
      | none => .error malformed
      | some overrides => parsePaxFrom overrides rest
termination_by record.length
decreasing_by exact splitRecord_length _hsplit

def parsePax (record : List UInt8) : Except TarError PaxOverrides := parsePaxFrom {} record

def trimNuls (bytes : List UInt8) : List UInt8 := (bytes.reverse.dropWhile (· == 0)).reverse

def setOnce {α : Type} (slot : Option α) (value : α) : Except TarError (Option α) :=
  match slot with
  | some _ => .error (.corrupt "a member has two records of the same kind")
  | none => .ok (some value)

inductive RecordKind where
  | longName
  | longLink
  | pax
  | globalPax
  deriving DecidableEq

def EntryType.record : EntryType → Option RecordKind
  | .gnuLongName => some .longName
  | .gnuLongLink => some .longLink
  | .xHeader => some .pax
  | .xGlobalHeader => some .globalPax
  | _ => none

def RecordKind.max : RecordKind → UInt64
  | .longName | .longLink => 64 * 1024
  | .pax | .globalPax => 1024 * 1024

def Pending.hold (pending : Pending) (record : List UInt8) : RecordKind → Except TarError Pending
  | .longName =>
    (setOnce pending.longName (trimNuls record)).map fun longName => { pending with longName }
  | .longLink =>
    (setOnce pending.longLink (trimNuls record)).map fun longLink => { pending with longLink }
  | .pax =>
    match parsePax record with
    | .error e => .error e
    | .ok overrides => (setOnce pending.pax overrides).map fun pax => { pending with pax }
  -- defaults for every following member are ignored
  | .globalPax => .ok pending

inductive MemberKind where
  | file
  | dir
  | symlink (target : String)
  | hardlink (target : String)
  | device
  | fifo
  | sparse
  | unsupported (byte : UInt8)
  deriving DecidableEq

/-- One member's header, with every record before it applied. -/
structure TarMember where
  kind : MemberKind
  path : String
  pathRewritten : Bool
  size : UInt64
  modified : Option MemberTime
  deriving DecidableEq

/-- A stored path as text: UTF-8 when it is, otherwise each byte as the Latin-1 character
of the same value, flagged as rewritten. -/
def decodePath (bytes : List UInt8) : String × Bool :=
  match String.fromUTF8? ⟨bytes.toArray⟩ with
  | some path => (path, false)
  | none => (String.ofList (bytes.map fun b => Char.ofNat b.toNat), true)

def linkTarget (f : HeaderFields) (pax longLink : Option (List UInt8)) (header : Block) : String :=
  (decodePath (((pax.or longLink).or (f.linkNameBytes header)).getD [])).1

/-- The size of a member: its PAX size, else the header's, which on a hard link states data
only in a pax archive. -/
def memberSize (f : HeaderFields) (flavor : Flavor) (header : Block) (storedSize : UInt64)
    (pax : PaxOverrides) : UInt64 :=
  let storedSize := if f.entryType header = .link ∧ flavor ≠ .pax then 0 else storedSize
  pax.size.getD storedSize

def memberKind (f : HeaderFields) (header : Block) (pax : PaxOverrides)
    (longLink : Option (List UInt8)) : MemberKind :=
  match f.entryType header with
  | .regular | .continuous => .file
  | .directory => .dir
  | .symlink => .symlink (linkTarget f pax.linkPath longLink header)
  | .link => .hardlink (linkTarget f pax.linkPath longLink header)
  | .char | .block => .device
  | .fifo => .fifo
  | .gnuSparse => .sparse
  | type => .unsupported type.asByte

def describe (f : HeaderFields) (flavor : Flavor) (header : Block) (storedSize : UInt64)
    (pending : Pending) : TarMember :=
  let pax := pending.pax.getD {}
  let rawPath := (pax.path.or pending.longName).getD (f.pathBytes header)
  let kind := if pax.sparse then .sparse else memberKind f header pax pending.longLink
  -- pre-POSIX tars mark a directory with a trailing slash on a regular member
  let kind := if kind = .file ∧ rawPath.getLast? = some 47 then .dir else kind
  let modified := pax.modified.or ((f.mtime header).bind fun secs =>
    if secs.toNat < 2 ^ 63 then some { secs := secs.toNat, nanos := 0 } else none)
  {
    kind
    path := (decodePath rawPath).1
    pathRewritten := (decodePath rawPath).2
    size := memberSize f flavor header storedSize pax
    modified
  }

/-! ## The reader -/

def padding (size : UInt64) : UInt64 := (512 - size % 512) % 512

def checkedAdd (a b : UInt64) : Option UInt64 :=
  if a.toNat + b.toNat < 2 ^ 64 then some (a + b) else none

def isEndMarker (block : List UInt8) : Bool := block.all (· == 0)

/-- The next header block, or none at the end-of-archive marker or a stream that ends at a
block boundary. -/
def readHeaderBlock (inner : Source UInt8) : Except TarError (Option Block × Source UInt8) :=
  match inner.readFull tarBlock with
  | none => .error .read
  | some (block, inner) =>
    if block = [] then .ok (none, inner)
    else if hlength : block.length = tarBlock then
      if isEndMarker block then .ok (none, inner)
      else if isTarHeader ⟨block, hlength⟩ then .ok (some ⟨block, hlength⟩, inner)
      else .error (.corrupt "a header's checksum does not match")
    else .error (.corrupt "the archive ends inside a header")

/-- Read a record's data, refusing one larger than a bound before reading anything. -/
def readRecord (inner : Source UInt8) (size max : UInt64) :
    Except TarError (List UInt8 × Source UInt8) :=
  if max < size then .error (.corrupt "a long name or extended header is too large")
  else
    match inner.readFull size.toNat with
    | none => .error .read
    | some (record, inner) =>
      if record.length ≠ size.toNat then
        .error (.corrupt "a long name or extended header ends early")
      else
        match inner.skip (padding size).toNat with
        | none => .error .read
        | some (skipped, inner) =>
          if skipped ≠ (padding size).toNat then
            .error (.corrupt "a long name or extended header ends early")
          else .ok (record, inner)

/-- Read past the further blocks of a sparse map, so many at most. -/
def skipExtensions (f : HeaderFields) : Nat → Bool → Source UInt8 → Except TarError (Source UInt8)
  | _, false, inner => .ok inner
  | 0, true, _ => .error (.corrupt "a sparse member's map is too long")
  | left + 1, true, inner =>
    match inner.readFull tarBlock with
    | none => .error .read
    | some (block, inner) =>
      if hlength : block.length = tarBlock then
        skipExtensions f left (f.mapExtended ⟨block, hlength⟩) inner
      else .error (.corrupt "a sparse member's map ends early")

def maxSparseBlocks : Nat := 4096

def skipSparseExtensions (f : HeaderFields) (header : Block) (inner : Source UInt8) :
    Except TarError (Source UInt8) :=
  if f.isGnu header then skipExtensions f maxSparseBlocks (f.isExtended header) inner
  else .error (.corrupt "a sparse member without a GNU header")

/-- What lies between a member's header and its data is the map of a sparse one. -/
def skipMap (f : HeaderFields) (header : Block) (inner : Source UInt8) :
    Except TarError (Source UInt8) :=
  match f.entryType header with
  | .gnuSparse => skipSparseExtensions f header inner
  | _ => .ok inner

structure TarReader where
  inner : Source UInt8
  flavor : Flavor
  /-- Unread bytes of the current member's data, then its padding to the next block. -/
  remaining : UInt64
  padding : UInt64
  members : Nat
  maxMembers : UInt64
  ended : Bool

namespace TarReader

def new (inner : Source UInt8) (maxMembers : UInt64) : TarReader where
  inner := inner
  flavor := .old
  remaining := 0
  padding := 0
  members := 0
  maxMembers := maxMembers
  ended := false

def skipRest (reader : TarReader) : Except TarError TarReader :=
  -- a size near the top must not wrap to a short skip
  match checkedAdd reader.remaining reader.padding with
  | none => .error (.corrupt "a member's size is out of range")
  | some rest =>
    match reader.inner.skip rest.toNat with
    | none => .error .read
    | some (skipped, inner) =>
      if skipped ≠ rest.toNat then .error (.corrupt "a member's data ends early")
      else .ok { reader with inner, remaining := 0, padding := 0 }

def member (f : HeaderFields) (reader : TarReader) (header : Block) (storedSize : UInt64)
    (pending : Pending) : Except TarError (TarMember × TarReader) :=
  let told := describe f reader.flavor header storedSize pending
  (skipMap f header reader.inner).map fun inner =>
    (told, { reader with inner, remaining := told.size, padding := Archive.padding told.size })

/-- Take in a header: count it, and note what it says of the archive. -/
def enter (f : HeaderFields) (reader : TarReader) (header : Block) (inner : Source UInt8) : TarReader :=
  { reader with inner, members := reader.members + 1, flavor := reader.flavor.after f header }

end TarReader

theorem readHeaderBlock_length {inner inner' : Source UInt8} {block : Block}
    (h : readHeaderBlock inner = .ok (some block, inner')) :
    inner'.rest.length + tarBlock = inner.rest.length := by
  unfold readHeaderBlock at h
  split at h
  · cases h
  rename_i read next hread
  obtain ⟨hgot, hrest⟩ := Source.readFull_spec hread
  split at h
  · cases h
  split at h
  · rename_i hlength
    split at h
    · cases h
    split at h
    · cases h
      rw [hgot, length_take] at hlength
      rw [hrest, length_drop]
      omega
    · cases h
  · cases h

theorem readRecord_length {inner inner' : Source UInt8} {size max : UInt64} {record : List UInt8}
    (h : readRecord inner size max = .ok (record, inner')) :
    inner'.rest.length ≤ inner.rest.length := by
  unfold readRecord at h
  split at h
  · cases h
  split at h
  · cases h
  rename_i read next hread
  obtain ⟨-, hrest⟩ := Source.readFull_spec hread
  split at h
  · cases h
  split at h
  · cases h
  rename_i skipped last hskip
  obtain ⟨-, hlast⟩ := Source.skip_spec hskip
  split at h
  · cases h
  cases h
  rw [hlast, hrest, length_drop, length_drop]
  omega

namespace TarReader

/-- Read headers up to a member's own, and the records among them. Every header takes a
block of the stream. -/
def headers (f : HeaderFields) (reader : TarReader) (pending : Pending) :
    Except TarError (Option TarMember × TarReader) :=
  match _hblock : readHeaderBlock reader.inner with
  | .error e => .error e
  | .ok (none, inner) => .ok (none, { reader with inner, ended := true })
  | .ok (some header, inner) =>
    if reader.maxMembers.toNat < reader.members + 1 then .error (.tooManyMembers reader.maxMembers)
    else
      match f.entrySize header with
      | none => .error (.corrupt "a member's size field is invalid")
      | some size =>
        match (f.entryType header).record with
        | none =>
          (member f (reader.enter f header inner) header size pending).map fun
            (told, reader) => (some told, reader)
        | some kind =>
          match _hrecord : readRecord inner size kind.max with
          | .error e => .error e
          | .ok (record, inner) =>
            match pending.hold record kind with
            | .error e => .error e
            | .ok pending => headers f (reader.enter f header inner) pending
termination_by reader.inner.rest.length
decreasing_by
  have hlength := readHeaderBlock_length _hblock
  have hle := readRecord_length _hrecord
  unfold tarBlock at hlength
  dsimp only [enter]
  omega

/-- The next member, skipping whatever of the previous one's data was not read; none once
the archive has ended. -/
def nextMember (f : HeaderFields) (reader : TarReader) :
    Except TarError (Option TarMember × TarReader) :=
  if reader.ended then .ok (none, reader)
  else
    match reader.skipRest with
    | .error e => .error e
    | .ok reader => headers f reader {}

/-- Read the current member's data into a buffer of a length; nothing once all was read. -/
def readBody (reader : TarReader) (length : Nat) : Except TarError (List UInt8 × TarReader) :=
  if reader.remaining = 0 ∨ length = 0 then .ok ([], reader)
  else
    match reader.inner.read (min length reader.remaining.toNat) with
    | none => .error .read
    | some (read, inner) =>
      if read = [] then .error (.corrupt "a member's data ends early")
      else
        .ok (read, { reader with
          inner
          remaining := reader.remaining - UInt64.ofNat read.length })

end TarReader

inductive Call where
  | nextMember
  | readBody (length : Nat)

inductive Event where
  | member (told : TarMember)
  | noMember
  | data (length : Nat) (read : List UInt8)

def TarReader.call (f : HeaderFields) (reader : TarReader) : Call → Except TarError (Event × TarReader)
  | .nextMember =>
    (reader.nextMember f).map fun
      | (some told, reader) => (.member told, reader)
      | (none, reader) => (.noMember, reader)
  | .readBody length => (reader.readBody length).map fun (read, reader) => (.data length read, reader)

/-- Make calls one after another up to the first that fails: what they gave, the reader
before the failing call, and how it failed. -/
def TarReader.run (f : HeaderFields) : TarReader → List Call → List Event × TarReader × Option TarError
  | reader, [] => ([], reader, none)
  | reader, call :: calls =>
    match reader.call f call with
    | .error e => ([], reader, some e)
    | .ok (event, reader) =>
      let (events, reader, failure) := run f reader calls
      (event :: events, reader, failure)

end SyncEngine.Archive
