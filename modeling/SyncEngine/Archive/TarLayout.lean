import SyncEngine.Archive.TarIter
import Mathlib.Logic.Relation

/-! # Where things lie in a tar stream

A tar stream by its offsets: records follow one another, each its header and its data up to
the next block, until a member's header, its sparse map and its data. What a sequence of
calls may tell of the stream is said here, without a reader.
-/

namespace SyncEngine.Archive

def slice (bytes : List UInt8) (offset n : Nat) : List UInt8 := (bytes.drop offset).take n

def roundedUp (size : Nat) : Nat := (size + 511) / 512 * 512

structure HeaderAt (bytes : List UInt8) (offset : Nat) (header : Block) : Prop where
  bytes_eq : slice bytes offset tarBlock = header.bytes
  marker : isEndMarker header.bytes = false
  checksum : isTarHeader header = true

/-- The archive ends where the stream does, or at a block of zeros. -/
def EndsAt (bytes : List UInt8) (offset : Nat) : Prop :=
  slice bytes offset tarBlock = [] ∨
    ((slice bytes offset tarBlock).length = tarBlock ∧ isEndMarker (slice bytes offset tarBlock))

/-- Where a header is to be read, and what the headers before it say. -/
structure Place where
  offset : Nat
  headers : Nat
  flavor : Flavor
  pending : Pending

/-- A record's header and data lie at a place, and the next header is read behind them. -/
inductive Record (f : HeaderFields) (bytes : List UInt8) : Place → Place → Prop where
  | read {place : Place} {header : Block} {size : UInt64} {kind : RecordKind} {pending : Pending}
      (hheader : HeaderAt bytes place.offset header)
      (hsize : f.entrySize header = some size)
      (hkind : (f.entryType header).record = some kind)
      (hmax : size ≤ kind.max)
      (hfits : place.offset + tarBlock + roundedUp size.toNat ≤ bytes.length)
      (hhold : place.pending.hold (slice bytes (place.offset + tarBlock) size.toNat) kind = .ok pending) :
      Record f bytes place
        {
          offset := place.offset + tarBlock + roundedUp size.toNat
          headers := place.headers + 1
          flavor := place.flavor.after f header
          pending
        }

/-- So many blocks of a sparse map lie at an offset, the last one saying it is. -/
inductive Maps (f : HeaderFields) (bytes : List UInt8) : Bool → Nat → Nat → Prop where
  | done (offset : Nat) : Maps f bytes false offset 0
  | next {offset n : Nat} {block : Block} (hblock : slice bytes offset tarBlock = block.bytes)
      (h : Maps f bytes (f.mapExtended block) (offset + tarBlock) n) : Maps f bytes true offset (n + 1)

/-- A member's header lies at a place, with so many blocks of a sparse map behind it. -/
structure MemberAt (f : HeaderFields) (bytes : List UInt8) (place : Place) (header : Block)
    (told : TarMember) (maps : Nat) : Prop where
  found : HeaderAt bytes place.offset header
  type : (f.entryType header).record = none
  /-- The size is the one the member's own PAX record gives, else none for a hard link of an
  archive not known to be pax, else the header's. -/
  paxSize : ∀ size, place.pending.pax.bind (·.size) = some size → told.size = size
  linkSize : place.pending.pax.bind (·.size) = none → f.entryType header = .link →
    place.flavor.after f header ≠ .pax → told.size = 0
  headerSize : place.pending.pax.bind (·.size) = none →
    (f.entryType header = .link → place.flavor.after f header = .pax) →
    f.entrySize header = some told.size
  described : ∃ stored, f.entrySize header = some stored ∧
    told = describe f (place.flavor.after f header) header stored place.pending
  sparse : f.entryType header = .gnuSparse →
    f.isGnu header = true ∧ Maps f bytes (f.isExtended header) (place.offset + tarBlock) maps
  plain : f.entryType header ≠ .gnuSparse → maps = 0
  fits : place.offset + tarBlock + tarBlock * maps ≤ bytes.length

/-! ## What calls may tell -/

/-- Where a member's data lies, and how much of it was handed out. -/
structure Standing where
  body : Nat
  size : Nat
  handed : Nat
  headers : Nat
  flavor : Flavor
  ended : Bool

namespace Standing

def start : Standing where
  body := 0
  size := 0
  handed := 0
  headers := 0
  flavor := .old
  ended := false

/-- The next header is read behind the data, whatever of it was handed out. -/
def place (standing : Standing) : Place where
  offset := standing.body + roundedUp standing.size
  headers := standing.headers
  flavor := standing.flavor
  pending := {}

end Standing

/-- Behind a member's header and its sparse map, its data starts. -/
def Place.enter (place : Place) (f : HeaderFields) (header : Block) (told : TarMember) (maps : Nat) :
    Standing where
  body := place.offset + tarBlock + tarBlock * maps
  size := told.size.toNat
  handed := 0
  headers := place.headers + 1
  flavor := place.flavor.after f header
  ended := false

/-- The block that ends an archive is read, and nothing behind it. -/
def Place.stop (place : Place) (bytes : List UInt8) : Standing where
  body := place.offset + (slice bytes place.offset tarBlock).length
  size := 0
  handed := 0
  headers := place.headers
  flavor := place.flavor
  ended := true

open Relation

/-- What the calls so far told, and where they left off. -/
inductive Told (f : HeaderFields) (bytes : List UInt8) : List Event → Standing → Prop where
  | start : Told f bytes [] Standing.start
  | member {events : List Event} {standing : Standing} {place : Place} {header : Block}
      {told : TarMember} {maps : Nat} (h : Told f bytes events standing)
      (hopen : standing.ended = false)
      (hrecords : ReflTransGen (Record f bytes) standing.place place)
      (hmember : MemberAt f bytes place header told maps) :
      Told f bytes (events ++ [.member told]) (place.enter f header told maps)
  | stop {events : List Event} {standing : Standing} {place : Place} (h : Told f bytes events standing)
      (hopen : standing.ended = false)
      (hrecords : ReflTransGen (Record f bytes) standing.place place)
      (hends : EndsAt bytes place.offset) :
      Told f bytes (events ++ [.noMember]) (place.stop bytes)
  | stopped {events : List Event} {standing : Standing} (h : Told f bytes events standing)
      (hended : standing.ended = true) : Told f bytes (events ++ [.noMember]) standing
  /-- Data comes in order, and none only into an empty buffer or when all was handed out. -/
  | data {events : List Event} {standing : Standing} {length : Nat} {read : List UInt8}
      (h : Told f bytes events standing)
      (hread : read = slice bytes (standing.body + standing.handed) read.length)
      (hle : read.length ≤ length)
      (hsize : standing.handed + read.length ≤ standing.size)
      (hnone : read = [] → length = 0 ∨ standing.handed = standing.size) :
      Told f bytes (events ++ [.data length read])
        { standing with handed := standing.handed + read.length }

def handedOut (events : List Event) : List UInt8 :=
  events.foldl (fun data event =>
    match event with
    | .data _ read => data ++ read
    | _ => []) []

inductive Refuses (f : HeaderFields) (bytes : List UInt8) (max : UInt64) (place : Place) :
    TarError → Prop where
  | insideHeader (hsome : slice bytes place.offset tarBlock ≠ [])
      (hshort : (slice bytes place.offset tarBlock).length < tarBlock) :
      Refuses f bytes max place (.corrupt "the archive ends inside a header")
  | checksum {block : Block} (hblock : slice bytes place.offset tarBlock = block.bytes)
      (hsum : isTarHeader block = false) :
      Refuses f bytes max place (.corrupt "a header's checksum does not match")
  | tooMany {header : Block} (hheader : HeaderAt bytes place.offset header)
      (hfull : place.headers = max.toNat) :
      Refuses f bytes max place (.tooManyMembers max)
  | size {header : Block} (hheader : HeaderAt bytes place.offset header)
      (hsize : f.entrySize header = none) :
      Refuses f bytes max place (.corrupt "a member's size field is invalid")
  | large {header : Block} {size : UInt64} {kind : RecordKind}
      (hheader : HeaderAt bytes place.offset header) (hsize : f.entrySize header = some size)
      (hkind : (f.entryType header).record = some kind) (hmax : kind.max < size) :
      Refuses f bytes max place (.corrupt "a long name or extended header is too large")
  | short {header : Block} {size : UInt64} {kind : RecordKind}
      (hheader : HeaderAt bytes place.offset header) (hsize : f.entrySize header = some size)
      (hkind : (f.entryType header).record = some kind)
      (hshort : bytes.length < place.offset + tarBlock + roundedUp size.toNat) :
      Refuses f bytes max place (.corrupt "a long name or extended header ends early")
  | hold {header : Block} {size : UInt64} {kind : RecordKind} {e : TarError}
      (hheader : HeaderAt bytes place.offset header) (hsize : f.entrySize header = some size)
      (hkind : (f.entryType header).record = some kind)
      (hhold : place.pending.hold (slice bytes (place.offset + tarBlock) size.toNat) kind = .error e) :
      Refuses f bytes max place e
  | notGnu {header : Block} (hheader : HeaderAt bytes place.offset header)
      (htype : f.entryType header = .gnuSparse) (hgnu : f.isGnu header = false) :
      Refuses f bytes max place (.corrupt "a sparse member without a GNU header")
  | map {header : Block} {reason : String} (hheader : HeaderAt bytes place.offset header)
      (htype : f.entryType header = .gnuSparse)
      (hnone : ∀ n ≤ maxSparseBlocks,
        ¬ Maps f bytes (f.isExtended header) (place.offset + tarBlock) n) :
      Refuses f bytes max place (.corrupt reason)

/-- What makes a call fail where the calls before it left off. -/
inductive Fails (f : HeaderFields) (bytes : List UInt8) (max : UInt64) (standing : Standing) :
    TarError → Prop where
  | read : Fails f bytes max standing .read
  | outOfRange (h : 2 ^ 64 ≤ roundedUp standing.size - standing.handed) :
      Fails f bytes max standing (.corrupt "a member's size is out of range")
  | endsEarly (h : bytes.length < standing.body + roundedUp standing.size) :
      Fails f bytes max standing (.corrupt "a member's data ends early")
  | header {place : Place} {e : TarError} (hopen : standing.ended = false)
      (hrecords : ReflTransGen (Record f bytes) standing.place place)
      (hrefuses : Refuses f bytes max place e) : Fails f bytes max standing e

end SyncEngine.Archive
