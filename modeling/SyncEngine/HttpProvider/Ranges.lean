import Mathlib.Algebra.Group.Nat.Defs
import Mathlib.Data.Char
import Mathlib.Data.List.Basic

/-! # Ranges of a file over HTTP

The local HTTP provider resolves a Range header against the size of a file and answers
with one range, with several as a multipart body, or with none.
-/

namespace SyncEngine.HttpProvider

abbrev Text := List Char

/-- An end of a range, as the header crate hands it over. -/
inductive Bound where
  | included (n : Nat)
  | excluded (n : Nat)
  | unbounded
  deriving DecidableEq, Repr

def U64_MAX : Nat := 2 ^ 64 - 1

/-- The bytes a range stands for, from its start up to its end, unless the start overflows. -/
def getRealBounds (size : Nat) (range : Bound × Bound) : Option (Nat × Nat) := do
  let start ← match range.1 with
    | .included start => some start
    | .excluded start => if start < U64_MAX then some (start + 1) else none
    | .unbounded => some 0
  let last := match range.2 with
    | .included last => min (last + 1) U64_MAX
    | .excluded last => last
    | .unbounded => U64_MAX
  return (start, min last size)

def trim (text : Text) : Text := ((text.dropWhile Char.isWhitespace).reverse.dropWhile Char.isWhitespace).reverse

def stripPrefix (lead text : Text) : Option Text :=
  if lead <+: text then some (text.drop lead.length) else none

def valueOf (digits : Text) : Nat := digits.foldl (fun value digit => value * 10 + (digit.toNat - 48)) 0

/-- A number of 64 bits, with or without a sign. -/
def parseU64 (text : Text) : Option Nat :=
  let digits := (stripPrefix ['+'] text).getD text
  if digits ≠ [] ∧ digits.all Char.isDigit ∧ valueOf digits ≤ U64_MAX then some (valueOf digits) else none

def isOversized (size : Nat) (spec : Text) : Bool :=
  match (stripPrefix ['-'] (trim spec)).bind parseU64 with
  | some n => size < n
  | none => false

def hasOversizedSuffix (rawRange : Text) (size : Nat) : Bool :=
  match stripPrefix "bytes=".toList rawRange with
  | some set => (set.splitOn ',').any (isOversized size)
  | none => false

/-- Resolves ranges into the bytes they stand for. The whole file is recovered from the raw
header where nothing else is left. -/
def resolveRanges (satisfiable : List (Bound × Bound)) (rawRange : Option Text) (size : Nat) :
    Option (List (Nat × Nat)) := do
  let bounds ← satisfiable.mapM (getRealBounds size)
  let ranges := bounds.filter fun range => range.1 < range.2
  return if ranges.isEmpty && rawRange.any (hasOversizedSuffix · size) then ranges ++ [(0, size)] else ranges

/-! ## Responses -/

inductive Status where
  | OK
  | PARTIAL_CONTENT
  | NOT_FOUND
  | RANGE_NOT_SATISFIABLE
  | INTERNAL_SERVER_ERROR
  deriving DecidableEq, Repr

inductive Header where
  | ACCEPT_RANGES
  | CONTENT_LENGTH
  | CONTENT_TYPE
  | CONTENT_RANGE
  deriving DecidableEq, Repr

/-- A response, its body in the pieces it is streamed in. -/
structure Response where
  status : Status
  headers : List (Header × Text)
  body : List (List UInt8)

def Response.header (response : Response) (name : Header) : Option Text :=
  (response.headers.find? fun header => header.1 = name).map Prod.snd

structure RemoteFile where
  size : Nat
  size_le : size ≤ U64_MAX
  mime : Option Text

def utf8 (text : Text) : List UInt8 := text.flatMap String.utf8EncodeChar

def digits (n : Nat) : Text := Nat.toDigits 10 n

def APPLICATION_OCTET_STREAM : Text := "application/octet-stream".toList

section Serving

variable (accepts : Text → Bool) (reader : Nat → Nat → List (List UInt8))

/-- A response with every header added, unless some value is refused. -/
def build (status : Status) (headers : List (Header × Text)) (body : List (List UInt8)) : Option Response :=
  if headers.all fun header => accepts header.2 then some ⟨status, headers, body⟩ else none

/-- The first and the last byte of a range, and the size. -/
def contentRange (start lastIncl size : Nat) : Text :=
  digits start ++ ['-'] ++ digits lastIncl ++ ['/'] ++ digits size

def acceptRanges : Header × Text := (.ACCEPT_RANGES, "bytes".toList)

/-- One range. The answer is an overflow, an invalid header or the response. -/
def singleRangeResponse (file : RemoteFile) (range : Nat × Nat) : Option (Option Response) :=
  let (start, last) := range
  let status := if start = 0 ∧ last = file.size then Status.OK else .PARTIAL_CONTENT
  let headers := [acceptRanges, (.CONTENT_LENGTH, digits (last - start)),
    (.CONTENT_TYPE, file.mime.getD APPLICATION_OCTET_STREAM)]
  if status = .PARTIAL_CONTENT then
    if last = 0 then none
    else some (build accepts status
      (headers ++ [(.CONTENT_RANGE, "bytes ".toList ++ contentRange start (last - 1) file.size)]) (reader start last))
  else some (build accepts status headers (reader start last))

def partHeader (boundary : Text) (file : RemoteFile) (first : Bool) (range : Nat × Nat) : Text :=
  (if first then [] else "\r\n".toList) ++ "--".toList ++ boundary ++ "\r\nContent-Type: ".toList ++
    file.mime.getD APPLICATION_OCTET_STREAM ++ "\r\nContent-Range: bytes ".toList ++
    contentRange range.1 (range.2 - 1) file.size ++ "\r\n\r\n".toList

/-- The parts in turn, then the closing delimiter. -/
def parts (boundary : Text) (file : RemoteFile) : (first : Bool) → List (Nat × Nat) → List (List UInt8)
  | _, [] => [utf8 ("\r\n--".toList ++ boundary ++ "--\r\n".toList)]
  | first, range :: ranges =>
    utf8 (partHeader boundary file first range) :: (reader range.1 range.2 ++ parts boundary file false ranges)

def multipleRangeResponse (boundary : Text) (file : RemoteFile) (ranges : List (Nat × Nat)) : Option Response :=
  build accepts .PARTIAL_CONTENT
    [acceptRanges, (.CONTENT_TYPE, "multipart/byteranges; boundary=".toList ++ boundary)]
    (parts reader boundary file true ranges)

/-- A header value as text, where it is visible. -/
def toStr (value : Text) : Option Text :=
  if value.all fun c => (' ' ≤ c && c ≤ '~') || c = '\t' then some value else none

/-- Serve a file's ranges, unless a sum or a difference overflows. A header that is refused is
answered with what is said of it. -/
def fileHandler (satisfiableRanges : Text → Nat → List (Bound × Bound)) (refusal boundary : Text)
    (file : Option RemoteFile) (range : Option Text) : Option Response :=
  match file with
  | none => some ⟨.NOT_FOUND, [], []⟩
  | some file => do
    let ranges ← match range with
      | some value => resolveRanges (satisfiableRanges value file.size) (toStr value) file.size
      | none => some [(0, file.size)]
    let built ← match ranges with
      | [range] => singleRangeResponse accepts reader file range
      | [] => some (build accepts .RANGE_NOT_SATISFIABLE
          [acceptRanges, (.CONTENT_RANGE, "bytes */".toList ++ digits file.size)] [])
      | ranges => some (multipleRangeResponse accepts reader boundary file ranges)
    return built.getD ⟨.INTERNAL_SERVER_ERROR, [], [utf8 ("Error building response: ".toList ++ refusal)]⟩

end Serving

end SyncEngine.HttpProvider
