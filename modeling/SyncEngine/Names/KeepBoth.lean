import Mathlib.Data.Nat.Digits.Defs
import SyncEngine.Names.Encoding

/-! # Numbered names

A name taken where an item is written is numbered: a counter goes behind its stem,
before its extension, and the parts are trimmed to leave room for it. What a candidate
is built from settles which candidates of other names it collides with.
-/

namespace SyncEngine

def counterSuffix (n : Nat) : Name := ' ' :: '(' :: (Nat.toDigits 10 n ++ [')'])

/-- What keep-both naming uses of Unicode: canonical composition, which keeps every part
of a composed name and is done on both sides of an ASCII character apart, and
lowercasing, which a counter keeps apart on its two sides. -/
structure Unicode where
  nfc : Name → Name
  lower : Name → Name
  nfc_idempotent : ∀ name, nfc (nfc name) = nfc name
  nfc_part : ∀ a b c, nfc (a ++ b ++ c) = a ++ b ++ c → nfc b = b
  nfc_char : ∀ c : Char, c.toNat < 128 → nfc [c] = [c]
  nfc_join : ∀ a c b, c.toNat < 128 → nfc a = a → nfc (c :: b) = c :: b →
    nfc (a ++ c :: b) = a ++ c :: b
  lower_counter : ∀ base n ext,
    lower (base ++ counterSuffix n ++ ext) = lower base ++ counterSuffix n ++ lower ext

/-- The longest beginning of a text that takes no more than so many bytes. -/
def truncate : Nat → Name → Name
  | _, [] => []
  | budget, c :: rest =>
    if c.utf8Size ≤ budget then c :: truncate (budget - c.utf8Size) rest else []

/-- A text split at a byte, if a character starts there. -/
def splitAtByte (at' : Nat) (name : Name) : Option (Name × Name) :=
  let front := truncate at' name
  if utf8Len front = at' then some (front, name.drop front.length) else none

/-- What stands before the last dot, and the dot with what follows it. -/
def splitLastDot : Name → Option (Name × Name)
  | [] => none
  | c :: rest =>
    match splitLastDot rest with
    | some (front, ext) => some (c :: front, ext)
    | none => if c = '.' then some ([], c :: rest) else none

/-- What stands before and after the last space followed by an opening bracket. -/
def splitLastBracket : Name → Option (Name × Name)
  | [] => none
  | c :: rest =>
    match splitLastBracket rest with
    | some (front, back) => some (c :: front, back)
    | none =>
      match c, rest with
      | ' ', '(' :: back => some ([], back)
      | _, _ => none

/-- Which part of a name keep-both numbers, and which it keeps apart. -/
inductive NameShape where
  | dir
  | file
  | fileWithExtension (len : Nat)
deriving DecidableEq, Repr

/-- The stem and the extension of a file name, its dot included; a leading dot is the
stem's. -/
def splitDot (name : Name) : Name × Name :=
  match splitLastDot name with
  | some (stem, ext) => if stem = [] then (name, []) else (stem, ext)
  | none => (name, [])

def splitExtension (name : Name) : NameShape → Name × Name
  | .dir => (name, [])
  | .fileWithExtension len =>
    if len < utf8Len name then
      match splitAtByte (utf8Len name - len) name with
      | some parts => parts
      | none => splitDot name
    else splitDot name
  | .file => splitDot name

def maxCounter : Nat := 2 ^ 64 - 1

def nextCounter (n : Nat) : Option Nat := if n < maxCounter then some (n + 1) else none

def parseCounter (digits : Name) : Option Nat :=
  let n := Nat.ofDigitChars 10 digits 0
  if n ≤ maxCounter then some n else none

def stripCounter (stem : Name) : Option (Name × Nat) :=
  if stem.getLast? = some ')' then
    match splitLastBracket stem.dropLast with
    | none => none
    | some (base, digits) =>
      if digits = [] ∨ digits.any (fun c => !c.isDigit) = true then none
      else if base = [] then none
      else (parseCounter digits).map fun n => (base, n)
  else none

/-- Where the walk over counters starts: behind the counter a stem has, or at one. -/
def startOf (stem : Name) : Name × Nat :=
  ((stripCounter stem).bind fun part => (nextCounter part.2).map fun n => (part.1, n)).getD (stem, 1)

/-- The lowercase parts a candidate is built from, trimmed, and the bytes of its
counter. -/
abbrev CounterKey := Name × Name × Nat

/-- Whether a counter and an extension leave room for a character of the base, and how
many bytes. -/
def roomFor (base suffix ext : Name) : Option Nat :=
  if utf8Len suffix + utf8Len ext ≤ maxBytes then
    let budget := maxBytes - (utf8Len suffix + utf8Len ext)
    if truncate budget base = [] then none else some budget
  else none

/-- Trim the base until the candidate passes validation, as it is or encoded. Each round
leaves fewer bytes, so the first budget bounds the rounds. -/
def trimToFit (u : Unicode) (base suffix ext : Name) :
    Nat → Nat → Except EntryNameError (ValidatedName × Option CounterKey)
  | 0, budget => .error ⟨truncate budget base ++ suffix ++ ext, .empty⟩
  | fuel + 1, budget =>
    let trimmed := truncate budget base
    let candidate := trimmed ++ suffix ++ ext
    let shorter := fun tooLong : EntryNameError =>
      -- composing or encoding lengthened it
      let budget := utf8Len trimmed - 1
      if truncate budget base = [] then .error tooLong
      else trimToFit u base suffix ext fuel budget
    match parseName u.nfc candidate with
    | .ok name => .ok (name, some (u.lower trimmed, u.lower ext, utf8Len suffix))
    | .error ⟨name, .tooLong bytes⟩ => shorter ⟨name, .tooLong bytes⟩
    | .error _ =>
      match encodeName u.nfc candidate with
      | .ok name => .ok (name, none)
      | .error ⟨name, .tooLong bytes⟩ => shorter ⟨name, .tooLong bytes⟩
      | .error error => .error error

/-- The base numbered, before its extension, and the key its counters are kept under.
An extension that leaves no room for the base is trimmed with it. -/
def numberedCandidate (u : Unicode) (base : Name) (n : Nat) (ext : Name) :
    Except EntryNameError (ValidatedName × Option CounterKey) :=
  let suffix := counterSuffix n
  match roomFor base suffix ext with
  | some budget => trimToFit u base suffix ext (budget + 1) budget
  | none =>
    let budget := maxBytes - utf8Len suffix
    trimToFit u (base ++ ext) suffix [] (budget + 1) budget

end SyncEngine
