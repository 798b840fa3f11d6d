import SyncEngine.Folding
import SyncEngine.Model
import SyncEngine.Names.Validation

/-! # Remote names and reserved paths

A remote name is untrusted: the view places an item only under a name that is one safe
path component and that the device's file system holds under that spelling. Paths of the
engine's own and of the account are never placed at all.
-/

namespace SyncEngine.Remote

open Collections

inductive PairRoot where
  | drive
  | directory
deriving DecidableEq, Repr

/-- What a view is built for: the device's Unicode tables and its system, and the pair. -/
structure Scope where
  nfc : Name → Name
  fold : CaseFold
  windows : Bool
  root : Uuid
  pairRoot : PairRoot

/-! ## Names a device holds -/

def maxNameBytes : Nat := 255

def windowsMaxUnits : Nat := 255

def windowsForbidden : List Char := ['<', '>', ':', '"', '/', '\\', '|', '?', '*']

inductive DeviceRejection where
  | tooLong (len max : Nat)
  | forbiddenChar (ch : Char)
  | trailingDotOrSpace
  | reservedName
deriving DecidableEq, Repr

/-- A character between quotes, the ones that do not print escaped. -/
def debugChar (ch : Char) : String :=
  let escaped :=
    if ch = Char.ofNat 0 then "\\0"
    else if ch = '\t' then "\\t"
    else if ch = '\r' then "\\r"
    else if ch = '\n' then "\\n"
    else if ch = '\\' then "\\\\"
    else if ch < ' ' then "\\u\x7b" ++ String.ofList (Nat.toDigits 16 ch.toNat) ++ "\x7d"
    else String.ofList [ch]
  "'" ++ escaped ++ "'"

def DeviceRejection.text : DeviceRejection → String
  | tooLong len max =>
    "the name is " ++ toString len ++ " long, more than the " ++ toString max ++
      " this device's file system holds"
  | forbiddenChar ch => "Windows does not allow the character " ++ debugChar ch ++ " in a name"
  | trailingDotOrSpace =>
    "Windows drops a trailing dot or space, so the item would be stored under another name"
  | reservedName => "Windows reserves the name for a device"

def posixRejection (name : Name) : Option DeviceRejection :=
  if maxNameBytes < utf8Len name then some (.tooLong (utf8Len name) maxNameBytes) else none

def eqIgnoreAsciiCase (a b : Name) : Bool := a.map Char.toLower == b.map Char.toLower

def windowsDevices : List String := ["CON", "PRN", "AUX", "NUL", "CONIN$", "CONOUT$"]

def windowsPortDigits : List Char :=
  ['0', '1', '2', '3', '4', '5', '6', '7', '8', '9', '\u00B9', '\u00B2', '\u00B3']

/-- Whether windows opens a device for a name: its part before the first dot, trailing
spaces dropped, is a device name in any case. -/
def isWindowsDevice (name : Name) : Bool :=
  let stem := (((name.takeWhile (· ≠ '.')).reverse.dropWhile (· = ' ')).reverse)
  if utf8Len stem < 3 ∨ 7 < utf8Len stem then false
  else if windowsDevices.any fun device => eqIgnoreAsciiCase stem device.toList then true
  else
    -- a port's letters are ASCII, so its first three characters are its first three bytes
    let port := stem.take 3
    (eqIgnoreAsciiCase port "COM".toList || eqIgnoreAsciiCase port "LPT".toList) &&
      windowsPortDigits.any fun digit => stem.drop 3 == [digit]

def utf16Len (name : Name) : Nat := (name.map fun c => if c.toNat < 0x10000 then 1 else 2).sum

def windowsRejection (name : Name) : Option DeviceRejection :=
  let units := utf16Len name
  if windowsMaxUnits < utf8Len name ∧ windowsMaxUnits < units then
    some (.tooLong units windowsMaxUnits)
  else
    match name.find? fun ch => ch < ' ' || windowsForbidden.contains ch with
    | some ch => some (.forbiddenChar ch)
    | none =>
      if name.getLast? = some '.' ∨ name.getLast? = some ' ' then some .trailingDotOrSpace
      else if isWindowsDevice name then some .reservedName
      else none

namespace Scope

def deviceRejection (scope : Scope) (name : Name) : Option DeviceRejection :=
  if scope.windows then windowsRejection name else posixRejection name

end Scope

inductive UnsyncableReason where
  | remoteInvalidName (name : Name)
  | remoteNameNotStorable (name : Name) (detail : String)
  | remoteBrokenParent
  | remoteUndecodable
deriving DecidableEq, Repr

def isSafeName (name : Name) : Bool :=
  name != [] && name != ['.'] && name != ['.', '.'] && !name.contains '/' && !name.contains '\\' &&
    !name.contains (Char.ofNat 0)

namespace Scope

variable (scope : Scope)

def isPlaceableName (name : Name) : Bool :=
  isSafeName name && (scope.deviceRejection name).isNone

/-- Why the view does not place an item of a name. -/
def unplaceableName (name : Name) : Option UnsyncableReason :=
  if isSafeName name then
    (scope.deviceRejection name).map fun rejection => .remoteNameNotStorable name rejection.text
  else some (.remoteInvalidName name)

variable {scope}

theorem unplaceableName_eq_none {name : Name} :
    scope.unplaceableName name = none ↔ scope.isPlaceableName name := by
  unfold unplaceableName isPlaceableName
  cases isSafeName name <;> cases scope.deviceRejection name <;> simp

theorem ne_nil_of_isPlaceableName {name : Name} (h : scope.isPlaceableName name) : name ≠ [] := by
  rintro rfl
  cases h

theorem no_slash_of_isPlaceableName {name : Name} (h : scope.isPlaceableName name) :
    '/' ∉ name := by
  intro hmem
  unfold isPlaceableName isSafeName at h
  have hcontains : name.contains '/' := List.contains_iff_mem.mpr hmem
  rw [hcontains] at h
  simp at h

end Scope

def quarantineDir : Path := ".filen-sync-trash".toList

def legacyTrashDir : Name := ".filen.trash.local".toList

def accountDataDir : Path := ".filen".toList

def isLegacyTrash (name : Name) : Bool := name == legacyTrashDir

namespace Scope

variable (scope : Scope)

def isAccountData (relPath : Path) : Bool :=
  scope.pairRoot == .drive && scope.fold.atOrUnderFolded relPath accountDataDir

def isReservedPath (relPath : Path) : Bool :=
  relPath == quarantineDir || (quarantineDir ++ ['/']).isPrefixOf relPath ||
    (relPath.splitOn '/').any isLegacyTrash || scope.isAccountData relPath

end Scope

end SyncEngine.Remote
