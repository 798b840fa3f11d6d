import Mathlib.Algebra.GroupWithZero.Nat
import SyncEngine.Paths

/-! # Entry names and their validation

A name is its characters. Validation normalizes it and then applies the unix
and windows rules in a fixed order, reporting the first one it breaks together
with the name as the caller passed it. Unicode normalization itself stays a
parameter.
-/

namespace SyncEngine

abbrev Name := List Char

def utf8Len (name : Name) : Nat := (name.map Char.utf8Size).sum

def maxBytes : Nat := 255

/-- The ASCII codes no name may contain: the control characters, `DEL`, and the
separators and wildcards of either system. -/
def forbiddenCode (code : Nat) : Bool :=
  code < 0x20 || code == 0x7F ||
    ['/', '\\', ':', '*', '?', '"', '<', '>', '|'].any fun c => c.toNat == code

def forbidden (c : Char) : Bool := decide (c.toNat < 128) && forbiddenCode c.toNat

inductive EntryNameErrorKind where
  | empty
  | tooLong (bytes : Nat)
  | forbiddenChar (ch : Char) (pos : Nat)
  | reservedName
  | trailingDotOrSpace
  | leadingSpace
  | dotEntry
deriving DecidableEq, Repr

structure EntryNameError where
  name : Name
  kind : EntryNameErrorKind
deriving DecidableEq, Repr

structure ValidatedName where
  text : Name
deriving DecidableEq, Repr

/-- A device name of windows, in any case. Its bytes are all ASCII, so they are
its characters. -/
def isReservedNameOnWindows (name : Name) : Bool :=
  match name with
  | [c0, c1, c2] =>
    let b := [c0.toUpper, c1.toUpper, c2.toUpper]
    b == ['C', 'O', 'N'] || b == ['P', 'R', 'N'] || b == ['A', 'U', 'X'] || b == ['N', 'U', 'L']
  | [c0, c1, c2, digit] =>
    let b := [c0.toUpper, c1.toUpper, c2.toUpper]
    (b == ['C', 'O', 'M'] || b == ['L', 'P', 'T']) && decide ('1' ≤ digit ∧ digit ≤ '9')
  | _ => false

/-- The first forbidden character of a name, with the byte it starts at. -/
def firstForbidden : Name → Nat → Option (Char × Nat)
  | [], _ => none
  | c :: rest, pos => if forbidden c then some (c, pos) else firstForbidden rest (pos + c.utf8Size)

def checkName (name : Name) : Except EntryNameErrorKind ValidatedName :=
  if name = [] then .error .empty
  else if name = ['.'] ∨ name = ['.', '.'] then .error .dotEntry
  else if maxBytes < utf8Len name then .error (.tooLong (utf8Len name))
  else if name.head? = some ' ' then .error .leadingSpace
  else if name.getLast? = some '.' ∨ name.getLast? = some ' ' then .error .trailingDotOrSpace
  else
    match firstForbidden name 0 with
    | some (ch, pos) => .error (.forbiddenChar ch pos)
    | none => if isReservedNameOnWindows name then .error .reservedName else .ok ⟨name⟩

def parseNameKind (nfc : Name → Name) (name : Name) : Except EntryNameErrorKind ValidatedName :=
  checkName (nfc name)

/-- Validate a name, the error carrying it as passed. -/
def parseName (nfc : Name → Name) (name : Name) : Except EntryNameError ValidatedName :=
  (parseNameKind nfc name).mapError fun kind => ⟨name, kind⟩

/-- Every rule of a name but that it is not empty and not too long. -/
structure WellFormedName (name : Name) : Prop where
  noDotEntry : name ≠ ['.'] ∧ name ≠ ['.', '.']
  noLeadingSpace : name.head? ≠ some ' '
  noTrailing : name.getLast? ≠ some '.' ∧ name.getLast? ≠ some ' '
  noForbidden : ∀ c ∈ name, forbidden c = false
  noReserved : isReservedNameOnWindows name = false

theorem firstForbidden_eq_none {name : Name} {pos : Nat} :
    firstForbidden name pos = none ↔ ∀ c ∈ name, forbidden c = false := by
  induction name generalizing pos with
  | nil => simp [firstForbidden]
  | cons c rest ih =>
    unfold firstForbidden
    by_cases hc : forbidden c
    · simp [hc]
    rw [if_neg hc, ih]
    simp [hc]

theorem WellFormedName.checkName {name : Name} (h : WellFormedName name) :
    checkName name =
      if name = [] then .error .empty
      else if maxBytes < utf8Len name then .error (.tooLong (utf8Len name))
      else .ok ⟨name⟩ := by
  have hdot : ¬ (name = ['.'] ∨ name = ['.', '.']) := by
    simp [h.noDotEntry]
  have htrailing : ¬ (name.getLast? = some '.' ∨ name.getLast? = some ' ') := by
    simp [h.noTrailing]
  unfold SyncEngine.checkName
  rw [if_neg hdot, if_neg h.noLeadingSpace, if_neg htrailing,
    firstForbidden_eq_none.mpr h.noForbidden, h.noReserved]
  rfl

theorem wellFormed_of_checkName {name : Name} {v : ValidatedName} (h : checkName name = .ok v) :
    v.text = name ∧ name ≠ [] ∧ utf8Len name ≤ maxBytes ∧ WellFormedName name := by
  unfold checkName at h
  split at h
  · cases h
  rename_i hempty
  split at h
  · cases h
  rename_i hdot
  split at h
  · cases h
  rename_i hlong
  split at h
  · cases h
  rename_i hleading
  split at h
  · cases h
  rename_i htrailing
  split at h
  · cases h
  rename_i hforbidden
  split at h
  · cases h
  rename_i hreserved
  cases h
  refine ⟨rfl, hempty, Nat.le_of_not_lt hlong, ?_⟩
  exact
    { noDotEntry := not_or.mp hdot
      noLeadingSpace := hleading
      noTrailing := not_or.mp htrailing
      noForbidden := firstForbidden_eq_none.mp hforbidden
      noReserved := by simpa using hreserved }

end SyncEngine
