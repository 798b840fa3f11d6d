import SyncEngine.Names.Validation

/-! # Reversible name encoding

Every name has an encoding that validation accepts. Characters validation
refuses are replaced by lookalikes, at the ends of a name or anywhere in it, and
a literal lookalike is quoted. Device names and the dot entries are whole-name
cases. The decoder undoes the replacements character by character, and it is the
inverse of that half of the encoder on every name; the whole-name cases are then
kept apart by what the decoder would make of their encodings.
-/

namespace SyncEngine

open List

def fullwidthOffset : Nat := 0xFEE0

def symbolForNull : Char := '\u2400'
def symbolForSpace : Char := '\u2420'
def symbolForDelete : Char := '\u2421'
def fullwidthFullStop : Char := '\uff0e'

def quoteRune : Char := '\u201b'

def encodeForbidden (c : Char) : Option Char :=
  if forbidden c then
    some (if c.toNat ≤ 0x1F then Char.ofNat (symbolForNull.toNat + c.toNat)
      else if c.toNat = 0x7F then symbolForDelete
      else Char.ofNat (c.toNat + fullwidthOffset))
  else none

def decodeForbidden (c : Char) : Option Char :=
  let code := c.toNat
  if symbolForNull.toNat ≤ code ∧ code - symbolForNull.toNat ≤ 0x1F then
    some (Char.ofNat (code - symbolForNull.toNat))
  else if c = symbolForDelete then some (Char.ofNat 0x7F)
  else
    -- Without the range, characters that sit the offset above a control character would decode.
    let ascii := code - fullwidthOffset
    if fullwidthOffset ≤ code ∧ 0x20 ≤ ascii ∧ ascii < 0x7F ∧ forbiddenCode ascii = true then
      some (Char.ofNat ascii)
    else none

def fullwidthToAsciiLetter (c : Char) : Option Char :=
  if fullwidthOffset ≤ c.toNat ∧ c.toNat - fullwidthOffset ≤ 0xFF then
    let ascii := Char.ofNat (c.toNat - fullwidthOffset)
    if ascii.isAlpha then some ascii else none
  else none

def withFirstChar (name : Name) (first : Char) : Name := first :: name.drop 1

def decodesToReserved (name : Name) : Option Name :=
  match name with
  | [] => none
  | c :: _ =>
    match fullwidthToAsciiLetter c with
    | none => none
    | some ascii =>
      let candidate := withFirstChar name ascii
      if isReservedNameOnWindows candidate then some candidate else none

/-- One character of a name that is no whole-name case. -/
def encodeChar (first last : Bool) (c : Char) : List Char :=
  if c = quoteRune then [quoteRune, quoteRune]
  else
    match encodeForbidden c with
    | some encoded => [encoded]
    | none =>
      if (first || last) = true ∧ c = ' ' then [symbolForSpace]
      else if last = true ∧ c = '.' then [fullwidthFullStop]
      else if ((first || last) = true ∧ c = symbolForSpace) ∨
          (last = true ∧ c = fullwidthFullStop) ∨ (decodeForbidden c).isSome = true then
        [quoteRune, c]
      else [c]

def encodeChars (first : Bool) : Name → Name
  | [] => []
  | c :: rest => encodeChar first rest.isEmpty c ++ encodeChars false rest

def encodeNameRaw (name : Name) : Name :=
  if name = ['.'] then [fullwidthFullStop]
  else if name = ['.', '.'] then [fullwidthFullStop, fullwidthFullStop]
  else if name = [fullwidthFullStop] then [quoteRune, fullwidthFullStop]
  else if name = [fullwidthFullStop, fullwidthFullStop] then
    [quoteRune, fullwidthFullStop, quoteRune, fullwidthFullStop]
  else if name = [fullwidthFullStop, '.'] then
    -- its trailing dot would make it the encoding of ".."
    [quoteRune, fullwidthFullStop, fullwidthFullStop]
  else if isReservedNameOnWindows name then
    match name with
    | [] => []
    | first :: _ => withFirstChar name (Char.ofNat (first.toNat + fullwidthOffset))
  else if (decodesToReserved name).isSome then quoteRune :: name
  else encodeChars true name

/-- Encode a normalized name so that validation accepts it; the error carries
the name as passed. -/
def encodeName (nfc : Name → Name) (name : Name) : Except EntryNameError ValidatedName :=
  (parseName nfc (encodeNameRaw (nfc name))).mapError fun err => ⟨name, err.kind⟩

/-- The decoder's walk, behind a quote or not. -/
def decodeChars (first quoted : Bool) : Name → Name
  | [] => []
  | c :: rest =>
    if quoted = true then c :: decodeChars false false rest
    else if c = quoteRune then decodeChars false true rest
    else
      match decodeForbidden c with
      | some decoded => decoded :: decodeChars false false rest
      | none =>
        if (first || rest.isEmpty) = true ∧ c = symbolForSpace then
          ' ' :: decodeChars false false rest
        else if rest.isEmpty = true ∧ c = fullwidthFullStop then
          '.' :: decodeChars false false rest
        else c :: decodeChars false false rest

def decodeName (name : Name) : Name :=
  if name = [fullwidthFullStop] then ['.']
  else if name = [fullwidthFullStop, fullwidthFullStop] then ['.', '.']
  else if name = [quoteRune, fullwidthFullStop] then [fullwidthFullStop]
  else if name = [quoteRune, fullwidthFullStop, quoteRune, fullwidthFullStop] then
    [fullwidthFullStop, fullwidthFullStop]
  else
    match decodesToReserved name with
    | some decoded => decoded
    | none => decodeChars true false name

theorem forall_ascii {P : Char → Prop} (h : ∀ n : Fin 128, P (Char.ofNat n)) {c : Char} (hc : c.toNat < 128) : P c := by
  have hn := h ⟨c.toNat, hc⟩
  rwa [Char.ofNat_toNat] at hn

theorem toNat_lt_of_forbidden {c : Char} (h : forbidden c) : c.toNat < 128 := by
  unfold forbidden at h
  simpa using (Bool.and_eq_true_iff.mp h).1

/-- A replacement decodes to what it replaced, and is none of the characters
the encoder treats apart. -/
structure Replaces (e c : Char) : Prop where
  decodes : decodeForbidden e = some c
  notQuote : e ≠ quoteRune
  allowed : forbidden e = false
  notSpace : e ≠ ' '
  notDot : e ≠ '.'

instance (e c : Char) : Decidable (Replaces e c) :=
  decidable_of_iff (decodeForbidden e = some c ∧ e ≠ quoteRune ∧ forbidden e = false ∧ e ≠ ' ' ∧
    e ≠ '.') ⟨fun ⟨h1, h2, h3, h4, h5⟩ => ⟨h1, h2, h3, h4, h5⟩,
      fun ⟨h1, h2, h3, h4, h5⟩ => ⟨h1, h2, h3, h4, h5⟩⟩

theorem encodeForbidden_replaces {c e : Char} (h : encodeForbidden c = some e) : Replaces e c := by
  have hc : forbidden c := by
    unfold encodeForbidden at h
    split at h
    · assumption
    · cases h
  have hall : ∀ n : Fin 128, ((encodeForbidden (Char.ofNat n)).all fun e =>
      decide (Replaces e (Char.ofNat n))) := by decide +kernel
  have hreplaces := forall_ascii (P := fun c => ((encodeForbidden c).all fun e =>
    decide (Replaces e c))) hall (toNat_lt_of_forbidden hc)
  rw [h] at hreplaces
  simpa using hreplaces

theorem encodeForbidden_eq_none {c : Char} : encodeForbidden c = none ↔ forbidden c = false := by
  unfold encodeForbidden
  split <;> simp_all

/-! ## What one character becomes -/

/-- The encodings of one character, by the rule that made them. -/
inductive EncodesChar (first last : Bool) (c : Char) : List Char → Prop where
  | quote (h : c = quoteRune) : EncodesChar first last c [quoteRune, quoteRune]
  | replaced (e : Char) (h : Replaces e c) : EncodesChar first last c [e]
  | space (hend : (first || last) = true) (h : c = ' ') : EncodesChar first last c [symbolForSpace]
  | dot (hlast : last = true) (h : c = '.') : EncodesChar first last c [fullwidthFullStop]
  | literal (hallowed : forbidden c = false) (hspace : c ≠ ' ') (hdot : c ≠ '.') :
      EncodesChar first last c [quoteRune, c]
  | kept (hallowed : forbidden c = false) (hquote : c ≠ quoteRune)
      (hdecode : decodeForbidden c = none)
      (hspace : (first || last) = true → c ≠ ' ' ∧ c ≠ symbolForSpace)
      (hdot : last = true → c ≠ '.' ∧ c ≠ fullwidthFullStop) : EncodesChar first last c [c]

theorem encodesChar (first last : Bool) (c : Char) :
    EncodesChar first last c (encodeChar first last c) := by
  unfold encodeChar
  split
  · rename_i hquote
    exact .quote hquote
  rename_i hquote
  cases henc : encodeForbidden c with
  | some e => exact .replaced e (encodeForbidden_replaces henc)
  | none =>
    have hallowed := encodeForbidden_eq_none.mp henc
    dsimp only
    split
    · rename_i hspace
      exact .space hspace.1 hspace.2
    rename_i hspace
    split
    · rename_i hdot
      exact .dot hdot.1 hdot.2
    rename_i hdot
    split
    · rename_i hliteral
      refine .literal hallowed ?_ ?_
      all_goals
        rintro rfl
        rcases hliteral with h | h | h
        · exact absurd h.2 (by decide)
        · exact absurd h.2 (by decide)
        · exact absurd h (by decide)
    rename_i hliteral
    rw [not_or, not_or] at hliteral
    obtain ⟨hsymbol, hstop, hdecode⟩ := hliteral
    exact .kept hallowed hquote (by simpa using hdecode)
      (fun h => ⟨fun hc => hspace ⟨h, hc⟩, fun hc => hsymbol ⟨h, hc⟩⟩)
      (fun h => ⟨fun hc => hdot ⟨h, hc⟩, fun hc => hstop ⟨h, hc⟩⟩)

theorem decodeChars_of_encodesChar {first : Bool} {c : Char} {enc tail : List Char}
    (h : EncodesChar first tail.isEmpty c enc) :
    decodeChars first false (enc ++ tail) = c :: decodeChars false false tail := by
  cases h with
  | quote h => simp [decodeChars, h]
  | replaced e h => simp [decodeChars, h.notQuote, h.decodes]
  | space hend h =>
    have hnot : decodeForbidden symbolForSpace = none := by decide
    have hne : symbolForSpace ≠ quoteRune := by decide
    simp only [cons_append, nil_append, decodeChars, hne, hnot, if_false, hend, and_self,
      if_true, h, Bool.false_eq_true]
  | dot hlast h =>
    have hnot : decodeForbidden fullwidthFullStop = none := by decide
    have hne : fullwidthFullStop ≠ quoteRune := by decide
    have hsp : fullwidthFullStop ≠ symbolForSpace := by decide
    simp only [cons_append, nil_append, decodeChars, hne, hnot, hsp, if_false, hlast,
      and_self, and_false, if_true, h, Bool.false_eq_true]
  | literal hallowed hspace hdot => simp [decodeChars]
  | kept hallowed hquote hdecode hspace hdot =>
    have hsp : ¬ ((first || tail.isEmpty) ∧ c = symbolForSpace) :=
      fun h => (hspace h.1).2 h.2
    have hst : ¬ (tail.isEmpty ∧ c = fullwidthFullStop) := fun h => (hdot h.1).2 h.2
    simp only [cons_append, nil_append, decodeChars, hquote, hdecode, if_false, hsp, hst,
      Bool.false_eq_true]

theorem encodeChar_ne_nil (first last : Bool) (c : Char) : encodeChar first last c ≠ [] := by
  intro hnil
  have h := encodesChar first last c
  rw [hnil] at h
  cases h

theorem isEmpty_encodeChars (first : Bool) (name : Name) :
    (encodeChars first name).isEmpty = name.isEmpty := by
  cases name with
  | nil => rfl
  | cons c rest =>
    have hne := encodeChar_ne_nil first rest.isEmpty c
    simp [encodeChars, hne]

theorem decodeChars_encodeChars (first : Bool) (name : Name) :
    decodeChars first false (encodeChars first name) = name := by
  induction name generalizing first with
  | nil => rfl
  | cons c rest ih =>
    have henc := encodesChar first rest.isEmpty c
    rw [← isEmpty_encodeChars false rest] at henc
    have hstep := decodeChars_of_encodesChar henc
    rw [ih, isEmpty_encodeChars] at hstep
    exact hstep

end SyncEngine
