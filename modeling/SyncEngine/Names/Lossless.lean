import SyncEngine.Names.Encoding

/-! # Encoding loses nothing

A device name is letters and digits, which neither direction touches, so its
encoding and the encoding of its lookalike are read back whole. With those and
the dot entries kept apart, decoding undoes encoding on every name, and every
encoding follows the rules validation checks.
-/

namespace SyncEngine

open List

/-! ## The characters of a device name -/

/-- The decoder's walk leaves the character wherever it stands. -/
def Undecoded (c : Char) : Prop :=
  c ≠ quoteRune ∧ decodeForbidden c = none ∧ c ≠ symbolForSpace ∧ c ≠ fullwidthFullStop

instance (c : Char) : Decidable (Undecoded c) := inferInstanceAs (Decidable (_ ∧ _))

variable {first : Bool} {name : Name} {c : Char} {decoded : Name}

theorem decodeChars_of_undecoded (h : ∀ c ∈ name, Undecoded c) :
    decodeChars first false name = name := by
  induction name generalizing first with
  | nil => rfl
  | cons c rest ih =>
    obtain ⟨hquote, hdecode, hspace, hstop⟩ := h c mem_cons_self
    have hrest := @ih false fun d hd => h d (mem_cons_of_mem _ hd)
    simp [decodeChars, hquote, hdecode, hspace, hstop, hrest]

/-- A letter or digit, which neither direction touches. -/
structure Plain (c : Char) : Prop where
  ascii : c.toNat < 128
  allowed : forbidden c = false
  undecoded : Undecoded c
  notSpace : c ≠ ' '
  notDot : c ≠ '.'

theorem toNat_lt_of_isAlphanum (h : c.isAlphanum) : c.toNat < 128 := by
  unfold Char.isAlphanum Char.isAlpha Char.isUpper Char.isLower Char.isDigit at h
  simp only [Bool.or_eq_true, Bool.and_eq_true, decide_eq_true_eq] at h
  rcases h with (h | h) | h
  all_goals exact lt_of_le_of_lt (UInt32.le_iff_toNat_le.mp h.2) (by decide)

theorem plain_of_isAlphanum (h : c.isAlphanum) : Plain c := by
  have hascii := toNat_lt_of_isAlphanum h
  have hall : ∀ n : Fin 128, (Char.ofNat n).isAlphanum → forbidden (Char.ofNat n) = false ∧
      Undecoded (Char.ofNat n) ∧ Char.ofNat n ≠ ' ' ∧ Char.ofNat n ≠ '.' := by decide +kernel
  obtain ⟨hallowed, hundecoded, hspace, hdot⟩ := forall_ascii
    (P := fun c => c.isAlphanum → forbidden c = false ∧ Undecoded c ∧ c ≠ ' ' ∧ c ≠ '.')
    hall hascii h
  exact ⟨hascii, hallowed, hundecoded, hspace, hdot⟩

theorem isAlpha_of_toUpper (h : c.toUpper.isUpper) : c.isAlpha := by
  unfold Char.toUpper at h
  split at h
  · rename_i hlower
    have hcase : c.isLower := by
      unfold Char.isLower
      simpa [UInt32.le_iff_toNat_le] using hlower
    unfold Char.isAlpha
    rw [hcase, Bool.or_true]
  unfold Char.isAlpha
  rw [h, Bool.true_or]

theorem reserved_cases (h : isReservedNameOnWindows name) :
    ∃ c rest, name = c :: rest ∧ c.isAlpha ∧ ∀ d ∈ rest, d.isAlphanum := by
  have halpha : ∀ c : Char, ∀ u : Char, u.isUpper → c.toUpper = u → c.isAlpha :=
    fun c u hu h => isAlpha_of_toUpper (h ▸ hu)
  unfold isReservedNameOnWindows at h
  split at h
  · rename_i c0 c1 c2
    simp only [Bool.or_eq_true, beq_iff_eq, List.cons.injEq, and_true] at h
    have key : c0.isAlpha ∧ c1.isAlpha ∧ c2.isAlpha := by
      rcases h with ((⟨h0, h1, h2⟩ | ⟨h0, h1, h2⟩) | ⟨h0, h1, h2⟩) | ⟨h0, h1, h2⟩ <;>
        exact ⟨halpha _ _ (by decide) h0, halpha _ _ (by decide) h1, halpha _ _ (by decide) h2⟩
    exact ⟨c0, [c1, c2], rfl, key.1, by simp [Char.isAlphanum, key.2.1, key.2.2]⟩
  · rename_i c0 c1 c2 digit
    simp only [Bool.and_eq_true, Bool.or_eq_true, beq_iff_eq, List.cons.injEq, and_true,
      decide_eq_true_eq] at h
    obtain ⟨h, hdigit⟩ := h
    have key : c0.isAlpha ∧ c1.isAlpha ∧ c2.isAlpha := by
      rcases h with ⟨h0, h1, h2⟩ | ⟨h0, h1, h2⟩ <;>
        exact ⟨halpha _ _ (by decide) h0, halpha _ _ (by decide) h1, halpha _ _ (by decide) h2⟩
    have hd : digit.isDigit := by
      simp only [Char.isDigit, Bool.and_eq_true, decide_eq_true_eq]
      refine ⟨?_, ?_⟩
      · have hlow : ('0' : Char).val ≤ ('1' : Char).val := by decide
        exact UInt32.le_trans hlow hdigit.1
      · exact hdigit.2
    exact ⟨c0, [c1, c2, digit], rfl, key.1, by simp [Char.isAlphanum, key.2.1, key.2.2, hd]⟩
  · cases h

/-- The fullwidth variant `w` of the letter `a`. -/
structure Fullwidth (w a : Char) : Prop where
  decodes : fullwidthToAsciiLetter w = some a
  undecoded : Undecoded w
  allowed : forbidden w = false
  notSpace : w ≠ ' '
  notDot : w ≠ '.'
  notAlphanum : w.isAlphanum = false

instance (w a : Char) : Decidable (Fullwidth w a) :=
  decidable_of_iff (fullwidthToAsciiLetter w = some a ∧ Undecoded w ∧ forbidden w = false ∧
      w ≠ ' ' ∧ w ≠ '.' ∧ w.isAlphanum = false)
    ⟨fun ⟨h1, h2, h3, h4, h5, h6⟩ => ⟨h1, h2, h3, h4, h5, h6⟩,
      fun ⟨h1, h2, h3, h4, h5, h6⟩ => ⟨h1, h2, h3, h4, h5, h6⟩⟩

theorem fullwidth_of_isAlpha {a : Char} (h : a.isAlpha) :
    Fullwidth (Char.ofNat (a.toNat + fullwidthOffset)) a := by
  have hall : ∀ n : Fin 128, (Char.ofNat n).isAlpha →
      Fullwidth (Char.ofNat ((Char.ofNat n).toNat + fullwidthOffset)) (Char.ofNat n) := by
    decide +kernel
  have hascii := toNat_lt_of_isAlphanum (c := a) (by simp [Char.isAlphanum, h])
  exact forall_ascii (P := fun a => a.isAlpha →
    Fullwidth (Char.ofNat (a.toNat + fullwidthOffset)) a) hall hascii h

theorem fullwidth_of_decodes {a : Char} (h : fullwidthToAsciiLetter c = some a) :
    Fullwidth c a := by
  unfold fullwidthToAsciiLetter at h
  split at h
  · rename_i hrange
    dsimp only at h
    split at h
    · rename_i halpha
      have ha := Option.some.inj h
      have hvalid : Nat.isValidChar (c.toNat - fullwidthOffset) := Or.inl (by omega)
      have hcode : (Char.ofNat (c.toNat - fullwidthOffset)).toNat = c.toNat - fullwidthOffset := by
        unfold Char.ofNat
        rw [dif_pos hvalid]
        rfl
      have hwide := fullwidth_of_isAlpha halpha
      rwa [hcode, Nat.sub_add_cancel hrange.1, Char.ofNat_toNat, ha] at hwide
    · cases h
  · cases h

theorem decodesToReserved_cases (h : decodesToReserved name = some decoded) :
    ∃ w a rest, name = w :: rest ∧ decoded = a :: rest ∧ Fullwidth w a ∧
      ∀ d ∈ rest, d.isAlphanum := by
  unfold decodesToReserved at h
  split at h
  · cases h
  rename_i w rest
  cases ha : fullwidthToAsciiLetter w with
  | none => simp [ha] at h
  | some a =>
    simp only [ha] at h
    split at h
    · rename_i hreserved
      cases h
      obtain ⟨c, tail, heq, -, hplain⟩ := reserved_cases hreserved
      have htail : rest = tail := by
        simp only [withFirstChar, drop_succ_cons, drop_zero, List.cons.injEq] at heq
        exact heq.2
      exact ⟨w, a, rest, rfl, rfl, fullwidth_of_decodes ha, htail ▸ hplain⟩
    · cases h

theorem decodeName_of_reserved (h : decodesToReserved name = some decoded) :
    decodeName name = decoded := by
  have hne : ∀ special, decodesToReserved special = none → name ≠ special := by
    rintro special hspecial rfl
    simp [hspecial] at h
  unfold decodeName
  rw [if_neg (hne _ (by decide)), if_neg (hne _ (by decide)), if_neg (hne _ (by decide)),
    if_neg (hne _ (by decide)), h]

theorem decodeName_of_walk (h : decodesToReserved name = none) (hdots : name ≠ [fullwidthFullStop, fullwidthFullStop]) :
    decodeName name = decodeChars true false name := by
  unfold decodeName
  by_cases h1 : name = [fullwidthFullStop]
  · rw [if_pos h1, h1]
    decide
  by_cases h3 : name = [quoteRune, fullwidthFullStop]
  · rw [if_neg h1, if_neg hdots, if_pos h3, h3]
    decide
  by_cases h4 : name = [quoteRune, fullwidthFullStop, quoteRune, fullwidthFullStop]
  · rw [if_neg h1, if_neg hdots, if_neg h3, if_pos h4, h4]
    decide
  · rw [if_neg h1, if_neg hdots, if_neg h3, if_neg h4, h]

/-! ## Encoding by cases -/

/-- The dot entries, their literal lookalikes, and the name between the two,
each with its encoding. -/
def dotEntries : List (Name × Name) :=
  [(['.'], [fullwidthFullStop]),
    (['.', '.'], [fullwidthFullStop, fullwidthFullStop]),
    ([fullwidthFullStop], [quoteRune, fullwidthFullStop]),
    ([fullwidthFullStop, fullwidthFullStop],
      [quoteRune, fullwidthFullStop, quoteRune, fullwidthFullStop]),
    ([fullwidthFullStop, '.'], [quoteRune, fullwidthFullStop, fullwidthFullStop])]

/-- The encodings of a name, by the rule that made them. -/
inductive EncodesName (name : Name) : Name → Prop where
  | dotEntry (enc : Name) (h : (name, enc) ∈ dotEntries) : EncodesName name enc
  | device (c w : Char) (rest : Name) (h : name = c :: rest) (hw : Fullwidth w c)
      (hreserved : isReservedNameOnWindows name = true)
      (hplain : ∀ d ∈ rest, d.isAlphanum = true) : EncodesName name (w :: rest)
  | lookalike (w a : Char) (rest : Name) (h : name = w :: rest) (hw : Fullwidth w a)
      (hplain : ∀ d ∈ rest, d.isAlphanum = true) : EncodesName name (quoteRune :: name)
  | walk (hdot : name ≠ [fullwidthFullStop, '.']) (hreserved : isReservedNameOnWindows name = false)
      (hdecodes : decodesToReserved name = none) : EncodesName name (encodeChars true name)

theorem encodesName (name : Name) : EncodesName name (encodeNameRaw name) := by
  unfold encodeNameRaw
  split
  · rename_i h
    exact .dotEntry _ (by simp [h, dotEntries])
  split
  · rename_i h
    exact .dotEntry _ (by simp [h, dotEntries])
  split
  · rename_i h
    exact .dotEntry _ (by simp [h, dotEntries])
  split
  · rename_i h
    exact .dotEntry _ (by simp [h, dotEntries])
  split
  · rename_i h
    exact .dotEntry _ (by simp [h, dotEntries])
  rename_i hdot
  split
  · rename_i hreserved
    obtain ⟨c, rest, rfl, halpha, hplain⟩ := reserved_cases hreserved
    exact .device c _ rest rfl (fullwidth_of_isAlpha halpha) hreserved hplain
  rename_i hreserved
  split
  · rename_i hdecodes
    obtain ⟨decoded, hdecoded⟩ := Option.isSome_iff_exists.mp hdecodes
    obtain ⟨w, a, rest, rfl, -, hw, hplain⟩ := decodesToReserved_cases hdecoded
    exact .lookalike w a rest rfl hw hplain
  rename_i hdecodes
  exact .walk hdot (by simpa using hreserved) (by simpa using hdecodes)

theorem decodesToReserved_quoted (name : Name) : decodesToReserved (quoteRune :: name) = none := by
  have hquote : fullwidthToAsciiLetter quoteRune = none := by decide
  simp [decodesToReserved, hquote]

theorem decodeName_encodeNameRaw (name : Name) : decodeName (encodeNameRaw name) = name := by
  have henc := encodesName name
  generalize encodeNameRaw name = raw at henc
  cases henc with
  | dotEntry enc h =>
    have hall : ∀ entry ∈ dotEntries, decodeName entry.2 = entry.1 := by decide
    exact hall _ h
  | device c w rest h hw hreserved hplain =>
    have hdecodes : decodesToReserved (w :: rest) = some name := by
      simp [decodesToReserved, hw.decodes, withFirstChar, ← h, hreserved]
    exact decodeName_of_reserved hdecodes
  | lookalike w a rest h hw hplain =>
    have hne : quoteRune :: name ≠ [fullwidthFullStop, fullwidthFullStop] := by
      intro heq
      exact absurd (List.cons.inj heq).1 (by decide)
    have hrest : decodeChars false false rest = rest :=
      decodeChars_of_undecoded fun d hd => (plain_of_isAlphanum (hplain d hd)).undecoded
    rw [decodeName_of_walk (decodesToReserved_quoted name) hne, h]
    simp [decodeChars, hrest]
  | walk hdot hreserved hdecodes =>
    have hback := decodeChars_encodeChars true name
    -- an encoding the decoder would take for a device name is that lookalike itself
    have hdevice : decodesToReserved (encodeChars true name) = none := by
      cases hd : decodesToReserved (encodeChars true name) with
      | none => rfl
      | some decoded =>
        obtain ⟨w, a, rest, heq, -, hw, hplain⟩ := decodesToReserved_cases hd
        have hsame : decodeChars true false (w :: rest) = w :: rest := by
          refine decodeChars_of_undecoded fun d hd => ?_
          rcases mem_cons.mp hd with rfl | hd
          · exact hw.undecoded
          · exact (plain_of_isAlphanum (hplain d hd)).undecoded
        rw [heq, hsame] at hback
        rw [heq, hback, hdecodes] at hd
        cases hd
    have hne : encodeChars true name ≠ [fullwidthFullStop, fullwidthFullStop] := by
      intro heq
      rw [heq] at hback
      exact hdot (hback.symm.trans (by decide))
    rw [decodeName_of_walk hdevice hne, hback]

/-! ## The encoding follows every rule -/

theorem forbidden_encodeChars :
    ∀ c ∈ encodeChars first name, forbidden c = false := by
  induction name generalizing first with
  | nil => simp [encodeChars]
  | cons d rest ih =>
    intro c hc
    rcases mem_append.mp hc with hc | hc
    · have henc := encodesChar first rest.isEmpty d
      generalize encodeChar first rest.isEmpty d = enc at henc hc
      have hquote : forbidden quoteRune = false := by decide
      cases henc with
      | quote h =>
        have : c = quoteRune := by simpa using hc
        exact this ▸ hquote
      | replaced e h =>
        have : c = e := by simpa using hc
        exact this ▸ h.allowed
      | space hend h =>
        have : c = symbolForSpace := by simpa using hc
        exact this ▸ (by decide)
      | dot hlast h =>
        have : c = fullwidthFullStop := by simpa using hc
        exact this ▸ (by decide)
      | literal hallowed hspace hdot =>
        rcases mem_cons.mp hc with rfl | hc
        · exact hquote
        have : c = d := by simpa using hc
        exact this ▸ hallowed
      | kept hallowed hquote hdecode hspace hdot =>
        have : c = d := by simpa using hc
        exact this ▸ hallowed
    · exact ih c hc

theorem head_encodeChars (name : Name) : (encodeChars true name).head? ≠ some ' ' := by
  cases name with
  | nil => simp [encodeChars]
  | cons d rest =>
    have henc := encodesChar true rest.isEmpty d
    have hquote : quoteRune ≠ ' ' := by decide
    unfold encodeChars
    generalize encodeChar true rest.isEmpty d = enc at henc
    cases henc with
    | quote h => simpa using hquote
    | replaced e h => simpa using h.notSpace
    | space hend h => simpa using (by decide : symbolForSpace ≠ ' ')
    | dot hlast h => simpa using (by decide : fullwidthFullStop ≠ ' ')
    | literal hallowed hspace hdot => simpa using hquote
    | kept hallowed hquote hdecode hspace hdot => simpa using (hspace rfl).1

theorem getLast_encodeChars (first : Bool) (name : Name) :
    (encodeChars first name).getLast? ≠ some '.' ∧
      (encodeChars first name).getLast? ≠ some ' ' := by
  induction name generalizing first with
  | nil => simp [encodeChars]
  | cons d rest ih =>
    cases rest with
    | nil =>
      have henc := encodesChar first true d
      have hlist : encodeChars first [d] = encodeChar first true d := by simp [encodeChars]
      rw [hlist]
      generalize encodeChar first true d = enc at henc
      cases henc with
      | quote h => decide
      | replaced e h => simpa using ⟨h.notDot, h.notSpace⟩
      | space hend h => decide
      | dot hlast h => decide
      | literal hallowed hspace hdot => simpa using ⟨hdot, hspace⟩
      | kept hallowed hquote hdecode hspace hdot =>
        simpa using ⟨(hdot rfl).1, (hspace (by simp)).1⟩
    | cons e rest =>
      have hne : encodeChars false (e :: rest) ≠ [] := by
        intro hnil
        have hempty := isEmpty_encodeChars false (e :: rest)
        simp [hnil] at hempty
      have hlast : (encodeChars first (d :: e :: rest)).getLast? =
          (encodeChars false (e :: rest)).getLast? :=
        getLast?_append_of_ne_nil _ hne
      rw [hlast]
      exact ih false

theorem not_dotEntry (h : name.getLast? ≠ some '.') :
    name ≠ ['.'] ∧ name ≠ ['.', '.'] := by
  constructor
  · rintro rfl
    exact h rfl
  rintro rfl
  exact h rfl

/-- A name that starts with a character of no device name, and holds nothing
validation could refuse, follows every rule. -/
theorem wellFormed_of_head {e : Char} {tail : Name} (he : e.isAlphanum = false)
    (hall : ∀ c ∈ e :: tail, forbidden c = false ∧ c ≠ '.' ∧ c ≠ ' ') :
    WellFormedName (e :: tail) := by
  have hlast : ∀ c, (c = '.' ∨ c = ' ') → (e :: tail).getLast? ≠ some c := by
    intro c hc hsome
    have hmem := hall c (mem_of_getLast? hsome)
    rcases hc with rfl | rfl
    · exact hmem.2.1 rfl
    · exact hmem.2.2 rfl
  refine ⟨not_dotEntry (hlast _ (Or.inl rfl)), ?_, ⟨hlast _ (Or.inl rfl), hlast _ (Or.inr rfl)⟩,
    fun c hc => (hall c hc).1, ?_⟩
  · simpa using (hall e mem_cons_self).2.2
  rw [Bool.eq_false_iff]
  intro hdevice
  obtain ⟨c, rest, heq, halpha, -⟩ := reserved_cases hdevice
  have hsame : e = c := (List.cons.inj heq).1
  simp [hsame, Char.isAlphanum, halpha] at he

theorem noForbidden_of_all (h : (name.all fun c => !forbidden c)) :
    ∀ c ∈ name, forbidden c = false := by
  intro c hc
  have hnot := all_eq_true.mp h c hc
  rwa [Bool.not_eq_true'] at hnot

theorem wellFormed_encodeNameRaw (name : Name) : WellFormedName (encodeNameRaw name) := by
  have henc := encodesName name
  generalize encodeNameRaw name = raw at henc
  cases henc with
  | dotEntry enc h =>
    have hall : ∀ entry ∈ dotEntries, WellFormedName entry.2 := by
      intro entry hentry
      simp only [dotEntries, mem_cons, not_mem_nil, or_false] at hentry
      rcases hentry with rfl | rfl | rfl | rfl | rfl <;>
        exact ⟨by decide, by decide, by decide, noForbidden_of_all (by decide), by decide⟩
    exact hall _ h
  | device c w rest h hw hreserved hplain =>
    refine wellFormed_of_head hw.notAlphanum fun d hd => ?_
    rcases mem_cons.mp hd with rfl | hd
    · exact ⟨hw.allowed, hw.notDot, hw.notSpace⟩
    have hp := plain_of_isAlphanum (hplain d hd)
    exact ⟨hp.allowed, hp.notDot, hp.notSpace⟩
  | lookalike w a rest h hw hplain =>
    refine wellFormed_of_head (by decide) fun d hd => ?_
    rw [h] at hd
    rcases mem_cons.mp hd with rfl | hd
    · decide
    rcases mem_cons.mp hd with rfl | hd
    · exact ⟨hw.allowed, hw.notDot, hw.notSpace⟩
    have hp := plain_of_isAlphanum (hplain d hd)
    exact ⟨hp.allowed, hp.notDot, hp.notSpace⟩
  | walk hdot hreserved hdecodes =>
    have hlast := getLast_encodeChars true name
    refine ⟨not_dotEntry hlast.1, head_encodeChars name, hlast, forbidden_encodeChars, ?_⟩
    -- an encoding that is a device name is that name, unencoded
    rw [Bool.eq_false_iff]
    intro hdevice
    obtain ⟨c, rest, heq, halpha, hplain⟩ := reserved_cases hdevice
    have hsame : decodeChars true false (c :: rest) = c :: rest := by
      refine decodeChars_of_undecoded fun d hd => (plain_of_isAlphanum ?_).undecoded
      rcases mem_cons.mp hd with rfl | hd
      · simp [Char.isAlphanum, halpha]
      · exact hplain d hd
    have hback := decodeChars_encodeChars true name
    rw [heq, hsame] at hback
    rw [heq, hback, hreserved] at hdevice
    cases hdevice

theorem encodeNameRaw_eq_nil (h : encodeNameRaw name = []) : name = [] := by
  rw [← decodeName_encodeNameRaw name, h]
  decide

/-! ## Encoding a name as passed -/

/-- Unicode's canonical composition, of which encoding needs that it is done once
and that it leaves the encoding of what it leaves. -/
structure Normalization where
  nfc : Name → Name
  idempotent : ∀ name, nfc (nfc name) = nfc name
  encoded : ∀ name, nfc name = name → nfc (encodeNameRaw name) = encodeNameRaw name

namespace Normalization

def onComposed : Normalization where
  nfc name := name
  idempotent _ := rfl
  encoded _ _ := rfl

variable (n : Normalization)

theorem encodeName_eq (name : Name) :
    encodeName n.nfc name =
      if n.nfc name = [] then .error ⟨name, .empty⟩
      else if maxBytes < utf8Len (encodeNameRaw (n.nfc name)) then
        .error ⟨name, .tooLong (utf8Len (encodeNameRaw (n.nfc name)))⟩
      else .ok ⟨encodeNameRaw (n.nfc name)⟩ := by
  have hraw := n.encoded (n.nfc name) (n.idempotent name)
  have hnil : encodeNameRaw (n.nfc name) = [] ↔ n.nfc name = [] := by
    constructor
    · exact encodeNameRaw_eq_nil
    intro h
    rw [h]
    decide
  unfold encodeName parseName parseNameKind
  rw [hraw, (wellFormed_encodeNameRaw (n.nfc name)).checkName]
  simp only [hnil]
  split
  · rfl
  · split <;> rfl

end Normalization

/-- Encoding fails for the empty name and for names whose encoding is too long
alone, and whatever it gives decodes to the normalized name. -/
theorem encodeName_lossless (n : Normalization) :
    (∀ name,
      WellFormedName (encodeNameRaw (n.nfc name)) ∧
      (∀ e, encodeName n.nfc name = .error e →
        n.nfc name = [] ∨ maxBytes < utf8Len (encodeNameRaw (n.nfc name))) ∧
      ∀ v, encodeName n.nfc name = .ok v → decodeName v.text = n.nfc name) ∧
    ∀ a b v, n.nfc a = a → n.nfc b = b →
      encodeName n.nfc a = .ok v → encodeName n.nfc b = .ok v → a = b := by
  have hdecode : ∀ name v, encodeName n.nfc name = .ok v → decodeName v.text = n.nfc name := by
    intro name v h
    rw [n.encodeName_eq] at h
    split at h
    · cases h
    split at h
    · cases h
    cases h
    exact decodeName_encodeNameRaw _
  refine ⟨fun name => ⟨wellFormed_encodeNameRaw _, ?_, hdecode name⟩, ?_⟩
  · intro e h
    rw [n.encodeName_eq] at h
    split at h
    · exact Or.inl ‹_›
    split at h
    · exact Or.inr ‹_›
    · cases h
  intro a b v ha hb hva hvb
  calc a = n.nfc a := ha.symm
    _ = decodeName v.text := (hdecode a v hva).symm
    _ = n.nfc b := hdecode b v hvb
    _ = b := hb

/-- A device name, through its encoding and back. -/
theorem encodeName_lossless_device :
    encodeName Normalization.onComposed.nfc ['C', 'O', 'N'] = .ok ⟨['\uff23', 'O', 'N']⟩ ∧
      decodeName ['\uff23', 'O', 'N'] = ['C', 'O', 'N'] := by
  have hok : encodeName Normalization.onComposed.nfc ['C', 'O', 'N'] =
      .ok ⟨['\uff23', 'O', 'N']⟩ := by decide
  exact ⟨hok, ((encodeName_lossless .onComposed).1 ['C', 'O', 'N']).2.2 _ hok⟩

end SyncEngine
