import SyncEngine.Names.KeepBoth
import SyncEngine.Names.Lossless

/-! # What a numbered candidate is

The parts of a validated name, with a counter between them and trimmed to fit, are a
valid name as they stand: nothing composes across the counter, and the counter's
brackets break every rule a trimmed part could. So the first round of trimming fits,
and a candidate's lowercase is settled by its key and its counter.
-/

namespace SyncEngine

open List

@[simp] theorem utf8Len_append (a b : Name) : utf8Len (a ++ b) = utf8Len a + utf8Len b := by
  simp [utf8Len]

@[simp] theorem utf8Len_cons (c : Char) (rest : Name) :
    utf8Len (c :: rest) = c.utf8Size + utf8Len rest := by
  simp [utf8Len]

@[simp] theorem utf8Len_nil : utf8Len [] = 0 := rfl

theorem utf8Size_of_ascii {c : Char} (h : c.toNat < 128) : c.utf8Size = 1 := by
  have hval : c.val ≤ 127 := by
    rw [UInt32.le_iff_toNat_le]
    have h127 : (127 : UInt32).toNat = 127 := rfl
    have hc : c.val.toNat = c.toNat := rfl
    omega
  exact Char.utf8Size_eq_one_iff.mpr hval

theorem utf8Len_of_ascii {name : Name} (h : ∀ c ∈ name, c.toNat < 128) :
    utf8Len name = name.length := by
  induction name with
  | nil => rfl
  | cons c rest ih =>
    rw [utf8Len_cons, utf8Size_of_ascii (h c mem_cons_self),
      ih fun d hd => h d (mem_cons_of_mem _ hd), length_cons, Nat.add_comm]

theorem length_le_utf8Len (name : Name) : name.length ≤ utf8Len name := by
  induction name with
  | nil => exact le_rfl
  | cons c rest ih =>
    rw [utf8Len_cons, length_cons]
    have hpos := c.utf8Size_pos
    omega

theorem truncate_begins (budget : Nat) (name : Name) : truncate budget name <+: name := by
  induction name generalizing budget with
  | nil => exact nil_prefix
  | cons c rest ih =>
    unfold truncate
    split
    · exact cons_prefix_cons.mpr ⟨rfl, ih _⟩
    · exact nil_prefix

theorem utf8Len_truncate_le (budget : Nat) (name : Name) :
    utf8Len (truncate budget name) ≤ budget := by
  induction name generalizing budget with
  | nil => exact Nat.zero_le _
  | cons c rest ih =>
    unfold truncate
    split
    · have hrest := ih (budget - c.utf8Size)
      rw [utf8Len_cons]
      omega
    · exact Nat.zero_le _

theorem truncate_ne_nil {budget : Nat} {name : Name} (hroom : 4 ≤ budget) (hne : name ≠ []) :
    truncate budget name ≠ [] := by
  cases name with
  | nil => exact absurd rfl hne
  | cons c rest =>
    unfold truncate
    rw [if_pos (c.utf8Size_le_four.trans hroom)]
    exact cons_ne_nil _ _

/-! ## Splits -/

theorem splitAtByte_append {at' : Nat} {name front back : Name}
    (h : splitAtByte at' name = some (front, back)) : front ++ back = name ∧ utf8Len front = at' := by
  unfold splitAtByte at h
  dsimp only at h
  split at h
  · rename_i hlen
    cases h
    exact ⟨prefix_iff_eq_append.mp (truncate_begins at' name), hlen⟩
  · cases h

theorem splitLastDot_append {name front ext : Name} (h : splitLastDot name = some (front, ext)) :
    front ++ ext = name ∧ ext.head? = some '.' := by
  induction name generalizing front with
  | nil => cases h
  | cons c rest ih =>
    unfold splitLastDot at h
    cases hrest : splitLastDot rest with
    | some part =>
      rw [hrest] at h
      cases h
      obtain ⟨happend, hhead⟩ := ih hrest
      exact ⟨by rw [cons_append, happend], hhead⟩
    | none =>
      rw [hrest] at h
      dsimp only at h
      split at h
      · rename_i hc
        cases h
        exact ⟨rfl, by rw [hc]; rfl⟩
      · cases h

theorem splitLastBracket_append {name front back : Name}
    (h : splitLastBracket name = some (front, back)) : name = front ++ ' ' :: '(' :: back := by
  induction name generalizing front with
  | nil => cases h
  | cons c rest ih =>
    unfold splitLastBracket at h
    cases hrest : splitLastBracket rest with
    | some part =>
      rw [hrest] at h
      cases h
      rw [cons_append, ← ih hrest]
    | none =>
      rw [hrest] at h
      dsimp only at h
      split at h
      · cases h
        rfl
      · cases h

theorem splitExtension_append {name : Name} (shape : NameShape) (hne : name ≠ []) :
    (splitExtension name shape).1 ++ (splitExtension name shape).2 = name ∧
      (splitExtension name shape).1 ≠ [] := by
  have hdot : (splitDot name).1 ++ (splitDot name).2 = name ∧ (splitDot name).1 ≠ [] := by
    unfold splitDot
    cases hsplit : splitLastDot name with
    | none => exact ⟨append_nil _, hne⟩
    | some part =>
      dsimp only
      split
      · exact ⟨append_nil _, hne⟩
      rename_i hstem
      exact ⟨(splitLastDot_append hsplit).1, hstem⟩
  cases shape with
  | dir => exact ⟨append_nil _, hne⟩
  | file => exact hdot
  | fileWithExtension len =>
    unfold splitExtension
    dsimp only
    split
    · rename_i hlen
      cases hsplit : splitAtByte (utf8Len name - len) name with
      | none => exact hdot
      | some part =>
        obtain ⟨happend, hbytes⟩ := splitAtByte_append hsplit
        refine ⟨happend, fun hnil => ?_⟩
        rw [hnil, utf8Len_nil] at hbytes
        omega
    · exact hdot

theorem head_splitDot {name : Name} {c : Char} (h : (splitDot name).2.head? = some c) : c = '.' := by
  unfold splitDot at h
  cases hsplit : splitLastDot name with
  | none =>
    rw [hsplit] at h
    cases h
  | some part =>
    rw [hsplit] at h
    dsimp only at h
    split at h
    · cases h
    rw [(splitLastDot_append hsplit).2] at h
    exact (Option.some.inj h).symm

theorem stripCounter_base {stem base : Name} {n : Nat} (h : stripCounter stem = some (base, n)) :
    base ≠ [] ∧ base <+: stem := by
  unfold stripCounter at h
  split at h
  · cases hsplit : splitLastBracket stem.dropLast with
    | none =>
      rw [hsplit] at h
      cases h
    | some part =>
      rw [hsplit] at h
      dsimp only at h
      split at h
      · cases h
      split at h
      · cases h
      rename_i hbase
      obtain ⟨value, -, heq⟩ := Option.map_eq_some_iff.mp h
      cases heq
      refine ⟨hbase, List.IsPrefix.trans ?_ ( dropLast_prefix stem)⟩
      rw [splitLastBracket_append hsplit]
      exact prefix_append _ _
  · cases h

theorem ascii_counterSuffix {n : Nat} {c : Char} (h : c ∈ counterSuffix n) :
    c.toNat < 128 ∧ forbidden c = false := by
  have hdigit : ∀ d : Char, d.isDigit → d.toNat < 128 ∧ forbidden d = false := by
    intro d hd
    have hplain : Plain d := plain_of_isAlphanum (by simp [Char.isAlphanum, hd])
    exact ⟨hplain.ascii, hplain.allowed⟩
  rcases mem_cons.mp h with rfl | h
  · decide
  rcases mem_cons.mp h with rfl | h
  · decide
  rcases mem_append.mp h with h | h
  · exact hdigit c (Nat.isDigit_of_mem_toDigits (by decide) (by decide) h)
  rw [mem_singleton.mp h]
  decide

theorem utf8Len_counterSuffix (n : Nat) :
    utf8Len (counterSuffix n) = (Nat.toDigits 10 n).length + 3 := by
  rw [utf8Len_of_ascii fun c hc => (ascii_counterSuffix hc).1]
  simp [counterSuffix]

theorem counterSuffix_injective {m n : Nat} (h : counterSuffix m = counterSuffix n) : m = n := by
  unfold counterSuffix at h
  have hdigits : Nat.toDigits 10 m = Nat.toDigits 10 n := by simpa using h
  have hvalue := congrArg (fun digits => Nat.ofDigitChars 10 digits 0) hdigits
  simpa [Nat.ofDigitChars_toDigits] using hvalue

theorem utf8Len_counterSuffix_le {n : Nat} (h : n ≤ maxCounter) :
    utf8Len (counterSuffix n) ≤ 23 := by
  have hdigits : (Nat.toDigits 10 n).length ≤ 20 :=
    (Nat.length_toDigits_le_iff (by decide) (by decide)).mpr
      (lt_of_le_of_lt h (by decide))
  rw [utf8Len_counterSuffix]
  omega

/-! ## Parts that can be numbered -/

/-- A composed base and extension that together follow the rules of a name, the
extension, if any, beginning with an ASCII character. -/
structure Numberable (u : Unicode) (base ext : Name) : Prop where
  base_ne : base ≠ []
  noLeadingSpace : base.head? ≠ some ' '
  noTrailing : ext.getLast? ≠ some '.' ∧ ext.getLast? ≠ some ' '
  noForbidden : ∀ c ∈ base ++ ext, forbidden c = false
  nfc_base : u.nfc base = base
  nfc_ext : u.nfc ext = ext
  ext_ascii : ∀ c, ext.head? = some c → c.toNat < 128

namespace Unicode

variable (u : Unicode)

theorem nfc_nil : u.nfc [] = [] := by
  have hspace := u.nfc_char ' ' (by decide)
  exact u.nfc_part [] [] [' '] hspace

theorem nfc_of_prefix {a b : Name} (h : a <+: b) (hb : u.nfc b = b) : u.nfc a = a := by
  obtain ⟨rest, rfl⟩ := h
  exact u.nfc_part [] a rest hb

theorem nfc_append {a b : Name} (ha : u.nfc a = a) (hb : u.nfc b = b)
    (hascii : ∀ c, b.head? = some c → c.toNat < 128) : u.nfc (a ++ b) = a ++ b := by
  cases b with
  | nil => rwa [append_nil]
  | cons c b => exact u.nfc_join a c b (hascii c rfl) ha hb

theorem nfc_ascii_append {a b : Name} (ha : ∀ c ∈ a, c.toNat < 128) (hb : u.nfc b = b)
    (hascii : ∀ c, b.head? = some c → c.toNat < 128) : u.nfc (a ++ b) = a ++ b := by
  induction a with
  | nil => exact hb
  | cons c a ih =>
    have hrest := ih fun d hd => ha d (mem_cons_of_mem _ hd)
    change u.nfc ([c] ++ (a ++ b)) = [c] ++ (a ++ b)
    refine u.nfc_append (u.nfc_char c (ha c mem_cons_self)) hrest fun d hd => ?_
    cases a with
    | nil => exact hascii d hd
    | cons e a =>
      have he : e = d := by simpa using hd
      exact ha d (by simp [he])

end Unicode

/-- The parts a candidate is trimmed to, for a counter of so many bytes. -/
def keptParts (base ext : Name) (suffixLen : Nat) : Name × Name :=
  if suffixLen + utf8Len ext ≤ maxBytes ∧ truncate (maxBytes - (suffixLen + utf8Len ext)) base ≠ [] then
    (truncate (maxBytes - (suffixLen + utf8Len ext)) base, ext)
  else (truncate (maxBytes - suffixLen) (base ++ ext), [])

def candidateText (base ext : Name) (n : Nat) : Name :=
  let parts := keptParts base ext (utf8Len (counterSuffix n))
  parts.1 ++ counterSuffix n ++ parts.2

def counterKey (u : Unicode) (base ext : Name) (suffixLen : Nat) : CounterKey :=
  let parts := keptParts base ext suffixLen
  (u.lower parts.1, u.lower parts.2, suffixLen)

def CounterKey.text (key : CounterKey) (n : Nat) : Name := key.1 ++ counterSuffix n ++ key.2.1

section Numberable

variable {u : Unicode} {base ext : Name} {n : Nat}

theorem lower_candidateText :
    u.lower (candidateText base ext n) =
      (counterKey u base ext (utf8Len (counterSuffix n))).text n :=
  u.lower_counter _ n _

theorem Numberable.keptParts (h : Numberable u base ext) (hn : n ≤ maxCounter) :
    let parts := SyncEngine.keptParts base ext (utf8Len (counterSuffix n))
    Numberable u parts.1 parts.2 ∧
      utf8Len parts.1 + utf8Len (counterSuffix n) + utf8Len parts.2 ≤ maxBytes := by
  have hsuffix := utf8Len_counterSuffix_le hn
  have hhead : ∀ {front whole : Name}, front <+: whole → front ≠ [] → whole.head? ≠ some ' ' →
      front.head? ≠ some ' ' := by
    rintro front whole ⟨rest, rfl⟩ hne hwhole
    rwa [head?_append_of_ne_nil _ hne] at hwhole
  intro parts
  simp only [parts, SyncEngine.keptParts]
  split
  · rename_i hfits
    have hpre := truncate_begins (maxBytes - (utf8Len (counterSuffix n) + utf8Len ext)) base
    have hlen := utf8Len_truncate_le (maxBytes - (utf8Len (counterSuffix n) + utf8Len ext)) base
    refine ⟨⟨hfits.2, hhead hpre hfits.2 h.noLeadingSpace, h.noTrailing, ?_, u.nfc_of_prefix hpre h.nfc_base,
      h.nfc_ext, h.ext_ascii⟩, ?_⟩
    · intro c hc
      rcases mem_append.mp hc with hc | hc
      · exact h.noForbidden c (mem_append_left _ (hpre.subset hc))
      · exact h.noForbidden c (mem_append_right _ hc)
    dsimp only
    omega
  have hpre := truncate_begins (maxBytes - utf8Len (counterSuffix n)) (base ++ ext)
  have hlen := utf8Len_truncate_le (maxBytes - utf8Len (counterSuffix n)) (base ++ ext)
  have hroom : 4 ≤ maxBytes - utf8Len (counterSuffix n) := by
    unfold maxBytes
    omega
  have hne := truncate_ne_nil hroom (append_ne_nil_of_left_ne_nil h.base_ne ext)
  have hwhole : (base ++ ext).head? ≠ some ' ' := by
    rw [head?_append_of_ne_nil _ h.base_ne]
    exact h.noLeadingSpace
  refine ⟨⟨hne, hhead hpre hne hwhole, by simp, ?_,
    u.nfc_of_prefix hpre (u.nfc_append h.nfc_base h.nfc_ext h.ext_ascii), u.nfc_nil, by simp⟩, ?_⟩
  · intro c hc
    rw [append_nil] at hc
    exact h.noForbidden c (hpre.subset hc)
  dsimp only
  rw [utf8Len_nil]
  omega

theorem Numberable.parseName (h : Numberable u base ext)
    (hfits : utf8Len base + utf8Len (counterSuffix n) + utf8Len ext ≤ maxBytes) :
    SyncEngine.parseName u.nfc (base ++ counterSuffix n ++ ext) =
      .ok ⟨base ++ counterSuffix n ++ ext⟩ := by
  have hcomposed : u.nfc (base ++ counterSuffix n ++ ext) = base ++ counterSuffix n ++ ext := by
    rw [append_assoc]
    refine u.nfc_append h.nfc_base ?_ ?_
    · exact u.nfc_ascii_append (fun c hc => (ascii_counterSuffix hc).1) h.nfc_ext h.ext_ascii
    intro c hc
    have hspace : ' ' = c := by simpa [counterSuffix] using hc
    rw [← hspace]
    decide
  have hlen : 5 ≤ (base ++ counterSuffix n ++ ext).length := by
    have hbase := length_pos_iff.mpr h.base_ne
    have hdigits := @Nat.length_toDigits_pos 10 n
    simp only [length_append, counterSuffix, length_cons, length_nil]
    omega
  have hwell : WellFormedName (base ++ counterSuffix n ++ ext) := by
    refine ⟨⟨?_, ?_⟩, ?_, ?_, ?_, ?_⟩
    · intro heq
      rw [heq] at hlen
      simp at hlen
    · intro heq
      rw [heq] at hlen
      simp at hlen
    · rw [append_assoc, head?_append_of_ne_nil _ h.base_ne]
      exact h.noLeadingSpace
    · by_cases hext : ext = []
      · subst hext
        have hlast : (base ++ counterSuffix n ++ []).getLast? = some ')' := by
          rw [append_nil]
          unfold counterSuffix
          rw [← cons_append, ← cons_append, ← append_assoc, getLast?_concat]
        rw [hlast]
        decide
      rw [getLast?_append_of_ne_nil _ hext]
      exact h.noTrailing
    · intro c hc
      rcases mem_append.mp hc with hc | hc
      · rcases mem_append.mp hc with hc | hc
        · exact h.noForbidden c (mem_append_left _ hc)
        · exact (ascii_counterSuffix hc).2
      · exact h.noForbidden c (mem_append_right _ hc)
    unfold isReservedNameOnWindows
    split
    · rename_i heq
      rw [heq] at hlen
      simp at hlen
    · rename_i heq
      rw [heq] at hlen
      simp at hlen
    · rfl
  have hne : base ++ counterSuffix n ++ ext ≠ [] := by
    intro hnil
    rw [hnil] at hlen
    simp at hlen
  unfold SyncEngine.parseName parseNameKind
  rw [hcomposed, hwell.checkName, if_neg hne, if_neg]
  · rfl
  rw [utf8Len_append, utf8Len_append]
  omega

theorem Numberable.numberedCandidate (h : Numberable u base ext) (hn : n ≤ maxCounter) :
    SyncEngine.numberedCandidate u base n ext = .ok (⟨candidateText base ext n⟩,
      some (counterKey u base ext (utf8Len (counterSuffix n)))) := by
  obtain ⟨hkept, hfits⟩ := h.keptParts hn
  have hparse := hkept.parseName hfits
  unfold SyncEngine.numberedCandidate roomFor
  unfold candidateText counterKey
  unfold SyncEngine.keptParts at hparse ⊢
  dsimp only at hparse ⊢
  by_cases hroom : utf8Len (counterSuffix n) + utf8Len ext ≤ maxBytes
  · rw [if_pos hroom]
    by_cases hnil : truncate (maxBytes - (utf8Len (counterSuffix n) + utf8Len ext)) base = []
    · rw [if_neg fun hand => hand.2 hnil] at hparse
      rw [if_pos hnil, if_neg fun hand => hand.2 hnil]
      unfold trimToFit
      dsimp only at hparse ⊢
      rw [hparse]
    rw [if_pos ⟨hroom, hnil⟩] at hparse
    rw [if_neg hnil, if_pos ⟨hroom, hnil⟩]
    unfold trimToFit
    dsimp only at hparse ⊢
    rw [hparse]
  rw [if_neg fun hand => hroom hand.1] at hparse
  rw [if_neg hroom, if_neg fun hand => hroom hand.1]
  unfold trimToFit
  dsimp only at hparse ⊢
  rw [hparse]

end Numberable

/-! ## Validated names -/

/-- A name validation let through. -/
def Validated (u : Unicode) (name : ValidatedName) : Prop := ∃ raw, parseName u.nfc raw = .ok name

/-- The extension a shape keeps apart, if any, begins with an ASCII character, as the
last extension of every file does with its dot. -/
def NameShape.Fits (shape : NameShape) (name : Name) : Prop :=
  ∀ c, (splitExtension name shape).2.head? = some c → c.toNat < 128

section Validated

variable {u : Unicode} {name : ValidatedName} {shape : NameShape}

theorem fits_file (name : Name) : NameShape.file.Fits name := by
  intro c hc
  rw [head_splitDot hc]
  decide

theorem fits_dir (name : Name) : NameShape.dir.Fits name := by
  intro c hc
  cases hc

theorem Validated.spec (h : Validated u name) :
    u.nfc name.text = name.text ∧ name.text ≠ [] ∧ utf8Len name.text ≤ maxBytes ∧
      WellFormedName name.text := by
  obtain ⟨raw, hraw⟩ := h
  have hkind : checkName (u.nfc raw) = .ok name := by
    unfold parseName parseNameKind at hraw
    cases hcheck : checkName (u.nfc raw) with
    | error kind =>
      rw [hcheck] at hraw
      cases hraw
    | ok v =>
      rw [hcheck] at hraw
      cases hraw
      rfl
  obtain ⟨htext, hne, hlen, hwell⟩ := wellFormed_of_checkName hkind
  rw [htext]
  exact ⟨u.nfc_idempotent raw, hne, hlen, hwell⟩

theorem Validated.numberable (h : Validated u name) (hshape : shape.Fits name.text) :
    Numberable u (splitExtension name.text shape).1 (splitExtension name.text shape).2 := by
  obtain ⟨hnfc, hne, -, hwell⟩ := h.spec
  obtain ⟨happend, hstem⟩ := splitExtension_append shape hne
  have hhead : (splitExtension name.text shape).1.head? = name.text.head? := by
    conv_rhs => rw [← happend]
    rw [head?_append_of_ne_nil _ hstem]
  have hwhole : u.nfc ((splitExtension name.text shape).1 ++ (splitExtension name.text shape).2) =
      (splitExtension name.text shape).1 ++ (splitExtension name.text shape).2 := by
    rw [happend]
    exact hnfc
  refine ⟨hstem, hhead ▸ hwell.noLeadingSpace, ?_, fun c hc => hwell.noForbidden c (happend ▸ hc),
    u.nfc_of_prefix (prefix_append _ _) hwhole, ?_, hshape⟩
  · by_cases hext : (splitExtension name.text shape).2 = []
    · rw [hext]
      simp
    have hlast : (splitExtension name.text shape).2.getLast? = name.text.getLast? := by
      conv_rhs => rw [← happend]
      rw [getLast?_append_of_ne_nil _ hext]
    rw [hlast]
    exact hwell.noTrailing
  have hpart := u.nfc_part (splitExtension name.text shape).1 (splitExtension name.text shape).2 []
  rw [append_nil] at hpart
  exact hpart hwhole

theorem Numberable.of_prefix {stem base ext : Name} (h : Numberable u stem ext) (hne : base ≠ [])
    (hpre : base <+: stem) : Numberable u base ext := by
  refine ⟨hne, ?_, h.noTrailing, ?_, u.nfc_of_prefix hpre h.nfc_base, h.nfc_ext, h.ext_ascii⟩
  · have hhead := h.noLeadingSpace
    obtain ⟨rest, rfl⟩ := hpre
    rwa [head?_append_of_ne_nil _ hne] at hhead
  intro c hc
  rcases mem_append.mp hc with hc | hc
  · exact h.noForbidden c (mem_append_left _ (hpre.subset hc))
  · exact h.noForbidden c (mem_append_right _ hc)

theorem nextCounter_eq_some {n next : Nat} (h : nextCounter n = some next) :
    next = n + 1 ∧ n < maxCounter := by
  unfold nextCounter at h
  split at h
  · rename_i hlt
    exact ⟨(Option.some.inj h).symm, hlt⟩
  · cases h

theorem Numberable.startOf {stem ext : Name} (h : Numberable u stem ext) :
    Numberable u (SyncEngine.startOf stem).1 ext ∧ (SyncEngine.startOf stem).2 ≤ maxCounter := by
  unfold SyncEngine.startOf
  cases hstrip : stripCounter stem with
  | none => exact ⟨h, (by decide : 1 ≤ maxCounter)⟩
  | some part =>
    rw [Option.bind_some]
    cases hnext : nextCounter part.2 with
    | none => exact ⟨h, (by decide : 1 ≤ maxCounter)⟩
    | some next =>
      obtain ⟨hne, hpre⟩ := @stripCounter_base stem part.1 part.2 hstrip
      obtain ⟨hvalue, hlt⟩ := nextCounter_eq_some hnext
      refine ⟨h.of_prefix hne hpre, ?_⟩
      dsimp only [Option.map_some, Option.getD_some]
      omega

end Validated

end SyncEngine
