import SyncEngine.HttpProvider.Ranges

/-! # What is served of a range request

A request names ranges by their first and last bytes, by the first one alone or by how many
of the last bytes are wanted. What is served are those the file can satisfy, each clamped to
the file, but for suffixes longer than the file, which stand for the whole of it only where
nothing else is served.
-/

namespace SyncEngine.HttpProvider

open List

structure Numeral where
  digits : Text
  nonempty : digits ≠ []
  isDigit : ∀ c ∈ digits, c.isDigit = true
  fits : valueOf digits ≤ U64_MAX

def Numeral.value (n : Numeral) : Nat := valueOf n.digits

inductive Spec where
  | closed (first last : Numeral) (h : first.value ≤ last.value)
  | fromOn (first : Numeral)
  | suffix (n : Numeral)

structure Element where
  before : Text
  spec : Spec
  after : Text
  blank_before : ∀ c ∈ before, c = ' ' ∨ c = '\t'
  blank_after : ∀ c ∈ after, c = ' ' ∨ c = '\t'

namespace Spec

def text : Spec → Text
  | closed first last _ => first.digits ++ ['-'] ++ last.digits
  | fromOn first => first.digits ++ ['-']
  | suffix n => ['-'] ++ n.digits

def satisfiable (size : Nat) : Spec → Bool
  | closed first _ _ | fromOn first => first.value < size
  | suffix n => n.value ≠ 0

/-- The bytes a range stands for, clamped to the file. -/
def bytes (size : Nat) : Spec → Nat × Nat
  | closed first last _ => (first.value, min (last.value + 1) size)
  | fromOn first => (first.value, size)
  | suffix n => (size - n.value, size)

def oversized (size : Nat) : Spec → Bool
  | suffix n => size < n.value
  | _ => false

def fits (size : Nat) (spec : Spec) : Bool := spec.satisfiable size && !spec.oversized size

/-- The bounds the header crate hands over, dropping suffixes longer than the file and first
positions behind it. -/
def bounds (size : Nat) : Spec → Option (Bound × Bound)
  | closed first last _ => if first.value < size then some (.included first.value, .included last.value) else none
  | fromOn first => if first.value < size then some (.included first.value, .unbounded) else none
  | suffix n => if n.value ≤ size then some (.included (size - n.value), .unbounded) else none

end Spec

def Element.text (element : Element) : Text := element.before ++ element.spec.text ++ element.after

def headerText (elements : List Element) : Text :=
  "bytes=".toList ++ [','].intercalate (elements.map Element.text)

def wanted (specs : List Spec) (size : Nat) : List (Nat × Nat) :=
  (specs.filter (Spec.satisfiable size)).map (Spec.bytes size)

/-- The ranges served: suffixes longer than the file only where there is nothing else, and then once. -/
def served (specs : List Spec) (size : Nat) : List (Nat × Nat) :=
  let fitting := specs.filter (Spec.fits size)
  if fitting.isEmpty && specs.any (Spec.oversized size) then [(0, size)] else fitting.map (Spec.bytes size)

/-! ## Reading the raw header -/

theorem isWhitespace_of_blank {c : Char} (h : c = ' ' ∨ c = '\t') : c.isWhitespace := by
  rcases h with rfl | rfl <;> decide

theorem dropWhile_blanks {blanks text rest : Text} (hblanks : ∀ c ∈ blanks, c = ' ' ∨ c = '\t')
    (hsome : text ≠ []) (htext : ∀ c ∈ text, c.isWhitespace = false) :
    (blanks ++ (text ++ rest)).dropWhile Char.isWhitespace = text ++ rest := by
  rw [dropWhile_append_of_pos fun c hc => isWhitespace_of_blank (hblanks c hc)]
  cases text with
  | nil => exact (hsome rfl).elim
  | cons c text => exact dropWhile_cons_of_neg (Bool.eq_false_iff.mp (htext c mem_cons_self))

theorem trim_blanks {before text after : Text} (hbefore : ∀ c ∈ before, c = ' ' ∨ c = '\t')
    (hafter : ∀ c ∈ after, c = ' ' ∨ c = '\t') (hsome : text ≠ []) (htext : ∀ c ∈ text, c.isWhitespace = false) :
    trim (before ++ text ++ after) = text := by
  have hback := @dropWhile_blanks after.reverse text.reverse [] (fun c hc => hafter c (mem_reverse.mp hc))
    (fun h => hsome (reverse_eq_nil_iff.mp h)) (fun c hc => htext c (mem_reverse.mp hc))
  rw [append_nil] at hback
  unfold trim
  rw [append_assoc, dropWhile_blanks hbefore hsome htext, reverse_append, hback, reverse_reverse]

/-- A character a spec is written with. -/
structure Plain (c : Char) : Prop where
  notBlank : c.isWhitespace = false
  notComma : c ≠ ','
  visible : ' ' ≤ c ∧ c ≤ '~'

theorem plain_of_isDigit {c : Char} (h : c.isDigit) : Plain c := by
  have hbounds : '0' ≤ c ∧ c ≤ '9' := by
    unfold Char.isDigit at h
    rw [Bool.and_eq_true, decide_eq_true_iff, decide_eq_true_iff] at h
    exact h
  refine ⟨?_, ?_, Char.le_trans (by decide) hbounds.1, Char.le_trans hbounds.2 (by decide)⟩
  · rw [Bool.eq_false_iff]
    intro hblank
    unfold Char.isWhitespace at hblank
    simp only [Bool.or_eq_true, decide_eq_true_eq] at hblank
    rcases hblank with ((rfl | rfl) | rfl) | rfl <;> exact absurd h (by decide)
  rintro rfl
  exact absurd h (by decide)

theorem ne_of_isDigit {c d : Char} (h : c.isDigit) (hd : d.isDigit = false) : c ≠ d := by
  rintro rfl
  rw [h] at hd
  exact nomatch hd

theorem Spec.text_ne_nil (spec : Spec) : spec.text ≠ [] := by
  intro hnil
  cases spec with
  | closed first last h => exact first.nonempty (append_eq_nil_iff.mp (append_eq_nil_iff.mp hnil).1).1
  | fromOn first => exact first.nonempty (append_eq_nil_iff.mp hnil).1
  | suffix n => exact n.nonempty (append_eq_nil_iff.mp hnil).2

theorem Spec.plain (spec : Spec) : ∀ c ∈ spec.text, Plain c := by
  have hdash : Plain '-' := ⟨by decide, by decide, by decide, by decide⟩
  have hdigits : ∀ n : Numeral, ∀ c ∈ n.digits, Plain c := fun n c hc => plain_of_isDigit (n.isDigit c hc)
  intro c hc
  cases spec with
  | closed first last h =>
    rcases mem_append.mp hc with hc | hc
    · rcases mem_append.mp hc with hc | hc
      · exact hdigits first c hc
      rw [mem_singleton.mp hc]
      exact hdash
    · exact hdigits last c hc
  | fromOn first =>
    rcases mem_append.mp hc with hc | hc
    · exact hdigits first c hc
    rw [mem_singleton.mp hc]
    exact hdash
  | suffix n =>
    rcases mem_append.mp hc with hc | hc
    · rw [mem_singleton.mp hc]
      exact hdash
    · exact hdigits n c hc

theorem Numeral.parseU64 (n : Numeral) : parseU64 n.digits = some n.value := by
  have hsign : stripPrefix ['+'] n.digits = none := by
    refine if_neg fun hlead => ?_
    have hmem := hlead.subset (mem_singleton.mpr rfl)
    exact ne_of_isDigit (n.isDigit _ hmem) (by decide) rfl
  unfold HttpProvider.parseU64
  rw [hsign]
  exact if_pos ⟨n.nonempty, all_eq_true.mpr n.isDigit, n.fits⟩

theorem Element.trim_text (element : Element) : trim element.text = element.spec.text :=
  trim_blanks element.blank_before element.blank_after element.spec.text_ne_nil fun c hc =>
    (element.spec.plain c hc).notBlank

theorem isOversized_text (element : Element) (size : Nat) :
    isOversized size element.text = element.spec.oversized size := by
  have hdash : ∀ n : Numeral, ∀ rest, stripPrefix ['-'] (n.digits ++ rest) = none := by
    intro n rest
    refine if_neg fun hlead => ?_
    obtain ⟨c, digits, hdigits⟩ := exists_cons_of_ne_nil n.nonempty
    rw [hdigits] at hlead
    have hc := n.isDigit c (hdigits ▸ mem_cons_self)
    exact ne_of_isDigit hc (by decide) (cons_prefix_cons.mp hlead).1.symm
  unfold isOversized
  rw [element.trim_text]
  cases element.spec with
  | closed first last h =>
    dsimp only [Spec.text]
    rw [append_assoc, hdash]
    rfl
  | fromOn first =>
    dsimp only [Spec.text]
    rw [hdash]
    rfl
  | suffix n =>
    have hstrip : stripPrefix ['-'] (['-'] ++ n.digits) = some n.digits := if_pos (prefix_append _ _)
    dsimp only [Spec.text]
    rw [hstrip, Option.bind_some, n.parseU64]
    rfl

theorem hasOversizedSuffix_headerText {elements : List Element} (hsome : elements ≠ []) (size : Nat) :
    hasOversizedSuffix (headerText elements) size = (elements.map Element.spec).any (Spec.oversized size) := by
  have hstrip : stripPrefix "bytes=".toList (headerText elements) =
      some ([','].intercalate (elements.map Element.text)) := by
    unfold stripPrefix headerText
    rw [if_pos (prefix_append _ _), drop_left]
  have hsplit : ([','].intercalate (elements.map Element.text)).splitOn ',' = elements.map Element.text := by
    refine splitOn_intercalate ',' (fun text htext hcomma => ?_) (fun h => hsome (map_eq_nil_iff.mp h))
    obtain ⟨element, -, rfl⟩ := mem_map.mp htext
    rcases mem_append.mp hcomma with hcomma | hcomma
    · rcases mem_append.mp hcomma with hcomma | hcomma
      · rcases element.blank_before _ hcomma with h | h <;> exact absurd h (by decide)
      · exact (element.spec.plain _ hcomma).notComma rfl
    · rcases element.blank_after _ hcomma with h | h <;> exact absurd h (by decide)
  unfold hasOversizedSuffix
  rw [hstrip]
  dsimp only
  rw [hsplit, any_map, any_map]
  refine congrArg (fun p => elements.any p) (funext fun element => ?_)
  exact isOversized_text element size

theorem mem_intercalate {α : Type} {sep c : α} {items : List (List α)} (h : c ∈ [sep].intercalate items) :
    c = sep ∨ ∃ item ∈ items, c ∈ item := by
  induction items with
  | nil => exact nomatch h
  | cons item items ih =>
    cases items with
    | nil =>
      rw [intercalate_singleton] at h
      exact Or.inr ⟨item, mem_cons_self, h⟩
    | cons next items =>
      rw [intercalate_cons_cons] at h
      rcases mem_append.mp h with h | h
      · rcases mem_append.mp h with h | h
        · exact Or.inr ⟨item, mem_cons_self, h⟩
        · exact Or.inl (mem_singleton.mp h)
      rcases ih h with hsep | ⟨other, hother, hc⟩
      · exact Or.inl hsep
      · exact Or.inr ⟨other, mem_cons_of_mem _ hother, hc⟩

theorem toStr_headerText (elements : List Element) : toStr (headerText elements) = some (headerText elements) := by
  refine if_pos (all_eq_true.mpr fun c hc => ?_)
  have hvisible : (' ' ≤ c ∧ c ≤ '~') ∨ c = '\t' := by
    rcases mem_append.mp hc with hc | hc
    · have hunit : ∀ d ∈ "bytes=".toList, ' ' ≤ d ∧ d ≤ '~' := @of_decide_eq_true _ (List.decidableBAll _ _) rfl
      exact Or.inl (hunit c hc)
    rcases mem_intercalate hc with rfl | ⟨text, htext, hc⟩
    · exact Or.inl ⟨by decide, by decide⟩
    obtain ⟨element, -, rfl⟩ := mem_map.mp htext
    rcases mem_append.mp hc with hc | hc
    · rcases mem_append.mp hc with hc | hc
      · rcases element.blank_before c hc with rfl | rfl
        · exact Or.inl ⟨by decide, by decide⟩
        · exact Or.inr rfl
      · exact Or.inl (element.spec.plain c hc).visible
    rcases element.blank_after c hc with rfl | rfl
    · exact Or.inl ⟨by decide, by decide⟩
    · exact Or.inr rfl
  rcases hvisible with ⟨hlow, hhigh⟩ | htab
  · rw [decide_eq_true hlow, decide_eq_true hhigh]
    rfl
  · rw [decide_eq_true htab, Bool.or_true]

/-! ## Resolving -/

/-- What the header crate hands over are the bounds of a range that is no longer than the
file, and stands for bytes where the file can satisfy it. -/
theorem getRealBounds_bounds {spec : Spec} {size : Nat} (hsize : size ≤ U64_MAX) {range : Bound × Bound}
    (h : spec.bounds size = some range) :
    getRealBounds size range = some (spec.bytes size) ∧
      ((spec.bytes size).1 < (spec.bytes size).2 ↔ spec.fits size) := by
  cases spec with
  | closed first last hle =>
    dsimp only [Spec.bounds] at h
    split at h
    · rename_i hfirst
      cases h
      refine ⟨congrArg (fun last => some (first.value, last)) ?_, ?_⟩
      · change min (min (last.value + 1) U64_MAX) size = min (last.value + 1) size
        rw [Nat.min_assoc, min_eq_right hsize]
      refine iff_of_true (Nat.lt_min.mpr ⟨Nat.lt_succ_of_le hle, hfirst⟩) ?_
      exact Bool.and_eq_true_iff.mpr ⟨decide_eq_true hfirst, rfl⟩
    · exact nomatch h
  | fromOn first =>
    dsimp only [Spec.bounds] at h
    split at h
    · rename_i hfirst
      cases h
      refine ⟨congrArg (fun last => some (first.value, last)) (min_eq_right hsize), ?_⟩
      exact iff_of_true hfirst (Bool.and_eq_true_iff.mpr ⟨decide_eq_true hfirst, rfl⟩)
    · exact nomatch h
  | suffix n =>
    dsimp only [Spec.bounds] at h
    split at h
    · rename_i hshort
      cases h
      refine ⟨congrArg (fun last => some (size - n.value, last)) (min_eq_right hsize), ?_⟩
      have hfits : (Spec.suffix n).fits size = decide (n.value ≠ 0) := by
        dsimp only [Spec.fits, Spec.satisfiable, Spec.oversized]
        rw [decide_eq_false (Nat.not_lt_of_le hshort), Bool.not_false, Bool.and_true]
      rw [hfits, decide_eq_true_iff]
      change size - n.value < size ↔ n.value ≠ 0
      omega
    · exact nomatch h

theorem of_bounds_eq_none {spec : Spec} {size : Nat} (h : spec.bounds size = none) :
    spec.fits size = false := by
  unfold Spec.fits
  cases spec with
  | closed first last hle | fromOn first =>
    dsimp only [Spec.bounds] at h
    split at h
    · exact nomatch h
    rename_i hfirst
    dsimp only [Spec.satisfiable]
    rw [decide_eq_false hfirst]
    rfl
  | suffix n =>
    dsimp only [Spec.bounds] at h
    split at h
    · exact nomatch h
    rename_i hlong
    dsimp only [Spec.oversized]
    rw [decide_eq_true (Nat.lt_of_not_le hlong)]
    exact Bool.and_false _

variable {specs : List Spec}

theorem mapM_getRealBounds {size : Nat} (hsize : size ≤ U64_MAX) :
    ∃ ranges, (specs.filterMap (Spec.bounds size)).mapM (getRealBounds size) = some ranges ∧
      (ranges.filter fun range => range.1 < range.2) =
        (specs.filter (Spec.fits size)).map (Spec.bytes size) := by
  induction specs with
  | nil => exact ⟨[], rfl, rfl⟩
  | cons spec specs ih =>
    obtain ⟨ranges, hranges, hfitting⟩ := ih
    cases hbounds : spec.bounds size with
    | none =>
      refine ⟨ranges, ?_, ?_⟩
      · rw [filterMap_cons_none hbounds]
        exact hranges
      rw [filter_cons_of_neg (Bool.eq_false_iff.mp (of_bounds_eq_none hbounds))]
      exact hfitting
    | some range =>
      obtain ⟨hreal, hsome⟩ := getRealBounds_bounds hsize hbounds
      refine ⟨spec.bytes size :: ranges, ?_, ?_⟩
      · rw [filterMap_cons_some hbounds, mapM_cons, hreal, hranges]
        rfl
      by_cases hfits : spec.fits size
      · have hkept : decide ((spec.bytes size).1 < (spec.bytes size).2) := decide_eq_true (hsome.mpr hfits)
        rw [filter_cons, filter_cons_of_pos hfits, hfitting, if_pos hkept]
        rfl
      have hgone : ¬ decide ((spec.bytes size).1 < (spec.bytes size).2) :=
        fun h => hfits (hsome.mp (of_decide_eq_true h))
      rw [filter_cons, filter_cons_of_neg hfits, hfitting, if_neg hgone]

theorem resolveRanges_headerText {elements : List Element} (hsome : elements ≠ []) {size : Nat}
    (hsize : size ≤ U64_MAX) :
    resolveRanges ((elements.map Element.spec).filterMap (Spec.bounds size)) (some (headerText elements)) size =
      some (served (elements.map Element.spec) size) := by
  obtain ⟨ranges, hranges, hfitting⟩ := @mapM_getRealBounds (elements.map Element.spec) size hsize
  unfold resolveRanges served
  rw [hranges, Option.any_some, hasOversizedSuffix_headerText hsome]
  change some _ = some _
  dsimp only
  rw [hfitting, isEmpty_map]
  refine congrArg some ?_
  split
  · rename_i hnone
    rw [Bool.and_eq_true, List.isEmpty_iff] at hnone
    rw [hnone.1]
    rfl
  · rfl

/-! ## Answering -/

def partLines (mime : Text) (size : Nat) (range : Nat × Nat) : Text :=
  "Content-Type: ".toList ++ mime ++ "\r\nContent-Range: bytes ".toList ++ contentRange range.1 (range.2 - 1) size

/-- A multipart body: each part behind the delimiter, and the closing delimiter. -/
def multipart (boundary : Text) : List (Text × List UInt8) → List UInt8
  | [] => utf8 ("--".toList ++ boundary ++ "--\r\n".toList)
  | (lines, bytes) :: parts =>
    utf8 ("--".toList ++ boundary ++ "\r\n".toList ++ lines ++ "\r\n\r\n".toList) ++ bytes ++ utf8 "\r\n".toList ++
      multipart boundary parts

theorem multipart_cons (boundary lines : Text) (bytes : List UInt8) (parts : List (Text × List UInt8)) :
    multipart boundary ((lines, bytes) :: parts) =
      utf8 ("--".toList ++ boundary ++ "\r\n".toList ++ lines ++ "\r\n\r\n".toList) ++ bytes ++
        utf8 "\r\n".toList ++ multipart boundary parts := rfl

def slice (content : List UInt8) (range : Nat × Nat) : List UInt8 := (content.drop range.1).take (range.2 - range.1)

/-- The response carries the ranges, and nothing else. -/
def Carries (content : List UInt8) (mime boundary : Text) (size : Nat) (response : Response) : List (Nat × Nat) → Prop
  | [] => response.status = .RANGE_NOT_SATISFIABLE ∧ response.body.flatten = [] ∧
      response.header .CONTENT_RANGE = some ("bytes */".toList ++ digits size)
  | [range] =>
    response.body.flatten = slice content range ∧
    response.header .CONTENT_LENGTH = some (digits response.body.flatten.length) ∧
    (range = (0, size) → response.status = .OK ∧ response.header .CONTENT_RANGE = none) ∧
    (range ≠ (0, size) → response.status = .PARTIAL_CONTENT ∧
      response.header .CONTENT_RANGE = some ("bytes ".toList ++ contentRange range.1 (range.2 - 1) size))
  | ranges => response.status = .PARTIAL_CONTENT ∧ response.header .CONTENT_LENGTH = none ∧
      response.header .CONTENT_TYPE = some ("multipart/byteranges; boundary=".toList ++ boundary) ∧
      response.body.flatten = multipart boundary (ranges.map fun range => (partLines mime size range, slice content range))

theorem utf8_append (a b : Text) : utf8 (a ++ b) = utf8 a ++ utf8 b := flatMap_append

theorem bytes_of_fits {spec : Spec} {size : Nat} (h : spec.fits size) :
    (spec.bytes size).1 < (spec.bytes size).2 ∧ (spec.bytes size).2 ≤ size := by
  unfold Spec.fits at h
  rw [Bool.and_eq_true, Bool.not_eq_true'] at h
  obtain ⟨hsome, hshort⟩ := h
  cases spec with
  | closed first last hle =>
    have hfirst : first.value < size := of_decide_eq_true hsome
    exact ⟨Nat.lt_min.mpr ⟨Nat.lt_succ_of_le hle, hfirst⟩, min_le_right _ _⟩
  | fromOn first => exact ⟨of_decide_eq_true hsome, le_rfl⟩
  | suffix n =>
    have hnone : n.value ≠ 0 := of_decide_eq_true hsome
    have hle : ¬ size < n.value := of_decide_eq_false hshort
    dsimp only [Spec.bytes]
    omega

theorem served_within {size : Nat} {range : Nat × Nat} (h : range ∈ served specs size) :
    range = (0, size) ∨ (range.1 < range.2 ∧ range.2 ≤ size) := by
  unfold served at h
  dsimp only at h
  split at h
  · exact Or.inl (mem_singleton.mp h)
  obtain ⟨spec, hspec, rfl⟩ := mem_map.mp h
  exact Or.inr (bytes_of_fits (mem_filter.mp hspec).2)

theorem served_eq_nil {size : Nat} :
    served specs size = [] ↔ ∀ spec ∈ specs, spec.satisfiable size = false := by
  have hsatisfied : ∀ spec : Spec, spec.oversized size → spec.satisfiable size := by
    intro spec hlong
    cases spec with
    | closed first last hle => exact nomatch hlong
    | fromOn first => exact nomatch hlong
    | suffix n =>
      have hlt : size < n.value := of_decide_eq_true hlong
      exact decide_eq_true (Nat.ne_zero_of_lt hlt)
  unfold served
  dsimp only
  split
  · rename_i hlong
    rw [Bool.and_eq_true, any_eq_true] at hlong
    obtain ⟨-, spec, hspec, hover⟩ := hlong
    refine iff_of_false nofun fun hnone => ?_
    have hfalse := hnone spec hspec
    rw [hsatisfied spec hover] at hfalse
    exact nomatch hfalse
  rename_i hshort
  rw [map_eq_nil_iff, filter_eq_nil_iff]
  refine ⟨fun hnone spec hspec => ?_, fun hnone spec hspec hfits => ?_⟩
  · rw [Bool.eq_false_iff]
    intro hsome
    have hover : spec.oversized size = false := by
      rw [Bool.eq_false_iff]
      intro hover
      refine hshort (Bool.and_eq_true_iff.mpr ⟨?_, any_eq_true.mpr ⟨spec, hspec, hover⟩⟩)
      rw [List.isEmpty_iff, List.filter_eq_nil_iff]
      exact hnone
    refine hnone spec hspec ?_
    unfold Spec.fits
    rw [hsome, hover]
    rfl
  unfold Spec.fits at hfits
  rw [hnone spec hspec] at hfits
  exact nomatch hfits

/-! ## Header values -/

/-- Text the header crate takes as a value. -/
def Visible (text : Text) : Prop := ∀ c ∈ text, ' ' ≤ c ∧ c ≤ '~'

instance (text : Text) : Decidable (Visible text) := List.decidableBAll _ text

theorem Visible.append {a b : Text} (ha : Visible a) (hb : Visible b) : Visible (a ++ b) := fun c hc =>
  (mem_append.mp hc).elim (ha c) (hb c)

theorem visible_digits (n : Nat) : Visible (digits n) := fun _ hc =>
  (plain_of_isDigit (Nat.isDigit_of_mem_toDigits (by decide) (by decide) hc)).visible

theorem visible_contentRange (start last size : Nat) : Visible (contentRange start last size) := by
  have hdash : Visible ['-'] := by decide
  have hslash : Visible ['/'] := by decide
  exact ((((visible_digits _).append hdash).append (visible_digits _)).append hslash).append (visible_digits _)

section Serving

variable {accepts : Text → Bool} {reader : Nat → Nat → List (List UInt8)} {file : RemoteFile} {content : List UInt8}
  {boundary : Text}

theorem partHeader_eq (first : Bool) (range : Nat × Nat) :
    partHeader boundary file first range = (if first then [] else "\r\n".toList) ++
      ("--".toList ++ boundary ++ "\r\n".toList ++
        partLines (file.mime.getD APPLICATION_OCTET_STREAM) file.size range ++ "\r\n\r\n".toList) := by
  have hline : "\r\nContent-Type: ".toList = "\r\n".toList ++ "Content-Type: ".toList := by decide
  unfold partHeader partLines
  rw [hline]
  simp only [append_assoc]

theorem parts_false {ranges : List (Nat × Nat)} (hread : ∀ range ∈ ranges,
      (reader range.1 range.2).flatten = slice content range) :
    (parts reader boundary file false ranges).flatten = utf8 "\r\n".toList ++ multipart boundary
      (ranges.map fun range =>
        (partLines (file.mime.getD APPLICATION_OCTET_STREAM) file.size range, slice content range)) := by
  induction ranges with
  | nil =>
    have hline : "\r\n--".toList = "\r\n".toList ++ "--".toList := by decide
    unfold parts
    rw [flatten_singleton, hline, append_assoc, append_assoc, utf8_append]
    rfl
  | cons range ranges ih =>
    unfold parts
    rw [flatten_cons, flatten_append, hread range mem_cons_self,
      ih fun other hother => hread other (mem_cons_of_mem _ hother), partHeader_eq, if_neg Bool.false_ne_true,
      utf8_append, map_cons, multipart_cons]
    simp only [append_assoc]

theorem parts_true {range : Nat × Nat} {ranges : List (Nat × Nat)} (hread : ∀ other ∈ range :: ranges,
      (reader other.1 other.2).flatten = slice content other) :
    (parts reader boundary file true (range :: ranges)).flatten = multipart boundary
      ((range :: ranges).map fun range =>
        (partLines (file.mime.getD APPLICATION_OCTET_STREAM) file.size range, slice content range)) := by
  unfold parts
  rw [flatten_cons, flatten_append, hread range mem_cons_self,
    parts_false fun other hother => hread other (mem_cons_of_mem _ hother), partHeader_eq, if_pos rfl,
    nil_append, map_cons, multipart_cons]
  simp only [append_assoc]

theorem length_slice {range : Nat × Nat} (hlast : range.2 ≤ content.length) :
    (slice content range).length = range.2 - range.1 := by
  unfold slice
  rw [length_take, length_drop]
  omega

theorem build_all {status : Status} {headers : List (Header × Text)} {body : List (List UInt8)}
    (h : ∀ header ∈ headers, accepts header.2) : build accepts status headers body = some ⟨status, headers, body⟩ :=
  if_pos (all_eq_true.mpr h)

theorem singleRangeResponse_carries (hvisible : ∀ text, Visible text → accepts text)
    (hmime : accepts (file.mime.getD APPLICATION_OCTET_STREAM)) (hcontent : content.length = file.size)
    {range : Nat × Nat} (hrange : range = (0, file.size) ∨ (range.1 < range.2 ∧ range.2 ≤ file.size))
    (hread : (reader range.1 range.2).flatten = slice content range) :
    ∃ response, singleRangeResponse accepts reader file range = some (some response) ∧
      Carries content (file.mime.getD APPLICATION_OCTET_STREAM) boundary file.size response [range] := by
  have hlength : (reader range.1 range.2).flatten.length = range.2 - range.1 := by
    rw [hread]
    refine length_slice ?_
    rcases hrange with rfl | ⟨-, hlast⟩
    · exact le_of_eq hcontent.symm
    · exact hcontent ▸ hlast
  have hbytes : accepts "bytes".toList := hvisible _ (by decide)
  obtain ⟨start, last⟩ := range
  by_cases hwhole : start = 0 ∧ last = file.size
  · have hbuilt := @build_all accepts .OK [acceptRanges, (.CONTENT_LENGTH, digits (last - start)),
      (.CONTENT_TYPE, file.mime.getD APPLICATION_OCTET_STREAM)] (reader start last) (by
        simp only [forall_mem_cons]
        exact ⟨hbytes, hvisible _ (visible_digits _), hmime, fun _ h => nomatch h⟩)
    have hsingle : singleRangeResponse accepts reader file (start, last) = some (build accepts .OK [acceptRanges,
        (.CONTENT_LENGTH, digits (last - start)), (.CONTENT_TYPE, file.mime.getD APPLICATION_OCTET_STREAM)]
        (reader start last)) := by
      unfold singleRangeResponse
      dsimp only
      rw [if_pos hwhole, if_neg (by decide)]
    rw [hbuilt] at hsingle
    refine ⟨_, hsingle, hread, congrArg (fun n => some (digits n)) hlength.symm, fun _ => ⟨rfl, rfl⟩,
      fun hother => (hother ?_).elim⟩
    rw [hwhole.1, hwhole.2]
  have hne : (start, last) ≠ (0, file.size) := fun h => hwhole ⟨(Prod.mk.inj h).1, (Prod.mk.inj h).2⟩
  have hlast : last ≠ 0 := by
    rcases hrange with hsame | ⟨hlt, -⟩
    · exact (hne hsame).elim
    · exact Nat.ne_zero_of_lt hlt
  have hunit : Visible "bytes ".toList := by decide
  have hbuilt := @build_all accepts .PARTIAL_CONTENT [acceptRanges, (.CONTENT_LENGTH, digits (last - start)),
    (.CONTENT_TYPE, file.mime.getD APPLICATION_OCTET_STREAM),
    (.CONTENT_RANGE, "bytes ".toList ++ contentRange start (last - 1) file.size)] (reader start last) (by
      simp only [forall_mem_cons]
      exact ⟨hbytes, hvisible _ (visible_digits _), hmime,
        hvisible _ (hunit.append (visible_contentRange _ _ _)), fun _ h => nomatch h⟩)
  have hsingle : singleRangeResponse accepts reader file (start, last) = some (build accepts .PARTIAL_CONTENT
      ([acceptRanges, (.CONTENT_LENGTH, digits (last - start)),
        (.CONTENT_TYPE, file.mime.getD APPLICATION_OCTET_STREAM)] ++
        [(.CONTENT_RANGE, "bytes ".toList ++ contentRange start (last - 1) file.size)]) (reader start last)) := by
    unfold singleRangeResponse
    dsimp only
    rw [if_neg hwhole, if_pos rfl, if_neg hlast]
  exact ⟨_, hsingle.trans (congrArg some hbuilt), hread, congrArg (fun n => some (digits n)) hlength.symm,
    fun h => (hne h).elim, fun _ => ⟨rfl, rfl⟩⟩

/-- What is carried of a request for ranges. -/
theorem fileHandler_carries {satisfiableRanges : Text → Nat → List (Bound × Bound)} {refusal : Text}
    {elements : List Element}
    (hsome : elements ≠ []) (hcrate : satisfiableRanges (headerText elements) file.size =
      (elements.map Element.spec).filterMap (Spec.bounds file.size))
    (hvisible : ∀ text, Visible text → accepts text = true)
    (hmime : accepts (file.mime.getD APPLICATION_OCTET_STREAM) = true) (hboundary : Visible boundary)
    (hcontent : content.length = file.size) (hread : ∀ range : Nat × Nat, range.1 ≤ range.2 → range.2 ≤ file.size →
      (reader range.1 range.2).flatten = slice content range) :
    ∃ response, fileHandler accepts reader satisfiableRanges refusal boundary (some file) (some (headerText elements)) =
        some response ∧
      Carries content (file.mime.getD APPLICATION_OCTET_STREAM) boundary file.size response
        (served (elements.map Element.spec) file.size) ∧
      (response.status = .RANGE_NOT_SATISFIABLE ↔
        ∀ element ∈ elements, element.spec.satisfiable file.size = false) := by
  have hresolved : resolveRanges (satisfiableRanges (headerText elements) file.size) (toStr (headerText elements))
      file.size = some (served (elements.map Element.spec) file.size) := by
    rw [hcrate, toStr_headerText]
    exact resolveRanges_headerText hsome file.size_le
  have hbytes : accepts "bytes".toList := hvisible _ (by decide)
  have hslices : ∀ range ∈ served (elements.map Element.spec) file.size,
      (reader range.1 range.2).flatten = slice content range := by
    intro range hrange
    rcases served_within hrange with rfl | ⟨hlt, hlast⟩
    · exact hread _ (Nat.zero_le _) le_rfl
    · exact hread _ (le_of_lt hlt) hlast
  have hnone : served (elements.map Element.spec) file.size = [] ↔
      ∀ element ∈ elements, element.spec.satisfiable file.size = false := by
    rw [served_eq_nil]
    exact forall_mem_map
  unfold fileHandler
  dsimp only
  rw [hresolved]
  generalize hserved : served (elements.map Element.spec) file.size = ranges at hslices hnone ⊢
  have hwithin : ∀ range ∈ ranges, range = (0, file.size) ∨ (range.1 < range.2 ∧ range.2 ≤ file.size) := by
    intro range hrange
    exact served_within (hserved ▸ hrange)
  cases ranges with
  | nil =>
    have hstar : Visible "bytes */".toList := by decide
    have hbuilt := @build_all accepts .RANGE_NOT_SATISFIABLE
      [acceptRanges, (.CONTENT_RANGE, "bytes */".toList ++ digits file.size)] [] (by
        simp only [forall_mem_cons]
        exact ⟨hbytes, hvisible _ (hstar.append (visible_digits _)), fun _ h => nomatch h⟩)
    refine ⟨_, congrArg (fun built => some (Option.getD built _)) hbuilt, ⟨rfl, rfl, rfl⟩, iff_of_true rfl (hnone.mp rfl)⟩
  | cons range ranges =>
    have hnot : ¬ ∀ element ∈ elements, element.spec.satisfiable file.size = false := fun h => nomatch hnone.mpr h
    cases ranges with
    | nil =>
      obtain ⟨response, hbuilt, hcarries⟩ := @singleRangeResponse_carries accepts reader file content boundary
        hvisible hmime hcontent range (hwithin range mem_cons_self) (hslices range mem_cons_self)
      refine ⟨response, ?_, hcarries, iff_of_false (fun hstatus => ?_) hnot⟩
      · change (singleRangeResponse accepts reader file range).bind _ = _
        rw [hbuilt]
        rfl
      obtain ⟨-, -, hwhole, hpart⟩ := hcarries
      by_cases hsame : range = (0, file.size)
      · exact nomatch (hwhole hsame).1.symm.trans hstatus
      · exact nomatch (hpart hsame).1.symm.trans hstatus
    | cons other ranges =>
      have hline : Visible "multipart/byteranges; boundary=".toList := by decide
      have hbuilt := @build_all accepts .PARTIAL_CONTENT
        [acceptRanges, (.CONTENT_TYPE, "multipart/byteranges; boundary=".toList ++ boundary)]
        (parts reader boundary file true (range :: other :: ranges)) (by
          simp only [forall_mem_cons]
          exact ⟨hbytes, hvisible _ (hline.append hboundary), fun _ h => nomatch h⟩)
      refine ⟨_, congrArg (fun built => some (Option.getD built _)) hbuilt, ⟨rfl, rfl, rfl, parts_true hslices⟩,
        iff_of_false nofun hnot⟩

end Serving

def tenBytes : List UInt8 := [0, 1, 2, 3, 4, 5, 6, 7, 8, 9]

def tenByteFile (mime : Option Text) : RemoteFile := ⟨10, by decide, mime⟩

def zero : Numeral := ⟨['0'], by decide, forall_mem_singleton.mpr rfl, by decide⟩

def three : Numeral := ⟨['3'], by decide, forall_mem_singleton.mpr rfl, by decide⟩

def twenty : Numeral := ⟨['2', '0'], by decide, all_eq_true.mp rfl, by decide⟩

def firstFour : Element := ⟨[], .closed zero three (by decide), [], nofun, nofun⟩

def lastTwenty : Element := ⟨[' '], .suffix twenty, [], forall_mem_singleton.mpr (.inl rfl), nofun⟩

def serveTen (mime : Option Text) (elements : List Element) : Option Response :=
  fileHandler (fun text => decide (Visible text)) (fun start last => [slice tenBytes (start, last)])
    (fun _ size => (elements.map Element.spec).filterMap (Spec.bounds size)) "failed to parse header value".toList ['b']
    (some (tenByteFile mime)) (some (headerText elements))

theorem fileHandler_carries_firstFour : ∃ response, serveTen none [firstFour] = some response ∧
    Carries tenBytes APPLICATION_OCTET_STREAM ['b'] 10 response [(0, 4)] := by
  have hcarries := @fileHandler_carries (fun text => decide (Visible text))
    (fun start last => [slice tenBytes (start, last)]) (tenByteFile none) tenBytes ['b']
    (fun _ size => ([firstFour].map Element.spec).filterMap (Spec.bounds size)) "failed to parse header value".toList
    [firstFour] nofun rfl
    (fun _ h => decide_eq_true h) (by decide) (by decide) rfl fun range _ _ => flatten_singleton
  obtain ⟨response, hserved, hcarries, -⟩ := hcarries
  exact ⟨response, hserved, hcarries⟩

/-- A suffix longer than the file is not served beside another range, and nothing is of a
file whose type is no header value. -/
theorem serveTen_carries_not_wanted :
    (∃ response, serveTen none [firstFour, lastTwenty] = some response ∧
      ¬ Carries tenBytes APPLICATION_OCTET_STREAM ['b'] 10 response
        (wanted ([firstFour, lastTwenty].map Element.spec) 10)) ∧
    ∃ response, serveTen (some ['\n']) [firstFour] = some response ∧
      ¬ Carries tenBytes ['\n'] ['b'] 10 response (wanted ([firstFour].map Element.spec) 10) := by
  have hboth : wanted ([firstFour, lastTwenty].map Element.spec) 10 = [(0, 4), (0, 10)] := by decide
  have hone : wanted ([firstFour].map Element.spec) 10 = [(0, 4)] := by decide
  have hlength : (serveTen none [firstFour, lastTwenty]).map (Response.header · .CONTENT_LENGTH) = some (some ['4']) := by
    decide +kernel
  have hstatus : (serveTen (some ['\n']) [firstFour]).map Response.status = some .INTERNAL_SERVER_ERROR := by
    decide +kernel
  obtain ⟨response, hserved, hlength⟩ := Option.map_eq_some_iff.mp hlength
  obtain ⟨failed, hfailed, hstatus⟩ := Option.map_eq_some_iff.mp hstatus
  refine ⟨⟨response, hserved, fun h => ?_⟩, failed, hfailed, fun h => ?_⟩
  · rw [hboth] at h
    exact nomatch hlength.symm.trans h.2.1
  rw [hone] at h
  exact nomatch hstatus.symm.trans (h.2.2.2 (by decide)).1

end SyncEngine.HttpProvider
