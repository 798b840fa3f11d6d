import SyncEngine.Archive.EntryPath

/-! # Names of segments

A segment too long for a name gets the name of a beginning of it. Whether that is the
longest that fits is told by the beginnings a bisection tries. Each name of an entry path is
that of a stored component, or of a beginning of one.
-/

namespace SyncEngine.Archive

open Collections List
open DriveJob (SourceName)

/-- What shortening a segment needs of canonical composition: it leaves the encoding of what
it leaves, drops no text whole and takes at most three times the bytes. -/
structure Composing (u : Unicode) : Prop where
  encoded : ∀ name, u.nfc name = name → u.nfc (encodeNameRaw name) = encodeNameRaw name
  nonempty : ∀ name, u.nfc name = [] → name = []
  expands : ∀ name, utf8Len (u.nfc name) ≤ 3 * utf8Len name

/-! ## What fits -/

section Fits

variable {u : Unicode} {segment : Name} {cut : Nat} {name : ValidatedName}

theorem utf8Len_le_length (name : Name) : utf8Len name ≤ 4 * name.length := by
  induction name with
  | nil => exact le_rfl
  | cons c rest ih =>
    rw [utf8Len_cons, length_cons]
    have hsize := c.utf8Size_le_four
    omega

theorem length_encodeChar_le (first last : Bool) (c : Char) : (encodeChar first last c).length ≤ 2 := by
  unfold encodeChar
  split
  · exact Nat.le_refl 2
  split
  · exact Nat.le_succ 1
  split
  · exact Nat.le_succ 1
  split
  · exact Nat.le_succ 1
  split
  · exact Nat.le_refl 2
  · exact Nat.le_succ 1

theorem length_encodeChars_le (first : Bool) (name : Name) : (encodeChars first name).length ≤ 2 * name.length := by
  induction name generalizing first with
  | nil => exact Nat.le_refl 0
  | cons c rest ih =>
    have hchar := length_encodeChar_le first rest.isEmpty c
    have hrest := ih false
    rw [encodeChars, length_append, length_cons]
    omega

theorem length_encodeNameRaw_le (name : Name) : (encodeNameRaw name).length ≤ 2 * name.length := by
  unfold encodeNameRaw
  split
  · rename_i heq
    rw [heq]
    decide
  split
  · rename_i heq
    rw [heq]
    decide
  split
  · rename_i heq
    rw [heq]
    decide
  split
  · rename_i heq
    rw [heq]
    decide
  split
  · rename_i heq
    rw [heq]
    decide
  split
  · split
    · exact Nat.le_refl 0
    unfold withFirstChar
    rw [length_cons, length_drop, length_cons]
    omega
  split
  · rename_i hreserved
    cases name with
    | nil => cases hreserved
    | cons c rest =>
      rw [length_cons, length_cons]
      omega
  · exact length_encodeChars_le true name

theorem Composing.encodeName_eq (hu : Composing u) (hne : segment ≠ []) :
    encodeName u.nfc segment =
      if maxBytes < utf8Len (encodeNameRaw (u.nfc segment)) then
        .error ⟨segment, .tooLong (utf8Len (encodeNameRaw (u.nfc segment)))⟩
      else .ok ⟨encodeNameRaw (u.nfc segment)⟩ := by
  have hnorm := Normalization.encodeName_eq ⟨u.nfc, u.nfc_idempotent, hu.encoded⟩ segment
  rw [hnorm, if_neg fun hnil => hne (hu.nonempty segment hnil)]

theorem Composing.fits_one (hu : Composing u) (hne : segment ≠ []) : ∃ name, fits u segment 1 = some name := by
  cases segment with
  | nil => exact absurd rfl hne
  | cons c rest =>
    unfold fits SourceName.parse
    rw [take_succ_cons, take_zero]
    cases parseName u.nfc [c] with
    | ok name => exact ⟨name, rfl⟩
    | error e =>
      have hexpands := hu.expands [c]
      have hsize := c.utf8Size_le_four
      have hlength := length_le_utf8Len (u.nfc [c])
      have hraw := length_encodeNameRaw_le (u.nfc [c])
      have hbytes := utf8Len_le_length (encodeNameRaw (u.nfc [c]))
      rw [utf8Len_cons, utf8Len_nil] at hexpands
      have hshort : ¬maxBytes < utf8Len (encodeNameRaw (u.nfc [c])) := by
        unfold maxBytes
        omega
      rw [hu.encodeName_eq (cons_ne_nil c []), if_neg hshort]
      exact ⟨_, rfl⟩

theorem Composing.fits_spec (hu : Composing u) (hne : segment.take cut ≠ []) (h : fits u segment cut = some name) :
    Validated u name ∧
      (name.text = u.nfc (segment.take cut) ∨ decodeName name.text = u.nfc (segment.take cut)) := by
  unfold fits at h
  cases hparse : SourceName.parse u (segment.take cut) with
  | error e =>
    rw [hparse] at h
    cases h
  | ok sourceName =>
    rw [hparse] at h
    cases h
    unfold SourceName.parse at hparse
    cases hname : parseName u.nfc (segment.take cut) with
    | ok valid =>
      rw [hname] at hparse
      cases hparse
      refine ⟨⟨_, hname⟩, Or.inl ?_⟩
      unfold parseName parseNameKind at hname
      cases hcheck : checkName (u.nfc (segment.take cut)) with
      | error kind =>
        rw [hcheck] at hname
        cases hname
      | ok found =>
        rw [hcheck] at hname
        cases hname
        exact (wellFormed_of_checkName hcheck).1
    | error e =>
      rw [hname] at hparse
      cases hencoded : encodeName u.nfc (segment.take cut) with
      | error e =>
        rw [hencoded] at hparse
        cases hparse
      | ok valid =>
        rw [hencoded] at hparse
        cases hparse
        refine ⟨?_, Or.inr ?_⟩
        · unfold encodeName at hencoded
          cases hraw : parseName u.nfc (encodeNameRaw (u.nfc (segment.take cut))) with
          | error e =>
            rw [hraw] at hencoded
            cases hencoded
          | ok found =>
            rw [hraw] at hencoded
            cases hencoded
            exact ⟨_, hraw⟩
        rw [hu.encodeName_eq hne] at hencoded
        split at hencoded
        · cases hencoded
        cases hencoded
        exact decodeName_encodeNameRaw _

/-! ## Shortening -/

/-- The longest proper beginning that fits. -/
structure LongestFit (u : Unicode) (segment : Name) (cut : Nat) : Prop where
  proper : 0 < cut ∧ cut < segment.length
  fits : (fits u segment cut).isSome = true
  longer : ∀ longer, cut < longer → longer < segment.length → Archive.fits u segment longer = none

/-- A segment's name is its own, its encoding, or that of its longest beginning that fits. -/
structure NamedWhole (u : Unicode) (segment : Name) : Prop where
  valid : ∀ name, parseName u.nfc segment = .ok name → segmentName u segment = some (name, false)
  encoded : ∀ e name, parseName u.nfc segment = .error e → encodeName u.nfc segment = .ok name →
    segmentName u segment = some (name, true)
  shortened : ∀ e e', parseName u.nfc segment = .error e → encodeName u.nfc segment = .error e' →
    ∃ cut name, LongestFit u segment cut ∧ shortenedAt u segment = some cut ∧
      Archive.fits u segment cut = some name ∧ segmentName u segment = some (name, true)

/-- The segment fits, or each beginning does that a bisection for the longest that fits tries
on the way there, of the shorter ones. -/
def ProbesFit (u : Unicode) (segment : Name) : Prop :=
  (∃ name, SourceName.parse u segment = .ok name) ∨
    ∀ cut, LongestFit u segment cut →
      ∀ mid ∈ probes (cut - 1) (segment.length - 1) 0 (segment.length - 1), mid + 1 ≤ cut →
        (fits u segment (mid + 1)).isSome = true

theorem Composing.longestFit (hu : Composing u) (hne : segment ≠ []) {e : EntryNameError}
    (hparse : SourceName.parse u segment = .error e) : ∃ cut, LongestFit u segment cut := by
  obtain ⟨first, hfirst⟩ := hu.fits_one hne
  have hlong : 1 < segment.length := by
    rcases lt_or_ge 1 segment.length with hlt | hle
    · exact hlt
    unfold fits at hfirst
    rw [take_of_length_le hle, hparse] at hfirst
    cases hfirst
  have hgreatest := @Nat.findGreatest_spec 1 (fun cut => (fits u segment cut).isSome) _ (segment.length - 1)
    (Nat.le_sub_one_of_lt hlong) (by rw [hfirst]; rfl)
  have hone := @Nat.le_findGreatest 1 (fun cut => (fits u segment cut).isSome) _ (segment.length - 1)
    (Nat.le_sub_one_of_lt hlong) (by rw [hfirst]; rfl)
  have hle := @Nat.findGreatest_le (fun cut => (fits u segment cut).isSome) _ (segment.length - 1)
  refine ⟨_, ⟨hone, by omega⟩, hgreatest, fun longer hlt hbound => ?_⟩
  have hnot := Nat.findGreatest_is_greatest hlt (Nat.le_sub_one_of_lt hbound)
  exact Option.not_isSome_iff_eq_none.mp hnot

theorem getElem?_cuts (segment : Name) (i : Nat) :
    ((List.range segment.length).drop 1)[i]? = if i < segment.length - 1 then some (i + 1) else none := by
  rw [getElem?_drop]
  split
  · rw [getElem?_range (by omega), Nat.add_comm]
  · exact getElem?_eq_none (by rw [length_range]; omega)

theorem LongestFit.unique {other : Nat} (h : LongestFit u segment cut) (h' : LongestFit u segment other) :
    cut = other := by
  rcases Nat.lt_trichotomy cut other with hlt | heq | hlt
  · have hfits := h'.fits
    rw [h.longer other hlt h'.proper.2] at hfits
    cases hfits
  · exact heq
  have hfits := h.fits
  rw [h'.longer cut hlt h.proper.2] at hfits
  cases hfits

/-- A segment that does not fit is cut where some beginning of it ends that does, and that is
the longest just where each that is tried on the way there fits. -/
theorem Composing.shortenedAt (hu : Composing u) (hne : segment ≠ []) {longest : Nat}
    (hlongest : LongestFit u segment longest) :
    (∃ cut, shortenedAt u segment = some cut ∧ (fits u segment cut).isSome ∧ 0 < cut) ∧
      (shortenedAt u segment = some longest ↔
        ∀ mid ∈ probes (longest - 1) (segment.length - 1) 0 (segment.length - 1), mid + 1 ≤ longest →
          (fits u segment (mid + 1)).isSome) := by
  obtain ⟨hpos, hlt⟩ := hlongest.proper
  have hlength : ((List.range segment.length).drop 1).length = segment.length - 1 := by
    rw [length_drop, length_range]
  have hplace : ∀ i, i < segment.length - 1 →
      (((List.range segment.length).drop 1)[i]?.any fun cut => (fits u segment cut).isSome) =
        (fits u segment (i + 1)).isSome := by
    intro i hi
    rw [getElem?_cuts, if_pos hi]
    rfl
  have hfirst : (((List.range segment.length).drop 1)[0]?.any fun cut => (fits u segment cut).isSome) := by
    obtain ⟨name, hname⟩ := hu.fits_one hne
    rw [hplace 0 (by omega), hname]
    rfl
  unfold Archive.shortenedAt
  dsimp only
  rw [hlength]
  obtain ⟨last, hlast, hpoint, hholds⟩ := @partitionPoint_behind
    (fun i => ((List.range segment.length).drop 1)[i]?.any fun cut => (fits u segment cut).isSome)
    (segment.length - 1) (by omega) hfirst
  rw [hplace last hlast] at hholds
  have hiff := @partitionPoint_eq_iff
    (fun i => ((List.range segment.length).drop 1)[i]?.any fun cut => (fits u segment cut).isSome)
    (longest - 1) (segment.length - 1) hfirst (by omega)
    (by rw [hplace _ (by omega), Nat.sub_add_cancel hpos]; exact hlongest.fits)
    fun i hi hbound => by
      rw [hplace i hbound, hlongest.longer (i + 1) (by omega) (by omega)]
      rfl
  rw [hpoint] at hiff ⊢
  dsimp only
  rw [getElem?_cuts, if_pos hlast]
  refine ⟨⟨last + 1, rfl, hholds, Nat.succ_pos last⟩, ?_⟩
  rw [Option.some_inj, ← Nat.sub_add_cancel hpos, hiff, Nat.add_sub_cancel, Nat.sub_add_cancel hpos]
  refine forall_congr' fun mid => forall_congr' fun hmid => ?_
  constructor
  · intro h hle
    rw [← hplace mid (by omega)]
    exact h (by omega)
  intro h hle
  rw [hplace mid (by omega)]
  exact h (by omega)

theorem Composing.segmentName_isSome (hu : Composing u) (hne : segment ≠ []) :
    ∃ name rewritten, segmentName u segment = some (name, rewritten) := by
  unfold segmentName
  cases hparse : SourceName.parse u segment with
  | ok sourceName =>
    cases sourceName with
    | valid name => exact ⟨name, false, rfl⟩
    | encoded name => exact ⟨name, true, rfl⟩
  | error e =>
    obtain ⟨longest, hlongest⟩ := hu.longestFit hne hparse
    obtain ⟨⟨cut, hcut, hfits, -⟩, -⟩ := hu.shortenedAt hne hlongest
    obtain ⟨name, hname⟩ := Option.isSome_iff_exists.mp hfits
    rw [hcut, Option.bind_some, hname]
    exact ⟨name, true, rfl⟩

/-- A segment is named as a whole, or by its longest beginning that fits, just where the
beginnings tried on the way to that one fit. -/
theorem Composing.namedWhole_iff (hu : Composing u) (hne : segment ≠ []) :
    NamedWhole u segment ↔ ProbesFit u segment := by
  cases hparse : SourceName.parse u segment with
  | ok sourceName =>
    refine ⟨fun _ => Or.inl ⟨sourceName, hparse⟩, fun _ => ?_⟩
    unfold SourceName.parse at hparse
    refine ⟨fun name hname => ?_, fun e name hname hencoded => ?_, fun e e' hname hencoded => ?_⟩
    · unfold segmentName SourceName.parse
      rw [hname]
    · unfold segmentName SourceName.parse
      rw [hname]
      rw [hencoded]
      rfl
    rw [hname] at hparse
    rw [hencoded] at hparse
    cases hparse
  | error e =>
    obtain ⟨longest, hlongest⟩ := hu.longestFit hne hparse
    obtain ⟨-, hiff⟩ := hu.shortenedAt hne hlongest
    have herrors : ∃ e e', parseName u.nfc segment = .error e ∧ encodeName u.nfc segment = .error e' := by
      unfold SourceName.parse at hparse
      cases hname : parseName u.nfc segment with
      | ok name =>
        rw [hname] at hparse
        cases hparse
      | error e =>
        rw [hname] at hparse
        cases hencoded : encodeName u.nfc segment with
        | ok name =>
          rw [hencoded] at hparse
          cases hparse
        | error e' => exact ⟨e, e', rfl, rfl⟩
    obtain ⟨e₁, e₂, hname, hencoded⟩ := herrors
    constructor
    · intro h
      obtain ⟨cut, name, hcut, hat, -⟩ := h.shortened e₁ e₂ hname hencoded
      refine Or.inr fun other hother => ?_
      cases hlongest.unique hother
      cases hlongest.unique hcut
      exact hiff.mp hat
    rintro (⟨name, hok⟩ | hprobes)
    · rw [hparse] at hok
      cases hok
    have hat := hiff.mpr (hprobes longest hlongest)
    obtain ⟨name, hfits⟩ := Option.isSome_iff_exists.mp hlongest.fits
    refine ⟨fun other hok => ?_, fun _ other _ hok => ?_, fun _ _ _ _ =>
      ⟨longest, name, hlongest, hat, hfits, ?_⟩⟩
    · rw [hname] at hok
      cases hok
    · rw [hencoded] at hok
      cases hok
    unfold segmentName
    rw [hparse]
    rw [hat, Option.bind_some, hfits]
    rfl

/-! ## Paths -/

/-- A name stands for a stored component, or for a beginning of it. -/
def NameOf (u : Unicode) (name : ValidatedName) (component : Name) : Prop :=
  Validated u name ∧ ∃ kept, kept ≠ [] ∧ kept <+: component ∧
    (name.text = u.nfc kept ∨ decodeName name.text = u.nfc kept)

theorem Composing.nameOf (hu : Composing u) (hne : segment ≠ []) {rewritten : Bool}
    (h : segmentName u segment = some (name, rewritten)) : NameOf u name segment := by
  have hcut : ∃ cut, 0 < cut ∧ fits u segment cut = some name := by
    unfold segmentName at h
    cases hparse : SourceName.parse u segment with
    | ok sourceName =>
      have hwhole : fits u segment segment.length = some sourceName.intoName := by
        unfold fits
        rw [take_length, hparse]
      rw [hparse] at h
      refine ⟨segment.length, length_pos_iff.mpr hne, ?_⟩
      cases sourceName with
      | valid found | encoded found =>
        cases h
        exact hwhole
    | error e =>
      rw [hparse] at h
      obtain ⟨found, hfound, heq⟩ := Option.map_eq_some_iff.mp h
      cases heq
      obtain ⟨cut, hat, hfits⟩ := Option.bind_eq_some_iff.mp hfound
      refine ⟨cut, ?_, hfits⟩
      unfold Archive.shortenedAt at hat
      dsimp only at hat
      split at hat
      · cases hat
      rw [getElem?_cuts] at hat
      split at hat
      · cases hat
        exact Nat.succ_pos _
      · cases hat
  obtain ⟨cut, hpos, hfits⟩ := hcut
  have hkept : segment.take cut ≠ [] := by
    intro hnil
    rcases take_eq_nil_iff.mp hnil with hzero | hempty
    · exact absurd hzero (ne_of_gt hpos)
    · exact hne hempty
  obtain ⟨hvalid, htext⟩ := hu.fits_spec hkept hfits
  exact ⟨hvalid, segment.take cut, hkept, take_prefix cut segment, htext⟩

theorem Composing.nameOf_each (hu : Composing u) {parts : List Name} (hne : ∀ part ∈ parts, part ≠ [])
    {names : List ValidatedName} {rewritten : Bool} (h : segmentNames u parts = some (names, rewritten)) :
    List.Forall₂ (NameOf u) names parts := by
  induction parts generalizing names rewritten with
  | nil =>
    cases h
    exact List.Forall₂.nil
  | cons part parts ih =>
    obtain ⟨hpart, hrest⟩ := forall_mem_cons.mp hne
    unfold segmentNames at h
    cases hname : segmentName u part with
    | none =>
      rw [hname] at h
      cases h
    | some found =>
      rw [hname] at h
      obtain ⟨rest, hnames, heq⟩ := Option.map_eq_some_iff.mp h
      cases heq
      exact List.Forall₂.cons (hu.nameOf hpart hname) (ih hrest hnames)

theorem Composing.entryPath (hu : Composing u) {raw : Name} {path : ArchivePath} (h : entryPath u raw = .ok path) :
    ∃ components, components.Sublist (pathParts raw) ∧
      (∀ component ∈ components, component ≠ [] ∧ component ≠ ['.'] ∧ component ≠ ['.', '.']) ∧
      List.Forall₂ (NameOf u) path.segments components := by
  unfold Archive.entryPath at h
  split at h
  · cases h
  dsimp only at h
  have hsub : (relativeParts (pathParts raw)).2.Sublist (pathParts raw) := by
    unfold relativeParts
    dsimp only
    split
    · exact drop_sublist _ _
    split
    · exact drop_sublist _ _
    · exact List.Sublist.refl _
  have hkept : ∀ part ∈ (relativeParts (pathParts raw)).2.filter (fun part => !part.isEmpty && part ≠ ['.']),
      part ≠ [] ∧ part ≠ ['.'] := by
    intro part hmem
    obtain ⟨hnonempty, hnotdot⟩ := Bool.and_eq_true_iff.mp (mem_filter.mp hmem).2
    refine ⟨?_, of_decide_eq_true hnotdot⟩
    rintro rfl
    cases hnonempty
  split at h
  · cases h
  split at h
  · cases h
  rename_i hclimbs
  split at h
  · cases h
  split at h
  · cases h
  rename_i segments rewritten hnames
  cases h
  refine ⟨_, filter_sublist.trans hsub, fun part hmem => ?_,
    hu.nameOf_each (fun part hmem => (hkept part hmem).1) hnames⟩
  refine ⟨(hkept part hmem).1, (hkept part hmem).2, ?_⟩
  rintro rfl
  exact hclimbs hmem

/-- Every segment gets a name. That is its own, its encoding or that of the longest beginning
that fits just where the beginnings a bisection tries on the way to that one fit. A path is
refused, or has the names of some of its components in order, none of which climbs. -/
theorem segment_named_whole_iff (hu : Composing u) :
    (∀ segment, segment ≠ [] → (∃ name rewritten, segmentName u segment = some (name, rewritten)) ∧
      (NamedWhole u segment ↔ ProbesFit u segment)) ∧
    ∀ raw path, Archive.entryPath u raw = .ok path →
      1 ≤ path.segments.length ∧ path.segments.length ≤ maxArchivePathDepth ∧
      ∃ components, components.Sublist (pathParts raw) ∧
        (∀ component ∈ components, component ≠ [] ∧ component ≠ ['.'] ∧ component ≠ ['.', '.']) ∧
        List.Forall₂ (NameOf u) path.segments components :=
  ⟨fun _ hne => ⟨hu.segmentName_isSome hne, hu.namedWhole_iff hne⟩, fun _ path h =>
    ⟨length_pos_iff.mpr path.nonempty, path.deep, hu.entryPath h⟩⟩

end Fits

def composedUnicode : Unicode where
  nfc name := name
  lower name := name.map Char.toLower
  nfc_idempotent _ := rfl
  nfc_part _ _ _ _ := rfl
  nfc_char _ _ := rfl
  nfc_join _ _ _ _ _ _ := rfl
  lower_counter := map_toLower_counter

theorem composing_composedUnicode : Composing composedUnicode where
  encoded _ _ := rfl
  nonempty _ h := h
  expands name := Nat.le_mul_of_pos_left (utf8Len name) (by decide)

def dottedSegment : Name := List.replicate 253 'a' ++ '.' :: 'b' :: List.replicate 4 'a'

theorem dotted_cut_short :
    segmentName composedUnicode dottedSegment = some (⟨List.replicate 253 'a'⟩, true) ∧
      fits composedUnicode dottedSegment 255 = some ⟨List.replicate 253 'a' ++ ['.', 'b']⟩ ∧
      ¬NamedWhole composedUnicode dottedSegment := by
  have hname : segmentName composedUnicode dottedSegment = some (⟨List.replicate 253 'a'⟩, true) := by
    decide +kernel
  have hfits : fits composedUnicode dottedSegment 255 = some ⟨List.replicate 253 'a' ++ ['.', 'b']⟩ := by
    decide +kernel
  have hparse : parseName composedUnicode.nfc dottedSegment = .error ⟨dottedSegment, .tooLong 259⟩ := by
    decide +kernel
  have hencode : encodeName composedUnicode.nfc dottedSegment = .error ⟨dottedSegment, .tooLong 259⟩ := by
    decide +kernel
  have hat : shortenedAt composedUnicode dottedSegment = some 253 := by
    decide +kernel
  have hlength : 255 < dottedSegment.length := by
    decide +kernel
  refine ⟨hname, hfits, fun h => ?_⟩
  obtain ⟨cut, name, hlongest, hcut, -⟩ := h.shortened _ _ hparse hencode
  rw [hat] at hcut
  cases hcut
  have hlonger := hlongest.longer 255 (by decide) hlength
  rw [hfits] at hlonger
  cases hlonger

/-- A name the drive refuses, and a path with a part that is dropped. -/
theorem segment_named_whole_colon :
    NamedWhole composedUnicode ['a', ':', 'b'] ∧
      ∃ path, entryPath composedUnicode "./a:b".toList = .ok path ∧ 1 ≤ path.segments.length := by
  obtain ⟨hsegments, hpaths⟩ := segment_named_whole_iff composing_composedUnicode
  have hok : (entryPath composedUnicode "./a:b".toList).toOption.isSome := by
    decide +kernel
  have hparse : SourceName.parse composedUnicode ['a', ':', 'b'] = .ok (.encoded ⟨['a', '\uff1a', 'b']⟩) := by
    decide +kernel
  refine ⟨((hsegments ['a', ':', 'b'] (cons_ne_nil _ _)).2).mpr (Or.inl ⟨_, hparse⟩), ?_⟩
  cases hpath : entryPath composedUnicode "./a:b".toList with
  | error rejection =>
    rw [hpath] at hok
    cases hok
  | ok path => exact ⟨path, rfl, (hpaths _ path hpath).1⟩

end SyncEngine.Archive
