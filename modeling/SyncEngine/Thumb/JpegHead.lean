import SyncEngine.Thumb.Tiff

/-! # What a JPEG's leading segments say

The frame header of a JPEG over a bounded prefix of its bytes, and where an EXIF segment
could go. The prefix may stop anywhere.
-/

namespace SyncEngine.Thumb

open Collections List

inductive Scan where
  /-- The bytes ran out before the frame; more of them may help. -/
  | truncated
  | malformed
  deriving DecidableEq, Repr

structure JpegHead where
  w : Nat
  h : Nat
  precision : Nat
  components : Nat
  /-- Where an EXIF segment may be spliced into the stream. -/
  exifInsertAt : Option Nat
  /-- The orientation the stream's own EXIF segment declares. -/
  streamOrientation : Option Nat
  deriving DecidableEq, Repr

/-- Fill bytes apart, the markers that carry no payload: TEM, RSTn and a stray SOI. -/
def bareMarker (marker : Nat) : Prop := marker = 0x01 ∨ (0xD0 ≤ marker ∧ marker ≤ 0xD8)

/-- The frames a general-purpose decoder handles. -/
def decodableFrame (marker : Nat) : Prop := 0xC0 ≤ marker ∧ marker ≤ 0xC2

/-- Any other frame: lossless, differential, arithmetic. -/
def otherFrame (marker : Nat) : Prop :=
  marker = 0xC3 ∨ (0xC5 ≤ marker ∧ marker ≤ 0xC7) ∨ (0xC9 ≤ marker ∧ marker ≤ 0xCB) ∨
    (0xCD ≤ marker ∧ marker ≤ 0xCF)

/-- Entropy-coded data or the end of the image. -/
def scanOrEnd (marker : Nat) : Prop := marker = 0xD9 ∨ marker = 0xDA

instance (marker : Nat) : Decidable (bareMarker marker) := by unfold bareMarker; infer_instance
instance (marker : Nat) : Decidable (decodableFrame marker) := by unfold decodableFrame; infer_instance
instance (marker : Nat) : Decidable (otherFrame marker) := by unfold otherFrame; infer_instance
instance (marker : Nat) : Decidable (scanOrEnd marker) := by unfold scanOrEnd; infer_instance

inductive Found where
  | short
  | malformed
  | fill
  | bare
  | frame (w h precision components : Nat)
  | segment (marker len : Nat)
  deriving DecidableEq, Repr

def frameAt (data : List UInt8) (at' : Nat) : Found :=
  match (data.drop (at' + 4)).take 6 with
  | [precision, h1, h2, w1, w2, components] =>
    if u16Of .big w1 w2 = 0 ∨ u16Of .big h1 h2 = 0 then .malformed
    else .frame (u16Of .big w1 w2) (u16Of .big h1 h2) precision.toNat components.toNat
  | _ => .short

/-- What stands at a place, by the four bytes there and the frame header if it is one. -/
def foundBy (lead marker high low : UInt8) (frame : Found) : Found :=
  if lead ≠ 0xFF then .malformed
  else if marker = 0xFF then .fill
  else if bareMarker marker.toNat then .bare
  else if scanOrEnd marker.toNat then .malformed
  else if u16Of .big high low < 2 then .malformed
  else if otherFrame marker.toNat then .malformed
  else if decodableFrame marker.toNat then frame
  else .segment marker.toNat (u16Of .big high low)

def foundAt (data : List UInt8) (at' : Nat) : Found :=
  match (data.drop at').take 4 with
  | [lead, marker, high, low] => foundBy lead marker high low (frameAt data at')
  | _ => .short

def exifLead : List UInt8 := [0x45, 0x78, 0x69, 0x66, 0, 0]

/-- The TIFF payload of a segment at a place, if it is an EXIF segment and wholly there. -/
def exifPayload (data : List UInt8) (at' marker len : Nat) : Option (List UInt8) :=
  if marker = 0xE1 ∧ at' + 2 + len ≤ data.length then
    ((data.drop (at' + 4)).take (len - 2)).dropPrefix? exifLead
  else none

structure Learnt where
  exifInsertAt : Option Nat
  streamOrientation : Option Nat
  firstSegment : Bool

def Learnt.segment (learnt : Learnt) (data : List UInt8) (at' marker len : Nat) : Learnt :=
  if marker = 0xE0 ∧ learnt.firstSegment then
    { learnt with exifInsertAt := some (at' + 2 + len), firstSegment := false }
  else
    match exifPayload data at' marker len with
    | some tiff => ⟨none, some (exifOrientation tiff), false⟩
    | none => { learnt with firstSegment := false }

def MAX_SEGMENT : Nat := 65535

/-- Scan the leading bytes for the frame, from one place on. No sum of a round goes further
than the end of the longest segment. -/
def sofFrom (data : List UInt8) (at' : Nat) (learnt : Learnt) : Outcome Scan JpegHead :=
  if 2 ^ 64 ≤ MAX_SEGMENT + (at' + 2) then .faulted .overflow
  else if at' + 4 ≤ data.length then
    match foundAt data at' with
    | .short => .failed .truncated
    | .malformed => .failed .malformed
    | .fill => sofFrom data (at' + 1) learnt
    | .bare => sofFrom data (at' + 2) learnt
    | .frame w h precision components =>
      .done { w, h, precision, components,
              exifInsertAt := learnt.exifInsertAt.filter fun p => p < 2 ^ 16,
              streamOrientation := learnt.streamOrientation }
    | .segment marker len => sofFrom data (at' + (2 + len)) (learnt.segment data at' marker len)
  else .failed .truncated
termination_by data.length - at'
decreasing_by
  all_goals omega

def jpegSof (data : List UInt8) : Outcome Scan JpegHead := sofFrom data 2 ⟨some 2, none, true⟩

/-! ## A prefix concludes nothing more bytes would contradict -/

section Prefixes

variable {data whole : List UInt8}

theorem stretch_of_front (h : data <+: whole) (off len : Nat) :
    (data.drop off).take len = (whole.drop off).take len ∨ ((data.drop off).take len).length < len := by
  by_cases hlong : off + len ≤ data.length
  · left
    obtain ⟨more, rfl⟩ := h
    rw [drop_append_of_le_length (by omega), take_append_of_le_length (by rw [length_drop]; omega)]
  rcases eq_zero_or_pos len with rfl | hpos
  · exact Or.inl rfl
  right
  rw [length_take, length_drop]
  omega

theorem frameAt_of_front (h : data <+: whole) (at' : Nat) :
    frameAt data at' = .short ∨ frameAt data at' = frameAt whole at' := by
  unfold frameAt
  rcases stretch_of_front h (at' + 4) 6 with hsame | hshort
  · rw [hsame]
    exact Or.inr rfl
  left
  match (data.drop (at' + 4)).take 6, hshort with
  | [], _ | [_], _ | [_, _], _ | [_, _, _], _ | [_, _, _, _], _ | [_, _, _, _, _], _ => rfl

theorem foundBy_cases (lead marker high low : UInt8) :
    (∀ frame, foundBy lead marker high low frame = frame) ∨
      ∃ found, ∀ frame, foundBy lead marker high low frame = found := by
  unfold foundBy
  split
  · exact Or.inr ⟨_, fun _ => rfl⟩
  split
  · exact Or.inr ⟨_, fun _ => rfl⟩
  split
  · exact Or.inr ⟨_, fun _ => rfl⟩
  split
  · exact Or.inr ⟨_, fun _ => rfl⟩
  split
  · exact Or.inr ⟨_, fun _ => rfl⟩
  split
  · exact Or.inr ⟨_, fun _ => rfl⟩
  split
  · exact Or.inl fun _ => rfl
  · exact Or.inr ⟨_, fun _ => rfl⟩

theorem foundAt_of_front (h : data <+: whole) (at' : Nat) :
    foundAt data at' = .short ∨ foundAt data at' = foundAt whole at' := by
  unfold foundAt
  rcases stretch_of_front h at' 4 with hsame | hshort
  · rw [hsame]
    split
    · rcases foundBy_cases _ _ _ _ with hframe | ⟨found, hfound⟩
      · rw [hframe, hframe]
        exact frameAt_of_front h at'
      rw [hfound, hfound]
      exact Or.inr rfl
    · exact Or.inl rfl
  left
  match (data.drop at').take 4, hshort with
  | [], _ | [_], _ | [_, _], _ | [_, _, _], _ => rfl

variable {at' marker : Nat} {learnt : Learnt}

theorem segment_of_front (h : data <+: whole) {len : Nat} (hend : at' + 2 + len ≤ data.length)
    (learnt : Learnt) : learnt.segment data at' marker len = learnt.segment whole at' marker len := by
  have hwhole : at' + 2 + len ≤ whole.length := le_trans hend h.length_le
  have hpayload : exifPayload data at' marker len = exifPayload whole at' marker len := by
    unfold exifPayload
    simp only [hend, hwhole]
    rcases stretch_of_front h (at' + 4) (len - 2) with hsame | hshort
    · rw [hsame]
    rw [length_take, length_drop] at hshort
    omega
  unfold Learnt.segment
  rw [hpayload]

theorem sofFrom_past (hpast : data.length < at' + 4) (learnt : Learnt) :
    sofFrom data at' learnt = if 2 ^ 64 ≤ MAX_SEGMENT + (at' + 2) then .faulted .overflow else .failed .truncated := by
  unfold sofFrom
  rw [if_neg (Nat.not_le_of_lt hpast)]

theorem foundAt_of_found (h : data <+: whole) {found : Found} (hfound : foundAt data at' = found)
    (hlong : found ≠ .short) : foundAt whole at' = found := by
  rcases foundAt_of_front h at' with hshort | hsame
  · exact (hlong (hfound.symm.trans hshort)).elim
  · exact hsame.symm.trans hfound

theorem sofFrom_segment {len : Nat} (hnear : ¬ 2 ^ 64 ≤ MAX_SEGMENT + (at' + 2))
    (hlong : at' + 4 ≤ data.length) (hfound : foundAt data at' = .segment marker len) :
    sofFrom data at' learnt = sofFrom data (at' + (2 + len)) (learnt.segment data at' marker len) := by
  conv_lhs => unfold sofFrom
  rw [if_neg hnear, if_pos hlong, hfound]

theorem sofFrom_of_front (h : data <+: whole)
    (hends : sofFrom data at' learnt ≠ .failed .truncated) : sofFrom whole at' learnt = sofFrom data at' learnt := by
  induction at', learnt using sofFrom.induct data with
  | case1 at' learnt hfar =>
    unfold sofFrom
    rw [if_pos hfar, if_pos hfar]
  | case2 at' learnt hnear hlong hshort =>
    unfold sofFrom at hends
    rw [if_neg hnear, if_pos hlong, hshort] at hends
    exact (hends rfl).elim
  | case3 at' learnt hnear hlong hfound =>
    have hlonger : at' + 4 ≤ whole.length := le_trans hlong h.length_le
    have hwhole := foundAt_of_found h hfound nofun
    unfold sofFrom
    rw [if_neg hnear, if_neg hnear, if_pos hlong, if_pos hlonger, hfound, hwhole]
  | case4 at' learnt hnear hlong hfound ih | case5 at' learnt hnear hlong hfound ih =>
    have hlonger : at' + 4 ≤ whole.length := le_trans hlong h.length_le
    have hwhole := foundAt_of_found h hfound nofun
    unfold sofFrom at hends ⊢
    rw [if_neg hnear, if_pos hlong, hfound] at hends
    rw [if_neg hnear, if_neg hnear, if_pos hlong, if_pos hlonger, hfound, hwhole]
    exact ih hends
  | case6 at' learnt hnear hlong w height precision components hfound =>
    have hlonger : at' + 4 ≤ whole.length := le_trans hlong h.length_le
    have hwhole := foundAt_of_found h hfound nofun
    unfold sofFrom
    rw [if_neg hnear, if_neg hnear, if_pos hlong, if_pos hlonger, hfound, hwhole]
  | case7 at' learnt hnear hlong marker len hfound ih =>
    have hlonger : at' + 4 ≤ whole.length := le_trans hlong h.length_le
    have hwhole := foundAt_of_found h hfound nofun
    rw [sofFrom_segment hnear hlong hfound] at hends ⊢
    rw [sofFrom_segment hnear hlonger hwhole]
    by_cases hend : at' + 2 + len ≤ data.length
    · rw [← segment_of_front h hend]
      exact ih hends
    -- The segment is cut off, so the prefix cannot have gone on behind it.
    have hpast : data.length < at' + (2 + len) + 4 := by omega
    rw [sofFrom_past hpast] at hends ⊢
    split at hends
    · rename_i hfar
      unfold sofFrom
      rw [if_pos hfar, if_pos hfar]
    · exact (hends rfl).elim
  | case8 at' learnt hnear hshort =>
    rw [sofFrom_past (Nat.lt_of_not_le hshort), if_neg hnear] at hends
    exact (hends rfl).elim

theorem jpegSof_of_front (h : data <+: whole) (hends : jpegSof data ≠ .failed .truncated) :
    jpegSof whole = jpegSof data := sofFrom_of_front h hends

end Prefixes

/-! ## What a head says of the bytes -/

/-- A segment before the frame: where its marker is, and the length behind it. -/
structure Segment where
  at' : Nat
  marker : Nat
  len : Nat

/-- A marker that starts a segment with a length. -/
def segmentMarker (m : Nat) : Prop :=
  ¬ otherFrame m ∧ ¬ decodableFrame m ∧ ¬ scanOrEnd m ∧ ¬ bareMarker m ∧ m ≠ 0xFF

def markerAt (data : List UInt8) (p : Nat) : Option Nat :=
  match data[p]?, data[p + 1]? with
  | some lead, some marker => if lead = 0xFF then some marker.toNat else none
  | _, _ => none

/-- From a place the stream leads over segments to a frame a decoder handles, without
another frame, a scan or the end on the way. -/
inductive Leads (data : List UInt8) : Nat → List Segment → Nat → Prop where
  | frame {p m : Nat} (hm : markerAt data p = some m) (hframe : decodableFrame m) : Leads data p [] p
  | fill {p sof : Nat} {segments : List Segment} (hm : markerAt data p = some 0xFF)
      (hrest : Leads data (p + 1) segments sof) : Leads data p segments sof
  | bare {p m sof : Nat} {segments : List Segment} (hm : markerAt data p = some m) (hbare : bareMarker m)
      (hrest : Leads data (p + 2) segments sof) : Leads data p segments sof
  | segment {p m len sof : Nat} {segments : List Segment} (hm : markerAt data p = some m)
      (hmarker : segmentMarker m) (hlen : u16At data (p + 2) .big = some len)
      (hrest : Leads data (p + (2 + len)) segments sof) : Leads data p (⟨p, m, len⟩ :: segments) sof

theorem Leads.le {data : List UInt8} {p sof : Nat} {segments : List Segment} (h : Leads data p segments sof) :
    p ≤ sof := by
  induction h with
  | frame => exact le_rfl
  | fill _ _ ih => omega
  | bare _ _ _ ih => omega
  | segment _ _ _ _ ih => omega

/-- The segment carries EXIF. -/
def Segment.IsExif (data : List UInt8) (segment : Segment) : Prop :=
  segment.marker = 0xE1 ∧
    exifLead <+: (data.drop (segment.at' + 4)).take (segment.len - 2)

/-- The head is what the stream's frame says, and the place for an EXIF segment is free. -/
structure JpegHead.Describes (data : List UInt8) (head : JpegHead) (segments : List Segment) (sof : Nat) : Prop where
  leads : Leads data 2 segments sof
  height : u16At data (sof + 5) .big = some head.h
  width : u16At data (sof + 7) .big = some head.w
  nonzero : 0 < head.w ∧ 0 < head.h
  inserted : ∀ p, head.exifInsertAt = some p →
    (p = 2 ∨ ∃ segment, segments.head? = some segment ∧ segment.marker = 0xE0 ∧ p = segment.at' + 2 + segment.len) ∧
      p ≤ sof ∧ ∀ segment ∈ segments, ¬ segment.IsExif data

section Described

variable {data : List UInt8}

theorem getElem?_stretch (off len i : Nat) (hi : i < len) : ((data.drop off).take len)[i]? = data[off + i]? := by
  rw [getElem?_take_of_lt hi, getElem?_drop]

variable {p : Nat} {found : Found} {marker len at' : Nat} {learnt : Learnt} {head : JpegHead}

theorem frameAt_inv (h : frameAt data p = found) (hwell : found ≠ .malformed) (hlong : found ≠ .short) :
    ∃ w height precision components, found = .frame w height precision components ∧
      u16At data (p + 5) .big = some height ∧ u16At data (p + 7) .big = some w ∧ 0 < w ∧ 0 < height := by
  unfold frameAt at h
  split at h
  · rename_i precision h1 h2 w1 w2 components hbytes
    split at h
    · exact (hwell h.symm).elim
    rename_i hzero
    rw [not_or] at hzero
    have hat : ∀ i, i < 6 → data[p + 4 + i]? = [precision, h1, h2, w1, w2, components][i]? := by
      intro i hi
      rw [← hbytes, getElem?_stretch _ _ _ hi]
    refine ⟨_, _, _, _, h.symm, ?_, ?_, Nat.pos_of_ne_zero hzero.1, Nat.pos_of_ne_zero hzero.2⟩
    · have hfirst : data[p + 5]? = some h1 := hat 1 (by decide)
      have hsecond : data[p + 5 + 1]? = some h2 := hat 2 (by decide)
      unfold u16At
      rw [hfirst, hsecond]
    have hfirst : data[p + 7]? = some w1 := hat 3 (by decide)
    have hsecond : data[p + 7 + 1]? = some w2 := hat 4 (by decide)
    unfold u16At
    rw [hfirst, hsecond]
  · exact (hlong h.symm).elim

theorem foundBy_inv {lead marker high low : UInt8} {frame : Found}
    (h : foundBy lead marker high low frame = found) (hwell : found ≠ .malformed) :
    lead = 0xFF ∧ ((marker = 0xFF ∧ found = .fill) ∨ (bareMarker marker.toNat ∧ found = .bare) ∨
      (decodableFrame marker.toNat ∧ frame = found) ∨
      (segmentMarker marker.toNat ∧ found = .segment marker.toNat (u16Of .big high low))) := by
  unfold foundBy at h
  split at h
  · exact (hwell h.symm).elim
  rename_i hlead
  refine ⟨not_not.mp hlead, ?_⟩
  split at h
  · exact Or.inl ⟨by assumption, h.symm⟩
  rename_i hfill
  split at h
  · exact Or.inr (Or.inl ⟨by assumption, h.symm⟩)
  rename_i hbare
  split at h
  · exact (hwell h.symm).elim
  rename_i hscan
  split at h
  · exact (hwell h.symm).elim
  split at h
  · exact (hwell h.symm).elim
  rename_i hother
  split at h
  · exact Or.inr (Or.inr (Or.inl ⟨by assumption, h⟩))
  rename_i hframe
  have hne : marker.toNat ≠ 0xFF := fun heq => hfill (UInt8.toNat_inj.mp heq)
  exact Or.inr (Or.inr (Or.inr ⟨⟨hother, hframe, hscan, hbare, hne⟩, h.symm⟩))

theorem foundAt_inv (h : foundAt data p = found) (hwell : found ≠ .malformed) (hlong : found ≠ .short) :
    ∃ m, markerAt data p = some m ∧ ((m = 0xFF ∧ found = .fill) ∨ (bareMarker m ∧ found = .bare) ∨
      (decodableFrame m ∧ frameAt data p = found) ∨
      (segmentMarker m ∧ ∃ len, u16At data (p + 2) .big = some len ∧ found = .segment m len)) := by
  unfold foundAt at h
  split at h
  · rename_i lead marker high low hbytes
    have hat : ∀ i, i < 4 → data[p + i]? = [lead, marker, high, low][i]? := by
      intro i hi
      rw [← hbytes, getElem?_stretch _ _ _ hi]
    have hfirst : data[p]? = some lead := hat 0 (by decide)
    have hsecond : data[p + 1]? = some marker := hat 1 (by decide)
    have hthird : data[p + 2]? = some high := hat 2 (by decide)
    have hfourth : data[p + 2 + 1]? = some low := hat 3 (by decide)
    obtain ⟨rfl, hcases⟩ := foundBy_inv h hwell
    refine ⟨marker.toNat, ?_, ?_⟩
    · unfold markerAt
      rw [hfirst, hsecond]
      rfl
    rcases hcases with ⟨rfl, hfill⟩ | hbare | hframe | ⟨hsegment, hlen⟩
    · exact Or.inl ⟨rfl, hfill⟩
    · exact Or.inr (Or.inl hbare)
    · exact Or.inr (Or.inr (Or.inl hframe))
    refine Or.inr (Or.inr (Or.inr ⟨hsegment, _, ?_, hlen⟩))
    unfold u16At
    rw [hthird, hfourth]
  · exact (hlong h.symm).elim

theorem foundAt_fill (h : foundAt data p = .fill) : markerAt data p = some 0xFF := by
  obtain ⟨m, hm, ⟨rfl, -⟩ | ⟨-, hbare⟩ | ⟨-, hframe⟩ | ⟨-, _, -, hsegment⟩⟩ :=
    foundAt_inv h nofun nofun
  · exact hm
  · exact nomatch hbare
  · obtain ⟨_, _, _, _, heq, -⟩ := frameAt_inv hframe nofun nofun
    exact nomatch heq
  · exact nomatch hsegment

theorem foundAt_bare (h : foundAt data p = .bare) : ∃ m, markerAt data p = some m ∧ bareMarker m := by
  obtain ⟨m, hm, ⟨-, hfill⟩ | ⟨hbare, -⟩ | ⟨-, hframe⟩ | ⟨-, _, -, hsegment⟩⟩ :=
    foundAt_inv h nofun nofun
  · exact nomatch hfill
  · exact ⟨m, hm, hbare⟩
  · obtain ⟨_, _, _, _, heq, -⟩ := frameAt_inv hframe nofun nofun
    exact nomatch heq
  · exact nomatch hsegment

theorem foundAt_frame {w height precision components : Nat}
    (h : foundAt data p = .frame w height precision components) :
    (∃ m, markerAt data p = some m ∧ decodableFrame m) ∧ u16At data (p + 5) .big = some height ∧
      u16At data (p + 7) .big = some w ∧ 0 < w ∧ 0 < height := by
  obtain ⟨m, hm, ⟨-, hfill⟩ | ⟨-, hbare⟩ | ⟨hdecodable, hframe⟩ | ⟨-, _, -, hsegment⟩⟩ :=
    foundAt_inv h nofun nofun
  · exact nomatch hfill
  · exact nomatch hbare
  · obtain ⟨_, _, _, _, heq, hdims⟩ := frameAt_inv hframe nofun nofun
    cases heq
    exact ⟨⟨m, hm, hdecodable⟩, hdims⟩
  · exact nomatch hsegment

theorem foundAt_segment (h : foundAt data p = .segment marker len) :
    markerAt data p = some marker ∧ segmentMarker marker ∧ u16At data (p + 2) .big = some len := by
  obtain ⟨m, hm, ⟨-, hfill⟩ | ⟨-, hbare⟩ | ⟨-, hframe⟩ | ⟨hmarker, _, hlen, hsegment⟩⟩ :=
    foundAt_inv h nofun nofun
  · exact nomatch hfill
  · exact nomatch hbare
  · obtain ⟨_, _, _, _, heq, -⟩ := frameAt_inv hframe nofun nofun
    exact nomatch heq
  cases hsegment
  exact ⟨hm, hmarker, hlen⟩

theorem sofFrom_not_faulted (hfits : data.length < 2 ^ 63)
    (hnear : at' ≤ data.length + 2 + MAX_SEGMENT) (fault : Fault) : sofFrom data at' learnt ≠ .faulted fault := by
  induction at', learnt using sofFrom.induct data with
  | case1 at' learnt hfar =>
    unfold MAX_SEGMENT at hfar hnear
    omega
  | case2 at' learnt hword hlong hshort =>
    unfold sofFrom
    rw [if_neg hword, if_pos hlong, hshort]
    exact nofun
  | case3 at' learnt hword hlong hfound =>
    unfold sofFrom
    rw [if_neg hword, if_pos hlong, hfound]
    exact nofun
  | case4 at' learnt hword hlong hfound ih | case5 at' learnt hword hlong hfound ih =>
    unfold sofFrom
    rw [if_neg hword, if_pos hlong, hfound]
    exact ih (by omega)
  | case6 at' learnt hword hlong w height precision components hfound =>
    unfold sofFrom
    rw [if_neg hword, if_pos hlong, hfound]
    exact nofun
  | case7 at' learnt hword hlong marker len hfound ih =>
    rw [sofFrom_segment hword hlong hfound]
    have hlen := u16At_lt (foundAt_segment hfound).2.2
    refine ih ?_
    unfold MAX_SEGMENT
    omega
  | case8 at' learnt hword hshort =>
    unfold sofFrom
    rw [if_neg hword, if_neg hshort]
    exact nofun

theorem exifPayload_of_isExif {segment : Segment} (hend : segment.at' + 2 + segment.len ≤ data.length)
    (h : segment.IsExif data) : exifPayload data segment.at' segment.marker segment.len ≠ none := by
  obtain ⟨hmarker, rest, hpayload⟩ := h
  unfold exifPayload
  rw [if_pos ⟨hmarker, hend⟩, ← hpayload]
  have hdrop : (exifLead ++ rest).dropPrefix? exifLead = some rest :=
    dropPrefix?_eq_some_iff.mpr ⟨exifLead, rfl, beq_self_eq_true _⟩
  rw [hdrop]
  exact Option.some_ne_none rest

/-- The place a scan has learnt, and where a head may say that EXIF goes. -/
structure Told (data : List UInt8) (at' : Nat) (learnt : Learnt) (head : JpegHead) (segments : List Segment)
    (sof : Nat) : Prop where
  leads : Leads data at' segments sof
  height : u16At data (sof + 5) .big = some head.h
  width : u16At data (sof + 7) .big = some head.w
  nonzero : 0 < head.w ∧ 0 < head.h
  inserted : ∀ p, head.exifInsertAt = some p →
    (learnt.exifInsertAt = some p ∨ learnt.firstSegment = true ∧
      ∃ segment, segments.head? = some segment ∧ segment.marker = 0xE0 ∧ p = segment.at' + 2 + segment.len) ∧
    (learnt.exifInsertAt = some p ∨ p ≤ sof) ∧ ∀ segment ∈ segments, ¬ segment.IsExif data

theorem sofFrom_long (h : sofFrom data at' learnt = .done head) :
    at' + 4 ≤ data.length := by
  unfold sofFrom at h
  split at h
  · exact nomatch h
  split at h
  · assumption
  · exact nomatch h

theorem Learnt.segment_inserted (hend : at' + 2 + len ≤ data.length)
    (h : (learnt.segment data at' marker len).exifInsertAt = some p) :
    ¬ Segment.IsExif data ⟨at', marker, len⟩ ∧
      (learnt.exifInsertAt = some p ∨ learnt.firstSegment ∧ marker = 0xE0 ∧ p = at' + 2 + len) := by
  unfold Learnt.segment at h
  split at h
  · rename_i hleading
    cases h
    refine ⟨fun hexif => ?_, Or.inr ⟨hleading.2, hleading.1, rfl⟩⟩
    have hmarker := hexif.1
    dsimp only at hmarker
    omega
  split at h
  · exact nomatch h
  rename_i hnone
  exact ⟨fun hexif => exifPayload_of_isExif hend hexif hnone, Or.inl h⟩

theorem Learnt.segment_first :
    (learnt.segment data at' marker len).firstSegment = false := by
  unfold Learnt.segment
  split
  · rfl
  split <;> rfl

theorem sofFrom_told (h : sofFrom data at' learnt = .done head) :
    ∃ segments sof, Told data at' learnt head segments sof := by
  induction at', learnt using sofFrom.induct data with
  | case1 at' learnt hfar =>
    unfold sofFrom at h
    rw [if_pos hfar] at h
    exact nomatch h
  | case2 at' learnt hnear hlong hshort =>
    unfold sofFrom at h
    rw [if_neg hnear, if_pos hlong, hshort] at h
    exact nomatch h
  | case3 at' learnt hnear hlong hfound =>
    unfold sofFrom at h
    rw [if_neg hnear, if_pos hlong, hfound] at h
    exact nomatch h
  | case4 at' learnt hnear hlong hfound ih =>
    unfold sofFrom at h
    rw [if_neg hnear, if_pos hlong, hfound] at h
    obtain ⟨segments, sof, htold⟩ := ih h
    exact ⟨segments, sof, { htold with leads := .fill (foundAt_fill hfound) htold.leads }⟩
  | case5 at' learnt hnear hlong hfound ih =>
    unfold sofFrom at h
    rw [if_neg hnear, if_pos hlong, hfound] at h
    obtain ⟨segments, sof, htold⟩ := ih h
    obtain ⟨m, hm, hbare⟩ := foundAt_bare hfound
    exact ⟨segments, sof, { htold with leads := .bare hm hbare htold.leads }⟩
  | case6 at' learnt hnear hlong w height precision components hfound =>
    unfold sofFrom at h
    rw [if_neg hnear, if_pos hlong, hfound] at h
    cases h
    obtain ⟨⟨m, hm, hframe⟩, hheight, hwidth, hnonzero⟩ := foundAt_frame hfound
    refine ⟨[], at', .frame hm hframe, hheight, hwidth, hnonzero, fun p hp => ?_⟩
    have hkept := (Option.filter_eq_some_iff.mp hp).1
    exact ⟨Or.inl hkept, Or.inl hkept, fun segment hmem => nomatch hmem⟩
  | case7 at' learnt hnear hlong marker len hfound ih =>
    rw [sofFrom_segment hnear hlong hfound] at h
    have hbehind := sofFrom_long h
    obtain ⟨segments, sof, htold⟩ := ih h
    obtain ⟨hm, hmarker, hlen⟩ := foundAt_segment hfound
    refine ⟨⟨at', marker, len⟩ :: segments, sof, .segment hm hmarker hlen htold.leads, htold.height, htold.width,
      htold.nonzero, fun p hp => ?_⟩
    obtain ⟨hplace, -, hfree⟩ := htold.inserted p hp
    -- Behind a segment no other is the first one, so the place is what this segment left.
    have hleft : (learnt.segment data at' marker len).exifInsertAt = some p := by
      rcases hplace with hleft | ⟨hfirst, -⟩
      · exact hleft
      rw [Learnt.segment_first] at hfirst
      exact nomatch hfirst
    obtain ⟨hnot, hbefore⟩ := Learnt.segment_inserted (by omega) hleft
    have hall : ∀ segment ∈ (⟨at', marker, len⟩ : Segment) :: segments, ¬ segment.IsExif data := by
      intro segment hmem
      rcases mem_cons.mp hmem with rfl | hmem
      · exact hnot
      · exact hfree segment hmem
    rcases hbefore with hkept | ⟨hfirst, hleading, rfl⟩
    · exact ⟨Or.inl hkept, Or.inl hkept, hall⟩
    have hsof := htold.leads.le
    exact ⟨Or.inr ⟨hfirst, _, rfl, hleading, rfl⟩, Or.inr (by omega), hall⟩
  | case8 at' learnt hnear hshort =>
    unfold sofFrom at h
    rw [if_neg hnear, if_neg hshort] at h
    exact nomatch h

theorem jpegSof_describes (h : jpegSof data = .done head) :
    ∃ segments sof, head.Describes data segments sof := by
  obtain ⟨segments, sof, htold⟩ := sofFrom_told h
  refine ⟨segments, sof, htold.leads, htold.height, htold.width, htold.nonzero, fun p hp => ?_⟩
  obtain ⟨hplace, hbefore, hfree⟩ := htold.inserted p hp
  have hsof := htold.leads.le
  refine ⟨?_, ?_, hfree⟩
  · rcases hplace with hstart | ⟨-, hleading⟩
    · cases hstart
      exact Or.inl rfl
    · exact Or.inr hleading
  rcases hbefore with hstart | hbefore
  · cases hstart
    exact hsof
  · exact hbefore

theorem jpegSof_not_faulted (hfits : data.length < 2 ^ 63) (fault : Fault) : jpegSof data ≠ .faulted fault :=
  sofFrom_not_faulted hfits (by omega) fault

end Described

end SyncEngine.Thumb
