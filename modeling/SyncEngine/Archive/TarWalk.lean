import SyncEngine.Archive.TarLayout

/-! # The tar reader reads what lies there

Each call of the reader tells what the layout of the stream has at the place the calls
before it left off, and a call that fails has a reason that lies there too.
-/

namespace SyncEngine.Archive

open Collections List Relation

variable {f : HeaderFields} {bytes : List UInt8} {inner inner' : Source UInt8} {offset : Nat}

theorem roundedUp_ge (size : Nat) : size ≤ roundedUp size := by
  unfold roundedUp
  omega

theorem padding_toNat (size : UInt64) :
    (padding size).toNat = roundedUp size.toNat - size.toNat := by
  unfold padding roundedUp
  rw [UInt64.toNat_mod, UInt64.toNat_sub, UInt64.toNat_mod]
  have h512 : (512 : UInt64).toNat = 512 := rfl
  rw [h512]
  omega

variable {a b : UInt64} {header : Block} {max : UInt64} {e : TarError} {size : UInt64} {left : Nat} {extended : Bool}
    {stored : UInt64} {maps length : Nat} {call : Call} {events : List Event}

theorem checkedAdd_some {sum : UInt64} (h : checkedAdd a b = some sum) :
    sum.toNat = a.toNat + b.toNat := by
  unfold checkedAdd at h
  split at h
  · rename_i hlt
    cases h
    rw [UInt64.toNat_add, Nat.mod_eq_of_lt hlt]
  · cases h

theorem checkedAdd_none (h : checkedAdd a b = none) : 2 ^ 64 ≤ a.toNat + b.toNat := by
  unfold checkedAdd at h
  split at h
  · cases h
  · omega

/-! ## Reading from an offset -/

/-- A stream that has been read up to an offset. -/
structure ReadTo (bytes : List UInt8) (inner : Source UInt8) (offset : Nat) : Prop where
  rest : inner.rest = bytes.drop offset
  le : offset ≤ bytes.length

theorem slice_length (offset n : Nat) : (slice bytes offset n).length = min n (bytes.length - offset) := by
  unfold slice
  rw [length_take, length_drop]

section

variable (h : ReadTo bytes inner offset)
include h

theorem ReadTo.readFull {n : Nat} {got : List UInt8}
    (hread : inner.readFull n = some (got, inner')) :
    got = slice bytes offset n ∧ ReadTo bytes inner' (offset + got.length) := by
  obtain ⟨hgot, hrest⟩ := Source.readFull_spec hread
  rw [h.rest] at hgot hrest
  refine ⟨hgot, ?_, ?_⟩
  · rw [hrest, drop_drop, hgot, length_take, length_drop]
    rcases le_total n (bytes.length - offset) with hle | hle
    · rw [min_eq_left hle]
    · rw [min_eq_right hle, drop_eq_nil_of_le (by omega), drop_eq_nil_of_le (by omega)]
  have hlength := congrArg List.length hgot
  rw [length_take, length_drop] at hlength
  have := h.le
  omega

theorem ReadTo.skip {n skipped : Nat} (hskip : inner.skip n = some (skipped, inner')) :
    (skipped = n → ReadTo bytes inner' (offset + n)) ∧
      (skipped ≠ n → bytes.length < offset + n) := by
  obtain ⟨hskipped, hrest⟩ := Source.skip_spec hskip
  have hle := h.le
  rw [h.rest, length_drop] at hskipped
  rw [h.rest, drop_drop] at hrest
  constructor
  · intro hall
    exact ⟨hrest, by omega⟩
  intro hshort
  omega

theorem readHeaderBlock_some
    (hread : readHeaderBlock inner = .ok (some header, inner')) :
    HeaderAt bytes offset header ∧ ReadTo bytes inner' (offset + tarBlock) := by
  unfold readHeaderBlock at hread
  split at hread
  · cases hread
  rename_i block next hfull
  obtain ⟨hgot, hnext⟩ := h.readFull hfull
  split at hread
  · cases hread
  split at hread
  · rename_i hlength
    split at hread
    · cases hread
    rename_i hmarker
    split at hread
    · rename_i hsum
      cases hread
      rw [hlength] at hnext
      exact ⟨⟨hgot.symm, Bool.eq_false_iff.mpr hmarker, hsum⟩, hnext⟩
    · cases hread
  · cases hread

theorem readHeaderBlock_none (hread : readHeaderBlock inner = .ok (none, inner')) :
    EndsAt bytes offset ∧ ReadTo bytes inner' (offset + (slice bytes offset tarBlock).length) := by
  unfold readHeaderBlock at hread
  split at hread
  · cases hread
  rename_i block next hfull
  obtain ⟨hgot, hnext⟩ := h.readFull hfull
  rw [← hgot]
  unfold EndsAt
  rw [← hgot]
  split at hread
  · rename_i hnil
    cases hread
    exact ⟨Or.inl hnil, hnext⟩
  split at hread
  · rename_i hlength
    split at hread
    · rename_i hmarker
      cases hread
      exact ⟨Or.inr ⟨hlength, hmarker⟩, hnext⟩
    split at hread
    · cases hread
    · cases hread
  · cases hread

end

theorem readHeaderBlock_error {place : Place}
    (h : ReadTo bytes inner place.offset) (hread : readHeaderBlock inner = .error e) :
    e = .read ∨ Refuses f bytes max place e := by
  unfold readHeaderBlock at hread
  split at hread
  · cases hread
    exact Or.inl rfl
  rename_i block next hfull
  obtain ⟨hgot, -⟩ := h.readFull hfull
  refine Or.inr ?_
  split at hread
  · cases hread
  rename_i hsome
  split at hread
  · rename_i hlength
    split at hread
    · cases hread
    split at hread
    · cases hread
    rename_i hsum
    cases hread
    exact Refuses.checksum hgot.symm (Bool.eq_false_iff.mpr hsum)
  rename_i hlength
  cases hread
  rw [hgot] at hsome hlength
  refine Refuses.insideHeader hsome (lt_of_le_of_ne ?_ hlength)
  rw [slice_length]
  exact min_le_left _ _

theorem readRecord_ok {record : List UInt8} (h : ReadTo bytes inner offset)
    (hread : readRecord inner size max = .ok (record, inner')) :
    size ≤ max ∧ record = slice bytes offset size.toNat ∧
      ReadTo bytes inner' (offset + roundedUp size.toNat) := by
  unfold readRecord at hread
  split at hread
  · cases hread
  rename_i hmax
  split at hread
  · cases hread
  rename_i got next hfull
  obtain ⟨hgot, hnext⟩ := h.readFull hfull
  split at hread
  · cases hread
  rename_i hlength
  split at hread
  · cases hread
  rename_i skipped last hskip
  split at hread
  · cases hread
  rename_i hskipped
  cases hread
  push Not at hlength hskipped
  rw [hlength] at hnext
  have hlast := (hnext.skip hskip).1 hskipped
  have hge := roundedUp_ge size.toNat
  have hsum : offset + size.toNat + (padding size).toNat = offset + roundedUp size.toNat := by
    rw [padding_toNat]
    omega
  rw [hsum] at hlast
  exact ⟨UInt64.not_lt.mp hmax, hgot, hlast⟩

theorem readRecord_error {place : Place} {kind : RecordKind} (hheader : HeaderAt bytes place.offset header)
    (hsize : f.entrySize header = some size) (hkind : (f.entryType header).record = some kind)
    (h : ReadTo bytes inner (place.offset + tarBlock)) (hread : readRecord inner size kind.max = .error e) :
    e = .read ∨ Refuses f bytes max place e := by
  have hge := roundedUp_ge size.toNat
  unfold readRecord at hread
  split at hread
  · rename_i hmax
    cases hread
    exact Or.inr (.large hheader hsize hkind hmax)
  split at hread
  · cases hread
    exact Or.inl rfl
  rename_i got next hfull
  obtain ⟨hgot, hnext⟩ := h.readFull hfull
  split at hread
  · rename_i hlength
    cases hread
    rw [hgot, slice_length] at hlength
    have hle := h.le
    exact Or.inr (.short hheader hsize hkind (by omega))
  rename_i hlength
  push Not at hlength
  rw [hlength] at hnext
  split at hread
  · cases hread
    exact Or.inl rfl
  rename_i skipped last hskip
  split at hread
  · rename_i hskipped
    cases hread
    have hshort := (hnext.skip hskip).2 hskipped
    rw [padding_toNat] at hshort
    exact Or.inr (.short hheader hsize hkind (by omega))
  · cases hread

theorem skipExtensions_ok (h : ReadTo bytes inner offset) (hskip : skipExtensions f left extended inner = .ok inner') :
    ∃ n, n ≤ left ∧ Maps f bytes extended offset n ∧ ReadTo bytes inner' (offset + tarBlock * n) := by
  induction left generalizing extended inner offset with
  | zero =>
    cases extended with
    | false =>
      cases hskip
      exact ⟨0, Nat.le_refl 0, .done offset, h⟩
    | true => cases hskip
  | succ left ih =>
    cases extended with
    | false =>
      cases hskip
      exact ⟨0, Nat.zero_le _, .done offset, h⟩
    | true =>
      unfold skipExtensions at hskip
      split at hskip
      · cases hskip
      rename_i block next hfull
      obtain ⟨hgot, hnext⟩ := h.readFull hfull
      split at hskip
      · rename_i hlength
        rw [hlength] at hnext
        obtain ⟨n, hn, hmaps, hlast⟩ := ih hnext hskip
        refine ⟨n + 1, Nat.succ_le_succ hn, .next hgot.symm hmaps, ?_⟩
        rw [Nat.mul_succ, Nat.add_comm (tarBlock * n), ← Nat.add_assoc]
        exact hlast
      · cases hskip

theorem skipExtensions_error
    (h : ReadTo bytes inner offset) (hskip : skipExtensions f left extended inner = .error e) :
    e = .read ∨ ∃ reason, e = .corrupt reason ∧ ∀ n ≤ left, ¬ Maps f bytes extended offset n := by
  induction left generalizing extended inner offset with
  | zero =>
    cases extended with
    | false => cases hskip
    | true =>
      cases hskip
      refine Or.inr ⟨_, rfl, fun n hn hmaps => ?_⟩
      cases hmaps
      cases hn
  | succ left ih =>
    cases extended with
    | false => cases hskip
    | true =>
      unfold skipExtensions at hskip
      split at hskip
      · cases hskip
        exact Or.inl rfl
      rename_i block next hfull
      obtain ⟨hgot, hnext⟩ := h.readFull hfull
      split at hskip
      · rename_i hlength
        rw [hlength] at hnext
        rcases ih hnext hskip with hread | ⟨reason, hreason, hnone⟩
        · exact Or.inl hread
        refine Or.inr ⟨reason, hreason, fun n hn hmaps => ?_⟩
        cases hmaps with
        | next hblock hmaps =>
          rename_i other
          have hsame : other = ⟨block, hlength⟩ := by
            cases other
            congr 1
            exact (hgot.trans hblock).symm
          rw [hsame] at hmaps
          exact hnone _ (Nat.le_of_succ_le_succ hn) hmaps
      rename_i hlength
      cases hskip
      refine Or.inr ⟨_, rfl, fun n hn hmaps => ?_⟩
      cases hmaps with
      | next hblock _ =>
        refine hlength ?_
        rw [hgot, hblock]
        exact Block.length_eq _

/-! ## The reader between calls -/

/-- A reader that is about to read a header. -/
structure Enters (bytes : List UInt8) (reader : TarReader) (place : Place) : Prop where
  read : ReadTo bytes reader.inner place.offset
  remaining : reader.remaining = 0
  padding : reader.padding = 0
  flavor : reader.flavor = place.flavor
  members : reader.members = place.headers
  ended : reader.ended = false
  headers_le : place.headers ≤ reader.maxMembers.toNat
  blocks : tarBlock * place.headers ≤ place.offset

/-- A reader between two calls. -/
structure Stands (bytes : List UInt8) (reader : TarReader) (standing : Standing) : Prop where
  read : ReadTo bytes reader.inner (standing.body + standing.handed)
  remaining : reader.remaining.toNat + standing.handed = standing.size
  padding : reader.padding.toNat = roundedUp standing.size - standing.size
  flavor : reader.flavor = standing.flavor
  members : reader.members = standing.headers
  ended : reader.ended = standing.ended
  headers_le : standing.headers ≤ reader.maxMembers.toNat
  blocks : tarBlock * standing.headers ≤ standing.body

variable {reader reader' : TarReader} {standing : Standing} {place : Place}

theorem stands_new (source : Source UInt8) (max : UInt64) :
    Stands source.rest (TarReader.new source max) Standing.start := by
  constructor
  · exact ⟨rfl, Nat.zero_le _⟩
  · rfl
  · rfl
  · rfl
  · rfl
  · rfl
  · exact Nat.zero_le _
  · exact le_rfl

theorem skipRest_ok (h : Stands bytes reader standing) (hopen : standing.ended = false)
    (hskip : reader.skipRest = .ok reader') :
    Enters bytes reader' standing.place ∧ reader'.maxMembers = reader.maxMembers := by
  unfold TarReader.skipRest at hskip
  split at hskip
  · cases hskip
  rename_i rest hsum
  split at hskip
  · cases hskip
  rename_i skipped next hrest
  split at hskip
  · cases hskip
  rename_i hskipped
  cases hskip
  push Not at hskipped
  have hto := (h.read.skip hrest).1 hskipped
  have hge := roundedUp_ge standing.size
  have hremaining := h.remaining
  have hblocks := h.blocks
  have hoffset : standing.body + standing.handed + rest.toNat = standing.place.offset := by
    rw [checkedAdd_some hsum, h.padding]
    unfold Standing.place
    dsimp only
    omega
  rw [hoffset] at hto
  refine ⟨⟨hto, rfl, rfl, h.flavor, h.members, h.ended.trans hopen, h.headers_le, ?_⟩, rfl⟩
  unfold Standing.place
  dsimp only
  omega

theorem skipRest_error (h : Stands bytes reader standing)
    (hskip : reader.skipRest = .error e) : Fails f bytes max standing e := by
  have hge := roundedUp_ge standing.size
  have hremaining := h.remaining
  have hpadding := h.padding
  unfold TarReader.skipRest at hskip
  split at hskip
  · rename_i hsum
    cases hskip
    have hover := checkedAdd_none hsum
    exact .outOfRange (by omega)
  rename_i rest hsum
  have hsum := checkedAdd_some hsum
  split at hskip
  · cases hskip
    exact .read
  rename_i skipped next hrest
  split at hskip
  · rename_i hskipped
    cases hskip
    have hshort := (h.read.skip hrest).2 hskipped
    exact .endsEarly (by omega)
  · cases hskip

inductive Leads (f : HeaderFields) (bytes : List UInt8) (max : UInt64) (place : Place) :
    Except TarError (Option TarMember × TarReader) → Prop where
  | member {last : Place} {header : Block} {told : TarMember} {maps : Nat} {reader : TarReader}
      (hrecords : ReflTransGen (Record f bytes) place last)
      (hmember : MemberAt f bytes last header told maps)
      (hstands : Stands bytes reader (last.enter f header told maps))
      (hmax : reader.maxMembers = max) : Leads f bytes max place (.ok (some told, reader))
  | stop {last : Place} {reader : TarReader} (hrecords : ReflTransGen (Record f bytes) place last)
      (hends : EndsAt bytes last.offset) (hstands : Stands bytes reader (last.stop bytes))
      (hmax : reader.maxMembers = max) : Leads f bytes max place (.ok (none, reader))
  | read : Leads f bytes max place (.error .read)
  | refuses {last : Place} {e : TarError} (hrecords : ReflTransGen (Record f bytes) place last)
      (hrefuses : Refuses f bytes max last e) : Leads f bytes max place (.error e)

theorem Leads.record {next : Place}
    {result : Except TarError (Option TarMember × TarReader)} (hrecord : Record f bytes place next)
    (h : Leads f bytes max next result) : Leads f bytes max place result := by
  cases h with
  | member hrecords hmember hstands hmax =>
    exact .member (.head hrecord hrecords) hmember hstands hmax
  | stop hrecords hends hstands hmax => exact .stop (.head hrecord hrecords) hends hstands hmax
  | read => exact .read
  | refuses hrecords hrefuses => exact .refuses (.head hrecord hrecords) hrefuses

/-! ## Members -/

theorem memberSize_eq (f : HeaderFields) (flavor : Flavor) (header : Block) (stored : UInt64) (pending : Pending) :
    (describe f flavor header stored pending).size =
      (pending.pax.bind (·.size)).getD
        (if f.entryType header = .link ∧ flavor ≠ .pax then 0 else stored) := by
  unfold describe memberSize
  cases pending.pax with
  | none => rfl
  | some pax => rfl

theorem memberAt
    (hheader : HeaderAt bytes place.offset header) (hstored : f.entrySize header = some stored)
    (htype : (f.entryType header).record = none) (hsparse : f.entryType header = .gnuSparse →
      f.isGnu header ∧ Maps f bytes (f.isExtended header) (place.offset + tarBlock) maps)
    (hplain : f.entryType header ≠ .gnuSparse → maps = 0)
    (hfits : place.offset + tarBlock + tarBlock * maps ≤ bytes.length) :
    MemberAt f bytes place header
      (describe f (place.flavor.after f header) header stored place.pending) maps := by
  refine ⟨hheader, htype, ?_, ?_, ?_, ⟨stored, hstored, rfl⟩, hsparse, hplain, hfits⟩
  · intro size hsize
    rw [memberSize_eq, hsize]
    rfl
  · intro hnone hlink hflavor
    rw [memberSize_eq, hnone, if_pos ⟨hlink, hflavor⟩]
    rfl
  intro hnone hflavor
  rw [memberSize_eq, hnone, if_neg fun h => h.2 (hflavor h.1)]
  exact hstored

theorem stands_member {told : TarMember}
    (h : Enters bytes reader place) (hroom : place.headers + 1 ≤ reader.maxMembers.toNat)
    (hread : ReadTo bytes inner' (place.offset + tarBlock + tarBlock * maps)) :
    Stands bytes
      { reader.enter f header inner with
        inner := inner'
        remaining := told.size
        padding := Archive.padding told.size }
      (place.enter f header told maps) := by
  have hblocks := h.blocks
  constructor
  · exact hread
  · rfl
  · exact padding_toNat told.size
  · exact congrArg (fun flavor => Flavor.after flavor f header) h.flavor
  · exact congrArg (· + 1) h.members
  · exact h.ended
  · exact hroom
  unfold Place.enter
  dsimp only
  rw [Nat.mul_succ]
  omega

/-- How many blocks of a sparse map lie behind a header. -/
structure MapAt (f : HeaderFields) (bytes : List UInt8) (offset : Nat) (header : Block)
    (maps : Nat) : Prop where
  sparse : f.entryType header = .gnuSparse →
    f.isGnu header = true ∧ Maps f bytes (f.isExtended header) (offset + tarBlock) maps
  plain : f.entryType header ≠ .gnuSparse → maps = 0

theorem skipMap_ok (h : ReadTo bytes inner (offset + tarBlock)) (hskip : skipMap f header inner = .ok inner') :
    ∃ maps, MapAt f bytes offset header maps ∧
      ReadTo bytes inner' (offset + tarBlock + tarBlock * maps) := by
  unfold skipMap at hskip
  split at hskip
  · rename_i htype
    unfold skipSparseExtensions at hskip
    split at hskip
    · rename_i hgnu
      obtain ⟨n, -, hmaps, hlast⟩ := skipExtensions_ok h hskip
      exact ⟨n, ⟨fun _ => ⟨hgnu, hmaps⟩, fun hne => absurd htype hne⟩, hlast⟩
    · cases hskip
  rename_i hne
  cases hskip
  exact ⟨0, ⟨fun htype => absurd htype hne, fun _ => rfl⟩, h⟩

theorem skipMap_error
    (hheader : HeaderAt bytes place.offset header)
    (h : ReadTo bytes inner (place.offset + tarBlock)) (hskip : skipMap f header inner = .error e) :
    e = .read ∨ Refuses f bytes max place e := by
  unfold skipMap at hskip
  split at hskip
  · rename_i htype
    unfold skipSparseExtensions at hskip
    split at hskip
    · rcases skipExtensions_error h hskip with hread | ⟨reason, rfl, hnone⟩
      · exact Or.inl hread
      · exact Or.inr (.map hheader htype hnone)
    rename_i hgnu
    cases hskip
    exact Or.inr (.notGnu hheader htype (Bool.eq_false_iff.mpr hgnu))
  · cases hskip

theorem member_leads (h : Enters bytes reader place) (hheader : HeaderAt bytes place.offset header)
    (hnext : ReadTo bytes inner (place.offset + tarBlock)) (hroom : place.headers + 1 ≤ reader.maxMembers.toNat)
    (hstored : f.entrySize header = some stored) (htype : (f.entryType header).record = none) :
    Leads f bytes reader.maxMembers place
      (((reader.enter f header inner).member f header stored place.pending).map fun
        (told, reader) => (some told, reader)) := by
  unfold TarReader.member
  cases hskip : skipMap f header (reader.enter f header inner).inner with
  | error e =>
    rcases skipMap_error hheader hnext hskip with rfl | hrefuses
    · exact .read
    · exact .refuses .refl hrefuses
  | ok inner' =>
    obtain ⟨maps, hmap, hlast⟩ := skipMap_ok hnext hskip
    have hat := memberAt hheader hstored htype hmap.sparse hmap.plain hlast.le
    rw [← h.flavor] at hat
    exact .member .refl hat (stands_member h hroom hlast) rfl

theorem headers_leads (h : Enters bytes reader place) :
    Leads f bytes reader.maxMembers place (reader.headers f place.pending) := by
  induction hn : reader.inner.rest.length using Nat.strongRecOn generalizing reader place with
  | _ n ih =>
    rw [TarReader.headers]
    split
    · rename_i e hblock
      rcases readHeaderBlock_error h.read hblock with rfl | hrefuses
      · exact .read
      · exact .refuses .refl hrefuses
    · rename_i inner hblock
      obtain ⟨hends, hread⟩ := readHeaderBlock_none h.read hblock
      have hblocks := h.blocks
      refine .stop .refl hends ⟨hread, ?_, ?_, h.flavor, h.members, rfl, h.headers_le, ?_⟩ rfl
      · exact congrArg UInt64.toNat h.remaining
      · have hnone : (0 : UInt64).toNat = roundedUp 0 - 0 := by decide
        exact (congrArg UInt64.toNat h.padding).trans hnone
      · exact Nat.le_add_right_of_le hblocks
    rename_i header inner hblock
    obtain ⟨hheader, hnext⟩ := readHeaderBlock_some h.read hblock
    have hheaders := h.headers_le
    have hmembers := h.members
    split
    · rename_i hfull
      exact .refuses .refl (.tooMany hheader (by omega))
    rename_i hroom
    split
    · rename_i hsize
      exact .refuses .refl (.size hheader hsize)
    rename_i size hsize
    split
    · rename_i htype
      exact member_leads h hheader hnext (by omega) hsize htype
    rename_i kind hkind
    split
    · rename_i e hrecord
      rcases readRecord_error hheader hsize hkind hnext hrecord with rfl | hrefuses
      · exact .read
      · exact .refuses .refl hrefuses
    rename_i record inner' hrecord
    obtain ⟨hmax, hgot, hread⟩ := readRecord_ok hnext hrecord
    split
    · rename_i e hhold
      rw [hgot] at hhold
      exact .refuses .refl (.hold hheader hsize hkind hhold)
    rename_i pending hhold
    rw [hgot] at hhold
    have hstep := Record.read hheader hsize hkind hmax hread.le hhold
    have hblocks := h.blocks
    have hlength := readHeaderBlock_length hblock
    have hle := readRecord_length hrecord
    unfold tarBlock at hlength
    have hshorter : (reader.enter f header inner').inner.rest.length < n := by
      dsimp only [TarReader.enter]
      omega
    refine Leads.record hstep (ih _ hshorter ?_ rfl)
    · refine ⟨hread, h.remaining, h.padding, ?_, ?_, h.ended, ?_, ?_⟩
      · exact congrArg (fun flavor => Flavor.after flavor f header) h.flavor
      · exact congrArg (· + 1) h.members
      · dsimp only [TarReader.enter]
        omega
      dsimp only
      rw [Nat.mul_succ]
      omega

/-! ## Calls -/

theorem readBody_ok {read : List UInt8} (h : Stands bytes reader standing)
    (hbody : reader.readBody length = .ok (read, reader')) :
    read = slice bytes (standing.body + standing.handed) read.length ∧ read.length ≤ length ∧
      standing.handed + read.length ≤ standing.size ∧
      (read = [] → length = 0 ∨ standing.handed = standing.size) ∧
      Stands bytes reader' { standing with handed := standing.handed + read.length } ∧
      reader'.maxMembers = reader.maxMembers := by
  have hremaining := h.remaining
  unfold TarReader.readBody at hbody
  split at hbody
  · rename_i hnone
    cases hbody
    refine ⟨rfl, Nat.zero_le _, by rw [length_nil]; omega, fun _ => ?_, h, rfl⟩
    rcases hnone with hzero | hzero
    · rw [hzero] at hremaining
      exact Or.inr ((Nat.zero_add _).symm.trans hremaining)
    · exact Or.inl hzero
  rename_i hsome
  push Not at hsome
  split at hbody
  · cases hbody
  rename_i got next hread
  split at hbody
  · cases hbody
  rename_i hne
  cases hbody
  obtain ⟨hsplit, hle, -⟩ := Source.read_spec hread
  rw [h.read.rest] at hsplit
  have hlength := congrArg List.length hsplit
  rw [length_drop, length_append] at hlength
  have hat := h.read.le
  have hgot : read = slice bytes (standing.body + standing.handed) read.length := by
    unfold slice
    rw [hsplit, take_left]
  have hnext : next.rest = bytes.drop (standing.body + standing.handed + read.length) := by
    rw [← drop_drop, hsplit, drop_left]
  have hlen : (UInt64.ofNat read.length).toNat = read.length := by
    have hlt := reader.remaining.toNat_lt
    rw [UInt64.toNat_ofNat', Nat.mod_eq_of_lt (by omega)]
  have hsub : (reader.remaining - UInt64.ofNat read.length).toNat =
      reader.remaining.toNat - read.length := by
    rw [UInt64.toNat_sub_of_le _ _ (by rw [UInt64.le_iff_toNat_le, hlen]; omega), hlen]
  refine ⟨hgot, by omega, by omega, fun hnil => absurd hnil hne, ⟨⟨?_, ?_⟩, ?_, h.padding,
    h.flavor, h.members, h.ended, h.headers_le, h.blocks⟩, rfl⟩
  · rw [← Nat.add_assoc]
    exact hnext
  · dsimp only
    omega
  dsimp only
  rw [hsub]
  omega

theorem readBody_error
    (h : Stands bytes reader standing) (hbody : reader.readBody length = .error e) :
    Fails f bytes max standing e := by
  have hremaining := h.remaining
  have hge := roundedUp_ge standing.size
  unfold TarReader.readBody at hbody
  split at hbody
  · cases hbody
  rename_i hsome
  push Not at hsome
  split at hbody
  · cases hbody
    exact .read
  rename_i got next hread
  split at hbody
  · rename_i hnil
    cases hbody
    obtain ⟨-, -, hend⟩ := Source.read_spec hread
    have hpos : reader.remaining.toNat ≠ 0 := fun hzero => hsome.1 (UInt64.toNat_inj.mp hzero)
    have hrest := (hend hnil).resolve_left (by omega)
    have hlength := congrArg List.length (h.read.rest.symm.trans hrest)
    rw [length_drop, length_nil] at hlength
    exact .endsEarly (by omega)
  · cases hbody

theorem call_ok {event : Event} (htold : Told f bytes events standing) (h : Stands bytes reader standing)
    (hcall : reader.call f call = .ok (event, reader')) :
    ∃ standing', Told f bytes (events ++ [event]) standing' ∧ Stands bytes reader' standing' ∧
      reader'.maxMembers = reader.maxMembers := by
  unfold TarReader.call at hcall
  cases call with
  | nextMember =>
    dsimp only at hcall
    unfold TarReader.nextMember at hcall
    split at hcall
    · rename_i hended
      cases hcall
      exact ⟨standing, htold.stopped (h.ended.symm.trans hended), h, rfl⟩
    rename_i hopen
    have hopen : standing.ended = false := h.ended.symm.trans (Bool.eq_false_iff.mpr hopen)
    split at hcall
    · cases hcall
    rename_i at_header hskip
    obtain ⟨henters, hmax⟩ := skipRest_ok h hopen hskip
    have hleads : Leads f bytes _ _ (at_header.headers f {}) := headers_leads henters
    generalize at_header.headers f {} = result at hcall hleads
    cases hleads with
    | member hrecords hmember hstands hsame =>
      cases hcall
      exact ⟨_, htold.member hopen hrecords hmember, hstands, hsame.trans hmax⟩
    | stop hrecords hends hstands hsame =>
      cases hcall
      exact ⟨_, htold.stop hopen hrecords hends, hstands, hsame.trans hmax⟩
    | read => cases hcall
    | refuses => cases hcall
  | readBody length =>
    dsimp only at hcall
    cases hbody : reader.readBody length with
    | error e =>
      rw [hbody] at hcall
      cases hcall
    | ok result =>
      obtain ⟨read, next⟩ := result
      rw [hbody] at hcall
      cases hcall
      obtain ⟨hread, hle, hsize, hnone, hstands, hmax⟩ := readBody_ok h hbody
      exact ⟨_, htold.data hread hle hsize hnone, hstands, hmax⟩

theorem call_error (h : Stands bytes reader standing)
    (hcall : reader.call f call = .error e) : Fails f bytes reader.maxMembers standing e := by
  unfold TarReader.call at hcall
  cases call with
  | nextMember =>
    dsimp only at hcall
    unfold TarReader.nextMember at hcall
    split at hcall
    · cases hcall
    rename_i hopen
    have hopen : standing.ended = false := h.ended.symm.trans (Bool.eq_false_iff.mpr hopen)
    split at hcall
    · rename_i hskip
      cases hcall
      exact skipRest_error h hskip
    rename_i at_header hskip
    obtain ⟨henters, hmax⟩ := skipRest_ok h hopen hskip
    have hleads : Leads f bytes _ _ (at_header.headers f {}) := headers_leads henters
    rw [hmax] at hleads
    generalize at_header.headers f {} = result at hcall hleads
    cases hleads with
    | member => cases hcall
    | stop => cases hcall
    | read =>
      cases hcall
      exact .read
    | refuses hrecords hrefuses =>
      cases hcall
      exact .header hopen hrecords hrefuses
  | readBody length =>
    dsimp only at hcall
    cases hbody : reader.readBody length with
    | error e =>
      rw [hbody] at hcall
      cases hcall
      exact readBody_error h hbody
    | ok result =>
      rw [hbody] at hcall
      cases hcall

/-! ## Runs -/

theorem Told.handedOut (h : Told f bytes events standing) :
    handedOut events = slice bytes standing.body standing.handed ∧
      standing.handed ≤ standing.size ∧ (standing.ended → standing.size = 0) := by
  induction h with
  | start => exact ⟨rfl, le_rfl, fun _ => rfl⟩
  | member =>
    unfold Archive.handedOut
    rw [foldl_append]
    exact ⟨rfl, Nat.zero_le _, fun hended => by cases hended⟩
  | stop =>
    unfold Archive.handedOut
    rw [foldl_append]
    exact ⟨rfl, Nat.zero_le _, fun _ => rfl⟩
  | stopped _ hended ih =>
    obtain ⟨-, hle, hsize⟩ := ih
    have hzero := Nat.le_zero.mp (hsize hended ▸ hle)
    unfold Archive.handedOut
    rw [foldl_append, hzero]
    exact ⟨rfl, Nat.zero_le _, hsize⟩
  | data h hread hle hsize hnone ih =>
    rename_i standing length read
    obtain ⟨hout, -, hended⟩ := ih
    refine ⟨?_, hsize, hended⟩
    unfold Archive.handedOut at hout ⊢
    rw [foldl_append, hout]
    dsimp only [foldl_cons, foldl_nil]
    unfold slice at hread ⊢
    rw [take_add, drop_drop, ← hread]

theorem run_told (calls : List Call) (htold : Told f bytes events standing) (h : Stands bytes reader standing) :
    ∃ standing', Told f bytes (events ++ (reader.run f calls).1) standing' ∧
      Stands bytes (reader.run f calls).2.1 standing' ∧
      (reader.run f calls).2.1.maxMembers = reader.maxMembers ∧
      ∀ e, (reader.run f calls).2.2 = some e → Fails f bytes reader.maxMembers standing' e := by
  induction calls generalizing reader standing events with
  | nil =>
    unfold TarReader.run
    rw [append_nil]
    exact ⟨standing, htold, h, rfl, fun e he => by cases he⟩
  | cons call calls ih =>
    unfold TarReader.run
    split
    · rename_i e hcall
      rw [append_nil]
      refine ⟨standing, htold, h, rfl, fun e' he => ?_⟩
      cases he
      exact call_error h hcall
    rename_i event next hcall
    obtain ⟨standing', htold', h', hmax⟩ := call_ok htold h hcall
    obtain ⟨last, hlast, hstands, hsame, hfails⟩ := ih htold' h'
    dsimp only
    rw [← singleton_append, ← append_assoc]
    rw [hmax] at hsame hfails
    exact ⟨last, hlast, hstands, hsame, hfails⟩

/-- Whatever a stream holds and however it is read, up to the first failure each header is
read where the member before it ends, and data is handed out in order; the headers read are
as many as allowed, each a block of the stream, and a failure has its reason there. -/
theorem run_reads (f : HeaderFields) (source : Source UInt8) (max : UInt64) (calls : List Call) :
    ∃ standing, Told f source.rest ((TarReader.new source max).run f calls).1 standing ∧
      handedOut ((TarReader.new source max).run f calls).1 =
        slice source.rest standing.body standing.handed ∧
      ((TarReader.new source max).run f calls).2.1.inner.rest =
        source.rest.drop (standing.body + standing.handed) ∧
      standing.body + standing.handed ≤ source.rest.length ∧
      tarBlock * standing.headers ≤ standing.body ∧
      standing.headers ≤ max.toNat ∧
      ∀ e, ((TarReader.new source max).run f calls).2.2 = some e →
        Fails f source.rest max standing e := by
  obtain ⟨standing, htold, hstands, hmax, hfails⟩ := run_told calls Told.start
    (stands_new source max)
  rw [nil_append] at htold
  have hheaders := hstands.headers_le
  rw [hmax] at hheaders
  exact ⟨standing, htold, htold.handedOut.1, hstands.read.rest, hstands.read.le, hstands.blocks,
    hheaders, hfails⟩

end SyncEngine.Archive
