import SyncEngine.Thumb.DcScan

/-! # Bits and markers

What the bit reader and the marker walk keep of the cursor: it stays within the source
while bits are read, and no more bits are handed out than were passed.
-/

namespace SyncEngine.Thumb

open ByteCursor Collections Checked List

variable {σ : Type} {src : ByteSource σ} {p q : Nat}

theorem rounds_meets {α β : Type} {step : β → Reading σ (β ⊕ α)} (inv : β → ByteCursor σ → Prop)
    {after : α → ByteCursor σ → Prop} (hreach : ∀ b c, inv b c → c.pos ≤ src.len + 65535)
    (hstep : ∀ p b, (step b).Meets (fun c => inv b c ∧ c.pos = p)
      (Checked.Rounds (fun b c => inv b c ∧ p < c.pos) after)) (b : β) :
    (Checked.loop step (rounds src) b).Meets (inv b) after := by
  have hloop := @Meets.loop _ _ _ _ after step inv (fun _ c => src.len + 65536 - c.pos)
    (fun m b => ?_) (rounds src) b
  · refine hloop.mono (fun c hc => ⟨hc, ?_⟩) fun _ _ h => h
    unfold rounds
    omega
  refine Meets.ghost ByteCursor.pos fun p => ?_
  intro c hc
  obtain ⟨⟨hinv, hm⟩, hp⟩ := hc
  have hmeets := hstep p b c ⟨hinv, hp⟩
  have hbefore := hreach b c hinv
  rcases hs : step b c with ⟨(b' | a) | e | f, t⟩ <;> rw [hs] at hmeets
  · obtain ⟨hkept, hon⟩ := hmeets
    have hafter := hreach b' t hkept
    refine ⟨hkept, ?_⟩
    omega
  · exact hmeets
  · trivial
  · exact hmeets

theorem From.at_pos {c : ByteCursor σ} {at' : Nat} (h : c.From src p) (hat : c.pos = at') :
    c.From src (max p at') := ⟨h.1, Nat.max_le.mpr ⟨h.2, le_of_eq hat.symm⟩⟩

theorem pastFill_meets : (pastFill src).Meets (From src p) fun _ => Within src (p + 1) := by
  refine rounds_meets (fun _ c => From src p c) (fun _ c hc => hc.1.reach) (fun at' _ => ?_) ()
  refine Meets.mono (nextU8_meets.bind fun m => ?_) (fun _ h => From.at_pos h.1 h.2) fun _ _ h => h
  refine Meets.pure fun c hc => ?_
  split
  · exact ⟨hc.from (by omega), lt_of_lt_of_le (by omega) hc.2.1⟩
  · exact hc.mono (by omega)

theorem nextMarker_meets : (nextMarker src).Meets (From src p) fun _ => Within src (p + 2) := by
  refine nextU8_meets.bind fun first => ?_
  split
  · exact Meets.fail
  refine Meets.mono (pastFill_meets.bind fun m => ?_) (fun _ h => h.from le_rfl) fun _ _ h => h
  split
  · exact Meets.fail
  · exact Meets.pure fun _ h => h

theorem segmentLen_meets :
    (segmentLen src).Meets (From src p) fun len c => len + 2 < 2 ^ 16 ∧ Within src (p + 2) c := by
  refine nextU16_meets.bind fun len => Meets.given fun hlen => ?_
  split
  · exact Meets.fail
  · exact Meets.pure fun _ h => ⟨by omega, h⟩

theorem expectSoi_meets : (expectSoi src).Meets (From src p) fun _ => Within src (p + 2) := by
  refine nextU8_meets.bind fun first => ?_
  split
  · exact Meets.fail
  refine Meets.mono (nextU8_meets.bind fun second => ?_) (fun _ h => h.from le_rfl)
    fun _ _ h => h
  split
  · exact Meets.fail
  · exact Meets.pure fun _ h => h

theorem skipEntropy_meets : (skipEntropy src).Meets (From src p) fun _ => From src p := by
  refine rounds_meets (fun _ c => From src p c) (fun _ c hc => hc.1.reach) (fun at' _ => ?_) ()
  refine Meets.mono (nextU8_meets.bind fun byte => ?_) (fun _ h => From.at_pos h.1 h.2) fun _ _ h => h
  have hon : ∀ c : ByteCursor σ, c.Within src (max p at' + 1) → c.From src p ∧ at' < c.pos := fun c hc =>
    ⟨hc.from (by omega), lt_of_lt_of_le (by omega) hc.2.1⟩
  split
  · exact Meets.pure hon
  refine Meets.mono (nextU8_meets.bind fun next => ?_) (fun _ h => h.from le_rfl) fun _ _ h => h
  split
  · exact Meets.pure fun c hc => hon c (hc.mono (by omega))
  split
  · exact (back_meets (p := max p at' + 1)).bind fun _ => Meets.pure hon
  refine (back_meets (p := max p at') (n := 2)).bind fun _ => Meets.pure fun c hc => ?_
  exact hc.from (le_max_left _ _)

/-! ## The bit reader -/

namespace BitReader

def ahead (reader : BitReader) : Nat := if reader.pendingMarker.isSome then 2 else 0

/-- The reader is past a place with so many bits handed out, none of them twice. -/
structure Reads (src : ByteSource σ) (p q : Nat) (reader : BitReader) (c : ByteCursor σ) : Prop where
  within : c.Within src (p + reader.ahead)
  nbits_le : reader.nbits ≤ 32
  handed : q + reader.nbits + 8 * reader.ahead ≤ 8 * c.pos

variable {reader : BitReader}

theorem Reads.mono {c : ByteCursor σ} (h : reader.Reads src p q c) {q' : Nat} (hle : q' ≤ q) :
    reader.Reads src p q' c := ⟨h.within, h.nbits_le, by have := h.handed; omega⟩

theorem keep_meets {byte : UInt8} (hfew : reader.nbits ≤ 24) {at' : Nat} (hp : p ≤ at')
    (hq : q + reader.nbits ≤ 8 * at') (hnone : reader.pendingMarker = none) :
    (reader.keep byte).Meets (Within src (at' + 1)) fun kept c =>
      kept.Reads src p q c ∧ kept.nbits = reader.nbits + 8 := by
  refine Meets.sub hfew (Meets.add (by omega) (Meets.pure fun c hc => ⟨?_, rfl⟩))
  have hahead : (⟨reader.bits ||| byte.toUInt32 <<< (24 - reader.nbits).toUInt32, reader.nbits + 8,
      reader.pendingMarker⟩ : BitReader).ahead = 0 := by
    rw [hnone]
    rfl
  have hpos := hc.2.1
  refine ⟨hc.mono (by rw [hahead]; omega), ?_, ?_⟩
  · dsimp only
    omega
  rw [hahead]
  dsimp only
  omega

theorem fillStep_meets (m : Nat) :
    (fillStep src reader).Meets (fun c => reader.Reads src p q c ∧ (32 - reader.nbits) / 8 = m)
      (Checked.Rounds (fun kept c => kept.Reads src p q c ∧ (32 - kept.nbits) / 8 < m)
        fun ready c => ready.Reads src p q c) := by
  unfold fillStep
  split
  · exact Meets.pure fun _ h => h.1
  rename_i hmore
  rw [not_or] at hmore
  have hnone : reader.pendingMarker = none := Option.not_isSome_iff_eq_none.mp hmore.2
  have hahead : reader.ahead = 0 := by
    unfold ahead
    rw [if_neg hmore.2]
  refine Meets.ghost ByteCursor.pos fun at' => ?_
  refine Meets.knowing (p ≤ at' ∧ q + reader.nbits ≤ 8 * at' ∧ (32 - reader.nbits) / 8 = m) (From src at')
    (fun hknown => ?_) ?_
  · obtain ⟨hp, hq, hm⟩ := hknown
    have hless : ∀ (kept : BitReader) (c : ByteCursor σ), kept.Reads src p q c ∧ kept.nbits = reader.nbits + 8 →
        kept.Reads src p q c ∧ (32 - kept.nbits) / 8 < m := fun kept c h => ⟨h.1, by omega⟩
    refine nextU8_meets.bind fun byte => ?_
    split
    · refine Meets.mono (nextU8_meets.bind fun next => ?_) (fun _ h => h.from le_rfl)
        fun _ _ h => h
      split
      · exact (keep_meets (by omega) (Nat.le_succ_of_le hp) (by omega) hnone).bind fun kept =>
          Meets.pure (hless kept)
      -- A marker: the two bytes it took hold no bits.
      refine Meets.pure fun c hc => ?_
      have hpos := hc.2.1
      have htwo : (⟨reader.bits, reader.nbits, some next⟩ : BitReader).ahead = 2 := rfl
      refine ⟨hc.mono ?_, ?_, ?_⟩
      · rw [htwo]
        omega
      · dsimp only
        omega
      rw [htwo]
      dsimp only
      omega
    · exact (keep_meets (by omega) hp hq hnone).bind fun kept => Meets.pure (hless kept)
  rintro c ⟨⟨hreads, hm⟩, hpos⟩
  have hwithin := hreads.within
  have hhanded := hreads.handed
  rw [hahead] at hwithin hhanded
  exact ⟨⟨by have := hwithin.2.1; omega, by omega, hm⟩, hwithin.1, by omega⟩

theorem fill_meets : (fill src reader).Meets (reader.Reads src p q) fun ready => ready.Reads src p q := by
  have hloop := @Meets.loop _ _ _ _ (fun ready => ready.Reads src p q) (fillStep src)
    (fun reader c => reader.Reads src p q c) (fun reader _ => (32 - reader.nbits) / 8)
    (fun m reader => fillStep_meets m) 5 reader
  refine hloop.mono (fun c hc => ⟨hc, ?_⟩) fun _ _ h => h
  omega

theorem toNat_shiftRight_lt (bits : UInt32) {n : Nat} (hpos : 0 < n) (hn : n ≤ 16) :
    (bits >>> (32 - n).toUInt32).toNat < 2 ^ n := by
  have hamount : (32 - n).toUInt32.toNat % 32 = 32 - n := by
    have hsize : UInt32.size = 2 ^ 32 := rfl
    rw [Nat.toUInt32_eq, UInt32.toNat_ofNat_of_lt' (by omega)]
    omega
  rw [UInt32.toNat_shiftRight, hamount, Nat.shiftRight_eq_div_pow, Nat.div_lt_iff_lt_mul (Nat.two_pow_pos _),
    ← Nat.pow_add, Nat.add_sub_cancel' (by omega)]
  exact bits.toNat_lt

theorem takeBits_meets {n : Nat} (hn : n ≤ 16) :
    (takeBits src n reader).Meets (reader.Reads src p q) fun taken c =>
      taken.1.toNat < 2 ^ n ∧ taken.2.Reads src p (q + n) c := by
  unfold takeBits
  rw [if_neg (Nat.not_lt_of_le hn)]
  split
  · rename_i hzero
    subst hzero
    exact Meets.pure fun c hc => ⟨Nat.one_pos, hc⟩
  rename_i hpos
  refine fill_meets.bind fun reader => ?_
  split
  · exact Meets.fail
  rename_i henough
  refine Meets.sub (by omega) (Meets.sub (by omega) (Meets.pure fun c hc => ?_))
  refine ⟨toNat_shiftRight_lt _ (Nat.pos_of_ne_zero hpos) hn, hc.within, ?_, ?_⟩
  · have hle := hc.nbits_le
    dsimp only
    omega
  have hhanded := hc.handed
  change q + n + (reader.nbits - n) + 8 * reader.ahead ≤ 8 * c.pos
  omega

theorem restartMarker_meets :
    (restartMarker src reader).Meets (reader.Reads src p q) fun _ c => c.Within src p ∧ q ≤ 8 * c.pos := by
  have hkept : ∀ c, reader.Reads src p q c → c.Within src p ∧ q ≤ 8 * c.pos := fun c hc =>
    ⟨hc.within.mono (Nat.le_add_right _ _), by have hhanded := hc.handed; omega⟩
  unfold restartMarker
  split
  · exact Meets.pure hkept
  refine Meets.ghost ByteCursor.pos fun at' => ?_
  refine Meets.knowing (p ≤ at' ∧ q ≤ 8 * at') (From src at') (fun hknown => ?_) ?_
  · refine nextU8_meets.bind fun lead => ?_
    split
    · exact Meets.fail
    refine pastFill_meets.mono (fun _ h => h.from le_rfl) fun _ c h => ?_
    have hpos := h.2.1
    exact ⟨h.mono (by omega), by omega⟩
  rintro c ⟨hreads, hpos⟩
  obtain ⟨hwithin, hq⟩ := hkept c hreads
  exact ⟨⟨by have := hwithin.2.1; omega, by omega⟩, hwithin.1, by omega⟩

theorem expectRestart_meets :
    (expectRestart src reader).Meets (reader.Reads src p q) fun fresh => fresh.Reads src p q := by
  refine restartMarker_meets.bind fun marker => ?_
  split
  · exact Meets.pure fun c hc => ⟨hc.1, Nat.zero_le _, hc.2⟩
  · exact Meets.fail

end BitReader

/-! ## Symbols -/

/-- A table of a row for each code length, whose symbols are looked up without a fault. -/
structure HuffTable.Fine (table : HuffTable) : Prop where
  rows : table.rows.length = 16
  valptr : ∀ row ∈ table.rows, row.valptr < 2 ^ 16

section Symbols

variable {reader : BitReader}

theorem decodeRows_meets {symbols : List UInt8} {rows : List HuffRow} {code k : Nat}
    (hrows : k + rows.length ≤ 16) (hcode : code < 2 ^ k) (hvalptr : ∀ row ∈ rows, row.valptr < 2 ^ 16) :
    (decodeRows src symbols rows code reader).Meets (reader.Reads src p q) fun symbol c =>
      symbol.2.Reads src p (q + 1) c := by
  induction rows generalizing code k reader q with
  | nil => exact Meets.fail
  | cons row rows ih =>
    rw [length_cons] at hrows
    have hword : 2 ^ k ≤ 2 ^ 15 := Nat.pow_le_pow_right (by decide) (by omega)
    refine (BitReader.takeBits_meets (by decide)).bind fun taken => Meets.given fun hbit => ?_
    refine Meets.mul (by omega) ?_
    have hlonger : code * 2 ||| taken.1.toNat < 2 ^ (k + 1) := by
      refine Nat.or_lt_two_pow ?_ ?_
      · rw [Nat.pow_succ]
        omega
      · exact lt_of_lt_of_le hbit (Nat.pow_le_pow_right (by decide) (by omega))
    dsimp only
    split
    · rename_i hfound
      have hrow := hvalptr row mem_cons_self
      refine Meets.sub hfound.2 (Meets.add (by omega) ?_)
      exact Meets.expect fun symbol _ => Meets.pure fun _ h => h
    refine (ih (by omega) hlonger fun row hmem => ?_).weaken fun _ _ h => h.mono (by omega)
    exact hvalptr row (mem_cons_of_mem _ hmem)

theorem decodeSymbol_meets {table : HuffTable} (h : table.Fine) :
    (decodeSymbol src table reader).Meets (reader.Reads src p q) fun symbol c =>
      symbol.2.Reads src p (q + 1) c :=
  decodeRows_meets (by rw [h.rows]) (Nat.one_pos) h.valptr

theorem receiveExtend_meets {n : Nat} (hn : n ≤ 15) :
    (receiveExtend src n reader).Meets (reader.Reads src p q) fun value c => value.2.Reads src p q c := by
  unfold receiveExtend
  split
  · exact Meets.pure fun _ h => h
  rename_i hpos
  refine (BitReader.takeBits_meets (by omega)).bind fun taken => Meets.given fun hbits => ?_
  have hword : 2 ^ n ≤ 2 ^ 15 := Nat.pow_le_pow_right (by decide) hn
  have hcast : (2 ^ n : Int) = ((2 ^ n : Nat) : Int) := by norm_num
  dsimp only
  split
  · rw [hcast]
    refine Meets.int32 ⟨by omega, by omega⟩ ?_
    refine Meets.int32 ⟨by omega, by omega⟩ ?_
    exact Meets.pure fun _ h => h.mono (Nat.le_add_right _ _)
  · exact Meets.pure fun _ h => h.mono (Nat.le_add_right _ _)

theorem huffRows_meets {before : ByteCursor σ → Prop} {len code k : Nat} {counts : List UInt8}
    (hlen : len + counts.length ≤ 17) (hcode : code ≤ 2 ^ len) (hk : k + 256 * counts.length < 2 ^ 16) :
    (huffRows len counts code k).Meets before fun rows c =>
      (rows.length = counts.length ∧ ∀ row ∈ rows, row.valptr < 2 ^ 16) ∧ before c := by
  induction counts generalizing len code k with
  | nil => exact Meets.pure fun _ h => ⟨⟨rfl, fun _ hrow => nomatch hrow⟩, h⟩
  | cons n counts ih =>
    rw [length_cons] at hlen hk
    have hbyte := n.toNat_lt
    have hword : 2 ^ len ≤ 2 ^ 16 := Nat.pow_le_pow_right (by decide) (by omega)
    refine Meets.add (by omega) (Meets.mul (by omega) ?_)
    split
    · exact Meets.fail
    rename_i hfits
    refine (ih (by omega) (Nat.le_of_not_lt hfits) (by omega)).bind fun rows => Meets.pure fun _ h => ?_
    obtain ⟨⟨hlength, hvalptr⟩, hbefore⟩ := h
    refine ⟨⟨congrArg (· + 1) hlength, fun row hrow => ?_⟩, hbefore⟩
    rcases mem_cons.mp hrow with rfl | hrow
    · split
      · dsimp only
        omega
      · exact Nat.two_pow_pos 16
    · exact hvalptr row hrow

theorem build_meets {before : ByteCursor σ → Prop} {counts symbols : List UInt8} (hcounts : counts.length = 16) :
    (HuffTable.build counts symbols).Meets before fun table c => table.Fine ∧ before c := by
  unfold HuffTable.build
  dsimp only
  split
  · exact Meets.fail
  refine (huffRows_meets (by omega) (Nat.zero_le _) (by omega)).bind fun rows => Meets.pure fun _ h => ?_
  exact ⟨⟨h.1.1.trans hcounts, h.1.2⟩, h.2⟩

end Symbols

end SyncEngine.Thumb
