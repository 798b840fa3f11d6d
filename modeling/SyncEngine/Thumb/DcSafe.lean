import SyncEngine.Thumb.DcPlanes

/-! # The DC decoder on hostile bytes

The markers come in any order and repeat. Whatever they say, the walk ends, nothing
leaves a machine word, every index is in range and the rows are those of one frame.
-/

namespace SyncEngine.Thumb

open ByteCursor Collections Checked List

variable {σ : Type} {src : ByteSource σ} {p : Nat}

/-! ## Headers -/

/-- The tables of a walk are kept and its planes left alone. -/
def Kept (before walk : DcWalk) : Prop := walk.Fine ∧ walk.planes = before.planes

theorem room_of_bits (hbits : 8 * src.len < 2 ^ 64) : src.len + 65536 ≤ 2 ^ 64 := by omega

theorem dcQuantizer_meets {pq : Nat} : (dcQuantizer src pq).Meets (From src p) fun _ => Within src (p + 1) := by
  unfold dcQuantizer
  split
  · exact nextU8_meets.bind fun dc => Meets.pure fun _ h => h
  · exact nextU16_meets.weaken fun _ _ h => h.2.mono (Nat.le_succ _)

variable {start walk : DcWalk} {remaining : Nat}

theorem dqtStep_meets (hroom : src.len + 65536 ≤ 2 ^ 64) (h : Kept start walk) :
    (dqtStep src walk remaining).Meets (From src p)
      (Checked.Rounds (fun b c => (Kept start b.1 ∧ b.2 < remaining) ∧ From src p c)
        fun walk c => Kept start walk ∧ From src p c) := by
  unfold dqtStep
  split
  · exact Meets.pure fun _ hc => ⟨h, hc⟩
  refine nextU8_meets.bind fun pqTq => ?_
  dsimp only
  split
  · exact Meets.fail
  rename_i hheader
  rw [not_or] at hheader
  refine Meets.mono (dcQuantizer_meets.bind fun dc => ?_) (fun _ h => h.from le_rfl) fun _ _ h => h
  split
  · exact Meets.fail
  have htq : pqTq.toNat % 16 < walk.qDc.length := by
    rw [h.1.qDc]
    omega
  refine Meets.replace htq ((skip_meets hroom (by omega)).bind fun _ => ?_)
  split
  · exact Meets.fail
  refine Meets.pure fun c hc => ⟨⟨⟨⟨?_, h.1.dcTables, h.1.tables, h.1.frame, h.1.planes⟩, h.2⟩, ?_⟩, ?_⟩
  · rw [length_set]
    exact h.1.qDc
  · dsimp only
    omega
  · exact hc.mono (by omega)

theorem tables_meets {step : DcWalk × Nat → Reading σ ((DcWalk × Nat) ⊕ DcWalk)} (h : start.Fine)
    (hstep : ∀ b, Kept start b.1 → (step b).Meets (From src p)
      (Checked.Rounds (fun next c => (Kept start next.1 ∧ next.2 < b.2) ∧ From src p c)
        fun walk c => Kept start walk ∧ From src p c)) (remaining : Nat) :
    (Checked.loop step (remaining + 1) (start, remaining)).Meets (From src p)
      fun walk c => Kept start walk ∧ From src p c := by
  have hloop := @Meets.loop _ _ _ _ (fun walk c => Kept start walk ∧ From src p c) step
    (fun b c => Kept start b.1 ∧ From src p c) (fun b _ => b.2) (fun m b => ?_) (remaining + 1) (start, remaining)
  · exact hloop.mono (fun c hc => ⟨⟨⟨h, rfl⟩, hc⟩, Nat.lt_succ_self _⟩) fun _ _ h => h
  rintro c ⟨⟨hkept, hfrom⟩, rfl⟩
  refine ((hstep b hkept).weaken fun next c hnext => ?_) c hfrom
  rcases next with next | walk
  · exact ⟨⟨hnext.1.1, hnext.2⟩, hnext.1.2⟩
  · exact hnext

theorem parseDqt_meets (hroom : src.len + 65536 ≤ 2 ^ 64) (h : walk.Fine) :
    (parseDqt src walk).Meets (From src p) fun next c => Kept walk next ∧ From src p c := by
  refine segmentLen_meets.bind fun remaining => Meets.given fun _ => ?_
  exact (tables_meets h (fun b hb => dqtStep_meets hroom hb) remaining).mono
    (fun _ hc => hc.from (Nat.le_add_right _ _)) fun _ _ h => h

theorem keepTable_meets (hroom : src.len + 65536 ≤ 2 ^ 64) (h : walk.Fine) {tc th total : Nat}
    {counts : List UInt8} (hth : th < 4) (hcounts : counts.length = 16) (htotal : total ≤ 65535) :
    (keepTable src walk.dcTables tc th counts total).Meets (Within src p) fun tables c =>
      (tables.length = 4 ∧ ∀ table, some table ∈ tables → table.Fine) ∧ From src p c := by
  unfold keepTable
  split
  · refine nextBytes_meets.bind fun symbols => Meets.given fun _ => ?_
    refine (build_meets hcounts).bind fun table => Meets.given fun htable => ?_
    intro c hc
    unfold Checked.replace
    rw [if_pos (by rw [h.dcTables]; exact hth)]
    refine ⟨⟨?_, fun other hother => ?_⟩, hc.from (Nat.le_add_right _ _)⟩
    · rw [length_set]
      exact h.dcTables
    rcases mem_or_eq_of_mem_set hother with hother | heq
    · exact h.tables other hother
    cases heq
    exact htable
  refine (skip_meets hroom htotal).bind fun _ => Meets.pure fun c hc => ?_
  exact ⟨⟨h.dcTables, h.tables⟩, hc.mono (Nat.le_add_right _ _)⟩

theorem sum_toNat_le (bytes : List UInt8) : (bytes.map UInt8.toNat).sum ≤ 255 * bytes.length := by
  induction bytes with
  | nil => exact le_rfl
  | cons byte bytes ih =>
    have hbyte := byte.toNat_lt
    rw [map_cons, sum_cons, length_cons]
    omega

theorem dhtStep_meets (hroom : src.len + 65536 ≤ 2 ^ 64) (h : Kept start walk) :
    (dhtStep src walk remaining).Meets (From src p)
      (Checked.Rounds (fun b c => (Kept start b.1 ∧ b.2 < remaining) ∧ From src p c)
        fun walk c => Kept start walk ∧ From src p c) := by
  unfold dhtStep
  split
  · exact Meets.pure fun _ hc => ⟨h, hc⟩
  refine nextU8_meets.bind fun tcTh => ?_
  dsimp only
  split
  · exact Meets.fail
  rename_i hheader
  rw [not_or] at hheader
  refine nextBytes_meets.bind fun counts => Meets.given fun hcounts => ?_
  have htotal := sum_toNat_le counts
  refine (keepTable_meets hroom h.1 (by omega) hcounts (by omega)).bind fun tables =>
    Meets.given fun htables => ?_
  split
  · exact Meets.fail
  refine Meets.pure fun c hc => ⟨⟨⟨⟨h.1.qDc, htables.1, htables.2, h.1.frame, h.1.planes⟩, h.2⟩, ?_⟩, ?_⟩
  · dsimp only
    omega
  · exact hc.mono (by omega)

theorem parseDht_meets (hroom : src.len + 65536 ≤ 2 ^ 64) (h : walk.Fine) :
    (parseDht src walk).Meets (From src p) fun next c => Kept walk next ∧ From src p c := by
  refine segmentLen_meets.bind fun remaining => Meets.given fun _ => ?_
  exact (tables_meets h (fun b hb => dhtStep_meets hroom hb) remaining).mono
    (fun _ hc => hc.from (Nat.le_add_right _ _)) fun _ _ h => h

theorem parseDri_meets (h : walk.Fine) :
    (parseDri src walk).Meets (From src p) fun next c => Kept walk next ∧ From src p c := by
  refine segmentLen_meets.bind fun len => Meets.given fun _ => ?_
  split
  · exact Meets.fail
  refine Meets.mono (nextU16_meets.bind fun interval => Meets.pure fun c hc => ?_)
    (fun _ hc => hc.from le_rfl) fun _ _ h => h
  exact ⟨⟨⟨h.qDc, h.dcTables, h.tables, h.frame, h.planes⟩, rfl⟩, hc.2.from (by omega)⟩

theorem frameComps_meets {n : Nat} :
    (frameComps src n).Meets (From src p) fun comps c =>
      (comps.length = n ∧ ∀ comp ∈ comps, comp.2.Fine) ∧ From src p c := by
  induction n generalizing p with
  | zero => exact Meets.pure fun _ hc => ⟨⟨rfl, fun _ hcomp => nomatch hcomp⟩, hc⟩
  | succ n ih =>
    refine nextU8_meets.bind fun id => ?_
    refine Meets.mono (nextU8_meets.bind fun hv => ?_) (fun _ h => h.from le_rfl) fun _ _ h => h
    refine Meets.mono (nextU8_meets.bind fun tq => ?_) (fun _ h => h.from le_rfl) fun _ _ h => h
    split
    · exact Meets.fail
    rename_i hcomp
    rw [not_or, not_or, not_not, not_not] at hcomp
    obtain ⟨hh, hv, htq⟩ := hcomp
    refine Meets.mono (ih.bind fun rest => Meets.given fun hrest => Meets.pure fun c hc => ?_)
      (fun _ h => h.from le_rfl) fun _ _ h => h
    refine ⟨⟨congrArg (· + 1) hrest.1, fun comp hmem => ?_⟩, hc.mono (by omega)⟩
    rcases mem_cons.mp hmem with rfl | hmem
    · exact ⟨hh.1, hh.2, hv.1, hv.2, by dsimp only; omega⟩
    · exact hrest.2 comp hmem

theorem foldl_max_bounds {factors : List Nat} (hne : factors ≠ []) (hbounds : ∀ n ∈ factors, 0 < n ∧ n ≤ 4) :
    0 < factors.foldl max 0 ∧ factors.foldl max 0 ≤ 4 := by
  have hfold : ∀ (list : List Nat) (start : Nat), (∀ n ∈ list, n ≤ 4) → start ≤ 4 →
      start ≤ list.foldl max start ∧ list.foldl max start ≤ 4 := by
    intro list
    induction list with
    | nil => exact fun start _ hstart => ⟨le_rfl, hstart⟩
    | cons n list ih =>
      intro start hall hstart
      have hn := hall n mem_cons_self
      obtain ⟨hge, hle⟩ := ih (max start n) (fun m hm => hall m (mem_cons_of_mem _ hm)) (by omega)
      exact ⟨le_trans (le_max_left _ _) hge, hle⟩
  cases factors with
  | nil => exact (hne rfl).elim
  | cons n factors =>
    obtain ⟨hpos, hle⟩ := hbounds n mem_cons_self
    rw [foldl_cons, Nat.zero_max]
    obtain ⟨hge, hbound⟩ := hfold factors n (fun m hm => (hbounds m (mem_cons_of_mem _ hm)).2) hle
    exact ⟨lt_of_lt_of_le hpos hge, hbound⟩

theorem parseSof2_meets : (parseSof2 src).Meets (From src p) fun frame c => frame.Fine ∧ From src p c := by
  refine segmentLen_meets.bind fun len => Meets.given fun _ => ?_
  refine Meets.mono (nextU8_meets.bind fun precision => ?_) (fun _ h => h.from le_rfl) fun _ _ h => h
  refine Meets.mono (nextU16_meets.bind fun height => Meets.given fun hheight => ?_)
    (fun _ h => h.from le_rfl) fun _ _ h => h
  refine Meets.mono (nextU16_meets.bind fun width => Meets.given fun hwidth => ?_)
    (fun _ h => h.from le_rfl) fun _ _ h => h
  refine Meets.mono (nextU8_meets.bind fun ncomp => ?_) (fun _ h => h.from le_rfl) fun _ _ h => h
  split
  · exact Meets.fail
  split
  · exact Meets.fail
  rename_i hdims
  split
  · exact Meets.fail
  rename_i hcount
  split
  · exact Meets.fail
  refine Meets.mono (frameComps_meets.bind fun comps => Meets.given fun hcomps =>
    Meets.pure fun c hc => ?_) (fun _ h => h.from le_rfl) fun _ _ h => h
  rw [not_or] at hdims
  have hthree : comps.length = 1 ∨ comps.length = 3 := by
    rw [hcomps.1]
    rcases not_not.mp hcount with rfl | rfl
    · exact Or.inl rfl
    · exact Or.inr rfl
  have hfactors : ∀ factor : CompInfo → Nat, (∀ info : CompInfo, info.Fine → 0 < factor info ∧ factor info ≤ 4) →
      0 < (comps.map (factor ·.2)).foldl max 0 ∧ (comps.map (factor ·.2)).foldl max 0 ≤ 4 := by
    intro factor hfactor
    refine foldl_max_bounds (fun hnil => ?_) fun n hn => ?_
    · rw [map_eq_nil_iff.mp hnil] at hthree
      rcases hthree with hzero | hzero <;> exact nomatch hzero
    obtain ⟨comp, hcomp, rfl⟩ := mem_map.mp hn
    exact hfactor _ (hcomps.2 comp hcomp)
  obtain ⟨hhpos, hhle⟩ := hfactors CompInfo.h fun info hinfo => ⟨hinfo.h_pos, hinfo.h_le⟩
  obtain ⟨hvpos, hvle⟩ := hfactors CompInfo.v fun info hinfo => ⟨hinfo.v_pos, hinfo.v_le⟩
  exact ⟨⟨Nat.pos_of_ne_zero hdims.1, hwidth, Nat.pos_of_ne_zero hdims.2, hheight, hhpos, hhle, hvpos, hvle, hcomps.2,
    hthree⟩, hc.mono (by omega)⟩

section

variable (hroom : src.len + 65536 ≤ 2 ^ 64)
include hroom

theorem skipSegment_meets :
    (skipSegment src).Meets (From src p) fun _ => From src p := by
  refine segmentLen_meets.bind fun len => Meets.given fun hlen => ?_
  exact (skip_meets hroom (by omega)).weaken fun _ _ hc => hc.mono (by omega)

theorem untilFrame_meets :
    (untilFrame src).Meets (From src p) fun frame _ => frame.Fine := by
  refine expectSoi_meets.bind fun _ => ?_
  refine Meets.mono (rounds_meets (fun _ c => From src p c) (fun _ _ hc => hc.1.reach) (fun at' _ => ?_) ())
    (fun _ hc => hc.from (by omega)) fun _ _ h => h
  refine Meets.mono (nextMarker_meets.bind fun m => ?_) (fun _ h => From.at_pos h.1 h.2) fun _ _ h => h
  refine Meets.mono ?_ (fun _ h => h.from le_rfl) fun _ _ h => h
  split
  · exact parseSof2_meets.bind fun frame => Meets.pure fun c hc => hc.1
  split
  · exact Meets.fail
  split
  · exact Meets.fail
  refine (skipSegment_meets hroom).bind fun _ => Meets.pure fun c hc => ⟨hc.mono (by omega), ?_⟩
  have hpos := hc.2
  omega

theorem openDcScan_meets :
    (openDcScan src).Meets (From src 0) fun _ _ => True := by
  refine (untilFrame_meets hroom).bind fun frame => Meets.of_pre fun hframe => ?_
  refine (divCeil_meets (by decide)).bind fun outW => Meets.given fun _ => ?_
  refine (divCeil_meets (by decide)).bind fun outH => Meets.given fun _ => ?_
  refine (totalBlocks_meets hframe).bind fun total => Meets.given fun htotal => ?_
  have hsmall := htotal.2
  unfold MAX_TOTAL_BLOCKS at hsmall
  exact Meets.mul (by omega) (Meets.pure fun _ _ => trivial)

end

/-! ## The walk over scans -/

theorem selectors_meets {n : Nat} :
    (selectors src n).Meets (From src p) fun raw c => raw.length = n ∧ From src p c := by
  induction n generalizing p with
  | zero => exact Meets.pure fun _ hc => ⟨rfl, hc⟩
  | succ n ih =>
    refine nextU8_meets.bind fun cs => ?_
    refine Meets.mono (nextU8_meets.bind fun tdTa => ?_) (fun _ h => h.from le_rfl) fun _ _ h => h
    refine Meets.mono (ih.bind fun rest => Meets.pure fun c hc => ?_)
      (fun _ h => h.from le_rfl) fun _ _ h => h
    exact ⟨congrArg (· + 1) hc.1, hc.2.mono (by omega)⟩

theorem scanComps_meets {before : ByteCursor σ → Prop} {frame : FrameInfo} {raw : List (UInt8 × Nat)} :
    (scanComps frame raw).Meets before fun comps c =>
      (comps.length = raw.length ∧ ∀ comp ∈ comps, comp.1 < frame.comps.length) ∧ before c := by
  refine (Meets.mapWith (fun (_ : UInt8 × Nat) (comp : Nat × Nat) => comp.1 < frame.comps.length) raw
    fun selector _ => Meets.expect fun idx hidx => Meets.pure fun c hc => ⟨?_, hc⟩).weaken
      fun comps c h => ⟨⟨h.1.length_eq.symm, fun comp hcomp => ?_⟩, h.2⟩
  · obtain ⟨hlt, -⟩ := findIdx?_eq_some_iff_getElem.mp hidx
    exact hlt
  obtain ⟨_, -, hlt⟩ := exists_of_forall₂ h.1 hcomp
  exact hlt

/-- A walk between two markers: its tables and planes, and the cursor behind every bit that was
counted. -/
def Walking (src : ByteSource σ) (walk : DcWalk) (c : ByteCursor σ) : Prop :=
  (walk.Fine ∧ ∀ planes, walk.planes = some planes → ∀ comp ∈ planes.comps, comp.seq ≤ 8 * c.pos) ∧ From src 0 c

theorem walking_of_kept {next : DcWalk} {at' : Nat} (hkept : Kept walk next)
    (hseq : ∀ planes, walk.planes = some planes → ∀ comp ∈ planes.comps, comp.seq ≤ 8 * at')
    {c : ByteCursor σ} (hc : c.From src (at' + 1)) : Walking src next c ∧ at' < c.pos := by
  have hpos := hc.2
  refine ⟨⟨⟨hkept.1, fun planes hplanes comp hcomp => ?_⟩, hc.mono (Nat.zero_le _)⟩, by omega⟩
  rw [hkept.2] at hplanes
  have hle := hseq planes hplanes comp hcomp
  omega

theorem parseScan_meets (hbits : 8 * src.len < 2 ^ 64) (h : walk.Fine) {at' : Nat}
    (hseq : ∀ planes, walk.planes = some planes → ∀ comp ∈ planes.comps, comp.seq ≤ 8 * at') :
    (parseScan src walk).Meets (From src (at' + 1)) (Checked.Rounds (fun next c => Walking src next c ∧ at' < c.pos)
      fun planes _ => ∃ frame, planes.BuiltFrom frame) := by
  refine segmentLen_meets.bind fun _ => Meets.given fun _ => ?_
  refine Meets.mono (nextU8_meets.bind fun ns => ?_) (fun _ h => h.from le_rfl) fun _ _ h => h
  split
  · exact Meets.fail
  rename_i hns
  rw [not_or] at hns
  refine Meets.mono (selectors_meets.bind fun raw => Meets.given fun hraw => ?_)
    (fun _ h => h.from le_rfl) fun _ _ h => h
  refine Meets.expect fun frame hstands => ?_
  refine scanComps_meets.bind fun comps => Meets.given fun hcomps => ?_
  refine nextU8_meets.bind fun ss => ?_
  refine Meets.mono (nextU8_meets.bind fun se => ?_) (fun _ h => h.from le_rfl) fun _ _ h => h
  refine Meets.mono (nextU8_meets.bind fun ahAl => ?_) (fun _ h => h.from le_rfl) fun _ _ h => h
  split
  · refine Meets.mono (skipEntropy_meets.bind fun _ => Meets.pure fun c hc => ?_)
      (fun _ h => h.from le_rfl) fun _ _ h => h
    exact walking_of_kept ⟨h, rfl⟩ hseq (hc.mono (by omega))
  split
  · exact Meets.fail
  have hne : comps ≠ [] := by
    rintro rfl
    have hzero : ns.toNat = 0 := hraw.symm.trans hcomps.1.symm
    exact hns.1 (UInt8.toNat_inj.mp hzero)
  have hselected : ∀ other, walk.frame = some other → ∀ comp ∈ comps, comp.1 < other.comps.length := by
    intro other hother
    rw [hstands] at hother
    cases hother
    exact hcomps.2
  have hcounted : ∀ planes, walk.planes = some planes → ∀ comp ∈ planes.comps, comp.seq ≤ 8 * (at' + 1) := by
    intro planes hplanes comp hcomp
    have hle := hseq planes hplanes comp hcomp
    omega
  refine Meets.mono ((decodeDcEntropy_meets hbits h hcounted hne hselected).bind fun planes =>
    Meets.given fun hfinished => ?_) (fun _ hc => hc.mono (by omega)) fun _ _ h => h
  obtain ⟨built, hbuilt, hdone⟩ := hfinished
  split
  · exact Meets.pure fun c _ => ⟨built, hbuilt⟩
  rename_i hopen
  refine Meets.pure fun c hc => ⟨⟨⟨⟨h.qDc, h.dcTables, h.tables, h.frame, fun other hother => ?_⟩,
    fun other hother => ?_⟩, hc.2.mono (Nat.zero_le _)⟩, hc.2.2⟩
  · cases hother
    refine ⟨built, hbuilt, hdone.resolve_right fun hall => hopen (all_eq_true.mpr hall)⟩
  cases hother
  exact hc.1

theorem decodeStep_meets (hbits : 8 * src.len < 2 ^ 64) (at' : Nat) :
    (decodeStep src walk).Meets (fun c => Walking src walk c ∧ c.pos = at')
      (Checked.Rounds (fun next c => Walking src next c ∧ at' < c.pos) fun planes _ =>
        ∃ frame, planes.BuiltFrom frame) := by
  refine Meets.knowing (walk.Fine ∧ ∀ planes, walk.planes = some planes → ∀ comp ∈ planes.comps,
    comp.seq ≤ 8 * at') (From src at') (fun hwalk => ?_) ?_
  · obtain ⟨h, hseq⟩ := hwalk
    have hkept : ∀ next (c : ByteCursor σ), Kept walk next ∧ c.From src (at' + 1) → Walking src next c ∧ at' < c.pos :=
      fun next c hc => walking_of_kept hc.1 hseq hc.2
    refine nextMarker_meets.bind fun m => ?_
    refine Meets.mono ?_ (fun _ hc => hc.from (Nat.le_succ (at' + 1))) fun _ _ h => h
    split
    · refine parseSof2_meets.bind fun frame => Meets.given fun hframe => Meets.pure fun c hc => ?_
      refine hkept _ c ⟨⟨⟨h.qDc, h.dcTables, h.tables, fun other hother => ?_, h.planes⟩, rfl⟩, hc⟩
      cases hother
      exact hframe
    split
    · exact Meets.fail
    split
    · exact (parseDht_meets (room_of_bits hbits) h).bind fun next => Meets.pure fun c hc => hkept next c hc
    split
    · exact (parseDqt_meets (room_of_bits hbits) h).bind fun next => Meets.pure fun c hc => hkept next c hc
    split
    · exact (parseDri_meets h).bind fun next => Meets.pure fun c hc => hkept next c hc
    split
    · exact parseScan_meets hbits h hseq
    split
    · exact Meets.fail
    exact (skipSegment_meets (room_of_bits hbits)).bind fun _ =>
      Meets.pure fun c hc => hkept walk c ⟨⟨h, rfl⟩, hc⟩
  rintro c ⟨⟨⟨hfine, hseq⟩, hfrom⟩, rfl⟩
  exact ⟨⟨hfine, hseq⟩, hfrom.1, le_rfl⟩

theorem DcWalk.new_fine : DcWalk.new.Fine := by
  refine ⟨rfl, rfl, fun table htable => ?_, (fun _ hframe => nomatch hframe), fun _ hplanes => nomatch hplanes⟩
  rcases mem_cons.mp htable with hnone | htable
  · exact nomatch hnone
  rcases mem_cons.mp htable with hnone | htable
  · exact nomatch hnone
  rcases mem_cons.mp htable with hnone | htable
  · exact nomatch hnone
  · exact nomatch mem_singleton.mp htable

theorem decodeDcScans_meets (hbits : 8 * src.len < 2 ^ 64) :
    (decodeDcScans src).Meets (From src 0) fun planes _ => ∃ frame, planes.BuiltFrom frame := by
  refine expectSoi_meets.bind fun _ => ?_
  refine Meets.mono (rounds_meets (Walking src) (fun _ _ hc => hc.2.1.reach)
    (fun at' walk => decodeStep_meets hbits at') .new) (fun c hc => ?_) fun _ _ h => h
  exact ⟨⟨DcWalk.new_fine, fun _ hplanes => nomatch hplanes⟩, hc.from (Nat.zero_le _)⟩

/-! ## Rows -/

section Rows

variable {planes : Planes} {frame : FrameInfo}

variable {x y : Nat}

theorem sampleAt_meets {factor most size : Nat} (hx : x ≤ 2 ^ 13) (hfactor : factor ≤ 4) (hmost : 0 < most)
    (hsize : 0 < size) : (sampleAt x factor most size).Meets (fun _ => True) fun place _ => place + 1 ≤ size := by
  have hscaled : x * factor ≤ 2 ^ 13 * 4 := Nat.mul_le_mul hx hfactor
  refine Meets.mul (by omega) (Meets.divMod hmost (Meets.sub hsize ?_))
  refine Meets.pure fun _ _ => ?_
  omega

theorem sample_meets (h : planes.BuiltFrom frame) (hx : x ≤ 2 ^ 13) (hy : y ≤ 2 ^ 13) {comp : CompState}
    (hcomp : comp ∈ planes.comps) : (sample planes x y comp).Meets (fun _ => True) fun _ _ => True := by
  have hshape := h.shape_fine hcomp
  have hsize : comp.plane.size = comp.planeW * comp.planeH := hshape.size_eq
  have hwide : comp.planeW ≤ 2 ^ 15 := hshape.planeW_le
  have hhigh : comp.planeH ≤ 2 ^ 15 := hshape.planeH_le
  have hall : comp.planeW * comp.planeH ≤ 2 ^ 15 * 2 ^ 15 := Nat.mul_le_mul hwide hhigh
  have hhmax : 0 < planes.hmax := by
    rw [h.hmax]
    exact h.fine.hmax_pos
  have hvmax : 0 < planes.vmax := by
    rw [h.vmax]
    exact h.fine.vmax_pos
  refine (sampleAt_meets hx hshape.info.h_le hhmax hshape.planeW_pos).bind fun cx => Meets.of_pre fun hcx => ?_
  refine (sampleAt_meets hy hshape.info.v_le hvmax hshape.planeH_pos).bind fun cy => Meets.of_pre fun hcy => ?_
  have hcx : cx + 1 ≤ comp.planeW := hcx
  have hcy : cy + 1 ≤ comp.planeH := hcy
  have hrow : (cy + 1) * comp.planeW ≤ comp.planeW * comp.planeH := by
    rw [Nat.mul_comm comp.planeW]
    exact Nat.mul_le_mul_right _ hcy
  rw [Nat.add_mul, Nat.one_mul] at hrow
  refine Meets.mul (by omega) (Meets.add (by omega) (Meets.item ?_ ?_))
  · rw [Array.length_toList]
    omega
  · exact Meets.pure fun _ _ => trivial

theorem pixel_meets (h : planes.BuiltFrom frame) (hx : x ≤ 2 ^ 13) (hy : y ≤ 2 ^ 13) :
    (pixel planes x y).Meets (fun _ => True) fun px _ => px.length = 4 := by
  unfold pixel
  split
  · rename_i luma hcomps
    have hmem : luma ∈ planes.comps := by simp [hcomps]
    exact (sample_meets h hx hy hmem).bind fun l => Meets.pure fun _ _ => rfl
  · rename_i luma blue red hcomps
    refine (sample_meets h hx hy (by simp [hcomps])).bind fun y' => ?_
    refine (sample_meets h hx hy (by simp [hcomps])).bind fun cb => ?_
    exact (sample_meets h hx hy (by simp [hcomps])).bind fun cr => Meets.pure fun _ _ => rfl
  · exact Meets.fail

theorem emitRow_meets (h : planes.BuiltFrom frame) {outW : Nat} (hwide : outW ≤ 2 ^ 13) (hy : y ≤ 2 ^ 13) :
    (emitRow planes outW y).Meets (fun _ => True) fun row _ => row.length = outW * 4 := by
  have hrow : (Checked.upTo (fun x row => do
      let px ← pixel planes x y
      copyPixel row px (x * 4)) outW (List.replicate (outW * 4) 0) : Painting (List UInt8)).Meets
        (fun _ => (List.replicate (outW * 4) (0 : UInt8)).length = outW * 4) fun row _ => row.length = outW * 4 := by
    refine Meets.upTo (fun _ (row : List UInt8) _ => row.length = outW * 4) outW (fun x hx row => ?_) _
    refine Meets.of_pre fun hlength => ?_
    refine (pixel_meets h (le_trans (le_of_lt hx) hwide) hy).bind fun px => Meets.of_pre fun hpx => ?_
    unfold copyPixel
    rw [if_pos (by omega)]
    refine Meets.pure fun _ _ => ?_
    rw [length_append, length_append, length_take, length_drop]
    omega
  exact hrow.mono (fun _ _ => length_replicate) fun _ _ h => h

/-- The rows of an image: each where it is, as wide as the image, with all its pixels. -/
def RowsOf (outW outH : Nat) (rows : List PixelRow) : Prop :=
  ∀ row ∈ rows, row.y < outH ∧ row.width = outW ∧ row.rgba.length = 4 * row.width

theorem eighth_le {side : Nat} (h : side < 2 ^ 16) : (side + 8 - 1) / 8 ≤ 2 ^ 13 := by omega

variable {takes : List PixelRow → PixelRow → Bool} {outW outH : Nat}

section

variable (h : planes.BuiltFrom frame)
include h

theorem pushRow_rows (hwide : outW ≤ 2 ^ 13) (hhigh : outH ≤ 2 ^ 13)
    (hy : y < outH) {rows : List PixelRow} (hrows : RowsOf outW outH rows) :
    RowsOf outW outH (pushRow takes planes outW y () rows).2 := by
  have hrow := emitRow_meets h (y := y) hwide (by omega) () trivial
  change RowsOf outW outH (Checked.bind (Checked.lift (emitRow planes outW y)) _ rows).2
  unfold Checked.bind Checked.lift
  rcases heq : emitRow planes outW y () with ⟨rgba | e | f, t⟩ <;> rw [heq] at hrow
  · dsimp only [push]
    split
    · intro row hmem
      rcases mem_append.mp hmem with hmem | hmem
      · exact hrows row hmem
      rw [mem_singleton.mp hmem]
      exact ⟨hy, rfl, hrow.trans (Nat.mul_comm _ _)⟩
    · exact hrows
  · exact hrows
  · exact hrow.elim

theorem pushRows_rows (hwide : outW ≤ 2 ^ 13) (hhigh : outH ≤ 2 ^ 13) {n : Nat}
    (hn : n ≤ outH) : RowsOf outW outH (Checked.upTo (pushRow takes planes outW) n () []).2 := by
  induction n with
  | zero => exact fun _ hrow => nomatch hrow
  | succ n ih =>
    have hbefore := ih (Nat.le_of_succ_le hn)
    unfold Checked.upTo Checked.bind
    rcases heq : Checked.upTo (pushRow takes planes outW) n () [] with ⟨⟨⟩ | e | f, rows⟩ <;> rw [heq] at hbefore
    · exact pushRow_rows h hwide hhigh hn hbefore
    · exact hbefore
    · exact hbefore

theorem pushRow_meets (hwide : outW ≤ 2 ^ 13) (hy : y ≤ 2 ^ 13) {n : Nat} :
    (pushRow takes planes outW y ()).Meets (fun rows => rows.length = n) fun _ rows => rows.length = n + 1 := by
  refine (emitRow_meets h hwide hy).lift.bind fun rgba => Meets.given fun _ => ?_
  intro rows hrows
  unfold push
  by_cases htakes : takes rows { y, width := outW, rgba }
  · rw [if_pos htakes]
    change (rows ++ [_]).length = n + 1
    rw [length_append, hrows]
    rfl
  rw [if_neg htakes]
  trivial

theorem emit_meets :
    (emit takes planes).Meets (fun rows => rows = []) fun _ rows => rows.length = (frame.height + 8 - 1) / 8 := by
  refine (divCeil_meets (by decide)).bind fun outW => Meets.given fun hw => ?_
  refine (divCeil_meets (by decide)).bind fun outH => Meets.given fun hh => ?_
  rw [h.width] at hw
  rw [h.height] at hh
  subst hw hh
  have hwide := eighth_le h.fine.width_lt
  have hhigh := eighth_le h.fine.height_lt
  refine (Meets.upTo (fun y _ rows => rows.length = y) _ (fun y hy _ => pushRow_meets h hwide ?_) ()).mono
    (fun rows hnil => ?_) fun _ _ hrows => hrows
  · omega
  rw [hnil]
  rfl

theorem emit_rows :
    RowsOf ((frame.width + 8 - 1) / 8) ((frame.height + 8 - 1) / 8) (emit takes planes []).2 := by
  have hwide := eighth_le h.fine.width_lt
  have hhigh := eighth_le h.fine.height_lt
  have heq : emit takes planes [] =
      Checked.upTo (pushRow takes planes ((frame.width + 8 - 1) / 8)) ((frame.height + 8 - 1) / 8) () [] := by
    unfold emit divCeil
    rw [h.width, h.height, if_neg (by decide), if_neg (by decide)]
    rfl
  rw [heq]
  exact pushRows_rows h hwide hhigh le_rfl

end

end Rows

/-- Over a source of fewer bits than a machine word counts, opening and decoding do not fault,
and the rows handed over are those of the frame the planes were built from, which hold no
more than the ceiling. -/
theorem dc_scan_safe {σ : Type} (src : ByteSource σ) (hbits : 8 * src.len < 2 ^ 64)
    (takes : List PixelRow → PixelRow → Bool) (source : σ) :
    (∀ fault c, openDcScan src (.new source) ≠ (.faulted fault, c)) ∧
      (∀ fault rows, decodeInto src takes source ≠ (.faulted fault, rows)) ∧
      ((decodeInto src takes source).2 = [] ∨ ∃ planes frame c,
        decodeDcScans src (.new source) = (.done planes, c) ∧ planes.BuiltFrom frame ∧
          RowsOf ((frame.width + 8 - 1) / 8) ((frame.height + 8 - 1) / 8) (decodeInto src takes source).2 ∧
          ((decodeInto src takes source).1 = .done () →
            (decodeInto src takes source).2.length = (frame.height + 8 - 1) / 8)) := by
  have hopen := openDcScan_meets (room_of_bits hbits) (.new source) (new_from source)
  have hdecoded := decodeDcScans_meets hbits (.new source) (new_from source)
  refine ⟨fun fault c hfault => ?_, ?_⟩
  · rw [hfault] at hopen
    exact hopen
  unfold decodeInto
  rcases heq : decodeDcScans src (.new source) with ⟨planes | e | f, c⟩ <;> rw [heq] at hdecoded
  · obtain ⟨frame, hbuilt⟩ := hdecoded
    have hemitted := @emit_meets _ _ takes hbuilt [] rfl
    have hrows := @emit_rows _ _ takes hbuilt
    refine ⟨fun fault rows hfault => ?_, Or.inr ⟨planes, frame, c, rfl, hbuilt, hrows, fun hdone => ?_⟩⟩
    · rw [show emit takes planes [] = _ from hfault] at hemitted
      exact hemitted
    dsimp only at hdone ⊢
    rcases hemit : emit takes planes [] with ⟨answer, rows⟩
    rw [hemit] at hdone hemitted
    cases hdone
    exact hemitted
  · exact ⟨(fun _ _ hfault => nomatch hfault), Or.inl rfl⟩
  · exact hdecoded.elim

/-- Sixteen pixels by eight in three components, the first of two blocks: a quantizer, the frame,
a table of two codes, and one scan of all components. -/
def smallBytes : List UInt8 :=
  [0xFF, 0xD8] ++
    [0xFF, 0xDB, 0x00, 0x43, 0x00, 0x10] ++ List.replicate 63 0x01 ++
    [0xFF, 0xC2, 0x00, 0x11, 0x08, 0x00, 0x08, 0x00, 0x10, 0x03, 0x01, 0x21, 0x00, 0x02, 0x11, 0x00, 0x03, 0x11, 0x00] ++
    [0xFF, 0xC4, 0x00, 0x15, 0x00, 0x01, 0x01] ++ List.replicate 14 0x00 ++ [0x00, 0x03] ++
    [0xFF, 0xDA, 0x00, 0x0C, 0x03, 0x01, 0x00, 0x02, 0x00, 0x03, 0x00, 0x00, 0x00, 0x00] ++
    [0xA9, 0x2F, 0xFF, 0xD9]

/-- Reads hand over one byte to seven, in turn. -/
def smallSource : ByteSource Nat where
  bytes := smallBytes
  fits := by decide +kernel
  readAt offset want s := (some ((smallBytes.drop offset).take (min want (1 + s % 7))), s + 1)
  reads offset want s got t h := by
    cases h
    exact take_prefix_take_left (Nat.min_le_left _ _)

theorem dc_scan_safe_small :
    let decoded := decodeInto smallSource (fun _ _ => true) 0
    decoded = (.done (), [⟨0, 2, [124, 145, 138, 255, 124, 145, 138, 255]⟩]) ∧
      (∀ fault c, openDcScan smallSource (.new 0) ≠ (.faulted fault, c)) ∧
      ∃ planes frame c, decodeDcScans smallSource (.new 0) = (.done planes, c) ∧ planes.BuiltFrom frame ∧
        RowsOf ((frame.width + 8 - 1) / 8) ((frame.height + 8 - 1) / 8) decoded.2 ∧
        decoded.2.length = (frame.height + 8 - 1) / 8 := by
  intro decoded
  have hdecoded : decoded = (.done (), [⟨0, 2, [124, 145, 138, 255, 124, 145, 138, 255]⟩]) := by
    decide +kernel
  obtain ⟨hopens, -, hrows⟩ := dc_scan_safe smallSource (by decide +kernel) (fun _ _ => true) 0
  refine ⟨hdecoded, hopens, ?_⟩
  rcases hrows with hnone | ⟨planes, frame, c, hplanes, hbuilt, hof, hall⟩
  · exact absurd ((congrArg Prod.snd hdecoded).symm.trans hnone) (cons_ne_nil _ _)
  exact ⟨planes, frame, c, hplanes, hbuilt, hof, hall (congrArg Prod.fst hdecoded)⟩

/-! ## A source too long to count

Two bytes, then fill bytes nearly up to the last place a machine word numbers, then a
segment that reaches over it.
-/

section Overlong

variable {σ : Type} {src : ByteSource σ}

/-- Every read succeeds and changes nothing. -/
def ByteSource.Steady (src : ByteSource σ) : Prop :=
  ∀ offset want s, src.readAt offset want s = (some ((src.bytes.drop offset).take want), s)

variable {c : ByteCursor σ} {byte marker : UInt8} {n : Nat}

section

variable (hsteady : src.Steady)
include hsteady

theorem refill_at (hfine : c.Fine src) (hbyte : src.bytes[c.pos]? = some byte) :
    ∃ t, refill src c = (.done byte, t) ∧ t.Fine src ∧ t.pos = c.pos := by
  unfold refill
  cases hbuffered : c.buffered with
  | some got =>
    have hgot := hfine.getElem?_buffered hbuffered
    rw [hbyte] at hgot
    cases hgot
    exact ⟨c, rfl, hfine, rfl⟩
  | none =>
    obtain ⟨hlt, hat⟩ := List.getElem?_eq_some_iff.mp hbyte
    have hread := hsteady c.pos 4096 c.source
    rw [drop_eq_getElem_cons hlt, hat, take_succ_cons] at hread
    have hgot := (src.reads _ _ _ _ _ hread).trans ( take_prefix _ _)
    rw [hread]
    exact ⟨_, rfl, ⟨hgot, hfine.reach⟩, rfl⟩

theorem nextU8_at (hfine : c.Fine src) (hbyte : src.bytes[c.pos]? = some byte) :
    ∃ t, nextU8 src c = (.done byte, t) ∧ t.Fine src ∧ t.pos = c.pos + 1 := by
  obtain ⟨t, hrefill, ht, hpos⟩ := refill_at hsteady hfine hbyte
  obtain ⟨hlt, -⟩ := List.getElem?_eq_some_iff.mp hbyte
  have hfits := src.fits
  refine ⟨{ t with pos := t.pos + 1 }, ?_, ⟨ht.buffered, ?_⟩, congrArg (· + 1) hpos⟩
  · have hskip : skip 1 t = (.done (), { t with pos := t.pos + 1 }) := if_pos (by omega)
    unfold nextU8
    rw [Checked.bind_done hrefill, Checked.bind_done hskip]
    rfl
  have hreach : t.pos + 1 ≤ src.len := by
    rw [hpos]
    exact hlt
  exact le_trans hreach (Nat.le_add_right _ _)

theorem pastFill_at (hmarker : marker ≠ 0xFF)
    (hfine : c.Fine src) (hfill : ∀ i < n, src.bytes[c.pos + i]? = some 0xFF)
    (hend : src.bytes[c.pos + n]? = some marker) :
    ∃ t, pastFill src c = (.done marker, t) ∧ t.Fine src ∧ t.pos = c.pos + n + 1 := by
  obtain ⟨hlt, -⟩ := List.getElem?_eq_some_iff.mp hend
  have hfuel : n < rounds src := by
    unfold rounds ByteSource.len
    omega
  unfold pastFill
  generalize rounds src = fuel at hfuel
  induction n generalizing c fuel with
  | zero =>
    obtain ⟨fuel, rfl⟩ := Nat.exists_eq_succ_of_ne_zero (ne_of_gt hfuel)
    obtain ⟨t, hnext, ht, hpos⟩ := nextU8_at hsteady hfine hend
    refine ⟨t, Checked.loop_last ?_ fuel, ht, hpos⟩
    rw [Checked.bind_done hnext, if_neg hmarker]
    rfl
  | succ n ih =>
    obtain ⟨fuel, rfl⟩ := Nat.exists_eq_succ_of_ne_zero (ne_of_gt (Nat.zero_lt_of_lt hfuel))
    obtain ⟨t, hnext, ht, hpos⟩ := nextU8_at hsteady hfine (hfill 0 (Nat.succ_pos n))
    have hstep : t.pos + n = c.pos + (n + 1) := by omega
    obtain ⟨u, hloop, hu, hend⟩ := ih ht
      (fun i hi => by
        have hat := hfill (i + 1) (Nat.succ_lt_succ hi)
        rwa [show t.pos + i = c.pos + (i + 1) by omega])
      (by rwa [hstep]) (by rwa [hstep]) fuel (Nat.lt_of_succ_lt_succ hfuel)
    refine ⟨u, (Checked.loop_again ?_ fuel).trans hloop, hu, by omega⟩
    rw [Checked.bind_done hnext, if_pos rfl]
    rfl

theorem expectSoi_at (hfine : c.Fine src)
    (hfirst : src.bytes[c.pos]? = some 0xFF) (hsecond : src.bytes[c.pos + 1]? = some 0xD8) :
    ∃ t, expectSoi src c = (.done (), t) ∧ t.Fine src ∧ t.pos = c.pos + 2 := by
  obtain ⟨t, hread, ht, hpos⟩ := nextU8_at hsteady hfine hfirst
  rw [← hpos] at hsecond
  obtain ⟨u, hread', hu, hpos'⟩ := nextU8_at hsteady ht hsecond
  refine ⟨u, ?_, hu, by omega⟩
  unfold expectSoi
  rw [Checked.bind_done hread, if_neg (not_not_intro rfl), Checked.bind_done hread', if_neg (not_not_intro rfl)]
  rfl

theorem nextMarker_at (hmarker : marker ≠ 0xFF) (hzero : marker ≠ 0)
    (hfine : c.Fine src) (hfirst : src.bytes[c.pos]? = some 0xFF)
    (hfill : ∀ i < n, src.bytes[c.pos + 1 + i]? = some 0xFF) (hend : src.bytes[c.pos + 1 + n]? = some marker) :
    ∃ t, nextMarker src c = (.done marker, t) ∧ t.Fine src ∧ t.pos = c.pos + 1 + n + 1 := by
  obtain ⟨t, hread, ht, hpos⟩ := nextU8_at hsteady hfine hfirst
  rw [← hpos] at hfill hend
  obtain ⟨u, hpast, hu, hpos'⟩ := pastFill_at hsteady hmarker ht hfill hend
  refine ⟨u, ?_, hu, by omega⟩
  unfold nextMarker
  rw [Checked.bind_done hread, if_neg (not_not_intro rfl), Checked.bind_done hpast, if_neg hzero]
  rfl

theorem skipSegment_faults (hfine : c.Fine src)
    (hhigh : src.bytes[c.pos]? = some 0xFF) (hlow : src.bytes[c.pos + 1]? = some 0xFF)
    (hlong : 2 ^ 64 ≤ c.pos + 2 + 65533) : ∃ t, skipSegment src c = (.faulted .overflow, t) := by
  obtain ⟨t, hread, ht, hpos⟩ := nextU8_at hsteady hfine hhigh
  rw [← hpos] at hlow
  obtain ⟨u, hread', hu, hpos'⟩ := nextU8_at hsteady ht hlow
  have hword : nextU16 src c = (.done 65535, u) := by
    unfold nextU16
    rw [Checked.bind_done hread, Checked.bind_done hread']
    rfl
  have hlen : segmentLen src c = (.done 65533, u) := by
    unfold segmentLen
    rw [Checked.bind_done hword]
    rfl
  refine ⟨u, ?_⟩
  unfold skipSegment
  rw [Checked.bind_done hlen]
  exact if_neg (by omega)

theorem openDcScan_overlong
    (hbytes : src.bytes = [0xFF, 0xD8, 0xFF] ++ (List.replicate n 0xFF ++ [0xE0, 0xFF, 0xFF]))
    (hlong : 2 ^ 64 ≤ n + 6 + 65533) (start : σ) :
    ∃ c, openDcScan src (.new start) = (.faulted .overflow, c) := by
  have hhead : ∀ i < 3, src.bytes[i]? = [0xFF, 0xD8, 0xFF][i]? := by
    intro i hi
    rw [hbytes]
    exact getElem?_append_left hi
  have hbehind : ∀ i, src.bytes[3 + i]? = (List.replicate n 0xFF ++ [0xE0, 0xFF, 0xFF])[i]? := by
    intro i
    rw [hbytes, getElem?_append_right (Nat.le_add_right 3 i)]
    exact congrArg _ (Nat.add_sub_cancel_left 3 i)
  have hfill : ∀ i < n, src.bytes[3 + i]? = some 0xFF := by
    intro i hi
    have hshort : i < (List.replicate n (0xFF : UInt8)).length := by
      rw [length_replicate]
      exact hi
    rw [hbehind, getElem?_append_left hshort, getElem?_replicate, if_pos hi]
  have htail : ∀ i, src.bytes[3 + n + i]? = [0xE0, 0xFF, 0xFF][i]? := by
    intro i
    rw [Nat.add_assoc, hbehind, getElem?_append_right (by rw [length_replicate]; exact Nat.le_add_right n i),
      length_replicate, Nat.add_sub_cancel_left]
  obtain ⟨c, hsoi, hfine, hpos⟩ := expectSoi_at hsteady (new_from start).1 (hhead 0 (by decide)) (hhead 1 (by decide))
  change c.pos = 2 at hpos
  obtain ⟨t, hmarker, ht, hat⟩ := nextMarker_at hsteady (show (0xE0 : UInt8) ≠ 0xFF by decide) (by decide) hfine
    (by rw [hpos]; exact hhead 2 (by decide)) (by rw [hpos]; exact hfill) (by rw [hpos]; exact htail 0)
  rw [hpos] at hat
  obtain ⟨u, hskip⟩ := skipSegment_faults hsteady ht (by rw [hat]; exact htail 1) (by rw [hat]; exact htail 2)
    (by omega)
  have hstep : untilFrameStep src c = (.faulted .overflow, u) := by
    unfold untilFrameStep
    rw [Checked.bind_done hmarker, if_neg (by decide), if_neg (by decide), if_neg (by decide)]
    exact Checked.bind_faulted hskip
  have hframe : untilFrame src (.new start) = (.faulted .overflow, u) := by
    unfold untilFrame
    rw [Checked.bind_done hsoi]
    exact Checked.loop_faulted hstep _
  exact ⟨u, Checked.bind_faulted hframe⟩

end

def overlongBytes : List UInt8 := [0xFF, 0xD8, 0xFF] ++ (List.replicate (2 ^ 64 - 7) 0xFF ++ [0xE0, 0xFF, 0xFF])

def overlongSource : ByteSource Unit where
  bytes := overlongBytes
  fits := by
    unfold overlongBytes
    rw [length_append, length_append, length_replicate]
    decide
  readAt offset want s := (some ((overlongBytes.drop offset).take want), s)
  reads offset want s got t h := by
    cases h
    exact prefix_rfl

theorem openDcScan_overlongSource : ∃ c, openDcScan overlongSource (.new ()) = (.faulted .overflow, c) :=
  openDcScan_overlong (fun _ _ _ => rfl) rfl (by decide) ()

end Overlong

end SyncEngine.Thumb
