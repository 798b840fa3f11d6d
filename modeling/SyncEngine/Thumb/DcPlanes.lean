import SyncEngine.Thumb.DcReader
import Mathlib.Algebra.BigOperators.Group.List.Basic
import Mathlib.Tactic.Linarith

/-! # Planes

The planes are sized once, from the frame that stands then, and a later frame may change
the grid a scan is over. What is decoded lands on the planes or nowhere.
-/

namespace SyncEngine.Thumb

open ByteCursor Collections Checked List

/-! ## Frames -/

structure CompInfo.Fine (info : CompInfo) : Prop where
  h_pos : 0 < info.h
  h_le : info.h ≤ 4
  v_pos : 0 < info.v
  v_le : info.v ≤ 4
  tq_lt : info.tq < 4

/-- What a frame header may say. -/
structure FrameInfo.Fine (frame : FrameInfo) : Prop where
  width_pos : 0 < frame.width
  width_lt : frame.width < 2 ^ 16
  height_pos : 0 < frame.height
  height_lt : frame.height < 2 ^ 16
  hmax_pos : 0 < frame.hmax
  hmax_le : frame.hmax ≤ 4
  vmax_pos : 0 < frame.vmax
  vmax_le : frame.vmax ≤ 4
  comps : ∀ comp ∈ frame.comps, comp.2.Fine
  count : frame.comps.length = 1 ∨ frame.comps.length = 3

def FrameInfo.grid (frame : FrameInfo) : Nat × Nat :=
  ((frame.width + 8 * frame.hmax - 1) / (8 * frame.hmax), (frame.height + 8 * frame.vmax - 1) / (8 * frame.vmax))

section Grid

variable {σ : Type} {before : σ → Prop} {frame : FrameInfo}

theorem divCeil_meets {a b : Nat} (hpos : 0 < b) :
    (divCeil a b : Checked ThumbError σ Nat).Meets before fun q s => q = (a + b - 1) / b ∧ before s := by
  unfold divCeil
  rw [if_neg (ne_of_gt hpos)]
  exact Meets.pure fun _ hs => ⟨rfl, hs⟩

theorem units_bounds {side most : Nat} (hpos : 0 < side) (hlt : side < 2 ^ 16) (hmost : 0 < most) :
    0 < (side + 8 * most - 1) / (8 * most) ∧ (side + 8 * most - 1) / (8 * most) ≤ 2 ^ 13 := by
  constructor
  · exact Nat.div_pos (by omega) (by omega)
  rw [Nat.div_le_iff_le_mul_add_pred (by omega)]
  omega

theorem FrameInfo.Fine.grid_bounds (h : frame.Fine) :
    (0 < frame.grid.1 ∧ frame.grid.1 ≤ 2 ^ 13) ∧ 0 < frame.grid.2 ∧ frame.grid.2 ≤ 2 ^ 13 :=
  ⟨units_bounds h.width_pos h.width_lt h.hmax_pos, units_bounds h.height_pos h.height_lt h.vmax_pos⟩

theorem mcuGrid_meets (h : frame.Fine) :
    (mcuGrid frame : Checked ThumbError σ (Nat × Nat)).Meets before fun grid s => grid = frame.grid ∧ before s := by
  have hh := h.hmax_pos
  have hv := h.vmax_pos
  have hhle := h.hmax_le
  have hvle := h.vmax_le
  refine Meets.mul (by omega) ((divCeil_meets (by omega)).bind fun x => Meets.given fun hx => ?_)
  refine Meets.mul (by omega) ((divCeil_meets (by omega)).bind fun y => Meets.given fun hy => ?_)
  exact Meets.pure fun _ hs => ⟨by rw [hx, hy]; rfl, hs⟩

def blockCount (grid : Nat × Nat) (info : CompInfo) : Nat := grid.1 * info.h * (grid.2 * info.v)

theorem blockCount_le {grid : Nat × Nat} {info : CompInfo} (hx : grid.1 ≤ 2 ^ 13) (hy : grid.2 ≤ 2 ^ 13)
    (hinfo : info.Fine) : blockCount grid info ≤ 2 ^ 30 := by
  have hwide : grid.1 * info.h ≤ 2 ^ 13 * 4 := Nat.mul_le_mul hx hinfo.h_le
  have hhigh : grid.2 * info.v ≤ 2 ^ 13 * 4 := Nat.mul_le_mul hy hinfo.v_le
  exact Nat.le_trans (Nat.mul_le_mul hwide hhigh) (by decide)

theorem blocksOf_meets {grid : Nat × Nat} {info : CompInfo} (hx : grid.1 ≤ 2 ^ 13) (hy : grid.2 ≤ 2 ^ 13)
    (hinfo : info.Fine) :
    (blocksOf grid info : Checked ThumbError σ Nat).Meets before fun blocks s =>
      blocks = blockCount grid info ∧ before s := by
  have hwide : grid.1 * info.h ≤ 2 ^ 13 * 4 := Nat.mul_le_mul hx hinfo.h_le
  have htall : grid.1 * info.h * grid.2 ≤ 2 ^ 13 * 4 * 2 ^ 13 := Nat.mul_le_mul hwide hy
  have hall : grid.1 * info.h * grid.2 * info.v ≤ 2 ^ 13 * 4 * 2 ^ 13 * 4 := Nat.mul_le_mul htall hinfo.v_le
  refine Meets.mul (by omega) (Meets.mul (by omega) ?_)
  intro s hs
  unfold Checked.mulWithin
  rw [if_pos (by omega)]
  exact ⟨Nat.mul_assoc _ _ _, hs⟩

theorem totalBlocks_meets (h : frame.Fine) :
    (totalBlocks frame : Checked ThumbError σ Nat).Meets before fun total s =>
      ((frame.comps.map fun comp => blockCount frame.grid comp.2).sum = total ∧ total ≤ MAX_TOTAL_BLOCKS) ∧
        before s := by
  obtain ⟨⟨-, hx⟩, -, hy⟩ := h.grid_bounds
  have hfew : frame.comps.length ≤ 3 := by
    rcases h.count with hone | hthree <;> omega
  have hsum : ∀ comps : List (UInt8 × CompInfo), (∀ comp ∈ comps, comp.2.Fine) → ∀ start : Nat,
      start + 2 ^ 30 * comps.length < 2 ^ 64 →
      (Checked.foldWith (fun total (comp : UInt8 × CompInfo) => do
          let blocks ← blocksOf frame.grid comp.2
          .addWithin 64 total blocks) comps start : Checked ThumbError σ Nat).Meets before fun total s =>
        start + (comps.map fun comp => blockCount frame.grid comp.2).sum = total ∧ before s := by
    intro comps
    induction comps with
    | nil => exact fun _ start _ s hs => ⟨rfl, hs⟩
    | cons comp comps ih =>
      intro hfine start hroom
      rw [length_cons] at hroom
      have hinfo := hfine comp mem_cons_self
      have hblocks := blockCount_le hx hy hinfo
      have hfirst : (do
          let blocks ← blocksOf frame.grid comp.2
          .addWithin 64 start blocks : Checked ThumbError σ Nat).Meets before fun next s =>
            next = start + blockCount frame.grid comp.2 ∧ before s := by
        refine (blocksOf_meets hx hy hinfo).bind fun blocks => Meets.given fun heq => ?_
        intro s hs
        unfold Checked.addWithin
        rw [if_pos (by omega)]
        exact ⟨by rw [heq], hs⟩
      · refine hfirst.bind fun next => Meets.given fun hnext => ?_
        refine (ih (fun other hmem => hfine other (mem_cons_of_mem _ hmem)) next (by omega)).weaken
          fun total s hs => ⟨?_, hs.2⟩
        rw [← hs.1, hnext, map_cons, sum_cons, Nat.add_assoc]
  refine (mcuGrid_meets h).bind fun grid => Meets.given fun hgrid => ?_
  subst hgrid
  refine (hsum frame.comps h.comps 0 (by omega)).bind fun total => Meets.given fun htotal => ?_
  split
  · exact Meets.fail
  rename_i hplausible
  rw [not_or] at hplausible
  refine Meets.pure fun s hs => ⟨⟨?_, Nat.le_of_not_lt hplausible.2⟩, hs⟩
  rw [← htotal, Nat.zero_add]

end Grid

/-! ## Planes -/

/-- What never changes of a component once its plane is made. -/
structure CompShape where
  info : CompInfo
  planeW : Nat
  planeH : Nat
  size : Nat

def CompState.shape (comp : CompState) : CompShape := ⟨comp.info, comp.planeW, comp.planeH, comp.plane.size⟩

/-- A plane that is whole, and small enough to count in words. -/
structure CompShape.Fine (shape : CompShape) : Prop where
  info : shape.info.Fine
  size_eq : shape.size = shape.planeW * shape.planeH
  planeW_pos : 0 < shape.planeW
  planeW_le : shape.planeW ≤ 2 ^ 15
  planeH_pos : 0 < shape.planeH
  planeH_le : shape.planeH ≤ 2 ^ 15

def CompInfo.shape (grid : Nat × Nat) (info : CompInfo) : CompShape :=
  ⟨info, grid.1 * info.h, grid.2 * info.v, grid.1 * info.h * (grid.2 * info.v)⟩

theorem CompInfo.Fine.shape {grid : Nat × Nat} {info : CompInfo} (h : info.Fine)
    (hx : 0 < grid.1 ∧ grid.1 ≤ 2 ^ 13) (hy : 0 < grid.2 ∧ grid.2 ≤ 2 ^ 13) : (info.shape grid).Fine where
  info := h
  size_eq := rfl
  planeW_pos := Nat.mul_pos hx.1 h.h_pos
  planeW_le := Nat.le_trans (Nat.mul_le_mul hx.2 h.h_le) (by decide)
  planeH_pos := Nat.mul_pos hy.1 h.v_pos
  planeH_le := Nat.le_trans (Nat.mul_le_mul hy.2 h.v_le) (by decide)

/-- The frame the planes were built from. -/
structure Planes.BuiltFrom (planes : Planes) (frame : FrameInfo) : Prop where
  fine : frame.Fine
  width : planes.width = frame.width
  height : planes.height = frame.height
  hmax : planes.hmax = frame.hmax
  vmax : planes.vmax = frame.vmax
  shapes : planes.comps.map CompState.shape = frame.comps.map fun comp => comp.2.shape frame.grid
  small : (planes.comps.map fun comp => comp.plane.size).sum ≤ MAX_TOTAL_BLOCKS

variable {frame : FrameInfo}

theorem Planes.BuiltFrom.length {planes : Planes} (h : planes.BuiltFrom frame) :
    planes.comps.length = frame.comps.length := by
  have hlengths := congrArg List.length h.shapes
  rwa [length_map, length_map] at hlengths

theorem Planes.BuiltFrom.shape_fine {planes : Planes} (h : planes.BuiltFrom frame)
    {comp : CompState} (hcomp : comp ∈ planes.comps) : comp.shape.Fine := by
  have hmem := mem_map_of_mem (f := CompState.shape) hcomp
  rw [h.shapes] at hmem
  obtain ⟨info, hinfo, heq⟩ := mem_map.mp hmem
  rw [← heq]
  exact (h.fine.comps info hinfo).shape h.fine.grid_bounds.1 h.fine.grid_bounds.2

theorem Planes.BuiltFrom.with {planes : Planes} (h : planes.BuiltFrom frame)
    {comps : List CompState} (hshapes : comps.map CompState.shape = planes.comps.map CompState.shape) :
    ({ planes with comps } : Planes).BuiltFrom frame := by
  refine ⟨h.fine, h.width, h.height, h.hmax, h.vmax, hshapes.trans h.shapes, ?_⟩
  have hsizes : ∀ list : List CompState, list.map (fun comp => comp.plane.size) =
      (list.map CompState.shape).map CompShape.size := fun list => by
    rw [map_map]
    rfl
  have hsmall := h.small
  rw [hsizes] at hsmall
  rw [hsizes, hshapes]
  exact hsmall

section Decoding

variable {σ : Type} {src : ByteSource σ} {p q : Nat}
variable {before : ByteCursor σ → Prop}

theorem newComp_meets {grid : Nat × Nat} {qDc : List (Option Nat)} {info : CompInfo}
    (hqDc : qDc.length = 4) (hx : grid.1 ≤ 2 ^ 13) (hy : grid.2 ≤ 2 ^ 13) (hinfo : info.Fine) :
    (newComp grid qDc info).Meets before fun comp c => (comp.shape = info.shape grid ∧ comp.seq = 0) ∧ before c := by
  have hwide : grid.1 * info.h ≤ 2 ^ 13 * 4 := Nat.mul_le_mul hx hinfo.h_le
  have hhigh : grid.2 * info.v ≤ 2 ^ 13 * 4 := Nat.mul_le_mul hy hinfo.v_le
  have htq : info.tq < qDc.length := by
    rw [hqDc]
    exact hinfo.tq_lt
  refine Meets.mul (by omega) (Meets.mul (by omega) (Meets.item htq ?_))
  refine Meets.expect fun quantizer _ => Meets.pure fun c hc => ⟨⟨?_, rfl⟩, hc⟩
  unfold CompState.shape CompInfo.shape
  rw [Array.size_replicate]

/-- What a walk may have read so far. -/
structure DcWalk.Fine (walk : DcWalk) : Prop where
  qDc : walk.qDc.length = 4
  dcTables : walk.dcTables.length = 4
  tables : ∀ table, some table ∈ walk.dcTables → table.Fine
  frame : ∀ frame, walk.frame = some frame → frame.Fine
  planes : ∀ planes, walk.planes = some planes → ∃ frame, planes.BuiltFrom frame ∧ frame.comps.length = 3

theorem map_eq_of_forall₂ {α β γ : Type} {f : α → γ} {g : β → γ} {P : β → Prop} {as : List α} {bs : List β}
    (h : List.Forall₂ (fun a b => g b = f a ∧ P b) as bs) : bs.map g = as.map f ∧ ∀ b ∈ bs, P b := by
  induction h with
  | nil => exact ⟨rfl, fun _ hb => nomatch hb⟩
  | cons hfirst _ ih =>
    refine ⟨?_, fun b hb => ?_⟩
    · rw [map_cons, map_cons, hfirst.1, ih.1]
    rcases mem_cons.mp hb with rfl | hb
    · exact hfirst.2
    · exact ih.2 b hb

theorem exists_of_forall₂ {α β : Type} {R : α → β → Prop} {as : List α} {bs : List β} (h : List.Forall₂ R as bs)
    {b : β} (hb : b ∈ bs) : ∃ a ∈ as, R a b := by
  induction h with
  | nil => exact nomatch hb
  | cons hfirst _ ih =>
    rcases mem_cons.mp hb with rfl | hb
    · exact ⟨_, mem_cons_self, hfirst⟩
    obtain ⟨a, ha, hR⟩ := ih hb
    exact ⟨a, mem_cons_of_mem _ ha, hR⟩

variable {n : Nat}

theorem ensurePlanes_meets {walk : DcWalk} (h : walk.Fine)
    (hseq : ∀ planes, walk.planes = some planes → ∀ comp ∈ planes.comps, comp.seq ≤ n) :
    (ensurePlanes walk).Meets before fun planes c =>
      ((∃ frame, planes.BuiltFrom frame ∧ (frame.comps.length = 3 ∨ walk.frame = some frame)) ∧
        ∀ comp ∈ planes.comps, comp.seq ≤ n) ∧ before c := by
  unfold ensurePlanes
  split
  · rename_i planes hplanes
    obtain ⟨frame, hbuilt, hthree⟩ := h.planes planes hplanes
    exact Meets.pure fun c hc => ⟨⟨⟨frame, hbuilt, Or.inl hthree⟩, hseq planes hplanes⟩, hc⟩
  refine Meets.expect fun frame hframe => ?_
  have hfine := h.frame frame hframe
  obtain ⟨⟨-, hx⟩, -, hy⟩ := hfine.grid_bounds
  refine (totalBlocks_meets hfine).bind fun total => Meets.given fun htotal => ?_
  refine (mcuGrid_meets hfine).bind fun grid => Meets.given fun hgrid => ?_
  subst hgrid
  refine (Meets.mapWith (fun (comp : UInt8 × CompInfo) (state : CompState) =>
    state.shape = comp.2.shape frame.grid ∧ state.seq = 0) frame.comps fun comp hcomp =>
      newComp_meets h.qDc hx hy (hfine.comps comp hcomp)).bind fun comps => Meets.given fun hcomps => ?_
  obtain ⟨hshapes, hstart⟩ := map_eq_of_forall₂ hcomps
  have hsmall : (comps.map fun comp => comp.plane.size).sum ≤ MAX_TOTAL_BLOCKS := by
    have hsizes : (comps.map fun comp => comp.plane.size) = (comps.map CompState.shape).map CompShape.size := by
      rw [map_map]
      rfl
    rw [hsizes, hshapes, map_map]
    exact le_trans (le_of_eq htotal.1) htotal.2
  rw [if_neg (Nat.not_lt_of_le hsmall)]
  refine Meets.pure fun c hc => ⟨⟨⟨frame, ?_, Or.inr hframe⟩, fun comp hcomp => ?_⟩, hc⟩
  · exact ⟨hfine, rfl, rfl, rfl, rfl, hshapes, hsmall⟩
  rw [hstart comp hcomp]
  exact Nat.zero_le n

/-! ## Blocks -/

/-- The units of a scan that its blocks are placed by. -/
structure ScanGrid.Fine (grid : ScanGrid) (unit : Nat) : Prop where
  mcus : grid.interleaved = true → 0 < grid.mcusX ∧ grid.mcusX ≤ 2 ^ 13 ∧ unit / grid.mcusX < 2 ^ 13
  row : grid.interleaved = false → 0 < grid.unitsX

theorem asU32_le {n bound : Nat} (h : n ≤ bound) (hbound : bound < 2 ^ 32) : asU32 n ≤ bound := by
  unfold asU32
  rw [if_pos (lt_of_le_of_lt h hbound)]
  exact h

variable {comp : CompState}

theorem blockAt_meets {grid : ScanGrid} {unit b : Nat}
    (hgrid : grid.Fine unit) (hb : b < 16) (hinfo : comp.info.Fine) :
    (blockAt grid unit b comp).Meets before fun _ c => before c := by
  unfold blockAt
  split
  · rename_i hinterleaved
    obtain ⟨hpos, hx, hy⟩ := hgrid.mcus hinterleaved
    have hleft : asU32 (unit % grid.mcusX) * comp.info.h ≤ 2 ^ 13 * 4 :=
      Nat.mul_le_mul (asU32_le (Nat.le_trans (Nat.le_of_lt (Nat.mod_lt _ hpos)) hx) (by decide)) hinfo.h_le
    have htop : asU32 (unit / grid.mcusX) * comp.info.v ≤ 2 ^ 13 * 4 :=
      Nat.mul_le_mul (asU32_le (Nat.le_of_lt hy) (by decide)) hinfo.v_le
    have hright := Nat.mod_lt b hinfo.h_pos
    have hdown := Nat.div_le_self b comp.info.h
    have hfew := hinfo.h_le
    refine Meets.divMod hpos (Meets.divMod hinfo.h_pos ?_)
    refine Meets.mul (by omega) (Meets.add (by omega) ?_)
    refine Meets.mul (by omega) (Meets.add (by omega) ?_)
    exact Meets.pure fun _ hc => hc
  rename_i hseparate
  refine Meets.divMod (hgrid.row (Bool.eq_false_of_not_eq_true hseparate)) ?_
  exact Meets.pure fun _ hc => hc

theorem store_meets {place : Nat × Nat} {value : Int}
    (hshape : comp.shape.Fine) :
    (comp.store place value).Meets before fun stored c =>
      (stored.shape = comp.shape ∧ stored.seq = comp.seq) ∧ before c := by
  unfold CompState.store
  split
  · rename_i hin
    have hsize : comp.plane.size = comp.planeW * comp.planeH := hshape.size_eq
    have hwide : comp.planeW ≤ 2 ^ 15 := hshape.planeW_le
    have hhigh : comp.planeH ≤ 2 ^ 15 := hshape.planeH_le
    have hrow : (place.2 + 1) * comp.planeW ≤ comp.planeW * comp.planeH := by
      rw [Nat.mul_comm comp.planeW]
      exact Nat.mul_le_mul_right _ hin.2
    have hall : comp.planeW * comp.planeH ≤ 2 ^ 15 * 2 ^ 15 := Nat.mul_le_mul hwide hhigh
    rw [Nat.add_mul, Nat.one_mul] at hrow
    refine Meets.mul (by omega) (Meets.add (by omega) ?_)
    rw [if_pos (by omega)]
    refine Meets.pure fun c hc => ⟨⟨?_, rfl⟩, hc⟩
    unfold CompState.shape
    rw [Array.size_setIfInBounds]
  · exact Meets.pure fun c hc => ⟨⟨rfl, rfl⟩, hc⟩

/-- A component whose blocks were counted no further than bits were handed out. -/
structure Counted (src : ByteSource σ) (p : Nat) (shape : CompShape) (q : Nat) (state : BitReader × CompState)
    (c : ByteCursor σ) : Prop where
  reads : state.1.Reads src p q c
  shape : state.2.shape = shape
  seq : state.2.seq ≤ q

theorem decodeBlock_meets (hbits : 8 * src.len < 2 ^ 64) {grid : ScanGrid} {table : HuffTable} {unit b : Nat}
    {reader : BitReader} {shape : CompShape} (hshape : shape.Fine) (htable : table.Fine)
    (hgrid : grid.Fine unit) (hb : b < 16) :
    (decodeBlock src grid table unit b reader comp).Meets (Counted src p shape q (reader, comp))
      (Counted src p shape (q + 1)) := by
  refine Meets.knowing (comp.shape = shape ∧ comp.seq ≤ q) (reader.Reads src p q) (fun hcomp => ?_)
    fun c hc => ⟨⟨hc.shape, hc.seq⟩, hc.reads⟩
  obtain ⟨rfl, hseq⟩ := hcomp
  refine (decodeSymbol_meets htable).bind fun symbol => ?_
  dsimp only
  split
  · exact Meets.fail
  rename_i hcategory
  refine (receiveExtend_meets (Nat.le_of_not_lt hcategory)).bind fun value => ?_
  split
  · exact Meets.fail
  refine (blockAt_meets hgrid hb hshape.info).bind fun place => ?_
  have hpred : ({ comp with pred := comp.pred + value.1 } : CompState).shape.Fine := hshape
  refine (store_meets hpred).bind fun stored => Meets.given fun hstored => ?_
  obtain ⟨hkept, hsame⟩ := hstored
  have hsame : stored.seq = comp.seq := hsame
  split
  · exact Meets.pure fun c hc => ⟨hc, hkept, by rw [hsame]; exact Nat.le_succ_of_le hseq⟩
  refine Meets.ghost ByteCursor.pos fun at' => ?_
  refine Meets.knowing (q + 1 ≤ 8 * src.len) (value.2.Reads src p (q + 1)) (fun hfew => ?_)
    fun c hc => ⟨?_, hc.1⟩
  · rw [hsame]
    refine Meets.add (by omega) (Meets.pure fun c hc => ⟨hc, hkept, ?_⟩)
    exact Nat.succ_le_succ hseq
  have hhanded := hc.1.handed
  have hend := hc.1.within.2.2
  omega

/-! ## Units -/

variable {reader : BitReader} {comps : List CompState} {scan : List (Nat × HuffTable)}

/-- Components of the same shapes, none counted further. -/
def Same (shapes : List CompShape) (n : Nat) (comps : List CompState) : Prop :=
  comps.map CompState.shape = shapes ∧ ∀ comp ∈ comps, comp.seq ≤ n

theorem Same.length {shapes : List CompShape} (h : Same shapes n comps) : comps.length = shapes.length := by
  rw [← h.1, length_map]

theorem Same.set {shapes : List CompShape} {n i : Nat} (h : Same shapes n comps) (hi : i < comps.length)
    (hshape : comp.shape = comps[i].shape) (hseq : comp.seq ≤ n) :
    Same shapes n (comps.set i comp) := by
  refine ⟨?_, fun other hother => ?_⟩
  · rw [map_set, hshape, ← h.1]
    have hmapped : i < (comps.map CompState.shape).length := by
      rw [length_map]
      exact hi
    have hat : (comps.map CompState.shape)[i] = comps[i].shape := getElem_map _
    rw [← hat]
    exact set_getElem_self hmapped
  rcases mem_or_eq_of_mem_set hother with hother | rfl
  · exact h.2 other hother
  · exact hseq

/-- The slots of a scan are there, with tables to look symbols up in. -/
def ScanFine (scan : List (Nat × HuffTable)) (n : Nat) : Prop := ∀ slot ∈ scan, slot.1 < n ∧ slot.2.Fine

theorem eachSlot_meets {change : CompState → CompState}
    (hshape : ∀ comp, (change comp).shape = comp.shape) (hseq : ∀ comp, (change comp).seq = comp.seq)
    {shapes : List CompShape} (hscan : ScanFine scan shapes.length) (h : Same shapes n comps) :
    (eachSlot change scan comps).Meets before fun comps c => Same shapes n comps ∧ before c := by
  refine Meets.mono (Meets.foldWith (fun comps c => Same shapes n comps ∧ before c) scan
    (fun slot hslot comps => Meets.given fun hsame => ?_) comps) (fun c hc => ⟨h, hc⟩) fun _ _ h => h
  have hi : slot.1 < comps.length := by
    rw [hsame.length]
    exact (hscan slot hslot).1
  refine Meets.item hi fun c hc => ?_
  unfold Checked.replace
  rw [if_pos hi]
  refine ⟨hsame.set hi (hshape _) ?_, hc⟩
  rw [hseq]
  exact hsame.2 _ (getElem_mem hi)

theorem resetPreds_meets {shapes : List CompShape}
    (hscan : ScanFine scan shapes.length) (h : Same shapes n comps) :
    (resetPreds scan comps).Meets before fun comps c => Same shapes n comps ∧ before c := by
  refine eachSlot_meets ?_ ?_ hscan h
  · exact fun _ => rfl
  · exact fun _ => rfl

theorem eachSlot_establishes {change : CompState → CompState} {P : CompState → Prop}
    (hchange : ∀ comp, P (change comp)) {held : Nat → Prop}
    (hheld : ∀ i, held i → ∀ comp, comps[i]? = some comp → P comp) (hscan : ∀ slot ∈ scan, slot.1 < comps.length) :
    (eachSlot change scan comps).Meets before fun comps c =>
      (∀ i, (held i ∨ ∃ slot ∈ scan, slot.1 = i) → ∀ comp, comps[i]? = some comp → P comp) ∧ before c := by
  induction scan generalizing comps held with
  | nil =>
    refine fun c hc => ⟨fun i hi => ?_, hc⟩
    rcases hi with hi | ⟨slot, hslot, -⟩
    · exact hheld i hi
    · exact nomatch hslot
  | cons slot scan ih =>
    have hi := hscan slot mem_cons_self
    have hrest := @ih (comps.set slot.1 (change comps[slot.1])) (fun i => held i ∨ slot.1 = i)
      (fun i hor comp hat => ?_) (fun other hother => ?_)
    · refine Meets.bind (Meets.item hi (?_ : Meets before _ fun next c =>
        next = comps.set slot.1 (change comps[slot.1]) ∧ before c)) fun next => Meets.given fun hnext => ?_
      · intro c hc
        unfold Checked.replace
        rw [if_pos hi]
        exact ⟨rfl, hc⟩
      rw [hnext]
      refine hrest.weaken fun final c hfinal => ⟨fun i hor => hfinal.1 i ?_, hfinal.2⟩
      rcases hor with hor | ⟨other, hother, heq⟩
      · exact Or.inl (Or.inl hor)
      rcases mem_cons.mp hother with rfl | hother
      · exact Or.inl (Or.inr heq)
      · exact Or.inr ⟨other, hother, heq⟩
    · rw [getElem?_set] at hat
      split at hat
      · cases hat
        exact hchange _
      rename_i hne
      exact hheld i (hor.resolve_right hne) comp hat
    rw [length_set]
    exact hscan other (mem_cons_of_mem _ hother)

/-- The components and the reader in the middle of a scan. -/
def Live (src : ByteSource σ) (p : Nat) (shapes : List CompShape) (reader : BitReader) (comps : List CompState)
    (c : ByteCursor σ) : Prop := ∃ q, Same shapes q comps ∧ reader.Reads src p q c

theorem Same.mono {shapes : List CompShape} {n m : Nat} (h : Same shapes n comps) (hle : n ≤ m) :
    Same shapes m comps := ⟨h.1, fun comp hcomp => le_trans (h.2 comp hcomp) hle⟩

theorem decodeBlocks_meets (hbits : 8 * src.len < 2 ^ 64) {shapes : List CompShape} {grid : ScanGrid} {unit : Nat}
    (hgrid : grid.Fine unit) {slot : Nat × HuffTable} (htable : slot.2.Fine)
    {state : BitReader × List CompState} (hi : slot.1 < state.2.length) (hshape : (state.2[slot.1]).shape.Fine)
    {q : Nat} (hsame : Same shapes q state.2) {blocks : Nat} (hfew : blocks ≤ 16) :
    (do
      let (reader, comp) ← Checked.upTo (fun b state => decodeBlock src grid slot.2 unit b state.1 state.2) blocks
        (state.1, state.2[slot.1])
      let comps ← .replace state.2 slot.1 comp
      return (reader, comps) : Reading σ (BitReader × List CompState)).Meets (state.1.Reads src p q)
        fun state => Live src p shapes state.1 state.2 := by
  have hdecoded : (Checked.upTo (fun b state => decodeBlock src grid slot.2 unit b state.1 state.2) blocks
      (state.1, state.2[slot.1])).Meets (Counted src p (state.2[slot.1]).shape (q + 0) (state.1, state.2[slot.1]))
        (Counted src p (state.2[slot.1]).shape (q + blocks)) :=
    Meets.upTo (fun i => Counted src p (state.2[slot.1]).shape (q + i)) blocks
      (fun i hlt decoded => decodeBlock_meets hbits hshape htable hgrid (lt_of_lt_of_le hlt hfew)) _
  refine Meets.mono (hdecoded.bind fun decoded => Meets.replace hi (Meets.pure
    fun c hc => ?_)) (fun c hc => ⟨hc, rfl, hsame.2 _ (getElem_mem hi)⟩) fun _ _ h => h
  exact ⟨q + blocks, (hsame.mono (Nat.le_add_right _ _)).set hi hc.shape hc.seq, hc.reads⟩

theorem decodeSlot_meets (hbits : 8 * src.len < 2 ^ 64) {shapes : List CompShape}
    (hshapes : ∀ shape ∈ shapes, shape.Fine) {grid : ScanGrid} {unit : Nat} (hgrid : grid.Fine unit)
    {slot : Nat × HuffTable} (hslot : slot.1 < shapes.length) (htable : slot.2.Fine)
    {state : BitReader × List CompState} :
    (decodeSlot src grid unit state slot).Meets (Live src p shapes state.1 state.2)
      fun state => Live src p shapes state.1 state.2 := by
  refine Meets.of_exists fun q => Meets.given fun hsame => ?_
  have hi : slot.1 < state.2.length := by
    rw [hsame.length]
    exact hslot
  have hshape : (state.2[slot.1]).shape.Fine := by
    refine hshapes _ ?_
    rw [← hsame.1]
    exact mem_map_of_mem (getElem_mem hi)
  have hinfo : (state.2[slot.1]).info.Fine := hshape.info
  have harea : (state.2[slot.1]).info.h * (state.2[slot.1]).info.v ≤ 4 * 4 := Nat.mul_le_mul hinfo.h_le hinfo.v_le
  refine Meets.item hi ?_
  split
  · exact Meets.mul (by omega) (decodeBlocks_meets hbits hgrid htable hi hshape hsame harea)
  · exact decodeBlocks_meets hbits hgrid htable hi hshape hsame (by decide)

/-- What is carried from unit to unit, and the units since the last restart. -/
def Carried (src : ByteSource σ) (p : Nat) (shapes : List CompShape) (units : Nat) (run : Decoding)
    (c : ByteCursor σ) : Prop := run.sinceRestart ≤ units ∧ Live src p shapes run.reader run.comps c

theorem restartIfDue_meets {shapes : List CompShape} {restartInterval units : Nat} {run : Decoding}
    (hscan : ScanFine scan shapes.length) :
    (restartIfDue src restartInterval scan run).Meets (Carried src p shapes units run)
      (Carried src p shapes units) := by
  unfold restartIfDue
  split
  · refine Meets.given fun _ => Meets.of_exists fun q => Meets.given fun hsame => ?_
    refine BitReader.expectRestart_meets.bind fun reader => ?_
    refine (resetPreds_meets hscan hsame).bind fun comps => Meets.pure fun c hc => ?_
    exact ⟨Nat.zero_le _, q, hc.1, hc.2⟩
  · exact Meets.pure fun _ hc => hc

theorem decodeUnit_meets (hbits : 8 * src.len < 2 ^ 64) {shapes : List CompShape}
    (hshapes : ∀ shape ∈ shapes, shape.Fine) {restartInterval : Nat} {grid : ScanGrid} {unit : Nat}
    (hgrid : grid.Fine unit) (hscan : ScanFine scan shapes.length) (hfew : unit < 2 ^ 31) {run : Decoding} :
    (decodeUnit src restartInterval grid scan unit run).Meets (Carried src p shapes unit run)
      (Carried src p shapes (unit + 1)) := by
  refine (restartIfDue_meets hscan).bind fun run => Meets.given fun hsince => ?_
  refine (Meets.foldWith (fun state c => Live src p shapes state.1 state.2 c) scan
    (fun slot hslot state => decodeSlot_meets hbits hshapes hgrid (hscan slot hslot).1 (hscan slot hslot).2)
    (run.reader, run.comps)).bind fun state => ?_
  exact Meets.add (by omega) (Meets.pure fun c hc => ⟨Nat.succ_le_succ hsince, hc⟩)

/-! ## Scans -/

theorem scanUnits_meets {frame : FrameInfo} (hframe : frame.Fine)
    (hshapes : ∀ comp ∈ comps, comp.info.Fine) (hne : scan ≠ []) (hscan : ScanFine scan comps.length) :
    (scanUnits frame frame.grid scan comps).Meets before fun units c =>
      ((0 < units.1 ∧ units.1 ≤ 2 ^ 15 ∧ units.2 ≤ 2 ^ 15) ∧ (1 < scan.length → units = frame.grid)) ∧
        before c := by
  obtain ⟨⟨hx, hxle⟩, hy, hyle⟩ := hframe.grid_bounds
  unfold scanUnits
  split
  · exact Meets.pure fun _ hc => ⟨⟨⟨hx, by omega, by omega⟩, fun _ => rfl⟩, hc⟩
  rename_i hone
  have hfirst : 0 < scan.length := length_pos_of_ne_nil hne
  refine Meets.item hfirst ?_
  have hi := (hscan scan[0] (getElem_mem hfirst)).1
  have hinfo := hshapes comps[scan[0].1] (getElem_mem hi)
  have hh := hinfo.h_le
  have hv := hinfo.v_le
  have hwide : frame.width * (comps[scan[0].1]).info.h ≤ 2 ^ 16 * 4 := Nat.mul_le_mul (Nat.le_of_lt hframe.width_lt) hh
  have hhigh : frame.height * (comps[scan[0].1]).info.v ≤ 2 ^ 16 * 4 :=
    Nat.mul_le_mul (Nat.le_of_lt hframe.height_lt) hv
  have hhmax := hframe.hmax_le
  have hvmax := hframe.vmax_le
  have hhpos := hframe.hmax_pos
  have hvpos := hframe.vmax_pos
  have hceil : ∀ side most : Nat, side ≤ 2 ^ 16 * 4 → 0 < most → (side + 8 * most - 1) / (8 * most) ≤ 2 ^ 15 := by
    intro side most hside hmost
    rw [Nat.div_le_iff_le_mul_add_pred (by omega)]
    omega
  refine Meets.item hi (Meets.mul (by omega) (Meets.mul (by omega) ?_))
  refine (divCeil_meets (by omega)).bind fun bw => Meets.given fun hbw => ?_
  refine Meets.mul (by omega) (Meets.mul (by omega) ?_)
  refine (divCeil_meets (by omega)).bind fun bh => Meets.given fun hbh => Meets.pure fun c hc => ?_
  have hbw' := hceil _ _ hwide hhpos
  have hbh' := hceil _ _ hhigh hvpos
  rw [← hbw] at hbw'
  rw [← hbh] at hbh'
  exact ⟨⟨⟨by omega, by omega, by omega⟩, fun hmany => (hone hmany).elim⟩, hc⟩

theorem scanTables_meets {dcTables : List (Option HuffTable)}
    (htables : ∀ table, some table ∈ dcTables → table.Fine) (selected : List (Nat × Nat)) :
    (scanTables dcTables selected).Meets before fun scan c =>
      List.Forall₂ (fun comp slot => slot.1 = comp.1 ∧ slot.2.Fine) selected scan ∧ before c := by
  refine Meets.mapWith (fun (comp : Nat × Nat) (slot : Nat × HuffTable) => slot.1 = comp.1 ∧ slot.2.Fine)
    selected fun comp _ => Meets.expect fun table htable => Meets.pure fun c hc => ⟨⟨rfl, ?_⟩, hc⟩
  exact htables table (mem_of_getElem? (Option.join_eq_some_iff.mp htable))

theorem markDone_meets {shapes : List CompShape}
    (hscan : ScanFine scan shapes.length) (h : Same shapes n comps) :
    (markDone scan comps).Meets before fun comps c => (Same shapes n comps ∧
      ∀ i, (∃ slot ∈ scan, slot.1 = i) → ∀ comp, comps[i]? = some comp → comp.done) ∧ before c := by
  have hindex : ∀ slot ∈ scan, slot.1 < comps.length := by
    intro slot hslot
    rw [h.length]
    exact (hscan slot hslot).1
  have hheld : ∀ i : Nat, False → ∀ comp, comps[i]? = some comp → comp.done := fun _ hfalse => hfalse.elim
  refine Meets.weaken (Meets.both (eachSlot_meets ?_ ?_ hscan h)
    (eachSlot_establishes ?_ hheld hindex)) fun final c hfinal =>
      ⟨⟨hfinal.1.1, fun i hi => hfinal.2.1 i (Or.inr hi)⟩, hfinal.1.2⟩
  all_goals exact fun _ => rfl

/-- Planes that are whole, and done with unless they are of three components. -/
def Finished (planes : Planes) : Prop :=
  ∃ frame, planes.BuiltFrom frame ∧ (frame.comps.length = 3 ∨ ∀ comp ∈ planes.comps, comp.done = true)

theorem scan_indices {walk : DcWalk} {frame built : FrameInfo} (hframe : frame.Fine) (hstands : walk.frame = some frame)
    (hbuilt : built.comps.length = 3 ∨ walk.frame = some built) {i : Nat} (hi : i < frame.comps.length) :
    i < built.comps.length := by
  rcases hbuilt with hthree | hsame
  · rcases hframe.count with hcount | hcount <;> omega
  rw [hstands] at hsame
  cases hsame
  exact hi

theorem decodeDcEntropy_meets (hbits : 8 * src.len < 2 ^ 64) {walk : DcWalk} (h : walk.Fine) {at' al : Nat}
    (hseq : ∀ planes, walk.planes = some planes → ∀ comp ∈ planes.comps, comp.seq ≤ 8 * at')
    {selected : List (Nat × Nat)} (hne : selected ≠ [])
    (hselected : ∀ frame, walk.frame = some frame → ∀ comp ∈ selected, comp.1 < frame.comps.length) :
    (decodeDcEntropy src walk selected al).Meets (Within src at') fun planes c =>
      Finished planes ∧ (∀ comp ∈ planes.comps, comp.seq ≤ 8 * c.pos) ∧ c.From src at' := by
  refine (ensurePlanes_meets h hseq).bind fun planes => Meets.given fun hplanes => ?_
  obtain ⟨⟨built, hbuilt, hfrom⟩, hcounted⟩ := hplanes
  refine Meets.expect fun frame hstands => ?_
  have hframe := h.frame frame hstands
  refine (mcuGrid_meets hframe).bind fun grid => Meets.given fun hgrid => ?_
  subst hgrid
  refine (scanTables_meets h.tables selected).bind fun scan => Meets.given fun htables => ?_
  have hindex : ∀ slot ∈ scan, ∃ comp ∈ selected, slot.1 = comp.1 ∧ slot.2.Fine := fun slot hslot =>
    exists_of_forall₂ htables hslot
  have hscan : ScanFine scan (planes.comps.map CompState.shape).length := by
    intro slot hslot
    obtain ⟨comp, hcomp, heq, hfine⟩ := hindex slot hslot
    rw [length_map, hbuilt.length, heq]
    exact ⟨scan_indices hframe hstands hfrom (hselected frame hstands comp hcomp), hfine⟩
  have hscanne : scan ≠ [] := by
    rintro rfl
    exact hne (List.forall₂_nil_right_iff.mp htables)
  refine (resetPreds_meets hscan ⟨rfl, hcounted⟩).bind fun comps => Meets.given fun hsame => ?_
  have hshapes : ∀ shape ∈ planes.comps.map CompState.shape, shape.Fine := by
    intro shape hshape
    obtain ⟨comp, hcomp, rfl⟩ := mem_map.mp hshape
    exact hbuilt.shape_fine hcomp
  have hinfos : ∀ comp ∈ comps, comp.info.Fine := by
    intro comp hcomp
    have hmem : comp.shape ∈ planes.comps.map CompState.shape := hsame.1 ▸ mem_map_of_mem hcomp
    exact (hshapes _ hmem).info
  have hscan' : ScanFine scan comps.length := by
    rw [hsame.length]
    exact hscan
  refine (scanUnits_meets hframe hinfos hscanne hscan').bind fun units => Meets.given fun hunits => ?_
  obtain ⟨⟨hpos, hwide, hhigh⟩, hmany⟩ := hunits
  have htotal : units.1 * units.2 ≤ 2 ^ 15 * 2 ^ 15 := Nat.mul_le_mul hwide hhigh
  refine Meets.mul (by omega) ?_
  have hgrid : ∀ unit, unit < units.1 * units.2 →
      (⟨decide (1 < scan.length), frame.grid.1, units.1, al⟩ : ScanGrid).Fine unit := by
    intro unit hunit
    obtain ⟨⟨hx, hxle⟩, -, hyle⟩ := hframe.grid_bounds
    refine ⟨fun hinterleaved => ⟨hx, hxle, ?_⟩, fun _ => hpos⟩
    rw [hmany (of_decide_eq_true hinterleaved)] at hunit
    exact lt_of_lt_of_le (Nat.div_lt_of_lt_mul hunit) hyle
  have hrun := Meets.upTo (fun unit => Carried src at' (planes.comps.map CompState.shape) unit)
    (units.1 * units.2) (fun unit hunit run => @decodeUnit_meets _ src at' scan hbits _ hshapes walk.restartInterval _ unit
      (hgrid unit hunit) hscan (by omega) run) ⟨.new, comps, 0⟩
  refine Meets.mono (hrun.bind fun run => Meets.given fun _ => Meets.of_exists fun q =>
    Meets.given fun hlive => ?_) (fun c hc => ?_) fun _ _ h => h
  · refine (markDone_meets hscan hlive).bind fun comps => Meets.given fun hdone => ?_
    obtain ⟨hkept, hmarked⟩ := hdone
    have hfinished : Finished { planes with comps } := by
      refine ⟨built, hbuilt.with hkept.1, ?_⟩
      rcases hbuilt.fine.count with hone | hthree
      · right
        intro comp hcomp
        obtain ⟨i, hi, rfl⟩ := getElem_of_mem hcomp
        have hlength := hkept.length
        rw [length_map, hbuilt.length, hone] at hlength
        obtain ⟨slot, hslot⟩ := exists_mem_of_ne_nil scan hscanne
        have hindex := (hscan slot hslot).1
        rw [length_map, hbuilt.length, hone] at hindex
        refine hmarked i ⟨slot, hslot, ?_⟩ _ (getElem?_eq_getElem hi)
        dsimp only at hi
        omega
      · exact Or.inl hthree
    have hfinal : ∀ c : ByteCursor σ, c.Within src at' ∧ q ≤ 8 * c.pos →
        Finished { planes with comps } ∧ (∀ comp ∈ comps, comp.seq ≤ 8 * c.pos) ∧ c.From src at' := fun c hc =>
      ⟨hfinished, fun comp hcomp => le_trans (hkept.2 comp hcomp) hc.2, hc.1.from le_rfl⟩
    split
    · rename_i hpending
      refine Meets.bind (back_to.mono (fun c hc => ?_) fun _ _ h => h) fun _ => Meets.pure hfinal
      have htwo : run.reader.ahead = 2 := if_pos hpending
      have hwithin := hc.within
      have hhanded := hc.handed
      rw [htwo] at hwithin hhanded
      obtain ⟨hfine, hp, hend⟩ := hwithin
      have hless : c.pos - 2 ≤ c.pos := Nat.sub_le _ _
      refine ⟨by omega, ⟨⟨hfine.buffered, le_trans hless hfine.reach⟩, Nat.le_sub_of_add_le hp,
        le_trans hless hend⟩, ?_⟩
      dsimp only
      omega
    refine Meets.pure fun c hc => hfinal c ⟨hc.within.mono (Nat.le_add_right _ _), ?_⟩
    have hhanded := hc.handed
    omega
  · exact ⟨Nat.le_refl 0, 8 * at', hsame, hc, Nat.zero_le _, by have := hc.2.1; exact Nat.mul_le_mul_left 8 this⟩

end Decoding

end SyncEngine.Thumb
