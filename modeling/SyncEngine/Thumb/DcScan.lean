import SyncEngine.Thumb.ByteCursor

/-! # DC-only decoding of progressive JPEG

The first scans of a progressive file carry every block's DC coefficient, which is a
preview at an eighth of the size. The marker walk decodes exactly those scans into planes
of one value for each block, and stops.
-/

namespace SyncEngine.Thumb

open Collections ByteCursor

def MAX_TOTAL_BLOCKS : Nat := 2 ^ 21

structure CompInfo where
  h : Nat
  v : Nat
  tq : Nat
  deriving DecidableEq, Repr

structure FrameInfo where
  width : Nat
  height : Nat
  comps : List (UInt8 × CompInfo)
  hmax : Nat
  vmax : Nat
  deriving DecidableEq, Repr

/-- The codes of one length, from the first to the last, and where their symbols are. -/
structure HuffRow where
  mincode : Nat
  maxcode : Int
  valptr : Nat
  deriving DecidableEq, Repr

/-- Canonical Huffman table: a row for each code length, and the symbols. -/
structure HuffTable where
  rows : List HuffRow
  symbols : List UInt8
  deriving DecidableEq, Repr

/-- Bits read ahead, and a marker that was hit. -/
structure BitReader where
  bits : UInt32
  nbits : Nat
  pendingMarker : Option UInt8
  deriving DecidableEq, Repr

def BitReader.new : BitReader := ⟨0, 0, none⟩

/-- One component's plane, and where the next block lands. -/
structure CompState where
  info : CompInfo
  plane : Array Int
  planeW : Nat
  planeH : Nat
  pred : Int
  seq : Nat
  done : Bool
  qDc : Nat

structure Planes where
  width : Nat
  height : Nat
  hmax : Nat
  vmax : Nat
  comps : List CompState

structure DcWalk where
  qDc : List (Option Nat)
  dcTables : List (Option HuffTable)
  restartInterval : Nat
  frame : Option FrameInfo
  planes : Option Planes

def DcWalk.new : DcWalk := ⟨[none, none, none, none], [none, none, none, none], 0, none, none⟩

section Grid

variable {σ : Type}

def divCeil (a b : Nat) : Checked ThumbError σ Nat :=
  if b = 0 then .fault .division else Pure.pure ((a + b - 1) / b)

def mcuGrid (frame : FrameInfo) : Checked ThumbError σ (Nat × Nat) := do
  let wide ← .mulWithin 32 8 frame.hmax
  let x ← divCeil frame.width wide
  let high ← .mulWithin 32 8 frame.vmax
  let y ← divCeil frame.height high
  return (x, y)

def blocksOf (grid : Nat × Nat) (info : CompInfo) : Checked ThumbError σ Nat := do
  let columns ← .mulWithin 64 grid.1 info.h
  let tall ← .mulWithin 64 columns grid.2
  .mulWithin 64 tall info.v

def totalBlocks (frame : FrameInfo) : Checked ThumbError σ Nat := do
  let grid ← mcuGrid frame
  let total ← Checked.foldWith (fun total comp => do
    let blocks ← blocksOf grid comp.2
    .addWithin 64 total blocks) frame.comps 0
  if total = 0 ∨ MAX_TOTAL_BLOCKS < total then .fail (err "implausible dc plane size") else return total

end Grid

section Huffman

variable {σ : Type}

def huffRows : (len : Nat) → List UInt8 → (code k : Nat) → Checked ThumbError σ (List HuffRow)
  | _, [], _, _ => Pure.pure []
  | len, n :: counts, code, k => do
    let next ← .addWithin 31 code n.toNat
    let shifted ← .mulWithin 31 next 2
    -- A canonical code of a length cannot exceed the length's bits.
    if 2 ^ (len + 1) < shifted then .fail (err "huffman table overfull")
    else do
      let rows ← huffRows (len + 1) counts shifted (k + n.toNat)
      return (if 0 < n.toNat then ⟨code, (next : Int) - 1, k⟩ else ⟨0, -1, 0⟩) :: rows

def HuffTable.build (counts symbols : List UInt8) : Checked ThumbError σ HuffTable :=
  let total := (counts.map UInt8.toNat).sum
  if total ≠ symbols.length ∨ total = 0 ∨ 256 < total then
    .fail (err "huffman table with inconsistent symbol count")
  else do
    let rows ← huffRows 1 counts 0 0
    return { rows, symbols }

end Huffman

section Scanning

variable {σ : Type} (src : ByteSource σ)

def rounds : Nat := src.len + 65537

def pastFill : Reading σ UInt8 :=
  Checked.loop (fun _ => do
    let m ← nextU8 src
    return if m = 0xFF then .inl () else .inr m) (rounds src) ()

def BitReader.keep (reader : BitReader) (byte : UInt8) : Reading σ BitReader := do
  let shift ← .subWithin 24 reader.nbits
  let nbits ← .addWithin 8 reader.nbits 8
  return { reader with bits := reader.bits ||| (byte.toUInt32 <<< shift.toUInt32), nbits }

def fillStep (reader : BitReader) : Reading σ (BitReader ⊕ BitReader) :=
  if 24 < reader.nbits ∨ reader.pendingMarker.isSome then Pure.pure (.inr reader)
  else do
    let byte ← nextU8 src
    if byte = 0xFF then do
      let next ← nextU8 src
      if next = 0 then do
        let kept ← reader.keep 0xFF
        return .inl kept
      else return .inr { reader with pendingMarker := some next }
    else do
      let kept ← reader.keep byte
      return .inl kept

def fill (reader : BitReader) : Reading σ BitReader := Checked.loop (fillStep src) 5 reader

def takeBits (n : Nat) (reader : BitReader) : Reading σ (UInt32 × BitReader) :=
  if 16 < n then .fault .assertion
  else if n = 0 then Pure.pure (0, reader)
  else do
    let reader ← fill src reader
    if reader.nbits < n then .fail (err "entropy data ended inside a code")
    else do
      let shift ← .subWithin 32 n
      let nbits ← .subWithin reader.nbits n
      return (reader.bits >>> shift.toUInt32, { reader with bits := reader.bits <<< n.toUInt32, nbits })

/-- Walk the code lengths from the given rows on, a bit for each. -/
def decodeRows (symbols : List UInt8) : List HuffRow → (code : Nat) → BitReader → Reading σ (UInt8 × BitReader)
  | [], _, _ => .fail (err "huffman code longer than 16 bits")
  | row :: rows, code, reader => do
    let (bit, reader) ← takeBits src 1 reader
    let doubled ← .mulWithin 31 code 2
    let code := doubled ||| bit.toNat
    if (code : Int) ≤ row.maxcode ∧ row.mincode ≤ code then do
      let offset ← .subWithin code row.mincode
      let idx ← .addWithin 64 row.valptr offset
      let symbol ← .expect (err "huffman code indexes past its symbols") symbols[idx]?
      return (symbol, reader)
    else decodeRows symbols rows code reader

def decodeSymbol (table : HuffTable) (reader : BitReader) : Reading σ (UInt8 × BitReader) :=
  decodeRows src table.symbols table.rows 0 reader

def receiveExtend (n : Nat) (reader : BitReader) : Reading σ (Int × BitReader) :=
  if n = 0 then Pure.pure (0, reader)
  else do
    let (v, reader) ← takeBits src n reader
    if v.toNat < 2 ^ (n - 1) then do
      let low ← .int32 ((v.toNat : Int) - 2 ^ n)
      let value ← .int32 (low + 1)
      return (value, reader)
    else return (v.toNat, reader)

/-- A restart marker, whether it was read ahead already or is still in the stream. -/
def restartMarker (reader : BitReader) : Reading σ UInt8 :=
  match reader.pendingMarker with
  | some m => Pure.pure m
  | none => do
    let lead ← nextU8 src
    if lead ≠ 0xFF then .fail (err "expected a restart marker") else pastFill src

/-- At a restart boundary: drop pad bits and consume the restart marker. -/
def expectRestart (reader : BitReader) : Reading σ BitReader := do
  let marker ← restartMarker src reader
  if 0xD0 ≤ marker.toNat ∧ marker.toNat ≤ 0xD7 then return .new else .fail (err "expected a restart marker")

/-! ## Headers -/

def expectSoi : Reading σ Unit := do
  let first ← nextU8 src
  if first ≠ 0xFF then .fail (err "missing SOI")
  else do
    let second ← nextU8 src
    if second ≠ 0xD8 then .fail (err "missing SOI") else return ()

def nextMarker : Reading σ UInt8 := do
  let first ← nextU8 src
  if first ≠ 0xFF then .fail (err "expected a marker")
  else do
    let m ← pastFill src
    if m = 0 then .fail (err "stuffed byte outside entropy data") else return m

def segmentLen : Reading σ Nat := do
  let len ← nextU16 src
  if len < 2 then .fail (err "segment length below 2") else return len - 2

def dcQuantizer (pq : Nat) : Reading σ Nat :=
  if pq = 0 then do
    let dc ← nextU8 src
    return dc.toNat
  else nextU16 src

def dqtStep (walk : DcWalk) (remaining : Nat) : Reading σ ((DcWalk × Nat) ⊕ DcWalk) :=
  if remaining = 0 then Pure.pure (.inr walk)
  else do
    let pqTq ← nextU8 src
    let pq := pqTq.toNat / 16
    let tq := pqTq.toNat % 16
    if 1 < pq ∨ 3 < tq then .fail (err "malformed quantization table header")
    else do
      let dc ← dcQuantizer src pq
      if dc = 0 then .fail (err "zero DC quantizer")
      else do
        let qDc ← .replace walk.qDc tq (some dc)
        let valueBytes := 64 * (1 + pq)
        skip (valueBytes - (1 + pq))
        if remaining < 1 + valueBytes then .fail (err "quantization tables overrun their segment")
        else return .inl ({ walk with qDc }, remaining - (1 + valueBytes))

def parseDqt (walk : DcWalk) : Reading σ DcWalk := do
  let remaining ← segmentLen src
  Checked.loop (fun b => dqtStep src b.1 b.2) (remaining + 1) (walk, remaining)

/-- Keep a DC table of so many symbols. AC tables are irrelevant to a DC preview. -/
def keepTable (dcTables : List (Option HuffTable)) (tc th : Nat) (counts : List UInt8) (total : Nat) :
    Reading σ (List (Option HuffTable)) :=
  if tc = 0 then do
    let symbols ← nextBytes src total
    let table ← HuffTable.build counts symbols
    Checked.replace dcTables th (some table)
  else do
    skip total
    return dcTables

def dhtStep (walk : DcWalk) (remaining : Nat) : Reading σ ((DcWalk × Nat) ⊕ DcWalk) :=
  if remaining = 0 then Pure.pure (.inr walk)
  else do
    let tcTh ← nextU8 src
    let tc := tcTh.toNat / 16
    let th := tcTh.toNat % 16
    if 1 < tc ∨ 3 < th then .fail (err "malformed huffman table header")
    else do
      let counts ← nextBytes src 16
      let total := (counts.map UInt8.toNat).sum
      let dcTables ← keepTable src walk.dcTables tc th counts total
      if remaining < 1 + 16 + total then .fail (err "huffman tables overrun their segment")
      else return .inl ({ walk with dcTables }, remaining - (1 + 16 + total))

def parseDht (walk : DcWalk) : Reading σ DcWalk := do
  let remaining ← segmentLen src
  Checked.loop (fun b => dhtStep src b.1 b.2) (remaining + 1) (walk, remaining)

def frameComps : Nat → Reading σ (List (UInt8 × CompInfo))
  | 0 => Pure.pure []
  | n + 1 => do
    let id ← nextU8 src
    let hv ← nextU8 src
    let h := hv.toNat / 16
    let v := hv.toNat % 16
    let tq ← nextU8 src
    if ¬ (1 ≤ h ∧ h ≤ 4) ∨ ¬ (1 ≤ v ∧ v ≤ 4) ∨ 3 < tq.toNat then .fail (err "malformed component in SOF2")
    else do
      let rest ← frameComps n
      return (id, ⟨h, v, tq.toNat⟩) :: rest

def parseSof2 : Reading σ FrameInfo := do
  let len ← segmentLen src
  let precision ← nextU8 src
  let height ← nextU16 src
  let width ← nextU16 src
  let ncomp ← nextU8 src
  if precision ≠ 8 then .fail (err "only 8-bit precision is supported")
  else if width = 0 ∨ height = 0 then .fail (err "zero dimensions")
  else if ¬ (ncomp = 1 ∨ ncomp = 3) then .fail (err "unsupported component count")
  else if len ≠ 6 + 3 * ncomp.toNat then .fail (err "SOF2 length mismatch")
  else do
    let comps ← frameComps src ncomp.toNat
    return { width, height, comps, hmax := (comps.map (·.2.h)).foldl max 0, vmax := (comps.map (·.2.v)).foldl max 0 }

/-- A frame that is not progressive. -/
def notProgressive (m : UInt8) : Prop :=
  0xC0 ≤ m.toNat ∧ m.toNat ≤ 0xCF ∧ m ≠ 0xC2 ∧ m ≠ 0xC4 ∧ m ≠ 0xC8 ∧ m ≠ 0xCC

instance (m : UInt8) : Decidable (notProgressive m) := by unfold notProgressive; infer_instance

def skipSegment : Reading σ Unit := do
  let len ← segmentLen src
  skip len

def untilFrameStep : Reading σ (Unit ⊕ FrameInfo) := do
  let m ← nextMarker src
  if m = 0xC2 then do
    let frame ← parseSof2 src
    return .inr frame
  else if notProgressive m then .fail (err "not a progressive frame")
  else if m = 0xD9 then .fail (err "EOI before SOF2")
  else do
    skipSegment src
    return .inl ()

def untilFrame : Reading σ FrameInfo := do
  expectSoi src
  Checked.loop (fun _ => untilFrameStep src) (rounds src) ()

/-! ## Scans -/

/-- Entropy data ends at the first marker that is not a restart. -/
def skipEntropyStep : Reading σ (Unit ⊕ Unit) := do
  let byte ← nextU8 src
  if byte ≠ 0xFF then return .inl ()
  else do
    let next ← nextU8 src
    if next = 0 ∨ (0xD0 ≤ next.toNat ∧ next.toNat ≤ 0xD7) then return .inl ()
    else if next = 0xFF then do
      back 1
      return .inl ()
    else do
      back 2
      return .inr ()

def skipEntropy : Reading σ Unit := Checked.loop (fun _ => skipEntropyStep src) (rounds src) ()

def newComp (grid : Nat × Nat) (qDc : List (Option Nat)) (info : CompInfo) : Reading σ CompState := do
  let planeW ← .mulWithin 32 grid.1 info.h
  let planeH ← .mulWithin 32 grid.2 info.v
  let found ← Checked.item qDc info.tq
  let qDc ← .expect (err "missing quant table") found
  return { info, plane := Array.replicate (planeW * planeH) 0, planeW, planeH, pred := 0, seq := 0, done := false, qDc }

/-- The planes are sized once, from the frame that stands then. -/
def ensurePlanes (walk : DcWalk) : Reading σ Planes :=
  match walk.planes with
  | some planes => Pure.pure planes
  | none => do
    let frame ← .expect (err "no frame") walk.frame
    let _ ← totalBlocks frame
    let grid ← mcuGrid frame
    let comps ← Checked.mapWith (fun comp => newComp grid walk.qDc comp.2) frame.comps
    if MAX_TOTAL_BLOCKS < (comps.map fun comp => comp.plane.size).sum then .fault .memory
    else return { width := frame.width, height := frame.height, hmax := frame.hmax, vmax := frame.vmax, comps }

/-- What a scan is over: its units a row, whether they are whole MCUs, and the shift of
its values. -/
structure ScanGrid where
  interleaved : Bool
  mcusX : Nat
  unitsX : Nat
  al : Nat

def blockAt (grid : ScanGrid) (unit b : Nat) (comp : CompState) : Reading σ (Nat × Nat) :=
  if grid.interleaved then do
    let (mcuY, mcuX) ← .divMod unit grid.mcusX
    let (down, right) ← .divMod b comp.info.h
    let left ← .mulWithin 32 (asU32 mcuX) comp.info.h
    let bx ← .addWithin 32 left right
    let top ← .mulWithin 32 (asU32 mcuY) comp.info.v
    let by' ← .addWithin 32 top down
    return (bx, by')
  else do
    let (row, column) ← .divMod comp.seq grid.unitsX
    return (asU32 column, asU32 row)

/-- Put a block's value where it lands, if that is on the plane. -/
def CompState.store (comp : CompState) (place : Nat × Nat) (value : Int) : Reading σ CompState :=
  if place.1 < comp.planeW ∧ place.2 < comp.planeH then do
    let row ← .mulWithin 32 place.2 comp.planeW
    let at' ← .addWithin 32 row place.1
    if at' < comp.plane.size then return { comp with plane := comp.plane.setIfInBounds at' value }
    else .fault .index
  else Pure.pure comp

def saturate32 (i : Int) : Int := max (-2 ^ 31) (min i (2 ^ 31 - 1))

def decodeBlock (grid : ScanGrid) (table : HuffTable) (unit b : Nat) (reader : BitReader) (comp : CompState) :
    Reading σ (BitReader × CompState) := do
  let (t, reader) ← decodeSymbol src table reader
  if 15 < t.toNat then .fail (err "DC category out of range")
  else do
    let (diff, reader) ← receiveExtend src t.toNat reader
    let pred := comp.pred + diff
    if ¬ (-2 ^ 31 ≤ pred ∧ pred < 2 ^ 31) then .fail (err "DC predictor overflow")
    else do
      let place ← blockAt grid unit b comp
      let comp ← CompState.store { comp with pred } place (saturate32 (pred * 2 ^ grid.al))
      if grid.interleaved then return (reader, comp)
      else do
        let seq ← .addWithin 64 comp.seq 1
        return (reader, { comp with seq })

def eachSlot (change : CompState → CompState) (scan : List (Nat × HuffTable)) (comps : List CompState) :
    Reading σ (List CompState) :=
  Checked.foldWith (fun comps slot => do
    let comp ← Checked.item comps slot.1
    .replace comps slot.1 (change comp)) scan comps

def resetPreds (scan : List (Nat × HuffTable)) (comps : List CompState) : Reading σ (List CompState) :=
  eachSlot (fun comp => { comp with pred := 0 }) scan comps

def markDone (scan : List (Nat × HuffTable)) (comps : List CompState) : Reading σ (List CompState) :=
  eachSlot (fun comp => { comp with done := true }) scan comps

def decodeSlot (grid : ScanGrid) (unit : Nat) (state : BitReader × List CompState) (slot : Nat × HuffTable) :
    Reading σ (BitReader × List CompState) := do
  let comp ← Checked.item state.2 slot.1
  let blocks ← if grid.interleaved then .mulWithin 32 comp.info.h comp.info.v else Pure.pure 1
  let (reader, comp) ← Checked.upTo (fun b state => decodeBlock src grid slot.2 unit b state.1 state.2) blocks
    (state.1, comp)
  let comps ← .replace state.2 slot.1 comp
  return (reader, comps)

structure Decoding where
  reader : BitReader
  comps : List CompState
  sinceRestart : Nat

/-- Start anew where a restart is due. -/
def restartIfDue (restartInterval : Nat) (scan : List (Nat × HuffTable)) (run : Decoding) : Reading σ Decoding :=
  if 0 < restartInterval ∧ run.sinceRestart = restartInterval then do
    let reader ← expectRestart src run.reader
    let comps ← resetPreds scan run.comps
    return { reader, comps, sinceRestart := 0 }
  else Pure.pure run

def decodeUnit (restartInterval : Nat) (grid : ScanGrid) (scan : List (Nat × HuffTable)) (unit : Nat)
    (run : Decoding) : Reading σ Decoding := do
  let run ← restartIfDue src restartInterval scan run
  let (reader, comps) ← Checked.foldWith (decodeSlot src grid unit) scan (run.reader, run.comps)
  let sinceRestart ← .addWithin 32 run.sinceRestart 1
  return { reader, comps, sinceRestart }

/-- The units of a scan, a row and in all rows. -/
def scanUnits (frame : FrameInfo) (grid : Nat × Nat) (scan : List (Nat × HuffTable)) (comps : List CompState) :
    Reading σ (Nat × Nat) :=
  if 1 < scan.length then Pure.pure grid
  else do
    -- A scan of one component covers its unpadded block grid.
    let slot ← Checked.item scan 0
    let comp ← Checked.item comps slot.1
    let wide ← .mulWithin 64 frame.width comp.info.h
    let right ← .mulWithin 32 8 frame.hmax
    let bw ← divCeil wide right
    let high ← .mulWithin 64 frame.height comp.info.v
    let down ← .mulWithin 32 8 frame.vmax
    let bh ← divCeil high down
    return (max bw 1, max bh 1)

def scanTables (dcTables : List (Option HuffTable)) (scanComps : List (Nat × Nat)) :
    Reading σ (List (Nat × HuffTable)) :=
  Checked.mapWith (fun comp => do
    let table ← .expect (err "scan references a missing DC table") dcTables[comp.2]?.join
    return (comp.1, table)) scanComps

def decodeDcEntropy (walk : DcWalk) (scanComps : List (Nat × Nat)) (al : Nat) : Reading σ Planes := do
  let planes ← ensurePlanes walk
  let frame ← .expect (err "no frame") walk.frame
  let grid ← mcuGrid frame
  let scan ← scanTables walk.dcTables scanComps
  let comps ← resetPreds scan planes.comps
  let units ← scanUnits frame grid scan comps
  let total ← .mulWithin 64 units.1 units.2
  let scanGrid : ScanGrid := ⟨decide (1 < scan.length), grid.1, units.1, al⟩
  let run ← Checked.upTo (decodeUnit src walk.restartInterval scanGrid scan) total ⟨.new, comps, 0⟩
  let comps ← markDone scan run.comps
  -- A marker that was read ahead is put back for the walk.
  if run.reader.pendingMarker.isSome then back 2
  return { planes with comps }

/-- The components a scan header selects, and their tables. -/
def selectors : Nat → Reading σ (List (UInt8 × Nat))
  | 0 => Pure.pure []
  | n + 1 => do
    let cs ← nextU8 src
    let tdTa ← nextU8 src
    let rest ← selectors n
    return (cs, tdTa.toNat / 16) :: rest

def scanComps (frame : FrameInfo) (raw : List (UInt8 × Nat)) : Reading σ (List (Nat × Nat)) :=
  Checked.mapWith (fun selector => do
    let idx ← .expect (err "scan references an unknown component")
      (frame.comps.findIdx? fun comp => comp.1 = selector.1)
    return (idx, selector.2)) raw

/-- One scan: decoded when it is a first DC scan, skipped otherwise. The planes are
finished once every component has its DC data. -/
def parseScan (walk : DcWalk) : Reading σ (DcWalk ⊕ Planes) := do
  let _ ← segmentLen src
  let ns ← nextU8 src
  if ns = 0 ∨ 4 < ns.toNat then .fail (err "malformed scan header")
  else do
    let raw ← selectors src ns.toNat
    let frame ← .expect (err "SOS before SOF2") walk.frame
    let comps ← scanComps frame raw
    let ss ← nextU8 src
    let se ← nextU8 src
    let ahAl ← nextU8 src
    if ¬ (ss = 0 ∧ se = 0 ∧ ahAl.toNat / 16 = 0) then do
      skipEntropy src
      return .inl walk
    else if 13 < ahAl.toNat % 16 then .fail (err "implausible successive-approximation shift")
    else do
      let planes ← decodeDcEntropy src walk comps (ahAl.toNat % 16)
      if planes.comps.all CompState.done then return .inr planes
      else return .inl { walk with planes := some planes }

def parseDri (walk : DcWalk) : Reading σ DcWalk := do
  let len ← segmentLen src
  if len ≠ 2 then .fail (err "DRI length mismatch")
  else do
    let restartInterval ← nextU16 src
    return { walk with restartInterval }

def decodeStep (walk : DcWalk) : Reading σ (DcWalk ⊕ Planes) := do
  let m ← nextMarker src
  if m = 0xC2 then do
    let frame ← parseSof2 src
    return .inl { walk with frame := some frame }
  else if notProgressive m then .fail (err "not a progressive frame")
  else if m = 0xC4 then do
    let walk ← parseDht src walk
    return .inl walk
  else if m = 0xDB then do
    let walk ← parseDqt src walk
    return .inl walk
  else if m = 0xDD then do
    let walk ← parseDri src walk
    return .inl walk
  else if m = 0xDA then parseScan src walk
  else if m = 0xD9 then .fail (err "EOI before every DC scan arrived")
  else do
    skipSegment src
    return .inl walk

def decodeDcScans : Reading σ Planes := do
  expectSoi src
  Checked.loop (decodeStep src) (rounds src) .new

end Scanning

/-! ## Rows of the preview -/

/-- One row handed to a sink: where it is, how wide, and its pixels. -/
structure PixelRow where
  y : Nat
  width : Nat
  rgba : List UInt8
  deriving DecidableEq, Repr

abbrev Emitting (α : Type) : Type := Checked ThumbError (List PixelRow) α

abbrev Painting (α : Type) : Type := Checked ThumbError Unit α

/-- Hand a row over, if the sink takes it. -/
def push (takes : List PixelRow → PixelRow → Bool) (row : PixelRow) : Emitting Unit := fun rows =>
  if takes rows row then (.done (), rows ++ [row]) else (.failed .io, rows)

def clampByte (i : Int) : Int := max 0 (min i 255)

def byteOf (i : Int) : UInt8 := UInt8.ofNat (clampByte i).toNat

def sampleAt (x factor most size : Nat) : Painting Nat := do
  let scaled ← .mulWithin 32 x factor
  let (place, _) ← .divMod scaled most
  let last ← .subWithin size 1
  return min place last

def sample (planes : Planes) (x y : Nat) (comp : CompState) : Painting Int := do
  let cx ← sampleAt x comp.info.h planes.hmax comp.planeW
  let cy ← sampleAt y comp.info.v planes.vmax comp.planeH
  let row ← .mulWithin 32 cy comp.planeW
  let at' ← .addWithin 32 row cx
  let dc ← Checked.item comp.plane.toList at'
  return clampByte (Int.tdiv (dc * comp.qDc) 8 + 128)

def pixel (planes : Planes) (x y : Nat) : Painting (List UInt8) :=
  match planes.comps with
  | [luma] => do
    let l ← sample planes x y luma
    return [byteOf l, byteOf l, byteOf l, 255]
  | [luma, blue, red] => do
    let y' ← sample planes x y luma
    let blue ← sample planes x y blue
    let red ← sample planes x y red
    let cb := blue - 128
    let cr := red - 128
    return [byteOf (y' + Int.tdiv (1402 * cr) 1000), byteOf (y' - Int.tdiv (344 * cb + 714 * cr) 1000),
            byteOf (y' + Int.tdiv (1772 * cb) 1000), 255]
  | _ => .fail (err "unsupported component count for emission")

def copyPixel (row px : List UInt8) (o : Nat) : Painting (List UInt8) :=
  if o + px.length ≤ row.length then Pure.pure (row.take o ++ px ++ row.drop (o + px.length)) else .fault .index

def emitRow (planes : Planes) (outW y : Nat) : Painting (List UInt8) :=
  Checked.upTo (fun x row => do
    let px ← pixel planes x y
    copyPixel row px (x * 4)) outW (List.replicate (outW * 4) 0)

def pushRow (takes : List PixelRow → PixelRow → Bool) (planes : Planes) (outW y : Nat) (_ : Unit) : Emitting Unit := do
  let rgba ← Checked.lift (emitRow planes outW y)
  push takes { y, width := outW, rgba }

/-- One output pixel for each luma-resolution block, row by row. -/
def emit (takes : List PixelRow → PixelRow → Bool) (planes : Planes) : Emitting Unit := do
  let outW ← divCeil planes.width 8
  let outH ← divCeil planes.height 8
  Checked.upTo (pushRow takes planes outW) outH ()

structure PreparedDcScan where
  dims : Nat × Nat
  outDims : Nat × Nat
  planeBytes : Nat

section Decoding

variable {σ : Type} (src : ByteSource σ)

def openDcScan : Reading σ PreparedDcScan := do
  let frame ← untilFrame src
  let outW ← divCeil frame.width 8
  let outH ← divCeil frame.height 8
  let total ← totalBlocks frame
  let planeBytes ← .mulWithin 64 total 4
  return { dims := (frame.width, frame.height), outDims := (outW, outH), planeBytes }

def decodeInto (takes : List PixelRow → PixelRow → Bool) (source : σ) : Outcome ThumbError Unit × List PixelRow :=
  match decodeDcScans src (.new source) with
  | (.done planes, _) => emit takes planes []
  | (.failed e, _) => (.failed e, [])
  | (.faulted fault, _) => (.faulted fault, [])

end Decoding

end SyncEngine.Thumb
