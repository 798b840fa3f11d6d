import SyncEngine.Thumb.Tiff

/-! # Buffered sequential reads

The marker walk and the bit reader of the DC decoder both consume a source through one
cursor, which may be moved on and put back.
-/

namespace SyncEngine.Thumb

open Collections List

inductive ThumbError where
  | io
  | decode (message : String)
  deriving DecidableEq, Repr

def err (message : String) : ThumbError := .decode ("jpeg dc-scan: " ++ message)

/-- Where the next byte is, and the bytes read last. -/
structure ByteCursor (σ : Type) where
  pos : Nat
  buf : List UInt8
  bufStart : Nat
  source : σ

abbrev Reading (σ α : Type) : Type := Checked ThumbError (ByteCursor σ) α

namespace ByteCursor

variable {σ : Type}

def new (source : σ) : ByteCursor σ := ⟨0, [], 0, source⟩

/-- The byte at the cursor, if it was read already. -/
def buffered (c : ByteCursor σ) : Option UInt8 :=
  if c.bufStart ≤ c.pos then c.buf[c.pos - c.bufStart]? else none

def skip (n : Nat) : Reading σ Unit := fun c =>
  if c.pos + n < 2 ^ 64 then (.done (), { c with pos := c.pos + n }) else (.faulted .overflow, c)

def back (n : Nat) : Reading σ Unit := fun c =>
  if n ≤ c.pos then (.done (), { c with pos := c.pos - n }) else (.faulted .overflow, c)

variable (src : ByteSource σ)

/-- Read ahead where the byte at the cursor is not there yet. -/
def refill : Reading σ UInt8 := fun c =>
  match c.buffered with
  | some byte => (.done byte, c)
  | none =>
    match src.readAt c.pos 4096 c.source with
    | (some (byte :: more), source) => (.done byte, { c with buf := byte :: more, bufStart := c.pos, source })
    | (some [], source) => (.failed (err "truncated"), { c with source })
    | (none, source) => (.failed .io, { c with source })

def nextU8 : Reading σ UInt8 := do
  let byte ← refill src
  skip 1
  return byte

def nextU16 : Reading σ Nat := do
  let high ← nextU8 src
  let low ← nextU8 src
  return u16Of .big high low

def nextBytes : Nat → Reading σ (List UInt8)
  | 0 => Pure.pure []
  | n + 1 => do
    let byte ← nextU8 src
    let rest ← nextBytes n
    return byte :: rest

/-! ## Where a cursor is -/

/-- The buffer is the source's, and the cursor no further behind the end than a segment reaches. -/
structure Fine (c : ByteCursor σ) : Prop where
  buffered : c.buf <+: src.bytes.drop c.bufStart
  reach : c.pos ≤ src.len + 65535

/-- The cursor is at a place or behind it. -/
def From (p : Nat) (c : ByteCursor σ) : Prop := c.Fine src ∧ p ≤ c.pos

/-- The cursor is at a place or behind it, and no further than the end. -/
def Within (p : Nat) (c : ByteCursor σ) : Prop := c.Fine src ∧ p ≤ c.pos ∧ c.pos ≤ src.len

variable {src} {p q : Nat} {c : ByteCursor σ}

theorem Within.from (h : c.Within src p) (hle : q ≤ p) : c.From src q := ⟨h.1, le_trans hle h.2.1⟩

theorem Within.mono (h : c.Within src p) (hle : q ≤ p) : c.Within src q :=
  ⟨h.1, le_trans hle h.2.1, h.2.2⟩

theorem From.mono (h : c.From src p) (hle : q ≤ p) : c.From src q := ⟨h.1, le_trans hle h.2⟩

theorem new_from (source : σ) : (new source).From src 0 := ⟨⟨ nil_prefix, Nat.zero_le _⟩, Nat.le_refl 0⟩

theorem Fine.getElem?_buffered (h : c.Fine src) {byte : UInt8} (hbyte : c.buffered = some byte) :
    src.bytes[c.pos]? = some byte := by
  unfold ByteCursor.buffered at hbyte
  split at hbyte
  · rename_i hle
    obtain ⟨rest, hrest⟩ := h.buffered
    obtain ⟨hlt, -⟩ := List.getElem?_eq_some_iff.mp hbyte
    have hat : (src.bytes.drop c.bufStart)[c.pos - c.bufStart]? = some byte := by
      rw [← hrest, getElem?_append_left hlt]
      exact hbyte
    rw [getElem?_drop, Nat.add_sub_cancel' hle] at hat
    exact hat
  · exact nomatch hbyte

theorem refill_meets :
    (refill src).Meets (fun c => From src p c) fun byte c => From src p c ∧ src.bytes[c.pos]? = some byte := by
  intro c hc
  unfold refill
  cases hbuffered : c.buffered with
  | some byte => exact ⟨hc, hc.1.getElem?_buffered hbuffered⟩
  | none =>
    rcases hread : src.readAt c.pos 4096 c.source with ⟨_ | _ | ⟨byte, more⟩, source⟩
    · trivial
    · trivial
    have hgot := (src.reads _ _ _ _ _ hread).trans ( take_prefix _ _)
    refine ⟨⟨⟨hgot, hc.1.reach⟩, hc.2⟩, ?_⟩
    obtain ⟨rest, hrest⟩ := hgot
    have hat : (src.bytes.drop c.pos)[0]? = some byte := by
      rw [← hrest]
      rfl
    rw [getElem?_drop] at hat
    exact hat

theorem skip_to {n : Nat} {after : ByteCursor σ → Prop} :
    (skip n).Meets (fun c => c.pos + n < 2 ^ 64 ∧ after { c with pos := c.pos + n }) fun _ => after := by
  intro c hc
  unfold skip
  rw [if_pos hc.1]
  exact hc.2

theorem nextU8_meets : (nextU8 src).Meets (From src p) fun _ => Within src (p + 1) := by
  unfold nextU8
  refine refill_meets.bind fun byte => Checked.Meets.bind (skip_to.mono ?_ fun _ _ h => h) fun _ =>
    Checked.Meets.pure fun _ h => h
  intro c hc
  obtain ⟨⟨hfine, hp⟩, hbyte⟩ := hc
  obtain ⟨hlt, -⟩ := List.getElem?_eq_some_iff.mp hbyte
  have hfits := src.fits
  refine ⟨lt_of_le_of_lt hlt hfits, ⟨hfine.buffered, ?_⟩, Nat.succ_le_succ hp, hlt⟩
  exact le_trans hlt (Nat.le_add_right _ _)

theorem nextU16_meets : (nextU16 src).Meets (From src p) fun n c => n < 2 ^ 16 ∧ Within src (p + 2) c := by
  unfold nextU16
  refine nextU8_meets.bind fun high => ?_
  refine Checked.Meets.mono (nextU8_meets.bind fun low => ?_) (fun _ h => h.from le_rfl) fun _ _ h => h
  exact Checked.Meets.pure fun _ h => ⟨u16Of_lt _ _ _, h⟩

theorem nextBytes_meets {n : Nat} :
    (nextBytes src n).Meets (Within src p) fun bytes c => bytes.length = n ∧ Within src (p + n) c := by
  induction n generalizing p with
  | zero => exact Checked.Meets.pure fun _ h => ⟨rfl, h⟩
  | succ n ih =>
    unfold nextBytes
    refine Checked.Meets.mono (nextU8_meets.bind fun byte => ?_) (fun _ h => h.from le_rfl) fun _ _ h => h
    refine ih.bind fun rest => Checked.Meets.pure fun _ h => ?_
    exact ⟨congrArg (· + 1) h.1, h.2.mono (by omega)⟩

variable (hroom : src.len + 65536 ≤ 2 ^ 64)

include hroom in
theorem skip_meets {n : Nat} (hn : n ≤ 65535) : (skip n).Meets (Within src p) fun _ => From src (p + n) := by
  refine skip_to.mono (fun c hc => ?_) fun _ _ h => h
  obtain ⟨hfine, hp, hend⟩ := hc
  exact ⟨by omega, ⟨hfine.buffered, Nat.add_le_add hend hn⟩, Nat.add_le_add_right hp n⟩

theorem back_to {n : Nat} {after : ByteCursor σ → Prop} :
    (back n).Meets (fun c => n ≤ c.pos ∧ after { c with pos := c.pos - n }) fun _ => after := by
  intro c hc
  unfold back
  rw [if_pos hc.1]
  exact hc.2

theorem back_meets {n : Nat} : (back n).Meets (Within src (p + n)) fun _ => Within src p := by
  refine back_to.mono (fun c hc => ?_) fun _ _ h => h
  obtain ⟨hfine, hp, hend⟩ := hc
  have hless : c.pos - n ≤ c.pos := Nat.sub_le _ _
  exact ⟨by omega, ⟨hfine.buffered, le_trans hless hfine.reach⟩, Nat.le_sub_of_add_le hp,
    le_trans hless hend⟩

end ByteCursor

end SyncEngine.Thumb
