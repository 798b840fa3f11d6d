import SyncEngine.Collections.Checked
import Mathlib.Data.List.TakeDrop

/-! # Byte sources

Random access over the bytes of one image. A read hands over any part of what was asked
for, or fails, and may do so differently each time.
-/

namespace SyncEngine.Thumb

open Collections List

/-- The bytes of an image and what each read hands over of them. Reads past the end
return nothing. -/
structure ByteSource (σ : Type) where
  bytes : List UInt8
  fits : bytes.length < 2 ^ 64
  readAt : (offset want : Nat) → σ → Option (List UInt8) × σ
  reads : ∀ offset want s got t, readAt offset want s = (some got, t) →
    got <+: (bytes.drop offset).take want

namespace ByteSource

variable {σ : Type} (src : ByteSource σ)

def len : Nat := src.bytes.length

def range (offset len : Nat) : List UInt8 := (src.bytes.drop offset).take len

/-- Fill a buffer of the given length, whose head is filled already. -/
def fill (offset len : Nat) (filled : List UInt8) : Checked Unit σ (List UInt8) := fun s =>
  if filled.length < len then
    if offset + filled.length < 2 ^ 64 then
      match src.readAt (offset + filled.length) (len - filled.length) s with
      | (some (byte :: more), t) => fill offset len (filled ++ byte :: more) t
      | (_, t) => (.failed (), t)
    else (.faulted .overflow, s)
  else (.done filled, s)
termination_by len - filled.length
decreasing_by
  rw [length_append, length_cons]
  omega

/-- Reads exactly so many bytes, or fails: short reads, overflowing ranges and anything
past the end of the source are all the same answer here. -/
def readExactAt (offset len : Nat) : Checked Unit σ (List UInt8) :=
  if 2 ^ 64 ≤ offset + len then .fail ()
  else if len = 0 ∨ src.len < offset + len then .fail ()
  else src.fill offset len []

variable {src} {offset len : Nat}

theorem length_range (h : offset + len ≤ src.len) : (src.range offset len).length = len := by
  unfold range
  rw [length_take, length_drop]
  unfold ByteSource.len at h
  omega

theorem prefix_append {filled got : List UInt8} (hfilled : filled <+: src.range offset len)
    (hgot : got <+: (src.bytes.drop (offset + filled.length)).take (len - filled.length)) :
    filled ++ got <+: src.range offset len := by
  have hrest : src.range offset len = filled ++ (src.range offset len).drop filled.length := by
    conv_lhs => rw [← take_append_drop filled.length (src.range offset len)]
    rw [prefix_iff_eq_take.mp hfilled, length_take]
    congr 2
    exact Nat.min_eq_left hfilled.length_le
  rw [hrest, prefix_append_right_inj]
  unfold range
  rw [drop_take, drop_drop]
  exact hgot

theorem fill_meets {filled : List UInt8} (hend : offset + len ≤ src.len) (hfilled : filled <+: src.range offset len) :
    (src.fill offset len filled).Meets (fun _ => True) fun got _ => got = src.range offset len := by
  intro s _
  induction filled, s using fill.induct src offset len with
  | case1 filled s hlt hfits byte more t hread ih =>
    unfold fill
    rw [if_pos hlt, if_pos hfits, hread]
    exact ih (prefix_append hfilled (src.reads _ _ _ _ _ hread))
  | case2 filled s hlt hfits found t hnone hread =>
    unfold fill
    rw [if_pos hlt, if_pos hfits, hread]
    rcases found with _ | _ | _
    · trivial
    · trivial
    · exact (hnone _ _ rfl).elim
  | case3 filled s hlt hfits =>
    have hsource := src.fits
    unfold ByteSource.len at hend
    omega
  | case4 filled s hge =>
    unfold fill
    rw [if_neg hge]
    refine hfilled.eq_of_length_le ?_
    rw [length_range hend]
    omega

theorem readExactAt_meets :
    (src.readExactAt offset len).Meets (fun _ => True) fun got _ =>
      0 < len ∧ offset + len ≤ src.len ∧ got = src.range offset len := by
  unfold readExactAt
  split
  · exact Checked.Meets.fail
  split
  · exact Checked.Meets.fail
  rename_i hrange
  have hend : offset + len ≤ src.len := by omega
  refine (fill_meets hend nil_prefix).weaken fun got _ hgot => ⟨?_, hend, hgot⟩
  omega

end ByteSource

end SyncEngine.Thumb
