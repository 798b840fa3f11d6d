import Mathlib.Data.List.Basic

/-! # A list cut into pieces of one length

Piece `i` of a list holds its items from `i * n` up to `(i + 1) * n`; only the last one may
be shorter. A piece that is full stays as it is when the list grows.
-/

namespace SyncEngine.Collections

open List

variable {α : Type} {n k : Nat} {data more : List α}

def piece (n : Nat) (data : List α) (i : Nat) : List α := (data.drop (i * n)).take n

/-- How many pieces a list of a length has. -/
def pieceCount (n length : Nat) : Nat := (length + n - 1) / n

/-- The first `k` pieces, each with its number. -/
def numbered (n : Nat) (data : List α) (k : Nat) : List (Nat × List α) :=
  (List.range k).map fun i => (i, piece n data i)

theorem numbered_succ (n : Nat) (data : List α) (k : Nat) :
    numbered n data (k + 1) = numbered n data k ++ [(k, piece n data k)] := by
  unfold numbered
  rw [range_succ, map_append, map_singleton]

theorem length_piece_eq (n : Nat) (data : List α) (k : Nat) :
    (piece n data k).length = min n (data.length - k * n) := by
  unfold piece
  rw [length_take, length_drop]

theorem drop_piece (n : Nat) (data : List α) (k skipped : Nat) :
    (piece n data k).drop skipped = (data.drop (k * n + skipped)).take (n - skipped) := by
  unfold piece
  rw [drop_take, drop_drop]

theorem piece_append (h : (k + 1) * n ≤ data.length) (more : List α) :
    piece n (data ++ more) k = piece n data k := by
  unfold piece
  rw [Nat.add_mul, Nat.one_mul] at h
  rw [drop_append_of_le_length (by omega), take_append_of_le_length]
  rw [length_drop]
  omega

theorem numbered_append (h : k * n ≤ data.length) (more : List α) :
    numbered n (data ++ more) k = numbered n data k := by
  refine map_congr_left fun i hi => ?_
  have hle : (i + 1) * n ≤ k * n := Nat.mul_le_mul_right n (mem_range.mp hi)
  rw [piece_append (Nat.le_trans hle h)]

theorem piece_last (h : data.length ≤ (k + 1) * n) : piece n data k = data.drop (k * n) := by
  rw [Nat.add_mul, Nat.one_mul] at h
  refine take_of_length_le ?_
  rw [length_drop]
  omega

theorem take_append_piece (n : Nat) (data : List α) (k : Nat) :
    data.take (k * n) ++ piece n data k = data.take ((k + 1) * n) := by
  unfold piece
  rw [Nat.add_mul, Nat.one_mul, take_add]

theorem div_mod_within {i m : Nat} (h : i % n + m < n) :
    (i + m) / n = i / n ∧ (i + m) % n = i % n + m := by
  have hpos : 0 < n := Nat.lt_of_le_of_lt (Nat.zero_le _) h
  have hsplit : i + m = i % n + m + n * (i / n) := by
    rw [Nat.add_right_comm, Nat.mod_add_div]
  constructor
  · rw [hsplit, Nat.add_mul_div_left _ _ hpos, Nat.div_eq_of_lt h, Nat.zero_add]
  · rw [hsplit, Nat.add_mul_mod_self_left, Nat.mod_eq_of_lt h]

/-- The items from one place up to another. -/
def cut (data : List α) (i j : Nat) : List α := (data.drop i).take (j - i)

theorem length_cut {i j : Nat} (hi : i ≤ j) (hj : j ≤ data.length) : (cut data i j).length = j - i := by
  unfold cut
  rw [length_take, length_drop]
  omega

@[simp] theorem cut_self (data : List α) (i : Nat) : cut data i i = [] := by
  unfold cut
  rw [Nat.sub_self, take_zero]

theorem cut_append_cut {i j k : Nat} (hi : i ≤ j) (hj : j ≤ k) :
    cut data i j ++ cut data j k = cut data i k := by
  unfold cut
  have hdrop : data.drop j = (data.drop i).drop (j - i) := by
    rw [drop_drop, Nat.add_sub_cancel' hi]
  have hsum : k - i = (j - i) + (k - j) := by omega
  rw [hdrop, hsum, take_add]

theorem cut_prefix_cut {i j k : Nat} (hi : i ≤ j) (hj : j ≤ k) : cut data i j <+: cut data i k :=
  ⟨cut data j k, cut_append_cut hi hj⟩

theorem cut_zero_length (data : List α) : cut data 0 data.length = data := by
  unfold cut
  rw [drop_zero, Nat.sub_zero, take_length]

theorem take_drop_piece {i m : Nat} (h : m ≤ (piece n data (i / n)).length - i % n) :
    ((piece n data (i / n)).drop (i % n)).take m = cut data i (i + m) := by
  rw [length_piece_eq] at h
  unfold cut
  rw [drop_piece, Nat.div_add_mod' i n, take_take, Nat.add_sub_cancel_left]
  rw [Nat.min_eq_left (by omega)]

theorem pieceCount_eq {length : Nat} (hlow : k * n < length + n) (hhigh : length ≤ k * n) :
    pieceCount n length = k := by
  refine Nat.div_eq_of_lt_le ?_ ?_
  · omega
  rw [Nat.succ_mul]
  omega

theorem le_pieceCount_mul (h : 0 < n) (length : Nat) : length ≤ pieceCount n length * n := by
  unfold pieceCount
  have hdiv := Nat.div_add_mod (length + n - 1) n
  have hmod := Nat.mod_lt (length + n - 1) h
  rw [Nat.mul_comm] at hdiv
  omega

end SyncEngine.Collections
