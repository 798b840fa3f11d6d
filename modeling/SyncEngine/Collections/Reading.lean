import Mathlib.Data.List.TakeDrop

/-! # Reading a stream that comes in pieces

A source hands over as much as it likes of what a read asks for, at least one item while
it has any, and a read may fail. Reading until a buffer is full, or skipping so many
items, does not depend on the pieces.
-/

namespace SyncEngine.Collections

open List

/-- A stream: what it still has, and for each read to come how many items beyond the
first it hands over at most, or that it fails. Reads past those listed are filled. -/
structure Source (β : Type) where
  rest : List β
  hands : List (Option Nat)

namespace Source

variable {β : Type}

/-- Read up to so many items. -/
def read (s : Source β) (n : Nat) : Option (List β × Source β) :=
  match s.hands with
  | [] => some (s.rest.take n, { s with rest := s.rest.drop n })
  | none :: _ => none
  | some k :: hands =>
    some (s.rest.take (min n (k + 1)), { rest := s.rest.drop (min n (k + 1)), hands })

/-- Read until a buffer is full or the stream ends. Every round fills one place. -/
def fill (n : Nat) : Nat → List β → Source β → Option (List β × Source β)
  | 0, got, s => some (got, s)
  | rounds + 1, got, s =>
    if n ≤ got.length then some (got, s)
    else
      match s.read (n - got.length) with
      | none => none
      | some ([], s) => some (got, s)
      | some (items, s) => fill n rounds (got ++ items) s

def readFull (s : Source β) (n : Nat) : Option (List β × Source β) := fill n n [] s

/-- Read and drop up to so many items, a buffer at a time, and count them. -/
def discard (buffer : Nat) : Nat → Nat → Source β → Option (Nat × Source β)
  | 0, count, s => some (count, s)
  | left + 1, count, s =>
    match s.read (min (buffer + 1) (left + 1)) with
    | none => none
    | some ([], s) => some (count, s)
    | some (_ :: items, s) => discard buffer (left - items.length) (count + items.length + 1) s

/-- Skip so many items, as far as the stream goes. -/
def skip (s : Source β) (n : Nat) : Option (Nat × Source β) := discard 8191 n 0 s

/-! ## What is read -/

variable {s s' : Source β} {n : Nat} {got : List β}

theorem read_spec (h : s.read n = some (got, s')) :
    s.rest = got ++ s'.rest ∧ got.length ≤ n ∧ (got = [] → n = 0 ∨ s.rest = []) := by
  have hpart : ∀ m, m ≤ n → (m = 0 → n = 0) →
      s.rest = s.rest.take m ++ s.rest.drop m ∧ (s.rest.take m).length ≤ n ∧
        (s.rest.take m = [] → n = 0 ∨ s.rest = []) := by
    intro m hm hzero
    refine ⟨(take_append_drop m s.rest).symm, ?_, fun hnil => ?_⟩
    · rw [length_take]
      omega
    rcases take_eq_nil_iff.mp hnil with hm | hnil
    · exact Or.inl (hzero hm)
    · exact Or.inr hnil
  unfold read at h
  split at h
  · cases h
    exact hpart n (Nat.le_refl n) id
  · cases h
  cases h
  exact hpart _ (Nat.min_le_left _ _) (by omega)

theorem fill_spec {rounds : Nat} {had : List β} (hrounds : n ≤ had.length + rounds)
    (hhad : had.length ≤ n) (h : fill n rounds had s = some (got, s')) :
    got = had ++ s.rest.take (n - had.length) ∧ s'.rest = s.rest.drop (n - had.length) := by
  induction rounds generalizing had s with
  | zero =>
    have hzero : n - had.length = 0 := by omega
    cases h
    rw [hzero]
    simp
  | succ rounds ih =>
    unfold fill at h
    split at h
    · rename_i hfull
      have hzero : n - had.length = 0 := by omega
      cases h
      rw [hzero]
      simp
    rename_i hroom
    split at h
    · cases h
    · rename_i next hread
      cases h
      obtain ⟨hsplit, -, hend⟩ := read_spec hread
      have hnil : s.rest = [] := (hend rfl).resolve_left (by omega)
      rw [hnil] at hsplit ⊢
      rw [nil_append] at hsplit
      rw [← hsplit]
      simp
    rename_i items next hne hread
    obtain ⟨hsplit, hle, -⟩ := read_spec hread
    have hpos : 0 < items.length := by
      cases items with
      | nil => exact absurd rfl hne
      | cons _ _ => exact Nat.succ_pos _
    obtain ⟨hgot, hrest⟩ := ih (by rw [length_append]; omega)
      (by rw [length_append]; omega) h
    rw [length_append] at hgot hrest
    have hsub : n - had.length = items.length + (n - (had.length + items.length)) := by omega
    rw [hgot, hrest, hsplit, hsub, take_length_add_append, drop_length_add_append,
      append_assoc]
    exact ⟨rfl, rfl⟩

theorem readFull_spec (h : s.readFull n = some (got, s')) :
    got = s.rest.take n ∧ s'.rest = s.rest.drop n := by
  have hfill := fill_spec (by simp) (Nat.zero_le n) h
  simpa using hfill

theorem discard_spec {buffer left count : Nat} {skipped : Nat} (h : discard buffer left count s = some (skipped, s')) :
    skipped = count + min left s.rest.length ∧ s'.rest = s.rest.drop left := by
  induction left using Nat.strongRecOn generalizing count s with
  | _ left ih =>
    cases left with
    | zero =>
      unfold discard at h
      cases h
      simp
    | succ left =>
      unfold discard at h
      split at h
      · cases h
      · rename_i next hread
        cases h
        obtain ⟨hsplit, -, hend⟩ := read_spec hread
        have hnil : s.rest = [] := (hend rfl).resolve_left (by omega)
        rw [hnil] at hsplit ⊢
        rw [nil_append] at hsplit
        rw [← hsplit]
        simp
      rename_i item items next hread
      obtain ⟨hsplit, hle, -⟩ := read_spec hread
      rw [length_cons] at hle
      obtain ⟨hskipped, hrest⟩ := ih (left - items.length) (by omega) h
      have hsub : left + 1 = (item :: items).length + (left - items.length) := by
        rw [length_cons]
        omega
      rw [hskipped, hrest]
      constructor
      · rw [hsplit, length_append, length_cons]
        omega
      · rw [hsplit, hsub, drop_length_add_append]

theorem skip_spec {skipped : Nat} (h : s.skip n = some (skipped, s')) :
    skipped = min n s.rest.length ∧ s'.rest = s.rest.drop n := by
  have hdiscard := discard_spec h
  simpa using hdiscard

end Source

end SyncEngine.Collections
