import Mathlib.Data.List.ReduceOption
import Mathlib.Data.List.TakeWhile
import Mathlib.Data.PNat.Basic
import SyncEngine.Collections.SortedSet

/-! # Three keyed inputs merged a window at a time

Each input is read in key order and held at most a window and one entry ahead.
A window ends below the least key that would overfill one of the inputs, so it
cuts the three of them at one key, and merging the windows one after another
meets what merging the whole inputs meets.
-/

namespace SyncEngine.Collections

/-- An entry of an input, by the key it is at. -/
class Keyed (α : Type) (κ : outParam Type) where
  key : α → κ

open Keyed SortedSet List

variable {κ : Type} [LinearOrder κ]

def leastKey (keys : List (Option κ)) : Option κ := keys.reduceOption.min?

variable {keys : List (Option κ)}

theorem leastKey_eq_some {k : κ} :
    leastKey keys = some k ↔ some k ∈ keys ∧ ∀ other, some other ∈ keys → k ≤ other := by
  simp [leastKey, min?_eq_some_iff, reduceOption_mem_iff]

theorem leastKey_eq_none :
    leastKey keys = none ↔ ∀ k, some k ∉ keys := by
  simp [leastKey, min?_eq_none_iff, eq_nil_iff_forall_not_mem,
    reduceOption_mem_iff]

/-- Whether `k` sorts before `hi`; everything sorts before no bound. -/
def below (hi : Option κ) (k : κ) : Bool := hi.all fun h => k < h

theorem lt_of_below {hi : Option κ} {k k' : κ} (h : below hi k) (h' : below hi k' = false) : k < k' := by
  cases hi with
  | none => simp [below] at h'
  | some bound =>
    have hk : k < bound := by simpa [below] using h
    have hk' : bound ≤ k' := by simpa [below] using h'
    exact lt_of_lt_of_le hk hk'

/-- An input read in key order. -/
abbrev InKeyOrder {α : Type} [Keyed α κ] (xs : List α) : Prop :=
  xs.Pairwise fun x y => key x < key y

section Merge

variable {α β γ : Type} [Keyed α κ] [Keyed β κ] [Keyed γ κ]

/-- The entry an input holds next, if it is at `k`. -/
def nextAt (k : κ) (xs : List α) : Option α := xs.head?.filter fun x => key x = k

/-- An input once the entry at `k` is read off it. -/
def pastAt (k : κ) : List α → List α
  | [] => []
  | x :: rest => if key x = k then rest else x :: rest

theorem pastAt_length_le (k : κ) (xs : List α) : (pastAt k xs).length ≤ xs.length := by
  cases xs with
  | nil => simp [pastAt]
  | cons x rest => by_cases hx : key x = k <;> simp [pastAt, hx]

variable {xs as : List α} {bs : List β} {cs : List γ} {ys : List α} {k' : κ} {as' : List α} {bs' : List β}
    {cs' : List γ}

theorem pastAt_length_lt {k : κ} (h : xs.head?.map key = some k) :
    (pastAt k xs).length < xs.length := by
  cases xs with
  | nil => simp at h
  | cons x rest =>
    have hk : key x = k := by simpa using h
    simp [pastAt, hk]

/-- The keys three inputs hold next. -/
def headKeys (as : List α) (bs : List β) (cs : List γ) : List (Option κ) :=
  [as.head?.map key, bs.head?.map key, cs.head?.map key]

/-- Each key any of three inputs holds, in key order, with the entry each holds
there. -/
def merge3 (as : List α) (bs : List β) (cs : List γ) :
    List (κ × Option α × Option β × Option γ) :=
  match _hleast : leastKey (headKeys as bs cs) with
  | none => []
  | some k =>
    (k, nextAt k as, nextAt k bs, nextAt k cs) ::
      merge3 (pastAt k as) (pastAt k bs) (pastAt k cs)
termination_by as.length + bs.length + cs.length
decreasing_by
  have hmem := (leastKey_eq_some.mp _hleast).1
  have ha := pastAt_length_le k as
  have hb := pastAt_length_le k bs
  have hc := pastAt_length_le k cs
  simp only [headKeys, mem_cons, not_mem_nil, or_false] at hmem
  rcases hmem with hk | hk | hk
  all_goals
    have := pastAt_length_lt hk.symm
    omega

theorem merge3_of_none
    (h : leastKey (headKeys as bs cs) = none) : merge3 as bs cs = [] := by
  unfold merge3
  split
  · rfl
  rename_i hk
  simp [h] at hk

theorem merge3_of_some {k : κ} (h : leastKey (headKeys as bs cs) = some k) :
    merge3 as bs cs = (k, nextAt k as, nextAt k bs, nextAt k cs) ::
      merge3 (pastAt k as) (pastAt k bs) (pastAt k cs) := by
  rw [merge3]
  split
  · rename_i hk
    simp [h] at hk
  rename_i other hk
  have heq : other = k := Option.some.inj (hk.symm.trans h)
  rw [heq]

/-! ## Cutting every input at one key -/

/-- An input is cut at `hi`: `xs` before it, `ys` from it on. -/
structure CutAt (hi : Option κ) (xs ys : List α) : Prop where
  before : ∀ x ∈ xs, below hi (key x) = true
  after : ∀ y ∈ ys, below hi (key y) = false

variable {hi : Option κ} {k : κ}

theorem CutAt.past (h : CutAt hi xs ys) (k : κ) : CutAt hi (pastAt k xs) ys where
  before := by
    intro x hx
    cases xs with
    | nil => simp [pastAt] at hx
    | cons y rest =>
      by_cases hy : key y = k
      · have hrest : x ∈ rest := by simpa [pastAt, hy] using hx
        exact h.before x (mem_cons_of_mem _ hrest)
      have hall : x ∈ y :: rest := by simpa [pastAt, hy] using hx
      exact h.before x hall
  after := h.after

theorem CutAt.next (h : CutAt hi xs ys) (hk : below hi k) :
    nextAt k (xs ++ ys) = nextAt k xs ∧ pastAt k (xs ++ ys) = pastAt k xs ++ ys := by
  cases xs with
  | cons x rest =>
    refine ⟨rfl, ?_⟩
    by_cases hx : key x = k
    · simp [pastAt, hx]
    · simp [pastAt, hx]
  | nil =>
    cases ys with
    | nil => exact ⟨rfl, rfl⟩
    | cons y rest =>
      have hlt := lt_of_below hk (h.after y (by simp))
      have hne : key y ≠ k := ne_of_gt hlt
      simp [nextAt, pastAt, hne]

theorem CutAt.head_append (h : CutAt hi xs ys) (hk' : (xs ++ ys).head?.map key = some k') :
    xs.head?.map key = some k' ∨ below hi k' = false := by
  cases xs with
  | cons x rest => exact Or.inl hk'
  | nil =>
    cases ys with
    | nil => simp at hk'
    | cons y rest =>
      have hy : key y = k' := by simpa using hk'
      exact Or.inr (hy ▸ h.after y (by simp))

omit [LinearOrder κ] in
theorem head_append_of_head (h : xs.head?.map key = some k) :
    (xs ++ ys).head?.map key = some k := by
  cases xs with
  | nil => simp at h
  | cons x rest => exact h

/-- The least key of cut inputs is the least before the cut, where there is one. -/
theorem leastKey_cut
    (ha : CutAt hi as as') (hb : CutAt hi bs bs') (hc : CutAt hi cs cs') (h : leastKey (headKeys as bs cs) = some k) :
    below hi k ∧ leastKey (headKeys (as ++ as') (bs ++ bs') (cs ++ cs')) = some k := by
  rcases leastKey_eq_some.mp h with ⟨hmem, hle⟩
  simp only [headKeys, mem_cons, not_mem_nil, or_false] at hmem hle
  have hbelow : below hi k := by
    rcases hmem with hk | hk | hk
    · rcases Option.map_eq_some_iff.mp hk.symm with ⟨x, hx, rfl⟩
      exact ha.before x (mem_of_mem_head? hx)
    · rcases Option.map_eq_some_iff.mp hk.symm with ⟨x, hx, rfl⟩
      exact hb.before x (mem_of_mem_head? hx)
    rcases Option.map_eq_some_iff.mp hk.symm with ⟨x, hx, rfl⟩
    exact hc.before x (mem_of_mem_head? hx)
  refine ⟨hbelow, leastKey_eq_some.mpr ?_⟩
  simp only [headKeys, mem_cons, not_mem_nil, or_false]
  constructor
  · rcases hmem with hk | hk | hk
    · exact Or.inl (head_append_of_head hk.symm).symm
    · exact Or.inr (Or.inl (head_append_of_head hk.symm).symm)
    · exact Or.inr (Or.inr (head_append_of_head hk.symm).symm)
  intro other hother
  rcases hother with ho | ho | ho
  · rcases ha.head_append ho.symm with hin | hout
    · exact hle other (Or.inl hin.symm)
    · exact le_of_lt (lt_of_below hbelow hout)
  · rcases hb.head_append ho.symm with hin | hout
    · exact hle other (Or.inr (Or.inl hin.symm))
    · exact le_of_lt (lt_of_below hbelow hout)
  rcases hc.head_append ho.symm with hin | hout
  · exact hle other (Or.inr (Or.inr hin.symm))
  · exact le_of_lt (lt_of_below hbelow hout)

theorem heads_of_leastKey_none
    (h : leastKey (headKeys as bs cs) = none) : as = [] ∧ bs = [] ∧ cs = [] := by
  have hnone := leastKey_eq_none.mp h
  simp only [headKeys, mem_cons, not_mem_nil, or_false] at hnone
  refine ⟨?_, ?_, ?_⟩
  · cases as with
    | nil => rfl
    | cons x rest => exact absurd (Or.inl rfl) (hnone (key x))
  · cases bs with
    | nil => rfl
    | cons x rest => exact absurd (Or.inr (Or.inl rfl)) (hnone (key x))
  cases cs with
  | nil => rfl
  | cons x rest => exact absurd (Or.inr (Or.inr rfl)) (hnone (key x))

/-- Merging inputs cut at one key is merging what is before it, then what is
from it on. -/
theorem merge3_cut
    (ha : CutAt hi as as') (hb : CutAt hi bs bs') (hc : CutAt hi cs cs') :
    merge3 (as ++ as') (bs ++ bs') (cs ++ cs') = merge3 as bs cs ++ merge3 as' bs' cs' := by
  induction as, bs, cs using @merge3.induct κ _ α β γ _ _ _ with
  | case1 as bs cs h =>
    rcases heads_of_leastKey_none h with ⟨rfl, rfl, rfl⟩
    rw [merge3_of_none h]
    rfl
  | case2 as bs cs k h ih =>
    rcases leastKey_cut ha hb hc h with ⟨hk, hleast⟩
    rw [merge3_of_some hleast, merge3_of_some h, (ha.next hk).1, (ha.next hk).2,
      (hb.next hk).1, (hb.next hk).2, (hc.next hk).1, (hc.next hk).2,
      ih (ha.past k) (hb.past k) (hc.past k)]
    rfl

/-! ## What a merge meets -/

/-- The entry an input holds at `k`. -/
def entryAt (k : κ) (xs : List α) : Option α := xs.find? fun x => key x = k

theorem entryAt_eq_some (h : InKeyOrder xs) {x : α} :
    entryAt k xs = some x ↔ x ∈ xs ∧ key x = k := by
  unfold entryAt
  constructor
  · intro hfind
    exact ⟨mem_of_find?_eq_some hfind, by simpa using find?_some hfind⟩
  rintro ⟨hx, rfl⟩
  have hnodup : (xs.map key).Nodup := (pairwise_map.mpr h).imp ne_of_lt
  cases hfind : xs.find? fun y => decide (key y = key x) with
  | none => simpa using find?_eq_none.mp hfind x hx
  | some y =>
    have hkey : key y = key x := by simpa using find?_some hfind
    rw [inj_on_of_nodup_map hnodup (mem_of_find?_eq_some hfind) hx hkey]

/-- Reading an input at the kept keys of a set that holds its keys reads the
entries kept. -/
theorem filterMap_entryAt (h : InKeyOrder xs) {keys : SortedSet κ} (hkeys : ∀ x ∈ xs, key x ∈ keys) (keep : κ → Bool) :
    ((keys.toList.filter keep).filterMap fun k => entryAt k xs) =
      xs.filter fun x => keep (key x) := by
  have hread : InKeyOrder ((keys.toList.filter keep).filterMap fun k => entryAt k xs) := by
    refine List.Pairwise.filterMap _ ?_ (keys.sorted.filter _)
    intro k k' hlt x hx y hy
    rw [((entryAt_eq_some h).mp hx).2, ((entryAt_eq_some h).mp hy).2]
    exact hlt
  have : Std.Irrefl fun x y : α => key x < key y := ⟨fun x => lt_irrefl _⟩
  have : Std.Antisymm fun x y : α => key x < key y :=
    ⟨fun x y hxy hyx => absurd (lt_trans hxy hyx) (lt_irrefl _)⟩
  refine hread.eq_of_mem_iff (h.filter _) fun x => ?_
  rw [mem_filterMap, mem_filter]
  constructor
  · intro hx
    rcases hx with ⟨k, hk, hat⟩
    rcases (entryAt_eq_some h).mp hat with ⟨hmem, rfl⟩
    exact ⟨hmem, (mem_filter.mp hk).2⟩
  intro hx
  refine ⟨key x, mem_filter.mpr ⟨hkeys x hx.1, hx.2⟩, ?_⟩
  exact (entryAt_eq_some h).mpr ⟨hx.1, rfl⟩

/-- No entry sorts before `k`. -/
def FromOn (k : κ) (xs : List α) : Prop := ∀ x ∈ xs, k ≤ key x

theorem fromOn_of_head (hsorted : InKeyOrder xs) (hhead : ∀ k', xs.head?.map key = some k' → k ≤ k') : FromOn k xs := by
  cases xs with
  | nil => simp [FromOn]
  | cons x rest =>
    have hx : k ≤ key x := hhead (key x) rfl
    intro y hy
    rcases mem_cons.mp hy with rfl | hrest
    · exact hx
    · exact le_trans hx (le_of_lt (rel_of_pairwise_cons hsorted hrest))

theorem lt_of_mem_pastAt (hsorted : InKeyOrder xs) (hfrom : FromOn k xs) :
    ∀ x ∈ pastAt k xs, k < key x := by
  cases xs with
  | nil => simp [pastAt]
  | cons x rest =>
    intro y hy
    by_cases hx : key x = k
    · have hrest : y ∈ rest := by simpa [pastAt, hx] using hy
      exact hx ▸ rel_of_pairwise_cons hsorted hrest
    have hlt : k < key x := lt_of_le_of_ne (hfrom x (by simp)) (Ne.symm hx)
    have hall : y = x ∨ y ∈ rest := by simpa [pastAt, hx] using hy
    rcases hall with rfl | hrest
    · exact hlt
    · exact lt_trans hlt (rel_of_pairwise_cons hsorted hrest)

theorem InKeyOrder.past (h : InKeyOrder xs) (k : κ) : InKeyOrder (pastAt k xs) := by
  cases xs with
  | nil => exact h
  | cons x rest =>
    by_cases hx : key x = k
    · simpa [pastAt, hx] using List.Pairwise.of_cons h
    · simpa [pastAt, hx] using h

theorem entryAt_eq_none (h : ∀ x ∈ xs, k < key x) : entryAt k xs = none := by
  unfold entryAt
  rw [find?_eq_none]
  intro x hx
  simpa using ne_of_gt (h x hx)

theorem nextAt_eq_entryAt (hsorted : InKeyOrder xs) (hfrom : FromOn k xs) :
    nextAt k xs = entryAt k xs := by
  cases xs with
  | nil => rfl
  | cons x rest =>
    by_cases hx : key x = k
    · simp [nextAt, entryAt, hx]
    have hpast := lt_of_mem_pastAt hsorted hfrom
    have hnone : entryAt k (x :: rest) = none :=
      entryAt_eq_none (by simpa [pastAt, hx] using hpast)
    simp [nextAt, hx, hnone]

theorem entryAt_pastAt (h : k < k') (xs : List α) :
    entryAt k' (pastAt k xs) = entryAt k' xs := by
  cases xs with
  | nil => rfl
  | cons x rest =>
    by_cases hx : key x = k
    · simp [pastAt, entryAt, hx, ne_of_lt h]
    · simp [pastAt, hx]

theorem mem_keys_pastAt (h : k < k') (xs : List α) :
    k' ∈ (pastAt k xs).map key ↔ k' ∈ xs.map key := by
  cases xs with
  | nil => rfl
  | cons x rest =>
    by_cases hx : key x = k
    · simp [pastAt, hx, ne_of_gt h]
    · simp [pastAt, hx]

/-- The three inputs at their least key: it is the least of all their keys, and
one of them holds it. -/
theorem leastKey_spec (ha : InKeyOrder as)
    (hb : InKeyOrder bs) (hc : InKeyOrder cs) (h : leastKey (headKeys as bs cs) = some k) :
    (FromOn k as ∧ FromOn k bs ∧ FromOn k cs) ∧
      (k ∈ as.map key ∨ k ∈ bs.map key ∨ k ∈ cs.map key) := by
  rcases leastKey_eq_some.mp h with ⟨hmem, hle⟩
  simp only [headKeys, mem_cons, not_mem_nil, or_false] at hmem hle
  refine ⟨⟨?_, ?_, ?_⟩, ?_⟩
  · exact fromOn_of_head ha fun k' hk' => hle k' (Or.inl hk'.symm)
  · exact fromOn_of_head hb fun k' hk' => hle k' (Or.inr (Or.inl hk'.symm))
  · exact fromOn_of_head hc fun k' hk' => hle k' (Or.inr (Or.inr hk'.symm))
  have hin : ∀ {ι : Type} [Keyed ι κ] (xs : List ι), some k = xs.head?.map key →
      k ∈ xs.map key := by
    intro ι _ xs hxs
    cases xs with
    | nil => simp at hxs
    | cons x rest => simp at hxs; simp [hxs]
  exact hmem.imp (hin as) (Or.imp (hin bs) (hin cs))

/-- The merge of three inputs in key order: every key any of them holds, in key
order, with what each holds there. -/
theorem merge3_eq (ha : InKeyOrder as) (hb : InKeyOrder bs) (hc : InKeyOrder cs) :
    merge3 as bs cs =
      (ofList (as.map key ++ bs.map key ++ cs.map key)).toList.map fun k =>
        (k, entryAt k as, entryAt k bs, entryAt k cs) := by
  induction as, bs, cs using @merge3.induct κ _ α β γ _ _ _ with
  | case1 as bs cs h =>
    rcases heads_of_leastKey_none h with ⟨rfl, rfl, rfl⟩
    rw [merge3_of_none h]
    rfl
  | case2 as bs cs k h ih =>
    rcases leastKey_spec ha hb hc h with ⟨⟨fa, fb, fc⟩, hmem⟩
    have hrest := ih (ha.past k) (hb.past k) (hc.past k)
    have hpast : ∀ k' ∈ ofList ((pastAt k as).map key ++ (pastAt k bs).map key ++
        (pastAt k cs).map key), k < k' := by
      intro k' hk'
      simp only [mem_ofList, mem_append, mem_map] at hk'
      rcases hk' with (⟨x, hx, rfl⟩ | ⟨x, hx, rfl⟩) | ⟨x, hx, rfl⟩
      · exact lt_of_mem_pastAt ha fa x hx
      · exact lt_of_mem_pastAt hb fb x hx
      · exact lt_of_mem_pastAt hc fc x hx
    have hkeys : (ofList (as.map key ++ bs.map key ++ cs.map key)).toList =
        k :: (ofList ((pastAt k as).map key ++ (pastAt k bs).map key ++
          (pastAt k cs).map key)).toList := by
      refine (ofList _).sorted.eq_of_mem_iff
        (pairwise_cons.mpr ⟨hpast, (ofList _).sorted⟩) fun k' => ?_
      rw [mem_cons, ← mem_def, ← mem_def]
      have hsame : k < k' → (k' ∈ ofList (as.map key ++ bs.map key ++ cs.map key) ↔
          k' ∈ ofList ((pastAt k as).map key ++ (pastAt k bs).map key ++
            (pastAt k cs).map key)) := by
        intro hlt
        simp only [mem_ofList, mem_append, mem_keys_pastAt hlt]
      constructor
      · intro hk'
        have hle : k ≤ k' := by
          simp only [mem_ofList, mem_append, mem_map] at hk'
          rcases hk' with (⟨x, hx, rfl⟩ | ⟨x, hx, rfl⟩) | ⟨x, hx, rfl⟩
          · exact fa x hx
          · exact fb x hx
          · exact fc x hx
        rcases eq_or_lt_of_le hle with heq | hlt
        · exact Or.inl heq.symm
        · exact Or.inr ((hsame hlt).mp hk')
      intro hk'
      rcases hk' with rfl | hk'
      · simp only [mem_ofList, mem_append]
        exact or_assoc.mpr hmem
      · exact (hsame (hpast k' hk')).mpr hk'
    rw [merge3_of_some h, hrest, hkeys, map_cons, nextAt_eq_entryAt ha fa,
      nextAt_eq_entryAt hb fb, nextAt_eq_entryAt hc fc]
    congr 1
    refine map_congr_left fun k' hk' => ?_
    rw [entryAt_pastAt (hpast k' hk'), entryAt_pastAt (hpast k' hk'),
      entryAt_pastAt (hpast k' hk')]

end Merge

/-! ## Reading an input a window ahead -/

/-- An input read in key order and held a window ahead. -/
structure Lookahead (α : Type) where
  read : List α
  held : List α

namespace Lookahead

variable {α : Type} [Keyed α κ]

def new (read : List α) : Lookahead α := ⟨read, []⟩

/-- The entries still to come. -/
def entries (input : Lookahead α) : List α := input.held ++ input.read

/-- Read on until more than `window` entries are held. -/
def fill (window : Nat) : List α → List α → Lookahead α
  | [], held => ⟨[], held⟩
  | entry :: read, held =>
    if held.length ≤ window then fill window read (held ++ [entry]) else ⟨entry :: read, held⟩

/-- The input held a window and one entry ahead. -/
def ahead (window : Nat) (input : Lookahead α) : Lookahead α := fill window input.read input.held

/-- The key of the entry after the window, which no window may reach. -/
def bound (window : Nat) (input : Lookahead α) : Option κ := input.held[window]?.map key

/-- The entries held before `hi`, with the input they are taken off. -/
def takeBelow (hi : Option κ) (input : Lookahead α) : List α × Lookahead α :=
  (input.held.takeWhile fun entry => below hi (key entry),
    { input with held := input.held.dropWhile fun entry => below hi (key entry) })

theorem fill_entries (window : Nat) (read held : List α) :
    (fill window read held).entries = held ++ read := by
  induction read generalizing held with
  | nil => rfl
  | cons entry read ih =>
    unfold fill
    split
    · rw [ih]
      simp
    · rfl

theorem ahead_entries (window : Nat) (input : Lookahead α) :
    (input.ahead window).entries = input.entries :=
  fill_entries window input.read input.held

variable {window : Nat} {input : Lookahead α}

theorem fill_short {read held : List α}
    (h : (fill window read held).held.length ≤ window) : (fill window read held).read = [] := by
  induction read generalizing held with
  | nil => rfl
  | cons entry read ih =>
    unfold fill at h ⊢
    split at h
    · rename_i hle
      rw [if_pos hle]
      exact ih h
    rename_i hlt
    exact absurd h hlt

omit [LinearOrder κ] in
theorem read_of_bound_none
    (h : (input.ahead window).bound window = none) : (input.ahead window).read = [] := by
  have hlen : (input.ahead window).held.length ≤ window := by
    simpa [bound] using h
  exact fill_short hlen

omit [LinearOrder κ] in
theorem mem_held_of_bound {k : κ} (h : input.bound window = some k) : ∃ entry ∈ input.held, key entry = k := by
  rcases Option.map_eq_some_iff.mp h with ⟨entry, hentry, hkey⟩
  exact ⟨entry, mem_of_getElem? hentry, hkey⟩

theorem takeWhile_append_of_mem {xs ys : List α} {p : α → Bool} (h : ∃ x ∈ xs, p x = false) :
    (xs ++ ys).takeWhile p = xs.takeWhile p ∧ (xs ++ ys).dropWhile p = xs.dropWhile p ++ ys := by
  induction xs with
  | nil => simp at h
  | cons x xs ih =>
    cases hp : p x with
    | false => simp [hp]
    | true =>
      rcases h with ⟨y, hy, hfalse⟩
      have hrest : y ∈ xs := by
        rcases mem_cons.mp hy with rfl | hrest
        · simp [hp] at hfalse
        · exact hrest
      have hsplit := ih ⟨y, hrest, hfalse⟩
      simp [hp, hsplit.1, hsplit.2]

/-- A bound at or below which the window ends cuts the input there. -/
def Within (hi : Option κ) (bounded : Option κ) : Prop :=
  ∀ k, bounded = some k → below hi k = false

theorem takeBelow_split {hi : Option κ} (h : Within hi ((input.ahead window).bound window)) :
    ((input.ahead window).takeBelow hi).1 =
        input.entries.takeWhile (fun entry => below hi (key entry)) ∧
      ((input.ahead window).takeBelow hi).2.entries =
        input.entries.dropWhile (fun entry => below hi (key entry)) := by
  rw [← ahead_entries window input]
  unfold takeBelow entries
  cases hb : (input.ahead window).bound window with
  | none => simp [read_of_bound_none hb]
  | some k =>
    rcases mem_held_of_bound hb with ⟨entry, hentry, rfl⟩
    have hstop : ∃ e ∈ (input.ahead window).held, below hi (key e) = false :=
      ⟨entry, hentry, h (key entry) hb⟩
    have hsplit := @takeWhile_append_of_mem _ _ (input.ahead window).read _ hstop
    exact ⟨hsplit.1.symm, hsplit.2.symm⟩

end Lookahead

theorem cutAt_takeWhile {α : Type} [Keyed α κ] {xs : List α} (h : InKeyOrder xs) (hi : Option κ) :
    CutAt hi (xs.takeWhile fun x => below hi (key x)) (xs.dropWhile fun x => below hi (key x)) := by
  refine ⟨fun x hx => by simpa using mem_takeWhile_imp (p := fun x => below hi (key x)) hx, ?_⟩
  induction xs with
  | nil => simp
  | cons x xs ih =>
    cases hp : below hi (key x) with
    | true => simpa [hp] using ih (List.Pairwise.of_cons h)
    | false =>
      intro y hy
      have hmem : y = x ∨ y ∈ xs := by simpa [hp] using hy
      rcases hmem with rfl | hrest
      · exact hp
      have hlt := rel_of_pairwise_cons h hrest
      cases hy' : below hi (key y) with
      | false => rfl
      | true => exact absurd (lt_of_below hy' hp) (not_lt_of_gt hlt)

/-! ## Window after window -/

section Run

variable {α β γ σ : Type} [Keyed α κ] [Keyed β κ] [Keyed γ κ]

/-- Where the next window ends: the least of what the inputs bound it by. -/
def windowEnd (window : Nat) (as : Lookahead α) (bs : Lookahead β) (cs : Lookahead γ) : Option κ :=
  leastKey [as.bound window, bs.bound window, cs.bound window]

theorem windowEnd_within (window : Nat) (as : Lookahead α) (bs : Lookahead β) (cs : Lookahead γ) :
    Lookahead.Within (windowEnd window as bs cs) (as.bound window) ∧
      Lookahead.Within (windowEnd window as bs cs) (bs.bound window) ∧
      Lookahead.Within (windowEnd window as bs cs) (cs.bound window) := by
  have hall : ∀ k, some k ∈ [as.bound window, bs.bound window, cs.bound window] →
      below (windowEnd window as bs cs) k = false := by
    intro k hk
    cases hend : windowEnd window as bs cs with
    | none => exact absurd hk (leastKey_eq_none.mp hend k)
    | some hi => simpa [below] using (leastKey_eq_some.mp hend).2 k hk
  refine ⟨fun k hk => hall k ?_, fun k hk => hall k ?_, fun k hk => hall k ?_⟩ <;> simp [hk]

theorem takeBelow_entries_length (hi : Option κ) (input : Lookahead α) :
    (input.takeBelow hi).1.length + (input.takeBelow hi).2.entries.length =
      input.entries.length := by
  have hsplit := congrArg List.length
    (takeWhile_append_dropWhile (p := fun entry : α => below hi (key entry))
      (l := input.held))
  simp only [length_append] at hsplit
  simp only [Lookahead.takeBelow, Lookahead.entries, length_append]
  omega

/-- Hand `step` one window of the three inputs after another, until all three
are empty. -/
def runWindows (window : ℕ+) (step : σ → List α → List β → List γ → σ) (as : Lookahead α)
    (bs : Lookahead β) (cs : Lookahead γ) (s : σ) : σ :=
  let hi := windowEnd window (as.ahead window) (bs.ahead window) (cs.ahead window)
  let inA := (as.ahead window).takeBelow hi
  let inB := (bs.ahead window).takeBelow hi
  let inC := (cs.ahead window).takeBelow hi
  if (inA.1.isEmpty && inB.1.isEmpty && inC.1.isEmpty) = true then s
  else runWindows window step inA.2 inB.2 inC.2 (step s inA.1 inB.1 inC.1)
termination_by as.entries.length + bs.entries.length + cs.entries.length
decreasing_by
  rename_i hsome
  have ha : inA.1.length + inA.2.entries.length = as.entries.length := by
    rw [← Lookahead.ahead_entries window as]
    exact takeBelow_entries_length hi (as.ahead window)
  have hb : inB.1.length + inB.2.entries.length = bs.entries.length := by
    rw [← Lookahead.ahead_entries window bs]
    exact takeBelow_entries_length hi (bs.ahead window)
  have hc : inC.1.length + inC.2.entries.length = cs.entries.length := by
    rw [← Lookahead.ahead_entries window cs]
    exact takeBelow_entries_length hi (cs.ahead window)
  have hpos : 0 < inA.1.length + inB.1.length + inC.1.length := by
    by_contra hzero
    have hzero' : inA.1.length = 0 ∧ inB.1.length = 0 ∧ inC.1.length = 0 := by omega
    simp only [length_eq_zero_iff] at hzero'
    simp [hzero'] at hsome
  show inA.2.entries.length + inB.2.entries.length + inC.2.entries.length < _
  omega

variable {window : ℕ+} {as : Lookahead α} {bs : Lookahead β} {cs : Lookahead γ}

theorem taken_ne_nil_of_bound {input : Lookahead α} {k : κ}
    (hsorted : InKeyOrder input.entries) (h : input.bound window = some k) :
    (input.takeBelow (some k)).1 ≠ [] := by
  rcases Option.map_eq_some_iff.mp h with ⟨entry, hentry, rfl⟩
  have hheld : InKeyOrder input.held := (pairwise_append.mp hsorted).1
  cases hin : input.held with
  | nil => simp [hin] at hentry
  | cons first rest =>
    rw [hin] at hentry hheld
    have hmem : entry ∈ rest := by
      have hpos := window.pos
      rw [getElem?_cons, if_neg (by omega)] at hentry
      exact mem_of_getElem? hentry
    have hlt : key first < key entry := rel_of_pairwise_cons hheld hmem
    simp [Lookahead.takeBelow, hin, below, hlt]

theorem entries_of_taken_nil
    (ha : InKeyOrder as.entries) (hb : InKeyOrder bs.entries) (hc : InKeyOrder cs.entries) {hi : Option κ}
    (hhi : hi = windowEnd window (as.ahead window) (bs.ahead window) (cs.ahead window))
    (hA : ((as.ahead window).takeBelow hi).1 = []) (hB : ((bs.ahead window).takeBelow hi).1 = [])
    (hC : ((cs.ahead window).takeBelow hi).1 = []) :
    as.entries = [] ∧ bs.entries = [] ∧ cs.entries = [] := by
  rw [← Lookahead.ahead_entries window] at ha hb hc
  cases hi with
  | some k =>
    rcases leastKey_eq_some.mp hhi.symm with ⟨hmem, -⟩
    simp only [mem_cons, not_mem_nil, or_false] at hmem
    rcases hmem with hk | hk | hk
    · exact absurd hA (taken_ne_nil_of_bound ha hk.symm)
    · exact absurd hB (taken_ne_nil_of_bound hb hk.symm)
    · exact absurd hC (taken_ne_nil_of_bound hc hk.symm)
  | none =>
    rcases windowEnd_within window (as.ahead window) (bs.ahead window) (cs.ahead window) with
      ⟨wa, wb, wc⟩
    rw [← hhi] at wa wb wc
    rw [(Lookahead.takeBelow_split wa).1] at hA
    rw [(Lookahead.takeBelow_split wb).1] at hB
    rw [(Lookahead.takeBelow_split wc).1] at hC
    -- with no bound every entry is below the end of the window
    have hall : ∀ {ι : Type} (xs : List ι), xs.takeWhile (fun _ => true) = xs := by simp
    exact ⟨(hall _).symm.trans hA, (hall _).symm.trans hB, (hall _).symm.trans hC⟩

theorem runWindows_eq {step : σ → List α → List β → List γ → σ} {f : σ → κ × Option α × Option β × Option γ → σ}
    (hstep : ∀ s as bs cs, step s as bs cs = (merge3 as bs cs).foldl f s) (ha : InKeyOrder as.entries)
    (hb : InKeyOrder bs.entries) (hc : InKeyOrder cs.entries) (s : σ) :
    runWindows window step as bs cs s =
      (merge3 as.entries bs.entries cs.entries).foldl f s := by
  induction as, bs, cs, s using @runWindows.induct κ _ α β γ σ _ _ _ window step with
  | case1 as bs cs s hi inA inB inC hempty =>
    simp only [Bool.and_eq_true, List.isEmpty_iff] at hempty
    rcases entries_of_taken_nil ha hb hc rfl hempty.1.1 hempty.1.2 hempty.2 with ⟨hA, hB, hC⟩
    have hnil : merge3 as.entries bs.entries cs.entries = [] := by
      rw [hA, hB, hC]
      exact merge3_of_none rfl
    rw [hnil, runWindows, if_pos]
    · rfl
    simp only [Bool.and_eq_true, List.isEmpty_iff]
    exact hempty
  | case2 as bs cs s hi inA inB inC hsome ih =>
    rcases windowEnd_within window (as.ahead window) (bs.ahead window) (cs.ahead window) with
      ⟨wa, wb, wc⟩
    have hA := Lookahead.takeBelow_split wa
    have hB := Lookahead.takeBelow_split wb
    have hC := Lookahead.takeBelow_split wc
    have cutA := cutAt_takeWhile ha hi
    have cutB := cutAt_takeWhile hb hi
    have cutC := cutAt_takeWhile hc hi
    have hrest := ih (by rw [hA.2]; exact ha.sublist (dropWhile_sublist _))
      (by rw [hB.2]; exact hb.sublist (dropWhile_sublist _))
      (by rw [hC.2]; exact hc.sublist (dropWhile_sublist _))
    rw [runWindows, if_neg hsome]
    have hmerge := merge3_cut cutA cutB cutC
    simp only [takeWhile_append_dropWhile] at hmerge
    rw [hmerge, foldl_append]
    show runWindows window step inA.2 inB.2 inC.2 (step s inA.1 inB.1 inC.1) = _
    rw [hrest, hstep]
    show (merge3 inA.2.entries inB.2.entries inC.2.entries).foldl f
      ((merge3 inA.1 inB.1 inC.1).foldl f s) = _
    rw [show inA.1 = _ from hA.1, show inB.1 = _ from hB.1, show inC.1 = _ from hC.1,
      show inA.2.entries = _ from hA.2, show inB.2.entries = _ from hB.2,
      show inC.2.entries = _ from hC.2]

end Run

end SyncEngine.Collections
