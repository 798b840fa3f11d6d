import Mathlib.Data.List.Sort
import Mathlib.Data.List.TakeWhile
import Mathlib.Data.PNat.Defs

/-! # Lists in the order of their keys

A table read in key order is a list whose keys ascend strictly. Such a list is
settled by its members, may be read a page at a time, and two of them with no key
in common merge into one.
-/

namespace SyncEngine.Collections

open List

variable {α κ : Type} [LinearOrder κ] {key : α → κ}

/-- The keys of a list come in strict order. -/
def Ascending (key : α → κ) (xs : List α) : Prop := xs.Pairwise fun a b => key a < key b

namespace Ascending

theorem nil : Ascending key ([] : List α) := List.Pairwise.nil

theorem sublist {xs ys : List α} (h : Ascending key xs) (hsub : ys.Sublist xs) :
    Ascending key ys := List.Pairwise.sublist hsub h

variable {xs : List α}

section

variable (h : Ascending key xs)
include h

theorem filter (test : α → Bool) :
    Ascending key (xs.filter test) := h.sublist filter_sublist

theorem nodup : xs.Nodup := by
  refine List.Pairwise.imp (fun hlt heq => ?_) h
  rw [heq] at hlt
  exact lt_irrefl _ hlt

theorem nodup_keys : (xs.map key).Nodup :=
  pairwise_map.mpr (h.imp ne_of_lt)

theorem eq_of_key {a b : α} (ha : a ∈ xs) (hb : b ∈ xs)
    (heq : key a = key b) : a = b := inj_on_of_nodup_map h.nodup_keys ha hb heq

end

theorem eq_of_mem_iff {xs ys : List α} (hx : Ascending key xs) (hy : Ascending key ys)
    (h : ∀ a, a ∈ xs ↔ a ∈ ys) : xs = ys := by
  have : Std.Irrefl fun a b : α => key a < key b := ⟨fun a => lt_irrefl (key a)⟩
  have : Std.Antisymm fun a b : α => key a < key b :=
    ⟨fun a b hab hba => absurd hba (lt_asymm hab)⟩
  exact List.Pairwise.eq_of_mem_iff hx hy h

theorem append {xs ys : List α} (hx : Ascending key xs) (hy : Ascending key ys)
    (h : ∀ a ∈ xs, ∀ b ∈ ys, key a < key b) : Ascending key (xs ++ ys) :=
  pairwise_append.mpr ⟨hx, hy, h⟩

theorem map {β : Type} {key' : β → κ} (h : Ascending key xs) (f : α → β)
    (hf : ∀ a ∈ xs, ∀ b ∈ xs, key a < key b → key' (f a) < key' (f b)) :
    Ascending key' (xs.map f) := by
  refine pairwise_map.mpr (List.Pairwise.imp_of_mem (fun ha hb hlt => ?_) h)
  exact hf _ ha _ hb hlt

theorem filterMap {β : Type} {key' : β → κ} (h : Ascending key xs)
    (f : α → Option β) (hf : ∀ a ∈ xs, ∀ b ∈ xs, key a < key b → ∀ a' b', f a = some a' →
      f b = some b' → key' a' < key' b') : Ascending key' (xs.filterMap f) := by
  refine pairwise_filterMap.mpr (List.Pairwise.imp_of_mem (fun ha hb hlt => ?_) h)
  intro a' ha' b' hb'
  exact hf _ ha _ hb hlt a' b' ha' hb'

theorem takeWhile_eq_filter (h : Ascending key xs) {test : α → Bool}
    (hdown : ∀ a ∈ xs, ∀ b ∈ xs, key a < key b → test b → test a) :
    xs.takeWhile test = xs.filter test := by
  induction xs with
  | nil => rfl
  | cons a rest ih =>
    obtain ⟨hfirst, hrest⟩ := pairwise_cons.mp h
    cases htest : test a with
    | true =>
      rw [takeWhile_cons_of_pos htest, filter_cons_of_pos htest, ih hrest]
      intro b hb c hc
      exact hdown b (mem_cons_of_mem _ hb) c (mem_cons_of_mem _ hc)
    | false =>
      have hfalse : ¬ test a := by simp [htest]
      rw [takeWhile_cons_of_neg hfalse, filter_cons_of_neg hfalse]
      refine (filter_eq_nil_iff.mpr fun b hb hpass => hfalse ?_).symm
      exact hdown a mem_cons_self b (mem_cons_of_mem _ hb) (hfirst b hb) hpass

end Ascending

/-- Take from the second list only what comes before the first of the first. -/
def mergeBy (key : α → κ) (xs ys : List α) : List α :=
  List.merge xs ys fun a b => !decide (key b < key a)

theorem mem_mergeBy {xs ys : List α} {a : α} : a ∈ mergeBy key xs ys ↔ a ∈ xs ∨ a ∈ ys :=
  mem_merge

theorem Ascending.mergeBy {xs ys : List α} (hx : Ascending key xs) (hy : Ascending key ys)
    (h : ∀ a ∈ xs, ∀ b ∈ ys, key a ≠ key b) : Ascending key (mergeBy key xs ys) := by
  have hle : (Collections.mergeBy key xs ys).Pairwise fun a b => key a ≤ key b := by
    have hsorted := @pairwise_merge _ (fun a b : α => !decide (key b < key a))
      (by simpa using fun a b c => le_trans) (by simpa using fun a b => le_total (key a) (key b))
      xs ys (hx.imp fun hab => by simpa using hab.le) (hy.imp fun hab => by simpa using hab.le)
    exact hsorted.imp fun hab => by simpa using hab
  have hnodup : ((Collections.mergeBy key xs ys).map key).Nodup := by
    have hperm : (Collections.mergeBy key xs ys).Perm (xs ++ ys) := merge_perm_append _
    rw [(hperm.map key).nodup_iff, map_append, nodup_append]
    refine ⟨hx.nodup_keys, hy.nodup_keys, fun k hk l hl => ?_⟩
    obtain ⟨a, ha, rfl⟩ := mem_map.mp hk
    obtain ⟨b, hb, rfl⟩ := mem_map.mp hl
    exact h a ha b hb
  exact (hle.and (pairwise_map.mp hnodup)).imp fun hab => lt_of_le_of_ne hab.1 hab.2

/-! ## A page at a time -/

/-- Read what is past a start a page at a time, each page from past the last key of
the one before, until a page is not full. -/
def pages (key : α → κ) (limit : ℕ+) (xs : List α) : Nat → (α → Bool) → List α
  | 0, _ => []
  | fuel + 1, past =>
    let page := (xs.filter past).take limit
    match page.getLast? with
    | none => page
    | some last =>
      if page.length < limit then page
      else page ++ pages key limit xs fuel fun a => key last < key a

theorem Ascending.filter_past {front rest : List α} {last : α}
    (h : Ascending key (front ++ rest)) (hlast : front.getLast? = some last) :
    (front ++ rest).filter (fun a => key last < key a) = rest := by
  obtain ⟨hfront, hrest, hcross⟩ := pairwise_append.mp h
  obtain ⟨init, rfl⟩ := getLast?_eq_some_iff.mp hlast
  have hmem : last ∈ init ++ [last] := mem_append_right _ (mem_singleton.mpr rfl)
  rw [filter_append, filter_eq_nil_iff.mpr, filter_eq_self.mpr, nil_append]
  · intro a ha
    exact decide_eq_true (hcross last hmem a ha)
  intro a ha
  rw [decide_eq_true_eq, not_lt]
  rcases mem_append.mp ha with ha | ha
  · exact ((pairwise_append.mp hfront).2.2 a ha last (mem_singleton.mpr rfl)).le
  · rw [mem_singleton.mp ha]

theorem Ascending.pages_eq {xs : List α} (h : Ascending key xs) (limit : ℕ+) (fuel : Nat)
    (past : α → Bool) (hpast : ∀ a ∈ xs, ∀ b ∈ xs, key a < key b → past a → past b)
    (hfuel : (xs.filter past).length < fuel) : pages key limit xs fuel past = xs.filter past := by
  induction fuel generalizing past with
  | zero => exact absurd hfuel (Nat.not_lt_zero _)
  | succ fuel ih =>
    unfold pages
    dsimp only
    have hsplit := take_append_drop limit (xs.filter past)
    cases hlast : ((xs.filter past).take limit).getLast? with
    | none =>
      have hnil : (xs.filter past).take limit = [] := getLast?_eq_none_iff.mp hlast
      rcases take_eq_nil_iff.mp hnil with hzero | hempty
      · exact absurd hzero limit.ne_zero
      rw [hempty]
      exact take_nil
    | some last =>
      dsimp only
      split
      · rename_i hshort
        rw [length_take] at hshort
        exact take_of_length_le (by omega)
      rename_i hfull
      have hasc : Ascending key
          ((xs.filter past).take limit ++ (xs.filter past).drop limit) := by
        rw [hsplit]
        exact h.filter past
      have hrest : (xs.filter past).filter (fun a => key last < key a) =
          (xs.filter past).drop limit := by
        have := hasc.filter_past hlast
        rwa [hsplit] at this
      -- what is past the last key was past the start
      have hwhole : xs.filter (fun a => key last < key a) =
          (xs.filter past).drop limit := by
        rw [← hrest, filter_filter]
        refine filter_congr fun a ha => ?_
        have hmem : last ∈ xs.filter past :=
          mem_of_mem_take (mem_of_getLast? hlast)
        obtain ⟨hxs, hlastPast⟩ := mem_filter.mp hmem
        by_cases hlt : key last < key a
        · simp [hlt, hpast last hxs a ha hlt hlastPast]
        · simp [hlt]
      rw [ih, hwhole, hsplit]
      · intro a _ b _ hab hpasta
        exact decide_eq_true (lt_trans (of_decide_eq_true hpasta) hab)
      rw [hwhole, length_drop]
      have hpos := limit.pos
      have hlen : 0 < (xs.filter past).length :=
        length_pos_of_mem (mem_of_mem_take (mem_of_getLast? hlast))
      omega

/-! ## Two lists side by side -/

section Join

variable {μ : Type}

/-- Walk a list with marks beside it, both in key order: an element takes the mark
of its key. -/
def joinInOrder (key : α → κ) (put : α → μ → α) : List (κ × μ) → List α → List α
  | _, [] => []
  | marks, a :: rest =>
    match marks.dropWhile fun mark => decide (mark.1 < key a) with
    | [] => a :: joinInOrder key put [] rest
    | mark :: marks' =>
      if mark.1 = key a then put a mark.2 :: joinInOrder key put marks' rest
      else a :: joinInOrder key put (mark :: marks') rest

/-- An element with the first mark of its key. -/
def joined (key : α → κ) (put : α → μ → α) (marks : List (κ × μ)) (a : α) : α :=
  match marks.find? fun mark => decide (mark.1 = key a) with
  | none => a
  | some mark => put a mark.2

variable {put : α → μ → α}

theorem joined_append {before marks : List (κ × μ)} {a : α} (h : ∀ mark ∈ before, mark.1 ≠ key a) :
    joined key put (before ++ marks) a = joined key put marks a := by
  unfold joined
  rw [find?_append, find?_eq_none.mpr (by simpa using h), Option.none_or]

variable {marks : List (κ × μ)}

theorem joined_of_forall_ne {a : α}
    (h : ∀ mark ∈ marks, mark.1 ≠ key a) : joined key put marks a = a := by
  unfold joined
  rw [find?_eq_none.mpr (by simpa using h)]

theorem Ascending.joined_of_mem {a : α} {mark : κ × μ}
    (hmarks : Ascending Prod.fst marks) (hmem : mark ∈ marks) (hkey : mark.1 = key a) :
    joined key put marks a = put a mark.2 := by
  unfold joined
  cases hfind : marks.find? fun mark => decide (mark.1 = key a) with
  | none =>
    have := find?_eq_none.mp hfind mark hmem
    simp [hkey] at this
  | some other =>
    have hother : other.1 = key a := by simpa using find?_some hfind
    rw [hmarks.eq_of_key (mem_of_find?_eq_some hfind) hmem (hother.trans hkey.symm)]

theorem Ascending.joinInOrder_eq {xs : List α}
    (hmarks : Ascending Prod.fst marks) (h : Ascending key xs) :
    joinInOrder key put marks xs = xs.map (joined key put marks) := by
  induction xs generalizing marks with
  | nil => rfl
  | cons a rest ih =>
    obtain ⟨hfirst, hrest⟩ := pairwise_cons.mp h
    -- the marks passed over lie before this element and so before every later one
    have hpassed : ∀ mark ∈ marks.takeWhile (fun mark => mark.1 < key a),
        mark.1 < key a := by
      intro mark hmark
      have hpass := mem_takeWhile_imp hmark
      exact of_decide_eq_true hpass
    have hsplit := takeWhile_append_dropWhile
      (p := fun mark : κ × μ => mark.1 < key a) (l := marks)
    have hsame : ∀ b ∈ a :: rest, joined key put marks b =
        joined key put (marks.dropWhile fun mark => mark.1 < key a) b := by
      intro b hb
      conv_lhs => rw [← hsplit]
      refine joined_append fun mark hmark heq => ?_
      have hlt := hpassed mark hmark
      rcases mem_cons.mp hb with rfl | hb
      · exact absurd heq hlt.ne
      · exact absurd heq (lt_trans hlt (hfirst b hb)).ne
    have hleft : Ascending Prod.fst (marks.dropWhile fun mark => mark.1 < key a) :=
      hmarks.sublist (dropWhile_sublist _)
    rw [map_congr_left hsame, map_cons]
    unfold joinInOrder
    cases hdrop : marks.dropWhile fun mark => decide (mark.1 < key a) with
    | nil =>
      rw [ih Ascending.nil hrest]
      rfl
    | cons mark marks' =>
      rw [hdrop] at hleft
      dsimp only
      split
      · rename_i heq
        have hnext : ∀ b ∈ rest,
            joined key put (mark :: marks') b = joined key put marks' b := by
          intro b hb
          refine @joined_append _ _ _ key _ put [mark] marks' b fun other hother hkey => ?_
          rw [mem_singleton.mp hother, heq] at hkey
          exact absurd hkey (hfirst b hb).ne
        rw [ih (pairwise_cons.mp hleft).2 hrest, ← map_congr_left hnext]
        have hhead : joined key put (mark :: marks') a = put a mark.2 := by
          simp [joined, heq]
        rw [hhead]
      rename_i hne
      have hpast : ¬ mark.1 < key a := by
        have hhead :=
          head?_dropWhile_not (fun mark : κ × μ => mark.1 < key a) marks
        rw [hdrop, head?_cons] at hhead
        simpa using hhead
      have hafter : ∀ other ∈ mark :: marks', key a < other.1 := by
        have hmark : key a < mark.1 := lt_of_le_of_ne (not_lt.mp hpast) (Ne.symm hne)
        intro other hother
        rcases mem_cons.mp hother with rfl | hother
        · exact hmark
        · exact lt_trans hmark ((pairwise_cons.mp hleft).1 other hother)
      have hhead : joined key put (mark :: marks') a = a := by
        have hnone : (mark :: marks').find? (fun other => other.1 = key a) = none :=
          find?_eq_none.mpr fun other hother => by simpa using (hafter other hother).ne'
        unfold joined
        rw [hnone]
      rw [ih hleft hrest, hhead]

end Join

end SyncEngine.Collections
