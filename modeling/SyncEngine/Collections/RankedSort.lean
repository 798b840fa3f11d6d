import Mathlib.Data.List.Sort

/-! # Sorting ranked rows

Rows carry the rank they were planned at. Sorting them by an order that leaves
ties, and among ties by rank, is the stable sort of the rows in rank order; and
what a filter keeps of the sorted rows is the sort of what it keeps.
-/

namespace SyncEngine.Collections

open List

variable {ρ α : Type} [LinearOrder ρ] (le : α → α → Prop) [DecidableRel le]

/-- The order of the values, and of the ranks where the values tie. -/
def rankedLe (x y : ρ × α) : Prop := le x.2 y.2 ∧ (le y.2 x.2 → x.1 ≤ y.1)

instance : DecidableRel (rankedLe (ρ := ρ) le) := fun _ _ => inferInstanceAs (Decidable (_ ∧ _))

variable [Std.Total le] [IsTrans α le]

instance : Std.Total (rankedLe (ρ := ρ) le) where
  total x y := by
    unfold rankedLe
    by_cases hxy : le x.2 y.2
    · by_cases hyx : le y.2 x.2
      · rcases le_total x.1 y.1 with hrank | hrank
        · exact Or.inl ⟨hxy, fun _ => hrank⟩
        · exact Or.inr ⟨hyx, fun _ => hrank⟩
      · exact Or.inl ⟨hxy, fun h => absurd h hyx⟩
    have hyx : le y.2 x.2 := (Std.Total.total x.2 y.2).resolve_left hxy
    exact Or.inr ⟨hyx, fun h => absurd h hxy⟩

instance : IsTrans (ρ × α) (rankedLe (ρ := ρ) le) where
  trans x y z hxy hyz := by
    refine ⟨trans_of le hxy.1 hyz.1, fun hzx => ?_⟩
    have hyx : le y.2 x.2 := trans_of le hyz.1 hzx
    have hzy : le z.2 y.2 := trans_of le hzx hxy.1
    exact le_trans (hxy.2 hyx) (hyz.2 hzy)

variable {le}

omit [DecidableRel le] [Std.Total le] [IsTrans α le] in
theorem eq_of_rankedLe {rows : List (ρ × α)} (hranks : rows.Pairwise fun x y => x.1 < y.1)
    {x y : ρ × α} (hx : x ∈ rows) (hy : y ∈ rows) (hxy : rankedLe le x y) (hyx : rankedLe le y x) : x = y := by
  have hrank : x.1 = y.1 := le_antisymm (hxy.2 hyx.1) (hyx.2 hxy.1)
  have hnodup : (rows.map Prod.fst).Nodup :=
    (pairwise_map.mpr hranks).imp ne_of_lt
  exact inj_on_of_nodup_map hnodup hx hy hrank

theorem orderedInsert_congr {β : Type} {r s : β → β → Prop} [DecidableRel r] [DecidableRel s]
    {a : β} {xs : List β} (h : ∀ b ∈ xs, r a b ↔ s a b) :
    xs.orderedInsert r a = xs.orderedInsert s a := by
  induction xs with
  | nil => rfl
  | cons b xs ih =>
    have hrest := ih fun c hc => h c (mem_cons_of_mem _ hc)
    simp only [orderedInsert_cons, h b (by simp), hrest]

theorem insertionSort_congr {β : Type} {r s : β → β → Prop} [DecidableRel r] [DecidableRel s]
    {xs : List β} (h : ∀ a ∈ xs, ∀ b ∈ xs, r a b ↔ s a b) :
    xs.insertionSort r = xs.insertionSort s := by
  simpa using map_insertionSort r s id xs h

omit [Std.Total le] [IsTrans α le] in
theorem insertionSort_rankedLe {rows : List (ρ × α)} (hranks : rows.Pairwise fun x y => x.1 < y.1) :
    rows.insertionSort (rankedLe le) = rows.insertionSort fun x y => le x.2 y.2 := by
  induction rows with
  | nil => rfl
  | cons row rows ih =>
    rw [insertionSort_cons, insertionSort_cons, ← ih (List.Pairwise.of_cons hranks)]
    refine orderedInsert_congr fun other hother => ?_
    have hlt := rel_of_pairwise_cons hranks ((mem_insertionSort _).mp hother)
    exact ⟨fun h => h.1, fun h => ⟨h, fun _ => le_of_lt hlt⟩⟩

/-- What a filter keeps of the sorted rows is the stable sort, by value, of what
it keeps of the rows in rank order. -/
theorem filter_sorted_rows {rows ranked : List (ρ × α)} (hperm : rows.Perm ranked)
    (hranks : ranked.Pairwise fun x y => x.1 < y.1) (keep : α → Bool) :
    ((rows.insertionSort (rankedLe le)).map Prod.snd).filter keep =
      ((ranked.map Prod.snd).filter keep).insertionSort le := by
  have hkept : (ranked.filter (keep ∘ Prod.snd)).Pairwise fun x y => x.1 < y.1 :=
    hranks.filter _
  have hsorted : (rows.insertionSort (rankedLe le)).filter (keep ∘ Prod.snd) =
      (ranked.filter (keep ∘ Prod.snd)).insertionSort (rankedLe le) := by
    refine @List.Perm.eq_of_pairwise _ (rankedLe le) _ _ ?_ ?_ ?_ ?_
    · intro x y hx hy hxy hyx
      have hx' := (hperm.mem_iff).mp ((mem_insertionSort _).mp (mem_of_mem_filter hx))
      have hy' := mem_of_mem_filter ((mem_insertionSort _).mp hy)
      exact eq_of_rankedLe hranks hx' hy' hxy hyx
    · exact (pairwise_insertionSort _ _).filter _
    · exact pairwise_insertionSort _ _
    have hleft := ((perm_insertionSort (rankedLe le) rows).trans hperm).filter
      (keep ∘ Prod.snd)
    exact hleft.trans (perm_insertionSort _ _).symm
  rw [filter_map, hsorted, insertionSort_rankedLe hkept, filter_map]
  exact map_insertionSort _ le Prod.snd _ fun x _ y _ => Iff.rfl

end SyncEngine.Collections
