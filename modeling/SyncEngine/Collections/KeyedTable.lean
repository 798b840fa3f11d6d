import Mathlib.Data.List.Perm.Basic
import SyncEngine.Collections.Rekey

/-! # A table with a key, conflict replacement and row triggers

Rows stand under distinct keys, beside a state that triggers change with every row
put in, taken out or rewritten. A row written over another takes that one out first,
and its trigger runs. What the triggers keep of the rows they then keep of the table,
and a statement that rewrites keys re-keys the table.
-/

namespace SyncEngine.Collections

open List

section KeyedTable

variable {α κ σ : Type} [DecidableEq κ]

/-- Rows under distinct keys, and what the triggers keep beside them. -/
structure KeyedTable (key : α → κ) (σ : Type) where
  rows : List α
  side : σ
  keyed : (rows.map key).Nodup

/-- What runs for a row put in and for a row taken out. -/
structure RowTriggers (α σ : Type) where
  inserted : α → σ → σ
  deleted : α → σ → σ

namespace KeyedTable

variable {key : α → κ}

def empty (key : α → κ) (side : σ) : KeyedTable key σ := ⟨[], side, nodup_nil⟩

def get (t : KeyedTable key σ) (k : κ) : Option α := t.rows.find? fun row => key row = k

/-- The table without the row at a key. -/
def without (t : KeyedTable key σ) (k : κ) : KeyedTable key σ where
  rows := t.rows.filter fun row => key row ≠ k
  side := t.side
  keyed := t.keyed.sublist (filter_sublist.map _)

/-- The table with a row under its key. -/
def with' (t : KeyedTable key σ) (row : α) : KeyedTable key σ where
  rows := row :: (t.without (key row)).rows
  side := t.side
  keyed := by
    rw [map_cons, nodup_cons]
    refine ⟨fun hmem => ?_, (t.without (key row)).keyed⟩
    obtain ⟨other, hother, heq⟩ := mem_map.mp hmem
    exact of_decide_eq_true (mem_filter.mp hother).2 heq

/-- The table with another state beside it. -/
def withSide (t : KeyedTable key σ) (side : σ) : KeyedTable key σ := { t with side := side }

variable (triggers : RowTriggers α σ)

/-- Take out the row at a key, if there is one. -/
def deleteAt (t : KeyedTable key σ) (k : κ) : KeyedTable key σ :=
  match t.get k with
  | none => t
  | some old => (t.without k).withSide (triggers.deleted old t.side)

/-- The keys of the rows a condition on the key selects. -/
def selected (t : KeyedTable key σ) (cond : κ → Bool) : List κ := (t.rows.map key).filter cond

def deleteWhere (t : KeyedTable key σ) (cond : κ → Bool) : KeyedTable key σ :=
  (t.selected cond).foldl (deleteAt triggers) t

/-- Put a row in, over the row at its key. -/
def insertOrReplace (t : KeyedTable key σ) (row : α) : KeyedTable key σ :=
  let t := t.deleteAt triggers (key row)
  (t.with' row).withSide (triggers.inserted row t.side)

/-- Rewrite the row at a key, over the row at its new key. -/
def updateAt (set : α → α) (updated : α → α → σ → σ) (t : KeyedTable key σ) (k : κ) :
    KeyedTable key σ :=
  match t.get k with
  | none => t
  | some old =>
    let row := set old
    let t := if key row = k then t else t.deleteAt triggers (key row)
    ((t.without k).with' row).withSide (updated old row t.side)

/-- Rewrite each row a condition on the key selects. The keys are collected before the
first row is rewritten. -/
def updateOrReplace (t : KeyedTable key σ) (cond : κ → Bool) (set : α → α)
    (updated : α → α → σ → σ) : KeyedTable key σ :=
  (t.selected cond).foldl (updateAt triggers set updated) t

/-! ### What the table holds at a key -/

variable {triggers}

variable {t : KeyedTable key σ} {k : κ} {row : α} {cond : κ → Bool}

theorem get_eq_some_iff :
    t.get k = some row ↔ row ∈ t.rows ∧ key row = k := by
  constructor
  · intro h
    have hkey := find?_some h
    exact ⟨mem_of_find?_eq_some h, of_decide_eq_true hkey⟩
  rintro ⟨hmem, rfl⟩
  cases hget : t.get (key row) with
  | none =>
    have hno := find?_eq_none.mp hget row hmem
    simp at hno
  | some other =>
    have hother : other ∈ t.rows := mem_of_find?_eq_some hget
    have hkey := find?_some hget
    rw [inj_on_of_nodup_map t.keyed hother hmem (of_decide_eq_true hkey)]

theorem key_of_get (h : t.get k = some row) :
    key row = k := (get_eq_some_iff.mp h).2

theorem mem_selected :
    k ∈ t.selected cond ↔ (t.get k).isSome ∧ cond k := by
  unfold selected
  rw [mem_filter, mem_map, Option.isSome_iff_exists]
  simp only [get_eq_some_iff]

omit [DecidableEq κ] in
theorem nodup_selected (t : KeyedTable key σ) (cond : κ → Bool) : (t.selected cond).Nodup :=
  t.keyed.filter _

@[simp] theorem get_withSide (t : KeyedTable key σ) (side : σ) (k : κ) :
    (t.withSide side).get k = t.get k := rfl

theorem get_without (t : KeyedTable key σ) (at' k : κ) :
    (t.without at').get k = if k = at' then none else t.get k := by
  refine Option.ext fun row => ?_
  have hmem : row ∈ (t.without at').rows ↔ row ∈ t.rows ∧ key row ≠ at' := by
    simp [without, mem_filter]
  rw [get_eq_some_iff, hmem]
  split
  · rename_i heq
    refine iff_of_false ?_ (by simp)
    rintro ⟨⟨-, hne⟩, hkey⟩
    exact hne (hkey.trans heq)
  rename_i hne
  rw [get_eq_some_iff]
  constructor
  · rintro ⟨⟨hrow, -⟩, hkey⟩
    exact ⟨hrow, hkey⟩
  rintro ⟨hrow, rfl⟩
  exact ⟨⟨hrow, hne⟩, rfl⟩

theorem get_with (t : KeyedTable key σ) (row : α) (k : κ) :
    (t.with' row).get k = if k = key row then some row else t.get k := by
  have hcons : (t.with' row).get k =
      if key row = k then some row else (t.without (key row)).get k := by
    unfold get with'
    rw [find?_cons]
    split <;> rename_i h <;> simp at h <;> simp [h]
  rw [hcons, get_without]
  by_cases h : k = key row
  · rw [if_pos h.symm, if_pos h]
  · rw [if_neg fun heq => h heq.symm, if_neg h, if_neg h]

theorem get_deleteAt (t : KeyedTable key σ) (at' k : κ) :
    (t.deleteAt triggers at').get k = if k = at' then none else t.get k := by
  unfold deleteAt
  cases hget : t.get at' with
  | none =>
    dsimp only
    split
    · rename_i heq
      rw [heq, hget]
    · rfl
  | some old => exact get_without t at' k

theorem get_foldl_deleteAt (ks : List κ) (t : KeyedTable key σ) (k : κ) :
    (ks.foldl (deleteAt triggers) t).get k = if k ∈ ks then none else t.get k := by
  induction ks generalizing t with
  | nil => simp
  | cons first ks ih =>
    rw [foldl_cons, ih, get_deleteAt]
    by_cases hin : k ∈ ks
    · simp [hin]
    by_cases hfirst : k = first
    · simp [hfirst]
    · simp [hin, hfirst]

theorem get_deleteWhere (t : KeyedTable key σ) (cond : κ → Bool) (k : κ) :
    (t.deleteWhere triggers cond).get k = if cond k then none else t.get k := by
  unfold deleteWhere
  rw [get_foldl_deleteAt]
  cases hget : t.get k with
  | none => simp
  | some row =>
    have hmem : k ∈ t.selected cond ↔ cond k := by simp [mem_selected, hget]
    simp only [hmem]

theorem get_insertOrReplace (t : KeyedTable key σ) (row : α) (k : κ) :
    (t.insertOrReplace triggers row).get k = if k = key row then some row else t.get k := by
  unfold insertOrReplace
  rw [get_withSide, get_with, get_deleteAt]
  by_cases h : k = key row
  · rw [if_pos h, if_pos h]
  · rw [if_neg h, if_neg h, if_neg h]

variable {set : α → α} {updated : α → α → σ → σ}

theorem get_updateAt {a : κ} {old : α} (hget : t.get a = some old) (hne : key (set old) ≠ a) (k : κ) :
    (t.updateAt triggers set updated a).get k =
      if k = key (set old) then some (set old) else if k = a then none else t.get k := by
  unfold updateAt
  rw [hget]
  dsimp only
  rw [if_neg hne, get_withSide, get_with, get_without, get_deleteAt]
  by_cases hk : k = key (set old)
  · rw [if_pos hk, if_pos hk]
  · rw [if_neg hk, if_neg hk, if_neg hk]

theorem get_updateAt_self {a : κ} (hsame : ∀ old, t.get a = some old → set old = old) (k : κ) :
    (t.updateAt triggers set updated a).get k = t.get k := by
  unfold updateAt
  cases hget : t.get a with
  | none => rfl
  | some old =>
    have hkey := key_of_get hget
    dsimp only
    rw [hsame old hget, if_pos hkey, get_withSide, get_with, get_without]
    by_cases hk : k = key old
    · rw [if_pos hk, hk, hkey, hget]
    · rw [if_neg hk, if_neg fun heq => hk (heq.trans hkey.symm)]

theorem get_updateOrReplace_self
    (hsame : ∀ k old, cond k → t.get k = some old → set old = old) (k : κ) :
    (t.updateOrReplace triggers cond set updated).get k = t.get k := by
  have hrun : ∀ (ks : List κ) (s : KeyedTable key σ), (∀ a ∈ ks, cond a) →
      (∀ a, s.get a = t.get a) →
      (ks.foldl (updateAt triggers set updated) s).get k = t.get k := by
    intro ks
    induction ks with
    | nil => exact fun s _ hs => hs k
    | cons a ks ih =>
      intro s hks hs
      refine ih _ (fun b hb => hks b (mem_cons_of_mem _ hb)) fun b => ?_
      rw [get_updateAt_self, hs]
      intro old hold
      exact hsame a old (hks a mem_cons_self) (by rw [← hs, hold])
  exact hrun _ t (fun a ha => (mem_selected.mp ha).2) fun _ => rfl

theorem get_updateOrReplace_of_ne
    (hk : cond k = false) (hset : ∀ row, cond (key row) → key (set row) ≠ k) :
    (t.updateOrReplace triggers cond set updated).get k = t.get k := by
  refine List.foldlRecOn (motive := fun s : KeyedTable key σ => s.get k = t.get k) _ _ rfl ?_
  intro s hs a ha
  have hcond := (mem_selected.mp ha).2
  have hka : k ≠ a := by
    rintro rfl
    rw [hk] at hcond
    cases hcond
  rw [← hs]
  unfold updateAt
  cases hget : s.get a with
  | none => rfl
  | some old =>
    have hnew := (hset old (key_of_get hget ▸ hcond)).symm
    rw [get_withSide, get_with, if_neg hnew, get_without, if_neg hka]
    split
    · rfl
    · rw [get_deleteAt, if_neg hnew]

/-- What one key's move does to the answers of every key. -/
private def moveAnswer (set : α → α) (answer : κ → Option α) (e : κ × κ) : κ → Option α :=
  if answer e.1 = none then answer
  else fun k => if k = e.2 then (answer e.1).map set else if k = e.1 then none else answer k

private theorem rekeyStep_moveAnswer : RekeyStep (fun answer : κ → Option α => answer) none
    (fun row _ => row.map set) (moveAnswer set) := by
  intro answer a b k _
  unfold moveAnswer
  constructor
  · intro hnone
    rw [if_pos hnone]
  intro hsome
  rw [if_neg hsome]

/-- A statement whose rewritten keys follow a renaming re-keys the table by it. -/
theorem get_updateOrReplace (f : Renaming κ) (hcond : ∀ k, cond k ↔ (f.forward k).isSome)
    (hset : ∀ row, cond (key row) → f.forward (key row) = some (key (set row))) (k : κ) :
    (t.updateOrReplace triggers cond set updated).get k =
      match (f.backward k).bind t.get with
      | some row => some (set row)
      | none => if (f.forward k).isSome then none else t.get k := by
  let pairs : List κ → List (κ × κ) := fun ks => ks.filterMap fun a => (f.forward a).map (a, ·)
  -- each rewritten row is one key's move
  have hrun : ∀ (ks : List κ) (s : KeyedTable key σ), (∀ a ∈ ks, cond a) →
      (ks.foldl (updateAt triggers set updated) s).get =
        (pairs ks).foldl (moveAnswer set) s.get := by
    intro ks
    induction ks with
    | nil => exact fun s _ => rfl
    | cons a ks ih =>
      intro s hks
      have hsome := (hcond a).mp (hks a mem_cons_self)
      obtain ⟨b, hab⟩ := Option.isSome_iff_exists.mp hsome
      have hpairs : pairs (a :: ks) = (a, b) :: pairs ks := by
        simp only [pairs, filterMap_cons, hab, Option.map_some]
      rw [foldl_cons, ih _ fun c hc => hks c (mem_cons_of_mem _ hc), hpairs,
        foldl_cons]
      congr 1
      funext c
      unfold moveAnswer
      cases hold : s.get a with
      | none =>
        rw [if_pos rfl]
        unfold updateAt
        rw [hold]
      | some old =>
        have hkey := key_of_get hold
        have hforward := hset old (hkey ▸ hks a mem_cons_self)
        rw [hkey, hab] at hforward
        have hb : key (set old) = b := (Option.some.inj hforward).symm
        have hne : key (set old) ≠ a := hb ▸ (f.ne hab).symm
        rw [get_updateAt hold hne, hb]
        rfl
  have hselected : ∀ a ∈ t.selected cond, cond a := fun a ha => (mem_selected.mp ha).2
  have hsources : (pairs (t.selected cond)).map Prod.fst = t.selected cond := by
    simp only [pairs]
    rw [map_filterMap]
    refine (filterMap_congr fun a ha => ?_).trans filterMap_some
    obtain ⟨b, hab⟩ := Option.isSome_iff_exists.mp ((hcond a).mp (hselected a ha))
    rw [hab, Option.map_some, Option.map_some]
  have hforward : ∀ e ∈ pairs (t.selected cond), f.forward e.1 = some e.2 := by
    intro e he
    obtain ⟨a, -, hpair⟩ := mem_filterMap.mp he
    obtain ⟨b, hab, rfl⟩ := Option.map_eq_some_iff.mp hpair
    exact hab
  have hran := f.ran_foldl (@rekeyStep_moveAnswer α κ _ set) _ hforward
    (by rw [hsources]; exact t.nodup_selected cond) t.get
  unfold updateOrReplace
  rw [hrun _ t hselected]
  cases hback : f.backward k with
  | some a =>
    have hto := (f.inverse a k).mpr hback
    rw [Option.bind_some]
    cases hget : t.get a with
    | some row =>
      have hmem : a ∈ t.selected cond :=
        mem_selected.mpr ⟨by rw [hget]; rfl, (hcond a).mpr (by rw [hto]; rfl)⟩
      rw [hran.target k a hback (by rwa [hsources]) (by rw [hget]; exact Option.some_ne_none row),
        hget]
      rfl
    | none =>
      rw [hran.untouched k a hback (Or.inr hget), f.apart a k hto]
      rfl
  | none =>
    rw [Option.bind_none]
    dsimp only
    by_cases hmem : k ∈ t.selected cond
    · rw [if_pos ((hcond k).mp (hselected k hmem))]
      exact hran.source k hback (by rwa [hsources])
    rw [hran.other k hback (by rwa [hsources])]
    split
    · rename_i hsource
      rw [mem_selected, not_and, hcond] at hmem
      exact Option.not_isSome_iff_eq_none.mp fun hsome => hmem hsome hsource
    · rfl

variable {P : α → Prop}

section

variable (h : ∀ r ∈ t.rows, P r)
include h

theorem forall_insertOrReplace
    (hrow : P row) : ∀ r ∈ (t.insertOrReplace triggers row).rows, P r := by
  intro r hr
  have hget : (t.insertOrReplace triggers row).get (key r) = some r :=
    get_eq_some_iff.mpr ⟨hr, rfl⟩
  rw [get_insertOrReplace] at hget
  split at hget
  · cases hget
    exact hrow
  · exact h r (get_eq_some_iff.mp hget).1

theorem forall_deleteAt :
    ∀ r ∈ (t.deleteAt triggers k).rows, P r := by
  intro r hr
  have hget : (t.deleteAt triggers k).get (key r) = some r := get_eq_some_iff.mpr ⟨hr, rfl⟩
  rw [get_deleteAt] at hget
  split at hget
  · cases hget
  · exact h r (get_eq_some_iff.mp hget).1

theorem forall_deleteWhere :
    ∀ r ∈ (t.deleteWhere triggers cond).rows, P r := by
  refine List.foldlRecOn (motive := fun s : KeyedTable key σ => ∀ r ∈ s.rows, P r) _ _ h ?_
  intro s hs k _
  exact forall_deleteAt hs

theorem forall_updateOrReplace (hset : ∀ r, cond (key r) → P r → P (set r)) :
    ∀ r ∈ (t.updateOrReplace triggers cond set updated).rows, P r := by
  refine List.foldlRecOn (motive := fun s : KeyedTable key σ => ∀ r ∈ s.rows, P r) _ _ h ?_
  intro s hs k hk
  unfold updateAt
  cases hget : s.get k with
  | none => exact hs
  | some old =>
    obtain ⟨hold, rfl⟩ := get_eq_some_iff.mp hget
    have hnew := hset old (mem_selected.mp hk).2 (hs old hold)
    intro r hr
    rcases mem_cons.mp hr with rfl | hr
    · exact hnew
    have hkept := (mem_filter.mp (mem_filter.mp hr).1).1
    split at hkept
    · exact hs r hkept
    · exact forall_deleteAt hs r hkept

end

/-! ### What the triggers keep -/

/-- A relation between the state and the rows that the triggers keep, whatever the
order of the rows. -/
structure Keeps (triggers : RowTriggers α σ) (ok : σ → List α → Prop) : Prop where
  perm : ∀ {s : σ} {rows rows' : List α}, rows.Perm rows' → ok s rows → ok s rows'
  inserted : ∀ {s : σ} {rows : List α} (row : α), ok s rows → ok (triggers.inserted row s) (row :: rows)
  deleted : ∀ {s : σ} {rows : List α} (row : α), ok s (row :: rows) → ok (triggers.deleted row s) rows

variable {ok : σ → List α → Prop}

theorem perm_without (h : t.get k = some row) :
    t.rows.Perm (row :: (t.without k).rows) := by
  obtain ⟨hmem, rfl⟩ := get_eq_some_iff.mp h
  have hnot : row ∉ (t.without (key row)).rows := by
    intro hin
    exact of_decide_eq_true (mem_filter.mp hin).2 rfl
  refine (perm_ext_iff_of_nodup t.keyed.of_map
    (nodup_cons.mpr ⟨hnot, (t.without (key row)).keyed.of_map⟩)).mpr fun r => ?_
  rw [mem_cons]
  constructor
  · intro hr
    by_cases hkey : key r = key row
    · exact Or.inl (inj_on_of_nodup_map t.keyed hr hmem hkey)
    · exact Or.inr (mem_filter.mpr ⟨hr, decide_eq_true hkey⟩)
  rintro (rfl | hr)
  · exact hmem
  · exact (mem_filter.mp hr).1

theorem rows_without (h : t.get k = none) :
    (t.without k).rows = t.rows := by
  refine filter_eq_self.mpr fun r hr => decide_eq_true fun hkey => ?_
  rw [get_eq_some_iff.mpr ⟨hr, hkey⟩] at h
  cases h

section

variable (hkeeps : Keeps triggers ok)
include hkeeps

section

variable (h : ok t.side t.rows)
include h

theorem Keeps.deleteAt (k : κ) :
    ok (t.deleteAt triggers k).side (t.deleteAt triggers k).rows := by
  unfold KeyedTable.deleteAt
  cases hget : t.get k with
  | none => exact h
  | some old => exact hkeeps.deleted old (hkeeps.perm (perm_without hget) h)

theorem Keeps.deleteWhere (cond : κ → Bool) :
    ok (t.deleteWhere triggers cond).side (t.deleteWhere triggers cond).rows := by
  refine List.foldlRecOn (motive := fun s : KeyedTable key σ => ok s.side s.rows) _ _ h ?_
  intro s hs k _
  exact hkeeps.deleteAt hs k

theorem Keeps.insertOrReplace (row : α) :
    ok (t.insertOrReplace triggers row).side (t.insertOrReplace triggers row).rows := by
  have hfree : (t.deleteAt triggers (key row)).get (key row) = none := by
    rw [get_deleteAt, if_pos rfl]
  have hrows : (t.insertOrReplace triggers row).rows =
      row :: (t.deleteAt triggers (key row)).rows := congrArg (row :: ·) (rows_without hfree)
  rw [hrows]
  exact hkeeps.inserted row (hkeeps.deleteAt h (key row))

theorem Keeps.updateOrReplace (cond : κ → Bool)
    (hset : ∀ old s rows, ok s (old :: rows) → ok (updated old (set old) s) (set old :: rows)) :
    ok (t.updateOrReplace triggers cond set updated).side
      (t.updateOrReplace triggers cond set updated).rows := by
  refine List.foldlRecOn (motive := fun s : KeyedTable key σ => ok s.side s.rows) _ _ h ?_
  intro s hs k _
  unfold updateAt
  cases hget : s.get k with
  | none => exact hs
  | some old =>
    dsimp only
    split
    · rename_i hsame
      have hfree : (s.without k).get (key (set old)) = none := by
        rw [get_without, if_pos hsame]
      have hrows : ((s.without k).with' (set old)).rows = set old :: (s.without k).rows :=
        congrArg (set old :: ·) (rows_without hfree)
      have hout := hset old s.side _ (hkeeps.perm (perm_without hget) hs)
      rw [← hrows] at hout
      exact hout
    rename_i hmoves
    have hold : (s.deleteAt triggers (key (set old))).get k = some old := by
      rw [get_deleteAt, if_neg fun heq => hmoves heq.symm, hget]
    have hfree : ((s.deleteAt triggers (key (set old))).without k).get (key (set old)) = none := by
      rw [get_without, if_neg hmoves, get_deleteAt, if_pos rfl]
    have hrows := congrArg (set old :: ·) (rows_without hfree)
    have hout := hset old _ _
      (hkeeps.perm (perm_without hold) (hkeeps.deleteAt hs (key (set old))))
    rw [← hrows] at hout
    exact hout

end

end

end KeyedTable

end KeyedTable

end SyncEngine.Collections
