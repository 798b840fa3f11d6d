import SyncEngine.Archive.Directories
import SyncEngine.Collections.Sweeps

/-! # Directories kept in order

What is to be created is counted, what is ready is planned below a created directory, and what
failed is below a create that failed. Each step keeps this, and a created directory stays so.
-/

namespace SyncEngine.Archive

open Collections List

section Slots

variable {Error : Type} {slots : List (DirSlot Error)} {dir other : DirId} {slot : DirSlot Error}
  {f : DirSlot Error → DirSlot Error}

def stateIn (slots : List (DirSlot Error)) (dir : DirId) : Option (DirState Error) :=
  (slots[dir]?).map DirSlot.state

def parentIn (slots : List (DirSlot Error)) (dir : DirId) : Option DirId := (slots[dir]?).bind DirSlot.parent

def childrenIn (slots : List (DirSlot Error)) (dir : DirId) : List DirId :=
  ((slots[dir]?).map DirSlot.children).getD []

theorem stateIn_of_some (h : slots[dir]? = some slot) : stateIn slots dir = some slot.state := by
  unfold stateIn
  rw [h, Option.map_some]

theorem lt_of_stateIn {state : DirState Error} (h : stateIn slots dir = some state) : dir < slots.length := by
  obtain ⟨slot, hslot, -⟩ := Option.map_eq_some_iff.mp h
  exact (List.getElem?_eq_some_iff.mp hslot).1

theorem parentIn_lt {up : DirId} (h : parentIn slots dir = some up) : dir < slots.length := by
  obtain ⟨slot, hslot, -⟩ := Option.bind_eq_some_iff.mp h
  exact (List.getElem?_eq_some_iff.mp hslot).1

theorem DirState.isCreated_iff {state : DirState Error} : state.isCreated ↔ state = .created := by
  cases state <;> simp [isCreated]

theorem DirState.isFailed_of_pending {state : DirState Error} (h : state.isPending) : state.isFailed = false := by
  cases state <;> simp_all [isPending, isFailed]

theorem createdAt_iff {dirs : Dirs Error} : dirs.createdAt dir ↔ stateIn dirs.slots dir = some .created := by
  unfold Dirs.createdAt stateIn
  cases dirs.slots[dir]? with
  | none => exact ⟨nofun, nofun⟩
  | some slot => rw [Option.any_some, Option.map_some, DirState.isCreated_iff, Option.some.injEq]

theorem failedAt_iff {dirs : Dirs Error} :
    dirs.failedAt dir ↔ ∃ error, stateIn dirs.slots dir = some (.failed error) := by
  unfold Dirs.failedAt stateIn
  cases dirs.slots[dir]? with
  | none => exact ⟨nofun, fun ⟨_, h⟩ => nomatch h⟩
  | some slot =>
    rw [Option.any_some, Option.map_some]
    cases slot.state with
    | failed error => exact ⟨fun _ => ⟨error, rfl⟩, fun _ => rfl⟩
    | _ => exact ⟨nofun, fun ⟨_, h⟩ => nomatch h⟩

section

variable (h : slots[dir]? = some slot)
include h

theorem stateIn_modify (f : DirSlot Error → DirSlot Error) (other : DirId) :
    stateIn (slots.modify dir f) other =
      if other = dir then some (f slot).state else stateIn slots other := by
  unfold stateIn
  rw [getElem?_modify]
  by_cases heq : other = dir
  · subst heq
    rw [if_pos rfl, h]
    show some (if other = other then f slot else slot).state = _
    rw [if_pos rfl]
  rw [if_neg heq]
  cases slots[other]? with
  | none => rfl
  | some found =>
    show some (if dir = other then f found else found).state = _
    rw [if_neg (Ne.symm heq)]
    rfl

theorem parentIn_modify (hf : (f slot).parent = slot.parent) :
    parentIn (slots.modify dir f) = parentIn slots := by
  funext other
  unfold parentIn
  rw [getElem?_modify]
  by_cases heq : dir = other
  · subst heq
    rw [h]
    show (if dir = dir then f slot else slot).parent = slot.parent
    rw [if_pos rfl, hf]
  cases slots[other]? with
  | none => rfl
  | some found =>
    show (if dir = other then f found else found).parent = found.parent
    rw [if_neg heq]

theorem childrenIn_modify (hf : (f slot).children = slot.children) :
    childrenIn (slots.modify dir f) = childrenIn slots := by
  funext other
  unfold childrenIn
  rw [getElem?_modify]
  by_cases heq : dir = other
  · subst heq
    rw [h]
    show (if dir = dir then f slot else slot).children = slot.children
    rw [if_pos rfl, hf]
  cases slots[other]? with
  | none => rfl
  | some found =>
    show (if dir = other then f found else found).children = found.children
    rw [if_neg heq]

end

theorem countP_modify {α : Type} {p : α → Bool} {l : List α} {i : Nat} {x : α} (h : l[i]? = some x) (f : α → α) :
    (l.modify i f).countP p + (if p x then 1 else 0) = l.countP p + if p (f x) then 1 else 0 := by
  induction l generalizing i with
  | nil => cases h
  | cons a l ih =>
    cases i with
    | zero =>
      cases h
      rw [modify_zero_cons, countP_cons, countP_cons]
      omega
    | succ i =>
      have hrest := ih h
      rw [modify_succ_cons, countP_cons, countP_cons]
      omega

end Slots

/-! ## Directories in order -/

structure Orderly {Error : Type} (dirs : Dirs Error) (counted : Nat) (made failures : List DirId) : Prop where
  rooted : stateIn dirs.slots rootDir = some .created ∧ parentIn dirs.slots rootDir = none
  family : Family (parentIn dirs.slots) (childrenIn dirs.slots) dirs.slots.length
  named : ∀ dir < dirs.slots.length, dir ≠ rootDir → ∃ up, parentIn dirs.slots dir = some up
  uncreated : dirs.uncreated = dirs.slots.countP fun slot => slot.state.isPending
  tally : counted = dirs.slots.countP fun slot => slot.state.isFailed
  ready_once : dirs.ready.Nodup
  ready : ∀ dir, dir ∈ dirs.ready ↔ stateIn dirs.slots dir = some .planned ∧
    ∃ up, parentIn dirs.slots dir = some up ∧ stateIn dirs.slots up = some .created
  creates_once : dirs.creates.Nodup
  creates : ∀ dir, dir ∈ dirs.creates ↔ stateIn dirs.slots dir = some .creating
  /-- What is or is being created is below what is. -/
  above : ∀ dir up, parentIn dirs.slots dir = some up →
    stateIn dirs.slots dir = some .creating ∨ stateIn dirs.slots dir = some .created →
      stateIn dirs.slots up = some .created
  done_once : made.Nodup
  done : ∀ dir, dir ∈ made ↔ dir ≠ rootDir ∧ stateIn dirs.slots dir = some .created
  lost_once : failures.Nodup
  lost : ∀ dir, (∃ error, stateIn dirs.slots dir = some (.failed error)) ↔
    dir < dirs.slots.length ∧ ∃ own ∈ failures, Within (parentIn dirs.slots) own dir
  lost_above : ∀ dir ∈ failures, ∃ up, parentIn dirs.slots dir = some up ∧
    stateIn dirs.slots up = some .created

/-- What was created stays so. -/
def Keeps {Error : Type} (before after : List (DirSlot Error)) : Prop :=
  ∀ dir, stateIn before dir = some .created → stateIn after dir = some .created

section Orderly

variable {Error : Type} {dirs : Dirs Error} {counted place : Nat} {made failures : List DirId} {dir : DirId}
  {name : ValidatedName}

section

variable (h : Orderly dirs counted made failures)
include h

theorem Orderly.ne_root
    (hstate : stateIn dirs.slots dir ≠ some .created) : dir ≠ rootDir := by
  rintro rfl
  exact hstate h.rooted.1

theorem Orderly.planned_below {below : DirId}
    (hwithin : Within (parentIn dirs.slots) dir below)
    (hpending : stateIn dirs.slots dir = some .planned ∨ stateIn dirs.slots dir = some .creating) :
    below = dir ∨ stateIn dirs.slots below = some .planned := by
  have hopen : stateIn dirs.slots below = some .planned ∨ below = dir := by
    induction hwithin with
    | refl => exact Or.inr rfl
    | @tail mid below hmid hparent ih =>
      have hmidstate : stateIn dirs.slots mid = some .planned ∨ stateIn dirs.slots mid = some .creating := by
        rcases ih with hplanned | rfl
        · exact Or.inl hplanned
        · exact hpending
      have hnotcreated : stateIn dirs.slots mid ≠ some .created := by
        rcases hmidstate with hstate | hstate
        all_goals
          rw [hstate]
          exact nofun
      have hlt := parentIn_lt hparent
      have hslot := getElem?_eq_getElem hlt
      have hstate := stateIn_of_some hslot
      left
      cases hbelow : dirs.slots[below].state with
      | planned => rw [hstate, hbelow]
      | creating =>
        rw [hbelow] at hstate
        exact absurd (h.above below mid hparent (Or.inl hstate)) hnotcreated
      | created =>
        rw [hbelow] at hstate
        exact absurd (h.above below mid hparent (Or.inr hstate)) hnotcreated
      | failed error =>
        rw [hbelow] at hstate
        obtain ⟨-, own, hown, hbelowOwn⟩ := (h.lost below).mp ⟨error, hstate⟩
        rcases within_iff.mp hbelowOwn with heq | ⟨up, hup, hupOwn⟩
        · subst heq
          obtain ⟨up, hup, hcreated⟩ := h.lost_above below hown
          rw [hparent] at hup
          cases hup
          exact absurd hcreated hnotcreated
        rw [hparent] at hup
        cases hup
        obtain ⟨error', hfailed⟩ := (h.lost mid).mpr ⟨lt_trans (h.family.before below mid hparent) hlt, own, hown, hupOwn⟩
        rcases hmidstate with hmidstate | hmidstate
        all_goals
          rw [hmidstate] at hfailed
          cases hfailed
  exact hopen.symm

end

/-! ## Steps -/

/-- Directories whose slots are in order, whatever is ready or being created. -/
structure Rooted {Error : Type} (slots : List (DirSlot Error)) (counted : Nat) (failures : List DirId) : Prop where
  rooted : stateIn slots rootDir = some .created ∧ parentIn slots rootDir = none
  family : Family (parentIn slots) (childrenIn slots) slots.length
  named : ∀ dir < slots.length, dir ≠ rootDir → ∃ up, parentIn slots dir = some up
  tally : counted = slots.countP fun slot => slot.state.isFailed
  above : ∀ dir up, parentIn slots dir = some up →
    stateIn slots dir = some .creating ∨ stateIn slots dir = some .created →
      stateIn slots up = some .created
  lost_once : failures.Nodup
  lost : ∀ dir, (∃ error, stateIn slots dir = some (.failed error)) ↔
    dir < slots.length ∧ ∃ own ∈ failures, Within (parentIn slots) own dir
  lost_above : ∀ dir ∈ failures, ∃ up, parentIn slots dir = some up ∧ stateIn slots up = some .created

theorem Orderly.retag (h : Orderly dirs counted made failures) {slot : DirSlot Error}
    (hslot : dirs.slots[dir]? = some slot) (hpending : slot.state.isPending)
    {f : DirSlot Error → DirSlot Error} (hparent : (f slot).parent = slot.parent)
    (hchildren : (f slot).children = slot.children) (hnew : (f slot).state.isFailed = false)
    (hup : ∀ up, parentIn dirs.slots dir = some up → stateIn dirs.slots up = some .created) :
    Rooted (dirs.slots.modify dir f) counted failures ∧ Keeps dirs.slots (dirs.slots.modify dir f) := by
  have hstates := stateIn_modify hslot f
  have hold := stateIn_of_some hslot
  have hnotcreated : stateIn dirs.slots dir ≠ some .created := by
    rw [hold]
    intro heq
    rw [Option.some.inj heq] at hpending
    cases hpending
  have hnotfailed : ∀ error, stateIn dirs.slots dir ≠ some (.failed error) := by
    intro error heq
    rw [hold] at heq
    rw [Option.some.inj heq] at hpending
    cases hpending
  have hne := h.ne_root hnotcreated
  have hcreated : ∀ other, stateIn dirs.slots other = some .created →
      stateIn (dirs.slots.modify dir f) other = some .created := by
    intro other hother
    rw [hstates, if_neg]
    · exact hother
    rintro rfl
    exact hnotcreated hother
  have hfailed : ∀ other, (∃ error, stateIn (dirs.slots.modify dir f) other = some (.failed error)) ↔
      ∃ error, stateIn dirs.slots other = some (.failed error) := by
    intro other
    rw [hstates]
    by_cases heq : other = dir
    · rw [if_pos heq]
      constructor
      · rintro ⟨error, hsome⟩
        rw [Option.some.inj hsome] at hnew
        cases hnew
      rintro ⟨error, hsome⟩
      rw [heq] at hsome
      exact absurd hsome (hnotfailed error)
    · rw [if_neg heq]
  have hparents := parentIn_modify hslot hparent
  have hcount := @countP_modify _ (fun slot : DirSlot Error => slot.state.isFailed) _ _ _ hslot f
  rw [if_neg (by rw [DirState.isFailed_of_pending hpending]; exact Bool.false_ne_true),
    if_neg (by rw [hnew]; exact Bool.false_ne_true), Nat.add_zero, Nat.add_zero] at hcount
  refine ⟨⟨⟨hcreated _ h.rooted.1, ?_⟩, ?_, ?_, ?_, ?_, h.lost_once, ?_, ?_⟩, hcreated⟩
  · rw [hparents]
    exact h.rooted.2
  · rw [hparents, childrenIn_modify hslot hchildren, length_modify]
    exact h.family
  · rw [hparents, length_modify]
    exact h.named
  · rw [hcount]
    exact h.tally
  · intro other up hother hstate
    rw [hparents] at hother
    by_cases heq : other = dir
    · rw [heq] at hother
      exact hcreated up (hup up hother)
    rw [hstates, if_neg heq] at hstate
    exact hcreated up (h.above other up hother hstate)
  · intro other
    rw [hfailed, hparents, length_modify]
    exact h.lost other
  intro own hown
  obtain ⟨up, hparentOwn, hupOwn⟩ := h.lost_above own hown
  rw [hparents]
  exact ⟨up, hparentOwn, hcreated up hupOwn⟩

theorem Orderly.start (h : Orderly dirs counted made failures) {rest : List DirId} (hready : dirs.ready = dir :: rest) :
    ∃ after, Dirs.start dir { dirs with ready := rest } = some after ∧
      Orderly after counted made failures ∧ Keeps dirs.slots after.slots := by
  obtain ⟨hplanned, up, hup, hupcreated⟩ := (h.ready dir).mp (hready ▸ mem_cons_self)
  obtain ⟨slot, hslot, hstate⟩ := Option.map_eq_some_iff.mp hplanned
  have hslotparent : slot.parent = some up := by
    unfold parentIn at hup
    rw [hslot, Option.bind_some] at hup
    exact hup
  have honce := h.ready_once
  rw [hready] at honce
  obtain ⟨hnotin, hrest⟩ := nodup_cons.mp honce
  have hstates := stateIn_modify hslot fun slot => { slot with state := .creating }
  have hparents := @parentIn_modify _ _ _ _ (fun slot => { slot with state := .creating }) hslot rfl
  obtain ⟨hrooted, hkeeps⟩ := h.retag hslot (by rw [hstate]; rfl)
    (f := fun slot => { slot with state := .creating }) rfl rfl rfl fun up' hup' => by
      rw [hup] at hup'
      cases hup'
      exact hupcreated
  refine ⟨{ dirs with
      slots := dirs.slots.modify dir fun slot => { slot with state := .creating }
      ready := rest
      creates := dirs.creates ++ [dir] }, ?_, ⟨hrooted.rooted, hrooted.family, hrooted.named, ?_,
    hrooted.tally, hrest, fun other => ?_, ?_, fun other => ?_, hrooted.above, h.done_once, fun other => ?_,
    hrooted.lost_once, hrooted.lost, hrooted.lost_above⟩, hkeeps⟩
  · unfold Dirs.start
    rw [hslot, Option.bind_some, hslotparent]
    dsimp only
    rw [if_pos]
    · rfl
    · exact createdAt_iff.mpr hupcreated
  · have hcount := @countP_modify _ (fun slot : DirSlot Error => slot.state.isPending) _ _ _ hslot
      fun slot => { slot with state := .creating }
    rw [hstate] at hcount
    exact h.uncreated.trans (Nat.add_right_cancel hcount).symm
  · dsimp only
    rw [hparents, hstates]
    have hold := h.ready other
    rw [hready, mem_cons] at hold
    by_cases heq : other = dir
    · rw [if_pos heq, heq]
      exact ⟨fun hmem => absurd hmem hnotin, fun hnone => nomatch hnone.1⟩
    rw [if_neg heq]
    rw [or_iff_right heq] at hold
    rw [hold]
    refine and_congr_right fun _ => exists_congr fun up' => and_congr_right fun _ => ?_
    rw [hstates]
    by_cases hupdir : up' = dir
    · rw [if_pos hupdir, hupdir, hplanned]
      exact ⟨nofun, nofun⟩
    · rw [if_neg hupdir]
  · refine concat_eq_append ▸ Nodup.concat (fun hmem => ?_) h.creates_once
    have hcreating := (h.creates dir).mp hmem
    rw [hplanned] at hcreating
    cases hcreating
  · rw [mem_append, mem_singleton, h.creates, hstates]
    by_cases heq : other = dir
    · rw [if_pos heq]
      exact ⟨fun _ => rfl, fun _ => Or.inr heq⟩
    rw [if_neg heq]
    exact or_iff_left heq
  rw [h.done, hstates]
  refine and_congr_right fun _ => ?_
  by_cases heq : other = dir
  · rw [if_pos heq, heq, hplanned]
    exact ⟨nofun, nofun⟩
  · rw [if_neg heq]

theorem mem_eraseIdx_once {l : List DirId} {x y : DirId} (honce : l.Nodup) (hplace : l[place]? = some x) :
    (l.eraseIdx place).Nodup ∧ (y ∈ l.eraseIdx place ↔ y ∈ l ∧ y ≠ x) := by
  obtain ⟨hlt, rfl⟩ := List.getElem?_eq_some_iff.mp hplace
  have hsplit : l = l.take place ++ l[place] :: l.drop (place + 1) := by
    rw [← drop_eq_getElem_cons hlt, take_append_drop]
  have herase : l.eraseIdx place = l.take place ++ l.drop (place + 1) := eraseIdx_eq_take_drop_succ l place
  generalize l[place] = x at hsplit ⊢
  generalize l.take place = front at hsplit herase
  generalize l.drop (place + 1) = back at hsplit herase
  rw [herase]
  rw [hsplit] at honce ⊢
  obtain ⟨hnot, hrest⟩ := nodup_cons.mp (perm_middle.nodup_iff.mp honce)
  refine ⟨hrest, ?_⟩
  rw [perm_middle.mem_iff, mem_cons]
  constructor
  · intro hmem
    refine ⟨Or.inr hmem, ?_⟩
    rintro rfl
    exact hnot hmem
  rintro ⟨hor, hne⟩
  exact hor.resolve_left hne

/-- A directory being created, and what is left once its create is over. -/
theorem Orderly.creating (h : Orderly dirs counted made failures) (hplace : dirs.creates[place]? = some dir) :
    ∃ slot up, dirs.slots[dir]? = some slot ∧ slot.state = .creating ∧ slot.parent = some up ∧
      parentIn dirs.slots dir = some up ∧ stateIn dirs.slots up = some .created ∧
      stateIn dirs.slots dir = some .creating ∧ (dirs.creates.eraseIdx place).Nodup ∧
      ∀ other, other ∈ dirs.creates.eraseIdx place ↔ other ∈ dirs.creates ∧ other ≠ dir := by
  have hstate := (h.creates dir).mp (mem_of_getElem? hplace)
  obtain ⟨slot, hslot, hcreating⟩ := Option.map_eq_some_iff.mp hstate
  have hne : dir ≠ rootDir := h.ne_root (by rw [hstate]; exact nofun)
  obtain ⟨up, hup⟩ := h.named dir (lt_of_stateIn hstate) hne
  have hslotparent := hup
  unfold parentIn at hslotparent
  rw [hslot, Option.bind_some] at hslotparent
  exact ⟨slot, up, hslot, hcreating, hslotparent, hup, h.above dir up hup (Or.inl hstate), hstate,
    (mem_eraseIdx_once (y := dir) h.creates_once hplace).1,
    fun _ => (mem_eraseIdx_once h.creates_once hplace).2⟩

theorem Orderly.created (h : Orderly dirs counted made failures) (hplace : dirs.creates[place]? = some dir)
    (name : ValidatedName) :
    ∃ after, Dirs.created dir name { dirs with creates := dirs.creates.eraseIdx place } = some after ∧
      Orderly after counted (made ++ [dir]) failures ∧ Keeps dirs.slots after.slots := by
  obtain ⟨slot, up, hslot, hstate, hslotparent, hparent, hupcreated, hcreating, honce, hcreates⟩ := h.creating hplace
  have hchildren : childrenIn dirs.slots dir = slot.children := by
    unfold childrenIn
    rw [hslot]
    rfl
  obtain ⟨planned, archiveName, hnamed⟩ : ∃ planned archiveName, slot.place = .named up planned archiveName := by
    unfold DirSlot.parent at hslotparent
    cases hp : slot.place with
    | root =>
      rw [hp] at hslotparent
      cases hslotparent
    | named parent planned archiveName =>
      rw [hp] at hslotparent
      cases hslotparent
      exact ⟨planned, archiveName, rfl⟩
  have hsome : ∃ n, dirs.uncreated = n + 1 := by
    have hpos : 0 < dirs.slots.countP fun slot => slot.state.isPending :=
      countP_pos_iff.mpr ⟨slot, mem_of_getElem? hslot, by rw [hstate]; rfl⟩
    rw [← h.uncreated] at hpos
    exact ⟨dirs.uncreated - 1, (Nat.sub_add_cancel hpos).symm⟩
  obtain ⟨uncreated, huncreated⟩ := hsome
  have hplaceparent : (if name = planned then slot.place
      else .named up name (some (archiveName.getD planned))) = slot.place ∨
      ∃ archiveName', (if name = planned then slot.place
        else .named up name (some (archiveName.getD planned))) = .named up name archiveName' := by
    by_cases heq : name = planned
    · exact Or.inl (if_pos heq)
    · exact Or.inr ⟨_, if_neg heq⟩
  unfold Dirs.created Dirs.settleOne
  rw [hslot, huncreated]
  dsimp only
  rw [hnamed] at hplaceparent ⊢
  dsimp only
  generalize (if name = planned then DirPlace.named up planned archiveName
    else .named up name (some (archiveName.getD planned))) = newPlace at hplaceparent ⊢
  have hnewparent : ({ slot with place := newPlace, state := .created } : DirSlot Error).parent = slot.parent := by
    rw [hslotparent]
    rcases hplaceparent with rfl | ⟨archiveName', rfl⟩
    · rfl
    · rfl
  have hstates := stateIn_modify hslot fun slot => { slot with place := newPlace, state := .created }
  have hparents := @parentIn_modify _ _ _ _ (fun slot => { slot with place := newPlace, state := .created })
    hslot hnewparent
  obtain ⟨hrooted, hkeeps⟩ := h.retag hslot (by rw [hstate]; rfl)
    (f := fun slot => { slot with place := newPlace, state := .created }) hnewparent rfl rfl fun up' hup' => by
      rw [hparent] at hup'
      cases hup'
      exact hupcreated
  have hdirne : dir ≠ rootDir := h.ne_root (by rw [hcreating]; exact nofun)
  have hchild : ∀ child, child ∈ slot.children ↔ parentIn dirs.slots child = some dir := by
    intro child
    rw [← hchildren]
    exact h.family.lists dir child
  have hchildplanned : ∀ child ∈ slot.children, stateIn dirs.slots child = some .planned := by
    intro child hmemchild
    have hparentchild := (hchild child).mp hmemchild
    rcases h.planned_below (Relation.ReflTransGen.single hparentchild) (Or.inr hcreating) with heq | hplanned
    · rw [heq] at hparentchild
      exact absurd (h.family.before dir dir hparentchild) (lt_irrefl _)
    · exact hplanned
  refine ⟨_, rfl, ⟨hrooted.rooted, hrooted.family, hrooted.named, ?_, hrooted.tally, ?_, fun other => ?_,
    honce, fun other => ?_, hrooted.above, ?_, fun other => ?_, hrooted.lost_once, hrooted.lost,
    hrooted.lost_above⟩, hkeeps⟩
  · have hcount := @countP_modify _ (fun slot : DirSlot Error => slot.state.isPending) _ _ _ hslot
      fun slot => { slot with place := newPlace, state := .created }
    rw [hstate, ← h.uncreated, huncreated] at hcount
    exact (Nat.succ.inj hcount).symm
  · refine nodup_append.mpr ⟨h.ready_once, hchildren ▸ h.family.once dir, ?_⟩
    rintro other hready _ hchildmem rfl
    obtain ⟨-, up', hup', hcreated'⟩ := (h.ready other).mp hready
    rw [(hchild other).mp hchildmem] at hup'
    cases hup'
    rw [hcreating] at hcreated'
    cases hcreated'
  · show other ∈ dirs.ready ++ slot.children ↔ _
    rw [mem_append, hparents, hstates, h.ready, hchild]
    by_cases heq : other = dir
    · rw [if_pos heq, heq]
      constructor
      · rintro (⟨hplanned, -⟩ | hself)
        · rw [hcreating] at hplanned
          cases hplanned
        · exact absurd (h.family.before dir dir hself) (lt_irrefl _)
      rintro ⟨hnone, -⟩
      cases hnone
    rw [if_neg heq]
    constructor
    · rintro (⟨hplanned, up', hup', hcreated'⟩ | hchildof)
      · exact ⟨hplanned, up', hup', hkeeps up' hcreated'⟩
      refine ⟨hchildplanned other ((hchild other).mpr hchildof), dir, hchildof, ?_⟩
      rw [hstates, if_pos rfl]
    rintro ⟨hplanned, up', hup', hcreated'⟩
    rw [hstates] at hcreated'
    by_cases hupdir : up' = dir
    · rw [hupdir] at hup'
      exact Or.inr hup'
    rw [if_neg hupdir] at hcreated'
    exact Or.inl ⟨hplanned, up', hup', hcreated'⟩
  · rw [hcreates, h.creates, hstates]
    by_cases heq : other = dir
    · rw [if_pos heq]
      exact ⟨fun hand => absurd heq hand.2, nofun⟩
    rw [if_neg heq]
    exact and_iff_left heq
  · refine concat_eq_append ▸ Nodup.concat (fun hmade => ?_) h.done_once
    have hcreated := ((h.done dir).mp hmade).2
    rw [hcreating] at hcreated
    cases hcreated
  rw [mem_append, mem_singleton, h.done, hstates]
  by_cases heq : other = dir
  · rw [if_pos heq]
    exact ⟨fun _ => ⟨heq ▸ hdirne, rfl⟩, fun _ => Or.inr heq⟩
  rw [if_neg heq]
  exact or_iff_left heq

theorem Orderly.notStarted (h : Orderly dirs counted made failures) (hplace : dirs.creates[place]? = some dir) :
    Orderly (Dirs.notStarted dir { dirs with creates := dirs.creates.eraseIdx place }) counted made failures ∧
      Keeps dirs.slots (Dirs.notStarted dir { dirs with creates := dirs.creates.eraseIdx place }).slots := by
  obtain ⟨slot, up, hslot, hstate, -, hparent, hupcreated, hcreating, honce, hcreates⟩ := h.creating hplace
  have hstates := stateIn_modify hslot fun slot => { slot with state := .planned }
  have hparents := @parentIn_modify _ _ _ _ (fun slot => { slot with state := .planned }) hslot rfl
  obtain ⟨hrooted, hkeeps⟩ := h.retag hslot (by rw [hstate]; rfl)
    (f := fun slot => { slot with state := .planned }) rfl rfl rfl fun up' hup' => by
      rw [hparent] at hup'
      cases hup'
      exact hupcreated
  have hcreated : ∀ other, stateIn (dirs.slots.modify dir fun slot => { slot with state := .planned }) other =
      some .created ↔ stateIn dirs.slots other = some .created := by
    intro other
    rw [hstates]
    by_cases heq : other = dir
    · rw [if_pos heq, heq, hcreating]
      exact ⟨nofun, nofun⟩
    · rw [if_neg heq]
  refine ⟨⟨hrooted.rooted, hrooted.family, hrooted.named, ?_, hrooted.tally, ?_, fun other => ?_, honce,
    fun other => ?_, hrooted.above, h.done_once, fun other => ?_, hrooted.lost_once, hrooted.lost,
    hrooted.lost_above⟩, hkeeps⟩
  · have hcount := @countP_modify _ (fun slot : DirSlot Error => slot.state.isPending) _ _ _ hslot
      fun slot => { slot with state := .planned }
    rw [hstate] at hcount
    exact h.uncreated.trans (Nat.add_right_cancel hcount).symm
  · refine nodup_cons.mpr ⟨fun hready => ?_, h.ready_once⟩
    have hplanned := ((h.ready dir).mp hready).1
    rw [hcreating] at hplanned
    cases hplanned
  · show other ∈ dir :: dirs.ready ↔ stateIn (dirs.slots.modify dir _) other = _ ∧ ∃ up,
      parentIn (dirs.slots.modify dir _) other = _ ∧ stateIn (dirs.slots.modify dir _) up = _
    rw [mem_cons, hparents, hstates, h.ready]
    by_cases heq : other = dir
    · rw [if_pos heq, heq]
      exact ⟨fun _ => ⟨rfl, up, hparent, (hcreated up).mpr hupcreated⟩, fun _ => Or.inl rfl⟩
    rw [if_neg heq, or_iff_right heq]
    exact and_congr_right fun _ => exists_congr fun up' => and_congr_right fun _ => (hcreated up').symm
  · show other ∈ dirs.creates.eraseIdx place ↔ stateIn (dirs.slots.modify dir _) other = _
    rw [hcreates, h.creates, hstates]
    by_cases heq : other = dir
    · rw [if_pos heq]
      exact ⟨fun hand => absurd heq hand.2, nofun⟩
    rw [if_neg heq]
    exact and_iff_left heq
  rw [h.done]
  exact and_congr_right fun _ => (hcreated other).symm

end Orderly

end SyncEngine.Archive
