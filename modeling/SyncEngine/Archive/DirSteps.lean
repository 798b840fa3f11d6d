import SyncEngine.Archive.Orderly

/-! # Planning and failing directories

A new directory is below one that is there, and failed where that is. A create that failed
takes with it just what is below it, each directory once.
-/

namespace SyncEngine.Archive

open Collections DirState List

theorem within_congr {parent parent' : Nat → Option Nat} {n : Nat}
    (hbefore : ∀ node up, parent node = some up → up < node)
    (hsame : ∀ node < n, parent' node = parent node) {root node : Nat} (hlt : node < n) :
    Within parent' root node ↔ Within parent root node := by
  induction node using Nat.strong_induction_on with
  | _ node ih =>
    rw [within_iff, within_iff]
    rw [hsame node hlt]
    refine or_congr_right (exists_congr fun up => and_congr_right fun hup => ?_)
    have hless := hbefore node up hup
    exact ih up hless (lt_trans hless hlt)

section Steps

variable {Error : Type} {dirs : Dirs Error} {counted place : Nat} {made failures : List DirId} {dir : DirId}

/-! ## Planning -/

section Plan

variable {slots : List (DirSlot Error)} {parent : DirId} {up new : DirSlot Error}

theorem getElem?_planned (parent : DirId) (f : DirSlot Error → DirSlot Error) (new : DirSlot Error) (dir : DirId) :
    (slots.modify parent f ++ [new])[dir]? =
      if dir = slots.length then some new else (slots.modify parent f)[dir]? := by
  by_cases heq : dir = slots.length
  · have hlength : (slots.modify parent f).length = slots.length := length_modify f slots parent
    rw [if_pos heq, heq, ← hlength, getElem?_concat_length]
  rw [if_neg heq]
  rcases lt_or_ge dir slots.length with hlt | hge
  · rw [getElem?_append_left (by rw [length_modify]; exact hlt)]
  have hgt : slots.length < dir := lt_of_le_of_ne hge (Ne.symm heq)
  rw [getElem?_eq_none (by rw [length_append, length_modify]; exact hgt),
    getElem?_eq_none (by rw [length_modify]; exact hge)]

section

variable (hup : slots[parent]? = some up)
include hup

theorem stateIn_planned (children : List DirId) (new : DirSlot Error) (dir : DirId) :
    stateIn (slots.modify parent (fun slot => { slot with children := slot.children ++ children }) ++ [new])
      dir = if dir = slots.length then some new.state else stateIn slots dir := by
  have hkept := stateIn_modify hup (fun slot => { slot with children := slot.children ++ children }) dir
  unfold stateIn at hkept ⊢
  rw [getElem?_planned]
  by_cases heq : dir = slots.length
  · rw [if_pos heq, if_pos heq]
    rfl
  rw [if_neg heq, if_neg heq, hkept]
  by_cases hat : dir = parent
  · rw [if_pos hat, hat, hup]
    rfl
  · rw [if_neg hat]

theorem parentIn_planned (children : List DirId) (new : DirSlot Error) (dir : DirId) :
    parentIn (slots.modify parent (fun slot => { slot with children := slot.children ++ children }) ++ [new])
      dir = if dir = slots.length then new.parent else parentIn slots dir := by
  have hkept := congrFun (@parentIn_modify _ _ _ _
    (fun slot => { slot with children := slot.children ++ children }) hup rfl) dir
  unfold parentIn at hkept ⊢
  rw [getElem?_planned]
  by_cases heq : dir = slots.length
  · rw [if_pos heq, if_pos heq]
    rfl
  · rw [if_neg heq, if_neg heq, hkept]

theorem childrenIn_planned (children : List DirId) (new : DirSlot Error)
    (hnew : new.children = []) (dir : DirId) :
    childrenIn (slots.modify parent (fun slot => { slot with children := slot.children ++ children }) ++ [new])
      dir = if dir = parent then childrenIn slots dir ++ children else childrenIn slots dir := by
  have hlt := (List.getElem?_eq_some_iff.mp hup).1
  unfold childrenIn
  rw [getElem?_planned]
  by_cases heq : dir = slots.length
  · rw [if_pos heq, if_neg (heq ▸ ne_of_gt hlt), heq, getElem?_eq_none le_rfl, Option.map_some,
      hnew]
    rfl
  rw [if_neg heq, getElem?_modify]
  by_cases hat : dir = parent
  · rw [if_pos hat, hat, hup]
    show (if parent = parent then _ else up).children = _
    rw [if_pos rfl]
    rfl
  rw [if_neg hat]
  cases slots[dir]? with
  | none => rfl
  | some found =>
    show (if parent = dir then _ else found).children = _
    rw [if_neg (Ne.symm hat)]
    rfl

end

end Plan

/-- A directory that is planned below another is ready where that is created, and failed where
that failed. -/
theorem Orderly.plan (h : Orderly dirs counted made failures) {plan : PlannedDir} {up : DirSlot Error}
    (hup : dirs.slots[plan.parent]? = some up) (hid : plan.id = dirs.slots.length) :
    Orderly (dirs.plan plan up.state) (if up.state.isFailed then counted + 1 else counted) made failures ∧
      Keeps dirs.slots (dirs.plan plan up.state).slots := by
  have hlt := (List.getElem?_eq_some_iff.mp hup).1
  have hupstate := stateIn_of_some hup
  unfold Dirs.plan
  rw [hid]
  generalize hnew : (if up.state.isFailed then up.state else .planned) = newState
  have hstates := stateIn_planned hup [dirs.slots.length]
    ⟨.named plan.parent plan.name plan.archiveName, newState, []⟩
  have hparents := parentIn_planned hup [dirs.slots.length]
    ⟨.named plan.parent plan.name plan.archiveName, newState, []⟩
  have hchildren := childrenIn_planned hup [dirs.slots.length]
    ⟨.named plan.parent plan.name plan.archiveName, newState, []⟩ rfl
  have hlength : (dirs.slots.modify plan.parent
      (fun slot => { slot with children := slot.children ++ [dirs.slots.length] }) ++
        [(⟨.named plan.parent plan.name plan.archiveName, newState, []⟩ : DirSlot Error)]).length = dirs.slots.length + 1 := by
    rw [length_append, length_modify]
    rfl
  have hcount : ∀ p : DirState Error → Bool, (dirs.slots.modify plan.parent
      (fun slot => { slot with children := slot.children ++ [dirs.slots.length] }) ++
        [(⟨.named plan.parent plan.name plan.archiveName, newState, []⟩ : DirSlot Error)]).countP
          (fun slot => p slot.state) =
          dirs.slots.countP (fun slot => p slot.state) + if p newState then 1 else 0 := by
    intro p
    have hmodify := @countP_modify _ (fun slot : DirSlot Error => p slot.state) _ _ _ hup
      fun slot => { slot with children := slot.children ++ [dirs.slots.length] }
    rw [countP_append, Nat.add_right_cancel hmodify, countP_singleton]
  have hnone : ∀ {state}, stateIn dirs.slots dirs.slots.length = some state → False := fun hsome =>
    absurd (lt_of_stateIn hsome) (lt_irrefl _)
  have horphan : ∀ {up'}, parentIn dirs.slots dirs.slots.length = some up' → False := fun hsome =>
    absurd (parentIn_lt hsome) (lt_irrefl _)
  have hnewcases : (up.state.isFailed ∧ newState = up.state) ∨
      (up.state.isFailed = false ∧ newState = .planned) := by
    cases hfailed : up.state.isFailed with
    | true =>
      rw [hfailed, if_pos rfl] at hnew
      exact Or.inl ⟨rfl, hnew.symm⟩
    | false =>
      rw [hfailed, if_neg Bool.false_ne_true] at hnew
      exact Or.inr ⟨rfl, hnew.symm⟩
  have hnotup : newState ≠ .creating ∧ newState ≠ .created := by
    rcases hnewcases with ⟨hfailed, hsame⟩ | ⟨-, hsame⟩
    · rw [hsame]
      constructor
      all_goals
        intro heq
        rw [heq] at hfailed
        cases hfailed
    rw [hsame]
    exact ⟨nofun, nofun⟩
  generalize dirs.slots.modify plan.parent
    (fun slot => { slot with children := slot.children ++ [dirs.slots.length] }) ++
      [(⟨.named plan.parent plan.name plan.archiveName, newState, []⟩ : DirSlot Error)] = slots at hstates hparents hchildren hlength hcount ⊢
  have hold : ∀ other < dirs.slots.length, stateIn slots other = stateIn dirs.slots other := fun other hother => by
    rw [hstates, if_neg (ne_of_lt hother)]
  have holdparent : ∀ other < dirs.slots.length, parentIn slots other = parentIn dirs.slots other :=
    fun other hother => by
      rw [hparents, if_neg (ne_of_lt hother)]
  have hcreated : ∀ other, stateIn dirs.slots other = some .created → stateIn slots other = some .created :=
    fun other hother => (hold other (lt_of_stateIn hother)).trans hother
  have hrootlt := lt_of_stateIn h.rooted.1
  have hwithin : ∀ own other, other < dirs.slots.length →
      (Within (parentIn slots) own other ↔ Within (parentIn dirs.slots) own other) := fun own other hother =>
    within_congr h.family.before holdparent hother
  have hlost : ∀ own ∈ failures, own < dirs.slots.length := fun own hown => by
    obtain ⟨up', hup', -⟩ := h.lost_above own hown
    exact parentIn_lt hup'
  refine ⟨⟨⟨hcreated _ h.rooted.1, ?_⟩, ⟨?_, ?_, ?_, ?_⟩, ?_, ?_, ?_, ?_, fun other => ?_, h.creates_once,
    fun other => ?_, fun other up' hother hstate => ?_, h.done_once, fun other => ?_, h.lost_once,
    fun other => ?_, fun own hown => ?_⟩, hcreated⟩
  · rw [holdparent _ hrootlt]
    exact h.rooted.2
  · intro node up' hnode
    rw [hparents] at hnode
    by_cases heq : node = dirs.slots.length
    · rw [if_pos heq] at hnode
      cases hnode
      exact heq ▸ hlt
    rw [if_neg heq] at hnode
    exact h.family.before node up' hnode
  · intro node child
    rw [hchildren, hparents]
    by_cases hnode : node = plan.parent
    · rw [if_pos hnode, mem_append, mem_singleton, h.family.lists]
      by_cases hchild : child = dirs.slots.length
      · rw [if_pos hchild, hnode]
        exact ⟨fun _ => rfl, fun _ => Or.inr hchild⟩
      rw [if_neg hchild]
      exact or_iff_left hchild
    rw [if_neg hnode, h.family.lists]
    by_cases hchild : child = dirs.slots.length
    · rw [if_pos hchild, hchild]
      refine ⟨fun hsome => (horphan hsome).elim, fun hsome => ?_⟩
      exact absurd (Option.some.inj hsome).symm hnode
    · rw [if_neg hchild]
  · intro node
    rw [hchildren]
    by_cases hnode : node = plan.parent
    · rw [if_pos hnode]
      exact concat_eq_append ▸ Nodup.concat (fun hchild => horphan ((h.family.lists _ _).mp hchild)) (h.family.once node)
    rw [if_neg hnode]
    exact h.family.once node
  · intro node up' hnode
    rw [hlength]
    rw [hparents] at hnode
    by_cases heq : node = dirs.slots.length
    · rw [heq]
      exact Nat.lt_succ_self _
    rw [if_neg heq] at hnode
    exact Nat.lt_succ_of_lt (parentIn_lt hnode)
  · intro other hother hne
    rw [hlength] at hother
    rw [hparents]
    by_cases heq : other = dirs.slots.length
    · rw [if_pos heq]
      exact ⟨plan.parent, rfl⟩
    rw [if_neg heq]
    exact h.named other (lt_of_le_of_ne (Nat.le_of_lt_succ hother) heq) hne
  · show (if up.state.isFailed then dirs.uncreated else dirs.uncreated + 1) = _
    rw [hcount isPending, h.uncreated]
    rcases hnewcases with ⟨hfailed, hsame⟩ | ⟨hfailed, hsame⟩
    · have hpending : newState.isPending = false := Bool.eq_false_iff.mpr fun hpending => by
        rw [hsame] at hpending
        rw [isFailed_of_pending hpending] at hfailed
        cases hfailed
      rw [if_pos hfailed, hpending]
      rfl
    rw [hfailed, hsame]
    rfl
  · rw [hcount isFailed, h.tally]
    rcases hnewcases with ⟨hfailed, hsame⟩ | ⟨hfailed, hsame⟩
    · rw [hsame, hfailed]
      rfl
    rw [hsame, hfailed]
    rfl
  · show (if up.state.isCreated then dirs.ready ++ [dirs.slots.length] else dirs.ready).Nodup
    split
    · exact concat_eq_append ▸ Nodup.concat (fun hready => hnone ((h.ready _).mp hready).1) h.ready_once
    · exact h.ready_once
  · show other ∈ (if up.state.isCreated then dirs.ready ++ [dirs.slots.length] else dirs.ready) ↔ _
    have hmem : other ∈ (if up.state.isCreated then dirs.ready ++ [dirs.slots.length] else dirs.ready) ↔
        other ∈ dirs.ready ∨ up.state.isCreated ∧ other = dirs.slots.length := by
      split
      · rename_i hup'
        rw [mem_append, mem_singleton]
        exact or_congr_right (and_iff_right hup').symm
      rename_i hup'
      exact (or_iff_left fun hand => hup' hand.1).symm
    rw [hmem, hstates, hparents, h.ready]
    by_cases heq : other = dirs.slots.length
    · rw [if_pos heq, if_pos heq]
      constructor
      · rintro (⟨hplanned, -⟩ | ⟨hup', -⟩)
        · rw [heq] at hplanned
          exact (hnone hplanned).elim
        rcases hnewcases with ⟨hfailed, -⟩ | ⟨-, hsame⟩
        · rw [isCreated_iff.mp hup'] at hfailed
          cases hfailed
        refine ⟨congrArg some hsame, plan.parent, rfl, ?_⟩
        rw [hold _ hlt, hupstate, isCreated_iff.mp hup']
      rintro ⟨-, up', hup', hcreated'⟩
      cases hup'
      rw [hold _ hlt, hupstate] at hcreated'
      rw [Option.some.inj hcreated']
      exact Or.inr ⟨rfl, heq⟩
    rw [if_neg heq, if_neg heq, or_iff_left fun hand => heq hand.2]
    refine and_congr_right fun _ => exists_congr fun up' => and_congr_right fun hup' => ?_
    rw [hold up' (lt_trans (h.family.before other up' hup') (parentIn_lt hup'))]
  · rw [h.creates, hstates]
    by_cases heq : other = dirs.slots.length
    · rw [if_pos heq, heq]
      exact ⟨fun hsome => (hnone hsome).elim, fun hsome => absurd (Option.some.inj hsome) hnotup.1⟩
    · rw [if_neg heq]
  · rw [hparents] at hother
    rw [hstates] at hstate
    by_cases heq : other = dirs.slots.length
    · rw [if_pos heq] at hstate
      rcases hstate with hsome | hsome
      · exact absurd (Option.some.inj hsome) hnotup.1
      · exact absurd (Option.some.inj hsome) hnotup.2
    rw [if_neg heq] at hother hstate
    exact hcreated up' (h.above other up' hother hstate)
  · rw [h.done, hstates]
    refine and_congr_right fun _ => ?_
    by_cases heq : other = dirs.slots.length
    · rw [if_pos heq, heq]
      exact ⟨fun hsome => (hnone hsome).elim, fun hsome => absurd (Option.some.inj hsome) hnotup.2⟩
    · rw [if_neg heq]
  · rw [hstates, hlength]
    by_cases heq : other = dirs.slots.length
    · rw [if_pos heq]
      have hself : ∀ own ∈ failures, Within (parentIn slots) own other ↔
          Within (parentIn dirs.slots) own plan.parent := by
        intro own hown
        rw [within_iff, heq]
        rw [hparents, if_pos rfl]
        constructor
        · rintro (hsame | ⟨up', hup', hbelow⟩)
          · exact absurd (hlost own hown) (hsame ▸ lt_irrefl _)
          cases hup'
          exact (hwithin own _ hlt).mp hbelow
        · exact fun hbelow => Or.inr ⟨plan.parent, rfl, (hwithin own _ hlt).mpr hbelow⟩
      have hupfailed : (∃ error, some newState = some (.failed error)) ↔
          ∃ error, stateIn dirs.slots plan.parent = some (.failed error) := by
        rw [hupstate]
        rcases hnewcases with ⟨-, hsame⟩ | ⟨hfailed, hsame⟩
        · rw [hsame]
        rw [hsame]
        constructor
        · rintro ⟨error, hsome⟩
          cases hsome
        rintro ⟨error, hsome⟩
        rw [Option.some.inj hsome] at hfailed
        cases hfailed
      rw [hupfailed, h.lost]
      constructor
      · rintro ⟨-, own, hown, hbelow⟩
        exact ⟨heq ▸ Nat.lt_succ_self _, own, hown, (hself own hown).mpr hbelow⟩
      rintro ⟨-, own, hown, hbelow⟩
      exact ⟨hlt, own, hown, (hself own hown).mp hbelow⟩
    rw [if_neg heq, h.lost]
    constructor
    · rintro ⟨hother, own, hown, hbelow⟩
      exact ⟨Nat.lt_succ_of_lt hother, own, hown, (hwithin own other hother).mpr hbelow⟩
    rintro ⟨hother, own, hown, hbelow⟩
    have hless := lt_of_le_of_ne (Nat.le_of_lt_succ hother) heq
    exact ⟨hless, own, hown, (hwithin own other hless).mp hbelow⟩
  obtain ⟨up', hup', hupcreated⟩ := h.lost_above own hown
  exact ⟨up', (holdparent own (hlost own hown)).trans hup', hcreated up' hupcreated⟩

/-! ## Failing -/

/-- Some pending directories failed, and all else is as it was. -/
structure FailsAll {Error : Type} (error : Error) (root : DirId) (lost : List DirId) (before after : Dirs Error)
    (n n' : Nat) : Prop where
  length : after.slots.length = before.slots.length
  parents : parentIn after.slots = parentIn before.slots
  children : childrenIn after.slots = childrenIn before.slots
  ready : after.ready = before.ready
  creates : after.creates = before.creates
  states : ∀ dir, stateIn after.slots dir =
    if dir ∈ lost then some (.failed error) else stateIn before.slots dir
  uncreated : after.uncreated = after.slots.countP fun slot => slot.state.isPending
  /-- All that failed are counted but the one whose create failed. -/
  tally : n' + (before.slots.countP fun slot => slot.state.isFailed) + (if root ∈ lost then 1 else 0) =
    n + after.slots.countP fun slot => slot.state.isFailed

theorem markFailed_pending {slot : DirSlot Error} (hslot : dirs.slots[dir]? = some slot)
    (hpending : slot.state.isPending)
    (huncreated : dirs.uncreated = dirs.slots.countP fun slot => slot.state.isPending) (error : Error)
    (root : DirId) (n : Nat) :
    ∃ after, Dirs.markFailed error root dir (dirs, n) = some (after, if dir = root then n else n + 1) ∧
      FailsAll error root [dir] dirs after n (if dir = root then n else n + 1) := by
  have hpos : 0 < dirs.slots.countP fun slot => slot.state.isPending :=
    countP_pos_iff.mpr ⟨slot, mem_of_getElem? hslot, hpending⟩
  obtain ⟨uncreated, hsome⟩ : ∃ uncreated, dirs.uncreated = uncreated + 1 := by
    rw [← huncreated] at hpos
    exact ⟨dirs.uncreated - 1, (Nat.sub_add_cancel hpos).symm⟩
  have hleft := @countP_modify _ (fun slot : DirSlot Error => slot.state.isPending) _ _ _ hslot
    fun slot => { slot with state := .failed error }
  have hfailed := @countP_modify _ (fun slot : DirSlot Error => slot.state.isFailed) _ _ _ hslot
    fun slot => { slot with state := .failed error }
  rw [if_pos hpending, ← huncreated, hsome, if_neg (by exact Bool.false_ne_true), Nat.add_zero] at hleft
  rw [if_neg (by rw [isFailed_of_pending hpending]; exact Bool.false_ne_true), if_pos (by rfl), Nat.add_zero] at hfailed
  refine ⟨{ dirs with
      slots := dirs.slots.modify dir fun slot => { slot with state := .failed error }
      uncreated }, ?_, ⟨length_modify _ _ _, parentIn_modify hslot rfl, childrenIn_modify hslot rfl, rfl, rfl,
    fun other => ?_, (Nat.succ.inj hleft).symm, ?_⟩⟩
  · unfold Dirs.markFailed Dirs.settleOne
    dsimp only
    rw [hslot, hsome]
    dsimp only
    rw [if_pos hpending]
    rfl
  · rw [stateIn_modify hslot]
    exact if_congr mem_singleton.symm rfl rfl
  rw [hfailed]
  by_cases heq : dir = root
  · rw [if_pos heq, if_pos (mem_singleton.mpr heq.symm), Nat.add_assoc]
  rw [if_neg heq, if_neg fun hmem => heq (mem_singleton.mp hmem).symm, Nat.add_zero, Nat.add_assoc,
    Nat.add_comm 1]

theorem FailsAll.trans {error : Error} {root : DirId} {lost : List DirId} {before mid after : Dirs Error}
    {n n' n'' : Nat} (h : FailsAll error root [dir] before mid n n') (hthen : FailsAll error root lost mid after n' n'')
    (hnew : dir ∉ lost) : FailsAll error root (dir :: lost) before after n n'' where
  length := hthen.length.trans h.length
  parents := hthen.parents.trans h.parents
  children := hthen.children.trans h.children
  ready := hthen.ready.trans h.ready
  creates := hthen.creates.trans h.creates
  states other := by
    rw [hthen.states, h.states]
    by_cases hmem : other ∈ lost
    · rw [if_pos hmem, if_pos (mem_cons_of_mem _ hmem)]
    rw [if_neg hmem]
    by_cases heq : other ∈ [dir]
    · rw [if_pos heq, if_pos (mem_cons.mpr (Or.inl (mem_singleton.mp heq)))]
    rw [if_neg heq, if_neg]
    rintro hcons
    exact (mem_cons.mp hcons).elim (fun hsame => heq (mem_singleton.mpr hsame)) hmem
  uncreated := hthen.uncreated
  tally := by
    have hfirst := h.tally
    have hlast := hthen.tally
    have hcases : (if root ∈ dir :: lost then 1 else 0) =
        (if root ∈ [dir] then 1 else 0) + if root ∈ lost then 1 else 0 := by
      by_cases heq : root = dir
      · rw [if_pos (heq ▸ mem_cons_self), if_pos (heq ▸ mem_cons_self), if_neg (heq ▸ hnew)]
      have hnot : root ∉ [dir] := fun hmem => heq (mem_singleton.mp hmem)
      rw [if_neg hnot, Nat.zero_add]
      by_cases hmem : root ∈ lost
      · rw [if_pos hmem, if_pos (mem_cons_of_mem _ hmem)]
      · rw [if_neg hmem, if_neg fun hcons => (mem_cons.mp hcons).elim heq hmem]
    rw [hcases]
    omega

theorem markFailed_all (error : Error) (root : DirId) {lost : List DirId} {n : Nat} (honce : lost.Nodup)
    (hpending : ∀ dir ∈ lost, stateIn dirs.slots dir = some .planned ∨ stateIn dirs.slots dir = some .creating)
    (huncreated : dirs.uncreated = dirs.slots.countP fun slot => slot.state.isPending) :
    ∃ after n', lost.foldlM (fun s dir => Dirs.markFailed error root dir s) (dirs, n) = some (after, n') ∧
      FailsAll error root lost dirs after n n' := by
  induction lost generalizing dirs n with
  | nil =>
    exact ⟨dirs, n, rfl, rfl, rfl, rfl, rfl, rfl, fun other => (if_neg not_mem_nil).symm, huncreated,
      rfl⟩
  | cons dir lost ih =>
    obtain ⟨hnew, hrest⟩ := nodup_cons.mp honce
    obtain ⟨slot, hslot, hstate⟩ : ∃ slot, dirs.slots[dir]? = some slot ∧ slot.state.isPending := by
      rcases hpending dir mem_cons_self with hsome | hsome
      all_goals
        obtain ⟨slot, hslot, hstate⟩ := Option.map_eq_some_iff.mp hsome
        exact ⟨slot, hslot, by rw [hstate]; rfl⟩
    obtain ⟨mid, hmark, hmid⟩ := markFailed_pending hslot hstate huncreated error root n
    have hleft : ∀ other ∈ lost, stateIn mid.slots other = some .planned ∨
        stateIn mid.slots other = some .creating := by
      intro other hother
      rw [hmid.states, if_neg]
      · exact hpending other (mem_cons_of_mem _ hother)
      intro hsame
      rw [mem_singleton.mp hsame] at hother
      exact hnew hother
    obtain ⟨after, n', hfold, hafter⟩ := @ih mid (if dir = root then n else n + 1) hrest hleft hmid.uncreated
    refine ⟨after, n', ?_, hmid.trans hafter hnew⟩
    rw [foldlM_cons, hmark]
    exact hfold

theorem failFrom_eq (error : Error) (root : DirId) {children : DirId → List DirId} (fuel : Nat)
    (stack : List DirId) {s : Dirs Error × Nat} (h : childrenIn s.1.slots = children) :
    Dirs.failFrom error root fuel stack s =
      (sweep children fuel stack).foldlM (fun s dir => Dirs.markFailed error root dir s) s := by
  induction fuel generalizing stack s with
  | zero => rfl
  | succ fuel ih =>
    cases stack with
    | nil => rfl
    | cons dir stack =>
      rw [sweep, foldlM_cons, Dirs.failFrom]
      cases hslot : s.1.slots[dir]? with
      | none =>
        unfold Dirs.markFailed
        rw [hslot]
        rfl
      | some slot =>
        have hchildren : children dir = slot.children := by
          rw [← h]
          unfold childrenIn
          rw [hslot]
          rfl
        rw [hchildren]
        dsimp only
        cases hmark : Dirs.markFailed error root dir s with
        | none => rfl
        | some s' =>
          refine ih _ ?_
          unfold Dirs.markFailed at hmark
          rw [hslot] at hmark
          obtain ⟨dirs, hdirs, rfl⟩ := Option.map_eq_some_iff.mp hmark
          have hslots : dirs.slots = s.1.slots := by
            split at hdirs
            · unfold Dirs.settleOne at hdirs
              split at hdirs
              · cases hdirs
              cases hdirs
              rfl
            cases hdirs
            rfl
          show childrenIn (dirs.slots.modify dir _) = children
          rw [hslots, childrenIn_modify hslot rfl]
          exact h

theorem Orderly.fail (h : Orderly dirs counted made failures) (hplace : dirs.creates[place]? = some dir)
    (error : Error) :
    ∃ after n, Dirs.failFrom error dir dirs.slots.length [dir]
        ({ dirs with creates := dirs.creates.eraseIdx place }, counted + 1) = some (after, n) ∧
      Orderly { after with ready := after.ready.filter fun dir => !after.failedAt dir } n made
        (failures ++ [dir]) ∧
      Keeps dirs.slots after.slots ∧ (∀ other ∈ after.creates, other ∈ dirs.creates) ∧
      after.slots.length = dirs.slots.length := by
  obtain ⟨slot, up, hslot, -, -, hparent, hupcreated, hcreating, honce, hcreates⟩ := h.creating hplace
  have hlt := lt_of_stateIn hcreating
  obtain ⟨hnodup, hswept⟩ := h.family.sweep_one hlt
  have hfrom := @failFrom_eq _ error dir (childrenIn dirs.slots) dirs.slots.length [dir]
    ({ dirs with creates := dirs.creates.eraseIdx place }, counted + 1) rfl
  have hpending : ∀ other ∈ sweep (childrenIn dirs.slots) dirs.slots.length [dir],
      other = dir ∨ stateIn dirs.slots other = some .planned := fun other hother =>
    h.planned_below ((hswept other).mp hother) (Or.inr hcreating)
  have hpending' : ∀ other ∈ sweep (childrenIn dirs.slots) dirs.slots.length [dir],
      stateIn dirs.slots other = some .planned ∨ stateIn dirs.slots other = some .creating := by
    intro other hother
    rcases hpending other hother with rfl | hplanned
    · exact Or.inr hcreating
    · exact Or.inl hplanned
  obtain ⟨after, n, hfold, hafter⟩ := @markFailed_all _
    { dirs with creates := dirs.creates.eraseIdx place } error dir _ (counted + 1) hnodup hpending' h.uncreated
  have hdir : dir ∈ sweep (childrenIn dirs.slots) dirs.slots.length [dir] :=
    (hswept dir).mpr Relation.ReflTransGen.refl
  generalize sweep (childrenIn dirs.slots) dirs.slots.length [dir] = lost at *
  have hstates := hafter.states
  have hkept : ∀ other, other ∈ lost → stateIn after.slots other = some (.failed error) := fun other hother => by
    rw [hstates, if_pos hother]
  have hcreated : ∀ other, stateIn after.slots other = some .created ↔
      stateIn dirs.slots other = some .created := by
    intro other
    rw [hstates]
    by_cases hother : other ∈ lost
    · rw [if_pos hother]
      refine ⟨nofun, fun hsome => ?_⟩
      rcases hpending' other hother with hstate | hstate
      all_goals
        rw [hstate] at hsome
        cases hsome
    · rw [if_neg hother]
  have hready : ∀ other, other ∈ after.ready.filter (fun dir => !after.failedAt dir) ↔
      other ∈ dirs.ready ∧ other ∉ lost := by
    intro other
    rw [mem_filter, hafter.ready, Bool.not_eq_true', ← Bool.not_eq_true, failedAt_iff, hstates]
    refine and_congr_right fun hmemready => ?_
    have hplanned := ((h.ready other).mp hmemready).1
    by_cases hother : other ∈ lost
    · rw [if_pos hother]
      exact ⟨fun hnot => absurd ⟨error, rfl⟩ hnot, fun hnot => absurd hother hnot⟩
    rw [if_neg hother, hplanned]
    exact ⟨fun _ => hother, fun _ ⟨_, hnone⟩ => nomatch hnone⟩
  have hnew : dir ∉ failures := by
    intro hfailure
    obtain ⟨error', hfailed⟩ := (h.lost dir).mpr ⟨hlt, dir, hfailure, Relation.ReflTransGen.refl⟩
    rw [hcreating] at hfailed
    cases hfailed
  have hchanged : ∀ {other state}, stateIn after.slots other = some state → state.isFailed = false →
      other ∉ lost ∧ stateIn dirs.slots other = some state := by
    intro other state hsome hnot
    rw [hstates] at hsome
    by_cases hother : other ∈ lost
    · rw [if_pos hother] at hsome
      rw [← Option.some.inj hsome] at hnot
      cases hnot
    rw [if_neg hother] at hsome
    exact ⟨hother, hsome⟩
  refine ⟨after, n, ?_, ⟨⟨(hcreated rootDir).mpr h.rooted.1, ?_⟩, ?_, ?_, hafter.uncreated, ?_, ?_, fun other => ?_,
    ?_, fun other => ?_, fun other up' hother hstate => ?_, h.done_once, fun other => ?_, ?_, fun other => ?_,
    fun own hown => ?_⟩, fun other => (hcreated other).mpr, fun other hother => ?_, hafter.length⟩
  · exact hfrom.trans hfold
  · rw [hafter.parents]
    exact h.rooted.2
  · rw [hafter.parents, hafter.children, hafter.length]
    exact h.family
  · rw [hafter.parents, hafter.length]
    exact h.named
  · have htally := hafter.tally
    rw [if_pos hdir] at htally
    have hcounted := h.tally
    show n = after.slots.countP fun slot => slot.state.isFailed
    dsimp only at htally
    omega
  · refine List.Nodup.filter _ ?_
    rw [hafter.ready]
    exact h.ready_once
  · show other ∈ after.ready.filter (fun dir => !after.failedAt dir) ↔ _
    rw [hready, hafter.parents, h.ready]
    constructor
    · rintro ⟨⟨hplanned, up', hup', hcreated'⟩, hother⟩
      exact ⟨by rw [hstates, if_neg hother]; exact hplanned, up', hup', (hcreated up').mpr hcreated'⟩
    rintro ⟨hplanned, up', hup', hcreated'⟩
    obtain ⟨hother, hwas⟩ := hchanged hplanned rfl
    exact ⟨⟨hwas, up', hup', (hcreated up').mp hcreated'⟩, hother⟩
  · rw [hafter.creates]
    exact honce
  · show other ∈ after.creates ↔ _
    rw [hafter.creates, hcreates, h.creates]
    constructor
    · rintro ⟨hstate, hne⟩
      show stateIn after.slots other = some .creating
      rw [hstates, if_neg]
      · exact hstate
      intro hother
      rcases hpending other hother with heq | hplanned
      · exact hne heq
      rw [hstate] at hplanned
      cases hplanned
    intro hstate
    obtain ⟨hother, hwas⟩ := hchanged hstate rfl
    refine ⟨hwas, ?_⟩
    rintro rfl
    exact hother hdir
  · rw [hafter.parents] at hother
    refine (hcreated up').mpr (h.above other up' hother ?_)
    rcases hstate with hstate | hstate
    · exact Or.inl (hchanged hstate rfl).2
    · exact Or.inr (hchanged hstate rfl).2
  · rw [h.done]
    exact and_congr_right fun _ => (hcreated other).symm
  · exact concat_eq_append ▸ Nodup.concat hnew h.lost_once
  · show (∃ error, stateIn after.slots other = some (.failed error)) ↔ other < after.slots.length ∧ _
    rw [hafter.length, hafter.parents, hstates]
    by_cases hother : other ∈ lost
    · rw [if_pos hother]
      have hsome := hkept other hother
      refine ⟨fun _ => ⟨hafter.length ▸ lt_of_stateIn hsome, dir, ?_, (hswept other).mp hother⟩,
        fun _ => ⟨error, rfl⟩⟩
      exact mem_append_right _ (mem_singleton_self _)
    rw [if_neg hother, h.lost]
    refine and_congr_right fun _ => ⟨?_, ?_⟩
    · rintro ⟨own, hown, hbelow⟩
      exact ⟨own, mem_append_left _ hown, hbelow⟩
    rintro ⟨own, hown, hbelow⟩
    rcases mem_append.mp hown with hown | hlast
    · exact ⟨own, hown, hbelow⟩
    rw [mem_singleton.mp hlast] at hbelow
    exact absurd ((hswept other).mpr hbelow) hother
  · rw [hafter.parents]
    rcases mem_append.mp hown with hown | hlast
    · obtain ⟨up', hup', hcreated'⟩ := h.lost_above own hown
      exact ⟨up', hup', (hcreated up').mpr hcreated'⟩
    rw [mem_singleton.mp hlast]
    exact ⟨up, hparent, (hcreated up).mpr hupcreated⟩
  rw [hafter.creates] at hother
  exact ((hcreates other).mp hother).1

end Steps

end SyncEngine.Archive
