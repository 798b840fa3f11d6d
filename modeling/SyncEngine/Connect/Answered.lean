import SyncEngine.Connect.HeldTargets

/-! # What is answered for a hold

An answer from what was kept is what the server has, and was kept in the hold it is
answered in, where no directory is added to a target while something is kept of it.
-/

namespace SyncEngine.Connect

open Collections Creation Function List

variable {τ : Type}

namespace HeldTargets

variable {held : HeldTargets τ} {hold : Hold} {valid : Bool} {dir : Dir}

/-- Entries that were forgotten. -/
structure Forgot (before after : HeldTargets τ) : Prop where
  forgotten : before.forgotten < after.forgotten
  dirs : ∀ dir, after.dirs dir = none
  changing : after.changing = before.changing

theorem during_cases : held.during hold = held ∧ held.hold = some hold ∨
    Forgot held (held.during hold) ∧ (held.during hold).hold = some hold := by
  unfold during
  by_cases h : held.hold = some hold
  · rw [if_pos h]
    exact Or.inl ⟨rfl, h⟩
  rw [if_neg h]
  exact Or.inr ⟨⟨Nat.lt_succ_self _, fun _ => rfl, rfl⟩, rfl⟩

theorem cached_cases : (held.cached hold valid dir).2 = held ∧ held.hold = some hold ∨
    Forgot held (held.cached hold valid dir).2 ∧ (held.cached hold valid dir).2.hold = some hold := by
  unfold cached
  dsimp only
  split
  · right
    rcases @during_cases _ held hold with ⟨hsame, hhold⟩ | ⟨hforgot, hhold⟩
    · rw [hsame]
      exact ⟨⟨Nat.lt_succ_self _, fun _ => rfl, rfl⟩, hhold⟩
    · exact ⟨⟨Nat.lt_succ_of_lt hforgot.forgotten, fun _ => rfl, hforgot.changing⟩, hhold⟩
  · split <;> exact during_cases

theorem cached_eq_some {kept : Kept τ} (h : (held.cached hold valid dir).1 = some kept) :
    (held.cached hold valid dir).2 = held ∧ held.hold = some hold ∧ valid ∧ held.dirs dir = some kept := by
  have hvalid : valid := by
    rw [← Bool.not_eq_false]
    rintro rfl
    exact nomatch h
  subst hvalid
  have hkept : ((held.during hold).dirs dir) = some kept ∧ (held.cached hold true dir).2 = held.during hold := by
    unfold cached at h ⊢
    rw [if_neg (not_not_intro rfl)] at h ⊢
    split at h
    · exact nomatch h
    rename_i hchanging
    rw [if_neg hchanging]
    exact ⟨h, rfl⟩
  rcases @during_cases _ held hold with ⟨hsame, hhold⟩ | ⟨hforgot, -⟩
  · rw [hsame] at hkept
    exact ⟨hkept.2, hhold, rfl, hkept.1⟩
  rw [hforgot.dirs] at hkept
  exact nomatch hkept.1

theorem keep_cases {targets : Finset τ} {began : Nat} : held.keep hold valid dir targets began = held ∨
    (held.hold = some hold ∧ valid ∧ held.changing = 0 ∧ generationOf began = generationOf held.forgotten ∧
      held.keep hold valid dir targets began =
        { held with dirs := update held.dirs dir (some ⟨targets, hold⟩) }) := by
  unfold keep
  by_cases h : held.hold = some hold ∧ valid ∧ held.changing = 0 ∧ generationOf began = generationOf held.forgotten
  · rw [if_pos h]
    exact Or.inr ⟨h.1, h.2.1, h.2.2.1, h.2.2.2, rfl⟩
  · exact Or.inl (if_neg h)

theorem keep_hold (held : HeldTargets τ) (hold : Hold) (valid : Bool) (dir : Dir) (targets : Finset τ) (began : Nat) :
    (held.keep hold valid dir targets began).hold = held.hold ∧
      (held.keep hold valid dir targets began).forgotten = held.forgotten := by
  unfold keep
  split <;> exact ⟨rfl, rfl⟩

end HeldTargets

/-- A new directory is in those it was added to, and in none its parent's lookup did not answer. -/
def Creation.Joined [DecidableEq τ] (creation : Creation τ) (targets : Option (Finset τ)) : Prop :=
  ∃ now ∈ targets, creation.lookup.targets \ creation.remaining ⊆ now ∧ now ⊆ creation.lookup.targets

/-! ## What holds between steps -/

namespace World

/-- Since a lookup began the entries were not forgotten only in the hold it began in, and then a
fact about the server stands while no change runs and the lease does. -/
def Current (world : World τ) (began : Nat) (hold : Hold) (fact : Prop) : Prop :=
  began ≤ world.held.forgotten ∧ (began = world.held.forgotten → world.held.hold = some hold ∧
    (world.guards = 0 → world.standing hold = true → fact))

variable {world after : World τ} {began : Nat} {hold : Hold} {fact other : Prop}

theorem Current.forgot (h : world.Current began hold fact) (hforgot : world.held.forgotten < after.held.forgotten) :
    after.Current began hold other := by
  have hlt := lt_of_le_of_lt h.1 hforgot
  exact ⟨le_of_lt hlt, fun heq => absurd heq (ne_of_lt hlt)⟩

theorem Current.keep (h : world.Current began hold fact) (hforgotten : after.held.forgotten = world.held.forgotten)
    (hhold : after.held.hold = world.held.hold)
    (hfact : world.held.hold = some hold → began = world.held.forgotten → after.guards = 0 →
      after.standing hold → world.guards = 0 ∧ world.standing hold ∧ (fact → other)) :
    after.Current began hold other := by
  refine ⟨hforgotten ▸ h.1, fun heq => ?_⟩
  obtain ⟨hsame, hstands⟩ := h.2 (heq.trans hforgotten)
  refine ⟨hhold.trans hsame, fun hguards hstanding => ?_⟩
  obtain ⟨hbefore, hstood, himp⟩ := hfact hsame (heq.trans hforgotten) hguards hstanding
  exact himp (hstands hbefore hstood)

theorem standing_of_mayFind {valid : Bool} (hmay : world.mayFind hold valid) (hvalid : valid = true) :
    world.standing hold := by
  rw [hvalid] at hmay
  exact (Bool.and_eq_true_iff.mp hmay).2

variable [DecidableEq τ]

structure Inv (world : World τ) : Prop where
  guards : world.held.changing = world.guards
  bare : 0 < world.guards → ∀ dir, world.held.dirs dir = none
  taken : ∀ hold, world.held.hold = some hold → hold < world.holds
  kept : ∀ dir kept, world.held.dirs dir = some kept → world.held.hold = some kept.during ∧
    (world.standing kept.during = true → world.server dir = some kept.targets)
  lookups : ∀ lookup ∈ world.lookups, world.Current lookup.began lookup.hold
    (∀ targets, lookup.read = some targets → world.server lookup.dir = some targets)
  answered : ∀ lookup ∈ world.answered, world.Current lookup.began lookup.hold True
  creations : ∀ creation ∈ world.creations, world.Current creation.lookup.began creation.lookup.hold
    (creation.Joined (world.server creation.dir))
  remaining : ∀ creation ∈ world.creations, creation.remaining ⊆ creation.lookup.targets ∧ creation.dir ∈ world.known
  made : ∀ dir ∈ world.made, dir ∈ world.known
  apart : (world.made ++ world.creations.map dir).Nodup
  known : ∀ dir, (world.server dir).isSome → dir ∈ world.known
  answers : ∀ answer ∈ world.answers, answer.kept.during = answer.hold ∧ answer.actual = some answer.kept.targets

section

variable (h : world.Inv)
include h

theorem Inv.forgot {held : HeldTargets τ} {guards : Nat} (hforgotten : world.held.forgotten < held.forgotten)
    (hdirs : ∀ dir, held.dirs dir = none) (hguards : held.changing = guards)
    (htaken : ∀ hold, held.hold = some hold → hold < world.holds) :
    ({ world with held, guards } : World τ).Inv where
  guards := hguards
  bare _ := hdirs
  taken := htaken
  kept dir _ hkept := nomatch (hdirs dir).symm.trans hkept
  lookups lookup hmem := (h.lookups lookup hmem).forgot hforgotten
  answered lookup hmem := (h.answered lookup hmem).forgot hforgotten
  creations creation hmem := (h.creations creation hmem).forgot hforgotten
  remaining := h.remaining
  made := h.made
  apart := h.apart
  known := h.known
  answers := h.answers

theorem Inv.change (dir : Dir) (targets : Option (Finset τ))
    (hfree : ∀ hold, world.held.hold = some hold → world.guards = 0 → world.standing hold → False) :
    (world.change dir targets).Inv where
  guards := h.guards
  bare := h.bare
  taken := h.taken
  kept other kept hkept := by
    obtain ⟨hhold, -⟩ := h.kept other kept hkept
    refine ⟨hhold, fun hstanding => ?_⟩
    by_cases hguards : world.guards = 0
    · exact (hfree _ hhold hguards hstanding).elim
    · exact nomatch (h.bare (Nat.pos_of_ne_zero hguards) other).symm.trans hkept
  lookups lookup hmem := (h.lookups lookup hmem).keep rfl rfl fun hhold _ hguards hstanding =>
    (hfree _ hhold hguards hstanding).elim
  answered lookup hmem := (h.answered lookup hmem).keep rfl rfl fun hhold _ hguards hstanding =>
    (hfree _ hhold hguards hstanding).elim
  creations creation hmem := (h.creations creation hmem).keep rfl rfl fun hhold _ hguards hstanding =>
    (hfree _ hhold hguards hstanding).elim
  remaining creation hmem :=
    ⟨(h.remaining creation hmem).1, mem_cons_of_mem _ (h.remaining creation hmem).2⟩
  made other hmem := mem_cons_of_mem _ (h.made other hmem)
  apart := h.apart
  known other hsome := by
    by_cases hother : other = dir
    · exact mem_cons.mpr (Or.inl hother)
    refine mem_cons_of_mem _ (h.known other ?_)
    unfold World.change at hsome
    dsimp only at hsome
    rwa [update_of_ne hother] at hsome
  answers := h.answers

theorem Inv.acquire : ({ world with
    holds := world.holds + 1, standing := update world.standing world.holds true } : World τ).Inv := by
  have hold_ne : ∀ hold, world.held.hold = some hold → update world.standing world.holds true hold =
      world.standing hold := fun hold hhold => update_of_ne (ne_of_lt (h.taken hold hhold)) _ _
  refine ⟨h.guards, h.bare, fun hold hhold => Nat.lt_succ_of_lt (h.taken hold hhold), fun dir kept hkept => ?_,
    fun lookup hmem => ?_, fun lookup hmem => ?_, fun creation hmem => ?_, h.remaining, h.made, h.apart, h.known, h.answers⟩
  · obtain ⟨hhold, hserver⟩ := h.kept dir kept hkept
    exact ⟨hhold, fun hstanding => hserver ((hold_ne _ hhold).symm.trans hstanding)⟩
  · exact (h.lookups lookup hmem).keep rfl rfl fun hhold _ hguards hstanding =>
      ⟨hguards, (hold_ne _ hhold).symm.trans hstanding, id⟩
  · exact (h.answered lookup hmem).keep rfl rfl fun hhold _ hguards hstanding =>
      ⟨hguards, (hold_ne _ hhold).symm.trans hstanding, id⟩
  exact (h.creations creation hmem).keep rfl rfl fun hhold _ hguards hstanding =>
    ⟨hguards, (hold_ne _ hhold).symm.trans hstanding, id⟩

theorem Inv.lose (lost : Hold) :
    ({ world with standing := update world.standing lost false } : World τ).Inv := by
  have stood : ∀ hold, update world.standing lost false hold → world.standing hold := by
    intro hold hstanding
    by_cases hlost : hold = lost
    · rw [hlost, update_self] at hstanding
      exact nomatch hstanding
    · rwa [update_of_ne hlost] at hstanding
  refine ⟨h.guards, h.bare, h.taken, fun dir kept hkept => ?_, fun lookup hmem => ?_, fun lookup hmem => ?_,
    fun creation hmem => ?_, h.remaining, h.made, h.apart, h.known, h.answers⟩
  · obtain ⟨hhold, hserver⟩ := h.kept dir kept hkept
    exact ⟨hhold, fun hstanding => hserver (stood _ hstanding)⟩
  · exact (h.lookups lookup hmem).keep rfl rfl fun _ _ hguards hstanding => ⟨hguards, stood _ hstanding, id⟩
  · exact (h.answered lookup hmem).keep rfl rfl fun _ _ hguards hstanding => ⟨hguards, stood _ hstanding, id⟩
  · exact (h.creations creation hmem).keep rfl rfl fun _ _ hguards hstanding => ⟨hguards, stood _ hstanding, id⟩

theorem Inv.keepIn {valid : Bool} {dir : Dir} {targets : Finset τ} (hmay : world.mayFind hold valid)
    (hcurrent : ∃ during, world.Current began during (world.server dir = some targets))
    (hunwrapped : world.Unwrapped began) :
    ({ world with held := world.held.keep hold valid dir targets began } : World τ).Inv := by
  rcases @HeldTargets.keep_cases _ world.held hold valid dir targets began with
    hsame | ⟨hhold, hvalid, hchanging, hgeneration, hkeeps⟩
  · rw [hsame]
    exact h
  obtain ⟨during, -, hcurrent⟩ := hcurrent
  have hguards : world.guards = 0 := h.guards.symm.trans hchanging
  have hstanding := standing_of_mayFind hmay hvalid
  obtain ⟨hsame, hfact⟩ := hcurrent (hunwrapped hgeneration)
  have heq : during = hold := Option.some.inj (hsame.symm.trans hhold)
  have hserver := hfact hguards (heq ▸ hstanding)
  rw [hkeeps]
  refine ⟨h.guards, fun hpos => absurd hguards (ne_of_gt hpos), h.taken, fun other kept hkept => ?_, h.lookups,
    h.answered, h.creations, h.remaining, h.made, h.apart, h.known, h.answers⟩
  dsimp only at hkept
  by_cases hother : other = dir
  · rw [hother, update_self] at hkept
    cases hkept
    rw [hother]
    exact ⟨hhold, fun _ => hserver⟩
  rw [update_of_ne hother] at hkept
  exact h.kept other kept hkept

theorem Inv.cached {valid : Bool} {dir : Dir} (hmay : world.mayFind hold valid) :
    ({ world with held := (world.held.cached hold valid dir).2 } : World τ).Inv ∧
      (world.held.cached hold valid dir).2.hold = some hold := by
  rcases @HeldTargets.cached_cases _ world.held hold valid dir with ⟨hsame, hhold⟩ | ⟨hforgot, hhold⟩
  · rw [hsame]
    exact ⟨h, hhold⟩
  refine ⟨h.forgot hforgot.forgotten hforgot.dirs (hforgot.changing.trans h.guards) fun other hother => ?_, hhold⟩
  cases hhold.symm.trans hother
  exact of_decide_eq_true (Bool.and_eq_true_iff.mp hmay).1

end

omit [DecidableEq τ] in
theorem current_now {fact : Prop} (hhold : world.held.hold = some hold)
    (hfact : world.guards = 0 → world.standing hold → fact) :
    world.Current world.held.forgotten hold fact := ⟨le_rfl, fun _ => ⟨hhold, hfact⟩⟩

section

variable (h : world.Inv)
include h

theorem Inv.look {valid : Bool} {dir : Dir}
    (hstep : world.step (.look hold valid dir) = some after) : after.Inv := by
  dsimp only [World.step] at hstep
  split at hstep
  · rename_i hmay
    obtain ⟨hinv, hhold⟩ := @Inv.cached _ world hold _ h valid dir hmay
    split at hstep
    · rename_i kept held hcached
      cases hstep
      have hkept : (world.held.cached hold valid dir).1 = some kept := by rw [hcached]
      have hheld : (world.held.cached hold valid dir).2 = held := by rw [hcached]
      obtain ⟨hsame, hhold', hvalid, hentry⟩ := HeldTargets.cached_eq_some hkept
      rw [hheld] at hinv hhold
      obtain ⟨hduring, hserver⟩ := h.kept dir kept hentry
      have hsameHold : kept.during = hold := Option.some.inj (hduring.symm.trans hhold')
      have hstanding := standing_of_mayFind hmay hvalid
      refine ⟨hinv.guards, hinv.bare, hinv.taken, hinv.kept, hinv.lookups, fun lookup hmem => ?_, hinv.creations,
        hinv.remaining, hinv.made, hinv.apart, hinv.known, fun answer hmem => ?_⟩
      · rcases mem_cons.mp hmem with rfl | hmem
        · exact current_now hhold fun _ _ => trivial
        · exact hinv.answered lookup hmem
      rcases mem_cons.mp hmem with rfl | hmem
      · exact ⟨hsameHold, hserver (hsameHold ▸ hstanding)⟩
      · exact h.answers answer hmem
    rename_i held hcached
    cases hstep
    have hheld : (world.held.cached hold valid dir).2 = held := by rw [hcached]
    rw [hheld] at hinv hhold
    refine ⟨hinv.guards, hinv.bare, hinv.taken, hinv.kept, fun lookup hmem => ?_, hinv.answered, hinv.creations,
      hinv.remaining, hinv.made, hinv.apart, hinv.known, h.answers⟩
    rcases mem_cons.mp hmem with rfl | hmem
    · exact current_now hhold fun _ _ _ hread => nomatch hread
    · exact hinv.lookups lookup hmem
  · exact nomatch hstep

theorem Inv.read {n : Nat} (hstep : world.step (.read n) = some after) : after.Inv := by
  dsimp only [World.step] at hstep
  split at hstep
  · rename_i lookup hlookup
    split at hstep
    · cases hstep
      refine ⟨h.guards, h.bare, h.taken, h.kept, fun other hmem => ?_, h.answered, h.creations, h.remaining, h.made, h.apart,
        h.known, h.answers⟩
      rcases mem_or_eq_of_mem_set hmem with hmem | rfl
      · exact h.lookups other hmem
      have hbefore := h.lookups lookup (mem_of_getElem? hlookup)
      exact hbefore.keep rfl rfl fun _ _ hguards hstanding => ⟨hguards, hstanding, fun _ _ hread => hread⟩
    · exact nomatch hstep
  · exact nomatch hstep

theorem Inv.fail (n : Nat) :
    ({ world with lookups := world.lookups.eraseIdx n } : World τ).Inv :=
  ⟨h.guards, h.bare, h.taken, h.kept, fun lookup hmem => h.lookups lookup (mem_of_mem_eraseIdx hmem), h.answered,
    h.creations, h.remaining, h.made, h.apart, h.known, h.answers⟩

theorem Inv.keepStep {n : Nat} {valid : Bool} (hcareful : world.Careful (.keep n valid))
    (hstep : world.step (.keep n valid) = some after) : after.Inv := by
  dsimp only [World.step] at hstep
  split at hstep
  · rename_i hold dir began targets hlookup
    split at hstep
    · rename_i hmay
      cases hstep
      have hcurrent := h.lookups _ (mem_of_getElem? hlookup)
      have hkept := @Inv.keepIn _ world began hold _ h valid dir targets hmay
        ⟨hold, hcurrent.keep rfl rfl fun _ _ hguards hstanding => ⟨hguards, hstanding, fun hread => hread targets rfl⟩⟩
        (hcareful _ hlookup)
      have hfailed := hkept.fail n
      refine ⟨hfailed.guards, hfailed.bare, hfailed.taken, hfailed.kept, hfailed.lookups, fun lookup hmem => ?_,
        hfailed.creations, hfailed.remaining, hfailed.made, hfailed.apart, hfailed.known, hfailed.answers⟩
      rcases mem_cons.mp hmem with rfl | hmem
      · obtain ⟨hhold, hforgotten⟩ := world.held.keep_hold hold valid dir targets began
        exact hcurrent.keep hforgotten hhold fun _ _ hguards hstanding => ⟨hguards, hstanding, fun _ => trivial⟩
      · exact hfailed.answered lookup hmem
    · exact nomatch hstep
  · exact nomatch hstep

theorem Inv.create {dir : Dir} (hstep : world.step (.create dir) = some after) : after.Inv := by
  dsimp only [World.step] at hstep
  split at hstep
  · exact nomatch hstep
  rename_i hnew
  cases hstep
  have hnone : world.server dir = none := by
    by_contra hsome
    exact hnew (h.known dir (Option.isSome_iff_ne_none.mpr hsome))
  have hother : ∀ {other : Dir} {targets : Finset τ}, world.server other = some targets →
      update world.server dir (some ∅) other = some targets := by
    intro other targets hserver
    have hne : other ≠ dir := by
      rintro rfl
      exact nomatch hnone.symm.trans hserver
    rw [update_of_ne hne]
    exact hserver
  refine ⟨h.guards, h.bare, h.taken, fun other kept hkept => ?_, fun other hmem => ?_, h.answered,
    fun creation hmem => ?_, fun creation hmem => ?_, fun other hmem => ?_, ?_, fun other hsome => ?_, h.answers⟩
  · obtain ⟨hhold, hserver⟩ := h.kept other kept hkept
    exact ⟨hhold, fun hstanding => hother (hserver hstanding)⟩
  · exact (h.lookups other hmem).keep rfl rfl fun _ _ hguards hstanding =>
      ⟨hguards, hstanding, fun hread targets hsome => hother (hread targets hsome)⟩
  · exact (h.creations creation hmem).keep rfl rfl fun _ _ hguards hstanding =>
      ⟨hguards, hstanding, fun ⟨now, hnow, hjoined⟩ => ⟨now, hother hnow, hjoined⟩⟩
  · exact ⟨(h.remaining creation hmem).1, mem_cons_of_mem _ (h.remaining creation hmem).2⟩
  · rcases mem_cons.mp hmem with rfl | hmem
    · exact mem_cons_self
    · exact mem_cons_of_mem _ (h.made other hmem)
  · refine nodup_cons.mpr ⟨fun hmem => hnew ?_, h.apart⟩
    rcases mem_append.mp hmem with hmade | hcreated
    · exact h.made dir hmade
    obtain ⟨creation, hcreation, rfl⟩ := mem_map.mp hcreated
    exact (h.remaining creation hcreation).2
  by_cases hsame : other = dir
  · exact mem_cons.mpr (Or.inl hsame)
  refine mem_cons_of_mem _ (h.known other ?_)
  change (update world.server dir (some ∅) other).isSome at hsome
  rwa [update_of_ne hsame] at hsome

theorem Inv.follow {dir : Dir} {n : Nat} (hcareful : world.Careful (.follow dir n))
    (hstep : world.step (.follow dir n) = some after) : after.Inv := by
  dsimp only [World.step] at hstep
  split at hstep
  · rename_i lookup hlookup
    split at hstep
    · rename_i hmade
      cases hstep
      refine ⟨h.guards, h.bare, h.taken, h.kept, h.lookups, h.answered, fun creation hmem => ?_,
        fun creation hmem => ?_, fun other hmem => h.made other (mem_of_mem_erase hmem), ?_, h.known, h.answers⟩
      · rcases mem_cons.mp hmem with rfl | hmem
        · refine (h.answered lookup (mem_of_getElem? hlookup)).keep rfl rfl fun _ hbegan hguards hstanding =>
            ⟨hguards, hstanding, fun _ => ?_⟩
          obtain ⟨now, hnow, hsubset⟩ := hcareful lookup hlookup hbegan
          refine ⟨now, hnow, ?_, hsubset⟩
          rw [Finset.sdiff_self]
          exact Finset.empty_subset now
        · exact h.creations creation hmem
      · rcases mem_cons.mp hmem with rfl | hmem
        · exact ⟨Finset.Subset.refl _, h.made dir hmade⟩
        · exact h.remaining creation hmem
      refine (Perm.nodup_iff ?_).mp h.apart
      exact ((perm_cons_erase hmade).append_right _).trans perm_middle.symm
    · exact nomatch hstep
  · exact nomatch hstep

end

omit [DecidableEq τ] in
theorem mem_set_creation {creations : List (Creation τ)} {n : Nat} {creation moved other : Creation τ}
    (hn : creations[n]? = some creation) (hdir : moved.dir = creation.dir)
    (hapart : (creations.map dir).Nodup) :
    (creations.set n moved).map dir = creations.map dir ∧
      (other ∈ creations.set n moved → other = moved ∨ (other ∈ creations ∧ other.dir ≠ creation.dir)) := by
  obtain ⟨hlt, hat⟩ := List.getElem?_eq_some_iff.mp hn
  refine ⟨?_, fun hmem => ?_⟩
  · have hmapped : n < (creations.map dir).length := by
      rw [length_map]
      exact hlt
    have hsame : (creations.map dir)[n] = moved.dir := by
      rw [getElem_map, hat, hdir]
    rw [map_set, ← hsame]
    exact set_getElem_self hmapped
  obtain ⟨m, hm⟩ := mem_iff_getElem?.mp hmem
  by_cases hmn : n = m
  · rw [← hmn, getElem?_set_self hlt] at hm
    exact Or.inl (Option.some.inj hm).symm
  rw [getElem?_set_ne hmn] at hm
  refine Or.inr ⟨mem_of_getElem? hm, fun hsame => hmn ?_⟩
  have hmapped : n < (creations.map dir).length := by
    rw [length_map]
    exact hlt
  refine (getElem?_inj hmapped hapart).mp ?_
  rw [getElem?_map, getElem?_map, hn, hm, Option.map_some, Option.map_some, hsame]

theorem Inv.join (h : world.Inv) {n : Nat} {target : τ} (hcareful : world.Careful (.join n target))
    (hstep : world.step (.join n target) = some after) : after.Inv := by
  dsimp only [World.step] at hstep
  split at hstep
  · rename_i creation hcreation
    split at hstep
    · rename_i htarget
      cases hstep
      obtain ⟨hentry, hlookups⟩ := hcareful creation hcreation
      have hmem := mem_of_getElem? hcreation
      have happart := (nodup_append.mp h.apart).2.1
      have hother : ∀ {other : Dir}, other ≠ creation.dir → update world.server creation.dir
          ((world.server creation.dir).map (insert target)) other = world.server other :=
        fun hne => update_of_ne hne _ _
      obtain ⟨hdirs, -⟩ := @mem_set_creation _ world.creations n creation
        { creation with remaining := creation.remaining.erase target } creation hcreation rfl happart
      have hset := fun other => (@mem_set_creation _ world.creations n creation
        { creation with remaining := creation.remaining.erase target } other hcreation rfl happart).2
      refine ⟨h.guards, h.bare, h.taken, fun other kept hkept => ?_, fun lookup hlookup => ?_, h.answered,
        fun other hmoved => ?_, fun other hmoved => ?_, fun other hmade => mem_cons_of_mem _ (h.made other hmade), ?_,
        fun other hsome => ?_, h.answers⟩
      · obtain ⟨hhold, hserver⟩ := h.kept other kept hkept
        have hne : other ≠ creation.dir := by
          rintro rfl
          exact nomatch hentry.symm.trans hkept
        exact ⟨hhold, fun hstanding => (hother hne).trans (hserver hstanding)⟩
      · refine (h.lookups lookup hlookup).keep rfl rfl fun _ hbegan hguards hstanding =>
          ⟨hguards, hstanding, fun hread targets hsome => ?_⟩
        have hne : lookup.dir ≠ creation.dir := by
          intro hsame
          have hstale := hlookups lookup hlookup hsame
          unfold fresh at hstale
          rw [hsome, decide_eq_true hbegan] at hstale
          exact nomatch hstale
        exact (hother hne).trans (hread targets hsome)
      · rcases hset other hmoved with rfl | ⟨hbefore, hne⟩
        · refine (h.creations creation hmem).keep rfl rfl fun _ _ hguards hstanding =>
            ⟨hguards, hstanding, fun hserver => ?_⟩
          obtain ⟨now, hnow, hadded, hsubset⟩ := hserver
          refine ⟨insert target now, ?_, ?_, ?_⟩
          · change update world.server creation.dir _ creation.dir = some (insert target now)
            rw [update_self, hnow, Option.map_some]
          · change creation.lookup.targets \ creation.remaining.erase target ⊆ insert target now
            rw [Finset.sdiff_erase ((h.remaining creation hmem).1 htarget)]
            exact Finset.insert_subset_insert target hadded
          · exact Finset.insert_subset ((h.remaining creation hmem).1 htarget) hsubset
        exact (h.creations other hbefore).keep rfl rfl fun _ _ hguards hstanding =>
          ⟨hguards, hstanding, fun ⟨now, hnow, hjoined⟩ => ⟨now, (hother hne).trans hnow, hjoined⟩⟩
      · rcases hset other hmoved with rfl | ⟨hbefore, -⟩
        · exact ⟨(Finset.erase_subset _ _).trans (h.remaining creation hmem).1, mem_cons_self⟩
        · exact ⟨(h.remaining other hbefore).1, mem_cons_of_mem _ (h.remaining other hbefore).2⟩
      · change (world.made ++ (world.creations.set n _).map dir).Nodup
        rw [hdirs]
        exact h.apart
      by_cases hsame : other = creation.dir
      · exact mem_cons.mpr (Or.inl hsame)
      refine mem_cons_of_mem _ (h.known other ?_)
      change (update world.server creation.dir _ other).isSome at hsome
      rwa [update_of_ne hsame] at hsome
    · exact nomatch hstep
  · exact nomatch hstep

theorem Inv.inherit (h : world.Inv) {n : Nat} {valid : Bool} (hcareful : world.Careful (.inherit n hold valid))
    (hstep : world.step (.inherit n hold valid) = some after) : after.Inv := by
  dsimp only [World.step] at hstep
  split at hstep
  · rename_i creation hcreation
    split at hstep
    · rename_i hmay
      cases hstep
      refine h.keepIn hmay.2 ⟨creation.lookup.hold, ?_⟩ (hcareful creation hcreation)
      refine (h.creations creation (mem_of_getElem? hcreation)).keep rfl rfl fun _ _ hguards hstanding =>
        ⟨hguards, hstanding, fun hserver => ?_⟩
      obtain ⟨now, hnow, hadded, hsubset⟩ := hserver
      rw [hmay.1, Finset.sdiff_empty] at hadded
      rw [hnow, Finset.Subset.antisymm hsubset hadded]
    · exact nomatch hstep
  · exact nomatch hstep

theorem Inv.step (h : world.Inv) {move : Move τ} (hcareful : world.Careful move)
    (hstep : world.step move = some after) : after.Inv := by
  cases move with
  | acquire =>
    cases hstep
    exact h.acquire
  | lose hold =>
    cases hstep
    exact h.lose hold
  | other dir targets =>
    dsimp only [World.step] at hstep
    split at hstep
    · exact nomatch hstep
    rename_i hnone
    cases hstep
    exact h.change dir targets fun hold hhold _ hstanding =>
      hnone ⟨hold, mem_range.mpr (h.taken hold hhold), hstanding⟩
  | beginChange =>
    cases hstep
    exact h.forgot (Nat.lt_succ_self _) (fun _ => rfl) (congrArg (· + 1) h.guards) h.taken
  | own dir targets =>
    dsimp only [World.step] at hstep
    split at hstep
    · exact nomatch hstep
    rename_i hguards
    cases hstep
    exact h.change dir targets fun _ _ hnone _ => hguards hnone
  | endChange =>
    dsimp only [World.step] at hstep
    split at hstep
    · exact nomatch hstep
    cases hstep
    exact h.forgot (Nat.lt_succ_self _) (fun _ => rfl) (congrArg (· - 1) h.guards) h.taken
  | look hold valid dir => exact h.look hstep
  | read n => exact h.read hstep
  | fail n =>
    cases hstep
    exact h.fail n
  | keep n valid => exact h.keepStep hcareful hstep
  | forget =>
    cases hstep
    exact h.forgot (Nat.lt_succ_self _) (fun _ => rfl) h.guards h.taken
  | create dir => exact h.create hstep
  | follow dir n => exact h.follow hcareful hstep
  | join n target => exact h.join hcareful hstep
  | inherit n hold valid => exact h.inherit hcareful hstep

/-- A share this client makes of the new directory, before its parent is looked up, is left out of
what it inherits. -/
example : (machine.run [.other 1 (some {7}), .acquire, .create 2, .beginChange, .own 2 (some {8}), .endChange,
    .look 0 true 1, .read 0, .keep 0 true, .follow 2 0, .join 0 7, .inherit 0 0 true, .look 0 true 2]
    (World.new : World Nat)).map World.answers = some [⟨0, ⟨{7}, 0⟩, some {7, 8}⟩] := by decide +kernel

end World

end SyncEngine.Connect
