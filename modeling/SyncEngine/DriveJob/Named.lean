import SyncEngine.DriveJob.Requests

/-! # The names of a plan's top level

The names a destination is registered with are taken from the start, and requests into
one destination share what is taken there.
-/

namespace SyncEngine.DriveJob

open Collections Function ItemPlanner List

variable {D K : Type}

/-! ## Registered destinations -/

/-- The planners that registrations lead to, with the names each destination holds. -/
inductive Registers (u : Unicode) : (Uuid → Option (List Name)) → ItemPlanner → Prop
  | empty : Registers u (fun _ => none) empty
  | addDestination {existing : Uuid → Option (List Name)} {planner next : ItemPlanner} {uuid : Uuid}
      {names : List Name} : Registers u existing planner →
      planner.addDestination u uuid names = some next →
      Registers u (update existing uuid (some names)) next
  | markUnverified {existing : Uuid → Option (List Name)} {planner : ItemPlanner} {uuid : Uuid} :
      Registers u existing planner → Registers u existing (planner.markUnverified uuid)

section Registers

variable {u : Unicode} {existing : Uuid → Option (List Name)} {planner : ItemPlanner}

theorem Registers.destination (h : Registers u existing planner) (uuid : Uuid) :
    (existing uuid = none ∧ planner.destinations uuid = none) ∨
      ∃ names taken, existing uuid = some names ∧ planner.destinations uuid = some taken ∧
        TakenNames.new u names = some taken := by
  induction h with
  | empty => exact Or.inl ⟨rfl, rfl⟩
  | @addDestination existing planner next other names _ hadd ih =>
    unfold ItemPlanner.addDestination at hadd
    obtain ⟨taken, hnew, rfl⟩ := Option.map_eq_some_iff.mp hadd
    by_cases heq : uuid = other
    · subst heq
      exact Or.inr ⟨names, taken, update_self .., update_self .., hnew⟩
    dsimp only
    rw [update_of_ne heq, update_of_ne heq]
    exact ih
  | markUnverified _ ih => exact ih

end Registers

/-- What holds of the names while requests are planned: each destination's set holds the
names planned there behind the ones it was registered with. -/
structure Named (u : Unicode) (planner : ItemPlanner) (done : Nat)
    (destinations : Uuid → Option TakenNames) (plan : ItemPlan D K) : Prop where
  sets : ∀ uuid taken, destinations uuid = some taken → RunsOk taken ∧
    ∃ first, planner.destinations uuid = some first ∧
      taken.keys.Perm (((plan.namesIn (.existing uuid)).map fun name => u.lower name.text) ++ first.keys)
  kept : ∀ uuid, (planner.destinations uuid).isSome → (destinations uuid).isSome
  planned : ∀ k, ((plan.namesIn (.planned k)).map fun name => u.lower name.text).Nodup
  few : ∀ uuid, (plan.namesIn (.existing uuid)).length ≤ done
  uncounted : ∀ dir ∈ plan.dirs, dir.Uncounted

section Named

variable {u : Unicode} {planner : ItemPlanner} {done : Nat} {destinations : Uuid → Option TakenNames}
  {plan plan' : ItemPlan D K} {taken taken' : TakenNames} {destination : Uuid}

theorem Named.step (h : Named u planner done destinations plan)
    (htaken : destinations destination = some taken) {name : ValidatedName} (hgives : Gives u taken name taken')
    (hperm : (plan'.namesIn (.existing destination)).Perm
      (name :: plan.namesIn (.existing destination))) (hothers : ∀ uuid, uuid ≠ destination →
      plan'.namesIn (.existing uuid) = plan.namesIn (.existing uuid))
    (hplanned : ∀ k, ((plan'.namesIn (.planned k)).map fun name => u.lower name.text).Nodup)
    (huncounted : ∀ dir ∈ plan'.dirs, dir.Uncounted) :
    Named u planner (done + 1) (update destinations destination (some taken')) plan' := by
  refine ⟨fun uuid other hother => ?_, fun uuid hsome => ?_, hplanned, fun uuid => ?_, huncounted⟩
  · by_cases heq : uuid = destination
    · subst heq
      rw [update_self] at hother
      cases hother
      obtain ⟨-, first, hfirst, hkeys⟩ := h.sets uuid taken htaken
      refine ⟨hgives.runs, first, hfirst, ?_⟩
      rw [hgives.keys]
      exact (hkeys.cons _).trans ((hperm.map fun name => u.lower name.text).symm.append_right _)
    rw [update_of_ne heq] at hother
    rw [hothers uuid heq]
    exact h.sets uuid other hother
  · by_cases heq : uuid = destination
    · rw [heq, update_self]
      rfl
    rw [update_of_ne heq]
    exact h.kept uuid hsome
  have hfew := h.few uuid
  by_cases heq : uuid = destination
  · subst heq
    have hlength := hperm.length_eq
    rw [length_cons] at hlength
    omega
  rw [hothers uuid heq]
  omega

theorem Named.skip (h : Named u planner done destinations plan)
    (htaken : destinations destination = some taken) (hdirs : plan'.dirs = plan.dirs)
    (hfiles : plan'.files = plan.files) :
    Named u planner (done + 1) (update destinations destination (some taken)) plan' := by
  have hsame : update destinations destination (some taken) = destinations := by
    rw [← htaken]
    exact update_eq_self destination destinations
  have hnames : ∀ parent, plan'.namesIn parent = plan.namesIn parent := by
    intro parent
    unfold ItemPlan.namesIn
    rw [hdirs, hfiles]
  rw [hsame]
  refine ⟨fun uuid => ?_, h.kept, fun k => ?_, fun uuid => ?_, ?_⟩
  · rw [hnames]
    exact h.sets uuid
  · rw [hnames]
    exact h.planned k
  · rw [hnames]
    exact (h.few uuid).trans (Nat.le_succ _)
  rw [hdirs]
  exact h.uncounted

end Named

/-! ## One request -/

section Request

variable {u : Unicode} {fuel : Nat} {mint : Nat → Uuid} {planner : ItemPlanner}
  {requests : List (PlanRequest D K)} {request : PlanRequest D K}
  {destinations destinations' : Uuid → Option TakenNames} {plan plan' : ItemPlan D K}

theorem planRequest_spec (houtlined : Outlined requests plan)
    (hnamed : Named u planner requests.length destinations plan)
    (h : planRequest u fuel mint (destinations, plan) (request, requests.length) =
      .ok (destinations', plan')) :
    Outlined (requests ++ [request]) plan' ∧
      Named u planner (requests ++ [request]).length destinations' plan' := by
  rw [length_append, length_singleton]
  unfold ItemPlanner.planRequest at h
  dsimp only at h
  cases htaken : destinations request.destination with
  | none =>
    rw [htaken] at h
    cases h
  | some taken =>
    rw [htaken] at h
    obtain ⟨hruns, -⟩ := hnamed.sets _ taken htaken
    cases hsource : request.source with
    | file file =>
      rw [hsource] at h
      dsimp only [bind, Except.bind] at h
      split at h
      · cases h
      rename_i out hfile
      obtain ⟨index, middle, taken'⟩ := out
      cases h
      rcases planFile_spec hruns hfile with
        ⟨hread, -, planned, renamed, rfl, hbare, hgives⟩ | ⟨hread, -, rfl, rfl⟩
      · have hparent : planned.parent = .existing request.destination :=
          congrArg PlannedFile.parent hbare
        have hlast : ∀ file ∈ [planned], file.parent = .existing request.destination := by
          intro file hfile
          rw [mem_singleton.mp hfile, hparent]
        constructor
        · refine houtlined.file hsource [planned] [] rfl rfl (by simp)
            ?_ ?_
          · rw [hread, if_pos rfl, map_singleton, hbare]
          · rw [hread, if_pos rfl]
        refine hnamed.step htaken hgives ?_ (fun uuid hne => ?_) (fun k => ?_) hnamed.uncounted
        · unfold ItemPlan.namesIn
          rw [filter_append, filter_singleton, hparent]
          simp only [decide_true, cond_true, map_append, map_singleton]
          rw [← append_assoc]
          exact perm_append_singleton _ _
        · refine @namesIn_append D K plan _ [] [planned] (by simp) rfl _ _ (by simp) hlast ?_
          exact fun heq => hne (DestParent.existing.inj heq)
        have hsame := @namesIn_append D K plan
          { plan with files := plan.files ++ [planned], renamed } [] [planned] (by simp) rfl
          (.planned k) (.existing request.destination) (by simp) hlast (fun heq => by cases heq)
        change ((ItemPlan.namesIn { plan with files := plan.files ++ [planned], renamed } _).map
          _).Nodup
        rw [hsame]
        exact hnamed.planned k
      constructor
      · refine houtlined.file hsource [] [skippedFile file (pathSegment file.name file.uuid)] rfl (by simp)
          rfl ?_ ?_
        · rw [hread]
          rfl
        rw [hread]
        rfl
      · exact hnamed.skip htaken rfl rfl
    | dir root dirs files =>
      rw [hsource] at h
      dsimp only [bind, Except.bind] at h
      split at h
      · cases h
      rename_i out htree
      obtain ⟨index, middle, taken'⟩ := out
      cases h
      obtain ⟨found, new, newFiles, hplanned⟩ := planTree_spec hruns houtlined.below htree
      refine ⟨houtlined.tree hsource hplanned _, ?_⟩
      obtain ⟨name, hgives, hperm⟩ := hplanned.given
      refine hnamed.step htaken hgives hperm (fun uuid hne => ?_) (fun k => ?_) ?_
      · exact hplanned.others _ (fun heq => hne (DestParent.existing.inj heq))
          fun k heq => by cases heq
      · rcases lt_or_ge k plan.dirs.length with hlt | hge
        · have hsame := hplanned.others (.planned k) (fun heq => by cases heq) fun j heq => by
            have := DestParent.planned.inj heq
            omega
          change ((middle.namesIn _).map _).Nodup
          rw [hsame]
          exact hnamed.planned k
        · exact hplanned.names k hge
      obtain ⟨renamed, rfl⟩ := hplanned.grown
      intro dir hdir
      rcases mem_append.mp hdir with hdir | hdir
      · exact hnamed.uncounted dir hdir
      · exact hplanned.uncounted dir hdir

theorem planRequests_spec {rest : List (PlanRequest D K)} (houtlined : Outlined requests plan)
    (hnamed : Named u planner requests.length destinations plan)
    (h : (rest.zipIdx requests.length).foldlM (planRequest u fuel mint)
      (destinations, plan) = .ok (destinations', plan')) :
    Outlined (requests ++ rest) plan' ∧
      Named u planner (requests ++ rest).length destinations' plan' := by
  induction rest generalizing requests destinations plan with
  | nil =>
    cases h
    rw [append_nil]
    exact ⟨houtlined, hnamed⟩
  | cons request rest ih =>
    rw [zipIdx_cons, foldlM_cons] at h
    dsimp only [bind, Except.bind] at h
    split at h
    · cases h
    rename_i state hone
    obtain ⟨destinations₁, plan₁⟩ := state
    obtain ⟨houtlined₁, hnamed₁⟩ := planRequest_spec houtlined hnamed hone
    have hlength : requests.length + 1 = (requests ++ [request]).length := by simp
    rw [hlength] at h
    have hrest := ih houtlined₁ hnamed₁ h
    rwa [append_assoc, singleton_append] at hrest

end Request

end SyncEngine.DriveJob
