import SyncEngine.Collections.Folds
import SyncEngine.Plan.Moves

/-! # The join reads the same with and without its indexes

Which side an index is keyed from, and whether it is filled at all, changes no
move: a key a source looks up holds the targets that carry it, met in walk
order. What is left is a fold of two steps, one per half of the join, and the
rest of the development reasons about that fold.
-/

namespace SyncEngine

open Collections MoveIndexes List SyncAction

theorem foldl_last {α κ : Type} [DecidableEq κ] (keyOf : α → Option κ) (path : α → Path)
    (ts : List α) (k : κ) (v : Option Path) :
    ((ts.filterMap fun t => (keyOf t).map fun q =>
        ((q, fun _ => some (path t)) : κ × (Option Path → Option Path))).filter
      fun t => t.1 = k).foldl (fun v t => t.2 v) v =
      ((ts.filter fun t => keyOf t = some k).map path).getLast?.or v := by
  induction ts generalizing v with
  | nil => rfl
  | cons t ts ih =>
    cases hk : keyOf t with
    | none => simp [hk, ih]
    | some q =>
      by_cases hq : q = k
      · subst hq
        simp [hk, ih, getLast?_cons]
      · simp [hk, hq, ih]

theorem foldl_collect {α κ : Type} [DecidableEq κ] (keyOf : α → Option κ) (path : α → Path)
    (ts : List α) (k : κ) (v : List Path) :
    ((ts.filterMap fun t => (keyOf t).map fun q =>
        ((q, fun held => held ++ [path t]) : κ × (List Path → List Path))).filter
      fun t => t.1 = k).foldl (fun v t => t.2 v) v =
      v ++ (ts.filter fun t => keyOf t = some k).map path := by
  induction ts generalizing v with
  | nil => simp
  | cons t ts ih =>
    cases hk : keyOf t with
    | none => simp [hk, ih]
    | some q =>
      by_cases hq : q = k
      · subst hq
        simp [hk, ih]
      · simp [hk, hq, ih]

namespace MoveTargets

variable {κ ν : Type} [DecidableEq κ] [Inhabited ν]

omit [Inhabited ν] in
theorem wantsTargets_of_keeps {m : MoveTargets κ ν} {key : κ} (h : m.Keeps key) :
    m.wantsTargets := by
  unfold wantsTargets
  rcases h with hb | hin
  · simp [hb]
  have hmem : key ∈ m.slots.keys := hin
  cases hk : m.slots.keys with
  | nil => simp [hk] at hmem
  | cons k ks => simp

/-- What a wanted key holds once the targets have been walked, in a join that
skips the walk only where no source asked for anything. -/
theorem asked_held {wanted : List κ} {key : κ} {walk : List (κ × (ν → ν))} {filled : Bool}
    (hkey : walk.length ≠ 0 → key ∈ wanted)
    (hfilled : (wanted.foldl want (new walk.length : MoveTargets κ ν)).wantsTargets →
      filled) :
    (if filled then (wanted.foldl want (new walk.length)).fill walk
      else wanted.foldl want (new walk.length)).held key =
      (walk.filter fun t => t.1 = key).foldl (fun v t => t.2 v) default := by
  by_cases hwalk : walk.length = 0
  · have hnil : walk = [] := length_eq_zero_iff.mp hwalk
    subst hnil
    have hasked := asked_foldl (asked_new (ν := ν) ([] : List (κ × (ν → ν))).length) wanted
    rcases hasked with ⟨-, all, hall, -⟩
    cases filled <;> exact hall.empty key
  have hmem := hkey hwalk
  have hasked := asked_foldl (asked_new (ν := ν) walk.length) wanted
  rcases hasked with ⟨htargets, all, hall, hsub⟩
  have ht : (wanted.foldl want (new walk.length : MoveTargets κ ν)).targets ≠ 0 := by
    rw [htargets]
    exact hwalk
  have hkeeps := hall.keeps ht key (hsub key (Or.inl hmem))
  rw [hfilled (wantsTargets_of_keeps hkeeps)]
  exact build_held walk hmem

end MoveTargets

/-! ## Steps that do nothing -/

theorem pullMove_none (s : MoveSides) (consumed : Path → Bool) (base : BaselineEntry) :
    pullMove s consumed base none = ([], none) := by
  unfold pullMove
  dsimp only
  split
  · rfl
  · split <;> rfl

variable {base : BaselineEntry} {consumed : Path → Bool} {candidates : Blake3Hash → Option (List Path)}
variable {s : MoveSides}

theorem pullStep_of_target_none {target : BaselineEntry → Uuid → Option (Path × Bool)}
    (h : ∀ uuid, s.pullUuid base = some uuid → target base uuid = none) (state : JoinState) :
    pullStep s target state base = state := by
  unfold pullStep
  cases hu : s.pullUuid base with
  | none => rfl
  | some uuid =>
    simp only [h uuid hu, pullMove_none]
    simp [JoinState.took]

theorem pushMove_of_empty (h : ∀ hash, base.contentHash = some hash → (candidates hash).getD [] = []) :
    pushMove s consumed base candidates = ([], none) := by
  unfold pushMove
  dsimp only
  split
  · rfl
  split
  · rename_i hash uuid hhash huuid
    have hempty := h hash hhash
    cases hc : candidates hash with
    | none => rfl
    | some held =>
      have hnil : held = [] := by simpa [hc] using hempty
      simp [hnil]
  · rfl

theorem pushMove_congr {c d : Blake3Hash → Option (List Path)}
    (h : ∀ hash, base.contentHash = some hash → (c hash).getD [] = (d hash).getD []) :
    pushMove s consumed base c = pushMove s consumed base d := by
  unfold pushMove
  dsimp only
  split
  · rfl
  split
  · rename_i hash uuid hhash huuid
    have hsame := h hash hhash
    cases hc : c hash with
    | none =>
      cases hd : d hash with
      | none => rfl
      | some held =>
        have hnil : held = [] := by simpa [hc, hd] using hsame.symm
        simp [hnil]
    | some held =>
      cases hd : d hash with
      | none =>
        have hnil : held = [] := by simpa [hc, hd] using hsame
        simp [hnil]
      | some other =>
        have heq : held = other := by simpa [hc, hd] using hsame
        rw [heq]
  · rfl

theorem contentHash_of_pushHash {hash : Blake3Hash}
    (h : s.pushHash base = some hash) : base.contentHash = some hash := by
  unfold MoveSides.pushHash pushSource at h
  split at h
  · cases h
  split at h
  · rename_i hh uu hhash huuid
    split at h
    · rw [hhash, ← Option.some.inj h]
    · cases h
  · cases h

theorem pushStep_of_empty (h : ∀ hash, base.contentHash = some hash → (candidates hash).getD [] = [])
    (state : JoinState) : pushStep s candidates state base = state := by
  unfold pushStep
  rw [pushMove_of_empty h]
  simp [JoinState.took]

/-! ## The indexes hold what the walks find -/

section Indexes

variable (s : MoveSides) (sources : List BaselineEntry)
  (localTargets : List (Path × LocalNode)) (remoteTargets : List (Path × RemoteNode))

/-- The indexes of a join once they are filled. -/
abbrev filledIndexes : MoveIndexes :=
  (ask s sources localTargets remoteTargets).fill s localTargets remoteTargets

theorem get_join_eq_held {κ : Type} [DecidableEq κ] (m : MoveTargets κ (Option Path)) (key : κ) :
    (m.get key).join = m.held key := by
  unfold MoveTargets.held
  cases m.get key <;> rfl

variable {s sources}

variable {base : BaselineEntry} {uuid : Uuid}

section

variable (hbase : base ∈ sources)
include hbase

theorem uuid_held (huuid : s.pullUuid base = some uuid) :
    (filledIndexes s sources localTargets remoteTargets).pathOfUuid.held uuid =
      uuidTarget remoteTargets uuid := by
  have hkey : (uuidWalk remoteTargets).length ≠ 0 →
      uuid ∈ (if 0 < (uuidWalk remoteTargets).length then sources else []).filterMap s.pullUuid := by
    intro hwalk
    rw [if_pos (Nat.pos_of_ne_zero hwalk)]
    exact mem_filterMap.mpr ⟨base, hbase, huuid⟩
  have hfilled : (ask s sources localTargets remoteTargets).pathOfUuid.wantsTargets
      → (ask s sources localTargets remoteTargets).pullTargets := by
    intro h
    simp [pullTargets, h]
  have hheld := MoveTargets.asked_held hkey hfilled
  have hlast := foldl_last (fun t : Path × RemoteNode => t.2.fileUuid) Prod.fst remoteTargets uuid
    none
  rw [Option.or_none] at hlast
  exact hheld.trans hlast

theorem lineage_held {lineage : StableUuid} (huuid : s.pullUuid base = some uuid)
    (hlineage : base.remoteStableUuid = some lineage) :
    (filledIndexes s sources localTargets remoteTargets).pathOfLineage.held lineage =
      lineageTarget remoteTargets lineage := by
  have hkey : (lineageWalk remoteTargets).length ≠ 0 →
      lineage ∈ (if 0 < (uuidWalk remoteTargets).length then sources else []).filterMap
        fun base => (s.pullUuid base).bind fun _ => base.remoteStableUuid := by
    intro hwalk
    have hpos : 0 < (uuidWalk remoteTargets).length := by
      -- a remote file met by its lineage is met by its version id as well
      cases hl : lineageWalk remoteTargets with
      | nil => simp [hl] at hwalk
      | cons e rest =>
        have hmem : e ∈ lineageWalk remoteTargets := by simp [hl]
        rcases mem_filterMap.mp hmem with ⟨t, ht, hte⟩
        have hfile : t.2.kind = .file := by
          by_contra hk
          simp [RemoteNode.fileLineage, hk] at hte
        refine length_pos_of_mem (a := (t.2.remoteUuid, fun _ => some t.1)) ?_
        exact mem_filterMap.mpr ⟨t, ht, by simp [RemoteNode.fileUuid, hfile]⟩
    rw [if_pos hpos]
    exact mem_filterMap.mpr ⟨base, hbase, by simp [huuid, hlineage]⟩
  have hfilled : (ask s sources localTargets remoteTargets).pathOfLineage.wantsTargets
      → (ask s sources localTargets remoteTargets).pullTargets := by
    intro h
    simp [pullTargets, h]
  have hheld := MoveTargets.asked_held hkey hfilled
  have hlast := foldl_last (fun t : Path × RemoteNode => t.2.fileLineage) Prod.fst remoteTargets
    lineage none
  rw [Option.or_none] at hlast
  exact hheld.trans hlast

theorem hash_held {hash : Blake3Hash} (hhash : s.pushHash base = some hash) :
    (filledIndexes s sources localTargets remoteTargets).createdByHash.held hash =
      hashTargets s localTargets hash := by
  have hkey : (createdWalk s localTargets).length ≠ 0 →
      hash ∈ (if 0 < (createdWalk s localTargets).length then sources else []).filterMap
        s.pushHash := by
    intro hwalk
    rw [if_pos (Nat.pos_of_ne_zero hwalk)]
    exact mem_filterMap.mpr ⟨base, hbase, hhash⟩
  have hheld := MoveTargets.asked_held hkey fun h => h
  have hcollect := foldl_collect (fun t : Path × LocalNode => s.created t.1 t.2) Prod.fst
    localTargets hash []
  rw [nil_append] at hcollect
  exact hheld.trans hcollect

theorem filled_target (huuid : s.pullUuid base = some uuid) :
    (filledIndexes s sources localTargets remoteTargets).target base uuid =
      pullTarget remoteTargets base uuid := by
  unfold MoveIndexes.target pullTarget
  rw [get_join_eq_held, uuid_held localTargets remoteTargets hbase huuid]
  cases uuidTarget remoteTargets uuid with
  | some dst => rfl
  | none =>
    cases hl : base.remoteStableUuid with
    | none => rfl
    | some lineage =>
      simp only [Option.bind_some, get_join_eq_held]
      rw [lineage_held localTargets remoteTargets hbase huuid hl]

theorem pullTarget_none (huuid : s.pullUuid base = some uuid)
    (hnone : ∀ key, (filledIndexes s sources localTargets remoteTargets).pathOfUuid.held key = none) (hlineage : ∀ key,
      (filledIndexes s sources localTargets remoteTargets).pathOfLineage.held key = none) :
    pullTarget remoteTargets base uuid = none := by
  rw [← filled_target localTargets remoteTargets hbase huuid]
  unfold MoveIndexes.target
  rw [get_join_eq_held, hnone]
  cases base.remoteStableUuid with
  | none => rfl
  | some lineage => simp [get_join_eq_held, hlineage]

/-- A source that finds a slot reads the candidates of its content there; one
that finds none has no candidates. -/
theorem filled_pushStep (state : JoinState) :
    (if (filledIndexes s sources localTargets remoteTargets).localSource s base then
      pushStep s (filledIndexes s sources localTargets remoteTargets).createdByHash.get state base
      else state) =
      if (s.pushHash base).isSome then
        pushStep s (fun hash => some (hashTargets s localTargets hash)) state base else state := by
  cases hhash : s.pushHash base with
  | none => simp [localSource, hhash]
  | some hash =>
    have hheld := hash_held localTargets remoteTargets hbase hhash
    have hsame : ∀ h, base.contentHash = some h →
        ((filledIndexes s sources localTargets remoteTargets).createdByHash.get h).getD [] =
          (some (hashTargets s localTargets h)).getD [] := by
      intro h hh
      have heq : hash = h := by
        rw [contentHash_of_pushHash hhash] at hh
        exact Option.some.inj hh
      subst heq
      exact hheld
    have hsource : (filledIndexes s sources localTargets remoteTargets).localSource s base =
        !(hashTargets s localTargets hash).isEmpty := by
      rw [← hheld]
      unfold MoveIndexes.localSource MoveTargets.held
      rw [hhash, Option.bind_some]
      cases (filledIndexes s sources localTargets remoteTargets).createdByHash.get hash <;> rfl
    rw [hsource]
    cases hempty : hashTargets s localTargets hash with
    | nil =>
      have hnone : ∀ h, base.contentHash = some h →
          (some (hashTargets s localTargets h)).getD [] = [] := by
        intro h hh
        have heq : hash = h := by
          rw [contentHash_of_pushHash hhash] at hh
          exact Option.some.inj hh
        subst heq
        exact hempty
      simp [pushStep_of_empty hnone]
    | cons dst rest =>
      simp only [isEmpty_cons, Bool.not_false, if_true, Option.isSome_some]
      unfold pushStep
      rw [pushMove_congr hsame]

end

end Indexes

/-! ## The join is a fold of two steps -/

theorem detectMoves_eq (s : MoveSides) (paths : PassPaths) (consumed : List Path) :
    detectMoves s paths consumed =
      joinMoves s (visitMoveSources paths s.baseline)
        (if s.mode.pushes then visitMoveTargets paths s.l else [])
        (if s.mode.pulls then visitMoveTargets paths s.r else []) consumed := by
  unfold detectMoves
  generalize visitMoveSources paths s.baseline = sources
  generalize (if s.mode.pushes then visitMoveTargets paths s.l else []) = lt
  generalize (if s.mode.pulls then visitMoveTargets paths s.r else []) = rt
  dsimp only
  -- with no path in an index, neither half of the join does anything
  have hpull : ∀ i : MoveIndexes, i = filledIndexes s sources lt rt →
      (∀ key, i.pathOfUuid.held key = none) → (∀ key, i.pathOfLineage.held key = none) →
      ∀ base ∈ sources, ∀ state, pullStep s (pullTarget rt) state base = state := by
    intro i hi hu hl base hbase state
    subst hi
    exact pullStep_of_target_none (fun uuid huuid => pullTarget_none lt rt hbase huuid hu hl) state
  have hpush : ∀ i : MoveIndexes, i = filledIndexes s sources lt rt →
      (∀ key, i.createdByHash.held key = []) →
      ∀ base ∈ sources.filter fun base => (s.pushHash base).isSome, ∀ state,
        pushStep s (fun hash => some (hashTargets s lt hash)) state base = state := by
    intro i hi hh base hbase state
    subst hi
    have hmem := mem_filter.mp hbase
    refine pushStep_of_empty (fun hash hhash => ?_) state
    rcases Option.isSome_iff_exists.mp hmem.2 with ⟨h, hsome⟩
    have heq : h = hash := by
      have := contentHash_of_pushHash hsome
      rw [this] at hhash
      exact Option.some.inj hhash
    subst heq
    have hheld := hash_held lt rt hmem.1 hsome
    rw [hh] at hheld
    exact hheld.symm
  split
  · -- no source asked for anything
    rename_i hwants
    have hno : (ask s sources lt rt).pullTargets = false ∧
        (ask s sources lt rt).createdByHash.wantsTargets = false := by
      simpa using hwants
    have hno' := Bool.or_eq_false_iff.mp hno.1
    have hu : ∀ key, (filledIndexes s sources lt rt).pathOfUuid.held key = none := by
      intro key
      simp only [filledIndexes, fill, hno.1]
      exact MoveTargets.held_of_not_wantsTargets hno'.1 key
    have hl : ∀ key, (filledIndexes s sources lt rt).pathOfLineage.held key = none := by
      intro key
      simp only [filledIndexes, fill, hno.1]
      exact MoveTargets.held_of_not_wantsTargets hno'.2 key
    have hh : ∀ key, (filledIndexes s sources lt rt).createdByHash.held key = [] := by
      intro key
      simp only [filledIndexes, fill, hno.2]
      exact MoveTargets.held_of_not_wantsTargets hno.2 key
    unfold joinMoves
    rw [foldl_id (hpull _ rfl hu hl), foldl_id (hpush _ rfl hh)]
  have hu : (filledIndexes s sources lt rt).pulls = false →
      ∀ base ∈ sources, ∀ state, pullStep s (pullTarget rt) state base = state := by
    intro h
    have hor := Bool.or_eq_false_iff.mp h
    refine hpull _ rfl (fun key => ?_) (fun key => ?_)
    · simpa using MoveTargets.held_of_any_false hor.1 rfl key
    · simpa using MoveTargets.held_of_any_false hor.2 rfl key
  have hh : (filledIndexes s sources lt rt).pushes = false →
      ∀ base ∈ sources.filter fun base => (s.pushHash base).isSome, ∀ state,
        pushStep s (fun hash => some (hashTargets s lt hash)) state base = state := by
    intro h
    refine hpush _ rfl fun key => ?_
    simpa using MoveTargets.held_of_any_false h rfl key
  split
  · rename_i hnone
    have hboth : (filledIndexes s sources lt rt).pulls = false ∧
        (filledIndexes s sources lt rt).pushes = false := by simpa using hnone
    unfold joinMoves
    rw [foldl_id (hu hboth.1), foldl_id (hh hboth.2)]
  have hpulled : (if (filledIndexes s sources lt rt).pulls then
      sources.foldl (pullStep s (filledIndexes s sources lt rt).target) ([], consumed)
      else ([], consumed)) = sources.foldl (pullStep s (pullTarget rt)) ([], consumed) := by
    by_cases hp : (filledIndexes s sources lt rt).pulls
    · rw [if_pos hp]
      refine foldl_ext _ _ _ fun state base hbase => ?_
      unfold pullStep
      cases huuid : s.pullUuid base with
      | none => rfl
      | some uuid => simp only [filled_target lt rt hbase huuid]
    · rw [if_neg hp, foldl_id (hu (by simpa using hp))]
  unfold joinMoves
  rw [hpulled]
  generalize sources.foldl (pullStep s (pullTarget rt)) ([], consumed) = pulled
  by_cases hp : (filledIndexes s sources lt rt).pushes
  · rw [if_pos hp, foldl_filter, foldl_filter]
    refine foldl_ext _ _ _ fun state base hbase => ?_
    exact filled_pushStep lt rt hbase state
  rw [if_neg hp, foldl_id (hh (by simpa using hp))]
  rfl

end SyncEngine
