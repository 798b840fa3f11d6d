import SyncEngine.Plan.Deletions

/-! # The ends of the join's moves

A pass that flows one way runs one half of the join. Each of its moves takes an
item from where its side holds it to where that side holds nothing, no path is
an end of two, and which rows a pull follows to a new path can be read off the
inputs.
-/

namespace SyncEngine

open Collections List SyncAction

def moveEnds (a : SyncAction) : List Path :=
  if a.isMove then [a.endpoints.1, a.endpoints.2] else []

/-- A move of the join, as it stands against the side it moves on. -/
inductive Moves (s : MoveSides) : SyncAction → Prop where
  | remote (src dst : Path) (uuid : Uuid) (hsrc : s.r.holds src = true)
      (hgone : s.l.holds src = false) (hdst : s.r.holds dst = false) :
      Moves s (moveRemote src dst .file uuid)
  | local (src dst : Path) (hsrc : s.l.holds src = true) (hdst : s.l.holds dst = false) :
      Moves s (moveLocal src dst .file)

/-- What holds of a one-way join at every point of its run: the paths taken are
the withheld ones and the ends of its moves, no path an end of two. -/
structure JoinEnds (s : MoveSides) (withheld : List Path) (state : JoinState) : Prop where
  moves : ∀ a ∈ state.1, a.isMove = true → Moves s a
  nodup : (state.1.flatMap moveEnds).Nodup
  taken : ∀ p, p ∈ state.2 ↔ p ∈ withheld ∨ p ∈ state.1.flatMap moveEnds

namespace JoinEnds

variable {s : MoveSides} {withheld : List Path} {state : JoinState}

theorem start (s : MoveSides) (withheld : List Path) : JoinEnds s withheld ([], withheld) where
  moves := by simp
  nodup := by simp
  taken := by simp

theorem extend_still (h : JoinEnds s withheld state) {more : List SyncAction}
    (hmore : ∀ a ∈ more, a.isMove = false) : JoinEnds s withheld (state.1 ++ more, state.2) := by
  have hnil : more.flatMap moveEnds = [] := by
    refine flatMap_eq_nil_iff.mpr fun a ha => ?_
    unfold moveEnds
    rw [hmore a ha]
    rfl
  have hends : (state.1 ++ more).flatMap moveEnds = state.1.flatMap moveEnds := by
    rw [flatMap_append, hnil, append_nil]
  refine ⟨?_, ?_, ?_⟩
  · intro a ha hmove
    rcases mem_append.mp ha with hold | hnew
    · exact h.moves a hold hmove
    rw [hmore a hnew] at hmove
    cases hmove
  · rw [hends]
    exact h.nodup
  rw [hends]
  exact h.taken

theorem extend_move (h : JoinEnds s withheld state) {a : SyncAction} (hmove : a.isMove)
    (hmoves : Moves s a) (hsrc : a.endpoints.1 ∉ state.2) (hdst : a.endpoints.2 ∉ state.2)
    (hne : a.endpoints.1 ≠ a.endpoints.2) :
    JoinEnds s withheld (state.1 ++ [a], a.endpoints.2 :: a.endpoints.1 :: state.2) := by
  have hends : (state.1 ++ [a]).flatMap moveEnds =
      state.1.flatMap moveEnds ++ [a.endpoints.1, a.endpoints.2] := by
    rw [flatMap_append]
    simp [moveEnds, hmove]
  refine ⟨?_, ?_, ?_⟩
  · intro x hx hxm
    rcases mem_append.mp hx with hold | hnew
    · exact h.moves x hold hxm
    have heq : x = a := by simpa using hnew
    exact heq ▸ hmoves
  · rw [hends, nodup_append]
    refine ⟨h.nodup, by simp [hne], ?_⟩
    intro p hp q hq heq
    have hin := (h.taken p).mpr (Or.inr hp)
    have hq' : q = a.endpoints.1 ∨ q = a.endpoints.2 := by simpa using hq
    rcases hq' with rfl | rfl
    · exact hsrc (heq ▸ hin)
    · exact hdst (heq ▸ hin)
  intro p
  rw [hends]
  simp only [mem_cons, mem_append, not_mem_nil, or_false, h.taken p]
  tauto

end JoinEnds

variable {s : MoveSides}

theorem JoinEnds.pushStep {withheld : List Path} {state : JoinState}
    (h : JoinEnds s withheld state) {targets : List (Path × LocalNode)} {base : BaselineEntry}
    (hbase : s.baseline.get base.relPath = some base) (hsource : (s.pushHash base).isSome) :
    JoinEnds s withheld (pushStep s (fun hash => some (hashTargets s targets hash)) state base) := by
  rcases pushStep_cases s (fun hash => some (hashTargets s targets hash)) state base with
    hsame | ⟨dst, hash, uuid, held, -, -, hheld, hdst, hsrc, hfree, hvacant, heq⟩
  · rw [hsame]
    exact h
  rw [heq]
  have hrow : s.baseline.containsKey dst = false := by
    rw [← Option.some.inj hheld] at hdst
    exact containsKey_hashTargets hdst
  have hne : base.relPath ≠ dst := by
    rintro rfl
    have hkey := Baseline.containsKey_iff.mpr ⟨base, hbase⟩
    rw [hrow] at hkey
    cases hkey
  have hat : s.r.holds base.relPath ∧ s.l.holds base.relPath = false := by
    unfold MoveSides.pushHash pushSource at hsource
    split at hsource
    · cases hsource
    rename_i hkind
    simp only [not_or] at hkind
    split at hsource
    · split at hsource
      · rename_i hnode
        obtain ⟨node, hnode, -⟩ := Option.map_eq_some_iff.mp hnode
        exact ⟨Nodes.holds_iff.mpr ⟨node, hnode⟩, by simpa using hkind.2.2⟩
      · cases hsource
    · cases hsource
  exact h.extend_move rfl (.remote base.relPath dst uuid hat.1 hat.2 hvacant) hsrc hfree hne

theorem pullTarget_nil (base : BaselineEntry) (uuid : Uuid) : pullTarget [] base uuid = none := by
  cases hl : base.remoteStableUuid <;> simp [pullTarget, uuidTarget, lineageTarget, hl]

/-- The row's rename is the one a pull carries out to `dst`: both ends are free,
and no row before it goes there. -/
structure Followed (free : Path → Prop) (s : MoveSides) (sources : List BaselineEntry)
    (targets : List (Path × RemoteNode)) (row : BaselineEntry) (dst : Path) : Prop where
  renames : Renames s targets row dst
  srcFree : free row.relPath
  dstFree : free dst
  first : ∀ other ∈ sources, other.relPath < row.relPath → free other.relPath →
    ¬ Renames s targets other dst

/-- A point of a pull's run, with the rows it has been through. -/
structure Pulled (s : MoveSides) (withheld : List Path) (sources : List BaselineEntry)
    (targets : List (Path × RemoteNode)) (seen : List BaselineEntry) (state : JoinState) : Prop where
  ends : JoinEnds s withheld state
  actions : ∀ a ∈ state.1,
    (∃ row ∈ seen, ∃ dst, Followed (· ∉ withheld) s sources targets row dst ∧
      a = moveLocal row.relPath dst .file) ∨ ∃ p u, a = downloadFile p u
  followed : ∀ row ∈ seen, ∀ dst, Followed (· ∉ withheld) s sources targets row dst →
    row.relPath ∈ state.2
  reached : ∀ row ∈ seen, row.relPath ∉ withheld → ∀ dst, Renames s targets row dst →
    dst ∈ state.2

section Pull

variable {s : MoveSides} {withheld : List Path} {sources : List BaselineEntry}
  {targets : List (Path × RemoteNode)} {seen : List BaselineEntry} {state : JoinState}

theorem Pulled.taken (h : Pulled s withheld sources targets seen state) {p : Path} (hp : p ∈ state.2) :
    p ∈ withheld ∨ ∃ row ∈ seen, ∃ dst, Followed (· ∉ withheld) s sources targets row dst ∧
      (p = row.relPath ∨ p = dst) := by
  rcases (h.ends.taken p).mp hp with hw | hend
  · exact Or.inl hw
  obtain ⟨a, ha, hpa⟩ := mem_flatMap.mp hend
  rcases h.actions a ha with ⟨row, hrow, dst, hf, rfl⟩ | ⟨q, u, rfl⟩
  · have hends : p = row.relPath ∨ p = dst := by simpa [moveEnds, isMove, endpoints] using hpa
    exact Or.inr ⟨row, hrow, dst, hf, hends⟩
  · simp [moveEnds, isMove] at hpa

/-- One more row of the run: it moves where it is the one to follow, and leaves
the run alone where it is not. -/
theorem Pulled.step (hpush : s.mode.pushes = false) {base : BaselineEntry}
    (hrows : ∀ row ∈ seen ++ [base], s.baseline.get row.relPath = some row) (hsub : ∀ row ∈ seen, row ∈ sources)
    (hbefore : ∀ row ∈ seen, row.relPath < base.relPath)
    (hseen : ∀ row ∈ sources, row.relPath < base.relPath → row ∈ seen)
    (h : Pulled s withheld sources targets seen state) :
    Pulled s withheld sources targets (seen ++ [base])
      (pullStep s (pullTarget targets) state base) := by
  have htracked : ∀ row ∈ seen ++ [base], s.baseline.containsKey row.relPath :=
    fun row hrow => Baseline.containsKey_iff.mpr ⟨row, hrows row hrow⟩
  have hbase : base ∈ seen ++ [base] := by simp
  have hkept : ∀ p ∈ withheld, p ∈ state.2 := fun p hp => (h.ends.taken p).mpr (Or.inl hp)
  rcases (pullStep_cases s targets state base).symm with
    ⟨hsrc, -, ⟨-, -, hpushes⟩ | ⟨dst, carriesEdit, -, heq, hren, hdst, -⟩⟩ | ⟨heq, hno⟩
  · rw [hpush] at hpushes
    cases hpushes
  · have hfollowed : Followed (· ∉ withheld) s sources targets base dst := by
      refine ⟨hren, fun hw => hsrc (hkept _ hw), fun hw => hdst (hkept _ hw), ?_⟩
      intro other hother hlt hfree hr
      exact hdst (h.reached other (hseen other hother hlt) hfree dst hr)
    have hstill : ∀ a ∈ pairedDownload s.r dst carriesEdit, a.isMove = false := by
      intro a ha
      obtain ⟨u, rfl⟩ := mem_pairedDownload ha
      rfl
    have hmove := h.ends.extend_move (a := moveLocal base.relPath dst .file) rfl
      (.local base.relPath dst hren.source hren.vacant) hsrc hdst hren.moved.symm
    have hall := hmove.extend_still hstill
    rw [append_assoc] at hall
    rw [heq]
    refine
      { ends := hall
        actions := ?_
        followed := ?_
        reached := ?_ }
    · intro a ha
      rcases mem_append.mp ha with hold | hnew
      · rcases h.actions a hold with ⟨row, hrow, d, hf, rfl⟩ | hdl
        · exact Or.inl ⟨row, mem_append_left _ hrow, d, hf, rfl⟩
        · exact Or.inr hdl
      rcases mem_cons.mp hnew with rfl | hdl
      · exact Or.inl ⟨base, hbase, dst, hfollowed, rfl⟩
      obtain ⟨u, rfl⟩ := mem_pairedDownload hdl
      exact Or.inr ⟨dst, u, rfl⟩
    · intro row hrow d hf
      rcases mem_append.mp hrow with hold | hnew
      · exact mem_cons_of_mem _ (mem_cons_of_mem _ (h.followed row hold d hf))
      have hrowb : row = base := by simpa using hnew
      subst hrowb
      exact mem_cons_of_mem _ mem_cons_self
    intro row hrow hfree d hr
    rcases mem_append.mp hrow with hold | hnew
    · exact mem_cons_of_mem _ (mem_cons_of_mem _ (h.reached row hold hfree d hr))
    have hrowb : row = base := by simpa using hnew
    subst hrowb
    have hd : d = dst := by
      obtain ⟨u1, c1, hu1, ht1⟩ := hr.target
      obtain ⟨u2, c2, hu2, ht2⟩ := hren.target
      rw [hu1] at hu2
      cases hu2
      rw [ht1] at ht2
      cases ht2
      rfl
    subst hd
    exact mem_cons_self
  rw [heq]
  -- a row stays only where an end of its rename is withheld or an earlier row goes there
  have hfree : ∀ d, ¬ Followed (· ∉ withheld) s sources targets base d := by
    intro d hf
    rcases hno d hf.renames with hs | hd
    · rcases h.taken hs with hw | ⟨row, hrow, d', hf', hp | hp⟩
      · exact hf.srcFree hw
      · exact absurd (hbefore row hrow) (hp ▸ lt_irrefl _)
      have hkey := htracked base hbase
      rw [hp, hf'.renames.untracked] at hkey
      cases hkey
    rcases h.taken hd with hw | ⟨row, hrow, d', hf', hp | hp⟩
    · exact hf.dstFree hw
    · have hkey := htracked row (mem_append_left _ hrow)
      rw [← hp, hf.renames.untracked] at hkey
      cases hkey
    subst hp
    exact hf.first row (hsub row hrow) (hbefore row hrow) hf'.srcFree hf'.renames
  refine
    { ends := h.ends
      actions := ?_
      followed := ?_
      reached := ?_ }
  · intro a ha
    rcases h.actions a ha with ⟨row, hrow, d, hf, rfl⟩ | hdl
    · exact Or.inl ⟨row, mem_append_left _ hrow, d, hf, rfl⟩
    · exact Or.inr hdl
  · intro row hrow d hf
    rcases mem_append.mp hrow with hold | hnew
    · exact h.followed row hold d hf
    have hrowb : row = base := by simpa using hnew
    exact (hfree d (hrowb ▸ hf)).elim
  intro row hrow hrfree d hr
  rcases mem_append.mp hrow with hold | hnew
  · exact h.reached row hold hrfree d hr
  have hrowb : row = base := by simpa using hnew
  subst hrowb
  rcases hno d hr with hs | hd
  · rcases h.taken hs with hw | ⟨other, hother, d', hf', hp | hp⟩
    · exact absurd hw hrfree
    · exact absurd (hbefore other hother) (hp ▸ lt_irrefl _)
    have hkey := htracked row hbase
    rw [hp, hf'.renames.untracked] at hkey
    cases hkey
  · exact hd

end Pull

end SyncEngine
