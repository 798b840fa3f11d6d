import SyncEngine.Stage.Windowed

/-! # Both tails finish the same plan

The stage orders its rows and drops from the ordered plan what the resident tail
drops before it sorts. No phase of what is left reads what was dropped, and ties
fall to the place an action was planned at, as a stable sort leaves them.
-/

namespace SyncEngine

open Collections Screen SyncEngine.Seq List SyncAction

/-! ## Phases -/

variable {actions : List SyncAction} {replaced : List Path} {a : SyncAction} {trashed : List Uuid}
    {conflicted : List Path} {rows : List (Seq × SyncAction)}

theorem mem_replacedPaths {p : Path} :
    p ∈ replacedPaths actions ↔
      (∃ a ∈ actions, a.isDelete ∧ a.relPath = p) ∧
        ∃ a ∈ actions, a.isCreate ∧ a.relPath = p := by
  have hmem : ∀ test : SyncAction → Bool, p ∈ (actions.filter test).map SyncAction.relPath ↔
      ∃ a ∈ actions, test a ∧ a.relPath = p := by
    intro test
    simp [mem_map, mem_filter, and_assoc]
  unfold replacedPaths
  dsimp only
  split
  · rw [mem_filter, contains_iff_mem, hmem, hmem]
    exact and_comm
  · rw [mem_filter, contains_iff_mem, hmem, hmem]

theorem screenPhase_eq {created : Path → Bool}
    (h : a.isDelete → created a.relPath = replaced.contains a.relPath) :
    screenPhase created a = actionPhase a replaced := by
  cases a with
  | deleteLocal p kind | trashRemote p kind uuid =>
    have hp : created p = replaced.contains p := h rfl
    cases kind <;> simp only [screenPhase, actionPhase, hp]
  | moveLocal src dst kind => cases kind <;> rfl
  | moveRemote src dst kind uuid => cases kind <;> rfl
  | _ => rfl

theorem screenLe_iff {phase : SyncAction → Nat} {b : SyncAction}
    (ha : phase a = actionPhase a replaced) (hb : phase b = actionPhase b replaced) :
    screenLe phase a b ↔ actionLe replaced a b := by
  unfold screenLe actionLe
  rw [ha, hb]
  by_cases heq : actionPhase a replaced = actionPhase b replaced
  · by_cases hc : actionPhase b replaced = phaseDirReplaceDelete ∨
      actionPhase b replaced = phaseDelete
    all_goals simp [heq, cascading, hc]
  · simp [heq]

instance (phase : SyncAction → Nat) : Std.Total (screenLe phase) where
  total a b := by
    unfold screenLe
    by_cases hlt : phase a < phase b
    · exact Or.inl (Or.inl hlt)
    by_cases hgt : phase b < phase a
    · exact Or.inr (Or.inl hgt)
    have heq : phase a = phase b := by omega
    rw [heq]
    by_cases hc : cascading (phase b)
    · simp only [hc, if_true]
      exact (le_total b.relPath a.relPath).imp (fun h => Or.inr ⟨trivial, h⟩)
        fun h => Or.inr ⟨trivial, h⟩
    simp only [hc, if_false]
    exact (le_total a.relPath b.relPath).imp (fun h => Or.inr ⟨trivial, h⟩)
      fun h => Or.inr ⟨trivial, h⟩

instance (phase : SyncAction → Nat) : IsTrans SyncAction (screenLe phase) where
  trans a b c hab hbc := by
    rcases hab with hab | ⟨eab, hab⟩
    · rcases hbc with hbc | ⟨ebc, -⟩
      all_goals exact Or.inl (by omega)
    rcases hbc with hbc | ⟨ebc, hbc⟩
    · exact Or.inl (by omega)
    refine Or.inr ⟨eab.trans ebc, ?_⟩
    rw [eab] at hab ⊢
    by_cases hc : cascading (phase b)
    · simp only [hc, if_true] at hab hbc ⊢
      exact le_trans hbc hab
    simp only [hc, if_false] at hab hbc ⊢
    exact le_trans hab hbc

/-! ## Finishing a plan -/

/-- What the tail keeps of a plan: what it neither retires nor suppresses. -/
def finished (trashed : List Uuid) (conflicted : List Path) (a : SyncAction) : Bool :=
  !alreadyTrashed a trashed && !underConflict a conflicted

/-- The conflicts that are left once the trashed deletions are out. -/
abbrev conflictsOf (trashed : List Uuid) (actions : List SyncAction) : List Path :=
  conflictedPaths (actions.filter fun a => !alreadyTrashed a trashed)

theorem finishPlan_actions (actions : List SyncAction) (n : Nat) (holds : PassHolds) :
    (finishPlan actions n holds).actions =
      orderActions (actions.filter (finished holds.trashed (conflictsOf holds.trashed actions))) := by
  unfold finishPlan
  dsimp only
  rw [suppress_eq_filter, filter_filter]
  congr 1
  refine filter_congr fun a _ => ?_
  exact Bool.and_comm _ _

theorem underConflict_congr {cs ds : List Path} (h : ∀ p, p ∈ cs ↔ p ∈ ds) :
    underConflict a cs = underConflict a ds := by
  unfold underConflict
  congr 1
  rw [Bool.eq_iff_iff, any_eq_true, any_eq_true]
  simp only [h]

theorem retireTrashed_eq (screen : List SyncAction) (trashed : List Uuid) :
    retireTrashed screen trashed =
      (screen.filter fun a => !alreadyTrashed a trashed,
        (screen.filter fun a => alreadyTrashed a trashed).length) := by
  unfold Screen.retireTrashed
  cases trashed with
  | cons uuid rest => rfl
  | nil =>
    have hnone : ∀ a, alreadyTrashed a [] = false := by
      intro a
      cases a <;> rfl
    simp [hnone]

theorem suppressConflicted_eq {ordered : List SyncAction}
    (hmem : ∀ a, a ∈ ordered ↔ a ∈ actions) (trashed : List Uuid) :
    suppressConflicted (retireTrashed ordered trashed).1 =
      ordered.filter (finished trashed (conflictsOf trashed actions)) := by
  rw [retireTrashed_eq]
  have hsuppress := suppress_eq_filter (ordered.filter fun a => !alreadyTrashed a trashed)
  have hconflicts : ∀ p, p ∈ conflictsOf trashed ordered ↔ p ∈ conflictsOf trashed actions := by
    intro p
    simp only [conflictsOf, mem_conflictedPaths, mem_filter, hmem]
  refine Eq.trans hsuppress ?_
  rw [filter_filter]
  refine filter_congr fun a _ => ?_
  rw [underConflict_congr hconflicts, Bool.and_comm]
  rfl

theorem finished_create {c : SyncAction} (ha : finished trashed conflicted a) (hdelete : a.isDelete)
    (hcreate : c.isCreate) (hpath : c.relPath = a.relPath) :
    finished trashed conflicted c := by
  have hsame : underConflict c conflicted = underConflict a conflicted := by
    have hends : ∀ x : SyncAction, x.isDelete ∨ x.isCreate →
        x.isConflict = false ∧ x.endpoints = (x.relPath, x.relPath) := by
      intro x hx
      cases x <;> first | exact ⟨rfl, rfl⟩ | simp [isDelete, isCreate] at hx
    unfold underConflict
    rw [(hends a (Or.inl hdelete)).1, (hends a (Or.inl hdelete)).2, (hends c (Or.inr hcreate)).1,
      (hends c (Or.inr hcreate)).2, hpath]
  have htrashed : alreadyTrashed c trashed = false := by
    cases c <;> first | rfl | simp [isCreate] at hcreate
  unfold finished at ha ⊢
  rw [Bool.and_eq_true] at ha
  rw [htrashed, hsame, ha.2]
  rfl

/-- The stage asks about the creates of the whole plan; the ones at the path of
a kept deletion are kept themselves. -/
theorem created_eq
    (hmem : ∀ a, a ∈ actions ↔ ∃ row ∈ rows, row.2 = a)
    (ha : a ∈ actions.filter (finished trashed conflicted)) (hdelete : a.isDelete) :
    (((rows.any fun row => row.2.isDelete) && rows.any fun row => row.2.isCreate) &&
        rows.any fun row => row.2.relPath = a.relPath && row.2.isCreate) =
      (replacedPaths (actions.filter (finished trashed conflicted))).contains a.relPath := by
  rw [Bool.eq_iff_iff, contains_iff_mem, mem_replacedPaths]
  simp only [Bool.and_eq_true, any_eq_true, decide_eq_true_eq]
  constructor
  · intro h
    rcases h with ⟨-, row, hrow, hpath, hcreate⟩
    refine ⟨⟨a, ha, hdelete, rfl⟩, row.2, ?_, hcreate, hpath⟩
    exact mem_filter.mpr ⟨(hmem row.2).mpr ⟨row, hrow, rfl⟩,
      finished_create (mem_filter.mp ha).2 hdelete hcreate hpath⟩
  intro h
  rcases h with ⟨-, c, hc, hcreate, hpath⟩
  rcases (hmem a).mp (mem_filter.mp ha).1 with ⟨row, hrow, rfl⟩
  rcases (hmem c).mp (mem_filter.mp hc).1 with ⟨created, hcreated, rfl⟩
  exact ⟨⟨⟨row, hrow, hdelete⟩, created, hcreated, hcreate⟩, created, hcreated, hpath, hcreate⟩

theorem order_filter_eq {ranked : List (Seq × SyncAction)} (hperm : rows.Perm ranked)
    (hranks : ranked.Pairwise fun x y => x.1 < y.1) (trashed : List Uuid) (conflicted : List Path) :
    (order rows).filter (finished trashed conflicted) =
      orderActions ((ranked.map Prod.snd).filter (finished trashed conflicted)) := by
  have hmem : ∀ a, a ∈ ranked.map Prod.snd ↔ ∃ row ∈ rows, row.2 = a := by
    intro a
    rw [mem_map]
    simp only [hperm.mem_iff]
  unfold Screen.order orderActions
  rw [filter_sorted_rows hperm hranks]
  refine insertionSort_congr fun a ha b hb => screenLe_iff ?_ ?_
  · exact screenPhase_eq (created_eq hmem ha)
  · exact screenPhase_eq (created_eq hmem hb)

/-! ## The rows the screen is made of -/

section Rows

variable {mode : SyncMode} {b : Baseline} {l : StagedSide LocalNode} {r : StagedSide RemoteNode}
  {holds : PassHolds}

variable {consumed : List Path}

/-- What the windows planned at the paths no move took is what the resident
reconcile plans after its join. -/
theorem windowActions_filter {taken : List Path} (h : ∀ p ∈ wholeKeys b l r holds.heldRemote, p ∈ taken ↔
      isUnderHeldPath p holds.heldRemote ∨ p ∈ consumed) :
    (windowActions mode b l r holds).filter (fun a => !consumed.contains a.relPath) =
      decideKeys mode b l.nodes r.nodes holds.markedExits
        (wholeKeys b l r holds.heldRemote).toList taken := by
  have hskip : ∀ key ∈ (wholeKeys b l r holds.heldRemote).toList,
      (!isUnderHeldPath key holds.heldRemote) = false →
        (if taken.contains key then []
          else planAt b l.nodes r.nodes mode holds.markedExits key) = [] := by
    intro key hkey hheld
    have hin : key ∈ taken := (h key hkey).mpr (Or.inl (by simpa using hheld))
    rw [if_pos (contains_iff_mem.mpr hin)]
  unfold windowActions decideKeys liveKeys
  rw [filter_flatMap]
  refine Eq.trans ?_ (flatMap_filter_of_nil _ hskip)
  refine flatMap_congr fun key hkey => ?_
  rcases mem_filter.mp hkey with ⟨hmem, hlive⟩
  have htaken := h key hmem
  have hstay : ∀ a ∈ planAt b l.nodes r.nodes mode holds.markedExits key, a.relPath = key :=
    fun a ha => (decidePath_staysAt ha).1
  by_cases hin : key ∈ consumed
  · rw [if_pos (contains_iff_mem.mpr (htaken.mpr (Or.inr hin)))]
    refine filter_eq_nil_iff.mpr fun a ha => ?_
    rw [hstay a ha]
    simpa using hin
  have hfree : ¬ key ∈ taken := by
    intro ht
    rcases htaken.mp ht with hheld | hcons
    · simp [hheld] at hlive
    · exact hin hcons
  rw [if_neg (by simpa using hfree)]
  refine filter_eq_self.mpr fun a ha => ?_
  rw [hstay a ha]
  simpa using hin

theorem kept_rows {planned joined : List SyncAction} {dropped : Bool} (hidle : dropped = false → consumed = []) :
    (if dropped then
        (numbered windowSeq planned ++ numbered joinSeq joined).filter fun row =>
          !(row.1.ofWindow && consumed.contains row.2.relPath)
      else numbered windowSeq planned ++ numbered joinSeq joined) =
      (numbered windowSeq planned).filter (fun row => !consumed.contains row.2.relPath) ++
        numbered joinSeq joined := by
  have hwindow : (numbered windowSeq planned).filter (fun row =>
      !(row.1.ofWindow && consumed.contains row.2.relPath)) =
        (numbered windowSeq planned).filter fun row => !consumed.contains row.2.relPath := by
    refine filter_congr fun row hrow => ?_
    have hside : row.1.ofWindow := (mem_numbered hrow).1
    rw [hside, Bool.true_and]
  have hjoin : (numbered joinSeq joined).filter (fun row =>
      !(row.1.ofWindow && consumed.contains row.2.relPath)) = numbered joinSeq joined := by
    refine filter_eq_self.mpr fun row hrow => ?_
    have hside : row.1.ofWindow = false := (mem_numbered hrow).1
    rw [hside]
    rfl
  cases hdropped : dropped with
  | true => rw [if_pos rfl, filter_append, hwindow, hjoin]
  | false =>
    rw [hidle hdropped]
    simp

/-- The rows the screen orders, listed in the order they were planned. -/
def rankedRows (planned joined : List SyncAction) (consumed : List Path) :
    List (Seq × SyncAction) :=
  numbered joinSeq joined ++
    (numbered windowSeq planned).filter fun row => !consumed.contains row.2.relPath

theorem rankedRows_ranked (planned joined : List SyncAction) (consumed : List Path) :
    (rankedRows planned joined consumed).Pairwise fun x y => x.1 < y.1 := by
  refine pairwise_append.mpr ⟨numbered_ranked _ _, (numbered_ranked _ _).filter _, ?_⟩
  intro x hx y hy
  have hxside : x.1.ofWindow = false := (mem_numbered hx).1
  have hyside : y.1.ofWindow := (mem_numbered (mem_of_mem_filter hy)).1
  rw [lt_iff, hxside, hyside]
  exact Or.inl rfl

theorem rankedRows_actions (planned joined : List SyncAction) (consumed : List Path) :
    (rankedRows planned joined consumed).map Prod.snd =
      joined ++ planned.filter fun a => !consumed.contains a.relPath := by
  have hmap : ((numbered windowSeq planned).map Prod.snd).filter
      (fun a => !consumed.contains a.relPath) =
        ((numbered windowSeq planned).filter fun row =>
          !consumed.contains row.2.relPath).map Prod.snd := filter_map ..
  unfold rankedRows
  rw [map_append, map_snd_numbered, ← hmap, map_snd_numbered]

/-- The screen of rows whose actions, in the order they were planned, are
`actions`, is the plan those actions finish as. -/
theorem screen_eq_finishPlan {rows ranked : List (Seq × SyncAction)} {actions : List SyncAction}
    (hperm : rows.Perm ranked) (hranks : ranked.Pairwise fun x y => x.1 < y.1)
    (hactions : ranked.map Prod.snd = actions) (n : Nat) (holds : PassHolds) :
    (⟨leadWith []
        (suppressConflicted (retireTrashed (order rows) holds.trashed).1),
      n + (retireTrashed (order rows) holds.trashed).2⟩ : Plan) =
      finishPlan actions n holds := by
  have hordered : (order rows).Perm actions := by
    rw [← hactions]
    exact ((perm_insertionSort _ rows).trans hperm).map Prod.snd
  have hplan : suppressConflicted
      (retireTrashed (order rows) holds.trashed).1 =
        (finishPlan actions n holds).actions := by
    rw [suppressConflicted_eq (fun a => hordered.mem_iff), finishPlan_actions,
      order_filter_eq hperm hranks, hactions]
  have hretired : (retireTrashed (order rows) holds.trashed).2 =
      (actions.filter fun a => alreadyTrashed a holds.trashed).length := by
    rw [retireTrashed_eq]
    exact (hordered.filter _).length_eq
  rw [hplan, hretired]
  rfl

/-- Whatever the window, a whole pass reconciled window by window and finished
in its stage is the resident plan over the same rows and nodes. -/
theorem reconcileWindows_screen (mode : SyncMode) (b : Baseline) (l : StagedSide LocalNode)
    (r : StagedSide RemoteNode) (holds : PassHolds) (window : ℕ+) :
    (reconcileWindows mode b l r holds window).screen holds [] =
      reconcile mode b l.nodes r.nodes holds .whole := by
  rcases @join_staged mode b l r holds with ⟨hrows, hdeferred, htaken, hidle⟩
  rw [reconcileWindows_eq]
  generalize (windowed mode b l r holds).join (stagedSides mode b l r) r = pass at *
  have hactions : (rankedRows (windowActions mode b l r holds) (residentJoin mode b l r holds).1
      pass.out.consumed).map Prod.snd = planActions mode b l.nodes r.nodes holds .whole := by
    rw [rankedRows_actions, windowActions_filter htaken]
    rfl
  unfold Windows.screen
  dsimp only
  rw [hrows, hdeferred, kept_rows hidle]
  exact screen_eq_finishPlan perm_append_comm (rankedRows_ranked _ _ _) hactions _ holds

/-- Two keys a window: the moves start and end in different ones, the remote's of `b` to `e` and
the local of `c` to `g`, beside an edit of `a` and the remote's deletion of `d`. -/
theorem reconcileWindows_screen_moves :
    let b : Baseline := ⟨[syncedRow ['a'] .file 1 (some 1), syncedRow ['b'] .file 2 (some 2),
      syncedRow ['c'] .file 3 (some 3), syncedRow ['d'] .file 4 (some 4)], by decide⟩
    let l : StagedSide LocalNode := ⟨[localItem ['a'] .file (some 7), localItem ['b'] .file (some 2),
      localItem ['d'] .file (some 4), localItem ['g'] .file (some 3)], by decide +kernel⟩
    let r : StagedSide RemoteNode := ⟨[remoteItem ['a'] .file 1 (some 1),
      remoteItem ['c'] .file 3 (some 3), remoteItem ['e'] .file 2 (some 2)], by decide +kernel⟩
    ((reconcileWindows .twoWay b l r .none 2).screen .none []).actions =
      [moveLocal ['b'] ['e'] .file, moveRemote ['c'] ['g'] .file 3, uploadFile ['a'],
        deleteLocal ['d'] .file] := by
  intro b l r
  rw [reconcileWindows_screen .twoWay b l r .none 2]
  decide +kernel

end Rows

end SyncEngine
