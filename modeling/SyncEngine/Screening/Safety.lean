import Mathlib.Algebra.GroupWithZero.Nat
import SyncEngine.Screening.Filters

/-! # What a screened plan may still delete

Both sweeps note before they drop, so what a sweep drops is settled by the plan
it is given and by what the pass blocks and withholds. From that, nothing that is
left acts at a blocked path, and no deletion that is left takes what the pass
keeps: the source of a move it dropped, an item out of reach, ignored content.
-/

namespace SyncEngine

open Collections Withholding Prepared SortedSet PathMap List SyncAction

variable {fold : CaseFold}

/-- `path` is at or under `root`, and the pair root is above everything. -/
def Beneath (path root : Path) : Prop := root = [] ∨ AtOrUnder path root

theorem isEmpty_eq_true_iff {set : PathSet} : set.toList.isEmpty ↔ ∀ p, p ∉ set := by
  rw [List.isEmpty_iff, List.eq_nil_iff_forall_not_mem]
  rfl

theorem Blocking.atOrUnder_iff {roots : PathSet} {path : Path} :
    Blocking.atOrUnder roots path ↔ ∃ root ∈ roots, Beneath path root := by
  unfold Blocking.atOrUnder
  rw [Bool.or_eq_true, SortedSet.contains_iff, atOrUnderRoot_iff]
  constructor
  · rintro (h | ⟨root, hroot, h⟩)
    · exact ⟨[], h, Or.inl rfl⟩
    · exact ⟨root, hroot, Or.inr h⟩
  rintro ⟨root, hroot, rfl | h⟩
  · exact Or.inl hroot
  · exact Or.inr ⟨root, hroot, h⟩

namespace Collisions

theorem mem_new {paths : List Path} {key : Path} :
    key ∈ (Collisions.new fold paths).folded ↔ ∃ c ∈ paths, fold.collisionKey c = key := by
  unfold Collisions.new
  rw [mem_ofList, mem_map]

private theorem guarded {c : Collisions} {test : Bool} {P : Path → Prop} (h : test ↔ ∃ key ∈ c.folded, P key) :
    (!c.isEmpty && test) ↔ ∃ key ∈ c.folded, P key := by
  rw [Bool.and_eq_true, h]
  constructor
  · exact And.right
  rintro ⟨key, hkey, hP⟩
  refine ⟨?_, key, hkey, hP⟩
  rw [Bool.not_eq_true', Bool.eq_false_iff]
  exact fun hempty => isEmpty_eq_true_iff.mp hempty key hkey

theorem covers_iff {c : Collisions} {path : Path} :
    c.covers fold path ↔ ∃ key ∈ c.folded, AtOrUnder (fold.collisionKey path) key :=
  guarded atOrUnderRoot_iff

theorem under_iff {c : Collisions} {dir : Path} :
    c.under fold dir ↔ ∃ key ∈ c.folded, isUnder key (fold.collisionKey dir) :=
  guarded anyUnder_iff

end Collisions

/-! ## The first sweep -/

namespace Blocking

def strandedBy (fold : CaseFold) (b : Blocking) (a : SyncAction) : Option Path :=
  if a.isMove && !b.movesIgnored fold a && b.blocks fold a.relPath then some a.endpoints.1
  else none

theorem note_eq (b : Blocking) (a : SyncAction) :
    b.note fold a = { b with stranded := b.stranded ++ (b.strandedBy fold a).toList } := by
  unfold note strandedBy
  cases a with
  | moveRemote src dst kind uuid =>
    by_cases h : (!b.movesIgnored fold (.moveRemote src dst kind uuid) && b.blocks fold dst)
    · simp [isMove, relPath, endpoints, h]
    · simp [isMove, relPath, h]
  | moveLocal src dst kind =>
    by_cases h : (!b.movesIgnored fold (.moveLocal src dst kind) && b.blocks fold dst)
    · simp [isMove, relPath, endpoints, h]
    · simp [isMove, relPath, h]
  | _ => simp [isMove]

theorem noteAll_eq (moves : List SyncAction) (b : Blocking) :
    moves.foldl (note fold) b =
      { b with stranded := b.stranded ++ moves.filterMap (b.strandedBy fold) } := by
  induction moves generalizing b with
  | nil => simp
  | cons a moves ih =>
    have hsame : ∀ more, strandedBy fold { b with stranded := more } = strandedBy fold b :=
      fun _ => rfl
    rw [foldl_cons, note_eq, ih, filterMap_cons]
    cases b.strandedBy fold a with
    | none => simp
    | some src => simp [hsame]

theorem keeps_iff {b : Blocking} {a : SyncAction} :
    b.keeps fold a ↔ b.movesIgnored fold a = false ∧ b.blocks fold a.relPath = false ∧
      (a.isDelete → ∀ src ∈ b.stranded, ¬ AtOrUnder src a.relPath) := by
  have hany : (b.stranded.any fun src => src = a.relPath || isUnder src a.relPath) ↔
      ∃ src ∈ b.stranded, AtOrUnder src a.relPath := by
    simp [any_eq_true, AtOrUnder]
  unfold keeps
  by_cases hm : b.movesIgnored fold a
  · simp [hm]
  by_cases hb : b.blocks fold a.relPath
  · simp [hm, hb]
  rw [if_neg hm, if_neg hb, Bool.not_eq_true', Bool.and_eq_false_iff]
  rw [Bool.not_eq_true] at hm hb
  refine ⟨fun h => ⟨hm, hb, fun hdel src hsrc hunder => ?_⟩, fun ⟨_, _, h⟩ => ?_⟩
  · rcases h with h | h
    · rw [hdel] at h
      cases h
    rw [hany.mpr ⟨src, hsrc, hunder⟩] at h
    cases h
  by_cases hdel : a.isDelete
  · right
    rw [Bool.eq_false_iff]
    intro h'
    obtain ⟨src, hsrc, hunder⟩ := hany.mp h'
    exact h hdel src hsrc hunder
  · exact Or.inl (Bool.not_eq_true _ ▸ hdel)

end Blocking

namespace Prepared

def blocking (fold : CaseFold) (prep : Prepared) : Blocking :=
  ⟨prep.blockedPaths, prep.ignoredRoots, prep.collisions fold, []⟩

def noted (fold : CaseFold) (prep : Prepared) (plan : List SyncAction) : Blocking :=
  { prep.blocking fold with
    stranded := (plan.filter SyncAction.isMove).filterMap ((prep.blocking fold).strandedBy fold) }

variable {prep : Prepared}

theorem ignoredRoots_blocked {root : Path} (h : root ∈ prep.ignoredRoots) :
    root ∈ prep.blockedPaths := by
  unfold ignoredRoots at h
  unfold blockedPaths
  rw [mem_ofList] at h ⊢
  simp only [mem_append] at h ⊢
  tauto

theorem covers_iff {path : Path} :
    (prep.collisions fold).covers fold path ↔
      ∃ c ∈ prep.collisionPaths, AtOrUnder (fold.collisionKey path) (fold.collisionKey c) := by
  rw [Collisions.covers_iff]
  constructor
  · rintro ⟨key, hkey, h⟩
    obtain ⟨c, hc, rfl⟩ := Collisions.mem_new.mp hkey
    exact ⟨c, hc, h⟩
  rintro ⟨c, hc, h⟩
  exact ⟨_, Collisions.mem_new.mpr ⟨c, hc, rfl⟩, h⟩

theorem under_iff {dir : Path} :
    (prep.collisions fold).under fold dir ↔
      ∃ c ∈ prep.collisionPaths,
        isUnder (fold.collisionKey c) (fold.collisionKey dir) := by
  rw [Collisions.under_iff]
  constructor
  · rintro ⟨key, hkey, h⟩
    obtain ⟨c, hc, rfl⟩ := Collisions.mem_new.mp hkey
    exact ⟨c, hc, h⟩
  rintro ⟨c, hc, h⟩
  exact ⟨_, Collisions.mem_new.mpr ⟨c, hc, rfl⟩, h⟩

theorem blocks_iff {path : Path} :
    (prep.blocking fold).blocks fold path ↔
      (∃ root ∈ prep.blockedPaths, Beneath path root) ∨
        ∃ c ∈ prep.collisionPaths, AtOrUnder (fold.collisionKey path) (fold.collisionKey c) := by
  unfold Blocking.blocks
  rw [Bool.or_eq_true, Blocking.atOrUnder_iff]
  exact or_congr Iff.rfl covers_iff

theorem movesIgnored_iff {a : SyncAction} :
    (prep.blocking fold).movesIgnored fold a ↔ a.isMove ∧
      ((∃ root ∈ prep.ignoredRoots, Beneath a.endpoints.1 root) ∨
        ∃ c ∈ prep.collisionPaths,
          AtOrUnder (fold.collisionKey a.endpoints.1) (fold.collisionKey c)) := by
  have hsrc : ∀ src, (Blocking.atOrUnder prep.ignoredRoots src ||
      (prep.collisions fold).covers fold src) ↔
        (∃ root ∈ prep.ignoredRoots, Beneath src root) ∨
          ∃ c ∈ prep.collisionPaths, AtOrUnder (fold.collisionKey src) (fold.collisionKey c) := by
    intro src
    rw [Bool.or_eq_true, Blocking.atOrUnder_iff]
    exact or_congr Iff.rfl covers_iff
  cases a with
  | moveRemote src dst kind uuid | moveLocal src dst kind =>
    exact (hsrc src).trans ⟨fun h => ⟨rfl, h⟩, And.right⟩
  | _ => simp [Blocking.movesIgnored, isMove]

end Prepared

theorem dropBlocked_actions (fold : CaseFold) (prep : Prepared) (plan : List SyncAction) :
    (dropBlocked fold prep plan).actions = plan.filter ((prep.noted fold plan).keeps fold) := by
  unfold dropBlocked Blocking.new
  split
  · rename_i hnone
    split at hnone
    · cases hnone
    rename_i hempty
    -- no question the sweep asks finds a member
    rw [Bool.not_eq_true, Bool.or_eq_false_iff, Bool.or_eq_false_iff, Bool.not_eq_false',
      Bool.not_eq_false', Bool.not_eq_false'] at hempty
    obtain ⟨⟨hblocked, hignored⟩, hcollisions⟩ := hempty
    have hnocol : ∀ c, c ∉ prep.collisionPaths := by
      intro c hc
      exact isEmpty_eq_true_iff.mp hcollisions _ (Collisions.mem_new.mpr ⟨c, hc, rfl⟩)
    have hblocks : ∀ path, (prep.blocking fold).blocks fold path = false := by
      intro path
      rw [Bool.eq_false_iff]
      intro h
      rcases blocks_iff.mp h with ⟨root, hroot, -⟩ | ⟨c, hc, -⟩
      · exact isEmpty_eq_true_iff.mp hblocked root hroot
      · exact hnocol c hc
    have hmoves : ∀ a, (prep.blocking fold).movesIgnored fold a = false := by
      intro a
      rw [Bool.eq_false_iff]
      intro h
      rcases (movesIgnored_iff.mp h).2 with ⟨root, hroot, -⟩ | ⟨c, hc, -⟩
      · exact isEmpty_eq_true_iff.mp hignored root hroot
      · exact hnocol c hc
    have hstranded : (prep.noted fold plan).stranded = [] := by
      refine eq_nil_iff_forall_not_mem.mpr fun src hsrc => ?_
      obtain ⟨a, -, ha⟩ := mem_filterMap.mp hsrc
      unfold Blocking.strandedBy at ha
      simp [hblocks] at ha
    have hkeeps : ∀ a, (prep.noted fold plan).keeps fold a := by
      intro a
      refine Blocking.keeps_iff.mpr ⟨hmoves a, hblocks _, fun _ src hsrc => ?_⟩
      rw [hstranded] at hsrc
      cases hsrc
    exact (filter_eq_self.mpr fun a _ => hkeeps a).symm
  rename_i blocking hsome
  split at hsome
  · cases hsome
    have hnoted := @Blocking.noteAll_eq fold (plan.filter SyncAction.isMove)
      (prep.blocking fold)
    have heq : (plan.filter SyncAction.isMove).foldl (Blocking.note fold) (prep.blocking fold) =
        prep.noted fold plan := hnoted.trans (by simp [noted, blocking])
    exact congrArg (fun b => plan.filter (Blocking.keeps fold b)) heq
  · cases hsome

theorem mem_dropBlocked {prep : Prepared} {plan : List SyncAction} {a : SyncAction} :
    a ∈ (dropBlocked fold prep plan).actions ↔ a ∈ plan ∧
      (prep.blocking fold).movesIgnored fold a = false ∧
      (prep.blocking fold).blocks fold a.relPath = false ∧
      (a.isDelete → ∀ m ∈ plan, m.isMove →
        (prep.blocking fold).movesIgnored fold m = false →
        (prep.blocking fold).blocks fold m.relPath →
        ¬ AtOrUnder m.endpoints.1 a.relPath) := by
  have hsources : ∀ src, src ∈ (prep.noted fold plan).stranded ↔ ∃ m ∈ plan, m.isMove ∧
      (prep.blocking fold).movesIgnored fold m = false ∧
      (prep.blocking fold).blocks fold m.relPath ∧ m.endpoints.1 = src := by
    intro src
    unfold Prepared.noted Blocking.strandedBy
    simp only [mem_filterMap, mem_filter, and_assoc, Option.ite_none_right_eq_some,
      Bool.and_eq_true, Bool.not_eq_true', Option.some.injEq]
    constructor
    · rintro ⟨m, hm, hmove, -, h⟩
      exact ⟨m, hm, hmove, h⟩
    rintro ⟨m, hm, hmove, h⟩
    exact ⟨m, hm, hmove, hmove, h⟩
  rw [dropBlocked_actions, mem_filter, Blocking.keeps_iff]
  refine and_congr Iff.rfl (and_congr Iff.rfl (and_congr Iff.rfl (imp_congr Iff.rfl ?_)))
  constructor
  · intro h m hm hmove hkept hblocked
    exact h _ ((hsources _).mpr ⟨m, hm, hmove, hkept, hblocked, rfl⟩)
  intro h src hsrc
  obtain ⟨m, hm, hmove, hkept, hblocked, rfl⟩ := (hsources src).mp hsrc
  exact h m hm hmove hkept hblocked

/-! ## The second sweep -/

namespace Withholding

def waits (fold : CaseFold) (w : Withholding) (a : SyncAction) : Bool :=
  match w.question fold a with
  | none => false
  | some (unreachable, side) => unreachable || w.keepsIgnored side a.relPath

def withheldBy (fold : CaseFold) (w : Withholding) (a : SyncAction) : List Path :=
  match w.question fold a with
  | none => []
  | some (unreachable, side) =>
    (if w.keepsIgnored side a.relPath then ruleFiles side a.relPath else []) ++
      if unreachable || w.keepsIgnored side a.relPath then [a.relPath] else []

def countedBy (fold : CaseFold) (w : Withholding) (a : SyncAction) : Nat :=
  match w.question fold a with
  | none => 0
  | some (unreachable, side) => if w.keepsIgnored side a.relPath && !unreachable then 1 else 0

theorem note_eq (w : Withholding) (a : SyncAction) :
    w.note fold a = { w with
      withheld := w.withheld ++ w.withheldBy fold a
      overIgnored := w.overIgnored + w.countedBy fold a } := by
  unfold note withheldBy countedBy
  cases w.question fold a with
  | none => simp
  | some asked => simp

theorem noteAll_eq (deletes : List SyncAction) (w : Withholding) :
    deletes.foldl (note fold) w = { w with
      withheld := w.withheld ++ deletes.flatMap (w.withheldBy fold)
      overIgnored := w.overIgnored + (deletes.map (w.countedBy fold)).sum } := by
  induction deletes generalizing w with
  | nil => simp
  | cons a deletes ih =>
    have hby : ∀ more n, withheldBy fold { w with withheld := more, overIgnored := n } =
        withheldBy fold w := fun _ _ => rfl
    have hcount : ∀ more n, countedBy fold { w with withheld := more, overIgnored := n } =
        countedBy fold w := fun _ _ => rfl
    rw [foldl_cons, note_eq, ih]
    simp [hby, hcount, Nat.add_assoc]

theorem mem_withheldBy {w : Withholding} {a : SyncAction} (h : w.waits fold a) :
    a.relPath ∈ w.withheldBy fold a := by
  unfold waits at h
  unfold withheldBy
  cases hq : w.question fold a with
  | none =>
    rw [hq] at h
    cases h
  | some asked =>
    rw [hq] at h
    simp only [] at h
    simp [h]

theorem waits_of_mem {w : Withholding} {a : SyncAction} {path : Path}
    (h : path ∈ w.withheldBy fold a) : w.waits fold a := by
  unfold withheldBy at h
  unfold waits
  cases hq : w.question fold a with
  | none =>
    rw [hq] at h
    cases h
  | some asked =>
    rw [hq] at h
    rcases mem_append.mp h with h | h
    · split at h
      · rename_i hkeeps
        simp [hkeeps]
      · cases h
    split at h
    · assumption
    · cases h

theorem isDelete_of_waits {w : Withholding} {a : SyncAction} (h : w.waits fold a) :
    a.isDelete := by
  cases a <;> first | rfl | simp [waits, question] at h

end Withholding

namespace Prepared

def withholding (fold : CaseFold) (prep : Prepared) : Withholding :=
  new prep.unknownRemote prep.heldRemote prep.ignoredLocal prep.ignoredRemote
    prep.blockedRules (prep.collisions fold)

def withheld (fold : CaseFold) (prep : Prepared) (plan : List SyncAction) : List Path :=
  (plan.filter SyncAction.isDelete).flatMap ((prep.withholding fold).withheldBy fold)

def ignoredBeside (prep : Prepared) : SyncAction → PathMap IgnoreDecision
  | .deleteLocal .. => prep.ignoredLocal
  | .trashRemote .. => prep.ignoredRemote
  | _ => empty

variable {prep : Prepared}

theorem aboveHeld_iff {dir : Path} :
    (prep.withholding fold).aboveHeld fold dir ↔
      (∃ h ∈ prep.heldRemote, isUnder h dir) ∨
        ∃ c ∈ prep.collisionPaths,
          isUnder (fold.collisionKey c) (fold.collisionKey dir) := by
  unfold Withholding.aboveHeld
  rw [Bool.or_eq_true, anyUnder_iff]
  exact or_congr Iff.rfl under_iff

theorem keepsIgnored_iff {side : PathMap IgnoreDecision} {dir : Path} :
    (prep.withholding fold).keepsIgnored side dir ↔
      (∃ rules ∈ prep.blockedRules, isUnder rules dir) ∨
        ∃ e ∈ side.entries, isUnder e.1 dir ∧ e.2.level ≠ .default := by
  unfold Withholding.keepsIgnored underDir
  rw [Bool.or_eq_true, anyUnder_iff, any_eq_true]
  refine or_congr Iff.rfl ?_
  simp only [mem_filter, inSubtree_iff, decide_eq_true_eq, and_assoc]

theorem waits_iff {a : SyncAction} :
    (prep.withholding fold).waits fold a ↔ a.isDelete ∧
      ((∃ h ∈ prep.heldRemote, isUnder h a.relPath) ∨
        (∃ c ∈ prep.collisionPaths,
          isUnder (fold.collisionKey c) (fold.collisionKey a.relPath)) ∨
        (∃ rules ∈ prep.blockedRules, isUnder rules a.relPath) ∨
        (∃ e ∈ (prep.ignoredBeside a).entries,
          isUnder e.1 a.relPath ∧ e.2.level ≠ .default) ∨
        ∃ p kind, a = .deleteLocal p kind ∧ ∃ u ∈ prep.unknownRemote, isUnder u p) := by
  unfold Withholding.waits
  cases a with
  | deleteLocal p kind =>
    have hunknown : anyUnder (prep.withholding fold).unknown p ↔
        ∃ u ∈ prep.unknownRemote, isUnder u p := anyUnder_iff
    have hignored : (prep.withholding fold).ignoredLocal = prep.ignoredLocal := rfl
    simp only [question, hignored, Bool.or_eq_true, aboveHeld_iff,
      keepsIgnored_iff, hunknown, relPath, isDelete, ignoredBeside,
      SyncAction.deleteLocal.injEq, true_and]
    constructor
    · rintro (((h | h) | h) | h | h)
      · exact Or.inl h
      · exact Or.inr (Or.inl h)
      · exact Or.inr (Or.inr (Or.inr (Or.inr ⟨p, kind, ⟨rfl, rfl⟩, h⟩)))
      · exact Or.inr (Or.inr (Or.inl h))
      · exact Or.inr (Or.inr (Or.inr (Or.inl h)))
    rintro (h | h | h | h | ⟨q, k, ⟨rfl, rfl⟩, h⟩)
    · exact Or.inl (Or.inl (Or.inl h))
    · exact Or.inl (Or.inl (Or.inr h))
    · exact Or.inr (Or.inl h)
    · exact Or.inr (Or.inr h)
    · exact Or.inl (Or.inr h)
  | trashRemote p kind uuid =>
    have hignored : (prep.withholding fold).ignoredRemote = prep.ignoredRemote := rfl
    simp only [question, hignored, Bool.or_eq_true, aboveHeld_iff,
      keepsIgnored_iff, relPath, isDelete, ignoredBeside, true_and]
    simp [or_assoc]
  | _ => simp [question, isDelete]

end Prepared

theorem mem_dropWithheld {prep : Prepared} {plan : List SyncAction} {a : SyncAction} :
    a ∈ (dropWithheld fold prep plan).actions ↔ a ∈ plan ∧
      (a.isDelete ∨ a.isCreate → a.relPath ∉ prep.withheld fold plan) := by
  have hnoted := @noteAll_eq fold (plan.filter SyncAction.isDelete)
    (prep.withholding fold)
  have hwithheld : ((plan.filter SyncAction.isDelete).foldl (note fold)
      (prep.withholding fold)).withheld = prep.withheld fold plan := by
    rw [hnoted]
    rfl
  have hkeeps : ((plan.filter SyncAction.isDelete).foldl (note fold)
      (prep.withholding fold)).keeps a ↔
        (a.isDelete ∨ a.isCreate → a.relPath ∉ prep.withheld fold plan) := by
    unfold Withholding.keeps
    rw [hwithheld]
    simp only [Bool.not_eq_true', Bool.eq_false_iff, ne_eq, Bool.and_eq_true, Bool.or_eq_true,
      contains_iff_mem, not_and]
  have hnone : prep.withheld fold plan = [] → (a ∈ plan ↔ a ∈ plan ∧
      (a.isDelete ∨ a.isCreate → a.relPath ∉ prep.withheld fold plan)) := by
    intro h
    simp [h]
  show a ∈ (if (prep.withholding fold).mayWithhold then _ else _ : Screened).actions ↔ _
  by_cases hmay : (prep.withholding fold).mayWithhold
  · rw [if_pos hmay]
    show a ∈ (if withholds _ then _ else _ : Screened).actions ↔ _
    split
    · exact mem_filter.trans (and_congr Iff.rfl hkeeps)
    rename_i hempty
    refine hnone ?_
    rw [← hwithheld]
    unfold Withholding.withholds at hempty
    simp only [Bool.not_eq_true', Bool.not_eq_false, List.isEmpty_iff] at hempty
    exact hempty
  rw [if_neg hmay]
  refine hnone (eq_nil_iff_forall_not_mem.mpr fun path hpath => ?_)
  obtain ⟨d, -, hd⟩ := mem_flatMap.mp hpath
  -- a deletion waits for a member of one of the sets that are all empty
  obtain ⟨-, hcases⟩ := waits_iff.mp (waits_of_mem hd)
  unfold Withholding.mayWithhold Prepared.withholding Withholding.new at hmay
  simp only [Bool.or_eq_true, not_or, Bool.not_eq_true', Bool.not_eq_false] at hmay
  obtain ⟨⟨⟨⟨⟨hheld, hunknown⟩, hlocal⟩, hremote⟩, hrules⟩, hcollisions⟩ := hmay
  rcases hcases with ⟨h, hh, -⟩ | ⟨c, hc, -⟩ | ⟨r, hr, -⟩ | ⟨e, he, -⟩ | ⟨-, -, -, u, hu, -⟩
  · exact isEmpty_eq_true_iff.mp hheld h hh
  · exact isEmpty_eq_true_iff.mp hcollisions _ (Collisions.mem_new.mpr ⟨c, hc, rfl⟩)
  · exact isEmpty_eq_true_iff.mp hrules r hr
  · have hside : (prep.ignoredBeside d).entries = [] := by
      cases d with
      | deleteLocal p kind => exact isEmpty_iff.mp hlocal
      | trashRemote p kind uuid => exact isEmpty_iff.mp hremote
      | _ => rfl
    rw [hside] at he
    cases he
  · exact isEmpty_eq_true_iff.mp hunknown u hu

/-! ## The whole screen -/

section Screen

variable {prep : Prepared} {plan : List SyncAction} {a : SyncAction}

theorem mem_dropWithheld_of_other (h : a ∈ plan) (hdelete : a.isDelete = false)
    (hcreate : a.isCreate = false) : a ∈ (dropWithheld fold prep plan).actions := by
  refine mem_dropWithheld.mpr ⟨h, ?_⟩
  rintro (h | h)
  · rw [hdelete] at h
    cases h
  rw [hcreate] at h
  cases h

section

variable (h : a ∈ (screenPlan fold prep plan).actions)
include h

theorem mem_dropBlocked_of_mem :
    a ∈ (dropBlocked fold prep plan).actions :=
  (mem_dropWithheld.mp h).1

theorem waits_eq_false :
    (prep.withholding fold).waits fold a = false := by
  rw [Bool.eq_false_iff]
  intro hwaits
  have hdelete := isDelete_of_waits hwaits
  obtain ⟨hmem, hkept⟩ := mem_dropWithheld.mp h
  refine hkept (Or.inl hdelete) (mem_flatMap.mpr ⟨a, ?_, mem_withheldBy hwaits⟩)
  exact mem_filter.mpr ⟨hmem, hdelete⟩

theorem blocks_eq_false :
    (∀ root ∈ prep.blockedPaths, ¬ Beneath a.relPath root) ∧
      ∀ c ∈ prep.collisionPaths,
        ¬ AtOrUnder (fold.collisionKey a.relPath) (fold.collisionKey c) := by
  have hblocks := (mem_dropBlocked.mp (mem_dropBlocked_of_mem h)).2.2.1
  rw [Bool.eq_false_iff] at hblocks
  constructor
  · intro root hroot hunder
    exact hblocks (blocks_iff.mpr (Or.inl ⟨root, hroot, hunder⟩))
  intro c hc hunder
  exact hblocks (blocks_iff.mpr (Or.inr ⟨c, hc, hunder⟩))

theorem movesIgnored_eq_false (hmove : a.isMove) :
    (∀ root ∈ prep.ignoredRoots, ¬ Beneath a.endpoints.1 root) ∧
      ∀ c ∈ prep.collisionPaths,
        ¬ AtOrUnder (fold.collisionKey a.endpoints.1) (fold.collisionKey c) := by
  have hmoves := (mem_dropBlocked.mp (mem_dropBlocked_of_mem h)).2.1
  rw [Bool.eq_false_iff] at hmoves
  constructor
  · intro root hroot hunder
    exact hmoves (movesIgnored_iff.mpr ⟨hmove, Or.inl ⟨root, hroot, hunder⟩⟩)
  intro c hc hunder
  exact hmoves (movesIgnored_iff.mpr ⟨hmove, Or.inr ⟨c, hc, hunder⟩⟩)

end

theorem dropped_move (ha : a ∈ plan) (hmove : a.isMove) (hgone : a ∉ (screenPlan fold prep plan).actions) :
    (prep.blocking fold).movesIgnored fold a ∨
      (prep.blocking fold).blocks fold a.relPath := by
  by_contra hkept
  rw [not_or, Bool.not_eq_true, Bool.not_eq_true] at hkept
  have hother : a.isDelete = false ∧ a.isCreate = false := by
    cases a <;> first | exact ⟨rfl, rfl⟩ | simp [isMove] at hmove
  refine hgone (mem_dropWithheld_of_other ?_ hother.1 hother.2)
  refine mem_dropBlocked.mpr ⟨ha, hkept.1, hkept.2, fun hdelete => ?_⟩
  rw [hother.1] at hdelete
  cases hdelete

/-- What keeps a directory from being deleted, on the side the deletion acts on. -/
structure NothingKept (fold : CaseFold) (prep : Prepared) (d : SyncAction) : Prop where
  held : ∀ h ∈ prep.heldRemote, isUnder h d.relPath = false
  collisions : ∀ c ∈ prep.collisionPaths,
    isUnder (fold.collisionKey c) (fold.collisionKey d.relPath) = false
  rules : ∀ r ∈ prep.blockedRules, isUnder r d.relPath = false
  ignored : ∀ e ∈ (prep.ignoredBeside d).entries, e.2.level ≠ .default →
    isUnder e.1 d.relPath = false
  unknown : ∀ p kind, d = .deleteLocal p kind → ∀ u ∈ prep.unknownRemote, isUnder u p = false

theorem nothingKept_of_mem (h : a ∈ (screenPlan fold prep plan).actions)
    (hdelete : a.isDelete) : NothingKept fold prep a := by
  have hwaits := waits_eq_false h
  rw [Bool.eq_false_iff, ne_eq, waits_iff] at hwaits
  refine ⟨fun p hp => ?_, fun c hc => ?_, fun r hr => ?_, fun e he hlevel => ?_,
    fun p kind heq u hu => ?_⟩ <;> rw [Bool.eq_false_iff] <;> intro hunder
  · exact hwaits ⟨hdelete, Or.inl ⟨p, hp, hunder⟩⟩
  · exact hwaits ⟨hdelete, Or.inr (Or.inl ⟨c, hc, hunder⟩)⟩
  · exact hwaits ⟨hdelete, Or.inr (Or.inr (Or.inl ⟨r, hr, hunder⟩))⟩
  · exact hwaits ⟨hdelete, Or.inr (Or.inr (Or.inr (Or.inl ⟨e, he, hunder, hlevel⟩)))⟩
  · exact hwaits ⟨hdelete, Or.inr (Or.inr (Or.inr (Or.inr ⟨p, kind, heq, u, hu, hunder⟩)))⟩

/-- A deletion that is left does not take the source of a move that was dropped,
but for ignored content no rule of the deleting side keeps. -/
theorem source_of_dropped {m d : SyncAction} (hm : m ∈ plan) (hmove : m.isMove)
    (hgone : m ∉ (screenPlan fold prep plan).actions)
    (hd : d ∈ (screenPlan fold prep plan).actions) (hdelete : d.isDelete)
    (hover : AtOrUnder m.endpoints.1 d.relPath) :
    ∃ root ∈ prep.ignoredRoots, AtOrUnder m.endpoints.1 root ∧
      isUnder root d.relPath ∧
      ∀ e ∈ (prep.ignoredBeside d).entries, e.1 = root → e.2.level = .default := by
  obtain ⟨hfree, hfolded⟩ := blocks_eq_false hd
  have hkept := nothingKept_of_mem hd hdelete
  by_cases hsource : (prep.blocking fold).movesIgnored fold m
  · rcases (movesIgnored_iff.mp hsource).2 with ⟨root, hroot, hunder⟩ | ⟨c, hc, hunder⟩
    · have hblocked := ignoredRoots_blocked hroot
      rcases hunder with hpair | hunder
      · exact absurd (Or.inl hpair) (hfree root hblocked)
      have hstrict : isUnder root d.relPath := by
        rcases atOrUnder_total hover hunder with h | h
        · exact absurd (Or.inr h) (hfree root hblocked)
        rcases h with h | h
        · exact absurd (Or.inr (Or.inl h.symm)) (hfree root hblocked)
        · exact h
      refine ⟨root, hroot, hunder, hstrict, ?_⟩
      rintro e he rfl
      by_contra hlevel
      rw [hkept.ignored e he hlevel] at hstrict
      cases hstrict
    -- a collision over the source is over the deletion, or under it
    exfalso
    rcases atOrUnder_total (CaseFold.atOrUnder_collisionKey hover) hunder with h | h
    · exact hfolded c hc h
    rcases h with h | h
    · exact hfolded c hc (Or.inl h.symm)
    rw [hkept.collisions c hc] at h
    cases h
  have hblocks := (dropped_move hm hmove hgone).resolve_left hsource
  have hstranded := (mem_dropBlocked.mp (mem_dropBlocked_of_mem hd)).2.2.2 hdelete m hm hmove
    (Bool.not_eq_true _ ▸ hsource) hblocks
  exact absurd hover hstranded

end Screen

/-- What screening a plan promises of what it leaves. -/
structure ScreensSafely (fold : CaseFold) (prep : Prepared) (plan : List SyncAction) : Prop where
  blocked : ∀ a ∈ (screenPlan fold prep plan).actions,
    (∀ root ∈ prep.blockedPaths, ¬ Beneath a.relPath root) ∧
      ∀ c ∈ prep.collisionPaths, ¬ AtOrUnder (fold.collisionKey a.relPath) (fold.collisionKey c)
  moved : ∀ a ∈ (screenPlan fold prep plan).actions, a.isMove = true →
    (∀ root ∈ prep.ignoredRoots, ¬ Beneath a.endpoints.1 root) ∧
      ∀ c ∈ prep.collisionPaths,
        ¬ AtOrUnder (fold.collisionKey a.endpoints.1) (fold.collisionKey c)
  stranded : ∀ m ∈ plan, m.isMove = true → m ∉ (screenPlan fold prep plan).actions →
    ∀ d ∈ (screenPlan fold prep plan).actions, d.isDelete = true →
      AtOrUnder m.endpoints.1 d.relPath →
      ∃ root ∈ prep.ignoredRoots, AtOrUnder m.endpoints.1 root ∧
        isUnder root d.relPath = true ∧
        ∀ e ∈ (prep.ignoredBeside d).entries, e.1 = root → e.2.level = .default
  kept : ∀ d ∈ (screenPlan fold prep plan).actions, d.isDelete = true → NothingKept fold prep d
  /-- The create at the path of a deletion the second sweep drops goes with it. -/
  paired : ∀ d ∈ (dropBlocked fold prep plan).actions, d.isDelete = true →
    d ∉ (screenPlan fold prep plan).actions → ∀ c ∈ plan, c.isCreate = true →
    c.relPath = d.relPath → c ∉ (screenPlan fold prep plan).actions
  conflicts : ∀ c ∈ (dropBlocked fold prep plan).actions, c.isConflict = true →
    c ∈ (screenPlan fold prep plan).actions

/-- Screening leaves no unsafe deletion. -/
theorem screenPlan_screensSafely (fold : CaseFold) (prep : Prepared) (plan : List SyncAction) :
    ScreensSafely fold prep plan where
  blocked _ ha := blocks_eq_false ha
  moved _ ha hmove := movesIgnored_eq_false ha hmove
  stranded _ hm hmove hgone _ hd hdelete hover := source_of_dropped hm hmove hgone hd hdelete hover
  kept _ hd hdelete := nothingKept_of_mem hd hdelete
  paired d hd hdelete hgone c _ hcreate hpath hc := by
    have hwithheld : d.relPath ∈ prep.withheld fold (dropBlocked fold prep plan).actions := by
      by_contra hfree
      exact hgone (mem_dropWithheld.mpr ⟨hd, fun _ => hfree⟩)
    rw [← hpath] at hwithheld
    exact (mem_dropWithheld.mp hc).2 (Or.inr hcreate) hwithheld
  conflicts c hc hconflict := by
    have hother : c.isDelete = false ∧ c.isCreate = false := by
      cases c <;> first | exact ⟨rfl, rfl⟩ | simp [isConflict] at hconflict
    exact mem_dropWithheld_of_other hc hother.1 hother.2

def Prepared.clear : Prepared where
  failures := empty
  refusedNames := empty
  aliasedDirs := empty
  collisionsLocal := empty
  collisionsRemote := empty
  unknownRemote := empty
  ignoredLocal := empty
  ignoredRemote := empty
  ignoreBlocked := empty
  remoteBlocked := empty
  heldRemote := empty

def PathMap.single {ν : Type} (path : Path) (v : ν) : PathMap ν :=
  ⟨[(path, v)], pairwise_singleton _ _⟩

/-- A path out of tries is blocked, and what stands there is still moved away; a
directory is trashed over the source of a dropped move that the defaults ignore. -/
theorem screenPlan_leaves_sources :
    (∃ (prep : Prepared) (plan : List SyncAction) (a : SyncAction) (root : Path),
      a ∈ (screenPlan asciiFold prep plan).actions ∧ root ∈ prep.blockedPaths ∧
        AtOrUnder a.endpoints.1 root) ∧
    ∃ (prep : Prepared) (plan : List SyncAction) (src dst dir : Path) (uuid dirUuid : Uuid),
      SyncAction.moveRemote src dst .file uuid ∈ plan ∧
        SyncAction.moveRemote src dst .file uuid ∉ (screenPlan asciiFold prep plan).actions ∧
        SyncAction.trashRemote dir .dir dirUuid ∈ (screenPlan asciiFold prep plan).actions ∧
        isUnder src dir = true := by
  constructor
  · refine ⟨{ clear with failures := single ['x'] ⟨none⟩ },
      [.moveRemote ['x'] ['y'] .file 1], .moveRemote ['x'] ['y'] .file 1, ['x'], ?_, ?_, ?_⟩
    all_goals decide
  refine ⟨{ clear with
      ignoredRemote := single ['d', '/', 't'] ⟨.default, ['t']⟩ },
    [.moveRemote ['d', '/', 't'] ['y'] .file 1, .trashRemote ['d'] .dir 2],
    ['d', '/', 't'], ['y'], ['d'], 1, 2, ?_, ?_, ?_, ?_⟩
  all_goals decide

end SyncEngine
