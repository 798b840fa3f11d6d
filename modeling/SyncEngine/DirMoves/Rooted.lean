import SyncEngine.DirMoves.Found
import SyncEngine.Side.CarriedMove

/-! # The shape of a side while moves are folded

A side starts as a tree: every node's parent is held as a directory. A move
whose destination's parents are still to be created breaks that, so the loop
keeps less: where an ancestor of a held path is missing, no spelling of it is
held either. That is what makes a destination free on the side a case-only
rename carries.
-/

namespace SyncEngine

open Collections Nodes CaseFold List

variable {p a q : Path}

theorem ne_nil_of_atOrUnder {dir : Path} (hdir : dir ≠ []) (h : AtOrUnder p dir) : p ≠ [] := by
  rintro rfl
  rcases h with h | h
  · exact hdir h.symm
  have := length_lt_of_isUnder h
  simp at this

variable {src dst : Path}

theorem isUnder_of_movedPath (hp : movedPath a src dst = some p) (hu : isUnder p q) :
    isUnder dst q ∨ ∃ b, movedPath b src dst = some q ∧ isUnder a b := by
  rcases atOrUnder_total (atOrUnder_of_movedPath hp).2 (Or.inr hu) with (h | h) | h
  · right
    refine ⟨src, by rw [movedPath_self, h], ?_⟩
    obtain ⟨t, ht, rfl, rfl⟩ := movedPath_eq_some.mp hp
    obtain ⟨r, hr⟩ := isUnder_iff.mp hu
    rw [← h] at hr
    rw [append_cancel_left hr]
    exact isUnder_append src r
  · exact Or.inl h
  right
  obtain ⟨t', ht', rfl⟩ := atOrUnder_iff_tail.mp h
  refine ⟨src ++ t', movedPath_append ht', ?_⟩
  obtain ⟨t, ht, rfl, rfl⟩ := movedPath_eq_some.mp hp
  obtain ⟨r, hr⟩ := isUnder_iff.mp hu
  rw [append_assoc] at hr
  rw [append_cancel_left hr, ← append_assoc]
  exact isUnder_append (src ++ t') r

theorem collisionKey_movedPath {fold : CaseFold} {b src dst : Path}
    (hp : movedPath a src dst = some p) (hq : movedPath b src dst = some q)
    (h : fold.collisionKey p = fold.collisionKey q) :
    fold.collisionKey a = fold.collisionKey b := by
  obtain ⟨t, -, rfl, rfl⟩ := movedPath_eq_some.mp hp
  obtain ⟨u, -, rfl, rfl⟩ := movedPath_eq_some.mp hq
  rw [collisionKey_append, collisionKey_append] at h ⊢
  rw [append_cancel_left h]

theorem collisionKey_landing {fold : CaseFold}
    (hp : movedPath a src dst = some p) (hkey : fold.collisionKey src = fold.collisionKey dst) :
    fold.collisionKey p = fold.collisionKey a := by
  obtain ⟨t, -, rfl, rfl⟩ := movedPath_eq_some.mp hp
  rw [collisionKey_append, collisionKey_append, hkey]

theorem collisionKey_under_dst (fold : CaseFold) (hp : movedPath a src dst = some p) :
    AtOrUnder (fold.collisionKey p) (fold.collisionKey dst) :=
  atOrUnder_collisionKey (atOrUnder_of_movedPath hp).2

/-! ## Sets of paths under a move -/

/-- The paths of `S` once the subtree at `src` has moved onto `dst`. -/
def renamedPaths (S : Set Path) (src dst : Path) : Set Path :=
  {p | (∃ a ∈ S, movedPath a src dst = some p) ∨ p ∈ S ∧ ¬ AtOrUnder p src}

/-- The pair root is no node, and of a missing ancestor no spelling is held. -/
structure Rooted (fold : CaseFold) (S : Set Path) : Prop where
  root : [] ∉ S
  missing : ∀ p ∈ S, ∀ q, q ≠ [] → isUnder p q = true → q ∉ S →
    ∀ p' ∈ S, fold.collisionKey p' ≠ fold.collisionKey q

def UniqueKeys (fold : CaseFold) (S : Set Path) : Prop :=
  ∀ p ∈ S, ∀ q ∈ S, fold.collisionKey p = fold.collisionKey q → p = q

/-- A move to a place no spelling of which is taken, below parents that are held
or whose every spelling is missing. -/
structure ClearPaths (fold : CaseFold) (S : Set Path) (src dst : Path) : Prop where
  ends : Ends src dst
  free : ∀ p ∈ S, ¬ AtOrUnder (fold.collisionKey p) (fold.collisionKey dst)
  parents : ∀ q, q ≠ [] → isUnder dst q = true → q ∉ S →
    ∀ p' ∈ S, fold.collisionKey p' ≠ fold.collisionKey q

/-- A rename to another spelling under the same parent. -/
structure RecasedPaths (fold : CaseFold) (S : Set Path) (src dst : Path) : Prop where
  ends : Ends src dst
  key_eq : fold.collisionKey src = fold.collisionKey dst
  parent_eq : parentPath src = parentPath dst
  src_mem : src ∈ S
  free : ∀ p ∈ S, ¬ AtOrUnder p dst

section Paths

variable {fold : CaseFold} {S : Set Path} {src dst : Path}

theorem not_mem_of_not_mem_renamed {q : Path} (hnot : q ∉ renamedPaths S src dst) (hsrc : ¬ AtOrUnder q src) : q ∉ S :=
  fun hq => hnot (Or.inr ⟨hq, hsrc⟩)

theorem Ends.not_carried {q : Path} (h : Ends src dst) (hq : isUnder dst q) :
    ¬ AtOrUnder q src := by
  rintro (rfl | hu)
  · simp [h.not_over] at hq
  have := isUnder_trans hq hu
  simp [h.not_over] at this

theorem Rooted.clear (hroot : Rooted fold S) (h : ClearPaths fold S src dst) :
    Rooted fold (renamedPaths S src dst) := by
  constructor
  · rintro (⟨a, -, ha⟩ | ⟨hnil, -⟩)
    · exact ne_nil_of_atOrUnder h.ends.dst_ne (atOrUnder_of_movedPath ha).2 rfl
    · exact hroot.root hnil
  intro p hp q hq hu hmissing p' hp' hkey
  rcases hp with ⟨a, ha, hap⟩ | ⟨hpS, hpsrc⟩
  · rcases isUnder_of_movedPath hap hu with hdst | ⟨b, hb, hab⟩
    · -- an ancestor of the destination
      have hqS := not_mem_of_not_mem_renamed hmissing (h.ends.not_carried hdst)
      rcases hp' with ⟨a', -, ha'⟩ | ⟨hp'S, -⟩
      · have hover := collisionKey_under_dst fold ha'
        rw [hkey] at hover
        have hd := depth_le_of_atOrUnder hover
        rw [fold.depth_collisionKey, fold.depth_collisionKey] at hd
        have := depth_lt_of_isUnder hdst
        omega
      · exact h.parents q hq hdst hqS p' hp'S hkey
    -- an ancestor inside the moved subtree
    have hbS : b ∉ S := fun hbS => hmissing (Or.inl ⟨b, hbS, hb⟩)
    have hbne := ne_nil_of_atOrUnder h.ends.src_ne (atOrUnder_of_movedPath hb).1
    rcases hp' with ⟨a', ha', hap'⟩ | ⟨hp'S, -⟩
    · exact hroot.missing a ha b hbne hab hbS a' ha'
        (collisionKey_movedPath hap' hb hkey)
    have hover := collisionKey_under_dst fold hb
    rw [← hkey] at hover
    exact h.free p' hp'S hover
  have hqsrc : ¬ AtOrUnder q src := fun hqs => hpsrc (atOrUnder_trans (Or.inr hu) hqs)
  have hqS := not_mem_of_not_mem_renamed hmissing hqsrc
  rcases hp' with ⟨a', -, ha'⟩ | ⟨hp'S, -⟩
  · have hover := collisionKey_under_dst fold ha'
    rw [hkey] at hover
    exact h.free p hpS
      (atOrUnder_trans (atOrUnder_collisionKey (Or.inr hu)) hover)
  · exact hroot.missing p hpS q hq hu hqS p' hp'S hkey

theorem RecasedPaths.spells (h : RecasedPaths fold S src dst) {p : Path}
    (hp : p ∈ renamedPaths S src dst) : ∃ a ∈ S, fold.collisionKey p = fold.collisionKey a := by
  rcases hp with ⟨a, ha, hap⟩ | ⟨hpS, -⟩
  · exact ⟨a, ha, collisionKey_landing hap h.key_eq⟩
  · exact ⟨p, hpS, rfl⟩

theorem Rooted.recased (hroot : Rooted fold S) (h : RecasedPaths fold S src dst) :
    Rooted fold (renamedPaths S src dst) := by
  constructor
  · intro hnil
    obtain ⟨a, ha, hkey⟩ := h.spells hnil
    have hane : a ≠ [] := fun hnil' => hroot.root (hnil' ▸ ha)
    exact collisionKey_ne_nil hane hkey.symm
  intro p hp q hq hu hmissing p' hp' hkey
  obtain ⟨a', ha', hkey'⟩ := h.spells hp'
  rw [hkey] at hkey'
  rcases hp with ⟨a, ha, hap⟩ | ⟨hpS, hpsrc⟩
  · rcases isUnder_of_movedPath hap hu with hdst | ⟨b, hb, hab⟩
    · -- the two spellings have the same ancestors
      have hsrcq : isUnder src q := by
        rw [isUnder_iff_parentPath hq, h.parent_eq, ← isUnder_iff_parentPath hq]
        exact hdst
      have hqS := not_mem_of_not_mem_renamed hmissing (h.ends.not_carried hdst)
      have haq : isUnder a q := by
        rcases (atOrUnder_of_movedPath hap).1 with rfl | hau
        · exact hsrcq
        · exact isUnder_trans hau hsrcq
      exact hroot.missing a ha q hq haq hqS a' ha' hkey'.symm
    have hbS : b ∉ S := fun hbS => hmissing (Or.inl ⟨b, hbS, hb⟩)
    have hbq := collisionKey_landing hb h.key_eq
    have hbne : b ≠ [] := by
      rintro rfl
      exact collisionKey_ne_nil hq hbq
    exact hroot.missing a ha b hbne hab hbS a' ha' (hkey'.symm.trans hbq)
  have hqsrc : ¬ AtOrUnder q src := fun hqs => hpsrc (atOrUnder_trans (Or.inr hu) hqs)
  have hqS := not_mem_of_not_mem_renamed hmissing hqsrc
  exact hroot.missing p hpS q hq hu hqS a' ha' hkey'.symm

theorem UniqueKeys.clear (hkeys : UniqueKeys fold S) (h : ClearPaths fold S src dst) :
    UniqueKeys fold (renamedPaths S src dst) := by
  intro p hp q hq hkey
  rcases hp with ⟨a, ha, hap⟩ | ⟨hpS, -⟩
  · rcases hq with ⟨b, hb, hbq⟩ | ⟨hqS, -⟩
    · have hab := hkeys a ha b hb (collisionKey_movedPath hap hbq hkey)
      rw [hab, hbq] at hap
      exact (Option.some.inj hap).symm
    have hover := collisionKey_under_dst fold hap
    rw [hkey] at hover
    exact absurd hover (h.free q hqS)
  rcases hq with ⟨b, hb, hbq⟩ | ⟨hqS, -⟩
  · have hover := collisionKey_under_dst fold hbq
    rw [← hkey] at hover
    exact absurd hover (h.free p hpS)
  · exact hkeys p hpS q hqS hkey

theorem UniqueKeys.recased (hkeys : UniqueKeys fold S) (h : RecasedPaths fold S src dst) :
    UniqueKeys fold (renamedPaths S src dst) := by
  intro p hp q hq hkey
  rcases hp with ⟨a, ha, hap⟩ | ⟨hpS, hpsrc⟩
  · have hpa := collisionKey_landing hap h.key_eq
    rcases hq with ⟨b, hb, hbq⟩ | ⟨hqS, hqsrc⟩
    · have hab := hkeys a ha b hb (collisionKey_movedPath hap hbq hkey)
      rw [hab, hbq] at hap
      exact (Option.some.inj hap).symm
    have haq := hkeys a ha q hqS (hpa.symm.trans hkey)
    rw [haq] at hap
    exact absurd (atOrUnder_of_movedPath hap).1 hqsrc
  rcases hq with ⟨b, hb, hbq⟩ | ⟨hqS, -⟩
  · have hqb := collisionKey_landing hbq h.key_eq
    have hpb := hkeys p hpS b hb (hkey.trans hqb)
    rw [← hpb] at hbq
    exact absurd (atOrUnder_of_movedPath hbq).1 hpsrc
  · exact hkeys p hpS q hqS hkey

end Paths

/-! ## The paths a move carries -/

inductive Carries (fold : CaseFold) (S : Set Path) (src dst : Path) : Prop where
  | clear (h : ClearPaths fold S src dst)
  | recased (h : RecasedPaths fold S src dst)

namespace Carries

variable {fold : CaseFold} {S : Set Path} {src dst : Path}

section

variable (h : Carries fold S src dst)
include h

theorem ends : Ends src dst := by
  cases h with
  | clear h => exact h.ends
  | recased h => exact h.ends

theorem free : ∀ p ∈ S, ¬ AtOrUnder p dst := by
  intro p hp hover
  cases h with
  | clear h => exact h.free p hp (atOrUnder_collisionKey hover)
  | recased h => exact h.free p hp hover

theorem rooted (hroot : Rooted fold S) :
    Rooted fold (renamedPaths S src dst) := by
  cases h with
  | clear h => exact hroot.clear h
  | recased h => exact hroot.recased h

theorem uniqueKeys (hkeys : UniqueKeys fold S) :
    UniqueKeys fold (renamedPaths S src dst) := by
  cases h with
  | clear h => exact hkeys.clear h
  | recased h => exact hkeys.recased h

/-- Whatever is held at or under the destination, under any spelling, is the
source of a case-only rename or lies under it. -/
theorem only_source (hroot : Rooted fold S)
    (hkeys : UniqueKeys fold S) {p : Path} (hp : p ∈ S)
    (hover : AtOrUnder (fold.collisionKey p) (fold.collisionKey dst)) :
    fold.collisionKey src = fold.collisionKey dst ∧ AtOrUnder p src := by
  cases h with
  | clear h => exact absurd hover (h.free p hp)
  | recased h =>
    refine ⟨h.key_eq, ?_⟩
    obtain ⟨q, hpq, hq⟩ := atOrUnder_of_collisionKey hover
    have hsrcq : fold.collisionKey src = fold.collisionKey q := h.key_eq.trans hq.symm
    have hqS : q ∈ S := by
      rcases hpq with rfl | hu
      · exact hp
      by_contra hqS
      have hqne : q ≠ [] := by
        rintro rfl
        exact collisionKey_ne_nil h.ends.src_ne hsrcq
      exact hroot.missing p hp q hqne hu hqS src h.src_mem hsrcq
    rw [hkeys src h.src_mem q hqS hsrcq]
    exact hpq

end

end Carries

theorem Rooted.recasedPaths {fold : CaseFold} {S : Set Path}
    (hroot : Rooted fold S) (hkey : fold.collisionKey src = fold.collisionKey dst)
    (hparent : parentPath src = parentPath dst) (hsrc : src ∈ S) (hdst : dst ∉ S) :
    RecasedPaths fold S src dst := by
  have hsne : src ≠ [] := fun h => hroot.root (h ▸ hsrc)
  have hdne : dst ≠ [] := by
    rintro rfl
    exact collisionKey_ne_nil hsne hkey
  have hdepth := depth_eq_of_collisionKey hkey
  have hne : src ≠ dst := fun h => hdst (h ▸ hsrc)
  have hunder : isUnder src dst = false := by
    rw [Bool.eq_false_iff]
    intro h
    have := depth_lt_of_isUnder h
    omega
  have hover : isUnder dst src = false := by
    rw [Bool.eq_false_iff]
    intro h
    have := depth_lt_of_isUnder h
    omega
  refine ⟨⟨hsne, hdne, hne, hunder, hover⟩, hkey, hparent, hsrc, ?_⟩
  rintro p hp (rfl | hu)
  · exact hdst hp
  · exact hroot.missing p hp dst hdne hu hdst src hsrc hkey

/-! ## Sides -/

def Nodes.heldPaths {ν : Type} (side : Nodes ν) : Set Path := {p | side.holds p = true}

variable {ν : Type}

theorem Nodes.not_mem_heldPaths {side : Nodes ν} :
    p ∉ side.heldPaths ↔ side.holds p = false :=
  Bool.not_eq_true _ ▸ Iff.rfl

theorem Nodes.nodeAt_eq_none_of_free {side : Nodes ν} {dst : Path}
    (hfree : ∀ p ∈ side.heldPaths, ¬ AtOrUnder p dst) (p : Path) (hp : AtOrUnder p dst) :
    side.nodeAt p = none := by
  rw [← holds_eq_false, ← not_mem_heldPaths]
  exact fun hholds => hfree p hholds hp

theorem Nodes.heldPaths_rekeySubtree [FromRow ν] {side : Nodes ν}
    (h : Ends src dst) (hfree : ∀ p ∈ side.heldPaths, ¬ AtOrUnder p dst) :
    (side.rekeySubtree src dst).heldPaths = renamedPaths side.heldPaths src dst := by
  ext p
  show (side.rekeySubtree src dst).holds p ↔ _
  unfold Nodes.holds
  rw [nodeAt_rekeySubtree h side (nodeAt_eq_none_of_free hfree) p]
  cases hp : movedPath p dst src with
  | some a =>
    have hpa := movedPath_symm.mp hp
    simp only [Option.isSome_map]
    constructor
    · intro ha
      exact Or.inl ⟨a, ha, hpa⟩
    rintro (⟨b, hb, hbp⟩ | ⟨hpS, -⟩)
    · rw [movedPath_injective hpa hbp]
      exact hb
    · exact absurd (atOrUnder_of_movedPath hpa).2 (hfree p hpS)
  | none =>
    dsimp only
    split
    · rename_i hsrc
      constructor
      · intro hfalse
        cases hfalse
      rintro (⟨b, -, hbp⟩ | ⟨-, hnot⟩)
      · rw [movedPath_symm, hp] at hbp
        cases hbp
      · exact absurd hsrc hnot
    rename_i hsrc
    constructor
    · intro hholds
      exact Or.inr ⟨hholds, hsrc⟩
    rintro (⟨b, -, hbp⟩ | ⟨hpS, -⟩)
    · rw [movedPath_symm, hp] at hbp
      cases hbp
    · exact hpS

section Ready

variable {ν : Type} [Kinded ν] {fold : CaseFold} {side : Nodes ν} {b : Baseline}
  {pending : List Path}

theorem missing_of_parentsReadyFrom (hroot : Rooted fold side.heldPaths) {fuel : Nat}
    {parent : Path} (hfuel : parent.length ≤ fuel)
    (h : parentsReadyFrom fold side b pending fuel parent) {q : Path} (hq : q ≠ [])
    (hup : AtOrUnder parent q) (hmissing : q ∉ side.heldPaths) :
    ∀ p' ∈ side.heldPaths, fold.collisionKey p' ≠ fold.collisionKey q := by
  induction fuel generalizing parent with
  | zero =>
    have hnil : parent = [] := eq_nil_of_length_eq_zero (Nat.le_zero.mp hfuel)
    exact absurd hnil (ne_nil_of_atOrUnder hq hup)
  | succ fuel ih =>
    have hne := ne_nil_of_atOrUnder hq hup
    unfold parentsReadyFrom at h
    rw [if_neg hne] at h
    cases hat : side.nodeAt parent with
    | some node =>
      have hheld : parent ∈ side.heldPaths := holds_iff.mpr ⟨node, hat⟩
      rcases hup with rfl | hu
      · exact absurd hheld hmissing
      · exact hroot.missing parent hheld q hq hu hmissing
    | none =>
      rw [hat] at h
      dsimp only at h
      split at h
      · cases h
      rename_i hclear
      simp only [Bool.or_eq_true, not_or, Bool.not_eq_true] at hclear
      rcases hup with rfl | hu
      · intro p' hp' hkey
        exact occupied_eq_false.mp hclear.1.1 p' hp' (Or.inl hkey)
      have hlen := length_parentPath_lt hne
      exact ih (by omega) h ((isUnder_iff_parentPath hq).mp hu)

theorem Clear.clearPaths {held : PathSet} {src dst : Path} (hroot : Rooted fold side.heldPaths)
    (h : Clear fold held side b src dst) (hsrc : src ≠ []) (hdst : dst ≠ []) :
    ClearPaths fold side.heldPaths src dst := by
  have hends : Ends src dst := by
    refine ⟨hsrc, hdst, fun heq => h.key_ne (congrArg _ heq), ?_, ?_⟩
    · rw [Bool.eq_false_iff]
      intro hu
      have hkey : AtOrUnder (fold.collisionKey src) (fold.collisionKey dst) :=
        atOrUnder_collisionKey (Or.inr hu)
      rcases hkey with heq | hku
      · exact h.key_ne heq
      · simp [h.not_under] at hku
    rw [Bool.eq_false_iff]
    intro hu
    have hkey : AtOrUnder (fold.collisionKey dst) (fold.collisionKey src) :=
      atOrUnder_collisionKey (Or.inr hu)
    rcases hkey with heq | hku
    · exact h.key_ne heq.symm
    · simp [h.not_over] at hku
  refine ⟨hends, occupied_eq_false.mp h.side_free, ?_⟩
  intro q hq hu hmissing
  obtain ⟨pending, hready⟩ := h.ready
  have hlen := length_parentPath_lt hdst
  exact missing_of_parentsReadyFrom hroot (by omega) hready hq
    ((isUnder_iff_parentPath hq).mp hu) hmissing

end Ready

/-- One side as a whole read hands it over: a tree below the pair root. -/
structure WholeSide (ν : Type) [Kinded ν] where
  nodes : Nodes ν
  /-- The pair root itself is no node. -/
  root : nodes.holds [] = false
  parents : ∀ p ∈ nodes.paths, parentPath p = [] ∨ nodes.dirAt (parentPath p) = true

theorem WholeSide.dirAt_ancestor [Kinded ν] (side : WholeSide ν)
    (hp : side.nodes.holds p) (hq : q ≠ []) (hu : isUnder p q) :
    side.nodes.dirAt q := by
  induction hlen : p.length using Nat.strong_induction_on generalizing p with
  | _ n ih =>
    have hpne : p ≠ [] := by
      rintro rfl
      simp [side.root] at hp
    have hup := (isUnder_iff_parentPath hq).mp hu
    rcases side.parents p (mem_paths.mpr hp) with hnil | hdir
    · rw [hnil] at hup
      exact absurd rfl (ne_nil_of_atOrUnder hq hup)
    rcases hup with heq | hup
    · rw [← heq]
      exact hdir
    have hlt := length_parentPath_lt hpne
    exact ih _ (by omega) (holds_of_dirAt hdir) hup rfl

theorem WholeSide.rooted [Kinded ν] (fold : CaseFold) (side : WholeSide ν) :
    Rooted fold side.nodes.heldPaths := by
  refine ⟨not_mem_heldPaths.mpr side.root, ?_⟩
  intro p hp q hq hu hmissing
  exact absurd (holds_of_dirAt (side.dirAt_ancestor hp hq hu)) hmissing

/-- Both sides of the loop's state have the shape moves rely on. -/
structure RootedSides (fold : CaseFold) (s : MoveSides) : Prop where
  l : Rooted fold s.l.heldPaths
  r : Rooted fold s.r.heldPaths

theorem mem_dirs_of_remoteDirAt {r : Nodes RemoteNode} {uuid : Uuid} {dst : Path} (h : remoteDirAt r uuid = some dst) :
    ∃ node, r.nodeAt dst = some node ∧ node.kind = .dir ∧ node.remoteUuid = uuid := by
  obtain ⟨⟨p, node⟩, hlast, rfl⟩ := Option.map_eq_some_iff.mp h
  obtain ⟨hdir, huuid⟩ := mem_filter.mp (mem_of_getLast? hlast)
  have hnode := mem_dirs.mp hdir
  exact ⟨node, hnode.1, hnode.2, by simpa using huuid⟩

section Found

variable {fold : CaseFold} {held : PathSet} {s : MoveSides} {src dst : Path} {kind : NodeKind}
  {uuid : Uuid}

theorem Found.carries_local (h : Found fold held s (.moveLocal src dst kind))
    (hinv : RootedSides fold s) : Carries fold s.l.heldPaths src dst := by
  cases h with
  | pull mode row_at source local_dir remote_at clear =>
    obtain ⟨node, hnode, -⟩ := mem_dirs_of_remoteDirAt remote_at
    have hsrc : src ≠ [] := fun heq => hinv.l.root (heq ▸ holds_of_dirAt local_dir)
    have hdst : dst ≠ [] := fun heq => hinv.r.root (heq ▸ holds_iff.mpr ⟨node, hnode⟩)
    exact .clear (clear.clearPaths hinv.l hsrc hdst)
  | caseLocal mode spelled =>
    exact .recased (hinv.l.recasedPaths spelled.key_eq spelled.parent_eq
      (holds_of_dirAt spelled.local_dir) (not_mem_heldPaths.mpr spelled.local_free))

theorem Found.carries_remote (h : Found fold held s (.moveRemote src dst kind uuid))
    (hinv : RootedSides fold s) : Carries fold s.r.heldPaths src dst := by
  cases h with
  | push mode row_at remote_dir local_gone local_new clear =>
    obtain ⟨node, hnode, -⟩ := remote_dir
    have hsrc : src ≠ [] := fun heq => hinv.r.root (heq ▸ holds_iff.mpr ⟨node, hnode⟩)
    have hdst : dst ≠ [] := fun heq => hinv.l.root (heq ▸ holds_of_dirAt local_new)
    exact .clear (clear.clearPaths hinv.r hsrc hdst)
  | caseRemote mode row_at spelled =>
    obtain ⟨node, hnode, -⟩ := spelled.remote_dir
    exact .recased (hinv.r.recasedPaths spelled.key_eq.symm spelled.parent_eq.symm
      (holds_iff.mpr ⟨node, hnode⟩) (not_mem_heldPaths.mpr spelled.remote_free))

theorem RootedSides.foldMove {a : SyncAction} (hinv : RootedSides fold s)
    (h : Found fold held s a) : RootedSides fold (foldMove s a) := by
  cases a with
  | moveLocal src dst kind =>
    have hcarries := h.carries_local hinv
    refine ⟨?_, hinv.r⟩
    show Rooted fold (s.l.rekeySubtree src dst).heldPaths
    rw [heldPaths_rekeySubtree hcarries.ends hcarries.free]
    exact hcarries.rooted hinv.l
  | moveRemote src dst kind uuid =>
    have hcarries := h.carries_remote hinv
    refine ⟨hinv.l, ?_⟩
    show Rooted fold (s.r.rekeySubtree src dst).heldPaths
    rw [heldPaths_rekeySubtree hcarries.ends hcarries.free]
    exact hcarries.rooted hinv.r
  | createLocalDir | downloadFile | deleteLocal | createRemoteDir | uploadFile | trashRemote
  | conflict | adoptBaseline => nomatch h

end Found

end SyncEngine
