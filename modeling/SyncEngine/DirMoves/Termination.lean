import SyncEngine.Collections.Descent
import SyncEngine.DirMoves.Rooted

/-! # The fold of directory moves ends

A move of the remote brings a row to a path the local side holds, and a move of
the local side uncovers no row. While only the local side moves, the remote's
directories are fixed, and depth by depth the pass settles rows on them: a move
to a shallower or equal depth settles one more row there, a move to a deeper one
takes a row off its depth, and a case-only rename takes away a local directory
the remote has none for. A mode that does not pull moves only the remote, and
each move gives one more local directory a remote one.
-/

namespace SyncEngine

open Collections Nodes Baseline List

/-! ## What a move leaves where it is -/

section Rows

variable {b : Baseline} {src dst : Path}

def Baseline.rowSet (b : Baseline) : Finset Path := b.rowPaths.toFinset

variable {p : Path}

theorem Baseline.mem_rowSet : p ∈ b.rowSet ↔ b.containsKey p := by
  rw [rowSet, mem_toFinset, mem_rowPaths]

/-- Neither at nor under an end of the move. -/
def Unmoved (src dst p : Path) : Prop := ¬ AtOrUnder p src ∧ ¬ AtOrUnder p dst

theorem unmoved_of_depth_lt (hs : depth p < depth src) (hd : depth p < depth dst) :
    Unmoved src dst p := by
  constructor
  all_goals
    intro h
    have := depth_le_of_atOrUnder h
    omega

theorem unmoved_of_depth_le (hs : depth p ≤ depth src) (hd : depth p ≤ depth dst)
    (hps : p ≠ src) (hpd : p ≠ dst) : Unmoved src dst p :=
  ⟨fun h => hps (eq_of_atOrUnder_of_depth h hs), fun h => hpd (eq_of_atOrUnder_of_depth h hd)⟩

theorem Ends.get_unmoved (h : Ends src dst) (hp : Unmoved src dst p) :
    (b.moveSubtree src dst).get p = b.get p := by
  rw [get_moveSubtree h.src_ne h.dst_ne h.ne, movedPath_eq_none.mpr hp.2]
  exact if_neg hp.1

theorem Ends.get_src (h : Ends src dst) : (b.moveSubtree src dst).get src = none := by
  have hout : ¬ AtOrUnder src dst := fun hp => h.apart hp (atOrUnder_refl src)
  rw [get_moveSubtree h.src_ne h.dst_ne h.ne, movedPath_eq_none.mpr hout]
  exact if_pos (atOrUnder_refl src)

theorem Ends.containsKey_src (h : Ends src dst) :
    (b.moveSubtree src dst).containsKey src = false := by
  rw [containsKey, h.get_src]
  rfl

theorem Ends.get_dst (h : Ends src dst) {row : BaselineEntry} (hrow : b.get src = some row) :
    (b.moveSubtree src dst).get dst = some { row with relPath := dst } := by
  rw [get_moveSubtree h.src_ne h.dst_ne h.ne, movedPath_self, Option.bind_some, hrow]

def cameFrom (b : Baseline) (src dst p : Path) : Path :=
  match movedPath p dst src with
  | some a => if b.containsKey a then a else p
  | none => p

theorem Ends.cameFrom_cases (h : Ends src dst) (hp : (b.moveSubtree src dst).containsKey p) :
    (∃ a, movedPath a src dst = some p ∧ b.containsKey a ∧ cameFrom b src dst p = a) ∨
      (b.containsKey p ∧ ¬ AtOrUnder p src ∧ cameFrom b src dst p = p) := by
  obtain ⟨row, hrow⟩ := containsKey_iff.mp hp
  rw [get_moveSubtree h.src_ne h.dst_ne h.ne] at hrow
  unfold cameFrom
  cases hmoved : movedPath p dst src with
  | some a =>
    rw [hmoved, Option.bind_some] at hrow
    cases hat : b.get a with
    | some old =>
      have hkey := containsKey_iff.mpr ⟨old, hat⟩
      exact Or.inl ⟨a, movedPath_symm.mp hmoved, hkey, if_pos hkey⟩
    | none =>
      rw [hat] at hrow
      dsimp only at hrow ⊢
      have hnokey : ¬ b.containsKey a := by simp [containsKey, hat]
      split at hrow
      · cases hrow
      rename_i hsrc
      exact Or.inr ⟨containsKey_iff.mpr ⟨row, hrow⟩, hsrc, if_neg hnokey⟩
  | none =>
    rw [hmoved] at hrow
    dsimp only [Option.bind_none] at hrow
    split at hrow
    · cases hrow
    rename_i hsrc
    exact Or.inr ⟨containsKey_iff.mpr ⟨row, hrow⟩, hsrc, rfl⟩

theorem Ends.cameFrom_injOn (h : Ends src dst) :
    Set.InjOn (cameFrom b src dst) (b.moveSubtree src dst).rowSet := by
  intro p hp q hq heq
  rcases h.cameFrom_cases (mem_rowSet.mp hp) with ⟨a, ha, -, hpa⟩ | ⟨-, hpsrc, hpp⟩
  · rcases h.cameFrom_cases (mem_rowSet.mp hq) with ⟨c, hc, -, hqc⟩ | ⟨-, hqsrc, hqq⟩
    · rw [hpa, hqc] at heq
      rw [heq, hc] at ha
      exact (Option.some.inj ha).symm
    rw [hpa, hqq] at heq
    exact absurd (heq ▸ (atOrUnder_of_movedPath ha).1) hqsrc
  rcases h.cameFrom_cases (mem_rowSet.mp hq) with ⟨c, hc, -, hqc⟩ | ⟨-, -, hqq⟩
  · rw [hpp, hqc] at heq
    exact absurd (heq ▸ (atOrUnder_of_movedPath hc).1) hpsrc
  rw [hpp, hqq] at heq
  exact heq

end Rows

section Sides

variable {ν : Type} [FromRow ν] {side : Nodes ν} {src dst : Path}

theorem Ends.nodeAt_unmoved (h : Ends src dst) (hfree : ∀ p ∈ side.heldPaths, ¬ AtOrUnder p dst)
    {p : Path} (hp : Unmoved src dst p) : (side.rekeySubtree src dst).nodeAt p = side.nodeAt p := by
  rw [nodeAt_rekeySubtree h side (nodeAt_eq_none_of_free hfree),
    movedPath_eq_none.mpr hp.2]
  exact if_neg hp.1

theorem Ends.nodeAt_landing (h : Ends src dst) (hfree : ∀ p ∈ side.heldPaths, ¬ AtOrUnder p dst)
    {a p : Path} (hp : movedPath a src dst = some p) :
    (side.rekeySubtree src dst).nodeAt p = (side.nodeAt a).map (FromRow.setPath · p) := by
  rw [nodeAt_rekeySubtree h side (nodeAt_eq_none_of_free hfree),
    movedPath_symm.mp hp]

theorem Ends.nodeAt_src (h : Ends src dst) (hfree : ∀ p ∈ side.heldPaths, ¬ AtOrUnder p dst) :
    (side.rekeySubtree src dst).nodeAt src = none := by
  have hout : ¬ AtOrUnder src dst := fun hp => h.apart hp (atOrUnder_refl src)
  rw [nodeAt_rekeySubtree h side (nodeAt_eq_none_of_free hfree),
    movedPath_eq_none.mpr hout]
  exact if_pos (atOrUnder_refl src)

end Sides

def uncovered (s : MoveSides) : Finset Path :=
  s.baseline.rowSet.filter fun p => s.l.holds p = false

section Uncovered

variable {s : MoveSides} {src dst : Path}

theorem mem_uncovered {p : Path} :
    p ∈ uncovered s ↔ s.baseline.containsKey p ∧ s.l.holds p = false := by
  rw [uncovered, Finset.mem_filter, mem_rowSet]

theorem card_uncovered_moveLocal (kind : NodeKind) (h : Ends src dst) (hfree : ∀ p ∈ s.l.heldPaths, ¬ AtOrUnder p dst) :
    (uncovered (foldMove s (.moveLocal src dst kind))).card ≤ (uncovered s).card := by
  have hinj : Set.InjOn (cameFrom s.baseline src dst)
      (uncovered (foldMove s (.moveLocal src dst kind))) :=
    h.cameFrom_injOn.mono (Finset.coe_subset.mpr (Finset.filter_subset _ _))
  refine Finset.card_le_card_of_injOn _ ?_ hinj
  intro p hp
  obtain ⟨hrow, hnot⟩ := mem_uncovered.mp hp
  have hnone : (s.l.rekeySubtree src dst).nodeAt p = none := holds_eq_false.mp hnot
  refine mem_uncovered.mpr ?_
  rcases h.cameFrom_cases hrow with ⟨a, ha, hkey, hfrom⟩ | ⟨hkey, hsrc, hfrom⟩
  · rw [hfrom]
    refine ⟨hkey, holds_eq_false.mpr ?_⟩
    rw [h.nodeAt_landing hfree ha] at hnone
    exact Option.map_eq_none_iff.mp hnone
  rw [hfrom]
  refine ⟨hkey, holds_eq_false.mpr ?_⟩
  by_cases hdst : AtOrUnder p dst
  · exact nodeAt_eq_none_of_free hfree p hdst
  rw [h.nodeAt_unmoved hfree ⟨hsrc, hdst⟩] at hnone
  exact hnone

/-- A move of the remote whose source's row the local side does not hold, onto a
path it does hold, covers a row. -/
theorem card_uncovered_moveRemote (h : Ends src dst) {kind : NodeKind} {uuid : Uuid}
    (hrow : s.baseline.containsKey src)
    (hgone : ∀ p ∈ s.l.heldPaths, ¬ AtOrUnder p src) (hheld : s.l.holds dst) :
    (uncovered (foldMove s (.moveRemote src dst kind uuid))).card < (uncovered s).card := by
  have hnone : ∀ p, AtOrUnder p src → s.l.holds p = false := by
    intro p hp
    exact holds_eq_false.mpr (nodeAt_eq_none_of_free hgone p hp)
  have hsrc : src ∈ uncovered s := mem_uncovered.mpr ⟨hrow, hnone src (atOrUnder_refl src)⟩
  have hinj : Set.InjOn (cameFrom s.baseline src dst)
      (uncovered (foldMove s (.moveRemote src dst kind uuid))) :=
    h.cameFrom_injOn.mono (Finset.coe_subset.mpr (Finset.filter_subset _ _))
  have hle : (uncovered (foldMove s (.moveRemote src dst kind uuid))).card ≤
      ((uncovered s).erase src).card := by
    refine Finset.card_le_card_of_injOn _ ?_ hinj
    intro p hp
    obtain ⟨hprow, hpnot⟩ := mem_uncovered.mp hp
    have hpl : s.l.holds p = false := hpnot
    rw [Finset.mem_coe, Finset.mem_erase]
    rcases h.cameFrom_cases hprow with ⟨a, ha, hkey, hfrom⟩ | ⟨hkey, hpsrc, hfrom⟩
    · rw [hfrom]
      refine ⟨?_, mem_uncovered.mpr ⟨hkey, hnone a (atOrUnder_of_movedPath ha).1⟩⟩
      rintro rfl
      rw [movedPath_self] at ha
      rw [← Option.some.inj ha, hheld] at hpl
      cases hpl
    rw [hfrom]
    refine ⟨?_, mem_uncovered.mpr ⟨hkey, hpl⟩⟩
    rintro rfl
    exact hpsrc (atOrUnder_refl _)
  have hlt := Finset.card_erase_lt_of_mem hsrc
  omega

end Uncovered

/-! ## Rows settled depth by depth -/

/-- Whether the row at `p` is a synced directory that both sides hold where it
records it. -/
def settled (s : MoveSides) (p : Path) : Bool :=
  s.l.dirAt p && (s.baseline.get p).any fun row =>
    (dirMoveSource row).any fun uuid => remoteDirAt s.r uuid = some p

def remoteDirSet (r : Nodes RemoteNode) : Finset Path := (r.dirs.map Prod.fst).toFinset

def remoteDepth (r : Nodes RemoteNode) : Nat := r.paths.toFinset.sup depth

def settledAt (s : MoveSides) (i : Nat) : Finset Path :=
  s.baseline.rowSet.filter fun p => depth p = i ∧ settled s p = true

def rowsAt (s : MoveSides) (i : Nat) : Finset Path :=
  s.baseline.rowSet.filter fun p => depth p = i

/-- The local directories at one depth the remote has no directory for. -/
def unpairedAt (s : MoveSides) (i : Nat) : Finset Path :=
  s.l.paths.toFinset.filter fun p => depth p = i ∧ s.l.dirAt p = true ∧ s.r.dirAt p = false

/-- What goes down at one depth while only the local side moves. -/
def levelAt (s : MoveSides) (i : Nat) : Nat ×ₗ Nat ×ₗ Nat :=
  toLex ((remoteDirSet s.r).card - (settledAt s i).card,
    toLex ((rowsAt s i).card, (unpairedAt s i).card))

section Levels

variable {s : MoveSides} {src dst : Path} {i : Nat}

variable {p : Path} {s' : MoveSides}

theorem mem_settledAt :
    p ∈ settledAt s i ↔ s.baseline.containsKey p ∧ depth p = i ∧ settled s p := by
  rw [settledAt, Finset.mem_filter, mem_rowSet]

theorem mem_rowsAt :
    p ∈ rowsAt s i ↔ s.baseline.containsKey p ∧ depth p = i := by
  rw [rowsAt, Finset.mem_filter, mem_rowSet]

theorem mem_unpairedAt :
    p ∈ unpairedAt s i ↔ depth p = i ∧ s.l.dirAt p ∧ s.r.dirAt p = false := by
  rw [unpairedAt, Finset.mem_filter, mem_toFinset, mem_paths]
  constructor
  · exact fun h => h.2
  · exact fun h => ⟨holds_of_dirAt h.2.1, h⟩

theorem settled_iff :
    settled s p ↔ s.l.dirAt p ∧ ∃ row uuid, s.baseline.get p = some row ∧
      dirMoveSource row = some uuid ∧ remoteDirAt s.r uuid = some p := by
  unfold settled
  simp only [Bool.and_eq_true, Option.any_eq_true, decide_eq_true_eq]
  constructor
  · rintro ⟨hdir, row, hrow, uuid, huuid, hat⟩
    exact ⟨hdir, row, uuid, hrow, huuid, hat⟩
  rintro ⟨hdir, row, uuid, hrow, huuid, hat⟩
  exact ⟨hdir, row, hrow, uuid, huuid, hat⟩

theorem card_settledAt_le : (settledAt s i).card ≤ (remoteDirSet s.r).card := by
  apply Finset.card_le_card
  intro p hp
  obtain ⟨-, row, uuid, -, -, hat⟩ := settled_iff.mp (mem_settledAt.mp hp).2.2
  obtain ⟨node, hnode, hdir, -⟩ := mem_dirs_of_remoteDirAt hat
  rw [remoteDirSet, mem_toFinset]
  exact mem_map.mpr ⟨(p, node), mem_dirs.mpr ⟨hnode, hdir⟩, rfl⟩

theorem levelAt_lt_of_settled (hr : s'.r = s.r)
    (h : (settledAt s i).card < (settledAt s' i).card) : levelAt s' i < levelAt s i := by
  have hle := card_settledAt_le (s := s') (i := i)
  rw [hr] at hle
  rw [levelAt, levelAt, hr, Prod.Lex.toLex_lt_toLex]
  left
  omega

theorem levelAt_lt_of_rows (hr : s'.r = s.r) (hs : (settledAt s i).card ≤ (settledAt s' i).card)
    (hlt : (rowsAt s' i).card < (rowsAt s i).card ∨
      (rowsAt s' i).card ≤ (rowsAt s i).card ∧ (unpairedAt s' i).card < (unpairedAt s i).card) :
    levelAt s' i < levelAt s i := by
  rw [levelAt, levelAt, hr, Prod.Lex.toLex_lt_toLex, Prod.Lex.toLex_lt_toLex]
  omega

end Levels

/-! ## A move of the local side -/

section MoveLocal

variable {s : MoveSides} {src dst : Path} {kind : NodeKind}

variable {p : Path} {uuid : Uuid}

theorem containsKey_unmoved (h : Ends src dst) (hp : Unmoved src dst p) :
    (foldMove s (.moveLocal src dst kind)).baseline.containsKey p =
      s.baseline.containsKey p := by
  show ((s.baseline.moveSubtree src dst).get p).isSome = _
  rw [h.get_unmoved hp]
  rfl

theorem dirAt_unmoved (h : Ends src dst) (hfree : ∀ p ∈ s.l.heldPaths, ¬ AtOrUnder p dst) (hp : Unmoved src dst p) :
    (foldMove s (.moveLocal src dst kind)).l.dirAt p = s.l.dirAt p := by
  show ((s.l.rekeySubtree src dst).nodeAt p).any _ = _
  rw [h.nodeAt_unmoved hfree hp]
  rfl

theorem settled_unmoved (h : Ends src dst) (hfree : ∀ p ∈ s.l.heldPaths, ¬ AtOrUnder p dst) (hp : Unmoved src dst p) :
    settled (foldMove s (.moveLocal src dst kind)) p = settled s p := by
  unfold settled
  rw [dirAt_unmoved h hfree hp]
  show (_ && ((s.baseline.moveSubtree src dst).get p).any _) = _
  rw [h.get_unmoved hp]
  rfl

theorem levelAt_above (h : Ends src dst) (hfree : ∀ p ∈ s.l.heldPaths, ¬ AtOrUnder p dst)
    {i : Nat} (hs : i < depth src) (hd : i < depth dst) :
    levelAt (foldMove s (.moveLocal src dst kind)) i = levelAt s i := by
  have hun : ∀ p, depth p = i → Unmoved src dst p := by
    rintro p rfl
    exact unmoved_of_depth_lt hs hd
  have hsettled : settledAt (foldMove s (.moveLocal src dst kind)) i = settledAt s i := by
    ext p
    rw [mem_settledAt, mem_settledAt]
    constructor
    · rintro ⟨hrow, hdepth, hset⟩
      rw [containsKey_unmoved h (hun p hdepth)] at hrow
      rw [settled_unmoved h hfree (hun p hdepth)] at hset
      exact ⟨hrow, hdepth, hset⟩
    rintro ⟨hrow, hdepth, hset⟩
    rw [containsKey_unmoved h (hun p hdepth), settled_unmoved h hfree (hun p hdepth)]
    exact ⟨hrow, hdepth, hset⟩
  have hrows : rowsAt (foldMove s (.moveLocal src dst kind)) i = rowsAt s i := by
    ext p
    rw [mem_rowsAt, mem_rowsAt]
    constructor
    · rintro ⟨hrow, hdepth⟩
      rw [containsKey_unmoved h (hun p hdepth)] at hrow
      exact ⟨hrow, hdepth⟩
    rintro ⟨hrow, hdepth⟩
    rw [containsKey_unmoved h (hun p hdepth)]
    exact ⟨hrow, hdepth⟩
  have hunpaired : unpairedAt (foldMove s (.moveLocal src dst kind)) i = unpairedAt s i := by
    ext p
    rw [mem_unpairedAt, mem_unpairedAt]
    constructor
    · rintro ⟨hdepth, hdir, hremote⟩
      rw [dirAt_unmoved h hfree (hun p hdepth)] at hdir
      exact ⟨hdepth, hdir, hremote⟩
    rintro ⟨hdepth, hdir, hremote⟩
    rw [dirAt_unmoved h hfree (hun p hdepth)]
    exact ⟨hdepth, hdir, hremote⟩
  unfold levelAt
  rw [hsettled, hrows, hunpaired]
  rfl

theorem settledAt_subset (kind : NodeKind) (h : Ends src dst) (hfree : ∀ p ∈ s.l.heldPaths, ¬ AtOrUnder p dst)
    {i : Nat} (hs : i ≤ depth src) (hd : i ≤ depth dst) (hsrc : settled s src = false) (hdst : settled s dst = false) :
    settledAt s i ⊆ settledAt (foldMove s (.moveLocal src dst kind)) i := by
  intro p hp
  obtain ⟨hrow, hdepth, hset⟩ := mem_settledAt.mp hp
  have hps : p ≠ src := by
    rintro rfl
    simp [hsrc] at hset
  have hpd : p ≠ dst := by
    rintro rfl
    simp [hdst] at hset
  have hun := unmoved_of_depth_le (by omega) (by omega) hps hpd
  rw [mem_settledAt, containsKey_unmoved h hun, settled_unmoved h hfree hun]
  exact ⟨hrow, hdepth, hset⟩

theorem settled_eq_false_of_not_holds (h : s.l.holds p = false) :
    settled s p = false := by
  rw [Bool.eq_false_iff]
  intro hset
  have := holds_of_dirAt (settled_iff.mp hset).1
  simp [h] at this

theorem levelAt_pull {row : BaselineEntry} (h : Ends src dst) (hfree : ∀ p ∈ s.l.heldPaths, ¬ AtOrUnder p dst)
    (hrows : ∀ p, s.baseline.containsKey p → ¬ AtOrUnder p dst)
    (hrow : s.baseline.get src = some row) (hsource : dirMoveSource row = some uuid)
    (hlocal : s.l.dirAt src) (hremote : remoteDirAt s.r uuid = some dst) :
    levelAt (foldMove s (.moveLocal src dst kind)) (min (depth src) (depth dst)) <
      levelAt s (min (depth src) (depth dst)) := by
  have hdst : s.l.holds dst = false :=
    not_mem_heldPaths.mp fun hmem => hfree dst hmem (atOrUnder_refl dst)
  have hsettled : settled s src = false := by
    rw [Bool.eq_false_iff]
    intro hset
    obtain ⟨-, row', uuid', hrow', hsource', hat⟩ := settled_iff.mp hset
    rw [hrow] at hrow'
    cases hrow'
    rw [hsource] at hsource'
    cases hsource'
    rw [hremote] at hat
    exact h.ne (Option.some.inj hat).symm
  have hsubset := settledAt_subset kind h hfree (min_le_left _ _)
    (min_le_right _ _) hsettled (settled_eq_false_of_not_holds hdst)
  by_cases hdepth : depth dst ≤ depth src
  · -- the row settles at its new depth
    rw [min_eq_right hdepth] at hsubset ⊢
    refine levelAt_lt_of_settled rfl (Finset.card_lt_card ?_)
    refine (Finset.ssubset_iff_of_subset hsubset).mpr ⟨dst, ?_, ?_⟩
    · have hat := h.get_dst hrow
      refine mem_settledAt.mpr ⟨containsKey_iff.mpr ⟨_, hat⟩, rfl, ?_⟩
      refine settled_iff.mpr ⟨?_, _, uuid, hat, hsource, hremote⟩
      obtain ⟨node, hnode, hdir⟩ := dirAt_iff.mp hlocal
      refine dirAt_iff.mpr ⟨FromRow.setPath node dst, ?_, hdir⟩
      show (s.l.rekeySubtree src dst).nodeAt dst = _
      rw [h.nodeAt_landing hfree (movedPath_self src dst), hnode]
      rfl
    intro hmem
    exact hrows dst (mem_settledAt.mp hmem).1 (atOrUnder_refl dst)
  -- the row leaves its depth, and everything it carries lands deeper
  rw [min_eq_left (by omega)] at hsubset ⊢
  refine levelAt_lt_of_rows rfl (Finset.card_le_card hsubset) (Or.inl ?_)
  apply Finset.card_lt_card
  have hnosrc : src ∉ rowsAt (foldMove s (.moveLocal src dst kind)) (depth src) := by
    intro hmem
    have hkey : (s.baseline.moveSubtree src dst).containsKey src :=
      (mem_rowsAt.mp hmem).1
    rw [h.containsKey_src] at hkey
    cases hkey
  have hsub : rowsAt (foldMove s (.moveLocal src dst kind)) (depth src) ⊆
      rowsAt s (depth src) := by
    intro p hp
    obtain ⟨hprow, hpdepth⟩ := mem_rowsAt.mp hp
    have hps : p ≠ src := fun heq => hnosrc (heq ▸ hp)
    have hpd : p ≠ dst := by
      rintro rfl
      omega
    have hun := unmoved_of_depth_le hpdepth.le (by omega) hps hpd
    rw [containsKey_unmoved h hun] at hprow
    exact mem_rowsAt.mpr ⟨hprow, hpdepth⟩
  exact (Finset.ssubset_iff_of_subset hsub).mpr
    ⟨src, mem_rowsAt.mpr ⟨containsKey_iff.mpr ⟨row, hrow⟩, rfl⟩, hnosrc⟩

theorem levelAt_recased {fold : CaseFold} {held : PathSet} (h : Ends src dst)
    (hfree : ∀ p ∈ s.l.heldPaths, ¬ AtOrUnder p dst) (hcase : CaseOnly fold held s src dst uuid) :
    levelAt (foldMove s (.moveLocal src dst kind)) (depth src) < levelAt s (depth src) := by
  have hdepth : depth src = depth dst := CaseFold.depth_eq_of_collisionKey hcase.key_eq
  have hsettled : settled s src = false := by
    rw [Bool.eq_false_iff]
    intro hset
    obtain ⟨-, -, uuid', -, -, hat⟩ := settled_iff.mp hset
    obtain ⟨node, hnode, -⟩ := mem_dirs_of_remoteDirAt hat
    have hholds := holds_iff.mpr ⟨node, hnode⟩
    simp [hcase.remote_free] at hholds
  have hsubset := settledAt_subset kind h hfree le_rfl hdepth.le hsettled
    (settled_eq_false_of_not_holds hcase.local_free)
  refine levelAt_lt_of_rows rfl (Finset.card_le_card hsubset) (Or.inr ⟨?_, ?_⟩)
  · have hinj : Set.InjOn (cameFrom s.baseline src dst)
        (rowsAt (foldMove s (.moveLocal src dst kind)) (depth src)) :=
      h.cameFrom_injOn.mono (Finset.coe_subset.mpr (Finset.filter_subset _ _))
    refine Finset.card_le_card_of_injOn _ ?_ hinj
    intro p hp
    obtain ⟨hprow, hpdepth⟩ := mem_rowsAt.mp hp
    rcases h.cameFrom_cases hprow with ⟨a, ha, hkey, hfrom⟩ | ⟨hkey, -, hfrom⟩
    · rw [hfrom]
      have hsame := CaseFold.depth_eq_of_collisionKey (collisionKey_landing ha hcase.key_eq)
      exact mem_rowsAt.mpr ⟨hkey, by omega⟩
    rw [hfrom]
    exact mem_rowsAt.mpr ⟨hkey, hpdepth⟩
  apply Finset.card_lt_card
  obtain ⟨node, hnode, hkind, -⟩ := hcase.remote_dir
  have hnosrc : src ∉ unpairedAt (foldMove s (.moveLocal src dst kind)) (depth src) := by
    intro hmem
    obtain ⟨-, hdir, -⟩ := mem_unpairedAt.mp hmem
    obtain ⟨node', hnode', -⟩ := dirAt_iff.mp hdir
    have hnone := h.nodeAt_src hfree
    rw [show (s.l.rekeySubtree src dst).nodeAt src = some node' from hnode'] at hnone
    cases hnone
  have hsub : unpairedAt (foldMove s (.moveLocal src dst kind)) (depth src) ⊆
      unpairedAt s (depth src) := by
    intro p hp
    obtain ⟨hpdepth, hpdir, hpremote⟩ := mem_unpairedAt.mp hp
    have hps : p ≠ src := fun heq => hnosrc (heq ▸ hp)
    have hpd : p ≠ dst := by
      rintro rfl
      have hdir : s.r.dirAt p := dirAt_iff.mpr ⟨node, hnode, hkind⟩
      rw [show s.r.dirAt p = false from hpremote] at hdir
      cases hdir
    have hun := unmoved_of_depth_le hpdepth.le (by omega) hps hpd
    rw [dirAt_unmoved h hfree hun] at hpdir
    exact mem_unpairedAt.mpr ⟨hpdepth, hpdir, hpremote⟩
  have hunheld : s.r.dirAt src = false := by
    rw [Bool.eq_false_iff]
    intro hdir
    have := holds_of_dirAt hdir
    simp [hcase.remote_free] at this
  exact (Finset.ssubset_iff_of_subset hsub).mpr
    ⟨src, mem_unpairedAt.mpr ⟨rfl, hcase.local_dir, hunheld⟩, hnosrc⟩

end MoveLocal

/-! ## The loop -/

section Loop

variable {fold : CaseFold} {digest : Digest} {held : PathSet} {s : MoveSides}

/-- One turn of the loop, from a state of the shape the loop keeps. -/
structure Turn (fold : CaseFold) (digest : Digest) (held : PathSet) (s' s : MoveSides) : Prop where
  rooted : RootedSides fold s
  next : ∃ move, nextMove fold digest held s = some move ∧ s' = foldMove s move.1

theorem foldDirMoves_of_acc (hinv : RootedSides fold s) (hacc : Acc (Turn fold digest held) s) :
    ∃ fuel out, foldDirMoves fold digest held fuel s = some out := by
  induction hacc with
  | intro s _ ih =>
    cases hnext : nextMove fold digest held s with
    | none =>
      refine ⟨1, ([], s), ?_⟩
      rw [foldDirMoves, hnext]
    | some move =>
      have hfound := found_of_nextMove hnext
      obtain ⟨fuel, out, hout⟩ := ih (foldMove s move.1) ⟨hinv, move, hnext, rfl⟩
        (hinv.foldMove hfound)
      refine ⟨fuel + 1, (move.1 :: out.1, out.2), ?_⟩
      rw [foldDirMoves, hnext]
      dsimp only
      rw [hout]
      rfl

theorem depth_le_remoteDepth {r : Nodes RemoteNode} {p : Path} (h : r.holds p) :
    depth p < remoteDepth r + 1 := by
  have hmem : p ∈ r.paths.toFinset := mem_toFinset.mpr (mem_paths.mpr h)
  exact Nat.lt_succ_of_le (Finset.le_sup (f := depth) hmem)

theorem Found.remote_onto_local {src dst : Path} {kind : NodeKind} {uuid : Uuid}
    (h : Found fold held s (.moveRemote src dst kind uuid)) (hinv : RootedSides fold s) :
    s.l.dirAt dst ∧ ∀ p ∈ s.l.heldPaths, ¬ AtOrUnder p src := by
  cases h with
  | push mode row_at remote_dir local_gone local_new clear =>
    refine ⟨local_new, fun p hp hover => ?_⟩
    exact occupied_eq_false.mp local_gone p hp (CaseFold.atOrUnder_collisionKey hover)
  | caseRemote mode row_at spelled =>
    have hpaths := hinv.l.recasedPaths spelled.key_eq spelled.parent_eq
      (holds_of_dirAt spelled.local_dir) (not_mem_heldPaths.mpr spelled.local_free)
    exact ⟨spelled.local_dir, hpaths.free⟩

variable {a : SyncAction}

theorem Found.descends (h : Found fold held s a) (hinv : RootedSides fold s) (hmode : s.mode.pulls) :
    Descends (fun s => (uncovered s).card) MoveSides.r (fun r => remoteDepth r + 1) levelAt
      (foldMove s a) s := by
  cases a with
  | moveLocal src dst kind =>
    have hcarries := h.carries_local hinv
    have hle := card_uncovered_moveLocal kind hcarries.ends hcarries.free
    cases h with
    | pull mode row_at source local_dir remote_at clear =>
      obtain ⟨node, hnode, -⟩ := mem_dirs_of_remoteDirAt remote_at
      have hdepth := depth_le_remoteDepth (holds_iff.mpr ⟨node, hnode⟩)
      have hrows : ∀ p, s.baseline.containsKey p → ¬ AtOrUnder p dst := by
        intro p hp hover
        exact (occupied_eq_false hcarries.ends.dst_ne).mp clear.rows_free p hp
          (CaseFold.atOrUnder_collisionKey hover)
      refine .level rfl hle (min (depth src) (depth dst))
        (lt_of_le_of_lt (min_le_right _ _) hdepth) ?_
        (levelAt_pull hcarries.ends hcarries.free hrows row_at source local_dir remote_at)
      intro j hj
      exact levelAt_above hcarries.ends hcarries.free (by omega) (by omega)
    | caseLocal mode spelled =>
      obtain ⟨node, hnode, -⟩ := spelled.remote_dir
      have hdepth := depth_le_remoteDepth (holds_iff.mpr ⟨node, hnode⟩)
      have hsame := CaseFold.depth_eq_of_collisionKey spelled.key_eq
      refine .level rfl hle (depth src) (by rw [hsame]; exact hdepth) ?_
        (levelAt_recased hcarries.ends hcarries.free spelled)
      intro j hj
      exact levelAt_above hcarries.ends hcarries.free hj (by omega)
  | moveRemote src dst kind uuid =>
    have hcarries := h.carries_remote hinv
    obtain ⟨hdir, hgone⟩ := h.remote_onto_local hinv
    have hrow : s.baseline.containsKey src := by
      cases h with
      | push mode row_at remote_dir local_gone local_new clear =>
        exact containsKey_iff.mpr ⟨_, row_at⟩
      | caseRemote mode row_at spelled => exact row_at hmode
    exact .major (card_uncovered_moveRemote hcarries.ends hrow hgone (holds_of_dirAt hdir))
  | createLocalDir | downloadFile | deleteLocal | createRemoteDir | uploadFile | trashRemote
  | conflict | adoptBaseline => nomatch h

/-- The local directories the remote has no directory for. -/
def unpaired (s : MoveSides) : Finset Path :=
  s.l.paths.toFinset.filter fun p => s.l.dirAt p = true ∧ s.r.dirAt p = false

theorem mem_unpaired {p : Path} :
    p ∈ unpaired s ↔ s.l.dirAt p ∧ s.r.dirAt p = false := by
  rw [unpaired, Finset.mem_filter, mem_toFinset, mem_paths]
  constructor
  · exact fun h => h.2
  · exact fun h => ⟨holds_of_dirAt h.1, h⟩

theorem Found.unpaired_lt (h : Found fold held s a) (hinv : RootedSides fold s)
    (hmode : s.mode.pulls = false) : (unpaired (foldMove s a)).card < (unpaired s).card := by
  cases a with
  | moveLocal src dst kind =>
    cases h with
    | pull mode => simp [hmode] at mode
    | caseLocal mode => simp [hmode] at mode
  | moveRemote src dst kind uuid =>
    have hcarries := h.carries_remote hinv
    obtain ⟨hdir, hgone⟩ := h.remote_onto_local hinv
    have hsource : s.r.dirAt src := by
      cases h with
      | push mode row_at remote_dir local_gone local_new clear =>
        obtain ⟨node, hnode, hkind, -⟩ := remote_dir
        exact dirAt_iff.mpr ⟨node, hnode, hkind⟩
      | caseRemote mode row_at spelled =>
        obtain ⟨node, hnode, hkind, -⟩ := spelled.remote_dir
        exact dirAt_iff.mpr ⟨node, hnode, hkind⟩
    have hlands : (s.r.rekeySubtree src dst).dirAt dst := by
      obtain ⟨node, hnode, hkind⟩ := dirAt_iff.mp hsource
      refine dirAt_iff.mpr ⟨FromRow.setPath node dst, ?_, hkind⟩
      rw [hcarries.ends.nodeAt_landing hcarries.free (movedPath_self src dst), hnode]
      rfl
    have hfreedst : s.r.dirAt dst = false := by
      rw [Bool.eq_false_iff]
      intro hheld
      exact hcarries.free dst (holds_of_dirAt hheld) (atOrUnder_refl dst)
    have hsub : unpaired (foldMove s (.moveRemote src dst kind uuid)) ⊆ unpaired s := by
      intro p hp
      obtain ⟨hpdir, hpremote⟩ := mem_unpaired.mp hp
      refine mem_unpaired.mpr ⟨hpdir, ?_⟩
      by_cases hover : AtOrUnder p dst
      · rw [Bool.eq_false_iff]
        intro hheld
        exact hcarries.free p (holds_of_dirAt hheld) hover
      have hun : Unmoved src dst p := ⟨hgone p (holds_of_dirAt hpdir), hover⟩
      have hsame : (s.r.rekeySubtree src dst).dirAt p = s.r.dirAt p := by
        unfold Nodes.dirAt
        rw [hcarries.ends.nodeAt_unmoved hcarries.free hun]
      rw [← hsame]
      exact hpremote
    apply Finset.card_lt_card
    refine (Finset.ssubset_iff_of_subset hsub).mpr
      ⟨dst, mem_unpaired.mpr ⟨hdir, hfreedst⟩, ?_⟩
    intro hmem
    have hno : (s.r.rekeySubtree src dst).dirAt dst = false := (mem_unpaired.mp hmem).2
    rw [hlands] at hno
    cases hno
  | createLocalDir | downloadFile | deleteLocal | createRemoteDir | uploadFile | trashRemote
  | conflict | adoptBaseline => nomatch h

theorem mode_foldMove (s : MoveSides) (a : SyncAction) : (foldMove s a).mode = s.mode := by
  cases a <;> rfl

theorem acc_turn (s : MoveSides) : Acc (Turn fold digest held) s := by
  cases hmode : s.mode.pulls with
  | true =>
    have hwf : WellFounded fun s' s => Turn fold digest held s' s ∧ s.mode.pulls := by
      refine wellFounded_of_descends (fun s => (uncovered s).card) MoveSides.r
        (fun r => remoteDepth r + 1) levelAt ?_
      rintro s' s ⟨⟨hinv, move, hnext, rfl⟩, hpulls⟩
      exact (found_of_nextMove hnext).descends hinv hpulls
    induction hwf.apply s with
    | intro s _ ih =>
      refine Acc.intro s fun s' hturn => ih s' ⟨hturn, hmode⟩ ?_
      obtain ⟨-, move, -, rfl⟩ := hturn
      rw [mode_foldMove]
      exact hmode
  | false =>
    induction hcard : (unpaired s).card using Nat.strong_induction_on generalizing s with
    | _ n ih =>
      refine Acc.intro s fun s' hturn => ?_
      obtain ⟨hinv, move, hnext, rfl⟩ := hturn
      have hlt := (found_of_nextMove hnext).unpaired_lt hinv hmode
      exact ih _ (by omega) (foldMove s move.1) (by rw [mode_foldMove]; exact hmode) rfl

/-- The fold of directory moves ends on every baseline, pair of whole sides and
held set, in every mode. -/
theorem foldDirMoves_terminates (fold : CaseFold) (digest : Digest) (held : PathSet)
    (mode : SyncMode) (b : Baseline) (l : WholeSide LocalNode) (r : WholeSide RemoteNode) :
    ∃ fuel out, foldDirMoves fold digest held fuel ⟨mode, l.nodes, r.nodes, b⟩ = some out :=
  foldDirMoves_of_acc ⟨l.rooted fold, r.rooted fold⟩ (acc_turn _)

end Loop

end SyncEngine
