import SyncEngine.DirMoves.Termination

/-! # The folded moves, executed

The moves the fold returns are carried out one after another as renames of
subtrees, a local one on the local tree and a remote one on the remote tree.
Each was found in inputs the earlier ones re-keyed, so what it finds on the
trees is what the detectors saw, and the trees the last one leaves are the
re-keyed sides.
-/

namespace SyncEngine

open Collections Nodes

/-- A tree once the subtree at `src` has been renamed to `dst`. -/
def renameTree {ν : Type} [FromRow ν] (tree : Path → Option ν) (src dst : Path) :
    Path → Option ν := fun p =>
  match movedPath p dst src with
  | some a => (tree a).map (FromRow.setPath · p)
  | none => if AtOrUnder p src then none else tree p

/-- Two spellings of one name under one parent. -/
def CaseOnlyRename (fold : CaseFold) (src dst : Path) : Prop :=
  fold.collisionKey src = fold.collisionKey dst ∧ parentPath src = parentPath dst

/-- What a rename of a subtree needs of the tree it is carried out on. -/
structure Executable {ν : Type} [Kinded ν] (fold : CaseFold) (held : PathSet)
    (tree : Path → Option ν) (src dst : Path) : Prop where
  source : ∃ node, tree src = some node ∧ Kinded.kind node = .dir
  /-- At or under the destination, under any spelling, is at most the source of
  a case-only rename. -/
  destination : ∀ p, tree p ≠ none →
    AtOrUnder (fold.collisionKey p) (fold.collisionKey dst) →
      CaseOnlyRename fold src dst ∧ AtOrUnder p src
  apart : ¬ AtOrUnder src dst ∧ ¬ AtOrUnder dst src
  clear_of_held : ∀ h ∈ held, ∀ e, e = src ∨ e = dst → ¬ AtOrUnder e h ∧ ¬ AtOrUnder h e

/-- Carrying out a list of moves from one pair of trees to another. -/
inductive Executes (fold : CaseFold) (held : PathSet) :
    (Path → Option LocalNode) → (Path → Option RemoteNode) → List SyncAction →
      (Path → Option LocalNode) → (Path → Option RemoteNode) → Prop where
  | done (l : Path → Option LocalNode) (r : Path → Option RemoteNode) :
      Executes fold held l r [] l r
  | moveLocal {l l' : Path → Option LocalNode} {r r' : Path → Option RemoteNode}
      {src dst : Path} {rest : List SyncAction}
      (step : Executable fold held l src dst)
      (next : Executes fold held (renameTree l src dst) r rest l' r') :
      Executes fold held l r (.moveLocal src dst .dir :: rest) l' r'
  | moveRemote {l l' : Path → Option LocalNode} {r r' : Path → Option RemoteNode}
      {src dst : Path} {uuid : Uuid} {rest : List SyncAction}
      (step : Executable fold held r src dst)
      (item : ∃ node, r src = some node ∧ node.remoteUuid = uuid)
      (next : Executes fold held l (renameTree r src dst) rest l' r') :
      Executes fold held l r (.moveRemote src dst .dir uuid :: rest) l' r'

/-- A whole side no two paths of which share a collision key. -/
structure KeyedSide (fold : CaseFold) (ν : Type) [Kinded ν] extends WholeSide ν where
  keys : ∀ p ∈ nodes.paths, ∀ q ∈ nodes.paths,
    fold.collisionKey p = fold.collisionKey q → p = q

theorem KeyedSide.uniqueKeys {fold : CaseFold} {ν : Type} [Kinded ν] (side : KeyedSide fold ν) :
    UniqueKeys fold side.nodes.heldPaths := by
  intro p hp q hq
  exact side.keys p (mem_paths.mpr hp) q (mem_paths.mpr hq)

/-! ## One move -/

theorem not_atOrUnder_of_touchesHeld {held : PathSet} {e h : Path}
    (hclear : touchesHeld e held = false) (hh : h ∈ held) :
    ¬ AtOrUnder e h ∧ ¬ AtOrUnder h e := by
  rw [Bool.eq_false_iff, ne_eq, touchesHeld_iff] at hclear
  constructor
  · rintro (heq | hu)
    · exact hclear ⟨h, hh, Or.inl heq⟩
    · exact hclear ⟨h, hh, Or.inr (Or.inl hu)⟩
  rintro (heq | hu)
  · exact hclear ⟨h, hh, Or.inl heq.symm⟩
  · exact hclear ⟨h, hh, Or.inr (Or.inr hu)⟩

section Step

variable {fold : CaseFold} {held : PathSet} {s : MoveSides} {src dst : Path}

theorem Carries.caseOnlyRename {S : Set Path} (h : Carries fold S src dst)
    (hkey : fold.collisionKey src = fold.collisionKey dst) (hsrc : src ∈ S) :
    CaseOnlyRename fold src dst := by
  cases h with
  | clear h => exact absurd (Or.inl hkey) (h.free src hsrc)
  | recased h => exact ⟨h.key_eq, h.parent_eq⟩

theorem Carries.executable {ν : Type} [Kinded ν] {side : Nodes ν}
    (h : Carries fold side.heldPaths src dst) (hroot : Rooted fold side.heldPaths)
    (hkeys : UniqueKeys fold side.heldPaths) (hdir : side.dirAt src)
    (hsrc : touchesHeld src held = false) (hdst : touchesHeld dst held = false) :
    Executable fold held side.nodeAt src dst := by
  refine ⟨dirAt_iff.mp hdir, ?_, ?_, ?_⟩
  · intro p hp hover
    obtain ⟨node, hnode⟩ := Option.ne_none_iff_exists'.mp hp
    obtain ⟨hkey, hunder⟩ :=
      h.only_source hroot hkeys (holds_iff.mpr ⟨node, hnode⟩) hover
    exact ⟨h.caseOnlyRename hkey (holds_of_dirAt hdir), hunder⟩
  · exact ⟨fun hu => h.ends.apart hu (atOrUnder_refl src),
      fun hu => h.ends.apart (atOrUnder_refl dst) hu⟩
  rintro q hq e (rfl | rfl)
  · exact not_atOrUnder_of_touchesHeld hsrc hq
  · exact not_atOrUnder_of_touchesHeld hdst hq

theorem Carries.renameTree_nodeAt {ν : Type} [FromRow ν] {side : Nodes ν} (h : Carries fold side.heldPaths src dst) :
    (side.rekeySubtree src dst).nodeAt = renameTree side.nodeAt src dst := by
  funext p
  exact nodeAt_rekeySubtree h.ends side (nodeAt_eq_none_of_free h.free) p

/-- What the loop keeps of both sides. -/
structure KeyedSides (fold : CaseFold) (s : MoveSides) : Prop extends RootedSides fold s where
  uniqueL : UniqueKeys fold s.l.heldPaths
  uniqueR : UniqueKeys fold s.r.heldPaths

theorem KeyedSides.foldMove {a : SyncAction} (hinv : KeyedSides fold s)
    (h : Found fold held s a) : KeyedSides fold (foldMove s a) := by
  refine ⟨hinv.toRootedSides.foldMove h, ?_, ?_⟩
  · cases a with
    | moveLocal src dst kind =>
      have hcarries := h.carries_local hinv.toRootedSides
      show UniqueKeys fold (s.l.rekeySubtree src dst).heldPaths
      rw [heldPaths_rekeySubtree hcarries.ends hcarries.free]
      exact hcarries.uniqueKeys hinv.uniqueL
    | moveRemote src dst kind uuid => exact hinv.uniqueL
    | createLocalDir | downloadFile | deleteLocal | createRemoteDir | uploadFile | trashRemote
    | conflict | adoptBaseline => nomatch h
  cases a with
  | moveRemote src dst kind uuid =>
    have hcarries := h.carries_remote hinv.toRootedSides
    show UniqueKeys fold (s.r.rekeySubtree src dst).heldPaths
    rw [heldPaths_rekeySubtree hcarries.ends hcarries.free]
    exact hcarries.uniqueKeys hinv.uniqueR
  | moveLocal src dst kind => exact hinv.uniqueR
  | createLocalDir | downloadFile | deleteLocal | createRemoteDir | uploadFile | trashRemote
  | conflict | adoptBaseline => nomatch h

theorem Found.executes {a : SyncAction} (h : Found fold held s a) (hinv : KeyedSides fold s)
    {rest : List SyncAction} {l' : Path → Option LocalNode} {r' : Path → Option RemoteNode}
    (hrest : Executes fold held (foldMove s a).l.nodeAt (foldMove s a).r.nodeAt rest l' r') :
    Executes fold held s.l.nodeAt s.r.nodeAt (a :: rest) l' r' := by
  cases a with
  | moveLocal src dst kind =>
    have hcarries := h.carries_local hinv.toRootedSides
    have htree := hcarries.renameTree_nodeAt
    have hnext : Executes fold held (renameTree s.l.nodeAt src dst) s.r.nodeAt rest l' r' := by
      rw [← htree]
      exact hrest
    cases h with
    | pull mode row_at source local_dir remote_at clear =>
      exact .moveLocal (hcarries.executable hinv.l hinv.uniqueL local_dir clear.held_src
        clear.held_dst) hnext
    | caseLocal mode spelled =>
      exact .moveLocal (hcarries.executable hinv.l hinv.uniqueL spelled.local_dir
        spelled.held_local spelled.held_remote) hnext
  | moveRemote src dst kind uuid =>
    have hcarries := h.carries_remote hinv.toRootedSides
    have htree := hcarries.renameTree_nodeAt
    have hnext : Executes fold held s.l.nodeAt (renameTree s.r.nodeAt src dst) rest l' r' := by
      rw [← htree]
      exact hrest
    cases h with
    | push mode row_at remote_dir local_gone local_new clear =>
      obtain ⟨node, hnode, hkind, huuid⟩ := remote_dir
      exact .moveRemote (hcarries.executable hinv.r hinv.uniqueR
        (dirAt_iff.mpr ⟨node, hnode, hkind⟩) clear.held_src clear.held_dst)
        ⟨node, hnode, huuid⟩ hnext
    | caseRemote mode row_at spelled =>
      obtain ⟨node, hnode, hkind, huuid⟩ := spelled.remote_dir
      exact .moveRemote (hcarries.executable hinv.r hinv.uniqueR
        (dirAt_iff.mpr ⟨node, hnode, hkind⟩) spelled.held_remote spelled.held_local)
        ⟨node, hnode, huuid⟩ hnext
  | createLocalDir | downloadFile | deleteLocal | createRemoteDir | uploadFile | trashRemote
  | conflict | adoptBaseline => nomatch h

end Step

section Fold

variable {fold : CaseFold} {digest : Digest} {held : PathSet}

theorem executes_of_foldDirMoves {fuel : Nat} {s : MoveSides}
    {out : List SyncAction × MoveSides} (hinv : KeyedSides fold s)
    (h : foldDirMoves fold digest held fuel s = some out) :
    Executes fold held s.l.nodeAt s.r.nodeAt out.1 out.2.l.nodeAt out.2.r.nodeAt := by
  induction fuel generalizing s out with
  | zero => cases h
  | succ fuel ih =>
    rw [foldDirMoves] at h
    cases hnext : nextMove fold digest held s with
    | none =>
      rw [hnext] at h
      cases h
      exact .done _ _
    | some move =>
      rw [hnext] at h
      obtain ⟨tail, htail, rfl⟩ := Option.map_eq_some_iff.mp h
      have hfound := found_of_nextMove hnext
      exact hfound.executes hinv (ih (hinv.foldMove hfound) htail)

/-- The fold returns, and its moves, carried out in order on the two trees it
was handed, are each executable and leave the re-keyed sides. -/
theorem foldDirMoves_executes (fold : CaseFold) (digest : Digest) (held : PathSet)
    (mode : SyncMode) (b : Baseline) (l : KeyedSide fold LocalNode) (r : KeyedSide fold RemoteNode) :
    (∃ fuel out, foldDirMoves fold digest held fuel ⟨mode, l.nodes, r.nodes, b⟩ = some out) ∧
      ∀ fuel moves out,
        foldDirMoves fold digest held fuel ⟨mode, l.nodes, r.nodes, b⟩ = some (moves, out) →
          Executes fold held l.nodes.nodeAt r.nodes.nodeAt moves out.l.nodeAt out.r.nodeAt := by
  have hinv : KeyedSides fold ⟨mode, l.nodes, r.nodes, b⟩ :=
    ⟨⟨l.rooted fold, r.rooted fold⟩, l.uniqueKeys, r.uniqueKeys⟩
  refine ⟨foldDirMoves_of_acc hinv.toRootedSides (acc_turn _), ?_⟩
  intro fuel moves out h
  exact executes_of_foldDirMoves hinv h

/-- The local directory `D` is spelled `d` remotely, the remote moved `k` to
`m`, and the local side moved `z` to `n`: one move of each shape. -/
theorem foldDirMoves_executes_three :
    let digest : Digest := fun read => BitVec.ofNat 256 read.length
    let b : Baseline :=
      ⟨[syncedRow ['k'] .dir 3 none, syncedRow ['z'] .dir 1 none,
        syncedRow ['z', '/', 'f'] .file 2 (some 7)], by decide⟩
    let l : Nodes LocalNode := ofList
      [(['D'], localItem ['D'] .dir none), (['n'], localItem ['n'] .dir none),
        (['n', '/', 'f'], localItem ['n', '/', 'f'] .file (some 7)),
        (['k'], localItem ['k'] .dir none)] (by decide)
    let r : Nodes RemoteNode := ofList
      [(['d'], remoteItem ['d'] .dir 4 none), (['z'], remoteItem ['z'] .dir 1 none),
        (['z', '/', 'f'], remoteItem ['z', '/', 'f'] .file 2 (some 7)),
        (['m'], remoteItem ['m'] .dir 3 none)] (by decide)
    ∃ out, Executes asciiFold SortedSet.empty l.nodeAt r.nodeAt
      [.moveLocal ['D'] ['d'] .dir, .moveLocal ['k'] ['m'] .dir, .moveRemote ['z'] ['n'] .dir 1]
      out.l.nodeAt out.r.nodeAt ∧
      foldDirMoves asciiFold digest SortedSet.empty 4 ⟨.twoWay, l, r, b⟩ = some
        ([.moveLocal ['D'] ['d'] .dir, .moveLocal ['k'] ['m'] .dir,
          .moveRemote ['z'] ['n'] .dir 1], out) := by
  intro digest b l r
  have hmoves : (foldDirMoves asciiFold digest SortedSet.empty 4 ⟨.twoWay, l, r, b⟩).map Prod.fst =
      some [.moveLocal ['D'] ['d'] .dir, .moveLocal ['k'] ['m'] .dir,
        .moveRemote ['z'] ['n'] .dir 1] := by decide +kernel
  obtain ⟨⟨moves, out⟩, hout, hfst⟩ := Option.map_eq_some_iff.mp hmoves
  subst hfst
  exact ⟨out, (foldDirMoves_executes asciiFold digest SortedSet.empty .twoWay b
    ⟨⟨l, by decide +kernel, by decide +kernel⟩, by decide +kernel⟩
    ⟨⟨r, by decide +kernel, by decide +kernel⟩, by decide +kernel⟩).2 4 _ out hout, hout⟩

end Fold

end SyncEngine
