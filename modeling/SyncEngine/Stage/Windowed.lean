import SyncEngine.Plan.TwoWay
import SyncEngine.Stage.Windows

/-! # The windows plan what the resident reconcile plans

Cut anywhere, the windows decide each path once, in path order. The join meets
the sources and the targets the resident join meets, less the ones under a held
path, which that join never acts on. Both tails drop and order the same actions.
-/

namespace SyncEngine

open Collections Pass Baseline Cand List SyncAction

namespace StagedSide

variable {ν : Type} [Keyed ν Path] (side : StagedSide ν)

theorem iter_nodes : side.nodes.iter = side.pages.map fun node => (Keyed.key node, node) :=
  Nodes.iter_ofList _

theorem nodeAt_nodes (p : Path) : side.nodes.nodeAt p = entryAt p side.pages := by
  refine Option.ext fun node => ?_
  rw [entryAt_eq_some side.sorted, ← Nodes.mem_iter, iter_nodes, mem_map]
  constructor
  · intro h
    rcases h with ⟨x, hx, heq⟩
    cases heq
    exact ⟨hx, rfl⟩
  intro h
  exact ⟨node, h.1, by rw [h.2]⟩

theorem fileOfUuid_eq (side : StagedSide RemoteNode) (uuid : Uuid) :
    side.fileOfUuid uuid = uuidTarget side.nodes.iter uuid := by
  unfold fileOfUuid uuidTarget
  rw [iter_nodes, filter_map, map_map]
  rfl

theorem fileOfLineage_eq (side : StagedSide RemoteNode) (lineage : StableUuid) :
    side.fileOfLineage lineage = lineageTarget side.nodes.iter lineage := by
  unfold fileOfLineage lineageTarget
  rw [iter_nodes, filter_map, map_map]
  rfl

theorem targetOf_eq (side : StagedSide RemoteNode) (base : BaselineEntry) (uuid : Uuid) :
    side.targetOf base uuid = pullTarget side.nodes.iter base uuid := by
  have hlineage : side.fileOfLineage = lineageTarget side.nodes.iter :=
    funext fun lineage => side.fileOfLineage_eq lineage
  have huuid := side.fileOfUuid_eq uuid
  unfold targetOf pullTarget
  cases hat : uuidTarget side.nodes.iter uuid with
  | none => simp [huuid, hat, hlineage]
  | some dst => simp [huuid, hat]

end StagedSide

theorem get_eq_entryAt (b : Baseline) (p : Path) : b.get p = entryAt p b.rows := by
  unfold Baseline.get entryAt
  congr 1
  funext row
  exact decide_eq_decide.mpr Iff.rfl

theorem rows_inKeyOrder (b : Baseline) : InKeyOrder b.rows := pairwise_map.mp b.sorted

theorem takenByHeld_eq (held : PathSet) (p : Path) :
    takenByHeld held p = isUnderHeldPath p held := by
  unfold takenByHeld
  cases hnil : held.toList with
  | cons h rest => rfl
  | nil =>
    have hnone : ∀ q, ¬ q ∈ held := by
      intro q hq
      rw [SortedSet.mem_def, hnil] at hq
      cases hq
    have hfree : isUnderHeldPath p held = false := by
      by_contra htaken
      rw [Bool.not_eq_false] at htaken
      rcases atOrUnderRoot_iff.mp htaken with ⟨q, hq, -⟩
      exact hnone q hq
    rw [hfree]
    rfl

namespace Seq

def advance (s : Seq) (n : Nat) : Seq := { s with index := s.index + n }

theorem advance_zero (s : Seq) : s.advance 0 = s := rfl

theorem next_advance (s : Seq) (n : Nat) : s.next.advance n = s.advance (n + 1) := by
  simp [next, advance]
  omega

theorem advance_advance (s : Seq) (m n : Nat) : (s.advance m).advance n = s.advance (m + n) := by
  simp [advance]
  omega

end Seq

/-- Actions at the places from `s` on. -/
def numbered (s : Seq) : List SyncAction → List (Seq × SyncAction)
  | [] => []
  | a :: rest => (s, a) :: numbered s.next rest

theorem numbered_append (s : Seq) (as bs : List SyncAction) :
    numbered s (as ++ bs) = numbered s as ++ numbered (s.advance as.length) bs := by
  induction as generalizing s with
  | nil => rfl
  | cons a rest ih => simp [numbered, ih, Seq.next_advance]

theorem map_snd_numbered (s : Seq) (as : List SyncAction) : (numbered s as).map Prod.snd = as := by
  induction as generalizing s with
  | nil => rfl
  | cons a rest ih => simp [numbered, ih]

theorem mem_numbered {s : Seq} {as : List SyncAction} {row : Seq × SyncAction} (h : row ∈ numbered s as) :
    row.1.ofWindow = s.ofWindow ∧ s.index ≤ row.1.index ∧ row.2 ∈ as := by
  induction as generalizing s with
  | nil => cases h
  | cons a rest ih =>
    rcases mem_cons.mp h with rfl | hrest
    · exact ⟨rfl, le_refl _, by simp⟩
    rcases ih hrest with ⟨hside, hindex, hmem⟩
    refine ⟨hside, ?_, mem_cons_of_mem _ hmem⟩
    have hnext : s.next.index = s.index + 1 := rfl
    omega

theorem numbered_ranked (s : Seq) (as : List SyncAction) :
    (numbered s as).Pairwise fun x y => x.1 < y.1 := by
  induction as generalizing s with
  | nil => exact List.Pairwise.nil
  | cons a rest ih =>
    refine pairwise_cons.mpr ⟨fun row hrow => ?_, ih s.next⟩
    rcases mem_numbered hrow with ⟨hside, hindex, -⟩
    have hlt : s.index < row.1.index := hindex
    exact Seq.lt_iff.mpr (Or.inr ⟨hside.symm, hlt⟩)

theorem foldl_action (out : Out) (as : List SyncAction) :
    as.foldl Out.action out =
      { out with
        reconciled := out.reconciled ++ numbered out.next as
        next := out.next.advance as.length } := by
  induction as generalizing out with
  | nil => simp [numbered, Seq.advance_zero]
  | cons a rest ih => simp [ih, Out.action, numbered, Seq.next_advance]

theorem foldl_note (out : Out) (cands : List Cand) :
    cands.foldl Out.note out = { out with cand := out.cand ++ cands } := by
  induction cands generalizing out with
  | nil => simp
  | cons c rest ih => simp [ih, Out.note]

/-! ## The windows -/

section Windows

variable (b : Baseline) (l : Nodes LocalNode) (r : Nodes RemoteNode)

def planAt (mode : SyncMode) (markedExits : List (Path × MarkedExit)) (key : Path) :
    List SyncAction :=
  decidePath mode key (b.get key) markedExits (l.nodeAt key) (r.nodeAt key)

def notesAt (pulls pushes : Bool) (key : Path) : List Cand :=
  candidates pulls pushes key (l.nodeAt key) (r.nodeAt key) (b.get key)

/-- The paths of a list no held path takes. -/
def liveKeys (held : PathSet) (keys : List Path) : List Path :=
  keys.filter fun key => !isUnderHeldPath key held

def Pass.wrote (pass : Pass) (planned : List SyncAction) (noted : List Cand) : Pass :=
  { pass with
    out :=
      { pass.out with
        reconciled := pass.out.reconciled ++ numbered pass.out.next planned
        cand := pass.out.cand ++ noted
        next := pass.out.next.advance planned.length } }

theorem Pass.wrote_wrote (pass : Pass) (as as' : List SyncAction) (cs cs' : List Cand) :
    (pass.wrote as cs).wrote as' cs' = pass.wrote (as ++ as') (cs ++ cs') := by
  simp [wrote, numbered_append, Seq.advance_advance]

theorem decide_of_held {pass : Pass} {key : Path} (h : isUnderHeldPath key pass.held)
    (node : Option LocalNode) (remote : Option RemoteNode) (base : Option BaselineEntry) :
    pass.decide key node remote base = { pass with deferred := pass.deferred + 1 } := by
  unfold Pass.decide
  rw [takenByHeld_eq, if_pos h]

theorem decide_of_live {pass : Pass} {key : Path} (h : isUnderHeldPath key pass.held = false) :
    pass.decide key (l.nodeAt key) (r.nodeAt key) (b.get key) =
      pass.wrote (planAt b l r pass.mode pass.markedExits key)
        (notesAt b l r pass.pulls pass.pushes key) := by
  unfold Pass.decide
  rw [takenByHeld_eq, h]
  simp [foldl_note, foldl_action, wrote, planAt, notesAt]

theorem foldl_decide (keys : List Path) (pass : Pass) :
    keys.foldl (fun pass key => pass.decide key (l.nodeAt key) (r.nodeAt key) (b.get key)) pass =
      { pass.wrote ((liveKeys pass.held keys).flatMap (planAt b l r pass.mode pass.markedExits))
          ((liveKeys pass.held keys).flatMap (notesAt b l r pass.pulls pass.pushes)) with
        deferred :=
          pass.deferred + (keys.filter fun key => isUnderHeldPath key pass.held).length } := by
  induction keys generalizing pass with
  | nil => simp [liveKeys, wrote, numbered, Seq.advance_zero]
  | cons key keys ih =>
    rw [foldl_cons, ih]
    cases hheld : isUnderHeldPath key pass.held with
    | true =>
      rw [decide_of_held hheld]
      simp [liveKeys, wrote, hheld]
      omega
    | false =>
      rw [decide_of_live b l r hheld]
      have hlive : liveKeys pass.held (key :: keys) = key :: liveKeys pass.held keys := by
        simp [liveKeys, hheld]
      rw [hlive, flatMap_cons, flatMap_cons, ← wrote_wrote]
      simp [hheld, wrote]

end Windows

section Pair

variable (b : Baseline) (l : StagedSide LocalNode) (r : StagedSide RemoteNode)

/-- The paths of a whole pass, listed off its staged inputs. -/
abbrev wholeKeys (held : PathSet) : PathSet := reconcileKeys .whole b l.nodes r.nodes held

theorem mem_wholeKeys_of_page (held : PathSet) {node : LocalNode} (h : node ∈ l.pages) :
    node.relPath ∈ wholeKeys b l r held := by
  refine mem_reconcileKeys_whole.mpr (Or.inl (Nodes.holds_iff.mpr ⟨node, ?_⟩))
  rw [StagedSide.nodeAt_nodes, entryAt_eq_some l.sorted]
  exact ⟨h, rfl⟩

theorem mem_wholeKeys_of_row (held : PathSet) {row : BaselineEntry} (h : row ∈ b.rows) :
    row.relPath ∈ wholeKeys b l r held :=
  mem_reconcileKeys_whole.mpr
    (Or.inr (Or.inr (containsKey_iff.mpr ⟨row, Baseline.get_of_mem h⟩)))

theorem runWindows_decides (held : PathSet) (window : ℕ+) (pass : Pass) :
    runWindows window Pass.window (Lookahead.new l.pages) (Lookahead.new r.pages)
        (Lookahead.new b.rows) pass =
      (wholeKeys b l r held).toList.foldl (fun pass key =>
        pass.decide key (l.nodes.nodeAt key) (r.nodes.nodeAt key) (b.get key)) pass := by
  have hrows := rows_inKeyOrder b
  have hkeys : SortedSet.ofList (l.pages.map Keyed.key ++ r.pages.map Keyed.key ++
      b.rows.map Keyed.key) = wholeKeys b l r held := by
    refine SortedSet.ext fun p => ?_
    rw [mem_reconcileKeys_whole, ← Nodes.mem_paths, ← Nodes.mem_paths, ← mem_rowPaths]
    simp only [SortedSet.mem_ofList, mem_append, Nodes.paths, StagedSide.iter_nodes,
      map_map, Function.comp_def, or_assoc]
    exact Iff.rfl
  have hrun : runWindows window Pass.window (Lookahead.new l.pages) (Lookahead.new r.pages)
      (Lookahead.new b.rows) pass = (merge3 l.pages r.pages b.rows).foldl
        (fun pass e => pass.decide e.1 e.2.1 e.2.2.1 e.2.2.2) pass :=
    runWindows_eq (fun _ _ _ _ => rfl) l.sorted r.sorted hrows pass
  rw [hrun, merge3_eq l.sorted r.sorted hrows, hkeys, foldl_map]
  simp only [StagedSide.nodeAt_nodes, get_eq_entryAt]

/-! ## What the windows note -/

variable (held : PathSet)

theorem live_rows :
    (liveKeys held (wholeKeys b l r held).toList).filterMap b.get =
      b.rows.filter fun base => !isUnderHeldPath base.relPath held := by
  have hread := filterMap_entryAt (rows_inKeyOrder b)
    (fun row hrow => mem_wholeKeys_of_row b l r held hrow) fun key => !isUnderHeldPath key held
  simp only [← get_eq_entryAt] at hread
  exact hread

theorem live_pages :
    (liveKeys held (wholeKeys b l r held).toList).filterMap l.nodes.nodeAt =
      l.pages.filter fun node => !isUnderHeldPath node.relPath held := by
  have hread := filterMap_entryAt l.sorted
    (fun node hnode => mem_wholeKeys_of_page b l r held hnode) fun key => !isUnderHeldPath key held
  simp only [← StagedSide.nodeAt_nodes] at hread
  exact hread

end Pair

def pullNote (r : Nodes RemoteNode) (pulls : Bool) (base : BaselineEntry) :
    Option (Path × Uuid) :=
  if pulls then (pullSource base (r.nodeAt base.relPath)).map fun uuid => (base.relPath, uuid)
  else none

def pushNote (l : Nodes LocalNode) (r : Nodes RemoteNode) (pushes : Bool) (base : BaselineEntry) :
    Option Path :=
  if pushes then
    (pushSource base (l.holds base.relPath) (r.nodeAt base.relPath)).map fun _ => base.relPath
  else none

def targetNote (b : Baseline) (r : Nodes RemoteNode) (pushes : Bool) (node : LocalNode) :
    Option (Path × Blake3Hash) :=
  if pushes then
    (pushTarget node (r.holds node.relPath) (b.containsKey node.relPath)).map fun hash =>
      (node.relPath, hash)
  else none

section Notes

variable {b : Baseline} {l : Nodes LocalNode} {r : Nodes RemoteNode} {pulls pushes : Bool}
  {key : Path}

theorem filterMap_toList {α β γ : Type} (o : Option α) (f : α → β) (g : β → Option γ) :
    (o.map f).toList.filterMap g = (o.bind fun a => g (f a)).toList := by
  cases o with
  | none => rfl
  | some a => cases hg : g (f a) <;> simp [hg]

theorem notesAt_pullSource :
    (notesAt b l r pulls pushes key).filterMap pullSource? =
      ((b.get key).bind (pullNote r pulls)).toList := by
  unfold notesAt candidates
  simp only [filterMap_append, filterMap_toList, pullSource?]
  cases hbase : b.get key with
  | none => cases pulls <;> simp
  | some base =>
    rw [← get_relPath hbase]
    cases pulls <;> simp [pullNote, Option.map_eq_bind]

theorem notesAt_pushSource :
    (notesAt b l r pulls pushes key).filterMap pushSource? =
      ((b.get key).bind (pushNote l r pushes)).toList := by
  unfold notesAt candidates
  simp only [filterMap_append, filterMap_toList, pushSource?]
  cases hbase : b.get key with
  | none => cases pushes <;> simp
  | some base =>
    rw [← get_relPath hbase]
    cases pushes <;> simp [pushNote, Option.map_eq_bind, Nodes.holds]

theorem notesAt_pushTarget (hkey : ∀ node, l.nodeAt key = some node → node.relPath = key) :
    (notesAt b l r pulls pushes key).filterMap pushTarget? =
      ((l.nodeAt key).bind (targetNote b r pushes)).toList := by
  unfold notesAt candidates
  simp only [filterMap_append, filterMap_toList, pushTarget?]
  cases hnode : l.nodeAt key with
  | none => cases pushes <;> simp
  | some node =>
    rw [← hkey node hnode]
    cases pushes <;>
      simp [targetNote, Option.map_eq_bind, Nodes.holds, containsKey]

theorem filterMap_noted {α β : Type} {keys : List Path} {notes : Path → List Cand}
    {role : Cand → Option β} {holds : Path → Option α} {noted : α → Option β}
    (h : ∀ key, (notes key).filterMap role = ((holds key).bind noted).toList) :
    (keys.flatMap notes).filterMap role = (keys.filterMap holds).filterMap noted := by
  induction keys with
  | nil => rfl
  | cons key keys ih =>
    rw [flatMap_cons, filterMap_append, h, ih]
    cases hholds : holds key with
    | none => simp [hholds]
    | some a => cases hnoted : noted a <;> simp [hholds, hnoted]

end Notes

section Noted

variable (b : Baseline) (l : StagedSide LocalNode) (r : StagedSide RemoteNode) (held : PathSet)
  (pulls pushes : Bool)

def notedCands : List Cand :=
  (liveKeys held (wholeKeys b l r held).toList).flatMap (notesAt b l.nodes r.nodes pulls pushes)

theorem noted_pullSources :
    (notedCands b l r held pulls pushes).filterMap pullSource? =
      (b.rows.filter fun base => !isUnderHeldPath base.relPath held).filterMap
        (pullNote r.nodes pulls) := by
  rw [← live_rows b l r held]
  exact filterMap_noted fun key => notesAt_pullSource

theorem noted_pushSources :
    (notedCands b l r held pulls pushes).filterMap pushSource? =
      (b.rows.filter fun base => !isUnderHeldPath base.relPath held).filterMap
        (pushNote l.nodes r.nodes pushes) := by
  rw [← live_rows b l r held]
  exact filterMap_noted fun key => notesAt_pushSource

theorem noted_pushTargets :
    (notedCands b l r held pulls pushes).filterMap pushTarget? =
      (l.pages.filter fun node => !isUnderHeldPath node.relPath held).filterMap
        (targetNote b r.nodes pushes) := by
  rw [← live_pages b l r held]
  refine filterMap_noted fun key => notesAt_pushTarget fun node hnode => ?_
  rw [StagedSide.nodeAt_nodes] at hnode
  exact ((entryAt_eq_some l.sorted).mp hnode).2

end Noted

variable {base : BaselineEntry}
variable {s : MoveSides}

theorem pullMove_congr {c d : Path → Bool}
    {target : Option (Path × Bool)} (hsrc : c base.relPath = d base.relPath)
    (hdst : ∀ dst carriesEdit, target = some (dst, carriesEdit) → c dst = d dst) :
    pullMove s c base target = pullMove s d base target := by
  unfold pullMove
  dsimp only
  rw [hsrc]
  cases target with
  | none => rfl
  | some t => simp only [hdst t.1 t.2 rfl]

theorem pushMove_taken_congr {c d : Path → Bool}
    {cs ds : Blake3Hash → List Path} (hsrc : c base.relPath = d base.relPath)
    (hcand : ∀ hash, ((cs hash).filter fun dst => !c dst && !s.r.holds dst) =
      (ds hash).filter fun dst => !d dst && !s.r.holds dst) :
    pushMove s c base (fun hash => some (cs hash)) =
      pushMove s d base fun hash => some (ds hash) := by
  unfold pushMove
  simp only [hsrc, Option.map_some, hcand]

theorem pullMove_of_taken {c : Path → Bool}
    (h : c base.relPath) (target : Option (Path × Bool)) :
    pullMove s c base target = ([], none) := by
  exact if_pos h

theorem pushMove_of_taken {c : Path → Bool}
    (h : c base.relPath) (candidates : Blake3Hash → Option (List Path)) :
    pushMove s c base candidates = ([], none) := by
  exact if_pos h

theorem took_nothing (state : JoinState) (src : Path) : state.took src ([], none) = state := by
  simp [JoinState.took]

/-! ## The staged join against the resident one -/

/-- The pass `pass` wrote since `start` what the resident join planned, and a
known path is taken in the one where it is consumed in the other. -/
structure Joined (known : PathSet) (start pass : Pass) (state : JoinState) : Prop where
  held : pass.held = start.held
  cand : pass.out.cand = start.out.cand
  deferred : pass.deferred = start.deferred
  rows : pass.out.reconciled = start.out.reconciled ++ numbered Seq.joinSeq state.1
  next : pass.out.next = Seq.joinSeq.advance state.1.length
  taken : ∀ p ∈ known, p ∈ state.2 ↔ taken pass.held pass.out p = true
  idle : pass.consumed = false → pass.out.consumed = []

section Joined

variable {known : PathSet} {start pass : Pass} {state : JoinState}

theorem taken_iff {held : PathSet} {out : Out} {p : Path} :
    taken held out p ↔ isUnderHeldPath p held ∨ p ∈ out.consumed := by
  unfold taken
  rw [takenByHeld_eq]
  simp

theorem Joined.contains (h : Joined known start pass state) {p : Path} (hp : p ∈ known) :
    state.2.contains p = SyncEngine.taken pass.held pass.out p := by
  rw [Bool.eq_iff_iff, contains_iff_mem]
  exact h.taken p hp

theorem Joined.record (h : Joined known start pass state) (src : Path) (planned : List SyncAction × Option Took) :
    Joined known start (pass.record src planned) (state.took src planned) := by
  rcases planned with ⟨planned, took⟩
  have hrows : pass.out.reconciled ++ numbered pass.out.next planned =
      start.out.reconciled ++ numbered Seq.joinSeq (state.1 ++ planned) := by
    rw [h.rows, h.next, numbered_append, append_assoc]
  have hnext : pass.out.next.advance planned.length =
      Seq.joinSeq.advance (state.1 ++ planned).length := by
    rw [h.next, Seq.advance_advance, length_append]
  unfold Pass.record JoinState.took
  simp only [foldl_action]
  cases took with
  | none =>
    refine ⟨h.held, h.cand, h.deferred, hrows, hnext, ?_, ?_⟩
    · intro p hp
      have hbefore := h.taken p hp
      rw [taken_iff] at hbefore ⊢
      exact hbefore
    intro hidle
    exact h.idle (by simpa using hidle)
  | some took =>
    cases took with
    | source =>
      refine ⟨h.held, h.cand, h.deferred, hrows, hnext, ?_, by simp⟩
      intro p hp
      have hbefore := h.taken p hp
      rw [taken_iff] at hbefore ⊢
      simp only [Option.elim_some, Took.consume, Out.consume, mem_cons,
        mem_insert_iff, hbefore]
      exact or_left_comm
    | move dst =>
      refine ⟨h.held, h.cand, h.deferred, hrows, hnext, ?_, by simp⟩
      intro p hp
      have hbefore := h.taken p hp
      rw [taken_iff] at hbefore ⊢
      simp only [Option.elim_some, Took.consume, Out.consume, mem_cons,
        mem_insert_iff, hbefore]
      rw [@or_left_comm (_ = true), @or_left_comm (_ = true)]

end Joined

section Join

variable {mode : SyncMode} {b : Baseline} {l : StagedSide LocalNode} {r : StagedSide RemoteNode}
  {held : PathSet} {start pass : Pass} {state : JoinState} {base : BaselineEntry}
  {pulls : Bool}

/-- What the staged join reads, as the resident one has it. -/
abbrev stagedSides (mode : SyncMode) (b : Baseline) (l : StagedSide LocalNode)
    (r : StagedSide RemoteNode) : MoveSides := ⟨mode, l.nodes, r.nodes, b⟩

theorem mem_wholeKeys_of_pullTarget {uuid : Uuid} {dst : Path} {carriesEdit : Bool}
    (h : pullTarget r.nodes.iter base uuid = some (dst, carriesEdit)) :
    dst ∈ wholeKeys b l r held := by
  have hmem : ∀ test : Path × RemoteNode → Bool,
      ((r.nodes.iter.filter test).map Prod.fst).getLast? = some dst →
        r.nodes.holds dst := by
    intro test hlast
    rcases mem_map.mp (mem_of_getLast? hlast) with ⟨t, ht, rfl⟩
    have hiter := (mem_filter.mp ht).1
    exact Nodes.mem_paths.mp (mem_map.mpr ⟨t, hiter, rfl⟩)
  refine mem_reconcileKeys_whole.mpr (Or.inr (Or.inl ?_))
  unfold pullTarget at h
  cases huuid : uuidTarget r.nodes.iter uuid with
  | some found =>
    rw [huuid] at h
    cases h
    exact hmem _ huuid
  | none =>
    rw [huuid] at h
    rcases Option.map_eq_some_iff.mp h with ⟨found, hfound, heq⟩
    cases heq
    rcases Option.bind_eq_some_iff.mp hfound with ⟨lineage, -, hlineage⟩
    exact hmem _ hlineage

theorem joined_pull (h : Joined (wholeKeys b l r held) start pass state) (hbase : base ∈ b.rows)
    {uuid : Uuid} (huuid : pullSource base (r.nodes.nodeAt base.relPath) = some uuid) :
    Joined (wholeKeys b l r held) start
      (pass.joinPull (stagedSides mode b l r) r (base.relPath, uuid))
      (pullStep (stagedSides mode b l r) (pullTarget r.nodes.iter) state base) := by
  have hpull : (stagedSides mode b l r).pullUuid base = some uuid := huuid
  unfold Pass.joinPull pullStep
  simp only [Baseline.get_of_mem hbase, hpull, r.targetOf_eq]
  have hsame : pullMove (stagedSides mode b l r) (taken pass.held pass.out) base
      (pullTarget r.nodes.iter base uuid) =
        pullMove (stagedSides mode b l r) (fun p => state.2.contains p) base
          (pullTarget r.nodes.iter base uuid) := by
    refine pullMove_congr (h.contains (mem_wholeKeys_of_row b l r held hbase)).symm ?_
    intro dst carriesEdit hdst
    exact (h.contains (mem_wholeKeys_of_pullTarget hdst)).symm
  rw [hsame]
  exact h.record _ _

theorem pull_skips (h : Joined (wholeKeys b l r held) start pass state) (hbase : base ∈ b.rows)
    (hstart : start.held = held) {pulls : Bool} (hskip : (!isUnderHeldPath base.relPath held) = false ∨
      pullNote r.nodes pulls base = none) (hpulls : pulls = mode.pulls) :
    pullStep (stagedSides mode b l r)
      (pullTarget (if mode.pulls then r.nodes.iter else [])) state base = state := by
  rcases hskip with hheld | hnote
  · have hunder : isUnderHeldPath base.relPath held := by simpa using hheld
    have htaken : state.2.contains base.relPath := by
      rw [h.contains (mem_wholeKeys_of_row b l r held hbase), taken_iff, h.held, hstart]
      exact Or.inl hunder
    unfold pullStep
    cases huuid : (stagedSides mode b l r).pullUuid base with
    | none => rfl
    | some uuid =>
      dsimp only
      rw [pullMove_of_taken htaken, took_nothing]
  cases hmode : mode.pulls with
  | false =>
    refine pullStep_of_target_none (fun uuid _ => ?_) state
    unfold pullTarget uuidTarget
    cases base.remoteStableUuid <;> simp [lineageTarget]
  | true =>
    have hnone : pullSource base (r.nodes.nodeAt base.relPath) = none := by
      simpa [pullNote, hpulls, hmode] using hnote
    have hpull : (stagedSides mode b l r).pullUuid base = none := hnone
    unfold pullStep
    rw [hpull]

theorem filter_targetNote (nodes : List LocalNode) (hash : Blake3Hash) :
    (((nodes.filter fun node => !isUnderHeldPath node.relPath held).filterMap
        (targetNote b r.nodes true)).filter fun t => t.2 = hash).map Prod.fst =
      ((nodes.filter fun node =>
          (stagedSides mode b l r).created node.relPath node = some hash).map
        LocalNode.relPath).filter fun p => !isUnderHeldPath p held := by
  induction nodes with
  | nil => rfl
  | cons node nodes ih =>
    have hcreated : targetNote b r.nodes true node =
        ((stagedSides mode b l r).created node.relPath node).map fun hash =>
          (node.relPath, hash) := rfl
    cases hheld : isUnderHeldPath node.relPath held with
    | true =>
      by_cases hhash : (stagedSides mode b l r).created node.relPath node = some hash
      all_goals simpa [hheld, hhash] using ih
    | false =>
      cases hc : (stagedSides mode b l r).created node.relPath node with
      | none => simpa [hheld, hcreated, hc] using ih
      | some other =>
        by_cases hhash : other = hash
        all_goals simpa [hheld, hcreated, hc, hhash] using ih

theorem noted_pushTargets_of (mode : SyncMode) {out : Out}
    (hout : out.cand = notedCands b l r held pulls true) (hash : Blake3Hash) :
    out.pushTargets hash =
      (hashTargets (stagedSides mode b l r) l.nodes.iter hash).filter fun p =>
        !isUnderHeldPath p held := by
  have hpages : hashTargets (stagedSides mode b l r) l.nodes.iter hash =
      (l.pages.filter fun node =>
        (stagedSides mode b l r).created node.relPath node = some hash).map
          LocalNode.relPath := by
    unfold hashTargets
    rw [StagedSide.iter_nodes, filter_map, map_map]
    rfl
  unfold Out.pushTargets
  rw [hout, noted_pushTargets, hpages]
  exact filter_targetNote l.pages hash

theorem mem_wholeKeys_of_hashTargets {hash : Blake3Hash} {p : Path}
    (h : p ∈ hashTargets (stagedSides mode b l r) l.nodes.iter hash) :
    p ∈ wholeKeys b l r held := by
  rcases mem_map.mp h with ⟨t, ht, rfl⟩
  have hiter := (mem_filter.mp ht).1
  exact mem_reconcileKeys_whole.mpr (Or.inl (Nodes.mem_paths.mp (mem_map.mpr ⟨t, hiter, rfl⟩)))

theorem joined_push (h : Joined (wholeKeys b l r held) start pass state) (hbase : base ∈ b.rows)
    (hstart : start.held = held) (hcand : start.out.cand = notedCands b l r held pulls true) :
    Joined (wholeKeys b l r held) start
      (pass.joinPush (stagedSides mode b l r) base.relPath)
      (pushStep (stagedSides mode b l r)
        (fun hash => some (hashTargets (stagedSides mode b l r) l.nodes.iter hash)) state base) := by
  unfold Pass.joinPush pushStep
  simp only [Baseline.get_of_mem hbase]
  have hsame : pushMove (stagedSides mode b l r) (taken pass.held pass.out) base
      (fun hash => some (pass.out.pushTargets hash)) =
        pushMove (stagedSides mode b l r) (fun p => state.2.contains p) base
          fun hash => some (hashTargets (stagedSides mode b l r) l.nodes.iter hash) := by
    refine pushMove_taken_congr (h.contains (mem_wholeKeys_of_row b l r held hbase)).symm ?_
    intro hash
    rw [noted_pushTargets_of mode (h.cand.trans hcand) hash, filter_filter]
    refine filter_congr fun p hp => ?_
    rw [h.contains (mem_wholeKeys_of_hashTargets hp)]
    cases hheld : isUnderHeldPath p held with
    | false => simp
    | true =>
      have htaken : taken pass.held pass.out p := by
        rw [taken_iff, h.held, hstart]
        exact Or.inl hheld
      simp [htaken]
  rw [hsame]
  exact h.record _ _

theorem push_skips (h : Joined (wholeKeys b l r held) start pass state) (hbase : base ∈ b.rows)
    (hstart : start.held = held) {pushes : Bool} (hskip : (!isUnderHeldPath base.relPath held) = false ∨
      pushNote l.nodes r.nodes pushes base = none) (hpushes : pushes = mode.pushes) :
    (if ((stagedSides mode b l r).pushHash base).isSome then
      pushStep (stagedSides mode b l r)
        (fun hash => some (hashTargets (stagedSides mode b l r)
          (if mode.pushes then l.nodes.iter else []) hash)) state base
      else state) = state := by
  rcases hskip with hheld | hnote
  · have hunder : isUnderHeldPath base.relPath held := by simpa using hheld
    have htaken : state.2.contains base.relPath := by
      rw [h.contains (mem_wholeKeys_of_row b l r held hbase), taken_iff, h.held, hstart]
      exact Or.inl hunder
    unfold pushStep
    rw [pushMove_of_taken htaken, took_nothing]
    split <;> rfl
  cases hmode : mode.pushes with
  | false =>
    rw [pushStep_of_empty (fun hash _ => rfl)]
    split <;> rfl
  | true =>
    have hnone : pushSource base (l.nodes.holds base.relPath)
        (r.nodes.nodeAt base.relPath) = none := by
      simpa [pushNote, hpushes, hmode] using hnote
    have hhash : (stagedSides mode b l r).pushHash base = none := hnone
    simp [hhash]

theorem notes_of_row (hbase : base ∈ b.rows) (half : Bool) : (!b.rows.isEmpty && half) = half := by
  cases hb : b.rows with
  | nil => simp [hb] at hbase
  | cons _ _ => rfl

theorem joined_pulls (h : Joined (wholeKeys b l r held) start pass state) (hstart : start.held = held) :
    Joined (wholeKeys b l r held) start
      (((b.rows.filter fun base => !isUnderHeldPath base.relPath held).filterMap
        (pullNote r.nodes (!b.rows.isEmpty && mode.pulls))).foldl
          (joinPull (stagedSides mode b l r) r) pass)
      (b.rows.foldl (pullStep (stagedSides mode b l r)
        (pullTarget (if mode.pulls then r.nodes.iter else []))) state) := by
  refine foldl_noted ?_ ?_ h
  · intro base hbase hskip pass state h
    exact pull_skips h hbase hstart hskip (notes_of_row hbase mode.pulls)
  intro base hbase hlive source hnote pass state h
  rw [notes_of_row hbase] at hnote
  cases hmode : mode.pulls with
  | false => simp [pullNote, hmode] at hnote
  | true =>
    have hsource : ∃ uuid, pullSource base (r.nodes.nodeAt base.relPath) = some uuid ∧
        (base.relPath, uuid) = source := by
      simpa [pullNote, hmode] using hnote
    rcases hsource with ⟨uuid, huuid, rfl⟩
    exact joined_pull h hbase huuid

theorem joined_pushes (h : Joined (wholeKeys b l r held) start pass state) (hstart : start.held = held)
    (hcand : start.out.cand = notedCands b l r held pulls (!b.rows.isEmpty && mode.pushes)) :
    Joined (wholeKeys b l r held) start
      (((b.rows.filter fun base => !isUnderHeldPath base.relPath held).filterMap
        (pushNote l.nodes r.nodes (!b.rows.isEmpty && mode.pushes))).foldl
          (joinPush (stagedSides mode b l r)) pass)
      ((b.rows.filter fun base => ((stagedSides mode b l r).pushHash base).isSome).foldl
        (pushStep (stagedSides mode b l r) fun hash =>
          some (hashTargets (stagedSides mode b l r)
            (if mode.pushes then l.nodes.iter else []) hash)) state) := by
  rw [foldl_filter]
  refine foldl_noted ?_ ?_ h
  · intro base hbase hskip pass state h
    exact push_skips h hbase hstart hskip (notes_of_row hbase mode.pushes)
  intro base hbase hlive path hnote pass state h
  rw [notes_of_row hbase] at hnote hcand
  cases hmode : mode.pushes with
  | false => simp [pushNote, hmode] at hnote
  | true =>
    have hsource : (∃ hash, pushSource base (l.nodes.holds base.relPath)
        (r.nodes.nodeAt base.relPath) = some hash) ∧ base.relPath = path := by
      simpa [pushNote, hmode] using hnote
    rcases hsource with ⟨⟨hash, hhash⟩, rfl⟩
    have hpush : (stagedSides mode b l r).pushHash base = some hash := hhash
    rw [hmode] at hcand
    rw [hpush, if_pos rfl]
    exact joined_push h hbase hstart hcand

end Join

/-- The pass joined to the end, without the shortcuts of a join with nothing to do. -/
def Pass.joinAll (pass : Pass) (s : MoveSides) (remote : StagedSide RemoteNode) : Pass :=
  pass.out.pushSources.foldl (joinPush s)
    (pass.out.pullSources.foldl (joinPull s remote) pass.started)

section JoinAll

variable {mode : SyncMode} {b : Baseline} {l : StagedSide LocalNode} {r : StagedSide RemoteNode}
  {held : PathSet} {s : MoveSides} {remote : StagedSide RemoteNode} {pass : Pass}

theorem record_nothing (pass : Pass) (src : Path) : pass.record src ([], none) = pass := by
  simp [record]

theorem record_cand (pass : Pass) (src : Path) (planned : List SyncAction × Option Took) :
    (pass.record src planned).out.cand = pass.out.cand := by
  unfold Pass.record
  rw [foldl_action]
  rcases planned with ⟨planned, none | took⟩
  · rfl
  · cases took <;> rfl

theorem foldl_joinPull_cand (sources : List (Path × Uuid)) (pass : Pass) :
    (sources.foldl (joinPull s remote) pass).out.cand = pass.out.cand := by
  induction sources generalizing pass with
  | nil => rfl
  | cons source sources ih =>
    rw [foldl_cons, ih]
    unfold Pass.joinPull
    split
    · rfl
    · exact record_cand pass _ _

theorem joinPush_of_no_targets (h : pass.out.cand.filterMap pushTarget? = []) (path : Path) :
    pass.joinPush s path = pass := by
  unfold Pass.joinPush
  split
  · rfl
  rw [pushMove_of_empty, record_nothing]
  intro hash _
  simp [Out.pushTargets, h]

theorem foldl_joinPush_of_no_targets (h : pass.out.cand.filterMap pushTarget? = [])
    (paths : List Path) : paths.foldl (joinPush s) pass = pass := by
  induction paths with
  | nil => rfl
  | cons path paths ih => rw [foldl_cons, joinPush_of_no_targets h, ih]

theorem join_eq_joinAll :
    (pass.join s remote).out.reconciled = (pass.joinAll s remote).out.reconciled ∧
      (pass.join s remote).out.consumed = (pass.joinAll s remote).out.consumed ∧
      (pass.join s remote).deferred = (pass.joinAll s remote).deferred ∧
      (pass.join s remote).consumed = (pass.joinAll s remote).consumed := by
  have hpulled : (if (!pass.out.pullSources.isEmpty) then
      pass.out.pullSources.foldl (joinPull s remote) pass.started else pass.started) =
        pass.out.pullSources.foldl (joinPull s remote) pass.started := by
    cases pass.out.pullSources <;> rfl
  have hcand : (pass.out.pullSources.foldl (joinPull s remote) pass.started).out.cand =
      pass.out.cand := foldl_joinPull_cand pass.out.pullSources pass.started
  have hsources : (pass.out.pullSources.foldl (joinPull s remote)
      pass.started).out.pushSources = pass.out.pushSources := by
    unfold Out.pushSources
    rw [hcand]
  unfold Pass.join Pass.joinAll
  dsimp only
  rw [hpulled]
  cases hpushes : (!pass.out.pushSources.isEmpty &&
      !(pass.out.cand.filterMap pushTarget?).isEmpty) with
  | true =>
    rw [Bool.not_true, Bool.and_false, if_neg (by simp), if_pos rfl, hsources]
    exact ⟨rfl, rfl, rfl, rfl⟩
  | false =>
    have hidle : pass.out.pushSources.foldl (joinPush s)
        (pass.out.pullSources.foldl (joinPull s remote) pass.started) =
          pass.out.pullSources.foldl (joinPull s remote) pass.started := by
      rcases Bool.and_eq_false_iff.mp hpushes with hnone | hnone
      · have hnil : pass.out.pushSources = [] := by simpa using hnone
        rw [hnil]
        rfl
      have hnil : pass.out.cand.filterMap pushTarget? = [] := by simpa using hnone
      refine foldl_joinPush_of_no_targets ?_ _
      rw [hcand]
      exact hnil
    rw [hidle]
    cases hpulls : pass.out.pullSources with
    | nil => exact ⟨rfl, rfl, rfl, rfl⟩
    | cons source rest => exact ⟨rfl, rfl, rfl, rfl⟩

theorem joinAll_joined (hheld : pass.held = held)
    (hcand : pass.out.cand = notedCands b l r held (!b.rows.isEmpty && mode.pulls)
      (!b.rows.isEmpty && mode.pushes)) (hconsumed : pass.out.consumed = []) :
    Joined (wholeKeys b l r held) pass.started (pass.joinAll (stagedSides mode b l r) r)
      (detectMoves (stagedSides mode b l r) .whole
        (withheldKeys (wholeKeys b l r held) held)) := by
  have hinit : Joined (wholeKeys b l r held) pass.started pass.started
      ([], withheldKeys (wholeKeys b l r held) held) := by
    refine ⟨rfl, rfl, rfl, (append_nil _).symm, rfl, fun p hp => ?_, fun _ => hconsumed⟩
    have htaken : taken pass.started.held pass.started.out p ↔
        isUnderHeldPath p held := by
      rw [taken_iff]
      show isUnderHeldPath p pass.held ∨ p ∈ pass.out.consumed ↔ _
      rw [hheld, hconsumed]
      simp
    rw [htaken]
    simp only [withheldKeys, mem_filter]
    exact ⟨fun h => h.2, fun h => ⟨hp, h⟩⟩
  have hpulls : pass.out.pullSources =
      (b.rows.filter fun base => !isUnderHeldPath base.relPath held).filterMap
        (pullNote r.nodes (!b.rows.isEmpty && mode.pulls)) := by
    unfold Out.pullSources
    rw [hcand, noted_pullSources]
  have hpushes : pass.out.pushSources =
      (b.rows.filter fun base => !isUnderHeldPath base.relPath held).filterMap
        (pushNote l.nodes r.nodes (!b.rows.isEmpty && mode.pushes)) := by
    unfold Out.pushSources
    rw [hcand, noted_pushSources]
  rw [detectMoves_eq]
  unfold Pass.joinAll joinMoves
  rw [hpulls, hpushes]
  exact joined_pushes (joined_pulls hinit hheld) hheld hcand

end JoinAll

/-! ## The staged plan -/

section Staged

variable {mode : SyncMode} {b : Baseline} {l : StagedSide LocalNode} {r : StagedSide RemoteNode}
  {holds : PassHolds}

def windowActions (mode : SyncMode) (b : Baseline) (l : StagedSide LocalNode)
    (r : StagedSide RemoteNode) (holds : PassHolds) : List SyncAction :=
  (liveKeys holds.heldRemote (wholeKeys b l r holds.heldRemote).toList).flatMap
    (planAt b l.nodes r.nodes mode holds.markedExits)

abbrev residentJoin (mode : SyncMode) (b : Baseline) (l : StagedSide LocalNode)
    (r : StagedSide RemoteNode) (holds : PassHolds) : JoinState :=
  detectMoves (stagedSides mode b l r) .whole
    (withheldKeys (wholeKeys b l r holds.heldRemote) holds.heldRemote)

/-- The pass once every window is decided, ready to join. -/
def windowed (mode : SyncMode) (b : Baseline) (l : StagedSide LocalNode)
    (r : StagedSide RemoteNode) (holds : PassHolds) : Pass :=
  { (start mode b holds).wrote (windowActions mode b l r holds)
      (notedCands b l r holds.heldRemote (!b.rows.isEmpty && mode.pulls)
        (!b.rows.isEmpty && mode.pushes)) with
    deferred := deferredKeys (wholeKeys b l r holds.heldRemote) holds.heldRemote }

theorem reconcileWindows_eq (window : ℕ+) :
    reconcileWindows mode b l r holds window =
      let joined := (windowed mode b l r holds).join (stagedSides mode b l r) r
      ⟨joined.out.reconciled, joined.out.consumed, joined.deferred, joined.consumed⟩ := by
  have hunheld : holds.heldRemote.count (fun p =>
      !l.nodes.holds p && !r.nodes.holds p && !b.containsKey p) =
        holds.heldRemote.count fun p => !(wholeKeys b l r holds.heldRemote).contains p := by
    congr 1
    funext p
    have hmem := @mem_reconcileKeys_whole b l.nodes r.nodes holds.heldRemote p
    rw [Bool.eq_iff_iff]
    simp only [Bool.and_eq_true, Bool.not_eq_true', ← Bool.not_eq_true, SortedSet.contains_iff,
      hmem]
    tauto
  unfold reconcileWindows
  dsimp only
  rw [runWindows_decides b l r holds.heldRemote, foldl_decide, hunheld]
  have hdeferred : (start mode b holds).deferred +
      ((wholeKeys b l r holds.heldRemote).toList.filter fun key =>
        isUnderHeldPath key (start mode b holds).held).length +
      holds.heldRemote.count (fun p => !(wholeKeys b l r holds.heldRemote).contains p) =
        deferredKeys (wholeKeys b l r holds.heldRemote) holds.heldRemote := by
    unfold deferredKeys withheldKeys
    show 0 + (List.filter (fun key => isUnderHeldPath key holds.heldRemote) _).length + _ = _
    omega
  rw [hdeferred]
  rfl

/-- What the windows and the join stage: the windows' actions, then the join's,
and the paths consumed of those nothing holds. -/
theorem join_staged :
    ((windowed mode b l r holds).join (stagedSides mode b l r) r).out.reconciled =
        numbered Seq.windowSeq (windowActions mode b l r holds) ++
          numbered Seq.joinSeq (residentJoin mode b l r holds).1 ∧
      ((windowed mode b l r holds).join (stagedSides mode b l r) r).deferred =
        deferredKeys (wholeKeys b l r holds.heldRemote) holds.heldRemote ∧
      (∀ p ∈ wholeKeys b l r holds.heldRemote, p ∈ (residentJoin mode b l r holds).2 ↔
        isUnderHeldPath p holds.heldRemote ∨
          p ∈ ((windowed mode b l r holds).join (stagedSides mode b l r) r).out.consumed) ∧
      (((windowed mode b l r holds).join (stagedSides mode b l r) r).consumed = false →
        ((windowed mode b l r holds).join (stagedSides mode b l r) r).out.consumed = []) := by
  have hjoined : Joined (wholeKeys b l r holds.heldRemote) (windowed mode b l r holds).started
      ((windowed mode b l r holds).joinAll (stagedSides mode b l r) r)
      (residentJoin mode b l r holds) := joinAll_joined rfl (nil_append _) rfl
  rcases @join_eq_joinAll (stagedSides mode b l r) r (windowed mode b l r holds) with
    ⟨hrows, hconsumed, hdeferred, hflag⟩
  rw [hrows, hconsumed, hdeferred, hflag]
  refine ⟨hjoined.rows, hjoined.deferred, ?_, hjoined.idle⟩
  intro p hp
  rw [hjoined.taken p hp, taken_iff, hjoined.held]
  exact Iff.rfl

end Staged

end SyncEngine
