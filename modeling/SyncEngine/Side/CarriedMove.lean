import SyncEngine.Collections.Rekey
import SyncEngine.Side.Rekey

/-! # A carried side under a directory move is the whole map it stands for

What a carried side answers, path by path, is a map. Staying put while the rows
move keeps that map, and following the move re-keys it, as the map itself would
be re-keyed. Landing rows may meet recorded nodes, tombstones, rows that carry
nothing and rows of their own; each case is settled by what the overlay records
before the rows move.
-/

namespace SyncEngine

open Collections FromRow Overlay Nodes Baseline List

/-- The two ends of a directory move: different, and neither under the other. -/
structure Ends (src dst : Path) : Prop where
  src_ne : src ≠ []
  dst_ne : dst ≠ []
  ne : src ≠ dst
  not_under : isUnder src dst = false
  not_over : isUnder dst src = false

theorem Ends.apart {src dst p : Path} (h : Ends src dst) (hp : AtOrUnder p dst) :
    ¬ AtOrUnder p src :=
  not_atOrUnder_both h.ne.symm h.not_over h.not_under hp

def Ends.renaming {src dst : Path} (h : Ends src dst) : Renaming Path where
  forward p := movedPath p src dst
  backward p := movedPath p dst src
  inverse _ _ := movedPath_symm
  apart _ _ hab := movedPath_eq_none.mpr (h.apart (atOrUnder_of_movedPath hab).2)

section Move

variable {ν : Type} [FromRow ν] {src dst : Path}

/-! ## Whole sides -/

theorem Nodes.rekeyOne_step :
    RekeyStep (fun (side : Nodes ν) p => side.lookup p) none
      (fun found p => found.map (setPath · p)) rekeyOne := by
  intro side a b p hab
  unfold Nodes.rekeyOne
  dsimp only
  cases hl : side.lookup a with
  | none => exact ⟨fun _ => rfl, fun h => absurd rfl h⟩
  | some node =>
    refine ⟨fun h => (by cases h), fun _ => ?_⟩
    by_cases hb : p = b
    · subst hb
      simp
    rw [AList.lookup_insert_ne hb, if_neg hb]
    by_cases ha : p = a
    · subst ha
      simp
    · rw [AList.lookup_erase_ne ha, if_neg ha]

variable {paths : List Path} {p : Path} {o : Overlay ν} {b : Baseline} {done : List BaselineEntry}
    {state : Overlay ν × List Path}

theorem mem_movingPaths {e : Path × Path} :
    e ∈ movingPaths paths src dst ↔ e.1 ∈ paths ∧ movedPath e.1 src dst = some e.2 := by
  unfold Nodes.movingPaths
  rw [mem_filterMap]
  constructor
  · intro h
    rcases h with ⟨p, hp, heq⟩
    rcases Option.map_eq_some_iff.mp heq with ⟨q, hq, hpair⟩
    subst hpair
    exact ⟨hp, hq⟩
  intro h
  exact ⟨e.1, h.1, by rw [h.2, Option.map_some]⟩

theorem fst_movingPaths (paths : List Path) :
    (movingPaths paths src dst).map Prod.fst =
      paths.filter fun p => (movedPath p src dst).isSome := by
  unfold Nodes.movingPaths
  induction paths with
  | nil => rfl
  | cons p paths ih =>
    cases h : movedPath p src dst with
    | none => simp [h, ih]
    | some q => simp [h, ih]

theorem mem_fst_movingPaths :
    p ∈ (movingPaths paths src dst).map Prod.fst ↔ p ∈ paths ∧ AtOrUnder p src := by
  rw [fst_movingPaths, mem_filter, movedPath_isSome]

/-- A whole side's re-key: a landing path holds what its source held, a source
path nothing, and every other path what it held. -/
theorem Nodes.nodeAt_rekeySubtree (h : Ends src dst) (side : Nodes ν)
    (hfree : ∀ p, AtOrUnder p dst → side.nodeAt p = none) (p : Path) :
    (side.rekeySubtree src dst).nodeAt p =
      match movedPath p dst src with
      | some a => (side.nodeAt a).map (setPath · p)
      | none => if AtOrUnder p src then none else side.nodeAt p := by
  have hran := h.renaming.ran_foldl rekeyOne_step (movingPaths side.paths src dst)
    (fun e he => (mem_movingPaths.mp he).2)
    (by
      rw [fst_movingPaths]
      exact side.nodup_paths.filter _) side
  have hmem : ∀ q, q ∈ (movingPaths side.paths src dst).map Prod.fst ↔
      side.holds q ∧ AtOrUnder q src := by
    intro q
    rw [mem_fst_movingPaths, mem_paths]
  cases hp : movedPath p dst src with
  | some a =>
    dsimp only
    have hsrc := (atOrUnder_of_movedPath hp).2
    have hdst := (atOrUnder_of_movedPath hp).1
    cases hn : side.nodeAt a with
    | none =>
      exact (hran.untouched p a hp (Or.inr hn)).trans (hfree p hdst)
    | some node =>
      have hin : a ∈ (movingPaths side.paths src dst).map Prod.fst :=
        (hmem a).mpr ⟨holds_iff.mpr ⟨node, hn⟩, hsrc⟩
      have hne : side.nodeAt a ≠ none := by simp [hn]
      rw [← hn]
      exact hran.target p a hp hin hne
  | none =>
    by_cases hin : p ∈ (movingPaths side.paths src dst).map Prod.fst
    · rw [if_pos ((hmem p).mp hin).2]
      exact hran.source p hp hin
    have hsame := hran.other p hp hin
    by_cases hs : AtOrUnder p src
    · have hnot : side.holds p = false := by
        by_contra hh
        exact hin ((hmem p).mpr ⟨by simpa using hh, hs⟩)
      rw [if_pos hs]
      exact hsame.trans (holds_eq_false.mp hnot)
    rw [if_neg hs]
    exact hsame

/-! ## Following the move -/

def Recorded.moved (found : Recorded ν) (p : Path) : Recorded ν :=
  match found with
  | .node held => .node (setPath held p)
  | .tombstone => .tombstone
  | .nothing => .nothing

theorem Overlay.rekeyOne_step :
    RekeyStep (fun (o : Overlay ν) p => o.get p) .nothing Recorded.moved rekeyOne := by
  intro o a b p hab
  unfold rekeyOne
  dsimp only
  cases hg : o.get a with
  | nothing => exact ⟨fun _ => rfl, fun h => absurd rfl h⟩
  | node found =>
    refine ⟨fun h => (by cases h), fun _ => ?_⟩
    simp only [get_put, get_forget]
    rfl
  | tombstone =>
    refine ⟨fun h => (by cases h), fun _ => ?_⟩
    simp only [get_tombstone, get_forget]
    rfl

omit [FromRow ν] in
theorem Overlay.get_foldl_forget (keys : List Path) (o : Overlay ν) (p : Path) :
    (keys.foldl forget o).get p = if p ∈ keys then .nothing else o.get p := by
  induction keys generalizing o with
  | nil => simp
  | cons k keys ih =>
    rw [foldl_cons, ih, get_forget]
    by_cases hk : p = k
    · subst hk
      simp
    · simp [hk]

omit [FromRow ν] in
theorem Overlay.nodup_paths (o : Overlay ν) : o.paths.Nodup := by
  unfold paths
  rw [nodup_append]
  refine ⟨o.nodes.keys_nodup, o.nodupGone, ?_⟩
  intro p hp q hq heq
  subst heq
  exact AList.lookup_eq_none.mp (o.disjoint p hq) hp

omit [FromRow ν] in
theorem Overlay.mem_landingPaths :
    p ∈ o.landingPaths b src dst ↔
      o.records p ∧ ∃ a row, movedPath p dst src = some a ∧ b.get a = some row := by
  unfold landingPaths
  rw [mem_filter, mem_paths, Option.any_eq_true]
  simp only [containsKey_iff]
  constructor
  · intro h
    rcases h.2 with ⟨a, ha, row, hrow⟩
    exact ⟨h.1, a, row, ha, hrow⟩
  intro h
  rcases h.2 with ⟨a, row, ha, hrow⟩
  exact ⟨h.1, a, ha, row, hrow⟩

/-- What an overlay records once it followed a move: a landing path what its
source recorded, and a path a row lands on nothing of its own. -/
theorem Overlay.get_rekeySubtree (h : Ends src dst) (o : Overlay ν) (b : Baseline) (p : Path) :
    (o.rekeySubtree b src dst).get p =
      match movedPath p dst src with
      | some a =>
        if o.records a then (o.get a).moved p
        else if b.containsKey a then .nothing else o.get p
      | none => if AtOrUnder p src then .nothing else o.get p := by
  have hran := h.renaming.ran_foldl rekeyOne_step (movingPaths o.paths src dst)
    (fun e he => (mem_movingPaths.mp he).2)
    (by
      rw [fst_movingPaths]
      exact o.nodup_paths.filter _)
    ((o.landingPaths b src dst).foldl forget o)
  have hmem : ∀ q, q ∈ (movingPaths o.paths src dst).map Prod.fst ↔
      o.records q ∧ AtOrUnder q src := by
    intro q
    rw [mem_fst_movingPaths, mem_paths]
  have hcleared := get_foldl_forget (o.landingPaths b src dst) o
  -- a path a row lands on is at or under the destination
  have hland : ∀ q, q ∈ o.landingPaths b src dst → AtOrUnder q dst := by
    intro q hq
    rcases (mem_landingPaths.mp hq).2 with ⟨a, row, ha, -⟩
    exact (atOrUnder_of_movedPath ha).1
  have hkept : ∀ q, AtOrUnder q src →
      ((o.landingPaths b src dst).foldl forget o).get q = o.get q := by
    intro q hq
    rw [hcleared, if_neg fun hin => h.apart (hland q hin) hq]
  cases hp : movedPath p dst src with
  | some a =>
    dsimp only
    have hsrc := (atOrUnder_of_movedPath hp).2
    by_cases hrec : o.records a
    · rw [if_pos hrec]
      have hne : o.get a ≠ .nothing := by
        intro hnone
        rw [records_eq_false.mpr hnone] at hrec
        cases hrec
      have htarget := hran.target p a hp ((hmem a).mpr ⟨hrec, hsrc⟩) (by rwa [hkept a hsrc])
      rw [hkept a hsrc] at htarget
      exact htarget
    have hnone : o.get a = .nothing := records_eq_false.mp (by simpa using hrec)
    have hsame := hran.untouched p a hp (Or.inr (by rw [hkept a hsrc, hnone]))
    rw [if_neg hrec]
    refine hsame.trans ?_
    rw [hcleared]
    by_cases hrow : b.containsKey a
    · rw [if_pos hrow]
      by_cases hp' : o.records p
      · rcases containsKey_iff.mp hrow with ⟨row, hget⟩
        exact if_pos (mem_landingPaths.mpr ⟨hp', a, row, hp, hget⟩)
      have hpn := records_eq_false.mp (by simpa using hp')
      rw [hpn]
      split <;> rfl
    rw [if_neg hrow]
    refine if_neg fun hin => hrow ?_
    rcases (mem_landingPaths.mp hin).2 with ⟨a', row, ha', hget⟩
    rw [hp] at ha'
    cases ha'
    exact containsKey_iff.mpr ⟨row, hget⟩
  | none =>
    by_cases hin : p ∈ (movingPaths o.paths src dst).map Prod.fst
    · rw [if_pos ((hmem p).mp hin).2]
      exact hran.source p hp hin
    have hsame := hran.other p hp hin
    by_cases hs : AtOrUnder p src
    · have hnot : o.get p = .nothing := by
        refine records_eq_false.mp ?_
        by_contra hh
        exact hin ((hmem p).mpr ⟨by simpa using hh, hs⟩)
      rw [if_pos hs, ← hnot]
      exact hsame.trans (hkept p hs)
    rw [if_neg hs]
    refine hsame.trans ?_
    rw [hcleared]
    refine if_neg fun hin => ?_
    rcases (mem_landingPaths.mp hin).2 with ⟨a, row, ha, -⟩
    rw [hp] at ha
    cases ha

/-- A carried side that follows a move answers what the whole map it stands for
answers once re-keyed. -/
theorem carriedAt_rekeySubtree (h : Ends src dst) (o : Overlay ν) (b : Baseline)
    (hfree : ∀ p, AtOrUnder p dst → carriedAt o b p = none) (p : Path) :
    carriedAt (o.rekeySubtree b src dst) (b.moveSubtree src dst) p =
      match movedPath p dst src with
      | some a => (carriedAt o b a).map (setPath · p)
      | none => if AtOrUnder p src then none else carriedAt o b p := by
  have hget := get_rekeySubtree h o b p
  have hrow := get_moveSubtree h.src_ne h.dst_ne h.ne (b := b) p
  unfold carriedAt
  rw [hget, hrow]
  cases hp : movedPath p dst src with
  | some a =>
    have hdst := (atOrUnder_of_movedPath hp).1
    dsimp only [Option.bind_some]
    cases hg : o.get a with
    | node found => simp [records, hg, Recorded.moved]
    | tombstone => simp [records, hg, Recorded.moved]
    | nothing =>
      rw [if_neg (by simp [records, hg])]
      cases hb : b.get a with
      | some row =>
        rw [if_pos (containsKey_iff.mpr ⟨row, hb⟩)]
        simp [fromRow_moved]
      | none =>
        -- nothing arrives, so the destination answers as before: nothing
        rw [if_neg (by simp [containsKey, hb]), if_neg (h.apart hdst)]
        exact hfree p hdst
  | none =>
    dsimp only [Option.bind_none]
    by_cases hs : AtOrUnder p src
    · simp [hs]
    · simp [hs]

/-! ## Staying put -/

theorem carriedAt_put {node : ν} (hn : o.get p = .nothing) (ha : (b.get p).bind fromRow = some node) (q : Path) :
    carriedAt (o.put p node) b q = carriedAt o b q := by
  unfold carriedAt
  rw [get_put]
  by_cases hq : q = p
  · subst hq
    rw [if_pos rfl, hn]
    exact ha.symm
  · rw [if_neg hq]

theorem carriedAt_tombstone
    (hn : o.get p = .nothing) (ha : (b.get p).bind fromRow = (none : Option ν)) (q : Path) :
    carriedAt (o.tombstone p) b q = carriedAt o b q := by
  unfold carriedAt
  rw [get_tombstone]
  by_cases hq : q = p
  · subst hq
    rw [if_pos rfl, hn]
    exact ha.symm
  · rw [if_neg hq]

/-- Recording what the side answers at `p`, node or nothing, changes no answer
and forgets no record. -/
structure Records (b : Baseline) (p : Path) (o o' : Overlay ν) : Prop where
  same : ∀ q, carriedAt o' b q = carriedAt o b q
  keeps : ∀ q, o.records q = true → o'.records q = true

theorem records_put {node : ν} (hn : o.records p = false) (ha : (b.get p).bind fromRow = some node) :
    Records b p o (o.put p node) where
  same := carriedAt_put (records_eq_false.mp hn) ha
  keeps := by
    intro q hq
    unfold records at hq ⊢
    rw [get_put]
    by_cases hqp : q = p
    · rw [if_pos hqp]
    rw [if_neg hqp]
    exact hq

theorem records_tombstone
    (hn : o.records p = false) (ha : (b.get p).bind fromRow = (none : Option ν)) :
    Records b p o (o.tombstone p) where
  same := carriedAt_tombstone (records_eq_false.mp hn) ha
  keeps := by
    intro q hq
    unfold records at hq ⊢
    rw [get_tombstone]
    by_cases hqp : q = p
    · rw [if_pos hqp]
    rw [if_neg hqp]
    exact hq

/-- What holds while a side that stays put records its rows one by one: it
answers what it did, every landing path of a row done is recorded, and so is
every source path that answers anything. -/
structure Stayed (b : Baseline) (src dst : Path) (o o' : Overlay ν)
    (done : List BaselineEntry) : Prop where
  same : ∀ p, carriedAt o' b p = carriedAt o b p
  landing : ∀ row ∈ done, ∀ p, movedPath row.relPath src dst = some p → o'.records p = true
  source : ∀ row ∈ done, (movedPath row.relPath src dst).isSome = true →
    o'.records row.relPath = true ∨ carriedAt o b row.relPath = none

theorem Stayed.record {o' o'' : Overlay ν}
    (h : Stayed b src dst o o' done) (hr : Records b p o' o'') : Stayed b src dst o o'' done where
  same q := (hr.same q).trans (h.same q)
  landing row hrow q hq := hr.keeps q (h.landing row hrow q hq)
  source row hrow hmoves := (h.source row hrow hmoves).imp_left (hr.keeps _)

theorem Stayed.landed (h : Stayed b src dst o state.1 done) (landing : Path) :
    ∃ landed : Overlay ν × List Path,
      (if state.1.records landing then state
        else
          match ((b.get landing).bind fromRow : Option ν) with
          | some node => (state.1.put landing node, state.2 ++ [landing])
          | none => (state.1.tombstone landing, state.2 ++ [landing])) = landed ∧
        Stayed b src dst o landed.1 done ∧ landed.1.records landing := by
  refine ⟨_, rfl, ?_⟩
  by_cases hr : state.1.records landing
  · rw [if_pos hr]
    exact ⟨h, hr⟩
  rw [if_neg hr]
  have hr' : state.1.records landing = false := by simpa using hr
  cases ha : ((b.get landing).bind fromRow : Option ν) with
  | some node =>
    refine ⟨h.record (records_put hr' ha), ?_⟩
    simp [records, get_put]
  | none =>
    refine ⟨h.record (records_tombstone hr' ha), ?_⟩
    simp [records, get_tombstone]

theorem Stayed.row
    {row : BaselineEntry} (h : Stayed b src dst o state.1 done) (hrow : b.get row.relPath = some row) :
    Stayed b src dst o (stayPutRow b src dst state row).1 (row :: done) := by
  unfold stayPutRow
  cases hm : movedPath row.relPath src dst with
  | none =>
    refine ⟨h.same, ?_, ?_⟩
    · intro other hother p hp
      rcases mem_cons.mp hother with rfl | hother
      · rw [hm] at hp
        cases hp
      · exact h.landing other hother p hp
    intro other hother hmoves
    rcases mem_cons.mp hother with rfl | hother
    · rw [hm] at hmoves
      cases hmoves
    · exact h.source other hother hmoves
  | some landing =>
    dsimp only
    obtain ⟨landed, hl, hstep⟩ := h.landed landing
    erw [hl]
    -- then the path it leaves, where it answers anything
    have hdone : ∀ out : Overlay ν, Stayed b src dst o out done → out.records landing →
        (out.records row.relPath ∨ carriedAt o b row.relPath = none) →
        Stayed b src dst o out (row :: done) := by
      intro out hs hrec hsource
      refine ⟨hs.same, ?_, ?_⟩
      · intro other hother p hp
        rcases mem_cons.mp hother with rfl | hother
        · rw [hm] at hp
          cases hp
          exact hrec
        · exact hs.landing other hother p hp
      intro other hother hmoves
      rcases mem_cons.mp hother with rfl | hother
      · exact hsource
      · exact hs.source other hother hmoves
    by_cases hr : landed.1.records row.relPath
    · rw [if_pos hr]
      exact hdone _ hstep.1 hstep.2 (Or.inl hr)
    rw [if_neg hr]
    have hr' : landed.1.records row.relPath = false := by simpa using hr
    have ha : ((b.get row.relPath).bind fromRow : Option ν) = fromRow row := by
      rw [hrow, Option.bind_some]
    cases hf : (fromRow row : Option ν) with
    | some node =>
      have hput := records_put hr' (ha.trans hf)
      refine hdone _ (hstep.1.record hput) (hput.keeps _ hstep.2) (Or.inl ?_)
      simp [records, get_put]
    | none =>
      refine hdone _ hstep.1 hstep.2 (Or.inr ?_)
      rw [← hstep.1.same]
      unfold carriedAt
      rw [records_eq_false.mp hr']
      exact ha.trans hf

theorem Stayed.run (rows : List BaselineEntry) (hrows : ∀ row ∈ rows, b.get row.relPath = some row)
    (h : Stayed b src dst o state.1 done) :
    ∃ all, Stayed b src dst o (rows.foldl (stayPutRow b src dst) state).1 all ∧
      (∀ row ∈ rows, row ∈ all) ∧ ∀ row ∈ done, row ∈ all := by
  induction rows generalizing state done with
  | nil => exact ⟨done, h, by simp, fun row hrow => hrow⟩
  | cons row rows ih =>
    have hstep := h.row (hrows row (by simp))
    rcases ih (fun r hr => hrows r (mem_cons_of_mem _ hr)) hstep with ⟨all, hall, hin, hold⟩
    refine ⟨all, hall, ?_, fun r hr => hold r (mem_cons_of_mem _ hr)⟩
    intro r hr
    rcases mem_cons.mp hr with rfl | hr
    · exact hold r (by simp)
    · exact hin r hr

/-- A carried side that stays put answers, once the rows have moved, what it
answered before; past the cap nothing is recorded at all. -/
theorem carriedAt_stayPut (h : Ends src dst) (o : Overlay ν) (b : Baseline) :
    ((o.stayPut b src dst).2 = none → (o.stayPut b src dst).1 = o) ∧
      ((o.stayPut b src dst).2 ≠ none → ∀ p,
        carriedAt (o.stayPut b src dst).1 (b.moveSubtree src dst) p = carriedAt o b p) := by
  unfold stayPut
  split
  · exact ⟨fun _ => rfl, fun hne => absurd rfl hne⟩
  refine ⟨fun hnone => (by cases hnone), fun _ p => ?_⟩
  have hrows : ∀ row ∈ (b.get src).toList ++ b.subtree src, b.get row.relPath = some row := by
    intro row hrow
    rcases mem_append.mp hrow with hat | hunder
    · have hget : b.get src = some row := by simpa using hat
      rw [get_relPath hget]
      exact hget
    · exact get_of_mem (mem_filter.mp hunder).1
  have hstart : Stayed b src dst o ((o, []) : Overlay ν × List Path).1 [] :=
    ⟨fun _ => rfl, by simp, by simp⟩
  rcases Stayed.run _ hrows hstart with ⟨all, hall, hin, -⟩
  generalize (((b.get src).toList ++ b.subtree src).foldl (stayPutRow b src dst)
    (o, [])).1 = out at hall
  -- every row at or under the source was recorded
  have hevery : ∀ row, b.get row.relPath = some row → AtOrUnder row.relPath src → row ∈ all := by
    intro row hget hat
    refine hin row (mem_append.mpr ?_)
    rcases hat with heq | hunder
    · left
      rw [← heq, hget]
      simp
    · exact Or.inr (mem_filter.mpr ⟨mem_rows_of_get hget, hunder⟩)
  rw [← hall.same p]
  unfold carriedAt
  cases hg : out.get p with
  | node found => rfl
  | tombstone => rfl
  | nothing =>
    have hfree : out.records p = false := records_eq_false.mpr hg
    rw [get_moveSubtree h.src_ne h.dst_ne h.ne]
    cases hl : (movedPath p dst src).bind b.get with
    | some row =>
      -- a path a row lands on was recorded
      rcases Option.bind_eq_some_iff.mp hl with ⟨a, ha, hget⟩
      have hrp := get_relPath hget
      have hmem := hevery row (hrp ▸ hget) (hrp ▸ (atOrUnder_of_movedPath ha).2)
      have hrec := hall.landing row hmem p (by rw [hrp]; exact movedPath_symm.mp ha)
      rw [hfree] at hrec
      cases hrec
    | none =>
      by_cases hs : AtOrUnder p src
      · rw [if_pos hs, Option.bind_none]
        cases hget : b.get p with
        | none => rfl
        | some row =>
          have hrp := get_relPath hget
          have hmem := hevery row (hrp ▸ hget) (hrp ▸ hs)
          have hmoves : (movedPath row.relPath src dst).isSome :=
            (movedPath_isSome dst).mpr (hrp ▸ hs)
          rcases hall.source row hmem hmoves with hrec | hnone
          · rw [hrp, hfree] at hrec
            cases hrec
          rw [hrp, ← hall.same p] at hnone
          unfold carriedAt at hnone
          rw [hg, hget] at hnone
          exact hnone.symm
      · rw [if_neg hs]

/-- Under a directory move a carried side does what the whole map it stands for
does: staying put leaves every answer, and following re-keys the map. -/
theorem carried_simulates_whole (o : Overlay ν) (b : Baseline) (src dst : Path) (h : Ends src dst) :
    ((o.stayPut b src dst).2 = none → (o.stayPut b src dst).1 = o) ∧
      ((o.stayPut b src dst).2 ≠ none → ∀ p,
        carriedAt (o.stayPut b src dst).1 (b.moveSubtree src dst) p = carriedAt o b p) ∧
      ((∀ p, AtOrUnder p dst → carriedAt o b p = none) →
        ∀ whole : Nodes ν, (∀ p, whole.nodeAt p = carriedAt o b p) → ∀ p,
          carriedAt (o.rekeySubtree b src dst) (b.moveSubtree src dst) p =
            (whole.rekeySubtree src dst).nodeAt p) := by
  have hstay := carriedAt_stayPut h o b
  refine ⟨hstay.1, hstay.2, ?_⟩
  intro hfree whole hwhole p
  rw [carriedAt_rekeySubtree h o b hfree p]
  rw [nodeAt_rekeySubtree h whole (fun q hq => (hwhole q).trans (hfree q hq)) p]
  cases movedPath p dst src with
  | some a => simp only [hwhole]
  | none => simp only [hwhole]

end Move

/-- The directory `a` moves onto `b`: the pass found a new file under `a`, and
had seen nothing at the path a row of `a` lands on. -/
theorem carried_simulates_whole_landing :
    let b : Baseline :=
      ⟨[syncedRow ['a'] .dir 1 none, syncedRow ['a', '/', 'x'] .file 2 (some 2)], by decide⟩
    let o : Overlay LocalNode :=
      (empty.put ['a', '/', 'y'] (localItem ['a', '/', 'y'] .file (some 3))).tombstone
        ['b', '/', 'x']
    (∀ p, carriedAt (o.rekeySubtree b ['a'] ['b']) (b.moveSubtree ['a'] ['b']) p =
        ((carriedSide o b).rekeySubtree ['a'] ['b']).nodeAt p) ∧
      ∀ p, carriedAt (o.stayPut b ['a'] ['b']).1 (b.moveSubtree ['a'] ['b']) p =
        carriedAt o b p := by
  intro b o
  have hends : Ends ['a'] ['b'] := ⟨by decide, by decide, by decide, by decide, by decide⟩
  have h := carried_simulates_whole o b ['a'] ['b'] hends
  have hpaths : ∀ q ∈ (carriedSide o b).paths, ¬ AtOrUnder q ['b'] := by decide +kernel
  have hfree : ∀ p, AtOrUnder p ['b'] → carriedAt o b p = none := by
    intro p hp
    by_contra hne
    rcases Option.ne_none_iff_exists'.mp hne with ⟨node, hnode⟩
    refine hpaths p (mem_paths.mpr (holds_iff.mpr ⟨node, ?_⟩)) hp
    rw [nodeAt_carriedSide]
    exact hnode
  have hcap : (o.stayPut b ['a'] ['b']).2 ≠ none := by
    rw [Option.ne_none_iff_isSome]
    decide +kernel
  exact ⟨h.2.2 hfree _ (nodeAt_carriedSide o b), h.2.1 hcap⟩

end SyncEngine
