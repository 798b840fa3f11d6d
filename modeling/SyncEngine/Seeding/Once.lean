import SyncEngine.Seeding.Chunks

/-! # Each remote item recorded once

What a real pass and a dry run over one store come to. Both hand over the same rows and overwrite
nothing. A remote item is recorded once however the chunks fall exactly when no two of the files
the evidence holds for, and the store does not record, carry one lineage.
-/

namespace SyncEngine

open Collections Stored List

namespace Seeding

section Pass

variable (fold : CaseFold) (nodeMtimeMillis : Int → Nat → Option Int) (pair : PairId) (store : BaselineStore)
  (localAt : Path → Option LocalNode) (skip : Path → Bool) (candidates : Candidates)

def passRead : Read := ⟨entries store.baseline pair, localAt, skip⟩

def written (chunk : Nat) : Run BaselineStore :=
  seed (BaselineStore.seedStore fold pair) nodeMtimeMillis (passRead pair store localAt skip) chunk candidates store

def previewed (chunk : Nat) : Run Preview :=
  seed (Preview.seedStore pair) nodeMtimeMillis (passRead pair store localAt skip) chunk candidates
    (Preview.new store)

def imported : Path → Option LegacySynced :=
  importedAt (BaselineStore.seedStore fold pair) (store.hasLegacySynced pair) store

/-- Whether the evidence holds for a file the pass acts on, at a path with no row. -/
def agrees (item : Path × RemoteNode) : Bool :=
  !skip item.1 && !(entries store.baseline pair).containsKey item.1 &&
    (localAt item.1).any fun onDisk => candidate onDisk item.2 &&
      (evidence nodeMtimeMillis onDisk item.2 (imported fold pair store item.1)).isSome

/-- Whether no row of the pair records the remote file, by its version or its lineage. -/
def unrecorded (item : Path × RemoteNode) : Bool :=
  (entries store.baseline pair).rows.all fun row =>
    row.remoteUuid ≠ some item.2.remoteUuid &&
      (item.2.stableUuid.isNone || row.remoteStableUuid ≠ item.2.stableUuid)

/-- No two files to be seeded carry one lineage. -/
def LineagesApart : Prop :=
  ∀ c ∈ candidates.nodes, ∀ d ∈ candidates.nodes,
    agrees fold nodeMtimeMillis pair store localAt skip c = true → unrecorded pair store c = true →
    agrees fold nodeMtimeMillis pair store localAt skip d = true → unrecorded pair store d = true →
    c.2.stableUuid.isSome = true → c.2.stableUuid = d.2.stableUuid → c = d

instance : Decidable (LineagesApart fold nodeMtimeMillis pair store localAt skip candidates) :=
  inferInstanceAs (Decidable (∀ c ∈ candidates.nodes, ∀ d ∈ candidates.nodes, _))

/-- A seeding records each remote item once and overwrites nothing, the same whatever the size of a
chunk, and a dry run keeps what it writes. -/
structure SeedsOnce (chunk : Nat) : Prop where
  recorded : RecordedOnce (entries
    (written fold nodeMtimeMillis pair store localAt skip candidates chunk).store.baseline pair).rows
  kept : ∀ key row, store.baseline.get key = some row →
    (written fold nodeMtimeMillis pair store localAt skip candidates chunk).store.baseline.get key = some row
  chunkless : ∀ other, 0 < other →
    (written fold nodeMtimeMillis pair store localAt skip candidates other).handed =
      (written fold nodeMtimeMillis pair store localAt skip candidates chunk).handed
  previewed : (previewed nodeMtimeMillis pair store localAt skip candidates chunk).store.intoRows =
    (written fold nodeMtimeMillis pair store localAt skip candidates chunk).handed

end Pass

section Weighed

variable {nodeMtimeMillis : Int → Nat → Option Int} {read : Read} {found : Path → Option LegacySynced}

theorem weigh_spec {item : Path × RemoteNode} {row : BaselineEntry × Evidence}
    (h : weigh nodeMtimeMillis read found item = some row) :
    row.1.relPath = item.1 ∧ row.1.remoteUuid = some item.2.remoteUuid ∧
      row.1.remoteStableUuid = item.2.stableUuid ∧ row.1.state = .synced ∧
      read.baseline.containsKey item.1 = false := by
  unfold weigh at h
  by_cases hskip : (read.skip item.1 || read.baseline.containsKey item.1)
  · rw [if_pos hskip] at h
    exact nomatch h
  rw [if_neg hskip] at h
  rw [Bool.or_eq_true, not_or] at hskip
  cases hlocal : read.localAt item.1 with
  | none =>
    rw [hlocal] at h
    exact nomatch h
  | some onDisk =>
    rw [hlocal] at h
    dsimp only at h
    by_cases hcandidate : (!candidate onDisk item.2)
    · rw [if_pos hcandidate] at h
      exact nomatch h
    rw [if_neg hcandidate] at h
    obtain ⟨reason, -, rfl⟩ := Option.map_eq_some_iff.mp h
    exact ⟨rfl, rfl, rfl, rfl, eq_false_of_ne_true hskip.2⟩

theorem isSome_weigh {fold : CaseFold} {pair : PairId} {store : BaselineStore} {localAt : Path → Option LocalNode}
    {skip : Path → Bool} (item : Path × RemoteNode) :
    (weigh nodeMtimeMillis (passRead pair store localAt skip) (imported fold pair store) item).isSome =
      agrees fold nodeMtimeMillis pair store localAt skip item := by
  unfold weigh agrees passRead
  dsimp only
  by_cases hskip : (skip item.1 || (entries store.baseline pair).containsKey item.1)
  · rw [if_pos hskip, ← Bool.not_or, hskip]
    rfl
  rw [if_neg hskip, ← Bool.not_or, eq_false_of_ne_true hskip]
  cases localAt item.1 with
  | none => rfl
  | some onDisk =>
    cases hcandidate : candidate onDisk item.2 with
    | false => simp [hcandidate]
    | true => simp [hcandidate]

/-- The rows a stream is weighed to, in its order. -/
def weighedRows (nodeMtimeMillis : Int → Nat → Option Int) (read : Read) (found : Path → Option LegacySynced)
    (nodes : List (Path × RemoteNode)) : List BaselineEntry :=
  (nodes.filterMap (weigh nodeMtimeMillis read found)).map Prod.fst

theorem mem_weighedRows {nodes : List (Path × RemoteNode)} {row : BaselineEntry}
    (h : row ∈ weighedRows nodeMtimeMillis read found nodes) :
    ∃ item ∈ nodes, ∃ reason, weigh nodeMtimeMillis read found item = some (row, reason) := by
  obtain ⟨⟨_, reason⟩, hmem, rfl⟩ := mem_map.mp h
  obtain ⟨item, hitem, hweigh⟩ := mem_filterMap.mp hmem
  exact ⟨item, hitem, reason, hweigh⟩

theorem pairwise_weighedRows {nodes : List (Path × RemoteNode)} {R : BaselineEntry → BaselineEntry → Prop}
    {S : Path × RemoteNode → Path × RemoteNode → Prop} (h : nodes.Pairwise S)
    (hrows : ∀ c ∈ nodes, ∀ d ∈ nodes, S c d → ∀ r s, weigh nodeMtimeMillis read found c = some r →
      weigh nodeMtimeMillis read found d = some s → R r.1 s.1) :
    (weighedRows nodeMtimeMillis read found nodes).Pairwise R := by
  unfold weighedRows
  rw [pairwise_map, pairwise_filterMap]
  refine h.imp_of_mem fun hc hd hS r hr s hs => ?_
  exact hrows _ hc _ hd hS r s hr hs

end Weighed

/-! ## Both runs -/

section Runs

variable {fold : CaseFold} {nodeMtimeMillis : Int → Nat → Option Int} {pair : PairId} {store : BaselineStore}
  {localAt : Path → Option LocalNode} {skip : Path → Bool} {candidates : Candidates} {chunk : Nat}

theorem nodup_paths :
    (((entries store.baseline pair).rows ++ weighedRows nodeMtimeMillis (passRead pair store localAt skip)
      (imported fold pair store) candidates.nodes).map BaselineEntry.relPath).Nodup := by
  rw [map_append]
  refine nodup_append.mpr ⟨Baseline.nodup_relPaths _, ?_, ?_⟩
  · refine pairwise_map.mpr (pairwise_weighedRows (pairwise_map.mp candidates.paths) ?_)
    intro c _ d _ hne r s hr hs
    rw [(weigh_spec hr).1, (weigh_spec hs).1]
    exact hne
  rintro _ hfirst _ hweighed rfl
  obtain ⟨row, hrow, hpath⟩ := mem_map.mp hfirst
  obtain ⟨new, hnew, hsame⟩ := mem_map.mp hweighed
  obtain ⟨item, -, reason, hweigh⟩ := mem_weighedRows hnew
  obtain ⟨hat, -, -, -, habsent⟩ := weigh_spec hweigh
  have hheld : (entries store.baseline pair).containsKey item.1 := by
    refine Baseline.containsKey_iff.mpr ⟨row, ?_⟩
    rw [← hat, hsame, ← hpath]
    exact Baseline.get_of_mem hrow
  have hnone : (entries store.baseline pair).containsKey item.1 = false := habsent
  rw [hheld] at hnone
  exact nomatch hnone

variable (fold) in
theorem seed_spec {σ : Type} {ops : SeedStore σ} {knows : σ → List BaselineEntry → Prop} (hlawful : Lawful ops knows)
    {start : σ} (hknows : knows start (entries store.baseline pair).rows)
    (himported : importedAt ops (ops.hasLegacySynced start) start = imported fold pair store) :
    Sound knows (entries store.baseline pair).rows
        (seed ops nodeMtimeMillis (passRead pair store localAt skip) chunk candidates start) [] ∧
      (seed ops nodeMtimeMillis (passRead pair store localAt skip) chunk candidates start).tally =
        (cutBatches chunk [] (candidates.nodes.filterMap (weigh nodeMtimeMillis (passRead pair store localAt skip)
          (imported fold pair store)))).foldl (weighChunk (entries store.baseline pair).rows)
            (SeedCounts.none, []) := by
  have hstart : Sound knows (entries store.baseline pair).rows (Run.start start)
      ((candidates.nodes.filterMap (weigh nodeMtimeMillis (passRead pair store localAt skip)
        (imported fold pair store))).map Prod.fst) := by
    refine ⟨?_, ?_⟩
    · unfold Run.start
      rw [append_nil]
      exact hknows
    unfold Run.start
    rw [append_nil, map_nil, nil_append]
    exact nodup_paths
  exact seedLoop_spec hlawful candidates.nodes himported hstart

variable (fold nodeMtimeMillis pair store localAt skip candidates chunk) in
theorem written_spec :
    Sound (BaselineStore.Knows pair store) (entries store.baseline pair).rows
        (written fold nodeMtimeMillis pair store localAt skip candidates chunk) [] ∧
      (written fold nodeMtimeMillis pair store localAt skip candidates chunk).tally =
        (cutBatches chunk [] (candidates.nodes.filterMap (weigh nodeMtimeMillis (passRead pair store localAt skip)
          (imported fold pair store)))).foldl (weighChunk (entries store.baseline pair).rows)
            (SeedCounts.none, []) :=
  seed_spec fold (BaselineStore.lawful store) (BaselineStore.knows_self store) rfl

theorem previewed_eq :
    (previewed nodeMtimeMillis pair store localAt skip candidates chunk).counts =
        (written fold nodeMtimeMillis pair store localAt skip candidates chunk).counts ∧
      (previewed nodeMtimeMillis pair store localAt skip candidates chunk).store.intoRows =
        (written fold nodeMtimeMillis pair store localAt skip candidates chunk).handed := by
  obtain ⟨-, htally⟩ := written_spec fold nodeMtimeMillis pair store localAt skip candidates chunk
  have hpreview : Sound (Preview.Knows pair (entries store.baseline pair).rows)
        (entries store.baseline pair).rows
        (previewed nodeMtimeMillis pair store localAt skip candidates chunk) [] ∧ _ :=
    seed_spec fold (Preview.lawful (entries store.baseline pair).rows)
      (Preview.knows_new fun _ => Iff.rfl) rfl
  obtain ⟨⟨⟨-, -, hkept⟩, -⟩, hkeptTally⟩ := hpreview
  have hsame := hkeptTally.trans htally.symm
  refine ⟨congrArg Prod.fst hsame, ?_⟩
  have hrows := append_cancel_left hkept
  exact hrows.symm.trans (congrArg Prod.snd hsame)

theorem handed_eq :
    (entries store.baseline pair).rows ++
        (written fold nodeMtimeMillis pair store localAt skip candidates chunk).handed =
      claimAll sharesItem (entries store.baseline pair).rows
        (cutBatches chunk [] (weighedRows nodeMtimeMillis (passRead pair store localAt skip)
          (imported fold pair store) candidates.nodes)) := by
  have htally := congrArg Prod.snd (written_spec fold nodeMtimeMillis pair store localAt skip candidates chunk).2
  have hhanded := handed_eq_claimAll (entries store.baseline pair).rows
    (cutBatches chunk [] (candidates.nodes.filterMap (weigh nodeMtimeMillis (passRead pair store localAt skip)
      (imported fold pair store)))) (SeedCounts.none, [])
  rw [← htally, map_cutBatches, append_nil] at hhanded
  exact hhanded

/-! ## When the chunks agree -/

instance : Std.Symm fun r s => sharesItem r s = false := ⟨fun r s h => (sharesItem_comm s r).trans h⟩

theorem free_weighed {item : Path × RemoteNode} {row : BaselineEntry × Evidence}
    (h : weigh nodeMtimeMillis (passRead pair store localAt skip) (imported fold pair store) item = some row) :
    free sharesItem (entries store.baseline pair).rows row.1 = unrecorded pair store item := by
  obtain ⟨-, huuid, hlineage, -, -⟩ := weigh_spec h
  refine Bool.eq_iff_iff.mpr ?_
  rw [free_iff]
  unfold unrecorded
  rw [all_eq_true]
  refine forall₂_congr fun r _ => ?_
  rw [← Bool.not_eq_true, sharesItem_iff, huuid, hlineage]
  cases hstable : item.2.stableUuid with
  | none => simp
  | some l => simp

theorem admissible_apart_iff :
    ((admissible sharesItem (entries store.baseline pair).rows
        (weighedRows nodeMtimeMillis (passRead pair store localAt skip) (imported fold pair store)
          candidates.nodes)).Pairwise fun r s => sharesItem r s = false) ↔
      LineagesApart fold nodeMtimeMillis pair store localAt skip candidates := by
  constructor
  · intro hpairwise c hc d hd hagreesC hfreeC hagreesD hfreeD hsome hsame
    by_contra hne
    rw [← isSome_weigh, Option.isSome_iff_exists] at hagreesC hagreesD
    obtain ⟨r, hr⟩ := hagreesC
    obtain ⟨s, hs⟩ := hagreesD
    have hin {item : Path × RemoteNode} {row : BaselineEntry × Evidence} (hitem : item ∈ candidates.nodes)
        (hweigh : weigh nodeMtimeMillis (passRead pair store localAt skip) (imported fold pair store) item = some row)
        (hfree : unrecorded pair store item) :
        row.1 ∈ admissible sharesItem (entries store.baseline pair).rows
          (weighedRows nodeMtimeMillis (passRead pair store localAt skip) (imported fold pair store)
            candidates.nodes) := by
      refine mem_filter.mpr ⟨mem_map_of_mem (mem_filterMap.mpr ⟨item, hitem, hweigh⟩), ?_⟩
      rw [free_weighed hweigh, hfree]
    obtain ⟨hpathR, -, hlineageR, -⟩ := weigh_spec hr
    obtain ⟨hpathS, -, hlineageS, -⟩ := weigh_spec hs
    have hrs : r.1 ≠ s.1 := by
      intro heq
      refine hne (inj_on_of_nodup_map candidates.paths hc hd ?_)
      rw [← hpathR, ← hpathS, heq]
    have happart := hpairwise.forall
      (hin hc hr hfreeC) (hin hd hs hfreeD) hrs
    have hshared : sharesItem r.1 s.1 := by
      obtain ⟨l, hl⟩ := Option.isSome_iff_exists.mp hsome
      exact sharesItem_iff.mpr (Or.inr ⟨l, hlineageS.trans (hsame ▸ hl), hlineageR.trans hl⟩)
    rw [hshared] at happart
    exact nomatch happart
  intro hapart
  unfold admissible
  rw [pairwise_filter]
  have huuids := pairwise_map.mp candidates.uuids
  refine pairwise_weighedRows huuids fun c hc d hd hne r s hr hs hfreeR hfreeS => ?_
  rw [free_weighed hr] at hfreeR
  rw [free_weighed hs] at hfreeS
  have hagreesC : agrees fold nodeMtimeMillis pair store localAt skip c := by
    rw [← isSome_weigh, hr]
    rfl
  have hagreesD : agrees fold nodeMtimeMillis pair store localAt skip d := by
    rw [← isSome_weigh, hs]
    rfl
  obtain ⟨-, huuidR, hlineageR, -⟩ := weigh_spec hr
  obtain ⟨-, huuidS, hlineageS, -⟩ := weigh_spec hs
  rw [← Bool.not_eq_true, sharesItem_iff]
  rintro (⟨u, hs', hr'⟩ | ⟨l, hs', hr'⟩)
  · rw [huuidR] at hr'
    rw [huuidS] at hs'
    exact hne (Option.some.inj (hr'.trans hs'.symm))
  rw [hlineageR] at hr'
  rw [hlineageS] at hs'
  have hsome : c.2.stableUuid.isSome := by
    rw [hr']
    rfl
  have heq := hapart c hc d hd hagreesC hfreeR hagreesD hfreeS hsome (hr'.trans hs'.symm)
  exact hne (congrArg (fun item => item.2.remoteUuid) heq)

theorem handed_of_apart (hapart : LineagesApart fold nodeMtimeMillis pair store localAt skip candidates) :
    (written fold nodeMtimeMillis pair store localAt skip candidates chunk).handed =
      admissible sharesItem (entries store.baseline pair).rows
        (weighedRows nodeMtimeMillis (passRead pair store localAt skip) (imported fold pair store)
          candidates.nodes) := by
  have hflat := flatten_cutBatches chunk [] (weighedRows nodeMtimeMillis (passRead pair store localAt skip)
    (imported fold pair store) candidates.nodes)
  rw [nil_append] at hflat
  have hpairwise := admissible_apart_iff.mpr hapart
  rw [← hflat] at hpairwise
  have hclaimed := claimAll_of_apart hpairwise
  rw [← handed_eq, hflat] at hclaimed
  exact append_cancel_left hclaimed

theorem chunkless_iff :
    (∀ other, 0 < other →
        (written fold nodeMtimeMillis pair store localAt skip candidates other).handed =
          (written fold nodeMtimeMillis pair store localAt skip candidates chunk).handed) ↔
      LineagesApart fold nodeMtimeMillis pair store localAt skip candidates := by
  rw [← admissible_apart_iff, ← claimAll_cuts_iff _ _ chunk]
  refine forall₂_congr fun other _ => ?_
  rw [← handed_eq, ← handed_eq]
  exact (append_right_inj _).symm

theorem recordedOnce_of_apart (honce : RecordedOnce (entries store.baseline pair).rows)
    (hapart : LineagesApart fold nodeMtimeMillis pair store localAt skip candidates) :
    RecordedOnce (entries
      (written fold nodeMtimeMillis pair store localAt skip candidates chunk).store.baseline pair).rows := by
  obtain ⟨⟨⟨hholds, -⟩, -⟩, -⟩ := written_spec fold nodeMtimeMillis pair store localAt skip candidates chunk
  have hpairwise := admissible_apart_iff.mpr hapart
  rw [handed_of_apart hapart] at hholds
  have hfree : ∀ r ∈ (entries store.baseline pair).rows,
      ∀ s ∈ admissible sharesItem (entries store.baseline pair).rows
        (weighedRows nodeMtimeMillis (passRead pair store localAt skip) (imported fold pair store)
          candidates.nodes), sharesItem r s = false :=
    fun r hr s hs => free_iff.mp (mem_filter.mp hs).2 r hr
  intro r hr s hs hsyncedR hsyncedS hshared
  rcases mem_append.mp ((hholds r).mp hr) with hr | hr
  · rcases mem_append.mp ((hholds s).mp hs) with hs | hs
    · exact honce r hr s hs hsyncedR hsyncedS hshared
    rw [hfree r hr s hs] at hshared
    exact nomatch hshared
  rcases mem_append.mp ((hholds s).mp hs) with hs | hs
  · rw [sharesItem_comm, hfree s hs r hr] at hshared
    exact nomatch hshared
  by_contra hne
  have hapartRows := hpairwise.forall hr hs hne
  rw [hapartRows] at hshared
  exact nomatch hshared

end Runs

/-- Over a baseline that records each remote item once, a seeding does what it is for exactly when no
two of the files it would record carry one lineage. -/
theorem seeds_once_iff (fold : CaseFold) (nodeMtimeMillis : Int → Nat → Option Int) (pair : PairId)
    (store : BaselineStore) (localAt : Path → Option LocalNode) (skip : Path → Bool) (candidates : Candidates)
    (chunk : Nat) (honce : RecordedOnce (entries store.baseline pair).rows) :
    SeedsOnce fold nodeMtimeMillis pair store localAt skip candidates chunk ↔
      LineagesApart fold nodeMtimeMillis pair store localAt skip candidates := by
  refine ⟨fun h => chunkless_iff.mp h.chunkless, fun hapart => ?_⟩
  obtain ⟨⟨⟨-, hkeeps⟩, -⟩, -⟩ := written_spec fold nodeMtimeMillis pair store localAt skip candidates chunk
  exact {
    recorded := recordedOnce_of_apart honce hapart
    kept := hkeeps
    chunkless := chunkless_iff.mpr hapart
    previewed := previewed_eq.2 }

section Small

/-- A file of five bytes stamped at one second, and the remote one without a hash. -/
def smallLocal (path : Path) : LocalNode :=
  { localItem path .file (some 7) with size := 5, mtimeMillis := 1000 }

def smallRemote (path : Path) (uuid : Uuid) (lineage : StableUuid) : RemoteNode :=
  { remoteItem path .file uuid none with stableUuid := some lineage, size := 5, modifiedMillis := 1000 }

def smallStamp (secs : Int) (nanos : Nat) : Option Int := some (secs * 1000 + nanos / 1000000)

def emptyStore : BaselineStore := ⟨Store.new, []⟩

def smallSide (path : Path) : Option LocalNode := some (smallLocal path)

/-- Two versions of one lineage at two paths, and beside it two lineages. -/
def oneLineage : Candidates where
  nodes := [(['a'], smallRemote ['a'] 1 9), (['b'], smallRemote ['b'] 2 9)]
  paths := by decide
  uuids := by decide

def twoLineages : Candidates where
  nodes := [(['a'], smallRemote ['a'] 1 8), (['b'], smallRemote ['b'] 2 9)]
  paths := by decide
  uuids := by decide

theorem seeds_once_small :
    SeedsOnce asciiFold smallStamp 1 emptyStore smallSide (fun _ => false) twoLineages seedChunk :=
  (seeds_once_iff asciiFold smallStamp 1 emptyStore smallSide (fun _ => false) twoLineages seedChunk
    (by decide)).mpr (by decide)

/-- One chunk writes both files of the lineage, as two synced rows. -/
theorem one_lineage_twice :
    RecordedOnce (entries emptyStore.baseline 1).rows ∧
      ¬ SeedsOnce asciiFold smallStamp 1 emptyStore smallSide (fun _ => false) oneLineage seedChunk := by
  refine ⟨by decide, fun h => ?_⟩
  have hrecorded := h.recorded
  revert hrecorded
  decide

end Small

end Seeding

end SyncEngine
