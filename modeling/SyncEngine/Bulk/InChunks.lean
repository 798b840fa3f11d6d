import SyncEngine.Bulk.Built

/-! # The whole list

A request that is answered settles its chunk. One that the server does not have is as one whose
every item was left open, and one that failed gives every directory its error. Chunk after chunk
the list is covered.
-/

namespace SyncEngine.Bulk

open List

variable {Hash : Type} [DecidableEq Hash] {backend : Backend Hash} {dirs chunk : List NewDir} {start before sent server after : Server Hash}
  {results : List (Except Error CreatedDir)} {slots : List (Slot Hash)} {first : Nat}

omit [DecidableEq Hash] in
theorem Told.unanswered {items : List (Item Hash)} (hfree : ∀ item ∈ items, ¬ before.Stands item.uuid) :
    Told before before items (items.map fun item => (item.uuid, .err .internalError)) := by
  refine ⟨?_, rfl, fun _ h => h, fun _ h => Or.inl h, fun n item response hitem hdone => ?_, fun n item answer dir hitem _ hdir huuid => ?_⟩
  · rw [map_map]
    rfl
  · rw [getElem?_map, hitem] at hdone
    exact nomatch (Prod.mk.inj (Option.some.inj hdone)).2
  · exact absurd ⟨dir, hdir, huuid⟩ (hfree item (mem_of_getElem? hitem))

theorem settle_unsupported (rest : List (NewDir × Slot Hash)) (createdHere : List Bool) (results : List (Except Error CreatedDir))
    (server : Server Hash) :
    settle backend first rest .unsupported createdHere results server =
      settle backend first rest (.answered ((rest.filterMap fun entry => entry.2.item).map fun _ => .err .internalError))
        createdHere results server := by
  induction rest generalizing createdHere results server with
  | nil => rfl
  | cons entry rest ih =>
    match entry with
    | (dir, .failed error) =>
      unfold settle
      exact ih _ _ _
    | (dir, .minted request parent) =>
      rw [filterMap_cons]
      unfold settle Slot.item Answers.next
      exact ih _ _ _

theorem settle_failed (backend : Backend Hash) (first : Nat) (error : Error) (rest : List (NewDir × Slot Hash)) (createdHere : List Bool)
    (results : List (Except Error CreatedDir)) (server : Server Hash) :
    ∃ failures, settle backend first rest (.failed error) createdHere results server = (results ++ failures, server) ∧
      failures.length = rest.length ∧ ∀ result ∈ failures, ∃ error, result = .error error := by
  induction rest generalizing createdHere results with
  | nil => exact ⟨[], by rw [append_nil]; rfl, rfl, fun _ h => nomatch h⟩
  | cons entry rest ih =>
    have hstep : ∃ failure createdHere', settle backend first (entry :: rest) (.failed error) createdHere results server =
        settle backend first rest (.failed error) createdHere' (results ++ [.error failure]) server := by
      match entry with
      | (_, .failed failure) => exact ⟨failure, _, rfl⟩
      | (_, .minted _ _) => exact ⟨error, _, rfl⟩
    obtain ⟨failure, createdHere', hstep⟩ := hstep
    obtain ⟨failures, hsettle, hlength, hfailed⟩ := ih createdHere' (results ++ [.error failure])
    refine ⟨.error failure :: failures, ?_, congrArg Nat.succ hlength, fun result hresult => ?_⟩
    · rw [hstep, hsettle, append_assoc, singleton_append]
    rcases mem_cons.mp hresult with rfl | hmem
    · exact ⟨failure, rfl⟩
    · exact hfailed result hmem

omit [DecidableEq Hash] in
theorem Slotted.items (h : Slotted backend first results chunk slots)
    (hlisted : ∀ (n : Nat) dir, chunk[n]? = some dir → dirs[first + n]? = some dir) :
    (∀ item ∈ slots.filterMap Slot.item, ∃ index, first ≤ index ∧ index < first + chunk.length ∧
      Asked backend dirs index item.uuid item.nameHashed) ∧
    ∀ (n : Nat) request parent, slots[n]? = some (.minted request parent) → ∃ dir, chunk[n]? = some dir ∧
      Asked backend dirs (first + n) request.uuid request.nameHashed := by
  have hminted : ∀ (n : Nat) request parent, slots[n]? = some (.minted request parent) → ∃ dir, chunk[n]? = some dir ∧
      Asked backend dirs (first + n) request.uuid request.nameHashed := by
    intro n request parent hslot
    have hlt : n < chunk.length := h.length ▸ (List.getElem?_eq_some_iff.mp hslot).1
    obtain ⟨dir, hdir⟩ : ∃ dir, chunk[n]? = some dir := ⟨_, getElem?_eq_getElem hlt⟩
    exact ⟨dir, hdir, (h.asked hdir (hlisted n dir hdir) hslot).1⟩
  refine ⟨fun item hitem => ?_, hminted⟩
  obtain ⟨slot, hslot, hsome⟩ := mem_filterMap.mp hitem
  match slot with
  | .failed _ => exact nomatch hsome
  | .minted request parent =>
    cases hsome
    obtain ⟨n, hn⟩ := mem_iff_getElem?.mp hslot
    obtain ⟨dir, hdir, hasked⟩ := hminted n request parent hn
    exact ⟨first + n, Nat.le_add_right _ _, Nat.add_lt_add_left (List.getElem?_eq_some_iff.mp hdir).1 first, hasked⟩

omit [DecidableEq Hash] in
theorem Slotted.nodup (h : Slotted backend first results chunk slots) (hfresh : Fresh backend dirs start)
    (hlisted : ∀ (n : Nat) dir, chunk[n]? = some dir → dirs[first + n]? = some dir) :
    ((slots.filterMap Slot.item).map Item.uuid).Nodup := by
  obtain ⟨-, hminted⟩ := h.items hlisted
  refine pairwise_map.mpr (pairwise_filterMap.mpr (pairwise_iff_getElem.mpr fun i j hi hj hij => ?_))
  intro item hitem other hother hsame
  have hat : ∀ (n : Nat) (hn : n < slots.length) item, slots[n].item = some item → backend.mint (first + n) = .ok item.uuid := by
    intro n hn item hitem
    cases hslot : slots[n] with
    | failed error =>
      rw [hslot] at hitem
      exact nomatch hitem
    | minted request parent =>
      rw [hslot] at hitem
      cases hitem
      obtain ⟨-, -, hmint, -⟩ := hminted n request parent (by rw [getElem?_eq_getElem hn, hslot])
      exact hmint
  have hindex := hfresh.injective _ _ _ (hat i hi item hitem) (hsame ▸ hat j hj other hother)
  exact absurd (Nat.add_left_cancel hindex) (ne_of_lt hij)

/-! ## One chunk -/

/-- What holds between two chunks. -/
structure Progress (backend : Backend Hash) (dirs : List NewDir) (start : Server Hash) (results : List (Except Error CreatedDir))
    (server : Server Hash) : Prop where
  truthful : Truthful backend dirs results server
  sane : Sane backend dirs start server results.length

omit [DecidableEq Hash] in
theorem Truthful.extend {failures : List (Except Error CreatedDir)} (h : Truthful backend dirs results server)
    (hgrown : server.standing ⊆ after.standing) (hfailed : ∀ result ∈ failures, ∃ error, result = .error error) :
    Truthful backend dirs (results ++ failures) after := by
  intro n dir created hdir hcreated
  by_cases hn : n < results.length
  · rw [getElem?_append_left hn] at hcreated
    obtain ⟨parent, hparent, hholds⟩ := h n dir created hdir hcreated
    exact ⟨parent, parentOf_append _ hparent, hgrown hholds⟩
  rw [getElem?_append_right (Nat.le_of_not_lt hn)] at hcreated
  obtain ⟨error, herror⟩ := hfailed _ (mem_of_getElem? hcreated)
  exact nomatch herror

theorem bulkCreateDirs_cases {items : List (Item Hash)} {bound : Nat} (first : Nat) (hsane : Sane backend dirs start before bound)
    (hfresh : Fresh backend dirs start) (hasked : ∀ item ∈ items, ∃ index < bound, Asked backend dirs index item.uuid item.nameHashed)
    (hnodup : (items.map Item.uuid).Nodup) (hfree : ∀ item ∈ items, ¬ before.Stands item.uuid) :
    (∃ done sent, Told before sent items done ∧ Sane backend dirs start sent bound ∧
      backend.bulkCreateDirs first items before = (.ok (some (done.map Prod.snd)), sent)) ∨
    backend.bulkCreateDirs first items before = (.ok none, before) ∨
    ∃ error sent, before.standing ⊆ sent.standing ∧ Sane backend dirs start sent bound ∧
      backend.bulkCreateDirs first items before = (.error error, sent) := by
  unfold Backend.bulkCreateDirs
  by_cases hempty : items = []
  · subst hempty
    exact Or.inl ⟨[], before, .nil before, hsane, rfl⟩
  rw [if_neg hempty]
  cases backend.bulk first with
  | answers =>
    exact Or.inl ⟨_, _, (Told.nil before).run _ hnodup hfree, hsane.run hfresh _ hasked, rfl⟩
  | unsupported => exact Or.inr (Or.inl rfl)
  | fails ran error =>
    have hsome : ∀ {item}, item ∈ items.take ran → item ∈ items := fun hitem => mem_of_mem_take hitem
    have hdistinct : (([] ++ items.take ran).map Item.uuid).Nodup := hnodup.sublist ((take_sublist ran items).map _)
    have hran := (Told.nil before).run (fun n => backend.choices (first + n)) hdistinct fun item hitem => hfree item (hsome hitem)
    exact Or.inr (Or.inr ⟨error, _, hran.grown, hsane.run hfresh _ fun item hitem => hasked item (hsome hitem), rfl⟩)

theorem Told.settles {done : List (Uuid × Answer)} (hprogress : Progress backend dirs start results before)
    (hfresh : Fresh backend dirs start)
    (hlisted : ∀ (n : Nat) dir, chunk[n]? = some dir → dirs[results.length + n]? = some dir)
    (hslotted : Slotted backend results.length results chunk slots)
    (htold : Told before sent (slots.filterMap Slot.item) done)
    (hsane : Sane backend dirs start sent (results.length + chunk.length)) :
    ∃ after, settle backend results.length (chunk.zip slots) (.answered (done.map Prod.snd)) [] results sent = after ∧
      Progress backend dirs start after.1 after.2 ∧ after.1.length = results.length + chunk.length := by
  obtain ⟨hasked, hminted⟩ := hslotted.items hlisted
  have hnew : ∀ (n : Nat) request parent, slots[n]? = some (.minted request parent) → ¬ before.Exists request.uuid := by
    intro n request parent hslot hexists
    obtain ⟨dir, hdir, hasked⟩ := hminted n request parent hslot
    rcases Server.exists_iff.mp hexists with hroot | ⟨other, hother, huuid⟩
    · exact hprogress.sane.not_root hfresh hasked hroot
    obtain ⟨-, -, hlt⟩ := hprogress.sane.of_stands hfresh hasked hother huuid
    exact absurd hlt (not_lt.mpr (Nat.le_add_right _ _))
  have hsent : Sent backend dirs results.length before sent results chunk slots done := by
    refine ⟨hlisted, hslotted, htold, hprogress.truthful, rfl, hnew, fun n request parent hslot => ?_, ?_,
      fun n request parent hslot => ?_⟩
    · obtain ⟨dir, hdir, hasked⟩ := hminted n request parent hslot
      exact hfresh.apart _ _ hasked.1
    · rw [htold.uuids]
      exact hslotted.nodup hfresh hlisted
    obtain ⟨dir, hdir, hasked⟩ := hminted n request parent hslot
    exact hsane.not_root hfresh hasked
  have hbegun : Settled backend dirs start results.length sent results chunk slots done 0 [] results sent := by
    refine ⟨rfl, prefix_refl _, nil_prefix, rfl, fun n dir created hdir hcreated => ?_, hsane, fun _ h => h, rfl,
      fun _ h => Or.inl h, fun m hm => absurd hm (Nat.not_lt_zero m)⟩
    obtain ⟨parent, hparent, hholds⟩ := hprogress.truthful n dir created hdir hcreated
    exact ⟨parent, hparent, htold.grown hholds⟩
  obtain ⟨told, hsettled⟩ : ∃ told, Settled backend dirs start results.length sent results chunk slots done chunk.length told
      (settle backend results.length (chunk.zip slots) (.answered (done.map Prod.snd)) [] results sent).1
      (settle backend results.length (chunk.zip slots) (.answered (done.map Prod.snd)) [] results sent).2 :=
    settle_answered hsent hfresh hbegun (Nat.zero_le _) rfl rfl
  exact ⟨_, rfl, ⟨hsettled.truthful, hsettled.length ▸ hsettled.sane⟩, hsettled.length⟩

theorem createChunk_spec (hprogress : Progress backend dirs start results before) (hfresh : Fresh backend dirs start)
    (hlisted : ∀ (n : Nat) dir, chunk[n]? = some dir → dirs[results.length + n]? = some dir) :
    ∃ after, createChunk backend chunk results.length results before = after ∧ Progress backend dirs start after.1 after.2 ∧
      after.1.length = results.length + chunk.length := by
  have hempty : Slotted backend results.length results [] [] := ⟨rfl, fun _ _ _ _ hdir => nomatch hdir⟩
  have hslotted : Slotted backend results.length results chunk (mintSlots backend results.length results chunk []) := hempty.mintSlots
  have hsane := hprogress.sane.mono (Nat.le_add_right results.length chunk.length)
  obtain ⟨hasked, -⟩ := hslotted.items hlisted
  have hfree : ∀ item ∈ (mintSlots backend results.length results chunk []).filterMap Slot.item, ¬ before.Stands item.uuid := by
    rintro item hitem ⟨other, hother, huuid⟩
    obtain ⟨index, hge, -, hindex⟩ := hasked item hitem
    obtain ⟨-, -, hlt⟩ := hprogress.sane.of_stands hfresh hindex hother huuid
    exact absurd hlt (not_lt.mpr hge)
  unfold createChunk
  dsimp only
  rcases bulkCreateDirs_cases results.length hsane hfresh
      (fun item hitem => let ⟨index, _, hlt, hindex⟩ := hasked item hitem; ⟨index, hlt, hindex⟩)
      (hslotted.nodup hfresh hlisted) hfree with ⟨done, sent, htold, hsent, hbulk⟩ | hbulk | ⟨error, sent, hgrown, hsent, hbulk⟩
  · rw [hbulk]
    exact htold.settles hprogress hfresh hlisted hslotted hsent
  · rw [hbulk]
    have hleft := (Told.unanswered hfree).settles hprogress hfresh hlisted hslotted hsane
    rw [settle_unsupported]
    have hitems : (chunk.zip (mintSlots backend results.length results chunk [])).filterMap (fun entry => entry.2.item) =
        (mintSlots backend results.length results chunk []).filterMap Slot.item := by
      conv_rhs => rw [← map_snd_zip (le_of_eq hslotted.length)]
      rw [filterMap_map]
      rfl
    rw [hitems]
    rw [map_map] at hleft
    exact hleft
  rw [hbulk]
  obtain ⟨failures, hsettle, hlength, hfailed⟩ := settle_failed backend results.length error
    (chunk.zip (mintSlots backend results.length results chunk [])) [] results sent
  have htotal : (results ++ failures).length = results.length + chunk.length := by
    rw [length_append, hlength, length_zip, hslotted.length, Nat.min_self]
  refine ⟨_, hsettle, ⟨hprogress.truthful.extend hgrown hfailed, ?_⟩, htotal⟩
  rw [htotal]
  exact hsent

/-! ## Every chunk -/

theorem createChunks_spec {maxWriteItems : Nat} (hfresh : Fresh backend dirs start) (chunks : Nat)
    (hprogress : Progress backend dirs start results server) (hle : results.length ≤ dirs.length)
    (henough : dirs.length ≤ results.length + chunks * maxWriteItems) :
    ∃ after, createChunks backend maxWriteItems dirs chunks results server = after ∧ Progress backend dirs start after.1 after.2 ∧
      after.1.length = dirs.length := by
  induction chunks generalizing results server with
  | zero =>
    rw [Nat.zero_mul] at henough
    exact ⟨_, rfl, hprogress, le_antisymm hle henough⟩
  | succ chunks ih =>
    have hlisted : ∀ (n : Nat) dir, ((dirs.drop results.length).take maxWriteItems)[n]? = some dir →
        dirs[results.length + n]? = some dir := by
      intro n dir hdir
      rw [getElem?_take] at hdir
      split at hdir
      · rw [← getElem?_drop]
        exact hdir
      · exact nomatch hdir
    obtain ⟨⟨made, between⟩, hchunk, hmade, hlength⟩ := createChunk_spec hprogress hfresh hlisted
    rw [length_take, length_drop] at hlength
    unfold createChunks
    rw [hchunk]
    refine ih hmade ?_ ?_
    · dsimp only at hlength ⊢
      omega
    dsimp only at hlength ⊢
    rw [Nat.succ_mul] at henough
    omega

omit [DecidableEq Hash] in
theorem parentNotEarlier_none (hearlier : ∀ (item : Nat) dir parent, dirs[item]? = some dir → dir.parent = .earlier parent → parent < item) :
    parentNotEarlier dirs = none := by
  refine findSome?_eq_none_iff.mpr ?_
  rintro ⟨dir, item⟩ hmem
  have hdir := mem_zipIdx_iff_getElem?.mp hmem
  dsimp only
  split
  · rename_i parent hparent
    exact if_neg (not_le.mpr (hearlier item dir parent hdir hparent))
  · rfl

/-- Creating directories builds the asked tree: there is a result for each directory, one that is
said to be there stands under its name where its parent's own result is, one whose parent failed
fails, and none is created twice or beside another of its name. -/
theorem createDirs_builds {maxWriteItems : Nat} (hmax : 0 < maxWriteItems) (hfresh : Fresh backend dirs start)
    (hearlier : ∀ (item : Nat) dir parent, dirs[item]? = some dir → dir.parent = .earlier parent → parent < item)
    (hstart : start.created = []) :
    ∃ results after, createDirs backend maxWriteItems dirs start = (.ok results, after) ∧ results.length = dirs.length ∧
      (∀ (n : Nat) dir created, dirs[n]? = some dir → results[n]? = some (.ok created) →
        ∃ parent, parentOf results dir = some parent ∧ after.Holds created.uuid parent (backend.hash dir.name)) ∧
      (∀ (n : Nat) dir parent error, dirs[n]? = some dir → dir.parent = .earlier parent → results[parent]? = some (.error error) →
        ∃ error, results[n]? = some (.error error)) ∧
      (∀ item ∈ after.created, ∃ index < dirs.length, Asked backend dirs index item.uuid item.nameHashed) ∧
      after.created.Pairwise fun a b => a.uuid ≠ b.uuid ∧ ¬ (a.parent = b.parent ∧ a.nameHashed = b.nameHashed) := by
  have hbegun : Progress backend dirs start [] start := by
    refine ⟨(fun n dir created _ hcreated => nomatch hcreated), rfl, rfl, ?_, ?_⟩
    · rw [hstart]
      exact fun _ hmem => nomatch hmem
    rw [hstart]
    exact List.Pairwise.nil
  have henough : dirs.length ≤ ([] : List (Except Error CreatedDir)).length + (dirs.length + maxWriteItems - 1) / maxWriteItems * maxWriteItems := by
    have hdiv := Nat.div_add_mod (dirs.length + maxWriteItems - 1) maxWriteItems
    have hmod := Nat.mod_lt (dirs.length + maxWriteItems - 1) hmax
    rw [Nat.mul_comm] at hdiv
    rw [length_nil]
    omega
  obtain ⟨⟨results, after⟩, hchunks, hprogress, hlength⟩ := createChunks_spec hfresh _ hbegun (Nat.zero_le _) henough
  refine ⟨results, after, ?_, hlength, hprogress.truthful, fun n dir parent error hdir hparent herror => ?_, ?_, hprogress.sane.apart⟩
  · unfold createDirs
    rw [parentNotEarlier_none hearlier]
    dsimp only
    rw [hchunks]
  · have hlt : n < results.length := hlength ▸ (List.getElem?_eq_some_iff.mp hdir).1
    cases hresult : results[n] with
    | error error => exact ⟨error, by rw [getElem?_eq_getElem hlt, hresult]⟩
    | ok created =>
      obtain ⟨folder, hfolder, -⟩ := hprogress.truthful n dir created hdir (by rw [getElem?_eq_getElem hlt, hresult])
      unfold parentOf at hfolder
      rw [hparent] at hfolder
      dsimp only at hfolder
      rw [herror] at hfolder
      exact nomatch hfolder
  have hasked := hprogress.sane.asked
  rwa [hlength] at hasked

/-! A folder that is there already, one whose request says nothing of it, and one inside it. -/

def unsaidDirs : List NewDir := [⟨['a'], 0, .existing 1⟩, ⟨['b'], 0, .earlier 0⟩, ⟨['c'], 0, .earlier 1⟩]

def unsaidServer : Server Name := ⟨[1], [⟨2, ['a'], 1⟩], []⟩

def unsaidBackend : Backend Name where
  hash name := name
  mint index := if index < 3 then .ok (BitVec.ofNat 128 (10 + index)) else .error (.failed ['m'])
  bulk _ := .answers
  choices index := if index = 1 then .internalError false else .run 5
  single _ := .run 6

theorem unsaidBackend_mint {index : Nat} {uuid : Uuid} (h : unsaidBackend.mint index = .ok uuid) :
    index = 0 ∧ uuid = 10 ∨ index = 1 ∧ uuid = 11 ∨ index = 2 ∧ uuid = 12 := by
  match index with
  | 0 => exact Or.inl ⟨rfl, (Except.ok.inj h).symm⟩
  | 1 => exact Or.inr (Or.inl ⟨rfl, (Except.ok.inj h).symm⟩)
  | 2 => exact Or.inr (Or.inr ⟨rfl, (Except.ok.inj h).symm⟩)
  | index + 3 =>
    unfold unsaidBackend at h
    dsimp only at h
    rw [if_neg (not_lt.mpr (Nat.le_add_left 3 index))] at h
    exact nomatch h

theorem unsaidBackend_fresh : Fresh unsaidBackend unsaidDirs unsaidServer := by
  refine ⟨fun i j uuid hi hj => ?_, fun i uuid hi => ?_, fun i uuid hi => ?_⟩
  · rcases unsaidBackend_mint hi with ⟨rfl, rfl⟩ | ⟨rfl, rfl⟩ | ⟨rfl, rfl⟩ <;>
      rcases unsaidBackend_mint hj with ⟨rfl, hsame⟩ | ⟨rfl, hsame⟩ | ⟨rfl, hsame⟩ <;>
        first | rfl | exact absurd hsame (by decide)
  all_goals rcases unsaidBackend_mint hi with ⟨-, rfl⟩ | ⟨-, rfl⟩ | ⟨-, rfl⟩ <;> decide

/-- The second is created by its single call in the folder that was there, and the third in it. -/
theorem createDirs_builds_unsaid :
    (createDirs unsaidBackend 2 unsaidDirs unsaidServer).1 = .ok [.ok ⟨2, true, 5⟩, .ok ⟨11, false, 6⟩, .ok ⟨12, false, 5⟩] ∧
    ∃ results after, createDirs unsaidBackend 2 unsaidDirs unsaidServer = (.ok results, after) ∧
      after.created.Pairwise fun a b => a.uuid ≠ b.uuid ∧ ¬ (a.parent = b.parent ∧ a.nameHashed = b.nameHashed) := by
  obtain ⟨results, after, hcreate, -, -, -, -, hapart⟩ := createDirs_builds (Nat.zero_lt_two) unsaidBackend_fresh
    (fun item dir parent hdir hparent => by
      match item with
      | 0 => cases Option.some.inj hdir; exact nomatch hparent
      | 1 => cases Option.some.inj hdir; cases hparent; decide
      | 2 => cases Option.some.inj hdir; cases hparent; decide
      | item + 3 => exact nomatch hdir) rfl
  exact ⟨by decide +kernel, results, after, hcreate, hapart⟩

end SyncEngine.Bulk
