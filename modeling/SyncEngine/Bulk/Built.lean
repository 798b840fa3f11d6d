import SyncEngine.Bulk.CreateDirs

/-! # The tree that is built

Whatever the server answers, a directory that is said to be created stands under its name in
the directory its parent's own result names, and none is created twice.
-/

namespace SyncEngine.Bulk

open Server List

variable {Hash : Type} [DecidableEq Hash]

/-- What stands at an index once an entry was added. -/
theorem getElem?_concat {α : Type} {l : List α} {added x : α} {n : Nat} (h : (l ++ [added])[n]? = some x) :
    n < l.length ∧ l[n]? = some x ∨ n = l.length ∧ added = x := by
  rcases lt_trichotomy n l.length with hlt | rfl | hgt
  · exact Or.inl ⟨hlt, getElem?_append_left hlt ▸ h⟩
  · rw [getElem?_concat_length] at h
    exact Or.inr ⟨rfl, Option.some.inj h⟩
  · rw [getElem?_append_right hgt.le, getElem?_singleton, if_neg (Nat.sub_ne_zero_of_lt hgt)] at h
    exact nomatch h

/-! ## What the server has -/

namespace Server

variable {server after : Server Hash} {item : Item Hash} {uuid parent : Uuid} {name : Hash}

/-- A directory stands under a name in a parent. -/
def Holds (server : Server Hash) (uuid parent : Uuid) (name : Hash) : Prop := ⟨uuid, name, parent⟩ ∈ server.standing

/-- Some directory stands under a uuid. -/
def Stands (server : Server Hash) (uuid : Uuid) : Prop := ∃ dir ∈ server.standing, dir.uuid = uuid

/-- A server with more directories, of so many items. -/
structure Grown (server after : Server Hash) (items : List (Item Hash)) : Prop where
  roots : after.roots = server.roots
  initial : after.initial = server.initial
  created : after.created = items ++ server.created

omit [DecidableEq Hash] in
theorem Grown.refl (server : Server Hash) : Grown server server [] := ⟨rfl, rfl, rfl⟩

variable {items : List (Item Hash)}

omit [DecidableEq Hash] in
theorem Grown.mem_standing (h : Grown server after items) {dir : Item Hash} :
    dir ∈ after.standing ↔ dir ∈ items ∨ dir ∈ server.standing := by
  unfold standing
  rw [h.created, h.initial, append_assoc, mem_append]

omit [DecidableEq Hash] in
theorem Grown.exists (h : Grown server after items) (hexists : server.Exists uuid) :
    after.Exists uuid := by
  rcases hexists with hroot | hstands
  · exact Or.inl (h.roots ▸ hroot)
  obtain ⟨dir, hdir, rfl⟩ := mem_map.mp hstands
  exact Or.inr (mem_map_of_mem (h.mem_standing.mpr (Or.inr hdir)))

omit [DecidableEq Hash] in
theorem Holds.exists (h : server.Holds uuid parent name) : server.Exists uuid := Or.inr (mem_map_of_mem h)

omit [DecidableEq Hash] in
theorem exists_iff : server.Exists uuid ↔ uuid ∈ server.roots ∨ server.Stands uuid := by
  unfold Exists Stands
  rw [mem_map]

theorem repeated_iff : server.repeated item ↔ ∃ parent, server.Holds item.uuid parent item.nameHashed := by
  unfold repeated Holds
  rw [any_eq_true]
  constructor
  · rintro ⟨⟨uuid, name, parent⟩, hdir, hsame⟩
    obtain ⟨rfl, rfl⟩ := of_decide_eq_true hsame
    exact ⟨parent, hdir⟩
  rintro ⟨parent, hdir⟩
  exact ⟨_, hdir, decide_eq_true ⟨rfl, rfl⟩⟩

/-- What a create does in a folder that exists: it is answered what stands under its name, and
what stands under its uuid stays. -/
theorem create_some {answer : Uuid} (h : server.create item = some (answer, after)) :
    server.Exists item.parent ∧
      (server.repeated item ∧ answer = item.uuid ∧ after = server ∨
        server.repeated item = false ∧ after.Holds answer item.parent item.nameHashed ∧
          (after = server ∨ answer = item.uuid ∧ Grown server after [item] ∧
            ∀ dir ∈ server.standing, ¬ (dir.parent = item.parent ∧ dir.nameHashed = item.nameHashed))) := by
  unfold create at h
  by_cases hexists : server.Exists item.parent
  · rw [if_neg (not_not_intro hexists)] at h
    refine ⟨hexists, ?_⟩
    by_cases hrepeated : server.repeated item
    · rw [if_pos hrepeated] at h
      cases h
      exact Or.inl ⟨hrepeated, rfl, rfl⟩
    rw [if_neg hrepeated] at h
    refine Or.inr ⟨Bool.not_eq_true _ ▸ hrepeated, ?_⟩
    split at h
    · rename_i dir hfound
      cases h
      have hdir := find?_some hfound
      obtain ⟨hparent, hname⟩ := of_decide_eq_true hdir
      refine ⟨?_, Or.inl rfl⟩
      rw [← hparent, ← hname]
      exact mem_of_find?_eq_some hfound
    rename_i hmissing
    cases h
    refine ⟨mem_append_left _ mem_cons_self, Or.inr ⟨rfl, ⟨rfl, rfl, rfl⟩, fun dir hdir hsame => ?_⟩⟩
    exact find?_eq_none.mp hmissing dir hdir (decide_eq_true hsame)
  rw [if_pos hexists] at h
  exact nomatch h

end Server

/-- A directory of the list is minted under a uuid and has a name. -/
def Asked (backend : Backend Hash) (dirs : List NewDir) (index : Nat) (uuid : Uuid) (name : Hash) : Prop :=
  backend.mint index = .ok uuid ∧ ∃ dir, dirs[index]? = some dir ∧ backend.hash dir.name = name

/-- Minted uuids are used nowhere yet. -/
structure Fresh (backend : Backend Hash) (dirs : List NewDir) (server : Server Hash) : Prop where
  injective : ∀ i j uuid, backend.mint i = .ok uuid → backend.mint j = .ok uuid → i = j
  new : ∀ i uuid, backend.mint i = .ok uuid → ¬ server.Exists uuid
  apart : ∀ i uuid, backend.mint i = .ok uuid → ∀ dir ∈ dirs, dir.parent ≠ .existing uuid

/-- What holds of the server once directories before one were sent. -/
structure Sane (backend : Backend Hash) (dirs : List NewDir) (start server : Server Hash) (bound : Nat) : Prop where
  roots : server.roots = start.roots
  initial : server.initial = start.initial
  asked : ∀ item ∈ server.created, ∃ index < bound, Asked backend dirs index item.uuid item.nameHashed
  apart : server.created.Pairwise fun a b => a.uuid ≠ b.uuid ∧ ¬ (a.parent = b.parent ∧ a.nameHashed = b.nameHashed)

variable {backend : Backend Hash} {dirs : List NewDir} {start server after : Server Hash} {bound index : Nat} {uuid parent : Uuid}
  {name : Hash} {item : Item Hash}

section

variable (h : Sane backend dirs start server bound)
include h

omit [DecidableEq Hash] in
theorem Sane.mono {more : Nat} (hle : bound ≤ more) :
    Sane backend dirs start server more :=
  ⟨h.roots, h.initial, fun item hitem =>
    let ⟨index, hlt, hasked⟩ := h.asked item hitem
    ⟨index, lt_of_lt_of_le hlt hle, hasked⟩, h.apart⟩

section

variable (hfresh : Fresh backend dirs start)
include hfresh

omit [DecidableEq Hash] in
theorem Sane.of_stands
    (hasked : Asked backend dirs index uuid name) {dir : Item Hash} (hdir : dir ∈ server.standing) (huuid : dir.uuid = uuid) :
    dir ∈ server.created ∧ dir.nameHashed = name ∧ index < bound := by
  rcases mem_append.mp hdir with hcreated | hinitial
  · obtain ⟨other, hlt, hmint, asked, hat, hname⟩ := h.asked dir hcreated
    have hsame := hfresh.injective _ _ _ (huuid ▸ hmint) hasked.1
    subst hsame
    obtain ⟨-, asked', hat', hname'⟩ := hasked
    cases hat.symm.trans hat'
    exact ⟨hcreated, hname.symm.trans hname', hlt⟩
  refine absurd ?_ (hfresh.new _ _ hasked.1)
  rw [h.initial] at hinitial
  exact Or.inr (mem_map.mpr ⟨dir, mem_append_right _ hinitial, huuid⟩)

omit [DecidableEq Hash] in
theorem Sane.not_root
    (hasked : Asked backend dirs index uuid name) : uuid ∉ server.roots := by
  rw [h.roots]
  exact fun hroot => hfresh.new _ _ hasked.1 (Or.inl hroot)

theorem Sane.create
    (hasked : Asked backend dirs index item.uuid item.nameHashed) (hlt : index < bound) {answer : Uuid}
    (hcreate : server.create item = some (answer, after)) : Sane backend dirs start after bound := by
  obtain ⟨-, ⟨-, -, rfl⟩ | ⟨hnew, -, rfl | ⟨-, hgrown, hnamed⟩⟩⟩ := create_some hcreate
  · exact h
  · exact h
  refine ⟨hgrown.roots.trans h.roots, hgrown.initial.trans h.initial, fun dir hdir => ?_, ?_⟩
  · rw [hgrown.created] at hdir
    rcases mem_cons.mp hdir with rfl | hdir
    · exact ⟨index, hlt, hasked⟩
    · exact h.asked dir hdir
  rw [hgrown.created]
  refine pairwise_cons.mpr ⟨fun dir hdir => ⟨fun huuid => ?_, fun hsame => ?_⟩, h.apart⟩
  · have hstanding : dir ∈ server.standing := mem_append_left _ hdir
    obtain ⟨-, hname, -⟩ := h.of_stands hfresh hasked hstanding huuid.symm
    have hrepeated : server.repeated item := by
      refine repeated_iff.mpr ⟨dir.parent, ?_⟩
      rw [huuid, ← hname]
      exact hstanding
    rw [hrepeated] at hnew
    exact nomatch hnew
  · exact hnamed dir (mem_append_left _ hdir) ⟨hsame.1.symm, hsame.2.symm⟩

end

end

/-! ## A request -/

/-- What the answers of the items that ran say of the server. -/
structure Told (before server : Server Hash) (items : List (Item Hash)) (done : List (Uuid × Answer)) : Prop where
  uuids : done.map Prod.fst = items.map Item.uuid
  roots : server.roots = before.roots
  grown : before.standing ⊆ server.standing
  only : ∀ dir ∈ server.standing, dir ∈ before.standing ∨ dir.uuid ∈ items.map Item.uuid
  /-- What was answered stands where the item ran. -/
  ok : ∀ (n : Nat) item response, items[n]? = some item → done[n]? = some (item.uuid, .ok response) →
    server.Exists (standsFor (done.take n) item.parent) ∧
      server.Holds response.uuid (standsFor (done.take n) item.parent) item.nameHashed
  /-- What stands under an item's uuid stands where it ran, and was not refused. -/
  stands : ∀ (n : Nat) item answer dir, items[n]? = some item → done[n]? = some (item.uuid, answer) → dir ∈ server.standing →
    dir.uuid = item.uuid → dir.parent = standsFor (done.take n) item.parent ∧
      server.Exists (standsFor (done.take n) item.parent) ∧
      (answer = .err .internalError ∨ ∃ response, answer = .ok response ∧ response.uuid = item.uuid)

omit [DecidableEq Hash] in
theorem Told.nil (server : Server Hash) : Told server server [] [] :=
  ⟨rfl, rfl, fun _ h => h, fun _ h => Or.inl h, (fun _ _ _ h => nomatch h), fun _ _ _ _ h => nomatch h⟩

theorem runItem_cases (choice : Choice) (done : List (Uuid × Answer)) (item : Item Hash) (server : Server Hash) :
    (∃ code, runItem choice done item server = (.err code, server)) ∨
    ∃ uuid after answer, server.create { item with parent := standsFor done item.parent } = some (uuid, after) ∧
      runItem choice done item server = (answer, after) ∧
      (answer = .err .internalError ∨ ∃ timestamp, answer = .ok ⟨uuid, timestamp⟩) := by
  unfold Server.runItem
  dsimp only
  split
  · exact Or.inl ⟨_, rfl⟩
  · exact Or.inl ⟨_, rfl⟩
  · exact Or.inl ⟨_, rfl⟩
  · exact Or.inl ⟨_, rfl⟩
  · rename_i timestamp uuid after hcreate
    exact Or.inr ⟨uuid, after, _, hcreate, rfl, Or.inr ⟨timestamp, rfl⟩⟩
  rename_i uuid after hcreate
  exact Or.inr ⟨uuid, after, _, hcreate, rfl, Or.inl rfl⟩

variable {items : List (Item Hash)}
variable {done : List (Uuid × Answer)}

theorem Told.step {before server : Server Hash} {item : Item Hash}
    (h : Told before server items done) (choice : Choice) (hnew : item.uuid ∉ items.map Item.uuid) (hfree : ¬ before.Stands item.uuid) :
    Told before (runItem choice done item server).2 (items ++ [item])
      (done ++ [(item.uuid, (runItem choice done item server).1)]) := by
  have hlength : done.length = items.length := by
    have hlengths := congrArg List.length h.uuids
    rwa [length_map, length_map] at hlengths
  have hunused : ¬ server.Stands item.uuid := by
    rintro ⟨dir, hdir, huuid⟩
    rcases h.only dir hdir with hbefore | hmem
    · exact hfree ⟨dir, hbefore, huuid⟩
    · exact hnew (huuid ▸ hmem)
  have hfirst : server.repeated item = false := by
    rw [← Bool.not_eq_true]
    intro hrepeated
    obtain ⟨parent, hholds⟩ := repeated_iff.mp hrepeated
    exact hunused ⟨_, hholds, rfl⟩
  -- an earlier item, or the one that ran
  have hcases : ∀ {n : Nat} {other : Item Hash} {answer answer' : Answer}, (items ++ [item])[n]? = some other →
      (done ++ [(item.uuid, answer')])[n]? = some (other.uuid, answer) →
      (items[n]? = some other ∧ done[n]? = some (other.uuid, answer) ∧ (done ++ [(item.uuid, answer')]).take n = done.take n) ∨
        (other = item ∧ answer = answer' ∧ (done ++ [(item.uuid, answer')]).take n = done) := by
    intro n other answer answer' hitem hdone
    rcases getElem?_concat hitem with ⟨hn, hitem⟩ | ⟨rfl, rfl⟩
    · rw [getElem?_append_left (hlength ▸ hn)] at hdone
      exact Or.inl ⟨hitem, hdone, take_append_of_le_length (le_of_lt (hlength ▸ hn))⟩
    rw [← hlength, getElem?_concat_length] at hdone
    exact Or.inr ⟨rfl, (Prod.mk.inj (Option.some.inj hdone)).2.symm, hlength ▸ take_left⟩
  have huuids : ∀ answer : Answer, (done ++ [(item.uuid, answer)]).map Prod.fst = (items ++ [item]).map Item.uuid := by
    intro answer
    rw [map_append, map_append, h.uuids]
    rfl
  rcases runItem_cases choice done item server with ⟨code, hrun⟩ | ⟨uuid, after, answer, hcreate, hrun, hanswer⟩
  · rw [hrun]
    refine ⟨huuids _, h.roots, h.grown, fun dir hdir => ?_, fun n other response hother hdone => ?_,
      fun n other answer dir hother hdone hdir huuid => ?_⟩
    · exact (h.only dir hdir).imp_right fun hmem => map_append ▸ mem_append_left _ hmem
    · rcases hcases hother hdone with ⟨hitem, hanswered, htake⟩ | ⟨-, hanswer, -⟩
      · rw [htake]
        exact h.ok n other response hitem hanswered
      · exact nomatch hanswer
    rcases hcases hother hdone with ⟨hitem, hanswered, htake⟩ | ⟨rfl, -, -⟩
    · rw [htake]
      exact h.stands n other answer dir hitem hanswered hdir huuid
    · exact absurd ⟨dir, hdir, huuid⟩ hunused
  rw [hrun]
  obtain ⟨hexists, ⟨hrepeated, -, -⟩ | ⟨-, hholds, hafter⟩⟩ := create_some hcreate
  · exact nomatch hfirst.symm.trans hrepeated
  have hgrown : ∃ created, Grown server after created ∧
      ∀ dir ∈ created, dir = { item with parent := standsFor done item.parent } ∧ uuid = item.uuid := by
    rcases hafter with rfl | ⟨huuid, hgrown, -⟩
    · exact ⟨[], .refl _, fun _ hdir => nomatch hdir⟩
    · exact ⟨_, hgrown, fun dir hdir => ⟨mem_singleton.mp hdir, huuid⟩⟩
  obtain ⟨created, hgrown, hcreated⟩ := hgrown
  refine ⟨huuids _, hgrown.roots.trans h.roots, fun dir hdir => hgrown.mem_standing.mpr (Or.inr (h.grown hdir)), fun dir hdir => ?_,
    fun n other response hother hdone => ?_, fun n other answer' dir hother hdone hdir huuid => ?_⟩
  · rcases hgrown.mem_standing.mp hdir with hnew | hold
    · right
      rw [(hcreated dir hnew).1, map_append]
      exact mem_append_right _ (mem_singleton.mpr rfl)
    · exact (h.only dir hold).imp_right fun hmem => map_append ▸ mem_append_left _ hmem
  · rcases hcases hother hdone with ⟨hitem, hanswered, htake⟩ | ⟨rfl, hsame, htake⟩
    · rw [htake]
      obtain ⟨hparent, hstands⟩ := h.ok n other response hitem hanswered
      exact ⟨hgrown.exists hparent, hgrown.mem_standing.mpr (Or.inr hstands)⟩
    rw [htake]
    refine ⟨hgrown.exists hexists, ?_⟩
    rcases hanswer with hopen | ⟨timestamp, hok⟩
    · exact nomatch hsame.trans hopen
    cases hsame.trans hok
    exact hholds
  rcases hcases hother hdone with ⟨hitem, hanswered, htake⟩ | ⟨rfl, rfl, htake⟩
  · rw [htake]
    rcases hgrown.mem_standing.mp hdir with hnew' | hold
    · have hmem : other.uuid ∈ items.map Item.uuid := mem_map_of_mem (mem_of_getElem? hitem)
      rw [← huuid, (hcreated dir hnew').1] at hmem
      exact absurd hmem hnew
    obtain ⟨hparent, hparentExists, hrest⟩ := h.stands n other answer' dir hitem hanswered hold huuid
    exact ⟨hparent, hgrown.exists hparentExists, hrest⟩
  rw [htake]
  rcases hgrown.mem_standing.mp hdir with hnew' | hold
  · obtain ⟨hdirIs, hsame⟩ := hcreated dir hnew'
    refine ⟨by rw [hdirIs], hgrown.exists hexists, hanswer.imp_right ?_⟩
    rintro ⟨timestamp, rfl⟩
    exact ⟨_, rfl, hsame⟩
  · exact absurd ⟨dir, hold, huuid⟩ hunused

theorem Told.run {before server : Server Hash} {ran : List (Item Hash)}
    (h : Told before server ran done) (choices : Nat → Choice) (hnodup : ((ran ++ items).map Item.uuid).Nodup)
    (hfree : ∀ item ∈ items, ¬ before.Stands item.uuid) :
    Told before (runItems choices items done server).2 (ran ++ items) (runItems choices items done server).1 := by
  induction items generalizing ran done server with
  | nil =>
    rw [append_nil]
    exact h
  | cons item items ih =>
    have hnew : item.uuid ∉ ran.map Item.uuid := by
      rw [map_append, map_cons] at hnodup
      exact fun hmem => (nodup_append.mp hnodup).2.2 _ hmem _ mem_cons_self rfl
    have hstep := h.step (choices done.length) hnew (hfree item mem_cons_self)
    have hassoc : ran ++ item :: items = (ran ++ [item]) ++ items := by rw [append_assoc, singleton_append]
    rw [hassoc] at hnodup ⊢
    exact ih hstep hnodup fun other hother => hfree other (mem_cons_of_mem _ hother)

theorem Sane.run (h : Sane backend dirs start server bound)
    (hfresh : Fresh backend dirs start) (choices : Nat → Choice)
    (hasked : ∀ item ∈ items, ∃ index < bound, Asked backend dirs index item.uuid item.nameHashed) :
    Sane backend dirs start (runItems choices items done server).2 bound := by
  induction items generalizing done server with
  | nil => exact h
  | cons item items ih =>
    have hnext : Sane backend dirs start (runItem (choices done.length) done item server).2 bound := by
      rcases runItem_cases (choices done.length) done item server with ⟨code, hrun⟩ | ⟨uuid, after, answer, hcreate, hrun, -⟩
      · rw [hrun]
        exact h
      rw [hrun]
      obtain ⟨index, hlt, hindex⟩ := hasked item mem_cons_self
      exact @Sane.create _ _ backend dirs start server after bound index
        { item with parent := standsFor done item.parent } h hfresh hindex hlt uuid hcreate
    exact ih hnext fun other hother => hasked other (mem_cons_of_mem _ hother)

/-! ## A chunk before it is sent -/

variable {first : Nat} {results : List (Except Error CreatedDir)} {chunk : List NewDir} {slots : List (Slot Hash)}

/-- Slots of a chunk's directories, each minted for its directory and under the parent it is sent
under. -/
structure Slotted (backend : Backend Hash) (first : Nat) (results : List (Except Error CreatedDir)) (chunk : List NewDir)
    (slots : List (Slot Hash)) : Prop where
  length : slots.length = chunk.length
  minted : ∀ (n : Nat) dir request parent, chunk[n]? = some dir → slots[n]? = some (.minted request parent) →
    backend.mintDir (first + n) dir = .ok request ∧ sentParent first results (slots.take n) dir.parent = .ok parent

variable {dir : NewDir}
variable {request : NewDirRequest Hash}

omit [DecidableEq Hash] in
theorem mintSlot_minted (h : mintSlot backend first results slots dir = .minted request parent) :
    backend.mintDir (first + slots.length) dir = .ok request ∧ sentParent first results slots dir.parent = .ok parent := by
  unfold mintSlot at h
  split at h
  · exact nomatch h
  rename_i hparent
  split at h
  · rename_i hmint
    cases h
    exact ⟨hmint, hparent⟩
  · exact nomatch h

omit [DecidableEq Hash] in
theorem Slotted.mintSlots {rest : List NewDir} (h : Slotted backend first results chunk slots) :
    Slotted backend first results (chunk ++ rest) (mintSlots backend first results rest slots) := by
  induction rest generalizing chunk slots with
  | nil =>
    rw [append_nil]
    exact h
  | cons dir rest ih =>
    have hassoc : chunk ++ dir :: rest = (chunk ++ [dir]) ++ rest := by rw [append_assoc, singleton_append]
    rw [hassoc]
    refine ih ⟨?_, fun n other request parent hother hslot => ?_⟩
    · rw [length_append, length_append, h.length]
      rfl
    rcases getElem?_concat hother with ⟨hn, hother⟩ | ⟨rfl, rfl⟩
    · rw [getElem?_append_left (h.length ▸ hn)] at hslot
      rw [take_append_of_le_length (le_of_lt (h.length ▸ hn))]
      exact h.minted n other request parent hother hslot
    rw [← h.length, getElem?_concat_length] at hslot
    rw [← h.length, take_left]
    exact mintSlot_minted (Option.some.inj hslot)

omit [DecidableEq Hash] in
theorem Slotted.asked (h : Slotted backend first results chunk slots) {n : Nat}
    (hdir : chunk[n]? = some dir) (hlisted : dirs[first + n]? = some dir) (hslot : slots[n]? = some (.minted request parent)) :
    Asked backend dirs (first + n) request.uuid request.nameHashed ∧ request.nameHashed = backend.hash dir.name ∧
      sentParent first results (slots.take n) dir.parent = .ok parent := by
  obtain ⟨hmint, hparent⟩ := h.minted n dir request parent hdir hslot
  unfold Backend.mintDir at hmint
  cases huuid : backend.mint (first + n) with
  | error error =>
    rw [huuid] at hmint
    exact nomatch hmint
  | ok uuid =>
    rw [huuid] at hmint
    cases Except.ok.inj hmint
    exact ⟨⟨huuid, dir, hlisted, rfl⟩, rfl, hparent⟩

def parentOf (results : List (Except Error CreatedDir)) (dir : NewDir) : Option Uuid :=
  match dir.parent with
  | .existing uuid => some uuid
  | .earlier parent =>
    match results[parent]? with
    | some (.ok created) => some created.uuid
    | _ => none

/-- Every directory that is said to be there stands under its name where its parent is said to be. -/
def Truthful (backend : Backend Hash) (dirs : List NewDir) (results : List (Except Error CreatedDir)) (server : Server Hash) : Prop :=
  ∀ (n : Nat) dir created, dirs[n]? = some dir → results[n]? = some (.ok created) →
    ∃ parent, parentOf results dir = some parent ∧ server.Holds created.uuid parent (backend.hash dir.name)

theorem parentOf_append (more : List (Except Error CreatedDir)) (h : parentOf results dir = some parent) :
    parentOf (results ++ more) dir = some parent := by
  unfold parentOf at h ⊢
  split at h
  · rename_i uuid hparent
    exact h
  rename_i index hparent
  split at h
  · rename_i created hcreated
    rw [List.getElem?_append_left (List.getElem?_eq_some_iff.mp hcreated).1, hcreated]
    exact h
  · exact nomatch h

omit [DecidableEq Hash] in
theorem Truthful.append {result : Except Error CreatedDir} (h : Truthful backend dirs results server)
    (hgrown : server.standing ⊆ after.standing) (hdir : dirs[results.length]? = some dir)
    (hresult : ∀ created, result = .ok created →
      ∃ parent, parentOf results dir = some parent ∧ after.Holds created.uuid parent (backend.hash dir.name)) :
    Truthful backend dirs (results ++ [result]) after := by
  intro n other created hother hcreated
  rcases getElem?_concat hcreated with ⟨-, hcreated⟩ | ⟨rfl, hlast⟩
  · obtain ⟨parent, hparent, hholds⟩ := h n other created hother hcreated
    exact ⟨parent, parentOf_append _ hparent, hgrown hholds⟩
  cases hdir.symm.trans hother
  obtain ⟨parent, hparent, hholds⟩ := hresult created hlast
  exact ⟨parent, parentOf_append _ hparent, hholds⟩

/-! ## Single calls -/

theorem createOneDir_spec {backend : Backend Hash} {server : Server Hash} {item : Item Hash} (call : Nat)
    (hwhere : ∀ dir ∈ server.standing, dir.uuid = item.uuid → dir.parent = item.parent) :
    ∃ created, Grown server (backend.createOneDir call item server).2 created ∧ (∀ dir ∈ created, dir = item) ∧
      (∀ response, (backend.createOneDir call item server).1 = .ok response →
        (backend.createOneDir call item server).2.Holds response.uuid item.parent item.nameHashed) ∧
      (server.Exists item.parent → server.repeated item →
        ∃ response, (backend.createOneDir call item server).1 = .ok response ∧ response.uuid = item.uuid) := by
  have hrepeats : server.repeated item → server.Holds item.uuid item.parent item.nameHashed := by
    intro hrepeated
    obtain ⟨parent, hholds⟩ := repeated_iff.mp hrepeated
    have hparent : parent = item.parent := hwhere _ hholds rfl
    rwa [hparent] at hholds
  have hcreates : ∀ {uuid after}, server.create item = some (uuid, after) →
      after.Holds uuid item.parent item.nameHashed ∧ ∃ created, Grown server after created ∧ ∀ dir ∈ created, dir = item := by
    intro uuid after hcreate
    obtain ⟨-, ⟨hrepeated, rfl, rfl⟩ | ⟨-, hholds, rfl | ⟨-, hgrown, -⟩⟩⟩ := create_some hcreate
    · exact ⟨hrepeats hrepeated, [], .refl _, fun _ hdir => nomatch hdir⟩
    · exact ⟨hholds, [], .refl _, fun _ hdir => nomatch hdir⟩
    · exact ⟨hholds, _, hgrown, fun dir hdir => mem_singleton.mp hdir⟩
  unfold Backend.createOneDir
  split
  · split
    · rename_i uuid after hcreate
      obtain ⟨hholds, created, hgrown, hcreated⟩ := hcreates hcreate
      refine ⟨created, hgrown, hcreated, fun response hresponse => ?_, fun _ hrepeated => ?_⟩
      · cases hresponse
        exact hholds
      obtain ⟨-, ⟨-, hsame, -⟩ | ⟨hnew, -⟩⟩ := create_some hcreate
      · exact ⟨_, rfl, hsame⟩
      · exact nomatch hnew.symm.trans hrepeated
    rename_i hcreate
    refine ⟨[], .refl _, (fun _ hdir => nomatch hdir), (fun _ hresponse => nomatch hresponse), fun hexists hrepeated => ?_⟩
    unfold Server.create at hcreate
    rw [if_neg (not_not_intro hexists), if_pos hrepeated] at hcreate
    exact nomatch hcreate
  · split
    · rename_i hrepeated
      refine ⟨[], .refl _, (fun _ hdir => nomatch hdir), fun response hresponse => ?_, fun _ _ => ⟨_, rfl, rfl⟩⟩
      cases hresponse
      exact hrepeats hrepeated
    rename_i hrepeated
    exact ⟨[], .refl _, (fun _ hdir => nomatch hdir), (fun _ hresponse => nomatch hresponse), fun _ h => absurd h hrepeated⟩
  split
  · rename_i hrepeated
    refine ⟨[], .refl _, (fun _ hdir => nomatch hdir), fun response hresponse => ?_, fun _ _ => ⟨_, rfl, rfl⟩⟩
    cases hresponse
    exact hrepeats hrepeated
  rename_i hrepeated
  split
  · rename_i hcreate
    obtain ⟨-, created, hgrown, hcreated⟩ := hcreates hcreate
    split
    · exact ⟨created, hgrown, hcreated, (fun _ hresponse => nomatch hresponse), fun _ h => absurd h hrepeated⟩
    · exact ⟨[], .refl _, (fun _ hdir => nomatch hdir), (fun _ hresponse => nomatch hresponse), fun _ h => absurd h hrepeated⟩
  · exact ⟨[], .refl _, (fun _ hdir => nomatch hdir), (fun _ hresponse => nomatch hresponse), fun _ h => absurd h hrepeated⟩

theorem Sane.createOneDir (h : Sane backend dirs start server bound) (hfresh : Fresh backend dirs start)
    (hasked : Asked backend dirs index item.uuid item.nameHashed) (hlt : index < bound) (call : Nat) :
    Sane backend dirs start (backend.createOneDir call item server).2 bound := by
  unfold Backend.createOneDir
  split
  · split
    · rename_i hcreate
      exact h.create hfresh hasked hlt hcreate
    · exact h
  · split
    · exact h
    · exact h
  split
  · exact h
  split
  · rename_i hcreate
    split
    · exact h.create hfresh hasked hlt hcreate
    · exact h
  · exact h

theorem createOne_of_parent (request : NewDirRequest Hash) (call : Nat) (h : parentOf results dir = some parent) :
    createOne backend call dir request results server =
      ((backend.createOneDir call (request.inParent parent) server).1.map (created request),
        (backend.createOneDir call (request.inParent parent) server).2) := by
  unfold parentOf at h
  unfold createOne
  cases hdir : dir.parent with
  | existing uuid =>
    rw [hdir] at h
    cases h
    rfl
  | earlier index =>
    rw [hdir] at h
    dsimp only at h ⊢
    rcases hresult : results[index]? with _ | error | made
    · rw [hresult] at h
      exact nomatch h
    · rw [hresult] at h
      exact nomatch h
    rw [hresult] at h
    cases h
    rfl

theorem createOne_of_none (request : NewDirRequest Hash) (call : Nat) (h : parentOf results dir = none) :
    ∃ error, createOne backend call dir request results server = (.error error, server) := by
  unfold parentOf at h
  unfold createOne
  cases hdir : dir.parent with
  | existing uuid =>
    rw [hdir] at h
    exact nomatch h
  | earlier index =>
    rw [hdir] at h
    dsimp only at h ⊢
    rcases hresult : results[index]? with _ | error | made
    · exact ⟨_, rfl⟩
    · exact ⟨_, rfl⟩
    rw [hresult] at h
    exact nomatch h

/-- What the single call of a directory comes to, where it stands nowhere but in the folder its
parent's result names. -/
theorem createOne_spec (call : Nat) (h : Sane backend dirs start server bound)
    (hfresh : Fresh backend dirs start) (hasked : Asked backend dirs index request.uuid request.nameHashed) (hlt : index < bound)
    (hwhere : ∀ parent, parentOf results dir = some parent → ∀ other ∈ server.standing, other.uuid = request.uuid → other.parent = parent) :
    Sane backend dirs start (createOne backend call dir request results server).2 bound ∧
    (∃ added, Grown server (createOne backend call dir request results server).2 added ∧
      ∀ other ∈ added, other.uuid = request.uuid) ∧
    (∀ result, (createOne backend call dir request results server).1 = .ok result → ∃ parent, parentOf results dir = some parent ∧
      (createOne backend call dir request results server).2.Holds result.uuid parent request.nameHashed) ∧
    (∀ parent, parentOf results dir = some parent → server.Exists parent → server.Stands request.uuid →
      ∃ result, (createOne backend call dir request results server).1 = .ok result ∧ result.uuid = request.uuid) := by
  cases hparent : parentOf results dir with
  | none =>
    obtain ⟨error, hone⟩ := @createOne_of_none _ _ backend server results dir request call hparent
    rw [hone]
    exact ⟨h, ⟨[], .refl _, fun _ hother => nomatch hother⟩, (fun _ hresult => nomatch hresult), fun _ hsome => nomatch hsome⟩
  | some parent =>
    obtain ⟨added, hgrown, hadded, hok, hrepeated⟩ := @createOneDir_spec _ _ backend server (request.inParent parent) call
      fun other hother huuid => hwhere parent hparent other hother huuid
    rw [createOne_of_parent request call hparent]
    refine ⟨h.createOneDir hfresh hasked hlt call, ⟨added, hgrown, fun other hother => by rw [hadded other hother]; rfl⟩,
      fun result hresult => ⟨parent, rfl, ?_⟩, fun other hsame hexists hstands => ?_⟩
    · obtain ⟨response, hresponse, rfl⟩ : ∃ response, (backend.createOneDir call (request.inParent parent) server).1 = .ok response ∧
          created request response = result := by
        cases hanswer : (backend.createOneDir call (request.inParent parent) server).1 with
        | ok response =>
          rw [hanswer] at hresult
          exact ⟨response, rfl, Except.ok.inj hresult⟩
        | error error =>
          rw [hanswer] at hresult
          exact nomatch hresult
      exact hok response hresponse
    cases hsame
    have hrepeats : server.repeated (request.inParent parent) := by
      obtain ⟨other, hother, huuid⟩ := hstands
      obtain ⟨-, hname, -⟩ := h.of_stands hfresh hasked hother huuid
      refine repeated_iff.mpr ⟨other.parent, ?_⟩
      unfold Server.Holds NewDirRequest.inParent
      rw [← huuid, ← hname]
      exact hother
    obtain ⟨response, hresponse, huuid⟩ := hrepeated hexists hrepeats
    refine ⟨created request response, ?_, huuid⟩
    rw [hresponse]
    rfl

/-! ## Settling a chunk -/

/-- A chunk that was sent, and what its items were answered. -/
structure Sent (backend : Backend Hash) (dirs : List NewDir) (first : Nat) (before sent : Server Hash)
    (results : List (Except Error CreatedDir)) (chunk : List NewDir) (slots : List (Slot Hash)) (done : List (Uuid × Answer)) : Prop where
  listed : ∀ (n : Nat) dir, chunk[n]? = some dir → dirs[first + n]? = some dir
  slotted : Slotted backend first results chunk slots
  told : Told before sent (slots.filterMap Slot.item) done
  truthful : Truthful backend dirs results before
  length : results.length = first
  /-- No uuid of the chunk was known before. -/
  unknown : ∀ (n : Nat) request parent, slots[n]? = some (.minted request parent) → ¬ before.Exists request.uuid
  unsaid : ∀ (n : Nat) request parent, slots[n]? = some (.minted request parent) → ∀ dir ∈ dirs, dir.parent ≠ .existing request.uuid
  nodup : (done.map Prod.fst).Nodup
  rootless : ∀ (n : Nat) request parent, slots[n]? = some (.minted request parent) → request.uuid ∉ sent.roots

/-- What holds once so many directories of a chunk were settled. -/
structure Settled (backend : Backend Hash) (dirs : List NewDir) (start : Server Hash) (first : Nat) (sent : Server Hash)
    (given : List (Except Error CreatedDir)) (chunk : List NewDir) (slots : List (Slot Hash)) (done : List (Uuid × Answer))
    (n : Nat) (told : List (Uuid × Answer)) (results : List (Except Error CreatedDir)) (server : Server Hash) : Prop where
  length : results.length = first + n
  given : given <+: results
  told_first : told <+: done
  uuids : told.map Prod.fst = ((slots.take n).filterMap Slot.item).map Item.uuid
  truthful : Truthful backend dirs results server
  sane : Sane backend dirs start server (first + chunk.length)
  grown : sent.standing ⊆ server.standing
  roots : server.roots = sent.roots
  /-- What stands since was created by the single call of a directory that was settled. -/
  only : ∀ dir ∈ server.standing, dir ∈ sent.standing ∨
    ∃ m < n, ∃ request parent, slots[m]? = some (.minted request parent) ∧ dir.uuid = request.uuid
  /-- What an item was answered, or stands for it, is its directory's result. -/
  linked : ∀ m < n, ∀ request parent answer, slots[m]? = some (.minted request parent) → (request.uuid, answer) ∈ done →
    (∀ response, answer = .ok response → ∃ result, results[first + m]? = some (.ok result) ∧ result.uuid = response.uuid) ∧
    (answer = .err .internalError → sent.Stands request.uuid →
      ∃ result, results[first + m]? = some (.ok result) ∧ result.uuid = request.uuid)

section Settling

variable {before sent : Server Hash} {given : List (Except Error CreatedDir)} {done told : List (Uuid × Answer)} {n : Nat}
  {dir : NewDir} {request : NewDirRequest Hash}

omit [DecidableEq Hash] in
theorem Sent.minted (h : Sent backend dirs first before sent given chunk slots done) (hdir : chunk[n]? = some dir)
    (hslot : slots[n]? = some (.minted request parent)) :
    Asked backend dirs (first + n) request.uuid request.nameHashed ∧ request.nameHashed = backend.hash dir.name ∧
      sentParent first given (slots.take n) dir.parent = .ok parent :=
  h.slotted.asked hdir (h.listed n dir hdir) hslot

omit [DecidableEq Hash] in
theorem standsFor_of_unsaid (h : parent ∉ told.map Prod.fst) : standsFor told parent = parent := by
  unfold Server.standsFor
  rw [find?_eq_none.mpr]
  intro answered hmem huuid
  exact h (of_decide_eq_true huuid ▸ mem_map_of_mem hmem)

variable {server : Server Hash}

omit [DecidableEq Hash] in
theorem Settled.uuid_of_told (h : Settled backend dirs start first sent given chunk slots done n told results server)
    (hmem : uuid ∈ told.map Prod.fst) : ∃ m < n, ∃ request parent, slots[m]? = some (.minted request parent) ∧ request.uuid = uuid := by
  rw [h.uuids] at hmem
  obtain ⟨item, hitem, rfl⟩ := mem_map.mp hmem
  obtain ⟨slot, hslot, hminted⟩ := mem_filterMap.mp hitem
  obtain ⟨m, hm⟩ := mem_iff_getElem?.mp hslot
  match slot with
  | .failed _ => exact nomatch hminted
  | .minted request parent =>
    cases hminted
    have hlt : m < n := by
      have hlength := (List.getElem?_eq_some_iff.mp hm).1
      rw [length_take] at hlength
      exact lt_of_lt_of_le hlength (min_le_left _ _)
    rw [getElem?_take_of_lt hlt] at hm
    exact ⟨m, hlt, request, parent, hm, rfl⟩

omit [DecidableEq Hash] in
theorem Settled.parentOf_ran (hsent : Sent backend dirs first before sent given chunk slots done)
    (h : Settled backend dirs start first sent given chunk slots done n told results server)
    (hdir : chunk[n]? = some dir) (hslot : slots[n]? = some (.minted request parent))
    (hexists : sent.Exists (standsFor told parent)) : parentOf results dir = some (standsFor told parent) := by
  obtain ⟨-, -, hparent⟩ := hsent.minted hdir hslot
  cases hwhere : dir.parent with
  | existing uuid =>
    rw [hwhere] at hparent
    cases Except.ok.inj hparent
    have hunsaid : parent ∉ told.map Prod.fst := by
      intro hmem
      obtain ⟨m, -, other, above, hother, rfl⟩ := h.uuid_of_told hmem
      exact hsent.unsaid m other above hother dir (mem_of_getElem? (hsent.listed n dir hdir)) hwhere
    rw [standsFor_of_unsaid hunsaid]
    unfold parentOf
    rw [hwhere]
  | earlier index =>
    rw [hwhere] at hparent
    unfold sentParent at hparent
    dsimp only at hparent
    by_cases hlt : index < first
    · rw [if_pos hlt] at hparent
      split at hparent
      · rename_i uuid huuid
        cases hparent
        split at huuid
        · rename_i result hresult
          cases huuid
          have hearlier : index < dirs.length :=
            lt_trans (lt_of_lt_of_le hlt (Nat.le_add_right first n)) (List.getElem?_eq_some_iff.mp (hsent.listed n dir hdir)).1
          obtain ⟨above, -, hholds⟩ := hsent.truthful index dirs[index] result (getElem?_eq_getElem hearlier) hresult
          have hunsaid : result.uuid ∉ told.map Prod.fst := by
            intro hmem
            obtain ⟨m, -, other, above', hother, hsame⟩ := h.uuid_of_told hmem
            exact hsent.unknown m other above' hother (hsame ▸ hholds.exists)
          rw [standsFor_of_unsaid hunsaid]
          obtain ⟨more, hmore⟩ := h.given
          unfold parentOf
          rw [hwhere]
          dsimp only
          rw [← hmore, List.getElem?_append_left (List.getElem?_eq_some_iff.mp hresult).1, hresult]
        · exact nomatch huuid
      · exact nomatch hparent
    rw [if_neg hlt] at hparent
    split at hparent
    · rename_i uuid huuid
      cases hparent
      split at huuid
      · rename_i other above hother
        cases huuid
        have hm : index - first < n := by
          have hlength := (List.getElem?_eq_some_iff.mp hother).1
          rw [length_take] at hlength
          exact lt_of_lt_of_le hlength (min_le_left _ _)
        rw [getElem?_take_of_lt hm] at hother
        have hindex : first + (index - first) = index := Nat.add_sub_of_le (Nat.le_of_not_lt hlt)
        -- the parent was answered something
        have hmem : other.uuid ∈ told.map Prod.fst := by
          rw [h.uuids]
          refine mem_map.mpr ⟨other.inParent above, mem_filterMap.mpr ⟨.minted other above, ?_, rfl⟩, rfl⟩
          refine mem_of_getElem? (i := index - first) ?_
          rw [getElem?_take_of_lt hm]
          exact hother
        have hnamed : ∀ result : CreatedDir, results[first + (index - first)]? = some (.ok result) →
            parentOf results dir = some result.uuid := by
          intro result hresult
          rw [hindex] at hresult
          unfold parentOf
          rw [hwhere]
          dsimp only
          rw [hresult]
        unfold Server.standsFor at hexists ⊢
        cases hfound : told.find? fun answered => answered.1 = other.uuid with
        | none =>
          obtain ⟨answered, hanswered, huuid⟩ := mem_map.mp hmem
          exact absurd (decide_eq_true huuid) (find?_eq_none.mp hfound answered hanswered)
        | some answered =>
          obtain ⟨uuid, answer⟩ := answered
          have hkey := find?_some hfound
          have huuid : uuid = other.uuid := of_decide_eq_true hkey
          subst huuid
          have hdone := h.told_first.subset (mem_of_find?_eq_some hfound)
          obtain ⟨hok, hopen⟩ := h.linked (index - first) hm other above answer hother hdone
          rw [hfound] at hexists
          match answer with
          | .ok response =>
            obtain ⟨result, hresult, hsame⟩ := hok response rfl
            rw [hnamed result hresult, hsame]
          | .err code =>
            have hstands : sent.Stands other.uuid :=
              (exists_iff.mp hexists).resolve_left (hsent.rootless _ other above hother)
            obtain ⟨standing, hstanding, hstandingUuid⟩ := hstands
            obtain ⟨position, hposition⟩ := mem_iff_getElem?.mp hdone
            have hitem : ((slots.filterMap Slot.item).map Item.uuid)[position]? = some other.uuid := by
              rw [← hsent.told.uuids, getElem?_map, hposition]
              rfl
            rw [getElem?_map] at hitem
            obtain ⟨item, hitem, hitemUuid⟩ := Option.map_eq_some_iff.mp hitem
            obtain ⟨-, -, hopened | ⟨response, hanswer, -⟩⟩ := hsent.told.stands position item (.err code) standing hitem
              (hitemUuid ▸ hposition) hstanding (hstandingUuid.trans hitemUuid.symm)
            · obtain ⟨result, hresult, hsame⟩ := hopen hopened ⟨standing, hstanding, hstandingUuid⟩
              rw [hnamed result hresult, hsame]
            · exact nomatch hanswer
      · exact nomatch huuid
    · exact nomatch hparent

omit [DecidableEq Hash] in
theorem Settled.push {server after : Server Hash} {slot : Slot Hash} {more : List (Uuid × Answer)} {result : Except Error CreatedDir}
    {added : List (Item Hash)} (hsent : Sent backend dirs first before sent given chunk slots done)
    (h : Settled backend dirs start first sent given chunk slots done n told results server)
    (hdir : chunk[n]? = some dir) (hslot : slots[n]? = some slot) (hfront : told ++ more <+: done)
    (hmore : more.map Prod.fst = slot.item.toList.map Item.uuid) (hsane : Sane backend dirs start after (first + chunk.length))
    (hgrown : Grown server after added)
    (hadded : ∀ other ∈ added, ∃ request parent, slot = .minted request parent ∧ other.uuid = request.uuid)
    (hresult : ∀ created, result = .ok created →
      ∃ parent, parentOf results dir = some parent ∧ after.Holds created.uuid parent (backend.hash dir.name))
    (hlink : ∀ request parent answer, slot = .minted request parent → (request.uuid, answer) ∈ done →
      (∀ response, answer = .ok response → ∃ created, result = .ok created ∧ created.uuid = response.uuid) ∧
      (answer = .err .internalError → sent.Stands request.uuid → ∃ created, result = .ok created ∧ created.uuid = request.uuid)) :
    Settled backend dirs start first sent given chunk slots done (n + 1) (told ++ more) (results ++ [result]) after := by
  have hstanding : server.standing ⊆ after.standing := fun other hother => hgrown.mem_standing.mpr (Or.inr hother)
  have htake : slots.take (n + 1) = slots.take n ++ [slot] := by
    rw [take_add_one, hslot]
    rfl
  refine ⟨?_, h.given.trans (prefix_append _ _), hfront, ?_, ?_, hsane, fun other hother => hstanding (h.grown hother),
    hgrown.roots.trans h.roots, fun other hother => ?_, fun m hm request parent answer hminted hdone => ?_⟩
  · rw [length_append, h.length]
    rfl
  · rw [htake, filterMap_append, map_append, map_append, h.uuids, hmore]
    cases slot <;> rfl
  · refine h.truthful.append hstanding ?_ hresult
    rw [h.length]
    exact hsent.listed n dir hdir
  · rcases hgrown.mem_standing.mp hother with hnew | hold
    · obtain ⟨request, parent, rfl, huuid⟩ := hadded other hnew
      exact Or.inr ⟨n, Nat.lt_succ_self n, request, parent, hslot, huuid⟩
    rcases h.only other hold with hsentBefore | ⟨m, hm, request, parent, hminted, huuid⟩
    · exact Or.inl hsentBefore
    · exact Or.inr ⟨m, Nat.lt_succ_of_lt hm, request, parent, hminted, huuid⟩
  rcases Nat.lt_succ_iff_lt_or_eq.mp hm with hlt | rfl
  · have hat : (results ++ [result])[first + m]? = results[first + m]? := by
      refine getElem?_append_left ?_
      rw [h.length]
      exact Nat.add_lt_add_left hlt first
    rw [hat]
    exact h.linked m hlt request parent answer hminted hdone
  have hat : (results ++ [result])[first + m]? = some result := by
    rw [← h.length, getElem?_concat_length]
  rw [hat]
  obtain ⟨hok, hopen⟩ := hlink request parent answer (Option.some.inj (hslot.symm.trans hminted)) hdone
  refine ⟨fun response hanswer => ?_, fun hanswer hstands => ?_⟩
  · obtain ⟨created, hcreated, hsame⟩ := hok response hanswer
    exact ⟨created, congrArg some hcreated, hsame⟩
  obtain ⟨created, hcreated, hsame⟩ := hopen hanswer hstands
  exact ⟨created, congrArg some hcreated, hsame⟩

variable {remaining : List (Uuid × Answer)}

omit [DecidableEq Hash] in
theorem Settled.position (hsent : Sent backend dirs first before sent given chunk slots done)
    (h : Settled backend dirs start first sent given chunk slots done n told results server)
    (hslot : slots[n]? = some (.minted request parent)) (hdone : done = told ++ remaining) :
    ∃ answer rest, remaining = (request.uuid, answer) :: rest ∧
      (slots.filterMap Slot.item)[told.length]? = some (request.inParent parent) ∧
      done[told.length]? = some (request.uuid, answer) ∧ done.take told.length = told := by
  have hlength : told.length = ((slots.take n).filterMap Slot.item).length := by
    have hlengths := congrArg List.length h.uuids
    rwa [length_map, length_map] at hlengths
  have hitem : (slots.filterMap Slot.item)[told.length]? = some (request.inParent parent) := by
    obtain ⟨hlt, hat⟩ := List.getElem?_eq_some_iff.mp hslot
    have hsplit : slots = slots.take n ++ .minted request parent :: slots.drop (n + 1) := by
      rw [← hat, getElem_cons_drop, take_append_drop]
    have hitems : slots.filterMap Slot.item =
        (slots.take n).filterMap Slot.item ++ request.inParent parent :: (slots.drop (n + 1)).filterMap Slot.item := by
      conv_lhs => rw [hsplit]
      rw [filterMap_append, filterMap_cons]
      rfl
    rw [hitems, getElem?_append_right (le_of_eq hlength.symm), hlength, Nat.sub_self]
    rfl
  have hmapped : (done.map Prod.fst)[told.length]? = some request.uuid := by
    rw [hsent.told.uuids, getElem?_map, hitem]
    rfl
  rw [getElem?_map] at hmapped
  obtain ⟨⟨uuid, answer⟩, hat, huuid⟩ := Option.map_eq_some_iff.mp hmapped
  have huuid : uuid = request.uuid := huuid
  subst huuid
  have hfirst := hat
  rw [hdone, getElem?_append_right le_rfl, Nat.sub_self] at hfirst
  match remaining with
  | [] => exact nomatch hfirst
  | answered :: rest =>
    have hanswered : answered = (request.uuid, answer) := Option.some.inj hfirst
    refine ⟨answer, rest, by rw [hanswered], hitem, hat, ?_⟩
    rw [hdone, take_left]

omit [DecidableEq Hash] in
theorem next_cases (request : NewDirRequest Hash) (answer : Answer) (rest : List Answer) (createdAfter : Bool) :
    (∃ response, answer = .ok response ∧
      (Answers.answered (answer :: rest)).next request createdAfter = (some (.ok (created request response)), .answered rest)) ∨
    (∃ error code, answer = .err code ∧ code ≠ .internalError ∧
      (Answers.answered (answer :: rest)).next request createdAfter = (some (.error error), .answered rest)) ∨
    (∃ code, answer = .err code ∧ (Answers.answered (answer :: rest)).next request createdAfter = (none, .answered rest)) := by
  match answer with
  | .ok response => exact Or.inl ⟨response, rfl, rfl⟩
  | .err .internalError => exact Or.inr (Or.inr ⟨_, rfl, rfl⟩)
  | .err .cannotCreateInThisFolder =>
    right
    cases createdAfter with
    | false => exact Or.inl ⟨.server .cannotCreateInThisFolder, _, rfl, nofun, rfl⟩
    | true => exact Or.inr ⟨_, rfl, rfl⟩
  | .err (.other text) => exact Or.inr (Or.inl ⟨.server (.other text), _, rfl, nofun, rfl⟩)

theorem settle_answered {rest : List (NewDir × Slot Hash)} {createdHere : List Bool}
    (hsent : Sent backend dirs first before sent given chunk slots done) (hfresh : Fresh backend dirs start)
    (h : Settled backend dirs start first sent given chunk slots done n told results server) (hn : n ≤ chunk.length)
    (hrest : rest = (chunk.zip slots).drop n) (hdone : done = told ++ remaining) :
    ∃ told, Settled backend dirs start first sent given chunk slots done chunk.length told
      (settle backend first rest (.answered (remaining.map Prod.snd)) createdHere results server).1
      (settle backend first rest (.answered (remaining.map Prod.snd)) createdHere results server).2 := by
  induction rest generalizing n told results server remaining createdHere with
  | nil =>
    have hlength := congrArg List.length hrest
    rw [length_drop, length_zip, hsent.slotted.length, Nat.min_self] at hlength
    have hend : n = chunk.length := le_antisymm hn (Nat.sub_eq_zero_iff_le.mp hlength.symm)
    subst hend
    exact ⟨told, h⟩
  | cons entry rest ih =>
    obtain ⟨dir, slot⟩ := entry
    have hat : (chunk.zip slots)[n]? = some (dir, slot) := by
      have hhead := congrArg (fun l => l[0]?) hrest
      rw [getElem?_drop, Nat.add_zero] at hhead
      exact hhead.symm
    have hrest' : rest = (chunk.zip slots).drop (n + 1) := by
      rw [← drop_drop, ← hrest]
      rfl
    obtain ⟨hdir, hslot⟩ := getElem?_zip_eq_some.mp hat
    have hn' : n + 1 ≤ chunk.length := (List.getElem?_eq_some_iff.mp hdir).1
    match slot with
    | .failed error =>
      have hpushed := @Settled.push _ backend dirs start first results chunk slots before sent given done told n dir server server
        (.failed error) [] (.error error) [] hsent h hdir hslot (by rw [append_nil]; exact h.told_first) rfl h.sane (.refl server)
        (fun _ hmem => nomatch hmem) (fun _ hresult => nomatch hresult) fun _ _ _ hminted => nomatch hminted
      exact ih hpushed hn' hrest' (by rw [append_nil]; exact hdone)
    | .minted request parent =>
      obtain ⟨hasked, hname, -⟩ := hsent.minted hdir hslot
      obtain ⟨answer, others, rfl, hitem, hanswer, htake⟩ := h.position hsent hslot hdone
      have honly : ∀ other, (request.uuid, other) ∈ done → other = answer := by
        intro other hmem
        have hsame := inj_on_of_nodup_map hsent.nodup hmem (mem_of_getElem? hanswer) rfl
        exact (Prod.mk.inj hsame).2
      have hassoc : done = (told ++ [(request.uuid, answer)]) ++ others := by
        rw [hdone, append_assoc, singleton_append]
      have hfront : told ++ [(request.uuid, answer)] <+: done := ⟨others, hassoc.symm⟩
      have hlt : first + n < first + chunk.length := Nat.add_lt_add_left hn' first
      -- what is pushed, whatever the answer came to
      have hpush := fun after result added => @Settled.push _ backend dirs start first results chunk slots before sent given done told n dir
        server after (.minted request parent) [(request.uuid, answer)] result added hsent h hdir hslot hfront rfl
      have hran : ∀ {other : Item Hash}, other ∈ sent.standing → other.uuid = request.uuid →
          parentOf results dir = some other.parent ∧ sent.Exists other.parent := by
        intro other hother huuid
        obtain ⟨hparent, hexists, -⟩ := hsent.told.stands told.length (request.inParent parent) answer other hitem hanswer hother huuid
        rw [htake] at hparent hexists
        rw [hparent]
        exact ⟨h.parentOf_ran hsent hdir hslot hexists, hexists⟩
      have hwhere : ∀ above, parentOf results dir = some above → ∀ other ∈ server.standing, other.uuid = request.uuid → other.parent = above := by
        intro above habove other hother huuid
        rcases h.only other hother with hstood | ⟨m, hm, request', parent', hslot', huuid'⟩
        · exact Option.some.inj ((hran hstood huuid).1.symm.trans habove)
        have hdir' : ∃ dir', chunk[m]? = some dir' := ⟨_, getElem?_eq_getElem (lt_trans hm hn')⟩
        obtain ⟨dir', hdir'⟩ := hdir'
        have hasked' := (hsent.minted hdir' hslot').1
        have hsame := hfresh.injective _ _ _ (huuid ▸ huuid' ▸ hasked'.1) hasked.1
        exact absurd (Nat.add_left_cancel hsame) (ne_of_lt hm)
      have hstanding : sent.standing ⊆ server.standing := h.grown
      rw [map_cons]
      unfold settle
      rcases next_cases request answer (others.map Prod.snd) (parentCreatedAfter dir first createdHere) with
        ⟨response, rfl, hnext⟩ | ⟨error, code, rfl, hcode, hnext⟩ | ⟨code, rfl, hnext⟩
      · rw [hnext]
        obtain ⟨hexists, hholds⟩ := hsent.told.ok told.length (request.inParent parent) response hitem hanswer
        rw [htake] at hexists hholds
        refine ih (hpush server (.ok (created request response)) [] h.sane (.refl server) (fun _ hmem => nomatch hmem)
          (fun result hresult => ?_) fun other _ answer hminted hmem => ?_) hn' hrest' hassoc
        · cases hresult
          exact ⟨_, h.parentOf_ran hsent hdir hslot hexists, hname ▸ hstanding hholds⟩
        cases hminted
        rw [honly answer hmem]
        refine ⟨fun other hother => ?_, nofun⟩
        cases hother
        exact ⟨_, rfl, rfl⟩
      · rw [hnext]
        refine ih (hpush server (.error error) [] h.sane (.refl server) (fun _ hmem => nomatch hmem)
          (fun _ hresult => nomatch hresult) fun other _ answer hminted hmem => ?_) hn' hrest' hassoc
        cases hminted
        rw [honly answer hmem]
        exact ⟨(fun _ hother => nomatch hother), fun hopen => absurd (Answer.err.inj hopen) hcode⟩
      rw [hnext]
      obtain ⟨hsane, ⟨added, hgrown, hadded⟩, hok, hrepeated⟩ :=
        createOne_spec (first + createdHere.length) h.sane hfresh hasked hlt hwhere
      refine ih (hpush _ _ added hsane hgrown (fun other hother => ⟨request, parent, rfl, hadded other hother⟩)
        (fun result hresult => ?_) fun other _ answer hminted hmem => ?_) hn' hrest' hassoc
      · obtain ⟨above, habove, hholds⟩ := hok result hresult
        exact ⟨above, habove, hname ▸ hholds⟩
      cases hminted
      rw [honly answer hmem]
      refine ⟨(fun _ hother => nomatch hother), fun _ hstands => ?_⟩
      obtain ⟨other, hother, huuid⟩ := hstands
      obtain ⟨hparent, hexists⟩ := hran hother huuid
      refine hrepeated other.parent hparent ?_ ⟨other, hstanding hother, huuid⟩
      exact (exists_iff.mp hexists).elim (fun hroot => Or.inl (h.roots ▸ hroot))
        fun ⟨above, habove, hsame⟩ => exists_iff.mpr (Or.inr ⟨above, hstanding habove, hsame⟩)

end Settling

end SyncEngine.Bulk
