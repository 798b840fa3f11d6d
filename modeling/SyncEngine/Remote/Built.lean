import SyncEngine.Remote.Outcome

/-! # What the builder builds

However a snapshot's items come in, the builder's nodes, held paths and twins are what the
items that have a path leave there, and its records are those of the others.
-/

namespace SyncEngine.Remote

open Collections ViewBuilder Skipped Function SortedSet List

/-- Arrivals of distinct items, each at its own path and with a spelling just where that is
not its name. -/
structure Fair (arrivals : List Placing) : Prop where
  uuids : (arrivals.map (·.item.remoteUuid)).Nodup
  places : ∀ a ∈ arrivals, a.item.relPath = a.place
  marks : ∀ a ∈ arrivals, ∀ s, a.mark = some s → s ≠ leaf a.place

theorem fair_nil : Fair [] where
  uuids := nodup_nil
  places _ h := nomatch h
  marks _ h := nomatch h

theorem Fair.of_append {arrivals later : List Placing} (h : Fair (arrivals ++ later)) : Fair arrivals where
  uuids := by
    have huuids := h.uuids
    rw [map_append] at huuids
    exact huuids.of_append_left
  places a ha := h.places a (mem_append_left _ ha)
  marks a ha := h.marks a (mem_append_left _ ha)

theorem Fair.perm {arrivals arrivals' : List Placing} (h : Fair arrivals)
    (hperm : arrivals.Perm arrivals') : Fair arrivals' where
  uuids := (hperm.map _).nodup_iff.mp h.uuids
  places a ha := h.places a (hperm.mem_iff.mpr ha)
  marks a ha := h.marks a (hperm.mem_iff.mpr ha)

def left (arrivals : List Placing) : Slots Path (Option Name) RemoteNode :=
  arrivals.foldl Slots.arrive Slots.empty

theorem settled_left (arrivals : List Placing) : Slots.Settled arrivals (left arrivals) :=
  Slots.settled_foldl arrivals

theorem left_append (arrivals : List Placing) (a : Placing) :
    left (arrivals ++ [a]) = (left arrivals).arrive a := by
  unfold left
  rw [foldl_append]
  rfl

theorem spelled_otherwise {first : Option Name} {name spelled : Name} (hfirst : ∀ s, first = some s → s ≠ name) :
    first.getD name ≠ spelled ↔ first ≠ if spelled ≠ name then some spelled else none := by
  cases first with
  | none =>
    by_cases h : spelled = name
    · simp [h]
    · simp [h, Ne.symm h]
  | some s =>
    have hs := hfirst s rfl
    by_cases h : spelled = name
    · simp [h, hs]
    · simp [h]

/-! ## The builder's paths -/

/-- A builder that holds what so many arrivals leave. -/
structure Built (arrivals : List Placing) (builder : ViewBuilder) : Prop where
  nodes : ∀ p, rowAt RemoteNode.relPath builder.nodes p = ((left arrivals).sole p).map (·.2)
  distinct : (builder.nodes.map RemoteNode.relPath).Nodup
  held : ∀ p, p ∈ builder.heldPaths ↔ ((left arrivals).held p).isSome = true
  first : ∀ p first, (left arrivals).held p = some first → (builder.heldSpellings p).join = first
  spelled : ∀ p mark node, (left arrivals).sole p = some (mark, node) →
    builder.spellings node.remoteUuid = mark
  twins : ∀ p, p ∈ builder.twins ↔ (left arrivals).mixed p
  /-- Only items that arrived have a spelling. -/
  fresh : ∀ u s, builder.spellings u = some s → u ∈ arrivals.map (·.item.remoteUuid)

theorem built_nil {builder : ViewBuilder} (hnodes : builder.nodes = [])
    (hheld : builder.heldPaths = empty) (hspellings : builder.spellings = fun _ => none)
    (htwins : builder.twins = empty) : Built [] builder := by
  constructor
  · intro p
    rw [hnodes]
    rfl
  · rw [hnodes]
    exact nodup_nil
  · intro p
    rw [hheld]
    exact ⟨fun h => absurd h (not_mem_empty p), fun h => by cases h⟩
  · intro p first h
    cases h
  · intro p mark node h
    cases h
  · intro p
    rw [htwins]
    exact ⟨fun h => absurd h (not_mem_empty p), False.elim⟩
  intro u s h
  rw [hspellings] at h
  cases h

theorem Built.congr {arrivals : List Placing} {builder builder' : ViewBuilder} (h : Built arrivals builder)
    (hnodes : builder'.nodes = builder.nodes) (hheld : builder'.heldPaths = builder.heldPaths)
    (hspellings : builder'.spellings = builder.spellings)
    (hfirst : builder'.heldSpellings = builder.heldSpellings) (htwins : builder'.twins = builder.twins) :
    Built arrivals builder' := by
  constructor
  · rw [hnodes]
    exact h.nodes
  · rw [hnodes]
    exact h.distinct
  · rw [hheld]
    exact h.held
  · rw [hfirst]
    exact h.first
  · rw [hspellings]
    exact h.spelled
  · rw [htwins]
    exact h.twins
  rw [hspellings]
  exact h.fresh

section Insert

variable {scope : Scope} {arrivals : List Placing} {builder : ViewBuilder} {relPath : Path} {isDir : Bool}
  {item : RemoteItem} {stableUuid : Option StableUuid} {name : Name} {a : Placing}

theorem mem_noteSpelling {name spelled : Name} {path p : Path} :
    p ∈ (builder.noteSpelling path name spelled).twins ↔
      p ∈ builder.twins ∨ p = path ∧ ((builder.heldSpellings path).join).getD name ≠ spelled := by
  unfold ViewBuilder.noteSpelling
  dsimp only
  split
  · rename_i hne
    rw [mem_insert, or_comm]
    exact or_congr_right (and_iff_left hne).symm
  rename_i heq
  exact (or_iff_left fun h => heq h.2).symm

theorem ViewBuilder.noteSpelling_eq (builder : ViewBuilder) (relPath : Path) (name spelling : Name) :
    builder.noteSpelling relPath name spelling =
      { builder with twins := (builder.noteSpelling relPath name spelling).twins } := by
  unfold ViewBuilder.noteSpelling
  dsimp only
  split
  · rfl
  · rfl

theorem Built.insert (h : Built arrivals builder) (hfair : Fair (arrivals ++ [a]))
    (hplace : a.place = relPath) (hitem : a.item = nodeAt relPath isDir item stableUuid)
    (hmark : a.mark = if item.name ≠ name then some item.name else none) (hname : leaf relPath = name)
    (hreserved : scope.isReservedPath relPath = false) :
    Built (arrivals ++ [a]) (builder.insert scope relPath isDir item stableUuid name) := by
  have hsettled := settled_left arrivals
  have huuid : a.item.remoteUuid = item.uuid := by
    rw [hitem]
    rfl
  have hnew : item.uuid ∉ arrivals.map (·.item.remoteUuid) := by
    have huuids := hfair.uuids
    rw [map_append, map_singleton, huuid] at huuids
    exact fun hmem => (disjoint_of_nodup_append huuids) hmem (mem_singleton_self _)
  have hkept : ∀ u, u ∈ arrivals.map (·.item.remoteUuid) →
      u ∈ (arrivals ++ [a]).map (·.item.remoteUuid) := by
    intro u hu
    rw [map_append]
    exact mem_append_left _ hu
  have hfirstname : ∀ first, (left arrivals).held relPath = some first → ∀ s, first = some s → s ≠ name := by
    rintro first hfirst s rfl
    obtain ⟨b, hb, hbplace, hbmark⟩ := hsettled.exists_of_held hfirst
    rw [← hname, ← hbplace]
    exact hfair.marks b (mem_append_left _ hb) s hbmark
  unfold ViewBuilder.insert
  rw [hreserved, if_neg Bool.false_ne_true]
  by_cases hheld : relPath ∈ builder.heldPaths
  · -- a held path stays held; the arrival's spelling is compared with the first one's
    rw [if_pos hheld]
    obtain ⟨first, hfirst⟩ := Option.isSome_iff_exists.mp ((h.held relPath).mp hheld)
    have harrive : left (arrivals ++ [a]) = (left arrivals).note relPath first a.mark := by
      rw [left_append]
      unfold Slots.arrive
      rw [hplace, hfirst]
    rw [noteSpelling_eq]
    constructor
    · rw [harrive]
      exact h.nodes
    · exact h.distinct
    · rw [harrive]
      exact h.held
    · rw [harrive]
      exact h.first
    · rw [harrive]
      exact h.spelled
    · intro p
      rw [harrive]
      refine mem_noteSpelling.trans (or_congr (h.twins p) (and_congr_right fun _ => ?_))
      rw [h.first relPath first hfirst, hmark]
      exact spelled_otherwise (hfirstname first hfirst)
    · exact fun u s hu => hkept u (h.fresh u s hu)
  rw [if_neg hheld]
  have hnone : (left arrivals).held relPath = none :=
    Option.not_isSome_iff_eq_none.mp fun hsome => hheld ((h.held relPath).mpr hsome)
  cases hsole : (left arrivals).sole relPath with
  | none =>
    -- nothing is there yet
    have hvacant : rowAt RemoteNode.relPath builder.nodes relPath = none := by
      rw [h.nodes, hsole]
      rfl
    have harrive : left (arrivals ++ [a]) =
        { left arrivals with
          sole := update (left arrivals).sole relPath (some (a.mark, a.item)) } := by
      rw [left_append]
      unfold Slots.arrive
      rw [hplace, hnone, hsole]
    rw [hvacant]
    have hspellings : ∀ u, u ≠ item.uuid →
        (if item.name ≠ name then update builder.spellings item.uuid (some item.name)
          else builder.spellings) u = builder.spellings u := by
      intro u hu
      split
      · exact update_of_ne hu _ _
      · rfl
    have hspelled : (if item.name ≠ name then
        update builder.spellings item.uuid (some item.name)
          else builder.spellings) item.uuid = a.mark := by
      rw [hmark]
      split
      · exact update_self ..
      cases hat : builder.spellings item.uuid with
      | none => rfl
      | some s => exact absurd (h.fresh _ s hat) hnew
    constructor
    · intro p
      rw [harrive, rowAt_append hvacant, h.nodes, ← hitem]
      dsimp only
      have hrel : a.item.relPath = relPath := by
        rw [hitem]
        rfl
      rw [hrel]
      by_cases hp : relPath = p
      · rw [if_pos hp, ← hp, update_self]
        rfl
      · rw [if_neg hp, update_of_ne (Ne.symm hp)]
    · exact nodup_map_append h.distinct hvacant
    · rw [harrive]
      exact h.held
    · rw [harrive]
      exact h.first
    · intro p mark node hp
      rw [harrive] at hp
      dsimp only at hp ⊢
      by_cases hat : p = relPath
      · rw [hat, update_self] at hp
        cases hp
        rw [huuid]
        exact hspelled
      rw [update_of_ne hat] at hp
      obtain ⟨b, hb, -, -, hbnode⟩ := hsettled.exists_of_sole hp
      have hne : node.remoteUuid ≠ item.uuid := by
        rintro heq
        refine hnew (mem_map.mpr ⟨b, hb, ?_⟩)
        rw [hbnode]
        exact heq
      rw [hspellings _ hne]
      exact h.spelled p mark node hp
    · rw [harrive]
      exact h.twins
    intro u s hu
    by_cases hat : u = item.uuid
    · rw [hat, ← huuid, map_append]
      exact mem_append_right _ (mem_singleton_self _)
    dsimp only at hu
    rw [hspellings u hat] at hu
    exact hkept u (h.fresh u s hu)
  | some occupant =>
    -- a second item takes the first one away, and the path is held
    obtain ⟨first, node⟩ := occupant
    have htaken : rowAt RemoteNode.relPath builder.nodes relPath = some node := by
      rw [h.nodes, hsole]
      rfl
    have hspelled := h.spelled relPath first node hsole
    obtain ⟨b, hb, hbplace, hbmark, hbnode⟩ := hsettled.exists_of_sole hsole
    have harrive : left (arrivals ++ [a]) = Slots.note
        { left arrivals with
          sole := update (left arrivals).sole relPath none
          held := update (left arrivals).held relPath (some first) }
        relPath first a.mark := by
      rw [left_append]
      unfold Slots.arrive
      rw [hplace, hnone, hsole]
    rw [htaken]
    dsimp only
    rw [hspelled]
    generalize hmid : ({ builder with
        nodes := builder.nodes.filter fun node => node.relPath ≠ relPath
        heldPaths := builder.heldPaths.insert relPath
        spellings := update builder.spellings node.remoteUuid none
        heldSpellings :=
          update builder.heldSpellings relPath (some first) } : ViewBuilder) = mid
    rw [noteSpelling_eq]
    constructor
    · intro p
      rw [harrive, ← hmid]
      unfold Slots.note
      dsimp only
      rw [rowAt_filter_ne, h.nodes]
      by_cases hp : relPath = p
      · rw [if_pos hp, ← hp, update_self]
        rfl
      · rw [if_neg hp, update_of_ne (Ne.symm hp)]
    · rw [← hmid]
      exact h.distinct.sublist (filter_sublist.map _)
    · intro p
      rw [harrive, ← hmid]
      unfold Slots.note
      dsimp only
      rw [mem_insert, h.held]
      by_cases hp : p = relPath
      · rw [hp, update_self]
        simp
      rw [update_of_ne hp]
      exact or_iff_right hp
    · intro p first' hp
      rw [harrive] at hp
      rw [← hmid]
      unfold Slots.note at hp
      dsimp only at hp ⊢
      by_cases hat : p = relPath
      · rw [hat, update_self] at hp
        rw [hat, update_self]
        cases hp
        rfl
      rw [update_of_ne hat] at hp
      rw [update_of_ne hat]
      exact h.first p first' hp
    · intro p mark other hp
      rw [harrive] at hp
      rw [← hmid]
      unfold Slots.note at hp
      dsimp only at hp ⊢
      by_cases hat : p = relPath
      · rw [hat, update_self] at hp
        cases hp
      rw [update_of_ne hat] at hp
      obtain ⟨c, hc, hcplace, -, hcnode⟩ := hsettled.exists_of_sole hp
      have hne : other.remoteUuid ≠ node.remoteUuid := by
        intro heq
        rw [← hbnode, ← hcnode] at heq
        have hbc := inj_on_of_nodup_map hfair.of_append.uuids hc hb heq
        rw [hbc] at hcplace
        exact hat (hcplace.symm.trans hbplace)
      rw [update_of_ne hne]
      exact h.spelled p mark other hp
    · intro p
      rw [harrive]
      have hfirst : (mid.heldSpellings relPath).join = first := by
        rw [← hmid]
        dsimp only
        rw [update_self]
        rfl
      have hmidtwins : mid.twins = builder.twins := by
        rw [← hmid]
      refine mem_noteSpelling.trans (or_congr ?_ (and_congr_right fun _ => ?_))
      · rw [hmidtwins]
        exact h.twins p
      rw [hfirst, hmark]
      refine spelled_otherwise fun s hs => ?_
      rw [← hname, ← hbplace]
      exact hfair.marks b (mem_append_left _ hb) s (hbmark.trans hs)
    intro u s hu
    rw [← hmid] at hu
    dsimp only at hu
    by_cases hat : u = node.remoteUuid
    · rw [hat, update_self] at hu
      cases hu
    rw [update_of_ne hat] at hu
    exact hkept u (h.fresh u s hu)

theorem insert_frame (builder : ViewBuilder) :
    (builder.insert scope relPath isDir item stableUuid name).dirIndex = builder.dirIndex ∧
      (builder.insert scope relPath isDir item stableUuid name).undecodableDirs =
        builder.undecodableDirs ∧
      (builder.insert scope relPath isDir item stableUuid name).skipped = builder.skipped ∧
      (builder.insert scope relPath isDir item stableUuid name).deferred = builder.deferred := by
  have hnote : ∀ (other : ViewBuilder), (other.noteSpelling relPath name item.name).dirIndex =
      other.dirIndex ∧ (other.noteSpelling relPath name item.name).undecodableDirs =
      other.undecodableDirs ∧ (other.noteSpelling relPath name item.name).skipped = other.skipped ∧
      (other.noteSpelling relPath name item.name).deferred = other.deferred := by
    intro other
    unfold ViewBuilder.noteSpelling
    dsimp only
    split
    all_goals exact ⟨rfl, rfl, rfl, rfl⟩
  unfold ViewBuilder.insert
  split
  · exact ⟨rfl, rfl, rfl, rfl⟩
  split
  · exact hnote builder
  split
  · exact hnote _
  · exact ⟨rfl, rfl, rfl, rfl⟩

end Insert

/-! ## Items one after another -/

/-- What is skipped with one more item's record, or with the directory it lies under. -/
def Skipped.add (skipped : Skipped) (records : List SkippedRemote)
    (under : List (Uuid × Option StableUuid × Uuid)) : Skipped :=
  { skipped with recorded := skipped.recorded ++ records, under := skipped.under ++ under }

theorem Skipped.add_add (skipped : Skipped) (records records' : List SkippedRemote)
    (under under' : List (Uuid × Option StableUuid × Uuid)) :
    (skipped.add records under).add records' under' =
      skipped.add (records ++ records') (under ++ under') := by
  unfold Skipped.add
  rw [append_assoc, append_assoc]

theorem Skipped.add_nil (skipped : Skipped) : skipped.add [] [] = skipped := by
  unfold Skipped.add
  rw [append_nil, append_nil]

def indexed (scope : Scope) (dirIndex : DirIndex) (item : Bool × RemoteItem) : DirIndex :=
  if item.1 then
    update dirIndex item.2.uuid (some (scope.nfc item.2.name, item.2.parent))
  else dirIndex

/-- Where a builder stands between two items. -/
structure Stands (undecodableDirs : List Uuid) (dirIndex : DirIndex) (arrivals : List Placing)
    (skipped : Skipped) (deferred : List (Bool × RemoteItem)) (builder : ViewBuilder) : Prop where
  dirIndex : builder.dirIndex = dirIndex
  undecodableDirs : builder.undecodableDirs = undecodableDirs
  built : Built arrivals builder
  skipped : builder.skipped = skipped
  deferred : builder.deferred = deferred

section Place

variable {scope : Scope} {full dirIndex : DirIndex} {undecodableDirs : List Uuid}
  {arrivals : List Placing} {skipped : Skipped} {deferred : List (Bool × RemoteItem)}
  {builder : ViewBuilder} {item : Bool × RemoteItem}

theorem Stands.defer (h : Stands undecodableDirs dirIndex arrivals skipped deferred builder) {unresolved : Unresolved}
    (hres : scope.resolveParent item.2.parent (indexed scope dirIndex item) undecodableDirs =
      .error unresolved) :
    Stands undecodableDirs (indexed scope dirIndex item) arrivals skipped (deferred ++ [item])
      (builder.place scope item.1 item.2 true) := by
  obtain ⟨isDir, item⟩ := item
  unfold indexed at hres ⊢
  unfold ViewBuilder.place
  dsimp only at hres ⊢
  have hbuilt := h.built
  cases isDir with
  | true =>
    rw [if_pos rfl] at hres ⊢
    rw [if_pos rfl]
    dsimp only
    rw [h.undecodableDirs, h.dirIndex, hres]
    exact ⟨rfl, rfl, hbuilt.congr rfl rfl rfl rfl rfl, h.skipped, congrArg (· ++ _) h.deferred⟩
  | false =>
    rw [if_neg Bool.false_ne_true] at hres ⊢
    rw [if_neg Bool.false_ne_true]
    rw [h.undecodableDirs, h.dirIndex, hres]
    exact ⟨rfl, rfl, hbuilt.congr rfl rfl rfl rfl rfl, h.skipped, congrArg (· ++ _) h.deferred⟩

theorem Stands.place (h : Stands undecodableDirs dirIndex arrivals skipped deferred builder)
    (hres : scope.resolveParent item.2.parent (indexed scope dirIndex item) undecodableDirs =
      scope.resolveParent item.2.parent full undecodableDirs) {defer : Bool} (hdefer : defer = false ∨
      ∃ path, scope.resolveParent item.2.parent full undecodableDirs = .ok path)
    (hfair : Fair (arrivals ++ (placingOf scope full undecodableDirs item).toList)) :
    Stands undecodableDirs (indexed scope dirIndex item)
      (arrivals ++ (placingOf scope full undecodableDirs item).toList)
      (skipped.add (recordOf scope full undecodableDirs item).toList
        (underOf scope full undecodableDirs item).toList)
      deferred (builder.place scope item.1 item.2 defer) := by
  obtain ⟨isDir, item⟩ := item
  -- the builder with the item indexed stands where it stood
  obtain ⟨next, hnext⟩ : ∃ next, (if isDir then
      { builder with
        dirIndex :=
          update builder.dirIndex item.uuid (some (scope.nfc item.name, item.parent)) }
      else builder) = next := ⟨_, rfl⟩
  have hstands : Stands undecodableDirs (indexed scope dirIndex (isDir, item)) arrivals skipped
      deferred next := by
    rw [← hnext]
    unfold indexed
    cases isDir with
    | true =>
      rw [if_pos rfl, if_pos rfl, h.dirIndex]
      exact ⟨rfl, h.undecodableDirs, h.built.congr rfl rfl rfl rfl rfl, h.skipped, h.deferred⟩
    | false => exact h
  unfold ViewBuilder.place
  dsimp only
  rw [hnext, hstands.dirIndex, hstands.undecodableDirs, hres]
  unfold placingOf at hfair ⊢
  unfold recordOf underOf skipOf
  cases hat : scope.resolveParent item.parent full undecodableDirs with
  | ok parentPath =>
    rw [hat] at hfair
    dsimp only at hfair ⊢
    cases hname : scope.unplaceableName (scope.nfc item.name) with
    | none =>
      have hplaceable := Scope.unplaceableName_eq_none.mp hname
      have hleaf := leaf_joinPath parentPath (Scope.no_slash_of_isPlaceableName hplaceable)
      dsimp only
      unfold unreserved
      rw [Option.map_none, Option.filter_none, Option.toList_none, Option.toList_none,
        add_nil]
      cases hreserved : scope.isReservedPath (joinPath parentPath (scope.nfc item.name)) with
      | true =>
        rw [if_neg fun hnot => Bool.noConfusion hnot.2, Option.toList_none, append_nil]
        unfold ViewBuilder.insert
        rw [if_pos hreserved]
        exact hstands
      | false =>
        rw [if_pos ⟨hplaceable, hreserved⟩] at hfair
        rw [if_pos ⟨hplaceable, rfl⟩]
        obtain ⟨hindex, hdirs, hskipped, hdeferred⟩ := @insert_frame scope
          (joinPath parentPath (scope.nfc item.name)) isDir item
          (if isDir then none else item.stableUuid) (scope.nfc item.name) next
        refine ⟨hindex.trans hstands.dirIndex, hdirs.trans hstands.undecodableDirs, ?_,
          hskipped.trans hstands.skipped, hdeferred.trans hstands.deferred⟩
        exact hstands.built.insert hfair rfl rfl rfl hleaf hreserved
    | some reason =>
      have hnot : scope.isPlaceableName (scope.nfc item.name) ≠ true := by
        intro hplaceable
        rw [Scope.unplaceableName_eq_none.mpr hplaceable] at hname
        cases hname
      rw [if_neg fun hboth => hnot hboth.1, Option.toList_none, append_nil]
      dsimp only
      rw [record_eq, hstands.skipped, Option.map_some, Option.toList_none]
      refine ⟨rfl, rfl, hstands.built.congr rfl rfl rfl rfl rfl,
        ?_, hstands.deferred⟩
      unfold Skipped.add
      rw [append_nil]
      rfl
  | error unresolved =>
    rw [hat] at hfair
    dsimp only at hfair ⊢
    have hfalse : defer = false := by
      rcases hdefer with hdefer | ⟨path, hpath⟩
      · exact hdefer
      rw [hat] at hpath
      cases hpath
    rw [hfalse, if_neg Bool.false_ne_true, Option.toList_none, append_nil]
    cases unresolved with
    | underSkipped ancestor =>
      refine ⟨rfl, rfl, hstands.built.congr rfl rfl rfl rfl rfl,
        ?_, hstands.deferred⟩
      rw [hstands.skipped]
      unfold Skipped.addUnder Skipped.add unreserved
      rw [Option.filter_none, Option.toList_none, append_nil]
      rfl
    | brokenParent =>
      refine ⟨rfl, rfl, hstands.built.congr rfl rfl rfl rfl rfl,
        ?_, hstands.deferred⟩
      rw [record_eq, hstands.skipped]
      unfold Skipped.add
      rw [Option.toList_none, append_nil]
      rfl

theorem insert_undecodable (scope : Scope) (builder : ViewBuilder) (relPath : Path) (isDir : Bool)
    (item : RemoteItem) (stableUuid : Option StableUuid) (name : Name) :
    (builder.insert scope relPath isDir item stableUuid name).undecodable = builder.undecodable := by
  have hnote : ∀ (other : ViewBuilder),
      (other.noteSpelling relPath name item.name).undecodable = other.undecodable := by
    intro other
    unfold ViewBuilder.noteSpelling
    dsimp only
    split
    · rfl
    · rfl
  unfold ViewBuilder.insert
  split
  · rfl
  split
  · exact hnote builder
  split
  · exact hnote _
  · rfl

theorem place_undecodable (scope : Scope) (builder : ViewBuilder) (isDir : Bool) (item : RemoteItem)
    (defer : Bool) : (builder.place scope isDir item defer).undecodable = builder.undecodable := by
  have hindex : (if isDir then
      { builder with
        dirIndex :=
          update builder.dirIndex item.uuid (some (scope.nfc item.name, item.parent)) }
      else builder).undecodable = builder.undecodable := by
    split
    · rfl
    · rfl
  unfold ViewBuilder.place
  dsimp only
  split
  · split
    · exact (insert_undecodable ..).trans hindex
    · exact hindex
  split
  · exact hindex
  split
  · exact hindex
  · exact hindex

theorem foldl_place_undecodable (scope : Scope) (items : List (Bool × RemoteItem)) (builder : ViewBuilder) :
    (items.foldl (fun builder item => builder.place scope item.1 item.2 true) builder).undecodable =
      builder.undecodable := by
  induction items generalizing builder with
  | nil => rfl
  | cons item items ih => exact (ih _).trans (place_undecodable scope builder item.1 item.2 true)

end Place

/-! ## While items come in -/

theorem filterMap_cons_append {α β : Type} (f : α → Option β) (x : α) (xs : List α) :
    (x :: xs).filterMap f = (f x).toList ++ xs.filterMap f := by
  rw [filterMap_cons]
  cases f x with
  | none => rfl
  | some y => rfl

section Stream

variable {scope : Scope} {items : List (Bool × RemoteItem)} {full : DirIndex}
  {undecodableDirs : List Uuid}

theorem fullIndex_eq_some (hdistinct : (items.map (·.2.uuid)).Nodup) {u : Uuid} {entry : Name × Uuid} :
    fullIndex scope items u = some entry ↔
      ∃ item ∈ items, item.1 ∧ item.2.uuid = u ∧
        entry = (scope.nfc item.2.name, item.2.parent) := by
  unfold fullIndex
  rw [Option.map_eq_some_iff]
  constructor
  · rintro ⟨item, hfind, rfl⟩
    have htest := @find?_some _ (fun item : Bool × RemoteItem =>
      decide (item.1 ∧ item.2.uuid = u)) item items hfind
    obtain ⟨hdir, huuid⟩ := of_decide_eq_true htest
    exact ⟨item, mem_of_find?_eq_some hfind, hdir, huuid, rfl⟩
  rintro ⟨item, hitem, hdir, huuid, rfl⟩
  cases hfind : items.find? fun item => decide (item.1 ∧ item.2.uuid = u) with
  | none => exact absurd (decide_eq_true ⟨hdir, huuid⟩) (find?_eq_none.mp hfind item hitem)
  | some other =>
    have htest := @find?_some _ (fun item : Bool × RemoteItem =>
      decide (item.1 ∧ item.2.uuid = u)) other items hfind
    obtain ⟨-, huuid'⟩ := of_decide_eq_true htest
    have hsame := inj_on_of_nodup_map hdistinct (mem_of_find?_eq_some hfind) hitem
      (huuid'.trans huuid.symm)
    exact ⟨other, rfl, by rw [hsame]⟩

theorem fullIndex_concat {item : Bool × RemoteItem} (hdistinct : ((items ++ [item]).map (·.2.uuid)).Nodup) :
    fullIndex scope (items ++ [item]) = indexed scope (fullIndex scope items) item := by
  have hfront : (items.map (·.2.uuid)).Nodup := by
    rw [map_append] at hdistinct
    exact hdistinct.of_append_left
  have hnew : ∀ other ∈ items, other.2.uuid ≠ item.2.uuid := by
    intro other hother heq
    rw [map_append, map_singleton] at hdistinct
    refine disjoint_of_nodup_append hdistinct (mem_map_of_mem hother) ?_
    rw [heq]
    exact mem_singleton_self _
  funext u
  refine Option.ext fun entry => ?_
  rw [fullIndex_eq_some hdistinct]
  unfold indexed
  constructor
  · rintro ⟨other, hother, hdir, huuid, hentry⟩
    rcases mem_append.mp hother with hother | hother
    · have hold := (fullIndex_eq_some hfront).mpr ⟨other, hother, hdir, huuid, hentry⟩
      split
      · rw [update_of_ne fun heq => hnew other hother (huuid.trans heq)]
        exact hold
      · exact hold
    rw [mem_singleton.mp hother] at hdir huuid hentry
    rw [if_pos hdir, ← huuid, update_self, hentry]
  intro h
  split at h
  · rename_i hdir
    by_cases hu : u = item.2.uuid
    · rw [hu, update_self] at h
      cases h
      exact ⟨item, mem_append_right _ (mem_singleton_self _), hdir, hu.symm, rfl⟩
    rw [update_of_ne hu] at h
    obtain ⟨other, hother, hrest⟩ := (fullIndex_eq_some hfront).mp h
    exact ⟨other, mem_append_left _ hother, hrest⟩
  obtain ⟨other, hother, hrest⟩ := (fullIndex_eq_some hfront).mp h
  exact ⟨other, mem_append_left _ hother, hrest⟩

theorem placingOf_eq_some {item : Bool × RemoteItem} {a : Placing}
    (h : placingOf scope full undecodableDirs item = some a) :
    a.item.remoteUuid = item.2.uuid ∧ a.item.relPath = a.place ∧
      ∀ s, a.mark = some s → s ≠ leaf a.place := by
  unfold placingOf at h
  split at h
  · dsimp only at h
    split at h
    · rename_i hname
      cases h
      refine ⟨rfl, rfl, fun s hs => ?_⟩
      rw [leaf_joinPath _ (Scope.no_slash_of_isPlaceableName hname.1)]
      unfold spellingOf at hs
      split at hs
      · rename_i hne
        cases hs
        exact hne
      · cases hs
    · cases h
  · cases h

theorem fair_placings (hdistinct : (items.map (·.2.uuid)).Nodup) :
    Fair (items.filterMap (placingOf scope full undecodableDirs)) := by
  constructor
  · induction items with
    | nil => exact nodup_nil
    | cons item items ih =>
      rw [map_cons, nodup_cons] at hdistinct
      obtain ⟨hnew, hrest⟩ := hdistinct
      rw [filterMap_cons]
      split
      · exact ih hrest
      rename_i a ha
      rw [map_cons, nodup_cons]
      refine ⟨fun hmem => hnew ?_, ih hrest⟩
      obtain ⟨b, hb, hbuuid⟩ := mem_map.mp hmem
      obtain ⟨other, hother, hb⟩ := mem_filterMap.mp hb
      rw [(placingOf_eq_some ha).1, (placingOf_eq_some hb).1] at hbuuid
      exact mem_map.mpr ⟨other, hother, hbuuid⟩
  · intro a ha
    obtain ⟨item, -, ha⟩ := mem_filterMap.mp ha
    exact (placingOf_eq_some ha).2.1
  intro a ha
  obtain ⟨item, -, ha⟩ := mem_filterMap.mp ha
  exact (placingOf_eq_some ha).2.2

theorem filterMap_concat {α β : Type} (f : α → Option β) (xs : List α) (x : α) :
    (xs ++ [x]).filterMap f = xs.filterMap f ++ (f x).toList := by
  rw [filterMap_append]
  rfl

theorem stream_stands (undecodable : List UndecodableItem) {later : List (Bool × RemoteItem)}
    (hdistinct : ((items ++ later).map (·.2.uuid)).Nodup) :
    ∃ early deferred,
      Stands (dirsOf undecodable) (fullIndex scope items)
        (early.filterMap (placingOf scope (fullIndex scope (items ++ later)) (dirsOf undecodable)))
        (({} : Skipped).add
          (early.filterMap (recordOf scope (fullIndex scope (items ++ later)) (dirsOf undecodable))) [])
        deferred
        (items.foldl (fun builder item => builder.place scope item.1 item.2 true)
          (new.takeUndecodable undecodable)) ∧
      items.Perm (early ++ deferred) ∧
      deferred.filterMap (underOf scope (fullIndex scope (items ++ later)) (dirsOf undecodable)) =
        items.filterMap (underOf scope (fullIndex scope (items ++ later)) (dirsOf undecodable)) := by
  induction items using List.reverseRecOn generalizing later with
  | nil =>
    refine ⟨[], [], ⟨rfl, rfl, built_nil rfl rfl rfl rfl, (add_nil _).symm, rfl⟩,
      List.Perm.nil, rfl⟩
  | append_singleton items item ih =>
    have hassoc : items ++ [item] ++ later = items ++ (item :: later) := by
      rw [append_assoc, singleton_append]
    rw [hassoc] at hdistinct ⊢
    obtain ⟨early, deferred, hstands, hperm, hunder⟩ := ih hdistinct
    have hfront : ((items ++ [item]).map (·.2.uuid)).Nodup := by
      rw [← hassoc, map_append] at hdistinct
      exact hdistinct.of_append_left
    have hsub : ∀ u entry, fullIndex scope (items ++ [item]) u = some entry →
        fullIndex scope (items ++ (item :: later)) u = some entry := by
      intro u entry hu
      obtain ⟨other, hother, hrest⟩ := (fullIndex_eq_some hfront).mp hu
      refine (fullIndex_eq_some hdistinct).mpr ⟨other, ?_, hrest⟩
      rw [← hassoc]
      exact mem_append_left _ hother
    rw [fullIndex_concat hfront] at hsub ⊢
    rw [foldl_append, filterMap_concat, ← hunder]
    cases hres : scope.resolveParent item.2.parent (indexed scope (fullIndex scope items) item)
        (dirsOf undecodable) with
    | ok path =>
      have hfull := climb_ok_of_sub hsub hres
      have hnone : underOf scope (fullIndex scope (items ++ (item :: later))) (dirsOf undecodable)
          item = none := by
        unfold underOf Scope.resolveParent
        rw [hfull]
      have hnodup : ((early ++ [item]).map (·.2.uuid)).Nodup := by
        have hall := ((hperm.append_right [item]).map (·.2.uuid)).nodup_iff.mp hfront
        refine hall.sublist (List.Sublist.map _ ?_)
        rw [append_assoc]
        exact List.Sublist.append (List.Sublist.refl early) (sublist_append_right deferred [item])
      have hfair := @fair_placings scope (early ++ [item])
        (fullIndex scope (items ++ (item :: later))) (dirsOf undecodable) hnodup
      rw [filterMap_concat] at hfair
      have hknown : true = false ∨ ∃ path, scope.resolveParent item.2.parent
          (fullIndex scope (items ++ (item :: later))) (dirsOf undecodable) = .ok path :=
        Or.inr ⟨path, hfull⟩
      have hplace := hstands.place (hres.trans hfull.symm) hknown hfair
      rw [add_add, hnone, Option.toList_none, append_nil] at hplace
      refine ⟨early ++ [item], deferred, ?_, ?_, ?_⟩
      · rw [filterMap_concat, filterMap_concat]
        exact hplace
      · rw [append_assoc]
        refine (hperm.append_right [item]).trans ?_
        rw [append_assoc]
        exact (perm_append_comm).append_left early
      · rw [hnone, Option.toList_none, append_nil]
    | error unresolved =>
      refine ⟨early, deferred ++ [item], hstands.defer hres, ?_, filterMap_concat _ _ _⟩
      rw [← append_assoc]
      exact hperm.append_right [item]

end Stream

/-! ## Once every item is in -/

section Settle

variable {scope : Scope} {full dirIndex : DirIndex} {undecodableDirs : List Uuid}
  {arrivals : List Placing} {skipped : Skipped} {deferred : List (Bool × RemoteItem)}
  {builder : ViewBuilder}

theorem foldl_recordUndecodable (undecodable : List UndecodableItem)
    (h : Stands undecodableDirs dirIndex arrivals skipped deferred builder) (hpart : PartOf full scope.root dirIndex)
    (hanswers : ∀ item ∈ undecodable, Answers full scope.root dirIndex item.parent) :
    Stands undecodableDirs dirIndex arrivals
      { skipped with
        first := skipped.first ++ undecodable.filterMap (firstOf scope full undecodableDirs)
        under := skipped.under ++ undecodable.filterMap (underFirstOf scope full undecodableDirs) }
      deferred (undecodable.foldl (recordUndecodable scope) builder) := by
  induction undecodable generalizing builder skipped with
  | nil =>
    rw [filterMap_nil, filterMap_nil, append_nil, append_nil]
    exact h
  | cons item undecodable ih =>
    have hres : scope.resolveParent item.parent builder.dirIndex builder.undecodableDirs =
        scope.resolveParent item.parent full undecodableDirs := by
      rw [h.dirIndex, h.undecodableDirs]
      exact resolveParent_partOf hpart (hanswers item mem_cons_self)
    have hstep : Stands undecodableDirs dirIndex arrivals
        { skipped with
          first := skipped.first ++ (firstOf scope full undecodableDirs item).toList
          under := skipped.under ++ (underFirstOf scope full undecodableDirs item).toList }
        deferred (builder.recordUndecodable scope item) := by
      unfold ViewBuilder.recordUndecodable firstOf underFirstOf
      rw [hres]
      cases scope.resolveParent item.parent full undecodableDirs with
      | ok relPath =>
        refine ⟨h.dirIndex, h.undecodableDirs, h.built.congr rfl rfl rfl rfl rfl, ?_, h.deferred⟩
        dsimp only
        rw [recordFirst_eq, h.skipped, Option.toList_none, append_nil]
      | error unresolved =>
        cases unresolved with
        | underSkipped ancestor =>
          refine ⟨h.dirIndex, h.undecodableDirs, h.built.congr rfl rfl rfl rfl rfl, ?_,
            h.deferred⟩
          rw [h.skipped, Option.toList_none, append_nil]
          rfl
        | brokenParent =>
          refine ⟨h.dirIndex, h.undecodableDirs, h.built, ?_, h.deferred⟩
          rw [Option.toList_none, append_nil, Option.toList_none, append_nil]
          exact h.skipped
    have hrest := ih hstep fun other hother => hanswers other (mem_cons_of_mem _ hother)
    rw [foldl_cons, filterMap_cons_append, filterMap_cons_append,
      ← append_assoc, ← append_assoc]
    exact hrest

theorem foldl_place (items : List (Bool × RemoteItem))
    (h : Stands undecodableDirs dirIndex arrivals skipped deferred builder) (hpart : PartOf full scope.root dirIndex)
    (hanswers : ∀ item ∈ items, Answers full scope.root dirIndex item.2.parent) (hfull : ∀ item ∈ items, item.1 →
      full item.2.uuid = some (scope.nfc item.2.name, item.2.parent))
    (hfair : Fair (arrivals ++ items.filterMap (placingOf scope full undecodableDirs))) :
    ∃ dirIndex', Stands undecodableDirs dirIndex'
      (arrivals ++ items.filterMap (placingOf scope full undecodableDirs))
      (skipped.add (items.filterMap (recordOf scope full undecodableDirs))
        (items.filterMap (underOf scope full undecodableDirs)))
      deferred (items.foldl (fun builder item => builder.place scope item.1 item.2 false) builder) := by
  induction items generalizing builder skipped arrivals dirIndex with
  | nil =>
    rw [filterMap_nil, filterMap_nil, filterMap_nil, append_nil,
      add_nil]
    exact ⟨dirIndex, h⟩
  | cons item items ih =>
    have hpart' : PartOf full scope.root (indexed scope dirIndex item) := by
      unfold indexed
      split
      · rename_i hdir
        exact hpart.update (hfull item mem_cons_self hdir) (hanswers item mem_cons_self)
      · exact hpart
    have hanswers' : ∀ u, Answers full scope.root dirIndex u →
        Answers full scope.root (indexed scope dirIndex item) u := by
      intro u hu
      unfold indexed
      split
      · exact hu.update
      · exact hu
    rw [filterMap_cons_append, ← append_assoc] at hfair
    have hstep := h.place (resolveParent_partOf hpart' (hanswers' _ (hanswers item mem_cons_self)))
      (Or.inl rfl) hfair.of_append
    obtain ⟨dirIndex', hrest⟩ := ih hstep hpart'
      (fun other hother => hanswers' _ (hanswers other (mem_cons_of_mem _ hother)))
      (fun other hother => hfull other (mem_cons_of_mem _ hother)) hfair
    rw [add_add] at hrest
    refine ⟨dirIndex', ?_⟩
    rw [foldl_cons, filterMap_cons_append, filterMap_cons_append,
      filterMap_cons_append, ← append_assoc]
    exact hrest

theorem settle_stands (h : Stands undecodableDirs dirIndex arrivals skipped deferred builder)
    (hpart : PartOf full scope.root dirIndex)
    (hundecodable : ∀ item ∈ builder.undecodable, Answers full scope.root dirIndex item.parent)
    (hanswers : ∀ item ∈ deferred, Answers full scope.root dirIndex item.2.parent)
    (hfull : ∀ item ∈ deferred, item.1 →
      full item.2.uuid = some (scope.nfc item.2.name, item.2.parent))
    (hfair : Fair (arrivals ++ deferred.filterMap (placingOf scope full undecodableDirs))) :
    ∃ dirIndex', Stands undecodableDirs dirIndex'
      (arrivals ++ deferred.filterMap (placingOf scope full undecodableDirs))
      {
        first := skipped.first ++ builder.undecodable.filterMap (firstOf scope full undecodableDirs)
        recorded := skipped.recorded ++ deferred.filterMap (recordOf scope full undecodableDirs)
        under := skipped.under ++
          builder.undecodable.filterMap (underFirstOf scope full undecodableDirs) ++
          deferred.filterMap (underOf scope full undecodableDirs)
      }
      [] (builder.settle scope) := by
  have hcleared : Stands undecodableDirs dirIndex arrivals skipped deferred
      { builder with undecodable := [] } :=
    ⟨h.dirIndex, h.undecodableDirs, h.built.congr rfl rfl rfl rfl rfl, h.skipped, h.deferred⟩
  have hsettled := foldl_recordUndecodable builder.undecodable hcleared hpart hundecodable
  unfold ViewBuilder.settle
  dsimp only
  rw [hsettled.deferred]
  have hemptied : Stands undecodableDirs dirIndex arrivals _ []
      { builder.undecodable.foldl (recordUndecodable scope)
          { builder with undecodable := [] } with deferred := [] } :=
    ⟨hsettled.dirIndex, hsettled.undecodableDirs, hsettled.built.congr rfl rfl rfl rfl rfl,
      hsettled.skipped, rfl⟩
  exact foldl_place deferred hemptied hpart hanswers hfull hfair

theorem build_spec (undecodable : List UndecodableItem) {items : List (Bool × RemoteItem)}
    (hdistinct : (items.map (·.2.uuid)).Nodup) :
    ∃ (builder : ViewBuilder) (arrivals : List Placing) (recorded : List SkippedRemote),
      build scope undecodable items =
        {
          nodes := builder.nodes
          collisions := builder.twins
          heldPaths := builder.heldPaths
          skipped := finish
            {
              first := undecodable.filterMap
                (firstOf scope (fullIndex scope items) (dirsOf undecodable))
              recorded
              under := undecodable.filterMap
                  (underFirstOf scope (fullIndex scope items) (dirsOf undecodable)) ++
                items.filterMap (underOf scope (fullIndex scope items) (dirsOf undecodable))
            }
        } ∧
      Built arrivals builder ∧
      arrivals.Perm (items.filterMap (placingOf scope (fullIndex scope items) (dirsOf undecodable))) ∧
      recorded.Perm (items.filterMap (recordOf scope (fullIndex scope items) (dirsOf undecodable))) := by
  have hall : ((items ++ []).map fun item : Bool × RemoteItem => item.2.uuid).Nodup := by
    rw [append_nil]
    exact hdistinct
  obtain ⟨early, deferred, hstands, hperm, hunder⟩ := @stream_stands scope items undecodable [] hall
  rw [append_nil] at hstands hunder
  have hkept : (items.foldl (fun builder item => builder.place scope item.1 item.2 true)
      (new.takeUndecodable undecodable)).undecodable = undecodable :=
    foldl_place_undecodable scope items _
  have hfair : Fair (early.filterMap (placingOf scope (fullIndex scope items) (dirsOf undecodable)) ++
      deferred.filterMap (placingOf scope (fullIndex scope items) (dirsOf undecodable))) := by
    rw [← filterMap_append]
    exact (fair_placings hdistinct).perm (hperm.filterMap _)
  have hfull : ∀ item ∈ deferred, item.1 →
      fullIndex scope items item.2.uuid = some (scope.nfc item.2.name, item.2.parent) := by
    intro item hitem hdir
    exact (fullIndex_eq_some hdistinct).mpr
      ⟨item, hperm.mem_iff.mpr (mem_append_right _ hitem), hdir, rfl, rfl⟩
  obtain ⟨dirIndex', hsettled⟩ := settle_stands hstands (partOf_self _ scope.root)
    (fun item _ => answers_self _ _ _) (fun item _ => answers_self _ _ _) hfull hfair
  refine ⟨_, _, early.filterMap (recordOf scope (fullIndex scope items) (dirsOf undecodable)) ++
    deferred.filterMap (recordOf scope (fullIndex scope items) (dirsOf undecodable)), ?_,
    hsettled.built, ?_, ?_⟩
  · unfold ViewBuilder.build ViewBuilder.finish
    dsimp only
    rw [hsettled.skipped, hkept, ← hunder]
    rfl
  all_goals
    rw [← filterMap_append]
    exact (hperm.filterMap _).symm

end Settle

end SyncEngine.Remote
