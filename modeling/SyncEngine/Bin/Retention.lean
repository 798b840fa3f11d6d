import SyncEngine.Bin.Quarantine

/-! # What the bin keeps

A file that went into the bin stands in a bucket no older than the day it went in, or where the
bin is not marked, and there no name is read as a day. So no prune deletes it for thirty days.
-/

namespace SyncEngine.Bin

open Collections Tree World List

variable {File Hash : Type} {disk after : Disk File} {file : File} {top name : OsName} {rest place rel : Place} {day today : Day}
  {calendar : Calendar} {spelling : Spelling File}

/-- A file stands in the bin. -/
def Stands (disk : Disk File) (file : File) (top : OsName) (rest : Place) : Prop :=
  find (quarantineDir :: top :: rest) disk = some (.leaf file)

def InBin (disk : Disk File) (file : File) : Prop := ∃ top rest, Stands disk file top rest

/-- What stands in a bucket of a day or later ones. -/
def Aged (calendar : Calendar) (day : Day) (top : OsName) : Prop :=
  ∀ other, calendar.parseBucket top = some other → day ≤ other

/-- A file that no prune deletes before it is due. -/
def Safe (calendar : Calendar) (day : Day) (disk : Disk File) (file : File) : Prop :=
  ∃ top rest, Stands disk file top rest ∧ (find marker disk ≠ none → Aged calendar day top)

theorem aged_bucketName (h : day ≤ today) : Aged calendar day (calendar.bucketName today) := by
  intro other hother
  have hsame : calendar.parseBucket (calendar.bucketName today) = some today := Calendar.parseBucket_eq_some.mpr rfl
  rw [hother] at hsame
  rw [Option.some.inj hsame]
  exact h

theorem Stands.bin_ne_none (h : Stands disk file top rest) : find bin disk ≠ none := by
  intro hnone
  have hfound : find (bin ++ top :: rest) disk = some (.leaf file) := h
  rw [find_append, hnone, find_none] at hfound
  exact nomatch hfound

/-- Nothing of the bin is replaced or moved, and it is not marked now if it was there unmarked. -/
structure Keeps (disk after : Disk File) : Prop where
  kept : ∀ place, bin <+: place → find place disk ≠ none → kind (find place after) = kind (find place disk)
  marker : find bin disk ≠ none → find marker after ≠ none → find marker disk ≠ none

theorem Keeps.refl (disk : Disk File) : Keeps disk disk := ⟨fun _ _ _ => rfl, fun _ h => h⟩

theorem ne_none_of_kind {tree other : Disk File} (h : kind tree = kind other) (hne : other ≠ none) : tree ≠ none := by
  rintro rfl
  exact hne (kind_eq_nothing.mp h.symm)

theorem Keeps.trans {middle : Disk File} (h : Keeps disk middle) (h' : Keeps middle after) : Keeps disk after where
  kept place hbin hstands :=
    (h'.kept place hbin (ne_none_of_kind (h.kept place hbin hstands) hstands)).trans (h.kept place hbin hstands)
  marker hbin hmarker :=
    h.marker hbin (h'.marker (ne_none_of_kind (h.kept bin (prefix_refl _) hbin) hbin) hmarker)

theorem Keeps.stands (h : Keeps disk after) (hfile : Stands disk file top rest) : Stands after file top rest := by
  refine kind_eq_leaf.mp ((h.kept _ ?_ ?_).trans (kind_eq_leaf.mpr hfile))
  · exact cons_prefix_cons.mpr ⟨rfl, nil_prefix⟩
  intro hnone
  exact nomatch hnone.symm.trans hfile

theorem Keeps.safe (h : Keeps disk after) (hsafe : Safe calendar day disk file) : Safe calendar day after file := by
  obtain ⟨top, rest, hfile, haged⟩ := hsafe
  exact ⟨top, rest, h.stands hfile, fun hmarker => haged (h.marker hfile.bin_ne_none hmarker)⟩

theorem quarantineLocal_keeps (marks : Bool) (hrel : InTree rel)
    (hroom : find (spelling.onDisk disk rel) disk ≠ none → HasRoom disk (calendar.bucketDir day ++ rel)) :
    Keeps disk (quarantineLocal calendar spelling marks day rel disk).2 := by
  rcases quarantineLocal_cases marks hrel hroom with ⟨hresult, -⟩ | ⟨hresult, -⟩ | ⟨item, last, after, -, hresult, hentered⟩
  · rw [hresult]
    exact .refl disk
  · rw [hresult]
    exact .refl disk
  rw [hresult]
  refine ⟨hentered.kept, fun hbin hmarker hnone => hmarker ?_⟩
  have hkind := hentered.marker hbin
  rw [hnone] at hkind
  exact kind_eq_nothing.mp hkind

def RoomFor (calendar : Calendar) (spelling : Spelling File) (marks : Bool) (day : Day) : Nat → List Place → Disk File → Prop
  | _, [], _ => True
  | 0, _ :: _, _ => True
  | moves + 1, rel :: found, disk =>
    (find (spelling.onDisk disk rel) disk ≠ none → HasRoom disk (calendar.bucketDir day ++ rel)) ∧
      RoomFor calendar spelling marks day moves found (quarantineLocal calendar spelling marks day rel disk).2

variable {marks : Bool} {moves : Nat} {found : List Place} {summary : MigrateSummary} {scope : Remote.Scope}
    {trouble : OsName → Trouble File} {names : List OsName} {patience : Nat} {state : PruneSummary × Disk File}
    {target : Place}

theorem moveLegacyTrash_keeps
    (hfound : ∀ rel ∈ found, InTree rel) (hroom : RoomFor calendar spelling marks day moves found disk) :
    Keeps disk (moveLegacyTrash calendar spelling marks day moves found (summary, disk)).2 := by
  induction found generalizing moves summary disk with
  | nil =>
    unfold moveLegacyTrash
    exact .refl disk
  | cons rel found ih =>
    match moves with
    | 0 => exact .refl disk
    | moves + 1 =>
      have hkept := quarantineLocal_keeps marks (hfound rel mem_cons_self) hroom.1
      have hrest := fun summary => @ih (quarantineLocal calendar spelling marks day rel disk).2 moves summary
        (fun rel hmem => hfound rel (mem_cons_of_mem _ hmem)) hroom.2
      unfold moveLegacyTrash
      split
      all_goals
        rename_i hresult
        rw [hresult] at hkept hrest
        exact hkept.trans (hrest _)

theorem walkEntry_inTree {entries : List (OsName × Node File)} {relDir : Place}
    {state : List Place × List Place} (hdir : relDir = [] ∨ InTree relDir) (hfound : ∀ rel ∈ state.1, InTree rel)
    (hdirs : ∀ rel ∈ state.2, rel = [] ∨ InTree rel) :
    (∀ rel ∈ (walkEntry scope entries relDir state name).1, InTree rel) ∧
      ∀ rel ∈ (walkEntry scope entries relDir state name).2, rel = [] ∨ InTree rel := by
  unfold walkEntry
  dsimp only
  split
  · exact ⟨hfound, hdirs⟩
  rename_i hbin
  split
  · exact ⟨hfound, hdirs⟩
  have hrel : InTree (relDir ++ [name]) := by
    match relDir with
    | [] => exact fun hname => hbin ⟨rfl, hname⟩
    | first :: _ => exact hdir.resolve_left (cons_ne_nil _ _)
  split
  · exact ⟨hfound, hdirs⟩
  split
  · refine ⟨fun rel hmem => ?_, hdirs⟩
    rcases mem_append.mp hmem with hmem | hmem
    · exact hfound rel hmem
    rw [mem_singleton.mp hmem]
    exact hrel
  refine ⟨hfound, fun rel hmem => ?_⟩
  rcases mem_cons.mp hmem with rfl | hmem
  · exact Or.inr hrel
  · exact hdirs rel hmem

theorem findLegacyTrash_inTree {listing : Place → Option Listing} {walks : Nat} {dirs : List Place}
    {state : MigrateSummary × List Place} (hfound : ∀ rel ∈ state.2, InTree rel) (hdirs : ∀ rel ∈ dirs, rel = [] ∨ InTree rel) :
    ∀ rel ∈ (findLegacyTrash scope listing disk walks dirs state).2, InTree rel := by
  induction walks generalizing dirs state with
  | zero =>
    match dirs with
    | [] =>
      unfold findLegacyTrash
      exact hfound
    | _ :: _ => exact hfound
  | succ walks ih =>
    match dirs, state with
    | [], _ =>
      unfold findLegacyTrash
      exact hfound
    | relDir :: dirs, (summary, found) =>
      have hrest : ∀ rel ∈ dirs, rel = [] ∨ InTree rel := fun rel hmem => hdirs rel (mem_cons_of_mem _ hmem)
      unfold findLegacyTrash
      split
      · exact ih hfound hrest
      · exact ih hfound hrest
      · exact ih hfound hrest
      rename_i entries listed _ _
      have hwalked : ∀ (names : List OsName) (state : List Place × List Place), (∀ rel ∈ state.1, InTree rel) →
          (∀ rel ∈ state.2, rel = [] ∨ InTree rel) →
          (∀ rel ∈ (names.foldl (walkEntry scope entries relDir) state).1, InTree rel) ∧
            ∀ rel ∈ (names.foldl (walkEntry scope entries relDir) state).2, rel = [] ∨ InTree rel := by
        intro names
        induction names with
        | nil => exact fun _ h h' => ⟨h, h'⟩
        | cons name names ihnames =>
          intro state h h'
          obtain ⟨hnext, hnext'⟩ := @walkEntry_inTree _ name scope entries relDir state (hdirs relDir mem_cons_self) h h'
          exact ihnames _ hnext hnext'
      obtain ⟨hnext, hnext'⟩ := hwalked _ (found, dirs) hfound hrest
      exact ih hnext hnext'

/-! ## Pruning -/

theorem rename_some {source dest : Place} (h : rename source dest disk = some after) (hfree : find dest disk = none)
    (hapart : ¬ dest <+: source) : ∃ node, find source disk = some node ∧ Renamed disk source node dest after := by
  unfold rename at h
  split at h
  · exact nomatch h
  rename_i hallowed
  obtain ⟨hunder, hrest⟩ := not_or.mp hallowed
  obtain ⟨hne, hbranch⟩ := not_or.mp hrest
  obtain ⟨above, last, rfl⟩ := eq_nil_or_concat dest |>.resolve_left hne
  rw [concat_eq_append] at *
  rw [dropLast_concat] at hbranch
  cases hnode : find source disk with
  | none =>
    rw [hnode] at h
    exact nomatch h
  | some node =>
    rw [hnode, hfree] at h
    cases h
    exact ⟨node, rfl, renamed_of_free (isBranch_iff.mp (not_not.mp hbranch)) hunder hapart⟩

theorem adopt_stands {trouble : Trouble File} (hname : name ≠ datedMarker) (h : Stands disk file top rest) :
    (∃ top' rest', Stands (adopt calendar trouble name today disk).2 file top' rest' ∧
      (top' = calendar.bucketName today ∨ top' = top ∧ ((adopt calendar trouble name today disk).1 → top ≠ name))) ∧
    (find marker (adopt calendar trouble name today disk).2 ≠ none → find marker disk ≠ none) := by
  unfold adopt
  dsimp only
  split
  · exact ⟨⟨top, rest, h, Or.inr ⟨rfl, nofun⟩⟩, id⟩
  rename_i made hmade
  have hmade : makeBranches (calendar.bucketDir today) disk = some made := by
    split at hmade
    · exact nomatch hmade
    · exact hmade
  have hready := prepared_of_made hmade false
  rw [if_neg Bool.false_ne_true] at hready
  have hstands : Stands (some made) file top rest := by
    refine kind_eq_leaf.mp ((hready.kept _ ?_).trans (kind_eq_leaf.mpr h))
    intro hnone
    exact nomatch hnone.symm.trans h
  have hmarker : find marker (some made) ≠ none → find marker disk ≠ none := by
    intro hmarked hnone
    refine hmarked ((find_makeBranches_of_off hmade fun hfront => ?_).trans hnone)
    exact bucketName_ne_marker (second_eq hfront).symm
  split
  · exact ⟨⟨top, rest, hstands, Or.inr ⟨rfl, nofun⟩⟩, hmarker⟩
  rename_i hfree
  split
  · exact ⟨⟨top, rest, hstands, Or.inr ⟨rfl, nofun⟩⟩, hmarker⟩
  rename_i moved hmoved
  have hmoved : rename (bin ++ [name]) (uniqueQuarantineDest (some made) (calendar.bucketDir today ++ [name])) (some made) =
      some moved := by
    split at hmoved
    · exact nomatch hmoved
    · exact hmoved
  obtain ⟨last, hdest⟩ := @uniqueQuarantineDest_dropLast _ (some made) (calendar.bucketDir today ++ [name])
    (append_ne_nil_of_right_ne_nil _ (cons_ne_nil _ _))
  rw [dropLast_concat] at hdest
  rw [hdest] at hmoved hfree
  have hfree := Option.not_isSome_iff_eq_none.mp hfree
  obtain ⟨node, hnode, hrenamed⟩ := rename_some hmoved hfree fun hfront => absurd hfront.length_le (by simp [Calendar.bucketDir, bin])
  constructor
  · by_cases hsame : top = name
    · refine ⟨calendar.bucketName today, last :: rest, ?_, Or.inl rfl⟩
      change find (calendar.bucketDir today ++ [last] ++ rest) moved = _
      rw [find_append, hrenamed.whole, ← hnode, ← find_append, ← hsame]
      exact hstands
    refine ⟨top, rest, ?_, Or.inr ⟨rfl, fun _ => hsame⟩⟩
    refine kind_eq_leaf.mp ((hrenamed.kept _ (fun hfront => ?_) fun hfront => ?_).trans (kind_eq_leaf.mpr hstands))
    · exact hsame (second_eq hfront).symm
    obtain ⟨below, hbelow⟩ := hfront
    unfold Stands at hstands
    rw [← hbelow, find_append, hfree, find_none] at hstands
    exact nomatch hstands
  intro hmarked
  refine hmarker (ne_none_of_kind (hrenamed.kept marker (fun hfront => ?_) fun hfront => ?_).symm hmarked)
  · exact hname (second_eq hfront)
  · exact absurd hfront.length_le (by simp [Calendar.bucketDir, bin, marker])

theorem pruneEntry_aged {trouble : Trouble File} {summary : PruneSummary} (hname : name ≠ datedMarker) (hday : day ≤ today)
    (hdue : today ≤ day + retentionDays) (h : ∃ top rest, Stands disk file top rest ∧ Aged calendar day top) :
    ∃ top rest, Stands (pruneEntry calendar true today trouble name (summary, disk)).2 file top rest ∧ Aged calendar day top := by
  obtain ⟨top, rest, hfile, haged⟩ := h
  have hadopted : ∃ top' rest', Stands (adopt calendar trouble name today disk).2 file top' rest' ∧ Aged calendar day top' := by
    obtain ⟨⟨top', rest', hfile', hwhere⟩, -⟩ := @adopt_stands _ disk file top name rest today calendar trouble hname hfile
    rcases hwhere with rfl | ⟨rfl, -⟩
    · exact ⟨_, rest', hfile', aged_bucketName hday⟩
    · exact ⟨_, rest', hfile', haged⟩
  have hremoved : ∀ {other left}, calendar.parseBucket name = some other → expired other today →
      Stands (put (bin ++ [name]) left disk) file top rest := by
    intro other left hother hexpired
    refine kind_eq_leaf.mp ((kind_find_put fun hfront => ?_).trans (kind_eq_leaf.mpr hfile))
    have hsame : name = top := second_eq hfront
    have hle := haged other (hsame ▸ hother)
    unfold expired at hexpired
    split at hexpired
    · have hlt := of_decide_eq_true hexpired
      exact absurd (Nat.sub_le_iff_le_add.mpr hdue) (Nat.not_le_of_lt (Nat.lt_of_le_of_lt hle hlt))
    · exact nomatch hexpired
  unfold pruneEntry
  dsimp only
  split
  · split
    all_goals
      rename_i hresult
      rw [hresult] at hadopted
      exact hadopted
  rename_i other hother
  split
  · exact ⟨top, rest, hfile, haged⟩
  rename_i hkept
  have hexpired : expired other today := by
    by_contra hfresh
    rw [Bool.not_eq_true] at hfresh
    rw [hfresh] at hkept
    exact hkept (by simp)
  rw [if_pos rfl]
  split
  all_goals exact ⟨top, rest, hremoved hother hexpired, haged⟩

theorem pruneEntries_aged
    (hday : day ≤ today) (hdue : today ≤ day + retentionDays)
    (h : ∃ top rest, Stands state.2 file top rest ∧ Aged calendar day top) :
    ∃ top rest, Stands (pruneEntries calendar true today trouble names patience state).2 file top rest ∧ Aged calendar day top := by
  induction names generalizing patience state with
  | nil =>
    unfold pruneEntries
    exact h
  | cons name names ih =>
    unfold pruneEntries
    split
    · exact ih h
    rename_i hname
    match patience with
    | 0 => exact h
    | patience + 1 => exact ih (pruneEntry_aged hname hday hdue h)

/-- What holds while an unmarked bin is filed: a file is in today's bucket, or its entry is still
to be looked at, or it was not all filed. -/
structure Filing (calendar : Calendar) (today : Day) (file : File) (names : List OsName) (state : PruneSummary × Disk File) : Prop where
  unmarked : find marker state.2 = none
  stands : ∃ top rest, Stands state.2 file top rest ∧
    (top = calendar.bucketName today ∨ top ∈ names ∨ state.1.errors ≠ 0 ∨ state.1.stopped = true)

theorem Filing.adopted {trouble : Trouble File} (hname : name ≠ datedMarker)
    (h : Filing calendar today file (name :: names) state) :
    Filing calendar today file names (match adopt calendar trouble name today state.2 with
      | (true, moved) => ({ state.1 with adopted := state.1.adopted + 1 }, moved)
      | (false, kept) => ({ state.1 with errors := state.1.errors + 1 }, kept)) := by
  obtain ⟨summary, disk⟩ := state
  obtain ⟨hunmarked, top, rest, hfile, hwhere⟩ := h
  obtain ⟨⟨top', rest', hfile', hwhere'⟩, hmarker⟩ := @adopt_stands _ disk file top name rest today calendar trouble hname hfile
  have hunmarked' : find marker (adopt calendar trouble name today disk).2 = none := by
    by_contra hmarked
    exact hmarker hmarked hunmarked
  cases hresult : adopt calendar trouble name today disk with
  | mk done kept =>
    rw [hresult] at hfile' hwhere' hunmarked'
    cases done with
    | false => exact ⟨hunmarked', top', rest', hfile', Or.inr (Or.inr (Or.inl (Nat.succ_ne_zero _)))⟩
    | true =>
      refine ⟨hunmarked', top', rest', hfile', ?_⟩
      rcases hwhere' with hbucket | ⟨rfl, hother⟩
      · exact Or.inl hbucket
      rcases hwhere with hbucket | hmem | hfailed
      · exact Or.inl hbucket
      · exact Or.inr (Or.inl ((mem_cons.mp hmem).resolve_left (hother rfl)))
      · exact Or.inr (Or.inr hfailed)

theorem Filing.entry {trouble : Trouble File} (hname : name ≠ datedMarker)
    (h : Filing calendar today file (name :: names) state) :
    Filing calendar today file names (pruneEntry calendar false today trouble name state) := by
  have hadopted := @Filing.adopted _ _ _ _ _ _ _ trouble hname h
  obtain ⟨summary, disk⟩ := state
  obtain ⟨hunmarked, top, rest, hfile, hwhere⟩ := h
  unfold pruneEntry
  dsimp only
  split
  · exact hadopted
  rename_i other hother
  rw [Bool.false_and, Bool.or_false]
  split
  · rename_i hsame
    refine ⟨hunmarked, top, rest, hfile, ?_⟩
    rcases hwhere with hbucket | hmem | hfailed
    · exact Or.inl hbucket
    · rcases mem_cons.mp hmem with rfl | hmem
      · refine Or.inl ?_
        rw [Calendar.parseBucket_eq_some.mp hother, of_decide_eq_true hsame]
      · exact Or.inr (Or.inl hmem)
    · exact Or.inr (Or.inr hfailed)
  rw [if_neg Bool.false_ne_true]
  exact hadopted

theorem Filing.entries
    (h : Filing calendar today file names state) :
    Filing calendar today file [] (pruneEntries calendar false today trouble names patience state) := by
  induction names generalizing patience state with
  | nil =>
    unfold pruneEntries
    exact h
  | cons name names ih =>
    unfold pruneEntries
    split
    · rename_i hname
      refine ih ⟨h.unmarked, ?_⟩
      obtain ⟨top, rest, hfile, hwhere⟩ := h.stands
      refine ⟨top, rest, hfile, hwhere.imp_right fun hwhere => hwhere.imp_left fun hmem => ?_⟩
      refine (mem_cons.mp hmem).resolve_left fun htop => ?_
      -- nothing stands below a marker that is not there
      have hnone : find (marker ++ rest) state.2 = none := by
        rw [find_append, h.unmarked, find_none]
      rw [htop, hname] at hfile
      exact nomatch hnone.symm.trans hfile
    rename_i hname
    match patience with
    | 0 =>
      obtain ⟨top, rest, hfile, -⟩ := h.stands
      exact ⟨h.unmarked, top, rest, hfile, Or.inr (Or.inr (Or.inr rfl))⟩
    | patience + 1 => exact ih (h.entry hname)

theorem pruneBin_safe {listing : Option Listing}
    (hday : day ≤ today) (hdue : today ≤ day + retentionDays) (h : Safe calendar day disk file) :
    Safe calendar day (pruneBin calendar listing patience trouble marks today disk).2 file := by
  obtain ⟨top, rest, hfile, haged⟩ := h
  unfold pruneBin
  split
  · exact ⟨top, rest, hfile, haged⟩
  · exact ⟨top, rest, hfile, haged⟩
  · exact ⟨top, rest, hfile, haged⟩
  rename_i entries listed hbin
  dsimp only
  split
  · exact ⟨top, rest, hfile, haged⟩
  cases hmarked : find marker disk with
  | none =>
    have hlisted : top ∈ listed.order (entries.map Prod.fst) := by
      refine (listed.perm _).mem_iff.mpr (mem_of_child fun hnone => ?_)
      have hfound : find rest (child entries top) = some (.leaf file) := by
        have hbelow : find (bin ++ top :: rest) disk = some (.leaf file) := hfile
        rw [find_append, hbin] at hbelow
        exact hbelow
      rw [hnone, find_none] at hfound
      exact nomatch hfound
    have hfiled := @Filing.entries _ file today calendar trouble (listed.order (entries.map Prod.fst)) patience
      (⟨0, 0, 0, false⟩, disk) ⟨hmarked, top, rest, hfile, Or.inr (Or.inl hlisted)⟩
    rw [Option.isSome_none]
    generalize pruneEntries calendar false today trouble (listed.order (entries.map Prod.fst)) patience
      (⟨0, 0, 0, false⟩, disk) = pruned at hfiled ⊢
    obtain ⟨summary, left⟩ := pruned
    obtain ⟨hunmarked, top, rest, hfile, hwhere⟩ := hfiled
    have hleft : Safe calendar day left file := ⟨top, rest, hfile, fun hmarked => absurd hunmarked hmarked⟩
    split
    · rename_i hwhole
      rw [Bool.and_eq_true, Bool.and_eq_true] at hwhole
      obtain ⟨⟨-, herrors⟩, hstopped⟩ := hwhole
      split
      · refine ⟨top, rest, kind_eq_leaf.mp ((kind_markDated ?_).trans (kind_eq_leaf.mpr hfile)), fun _ => ?_⟩
        · intro hnone
          exact nomatch hnone.symm.trans hfile
        rcases hwhere with rfl | hmem | hfailed | hstop
        · exact aged_bucketName hday
        · exact nomatch hmem
        · exact absurd (of_decide_eq_true herrors) hfailed
        rw [hstop] at hstopped
        exact nomatch hstopped
      · exact hleft
    · exact hleft
  | some mark =>
    obtain ⟨top, rest, hfile, haged⟩ := @pruneEntries_aged _ file day today calendar trouble
      (listed.order (entries.map Prod.fst)) patience (⟨0, 0, 0, false⟩, disk) hday hdue
      ⟨top, rest, hfile, haged (hmarked ▸ Option.some_ne_none mark)⟩
    rw [Option.isSome_some]
    exact ⟨top, rest, hfile, fun _ => haged⟩

/-! ## Taking back -/

theorem find_put_inTree {new : Disk File} (htarget : InTree target) :
    find (quarantineDir :: place) (put target new disk) = find (quarantineDir :: place) disk :=
  find_put_of_apart (not_prefix_of_inTree htarget) (not_prefix_inTree htarget)

theorem find_makeBranches_inTree {made : Node File} (htarget : InTree target)
    (hmade : makeBranches target.dropLast disk = some made) :
    find (quarantineDir :: place) (some made) = find (quarantineDir :: place) disk :=
  find_makeBranches_of_off hmade fun hfront => not_prefix_inTree htarget (hfront.trans ( dropLast_prefix _))

theorem Safe.congr (h : Safe calendar day disk file)
    (hsame : ∀ place, find (quarantineDir :: place) after = find (quarantineDir :: place) disk) :
    Safe calendar day after file := by
  obtain ⟨top, rest, hfile, haged⟩ := h
  exact ⟨top, rest, (hsame _).trans hfile, fun hmarker => haged ((hsame _).symm.trans_ne hmarker)⟩

theorem Safe.takenOut {taken : File} (h : Safe calendar day disk file) (hplace : find place disk = some (.leaf taken)) :
    Safe calendar day (put place none disk) file ∨ taken = file := by
  obtain ⟨top, rest, hfile, haged⟩ := h
  by_cases hbelow : place <+: quarantineDir :: top :: rest
  · right
    obtain ⟨below, hbelow⟩ := hbelow
    unfold Stands at hfile
    rw [← hbelow, find_append, hplace] at hfile
    match below with
    | [] =>
      rw [find_nil] at hfile
      exact leaf.inj (Option.some.inj hfile)
    | _ :: _ => exact nomatch hfile
  refine Or.inl ⟨top, rest, kind_eq_leaf.mp ((kind_find_put hbelow).trans (kind_eq_leaf.mpr hfile)), fun hmarker => ?_⟩
  refine haged fun hnone => hmarker ?_
  by_cases hmarked : place <+: marker
  · obtain ⟨below, hbelow⟩ := hmarked
    rw [← hbelow, find_append, find_put_none, find_none]
  · exact kind_eq_nothing.mp ((kind_find_put hmarked).trans (kind_eq_nothing.mpr hnone))

variable [DecidableEq Hash]

theorem takeBack_safe {content : File → Content Hash} {links unlinks : Bool} {binned : Binned} {wanted : Content Hash}
    (hrel : InTree rel) (h : Safe calendar day disk file) :
    Safe calendar day (binned.takeBack spelling content links unlinks rel wanted disk).2 file ∨
      ∃ target, (binned.takeBack spelling content links unlinks rel wanted disk).1 = some (target, file) := by
  unfold Binned.takeBack
  dsimp only
  split
  · rename_i place taken target hheld htarget
    have hin := spelling.confined_inTree disk rel target hrel htarget
    have hplace : find place disk = some (.leaf taken) := by
      obtain ⟨bucket, -, hbucket⟩ := exists_of_findSome?_eq_some hheld
      split at hbucket
      · rename_i hfound
        split at hbucket
        · cases hbucket
          exact hfound
        · exact nomatch hbucket
      · exact nomatch hbucket
    split
    · exact Or.inl h
    rename_i made hmade
    have hmadeSafe : Safe calendar day (some made) file := h.congr fun _ => find_makeBranches_inTree hin hmade
    split
    · exact Or.inl hmadeSafe
    rename_i linked hlinked
    have hlinked : hardLink place target (some made) = some linked := by
      split at hlinked
      · exact hlinked
      · exact nomatch hlinked
    unfold hardLink at hlinked
    split at hlinked
    · exact nomatch hlinked
    rename_i hfree
    split at hlinked
    · rename_i linkedFile hlinkedFile
      cases hlinked
      have hlinkedSafe := hmadeSafe.congr fun _ => @find_put_inTree _ (some made) _ target (some (.leaf linkedFile)) hin
      by_cases hsame : taken = file
      · exact Or.inr ⟨target, by rw [hsame]⟩
      left
      split
      · have htaken : find place (put target (some (.leaf linkedFile)) (some made)) = some (.leaf taken) := by
          rw [← kind_eq_leaf, kind_find_put fun hbelow => ?_, hlinkedFile, ← hlinkedFile, kind_makeBranches hmade, hplace]
          · rfl
          · rw [hplace]
            exact Option.some_ne_none _
          obtain ⟨below, rfl⟩ := hbelow
          have hnone := Option.not_isSome_iff_eq_none.mp (not_or.mp (not_or.mp hfree).2).2
          rw [find_append, hnone, find_none] at hlinkedFile
          exact nomatch hlinkedFile
        exact (hlinkedSafe.takenOut htaken).resolve_right hsame
      · exact hlinkedSafe
    · exact nomatch hlinked
  · exact Or.inl h

omit [DecidableEq Hash] in
theorem quarantineLocal_bucket (marks : Bool) (hrel : InTree rel)
    (hroom : find (spelling.onDisk disk rel) disk ≠ none → HasRoom disk (calendar.bucketDir day ++ rel))
    (hnew : find (quarantineDir :: top :: rest) disk = none)
    (hstands : Stands (quarantineLocal calendar spelling marks day rel disk).2 file top rest) : top = calendar.bucketName day := by
  have hstayed : ¬ Stands disk file top rest := fun hfile => nomatch hnew.symm.trans hfile
  rcases quarantineLocal_cases marks hrel hroom with ⟨hresult, -⟩ | ⟨hresult, -⟩ | ⟨item, last, after, -, hresult, hentered⟩
  · rw [hresult] at hstands
    exact absurd hstands hstayed
  · rw [hresult] at hstands
    exact absurd hstands hstayed
  rw [hresult] at hstands
  rcases hentered.file _ file hstands with hbelow | hbefore
  · exact (second_eq hbelow).symm
  · exact absurd hbefore hstayed

omit [DecidableEq Hash] in
theorem moveLegacyTrash_bucket
    (hfound : ∀ rel ∈ found, InTree rel) (hroom : RoomFor calendar spelling marks day moves found disk)
    (hnew : find (quarantineDir :: top :: rest) disk = none)
    (hstands : Stands (moveLegacyTrash calendar spelling marks day moves found (summary, disk)).2 file top rest) :
    top = calendar.bucketName day := by
  induction found generalizing moves summary disk with
  | nil =>
    unfold moveLegacyTrash at hstands
    exact nomatch hnew.symm.trans hstands
  | cons rel found ih =>
    match moves with
    | 0 => exact nomatch hnew.symm.trans hstands
    | moves + 1 =>
      have htree := hfound rel mem_cons_self
      have hothers : ∀ rel ∈ found, InTree rel := fun rel hmem => hfound rel (mem_cons_of_mem _ hmem)
      have hfirst := fun file => @quarantineLocal_bucket _ disk file top rest rel day calendar spelling marks htree hroom.1 hnew
      have hrest := fun summary => @ih (quarantineLocal calendar spelling marks day rel disk).2 moves summary hothers hroom.2
      have hkept := fun summary => @moveLegacyTrash_keeps _ (quarantineLocal calendar spelling marks day rel disk).2 day calendar
        spelling marks moves found summary hothers hroom.2
      have hnext : ∀ summary, Stands (moveLegacyTrash calendar spelling marks day moves found
          (summary, (quarantineLocal calendar spelling marks day rel disk).2)).2 file top rest → top = calendar.bucketName day := by
        intro summary hstands
        match hbetween : find (quarantineDir :: top :: rest) (quarantineLocal calendar spelling marks day rel disk).2 with
        | none => exact hrest summary hbetween hstands
        | some (.leaf other) => exact hfirst other hbetween
        | some (.branch _) =>
          have hkind := (hkept summary).kept _ (cons_prefix_cons.mpr ⟨rfl, nil_prefix⟩)
            (hbetween ▸ Option.some_ne_none _)
          rw [kind_eq_leaf.mpr hstands, hbetween] at hkind
          exact nomatch hkind
      unfold moveLegacyTrash at hstands
      split at hstands
      all_goals
        rename_i hresult
        rw [hresult] at hnext
        exact hnext _ hstands

/-! ## Runs -/

namespace World

variable {engine : Engine File Hash} {world next : World File} {move : Move File Hash}

/-- Where a move bins an item, one of the places tried for it is free. -/
def Room (engine : Engine File Hash) (world : World File) : Move File Hash → Prop
  | .quarantineLocal _ day rel =>
    find (engine.spelling.onDisk world.disk rel) world.disk ≠ none → HasRoom world.disk (engine.calendar.bucketDir day ++ rel)
  | .migrateLegacyTrash listing walks moves marks day =>
    RoomFor engine.calendar engine.spelling marks day moves
      (findLegacyTrash engine.scope listing world.disk walks [[]] (⟨0, 0, false, []⟩, [])).2 world.disk
  | .retryLegacyTrash unmoved moves marks day => RoomFor engine.calendar engine.spelling marks day moves unmoved world.disk
  | _ => True

/-- A prune is as of a day no later than another. -/
def PrunesBy (day : Day) : Move File Hash → Prop
  | .pruneBin _ _ _ _ today => today ≤ day
  | _ => True

theorem step_quarantineLocal (marks : Bool) (hday : world.today ≤ day) (hrel : InTree rel) :
    world.step engine (.quarantineLocal marks day rel) = some { world with
      disk := (quarantineLocal engine.calendar engine.spelling marks day rel world.disk).2, today := day } :=
  if_pos ⟨hday, hrel⟩

/-- A file went into the bin with a move, or an unmarked bin that is pruned held it. -/
def Takes (before after : World File) (file : File) : Move File Hash → Prop
  | .quarantineLocal _ _ _ | .migrateLegacyTrash _ _ _ _ _ | .retryLegacyTrash _ _ _ _ =>
    ∃ top rest, find (quarantineDir :: top :: rest) before.disk = none ∧ Stands after.disk file top rest
  | .pruneBin _ _ _ _ _ => find marker before.disk = none ∧ InBin before.disk file
  | .open _ | .takeBack _ _ _ _ | .other _ => False

theorem safe_of_bucket (hstands : Stands disk file top rest) (htop : top = calendar.bucketName day) :
    Safe calendar day disk file :=
  ⟨top, rest, hstands, fun _ => htop ▸ aged_bucketName (Nat.le_refl day)⟩

omit [DecidableEq Hash] in
theorem legacyTrash_inTree {listing : Place → Option Listing} {walks : Nat} :
    ∀ rel ∈ (findLegacyTrash engine.scope listing disk walks [[]] (⟨0, 0, false, []⟩, [])).2, InTree rel := by
  refine findLegacyTrash_inTree (fun _ hmem => nomatch hmem) fun rel hmem => ?_
  exact Or.inl (mem_singleton.mp hmem)

theorem safe_of_takes (hday : move.day = some day) (hroom : Room engine world move) (hstep : world.step engine move = some next)
    (htakes : Takes world next file move) : Safe engine.calendar day next.disk file ∧ day ≤ next.today := by
  cases move with
  | quarantineLocal marks today rel =>
    cases hday
    dsimp only [step] at hstep
    split at hstep
    · rename_i hallowed
      cases hstep
      obtain ⟨top, rest, hnew, hstands⟩ := htakes
      exact ⟨safe_of_bucket hstands (quarantineLocal_bucket marks hallowed.2 hroom hnew hstands), le_rfl⟩
    · exact nomatch hstep
  | «open» listing => exact htakes.elim
  | takeBack links unlinks rel wanted => exact htakes.elim
  | migrateLegacyTrash listing walks moves marks today =>
    cases hday
    dsimp only [step] at hstep
    split at hstep
    · cases hstep
      obtain ⟨top, rest, hnew, hstands⟩ := htakes
      exact ⟨safe_of_bucket hstands (moveLegacyTrash_bucket legacyTrash_inTree hroom hnew hstands), le_rfl⟩
    · exact nomatch hstep
  | retryLegacyTrash unmoved moves marks today =>
    cases hday
    dsimp only [step] at hstep
    split at hstep
    · rename_i hallowed
      cases hstep
      obtain ⟨top, rest, hnew, hstands⟩ := htakes
      exact ⟨safe_of_bucket hstands (moveLegacyTrash_bucket hallowed.2 hroom hnew hstands), le_rfl⟩
    · exact nomatch hstep
  | pruneBin listing patience trouble marks today =>
    cases hday
    dsimp only [step] at hstep
    split at hstep
    · cases hstep
      obtain ⟨hunmarked, top, rest, hstands⟩ := htakes
      exact ⟨pruneBin_safe le_rfl (Nat.le_add_right _ _) ⟨top, rest, hstands, fun hmarked => absurd hunmarked hmarked⟩,
        le_rfl⟩
    · exact nomatch hstep
  | other tree => exact htakes.elim

/-- A file is safe in the bin, or was taken back since. -/
def Kept (engine : Engine File Hash) (day : Day) (file : File) (before : List (Place × File)) (world : World File) : Prop :=
  day ≤ world.today ∧ ∃ put, world.putBack = put ++ before ∧
    (Safe engine.calendar day world.disk file ∨ ∃ place, (place, file) ∈ put)

theorem Kept.step {before : List (Place × File)} (h : Kept engine day file before world) (hroom : Room engine world move)
    (hprunes : PrunesBy (day + retentionDays) move) (hstep : world.step engine move = some next) :
    Kept engine day file before next := by
  obtain ⟨hday, put, hput, hsafe⟩ := h
  cases move with
  | quarantineLocal marks today rel =>
    dsimp only [step] at hstep
    split at hstep
    · rename_i hallowed
      cases hstep
      exact ⟨hday.trans hallowed.1, put, hput, hsafe.imp_left (quarantineLocal_keeps marks hallowed.2 hroom).safe⟩
    · exact nomatch hstep
  | «open» listing =>
    cases hstep
    exact ⟨hday, put, hput, hsafe⟩
  | takeBack links unlinks rel wanted =>
    dsimp only [step] at hstep
    split at hstep
    · rename_i binned _
      split at hstep
      · rename_i hrel
        cases hstep
        refine ⟨hday, _ ++ put, (congrArg _ hput).trans (append_assoc _ _ _).symm, ?_⟩
        rcases hsafe with hsafe | ⟨place, hmem⟩
        · rcases @takeBack_safe _ _ world.disk file rel day engine.calendar engine.spelling _ engine.content links unlinks binned
            wanted hrel hsafe with hsafe | ⟨target, htaken⟩
          · exact Or.inl hsafe
          refine Or.inr ⟨target, mem_append_left _ ?_⟩
          rw [htaken]
          exact mem_singleton.mpr rfl
        · exact Or.inr ⟨place, mem_append_right _ hmem⟩
      · exact nomatch hstep
    · exact nomatch hstep
  | migrateLegacyTrash listing walks moves marks today =>
    dsimp only [step] at hstep
    split at hstep
    · rename_i hallowed
      cases hstep
      exact ⟨hday.trans hallowed, put, hput, hsafe.imp_left (moveLegacyTrash_keeps legacyTrash_inTree hroom).safe⟩
    · exact nomatch hstep
  | retryLegacyTrash unmoved moves marks today =>
    dsimp only [step] at hstep
    split at hstep
    · rename_i hallowed
      cases hstep
      exact ⟨hday.trans hallowed.1, put, hput, hsafe.imp_left (moveLegacyTrash_keeps hallowed.2 hroom).safe⟩
    · exact nomatch hstep
  | pruneBin listing patience trouble marks today =>
    dsimp only [step] at hstep
    split at hstep
    · rename_i hallowed
      cases hstep
      exact ⟨hday.trans hallowed, put, hput, hsafe.imp_left (pruneBin_safe (hday.trans hallowed) hprunes)⟩
    · exact nomatch hstep
  | other tree =>
    dsimp only [step] at hstep
    split at hstep
    · rename_i hbranch
      cases hstep
      refine ⟨hday, put, hput, hsafe.imp_left fun hsafe => hsafe.congr fun place => ?_⟩
      change find (bin ++ place) (around tree world.disk) = find (bin ++ place) world.disk
      rw [find_append, find_append]
      exact congrArg _ (@find_put_self _ _ _ (find bin world.disk) tree [] _
        ((congrArg kind find_nil).trans (isBranch_iff.mp hbranch)))
    · exact nomatch hstep

/-- A file that went into the bin on a day, or that an unmarked bin held when it was pruned on it,
stands in the bin or was put back in the tree as long as every prune is as of a day no more than
thirty days later, where a free name is found for every item that is binned. -/
theorem kept_thirty_days (engine : Engine File Hash) {before entered after : World File} {move : Move File Hash} {day : Day} {file : File}
    (hday : move.day = some day) (hroom : Room engine before move) (hstep : before.step engine move = some entered)
    (htakes : Takes before entered file move)
    (hrun : (machine engine entered).Reaches (fun world move => Room engine world move ∧ PrunesBy (day + 30) move) after) :
    InBin after.disk file ∨ ∃ put place, after.putBack = put ++ entered.putBack ∧ (place, file) ∈ put := by
  obtain ⟨hsafe, hle⟩ := safe_of_takes hday hroom hstep htakes
  have hkept : Kept engine day file entered.putBack after :=
    Machine.Reaches.invariant (P := Kept engine day file entered.putBack) ⟨hle, [], rfl, Or.inl hsafe⟩
      (fun _ _ _ h hallowed hnext => h.step hallowed.1 hallowed.2 hnext) hrun
  obtain ⟨-, put, hput, hsafe | ⟨place, hmem⟩⟩ := hkept
  · obtain ⟨top, rest, hstands, -⟩ := hsafe
    exact Or.inl ⟨top, rest, hstands⟩
  · exact Or.inr ⟨put, place, hput, hmem⟩

/-- A prune that nothing fails, and that looks at so many entries. -/
def quietPrune (patience : Nat) (day : Day) : Move Nat Nat :=
  .pruneBin (some ⟨id, fun _ => .refl _, fun _ => false⟩) patience (fun _ => ⟨none, false, false⟩) true day

theorem kept_thirty_days_lone : ∃ entered after, lone.step plainEngine (.quarantineLocal true october [nameA]) = some entered ∧
    entered.step plainEngine (quietPrune 10 (october + 30)) = some after ∧
    (InBin after.disk 0 ∨ ∃ put place, after.putBack = put ++ entered.putBack ∧ (place, 0) ∈ put) := by
  have hfirst : (lone.step plainEngine (.quarantineLocal true october [nameA])).map (fun entered =>
      (kind (find [quarantineDir, autumn.bucketName october, nameA] entered.disk),
        (entered.step plainEngine (quietPrune 10 (october + 30))).isSome)) = some (.leaf 0, true) := by decide +kernel
  obtain ⟨entered, hentered, hfirst⟩ := Option.map_eq_some_iff.mp hfirst
  obtain ⟨hstands, hpruned⟩ := Prod.mk.inj hfirst
  obtain ⟨after, hafter⟩ := Option.isSome_iff_exists.mp hpruned
  have hroom : Room plainEngine lone (.quarantineLocal true october [nameA]) := fun _ => Or.inl (by decide +kernel)
  have hnew : find [quarantineDir, autumn.bucketName october, nameA] lone.disk = none :=
    kind_eq_nothing.mp (by decide +kernel)
  have hallowed : Room plainEngine entered (quietPrune 10 (october + 30)) ∧ PrunesBy (october + 30) (quietPrune 10 (october + 30)) :=
    ⟨trivial, le_rfl⟩
  exact ⟨entered, after, hentered, hafter, kept_thirty_days plainEngine rfl hroom hentered
    ⟨autumn.bucketName october, [nameA], hnew, kind_eq_leaf.mp hstands⟩ (Machine.Reaches.start.step hallowed hafter)⟩

/-! ## A day with every name taken -/

def nameX : OsName := .text ['x']

def numbered : List (OsName × Node Nat) := (List.range' 1 99999).map fun n => (.text (['x'] ++ counterSuffix n), .leaf 1)

/-- A bin filed by day with today's bucket, and a file in the tree. -/
def crowded : Disk Nat :=
  some (.branch [(nameX, .leaf 0), (quarantineDir, .branch [(datedMarker, .branch []), (autumn.bucketName october, .branch numbered)])])

theorem find_crowded (name : OsName) :
    find [quarantineDir, autumn.bucketName october, name] crowded = child numbered name := rfl

theorem child_numbered {n : Nat} (h : n ∈ List.range' 1 99999) :
    child numbered (.text (['x'] ++ counterSuffix n)) ≠ none := by
  unfold child numbered
  intro hnone
  have hmissing := find?_eq_none.mp (Option.map_eq_none_iff.mp hnone) _ (mem_map_of_mem h)
  exact hmissing (decide_eq_true rfl)

theorem child_numbered_leaf {name : OsName} {node : Node Nat} (h : child numbered name = some node) : node = .leaf 1 := by
  unfold child numbered at h
  obtain ⟨entry, hfound, rfl⟩ := Option.map_eq_some_iff.mp h
  obtain ⟨n, -, rfl⟩ := mem_map.mp (mem_of_find?_eq_some hfound)
  rfl

theorem child_numbered_nameX : child numbered nameX = none := by
  unfold child numbered
  rw [Option.map_eq_none_iff, find?_eq_none]
  intro entry hmem hname
  obtain ⟨n, -, rfl⟩ := mem_map.mp hmem
  have hnames : ['x'] ++ counterSuffix n = ['x'] := OsName.text.inj (of_decide_eq_true hname)
  have hlength := congrArg List.length hnames
  unfold counterSuffix at hlength
  simp at hlength

theorem not_stands_crowded {top : OsName} {rest : Place} : ¬ Stands crowded 0 top rest := by
  intro hstands
  have hfound : find rest (child [(datedMarker, .branch []), (autumn.bucketName october, .branch numbered)] top) =
      some (.leaf 0) := hstands
  unfold child at hfound
  rw [find?_cons] at hfound
  split at hfound
  · match rest with
    | [] => exact nomatch hfound
    | _ :: rest =>
      have hnone : find rest (none : Disk Nat) = none := find_none
      exact nomatch hnone.symm.trans hfound
  rw [find?_cons] at hfound
  split at hfound
  · match rest with
    | [] => exact nomatch hfound
    | name :: rest =>
      have hchild : find rest (child numbered name) = some (.leaf 0) := hfound
      match hnode : child numbered name with
      | none =>
        rw [hnode, find_none] at hchild
        exact nomatch hchild
      | some entry =>
        rw [hnode, child_numbered_leaf hnode] at hchild
        match rest with
        | [] => exact nomatch hchild
        | _ :: _ => exact nomatch hchild
  have hnone : find rest (none : Disk Nat) = none := find_none
  exact nomatch hnone.symm.trans hfound

end World

/-- A file that is binned once more where every place tried for it is taken replaces what is at
the first. -/
theorem quarantineLocal_replaces (marks : Bool) {base : Place} {old new : File} (hrel : InTree rel)
    (hbase : base = calendar.bucketDir day ++ rel) (hsource : find (spelling.onDisk disk rel) disk = some (.leaf new))
    (hold : find base disk = some (.leaf old)) (hroom : ¬ HasRoom disk base) :
    (∀ place file, find place (quarantineLocal calendar spelling marks day rel disk).2 = some (.leaf file) →
      place = base ∧ file = new ∨ place ≠ base ∧ find place disk = some (.leaf file)) ∧
    (find marker disk ≠ none → find marker (quarantineLocal calendar spelling marks day rel disk).2 ≠ none) := by
  have hin := spelling.onDisk_inTree disk rel hrel
  have hdest : uniqueQuarantineDest disk base = base := by
    unfold uniqueQuarantineDest
    obtain ⟨-, htaken⟩ := not_or.mp hroom
    have hnone : ((List.range' 1 99999).find? fun n => (find (candidate base n) disk).isNone) = none :=
      find?_eq_none.mpr fun n hn hfree => htaken ⟨n, hn, hfree⟩
    rw [hold, hnone]
    rfl
  have hne : base ≠ [] := by
    rw [hbase]
    exact cons_ne_nil _ _
  obtain ⟨last, hlast⟩ := @uniqueQuarantineDest_dropLast _ disk base hne
  rw [hdest] at hlast
  unfold quarantineLocal
  dsimp only
  rw [hsource, ← hbase, hdest]
  cases hmade : makeBranches base.dropLast disk with
  | none =>
    obtain ⟨above, habove, other, hother⟩ := makeBranches_eq_none_iff.mp hmade
    obtain ⟨below, hbelow⟩ := habove
    have hunder : find (above ++ (below ++ [last])) disk = some (.leaf old) := by
      rw [← append_assoc, hbelow, ← hlast]
      exact hold
    rw [find_append_of_kind (append_ne_nil_of_right_ne_nil _ (cons_ne_nil _ _))
      (by rw [hother]; exact nofun)] at hunder
    exact nomatch hunder
  | some made =>
    have hready := prepared_of_made hmade ((find bin disk).isNone && marks)
    rw [Option.isNone_some, if_neg Bool.false_ne_true]
    dsimp only
    generalize (if ((find bin disk).isNone && marks) then markDated (some made) else some made) = ready at hready ⊢
    obtain ⟨rest, hrest⟩ : ∃ rest, base = quarantineDir :: rest := ⟨_, hbase⟩
    have hmarker : ¬ marker <+: spelling.onDisk disk rel := not_prefix_inTree hin
    have hsource' : find (spelling.onDisk disk rel) ready = some (.leaf new) := by
      refine (hready.off _ ?_ hmarker (not_prefix_of_inTree hin)).trans hsource
      exact fun hfront => not_prefix_of_inTree hin (hrest ▸ hfront.trans ( dropLast_prefix base))
    have hold' : find base ready = some (.leaf old) := by
      rw [← kind_eq_leaf, hready.kept base (hold ▸ Option.some_ne_none _), hold]
      rfl
    have hrename : rename (spelling.onDisk disk rel) base ready =
        some (put base (some (.leaf new)) (put (spelling.onDisk disk rel) none ready)) := by
      unfold rename
      rw [if_neg, hsource', hold']
      rintro (hfront | hnil | hbranch)
      · exact not_prefix_of_inTree hin (hrest ▸ hfront)
      · exact hne hnil
      · exact hbranch (isBranch_iff.mpr hready.branch)
    rw [hrename]
    refine ⟨fun place file hfile => ?_, fun hmarked => ne_none_of_kind ?_ hmarked⟩
    swap
    · refine (kind_find_put fun hfront => ?_).trans ((kind_find_put (not_prefix_of_inTree hin)).trans
        (hready.kept marker hmarked))
      rw [hbase] at hfront
      exact bucketName_ne_marker (second_eq hfront)
    by_cases hbelow : base <+: place
    · obtain ⟨below, rfl⟩ := hbelow
      have hnew : find base (put base (some (.leaf new)) (put (spelling.onDisk disk rel) none ready)) =
          some (.leaf new) := by
        rw [hlast]
        refine find_put_self ((kind_find_put fun hfront => ?_).trans hready.branch)
        exact not_prefix_of_inTree hin (hrest ▸ hfront.trans ( dropLast_prefix base))
      rw [find_append, hnew] at hfile
      match below with
      | [] =>
        rw [find_nil] at hfile
        exact Or.inl ⟨append_nil base, (leaf.inj (Option.some.inj hfile)).symm⟩
      | _ :: _ => exact nomatch hfile
    refine Or.inr ⟨fun hsame => hbelow (hsame ▸ prefix_refl _), hready.file place file ?_⟩
    rw [← kind_eq_leaf, kind_find_put hbelow] at hfile
    by_cases hunder : spelling.onDisk disk rel <+: place
    · obtain ⟨below, rfl⟩ := hunder
      rw [find_append, find_put_none, find_none] at hfile
      exact nomatch hfile
    · rwa [kind_find_put hunder, kind_eq_leaf] at hfile

namespace World

omit [DecidableEq Hash] in
theorem pruneBin_stopped {listing : Option Listing} {trouble : OsName → Trouble File} {marks : Bool}
    (hmarked : find marker disk ≠ none) : (pruneBin calendar listing 0 trouble marks today disk).2 = disk := by
  have hentries : ∀ (names : List OsName) (state : PruneSummary × Disk File),
      (pruneEntries calendar true today trouble names 0 state).2 = state.2 := by
    intro names
    induction names with
    | nil => exact fun _ => rfl
    | cons name names ih =>
      intro state
      unfold pruneEntries
      split
      · exact ih state
      · rfl
  unfold pruneBin
  split
  · rfl
  · rfl
  · rfl
  dsimp only
  split
  · rfl
  rw [Option.isSome_iff_ne_none.mpr hmarked]
  exact hentries _ _

/-- The file that a second one replaces. -/
theorem quarantineLocal_loses : ∃ entered after : World Nat,
    (new crowded).step plainEngine (.quarantineLocal true october [nameX]) = some entered ∧
    Takes (new crowded) entered 0 (.quarantineLocal true october [nameX] : Move Nat Nat) ∧
    (machine plainEngine entered).run [.other (some (.branch [(nameX, .leaf 2)])), .quarantineLocal true october [nameX],
      quietPrune 0 october] entered = some after ∧
    ¬ InBin after.disk 0 ∧ after.putBack = entered.putBack := by
  have hbase : find (autumn.bucketDir october ++ [nameX]) crowded = none := (find_crowded nameX).trans child_numbered_nameX
  have hkinds : ∀ place ∈ (autumn.bucketDir october ++ [nameX]).dropLast.inits,
      kind (find place crowded) = .branch := by decide +kernel
  have hclear : ClearWay crowded (autumn.bucketDir october ++ [nameX]) := by
    intro place hplace file hfile
    have hkind := hkinds place ((mem_inits _ _).mpr hplace)
    rw [hfile] at hkind
    exact nomatch hkind
  have hin : InTree [nameX] := by decide
  rcases @quarantineLocal_cases _ crowded [nameX] autumn (plainSpelling Nat) october true hin fun _ =>
    Or.inl (Option.isNone_iff_eq_none.mpr hbase) with ⟨-, hnone⟩ | ⟨-, hblocked⟩ | ⟨item, last, filed, hitem, hresult, hentered⟩
  · exact nomatch hnone
  · exact absurd hclear hblocked
  have hleaf : item = .leaf 0 := (Option.some.inj hitem).symm
  subst hleaf
  have hdest := (quarantineLocal_ok hin hresult).2
  have hunique : uniqueQuarantineDest crowded (autumn.bucketDir october ++ [nameX]) = autumn.bucketDir october ++ [nameX] := by
    unfold uniqueQuarantineDest
    rw [if_pos (Option.isNone_iff_eq_none.mpr hbase)]
  rw [hunique] at hdest
  rw [hdest] at hentered
  have hstands : Stands filed 0 (autumn.bucketName october) [nameX] := hentered.whole
  have honly : ∀ top rest, Stands filed 0 top rest → quarantineDir :: top :: rest = autumn.bucketDir october ++ [nameX] := by
    intro top rest hfile
    rcases hentered.file _ _ hfile with ⟨below, hbelow⟩ | hbefore
    · have hfound := hfile
      unfold Stands at hfound
      rw [← hbelow, find_append, hentered.whole] at hfound
      match below with
      | [] => exact hbelow.symm.trans (append_nil _)
      | _ :: _ => exact nomatch hfound
    · exact absurd hbefore not_stands_crowded
  have hfull : ∀ n ∈ List.range' 1 99999, find (candidate (autumn.bucketDir october ++ [nameX]) n) filed ≠ none := by
    intro n hn
    have hbefore : find (candidate (autumn.bucketDir october ++ [nameX]) n) crowded ≠ none := child_numbered hn
    exact ne_none_of_kind (hentered.kept _ ⟨_, rfl⟩ hbefore) hbefore
  -- the second file of the name
  have haround : ∀ place, find (quarantineDir :: place) (around (some (.branch [(nameX, .leaf 2)])) filed) =
      find (quarantineDir :: place) filed := by
    intro place
    change find (bin ++ place) _ = find (bin ++ place) filed
    rw [find_append, find_append]
    exact congrArg _ (@find_put_self _ _ _ (find bin filed) (some (.branch [(nameX, .leaf 2)])) [] _ rfl)
  have hsecond : find [nameX] (around (some (.branch [(nameX, .leaf 2)])) filed) = some (.leaf 2) :=
    find_put_of_apart (by decide) (by decide)
  obtain ⟨hreplaced, hmarked⟩ := @quarantineLocal_replaces _ (around (some (.branch [(nameX, .leaf 2)])) filed) [nameX] october autumn
    (plainSpelling Nat) true (autumn.bucketDir october ++ [nameX]) 0 2 hin rfl hsecond ((haround _).trans hstands) (by
      rintro (hfree | ⟨n, hn, hfree⟩)
      · rw [Option.isNone_iff_eq_none] at hfree
        exact nomatch hfree.symm.trans ((haround _).trans hstands)
      · exact hfull n hn ((haround _).symm.trans (Option.isNone_iff_eq_none.mp hfree)))
  have hmarker : find marker filed ≠ none := ne_none_of_kind (hentered.kept marker ⟨_, rfl⟩ (by exact nofun)) nofun
  have hpruned := @pruneBin_stopped _ _ october autumn (some ⟨id, fun _ => .refl _, fun _ => false⟩) (fun _ => ⟨none, false, false⟩)
    true (hmarked ((haround _).trans_ne hmarker))
  generalize hreplacing : (quarantineLocal autumn (plainSpelling Nat) true october [nameX]
    (around (some (.branch [(nameX, .leaf 2)])) filed)).2 = replaced at hreplaced hpruned
  refine ⟨⟨filed, october, none, []⟩, ⟨replaced, october, none, []⟩, ?_, ⟨_, _, hbase, hstands⟩, ?_, ?_, rfl⟩
  · have hfiled : (quarantineLocal autumn (plainSpelling Nat) true october [nameX] crowded).2 = filed := congrArg Prod.snd hresult
    rw [step_quarantineLocal true (Nat.zero_le _) hin]
    exact congrArg (fun disk => some (mk disk october none [])) hfiled
  · have hsecondBinned : step plainEngine ⟨around (some (.branch [(nameX, .leaf 2)])) filed, october, none, []⟩
        (.quarantineLocal true october [nameX]) = some ⟨replaced, october, none, []⟩ := by
      rw [step_quarantineLocal true le_rfl hin]
      exact congrArg (fun disk => some (mk disk october none [])) hreplacing
    have hthird : step plainEngine ⟨replaced, october, none, []⟩ (quietPrune 0 october) = some ⟨replaced, october, none, []⟩ :=
      congrArg (fun disk => some (mk disk october none [])) hpruned
    refine Option.bind_eq_some_iff.mpr ⟨_, rfl, Option.bind_eq_some_iff.mpr ⟨_, hsecondBinned, Option.bind_eq_some_iff.mpr
      ⟨_, hthird, rfl⟩⟩⟩
  rintro ⟨top, rest, hfile⟩
  rcases hreplaced _ 0 hfile with ⟨-, hzero⟩ | ⟨hplace, hbefore⟩
  · exact nomatch hzero
  · exact hplace (honly top rest ((haround _).symm.trans hbefore))

end World

end SyncEngine.Bin
