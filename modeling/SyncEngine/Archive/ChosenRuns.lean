import SyncEngine.Archive.Chosen
import SyncEngine.Archive.Segments

/-! # Runs of a partial extraction

Once the index was checked, choosing leaves what was noted as it is. A run over the entries
fails for the selection just where a file stands where a chosen base directory does.
-/

namespace SyncEngine.Archive.Codec

open Collections IndexEntry List

section Runs

variable {D : Type} [DecidableEq D] [Inhabited D] {u : Unicode} {digest : List Name → D}
  {entries : List IndexEntry} {selection : Selection} {chooser : Chooser D} {entry : IndexEntry}
  {walk after : Walk D} {path : Except PathRejection ArchivePath}

/-! ## Choosing -/

/-- What a chosen entry is extracted at: its path with the base's segments removed. -/
def landing (depth : Nat) (path : Except PathRejection ArchivePath) (isDir : Bool) :
    Except SelectionError (Option (Except PathRejection ArchivePath)) :=
  match path with
  | .error rejection => .ok (some (.error rejection))
  | .ok path =>
    if path.segments.length = depth then if isDir then .ok (some (.error .empty)) else .error .notHeld
    else
      match path.below depth with
      | none => .error .notHeld
      | some below => .ok (some (.ok below))

/-- A path with the segments of the one an entry is stored at. -/
def SameSegments (u : Unicode) (entry : IndexEntry) (path : Except PathRejection ArchivePath) : Prop :=
  path.map ArchivePath.segments = (entryPath u entry.stored).map ArchivePath.segments

theorem SameSegments.keys {path : ArchivePath} (h : SameSegments u entry (.ok path)) :
    entry.keys u = some (collisionKeys u path) := by
  unfold SameSegments at h
  cases hpath : entryPath u entry.stored with
  | error rejection =>
    rw [hpath] at h
    cases h
  | ok full =>
    rw [hpath] at h
    have hsegments : path.segments = full.segments := Except.ok.inj h
    rw [keys_of_path hpath]
    unfold collisionKeys
    rw [hsegments]

theorem SameSegments.keys_none {rejection : PathRejection} (h : SameSegments u entry (.error rejection)) :
    entry.keys u = none := by
  unfold SameSegments at h
  unfold IndexEntry.keys
  cases hpath : entryPath u entry.stored with
  | error _ => rfl
  | ok full =>
    rw [hpath] at h
    cases h

theorem sameSegments_found (u : Unicode) (entry : IndexEntry) : SameSegments u entry (entry.found u).path := by
  unfold SameSegments IndexEntry.found foundPath
  cases entryPath u entry.stored <;> rfl

theorem sameSegments_stored (u : Unicode) (entry : IndexEntry) : SameSegments u entry (entryPath u entry.stored) :=
  rfl

omit [DecidableEq D] [Inhabited D] in
theorem Noted.chosen (h : Noted u digest entries selection chooser) (ordinal : Nat) :
    chooser.chosen ordinal ↔ ordinal ∈ selection.ordinals := by
  unfold Chooser.chosen
  rw [decide_eq_true_iff, h.same]

section

variable (hinj : Function.Injective digest)
include hinj

section

variable (h : Noted u digest entries selection chooser)
include h

omit [Inhabited D] in
theorem Noted.chosen_or
    {keys : List Name} (hkeys : entry.keys u = some keys) :
    chooser.chosen entry.ordinal ∨ chooser.inChosenDir digest keys ↔
      Chosen u entries selection entry := by
  refine or_congr (h.chosen _) ((h.inChosenDir hinj keys).trans ?_)
  constructor
  · rintro ⟨dir, hdir, hchosen, hkind, above, habove, hprefix⟩
    exact ⟨dir, hdir, hchosen, hkind, above, keys, habove, hkeys, hprefix⟩
  rintro ⟨dir, hdir, hchosen, hkind, above, below, habove, hbelow, hprefix⟩
  rw [hkeys] at hbelow
  cases hbelow
  exact ⟨dir, hdir, hchosen, hkind, above, habove, hprefix⟩

theorem Noted.choose_of_not
    (hpath : SameSegments u entry path) (hnot : ¬Chosen u entries selection entry) (isDir : Bool) :
    chooser.choose u digest entry.ordinal path isDir = (.ok none, chooser) := by
  have hno : chooser.chosen entry.ordinal = false :=
    Bool.eq_false_iff.mpr fun hyes => hnot (Or.inl ((h.chosen _).mp hyes))
  unfold Chooser.choose
  rw [hno]
  cases path with
  | error rejection => rfl
  | ok path =>
    have hdir : chooser.inChosenDir digest (collisionKeys u path) = false :=
      Bool.eq_false_iff.mpr fun hyes => hnot ((h.chosen_or hinj hpath.keys).mp (Or.inr hyes))
    dsimp only
    rw [if_neg Bool.false_ne_true, hdir]
    rfl

theorem Noted.choose_of
    (hmem : entry ∈ entries) (hpath : SameSegments u entry path) (hchosen : Chosen u entries selection entry) :
    ∃ met, chooser.choose u digest entry.ordinal path entry.isDir =
      (landing selection.base.length path entry.isDir, { chooser with met := met }) := by
  have hdepth : chooser.base.length = selection.base.length := by rw [h.baseKeys, length_map]
  obtain ⟨met, hmet⟩ : ∃ met, (if chooser.chosen entry.ordinal then { chooser with met := chooser.met + 1 }
      else chooser) = { chooser with met := met } := by
    split
    · exact ⟨_, rfl⟩
    · exact ⟨chooser.met, rfl⟩
  refine ⟨met, ?_⟩
  unfold Chooser.choose
  dsimp only
  rw [hmet]
  cases path with
  | error rejection =>
    have hyes : chooser.chosen entry.ordinal := by
      rcases hchosen with hordinal | ⟨_, -, -, -, _, below, -, hbelow, -⟩
      · exact (h.chosen _).mpr hordinal
      rw [hpath.keys_none] at hbelow
      cases hbelow
    dsimp only
    rw [if_pos hyes]
    rfl
  | ok path =>
    have hkeys := hpath.keys
    have hbase : chooser.base <+: collisionKeys u path := by
      rw [h.baseKeys]
      exact h.chosen_below hmem hchosen hkeys
    have hin : chooser.chosen entry.ordinal ∨
        chooser.inChosenDir digest (collisionKeys u path) := (h.chosen_or hinj hkeys).mpr hchosen
    have htaken : (!chooser.chosen entry.ordinal && !chooser.inChosenDir digest (collisionKeys u path)) = false := by
      rcases hin with hyes | hyes <;> rw [hyes] <;> simp
    -- a directory that was chosen is noted already
    have hnoted : (chooser.chosen entry.ordinal && entry.isDir &&
        !chooser.inChosenDir digest (collisionKeys u path)) = false := by
      by_cases hdir : chooser.chosen entry.ordinal ∧ entry.isDir
      · have hyes : chooser.inChosenDir digest (collisionKeys u path) :=
          (h.inChosenDir hinj _).mpr ⟨entry, hmem, (h.chosen _).mp hdir.1, of_decide_eq_true hdir.2, _, hkeys,
            prefix_rfl⟩
        rw [hyes]
        simp
      rw [← Bool.and_eq_true, Bool.not_eq_true] at hdir
      rw [hdir]
      rfl
    have hbelow : ({ chooser with met := met } : Chooser D).belowBase u path = .ok (collisionKeys u path) := by
      exact if_pos <| isPrefixOf_iff_prefix.mpr hbase
    have hsame : ({ chooser with met := met } : Chooser D).inChosenDir digest (collisionKeys u path) =
        chooser.inChosenDir digest (collisionKeys u path) := rfl
    dsimp only
    rw [hsame, htaken, if_neg Bool.false_ne_true, hbelow]
    dsimp only
    rw [hnoted, if_neg Bool.false_ne_true]
    unfold landing
    dsimp only
    rw [length_collisionKeys, hdepth]
    by_cases hlength : path.segments.length = selection.base.length
    · rw [if_pos hlength, if_pos hlength]
      cases entry.isDir <;> rfl
    rw [if_neg hlength, if_neg hlength]
    cases path.below selection.base.length <;> rfl

end

end

/-! ## Judging -/

omit [Inhabited D] in
theorem below_error {folders : MacFolders D} {path : Except PathRejection ArchivePath} {created : Bool}
    {e : SelectionError} (h : (folders.below u digest path created).1 = .error e) : e = .tooLarge := by
  cases path with
  | error rejection => cases h
  | ok path =>
    unfold MacFolders.below at h
    dsimp only at h
    repeat' split at h
    all_goals cases h
    rfl

theorem macShape_file {found : Found} (h : found.kind = .file) : found.macShape ≠ some .inMacFolder := by
  unfold Found.macShape
  rw [h]
  cases found.path with
  | error rejection => exact nofun
  | ok path =>
    dsimp only
    split <;> exact nofun

variable (u digest) in
omit [Inhabited D] in
theorem judgePath_cases (found : Found) (path : Except PathRejection ArchivePath) (walk : Walk D) :
    (walk.judgePath u digest found path).2.mode = walk.mode ∧
      ((walk.judgePath u digest found path).1 = .error .tooLarge ∨
        ∃ verdict, (walk.judgePath u digest found path).1 = .ok verdict ∧ verdict ≠ .ignore ∧
          (∀ taken double, verdict = .take taken double → path = .ok taken) ∧
          (found.kind = .file → found.unreadable = none →
            ((∃ taken double, verdict = .take taken double) ↔ ∃ taken, path = .ok taken))) := by
  unfold Walk.judgePath
  cases hunreadable : found.unreadable with
  | some reason =>
    refine ⟨rfl, Or.inr ⟨_, rfl, Verdict.noConfusion, ?_, ?_⟩⟩
    · rintro _ _ ⟨⟩
    · rintro _ ⟨⟩
  | none =>
    cases path with
    | error rejection =>
      dsimp only
      by_cases hroot : (rejection = .empty && found.isDir)
      · rw [if_pos hroot]
        refine ⟨rfl, Or.inr ⟨_, rfl, Verdict.noConfusion, ?_, fun _ _ => ⟨?_, ?_⟩⟩⟩
        · rintro _ _ ⟨⟩
        · rintro ⟨_, _, ⟨⟩⟩
        · rintro ⟨_, ⟨⟩⟩
      rw [if_neg hroot]
      refine ⟨rfl, Or.inr ⟨_, rfl, Verdict.noConfusion, ?_, fun _ _ => ⟨?_, ?_⟩⟩⟩
      · rintro _ _ ⟨⟩
      · rintro ⟨_, _, ⟨⟩⟩
      · rintro ⟨_, ⟨⟩⟩
    | ok path =>
      generalize hnoted : (if walk.skipMacMetadata then walk.macFolders.below u digest found.path false
        else (Except.ok (), walk.macFolders)) = noted
      obtain ⟨noted, folders⟩ := noted
      cases noted with
      | error e =>
        refine ⟨rfl, Or.inl ?_⟩
        split at hnoted
        · rw [below_error (congrArg Prod.fst hnoted)]
        · cases hnoted
      | ok _ =>
        dsimp only
        by_cases hshape : (walk.skipMacMetadata && found.macShape = some .inMacFolder)
        · have hnotFile : found.kind ≠ .file := by
            intro hkind
            exact macShape_file hkind (of_decide_eq_true (Bool.and_eq_true_iff.mp hshape).2)
          rw [if_pos hshape]
          cases found.isDir with
          | true | false =>
            refine ⟨rfl, Or.inr ⟨_, rfl, Verdict.noConfusion, ?_, fun hkind => absurd hkind hnotFile⟩⟩
            rintro _ _ ⟨⟩
        rw [if_neg hshape]
        refine ⟨?_, Or.inr ⟨_, rfl, Verdict.noConfusion, ?_, fun _ _ => ⟨fun _ => ⟨_, rfl⟩, ?_⟩⟩⟩
        · split <;> rfl
        · rintro _ _ ⟨⟩
          rfl
        · exact fun _ => ⟨_, _, rfl⟩

/-- What a partial extraction does with an entry of the index it checked. -/
structure TakenAs (u : Unicode) (entries : List IndexEntry) (selection : Selection) (entry : IndexEntry)
    (verdict : Verdict) : Prop where
  chosen : verdict ≠ .ignore ↔ Chosen u entries selection entry
  /-- It lands at its path with the base's segments removed. -/
  lands : ∀ path appleDouble, verdict = .take path appleDouble → ∃ full, entryPath u entry.stored = .ok full ∧
    selection.base.map (collisionKey u) <+: collisionKeys u full ∧
    path.segments = full.segments.drop selection.base.length
  file : entry.kind = .file → entry.unreadable = none → ((∃ path appleDouble, verdict = .take path appleDouble) ↔
    Chosen u entries selection entry ∧ (entry.keys u).isSome)

/-- A walk whose chooser noted the directories chosen of an index. -/
def Choosing (u : Unicode) (digest : List Name → D) (entries : List IndexEntry) (selection : Selection)
    (walk : Walk D) : Prop :=
  ∃ chooser, walk.chooser = some chooser ∧ Noted u digest entries selection chooser

omit [DecidableEq D] [Inhabited D] in
theorem chooser_withChooser (h : walk.chooser = some chooser) (other : Chooser D) :
    (walk.withChooser other).chooser = some other := by
  obtain ⟨skip, mode, folders⟩ := walk
  cases mode with
  | extract chooser =>
    subst h
    rfl
  | list => cases h
  | download _ => rfl

omit [DecidableEq D] [Inhabited D] in
theorem Noted.met (h : Noted u digest entries selection chooser) (met : Nat) :
    Noted u digest entries selection { chooser with met := met } :=
  ⟨h.same, h.baseKeys, h.dirs, h.below, h.file⟩

omit [DecidableEq D] [Inhabited D] in
theorem Choosing.of_mode (h : Choosing u digest entries selection walk) (hmode : after.mode = walk.mode) :
    Choosing u digest entries selection after := by
  obtain ⟨chooser, hchooser, hnoted⟩ := h
  refine ⟨chooser, ?_, hnoted⟩
  unfold Walk.chooser at hchooser ⊢
  rw [hmode]
  exact hchooser

/-- Where the base holds only directories, if one of them was chosen. -/
def BaseHoldsDirs (u : Unicode) (entries : List IndexEntry) (selection : Selection) : Prop :=
  ∀ dir ∈ entries, dir.ordinal ∈ selection.ordinals → dir.kind = .dir →
    dir.keys u = some (selection.base.map (collisionKey u)) →
    ∀ entry ∈ entries, entry.keys u = some (selection.base.map (collisionKey u)) → entry.kind = .dir

instance (u : Unicode) (entries : List IndexEntry) (selection : Selection) :
    Decidable (BaseHoldsDirs u entries selection) :=
  inferInstanceAs (Decidable (∀ dir ∈ entries, _))

omit [DecidableEq D] [Inhabited D] in
theorem Noted.off_base (h : Noted u digest entries selection chooser) (hdirs : BaseHoldsDirs u entries selection)
    (hmem : entry ∈ entries) (hchosen : Chosen u entries selection entry) (hkind : entry.kind ≠ .dir)
    {keys : List Name} (hkeys : entry.keys u = some keys) : keys.length ≠ selection.base.length := by
  rcases hchosen with hordinal | ⟨dir, hdir, hordinal, hdirKind, above, below, habove, hbelow, hprefix⟩
  · exact h.file entry hmem hordinal hkind keys hkeys
  intro hlength
  rw [hkeys] at hbelow
  cases hbelow
  have hbase := h.below dir hdir hordinal above habove
  have hsame : selection.base.map (collisionKey u) = keys :=
    (hbase.trans hprefix).eq_of_length (by rw [length_map, hlength])
  have habove' : above = selection.base.map (collisionKey u) :=
    List.IsPrefix.eq_of_length (hsame ▸ hprefix) (le_antisymm
      (le_trans hprefix.length_le (by rw [hlength, length_map])) hbase.length_le)
  rw [habove'] at habove
  rw [← hsame] at hkeys
  exact hkind (hdirs dir hdir hordinal hdirKind habove entry hmem hkeys)

omit [DecidableEq D] [Inhabited D] in
theorem Noted.landing (h : Noted u digest entries selection chooser) (hdirs : BaseHoldsDirs u entries selection)
    (hmem : entry ∈ entries) (hpath : SameSegments u entry path) (hchosen : Chosen u entries selection entry) :
    ∃ landed, landing selection.base.length path entry.isDir = .ok (some landed) ∧
      (∀ below, landed = .ok below → ∃ full, entryPath u entry.stored = .ok full ∧
        selection.base.map (collisionKey u) <+: collisionKeys u full ∧
        below.segments = full.segments.drop selection.base.length) ∧
      (entry.kind ≠ .dir → ((∃ below, landed = .ok below) ↔ (entry.keys u).isSome)) := by
  unfold Codec.landing
  cases path with
  | error rejection =>
    refine ⟨.error rejection, rfl, ?_, fun _ => ⟨?_, fun hsome => ?_⟩⟩
    · rintro _ ⟨⟩
    · rintro ⟨_, ⟨⟩⟩
    rw [hpath.keys_none] at hsome
    cases hsome
  | ok path =>
    have hkeys := hpath.keys
    have hbase := h.chosen_below hmem hchosen hkeys
    have hle : selection.base.length ≤ path.segments.length := by
      have hlength := hbase.length_le
      rwa [length_map, length_collisionKeys] at hlength
    dsimp only
    by_cases hlength : path.segments.length = selection.base.length
    · have hdir : entry.kind = .dir := by
        by_contra hkind
        refine h.off_base hdirs hmem hchosen hkind hkeys ?_
        rw [length_collisionKeys, hlength]
      have hisDir : entry.isDir := decide_eq_true hdir
      rw [if_pos hlength, if_pos hisDir]
      refine ⟨.error .empty, rfl, ?_, fun hkind => absurd hdir hkind⟩
      rintro _ ⟨⟩
    rw [if_neg hlength]
    have hbelow : path.segments.drop selection.base.length ≠ [] := by
      intro hnil
      exact hlength (le_antisymm (drop_eq_nil_iff.mp hnil) hle)
    unfold ArchivePath.below
    rw [dif_neg hbelow]
    refine ⟨_, rfl, ?_, fun _ => ⟨fun _ => ?_, fun _ => ⟨_, rfl⟩⟩⟩
    · rintro _ ⟨⟩
      unfold SameSegments at hpath
      cases hfull : entryPath u entry.stored with
      | error rejection =>
        rw [hfull] at hpath
        cases hpath
      | ok full =>
        rw [hfull] at hpath
        have hsegments : path.segments = full.segments := Except.ok.inj hpath
        rw [keys_of_path hfull] at hkeys
        rw [← Option.some.inj hkeys] at hbase
        exact ⟨full, rfl, hbase, congrArg (List.drop _) hsegments⟩
    rw [hkeys]
    rfl

/-- A path judged is left out for the size of the folders of metadata only, or taken as it was chosen. -/
theorem Choosing.judge (hinj : Function.Injective digest) (hdirs : BaseHoldsDirs u entries selection)
    (h : Choosing u digest entries selection walk) (hmem : entry ∈ entries) :
    Choosing u digest entries selection (walk.judge u digest (entry.found u)).2 ∧
      ((walk.judge u digest (entry.found u)).1 = .error .tooLarge ∨
        ∃ verdict, (walk.judge u digest (entry.found u)).1 = .ok verdict ∧
          TakenAs u entries selection entry verdict) := by
  obtain ⟨chooser, hchooser, hnoted⟩ := h
  have hpath := sameSegments_found u entry
  unfold Walk.judge
  rw [hchooser]
  dsimp only
  have hordinal : (entry.found u).ordinal = entry.ordinal := rfl
  have hisDir : (entry.found u).isDir = entry.isDir := rfl
  rw [hordinal, hisDir]
  by_cases hchosen : Chosen u entries selection entry
  · obtain ⟨met, hmet⟩ := hnoted.choose_of hinj hmem hpath hchosen
    have hafter : Choosing u digest entries selection (walk.withChooser { chooser with met := met }) :=
      ⟨_, chooser_withChooser hchooser _, hnoted.met met⟩
    rw [hmet]
    obtain ⟨landed, hlanding, hlands, hsome⟩ := hnoted.landing hdirs hmem hpath hchosen
    rw [hlanding]
    obtain ⟨hmode, hjudged⟩ := judgePath_cases u digest (entry.found u) landed
      (walk.withChooser { chooser with met := met })
    refine ⟨hafter.of_mode hmode, hjudged.imp_right ?_⟩
    rintro ⟨verdict, hverdict, hkept, htake, hfile⟩
    refine ⟨verdict, hverdict, ⟨fun _ => hchosen, fun _ => hkept⟩, fun path double heq => ?_, fun hkind hreadable => ?_⟩
    · exact hlands path (htake path double heq)
    have hnotDir : entry.kind ≠ .dir := by
      rw [hkind]
      exact ArchiveEntryKind.noConfusion
    rw [hfile hkind hreadable, hsome hnotDir]
    exact (and_iff_right hchosen).symm
  rw [hnoted.choose_of_not hinj hpath hchosen]
  refine ⟨⟨chooser, chooser_withChooser hchooser chooser, hnoted⟩, Or.inr ⟨.ignore, rfl, ?_, ?_, ?_⟩⟩
  · exact ⟨fun hne => absurd rfl hne, fun hyes => absurd hyes hchosen⟩
  · rintro _ _ ⟨⟩
  refine fun _ _ => ⟨?_, fun hyes => absurd hyes.1 hchosen⟩
  rintro ⟨_, _, ⟨⟩⟩

variable (u digest) in
theorem takeEntry_cases (found : Found × Bool) (walk : Walk D) :
    (walk.takeEntry u digest found).1 = (walk.judge u digest found.1).1 ∧
      (walk.takeEntry u digest found).2.mode = (walk.judge u digest found.1).2.mode := by
  unfold Walk.takeEntry
  split
  · rename_i hjudge
    rw [hjudge]
    refine ⟨rfl, ?_⟩
    unfold Walk.takenAfterAll
    repeat' split
    all_goals rfl
  · exact ⟨rfl, rfl⟩

theorem Choosing.takeEntries (hinj : Function.Injective digest) (hdirs : BaseHoldsDirs u entries selection)
    {order : List (IndexEntry × Bool)} (h : Choosing u digest entries selection walk)
    (hmem : ∀ entry ∈ order, entry.1 ∈ entries) :
    walk.takeEntries u digest (order.map fun entry => (entry.1.found u, entry.2)) = .error .tooLarge ∨
      ∃ verdicts after, walk.takeEntries u digest (order.map fun entry => (entry.1.found u, entry.2)) =
          .ok (verdicts, after) ∧
        List.Forall₂ (fun entry => TakenAs u entries selection entry.1) order verdicts ∧
        Choosing u digest entries selection after := by
  induction order generalizing walk with
  | nil => exact Or.inr ⟨[], walk, rfl, .nil, h⟩
  | cons entry order ih =>
    obtain ⟨hfirst, hrest⟩ := forall_mem_cons.mp hmem
    obtain ⟨hnext, hjudged⟩ := h.judge hinj hdirs hfirst
    obtain ⟨hsame, hmode⟩ := takeEntry_cases u digest (entry.1.found u, entry.2) walk
    rw [map_cons]
    unfold Walk.takeEntries
    cases htake : walk.takeEntry u digest (entry.1.found u, entry.2) with
    | mk judged mid =>
      rw [htake] at hsame hmode
      dsimp only at hsame hmode
      rcases hjudged with herror | ⟨verdict, hverdict, htaken⟩
      · rw [hsame, herror]
        exact Or.inl rfl
      rw [hsame, hverdict]
      dsimp only
      rcases ih (hnext.of_mode hmode) hrest with herror | ⟨verdicts, after, hdone, hall, hafter⟩
      · rw [herror]
        exact Or.inl rfl
      rw [hdone]
      exact Or.inr ⟨verdict :: verdicts, after, rfl, .cons htaken hall, hafter⟩

omit [Inhabited D] in
theorem Choosing.takes (hinj : Function.Injective digest) (h : Choosing u digest entries selection walk)
    (entry : IndexEntry) :
    walk.takes u digest entry.ordinal entry.stored ↔ Chosen u entries selection entry := by
  obtain ⟨chooser, hchooser, hnoted⟩ := h
  unfold Walk.takes
  rw [hchooser]
  exact hnoted.takes hinj entry

instance (above below : Option (List Name)) :
    Decidable (∃ x y, above = some x ∧ below = some y ∧ x <+: y) :=
  match above, below with
  | some x, some y => decidable_of_iff (x <+: y) ⟨fun h => ⟨x, y, rfl, rfl, h⟩, by
      rintro ⟨_, _, heq, heq', h⟩
      rw [Option.some.inj heq, Option.some.inj heq']
      exact h⟩
  | none, _ => isFalse fun ⟨_, _, h, _⟩ => nomatch h
  | some _, none => isFalse fun ⟨_, _, _, h, _⟩ => nomatch h

instance (u : Unicode) (entries : List IndexEntry) (selection : Selection) (entry : IndexEntry) :
    Decidable (Chosen u entries selection entry) :=
  inferInstanceAs (Decidable (_ ∨ ∃ dir ∈ entries, _))

def IndexEntry.counted (entry : IndexEntry) : Nat × Name × Nat := (entry.ordinal, entry.stored, entry.size)

def chosenBytes (u : Unicode) (entries : List IndexEntry) (selection : Selection) (files : List IndexEntry) : Nat :=
  ((files.filter fun file => decide (Chosen u entries selection file ∧ (file.keys u).isSome)).map
    size).sum

theorem Noted.countFile (hinj : Function.Injective digest) (h : Noted u digest entries selection chooser)
    (hdirs : BaseHoldsDirs u entries selection) (hmem : entry ∈ entries) (hkind : entry.kind ≠ .dir) (total : Nat) :
    ∃ met, Walk.countFile u digest (some chooser, total) entry.counted =
      (some { chooser with met := met },
        if Chosen u entries selection entry ∧ (entry.keys u).isSome then min Walk.u64Max (total + entry.size)
        else total) := by
  have hpath := sameSegments_stored u entry
  have hisDir : entry.isDir = false := decide_eq_false hkind
  unfold Walk.countFile IndexEntry.counted
  dsimp only
  by_cases hchosen : Chosen u entries selection entry
  · obtain ⟨met, hmet⟩ := h.choose_of hinj hmem hpath hchosen
    obtain ⟨landed, hlanding, -, hsome⟩ := h.landing hdirs hmem hpath hchosen
    rw [hlanding, hisDir] at hmet
    rw [hmet]
    refine ⟨met, Prod.ext rfl ?_⟩
    cases landed with
    | error rejection =>
      rw [if_neg Bool.false_ne_true, if_neg]
      rintro ⟨-, hyes⟩
      obtain ⟨_, hok⟩ := (hsome hkind).mpr hyes
      cases hok
    | ok below => rw [if_pos rfl, if_pos ⟨hchosen, (hsome hkind).mp ⟨below, rfl⟩⟩]
  rw [h.choose_of_not hinj hpath hchosen]
  refine ⟨chooser.met, Prod.ext rfl ?_⟩
  rw [if_neg Bool.false_ne_true, if_neg fun hyes => hchosen hyes.1]

theorem Noted.countFiles (hinj : Function.Injective digest) (hdirs : BaseHoldsDirs u entries selection)
    {files : List IndexEntry} (h : Noted u digest entries selection chooser)
    (hmem : ∀ file ∈ files, file ∈ entries ∧ file.kind ≠ .dir) {total : Nat} (htotal : total ≤ Walk.u64Max) :
    ((files.map counted).foldl (Walk.countFile u digest) (some chooser, total)).2 =
      min Walk.u64Max (total + chosenBytes u entries selection files) := by
  induction files generalizing chooser total with
  | nil => exact (min_eq_right htotal).symm
  | cons file files ih =>
    obtain ⟨hfirst, hrest⟩ := forall_mem_cons.mp hmem
    obtain ⟨met, hcount⟩ := h.countFile hinj hdirs hfirst.1 hfirst.2 total
    rw [map_cons, foldl_cons, hcount]
    unfold chosenBytes
    rw [filter_cons]
    by_cases htaken : Chosen u entries selection file ∧ (file.keys u).isSome
    · rw [if_pos htaken, if_pos (decide_eq_true htaken), map_cons, sum_cons,
        ih (h.met met) hrest (min_le_left _ _)]
      unfold chosenBytes
      omega
    rw [if_neg htaken, if_neg fun hyes => htaken (of_decide_eq_true hyes), ih (h.met met) hrest htotal]
    rfl

/-! ## What a partial extraction takes -/

/-- A partial extraction takes what was chosen, and nothing about the selection fails it later. -/
structure TakesChosen (u : Unicode) (digest : List Name → D) (entries : List IndexEntry) (selection : Selection)
    (walk : Walk D) : Prop where
  /-- In any order, and whatever the first bytes of files say. -/
  judged : ∀ order : List (IndexEntry × Bool), (order.map Prod.fst).Perm entries →
    match walk.takeEntries u digest (order.map fun entry => (entry.1.found u, entry.2)) with
    | .error e => e = .tooLarge
    | .ok (verdicts, after) => List.Forall₂ (fun entry => TakenAs u entries selection entry.1) order verdicts ∧
        ∀ entry ∈ entries,
          (after.takes u digest entry.ordinal entry.stored = true ↔ Chosen u entries selection entry)
  takes : ∀ entry ∈ entries, walk.takes u digest entry.ordinal entry.stored = true ↔ Chosen u entries selection entry
  /-- Added as the code adds them, up to the greatest number there is. -/
  bytes : ∀ files : List IndexEntry, (∀ file ∈ files, file ∈ entries ∧ file.kind = .file ∧ file.unreadable = none) →
    walk.extractedBytes u digest (files.map counted) =
      min Walk.u64Max (chosenBytes u entries selection files)

theorem choosing_of_check {task : Task} {skip : Bool} {max : Nat} (hselection : task.selection = some selection)
    (hcheck : (Walk.new u task skip max : Walk D).checkSelection u digest (entries.map checked) = .ok walk) :
    Choosing u digest entries selection walk := by
  have hchooser : (Walk.new u task skip max : Walk D).chooser = some (Chooser.new u selection) := by
    cases task with
    | extract chosen =>
      have heq : chosen = some selection := hselection
      rw [heq]
      rfl
    | list => cases hselection
    | download chosen =>
      cases hselection
      rfl
  unfold Walk.checkSelection at hcheck
  rw [hchooser] at hcheck
  dsimp only at hcheck
  split at hcheck
  · cases hcheck
  rename_i found chooser hchecked
  have hall := checkEntries_ok hchecked
  split at hcheck
  · cases hcheck
  cases hcheck
  refine ⟨chooser, chooser_withChooser hchooser chooser, hall.selection, hall.base, fun x => ?_, hall.below, ?_⟩
  · rw [hall.dirs]
    exact or_iff_right (Finset.notMem_empty x)
  intro entry hmem hchosen hkind keys hkeys hlength
  refine hall.file entry hmem hchosen hkind keys hkeys (hlength.trans ?_)
  exact (length_map _).symm

theorem Choosing.fails_at_base (hinj : Function.Injective digest) (h : Choosing u digest entries selection walk)
    (hmem : entry ∈ entries) (hchosen : Chosen u entries selection entry) (hkind : entry.kind ≠ .dir)
    (hkeys : entry.keys u = some (selection.base.map (collisionKey u))) (double : Bool) (rest : List (Found × Bool)) :
    walk.takeEntries u digest ((entry.found u, double) :: rest) = .error .notHeld := by
  obtain ⟨chooser, hchooser, hnoted⟩ := h
  have hpath := sameSegments_found u entry
  obtain ⟨met, hmet⟩ := hnoted.choose_of hinj hmem hpath hchosen
  have hisDir : entry.isDir = false := decide_eq_false hkind
  have hlanding : Codec.landing selection.base.length (entry.found u).path entry.isDir = .error .notHeld := by
    unfold Codec.landing
    cases hfound : (entry.found u).path with
    | error rejection =>
      rw [hfound] at hpath
      rw [hpath.keys_none] at hkeys
      cases hkeys
    | ok path =>
      rw [hfound] at hpath
      rw [hpath.keys] at hkeys
      have hlength := congrArg List.length (Option.some.inj hkeys)
      rw [length_collisionKeys, length_map] at hlength
      dsimp only
      rw [if_pos hlength, hisDir]
      rfl
  have hjudge : (walk.judge u digest (entry.found u)).1 = .error .notHeld := by
    unfold Walk.judge
    rw [hchooser]
    dsimp only
    have hordinal : (entry.found u).ordinal = entry.ordinal := rfl
    have hsame : (entry.found u).isDir = entry.isDir := rfl
    rw [hordinal, hsame, hmet, hlanding]
  have htake := (takeEntry_cases u digest (entry.found u, double) walk).1
  unfold Walk.takeEntries
  cases hone : walk.takeEntry u digest (entry.found u, double) with
  | mk judged mid =>
    rw [hone] at htake
    dsimp only at htake
    rw [htake, hjudge]

/-- A partial extraction that passed its check takes what was chosen, just where a chosen base has
no file stored in its place. -/
theorem chosen_taken_iff {task : Task} {skip : Bool} {max : Nat} (hinj : Function.Injective digest)
    (hselection : task.selection = some selection)
    (hcheck : (Walk.new u task skip max : Walk D).checkSelection u digest (entries.map checked) = .ok walk) :
    TakesChosen u digest entries selection walk ↔ BaseHoldsDirs u entries selection := by
  have hchoosing := choosing_of_check hselection hcheck
  constructor
  · intro h dir hdir hordinal hdirKind hdirKeys entry hmem hkeys
    by_contra hkind
    have hchosen : Chosen u entries selection entry :=
      Or.inr ⟨dir, hdir, hordinal, hdirKind, _, _, hdirKeys, hkeys, prefix_rfl⟩
    obtain ⟨before, rest, hsplit⟩ := append_of_mem hmem
    -- judged first, before the folders of metadata can be too many
    have hjudged := h.judged ((entry :: (before ++ rest)).map fun entry => (entry, false)) (by
      rw [map_map, hsplit]
      exact (List.Perm.of_eq (map_id _)).trans perm_middle.symm)
    rw [map_map, map_cons] at hjudged
    have hfails := hchoosing.fails_at_base hinj hmem hchosen hkind hkeys false
      ((before ++ rest).map ((fun entry => (entry.1.found u, entry.2)) ∘ fun entry => (entry, false)))
    have herror := hfails ▸ hjudged
    cases herror
  intro hdirs
  refine ⟨fun order hperm => ?_, fun entry _ => hchoosing.takes hinj entry, fun files hfiles => ?_⟩
  · have hmem : ∀ entry ∈ order, entry.1 ∈ entries :=
      fun entry hentry => hperm.mem_iff.mp (mem_map_of_mem hentry)
    rcases hchoosing.takeEntries hinj hdirs hmem with herror | ⟨verdicts, after, hdone, hall, hafter⟩
    · rw [herror]
    rw [hdone]
    exact ⟨hall, fun entry _ => hafter.takes hinj entry⟩
  obtain ⟨chooser, hchooser, hnoted⟩ := hchoosing
  unfold Walk.extractedBytes
  rw [hchooser, hnoted.countFiles hinj hdirs (fun file hfile => ⟨(hfiles file hfile).1, ?_⟩) (Nat.zero_le _),
    Nat.zero_add]
  rw [(hfiles file hfile).2.1]
  exact ArchiveEntryKind.noConfusion

end Runs

def plainEntry (ordinal : Nat) (stored : Name) (kind : ArchiveEntryKind) : IndexEntry where
  ordinal
  stored
  rewritten := false
  kind
  unreadable := none
  size := 1
  modified := none
  encrypted := false
  method := none

def docsChosen : Selection := ⟨[0], pairwise_singleton _ _, [⟨"docs".toList⟩]⟩

def docsEntries : List IndexEntry := [plainEntry 0 "docs/".toList .dir, plainEntry 1 "docs/a".toList .file]

/-- A directory and what is below it. -/
theorem chosen_taken_docs : ∃ walk : Walk (List Name),
    (Walk.new composedUnicode (.extract (some docsChosen)) true 10).checkSelection composedUnicode id
      (docsEntries.map checked) = .ok walk ∧
    TakesChosen composedUnicode id docsEntries docsChosen walk := by
  have hok : ((Walk.new composedUnicode (.extract (some docsChosen)) true 10 : Walk (List Name)).checkSelection
      composedUnicode id (docsEntries.map checked)).toBool := by
    decide +kernel
  have hdirs : BaseHoldsDirs composedUnicode docsEntries docsChosen := by
    decide +kernel
  cases hcheck : (Walk.new composedUnicode (.extract (some docsChosen)) true 10 : Walk (List Name)).checkSelection
      composedUnicode id (docsEntries.map checked) with
  | error e =>
    rw [hcheck] at hok
    cases hok
  | ok walk => exact ⟨walk, rfl, (chosen_taken_iff Function.injective_id rfl hcheck).mpr hdirs⟩

def cappedEntries : List IndexEntry := [plainEntry 0 "docs/".toList .dir, plainEntry 1 "DOCS".toList .file]

/-- The check passes it, and the run fails once it gets there. -/
theorem chosen_base_refused : ∃ walk : Walk (List Name),
    (Walk.new composedUnicode (.extract (some docsChosen)) true 10).checkSelection composedUnicode id
      (cappedEntries.map checked) = .ok walk ∧
    ¬TakesChosen composedUnicode id cappedEntries docsChosen walk := by
  have hok : ((Walk.new composedUnicode (.extract (some docsChosen)) true 10 : Walk (List Name)).checkSelection
      composedUnicode id (cappedEntries.map checked)).toBool := by
    decide +kernel
  have hkeys : (plainEntry 1 "DOCS".toList .file).keys composedUnicode =
      some (docsChosen.base.map (collisionKey composedUnicode)) := by
    decide +kernel
  have hchosen : Chosen composedUnicode cappedEntries docsChosen (plainEntry 1 "DOCS".toList .file) := by
    decide +kernel
  cases hcheck : (Walk.new composedUnicode (.extract (some docsChosen)) true 10 : Walk (List Name)).checkSelection
      composedUnicode id (cappedEntries.map checked) with
  | error e =>
    rw [hcheck] at hok
    cases hok
  | ok walk =>
    refine ⟨walk, rfl, fun h => ?_⟩
    have hjudged := h.judged (cappedEntries.reverse.map fun entry => (entry, false)) (by
      rw [map_map]
      exact (List.Perm.of_eq (map_id _)).trans (reverse_perm _))
    have hfails := (choosing_of_check rfl hcheck).fails_at_base Function.injective_id
      (mem_cons_of_mem _ mem_cons_self) hchosen ArchiveEntryKind.noConfusion hkeys false
      [((plainEntry 0 "docs/".toList .dir).found composedUnicode, false)]
    have herror := hfails ▸ hjudged
    cases herror

end SyncEngine.Archive.Codec
