import SyncEngine.Archive.Entries

/-! # A partial extraction takes what was chosen

An index is checked before its entries are judged, with the directories chosen noted. What
is chosen is then told by an entry's ordinal and path alone, in whatever order they come.
-/

namespace SyncEngine.Archive.Codec

open Collections List

structure IndexEntry where
  ordinal : Nat
  stored : Name
  /-- Whether its reader had to change the name to read it. -/
  rewritten : Bool
  kind : ArchiveEntryKind
  unreadable : Option ExtractSkipReason
  size : Nat
  modified : Option Nat
  encrypted : Bool
  method : Option Name

namespace IndexEntry

variable (u : Unicode)

def isDir (entry : IndexEntry) : Bool := decide (entry.kind = .dir)

def found (entry : IndexEntry) : Found where
  ordinal := entry.ordinal
  stored := entry.stored
  path := foundPath u entry.stored entry.rewritten
  kind := entry.kind
  unreadable := entry.unreadable
  size := entry.size
  modified := entry.modified
  encrypted := entry.encrypted
  method := entry.method

def checked (entry : IndexEntry) : Nat × Name × Bool := (entry.ordinal, entry.stored, entry.isDir)

def keys (entry : IndexEntry) : Option (List Name) := (entryPath u entry.stored).toOption.map (collisionKeys u)

end IndexEntry

def Task.selection : Task → Option Selection
  | .extract selection => selection
  | .list => none
  | .download selection => some selection

section Digests

variable {D : Type} {digest : List Name → D} {keys : List Name} {u : Unicode} {path : ArchivePath}

theorem mem_prefixDigests {x : D} : x ∈ prefixDigests digest keys ↔ ∃ above, above ≠ [] ∧ above <+: keys ∧ x = digest above := by
  unfold prefixDigests
  rw [mem_map]
  constructor
  · rintro ⟨i, hi, rfl⟩
    refine ⟨keys.take (i + 1), fun hnil => ?_, take_prefix _ _, rfl⟩
    have hlt := mem_range.mp hi
    rcases take_eq_nil_iff.mp hnil with hzero | hempty
    · cases hzero
    rw [hempty] at hlt
    cases hlt
  rintro ⟨above, hne, hprefix, rfl⟩
  have hlength := hprefix.length_le
  have hpos := length_pos_iff.mpr hne
  refine ⟨above.length - 1, mem_range.mpr (by omega), ?_⟩
  rw [Nat.sub_add_cancel hpos, ← prefix_iff_eq_take.mp hprefix]

theorem pathDigest_eq [Inhabited D] (hne : keys ≠ []) : pathDigest digest keys = digest keys := by
  have hpos := length_pos_iff.mpr hne
  obtain ⟨n, hn⟩ : ∃ n, keys.length = n + 1 := ⟨keys.length - 1, (Nat.sub_add_cancel hpos).symm⟩
  unfold pathDigest prefixDigests
  rw [hn, range_succ, map_append, map_singleton, getLast?_concat, Option.getD_some, ← hn,
    take_length]

theorem collisionKeys_ne_nil (path : ArchivePath) : collisionKeys u path ≠ [] := fun h =>
  path.nonempty (map_eq_nil_iff.mp h)

theorem length_collisionKeys (path : ArchivePath) : (collisionKeys u path).length = path.segments.length :=
  length_map _

theorem belowBase_ok {chooser : Chooser D} (h : chooser.belowBase u path = .ok keys) :
    keys = collisionKeys u path ∧ chooser.base <+: keys := by
  unfold Chooser.belowBase at h
  dsimp only at h
  split at h
  · rename_i hprefix
    cases h
    exact ⟨rfl, isPrefixOf_iff_prefix.mp hprefix⟩
  · cases h

end Digests

section Chosen

variable {D : Type} [DecidableEq D] [Inhabited D] {u : Unicode} {digest : List Name → D}
  {entries : List IndexEntry} {selection : Selection} {chooser after : Chooser D} {entry : IndexEntry}
  {walk : Walk D}

theorem keys_of_path {path : ArchivePath} (h : entryPath u entry.stored = .ok path) :
    entry.keys u = some (collisionKeys u path) := by
  unfold IndexEntry.keys
  rw [h]
  rfl

theorem keys_ne_nil {keys : List Name} (h : entry.keys u = some keys) : keys ≠ [] := by
  obtain ⟨path, -, rfl⟩ := Option.map_eq_some_iff.mp h
  exact collisionKeys_ne_nil path

/-- An entry was chosen, or is at or below a directory that was. -/
def Chosen (u : Unicode) (entries : List IndexEntry) (selection : Selection) (entry : IndexEntry) : Prop :=
  entry.ordinal ∈ selection.ordinals ∨
    ∃ dir ∈ entries, dir.ordinal ∈ selection.ordinals ∧ dir.kind = .dir ∧
      ∃ above below, dir.keys u = some above ∧ entry.keys u = some below ∧ above <+: below

/-! ## The check -/

/-- A chooser once some entries were checked. -/
structure Checked (u : Unicode) (digest : List Name → D) (entries : List IndexEntry) (before after : Chooser D) :
    Prop where
  selection : after.selection = before.selection
  base : after.base = before.base
  dirs : ∀ x, x ∈ after.dirs ↔ x ∈ before.dirs ∨ ∃ dir ∈ entries, dir.ordinal ∈ before.selection.ordinals ∧
    dir.kind = .dir ∧ ∃ keys, dir.keys u = some keys ∧ x = digest keys
  below : ∀ entry ∈ entries, entry.ordinal ∈ before.selection.ordinals → ∀ keys, entry.keys u = some keys →
    before.base <+: keys
  /-- No file that was chosen is where the base is. -/
  file : ∀ entry ∈ entries, entry.ordinal ∈ before.selection.ordinals → entry.kind ≠ .dir →
    ∀ keys, entry.keys u = some keys → keys.length ≠ before.base.length

theorem checkEntry_ok {downloading : Bool} {found : Nat} {s : Nat × Chooser D}
    (h : Walk.checkEntry u digest downloading entry.ordinal entry.stored entry.isDir (found, chooser) = .ok s) :
    Checked u digest [entry] chooser s.2 := by
  unfold Walk.checkEntry at h
  dsimp only at h
  by_cases hchosen : entry.ordinal ∈ chooser.selection.ordinals
  · have hyes : chooser.chosen entry.ordinal := decide_eq_true hchosen
    rw [if_pos hyes] at h
    split at h
    · cases h
    cases hpath : entryPath u entry.stored with
    | error rejection =>
      have hnone : entry.keys u = none := by
        unfold IndexEntry.keys
        rw [hpath]
        rfl
      rw [hpath] at h
      cases h
      refine ⟨rfl, rfl, fun x => ?_, fun other hother _ keys hkeys => ?_, fun other hother _ _ keys hkeys => ?_⟩
      · refine ⟨Or.inl, fun hor => hor.resolve_right ?_⟩
        rintro ⟨dir, hdir, -, -, keys, hkeys, -⟩
        rw [mem_singleton.mp hdir, hnone] at hkeys
        cases hkeys
      all_goals
        rw [mem_singleton.mp hother, hnone] at hkeys
        cases hkeys
    | ok path =>
      have hsome := keys_of_path hpath
      rw [hpath] at h
      dsimp only at h
      cases hbelow : chooser.belowBase u path with
      | error e =>
        rw [hbelow] at h
        cases h
      | ok keys =>
        rw [hbelow] at h
        dsimp only at h
        obtain ⟨rfl, hprefix⟩ := belowBase_ok hbelow
        have hbelowAll : ∀ other ∈ [entry], other.ordinal ∈ chooser.selection.ordinals →
            ∀ keys, other.keys u = some keys → chooser.base <+: keys := by
          intro other hother _ keys hkeys
          rw [mem_singleton.mp hother, hsome] at hkeys
          cases hkeys
          exact hprefix
        by_cases hdir : entry.kind = .dir
        · have hisDir : entry.isDir := decide_eq_true hdir
          rw [if_pos hisDir] at h
          cases h
          refine ⟨rfl, rfl, fun x => ?_, hbelowAll, fun other hother _ hnot => ?_⟩
          · rw [Finset.mem_insert, pathDigest_eq (collisionKeys_ne_nil path), or_comm]
            refine or_congr_right ⟨fun heq => ?_, ?_⟩
            · exact ⟨entry, mem_singleton_self _, hchosen, hdir, _, hsome, heq⟩
            rintro ⟨dir, hmem, -, -, keys, hkeys, heq⟩
            rw [mem_singleton.mp hmem, hsome] at hkeys
            cases hkeys
            exact heq
          rw [mem_singleton.mp hother] at hnot
          exact absurd hdir hnot
        have hisDir : ¬entry.isDir := fun hyes => hdir (of_decide_eq_true hyes)
        rw [if_neg hisDir] at h
        split at h
        · cases h
        rename_i hlength
        cases h
        refine ⟨rfl, rfl, fun x => ?_, hbelowAll, fun other hother _ _ keys hkeys => ?_⟩
        · refine ⟨Or.inl, fun hor => hor.resolve_right ?_⟩
          rintro ⟨dir, hmem, -, hkind, -⟩
          rw [mem_singleton.mp hmem] at hkind
          exact hdir hkind
        rw [mem_singleton.mp hother, hsome] at hkeys
        cases hkeys
        exact hlength
  have hno : ¬chooser.chosen entry.ordinal := fun hyes => hchosen (of_decide_eq_true hyes)
  rw [if_neg hno] at h
  cases h
  refine ⟨rfl, rfl, fun x => ?_, fun other hother hmem => ?_, fun other hother hmem => ?_⟩
  · refine ⟨Or.inl, fun hor => hor.resolve_right ?_⟩
    rintro ⟨dir, hdir, hmem, -⟩
    rw [mem_singleton.mp hdir] at hmem
    exact hchosen hmem
  all_goals
    rw [mem_singleton.mp hother] at hmem
    exact absurd hmem hchosen

omit [DecidableEq D] [Inhabited D] in
theorem Checked.cons {mid : Chooser D} (h : Checked u digest [entry] chooser mid)
    (hrest : Checked u digest entries mid after) : Checked u digest (entry :: entries) chooser after where
  selection := hrest.selection.trans h.selection
  base := hrest.base.trans h.base
  dirs x := by
    rw [hrest.dirs, h.dirs, h.selection, or_assoc]
    refine or_congr_right ?_
    constructor
    · rintro (⟨dir, hdir, hmem⟩ | ⟨dir, hdir, hmem⟩)
      · rw [mem_singleton.mp hdir] at hmem
        exact ⟨entry, mem_cons_self, hmem⟩
      · exact ⟨dir, mem_cons_of_mem _ hdir, hmem⟩
    rintro ⟨dir, hdir, hmem⟩
    rcases mem_cons.mp hdir with rfl | hdir
    · exact Or.inl ⟨dir, mem_singleton_self _, hmem⟩
    · exact Or.inr ⟨dir, hdir, hmem⟩
  below := by
    refine forall_mem_cons.mpr ⟨h.below entry (mem_singleton_self _), fun other hother hmem => ?_⟩
    rw [← h.base]
    exact hrest.below other hother (by rw [h.selection]; exact hmem)
  file := by
    refine forall_mem_cons.mpr ⟨h.file entry (mem_singleton_self _), fun other hother hmem => ?_⟩
    rw [← h.base]
    exact hrest.file other hother (by rw [h.selection]; exact hmem)

theorem checkEntries_ok {downloading : Bool} {s s' : Nat × Chooser D} (h : (entries.map IndexEntry.checked).foldlM
      (fun s entry => Walk.checkEntry u digest downloading entry.1 entry.2.1 entry.2.2 s) s = .ok s') :
    Checked u digest entries s.2 s'.2 := by
  induction entries generalizing s with
  | nil =>
    cases h
    refine ⟨rfl, rfl, fun x => ⟨Or.inl, fun hor => hor.resolve_right ?_⟩, (fun _ hnone => nomatch hnone),
      fun _ hnone => nomatch hnone⟩
    rintro ⟨_, hnone, -⟩
    cases hnone
  | cons entry entries ih =>
    rw [map_cons, foldlM_cons] at h
    cases hone : Walk.checkEntry u digest downloading entry.checked.1 entry.checked.2.1 entry.checked.2.2 s with
    | error e =>
      rw [hone] at h
      cases h
    | ok mid =>
      rw [hone] at h
      exact (checkEntry_ok hone).cons (ih h)

/-- A chooser that noted the directories chosen of an index, each chosen entry below the base. -/
structure Noted (u : Unicode) (digest : List Name → D) (entries : List IndexEntry) (selection : Selection)
    (chooser : Chooser D) : Prop where
  same : chooser.selection = selection
  baseKeys : chooser.base = selection.base.map (collisionKey u)
  dirs : ∀ x, x ∈ chooser.dirs ↔ ∃ dir ∈ entries, dir.ordinal ∈ selection.ordinals ∧ dir.kind = .dir ∧
    ∃ keys, dir.keys u = some keys ∧ x = digest keys
  below : ∀ entry ∈ entries, entry.ordinal ∈ selection.ordinals → ∀ keys, entry.keys u = some keys →
    selection.base.map (collisionKey u) <+: keys
  file : ∀ entry ∈ entries, entry.ordinal ∈ selection.ordinals → entry.kind ≠ .dir →
    ∀ keys, entry.keys u = some keys → keys.length ≠ selection.base.length

omit [Inhabited D] in
theorem Noted.inChosenDir (hinj : Function.Injective digest) (h : Noted u digest entries selection chooser)
    (keys : List Name) :
    chooser.inChosenDir digest keys ↔ ∃ dir ∈ entries, dir.ordinal ∈ selection.ordinals ∧ dir.kind = .dir ∧
      ∃ above, dir.keys u = some above ∧ above <+: keys := by
  unfold Chooser.inChosenDir
  rw [any_eq_true]
  constructor
  · rintro ⟨x, hx, hmem⟩
    obtain ⟨above, -, hprefix, rfl⟩ := mem_prefixDigests.mp hx
    obtain ⟨dir, hdir, hchosen, hkind, other, hother, heq⟩ := (h.dirs _).mp (of_decide_eq_true hmem)
    rw [← hinj heq] at hother
    exact ⟨dir, hdir, hchosen, hkind, above, hother, hprefix⟩
  rintro ⟨dir, hdir, hchosen, hkind, above, habove, hprefix⟩
  refine ⟨digest above, mem_prefixDigests.mpr ⟨above, keys_ne_nil habove, hprefix, rfl⟩, decide_eq_true ?_⟩
  exact (h.dirs _).mpr ⟨dir, hdir, hchosen, hkind, above, habove, rfl⟩

omit [Inhabited D] in
theorem Noted.takes (hinj : Function.Injective digest) (h : Noted u digest entries selection chooser)
    (entry : IndexEntry) :
    chooser.takes u digest entry.ordinal (entryPath u entry.stored) ↔ Chosen u entries selection entry := by
  unfold Chooser.takes Chosen
  rw [Bool.or_eq_true]
  have hfirst : chooser.chosen entry.ordinal ↔ entry.ordinal ∈ selection.ordinals := by
    unfold Chooser.chosen
    rw [decide_eq_true_iff, h.same]
  refine or_congr hfirst ?_
  cases hpath : entryPath u entry.stored with
  | error rejection =>
    refine ⟨nofun, ?_⟩
    rintro ⟨dir, -, -, -, above, below, -, hbelow, -⟩
    unfold IndexEntry.keys at hbelow
    rw [hpath] at hbelow
    cases hbelow
  | ok path =>
    rw [h.inChosenDir hinj, keys_of_path hpath]
    constructor
    · rintro ⟨dir, hdir, hchosen, hkind, above, habove, hprefix⟩
      exact ⟨dir, hdir, hchosen, hkind, above, _, habove, rfl, hprefix⟩
    rintro ⟨dir, hdir, hchosen, hkind, above, below, habove, hbelow, hprefix⟩
    cases hbelow
    exact ⟨dir, hdir, hchosen, hkind, above, habove, hprefix⟩

omit [DecidableEq D] [Inhabited D] in
theorem Noted.chosen_below (h : Noted u digest entries selection chooser) (hmem : entry ∈ entries)
    (hchosen : Chosen u entries selection entry) {keys : List Name} (hkeys : entry.keys u = some keys) :
    selection.base.map (collisionKey u) <+: keys := by
  rcases hchosen with hordinal | ⟨dir, hdir, hordinal, -, above, below, habove, hbelow, hprefix⟩
  · exact h.below entry hmem hordinal keys hkeys
  rw [hkeys] at hbelow
  cases hbelow
  exact (h.below dir hdir hordinal above habove).trans hprefix

end Chosen

end SyncEngine.Archive.Codec
