import Mathlib.Data.List.Infix
import SyncEngine.Bin.Disk

/-! # Binning an item

An item goes into the bin whole and nothing there gives way to it, exactly where its way there
is clear of files and one of the names tried for it is free.
-/

namespace SyncEngine.Bin

open Collections Tree List

variable {File : Type} {disk made : Disk File} {source dest base place rel : Place} {node item : Node File}

theorem not_prefix_of_inTree (h : InTree source) {rest : Place} : ¬ source <+: quarantineDir :: rest := by
  match source with
  | [] => exact fun _ => h
  | first :: _ => exact fun hfront => h (cons_prefix_cons.mp hfront).1

theorem not_prefix_inTree (h : InTree source) {rest : Place} : ¬ quarantineDir :: rest <+: source := by
  match source with
  | [] => exact fun _ => h
  | first :: _ => exact fun hfront => h (cons_prefix_cons.mp hfront).1.symm

theorem exists_of_bin_front (h : bin <+: place) : ∃ rest, place = quarantineDir :: rest := by
  obtain ⟨rest, rfl⟩ := h
  exact ⟨rest, rfl⟩

/-- One of the places tried for an item is free. -/
def HasRoom (disk : Disk File) (base : Place) : Prop :=
  (find base disk).isNone ∨ ∃ n ∈ List.range' 1 99999, (find (candidate base n) disk).isNone

/-- No file stands where an item needs a directory. -/
def ClearWay (disk : Disk File) (base : Place) : Prop :=
  ∀ place, place <+: base.dropLast → ∀ file, find place disk ≠ some (.leaf file)

theorem uniqueQuarantineDest_free_iff :
    find (uniqueQuarantineDest disk base) disk = none ↔ HasRoom disk base := by
  unfold uniqueQuarantineDest HasRoom
  by_cases hbase : (find base disk).isNone
  · rw [if_pos hbase]
    exact ⟨fun _ => Or.inl hbase, fun _ => Option.isNone_iff_eq_none.mp hbase⟩
  rw [if_neg hbase]
  cases hfound : (List.range' 1 99999).find? fun n => (find (candidate base n) disk).isNone with
  | none =>
    refine ⟨fun hfree => absurd (Option.isNone_iff_eq_none.mpr hfree) hbase, ?_⟩
    rintro (hfree | ⟨n, hn, hfree⟩)
    · exact absurd hfree hbase
    · exact absurd hfree (find?_eq_none.mp hfound n hn)
  | some n =>
    have hfree := find?_some hfound
    exact ⟨fun _ => Or.inr ⟨n, mem_of_find?_eq_some hfound, hfree⟩, fun _ => Option.isNone_iff_eq_none.mp hfree⟩

theorem uniqueQuarantineDest_dropLast (hbase : base ≠ []) :
    ∃ last, uniqueQuarantineDest disk base = base.dropLast ++ [last] := by
  have hself : ∃ last, base = base.dropLast ++ [last] := ⟨_, (dropLast_append_getLast hbase).symm⟩
  unfold uniqueQuarantineDest
  split
  · exact hself
  split
  · exact ⟨_, rfl⟩
  · exact hself

variable {above : Place}

theorem rename_of_free {last : OsName} (hsource : find source disk = some node)
    (hfree : find (above ++ [last]) disk = none) (habove : kind (find above disk) = .branch)
    (hapart : ¬ source <+: above ++ [last]) :
    rename source (above ++ [last]) disk = some (put (above ++ [last]) (some node) (put source none disk)) := by
  unfold rename
  have hne : above ++ [last] ≠ [] := append_ne_nil_of_right_ne_nil _ (cons_ne_nil _ _)
  have hbranch : isBranch (find (above ++ [last]).dropLast disk) := by
    rw [dropLast_concat]
    exact isBranch_iff.mpr habove
  rw [if_neg fun h => h.elim hapart fun h => h.elim hne fun h => h hbranch, hsource, hfree]

/-- What a rename did: the item stands where it went and not where it was, and everything that
stood elsewhere stays. -/
structure Renamed (disk : Disk File) (source : Place) (node : Node File) (dest : Place) (after : Disk File) : Prop where
  whole : find dest after = some node
  gone : find source after = none
  kept : ∀ place, ¬ source <+: place → ¬ dest <+: place → kind (find place after) = kind (find place disk)

theorem renamed_of_free {last : OsName}
    (habove : kind (find above disk) = .branch) (hapart : ¬ source <+: above ++ [last])
    (hapart' : ¬ above ++ [last] <+: source) :
    Renamed disk source node (above ++ [last])
      (put (above ++ [last]) (some node) (put source none disk)) where
  whole := by
    refine find_put_self ?_
    rw [kind_find_put fun h => hapart (h.trans (prefix_append _ _))]
    exact habove
  gone := by
    rw [find_put_of_apart hapart' hapart]
    exact find_put_none
  kept place hoff hoff' := by
    rw [kind_find_put hoff', kind_find_put hoff]

theorem kind_markDated (hstands : find place disk ≠ none) :
    kind (find place (markDated disk)) = kind (find place disk) := by
  unfold markDated
  split
  · rfl
  rename_i hmarker
  refine kind_find_put fun hbelow => hstands ?_
  obtain ⟨rest, rfl⟩ := hbelow
  rw [find_append, Option.not_isSome_iff_eq_none.mp hmarker, find_none]

theorem find_markDated (hoff : ¬ marker <+: place) (hoff' : ¬ place <+: marker) :
    find place (markDated disk) = find place disk := by
  unfold markDated
  split
  · rfl
  · exact find_put_of_apart hoff hoff'

theorem file_of_markDated {file : File} (h : find place (markDated disk) = some (.leaf file)) :
    find place disk = some (.leaf file) := by
  unfold markDated at h
  split at h
  · exact h
  rename_i hmarker
  by_cases hbelow : marker <+: place
  · obtain ⟨rest, rfl⟩ := hbelow
    by_cases hbranch : kind (find bin disk) = .branch
    · rw [find_append, show marker = bin ++ [datedMarker] from rfl, find_put_self hbranch] at h
      match rest with
      | [] =>
        rw [find_nil] at h
        exact nomatch h
      | _ :: rest =>
        have hbelow : find rest (none : Disk File) = some (.leaf file) := h
        rw [find_none] at hbelow
        exact nomatch hbelow
    exact nomatch (find_append_of_kind (append_ne_nil_of_left_ne_nil (cons_ne_nil datedMarker []) rest)
      (fun hkind => hbranch ((kind_find_put (by decide)).symm.trans hkind))).symm.trans h
  rw [← kind_eq_leaf, kind_find_put hbelow, kind_eq_leaf] at h
  exact h

/-- A bin with the directories an item needs in it. -/
structure Prepared (disk ready : Disk File) (above : Place) : Prop where
  branch : kind (find above ready) = .branch
  kept : ∀ place, find place disk ≠ none → kind (find place ready) = kind (find place disk)
  off : ∀ place, ¬ place <+: above → ¬ marker <+: place → ¬ place <+: marker → find place ready = find place disk
  file : ∀ place file, find place ready = some (.leaf file) → find place disk = some (.leaf file)

theorem prepared_of_made {made : Node File} (h : makeBranches above disk = some made) (marking : Bool) :
    Prepared disk (if marking then markDated (some made) else some made) above := by
  have hbranch := kind_find_makeBranches h (prefix_refl above)
  have hstands : ∀ {place}, find place disk ≠ none → find place (some made) ≠ none := by
    intro place hplace hnone
    have hkind := kind_makeBranches h hplace
    rw [hnone] at hkind
    exact hplace (kind_eq_nothing.mp hkind.symm)
  have hfile : ∀ {place file}, find place (some made) = some (.leaf file) → find place disk = some (.leaf file) := by
    intro place file hleaf
    by_cases hon : place <+: above
    · have hkind := kind_find_makeBranches h hon
      rw [hleaf] at hkind
      exact nomatch hkind
    · exact (find_makeBranches_of_off h hon).symm.trans hleaf
  cases marking with
  | false =>
    exact ⟨hbranch, fun _ => kind_makeBranches h, fun _ hoff _ _ => find_makeBranches_of_off h hoff,
      fun _ _ => hfile⟩
  | true =>
    refine ⟨?_, fun place hplace => ?_, fun place hoff hmarker hmarker' => ?_, fun _ _ hleaf => hfile (file_of_markDated hleaf)⟩
    · refine (kind_markDated ?_).trans hbranch
      intro hnone
      rw [hnone] at hbranch
      exact nomatch hbranch
    · exact (kind_markDated (hstands hplace)).trans (kind_makeBranches h hplace)
    · exact (find_markDated hmarker hmarker').trans (find_makeBranches_of_off h hoff)

/-! ## Binning -/

variable {calendar : Calendar} {spelling : Spelling File} {marks : Bool} {day : Day}

theorem Calendar.parseBucket_eq_some {name : OsName} : calendar.parseBucket name = some day ↔ name = calendar.bucketName day := by
  unfold Calendar.parseBucket
  constructor
  · intro h
    obtain ⟨text, htext, hfilter⟩ := Option.bind_eq_some_iff.mp h
    obtain ⟨hparse, hformat⟩ := Option.filter_eq_some_iff.mp hfilter
    match name with
    | .text _ =>
      cases htext
      exact congrArg OsName.text (of_decide_eq_true hformat).symm
    | .raw _ => exact nomatch htext
  rintro rfl
  change (calendar.parse (calendar.format day)).filter _ = _
  rw [calendar.parse_format, Option.filter_some, if_pos (decide_eq_true rfl)]

theorem second_eq {α : Type} {a b c d : α} {l l' : List α} (h : a :: b :: l <+: c :: d :: l') : b = d :=
  (cons_prefix_cons.mp (cons_prefix_cons.mp h).2).1

theorem bucketName_ne_marker : calendar.bucketName day ≠ datedMarker := by
  intro h
  have hname : calendar.format day = markerName := OsName.text.inj h
  have hparse := calendar.parse_format day
  rw [hname, calendar.parse_marker] at hparse
  exact nomatch hparse

/-- An item went into the bin whole, and nothing that was there was replaced or moved. -/
structure Filed (disk : Disk File) (source : Place) (item : Node File) (dest : Place) (after : Disk File) : Prop where
  free : find dest disk = none
  inBin : bin <+: dest
  whole : find dest after = some item
  gone : find source after = none
  kept : ∀ place, bin <+: place → find place disk ≠ none →
    kind (find place after) = kind (find place disk)

/-- What else binning leaves: no other file appears, and only a new bin is marked. -/
structure Entered (disk : Disk File) (source : Place) (item : Node File) (dest : Place) (after : Disk File) : Prop
    extends Filed disk source item dest after where
  file : ∀ place file, find place after = some (.leaf file) → dest <+: place ∨ find place disk = some (.leaf file)
  marker : find bin disk ≠ none → kind (find marker after) = kind (find marker disk)

theorem entered_of_rename {ready : Disk File} {last : OsName} (hsource : InTree source)
    (hitem : find source disk = some item) (hready : Prepared disk ready (quarantineDir :: calendar.bucketName day :: above))
    (hfree : find (quarantineDir :: calendar.bucketName day :: above ++ [last]) disk = none)
    (hmarker : find bin disk ≠ none → find marker ready = find marker disk) :
    ∃ after, rename source (quarantineDir :: calendar.bucketName day :: above ++ [last]) ready = some after ∧
      Entered disk source item (quarantineDir :: calendar.bucketName day :: above ++ [last]) after := by
  have hmarked : ∀ {rest : Place}, ¬ marker <+: quarantineDir :: calendar.bucketName day :: rest := fun hfront =>
    bucketName_ne_marker (second_eq hfront).symm
  have hmarked' : ∀ {rest : Place}, ¬ quarantineDir :: calendar.bucketName day :: rest <+: marker := fun hfront =>
    bucketName_ne_marker (second_eq hfront)
  have hitem' : find source ready = some item :=
    (hready.off source (not_prefix_of_inTree hsource) (not_prefix_inTree hsource) (not_prefix_of_inTree hsource)).trans hitem
  have hlonger : ¬ quarantineDir :: calendar.bucketName day :: above ++ [last] <+: quarantineDir :: calendar.bucketName day :: above := by
    intro hfront
    have hlength := hfront.length_le
    rw [length_append] at hlength
    exact Nat.not_succ_le_self _ hlength
  have hfree' : find (quarantineDir :: calendar.bucketName day :: above ++ [last]) ready = none :=
    (hready.off _ hlonger hmarked hmarked').trans hfree
  have hrenamed := @renamed_of_free _ ready source item (quarantineDir :: calendar.bucketName day :: above) last hready.branch
    (not_prefix_of_inTree hsource) (not_prefix_inTree hsource)
  refine ⟨_, rename_of_free hitem' hfree' hready.branch (not_prefix_of_inTree hsource), ⟨hfree, ?_, hrenamed.whole,
    hrenamed.gone, fun place hbin hstands => ?_⟩, fun place file hleaf => ?_, fun hbin => ?_⟩
  · exact cons_prefix_cons.mpr ⟨rfl, nil_prefix⟩
  · obtain ⟨rest, rfl⟩ := exists_of_bin_front hbin
    refine (hrenamed.kept _ (not_prefix_of_inTree hsource) fun hbelow => hstands ?_).trans (hready.kept _ hstands)
    obtain ⟨below, hbelow⟩ := hbelow
    rw [← hbelow, find_append, hfree, find_none]
  · by_cases hbelow : quarantineDir :: calendar.bucketName day :: above ++ [last] <+: place
    · exact Or.inl hbelow
    refine Or.inr (hready.file place file ?_)
    by_cases hunder : source <+: place
    · obtain ⟨rest, rfl⟩ := hunder
      rw [find_append, hrenamed.gone, find_none] at hleaf
      exact nomatch hleaf
    rw [← kind_eq_leaf, ← hrenamed.kept place hunder hbelow, kind_eq_leaf]
    exact hleaf
  · rw [hrenamed.kept marker (not_prefix_of_inTree hsource) hmarked', hmarker hbin]

/-- What binning does: there is nothing to move, a file is in the way, or the item goes to the
place found for it. -/
theorem quarantineLocal_cases (marks : Bool) (hrel : InTree rel)
    (hroom : find (spelling.onDisk disk rel) disk ≠ none → HasRoom disk (calendar.bucketDir day ++ rel)) :
    quarantineLocal calendar spelling marks day rel disk = (.ok none, disk) ∧ find (spelling.onDisk disk rel) disk = none ∨
    quarantineLocal calendar spelling marks day rel disk = (.error (), disk) ∧ ¬ ClearWay disk (calendar.bucketDir day ++ rel) ∨
    ∃ item last after, find (spelling.onDisk disk rel) disk = some item ∧
      quarantineLocal calendar spelling marks day rel disk =
        (.ok (some (quarantineDir :: calendar.bucketName day :: rel.dropLast ++ [last])), after) ∧
      Entered disk (spelling.onDisk disk rel) item (quarantineDir :: calendar.bucketName day :: rel.dropLast ++ [last]) after := by
  have hsource := spelling.onDisk_inTree disk rel hrel
  unfold quarantineLocal
  dsimp only
  cases hitem : find (spelling.onDisk disk rel) disk with
  | none => exact Or.inl ⟨rfl, rfl⟩
  | some item =>
    right
    have hne : rel ≠ [] := by
      rintro rfl
      exact hrel
    have hbase : (calendar.bucketDir day ++ rel).dropLast = quarantineDir :: calendar.bucketName day :: rel.dropLast := by
      rw [dropLast_append_of_ne_nil hne]
      rfl
    obtain ⟨last, hdest⟩ := @uniqueQuarantineDest_dropLast _ disk (calendar.bucketDir day ++ rel)
      (append_ne_nil_of_right_ne_nil _ hne)
    have hfree := uniqueQuarantineDest_free_iff.mpr (hroom (hitem ▸ Option.some_ne_none item))
    rw [hbase] at hdest
    rw [hdest] at hfree ⊢
    rw [show (some item).isNone = false from rfl, if_neg Bool.false_ne_true, dropLast_concat]
    cases hmade : makeBranches (quarantineDir :: calendar.bucketName day :: rel.dropLast) disk with
    | none =>
      refine Or.inl ⟨rfl, fun hclear => ?_⟩
      obtain ⟨place, hplace, file, hfile⟩ := makeBranches_eq_none_iff.mp hmade
      exact hclear place (hbase ▸ hplace) file hfile
    | some made =>
      have hready := prepared_of_made hmade ((find bin disk).isNone && marks)
      obtain ⟨after, hrename, hentered⟩ := entered_of_rename hsource hitem hready hfree fun hbin => by
        have hold : (find bin disk).isNone = false := by
          cases hb : find bin disk with
          | none => exact absurd hb hbin
          | some _ => rfl
        rw [hold, Bool.false_and, if_neg Bool.false_ne_true]
        exact find_makeBranches_of_off hmade fun hfront =>
          bucketName_ne_marker (second_eq hfront).symm
      refine Or.inr ⟨item, last, after, rfl, ?_, hentered⟩
      dsimp only
      rw [hrename]

theorem quarantineLocal_ok {after : Disk File} (hrel : InTree rel)
    (h : quarantineLocal calendar spelling marks day rel disk = (.ok (some dest), after)) :
    ClearWay disk (calendar.bucketDir day ++ rel) ∧ dest = uniqueQuarantineDest disk (calendar.bucketDir day ++ rel) := by
  have hne : rel ≠ [] := by
    rintro rfl
    exact hrel
  obtain ⟨last, hdest⟩ := @uniqueQuarantineDest_dropLast _ disk (calendar.bucketDir day ++ rel)
    (append_ne_nil_of_right_ne_nil _ hne)
  unfold quarantineLocal at h
  dsimp only at h
  split at h
  · exact nomatch h
  split at h
  · exact nomatch h
  rename_i hmade
  split at h
  · obtain ⟨hresult, -⟩ := Prod.mk.inj h
    refine ⟨fun place hplace file hfile => ?_, (Option.some.inj (Except.ok.inj hresult)).symm⟩
    have hnone := makeBranches_eq_none_iff.mpr ⟨place, hplace, file, hfile⟩
    rw [hdest, dropLast_concat] at hmade
    exact nomatch hnone.symm.trans hmade
  · exact nomatch h

/-- Binning an item files it, and replaces and moves nothing in the bin, exactly where no file
stands where it needs a directory and one of the places tried for it is free. -/
theorem quarantineLocal_files_iff (calendar : Calendar) (spelling : Spelling File) (marks : Bool) (day : Day)
    {disk : Disk File} {rel : Place} {item : Node File} (hrel : InTree rel)
    (hitem : find (spelling.onDisk disk rel) disk = some item) :
    (∃ dest after, quarantineLocal calendar spelling marks day rel disk = (.ok (some dest), after) ∧
      Filed disk (spelling.onDisk disk rel) item dest after) ↔
    ClearWay disk (calendar.bucketDir day ++ rel) ∧ HasRoom disk (calendar.bucketDir day ++ rel) := by
  constructor
  · rintro ⟨dest, after, hresult, hfiled⟩
    obtain ⟨hclear, rfl⟩ := quarantineLocal_ok hrel hresult
    exact ⟨hclear, uniqueQuarantineDest_free_iff.mp hfiled.free⟩
  rintro ⟨hclear, hroom⟩
  rcases quarantineLocal_cases marks hrel fun _ => hroom with ⟨-, hnone⟩ | ⟨-, hblocked⟩ | ⟨found, last, after, hfound, hresult, hentered⟩
  · exact nomatch hnone.symm.trans hitem
  · exact absurd hclear hblocked
  cases hfound.symm.trans hitem
  exact ⟨_, after, hresult, hentered.toFiled⟩

/-! ## A day's bin -/

def october : Day := 96486044

/-- A calendar as far as two days thirty apart are written; other days are their number. -/
def autumn : Calendar where
  format day :=
    if day = october then "2026-10-26".toList
    else if day = october + 30 then "2026-11-25".toList
    else Nat.toDigits 10 day
  parse name :=
    if name = "2026-10-26".toList then some october
    else if name = "2026-11-25".toList then some (october + 30)
    else if Nat.toDigits 10 (Nat.ofDigitChars 10 name 0) = name then some (Nat.ofDigitChars 10 name 0)
    else none
  parse_format day := by
    have hdash : ∀ {name : Name}, '-' ∈ name → Nat.toDigits 10 day ≠ name := by
      rintro name hmem rfl
      exact absurd (Nat.isDigit_of_mem_toDigits (by decide) (by decide) hmem) (by decide)
    by_cases hfirst : day = october
    · rw [if_pos hfirst, if_pos rfl, hfirst]
    by_cases hlast : day = october + 30
    · rw [if_neg hfirst, if_pos hlast, if_neg (by decide +kernel), if_pos rfl, hlast]
    rw [if_neg hfirst, if_neg hlast, if_neg (hdash (by decide +kernel)), if_neg (hdash (by decide +kernel)),
      Nat.ofDigitChars_toDigits (by decide) (by decide), if_pos rfl]
  parse_marker := by decide +kernel

def plainSpelling (File : Type) : Spelling File where
  onDisk _ rel := rel
  confined _ rel := if InTree rel then some rel else none
  onDisk_inTree _ _ h := h
  confined_inTree _ rel target h htarget := by
    rw [if_pos h] at htarget
    cases htarget
    exact h

def nameA : OsName := .text ['a']

def nameB : OsName := .text ['b']

def nested : Disk Nat := some (.branch [(nameA, .branch [(nameB, .leaf 1)])])

theorem quarantineLocal_files_nested :
    ∃ dest after, quarantineLocal autumn (plainSpelling Nat) true october [nameA, nameB] nested = (.ok (some dest), after) ∧
      Filed nested [nameA, nameB] (.leaf 1) dest after := by
  refine (quarantineLocal_files_iff autumn (plainSpelling Nat) true october (by decide) rfl).mpr
    ⟨fun place hplace file hfile => ?_, Or.inl (by decide +kernel)⟩
  have hnothing : ∀ place ∈ (autumn.bucketDir october ++ [nameA, nameB]).dropLast.inits,
      kind (find place nested) = .nothing ∨ kind (find place nested) = .branch := by decide +kernel
  rcases hnothing place ((mem_inits _ _).mpr hplace) with hkind | hkind
  all_goals
    rw [hfile] at hkind
    exact nomatch hkind

/-- Names without Unicode, a pair rooted at a directory, and files that are their content. -/
def plainEngine : Engine Nat Nat where
  calendar := autumn
  spelling := plainSpelling Nat
  scope := ⟨id, asciiFold, false, 0, .directory⟩
  content file := ⟨file, file⟩

def lone : World Nat := .new (some (.branch [(nameA, .leaf 0)]))

/-- A file is binned, and a directory takes its name. -/
def fileThenDirectory : List (Move Nat Nat) :=
  [.quarantineLocal true october [nameA], .other nested]

theorem quarantineLocal_wedges : ∃ world,
    (World.machine plainEngine lone).run fileThenDirectory lone = some world ∧
    kind (find [nameA, nameB] world.disk) = .leaf 1 ∧
    (quarantineLocal autumn (plainSpelling Nat) true october [nameA, nameB] world.disk).1.toOption = none := by
  have houtcome : ((World.machine plainEngine lone).run fileThenDirectory lone).map
      (fun world => (kind (find [nameA, nameB] world.disk),
        (quarantineLocal autumn (plainSpelling Nat) true october [nameA, nameB] world.disk).1.toOption)) =
      some (.leaf 1, none) := by decide +kernel
  obtain ⟨world, hrun, houtcome⟩ := Option.map_eq_some_iff.mp houtcome
  obtain ⟨hitem, hfailed⟩ := Prod.mk.inj houtcome
  exact ⟨world, hrun, hitem, hfailed⟩

end SyncEngine.Bin
