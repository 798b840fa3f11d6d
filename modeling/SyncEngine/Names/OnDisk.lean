import Mathlib.Data.Char
import Mathlib.Data.List.Forall2

/-! # Where a key's entry sits on disk

Keys are NFC, names on disk need not be, and the file system compares names byte for byte.
A path is kept split at its slashes, below the root. A link that leads to a directory or a
file is what it leads to, and the normal forms are the Unicode library's.
-/

namespace SyncEngine.OnDisk

open List

abbrev Text := List Char

abbrev RelPath := List Text

def isAscii (name : Text) : Bool := name.all fun c => c.toNat < 128

structure Forms where
  nfc : Text → Text
  nfd : Text → Text
  isNfc : Text → Bool
  nfc_nfc : ∀ name, nfc (nfc name) = nfc name
  nfc_nfd : ∀ name, nfc (nfd name) = nfc name
  isNfc_iff : ∀ name, isNfc name = true ↔ nfc name = name
  nfc_ascii : ∀ name, isAscii name = true → nfc name = name

inductive ErrorKind where
  | notFound
  | notADirectory
  | other
  deriving DecidableEq

inductive Kind where
  | dir
  | file
  /-- A link that cannot be followed, and what a stat of it says. -/
  | broken (error : ErrorKind)
  deriving DecidableEq

/-- What a file system holds under a root, with its directories' entries as they are listed. -/
structure Tree where
  kindAt : RelPath → Option Kind
  listing : RelPath → List Text
  root : kindAt [] = some .dir
  mem_listing : ∀ dir name, name ∈ listing dir ↔ (kindAt (dir ++ [name])).isSome = true
  nodup_listing : ∀ dir, (listing dir).Nodup
  parent_dir : ∀ dir name, (kindAt (dir ++ [name])).isSome = true → kindAt dir = some .dir
  /-- A name and a path no longer than the system takes. -/
  fitsName : Text → Bool
  fitsPath : RelPath → Bool
  fits : ∀ dir name, (kindAt (dir ++ [name])).isSome = true → fitsName name = true ∧ fitsPath (dir ++ [name]) = true

namespace Tree

def exists_ (tree : Tree) (path : RelPath) : Bool := (tree.kindAt path).isSome

def readDir (tree : Tree) (dir : RelPath) : Option (List Text) :=
  if tree.kindAt dir = some .dir then some (tree.listing dir) else none

/-- A stat from a directory on, component by component. -/
def resolve (tree : Tree) (done : RelPath) : RelPath → Except ErrorKind Kind
  | [] =>
    match tree.kindAt done with
    | none => .error .notFound
    | some (.broken error) => .error error
    | some kind => .ok kind
  | name :: rest =>
    match tree.kindAt done with
    | none => .error .notFound
    | some (.broken error) => .error error
    | some .file => .error .notADirectory
    | some .dir => if tree.fitsName name = false then .error .other else tree.resolve (done ++ [name]) rest

def metadata (tree : Tree) (path : RelPath) : Except ErrorKind Kind :=
  if tree.fitsPath path = false then .error .other else tree.resolve [] path

end Tree

/-- The listings kept, by directory and then by key, `some none` where two entries share one. -/
structure Listings where
  dirs : RelPath → Option (Text → Option (Option Text))

def Listings.empty : Listings := ⟨fun _ => none⟩

inductive Leaf where
  | existing
  | target
  deriving DecidableEq

section Lookup

variable (forms : Forms) (tree : Tree)

def normalizeRelPath (path : RelPath) : RelPath :=
  path.map fun name => bif forms.isNfc name then name else forms.nfc name

/-- A directory's entries whose name is not NFC, by key. -/
def listRespelled (dir : RelPath) (key : Text) : Option (Option Text) :=
  match ((tree.readDir dir).getD []).filter fun name =>
    !(isAscii name || forms.isNfc name) && decide (forms.nfc name = key) with
  | [] => none
  | [name] => some (some name)
  | _ => some none

/-- How a directory's listing spells a component, listing it on the first question. -/
def Listings.spelling (listings : Listings) (dir : RelPath) (component : Text) : Option Text × Listings :=
  let table := (listings.dirs dir).getD (listRespelled forms tree dir)
  ((table component).join, ⟨Function.update listings.dirs dir (some table)⟩)

/-- How a directory spells a component under another spelling than the key's. -/
def otherSpellingIn (dir : RelPath) (component : Text) (list : Bool) (listings : Option Listings) :
    Option Text × Option Listings :=
  if isAscii component then (none, listings)
  else if forms.nfd component ≠ component ∧ tree.exists_ (dir ++ [forms.nfd component]) = true then
    (some (forms.nfd component), listings)
  else if list = false then (none, listings)
  else
    match listings with
    | some listings => ((listings.spelling forms tree dir component).1, some (listings.spelling forms tree dir component).2)
    | none =>
      match ((tree.readDir dir).getD []).filter fun name => decide (forms.nfc name = component) with
      | [name] => (some name, none)
      | _ => (none, none)

/-- Look for each component below a directory, until one is not found. -/
def respellFrom (listLeaf : Bool) (path : RelPath) : RelPath → Option Listings → RelPath × Option Listings
  | [], listings => (path, listings)
  | component :: rest, listings =>
    if tree.exists_ (path ++ [component]) then respellFrom listLeaf (path ++ [component]) rest listings
    else
      match otherSpellingIn forms tree path component (listLeaf || !rest.isEmpty) listings with
      | (some spelling, listings) => respellFrom listLeaf (path ++ [spelling]) rest listings
      | (none, listings) => (path ++ component :: rest, listings)

/-- Look for a path that is not there as spelled, in its parent as spelled first. -/
def respelledMissing (relPath : RelPath) (leaf : Leaf) (listings : Option Listings) : RelPath × Option Listings :=
  match relPath.getLast? with
  | some name =>
    if relPath.dropLast ≠ [] ∧ tree.exists_ relPath.dropLast = true then
      let (spelling, listings) := otherSpellingIn forms tree relPath.dropLast name (leaf = .existing) listings
      (relPath.dropLast ++ [spelling.getD name], listings)
    else respellFrom forms tree (leaf = .existing) [] relPath listings
  | none => respellFrom forms tree (leaf = .existing) [] relPath listings

def respelled (relPath : RelPath) (leaf : Leaf) : RelPath :=
  if tree.exists_ relPath then relPath else (respelledMissing forms tree relPath leaf none).1

/-- Where the entry a key names sits, its directories' spellings looked for. -/
def onDisk (relPath : RelPath) (leaf : Leaf) : RelPath :=
  if relPath.all isAscii then relPath else respelled forms tree relPath leaf

/-- The same with what a stat says, for an entry that may be gone. -/
def statOnDisk (relPath : RelPath) (listings : Listings) : (RelPath × Except ErrorKind Kind) × Option Listings :=
  if relPath.all isAscii = true ∨ tree.metadata relPath ≠ .error .notFound then
    ((relPath, tree.metadata relPath), some listings)
  else
    let (found, listings) := respelledMissing forms tree relPath .existing (some listings)
    if found = relPath then ((relPath, tree.metadata relPath), listings)
    else ((found, tree.metadata found), listings)

inductive Built : Listings → Prop
  | empty : Built .empty
  | asked {listings after : Listings} (relPath : RelPath) : Built listings →
      (statOnDisk forms tree relPath listings).2 = some after → Built after

end Lookup

/-- An entry of the tree. -/
def Tree.Holds (tree : Tree) (path : RelPath) : Prop := path ≠ [] ∧ tree.exists_ path = true

/-- No two entries of one directory have the same normal form. -/
def Tree.Apart (forms : Forms) (tree : Tree) : Prop :=
  ∀ dir a b, tree.exists_ (dir ++ [a]) = true → tree.exists_ (dir ++ [b]) = true → forms.nfc a = forms.nfc b → a = b

/-- An entry's key leads back to it. -/
def Reaches (forms : Forms) (tree : Tree) (entry : RelPath) : Prop :=
  onDisk forms tree (normalizeRelPath forms entry) .existing = entry ∧
  ∀ listings, Built forms tree listings →
    (statOnDisk forms tree (normalizeRelPath forms entry) listings).1 = (entry, tree.metadata entry)

/-! ## Spellings of a key -/

section Spellings

variable {forms : Forms} {tree : Tree} {dir path entry : RelPath} {component name key : Text} {list : Bool}
  {listings : Option Listings}

/-- A name another spelling of a component can be. An ASCII component has no other. -/
def Spells (forms : Forms) (component name : Text) : Prop :=
  forms.nfc name = forms.nfc component ∧ (isAscii component = true → name = component)

theorem spells_self (forms : Forms) (component : Text) : Spells forms component component := ⟨rfl, fun _ => rfl⟩

theorem spells_forall (forms : Forms) (path : RelPath) : List.Forall₂ (Spells forms) path path :=
  List.forall₂_same.mpr fun component _ => spells_self forms component

theorem map_of_spells {a b : RelPath} (h : List.Forall₂ (Spells forms) a b) : b.map forms.nfc = a.map forms.nfc := by
  induction h with
  | nil => rfl
  | cons h _ ih => exact congrArg₂ List.cons h.1 ih

/-- The listings kept say what listing the directory again would. -/
def Kept (forms : Forms) (tree : Tree) (listings : Option Listings) : Prop :=
  ∀ kept, listings = some kept → ∀ dir table, kept.dirs dir = some table → table = listRespelled forms tree dir

theorem kept_none : Kept forms tree none := fun _ h => nomatch h

theorem Kept.spelling {listings : Listings} (h : Kept forms tree (some listings)) (dir : RelPath) (component : Text) :
    (listings.spelling forms tree dir component).1 = (listRespelled forms tree dir component).join ∧
    Kept forms tree (some (listings.spelling forms tree dir component).2) := by
  have htable : (listings.dirs dir).getD (listRespelled forms tree dir) = listRespelled forms tree dir := by
    cases hdir : listings.dirs dir with
    | none => rfl
    | some table => exact h listings rfl dir table hdir
  unfold Listings.spelling
  rw [htable]
  refine ⟨rfl, fun kept hkept other table hother => ?_⟩
  cases hkept
  dsimp only at hother
  rcases eq_or_ne other dir with rfl | hne
  · rw [Function.update_self] at hother
    exact (Option.some.inj hother).symm
  rw [Function.update_of_ne hne] at hother
  exact h listings rfl other table hother

theorem listRespelled_found (h : (listRespelled forms tree dir key).join = some name) : forms.nfc name = key := by
  unfold listRespelled at h
  split at h
  · exact nomatch h
  · rename_i found hfound
    cases h
    have hmem := mem_filter.mp (hfound ▸ mem_singleton_self name)
    exact of_decide_eq_true (Bool.and_eq_true_iff.mp hmem.2).2
  · exact nomatch h

theorem Kept.other (h : Kept forms tree listings) (dir : RelPath) (component : Text) (list : Bool) :
    (∀ name, (otherSpellingIn forms tree dir component list listings).1 = some name → Spells forms component name) ∧
    Kept forms tree (otherSpellingIn forms tree dir component list listings).2 := by
  unfold otherSpellingIn
  split
  · exact ⟨nofun, h⟩
  rename_i hascii
  have hspells : ∀ {name}, forms.nfc name = forms.nfc component → Spells forms component name :=
    fun hnfc => ⟨hnfc, fun h => absurd h hascii⟩
  have hfound : ∀ {name}, forms.nfc name = component → Spells forms component name := by
    intro name hname
    refine hspells ?_
    rw [← hname, forms.nfc_nfc]
  split
  · refine ⟨fun name hname => ?_, h⟩
    cases hname
    exact hspells (forms.nfc_nfd component)
  split
  · exact ⟨nofun, h⟩
  split
  · rw [(h.spelling dir component).1]
    exact ⟨fun name hname => hfound (listRespelled_found hname), (h.spelling dir component).2⟩
  split
  · rename_i found hone
    refine ⟨fun name hname => ?_, h⟩
    cases hname
    have hmem := mem_filter.mp (hone ▸ mem_singleton_self found)
    exact hfound (of_decide_eq_true hmem.2)
  · exact ⟨nofun, h⟩

theorem Kept.respellFrom (listLeaf : Bool) (components path : RelPath) (h : Kept forms tree listings) :
    (∃ names, (respellFrom forms tree listLeaf path components listings).1 = path ++ names ∧
      List.Forall₂ (Spells forms) components names) ∧
    Kept forms tree (respellFrom forms tree listLeaf path components listings).2 := by
  induction components generalizing path listings with
  | nil => exact ⟨⟨[], (append_nil _).symm, .nil⟩, h⟩
  | cons component rest ih =>
    have hnext : ∀ {name listings}, Spells forms component name → Kept forms tree listings →
        (∃ names, (OnDisk.respellFrom forms tree listLeaf (path ++ [name]) rest listings).1 = path ++ names ∧
          List.Forall₂ (Spells forms) (component :: rest) names) ∧
        Kept forms tree (OnDisk.respellFrom forms tree listLeaf (path ++ [name]) rest listings).2 := by
      intro name listings hname hkept
      obtain ⟨⟨names, hfound, hspells⟩, hafter⟩ := ih (path ++ [name]) hkept
      exact ⟨⟨name :: names, hfound.trans (append_assoc ..), .cons hname hspells⟩, hafter⟩
    unfold OnDisk.respellFrom
    split
    · exact hnext (spells_self forms component) h
    obtain ⟨hfound, hkept⟩ := h.other path component (listLeaf || !rest.isEmpty)
    rcases hother : otherSpellingIn forms tree path component (listLeaf || !rest.isEmpty) listings with ⟨_ | name, after⟩
    · rw [hother] at hkept
      exact ⟨⟨component :: rest, rfl, spells_forall forms _⟩, hkept⟩
    rw [hother] at hkept hfound
    exact hnext (hfound name rfl) hkept

theorem Kept.respelledMissing (h : Kept forms tree listings) (relPath : RelPath) (leaf : Leaf) :
    List.Forall₂ (Spells forms) relPath (respelledMissing forms tree relPath leaf listings).1 ∧
    Kept forms tree (respelledMissing forms tree relPath leaf listings).2 := by
  have hfrom : List.Forall₂ (Spells forms) relPath (OnDisk.respellFrom forms tree (leaf = .existing) [] relPath listings).1 ∧
      Kept forms tree (OnDisk.respellFrom forms tree (leaf = .existing) [] relPath listings).2 := by
    obtain ⟨⟨names, hfound, hspells⟩, hafter⟩ := h.respellFrom (leaf = .existing) relPath []
    rw [hfound]
    exact ⟨hspells, hafter⟩
  unfold OnDisk.respelledMissing
  split
  · rename_i name hname
    split
    · obtain ⟨hfound, hafter⟩ := h.other relPath.dropLast name (leaf = .existing)
      refine ⟨?_, hafter⟩
      have hspells : Spells forms name ((otherSpellingIn forms tree relPath.dropLast name (leaf = .existing) listings).1.getD name) := by
        cases hother : (otherSpellingIn forms tree relPath.dropLast name (leaf = .existing) listings).1 with
        | none => exact spells_self forms name
        | some found => exact hfound found hother
      have hall := rel_append (spells_forall forms relPath.dropLast) (.cons hspells .nil)
      dsimp only at hall ⊢
      rw [dropLast_append_getLast? name hname] at hall
      exact hall
    · exact hfrom
  · exact hfrom

theorem onDisk_spells (relPath : RelPath) (leaf : Leaf) : List.Forall₂ (Spells forms) relPath (onDisk forms tree relPath leaf) := by
  unfold onDisk respelled
  split
  · exact spells_forall forms relPath
  split
  · exact spells_forall forms relPath
  · exact (kept_none.respelledMissing relPath leaf).1

theorem Kept.statOnDisk {listings : Listings} (h : Kept forms tree (some listings)) (relPath : RelPath) :
    List.Forall₂ (Spells forms) relPath (statOnDisk forms tree relPath listings).1.1 ∧
    Kept forms tree (statOnDisk forms tree relPath listings).2 := by
  unfold OnDisk.statOnDisk
  split
  · exact ⟨spells_forall forms relPath, h⟩
  obtain ⟨hspells, hafter⟩ := h.respelledMissing relPath .existing
  dsimp only
  split
  · exact ⟨spells_forall forms relPath, hafter⟩
  · exact ⟨hspells, hafter⟩

theorem Built.kept {listings : Listings} (h : Built forms tree listings) : Kept forms tree (some listings) := by
  induction h with
  | empty =>
    intro kept hkept dir table htable
    cases hkept
    exact nomatch htable
  | asked relPath _ hafter ih => exact hafter ▸ (ih.statOnDisk relPath).2

end Spellings

/-! ## The entry a key names -/

section Entries

variable {forms : Forms} {tree : Tree} {dir path entry : RelPath} {component name : Text} {listings : Option Listings}

theorem normalizeRelPath_eq (path : RelPath) : normalizeRelPath forms path = path.map forms.nfc := by
  refine map_congr_left fun name _ => ?_
  cases h : forms.isNfc name with
  | false => rfl
  | true => exact ((forms.isNfc_iff name).mp h).symm

theorem exists_front (path : RelPath) {rest : RelPath} (h : tree.exists_ (path ++ rest)) : tree.exists_ path := by
  induction rest generalizing path with
  | nil => exact (append_nil path) ▸ h
  | cons name rest ih =>
    have hname := ih (path ++ [name]) ((append_assoc ..).symm ▸ h)
    unfold Tree.exists_
    rw [tree.parent_dir path name hname]
    rfl

theorem dir_of_exists {rest : RelPath} (h : tree.exists_ (path ++ name :: rest)) : tree.kindAt path = some .dir := by
  have hname : tree.exists_ ((path ++ [name]) ++ rest) := (append_assoc ..).symm ▸ h
  exact tree.parent_dir path name (exists_front _ hname)

theorem eq_of_exists (hapart : tree.Apart forms) {a b : RelPath} (path : RelPath) (h : a.map forms.nfc = b.map forms.nfc)
    (ha : tree.exists_ (path ++ a)) (hb : tree.exists_ (path ++ b)) : a = b := by
  induction a generalizing path b with
  | nil => exact (map_eq_nil_iff.mp h.symm).symm
  | cons x a ih =>
    cases b with
    | nil => exact nomatch h
    | cons y b =>
      obtain ⟨hxy, hrest⟩ := cons_eq_cons.mp h
      have ha' : tree.exists_ ((path ++ [x]) ++ a) := (append_assoc ..).symm ▸ ha
      have hb' : tree.exists_ ((path ++ [y]) ++ b) := (append_assoc ..).symm ▸ hb
      obtain rfl := hapart path x y (exists_front _ ha') (exists_front _ hb') hxy
      rw [ih (path ++ [x]) hrest ha' hb']

theorem map_nfc (path : RelPath) : (path.map forms.nfc).map forms.nfc = path.map forms.nfc := by
  rw [map_map]
  exact map_congr_left fun name _ => forms.nfc_nfc name

theorem filter_one {names : List Text} {picks : Text → Bool} (hnodup : names.Nodup) (hname : name ∈ names)
    (honly : ∀ other ∈ names, picks other → other = name) :
    names.filter picks = bif picks name then [name] else [] := by
  cases hpicks : picks name with
  | false =>
    refine filter_eq_nil_iff.mpr fun other hother h => ?_
    rw [honly other hother h, hpicks] at h
    exact nomatch h
  | true =>
    have hsame : names.filter picks = names.filter (· == name) := filter_congr fun other hother => by
      rw [Bool.eq_iff_iff, beq_iff_eq]
      exact ⟨honly other hother, fun h => h ▸ hpicks⟩
    rw [hsame, filter_beq, hnodup.count, if_pos hname]
    rfl

/-- The directory an entry is in finds it under its key, unless the key is ASCII and the name is not. -/
theorem otherSpellingIn_reaches (hapart : tree.Apart forms) (hkept : Kept forms tree listings)
    (hname : tree.exists_ (dir ++ [name])) (hascii : isAscii (forms.nfc name) → forms.nfc name = name) :
    (otherSpellingIn forms tree dir (forms.nfc name) true listings).1.getD (forms.nfc name) = name := by
  have honly : ∀ other ∈ tree.listing dir, forms.nfc other = forms.nfc name → other = name := fun other hother hsame =>
    hapart dir other name ((tree.mem_listing dir other).mp hother) hname hsame
  have hread : tree.readDir dir = some (tree.listing dir) := if_pos (tree.parent_dir dir name hname)
  have hmem := (tree.mem_listing dir name).mpr hname
  have hcached : ((listRespelled forms tree dir (forms.nfc name)).join).getD (forms.nfc name) = name := by
    unfold listRespelled
    rw [hread, Option.getD_some, filter_one (tree.nodup_listing dir) hmem fun other hother h =>
      honly other hother (of_decide_eq_true (Bool.and_eq_true_iff.mp h).2)]
    rw [decide_eq_true rfl, Bool.and_true]
    cases hplain : isAscii name || forms.isNfc name with
    | false => rfl
    | true =>
      rcases Bool.or_eq_true_iff.mp hplain with h | h
      · exact forms.nfc_ascii name h
      · exact (forms.isNfc_iff name).mp h
  unfold otherSpellingIn
  split
  · rename_i h
    exact hascii h
  split
  · rename_i hnfd
    exact hapart dir _ name hnfd.2 hname ((forms.nfc_nfd _).trans (forms.nfc_nfc name))
  rw [if_neg (by decide)]
  split
  · rw [(hkept.spelling dir (forms.nfc name)).1]
    exact hcached
  rw [hread, Option.getD_some, filter_one (tree.nodup_listing dir) hmem fun other hother h =>
    honly other hother (of_decide_eq_true h), decide_eq_true rfl]
  rfl

/-- No name of the path has an ASCII normal form, unless it is ASCII itself. -/
def Spelled (forms : Forms) (path : RelPath) : Prop :=
  ∀ name ∈ path, isAscii (forms.nfc name) = true → isAscii name = true

theorem Spelled.nfc (h : Spelled forms path) (hname : name ∈ path) (hascii : isAscii (forms.nfc name)) :
    forms.nfc name = name := forms.nfc_ascii name (h name hname hascii)

theorem respellFrom_reaches (hapart : tree.Apart forms) (hkept : Kept forms tree listings) (path : RelPath)
    (hentry : tree.exists_ (path ++ entry)) (hspelled : Spelled forms entry) :
    (respellFrom forms tree true path (entry.map forms.nfc) listings).1 = path ++ entry := by
  induction entry generalizing path listings with
  | nil => exact (append_nil _).symm
  | cons name rest ih =>
    have hnext : tree.exists_ ((path ++ [name]) ++ rest) := (append_assoc ..).symm ▸ hentry
    have hname := exists_front _ hnext
    have hrest : ∀ {listings}, Kept forms tree listings →
        (respellFrom forms tree true (path ++ [name]) (rest.map forms.nfc) listings).1 = path ++ name :: rest :=
      fun hkept => (ih hkept (path ++ [name]) hnext fun other hother => hspelled other (mem_cons_of_mem _ hother)).trans
        (append_assoc ..)
    rw [map_cons]
    unfold respellFrom
    split
    · rename_i hplain
      rw [hapart path _ name hplain hname (forms.nfc_nfc name)]
      exact hrest hkept
    rename_i hplain
    have hfound := otherSpellingIn_reaches hapart hkept hname (hspelled.nfc mem_cons_self)
    have hafter := (hkept.other path (forms.nfc name) true).2
    rw [Bool.true_or]
    rcases hother : otherSpellingIn forms tree path (forms.nfc name) true listings with ⟨_ | found, after⟩
    · rw [hother] at hfound
      have hsame : forms.nfc name = name := hfound
      rw [hsame] at hplain
      exact absurd hname hplain
    rw [hother] at hfound hafter
    obtain rfl : found = name := hfound
    exact hrest hafter

theorem respelledMissing_reaches (hapart : tree.Apart forms) (hkept : Kept forms tree listings)
    (hentry : tree.exists_ entry) (hspelled : Spelled forms entry) :
    (respelledMissing forms tree (entry.map forms.nfc) .existing listings).1 = entry := by
  unfold respelledMissing
  split
  · rename_i key hkey
    obtain ⟨front, last, rfl⟩ : ∃ front last, entry = front ++ [last] := by
      rcases eq_nil_or_concat entry with rfl | h
      · exact nomatch hkey
      · simpa using h
    rw [map_append, map_singleton, getLast?_concat] at hkey
    cases hkey
    rw [map_append, map_singleton, dropLast_concat]
    split
    · rename_i hparent
      have hfront : front.map forms.nfc = front :=
        eq_of_exists hapart [] (map_nfc front) hparent.2 (exists_front front hentry)
      rw [hfront]
      exact congrArg (front ++ [·]) (otherSpellingIn_reaches hapart hkept hentry
        (hspelled.nfc (mem_append_right _ mem_cons_self)))
    rw [← map_singleton, ← map_append]
    exact respellFrom_reaches hapart hkept [] hentry hspelled
  · exact respellFrom_reaches hapart hkept [] hentry hspelled

/-- The first name of an entry that its key spells otherwise can be asked for by its key. -/
def Askable (forms : Forms) (tree : Tree) (entry : RelPath) : Prop :=
  ∀ name, (entry.find? fun name => decide (forms.nfc name ≠ name)) = some name →
    tree.fitsName (forms.nfc name) = true ∧ tree.fitsPath (entry.map forms.nfc) = true

theorem find_other (hother : entry.map forms.nfc ≠ entry) :
    ∃ name, (entry.find? fun name => decide (forms.nfc name ≠ name)) = some name := by
  refine Option.isSome_iff_exists.mp (find?_isSome.mpr ?_)
  by_contra hnone
  refine hother ((map_congr_left fun name hname => ?_).trans (map_id entry))
  exact by_contra fun h => hnone ⟨name, hname, decide_eq_true h⟩

theorem resolve_key (hapart : tree.Apart forms) (path : RelPath) (hentry : tree.exists_ (path ++ entry))
    (hname : (entry.find? fun name => decide (forms.nfc name ≠ name)) = some name) :
    tree.resolve path (entry.map forms.nfc) =
      .error (if tree.fitsName (forms.nfc name) = false then .other else .notFound) := by
  induction entry generalizing path with
  | nil => cases hname
  | cons first rest ih =>
    have hnext : tree.exists_ ((path ++ [first]) ++ rest) := (append_assoc ..).symm ▸ hentry
    rw [map_cons]
    unfold Tree.resolve
    rw [dir_of_exists hentry]
    dsimp only
    by_cases hsame : forms.nfc first = first
    · rw [find?_cons_of_neg (by simp [hsame])] at hname
      rw [hsame, (tree.fits path first (exists_front _ hnext)).1, if_neg (by decide)]
      exact ih (path ++ [first]) hnext hname
    rw [find?_cons_of_pos (by simp [hsame])] at hname
    obtain rfl := Option.some.inj hname
    have hnone : tree.kindAt (path ++ [forms.nfc first]) = none := by
      refine Option.not_isSome_iff_eq_none.mp fun h => hsame ?_
      exact hapart path _ first h (exists_front _ hnext) (forms.nfc_nfc first)
    split
    · rfl
    unfold Tree.resolve
    cases rest.map forms.nfc with
    | nil | cons other rest =>
      rw [hnone]

/-- A key that is not its entry's path is not found, where it can be asked for. -/
theorem metadata_key (hapart : tree.Apart forms) (hentry : tree.exists_ entry) (hother : entry.map forms.nfc ≠ entry) :
    tree.metadata (entry.map forms.nfc) = .error .notFound ↔ Askable forms tree entry := by
  obtain ⟨name, hname⟩ := find_other hother
  have hask : Askable forms tree entry ↔
      tree.fitsName (forms.nfc name) = true ∧ tree.fitsPath (entry.map forms.nfc) = true :=
    ⟨fun h => h name hname, fun h other hmem => Option.some.inj (hname.symm.trans hmem) ▸ h⟩
  rw [hask]
  unfold Tree.metadata
  rw [resolve_key hapart [] hentry hname]
  cases tree.fitsPath (entry.map forms.nfc) <;> cases tree.fitsName (forms.nfc name) <;> simp

/-- A key leads back to its entry unless an ASCII component names one that is not, or the key is too
long to ask for; and a key no entry has leads nowhere. -/
theorem reaches_iff (hapart : tree.Apart forms) :
    (∀ entry, tree.Holds entry → (Reaches forms tree entry ↔ Spelled forms entry ∧ Askable forms tree entry)) ∧
    ∀ key, key ≠ [] → (∀ name ∈ key, forms.nfc name = name) →
      (∀ entry, tree.Holds entry → normalizeRelPath forms entry ≠ key) →
      tree.kindAt (onDisk forms tree key .existing) = none ∧
      ∀ listings, Built forms tree listings → tree.kindAt (statOnDisk forms tree key listings).1.1 = none := by
  constructor
  · intro entry hentry
    unfold Reaches
    rw [normalizeRelPath_eq]
    have hplain : Spelled forms entry → (entry.map forms.nfc).all isAscii → entry.map forms.nfc = entry :=
      fun hspelled h => (map_congr_left fun name hname => hspelled.nfc hname
        (all_eq_true.mp h _ (mem_map_of_mem hname))).trans (map_id _)
    constructor
    · rintro ⟨hreaches, hstats⟩
      have hspelled : Spelled forms entry := by
        intro name hname hascii
        have hspells : List.Forall₂ (Spells forms) (entry.map forms.nfc) (onDisk forms tree (entry.map forms.nfc) .existing) :=
          onDisk_spells _ _
        rw [hreaches, List.forall₂_map_left_iff] at hspells
        rw [(List.forall₂_same.mp hspells name hname).2 hascii]
        exact hascii
      refine ⟨hspelled, ?_⟩
      by_cases hother : entry.map forms.nfc = entry
      · intro name hname
        have hdiffers := find?_some hname
        rw [map_inj_left.mp (hother.trans (map_id entry).symm) name (mem_of_find?_eq_some hname)] at hdiffers
        simp at hdiffers
      refine (metadata_key hapart hentry.2 hother).mp ?_
      by_contra hfound
      have hstat := hstats .empty .empty
      unfold statOnDisk at hstat
      rw [if_pos (Or.inr hfound)] at hstat
      exact hother (congrArg Prod.fst hstat)
    rintro ⟨hspelled, hask⟩
    constructor
    · unfold onDisk respelled
      split
      · rename_i h
        exact hplain hspelled h
      split
      · rename_i h
        exact eq_of_exists hapart [] (map_nfc entry) h hentry.2
      · exact respelledMissing_reaches hapart kept_none hentry.2 hspelled
    intro listings hlistings
    unfold statOnDisk
    split
    · rename_i h
      have hsame : entry.map forms.nfc = entry := by
        rcases h with h | h
        · exact hplain hspelled h
        · exact by_contra fun hother => h ((metadata_key hapart hentry.2 hother).mpr hask)
      rw [hsame]
    have hfound := respelledMissing_reaches hapart hlistings.kept hentry.2 hspelled
    dsimp only
    rw [hfound]
    split
    · rename_i hsame
      rw [← hsame]
    · rfl
  intro key hsome hnfc hnone
  have hkey : ∀ {found}, List.Forall₂ (Spells forms) key found → tree.kindAt found = none := by
    intro found hspells
    refine Option.not_isSome_iff_eq_none.mp fun hexists => ?_
    have hne : found ≠ [] := by
      rintro rfl
      exact hsome (List.forall₂_nil_right_iff.mp hspells)
    refine hnone found ⟨hne, hexists⟩ ?_
    rw [normalizeRelPath_eq, map_of_spells hspells]
    exact (map_congr_left hnfc).trans (map_id key)
  exact ⟨hkey (onDisk_spells key .existing), fun listings hlistings => hkey (hlistings.kept.statOnDisk key).1⟩

end Entries

def single (c : Char) : Char := if c = '\u2126' then '\u03a9' else if c = '\u212a' then 'K' else c

theorem single_single (c : Char) : single (single c) = single c := by
  unfold single
  split
  · rfl
  split
  · rfl
  · rfl

def singles : Forms where
  nfc name := name.map single
  nfd name := name.map single
  isNfc name := decide (name.map single = name)
  nfc_nfc name := by
    rw [map_map]
    exact map_congr_left fun c _ => single_single c
  nfc_nfd name := by
    rw [map_map]
    exact map_congr_left fun c _ => single_single c
  isNfc_iff name := decide_eq_true_iff
  nfc_ascii name h := by
    refine (map_congr_left fun c hc => ?_).trans (map_id name)
    have hlt := of_decide_eq_true (all_eq_true.mp h c hc)
    unfold single
    rw [if_neg, if_neg]
    · rfl
    all_goals
      rintro rfl
      exact absurd hlt (by decide)

def oneFile (name : Text) : Tree where
  kindAt path := if path = [] then some .dir else if path = [name] then some .file else none
  listing dir := if dir = [] then [name] else []
  root := rfl
  mem_listing dir other := by
    cases dir with
    | nil => simp
    | cons first dir => simp
  nodup_listing dir := by
    split
    · exact pairwise_singleton _ name
    · exact nodup_nil
  parent_dir dir other h := by
    cases dir with
    | nil => rfl
    | cons first dir => simp at h
  fitsName _ := true
  fitsPath _ := true
  fits _ _ _ := ⟨rfl, rfl⟩

theorem apart_oneFile (forms : Forms) (name : Text) : (oneFile name).Apart forms := by
  intro dir a b ha hb _
  have ha := ((oneFile name).mem_listing dir a).mpr ha
  have hb := ((oneFile name).mem_listing dir b).mpr hb
  cases dir with
  | nil => exact (mem_singleton.mp ha).trans (mem_singleton.mp hb).symm
  | cons first dir => exact nomatch ha

/-- An ohm sign is found under its key. -/
theorem reaches_ohm : Reaches singles (oneFile ['\u2126']) [['\u2126']] :=
  ((reaches_iff (apart_oneFile singles ['\u2126'])).1 [['\u2126']] ⟨by decide, rfl⟩).mpr ⟨fun name hname h => by
    rw [mem_singleton.mp hname] at h
    exact absurd h (by decide), fun _ _ => ⟨rfl, rfl⟩⟩

/-- A kelvin sign's key is the letter, and nothing is there. -/
theorem not_reaches_kelvin : (oneFile ['\u212a']).Apart singles ∧ (oneFile ['\u212a']).Holds [['\u212a']] ∧
    ¬ Reaches singles (oneFile ['\u212a']) [['\u212a']] ∧
    (oneFile ['\u212a']).kindAt (onDisk singles (oneFile ['\u212a']) (normalizeRelPath singles [['\u212a']]) .existing) = none := by
  refine ⟨apart_oneFile _ _, ⟨by decide, rfl⟩, fun h => ?_, by decide⟩
  exact absurd h.1 (by decide)

end SyncEngine.OnDisk
