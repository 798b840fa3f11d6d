import SyncEngine.Model

/-! # What the ignore rules hide

A rule file decides below its own directory, the nearest one first. A walk asks while the
rules still grow, the remote's items are asked about afterwards and with a memo, and the
remote's rule files are read in the order of their depth. What one source says of one path is
taken as given, and a path is kept split at its slashes.
-/

namespace SyncEngine.Ignore

open Function List

abbrev Text := List Char

abbrev RelPath := List Text

def FILENIGNORE : Text := ".filenignore".toList

inductive Match where
  | none
  | ignore (pattern : Text)
  | whitelist (pattern : Text)

/-- The compiled patterns of one source, asked about a path below its directory. -/
structure IgnoreSource where
  matched : RelPath → Bool → Match

inductive Origin where
  | default
  | user
  | file (dir : RelPath)
  deriving DecidableEq

structure IgnoreHit where
  origin : Origin
  pattern : Text
  deriving DecidableEq

structure IgnoreRules where
  user : Option IgnoreSource
  files : RelPath → Option IgnoreSource
  localRoot : Option IgnoreSource

/-- What a source decides, if it does: a whitelisted path is not ignored. -/
def ask (source : Option IgnoreSource) (path : RelPath) (isDir : Bool) (origin : Origin) : Option (Option IgnoreHit) :=
  source.bind fun source =>
    match source.matched path isDir with
    | .none => none
    | .whitelist _ => some none
    | .ignore pattern => some (some ⟨origin, pattern⟩)

namespace IgnoreRules

def insertFile (rules : IgnoreRules) (dir : RelPath) (source : IgnoreSource) : IgnoreRules :=
  { rules with files := update rules.files dir (some source) }

/-- What the file of the directory of the first `k` names says, and then those above it. -/
def decideIn (rules : IgnoreRules) (path : RelPath) (isDir : Bool) : Nat → Option (Option IgnoreHit)
  | 0 => (ask rules.localRoot path isDir (.file [])).or (ask (rules.files []) path isDir (.file []))
  | k + 1 =>
    (ask (rules.files (path.take (k + 1))) (path.drop (k + 1)) isDir (.file (path.take (k + 1)))).or
      (rules.decideIn path isDir k)

section Asked

variable (defaults : IgnoreSource)

/-- The decision for a path alone, nearest source first. -/
def decide (rules : IgnoreRules) (path : RelPath) (isDir : Bool) : Option IgnoreHit :=
  if rules.localRoot.isSome && !isDir && path == [FILENIGNORE] then some ⟨.default, FILENIGNORE⟩
  else
    (((rules.decideIn path isDir (path.length - 1)).or (ask rules.user path isDir .user)).or
      (ask (some defaults) path isDir .default)).join

/-- Decisions about directories, kept across questions. -/
abbrev Memo := RelPath → Option (Option IgnoreHit)

def askAncestors (rules : IgnoreRules) : List RelPath → Memo → Option (RelPath × IgnoreHit) × Memo
  | [], memo => (none, memo)
  | ancestor :: rest, memo =>
    let decision := (memo ancestor).getD (rules.decide defaults ancestor true)
    let memo := update memo ancestor (some decision)
    match decision with
    | some hit => (some (ancestor, hit), memo)
    | none => rules.askAncestors rest memo

def ancestors (path : RelPath) : List RelPath := (List.range (path.length - 1)).map fun k => path.take (k + 1)

/-- The top-most ignored path at or above a path, with the rule that hides it. -/
def ignoredRoot (rules : IgnoreRules) (path : RelPath) (isDir : Bool) (memo : Memo) :
    Option (RelPath × IgnoreHit) × Memo :=
  if path = [] then (none, memo)
  else
    match rules.askAncestors defaults (ancestors path) memo with
    | (some root, memo) => (some root, memo)
    | (none, memo) => ((rules.decide defaults path isDir).map fun hit => (path, hit), memo)

/-- A memo earlier questions filled, cleared at any time. -/
inductive Filled (rules : IgnoreRules) : Memo → Prop
  | cleared : Filled rules fun _ => none
  | asked {memo : Memo} (path : RelPath) (isDir : Bool) : Filled rules memo →
      Filled rules (rules.ignoredRoot defaults path isDir memo).2

/-- The answer without a memo. -/
def rootOf (rules : IgnoreRules) (path : RelPath) (isDir : Bool) : Option (RelPath × IgnoreHit) :=
  (rules.ignoredRoot defaults path isDir fun _ => none).1

end Asked

end IgnoreRules

/-- The rules joined so far, and what was pruned by which. -/
structure Walk where
  rules : IgnoreRules
  pruned : List (RelPath × IgnoreHit)

/-- Join a directory's own rule file, where it is read from disk. -/
def IgnoreRules.join (rules : IgnoreRules) (ownFile : RelPath → Option IgnoreSource) (dir : RelPath) : IgnoreRules :=
  match ownFile dir with
  | some source => rules.insertFile dir source
  | none => rules

/-- Visit an entry. What is below a pruned directory is never handed over. -/
def Walk.visit (defaults : IgnoreSource) (ownFile : RelPath → Option IgnoreSource) (w : Walk) (entry : RelPath × Bool) : Walk :=
  if w.pruned.any fun root => root.1.isPrefixOf entry.1 then w
  else
    match w.rules.decide defaults entry.1 entry.2 with
    | some hit => { w with pruned := w.pruned ++ [(entry.1, hit)] }
    | none => if entry.2 then { w with rules := w.rules.join ownFile entry.1 } else w

/-- The entries of a tree in an order from the top down, siblings in any order. -/
structure TopDown (entries : List (RelPath × Bool)) : Prop where
  below : ∀ entry ∈ entries, entry.1 ≠ []
  distinct : (entries.map Prod.fst).Nodup
  parents : ∀ before entry after, entries = before ++ entry :: after → 1 < entry.1.length →
    (entry.1.dropLast, true) ∈ before

/-- The remote rule files read so far: the rules, the directories whose file cannot be used,
and those whose file was skipped as lying under a hidden one. -/
structure RemoteRules where
  rules : IgnoreRules
  blocked : List RelPath
  skipped : List RelPath

section Remote

variable (defaults : IgnoreSource) (mode : SyncMode) (localHasFile tracked : RelPath → Bool)

def readsRemote (dir : RelPath) : Bool :=
  match mode with
  | .twoWay => !localHasFile dir
  | _ => bif mode.pushes then tracked dir && !localHasFile dir else true

def underIgnored (rules : IgnoreRules) (dir : RelPath) : Bool :=
  !mode.pushes && (rules.rootOf defaults dir true).isSome

/-- Read one rule file. The source is none where the file cannot be read or does not compile. -/
def readRuleFile (out : RemoteRules) (file : RelPath × Option IgnoreSource) : RemoteRules :=
  if !readsRemote mode localHasFile tracked file.1 then out
  else if underIgnored defaults mode out.rules file.1 then { out with skipped := out.skipped ++ [file.1] }
  else
    match file.2 with
    | some source => { out with rules := out.rules.insertFile file.1 source }
    | none => { out with blocked := out.blocked ++ [file.1] }

/-- Read the remote rule files, shallowest first, and block the directories whose file is held back. -/
def loadRemoteRules (user : Option IgnoreSource) (candidates : List (RelPath × Option IgnoreSource))
    (held : List RelPath) : RemoteRules :=
  let out := (candidates.insertionSort fun a b => a.1.length ≤ b.1.length).foldl
    (readRuleFile defaults mode localHasFile tracked) ⟨⟨user, fun _ => none, none⟩, [], []⟩
  { out with
    blocked := out.blocked ++ held.filter fun dir =>
      readsRemote mode localHasFile tracked dir && !underIgnored defaults mode out.rules dir }

end Remote

/-! ## The top-most hit -/

namespace IgnoreRules

section Roots

variable {defaults : IgnoreSource} {rules other : IgnoreRules} {path root : RelPath} {isDir : Bool} {hit : IgnoreHit}
  {memo : Memo} {j k : Nat}

def rootUpTo (defaults : IgnoreSource) (rules : IgnoreRules) (path : RelPath) : Nat → Option (RelPath × IgnoreHit)
  | 0 => none
  | k + 1 =>
    (rules.rootUpTo defaults path k).or
      ((rules.decide defaults (path.take (k + 1)) true).map fun hit => (path.take (k + 1), hit))

/-- What a memo holds is what the rules decide. -/
def Right (defaults : IgnoreSource) (rules : IgnoreRules) (memo : Memo) : Prop :=
  ∀ dir decision, memo dir = some decision → decision = rules.decide defaults dir true

theorem Right.askAncestors (h : Right defaults rules memo) (dirs : List RelPath) :
    (rules.askAncestors defaults dirs memo).1 =
      dirs.findSome? (fun dir => (rules.decide defaults dir true).map fun hit => (dir, hit)) ∧
    Right defaults rules (rules.askAncestors defaults dirs memo).2 := by
  induction dirs generalizing memo with
  | nil => exact ⟨rfl, h⟩
  | cons dir rest ih =>
    have hdecision : (memo dir).getD (rules.decide defaults dir true) = rules.decide defaults dir true := by
      cases hdir : memo dir with
      | none => rfl
      | some decision => exact h dir decision hdir
    have hafter : Right defaults rules (update memo dir (some (rules.decide defaults dir true))) := by
      intro another decision hother
      by_cases hsame : another = dir
      · rw [hsame, update_self] at hother
        rw [hsame]
        exact (Option.some.inj hother).symm
      rw [update_of_ne hsame] at hother
      exact h another decision hother
    unfold IgnoreRules.askAncestors
    rw [hdecision, findSome?_cons]
    cases hhit : rules.decide defaults dir true with
    | none =>
      rw [hhit] at hafter
      exact ih hafter
    | some hit =>
      rw [hhit] at hafter
      exact ⟨rfl, hafter⟩

theorem findSome_range (k : Nat) :
    ((List.range k).map fun k => path.take (k + 1)).findSome?
      (fun dir => (rules.decide defaults dir true).map fun hit => (dir, hit)) = rules.rootUpTo defaults path k := by
  induction k with
  | zero => rfl
  | succ k ih =>
    rw [range_succ, map_append, findSome?_append, ih]
    exact congrArg _ (findSome?_singleton ..)

theorem Right.ignoredRoot (h : Right defaults rules memo) (hsome : path ≠ []) (isDir : Bool) :
    (rules.ignoredRoot defaults path isDir memo).1 =
      (rules.rootUpTo defaults path (path.length - 1)).or
        ((rules.decide defaults path isDir).map fun hit => (path, hit)) ∧
    Right defaults rules (rules.ignoredRoot defaults path isDir memo).2 := by
  obtain ⟨hfound, hafter⟩ := h.askAncestors (ancestors path)
  unfold ancestors at hfound
  rw [findSome_range] at hfound
  unfold IgnoreRules.ignoredRoot
  rw [if_neg hsome, ← hfound]
  rcases hasked : rules.askAncestors defaults (ancestors path) memo with ⟨_ | root, after⟩
  all_goals
    unfold ancestors at hasked
    rw [hasked]
    exact ⟨rfl, (congrArg (fun asked => Right defaults rules asked.2) hasked).mp hafter⟩

theorem right_cleared : Right defaults rules fun _ => none := fun _ _ h => nomatch h

theorem rootOf_eq (hsome : path ≠ []) : rules.rootOf defaults path isDir =
    (rules.rootUpTo defaults path (path.length - 1)).or ((rules.decide defaults path isDir).map fun hit => (path, hit)) :=
  (right_cleared.ignoredRoot hsome isDir).1

theorem Filled.right (h : Filled defaults rules memo) : Right defaults rules memo := by
  induction h with
  | cleared => exact right_cleared
  | @asked memo path isDir _ ih =>
    by_cases hsome : path = []
    · unfold IgnoreRules.ignoredRoot
      rw [if_pos hsome]
      exact ih
    · exact (ih.ignoredRoot hsome isDir).2

theorem ignoredRoot_filled (h : Filled defaults rules memo) (path : RelPath) (isDir : Bool) :
    (rules.ignoredRoot defaults path isDir memo).1 = rules.rootOf defaults path isDir := by
  by_cases hsome : path = []
  · unfold rootOf ignoredRoot
    rw [if_pos hsome, if_pos hsome]
  rw [rootOf_eq hsome]
  exact (h.right.ignoredRoot hsome isDir).1

theorem rootUpTo_some (h : rules.rootUpTo defaults path k = some (root, hit)) :
    ∃ j < k, root = path.take (j + 1) ∧ rules.decide defaults root true = some hit ∧
      rules.rootUpTo defaults path j = none := by
  induction k with
  | zero => exact nomatch h
  | succ k ih =>
    unfold rootUpTo at h
    cases hbefore : rules.rootUpTo defaults path k with
    | some found =>
      rw [hbefore] at h
      obtain ⟨j, hj, hroot⟩ := ih (hbefore.trans h)
      exact ⟨j, Nat.lt_succ_of_lt hj, hroot⟩
    | none =>
      rw [hbefore] at h
      obtain ⟨found, hfound, hsame⟩ := Option.map_eq_some_iff.mp h
      cases hsame
      exact ⟨k, Nat.lt_succ_self k, rfl, hfound, hbefore⟩

theorem rootUpTo_mono (h : rules.rootUpTo defaults path j = some (root, hit)) (hle : j ≤ k) :
    rules.rootUpTo defaults path k = some (root, hit) := by
  induction k with
  | zero => exact Nat.le_zero.mp hle ▸ h
  | succ k ih =>
    rcases Nat.lt_or_eq_of_le hle with hlt | rfl
    · unfold rootUpTo
      rw [ih (Nat.le_of_lt_succ hlt)]
      rfl
    · exact h

theorem rootUpTo_take (hle : j ≤ k) : rules.rootUpTo defaults (path.take k) j = rules.rootUpTo defaults path j := by
  induction j with
  | zero => rfl
  | succ j ih =>
    unfold rootUpTo
    rw [ih (Nat.le_of_succ_le hle), take_take, min_eq_left hle]

theorem rootOf_below (hlt : j + 1 < path.length) (h : rules.rootOf defaults (path.take (j + 1)) true = some (root, hit)) :
    rules.rootOf defaults path isDir = some (root, hit) := by
  have hsome : path ≠ [] := by
    rintro rfl
    exact nomatch hlt
  have hlength : (path.take (j + 1)).length = j + 1 := length_take_of_le (le_of_lt hlt)
  have hdir : path.take (j + 1) ≠ [] := fun hnil => by
    rw [hnil] at hlength
    exact nomatch hlength
  rw [rootOf_eq hdir, hlength, Nat.add_sub_cancel, rootUpTo_take (Nat.le_succ j)] at h
  have hup : rules.rootUpTo defaults path (j + 1) = some (root, hit) := h
  rw [rootOf_eq hsome, rootUpTo_mono hup (Nat.le_sub_one_of_lt hlt)]
  rfl

theorem rootOf_of_rootUpTo (h : rules.rootUpTo defaults path (path.length - 1) = some (root, hit)) :
    ∃ j, j + 1 < path.length ∧ root = path.take (j + 1) ∧ rules.rootOf defaults root true = some (root, hit) := by
  obtain ⟨j, hj, rfl, hdecide, hnone⟩ := rootUpTo_some h
  have hlt : j + 1 < path.length := by omega
  have hlength : (path.take (j + 1)).length = j + 1 := length_take_of_le (le_of_lt hlt)
  refine ⟨j, hlt, rfl, ?_⟩
  have hdir : path.take (j + 1) ≠ [] := fun hnil => by
    rw [hnil] at hlength
    exact nomatch hlength
  rw [rootOf_eq hdir, hlength, Nat.add_sub_cancel, rootUpTo_take (Nat.le_succ j), hnone, hdecide]
  rfl

/-- The rules agree on every source that decides about a path. -/
def SameAbove (rules other : IgnoreRules) (path : RelPath) : Prop :=
  other.user = rules.user ∧ other.localRoot = rules.localRoot ∧
    ∀ k ≤ path.length - 1, other.files (path.take k) = rules.files (path.take k)

section

variable (h : SameAbove rules other path)
include h

theorem SameAbove.decideIn (isDir : Bool) (hk : k ≤ path.length - 1) :
    other.decideIn path isDir k = rules.decideIn path isDir k := by
  induction k with
  | zero =>
    unfold IgnoreRules.decideIn
    rw [h.2.1, ← take_zero (l := path), h.2.2 0 hk]
  | succ k ih =>
    unfold IgnoreRules.decideIn
    rw [h.2.2 (k + 1) hk, ih (Nat.le_of_succ_le hk)]

theorem SameAbove.decide (isDir : Bool) :
    other.decide defaults path isDir = rules.decide defaults path isDir := by
  unfold IgnoreRules.decide
  rw [h.decideIn isDir le_rfl, h.1, h.2.1]

theorem SameAbove.rootOf (isDir : Bool) :
    other.rootOf defaults path isDir = rules.rootOf defaults path isDir := by
  have hup : ∀ k ≤ path.length - 1, other.rootUpTo defaults path k = rules.rootUpTo defaults path k := by
    intro k hk
    induction k with
    | zero => rfl
    | succ k ih =>
      have hdir : SameAbove rules other (path.take (k + 1)) := by
        refine ⟨h.1, h.2.1, fun j hj => ?_⟩
        have hle : j ≤ k + 1 := le_trans hj (le_trans (Nat.sub_le _ _) (length_take_le _ _))
        rw [take_take, min_eq_left hle]
        exact h.2.2 j (le_trans hle hk)
      unfold rootUpTo
      rw [ih (Nat.le_of_succ_le hk), hdir.decide true]
  by_cases hsome : path = []
  · unfold IgnoreRules.rootOf ignoredRoot
    rw [if_pos hsome, if_pos hsome]
  · rw [rootOf_eq hsome, rootOf_eq hsome, hup _ le_rfl, h.decide isDir]

end

theorem sameAbove_insertFile {dir : RelPath} {source : IgnoreSource} (h : ∀ k ≤ path.length - 1, path.take k ≠ dir) :
    SameAbove rules (rules.insertFile dir source) path :=
  ⟨rfl, rfl, fun k hk => update_of_ne (h k hk) ..⟩

end Roots

end IgnoreRules

/-! ## The walk prunes the top-most hits -/

section Walks

open IgnoreRules

variable {defaults : IgnoreSource} {ownFile : RelPath → Option IgnoreSource} {entries done rest : List (RelPath × Bool)}
  {w : Walk} {path : RelPath} {isDir : Bool} {hit : IgnoreHit} {j k : Nat}

theorem TopDown.above (h : TopDown entries) (hsplit : entries = done ++ (path, isDir) :: rest) (hlt : j + 1 < path.length) :
    (path.take (j + 1), true) ∈ done := by
  induction hn : path.length using Nat.strong_induction_on generalizing path isDir done rest with
  | _ n ih =>
    subst hn
    have hlong : 1 < path.length := by omega
    have hparent : (path.dropLast, true) ∈ done := h.parents done (path, isDir) rest hsplit hlong
    have htake : path.take (j + 1) = path.dropLast.take (j + 1) := by
      rw [dropLast_eq_take, take_take, min_eq_left (by omega)]
    rcases Nat.lt_or_eq_of_le (Nat.le_sub_one_of_lt hlt) with hbelow | hlast
    · obtain ⟨before, after, rfl⟩ := append_of_mem hparent
      rw [append_assoc] at hsplit
      have hlength : path.dropLast.length = path.length - 1 := length_dropLast
      rw [htake]
      exact mem_append_left _ (ih _ (by omega) hsplit (by omega) rfl)
    rw [hlast, ← dropLast_eq_take]
    exact hparent

/-- What was pruned of the entries visited are the paths the rules hide as the top-most ones. -/
def Walk.Exact (defaults : IgnoreSource) (w : Walk) (done : List (RelPath × Bool)) : Prop :=
  ∀ path hit, (path, hit) ∈ w.pruned ↔ ∃ isDir, (path, isDir) ∈ done ∧ w.rules.rootOf defaults path isDir = some (path, hit)

theorem Walk.Exact.visit (h : w.Exact defaults done) (htop : TopDown entries) (hsplit : entries = done ++ (path, isDir) :: rest) :
    (w.visit defaults ownFile (path, isDir)).Exact defaults (done ++ [(path, isDir)]) := by
  have hsome : path ≠ [] := htop.below (path, isDir) (hsplit ▸ mem_append_right _ mem_cons_self)
  have hfresh : ∀ dir, (path, dir) ∉ done := by
    intro dir hmem
    have hdistinct := htop.distinct
    rw [hsplit, map_append, map_cons] at hdistinct
    exact disjoint_of_nodup_append hdistinct (mem_map_of_mem hmem) mem_cons_self
  have habove : ∀ {root hit}, w.rules.rootUpTo defaults path (path.length - 1) = some (root, hit) →
      (root, hit) ∈ w.pruned ∧ root <+: path ∧ root ≠ path := by
    intro root hit hup
    obtain ⟨j, hlt, rfl, hroot⟩ := rootOf_of_rootUpTo hup
    refine ⟨(h _ _).mpr ⟨true, htop.above hsplit hlt, hroot⟩, take_prefix _ _, fun hsame => ?_⟩
    have hlength := congrArg List.length hsame
    rw [length_take_of_le (le_of_lt hlt)] at hlength
    omega
  -- the entries visited are asked as before, where the rules change at this one alone
  have hkeep : ∀ {pruned : List (RelPath × IgnoreHit)} {rules : IgnoreRules},
      (∀ q dir, (q, dir) ∈ done ∨ q = path → SameAbove w.rules rules q) →
      (∀ q hit, (q, hit) ∈ pruned ↔ (q, hit) ∈ w.pruned ∨ q = path ∧ w.rules.rootOf defaults path isDir = some (path, hit)) →
      Walk.Exact defaults ⟨rules, pruned⟩ (done ++ [(path, isDir)]) := by
    intro pruned rules hrules hpruned q hit
    rw [hpruned, h]
    constructor
    · rintro (⟨dir, hmem, hroot⟩ | ⟨rfl, hroot⟩)
      · exact ⟨dir, mem_append_left _ hmem, ((hrules q dir (.inl hmem)).rootOf dir).trans hroot⟩
      · exact ⟨isDir, mem_append_right _ mem_cons_self, ((hrules q isDir (.inr rfl)).rootOf isDir).trans hroot⟩
    rintro ⟨dir, hmem, hroot⟩
    rcases mem_append.mp hmem with hmem | hmem
    · exact .inl ⟨dir, hmem, ((hrules q dir (.inl hmem)).rootOf dir).symm.trans hroot⟩
    cases mem_singleton.mp hmem
    exact .inr ⟨rfl, ((hrules path isDir (.inr rfl)).rootOf isDir).symm.trans hroot⟩
  have hsame : ∀ q dir, (q, dir) ∈ done ∨ q = path → SameAbove w.rules w.rules q := fun _ _ _ => ⟨rfl, rfl, fun _ _ => rfl⟩
  unfold Walk.visit
  split
  · rename_i hany
    obtain ⟨⟨root, found⟩, hroot, hbelow⟩ := any_eq_true.mp hany
    obtain ⟨dir, hmem, hfound⟩ := (h root found).mp hroot
    have hfront := isPrefixOf_iff_prefix.mp hbelow
    have hne : root ≠ path := fun hsame => hfresh dir (hsame ▸ hmem)
    have hlt : root.length < path.length := lt_of_le_of_ne hfront.length_le fun hlength => hne (hfront.eq_of_length hlength)
    have hpos : 0 < root.length := length_pos_of_ne_nil (htop.below (root, dir) (hsplit ▸ mem_append_left _ hmem))
    have htake : path.take (root.length - 1 + 1) = root := by
      rw [Nat.sub_add_cancel hpos]
      exact (prefix_iff_eq_take.mp hfront).symm
    have hmemTrue := htop.above (j := root.length - 1) hsplit (by omega)
    rw [htake] at hmemTrue
    have hdone : (done.map Prod.fst).Nodup := by
      have hdistinct := htop.distinct
      rw [hsplit, map_append] at hdistinct
      exact hdistinct.of_append_left
    cases Prod.ext_iff.mp (inj_on_of_nodup_map hdone hmem hmemTrue rfl) |>.2
    have hhidden : w.rules.rootOf defaults path isDir = some (root, found) :=
      rootOf_below (j := root.length - 1) (by omega) (htake.symm ▸ hfound)
    refine hkeep hsame fun q hit => ⟨.inl, fun hq => hq.resolve_right fun ⟨_, hroot⟩ => ?_⟩
    exact hne (Prod.ext_iff.mp (Option.some.inj (hhidden.symm.trans hroot))).1
  rename_i hany
  have hown : w.rules.rootOf defaults path isDir = (w.rules.decide defaults path isDir).map fun hit => (path, hit) := by
    rw [rootOf_eq hsome]
    cases hup : w.rules.rootUpTo defaults path (path.length - 1) with
    | none => rfl
    | some root =>
      obtain ⟨hmem, hfront, -⟩ := habove hup
      exact absurd (any_eq_true.mpr ⟨root, hmem, isPrefixOf_iff_prefix.mpr hfront⟩) hany
  split
  · rename_i hit hdecide
    rw [hdecide] at hown
    refine hkeep hsame fun q other => ?_
    rw [mem_append, mem_singleton, hown]
    refine or_congr_right ⟨fun h => ?_, fun ⟨hq, hroot⟩ => ?_⟩
    · cases h
      exact ⟨rfl, rfl⟩
    cases hroot
    rw [hq]
  rename_i hdecide
  rw [hdecide] at hown
  have hpruned : ∀ q hit, (q, hit) ∈ w.pruned ↔
      (q, hit) ∈ w.pruned ∨ q = path ∧ w.rules.rootOf defaults path isDir = some (path, hit) :=
    fun q hit => ⟨.inl, fun hq => hq.resolve_right fun ⟨_, hroot⟩ => nomatch hown.symm.trans hroot⟩
  split
  · refine hkeep (fun q dir hq => ?_) hpruned
    unfold join
    split
    · refine sameAbove_insertFile fun k hk hdir => ?_
      rcases hq with hmem | rfl
      · obtain ⟨before, after, rfl⟩ := append_of_mem hmem
        rw [append_assoc] at hsplit
        cases k with
        | zero => exact hsome hdir.symm
        | succ k =>
          have hbelow := htop.above (j := k) hsplit (by omega)
          rw [hdir] at hbelow
          exact hfresh true (mem_append_left _ hbelow)
      have hlength : (q.take k).length = q.length := congrArg List.length hdir
      rw [length_take] at hlength
      have := length_pos_of_ne_nil hsome
      omega
    · exact ⟨rfl, rfl, fun _ _ => rfl⟩
  · exact hkeep hsame hpruned

theorem Walk.Exact.run (h : w.Exact defaults done) (htop : TopDown entries) (hsplit : entries = done ++ rest) :
    (rest.foldl (Walk.visit defaults ownFile) w).Exact defaults entries := by
  induction rest generalizing w done with
  | nil => exact (hsplit.trans (append_nil _)) ▸ h
  | cons entry rest ih => exact ih (h.visit htop hsplit) (hsplit.trans (append_cons ..))

end Walks

/-! ## The remote's rule files -/

section Files

open IgnoreRules

variable {defaults : IgnoreSource} {mode : SyncMode} {localHasFile tracked : RelPath → Bool} {out : RemoteRules}
  {files : List (RelPath × Option IgnoreSource)} {path : RelPath}

theorem foldl_sameAbove (h : ∀ file ∈ files, ∀ k ≤ path.length - 1, path.take k ≠ file.1) :
    SameAbove out.rules (files.foldl (readRuleFile defaults mode localHasFile tracked) out).rules path := by
  induction files generalizing out with
  | nil => exact ⟨rfl, rfl, fun _ _ => rfl⟩
  | cons file rest ih =>
    have hstep : SameAbove out.rules (readRuleFile defaults mode localHasFile tracked out file).rules path := by
      unfold readRuleFile
      split
      · exact ⟨rfl, rfl, fun _ _ => rfl⟩
      split
      · exact ⟨rfl, rfl, fun _ _ => rfl⟩
      split
      · exact sameAbove_insertFile (h file mem_cons_self)
      · exact ⟨rfl, rfl, fun _ _ => rfl⟩
    have hrest := @ih (readRuleFile defaults mode localHasFile tracked out file) fun other hother =>
      h other (mem_cons_of_mem _ hother)
    exact ⟨hrest.1.trans hstep.1, hrest.2.1.trans hstep.2.1, fun k hk => (hrest.2.2 k hk).trans (hstep.2.2 k hk)⟩

theorem mem_skipped (hmode : mode.pushes = false) (hsorted : files.Pairwise fun a b => a.1.length ≤ b.1.length) (dir : RelPath) :
    dir ∈ (files.foldl (readRuleFile defaults mode localHasFile tracked) out).skipped ↔
      dir ∈ out.skipped ∨ dir ∈ files.map Prod.fst ∧
        ((files.foldl (readRuleFile defaults mode localHasFile tracked) out).rules.rootOf defaults dir true).isSome := by
  induction files generalizing out with
  | nil => exact ⟨.inl, fun h => h.resolve_right fun h => nomatch h.1⟩
  | cons file rest ih =>
    have hreads : readsRemote mode localHasFile tracked file.1 := by
      cases mode <;> first | rfl | exact nomatch hmode
    have hhidden : ((file :: rest).foldl (readRuleFile defaults mode localHasFile tracked) out).rules.rootOf defaults file.1 true =
        out.rules.rootOf defaults file.1 true := by
      by_cases hroot : file.1 = []
      · unfold rootOf ignoredRoot
        rw [if_pos hroot, if_pos hroot]
      refine (foldl_sameAbove fun other hother k hk hdir => ?_).rootOf true
      have hle : file.1.length ≤ other.1.length := by
        rcases mem_cons.mp hother with rfl | hother
        · exact le_rfl
        · exact rel_of_pairwise_cons hsorted hother
      have hpos := length_pos_of_ne_nil hroot
      rw [← hdir, length_take] at hle
      omega
    rw [foldl_cons] at hhidden ⊢
    rw [ih (List.Pairwise.of_cons hsorted), map_cons, mem_cons]
    have hskipped : dir ∈ (readRuleFile defaults mode localHasFile tracked out file).skipped ↔
        dir ∈ out.skipped ∨ dir = file.1 ∧ (out.rules.rootOf defaults file.1 true).isSome := by
      unfold readRuleFile underIgnored
      rw [hreads, hmode, Bool.not_false, Bool.true_and, if_neg (by decide)]
      split
      · rename_i h
        rw [mem_append, mem_singleton]
        exact or_congr_right ⟨fun hdir => ⟨hdir, h⟩, And.left⟩
      rename_i h
      split <;> exact ⟨.inl, fun hdir => hdir.resolve_right fun hdir => h hdir.2⟩
    rw [hskipped, ← hhidden, or_assoc]
    refine or_congr_right ⟨?_, ?_⟩
    · rintro (⟨rfl, h⟩ | ⟨hmem, h⟩)
      · exact ⟨.inl rfl, h⟩
      · exact ⟨.inr hmem, h⟩
    rintro ⟨rfl | hmem, h⟩
    · exact .inl ⟨rfl, h⟩
    · exact .inr ⟨hmem, h⟩

end Files

open IgnoreRules in
/-- One rule set hides the same paths however it is asked: by a walk while the rules grow, with
any memo, below a hidden directory, and while the remote's files are read. -/
theorem rules_hide_alike (defaults : IgnoreSource) :
    (∀ ownFile start entries, TopDown entries → ∀ w, w = entries.foldl (Walk.visit defaults ownFile) ⟨start, []⟩ →
      ∀ root hit, (root, hit) ∈ w.pruned ↔
        ∃ path isDir, (path, isDir) ∈ entries ∧ w.rules.rootOf defaults path isDir = some (root, hit)) ∧
    (∀ rules memo path isDir, Filled defaults rules memo →
      (rules.ignoredRoot defaults path isDir memo).1 = rules.rootOf defaults path isDir) ∧
    (∀ (rules : IgnoreRules) dir rest isDir root, rest ≠ [] → rules.rootOf defaults dir true = some root →
      rules.rootOf defaults (dir ++ rest) isDir = some root) ∧
    ∀ mode localHasFile tracked user candidates held out, mode.pushes = false →
      out = loadRemoteRules defaults mode localHasFile tracked user candidates held →
      ∀ dir, dir ∈ out.skipped ↔
        dir ∈ candidates.map Prod.fst ∧ (out.rules.rootOf defaults dir true).isSome = true := by
  refine ⟨?_, fun rules memo path isDir h => ignoredRoot_filled h path isDir, ?_, ?_⟩
  · rintro ownFile start entries htop _ rfl root hit
    have hnone : Walk.Exact defaults ⟨start, []⟩ [] := fun _ _ => ⟨nofun, fun ⟨_, h, _⟩ => nomatch h⟩
    rw [hnone.run htop rfl]
    refine ⟨fun ⟨isDir, hmem, hroot⟩ => ⟨root, isDir, hmem, hroot⟩, fun ⟨path, isDir, hmem, hroot⟩ => ?_⟩
    have hroot' := hroot
    rw [rootOf_eq (htop.below _ hmem), Option.or_eq_some_iff] at hroot'
    rcases hroot' with hup | ⟨-, hown⟩
    · obtain ⟨before, after, hsplit⟩ := append_of_mem hmem
      obtain ⟨j, hlt, rfl, hfound⟩ := rootOf_of_rootUpTo hup
      exact ⟨true, hsplit ▸ mem_append_left _ (htop.above hsplit hlt), hfound⟩
    obtain ⟨_, -, hsame⟩ := Option.map_eq_some_iff.mp hown
    cases hsame
    exact ⟨isDir, hmem, hroot⟩
  · rintro rules dir rest isDir root hrest hroot
    have hdir : dir ≠ [] := by
      rintro rfl
      exact nomatch hroot
    have hpos := length_pos_of_ne_nil hdir
    have htake : (dir ++ rest).take (dir.length - 1 + 1) = dir := by
      rw [Nat.sub_add_cancel hpos]
      exact take_left
    refine rootOf_below (j := dir.length - 1) ?_ (htake.symm ▸ hroot)
    have := length_pos_of_ne_nil hrest
    rw [length_append]
    omega
  rintro mode localHasFile tracked user candidates held _ hmode rfl dir
  have : Std.Total fun a b : RelPath × Option IgnoreSource => a.1.length ≤ b.1.length := ⟨fun a b => le_total ..⟩
  have : IsTrans (RelPath × Option IgnoreSource) fun a b => a.1.length ≤ b.1.length := ⟨fun _ _ _ => le_trans⟩
  refine (mem_skipped hmode (pairwise_insertionSort _ candidates) dir).trans ?_
  rw [((perm_insertionSort _ candidates).map Prod.fst).mem_iff]
  exact ⟨fun h => h.resolve_left nofun, .inr⟩

def dsStore : IgnoreSource :=
  ⟨fun path _ => if path.getLast? = some ".DS_Store".toList then .ignore ".DS_Store".toList else .none⟩

/-- A rule file that hides the directory `build` below its own, but for what is called `keep`. -/
def buildRules : IgnoreSource :=
  ⟨fun path isDir =>
    if path.getLast? = some "keep".toList then .whitelist "!keep".toList
    else if path = ["build".toList] ∧ isDir = true then .ignore "build/".toList
    else .none⟩

/-- The directory `a` has a rule file. Its `build` is hidden with what is in it. -/
def projectEntries : List (RelPath × Bool) :=
  [(["a".toList], true), ([".DS_Store".toList], false), (["a".toList, "notes".toList], false),
    (["a".toList, "build".toList], true), (["a".toList, "build".toList, "keep".toList], false)]

def projectFile (dir : RelPath) : Option IgnoreSource := if dir = ["a".toList] then some buildRules else none

theorem topDown_projectEntries : TopDown projectEntries := by
  refine ⟨by decide +kernel, by decide +kernel, fun before entry after hsplit hlong => ?_⟩
  have hall : ∀ k < 5, ∀ entry ∈ projectEntries[k]?, 1 < entry.1.length →
      (entry.1.dropLast, true) ∈ projectEntries.take k := by
    decide +kernel
  have hlt : before.length < 5 := by
    have hlength := congrArg List.length hsplit
    rw [length_append, length_cons, show projectEntries.length = 5 from rfl] at hlength
    omega
  have hat : entry ∈ projectEntries[before.length]? := by
    rw [hsplit, getElem?_append_right le_rfl, Nat.sub_self]
    rfl
  have hparent := hall before.length hlt entry hat hlong
  rw [hsplit, take_left] at hparent
  exact hparent

/-- A walk, a memo filled by another question, a path below, and the remote's files. -/
theorem rules_hide_alike_project :
    let hidden : RelPath × IgnoreHit := (["a".toList, "build".toList], ⟨.file ["a".toList], "build/".toList⟩)
    let walked := projectEntries.foldl (Walk.visit dsStore projectFile) ⟨⟨none, fun _ => none, none⟩, []⟩
    let memo := (walked.rules.ignoredRoot dsStore ["a".toList, "notes".toList] false fun _ => none).2
    let read := loadRemoteRules dsStore .remoteToLocal (fun _ => false) (fun _ => false) none
      [(["a".toList, "build".toList], some buildRules), (["a".toList], some buildRules), ([], none)] []
    walked.pruned = [([".DS_Store".toList], ⟨.default, ".DS_Store".toList⟩), hidden] ∧
      (∃ path isDir, (path, isDir) ∈ projectEntries ∧ walked.rules.rootOf dsStore path isDir = some hidden) ∧
      (walked.rules.ignoredRoot dsStore ["a".toList, "build".toList] true memo).1 = some hidden ∧
      walked.rules.rootOf dsStore ["a".toList, "build".toList, "keep".toList] false = some hidden ∧
      read.skipped = [["a".toList, "build".toList]] ∧ read.blocked = [[]] ∧
      (read.rules.rootOf dsStore ["a".toList, "build".toList] true).isSome = true := by
  intro hidden walked memo read
  obtain ⟨hwalk, hmemo, hbelow, hremote⟩ := rules_hide_alike dsStore
  have hpruned : walked.pruned = [([".DS_Store".toList], ⟨.default, ".DS_Store".toList⟩), hidden] := by
    decide +kernel
  have hroot : walked.rules.rootOf dsStore ["a".toList, "build".toList] true = some hidden := by
    decide +kernel
  have hskipped : read.skipped = [["a".toList, "build".toList]] := by decide +kernel
  refine ⟨hpruned, ?_, ?_, hbelow walked.rules _ ["keep".toList] false hidden (cons_ne_nil _ _) hroot, hskipped,
    by decide +kernel, ?_⟩
  · refine (hwalk projectFile _ projectEntries topDown_projectEntries walked rfl _ _).mp ?_
    rw [hpruned]
    exact mem_cons_of_mem _ mem_cons_self
  · exact (hmemo walked.rules memo _ true (.asked _ false .cleared)).trans hroot
  · refine ((hremote .remoteToLocal _ _ _ _ _ read rfl rfl _).mp ?_).2
    rw [hskipped]
    exact mem_cons_self

end SyncEngine.Ignore
