import SyncEngine.Collections.Folds
import SyncEngine.Collections.Walks
import SyncEngine.FsTree.Levels

/-! # What a tree keeps of a walk

Of the entries side by side that were accepted, one keeps each name. The tree keeps those, in
any order, and below each what is kept of its own. An array reads as such a tree where each
directory's run holds its children.
-/

namespace SyncEngine.FsTree

open Collections Builder List

variable {D F : Type}

/-- What an entry is taken as, if it is. -/
def WalkEntry.accepted (entry : WalkEntry D F) : Option (Seen D F) :=
  match entry.name, entry.entryType with
  | .ok name, .ok (.dir extra) => some (.dir name extra)
  | .ok name, .ok (.file extra (.ok size)) => some (.file name extra size)
  | _, _ => none

/-- Whether a walk may find entries below one: a walker does not look into files. -/
def WalkEntry.opens (entry : WalkEntry D F) : Bool :=
  match entry.entryType with
  | .ok (.file _ _) => false
  | _ => true

/-- The entries side by side that were accepted, each with the walk below it. -/
def acceptedRoots : Grove (WalkEntry D F) → List (Seen D F × Grove (WalkEntry D F))
  | .nil => []
  | .node entry below beside =>
    match entry.accepted with
    | some seen => (seen, below) :: acceptedRoots beside
    | none => acceptedRoots beside

section Kept

variable (key : Name → Name) (prefers : Seen D F → Seen D F → Bool)

/-- Those that keep their names, each the champion of the ones that collide with it. -/
def winners (g : Grove (WalkEntry D F)) : List (Seen D F × Grove (WalkEntry D F)) :=
  (groups (fun tree => key tree.1.name) (acceptedRoots g)).map (champion fun a b => prefers a.1 b.1)

/-- A grove keeps trees in their order, and below each its winners in any. -/
def KeptBy : List (Seen D F × Grove (WalkEntry D F)) → Grove (Seen D F) → Prop
  | trees, .nil => trees = []
  | trees, .node seen below beside => ∃ inside rest, trees = (seen, inside) :: rest ∧
      (∃ within, within.Perm (winners key prefers inside) ∧ KeptBy within below) ∧ KeptBy rest beside

/-- What a tree keeps of a walk: the winners, in any order, and below each what is kept of its own. -/
def Kept (g : Grove (WalkEntry D F)) (kept : Grove (Seen D F)) : Prop :=
  ∃ within, within.Perm (winners key prefers g) ∧ KeptBy key prefers within kept

def Apart : Grove (Seen D F) → Prop
  | .nil => True
  | .node _ below beside => (below.roots.map fun tree => key tree.1.name).Nodup ∧ Apart below ∧ Apart beside

end Kept

section Reads

variable (entries : List (Entry D F))

def childrenOf : Entry D F → List (Entry D F)
  | .dir _ info _ => (entries.drop info.startIdx).take info.numChildren
  | .file _ _ _ => []

def InRange : Entry D F → Prop
  | .dir _ info _ => info.startIdx + info.numChildren ≤ entries.length
  | .file _ _ _ => True

/-- Entries side by side, with the runs below them, read as a grove. -/
def Reads : List (Entry D F) → Grove (Seen D F) → Prop
  | level, .nil => level = []
  | level, .node seen below beside => ∃ entry rest, level = entry :: rest ∧ entry.seen = seen ∧
      InRange entries entry ∧ Reads (childrenOf entries entry) below ∧ Reads rest beside

end Reads

variable {entries more : List (Entry D F)} {entry : Entry D F}

theorem InRange.append (h : InRange entries entry) : InRange (entries ++ more) entry := by
  cases entry with
  | file => trivial
  | dir name info extra =>
    unfold InRange at h ⊢
    rw [length_append]
    exact Nat.le_add_right_of_le h

theorem childrenOf_append (h : InRange entries entry) : childrenOf (entries ++ more) entry = childrenOf entries entry := by
  cases entry with
  | file => rfl
  | dir name info extra =>
    have hle : info.startIdx + info.numChildren ≤ entries.length := h
    unfold childrenOf
    dsimp only
    rw [drop_append_of_le_length (by omega), take_append_of_le_length (by rw [length_drop]; omega)]

theorem Reads.append {level : List (Entry D F)} {g : Grove (Seen D F)} (h : Reads entries level g) :
    Reads (entries ++ more) level g := by
  induction g generalizing level with
  | nil => exact h
  | node seen below beside hbelow hbeside =>
    obtain ⟨entry, rest, rfl, hseen, hrange, hchildren, hrest⟩ := h
    refine ⟨entry, rest, rfl, hseen, hrange.append, ?_, hbeside hrest⟩
    rw [childrenOf_append hrange]
    exact hbelow hchildren

/-- An entry of the array, with the walk below it and what is kept of that. -/
structure Row (D F : Type) where
  entry : Entry D F
  inside : Grove (WalkEntry D F)
  below : Grove (Seen D F)

namespace Row

def tree (row : Row D F) : Seen D F × Grove (WalkEntry D F) := (row.entry.seen, row.inside)

def kept (row : Row D F) : Seen D F × Grove (Seen D F) := (row.entry.seen, row.below)

def yields (prefers : Seen D F → Seen D F → Bool) (a b : Row D F) : Bool := prefers a.entry.seen b.entry.seen

end Row

/-- A row whose run holds what is kept of the walk below it. -/
structure RowOk (key : Name → Name) (prefers : Seen D F → Seen D F → Bool) (entries : List (Entry D F))
    (row : Row D F) : Prop where
  range : InRange entries row.entry
  reads : Reads entries (childrenOf entries row.entry) row.below
  kept : Kept key prefers row.inside row.below

section Rows

variable {key : Name → Name} {prefers : Seen D F → Seen D F → Bool} {rows : List (Row D F)} {row : Row D F}

theorem RowOk.append (h : RowOk key prefers entries row) : RowOk key prefers (entries ++ more) row where
  range := h.range.append
  reads := by
    rw [childrenOf_append h.range]
    exact h.reads.append
  kept := h.kept

theorem reads_rows (h : ∀ row ∈ rows, RowOk key prefers entries row) :
    Reads entries (rows.map Row.entry) (Grove.ofRoots (rows.map Row.kept)) := by
  induction rows with
  | nil => rfl
  | cons row rows ih =>
    obtain ⟨hrow, hrows⟩ := forall_mem_cons.mp h
    exact ⟨row.entry, rows.map Row.entry, rfl, rfl, hrow.range, hrow.reads, ih hrows⟩

theorem keptBy_rows (h : ∀ row ∈ rows, RowOk key prefers entries row) :
    KeptBy key prefers (rows.map Row.tree) (Grove.ofRoots (rows.map Row.kept)) := by
  induction rows with
  | nil => rfl
  | cons row rows ih =>
    obtain ⟨hrow, hrows⟩ := forall_mem_cons.mp h
    exact ⟨row.inside, rows.map Row.tree, rfl, hrow.kept, ih hrows⟩

theorem exists_perm_map {α β : Type} {f : α → β} {xs : List α} {ys : List β} (h : ys.Perm (xs.map f)) :
    ∃ zs : List α, zs.Perm xs ∧ zs.map f = ys := by
  generalize hmap : xs.map f = images at h
  induction h generalizing xs with
  | nil => exact ⟨[], by rw [map_eq_nil_iff.mp hmap], rfl⟩
  | cons y _ ih =>
    obtain ⟨x, rest, rfl, rfl, hrest⟩ := map_eq_cons_iff.mp hmap
    obtain ⟨zs, hperm, hzs⟩ := ih hrest
    exact ⟨x :: zs, hperm.cons x, congrArg (f x :: ·) hzs⟩
  | swap a b l =>
    obtain ⟨x, rest, rfl, rfl, hrest⟩ := map_eq_cons_iff.mp hmap
    obtain ⟨y, rest', rfl, rfl, rfl⟩ := map_eq_cons_iff.mp hrest
    exact ⟨y :: x :: rest', List.Perm.swap x y rest', rfl⟩
  | trans _ _ ih₁ ih₂ =>
    obtain ⟨mid, hmid, hmapMid⟩ := ih₂ hmap
    obtain ⟨zs, hzs, hmapZs⟩ := ih₁ hmapMid
    exact ⟨zs, hzs.trans hmid, hmapZs⟩

theorem preferred_some {strategy : CompareStrategy D F} (h : ∀ a b, strategy a b = some (prefers a b))
    (group : Group Name (Entry D F)) :
    preferred strategy group = some (champion (fun a b => prefers a.seen b.seen) group) := by
  unfold Builder.preferred champion
  generalize group.first = first
  induction group.extra generalizing first with
  | nil => rfl
  | cons x xs ih =>
    rw [foldlM_cons, foldl_cons, h]
    exact ih _

theorem filterChildren_rows (hash : HashOrder (Group Name (Entry D F))) {strategy : CompareStrategy D F}
    (hdecides : (∀ a b, strategy a b = some (prefers a b)) ∨ (rows.map fun row => key row.entry.name).Nodup)
    (n : Nat) (ancestors : List Name) (parent : Option Name) :
    ∃ (kept : List (Row D F)) (errors : List WalkError),
      filterChildren key hash strategy n ancestors parent (rows.map Row.entry) =
        .ok (kept.map Row.entry, errors) ∧
      kept.Perm ((groups (fun row => key row.entry.name) rows).map (champion (Row.yields prefers))) := by
  have hgroups : groups (fun entry : Entry D F => key entry.name) (rows.map Row.entry) =
      (groups (fun row => key row.entry.name) rows).map (Group.map Row.entry) := groups_map Row.entry rows
  have hperm := hash.perm n (groups (fun entry : Entry D F => key entry.name) (rows.map Row.entry))
  generalize hfound : hash.order n (groups (fun entry : Entry D F => key entry.name) (rows.map Row.entry)) = found at hperm
  rw [hgroups] at hperm
  obtain ⟨chosen, hchosen, hmap⟩ := exists_perm_map hperm
  rw [← hmap] at hfound
  -- each group has its champion, or nothing to compare it with
  have hpreferred : ∀ group ∈ chosen, preferred strategy (Group.map Row.entry group) =
      some (champion (Row.yields prefers) group).entry := by
    intro group hgroup
    have hchampion : champion (fun a b : Entry D F => prefers a.seen b.seen) (Group.map Row.entry group) =
        (champion (Row.yields prefers) group).entry := champion_map Row.entry _ group
    rcases hdecides with htotal | hnodup
    · rw [preferred_some htotal, hchampion]
    have hmem := hchosen.subset hgroup
    rw [groups_of_nodup hnodup] at hmem
    obtain ⟨row, -, rfl⟩ := mem_map.mp hmem
    rfl
  have hkept : (chosen.map (Group.map Row.entry)).mapM (preferred strategy) =
      some ((chosen.map (champion (Row.yields prefers))).map Row.entry) := by
    rw [mapM_map, map_map]
    exact mapM_eq_map hpreferred
  unfold Builder.filterChildren
  dsimp only
  rw [hfound, hkept]
  exact ⟨chosen.map (champion (Row.yields prefers)), _, rfl, hchosen.map _⟩

end Rows

end SyncEngine.FsTree
