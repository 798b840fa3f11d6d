import SyncEngine.FsTree.Passes

/-! # A tree taken as a walk again

The second pass takes what the first kept as a walk of its own. Nothing in it is rejected and no
two entries side by side collide, so it keeps what the first did, in an order of its own.
-/

namespace SyncEngine.FsTree

open Collections Grove Builder List

variable {D F : Type} {key : Name → Name} {prefers : Seen D F → Seen D F → Bool}

def again (item : Seen D F × Nat) : WalkEntry D F where
  depth := item.2 + 1
  name := .ok item.1.name
  entryType :=
    match item.1 with
    | .dir _ extra => .ok (.dir extra)
    | .file _ extra size => .ok (.file extra (.ok size))

theorem secondPassEntry_eq (item : Entry D F × Nat) : secondPassEntry item = again (item.1.seen, item.2) := by
  obtain ⟨entry, depth⟩ := item
  cases entry <;> rfl

theorem accepted_again (item : Seen D F × Nat) : (again item).accepted = some item.1 := by
  obtain ⟨seen, depth⟩ := item
  cases seen <;> rfl

def retold (depth : Nat) : Grove (Seen D F) → Grove (WalkEntry D F)
  | .nil => .nil
  | .node seen below beside => .node (again (seen, depth)) (retold (depth + 1) below) (retold depth beside)

theorem walk_retold (depth : Nat) (kept : Grove (Seen D F)) :
    (retold depth kept).walk (depth + 1) = (kept.walk depth).map fun item => (again item, item.2 + 1) := by
  induction kept generalizing depth with
  | nil => rfl
  | node seen below beside hbelow hbeside =>
    rw [retold, walk, walk, map_cons, map_append, hbelow, hbeside]

theorem listed_retold (depth : Nat) (kept : Grove (Seen D F)) :
    listed (retold depth kept) (depth + 1) = (kept.walk depth).map again := by
  unfold Builder.listed
  rw [walk_retold, map_map]
  rfl

theorem told_retold (depth : Nat) (kept : Grove (Seen D F)) : Told (depth + 1) (retold depth kept) := by
  intro item hitem
  rw [walk_retold] at hitem
  obtain ⟨told, -, rfl⟩ := mem_map.mp hitem
  rfl

theorem acceptedRoots_retold (depth : Nat) (kept : Grove (Seen D F)) :
    acceptedRoots (retold depth kept) = kept.roots.map fun tree => (tree.1, retold (depth + 1) tree.2) := by
  induction kept with
  | nil => rfl
  | node seen below beside _ hbeside =>
    rw [retold, acceptedRoots, accepted_again, roots, map_cons, hbeside]

theorem closed_retold {entries level : List (Entry D F)} {kept : Grove (Seen D F)} (h : Reads entries level kept) (depth : Nat) :
    (retold depth kept).Closed WalkEntry.opens := by
  induction kept generalizing level depth with
  | nil => trivial
  | node seen below beside hbelow hbeside =>
    obtain ⟨entry, rest, rfl, rfl, -, hchildren, hrest⟩ := h
    refine ⟨fun hshut => ?_, hbelow hchildren _, hbeside hrest _⟩
    cases entry with
    | dir name info extra => cases hshut
    | file name extra size =>
      rw [reads_nil hchildren]
      rfl

theorem nodup_winners (g : Grove (WalkEntry D F)) :
    ((winners key prefers g).map fun tree => key tree.1.name).Nodup := by
  have hkeys : ((winners key prefers g).map fun tree => key tree.1.name) =
      (groups (fun tree : Seen D F × Grove (WalkEntry D F) => key tree.1.name) (acceptedRoots g)).map Group.key := by
    unfold winners
    rw [map_map]
    refine map_congr_left fun group hgroup => ?_
    exact key_of_member _ group hgroup _ (champion_mem _ group)
  rw [hkeys]
  exact nodup_keys_groups _

/-- No two entries side by side collide, nor any two below them. -/
def NoneCollide (key : Name → Name) (kept : Grove (Seen D F)) : Prop :=
  (kept.roots.map fun tree => key tree.1.name).Nodup ∧ Apart key kept

variable {trees : List (Seen D F × Grove (WalkEntry D F))} {g : Grove (WalkEntry D F)}

theorem keptBy_apart {kept : Grove (Seen D F)}
    (h : KeptBy key prefers trees kept) : kept.roots.map Prod.fst = trees.map Prod.fst ∧ Apart key kept := by
  induction kept generalizing trees with
  | nil =>
    obtain rfl : trees = [] := h
    exact ⟨rfl, trivial⟩
  | node seen below beside hbelow hbeside =>
    obtain ⟨inside, rest, rfl, ⟨within, hperm, hwithin⟩, hrest⟩ := h
    obtain ⟨hroots, hapart⟩ := hbeside hrest
    obtain ⟨hroots', hapart'⟩ := hbelow hwithin
    refine ⟨congrArg (seen :: ·) hroots, ?_, hapart', hapart⟩
    have hkeys := (hperm.map fun tree => key tree.1.name).nodup_iff.mpr (nodup_winners inside)
    have hsame := congrArg (List.map fun seen : Seen D F => key seen.name) hroots'
    rw [map_map, map_map] at hsame
    exact hsame ▸ hkeys

theorem Kept.noneCollide {kept : Grove (Seen D F)} (h : Kept key prefers g kept) :
    NoneCollide key kept := by
  obtain ⟨within, hperm, hwithin⟩ := h
  obtain ⟨hroots, hapart⟩ := keptBy_apart hwithin
  have hkeys := (hperm.map fun tree => key tree.1.name).nodup_iff.mpr (nodup_winners g)
  have hsame := congrArg (List.map fun seen : Seen D F => key seen.name) hroots
  rw [map_map, map_map] at hsame
  exact ⟨hsame ▸ hkeys, hapart⟩

theorem noneCollide_of_mem_roots {kept : Grove (Seen D F)} (h : Apart key kept) : ∀ tree ∈ kept.roots, NoneCollide key tree.2 := by
  induction kept with
  | nil => exact fun _ hnone => nomatch hnone
  | node seen below beside _ hbeside =>
    obtain ⟨hroots, hbelow, hrest⟩ := h
    exact forall_mem_cons.mpr ⟨⟨hroots, hbelow⟩, hbeside hrest⟩

theorem decides_retold {kept : Grove (Seen D F)} (h : NoneCollide key kept) (strategy : CompareStrategy D F) (depth : Nat) :
    Decides key strategy prefers (retold depth kept) := by
  right
  rw [acceptedRoots_retold, map_map]
  exact h.1

theorem decided_retold {kept : Grove (Seen D F)} (h : Apart key kept) (strategy : CompareStrategy D F) (depth : Nat) :
    Decided key strategy prefers (retold depth kept) := by
  induction kept generalizing depth with
  | nil => trivial
  | node seen below beside hbelow hbeside =>
    obtain ⟨hroots, hbelow', hrest⟩ := h
    exact ⟨decides_retold ⟨hroots, hbelow'⟩ strategy _, hbelow hbelow' _, hbeside hrest _⟩

/-! ## What the second pass keeps -/

theorem winners_retold {kept : Grove (Seen D F)} (h : NoneCollide key kept) (depth : Nat) :
    winners key prefers (retold depth kept) = kept.roots.map fun tree => (tree.1, retold (depth + 1) tree.2) := by
  unfold winners
  rw [acceptedRoots_retold, groups_of_nodup (by rw [map_map]; exact h.1), map_map]
  exact map_id _

theorem walk_ofRoots (trees : List (Seen D F × Grove (Seen D F))) (depth : Nat) :
    (ofRoots trees).walk depth = trees.flatMap fun tree => (tree.1, depth) :: tree.2.walk (depth + 1) := by
  induction trees with
  | nil => rfl
  | cons tree trees ih =>
    rw [flatMap_cons, ← ih]
    rfl

theorem keptBy_roots {kept : Grove (Seen D F)} (h : KeptBy key prefers trees kept) :
    List.Forall₂ (fun tree root => tree.1 = root.1 ∧ Kept key prefers tree.2 root.2) trees kept.roots := by
  induction kept generalizing trees with
  | nil =>
    obtain rfl : trees = [] := h
    exact List.Forall₂.nil
  | node seen below beside _ hbeside =>
    obtain ⟨inside, rest, rfl, hkept, hrest⟩ := h
    exact List.Forall₂.cons ⟨rfl, hkept⟩ (hbeside hrest)

theorem perm_walk_ofRoots {kept : Grove (Seen D F)} {chosen : List (Seen D F × Grove (Seen D F))}
    (h : chosen.Perm kept.roots) (depth : Nat) : ((ofRoots chosen).walk depth).Perm (kept.walk depth) := by
  have hkept := walk_ofRoots kept.roots depth
  rw [ofRoots_roots] at hkept
  rw [walk_ofRoots, hkept]
  exact h.flatMap_right _

/-- What is kept of kept trees is kept of the walk they were kept of, in some other order. -/
def KeptAgain (key : Name → Name) (prefers : Seen D F → Seen D F → Bool) (kept : Grove (Seen D F)) : Prop :=
  ∀ (roots : List (Seen D F × Grove (Seen D F))) (trees : List (Seen D F × Grove (WalkEntry D F))) (depth : Nat),
    List.Forall₂ (fun tree root => tree.1 = root.1 ∧ Kept key prefers tree.2 root.2) trees roots →
    (∀ root ∈ roots, NoneCollide key root.2) →
    KeptBy key prefers (roots.map fun root => (root.1, retold depth root.2)) kept → ∀ base : Nat,
      KeptBy key prefers trees kept ∧ (kept.walk base).Perm ((ofRoots roots).walk base)

theorem KeptAgain.kept {kept kept' : Grove (Seen D F)} {depth : Nat}
    (hagain : KeptAgain key prefers kept') (h : Kept key prefers g kept)
    (h' : Kept key prefers (retold depth kept) kept') (base : Nat) :
    Kept key prefers g kept' ∧ (kept'.walk base).Perm (kept.walk base) := by
  have hnone := h.noneCollide
  obtain ⟨within, hperm, hwithin⟩ := h
  obtain ⟨within', hperm', hwithin'⟩ := h'
  rw [winners_retold hnone] at hperm'
  obtain ⟨chosen, hchosen, rfl⟩ := exists_perm_map hperm'
  -- what the first pass kept comes in the order of the second
  obtain ⟨found, hfound, hsame⟩ := perm_comp_forall₂ hchosen (keptBy_roots hwithin).flip
  have hnone' := noneCollide_of_mem_roots hnone.2
  obtain ⟨hkept, hwalk⟩ := hagain chosen found _ hfound.flip (fun root hmem => hnone' root (hchosen.subset hmem)) hwithin' base
  exact ⟨⟨found, hsame.trans hperm, hkept⟩, hwalk.trans (perm_walk_ofRoots hchosen base)⟩

theorem keptAgain (kept : Grove (Seen D F)) : KeptAgain key prefers kept := by
  induction kept with
  | nil =>
    intro roots trees depth htrees hapart h base
    obtain rfl := map_eq_nil_iff.mp h
    cases htrees
    exact ⟨rfl, List.Perm.refl _⟩
  | node seen below beside hbelow hbeside =>
    intro roots trees depth htrees hapart h base
    obtain ⟨inside, rest, hroots, hinside, hrest⟩ := h
    obtain ⟨root, roots, rfl, heq, rfl⟩ := map_eq_cons_iff.mp hroots
    obtain ⟨rfl, rfl⟩ := Prod.mk.inj heq
    cases htrees with
    | cons hfirst htrees =>
      rename_i tree trees
      obtain ⟨tree, inside⟩ := tree
      obtain ⟨rfl, hkept⟩ := hfirst
      obtain ⟨hby, hwalk⟩ := hbeside roots trees _ htrees (forall_mem_cons.mp hapart).2 hrest base
      obtain ⟨hkept', hwalk'⟩ := hbelow.kept hkept hinside (base + 1)
      exact ⟨⟨inside, trees, rfl, hkept', hby⟩, (hwalk'.append hwalk).cons _⟩

def Seen.isDir : Seen D F → Bool
  | .dir _ _ => true
  | .file _ _ _ => false

def Seen.bytes : Seen D F → Nat
  | .dir _ _ => 0
  | .file _ _ size => size

/-- The numbers of directories and files, and the bytes of these as far as the counter counts. -/
def statsOf (entries : List (Seen D F)) : FSStats where
  dirs := entries.countP Seen.isDir
  files := entries.countP fun seen => !seen.isDir
  bytes := (entries.map Seen.bytes).sum % 2 ^ 64

theorem statsOf_perm {entries entries' : List (Seen D F)} (h : entries.Perm entries') : statsOf entries = statsOf entries' := by
  unfold statsOf
  rw [h.countP_eq, h.countP_eq, (h.map _).sum_eq]

theorem statsOf_concat (entries : List (Seen D F)) (seen : Seen D F) :
    statsOf (entries ++ [seen]) = Builder.count seen (statsOf entries) := by
  cases seen <;>
    simp [statsOf, Builder.count, FSStats.addDir, FSStats.addFile, Seen.isDir, Seen.bytes, countP_append]

theorem tally_retold (depth : Nat) (kept : Grove (Seen D F)) (before : List (Seen D F)) :
    tally (retold depth kept) (statsOf before) = statsOf (before ++ (kept.walk depth).map Prod.fst) := by
  induction kept generalizing depth before with
  | nil => rw [walk, map_nil, append_nil]; rfl
  | node seen below beside hbelow hbeside =>
    rw [retold, tally, accepted_again]
    dsimp only
    rw [← statsOf_concat, hbelow, hbeside, walk, map_cons, map_append]
    simp

end SyncEngine.FsTree
