import SyncEngine.Collections.Forest
import SyncEngine.DriveJob.ItemPlan

/-! # What is counted below a planned directory

The counts are filled in one pass over the files and one over the directories from the
last to the first. Every directory comes after its parent, so what a directory counts is
complete when it is passed on.
-/

namespace SyncEngine.DriveJob

open Collections List

variable {D K : Type}

def parentIndex (dirs : List (PlannedDir D)) (k : Nat) : Option Nat :=
  dirs[k]?.bind (·.parent.index)

/-- Whether what is planned in a place lies below a planned directory. -/
def LiesBelow (dirs : List (PlannedDir D)) (k : Nat) (parent : DestParent) : Prop :=
  Under (parentIndex dirs) k parent.index

def PlannedDir.uncounted (dir : PlannedDir D) : PlannedDir D :=
  { dir with descendantDirs := 0, descendantFiles := 0, descendantBytes := 0 }

def countsAt (dirs : List (PlannedDir D)) (k : Nat) : Nat × Nat × UInt64 :=
  (dirs[k]?.map fun dir => (dir.descendantDirs, dir.descendantFiles, dir.descendantBytes)).getD 0

section Passes

variable {dirs : List (PlannedDir D)}

theorem modify_uncounted {f : PlannedDir D → PlannedDir D} (hf : ∀ dir, (f dir).uncounted = dir.uncounted)
    (k : Nat) : (dirs.modify k f).map (·.uncounted) = dirs.map (·.uncounted) := by
  refine ext_getElem? fun j => ?_
  rw [getElem?_map, getElem?_map, getElem?_modify]
  cases dirs[j]? with
  | none => simp
  | some dir => by_cases heq : k = j <;> simp [heq, hf]

theorem addFile_uncounted (file : PlannedFile K) :
    (addFile dirs file).map (·.uncounted) = dirs.map (·.uncounted) := by
  unfold addFile
  split
  · refine modify_uncounted (fun dir => ?_) _
    rfl
  · rfl

theorem addDir_uncounted (index : Nat) :
    (addDir dirs index).map (·.uncounted) = dirs.map (·.uncounted) := by
  unfold addDir
  split
  · rfl
  split
  · refine modify_uncounted (fun dir => ?_) _
    rfl
  · rfl

theorem parentIndex_congr {dirs' : List (PlannedDir D)}
    (h : dirs'.map (·.uncounted) = dirs.map (·.uncounted)) : parentIndex dirs' = parentIndex dirs := by
  funext k
  have hk := congrArg (fun l => (l[k]?).bind fun dir => dir.parent.index) h
  rw [getElem?_map, getElem?_map, Option.bind_map, Option.bind_map] at hk
  exact hk

theorem countsAt_modify {f : PlannedDir D → PlannedDir D} {p k : Nat} (hp : p < dirs.length)
    {c : Nat × Nat × UInt64} (hf : ∀ dir, ((f dir).descendantDirs, (f dir).descendantFiles,
      (f dir).descendantBytes) = (dir.descendantDirs, dir.descendantFiles, dir.descendantBytes) + c) :
    countsAt (dirs.modify p f) k = Function.update (countsAt dirs) p (countsAt dirs p + c) k := by
  unfold countsAt
  rw [getElem?_modify]
  by_cases heq : p = k
  · subst heq
    rw [Function.update_self, getElem?_eq_getElem hp]
    simpa using hf dirs[p]
  rw [Function.update_of_ne (Ne.symm heq)]
  cases dirs[k]? <;> simp [heq]

theorem countsAt_addDir (hbefore : ∀ j p, parentIndex dirs j = some p → p < j) (index : Nat) :
    countsAt (addDir dirs index) = passUp (parentIndex dirs) (1, 0, 0) (countsAt dirs) index := by
  funext k
  unfold addDir passUp
  have hparent : parentIndex dirs index = dirs[index]?.bind (·.parent.index) := rfl
  cases hdir : dirs[index]? with
  | none =>
    rw [hdir] at hparent
    rw [hparent]
    rfl
  | some dir =>
    rw [hdir] at hparent
    have hlt : index < dirs.length := (List.getElem?_eq_some_iff.mp hdir).choose
    dsimp only
    cases hplace : dir.parent with
    | existing uuid =>
      have hnone : parentIndex dirs index = none := by
        rw [hparent, Option.bind_some, hplace]
        rfl
      rw [hnone]
    | planned p =>
      have hsome : parentIndex dirs index = some p := by
        rw [hparent, Option.bind_some, hplace]
        rfl
      have hp := hbefore index p hsome
      rw [hsome]
      rw [countsAt_modify (by omega : p < dirs.length)]
      intro above
      unfold countsAt
      rw [hdir]
      simp [Nat.add_comm]

theorem countsAt_addFiles (files : List (PlannedFile K))
    (hbelow : ∀ file ∈ files, ∀ p, file.parent = .planned p → p < dirs.length) (k : Nat) :
    countsAt (files.foldl addFile dirs) k = countsAt dirs k +
      ((files.filter fun file => file.parent.index = some k).map fun file => (0, 1, file.size)).sum := by
  induction files generalizing dirs with
  | nil => simp
  | cons file rest ih =>
    have hlength : (addFile dirs file).length = dirs.length := by
      have h := congrArg List.length (@addFile_uncounted D K dirs file)
      simpa using h
    rw [foldl_cons, ih fun other hother p hp => by
      rw [hlength]
      exact hbelow other (mem_cons_of_mem _ hother) p hp]
    cases hplace : file.parent with
    | existing uuid =>
      have hsame : addFile dirs file = dirs := by
        unfold addFile
        rw [hplace]
      have hout : ¬ file.parent.index = some k := by
        rw [hplace]
        exact fun h => by cases h
      rw [hsame, filter_cons_of_neg (by simpa using hout)]
    | planned p =>
      have hp := hbelow file mem_cons_self p hplace
      have hadd : addFile dirs file = dirs.modify p fun dir => { dir with
          descendantFiles := dir.descendantFiles + 1
          descendantBytes := dir.descendantBytes + file.size } := by
        unfold addFile
        rw [hplace]
      rw [hadd, countsAt_modify hp (c := (0, 1, file.size)) (fun dir => by simp)]
      by_cases heq : p = k
      · subst heq
        rw [Function.update_self, filter_cons_of_pos (by simp [hplace, DestParent.index]),
          map_cons, sum_cons, add_assoc]
      rw [Function.update_of_ne (Ne.symm heq),
        filter_cons_of_neg (by simpa [hplace, DestParent.index] using heq)]

theorem foldl_addFile_uncounted (files : List (PlannedFile K)) :
    (files.foldl addFile dirs).map (·.uncounted) = dirs.map (·.uncounted) := by
  induction files generalizing dirs with
  | nil => rfl
  | cons file rest ih => rw [foldl_cons, ih, addFile_uncounted]

theorem foldl_addDir (hbefore : ∀ j p, parentIndex dirs j = some p → p < j) (indexes : List Nat) :
    (indexes.foldl addDir dirs).map (·.uncounted) = dirs.map (·.uncounted) ∧
      countsAt (indexes.foldl addDir dirs) =
        indexes.foldl (passUp (parentIndex dirs) (1, 0, 0)) (countsAt dirs) := by
  induction indexes generalizing dirs with
  | nil => exact ⟨rfl, rfl⟩
  | cons index rest ih =>
    have hparents := parentIndex_congr (@addDir_uncounted D dirs index)
    obtain ⟨hsame, hcounts⟩ := @ih (addDir dirs index) (by rwa [hparents])
    rw [foldl_cons, foldl_cons, hsame, hcounts, addDir_uncounted,
      countsAt_addDir hbefore, hparents]
    exact ⟨rfl, rfl⟩

end Passes

/-! ## The true counts -/

section Counts

open Classical

variable {plan : ItemPlan D K}

theorem sum_counts (files : List (PlannedFile K)) :
    (files.map fun file => ((0, 1, file.size) : Nat × Nat × UInt64)).sum =
      (0, files.length, (files.map (·.size)).sum) := by
  induction files with
  | nil => rfl
  | cons file rest ih =>
    rw [map_cons, sum_cons, ih, length_cons, map_cons, sum_cons]
    exact Prod.ext rfl (Prod.ext (Nat.add_comm _ _) rfl)

theorem toNat_sum_sizes (files : List (PlannedFile K)) :
    ((files.map fun file : PlannedFile K => file.size).sum).toNat =
      (files.map fun file => file.size.toNat).sum % 2 ^ 64 := by
  induction files with
  | nil => rfl
  | cons file rest ih =>
    rw [map_cons, sum_cons, map_cons, sum_cons, UInt64.toNat_add, ih,
      Nat.add_mod_mod]

theorem card_filter_range {α : Type} (xs : List α) (q : Option α → Prop) :
    ((Finset.range xs.length).filter fun j => q xs[j]?).card = (xs.filter fun x => q (some x)).length := by
  induction xs using List.reverseRecOn with
  | nil => rfl
  | append_singleton xs x ih =>
    have hold : ((Finset.range xs.length).filter fun j => q (xs ++ [x])[j]?) =
        (Finset.range xs.length).filter fun j => q xs[j]? := by
      refine Finset.filter_congr fun j hj => ?_
      rw [getElem?_append_left (Finset.mem_range.mp hj)]
    have hlast : (xs ++ [x])[xs.length]? = some x := by simp
    rw [length_append, length_singleton, Finset.range_add_one, Finset.filter_insert, hold,
      hlast, filter_append, length_append, ← ih]
    by_cases hx : q (some x)
    · rw [if_pos hx, Finset.card_insert_of_notMem (by simp), filter_cons_of_pos (by simpa using hx)]
      rfl
    rw [if_neg hx, filter_cons_of_neg (by simpa using hx)]
    rfl

/-- Where every directory comes after its parent, and files lie in planned directories,
each directory counts what is planned below it. -/
theorem counts_fill (hbefore : ∀ j p, parentIndex plan.dirs j = some p → p < j)
    (hbelow : ∀ file ∈ plan.files, ∀ p, file.parent = .planned p → p < plan.dirs.length)
    (huncounted : ∀ k, countsAt plan.dirs k = 0) (k : Nat) :
    countsAt plan.fillDescendantCounts.dirs k =
      ((plan.dirs.filter fun dir => LiesBelow plan.dirs k dir.parent).length,
        (plan.files.filter fun file => LiesBelow plan.dirs k file.parent).length,
        ((plan.files.filter fun file => LiesBelow plan.dirs k file.parent).map (·.size)).sum) := by
  have hparents := parentIndex_congr (@foldl_addFile_uncounted D K plan.dirs plan.files)
  obtain ⟨-, hcounts⟩ := @foldl_addDir D (plan.files.foldl addFile plan.dirs)
    (by rwa [hparents]) (List.range plan.dirs.length).reverse
  have hstart : countsAt (plan.files.foldl addFile plan.dirs) = fun j =>
      ((plan.files.filter fun file => file.parent.index = some j).map fun file =>
        ((0, 1, file.size) : Nat × Nat × UInt64)).sum := by
    funext j
    rw [countsAt_addFiles plan.files hbelow, huncounted, zero_add]
  have hplace : ∀ file ∈ plan.files, ∀ p, file.parent.index = some p → p < plan.dirs.length := by
    intro file hfile p hp
    cases hparent : file.parent with
    | existing uuid =>
      rw [hparent] at hp
      cases hp
    | planned q =>
      rw [hparent] at hp
      cases hp
      exact hbelow file hfile p hparent
  have hcard : ((Finset.range plan.dirs.length).filter fun j =>
      Under (parentIndex plan.dirs) k (parentIndex plan.dirs j)).card =
      (plan.dirs.filter fun dir => LiesBelow plan.dirs k dir.parent).length :=
    card_filter_range plan.dirs fun o => Under (parentIndex plan.dirs) k (o.bind (·.parent.index))
  have hone : ∀ n : Nat, n • ((1, 0, 0) : Nat × Nat × UInt64) = (n, 0, 0) := by
    intro n
    simp
  unfold ItemPlan.fillDescendantCounts
  rw [hcounts, hparents, hstart,
    foldl_passUp_hung hbefore (1, 0, 0) plan.dirs.length (fun file : PlannedFile K => file.parent.index)
      (fun file => (0, 1, file.size)) plan.files hplace k, sum_counts, hcard, hone]
  exact Prod.ext (Nat.zero_add _) (Prod.ext (Nat.add_zero _) (UInt64.add_zero _))

end Counts

end SyncEngine.DriveJob
