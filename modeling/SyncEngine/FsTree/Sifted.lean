import Mathlib.Data.List.Infix
import SyncEngine.FsTree.Filtered
import SyncEngine.FsTree.Built

/-! # What a filter takes of a walk

The directories held back above an entry are those nothing was taken of. Taking an entry hands
them out before it, so what comes out of a tree is what is wanted of it with what is above.
-/

namespace SyncEngine.FsTree.FilteredWalk

open Collections Builder Grove List

variable {D F : Type} {filter : TransferFilter}

def drained (walk : FilteredWalk D F) : FilteredWalk D F := { walk with ready := [] }

def emitted (filter : TransferFilter) : List (Except WalkError (WalkEntry D F)) → FilteredWalk D F →
    List (Except WalkError (WalkEntry D F))
  | [], walk => walk.ready
  | .ok entry :: inner, walk => walk.ready ++ emitted filter inner (lookAt filter entry walk.drained)
  | .error e :: inner, walk => walk.ready ++ .error e :: emitted filter inner walk.drained

theorem next_emitted (filter : TransferFilter) (inner : List (Except WalkError (WalkEntry D F))) (walk : FilteredWalk D F) :
    match next filter inner walk with
    | none => emitted filter inner walk = []
    | some (item, inner', walk') => emitted filter inner walk = item :: emitted filter inner' walk' := by
  induction inner generalizing walk with
  | nil =>
    obtain ⟨ancestors, skipping, ready⟩ := walk
    cases ready <;> rfl
  | cons item inner ih =>
    obtain ⟨ancestors, skipping, ready⟩ := walk
    cases ready with
    | cons first ready => cases item <;> rfl
    | nil =>
      cases item with
      | error e => rfl
      | ok entry => exact ih _

theorem collect_emitted (inner : List (Except WalkError (WalkEntry D F))) (walk : FilteredWalk D F) (steps : Nat)
    (h : (emitted filter inner walk).length < steps) :
    collect filter steps inner walk = some (emitted filter inner walk) := by
  induction steps generalizing inner walk with
  | zero => cases h
  | succ steps ih =>
    have hnext := next_emitted filter inner walk
    unfold collect
    cases hstep : next filter inner walk with
    | none =>
      rw [hstep] at hnext
      rw [hnext]
    | some step =>
      obtain ⟨item, inner', walk'⟩ := step
      rw [hstep] at hnext
      dsimp only at hnext ⊢
      rw [hnext] at h
      rw [hnext, ih inner' walk' (Nat.lt_of_succ_lt_succ h)]
      rfl

/-- The entries taken of a walk whose errors are left out, and where it is left. -/
def sift (filter : TransferFilter) : List (WalkEntry D F) → FilteredWalk D F → List (WalkEntry D F) × FilteredWalk D F
  | [], walk => ([], walk)
  | entry :: entries, walk =>
    let looked := lookAt filter entry walk
    let rest := sift filter entries looked.drained
    (looked.ready.filterMap Except.toOption ++ rest.1, rest.2)

theorem sift_append (entries rest : List (WalkEntry D F)) (walk : FilteredWalk D F) :
    sift filter (entries ++ rest) walk =
      ((sift filter entries walk).1 ++ (sift filter rest (sift filter entries walk).2).1,
        (sift filter rest (sift filter entries walk).2).2) := by
  induction entries generalizing walk with
  | nil => rfl
  | cons entry entries ih =>
    rw [cons_append, sift, sift]
    rw [ih]
    exact congrArg (·, _) (append_assoc _ _ _).symm

/-! ## The directories above -/

def release (ancestor : Ancestor D F) : Ancestor D F := { ancestor with held := none }

def flushed (held : List (Ancestor D F)) (kept : List (WalkEntry D F)) : List (WalkEntry D F) :=
  if kept.isEmpty then [] else held.filterMap Ancestor.held ++ kept

def leftHeld (held : List (Ancestor D F)) (kept : List (WalkEntry D F)) : List (Ancestor D F) :=
  if kept.isEmpty then held else held.map release

section

variable (held : List (Ancestor D F))
include held

theorem held_release : (held.map release).filterMap Ancestor.held = [] := by
  rw [filterMap_map]
  exact filterMap_eq_nil_iff.mpr fun _ _ => rfl

theorem release_release : (held.map release).map release = held.map release := by
  rw [map_map]
  rfl

theorem flushed_append (kept more : List (WalkEntry D F)) :
    flushed held kept ++ flushed (leftHeld held kept) more = flushed held (kept ++ more) := by
  cases kept with
  | nil => rfl
  | cons first kept =>
    cases more with
    | nil => exact (append_nil _).trans (congrArg _ (append_nil _).symm)
    | cons second more =>
      have hreleased : flushed (leftHeld held (first :: kept)) (second :: more) = second :: more := by
        have hleft : flushed (leftHeld held (first :: kept)) (second :: more) =
            (held.map release).filterMap Ancestor.held ++ second :: more := rfl
        rw [hleft, held_release, nil_append]
      rw [hreleased]
      exact append_assoc _ _ _

theorem leftHeld_append (kept more : List (WalkEntry D F)) :
    leftHeld (leftHeld held kept) more = leftHeld held (kept ++ more) := by
  cases kept with
  | nil => rfl
  | cons first kept =>
    cases more with
    | nil => rfl
    | cons second more => exact release_release held

theorem flushed_push (ancestor : Ancestor D F) (kept : List (WalkEntry D F)) :
    flushed (held ++ [ancestor]) kept = flushed held (if kept.isEmpty then [] else ancestor.held.toList ++ kept) := by
  cases kept with
  | nil => rfl
  | cons first kept =>
    obtain ⟨name, own, included⟩ := ancestor
    unfold flushed
    rw [filterMap_append]
    cases own <;> simp

theorem leftHeld_push (ancestor : Ancestor D F) (kept : List (WalkEntry D F)) :
    leftHeld (held ++ [ancestor]) kept = leftHeld held kept ++ [if kept.isEmpty then ancestor else release ancestor] := by
  cases kept with
  | nil => rfl
  | cons first kept => exact map_append

end

def nameOf (entry : WalkEntry D F) : Name :=
  match entry.name with
  | .ok name => name
  | .error _ => []

def admits (filter : TransferFilter) (chain : List (WalkEntry D F)) : Bool :=
  filter.includePaths.isNone || chain.inits.any filter.includesLast

/-- The directories on the way to an entry, none excluded. -/
structure Fits (filter : TransferFilter) (above : List (WalkEntry D F)) (held : List (Ancestor D F)) : Prop where
  names : held.map Ancestor.name = above.map nameOf
  included : (filter.includePaths.isNone || held.getLast?.any Ancestor.included) = admits filter above
  clean : above.inits.all (fun above => !filter.excludesLast above) = true

section Fits

variable {above : List (WalkEntry D F)} {held : List (Ancestor D F)} {entry : WalkEntry D F} {ancestor : Ancestor D F}

theorem Fits.length (h : Fits filter above held) : held.length = above.length := by
  have hlength := congrArg List.length h.names
  rwa [length_map, length_map] at hlength

theorem Fits.release (h : Fits filter above held) : Fits filter above (held.map release) where
  names := by
    rw [map_map]
    exact h.names
  included := by
    rw [← h.included, getLast?_map]
    cases held.getLast? <;> rfl
  clean := h.clean

theorem Fits.leftHeld (h : Fits filter above held) (kept : List (WalkEntry D F)) : Fits filter above (leftHeld held kept) := by
  unfold FilteredWalk.leftHeld
  split
  · exact h
  · exact h.release

theorem inits_concat {α : Type} (xs : List α) (x : α) : (xs ++ [x]).inits = xs.inits ++ [xs ++ [x]] := by
  rw [inits_append]
  rfl

theorem admits_concat (chain : List (WalkEntry D F)) (entry : WalkEntry D F) :
    admits filter (chain ++ [entry]) = (admits filter chain || filter.includesLast (chain ++ [entry])) := by
  unfold admits
  rw [inits_concat, any_append, any_cons, any_nil, Bool.or_false, Bool.or_assoc]

theorem takes_concat (h : Fits filter above held) (entry : WalkEntry D F) :
    filter.takes (above ++ [entry]) = (!filter.excludesLast (above ++ [entry]) && admits filter (above ++ [entry])) := by
  unfold TransferFilter.takes admits
  rw [inits_concat, all_append, h.clean, all_cons, all_nil, Bool.and_true, Bool.true_and]

theorem takes_of_excluded {chain : List (WalkEntry D F)} (h : filter.excludesLast chain) (more : List (WalkEntry D F)) :
    filter.takes (chain ++ more) = false := by
  have hmem : chain ∈ (chain ++ more).inits := (mem_inits _ _).mpr (prefix_append _ _)
  have hall : (chain ++ more).inits.all (fun above => !filter.excludesLast above) = false := by
    refine all_eq_false.mpr ⟨chain, hmem, ?_⟩
    rw [h]
    exact Bool.false_ne_true
  unfold TransferFilter.takes
  rw [hall, Bool.false_and]

theorem Fits.push (h : Fits filter above held) (hname : ancestor.name = nameOf entry)
    (hincluded : ancestor.included = admits filter (above ++ [entry]))
    (hclean : filter.excludesLast (above ++ [entry]) = false) : Fits filter (above ++ [entry]) (held ++ [ancestor]) where
  names := by rw [map_append, map_append, h.names, map_singleton, map_singleton, hname]
  included := by
    rw [getLast?_concat, Option.any_some, hincluded]
    unfold admits
    cases filter.includePaths.isNone <;> rfl
  clean := by
    rw [inits_concat, all_append, h.clean, all_cons, hclean]
    rfl

theorem pathOf_concat (h : Fits filter above held) {name : Name} (hname : entry.name = .ok name) :
    TransferFilter.pathOf (above ++ [entry]) = FSTree.joinPath (held.map Ancestor.name ++ [name]) := by
  have hchain : TransferFilter.pathOf (above ++ [entry]) = FSTree.joinPath ((above ++ [entry]).map nameOf) := rfl
  have hlast : nameOf entry = name := by
    unfold nameOf
    rw [hname]
  rw [hchain, map_append, map_singleton, hlast, h.names]

end Fits

/-! ## Looking at an entry -/

/-- Where a walk is looked at next below some directories. -/
structure Stands (filter : TransferFilter) (above : List (WalkEntry D F)) (held : List (Ancestor D F))
    (walk : FilteredWalk D F) : Prop where
  fits : Fits filter above held
  ancestors : walk.ancestors.take above.length = held
  settled : ∀ excluded, walk.skippingBelow = some excluded → above.length < excluded
  ready : walk.ready = []

section Looks

variable {above : List (WalkEntry D F)} {held : List (Ancestor D F)} {entry : WalkEntry D F} {walk : FilteredWalk D F}

theorem lookAt_stands (h : Stands filter above held walk) (hdepth : entry.depth = above.length + 1) :
    lookAt filter entry walk = lookBelow filter entry ⟨held, none, []⟩ := by
  have hnot : walk.skippingBelow.any (fun excluded => excluded < entry.depth) = false := by
    cases hskipping : walk.skippingBelow with
    | none => rfl
    | some excluded =>
      have hle := h.settled excluded hskipping
      exact decide_eq_false (by omega)
  unfold lookAt
  rw [hnot, if_neg Bool.false_ne_true, hdepth, Nat.add_sub_cancel, h.ancestors, h.ready]

/-- What looking at an entry comes to: it is excluded, taken, or passed over for now. -/
inductive Looked (filter : TransferFilter) (above : List (WalkEntry D F)) (held : List (Ancestor D F)) (entry : WalkEntry D F)
    (after : FilteredWalk D F) : Prop
  | excluded (hexcluded : filter.excludesLast (above ++ [entry]) = true) (hancestors : after.ancestors = held)
      (hskipping : after.skippingBelow = if entry.isDir then some entry.depth else none) (hready : after.ready = [])
  | taken (hclean : filter.excludesLast (above ++ [entry]) = false) (hadmits : admits filter (above ++ [entry]) = true)
      (hancestors : after.ancestors = held.map release ++ if entry.isDir then [⟨nameOf entry, none, true⟩] else [])
      (hskipping : after.skippingBelow = none) (hready : after.ready = (held.filterMap Ancestor.held).map .ok ++ [.ok entry])
  | passed (hclean : filter.excludesLast (above ++ [entry]) = false) (hadmits : admits filter (above ++ [entry]) = false)
      (hancestors : after.ancestors = held ++ if entry.isDir then [⟨nameOf entry, some entry, false⟩] else [])
      (hskipping : after.skippingBelow = none) (hready : after.ready = [])

theorem excludesLast_concat (h : Fits filter above held) {name : Name} (hname : entry.name = .ok name) :
    filter.excludesLast (above ++ [entry]) =
      filter.excludes (FSTree.joinPath (held.map Ancestor.name ++ [name])) entry.isDir := by
  unfold TransferFilter.excludesLast
  rw [getLast?_concat, Option.any_some, hname, pathOf_concat h hname]

theorem includesLast_concat (h : Fits filter above held) {name : Name} (hname : entry.name = .ok name) :
    filter.includesLast (above ++ [entry]) = filter.includePaths.any fun matches' =>
      matches' (FSTree.joinPath (held.map Ancestor.name ++ [name])) entry.isDir := by
  unfold TransferFilter.includesLast
  rw [getLast?_concat, Option.any_some, hname, pathOf_concat h hname]

theorem lookBelow_looked (h : Fits filter above held) (entry : WalkEntry D F) :
    Looked filter above held entry (lookBelow filter entry ⟨held, none, []⟩) := by
  unfold lookBelow
  cases hname : entry.name with
  | error e =>
    have hlast : nameOf entry = [] := by
      unfold nameOf
      rw [hname]
    have hclean : filter.excludesLast (above ++ [entry]) = false := by
      unfold TransferFilter.excludesLast
      rw [getLast?_concat, Option.any_some, hname]
    have hadmits : admits filter (above ++ [entry]) := by
      have hincludes : filter.includesLast (above ++ [entry]) := by
        unfold TransferFilter.includesLast
        rw [getLast?_concat, Option.any_some, hname]
      rw [admits_concat, hincludes, Bool.or_true]
    cases hdir : entry.isDir with
    | false =>
      refine .taken hclean hadmits ?_ rfl rfl
      rw [hdir]
      exact (append_nil _).symm
    | true =>
      refine .taken hclean hadmits ?_ rfl ?_
      · rw [hdir, hlast]
        exact map_append
      have hheld : (held ++ [(⟨[], none, true⟩ : Ancestor D F)]).filterMap Ancestor.held = held.filterMap Ancestor.held := by
        rw [filterMap_append]
        exact append_nil _
      have hready := congrArg (fun held : List (WalkEntry D F) =>
        (held.map .ok ++ [.ok entry] : List (Except WalkError (WalkEntry D F)))) hheld
      exact hready
  | ok name =>
    have hlast : nameOf entry = name := by
      unfold nameOf
      rw [hname]
    dsimp only
    rw [← excludesLast_concat h hname]
    cases hclean : filter.excludesLast (above ++ [entry]) with
    | true =>
      rw [if_pos rfl]
      cases hdir : entry.isDir with
      | true => exact .excluded hclean rfl (by rw [hdir]; rfl) rfl
      | false => exact .excluded hclean rfl (by rw [hdir]; rfl) rfl
    | false =>
      rw [if_neg Bool.false_ne_true]
      have hadmits : filter.includes (held.getLast?.any Ancestor.included)
          (FSTree.joinPath (held.map Ancestor.name ++ [name])) entry.isDir = admits filter (above ++ [entry]) := by
        rw [admits_concat, includesLast_concat h hname, ← h.included]
        unfold TransferFilter.includes
        cases filter.includePaths <;> rfl
      rw [hadmits]
      cases hincluded : admits filter (above ++ [entry]) with
      | true =>
        cases hdir : entry.isDir with
        | true =>
          refine .taken hclean hincluded ?_ rfl rfl
          rw [hdir, hlast]
          rfl
        | false =>
          refine .taken hclean hincluded ?_ rfl rfl
          rw [hdir]
          exact (append_nil _).symm
      | false =>
        cases hdir : entry.isDir with
        | true =>
          refine .passed hclean hincluded ?_ rfl rfl
          rw [hdir, hlast]
          rfl
        | false =>
          refine .passed hclean hincluded ?_ rfl rfl
          rw [hdir]
          exact (append_nil _).symm

end Looks

/-! ## Runs -/

section Runs

variable {above : List (WalkEntry D F)} {held : List (Ancestor D F)} {entry : WalkEntry D F} {walk : FilteredWalk D F}
  {g below beside : Grove (WalkEntry D F)}

theorem sift_skipped {entries : List (WalkEntry D F)} {excluded : Nat} (hskipping : walk.skippingBelow = some excluded)
    (hready : walk.ready = []) (hdeep : ∀ entry ∈ entries, excluded < entry.depth) : sift filter entries walk = ([], walk) := by
  induction entries with
  | nil => rfl
  | cons entry entries ih =>
    obtain ⟨hlt, hrest⟩ := forall_mem_cons.mp hdeep
    have hlook : lookAt filter entry walk = walk := by
      unfold lookAt
      rw [hskipping]
      exact if_pos (decide_eq_true hlt)
    have hdrained : walk.drained = walk := by
      unfold drained
      rw [← hready]
    rw [sift, hlook, hdrained, ih hrest, hready]
    rfl

/-- Looking no further than at an entry that is no directory, or at one below which nothing is looked at. -/
theorem Stands.of_fits (hfits : Fits filter above held) {after : FilteredWalk D F}
    (hancestors : after.ancestors = held) (hsettled : ∀ excluded, after.skippingBelow = some excluded → above.length < excluded) :
    Stands filter above held after.drained where
  fits := hfits
  ancestors := by
    have hall : after.ancestors.take above.length = held := by
      rw [hancestors, ← hfits.length, take_length]
    exact hall
  settled := hsettled
  ready := rfl

theorem Stands.leave {ancestor : Ancestor D F} (hfits : Fits filter above held)
    (h : Stands filter (above ++ [entry]) (held ++ [ancestor]) walk) : Stands filter above held walk where
  fits := hfits
  ancestors := by
    have htake := congrArg (List.take above.length) h.ancestors
    rw [take_take, length_append, min_eq_left (Nat.le_add_right _ _), ← hfits.length, take_left] at htake
    rwa [← hfits.length]
  settled := by
    intro excluded hskipping
    have hlt := h.settled excluded hskipping
    rw [length_append] at hlt
    exact Nat.lt_of_succ_lt hlt
  ready := h.ready

/-- What comes out of a walk looked at below some directories is what is wanted of it. -/
def Sifts (filter : TransferFilter) (above : List (WalkEntry D F)) (held : List (Ancestor D F)) (walk : FilteredWalk D F)
    (entries : List (WalkEntry D F)) (g : Grove (WalkEntry D F)) : Prop :=
  (sift filter entries walk).1 = flushed held (g.passing filter.takes above) ∧
    Stands filter above (leftHeld held (g.passing filter.takes above)) (sift filter entries walk).2

theorem Sifts.append {first rest : List (WalkEntry D F)} (h : Sifts filter above held walk first (.node entry below .nil))
    (hrest : ∀ held walk, Stands filter above held walk → Sifts filter above held walk rest beside) :
    Sifts filter above held walk (first ++ rest) (.node entry below beside) := by
  have hpassing : (node entry below beside).passing filter.takes above =
      (node entry below .nil).passing filter.takes above ++ beside.passing filter.takes above := by
    rw [passing, passing, passing, append_nil, append_assoc]
  obtain ⟨hfirst, hstands⟩ := h
  obtain ⟨hsecond, hstands'⟩ := hrest _ _ hstands
  unfold Sifts
  rw [sift_append, hpassing]
  rw [hfirst, hsecond, flushed_append, ← leftHeld_append]
  exact ⟨rfl, hstands'⟩

theorem filterMap_ok (entries : List (WalkEntry D F)) :
    (entries.map Except.ok : List (Except WalkError (WalkEntry D F))).filterMap Except.toOption = entries := by
  rw [filterMap_map]
  exact filterMap_some

theorem sifts_tree (h : Stands filter above held walk) (hdepth : entry.depth = above.length + 1)
    (hclosed : entry.isDir = false → below = .nil) (htold : Told (above.length + 2) below)
    (hbelow : ∀ held walk, Stands filter (above ++ [entry]) held walk →
      Sifts filter (above ++ [entry]) held walk (listed below (above.length + 2)) below) :
    Sifts filter above held walk (entry :: listed below (above.length + 2)) (.node entry below .nil) := by
  have hlooked := lookBelow_looked h.fits entry
  rw [← lookAt_stands h hdepth] at hlooked
  have htakes := takes_concat h.fits entry
  have hnil : entry.isDir = false → ∀ walk : FilteredWalk D F,
      sift filter (listed below (above.length + 2)) walk = ([], walk) := by
    intro hfile walk
    rw [hclosed hfile]
    rfl
  unfold Sifts
  rw [sift, passing, passing, append_nil, anyWanted_eq]
  generalize lookAt filter entry walk = looked at hlooked
  cases hlooked with
  | excluded hexcluded hancestors hskipping hready =>
    have hnone : below.passing filter.takes (above ++ [entry]) = [] :=
      passing_eq_nil.mpr (anyWanted_of_none (takes_of_excluded hexcluded))
    have hsift : sift filter (listed below (above.length + 2)) looked.drained = ([], looked.drained) := by
      cases hdir : entry.isDir with
      | false => exact hnil hdir _
      | true =>
        rw [hdir] at hskipping
        exact sift_skipped hskipping rfl fun other hother => hdepth ▸ htold.le other hother
    rw [htakes, hexcluded, hnone, hsift, hready]
    refine ⟨rfl, Stands.of_fits h.fits hancestors fun excluded heq => ?_⟩
    cases hdir : entry.isDir with
    | false =>
      rw [hskipping, hdir] at heq
      cases heq
    | true =>
      rw [hskipping, hdir] at heq
      cases heq
      omega
  | taken hclean hadmits hancestors hskipping hready =>
    have hsettled : ∀ excluded, looked.skippingBelow = some excluded → ∀ n : Nat, n < excluded := by
      intro excluded heq
      rw [hskipping] at heq
      cases heq
    have hgiven : looked.ready.filterMap Except.toOption = held.filterMap Ancestor.held ++ [entry] := by
      rw [hready, filterMap_append, filterMap_ok]
      rfl
    rw [htakes, hclean, hadmits, hgiven]
    cases hdir : entry.isDir with
    | false =>
      rw [hdir] at hancestors
      rw [hnil hdir, hclosed hdir]
      exact ⟨append_nil _, Stands.of_fits h.fits.release (hancestors.trans (append_nil _)) fun _ heq =>
        hsettled _ heq _⟩
    | true =>
      rw [hdir] at hancestors
      have hfits : Fits filter (above ++ [entry]) (held.map release ++ [⟨nameOf entry, none, true⟩]) :=
        h.fits.release.push rfl hadmits.symm hclean
      obtain ⟨hout, hstands⟩ := hbelow _ _ (Stands.of_fits hfits hancestors fun _ heq => hsettled _ heq _)
      generalize below.passing filter.takes (above ++ [entry]) = kept at hout hstands
      refine ⟨?_, ?_⟩
      · have hkept : flushed (held.map release ++ [⟨nameOf entry, none, true⟩]) kept = kept := by
          rw [flushed_push]
          cases kept with
          | nil => rfl
          | cons first kept =>
            unfold flushed
            rw [held_release]
            rfl
        rw [hout, hkept]
        exact append_assoc _ _ _
      rw [leftHeld_push] at hstands
      have hleft := Stands.leave (h.fits.release.leftHeld kept) hstands
      have hsame : FilteredWalk.leftHeld (held.map release) kept = held.map release := by
        cases kept with
        | nil => rfl
        | cons first kept => exact release_release held
      rw [hsame] at hleft
      exact hleft
  | passed hclean hadmits hancestors hskipping hready =>
    have hsettled : ∀ excluded, looked.skippingBelow = some excluded → ∀ n : Nat, n < excluded := by
      intro excluded heq
      rw [hskipping] at heq
      cases heq
    rw [htakes, hclean, hadmits, hready]
    cases hdir : entry.isDir with
    | false =>
      rw [hdir] at hancestors
      rw [hnil hdir, hclosed hdir]
      exact ⟨rfl, Stands.of_fits h.fits (hancestors.trans (append_nil _)) fun _ heq => hsettled _ heq _⟩
    | true =>
      rw [hdir] at hancestors
      have hfits : Fits filter (above ++ [entry]) (held ++ [⟨nameOf entry, some entry, false⟩]) :=
        h.fits.push rfl hadmits.symm hclean
      obtain ⟨hout, hstands⟩ := hbelow _ _ (Stands.of_fits hfits hancestors fun _ heq => hsettled _ heq _)
      generalize below.passing filter.takes (above ++ [entry]) = kept at hout hstands
      rw [flushed_push] at hout
      rw [leftHeld_push] at hstands
      have hleft := Stands.leave (h.fits.leftHeld kept) hstands
      cases kept with
      | nil => exact ⟨hout, hleft⟩
      | cons first kept => exact ⟨hout, hleft⟩

theorem sifts_walk (h : Stands filter above held walk) (hclosed : g.Closed WalkEntry.isDir)
    (htold : Told (above.length + 1) g) :
    Sifts filter above held walk (listed g (above.length + 1)) g := by
  induction g generalizing above held walk with
  | nil => exact ⟨rfl, h⟩
  | node entry below beside hbelow hbeside =>
    obtain ⟨hshut, hclosed, hclosed'⟩ := hclosed
    obtain ⟨hentry, hrest⟩ := forall_mem_cons.mp htold
    obtain ⟨htold, htold'⟩ := forall_mem_append.mp hrest
    have hdeeper : (above ++ [entry]).length + 1 = above.length + 2 := by rw [length_append]; rfl
    have hlisted : listed (.node entry below beside) (above.length + 1) =
        (entry :: listed below (above.length + 2)) ++ listed beside (above.length + 1) := by
      unfold Builder.listed
      rw [Grove.walk, map_cons, map_append]
      rfl
    rw [hlisted]
    refine Sifts.append (sifts_tree h hentry hshut htold fun held walk hstands => ?_) fun held walk hstands =>
      hbeside hstands hclosed' htold'
    have hsifts := hbelow hstands hclosed (hdeeper.symm ▸ htold)
    rwa [hdeeper] at hsifts

end Runs

/-! ## A whole walk -/

def errorOf : Except WalkError (WalkEntry D F) → Option WalkError
  | .ok _ => none
  | .error e => some e

section Whole

variable {walk : FilteredWalk D F}

theorem ready_lookAt (filter : TransferFilter) (hready : walk.ready = []) (entry : WalkEntry D F) :
    ∃ given : List (WalkEntry D F), (lookAt filter entry walk).ready = given.map .ok := by
  have htake : ∀ walk : FilteredWalk D F, walk.ready = [] →
      ∃ given : List (WalkEntry D F), (walk.take entry).ready = given.map .ok := by
    intro walk hempty
    refine ⟨walk.ancestors.filterMap Ancestor.held ++ [entry], ?_⟩
    unfold take
    rw [hempty, nil_append, map_append]
    rfl
  unfold lookAt
  split
  · exact ⟨[], hready⟩
  unfold lookBelow
  dsimp only
  split
  · split
    all_goals exact htake _ hready
  split
  · split
    all_goals exact ⟨[], hready⟩
  split
  · exact htake _ hready
  · exact ⟨[], hready⟩
  · exact htake _ hready
  · exact ⟨[], hready⟩

/-- The errors pass straight through, and what is taken between them is as if they were not there. -/
theorem emitted_apart (filter : TransferFilter) (walk : FilteredWalk D F) (hready : walk.ready = []) (inner : List (Except WalkError (WalkEntry D F))) :
    (emitted filter inner walk).filterMap Except.toOption = (sift filter (found inner) walk).1 ∧
      (emitted filter inner walk).filterMap errorOf = inner.filterMap errorOf := by
  induction inner generalizing walk with
  | nil =>
    rw [emitted, hready]
    exact ⟨rfl, rfl⟩
  | cons item inner ih =>
    have hdrained : walk.drained = walk := by
      unfold drained
      rw [← hready]
    cases item with
    | error e =>
      obtain ⟨hentries, herrors⟩ := ih walk hready
      rw [emitted, hready, nil_append, hdrained]
      exact ⟨hentries, congrArg (e :: ·) herrors⟩
    | ok entry =>
      obtain ⟨given, hgiven⟩ := ready_lookAt filter hready entry
      have hsplit : emitted filter inner (lookAt filter entry walk) =
          (lookAt filter entry walk).ready ++ emitted filter inner (lookAt filter entry walk).drained := by
        cases inner with
        | nil => exact (append_nil _).symm
        | cons item inner => cases item <;> rfl
      obtain ⟨hentries, herrors⟩ := ih (lookAt filter entry walk).drained rfl
      have hnone : (given.map Except.ok : List (Except WalkError (WalkEntry D F))).filterMap errorOf = [] := by
        rw [filterMap_map]
        exact filterMap_eq_nil_iff.mpr fun _ _ => rfl
      have hfound : found (.ok entry :: inner) = entry :: found inner := rfl
      rw [emitted, hready, nil_append, hdrained, hsplit, filterMap_append, filterMap_append, hentries,
        herrors, hfound, sift]
      refine ⟨rfl, ?_⟩
      rw [hgiven, hnone]
      rfl

theorem emitted_error (filter : TransferFilter) (walk : FilteredWalk D F) (before after : List (Except WalkError (WalkEntry D F))) (e : WalkError) :
    ∃ rest, emitted filter (before ++ .error e :: after) walk = emitted filter before walk ++ .error e :: rest := by
  induction before generalizing walk with
  | nil => exact ⟨_, rfl⟩
  | cons item before ih =>
    cases item with
    | error e' =>
      obtain ⟨rest, hrest⟩ := ih walk.drained
      refine ⟨rest, ?_⟩
      rw [cons_append, emitted, emitted, hrest, append_assoc]
      rfl
    | ok entry =>
      obtain ⟨rest, hrest⟩ := ih (lookAt filter entry walk.drained)
      refine ⟨rest, ?_⟩
      rw [cons_append, emitted, emitted, hrest, append_assoc]

end Whole

/-- A filtered walk takes, as they are walked, the entries that are neither excluded nor below one that is and
that are included or below one that is, and the directories above these. What cannot be named counts as included,
and each error comes right after what was taken of the walk before it. -/
theorem filtered_takes (filter : TransferFilter) (walk : List (Except WalkError (WalkEntry D F)))
    (hwalk : DepthFirst WalkEntry.isDir 1 1 ((found walk).map fun entry => (entry, entry.depth))) :
    ∃ g : Grove (WalkEntry D F), g.walk 1 = (found walk).map (fun entry => (entry, entry.depth)) ∧
      ∃ items, (∀ steps, items.length < steps → collect filter steps walk new = some items) ∧
        items.filterMap Except.toOption = g.passing filter.takes [] ∧
        items.filterMap errorOf = walk.filterMap errorOf ∧
        ∀ before e after, walk = before ++ .error e :: after →
          ∃ taken rest, items = taken ++ .error e :: rest ∧
            ∀ steps, taken.length < steps → collect filter steps before new = some taken := by
  obtain ⟨g, hg, hclosed⟩ := exists_walk hwalk
  have htold : Told 1 g := by
    intro item hitem
    rw [hg] at hitem
    obtain ⟨entry, -, rfl⟩ := mem_map.mp hitem
    rfl
  have hlisted : found walk = listed g 1 := by
    unfold Builder.listed
    rw [hg, map_map]
    exact (map_id _).symm
  have hstands : Stands filter [] [] (new : FilteredWalk D F) := by
    refine ⟨⟨rfl, ?_, rfl⟩, rfl, (fun _ hnone => nomatch hnone), rfl⟩
    unfold admits
    cases filter.includePaths.isNone <;> rfl
  obtain ⟨hout, -⟩ := sifts_walk hstands hclosed htold
  obtain ⟨hentries, herrors⟩ := emitted_apart filter new rfl walk
  refine ⟨g, hg, emitted filter walk new, collect_emitted walk new, ?_, herrors, ?_⟩
  · have hflushed : flushed [] (g.passing filter.takes []) = g.passing filter.takes [] := by
      cases g.passing filter.takes [] <;> rfl
    rw [hentries, hlisted]
    exact hout.trans hflushed
  rintro before e after rfl
  obtain ⟨rest, hrest⟩ := emitted_error filter new before after e
  exact ⟨emitted filter before new, rest, hrest, collect_emitted before new⟩

/-- A directory is held back past an error, one that cannot be read lets everything inside it through. -/
theorem filtered_takes_small :
    ∃ g : Grove (WalkEntry Unit Unit), g.walk 1 =
        (found [.ok ⟨1, .ok ['d'], .ok (.dir ())⟩, .error (.loop ['l']), .ok ⟨2, .ok ['a'], .ok (.file () (.ok 1))⟩,
          .ok ⟨1, .error (.io none), .ok (.dir ())⟩, .ok ⟨2, .ok ['b'], .ok (.file () (.ok 1))⟩]).map
            (fun entry => (entry, entry.depth)) ∧
      ∃ items, (∀ steps, items.length < steps → collect ⟨some fun path _ => path = ['d', '/', 'a'], none⟩ steps
          [.ok ⟨1, .ok ['d'], .ok (.dir ())⟩, .error (.loop ['l']), .ok ⟨2, .ok ['a'], .ok (.file () (.ok 1))⟩,
            .ok ⟨1, .error (.io none), .ok (.dir ())⟩, .ok ⟨2, .ok ['b'], .ok (.file () (.ok 1))⟩] new = some items) ∧
        items.filterMap Except.toOption =
          g.passing (TransferFilter.takes ⟨some fun path _ => path = ['d', '/', 'a'], none⟩) [] ∧
        items.filterMap errorOf = [.loop ['l']] ∧
        ∀ before e after,
          [.ok ⟨1, .ok ['d'], .ok (.dir ())⟩, .error (.loop ['l']), .ok ⟨2, .ok ['a'], .ok (.file () (.ok 1))⟩,
            .ok ⟨1, .error (.io none), .ok (.dir ())⟩, .ok ⟨2, .ok ['b'], .ok (.file () (.ok 1))⟩] =
              before ++ .error e :: after →
          ∃ taken rest, items = taken ++ .error e :: rest ∧ ∀ steps, taken.length < steps →
            collect ⟨some fun path _ => path = ['d', '/', 'a'], none⟩ steps before new = some taken :=
  filtered_takes _ _ (by decide)

/-- Whether an entry is taken for itself by its own name and the directories above it that match. -/
def takesMatched (filter : TransferFilter) (chain : List (WalkEntry D F)) : Bool :=
  chain.inits.all (fun above => !filter.excludesLast above) &&
    (filter.includePaths.isNone || (chain.getLast?.any fun entry => !entry.name.toOption.isSome) ||
      chain.inits.any fun above => filter.includesLast above && above.getLast?.any fun entry => entry.name.toOption.isSome)

/-- An include filter that matches nothing takes a file below a directory that cannot be named, and a directory
held back comes after an error that the walk has after it. -/
theorem filtered_unmatched :
    collect ⟨some fun _ _ => false, none⟩ 3
        [.ok ⟨1, .error (.io none), .ok (.dir ())⟩, .ok ⟨2, .ok ['b'], .ok (.file () (.ok 1))⟩] (new : FilteredWalk Unit Unit) =
      some [.ok ⟨1, .error (.io none), .ok (.dir ())⟩, .ok ⟨2, .ok ['b'], .ok (.file () (.ok 1))⟩] ∧
    (node (⟨1, .error (.io none), .ok (.dir ())⟩ : WalkEntry Unit Unit)
      (.node ⟨2, .ok ['b'], .ok (.file () (.ok 1))⟩ .nil .nil) .nil).passing (takesMatched ⟨some fun _ _ => false, none⟩) [] =
        [⟨1, .error (.io none), .ok (.dir ())⟩] ∧
    collect ⟨some fun path _ => path = ['d', '/', 'a'], none⟩ 4
        [.ok ⟨1, .ok ['d'], .ok (.dir ())⟩, .error (.loop ['l']), .ok ⟨2, .ok ['a'], .ok (.file () (.ok 1))⟩]
        (new : FilteredWalk Unit Unit) =
      some [.error (.loop ['l']), .ok ⟨1, .ok ['d'], .ok (.dir ())⟩, .ok ⟨2, .ok ['a'], .ok (.file () (.ok 1))⟩] :=
  ⟨rfl, rfl, rfl⟩

end SyncEngine.FsTree.FilteredWalk
