import SyncEngine.FsTree.Assembled
import SyncEngine.FsTree.Listing

/-! # Passes over a walk

A pass takes a walk and closes what it is left in, the root last. What it comes to is no matter
of the errors held, so those reported on the way may be dropped.
-/

namespace SyncEngine.FsTree

open Collections List

variable {D F : Type} {key : Name → Name} {hash : HashOrder (Group Name (Entry D F))} {strategy : CompareStrategy D F}
  {prefers : Seen D F → Seen D F → Bool}

namespace Builder

variable {b b' : Builder D F}

theorem closeLevel_root (h : b.stack = []) {info : Option DirChildrenInfo} (hok : closeLevel key hash strategy b = .ok (info, b')) :
    info.isSome := by
  unfold closeLevel at hok
  rw [h] at hok
  dsimp only at hok
  split at hok
  · cases hok
  split at hok
  · cases hok
  cases hok
  rfl

theorem adjust_zero (b : Builder D F) :
    adjustStackUntilDepth key hash strategy 0 b = settle key hash strategy 1 b >>= closeLevel key hash strategy := by
  have hloop : ∀ (steps : Nat) (b : Builder D F), b.stack.length < steps →
      closeLevels key hash strategy 0 steps b = settle key hash strategy 1 b >>= closeLevel key hash strategy := by
    intro steps
    induction steps with
    | zero => exact fun b hlt => nomatch hlt
    | succ steps ih =>
      intro b hlt
      rw [closeLevels, if_pos (Nat.succ_pos _)]
      cases hstack : b.stack with
      | nil =>
        have hself : settle key hash strategy 1 b = .ok b := settle_self (by unfold depth; rw [hstack]; rfl)
        have hbind : (settle key hash strategy 1 b >>= closeLevel key hash strategy) =
            closeLevel key hash strategy b := by
          rw [hself]
          rfl
        rw [hbind]
        cases hclose : closeLevel key hash strategy b with
        | error e => rfl
        | ok closed =>
          obtain ⟨info, after⟩ := closed
          obtain ⟨info, rfl⟩ := Option.isSome_iff_exists.mp (closeLevel_root hstack hclose)
          rfl
      | cons level rest =>
        have hne : b.stack ≠ [] := by
          rw [hstack]
          exact cons_ne_nil _ _
        have hsub : b.depth - 1 = rest.length + 1 := by
          unfold depth
          rw [hstack]
          rfl
        unfold settle
        rw [hsub, closeMany]
        unfold closeOne
        cases hclose : closeLevel key hash strategy b with
        | error e => rfl
        | ok closed =>
          obtain ⟨info, after⟩ := closed
          obtain ⟨rfl, hlength, -⟩ := closeLevel_some hclose hne
          have hlength' : after.stack.length = rest.length := by
            rw [hstack] at hlength
            exact Nat.succ.inj hlength
          have hrest := ih after (by omega)
          unfold settle at hrest
          have hsame : after.depth - 1 = rest.length := hlength'
          rw [hsame] at hrest
          exact hrest
  exact hloop _ b (Nat.lt_succ_self _)

/-! ## The errors held -/

def quiet (b : Builder D F) : Builder D F := { b with errors := [] }

theorem closeLevel_quiet (b : Builder D F) :
    (closeLevel key hash strategy b).map (Prod.map id quiet) =
      (closeLevel key hash strategy b.quiet).map (Prod.map id quiet) := by
  unfold closeLevel quiet
  cases b.stack with
  | nil =>
    dsimp only
    split
    · rfl
    · split <;> rfl
  | cons level rest =>
    obtain ⟨dir, children⟩ := level
    dsimp only
    split
    · rfl
    split
    · rfl
    · cases rest <;> rfl

/-- What differs in nothing but its errors. -/
def Alike (b c : Builder D F) : Prop := b.quiet = c.quiet

section Alike

variable {c : Builder D F}

section

variable (h : Alike b c)
include h

theorem Alike.quiet : b.quiet = c.quiet := h

theorem Alike.stack : b.stack = c.stack := by
  have hstack := congrArg Builder.stack h.quiet
  exact hstack

theorem Alike.rejected : b.rejectedEntryDepth = c.rejectedEntryDepth := by
  have hrejected := congrArg Builder.rejectedEntryDepth h.quiet
  exact hrejected

theorem Alike.clear :
    Alike { b with rejectedEntryDepth := none } { c with rejectedEntryDepth := none } := by
  have hclear := congrArg (fun quiet : Builder D F => { quiet with rejectedEntryDepth := none }) h.quiet
  exact hclear

theorem closeLevel_alike :
    (closeLevel key hash strategy b).map (Prod.map id quiet) = (closeLevel key hash strategy c).map (Prod.map id quiet) := by
  rw [closeLevel_quiet, closeLevel_quiet c, h.quiet]

end

theorem closeLevels_succ (target steps : Nat) (b : Builder D F) :
    closeLevels key hash strategy target (steps + 1) b =
      if target < b.stack.length + 1 then
        closeLevel key hash strategy b >>= fun closed =>
          match closed.1 with
          | some info => .ok (some info, closed.2)
          | none => closeLevels key hash strategy target steps closed.2
      else .ok (none, b) := by
  rw [closeLevels]
  split
  · cases closeLevel key hash strategy b with
    | error e => rfl
    | ok closed =>
      obtain ⟨info, after⟩ := closed
      cases info <;> rfl
  · rfl

theorem closeLevels_alike (h : Alike b c) (target steps : Nat) :
    (closeLevels key hash strategy target steps b).map (Prod.map id quiet) =
      (closeLevels key hash strategy target steps c).map (Prod.map id quiet) := by
  induction steps generalizing b c with
  | zero => exact congrArg (fun quiet => Except.ok (none, quiet)) h.quiet
  | succ steps ih =>
    rw [closeLevels_succ, closeLevels_succ, h.stack]
    split
    · refine map_bind_congr (closeLevel_alike h) fun closed closed' hclosed => ?_
      obtain ⟨info, after⟩ := closed
      obtain ⟨info', after'⟩ := closed'
      obtain ⟨rfl, halike⟩ := Prod.mk.inj hclosed
      cases info with
      | none => exact ih halike
      | some info => exact congrArg (fun quiet => Except.ok (some info, quiet)) halike
    · exact congrArg (fun quiet => Except.ok (none, quiet)) h.quiet

theorem adjust_alike (h : Alike b c) (target : Nat) :
    (adjustStackUntilDepth key hash strategy target b).map (Prod.map id quiet) =
      (adjustStackUntilDepth key hash strategy target c).map (Prod.map id quiet) := by
  unfold adjustStackUntilDepth
  rw [h.stack]
  split
  · rfl
  · exact closeLevels_alike h target _

theorem takeEntry_quiet (entry : WalkEntry D F) (b : Builder D F) : (b.takeEntry entry).quiet = (b.quiet.takeEntry entry).quiet := by
  unfold takeEntry
  split
  · rfl
  split
  · rfl
  · rfl
  · unfold appendToTopLevel quiet
    cases b.stack <;> rfl
  · rfl

theorem Alike.takeEntry (h : Alike b c) (entry : WalkEntry D F) : Alike (b.takeEntry entry) (c.takeEntry entry) := by
  unfold Alike at h ⊢
  rw [takeEntry_quiet, takeEntry_quiet entry c, h]

theorem processEntry_bind (entry : WalkEntry D F) (b : Builder D F) :
    processEntry key hash strategy (.ok entry) b =
      if b.rejectedEntryDepth.any (fun rejected => rejected < entry.depth) then .ok b
      else adjustStackUntilDepth key hash strategy entry.depth { b with rejectedEntryDepth := none } >>=
        fun adjusted => .ok (adjusted.2.takeEntry entry) := by
  unfold processEntry
  dsimp only
  split
  · rfl
  · cases adjustStackUntilDepth key hash strategy entry.depth { b with rejectedEntryDepth := none } <;> rfl

theorem processEntry_alike (h : Alike b c) (entry : WalkEntry D F) :
    (processEntry key hash strategy (.ok entry) b).map quiet = (processEntry key hash strategy (.ok entry) c).map quiet := by
  rw [processEntry_bind, processEntry_bind, h.rejected]
  split
  · exact congrArg Except.ok h.quiet
  refine map_bind_congr (adjust_alike h.clear entry.depth) fun adjusted adjusted' hadjusted => ?_
  have halike : Alike adjusted.2 adjusted'.2 := (Prod.mk.inj hadjusted).2
  exact congrArg Except.ok (halike.takeEntry entry)

theorem finish_bind (b : Builder D F) :
    finish key hash strategy b = settle key hash strategy 1 b >>= closeLevel key hash strategy >>= fun closed =>
      match closed.1 with
      | none => .error .panicked
      | some info => .ok (⟨closed.2.finalEntries, info.numChildren⟩, closed.2) := by
  unfold finish
  rw [adjust_zero]
  cases settle key hash strategy 1 b >>= closeLevel key hash strategy with
  | error e => rfl
  | ok closed =>
    obtain ⟨info, after⟩ := closed
    cases info <;> rfl

theorem finish_alike (h : Alike b c) :
    (finish key hash strategy b).map Prod.fst = (finish key hash strategy c).map Prod.fst := by
  rw [finish_bind, finish_bind, ← adjust_zero, ← adjust_zero]
  refine map_bind_congr (adjust_alike h 0) fun closed closed' hclosed => ?_
  obtain ⟨info, after⟩ := closed
  obtain ⟨info', after'⟩ := closed'
  obtain ⟨rfl, halike⟩ := Prod.mk.inj hclosed
  cases info with
  | none => rfl
  | some info =>
    have hentries := congrArg Builder.finalEntries halike
    exact congrArg (fun entries => Except.ok (⟨entries, info.numChildren⟩ : FSTree D F)) hentries

end Alike

/-! ## A whole pass -/

/-- The tree a pass comes to reads as what is kept of the walk. -/
structure Passed (key : Name → Name) (prefers : Seen D F → Seen D F → Bool) (g : Grove (WalkEntry D F))
    (tree : FSTree D F) (stats : FSStats) (kept : Grove (Seen D F)) : Prop where
  keeps : Kept key prefers g kept
  reads : tree.ReadsAs kept
  fits : kept.size ≤ tree.entries.length
  few : tree.entries.length ≤ u32Max
  stats : stats = tally g .new

/-- A pass comes to such a tree, unless the array is full. -/
def Passes (key : Name → Name) (prefers : Seen D F → Seen D F → Bool) (g : Grove (WalkEntry D F)) :
    Except Stop (FSTree D F × Builder D F) → Prop
  | .error e => e = .tooManyEntries ∧ u32Max < g.size
  | .ok (tree, b) => ∃ kept, Passed key prefers g tree b.stats kept

theorem new_at : At 1 (new : Builder D F) := ⟨Nat.le_refl 1, Nat.le_refl 1, fun _ hnone => nomatch hnone⟩

theorem closeRoot_passes {g : Grove (WalkEntry D F)} {rows : List (Row D F)} {more : List (Entry D F)}
    (h : Grown key prefers new b g rows more) (hdecides : Decides key strategy prefers g) :
    Passes key prefers g (closeLevel key hash strategy b >>= fun closed =>
      match closed.1 with
      | none => .error .panicked
      | some info => .ok (⟨closed.2.finalEntries, info.numChildren⟩, closed.2)) := by
  have hlevels := h.levels
  obtain ⟨hstack, hroot⟩ := Prod.mk.inj hlevels
  have hroot : b.rootChildren = rows.map Row.entry := hroot
  have hfinal : b.finalEntries = more := h.entries
  obtain ⟨kept, errors, hfilter, hkept⟩ := h.filtered hdecides hash b.finalEntries.length [] none
  have hfew := h.few
  have hfew' := hkept.few
  unfold closeLevel
  rw [hstack, hroot]
  dsimp only
  rw [hfilter]
  dsimp only
  by_cases hfull : u32Max < b.finalEntries.length + (kept.map Row.entry).length
  · rw [if_pos hfull]
    refine ⟨rfl, lt_of_lt_of_le hfull ?_⟩
    rw [hfinal, length_map]
    omega
  rw [if_neg hfull]
  refine ⟨Grove.ofRoots (kept.map Row.kept), ⟨kept.map Row.tree, hkept.trees, keptBy_rows hkept.sound⟩, ⟨?_, ?_⟩, ?_, ?_, h.stats⟩
  · dsimp only
    rw [length_append]
    exact Nat.le_add_left _ _
  · unfold FSTree.rootLevel FSTree.rootChildren
    rw [length_append, Nat.add_sub_cancel, drop_left, take_length]
    exact reads_rows hkept.sound
  · have hmany := hkept.many
    have hsum : (kept.map ((fun tree : Seen D F × Grove (Seen D F) => 1 + tree.2.size) ∘ Row.kept)).sum =
        kept.length + (kept.map fun row => row.below.size).sum := by
      simp [Function.comp_def, Row.kept]
    rw [Grove.size_ofRoots, map_map, hsum, hfinal, length_append, length_map]
    omega
  dsimp only
  rw [length_append]
  exact not_lt.mp hfull

theorem pass_passes {g : Grove (WalkEntry D F)} (hclosed : g.Closed WalkEntry.opens) (htold : Told 1 g)
    (hdecides : Decides key strategy prefers g) (hdecided : Decided key strategy prefers g) :
    Passes key prefers g (run key hash strategy (listed g 1) new >>= finish key hash strategy) := by
  have hgrows : Grows key prefers new g (run key hash strategy (listed g 1) new >>= settle key hash strategy 1) :=
    run_grows new_at rfl hclosed htold hdecided
  have hsettle : (run key hash strategy (listed g 1) new >>= finish key hash strategy) =
      (run key hash strategy (listed g 1) new >>= settle key hash strategy 1) >>= fun b =>
        closeLevel key hash strategy b >>= fun closed =>
          match closed.1 with
          | none => .error .panicked
          | some info => .ok (⟨closed.2.finalEntries, info.numChildren⟩, closed.2) := by
    cases run key hash strategy (listed g 1) new with
    | error e => rfl
    | ok b =>
      have hok : ((Except.ok b : Except Stop (Builder D F)) >>= finish key hash strategy) = finish key hash strategy b := rfl
      have hok' : ((Except.ok b : Except Stop (Builder D F)) >>= settle key hash strategy 1) = settle key hash strategy 1 b := rfl
      rw [hok, hok', finish_bind]
      cases settle key hash strategy 1 b <;> rfl
  rw [hsettle]
  generalize (run key hash strategy (listed g 1) new >>= settle key hash strategy 1) = result at hgrows
  cases result with
  | error e => exact ⟨hgrows.1, by simpa [new] using hgrows.2⟩
  | ok b =>
    obtain ⟨rows, more, hgrown⟩ := hgrows
    exact closeRoot_passes hgrown hdecides

end Builder

end SyncEngine.FsTree
