import SyncEngine.FsTree.Builder

/-! # Closing levels

Adjusting the stack to a depth closes one level after another. That an entry adjusts the stack
only when it comes makes no difference to the levels it would have found closed.
-/

namespace SyncEngine.FsTree.Builder

open Collections List

variable {D F : Type} {key : Name → Name} {hash : HashOrder (Group Name (Entry D F))} {strategy : CompareStrategy D F}
  {b b' : Builder D F}

def depth (b : Builder D F) : Nat := b.stack.length + 1

theorem stack_appendToTopLevel (entry : Entry D F) (b : Builder D F) :
    (b.appendToTopLevel entry).stack.length = b.stack.length := by
  unfold appendToTopLevel
  cases hstack : b.stack with
  | nil => rfl
  | cons level rest => rfl

theorem appendToTopLevel_rejected (entry : Entry D F) (b : Builder D F) :
    (b.appendToTopLevel entry).rejectedEntryDepth = b.rejectedEntryDepth := by
  unfold appendToTopLevel
  cases b.stack <;> rfl

theorem closeLevel_some {info : Option DirChildrenInfo} (h : closeLevel key hash strategy b = .ok (info, b'))
    (hne : b.stack ≠ []) :
    info = none ∧ b'.stack.length + 1 = b.stack.length ∧ b'.rejectedEntryDepth = b.rejectedEntryDepth := by
  unfold closeLevel at h
  cases hstack : b.stack with
  | nil => exact absurd hstack hne
  | cons level rest =>
    obtain ⟨dir, children⟩ := level
    rw [hstack] at h
    dsimp only at h
    split at h
    · cases h
    split at h
    · cases h
    cases h
    refine ⟨rfl, ?_, appendToTopLevel_rejected _ _⟩
    rw [stack_appendToTopLevel, length_cons]

/-- Close a level, whatever it is. -/
def closeOne (key : Name → Name) (hash : HashOrder (Group Name (Entry D F))) (strategy : CompareStrategy D F)
    (b : Builder D F) : Except Stop (Builder D F) :=
  (closeLevel key hash strategy b).map Prod.snd

def closeMany (key : Name → Name) (hash : HashOrder (Group Name (Entry D F))) (strategy : CompareStrategy D F) :
    Nat → Builder D F → Except Stop (Builder D F)
  | 0, b => .ok b
  | n + 1, b => closeOne key hash strategy b >>= closeMany key hash strategy n

def settle (key : Name → Name) (hash : HashOrder (Group Name (Entry D F))) (strategy : CompareStrategy D F)
    (target : Nat) (b : Builder D F) : Except Stop (Builder D F) :=
  closeMany key hash strategy (b.depth - target) b

theorem closeOne_ok (h : closeOne key hash strategy b = .ok b') (hne : b.stack ≠ []) :
    b'.depth + 1 = b.depth ∧ b'.rejectedEntryDepth = b.rejectedEntryDepth := by
  unfold closeOne at h
  cases hclose : closeLevel key hash strategy b with
  | error e =>
    rw [hclose] at h
    cases h
  | ok closed =>
    obtain ⟨info, after⟩ := closed
    rw [hclose] at h
    cases h
    obtain ⟨-, hlength, hrejected⟩ := closeLevel_some hclose hne
    exact ⟨congrArg (· + 1) hlength, hrejected⟩

theorem closeMany_ok {n : Nat} (h : closeMany key hash strategy n b = .ok b') (hle : n ≤ b.stack.length) :
    b'.depth + n = b.depth ∧ b'.rejectedEntryDepth = b.rejectedEntryDepth := by
  induction n generalizing b with
  | zero =>
    cases h
    exact ⟨rfl, rfl⟩
  | succ n ih =>
    unfold closeMany at h
    have hne : b.stack ≠ [] := by
      intro hnil
      rw [hnil] at hle
      cases hle
    cases hone : closeOne key hash strategy b with
    | error e =>
      rw [hone] at h
      cases h
    | ok mid =>
      rw [hone] at h
      obtain ⟨hdepth, hrejected⟩ := closeOne_ok hone hne
      have hmid : mid.stack.length + 1 = b.stack.length := Nat.succ.inj hdepth
      obtain ⟨hdepth', hrejected'⟩ := ih h (by omega)
      exact ⟨by omega, hrejected'.trans hrejected⟩

theorem closeMany_succ (n : Nat) (b : Builder D F) :
    closeMany key hash strategy (n + 1) b = closeMany key hash strategy n b >>= closeOne key hash strategy := by
  induction n generalizing b with
  | zero =>
    have hnone : closeMany key hash strategy 0 b >>= closeOne key hash strategy = closeOne key hash strategy b := rfl
    rw [hnone, closeMany]
    cases closeOne key hash strategy b <;> rfl
  | succ n ih =>
    rw [closeMany]
    cases hone : closeOne key hash strategy b with
    | error e =>
      rw [closeMany, hone]
      rfl
    | ok mid =>
      rw [closeMany, hone]
      exact ih mid

variable {target : Nat} {entry : WalkEntry D F} {entries : List (WalkEntry D F)}

theorem settle_ok (h : settle key hash strategy target b = .ok b') (hpos : 1 ≤ target)
    (hle : target ≤ b.depth) : b'.depth = target ∧ b'.rejectedEntryDepth = b.rejectedEntryDepth := by
  obtain ⟨hdepth, hrejected⟩ := closeMany_ok h (by unfold depth at *; omega)
  exact ⟨by omega, hrejected⟩

theorem settle_self (h : b.depth = target) : settle key hash strategy target b = .ok b := by
  unfold settle
  rw [h, Nat.sub_self]
  rfl

theorem settle_succ (h : target + 1 ≤ b.depth) :
    settle key hash strategy target b = settle key hash strategy (target + 1) b >>= closeOne key hash strategy := by
  unfold settle
  have hsucc : b.depth - target = (b.depth - (target + 1)) + 1 := by omega
  rw [hsucc, closeMany_succ]

theorem adjust_eq (hpos : 1 ≤ target) (hle : target ≤ b.depth) :
    adjustStackUntilDepth key hash strategy target b = (settle key hash strategy target b).map fun b => (none, b) := by
  have hloop : ∀ (steps : Nat) (b : Builder D F), target ≤ b.depth → b.stack.length ≤ steps →
      closeLevels key hash strategy target steps b = (settle key hash strategy target b).map fun b => (none, b) := by
    intro steps
    induction steps with
    | zero =>
      intro b hle hsteps
      rw [settle_self (by unfold depth at *; omega)]
      rfl
    | succ steps ih =>
      intro b hle hsteps
      unfold closeLevels
      by_cases hlt : target < b.stack.length + 1
      · have hne : b.stack ≠ [] := by
          intro hnil
          rw [hnil] at hlt
          exact absurd hlt (not_lt.mpr hpos)
        have hsub : b.depth - target = (b.depth - target - 1) + 1 := by unfold depth; omega
        rw [if_pos hlt]
        unfold settle
        rw [hsub, closeMany]
        unfold closeOne
        cases hclose : closeLevel key hash strategy b with
        | error e => rfl
        | ok closed =>
          obtain ⟨info, after⟩ := closed
          obtain ⟨rfl, hlength, -⟩ := closeLevel_some hclose hne
          have hrest := ih after (by unfold depth; omega) (by omega)
          have hsame : b.depth - target - 1 = after.depth - target := by unfold depth; omega
          rw [hsame]
          exact hrest
      rw [if_neg hlt, settle_self (by unfold depth at *; omega)]
      rfl
  unfold adjustStackUntilDepth
  rw [if_neg (by unfold depth at hle; omega)]
  exact hloop _ _ hle (Nat.le_succ _)

/-- A builder without its errors and what was rejected, which closing a level only passes on. -/
def bare (b : Builder D F) : Builder D F :=
  { b with
    errors := []
    rejectedEntryDepth := none }

def framed (errors : List WalkError) (rejected : Option Nat) (b : Builder D F) : Builder D F :=
  { b with
    errors := errors ++ b.errors
    rejectedEntryDepth := rejected }

theorem closeOne_frame (b : Builder D F) :
    closeOne key hash strategy b =
      (closeOne key hash strategy b.bare).map (framed b.errors b.rejectedEntryDepth) := by
  unfold closeOne closeLevel bare
  cases b.stack with
  | nil =>
    dsimp only
    split
    · rfl
    · split <;> rfl
  | cons level rest =>
    obtain ⟨dir, children⟩ := level
    dsimp only
    split
    · rfl
    split
    · rfl
    · cases rest <;> rfl

theorem closeMany_frame (n : Nat) (b : Builder D F) :
    closeMany key hash strategy n b =
      (closeMany key hash strategy n b.bare).map (framed b.errors b.rejectedEntryDepth) := by
  induction n generalizing b with
  | zero =>
    obtain ⟨stack, rootChildren, finalEntries, errors, stats, rejected⟩ := b
    exact congrArg (fun errors => Except.ok (Builder.mk stack rootChildren finalEntries errors stats rejected))
      (append_nil errors).symm
  | succ n ih =>
    rw [closeMany, closeMany, closeOne_frame b]
    cases hone : closeOne key hash strategy b.bare with
    | error e => rfl
    | ok mid =>
      have hframed : closeMany key hash strategy n (framed b.errors b.rejectedEntryDepth mid) =
          (closeMany key hash strategy n mid).map (framed b.errors b.rejectedEntryDepth) := by
        rw [ih, ih mid]
        have hbare : (framed b.errors b.rejectedEntryDepth mid).bare = mid.bare := rfl
        rw [hbare]
        cases closeMany key hash strategy n mid.bare with
        | error e => rfl
        | ok after => exact congrArg (fun errors => Except.ok { after with
            errors := errors
            rejectedEntryDepth := b.rejectedEntryDepth }) (append_assoc _ _ _)
      exact hframed

theorem settle_frame (target : Nat) (b : Builder D F) :
    settle key hash strategy target b =
      (settle key hash strategy target b.bare).map (framed b.errors b.rejectedEntryDepth) :=
  closeMany_frame _ b

def clear (b : Builder D F) : Builder D F := { b with rejectedEntryDepth := none }

theorem settle_clear (target : Nat) (b : Builder D F) :
    settle key hash strategy target b.clear = (settle key hash strategy target b).map clear := by
  rw [settle_frame target b.clear, settle_frame target b]
  have hbare : b.clear.bare = b.bare := rfl
  rw [hbare]
  cases settle key hash strategy target b.bare <;> rfl

/-! ## Entries adjust the stack when they come -/

/-- A builder at a depth of the walk, with nothing rejected above it. -/
structure At (target : Nat) (b : Builder D F) : Prop where
  pos : 1 ≤ target
  deep : target ≤ b.depth
  settled : ∀ rejected, b.rejectedEntryDepth = some rejected → target ≤ rejected

theorem processEntry_eq (h : At entry.depth b) :
    processEntry key hash strategy (.ok entry) b =
      (settle key hash strategy entry.depth b).map fun b => b.clear.takeEntry entry := by
  unfold processEntry
  have hnot : b.rejectedEntryDepth.any (fun rejected => rejected < entry.depth) = false := by
    cases hrejected : b.rejectedEntryDepth with
    | none => rfl
    | some rejected => exact decide_eq_false (not_lt.mpr (h.settled rejected hrejected))
  have hclear : adjustStackUntilDepth key hash strategy entry.depth { b with rejectedEntryDepth := none } =
      ((settle key hash strategy entry.depth b).map clear).map fun b => (none, b) := by
    rw [← settle_clear]
    exact adjust_eq h.pos h.deep
  dsimp only
  rw [hnot, if_neg Bool.false_ne_true, hclear]
  cases settle key hash strategy entry.depth b <;> rfl

theorem At.of_settle (h : At target b) (hok : settle key hash strategy target b = .ok b') :
    At target b' ∧ b'.depth = target := by
  obtain ⟨hdepth, hrejected⟩ := settle_ok hok h.pos h.deep
  exact ⟨⟨h.pos, le_of_eq hdepth.symm, fun rejected heq => h.settled rejected (hrejected ▸ heq)⟩, hdepth⟩

def run (key : Name → Name) (hash : HashOrder (Group Name (Entry D F))) (strategy : CompareStrategy D F)
    (entries : List (WalkEntry D F)) (b : Builder D F) : Except Stop (Builder D F) :=
  entries.foldlM (fun b entry => processEntry key hash strategy (.ok entry) b) b

theorem run_cons (entry : WalkEntry D F) (entries : List (WalkEntry D F)) (b : Builder D F) :
    run key hash strategy (entry :: entries) b =
      processEntry key hash strategy (.ok entry) b >>= run key hash strategy entries :=
  foldlM_cons

theorem run_append (entries rest : List (WalkEntry D F)) (b : Builder D F) :
    run key hash strategy (entries ++ rest) b =
      run key hash strategy entries b >>= run key hash strategy rest :=
  foldlM_append

/-- The entries that come next at a depth find the levels below it closed, as do those at its end. -/
theorem run_settle (h : At target b) (hfirst : ∀ entry ∈ entries.head?, entry.depth = target) :
    (run key hash strategy entries b >>= settle key hash strategy target) =
      (settle key hash strategy target b >>= fun b =>
        run key hash strategy entries b >>= settle key hash strategy target) := by
  cases hsettle : settle key hash strategy target b with
  | error e =>
    cases entries with
    | nil => exact hsettle
    | cons entry entries =>
      have hdepth := hfirst entry rfl
      rw [run_cons, processEntry_eq (hdepth.symm ▸ h), hdepth, hsettle]
      rfl
  | ok b' =>
    obtain ⟨hat, hdepth'⟩ := h.of_settle hsettle
    cases entries with
    | nil =>
      have hself : settle key hash strategy target b' = .ok b' := settle_self hdepth'
      have hleft : (run key hash strategy [] b >>= settle key hash strategy target) =
          settle key hash strategy target b := rfl
      rw [hleft, hsettle]
      exact hself.symm
    | cons entry entries =>
      have hdepth := hfirst entry rfl
      have hsame : processEntry key hash strategy (.ok entry) b = processEntry key hash strategy (.ok entry) b' := by
        rw [processEntry_eq (hdepth.symm ▸ h), processEntry_eq (hdepth.symm ▸ hat), hdepth, hsettle,
          settle_self hdepth']
      rw [run_cons, hsame, ← run_cons]
      rfl

theorem run_dropped {rejected : Nat} (h : b.rejectedEntryDepth = some rejected)
    (hdeep : ∀ entry ∈ entries, rejected < entry.depth) : run key hash strategy entries b = .ok b := by
  induction entries with
  | nil => rfl
  | cons entry entries ih =>
    obtain ⟨hlt, hrest⟩ := forall_mem_cons.mp hdeep
    have hskip : processEntry key hash strategy (.ok entry) b = .ok b := by
      unfold processEntry
      rw [h]
      exact if_pos (decide_eq_true hlt)
    rw [run_cons, hskip]
    exact ih hrest

theorem takeEntry_at (h : At entry.depth b) (hdepth : b.depth = entry.depth) :
    At entry.depth (b.clear.takeEntry entry) := by
  have hdeep : ∀ other : Entry D F, ∀ stats : FSStats,
      ({ b.clear with stats := stats }.appendToTopLevel other).depth = b.depth :=
    fun other stats => congrArg (· + 1) (stack_appendToTopLevel other _)
  unfold takeEntry
  split
  · exact ⟨h.pos, le_of_eq hdepth.symm, fun rejected heq => by cases heq; exact le_rfl⟩
  split
  · exact ⟨h.pos, le_of_eq hdepth.symm, fun rejected heq => by cases heq; exact le_rfl⟩
  · exact ⟨h.pos, le_of_eq hdepth.symm, fun rejected heq => nomatch heq⟩
  · refine ⟨h.pos, le_of_eq ((hdeep _ _).trans hdepth).symm, fun rejected heq => ?_⟩
    rw [appendToTopLevel_rejected] at heq
    cases heq
  · exact ⟨h.pos, Nat.le_succ_of_le (le_of_eq hdepth.symm), fun rejected heq => nomatch heq⟩

theorem run_at (h : At target b)
    (hentries : ∀ entry ∈ entries, target ≤ entry.depth) (hok : run key hash strategy entries b = .ok b') :
    At target b' := by
  induction entries generalizing b with
  | nil =>
    cases hok
    exact h
  | cons entry entries ih =>
    obtain ⟨hle, hrest⟩ := forall_mem_cons.mp hentries
    rw [run_cons] at hok
    cases hone : processEntry key hash strategy (.ok entry) b with
    | error e =>
      rw [hone] at hok
      cases hok
    | ok mid =>
      rw [hone] at hok
      refine ih ?_ hrest hok
      unfold processEntry at hone
      dsimp only at hone
      split at hone
      · cases hone
        exact h
      split at hone
      · cases hone
      rename_i info adjusted hadjust
      cases hone
      have hdeep : entry.depth ≤ ({ b with rejectedEntryDepth := none } : Builder D F).depth := by
        unfold adjustStackUntilDepth at hadjust
        split at hadjust
        · cases hadjust
        rename_i hnot
        exact not_lt.mp hnot
      have hcleared : At entry.depth ({ b with rejectedEntryDepth := none } : Builder D F) :=
        ⟨le_trans h.pos hle, hdeep, fun rejected heq => nomatch heq⟩
      rw [adjust_eq hcleared.pos hdeep] at hadjust
      cases hsettle : settle key hash strategy entry.depth { b with rejectedEntryDepth := none } with
      | error e =>
        rw [hsettle] at hadjust
        cases hadjust
      | ok settled =>
        rw [hsettle] at hadjust
        cases hadjust
        obtain ⟨hat, hdepth⟩ := hcleared.of_settle hsettle
        have hclear : adjusted.clear = adjusted := by
          have hnone := (settle_ok hsettle hcleared.pos hdeep).2
          obtain ⟨_, _, _, _, _, rejected⟩ := adjusted
          exact congrArg (Builder.mk _ _ _ _ _) hnone.symm
        have htaken := takeEntry_at hat hdepth
        rw [hclear] at htaken
        exact ⟨h.pos, le_trans hle htaken.deep, fun rejected heq => le_trans hle (htaken.settled rejected heq)⟩

end SyncEngine.FsTree.Builder
