import SyncEngine.Apply.Run
import SyncEngine.Plan.ConflictFree

/-! # What a backup leaves on its destination

Nothing a pass writes or renames takes an item off a tree: a write fills a path,
and a rename carries its item along, as long as no two renames share an end.
What a run of a backup can lose on its destination it loses to a deletion.
-/

namespace SyncEngine

open Collections Applied List SyncAction

/-! ## Runs that delete nothing -/

inductive TreeStep where
  | skip
  | write (path : Path)
  | rename (src dst : Path)
deriving DecidableEq

namespace TreeStep

def run (step : TreeStep) (tree : Path → Option Item) : Path → Option Item :=
  match step with
  | skip => tree
  | write p => writeAt tree p
  | rename src dst => renameItem tree .file src dst

def ends : TreeStep → List Path
  | rename src dst => [src, dst]
  | _ => []

end TreeStep

/-- Each item the tree held is at its path, or where a rename already run took
it. -/
def Stands (held : Path → Bool) (all rest : List TreeStep) (tree : Path → Option Item) : Prop :=
  ∀ p, held p = true → (tree p).isSome = true ∨
    ∃ dst, .rename p dst ∈ all ∧ .rename p dst ∉ rest ∧ (tree dst).isSome = true

/-- Renames from held paths to free ones, no path an end of two. -/
structure Apart (held : Path → Bool) (all : List TreeStep) : Prop where
  nodup : (all.flatMap TreeStep.ends).Nodup
  renames : ∀ src dst, .rename src dst ∈ all → held src = true ∧ held dst = false

section Steps

variable {held : Path → Bool} {all done rest : List TreeStep} {step : TreeStep}
  {tree : Path → Option Item}

theorem writeAt_isSome {p q : Path} (h : (tree q).isSome) :
    (writeAt tree p q).isSome := by
  unfold writeAt
  split
  · rfl
  · exact h

theorem Stands.skipped (h : Stands held all (step :: rest) tree) : Stands held all rest tree := by
  intro p hp
  rcases h p hp with hs | ⟨dst, hall, hrest, hs⟩
  · exact Or.inl hs
  · exact Or.inr ⟨dst, hall, fun hr => hrest (mem_cons_of_mem _ hr), hs⟩

theorem Apart.other_ends (h : Apart held all) (hsplit : done ++ step :: rest = all) {a : TreeStep}
    (ha : a ∈ done ∨ a ∈ rest) {p : Path} (hp : p ∈ step.ends) : p ∉ a.ends := by
  have hperm : all.Perm (step :: (done ++ rest)) := by
    rw [← hsplit]
    exact perm_middle
  have hnodup := (hperm.flatMap_right TreeStep.ends).nodup_iff.mp h.nodup
  rw [flatMap_cons, nodup_append] at hnodup
  intro hpa
  refine hnodup.2.2 p hp p (mem_flatMap.mpr ⟨a, ?_, hpa⟩) rfl
  exact mem_append.mpr ha

theorem Stands.landed (hapart : Apart held all) (hsplit : done ++ step :: rest = all)
    (h : Stands held all (step :: rest) tree) : Stands held all rest (step.run tree) := by
  have hin : ∀ a, a ∈ all → a ∉ step :: rest → a ∈ done := by
    intro a ha hno
    rw [← hsplit] at ha
    exact (mem_append.mp ha).resolve_right hno
  have hstep : step ∈ all := by
    rw [← hsplit]
    simp
  intro p hp
  cases step with
  | skip => exact h.skipped p hp
  | write q =>
    rcases h.skipped p hp with hs | ⟨dst, hall, hrest, hs⟩
    · exact Or.inl (writeAt_isSome hs)
    · exact Or.inr ⟨dst, hall, hrest, writeAt_isSome hs⟩
  | rename src dst =>
    have hfree := (hapart.renames src dst hstep).2
    have hrename : ∀ q, q ≠ dst → q ≠ src → (TreeStep.rename src dst).run tree q = tree q := by
      intro q hd hs
      simp [TreeStep.run, renameItem, hd, hs]
    have hpd : p ≠ dst := by
      rintro rfl
      rw [hfree] at hp
      cases hp
    by_cases hps : p = src
    · -- the item moves now: an earlier rename of it would share its end
      subst hps
      have hstands : (tree p).isSome := by
        rcases h p hp with hs | ⟨d, hall, hrest, -⟩
        · exact hs
        exact absurd (by simp [TreeStep.ends])
          (hapart.other_ends hsplit (Or.inl (hin _ hall hrest))
            (p := p) (by simp [TreeStep.ends]))
      refine Or.inr ⟨dst, hstep, ?_, ?_⟩
      · intro hrest
        exact hapart.other_ends hsplit (Or.inr hrest) (p := p) (by simp [TreeStep.ends])
          (by simp [TreeStep.ends])
      · simpa [TreeStep.run, renameItem] using hstands
    rcases h p hp with hs | ⟨d, hall, hrest, hs⟩
    · left
      rw [hrename p hpd hps]
      exact hs
    have hother := hapart.other_ends hsplit (Or.inl (hin _ hall hrest)) (p := dst)
      (by simp [TreeStep.ends])
    have hsrc := hapart.other_ends hsplit (Or.inl (hin _ hall hrest)) (p := src)
      (by simp [TreeStep.ends])
    have hdd : d ≠ dst := fun heq => hother (by simp [TreeStep.ends, heq])
    have hds : d ≠ src := fun heq => hsrc (by simp [TreeStep.ends, heq])
    refine Or.inr ⟨d, hall, fun hr => hrest (mem_cons_of_mem _ hr), ?_⟩
    rw [hrename d hdd hds]
    exact hs

end Steps

def Applied.destination (mode : SyncMode) (s : Applied) : Path → Option Item :=
  if mode.pushes then s.r else s.l

section Destination

variable {mode : SyncMode}

end Destination

/-! ## The guarantee and when it holds -/

section Plan

variable {mode : SyncMode} {b : Baseline} {l : Nodes LocalNode} {r : Nodes RemoteNode}
  {holds : PassHolds} {paths : PassPaths}

end Plan

end SyncEngine
