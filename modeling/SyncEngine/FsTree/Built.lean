import SyncEngine.FsTree.Relisted

/-! # The tree lists what the walk found

What is listed of a tree is the walk's entries that were accepted, lie below nothing that was
rejected and kept their names in every directory on the way.
-/

namespace SyncEngine.FsTree

open Collections Builder List

variable {D F : Type} {key : Name → Name} {prefers : Seen D F → Seen D F → Bool}

namespace Builder

theorem processAll_oks (hash : HashOrder (Group Name (Entry D F))) (strategy : CompareStrategy D F)
    (entries : List (WalkEntry D F)) (b : Builder D F) :
    processAll key hash strategy (entries.map Except.ok) b = run key hash strategy entries b :=
  foldlM_map

theorem finalize_ok {g : Grove (WalkEntry D F)} {first : FSTree D F} {kept : Grove (Seen D F)} {stats : FSStats}
    {hash again : HashOrder (Group Name (Entry D F))} {strategy : CompareStrategy D F} {b b' : Builder D F}
    (hfinish : finish key hash strategy b = .ok (first, b')) (hpassed : Passed key prefers g first stats kept) :
    ∃ tree kept', b.finalize key hash strategy again = .ok (tree, statsOf ((kept'.walk 0).map Prod.fst), b'.errors) ∧
      tree.ReadsAs kept' ∧ Kept key prefers g kept' := by
  obtain ⟨listed, hlisted, hiterate⟩ := hpassed.reads.dfsIter
  have hitems : (listed.map fun item => Except.ok (secondPassEntry item)) =
      ((Builder.listed (retold 0 kept) 1).map Except.ok : List (Except WalkError (WalkEntry D F))) := by
    rw [listed_retold, ← hlisted, map_map, map_map]
    exact map_congr_left fun item _ => congrArg Except.ok (secondPassEntry_eq item)
  have hnone := hpassed.keeps.noneCollide
  have hpass : Passes key prefers (retold 0 kept)
      (run key again panicCompareStrategy (Builder.listed (retold 0 kept) 1) new >>= finish key again panicCompareStrategy) :=
    pass_passes (closed_retold hpassed.reads.reads 0) (told_retold 0 kept)
      (decides_retold hnone panicCompareStrategy 0) (decided_retold hnone.2 panicCompareStrategy 0)
  have hsize : (retold 0 kept).size = kept.size := by
    rw [← Grove.length_walk _ 1, walk_retold, length_map, Grove.length_walk]
  unfold finalize
  rw [hfinish]
  dsimp only
  rw [hiterate _ (Nat.lt_succ_of_le hpassed.fits)]
  dsimp only
  rw [hitems, processAll_oks]
  cases hrun : run key again panicCompareStrategy (Builder.listed (retold 0 kept) 1) new with
  | error e =>
    rw [hrun] at hpass
    have hlt : u32Max < (retold 0 kept).size := hpass.2
    have hfits := hpassed.fits
    have hfew := hpassed.few
    omega
  | ok second =>
    rw [hrun] at hpass
    have hbind : ((Except.ok second : Except Stop (Builder D F)) >>= finish key again panicCompareStrategy) =
        finish key again panicCompareStrategy second := rfl
    rw [hbind] at hpass
    dsimp only
    cases hdone : finish key again panicCompareStrategy second with
    | error e =>
      rw [hdone] at hpass
      have hlt : u32Max < (retold 0 kept).size := hpass.2
      have hfits := hpassed.fits
      have hfew := hpassed.few
      omega
    | ok done =>
      rw [hdone] at hpass
      obtain ⟨tree, last⟩ := done
      obtain ⟨kept', hpassed'⟩ := hpass
      obtain ⟨hkept, hwalk⟩ := (keptAgain kept').kept hpassed.keeps hpassed'.keeps 0
      refine ⟨tree, kept', ?_, hpassed'.reads, hkept⟩
      have htally : tally (retold 0 kept) .new = statsOf ((kept.walk 0).map Prod.fst) := tally_retold 0 kept []
      dsimp only
      rw [hpassed'.stats, htally, statsOf_perm (hwalk.map Prod.fst)]

end Builder

/-! ## Walks that fail here and there -/

section Walk

variable {hash again : HashOrder (Group Name (Entry D F))} {strategy : CompareStrategy D F} {clock : Clock}

def found (walk : List (Except WalkError (WalkEntry D F))) : List (WalkEntry D F) := walk.filterMap Except.toOption

theorem takeWalk_alike {b c : Builder D F} (h : b.Alike c) (i : Nat) (walk : List (Except WalkError (WalkEntry D F))) :
    (takeWalk key hash strategy clock i walk b = .error .cancelled ∧ ∃ j, clock.cancelled j) ∨
      (takeWalk key hash strategy clock i walk b).map (fun done => done.1.quiet) =
        (run key hash strategy (found walk) c).map quiet := by
  induction walk generalizing i b c with
  | nil => exact Or.inr (congrArg Except.ok h.quiet)
  | cons item walk ih =>
    have hnext : ∀ b' c' : Builder D F, b'.Alike c' →
        (let result := if clock.due i then
            if clock.cancelled i then .error .cancelled
            else (takeWalk key hash strategy clock (i + 1) walk { b' with errors := [] }).map fun done => (done.1, b'.errors ++ done.2)
          else takeWalk key hash strategy clock (i + 1) walk b'
        (result = .error .cancelled ∧ ∃ j, clock.cancelled j) ∨
          result.map (fun done => done.1.quiet) = (run key hash strategy (found walk) c').map quiet) := by
      intro b' c' halike
      split
      · split
        · rename_i hcancelled
          exact Or.inl ⟨rfl, i, hcancelled⟩
        have hquiet : ({ b' with errors := [] } : Builder D F).Alike c' := halike
        rcases ih hquiet (i + 1) with ⟨hcancelled, hwhen⟩ | hsame
        · rw [hcancelled]
          exact Or.inl ⟨rfl, hwhen⟩
        right
        rw [← hsame]
        cases takeWalk key hash strategy clock (i + 1) walk { b' with errors := [] } <;> rfl
      · exact ih halike (i + 1)
    unfold takeWalk
    cases item with
    | error e =>
      have halike : ({ b with errors := b.errors ++ [e] } : Builder D F).Alike c := h
      exact hnext _ _ halike
    | ok entry =>
      have hone : (c.processEntry key hash strategy (.ok entry)).map quiet =
          (b.processEntry key hash strategy (.ok entry)).map quiet :=
        (processEntry_alike h entry).symm
      have hfound : found (.ok entry :: walk) = entry :: found walk := rfl
      rw [hfound, run_cons]
      cases hb : b.processEntry key hash strategy (.ok entry) with
      | error e =>
        rw [error_of_map_eq hone hb]
        exact Or.inr rfl
      | ok b' =>
        obtain ⟨c', hc, halike⟩ := ok_of_map_eq hone hb
        rw [hc]
        exact hnext b' c' halike.symm

def Lists (key : Name → Name) (prefers : Seen D F → Seen D F → Bool) (clock : Clock) (g : Grove (WalkEntry D F)) :
    Except Stop (FSTree D F × FSStats × List WalkError) → Prop
  | .error stop => (stop = .cancelled ∧ ∃ i, clock.cancelled i = true) ∨ (stop = .tooManyEntries ∧ u32Max < g.size)
  | .ok (tree, stats, _) => ∃ kept : Grove (Seen D F), Kept key prefers g kept ∧ NoneCollide key kept ∧
      (∃ listed : List (Entry D F × Nat), listed.map (fun item => (item.1.seen, item.2)) = kept.walk 0 ∧
        ∀ steps, kept.size < steps → tree.dfsIter steps = some listed) ∧
      (∀ root : Name, ∃ listed : List (Entry D F × Name),
        listed.map (fun item => (item.1.seen, item.2)) =
          (kept.paths Seen.name []).map (fun item => (item.1, FSTree.buildPathStr root item.2)) ∧
        ∀ steps, kept.size < steps → tree.dfsIterWithPath root steps = some listed) ∧
      stats = statsOf ((kept.walk 0).map Prod.fst)

/-- What is built of a walk is what a pass over its entries comes to, and a second over what that left. -/
theorem lists_of_passes {g : Grove (WalkEntry D F)} {walk : List (Except WalkError (WalkEntry D F))}
    (h : Passes key prefers g (run key hash strategy (found walk) new >>= finish key hash strategy)) :
    Lists key prefers clock g (buildFsTree key hash again strategy clock walk) := by
  have hnew : (new : Builder D F).Alike new := rfl
  unfold buildFsTree
  rcases takeWalk_alike hnew 0 walk with ⟨hcancelled, hwhen⟩ | hsame
  · rw [hcancelled]
    exact Or.inl ⟨rfl, hwhen⟩
  cases hrun : run key hash strategy (found walk) new with
  | error e =>
    rw [hrun] at h
    rw [error_of_map_eq hsame hrun]
    exact Or.inr h
  | ok c =>
    rw [hrun] at h
    obtain ⟨⟨b, reported⟩, htake, halike⟩ := ok_of_map_eq hsame hrun
    have hfinish : (b.finish key hash strategy).map Prod.fst = (c.finish key hash strategy).map Prod.fst :=
      finish_alike halike
    have hbind : ((Except.ok c : Except Stop (Builder D F)) >>= finish key hash strategy) =
        c.finish key hash strategy := rfl
    rw [hbind] at h
    rw [htake]
    dsimp only
    cases hc : c.finish key hash strategy with
    | error e =>
      rw [hc] at h
      unfold Builder.finalize
      rw [error_of_map_eq hfinish hc]
      exact Or.inr h
    | ok done =>
      rw [hc] at h
      obtain ⟨⟨first, after⟩, hb, hfirst⟩ := ok_of_map_eq hfinish hc
      obtain ⟨first', after'⟩ := done
      obtain rfl : first = first' := hfirst
      obtain ⟨kept, hpassed⟩ := h
      obtain ⟨tree, kept', hfinal, hreads, hkept⟩ := finalize_ok hb hpassed
      rw [hfinal]
      exact ⟨kept', hkept, hkept.noneCollide, hreads.dfsIter, hreads.dfsIterWithPath, rfl⟩

theorem decided_of_total (h : ∀ a b, strategy a b = some (prefers a b)) (g : Grove (WalkEntry D F)) :
    Decided key strategy prefers g := by
  induction g with
  | nil => trivial
  | node entry below beside hbelow hbeside => exact ⟨Or.inl h, hbelow, hbeside⟩

end Walk

/-- The tree of a depth-first walk lists the entries that were accepted, lie below nothing rejected and kept
their names on the whole way, each with its depth and path. Building it fails for no other reason than that
the caller cancelled or the entries are too many to address. -/
theorem buildFsTree_lists (key : Name → Name) (hash again : HashOrder (Group Name (Entry D F)))
    (prefers : Seen D F → Seen D F → Bool) (clock : Clock) (walk : List (Except WalkError (WalkEntry D F)))
    (hwalk : Grove.DepthFirst WalkEntry.opens 1 1 ((found walk).map fun entry => (entry, entry.depth))) :
    ∃ g : Grove (WalkEntry D F), g.walk 1 = (found walk).map (fun entry => (entry, entry.depth)) ∧
      Lists key prefers clock g (buildFsTree key hash again (fun a b => some (prefers a b)) clock walk) := by
  obtain ⟨g, hg, hclosed⟩ := Grove.exists_walk hwalk
  refine ⟨g, hg, lists_of_passes ?_⟩
  have htold : Told 1 g := by
    intro item hitem
    rw [hg] at hitem
    obtain ⟨entry, -, rfl⟩ := mem_map.mp hitem
    rfl
  have hlisted : found walk = Builder.listed g 1 := by
    unfold Builder.listed
    rw [hg, map_map]
    exact (map_id _).symm
  rw [hlisted]
  exact pass_passes hclosed htold (Or.inl fun _ _ => rfl) (decided_of_total (fun _ _ => rfl) g)

/-- A rejected directory, a folder twice and a file below it. -/
theorem buildFsTree_lists_small :
    ∃ g : Grove (WalkEntry Unit Unit), g.walk 1 =
        (found [.ok ⟨1, .error (.io none), .ok (.dir ())⟩, .ok ⟨2, .ok ['x'], .ok (.file () (.ok 1))⟩, .error (.loop ['l']),
          .ok ⟨1, .ok ['a'], .ok (.dir ())⟩, .ok ⟨2, .ok ['b'], .ok (.file () (.ok 7))⟩, .ok ⟨1, .ok ['A'], .ok (.dir ())⟩]).map
            (fun entry => (entry, entry.depth)) ∧
      Lists (normalizeCollisionKey ⟨id, fun c => [c.toLower]⟩) (fun _ _ => false) ⟨fun _ => false, fun _ => false⟩ g
        (buildFsTree (normalizeCollisionKey ⟨id, fun c => [c.toLower]⟩) ⟨fun _ xs => xs, fun _ xs => List.Perm.refl xs⟩
          ⟨fun _ xs => xs, fun _ xs => List.Perm.refl xs⟩ (fun _ _ => some false) ⟨fun _ => false, fun _ => false⟩
          [.ok ⟨1, .error (.io none), .ok (.dir ())⟩, .ok ⟨2, .ok ['x'], .ok (.file () (.ok 1))⟩, .error (.loop ['l']),
            .ok ⟨1, .ok ['a'], .ok (.dir ())⟩, .ok ⟨2, .ok ['b'], .ok (.file () (.ok 7))⟩, .ok ⟨1, .ok ['A'], .ok (.dir ())⟩]) :=
  buildFsTree_lists _ _ _ _ _ _ (by decide)

end SyncEngine.FsTree
