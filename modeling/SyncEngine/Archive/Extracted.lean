import SyncEngine.Archive.Resolved

/-! # Runs of an extraction

Whatever the order of the calls, a path has one directory and a directory one path, each is
planned once behind its parent, and no name given out meets another or one the root held.
-/

namespace SyncEngine.Archive

open Collections PathResolver List

section Runs

variable {u : Unicode} {existing : List Name} {held : List Name} {start : PathResolver}
  {extraction : Extraction}

variable {taken : TakenNames}

theorem settled_new (h : TakenNames.new u existing = some taken) :
    Settled u taken.keys [] [] ⟨[⟨taken, fun _ => none⟩]⟩ := by
  have hnode : ∀ {dir : DirId} {node : DirNode},
      [(⟨taken, fun _ => none⟩ : DirNode)][dir]? = some node → dir = rootDir ∧ node = ⟨taken, fun _ => none⟩ := by
    intro dir node hfound
    cases dir with
    | zero =>
      cases hfound
      exact ⟨rfl, rfl⟩
    | succ dir => cases hfound
  have hchild : ∀ dir key next, child ⟨[⟨taken, fun _ => none⟩]⟩ dir key ≠ some next := by
    intro dir key next hfound
    obtain ⟨node, hdir, hkey⟩ := Option.bind_eq_some_iff.mp hfound
    obtain ⟨-, rfl⟩ := hnode hdir
    cases hkey
  refine ⟨Nat.one_pos, ?_, ?_, ⟨fun dir key => hchild dir key _, ?_⟩, ?_, rfl, ?_, ?_⟩
  · intro dir node hfound
    obtain ⟨-, rfl⟩ := hnode hfound
    exact (Reached.new h).runsOk
  · intro dir node hfound
    obtain ⟨rfl, rfl⟩ := hnode hfound
    exact List.Perm.refl _
  · exact fun dir key _ _ _ hfound => absurd hfound (hchild dir key _)
  · exact fun dir key _ hfound => absurd hfound (hchild dir key _)
  all_goals exact fun _ hmem => nomatch hmem

/-- A resolver after some calls, with the directories they answered. -/
structure Sound (u : Unicode) (held : List Name) (extraction : Extraction) : Prop where
  settled : Settled u held extraction.planned extraction.files extraction.resolver
  found : ∀ path id, (path, id) ∈ extraction.resolved →
    follow extraction.resolver.child rootDir (path.map (collisionKey u)) = some id ∧
      id < extraction.resolver.dirs.length

theorem Sound.step {call : ResolverCall} {after : Extraction} (h : Sound u held extraction)
    (hvalid : call.Valid u) (hstep : Extraction.step u call extraction = some after) :
    Sound u held after := by
  unfold Extraction.step at hstep
  cases call with
  | resolveDirs fuel segments =>
    dsimp only at hstep
    cases hrun : extraction.resolver.resolveDirs u fuel segments extraction.planned with
    | none =>
      rw [hrun] at hstep
      cases hstep
    | some out =>
      rw [hrun] at hstep
      have hresolves := h.settled.resolveFrom hvalid h.settled.rooted hrun
      cases out with
      | ok id planned resolver =>
        cases hstep
        obtain ⟨hsettled, hgrows, hfollow, hlt⟩ := hresolves
        refine ⟨hsettled, fun path dir hmem => ?_⟩
        rcases mem_append.mp hmem with hold | hnew
        · obtain ⟨hbefore, hdir⟩ := h.found path dir hold
          have hafter := hgrows.follow hbefore
          refine ⟨hafter, ?_⟩
          cases hpath : path.reverse with
          | nil =>
            rw [reverse_eq_nil_iff] at hpath
            subst hpath
            cases hafter
            exact hsettled.rooted
          | cons last front =>
            have hsplit : path = front.reverse ++ [last] := by
              rw [← reverse_reverse path, hpath, reverse_cons]
            rw [hsplit, map_append] at hafter
            obtain ⟨next, -, hchild⟩ := follow_concat hafter
            exact hsettled.below _ _ _ hchild
        cases mem_singleton.mp hnew
        exact ⟨hfollow, hlt⟩
      | refused error planned resolver => exact hresolves.elim
      | aborted => cases hstep
      | panicked => cases hstep
  | fileName fuel dir name =>
    dsimp only at hstep
    unfold PathResolver.fileName at hstep
    cases hnode : extraction.resolver.dirs[dir]? with
    | none =>
      rw [hnode] at hstep
      cases hstep
    | some node =>
      rw [hnode] at hstep
      dsimp only at hstep
      cases hallocate : node.taken.allocate u fuel name .file with
      | none =>
        rw [hallocate] at hstep
        cases hstep
      | some allocation =>
        rw [hallocate] at hstep
        obtain ⟨given, htakes⟩ := (h.settled.runs dir node hnode).takes hvalid (fits_file _) hallocate
        cases allocation with
        | aborted => cases hstep
        | refused error taken => exact htakes.elim
        | named name taken =>
          obtain ⟨rfl, hkeys, hruns⟩ := htakes
          cases hstep
          refine ⟨h.settled.file hnode hkeys hruns, fun path id hmem => ?_⟩
          have hchild := child_withTaken hnode taken
          have hlength := extraction.resolver.length_withTaken dir node taken
          rw [hchild, hlength]
          exact h.found path id hmem

end Runs

variable {planned : List PlannedDir} {files : List (DirId × ValidatedName)} {resolver : PathResolver}

theorem Settled.fileName_ends {u : Unicode} {held : List Name} {dir : DirId} {name : ValidatedName}
    (h : Settled u held planned files resolver) (hname : Validated u name) :
    ∃ out, ∃ fuel₀, ∀ fuel ≥ fuel₀, resolver.fileName u fuel dir name planned = some out := by
  cases hnode : resolver.dirs[dir]? with
  | none =>
    refine ⟨.panicked, 0, fun fuel _ => ?_⟩
    unfold PathResolver.fileName
    rw [hnode]
  | some node =>
    obtain ⟨given, -, -, -, allocation, htakes, fuel₀, hallocates⟩ :=
      (h.runs dir node hnode).allocate hname (fits_file _)
    cases allocation with
    | refused error taken => exact htakes.elim
    | aborted =>
      refine ⟨.aborted, fuel₀, fun fuel hfuel => ?_⟩
      unfold PathResolver.fileName
      rw [hnode]
      dsimp only
      rw [hallocates fuel hfuel]
    | named given taken =>
      refine ⟨.ok given planned (resolver.withTaken dir node taken), fuel₀, fun fuel hfuel => ?_⟩
      unfold PathResolver.fileName
      rw [hnode]
      dsimp only
      rw [hallocates fuel hfuel]

theorem Settled.parent_first {u : Unicode} {held : List Name}
    (h : Settled u held planned files resolver) {front back : List PlannedDir} {plan : PlannedDir}
    (hsplit : planned = front ++ plan :: back) :
    plan.parent = rootDir ∨ plan.parent ∈ front.map PlannedDir.id := by
  have hparent := h.parents plan (hsplit ▸ mem_append_right _ mem_cons_self)
  have hids := h.ids
  rw [hsplit, map_append, map_cons] at hids
  obtain ⟨count, -, hfront, hback⟩ := range'_eq_append_iff.mp hids.symm
  obtain ⟨hid, -, -⟩ := range'_eq_cons_iff.mp hback.symm
  rcases eq_zero_or_pos plan.parent with hzero | hpos
  · exact Or.inl hzero
  right
  rw [hfront]
  refine mem_range'_1.mpr ⟨hpos, ?_⟩
  rw [← hid, Nat.mul_one] at hparent
  exact hparent

/-- In every run of calls two paths have one directory just where their segments agree, key
by key. A directory is planned once and behind its parent, and every directory answered but
the root is planned. The names given out in a directory meet neither one another nor, in the
root, a name it held. Every call ends. -/
theorem entries_never_collide (u : Unicode) (existing : List Name) {start : PathResolver}
    (hnew : new u existing = some start) {extraction : Extraction}
    (hreach : (Extraction.machine u start).Reaches (fun _ call => call.Valid u) extraction) :
    (∀ path id path' id', (path, id) ∈ extraction.resolved → (path', id') ∈ extraction.resolved →
      (id = id' ↔ List.Forall₂ (fun a b => collisionKey u a = collisionKey u b) path path')) ∧
    (extraction.planned.map PlannedDir.id).Nodup ∧
    (∀ front plan back, extraction.planned = front ++ plan :: back →
      plan.parent = rootDir ∨ plan.parent ∈ front.map PlannedDir.id) ∧
    (∀ path id, (path, id) ∈ extraction.resolved →
      id = rootDir ∨ id ∈ extraction.planned.map PlannedDir.id) ∧
    (∀ dir, ((givenIn extraction.planned extraction.files dir).map (collisionKey u)).Nodup) ∧
    (∀ given ∈ givenIn extraction.planned extraction.files rootDir, ∀ name ∈ existing,
      collisionKey u given ≠ u.lower name) ∧
    (∀ segments, (∀ segment ∈ segments, Validated u segment) → ∃ out, ∃ fuel₀, ∀ fuel ≥ fuel₀,
      extraction.resolver.resolveDirs u fuel segments extraction.planned = some out) ∧
    ∀ dir name, Validated u name → ∃ out, ∃ fuel₀, ∀ fuel ≥ fuel₀,
      extraction.resolver.fileName u fuel dir name extraction.planned = some out := by
  obtain ⟨taken, htaken, rfl⟩ := Option.map_eq_some_iff.mp hnew
  have hsound : Sound u taken.keys extraction := by
    refine hreach.invariant ?_ fun _ _ _ h hvalid hstep => h.step hvalid hstep
    exact ⟨settled_new htaken, fun _ _ hmem => nomatch hmem⟩
  have hsettled := hsound.settled
  have hkeys : ∀ dir, dir < extraction.resolver.dirs.length →
      ((givenIn extraction.planned extraction.files dir).map (collisionKey u) ++
        if dir = rootDir then taken.keys else []).Nodup := by
    intro dir hdir
    have hnode := getElem?_eq_getElem hdir
    exact (hsettled.taken dir _ hnode).nodup_iff.mp (extraction.resolver.dirs[dir]).taken.nodup
  refine ⟨?_, ?_, fun _ _ _ hsplit => hsettled.parent_first hsplit, ?_, ?_, ?_,
    fun segments hvalid => hsettled.resolveFrom_ends hvalid hsettled.rooted,
    fun dir name hname => hsettled.fileName_ends hname⟩
  · intro path id path' id' hmem hmem'
    obtain ⟨hfollow, -⟩ := hsound.found path id hmem
    obtain ⟨hfollow', -⟩ := hsound.found path' id' hmem'
    rw [← List.forall₂_map_right_iff, ← List.forall₂_map_left_iff, List.forall₂_eq_eq_eq]
    constructor
    · rintro rfl
      exact hsettled.tree.follow_injective hfollow hfollow'
    intro hsame
    rw [hsame, hfollow'] at hfollow
    exact (Option.some.inj hfollow).symm
  · rw [hsettled.ids]
    exact nodup_range'
  · intro path id hmem
    obtain ⟨-, hlt⟩ := hsound.found path id hmem
    rcases eq_zero_or_pos id with hzero | hpos
    · exact Or.inl hzero
    right
    rw [hsettled.ids]
    refine mem_range'_1.mpr ⟨hpos, ?_⟩
    rw [Nat.add_sub_cancel' hsettled.rooted]
    exact hlt
  · intro dir
    by_cases hdir : dir < extraction.resolver.dirs.length
    · exact (nodup_append'.mp (hkeys dir hdir)).1
    have hempty : givenIn extraction.planned extraction.files dir = [] := by
      unfold givenIn
      have hplanned : extraction.planned.filter (fun plan => plan.parent = dir) = [] := by
        refine filter_eq_nil_iff.mpr fun plan hmem heq => hdir ?_
        rw [← of_decide_eq_true heq]
        exact lt_trans (hsettled.parents plan hmem) (hsettled.id_lt hmem)
      have hfiles : extraction.files.filter (fun file => file.1 = dir) = [] := by
        refine filter_eq_nil_iff.mpr fun file hmem heq => hdir ?_
        rw [← of_decide_eq_true heq]
        exact hsettled.filed file hmem
      rw [hplanned, hfiles]
      rfl
    rw [hempty]
    exact nodup_nil
  intro given hgiven name hname hsame
  have hroot := hkeys rootDir hsettled.rooted
  rw [if_pos rfl] at hroot
  have hdisjoint := (nodup_append'.mp hroot).2.2
  refine hdisjoint (mem_map_of_mem hgiven) ?_
  rw [hsame]
  exact ((new_spec htaken).2.1 _).mpr (mem_map_of_mem hname)

/-- A directory called as the file in the root but for case, twice, one below it, one the archive
calls by the name the first was given, then a file in the first and one in the root. -/
def clashingCalls : List ResolverCall :=
  [.resolveDirs 4 [⟨"A.txt".toList⟩], .resolveDirs 4 [⟨"a.TXT".toList⟩],
    .resolveDirs 4 [⟨"a.TXT".toList⟩, ⟨"e".toList⟩], .resolveDirs 4 [⟨"a.txt (1)".toList⟩],
    .fileName 4 1 ⟨"E".toList⟩, .fileName 4 rootDir ⟨"A.txt".toList⟩]

theorem entries_never_collide_clashing :
    let start : PathResolver := ⟨[⟨oneTaken, fun _ => none⟩]⟩
    let machine := Extraction.machine caronUnicode start
    let key := collisionKey caronUnicode
    ∃ extraction, machine.run clashingCalls machine.start = some extraction ∧
      extraction.resolved.map Prod.snd = [1, 1, 2, 3] ∧
      extraction.planned.map (fun plan => (plan.parent, String.ofList plan.name.text)) =
        [(0, "A.txt (1)"), (1, "e"), (0, "a.txt (2)")] ∧
      extraction.files.map (fun file => (file.1, String.ofList file.2.text)) =
        [(1, "E (1)"), (0, "A (1).txt")] ∧
      (∀ path id path' id', (path, id) ∈ extraction.resolved → (path', id') ∈ extraction.resolved →
        (id = id' ↔ List.Forall₂ (fun a b => key a = key b) path path')) ∧
      (extraction.planned.map PlannedDir.id).Nodup ∧
      (∀ dir, ((givenIn extraction.planned extraction.files dir).map key).Nodup) ∧
      ∀ given ∈ givenIn extraction.planned extraction.files rootDir, ∀ name ∈ ["a.txt".toList],
        key given ≠ caronUnicode.lower name := by
  intro start machine key
  have hrun : (machine.run clashingCalls machine.start).map (fun extraction =>
      (extraction.resolved.map Prod.snd,
        extraction.planned.map (fun plan => (plan.parent, String.ofList plan.name.text)),
        extraction.files.map (fun file => (file.1, String.ofList file.2.text)))) =
      some ([1, 1, 2, 3], [(0, "A.txt (1)"), (1, "e"), (0, "a.txt (2)")],
        [(1, "E (1)"), (0, "A (1).txt")]) := by
    decide +kernel
  obtain ⟨extraction, hs, hmade⟩ := Option.map_eq_some_iff.mp hrun
  have hvalid : ∀ text ∈ ["A.txt", "a.TXT", "e", "a.txt (1)", "E"],
      Validated caronUnicode ⟨text.toList⟩ := by
    intro text hmem
    have hparsed : ∀ text ∈ ["A.txt", "a.TXT", "e", "a.txt (1)", "E"],
        parseName caronUnicode.nfc text.toList = .ok ⟨text.toList⟩ := by
      decide +kernel
    exact ⟨text.toList, hparsed text hmem⟩
  have hreach : machine.Reaches (fun _ call => call.Valid caronUnicode) extraction := by
    refine Machine.reaches_of_run_of .start ?_ hs
    intro call hcall _
    unfold clashingCalls at hcall
    simp only [mem_cons, not_mem_nil, or_false] at hcall
    rcases hcall with rfl | rfl | rfl | rfl | rfl | rfl
    · exact forall_mem_singleton.mpr (hvalid "A.txt" (by decide))
    · exact forall_mem_singleton.mpr (hvalid "a.TXT" (by decide))
    · exact forall_mem_cons.mpr ⟨hvalid "a.TXT" (by decide), forall_mem_singleton.mpr (hvalid "e" (by decide))⟩
    · exact forall_mem_singleton.mpr (hvalid "a.txt (1)" (by decide))
    · exact hvalid "E" (by decide)
    · exact hvalid "A.txt" (by decide)
  have hnew : new caronUnicode ["a.txt".toList] = some start := rfl
  obtain ⟨hone, honce, -, -, hgiven, hroot, -, -⟩ :=
    entries_never_collide caronUnicode ["a.txt".toList] hnew hreach
  exact ⟨extraction, hs, congrArg Prod.fst hmade, congrArg (fun made => made.2.1) hmade,
    congrArg (fun made => made.2.2) hmade, hone, honce, hgiven, hroot⟩

end SyncEngine.Archive
