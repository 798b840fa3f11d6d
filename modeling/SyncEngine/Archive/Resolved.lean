import SyncEngine.Archive.Resolver

/-! # Extracted entries do not collide

The directories planned are a tree by the names the archive gave them, and what is taken in
one are the names given out in it and the names the root held before.
-/

namespace SyncEngine.Archive

open Collections PathResolver List

def collisionKey (u : Unicode) (name : ValidatedName) : Name := u.lower name.text

/-! ## The resolver's tree -/

section Child

variable {resolver : PathResolver} {dir : DirId} {node : DirNode} {key : Name} {taken : TakenNames}

theorem PathResolver.child_of_some (h : resolver.dirs[dir]? = some node) (key : Name) :
    resolver.child dir key = node.children key := by
  unfold PathResolver.child
  rw [h]
  rfl

theorem PathResolver.length_withTaken (resolver : PathResolver) (dir : DirId) (node : DirNode)
    (taken : TakenNames) : (resolver.withTaken dir node taken).dirs.length = resolver.dirs.length :=
  length_set

theorem PathResolver.length_withDir (resolver : PathResolver) (dir : DirId) (node : DirNode) (key : Name)
    (taken : TakenNames) :
    (resolver.withDir dir node key taken).dirs.length = resolver.dirs.length + 1 := by
  unfold PathResolver.withDir
  rw [length_append, length_set]
  rfl

section

variable (h : resolver.dirs[dir]? = some node)
include h

theorem PathResolver.child_withTaken (taken : TakenNames) :
    (resolver.withTaken dir node taken).child = resolver.child := by
  funext other key
  unfold PathResolver.child PathResolver.withTaken
  rw [getElem?_set]
  obtain ⟨hlt, -⟩ := List.getElem?_eq_some_iff.mp h
  by_cases hsame : dir = other
  · subst hsame
    rw [if_pos rfl, if_pos hlt, h]
    rfl
  · rw [if_neg hsame]

theorem PathResolver.getElem?_withDir (key : Name)
    (taken : TakenNames) (other : DirId) :
    (resolver.withDir dir node key taken).dirs[other]? =
      if other = dir then
        some ⟨taken, Function.update node.children key (some resolver.dirs.length)⟩
      else if other = resolver.dirs.length then some ⟨TakenNames.empty, fun _ => none⟩
      else resolver.dirs[other]? := by
  obtain ⟨hlt, -⟩ := List.getElem?_eq_some_iff.mp h
  unfold PathResolver.withDir
  rw [getElem?_append, length_set]
  by_cases hsame : other = dir
  · subst hsame
    rw [if_pos hlt, if_pos rfl, getElem?_set_self hlt]
  rw [if_neg hsame]
  by_cases hbefore : other < resolver.dirs.length
  · rw [if_pos hbefore, if_neg (ne_of_lt hbefore), getElem?_set_ne (Ne.symm hsame)]
  rw [if_neg hbefore]
  by_cases hat : other = resolver.dirs.length
  · rw [if_pos hat, hat, Nat.sub_self]
    rfl
  have hpast : resolver.dirs.length ≤ other := not_lt.mp hbefore
  have hout : 1 ≤ other - resolver.dirs.length :=
    Nat.sub_pos_of_lt (lt_of_le_of_ne hpast (Ne.symm hat))
  rw [if_neg hat, getElem?_eq_none hpast]
  exact getElem?_eq_none hout

theorem PathResolver.child_withDir (key : Name) (taken : TakenNames) :
    (resolver.withDir dir node key taken).child =
      extend resolver.child dir key resolver.dirs.length := by
  funext other name
  obtain ⟨hlt, -⟩ := List.getElem?_eq_some_iff.mp h
  have hnode := getElem?_withDir h key taken other
  unfold extend
  unfold PathResolver.child
  rw [hnode]
  by_cases hsame : other = dir
  · subst hsame
    rw [if_pos rfl, h]
    show Function.update node.children key _ name = if other = other ∧ name = key then _ else node.children name
    by_cases hname : name = key
    · rw [if_pos ⟨rfl, hname⟩, hname, Function.update_self]
    · rw [if_neg fun hboth => hname hboth.2, Function.update_of_ne hname]
  have hnot : ¬(other = dir ∧ name = key) := fun hboth => hsame hboth.1
  rw [if_neg hsame, if_neg hnot]
  by_cases hat : other = resolver.dirs.length
  · rw [if_pos hat, hat, getElem?_eq_none le_rfl]
    rfl
  · rw [if_neg hat]

end

end Child

/-! ## What is planned and taken -/

/-- A resolver whose root held some keys before, with what it planned and named. -/
structure Settled (u : Unicode) (held : List Name) (planned : List PlannedDir)
    (files : List (DirId × ValidatedName)) (resolver : PathResolver) : Prop where
  rooted : 0 < resolver.dirs.length
  runs : ∀ (dir : DirId) (node : DirNode), resolver.dirs[dir]? = some node → RunsOk node.taken
  /-- What is taken in a directory is what was given out in it, and what the root held. -/
  taken : ∀ (dir : DirId) (node : DirNode), resolver.dirs[dir]? = some node →
    node.taken.keys.Perm
      ((givenIn planned files dir).map (collisionKey u) ++ if dir = rootDir then held else [])
  tree : Treelike resolver.child rootDir
  below : ∀ dir key next, resolver.child dir key = some next → next < resolver.dirs.length
  ids : planned.map PlannedDir.id = List.range' 1 (resolver.dirs.length - 1)
  parents : ∀ plan ∈ planned, plan.parent < plan.id
  filed : ∀ file ∈ files, file.1 < resolver.dirs.length

section Settled

variable {u : Unicode} {held : List Name} {planned : List PlannedDir}
  {files : List (DirId × ValidatedName)} {resolver : PathResolver} {dir : DirId} {node : DirNode}
  {taken : TakenNames} {segment given : ValidatedName}

theorem givenIn_plan (plan : PlannedDir) (dir : DirId) :
    (givenIn (planned ++ [plan]) files dir).Perm
      (if plan.parent = dir then plan.name :: givenIn planned files dir
      else givenIn planned files dir) := by
  unfold givenIn
  rw [filter_append, map_append]
  by_cases hparent : plan.parent = dir
  · rw [if_pos hparent, filter_cons, if_pos (decide_eq_true hparent), append_assoc]
    exact perm_middle
  rw [if_neg hparent, filter_cons, if_neg fun heq => hparent (of_decide_eq_true heq), filter_nil,
    map_nil, append_nil]

theorem givenIn_file (file : DirId × ValidatedName) (dir : DirId) :
    (givenIn planned (files ++ [file]) dir).Perm
      (if file.1 = dir then file.2 :: givenIn planned files dir else givenIn planned files dir) := by
  unfold givenIn
  rw [filter_append, map_append, ← append_assoc]
  by_cases hparent : file.1 = dir
  · rw [if_pos hparent, filter_cons, if_pos (decide_eq_true hparent)]
    exact perm_append_singleton _ _
  rw [if_neg hparent, filter_cons, if_neg fun heq => hparent (of_decide_eq_true heq), filter_nil,
    map_nil, append_nil]

section

variable (h : Settled u held planned files resolver)
include h

theorem Settled.id_lt {plan : PlannedDir}
    (hmem : plan ∈ planned) : plan.id < resolver.dirs.length := by
  have hid : plan.id ∈ planned.map PlannedDir.id := mem_map_of_mem hmem
  rw [h.ids] at hid
  have hlt := (mem_range'_1.mp hid).2
  rw [Nat.add_sub_cancel' h.rooted] at hlt
  exact hlt

theorem Settled.givenIn_next :
    givenIn planned files resolver.dirs.length = [] := by
  unfold givenIn
  have hplanned : planned.filter (fun plan => plan.parent = resolver.dirs.length) = [] := by
    refine filter_eq_nil_iff.mpr fun plan hmem heq => ?_
    have hparent := h.parents plan hmem
    rw [of_decide_eq_true heq] at hparent
    exact absurd (h.id_lt hmem) (not_lt.mpr (le_of_lt hparent))
  have hfiles : files.filter (fun file => file.1 = resolver.dirs.length) = [] := by
    refine filter_eq_nil_iff.mpr fun file hmem heq => ?_
    exact absurd (of_decide_eq_true heq) (ne_of_lt (h.filed file hmem))
  rw [hplanned, hfiles]
  rfl

theorem Settled.plan (hnode : resolver.dirs[dir]? = some node)
    {key : Name} (hkeys : taken.keys = collisionKey u given :: node.taken.keys) (hruns : RunsOk taken)
    (archiveName : Option ValidatedName) :
    Settled u held
      (planned ++ [{ id := resolver.dirs.length, parent := dir, name := given, archiveName }]) files
      (resolver.withDir dir node key taken) := by
  have hlt := (List.getElem?_eq_some_iff.mp hnode).1
  have hlength := resolver.length_withDir dir node key taken
  have hchild := child_withDir hnode key taken
  have hnodes := getElem?_withDir hnode key taken
  have hrooted := h.rooted
  refine ⟨?_, ?_, ?_, ?_, ?_, ?_, ?_, ?_⟩
  · rw [hlength]
    exact Nat.succ_pos _
  · intro other found hfound
    rw [hnodes] at hfound
    split at hfound
    · cases hfound
      exact hruns
    split at hfound
    · cases hfound
      exact runsOk_empty
    · exact h.runs other found hfound
  · intro other found hfound
    have hperm := (@givenIn_plan planned files
      { id := resolver.dirs.length, parent := dir, name := given, archiveName } other).map (collisionKey u)
    refine List.Perm.trans ?_ (hperm.symm.append_right _)
    rw [hnodes] at hfound
    split at hfound
    · rename_i hsame
      cases hfound
      subst hsame
      rw [if_pos rfl]
      show taken.keys.Perm _
      rw [hkeys]
      exact (h.taken other node hnode).cons _
    rename_i hother
    rw [if_neg (Ne.symm hother)]
    split at hfound
    · rename_i hnew
      cases hfound
      subst hnew
      have hnotroot : resolver.dirs.length ≠ rootDir := ne_of_gt hrooted
      rw [h.givenIn_next, if_neg hnotroot]
      exact List.Perm.refl _
    · exact h.taken other found hfound
  · rw [hchild]
    refine h.tree.extend (ne_of_gt hrooted) fun other name heq => ?_
    exact absurd (h.below other name _ heq) (lt_irrefl _)
  · intro other name next hnext
    rw [hchild] at hnext
    rw [hlength]
    unfold extend at hnext
    split at hnext
    · cases hnext
      exact Nat.lt_succ_self _
    · exact Nat.lt_succ_of_lt (h.below other name next hnext)
  · have hsucc : resolver.dirs.length + 1 - 1 = resolver.dirs.length - 1 + 1 := by omega
    have hlast : 1 + 1 * (resolver.dirs.length - 1) = resolver.dirs.length := by omega
    rw [map_append, h.ids, hlength, hsucc, range'_concat, hlast]
    rfl
  · intro plan hmem
    rcases mem_append.mp hmem with hold | hnew
    · exact h.parents plan hold
    rw [mem_singleton.mp hnew]
    exact hlt
  intro file hmem
  rw [hlength]
  exact Nat.lt_succ_of_lt (h.filed file hmem)

theorem Settled.file (hnode : resolver.dirs[dir]? = some node)
    (hkeys : taken.keys = collisionKey u given :: node.taken.keys) (hruns : RunsOk taken) :
    Settled u held planned (files ++ [(dir, given)]) (resolver.withTaken dir node taken) := by
  have hlt := (List.getElem?_eq_some_iff.mp hnode).1
  have hlength := resolver.length_withTaken dir node taken
  have hchild := child_withTaken hnode taken
  have hnodes : ∀ other : DirId, (resolver.withTaken dir node taken).dirs[other]? =
      if dir = other then some { node with taken } else resolver.dirs[other]? := by
    intro other
    unfold PathResolver.withTaken
    rw [getElem?_set, if_pos hlt]
  refine ⟨?_, ?_, ?_, ?_, ?_, ?_, h.parents, ?_⟩
  · rw [hlength]
    exact h.rooted
  · intro other found hfound
    rw [hnodes] at hfound
    split at hfound
    · cases hfound
      exact hruns
    · exact h.runs other found hfound
  · intro other found hfound
    have hperm := (@givenIn_file planned files (dir, given) other).map (collisionKey u)
    refine List.Perm.trans ?_ (hperm.symm.append_right _)
    rw [hnodes] at hfound
    split at hfound
    · rename_i hsame
      cases hfound
      subst hsame
      rw [if_pos rfl]
      show taken.keys.Perm _
      rw [hkeys]
      exact (h.taken dir node hnode).cons _
    rename_i hother
    rw [if_neg hother]
    exact h.taken other found hfound
  · rw [hchild]
    exact h.tree
  · intro other name next hnext
    rw [hchild] at hnext
    rw [hlength]
    exact h.below other name next hnext
  · rw [hlength]
    exact h.ids
  intro file hmem
  rw [hlength]
  rcases mem_append.mp hmem with hold | hnew
  · exact h.filed file hold
  rw [mem_singleton.mp hnew]
  exact hlt

end

/-! ## Calls -/

/-- What a call to resolve a path leaves, from the directory it started below. -/
def Resolves (u : Unicode) (held : List Name) (files : List (DirId × ValidatedName))
    (before : PathResolver) (current : DirId) (segments : List ValidatedName) : Resolution DirId → Prop
  | .ok id planned resolver =>
    Settled u held planned files resolver ∧ Grows before.child resolver.child ∧
      follow resolver.child current (segments.map (collisionKey u)) = some id ∧
        id < resolver.dirs.length
  | .refused _ _ _ => False
  | .aborted => True
  | .panicked => False

theorem Settled.resolveFrom {segments : List ValidatedName} {current : DirId} {fuel : Nat}
    {out : Resolution DirId} (h : Settled u held planned files resolver)
    (hvalid : ∀ segment ∈ segments, Validated u segment) (hcurrent : current < resolver.dirs.length)
    (hrun : PathResolver.resolveFrom u fuel segments current planned resolver = some out) :
    Resolves u held files resolver current segments out := by
  induction segments generalizing current planned resolver with
  | nil =>
    cases hrun
    exact ⟨h, .refl _, rfl, hcurrent⟩
  | cons segment segments ih =>
    obtain ⟨hsegment, hrest⟩ := forall_mem_cons.mp hvalid
    have hnode := getElem?_eq_getElem hcurrent
    generalize resolver.dirs[current] = node at hnode
    have hchild := child_of_some hnode (collisionKey u segment)
    unfold PathResolver.resolveFrom at hrun
    rw [hnode] at hrun
    dsimp only at hrun
    cases hfound : node.children (u.lower segment.text) with
    | some child =>
      rw [hfound] at hrun
      have hbefore : resolver.child current (collisionKey u segment) = some child := hchild.trans hfound
      have hresolves := ih h hrest (h.below _ _ _ hbefore) hrun
      cases out with
      | ok id planned' resolver' =>
        obtain ⟨hsettled, hgrows, hfollow, hlt⟩ := hresolves
        refine ⟨hsettled, hgrows, ?_, hlt⟩
        rw [map_cons, follow, hgrows _ _ _ hbefore]
        exact hfollow
      | refused error planned' resolver' => exact hresolves
      | aborted => trivial
      | panicked => exact hresolves
    | none =>
      rw [hfound] at hrun
      cases hallocate : node.taken.allocate u fuel segment .dir with
      | none =>
        rw [hallocate] at hrun
        cases hrun
      | some allocation =>
        rw [hallocate] at hrun
        obtain ⟨given, htakes⟩ := (h.runs current node hnode).takes hsegment (fits_dir _) hallocate
        cases allocation with
        | aborted =>
          cases hrun
          trivial
        | refused error taken => exact htakes.elim
        | named name taken =>
          obtain ⟨rfl, hkeys, hruns⟩ := htakes
          have hplan := @Settled.plan u held planned files resolver current node taken name h hnode
            (u.lower segment.text) hkeys hruns (if name = segment then none else some segment)
          have hwith := child_withDir hnode (u.lower segment.text) taken
          have hlength := resolver.length_withDir current node (u.lower segment.text) taken
          have hgrown : Grows resolver.child
              (resolver.withDir current node (u.lower segment.text) taken).child := by
            rw [hwith]
            exact grows_extend (hchild.trans hfound)
          have hnext : resolver.dirs.length <
              (resolver.withDir current node (u.lower segment.text) taken).dirs.length := by
            rw [hlength]
            exact Nat.lt_succ_self _
          have hresolves := ih hplan hrest hnext hrun
          cases out with
          | ok id planned' resolver' =>
            obtain ⟨hsettled, hgrows, hfollow, hlt⟩ := hresolves
            refine ⟨hsettled, hgrown.trans hgrows, ?_, hlt⟩
            have hself : resolver'.child current (collisionKey u segment) =
                some resolver.dirs.length := by
              refine hgrows _ _ _ ?_
              rw [hwith]
              exact extend_self
            rw [map_cons, follow, hself]
            exact hfollow
          | refused error planned' resolver' => exact hresolves
          | aborted => trivial
          | panicked => exact hresolves

theorem Settled.resolveFrom_ends {segments : List ValidatedName} {current : DirId}
    (h : Settled u held planned files resolver) (hvalid : ∀ segment ∈ segments, Validated u segment)
    (hcurrent : current < resolver.dirs.length) :
    ∃ out, ∃ fuel₀, ∀ fuel ≥ fuel₀,
      PathResolver.resolveFrom u fuel segments current planned resolver = some out := by
  induction segments generalizing current planned resolver with
  | nil => exact ⟨_, 0, fun _ _ => rfl⟩
  | cons segment segments ih =>
    obtain ⟨hsegment, hrest⟩ := forall_mem_cons.mp hvalid
    have hnode := getElem?_eq_getElem hcurrent
    generalize resolver.dirs[current] = node at hnode
    have hchild := child_of_some hnode (collisionKey u segment)
    cases hfound : node.children (u.lower segment.text) with
    | some child =>
      obtain ⟨out, fuel₀, hruns⟩ := ih h hrest (h.below _ _ _ (hchild.trans hfound))
      refine ⟨out, fuel₀, fun fuel hfuel => ?_⟩
      unfold PathResolver.resolveFrom
      rw [hnode]
      dsimp only
      rw [hfound]
      exact hruns fuel hfuel
    | none =>
      obtain ⟨given, -, -, -, allocation, htakes, fuel₁, hallocates⟩ :=
        (h.runs current node hnode).allocate hsegment (fits_dir _)
      cases allocation with
      | refused error taken => exact htakes.elim
      | aborted =>
        refine ⟨.aborted, fuel₁, fun fuel hfuel => ?_⟩
        unfold PathResolver.resolveFrom
        rw [hnode]
        dsimp only
        rw [hfound]
        rw [hallocates fuel hfuel]
      | named name taken =>
        obtain ⟨rfl, hkeys, hruns⟩ := htakes
        have hplan := @Settled.plan u held planned files resolver current node taken name h hnode
          (u.lower segment.text) hkeys hruns (if name = segment then none else some segment)
        have hnext : resolver.dirs.length <
            (resolver.withDir current node (u.lower segment.text) taken).dirs.length := by
          rw [length_withDir]
          exact Nat.lt_succ_self _
        obtain ⟨out, fuel₂, hends⟩ := ih hplan hrest hnext
        refine ⟨out, max fuel₁ fuel₂, fun fuel hfuel => ?_⟩
        unfold PathResolver.resolveFrom
        rw [hnode]
        dsimp only
        rw [hfound]
        rw [hallocates fuel (le_trans (le_max_left _ _) hfuel)]
        exact hends fuel (le_trans (le_max_right _ _) hfuel)

end Settled

end SyncEngine.Archive
