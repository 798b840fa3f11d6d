import SyncEngine.FsTree.Kept

/-! # What a pass assembles

Taking the walk below a directory puts the entries accepted in it on that directory's level,
each with its run already in the array. One tree of the walk is taken after another.
-/

namespace SyncEngine.FsTree.Builder

open Collections Grove List

variable {D F : Type} {key : Name → Name} {hash : HashOrder (Group Name (Entry D F))} {strategy : CompareStrategy D F}
  {prefers : Seen D F → Seen D F → Bool} {b b' : Builder D F}

def levels (b : Builder D F) : List (UnfinalizedDirEntry D × List (Entry D F)) × List (Entry D F) :=
  (b.stack, b.rootChildren)

def extend (children : List (Entry D F)) :
    List (UnfinalizedDirEntry D × List (Entry D F)) × List (Entry D F) →
      List (UnfinalizedDirEntry D × List (Entry D F)) × List (Entry D F)
  | ((dir, held) :: rest, root) => ((dir, held ++ children) :: rest, root)
  | ([], root) => ([], root ++ children)

theorem extend_nil (levels : List (UnfinalizedDirEntry D × List (Entry D F)) × List (Entry D F)) :
    extend [] levels = levels := by
  obtain ⟨stack, root⟩ := levels
  cases stack with
  | nil => exact congrArg (Prod.mk []) (append_nil root)
  | cons level rest =>
    obtain ⟨dir, held⟩ := level
    exact congrArg (fun held => ((dir, held) :: rest, root)) (append_nil held)

theorem extend_append (children more : List (Entry D F))
    (levels : List (UnfinalizedDirEntry D × List (Entry D F)) × List (Entry D F)) :
    extend more (extend children levels) = extend (children ++ more) levels := by
  obtain ⟨stack, root⟩ := levels
  cases stack with
  | nil => exact congrArg (Prod.mk []) (append_assoc root children more)
  | cons level rest =>
    obtain ⟨dir, held⟩ := level
    exact congrArg (fun held => ((dir, held) :: rest, root)) (append_assoc held children more)

theorem length_extend (children : List (Entry D F))
    (levels : List (UnfinalizedDirEntry D × List (Entry D F)) × List (Entry D F)) :
    (extend children levels).1.length = levels.1.length := by
  obtain ⟨stack, root⟩ := levels
  cases stack <;> rfl

theorem levels_appendToTopLevel (entry : Entry D F) (b : Builder D F) :
    (b.appendToTopLevel entry).levels = extend [entry] b.levels := by
  unfold appendToTopLevel levels
  cases hstack : b.stack with
  | nil => rfl
  | cons level rest => rfl

theorem finalEntries_appendToTopLevel (entry : Entry D F) (b : Builder D F) :
    (b.appendToTopLevel entry).finalEntries = b.finalEntries := by
  unfold appendToTopLevel
  cases b.stack <;> rfl

theorem stats_appendToTopLevel (entry : Entry D F) (b : Builder D F) :
    (b.appendToTopLevel entry).stats = b.stats := by
  unfold appendToTopLevel
  cases b.stack <;> rfl

/-! ## What taking a walk comes to -/

def count : Seen D F → FSStats → FSStats
  | .dir _ _, stats => stats.addDir
  | .file _ _ size, stats => stats.addFile size

def tally : Grove (WalkEntry D F) → FSStats → FSStats
  | .nil, stats => stats
  | .node entry below beside, stats =>
    match entry.accepted with
    | some seen => tally beside (tally below (count seen stats))
    | none => tally beside stats

/-- The accepted entries side by side are the rows of the level, and their runs are in the array. -/
structure Grown (key : Name → Name) (prefers : Seen D F → Seen D F → Bool) (b b' : Builder D F)
    (g : Grove (WalkEntry D F)) (rows : List (Row D F)) (more : List (Entry D F)) : Prop where
  levels : b'.levels = extend (rows.map Row.entry) b.levels
  entries : b'.finalEntries = b.finalEntries ++ more
  stats : b'.stats = tally g b.stats
  settled : ∀ rejected, b'.rejectedEntryDepth = some rejected → b.depth ≤ rejected
  trees : rows.map Row.tree = acceptedRoots g
  sound : ∀ row ∈ rows, RowOk key prefers (b.finalEntries ++ more) row
  few : more.length + rows.length ≤ g.size
  many : (rows.map fun row => row.below.size).sum ≤ more.length

/-- A walk is taken whole, unless the array is full. -/
def Grows (key : Name → Name) (prefers : Seen D F → Seen D F → Bool) (b : Builder D F) (g : Grove (WalkEntry D F)) :
    Except Stop (Builder D F) → Prop
  | .error e => e = .tooManyEntries ∧ u32Max < b.finalEntries.length + g.size
  | .ok b' => ∃ rows more, Grown key prefers b b' g rows more

section Grown

variable {g below beside : Grove (WalkEntry D F)} {entry : WalkEntry D F} {rows rows' : List (Row D F)}
  {more more' : List (Entry D F)}

theorem Grown.depth (h : Grown key prefers b b' g rows more) : b'.depth = b.depth := by
  have hlength := congrArg (fun levels => levels.1.length) h.levels
  exact congrArg (· + 1) (hlength.trans (length_extend _ _))

theorem Grown.at (h : Grown key prefers b b' g rows more) (hat : At b.depth b) : At b.depth b' :=
  ⟨hat.pos, le_of_eq h.depth.symm, h.settled⟩

theorem Grown.nil (hat : At b.depth b) : Grown key prefers b b .nil [] [] where
  levels := (extend_nil _).symm
  entries := (append_nil _).symm
  stats := rfl
  settled := hat.settled
  trees := rfl
  sound := fun _ hnone => nomatch hnone
  few := Nat.le_refl 0
  many := Nat.le_refl 0

theorem Grown.append (h : Grown key prefers b b' (.node entry below .nil) rows more) {b'' : Builder D F}
    (h' : Grown key prefers b' b'' beside rows' more') :
    Grown key prefers b b'' (.node entry below beside) (rows ++ rows') (more ++ more') where
  levels := by rw [h'.levels, h.levels, extend_append, map_append]
  entries := by rw [h'.entries, h.entries, append_assoc]
  stats := by
    rw [h'.stats, h.stats]
    cases haccepted : entry.accepted <;> simp only [tally, haccepted]
  settled := fun rejected heq => h.depth ▸ h'.settled rejected heq
  trees := by
    rw [map_append, h.trees, h'.trees]
    cases haccepted : entry.accepted <;>
      simp only [acceptedRoots, haccepted, nil_append, cons_append]
  sound := by
    intro row hrow
    rcases mem_append.mp hrow with hrow | hrow
    · rw [← append_assoc]
      exact (h.sound row hrow).append
    have hsound := h'.sound row hrow
    rwa [h.entries, append_assoc] at hsound
  few := by
    have hfew := h.few
    have hfew' := h'.few
    simp only [size] at hfew ⊢
    rw [length_append, length_append]
    omega
  many := by
    rw [map_append, sum_append, length_append]
    exact Nat.add_le_add h.many h'.many

end Grown

/-- Nothing panics over which entries keep their names: they are told apart, or there is no need to. -/
def Decides (key : Name → Name) (strategy : CompareStrategy D F) (prefers : Seen D F → Seen D F → Bool)
    (g : Grove (WalkEntry D F)) : Prop :=
  (∀ a b, strategy a b = some (prefers a b)) ∨ ((acceptedRoots g).map fun tree => key tree.1.name).Nodup

/-- What is kept of a level: one of each group of colliding entries, their runs where they were. -/
structure Filtered (key : Name → Name) (prefers : Seen D F → Seen D F → Bool) (entries : List (Entry D F))
    (g : Grove (WalkEntry D F)) (rows kept : List (Row D F)) (more : List (Entry D F)) : Prop where
  few : kept.length ≤ rows.length
  many : (kept.map fun row => row.below.size).sum ≤ more.length
  trees : (kept.map Row.tree).Perm (winners key prefers g)
  sound : ∀ row ∈ kept, RowOk key prefers (entries ++ kept.map Row.entry) row

theorem Grown.filtered {g : Grove (WalkEntry D F)} {rows : List (Row D F)} {more : List (Entry D F)}
    (h : Grown key prefers b b' g rows more) (hdecides : Decides key strategy prefers g)
    (hash : HashOrder (Group Name (Entry D F))) (n : Nat) (ancestors : List Name) (parent : Option Name) :
    ∃ kept errors, filterChildren key hash strategy n ancestors parent (rows.map Row.entry) =
        .ok (kept.map Row.entry, errors) ∧ Filtered key prefers b'.finalEntries g rows kept more := by
  have hkeys : (rows.map fun row => key row.entry.name) = (acceptedRoots g).map fun tree => key tree.1.name := by
    rw [← h.trees, map_map]
    rfl
  unfold Decides at hdecides
  rw [← hkeys] at hdecides
  obtain ⟨kept, errors, hfilter, hperm⟩ := filterChildren_rows hash hdecides n ancestors parent
  refine ⟨kept, errors, hfilter, ?_, ?_, ?_, ?_⟩
  · have hle := sum_champions_le (fun row => key row.entry.name) (Row.yields prefers) (fun _ => 1) rows
    rw [← (hperm.map fun _ => 1).sum_eq] at hle
    simpa using hle
  · have hle := sum_champions_le (fun row => key row.entry.name) (Row.yields prefers) (fun row => row.below.size) rows
    rw [← (hperm.map fun row => row.below.size).sum_eq] at hle
    exact le_trans hle h.many
  · unfold winners
    rw [← h.trees, champions_map]
    exact hperm.map Row.tree
  intro row hrow
  obtain ⟨group, hgroup, rfl⟩ := mem_map.mp (hperm.subset hrow)
  have hmember := (members_groups_perm (fun row : Row D F => key row.entry.name) rows).subset
    (mem_flatMap_of_mem hgroup (champion_mem (Row.yields prefers) group))
  rw [h.entries]
  exact (h.sound _ hmember).append

/-! ## One tree -/

section One

variable {below : Grove (WalkEntry D F)} {entry : WalkEntry D F}

def listed (g : Grove (WalkEntry D F)) (depth : Nat) : List (WalkEntry D F) := (g.walk depth).map Prod.fst

/-- The entries of a walk are as deep as they say. -/
def Told (depth : Nat) (g : Grove (WalkEntry D F)) : Prop := ∀ item ∈ g.walk depth, item.1.depth = item.2

theorem Told.le {depth : Nat} {g : Grove (WalkEntry D F)} (h : Told depth g) : ∀ entry ∈ listed g depth, depth ≤ entry.depth := by
  intro entry hentry
  obtain ⟨item, hitem, rfl⟩ := mem_map.mp hentry
  rw [h item hitem]
  exact depth_of_mem_walk hitem

theorem takeEntry_dir {name : Name} {extra : D} (h : entry.accepted = some (.dir name extra)) :
    b.takeEntry entry = { b with
      stats := b.stats.addDir
      stack := (⟨name, extra⟩, []) :: b.stack } := by
  unfold WalkEntry.accepted at h
  unfold takeEntry
  split at h
  · rename_i hname htype
    cases h
    rw [hname, htype]
  · cases h
  · cases h

theorem takeEntry_file {name : Name} {extra : F} {size : Nat} (h : entry.accepted = some (.file name extra size)) :
    entry.opens = false ∧
      b.takeEntry entry = { b with stats := b.stats.addFile size }.appendToTopLevel (.file name extra size) := by
  unfold WalkEntry.accepted at h
  unfold takeEntry WalkEntry.opens
  split at h
  · cases h
  · rename_i hname htype
    cases h
    rw [hname, htype]
    exact ⟨rfl, rfl⟩
  · cases h

/-- An entry that is not accepted leaves an error, and nothing below it is looked at, if there is anything. -/
theorem takeEntry_none (h : entry.accepted = none) (hclear : b.rejectedEntryDepth = none) :
    ∃ errors rejected, b.takeEntry entry = { b with
        errors := errors
        rejectedEntryDepth := rejected } ∧
      (rejected = some entry.depth ∨ rejected = none ∧ entry.opens = false) := by
  unfold WalkEntry.accepted at h
  unfold takeEntry WalkEntry.opens
  cases hname : entry.name with
  | error e => exact ⟨_, _, rfl, Or.inl rfl⟩
  | ok name =>
    rw [hname] at h
    cases htype : entry.entryType with
    | error e => exact ⟨_, _, rfl, Or.inl rfl⟩
    | ok kind =>
      rw [htype] at h
      cases kind with
      | dir extra => cases h
      | file extra size =>
        cases size with
        | ok size => cases h
        | error e => exact ⟨_, _, rfl, Or.inr ⟨hclear, rfl⟩⟩

variable {hash : HashOrder (Group Name (Entry D F))}

theorem Grown.skipped (hnone : entry.accepted = none) {errors : List WalkError} {rejected : Option Nat}
    (hsettled : ∀ depth, rejected = some depth → b.depth ≤ depth) :
    Grown key prefers b { b with
      errors := errors
      rejectedEntryDepth := rejected } (.node entry below .nil) [] [] where
  levels := (extend_nil _).symm
  entries := (append_nil _).symm
  stats := by simp only [tally, hnone]
  settled := hsettled
  trees := by simp only [acceptedRoots, hnone, map_nil]
  sound := fun _ hmem => nomatch hmem
  few := Nat.zero_le _
  many := Nat.le_refl 0

theorem Grown.file {name : Name} {extra : F} {size : Nat} (haccepted : entry.accepted = some (.file name extra size)) :
    Grown key prefers b ({ b.clear with stats := b.stats.addFile size }.appendToTopLevel (.file name extra size))
      (.node entry .nil .nil) [⟨.file name extra size, .nil, .nil⟩] [] where
  levels := levels_appendToTopLevel _ _
  entries := (finalEntries_appendToTopLevel _ _).trans (append_nil _).symm
  stats := by
    rw [stats_appendToTopLevel]
    simp only [tally, haccepted, count]
  settled := by
    intro rejected heq
    rw [appendToTopLevel_rejected] at heq
    cases heq
  trees := by
    simp only [acceptedRoots, haccepted]
    rfl
  sound := by
    intro row hrow
    obtain rfl := mem_singleton.mp hrow
    exact ⟨trivial, rfl, [], List.Perm.refl _, rfl⟩
  few := Nat.le_refl 1
  many := Nat.le_refl 0

/-- A directory's level is closed once what is below it was taken: its row joins the level it is in. -/
theorem closeOne_grows {name : Name} {extra : D} (haccepted : entry.accepted = some (.dir name extra))
    (hdecides : Decides key strategy prefers below)
    {opened : Builder D F} (hstack : opened.stack = (⟨name, extra⟩, []) :: b.stack)
    (hroot : opened.rootChildren = b.rootChildren) (hentries : opened.finalEntries = b.finalEntries)
    (hstats : opened.stats = b.stats.addDir) {rows : List (Row D F)} {more : List (Entry D F)}
    (h : Grown key prefers opened b' below rows more) :
    Grows key prefers b (.node entry below .nil) (closeOne key hash strategy b') := by
  have hlevels := h.levels
  unfold levels at hlevels
  rw [hstack, hroot] at hlevels
  obtain ⟨hstack', hroot'⟩ := Prod.mk.inj hlevels
  have hfinal : b'.finalEntries = b.finalEntries ++ more := hentries ▸ h.entries
  obtain ⟨kept, errors, hfilter, hkept⟩ := h.filtered hdecides hash
    b'.finalEntries.length (b.stack.reverse.map fun level => level.1.name) (some name)
  unfold closeOne closeLevel
  rw [hstack']
  dsimp only
  rw [nil_append, hfilter]
  dsimp only
  by_cases hfull : u32Max < b'.finalEntries.length + (kept.map Row.entry).length
  · rw [if_pos hfull]
    refine ⟨rfl, lt_of_lt_of_le hfull ?_⟩
    have hfew := h.few
    have hfew' := hkept.few
    rw [hfinal, length_append, length_map]
    simp only [size]
    omega
  rw [if_neg hfull]
  refine ⟨[⟨.dir name ⟨b'.finalEntries.length, (kept.map Row.entry).length⟩ extra, below, ofRoots (kept.map Row.kept)⟩],
    more ++ kept.map Row.entry, ?_, ?_, ?_, ?_, ?_, ?_, ?_, ?_⟩
  · refine (levels_appendToTopLevel _ _).trans ?_
    exact congrArg (fun root => extend _ (b.stack, root)) hroot'
  · rw [finalEntries_appendToTopLevel, ← append_assoc, ← hfinal]
  · rw [stats_appendToTopLevel]
    simp only [tally, haccepted, count]
    rw [h.stats, hstats]
  · intro rejected heq
    rw [appendToTopLevel_rejected] at heq
    have hle := h.settled rejected heq
    have hdepth : opened.depth = b.depth + 1 := congrArg (fun stack => stack.length + 1) hstack
    rw [hdepth] at hle
    exact Nat.le_of_succ_le hle
  · simp only [acceptedRoots, haccepted]
    rfl
  · intro row hrow
    obtain rfl := mem_singleton.mp hrow
    rw [← append_assoc, ← hfinal]
    refine ⟨?_, ?_, kept.map Row.tree, hkept.trees, keptBy_rows hkept.sound⟩
    · unfold InRange
      rw [length_append]
    have hrun : childrenOf (b'.finalEntries ++ kept.map Row.entry)
        (.dir name ⟨b'.finalEntries.length, (kept.map Row.entry).length⟩ extra) = kept.map Row.entry := by
      unfold childrenOf
      dsimp only
      rw [drop_left, take_length]
    rw [hrun]
    exact reads_rows hkept.sound
  · have hfew := h.few
    have hfew' := hkept.few
    simp only [size, length_append, length_map, length_singleton]
    omega
  rw [map_singleton, sum_singleton, size_ofRoots, map_map, length_append, length_map]
  have hsum : (kept.map ((fun tree : Seen D F × Grove (Seen D F) => 1 + tree.2.size) ∘ Row.kept)).sum =
      kept.length + (kept.map fun row => row.below.size).sum := by
    simp [Function.comp_def, Row.kept]
  have hmany := hkept.many
  rw [hsum]
  omega

end One

/-! ## The whole walk -/

def Decided (key : Name → Name) (strategy : CompareStrategy D F) (prefers : Seen D F → Seen D F → Bool) :
    Grove (WalkEntry D F) → Prop
  | .nil => True
  | .node _ below beside => Decides key strategy prefers below ∧ Decided key strategy prefers below ∧
      Decided key strategy prefers beside

section Whole

variable {hash : HashOrder (Group Name (Entry D F))} {g below beside : Grove (WalkEntry D F)} {entry : WalkEntry D F}

theorem run_then {target : Nat} {first rest : List (WalkEntry D F)} (hat : At target b)
    (hfirst : ∀ entry ∈ first, target ≤ entry.depth) (hrest : ∀ entry ∈ rest.head?, entry.depth = target) :
    (run key hash strategy (first ++ rest) b >>= settle key hash strategy target) =
      ((run key hash strategy first b >>= settle key hash strategy target) >>= fun b =>
        run key hash strategy rest b >>= settle key hash strategy target) := by
  rw [run_append]
  cases hrun : run key hash strategy first b with
  | error e => rfl
  | ok mid => exact run_settle (run_at hat hfirst hrun) hrest

theorem Grows.bind {result : Except Stop (Builder D F)} {next : Builder D F → Except Stop (Builder D F)}
    (h : Grows key prefers b (.node entry below .nil) result)
    (hnext : ∀ b' rows more, Grown key prefers b b' (.node entry below .nil) rows more → Grows key prefers b' beside (next b')) :
    Grows key prefers b (.node entry below beside) (result >>= next) := by
  have hsize : (node entry below .nil).size ≤ (node entry below beside).size := by
    simp only [size]
    omega
  cases result with
  | error e => exact ⟨h.1, lt_of_lt_of_le h.2 (Nat.add_le_add_left hsize _)⟩
  | ok b' =>
    obtain ⟨rows, more, hgrown⟩ := h
    have hrest := hnext b' rows more hgrown
    have hbind : (Except.ok b' >>= next) = next b' := rfl
    rw [hbind]
    cases hresult : next b' with
    | error e =>
      rw [hresult] at hrest
      refine ⟨hrest.1, lt_of_lt_of_le hrest.2 ?_⟩
      have hfew := hgrown.few
      rw [hgrown.entries, length_append]
      simp only [size] at hfew ⊢
      omega
    | ok b'' =>
      rw [hresult] at hrest
      obtain ⟨rows', more', hgrown'⟩ := hrest
      exact ⟨rows ++ rows', more ++ more', hgrown.append hgrown'⟩

theorem run_tree (hat : At entry.depth b) (hdepth : b.depth = entry.depth) (hclosed : entry.opens = false → below = .nil)
    (htold : Told (entry.depth + 1) below) (hdecides : Decides key strategy prefers below)
    (hbelow : ∀ opened : Builder D F, opened.depth = entry.depth + 1 → At (entry.depth + 1) opened →
      Grows key prefers opened below
        (run key hash strategy (listed below (entry.depth + 1)) opened >>= settle key hash strategy (entry.depth + 1))) :
    Grows key prefers b (.node entry below .nil)
      (run key hash strategy (entry :: listed below (entry.depth + 1)) b >>= settle key hash strategy entry.depth) := by
  rw [run_cons, processEntry_eq hat, settle_self hdepth]
  have htaken : ((Except.ok b : Except Stop (Builder D F)).map fun b => b.clear.takeEntry entry) =
      .ok (b.clear.takeEntry entry) := rfl
  rw [htaken]
  have hat' := takeEntry_at hat hdepth
  have hstep : ((Except.ok (b.clear.takeEntry entry) : Except Stop (Builder D F)) >>=
      run key hash strategy (listed below (entry.depth + 1))) =
        run key hash strategy (listed below (entry.depth + 1)) (b.clear.takeEntry entry) := rfl
  rw [hstep]
  cases haccepted : entry.accepted with
  | none =>
    obtain ⟨errors, rejected, htake, hwhy⟩ := takeEntry_none (b := b.clear) haccepted rfl
    have hsettled : ∀ depth, rejected = some depth → b.depth ≤ depth := by
      intro depth heq
      have hle := hat'.settled depth (by rw [htake]; exact heq)
      exact hdepth ▸ hle
    have hdropped : run key hash strategy (listed below (entry.depth + 1)) (b.clear.takeEntry entry) =
        .ok (b.clear.takeEntry entry) := by
      rcases hwhy with hrejected | ⟨-, hshut⟩
      · have hbelow : (b.clear.takeEntry entry).rejectedEntryDepth = some entry.depth := by
          rw [htake]
          exact hrejected
        exact run_dropped hbelow htold.le
      rw [hclosed hshut]
      rfl
    rw [hdropped]
    have hself : settle key hash strategy entry.depth (b.clear.takeEntry entry) = .ok (b.clear.takeEntry entry) := by
      refine settle_self ?_
      rw [htake]
      exact hdepth
    have hbind : ((Except.ok (b.clear.takeEntry entry) : Except Stop (Builder D F)) >>=
        settle key hash strategy entry.depth) = settle key hash strategy entry.depth (b.clear.takeEntry entry) := rfl
    rw [hbind, hself, htake]
    exact ⟨[], [], Grown.skipped haccepted hsettled⟩
  | some seen =>
    cases seen with
    | file name extra size =>
      obtain ⟨hshut, htake⟩ := takeEntry_file (b := b.clear) haccepted
      rw [htake, hclosed hshut]
      have hself : settle key hash strategy entry.depth
          ({ b.clear with stats := b.clear.stats.addFile size }.appendToTopLevel (.file name extra size)) =
            .ok ({ b.clear with stats := b.clear.stats.addFile size }.appendToTopLevel (.file name extra size)) :=
        settle_self ((congrArg (· + 1) (stack_appendToTopLevel _ _)).trans hdepth)
      have hbind : (run key hash strategy (listed .nil (entry.depth + 1))
          ({ b.clear with stats := b.clear.stats.addFile size }.appendToTopLevel (.file name extra size)) >>=
            settle key hash strategy entry.depth) = settle key hash strategy entry.depth
              ({ b.clear with stats := b.clear.stats.addFile size }.appendToTopLevel (.file name extra size)) := rfl
      rw [hbind, hself]
      exact ⟨_, _, Grown.file haccepted⟩
    | dir name extra =>
      rw [takeEntry_dir haccepted]
      generalize hopened : ({ b.clear with
        stats := b.clear.stats.addDir
        stack := (⟨name, extra⟩, []) :: b.clear.stack } : Builder D F) = opened
      have hdeeper : opened.depth = entry.depth + 1 := by
        rw [← hopened]
        exact congrArg (· + 1) hdepth
      have hat'' : At (entry.depth + 1) opened := by
        refine ⟨Nat.le_add_left 1 _, le_of_eq hdeeper.symm, fun rejected heq => ?_⟩
        rw [← hopened] at heq
        cases heq
      have hgrows := hbelow opened hdeeper hat''
      -- the levels of what is below are closed first, and then its own
      have hclose : (run key hash strategy (listed below (entry.depth + 1)) opened >>= settle key hash strategy entry.depth) =
          (run key hash strategy (listed below (entry.depth + 1)) opened >>= settle key hash strategy (entry.depth + 1)) >>=
            closeOne key hash strategy := by
        cases hrun : run key hash strategy (listed below (entry.depth + 1)) opened with
        | error e => rfl
        | ok mid => exact settle_succ (run_at hat'' htold.le hrun).deep
      rw [hclose]
      generalize hresult : (run key hash strategy (listed below (entry.depth + 1)) opened >>=
        settle key hash strategy (entry.depth + 1)) = result at hgrows
      have hentries : opened.finalEntries = b.finalEntries := by rw [← hopened]; rfl
      cases result with
      | error e =>
        refine ⟨hgrows.1, lt_of_lt_of_le hgrows.2 ?_⟩
        rw [hentries]
        simp only [size]
        omega
      | ok b' =>
        obtain ⟨rows, more, hgrown⟩ := hgrows
        refine closeOne_grows haccepted hdecides ?_ ?_ hentries ?_ hgrown
        all_goals
          rw [← hopened]
          rfl

theorem run_grows {depth : Nat} (hat : At depth b) (hdepth : b.depth = depth) (hclosed : g.Closed WalkEntry.opens)
    (htold : Told depth g) (hdecided : Decided key strategy prefers g) :
    Grows key prefers b g (run key hash strategy (listed g depth) b >>= settle key hash strategy depth) := by
  induction g generalizing depth b with
  | nil =>
    have hself : settle key hash strategy depth b = .ok b := settle_self hdepth
    have hbind : (run key hash strategy (listed .nil depth) b >>= settle key hash strategy depth) =
        settle key hash strategy depth b := rfl
    rw [hbind, hself]
    exact ⟨[], [], Grown.nil (hdepth.symm ▸ hat)⟩
  | node entry below beside hbelow hbeside =>
    obtain ⟨hshut, hclosed, hclosed'⟩ := hclosed
    obtain ⟨hdecides, hdecided, hdecided'⟩ := hdecided
    obtain ⟨hentry, hrest⟩ := forall_mem_cons.mp htold
    obtain ⟨htold, htold'⟩ := forall_mem_append.mp hrest
    obtain rfl : entry.depth = depth := hentry
    have hlisted : listed (.node entry below beside) entry.depth =
        (entry :: listed below (entry.depth + 1)) ++ listed beside entry.depth := by
      unfold listed
      rw [walk, map_cons, map_append]
      rfl
    have hfirst : ∀ other ∈ entry :: listed below (entry.depth + 1), entry.depth ≤ other.depth :=
      forall_mem_cons.mpr ⟨le_rfl, fun other hother => Nat.le_of_succ_le (Told.le htold other hother)⟩
    have hhead : ∀ other ∈ (listed beside entry.depth).head?, other.depth = entry.depth := by
      cases beside with
      | nil => rintro _ ⟨⟩
      | node other below beside =>
        intro found hfound
        cases hfound
        exact htold' _ mem_cons_self
    rw [hlisted, run_then hat hfirst hhead]
    refine Grows.bind (run_tree hat hdepth hshut htold hdecides fun opened hopened hat' =>
      hbelow hat' hopened hclosed htold hdecided) fun b' rows more hgrown => ?_
    have hdepth' : b'.depth = entry.depth := hgrown.depth.trans hdepth
    have hat' : At entry.depth b' := hdepth ▸ hgrown.at (hdepth.symm ▸ hat)
    exact hbeside hat' hdepth' hclosed' htold' hdecided'

end Whole

end SyncEngine.FsTree.Builder
