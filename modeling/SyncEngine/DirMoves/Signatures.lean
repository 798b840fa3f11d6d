import SyncEngine.Folding
import SyncEngine.Rows

/-! # What a directory holds, as a digest

A directory gone locally is recognised by its subtree: the same relative paths
and kinds, every file with the same hash and size. The digest only nominates a
pair of directories; a comparison path for path decides. A new directory may
hold nested directories that are moves of their own, and is then matched by what
it holds without them.
-/

namespace SyncEngine

open Collections List

/-! ## Walks in path order -/

/-- A node that says what kind of item it is. -/
class Kinded (ν : Type) where
  kind : ν → NodeKind

instance : Kinded LocalNode := ⟨LocalNode.kind⟩

instance : Kinded RemoteNode := ⟨RemoteNode.kind⟩

def inPathOrder {ν : Type} (nodes : List (Path × ν)) : List (Path × ν) :=
  nodes.insertionSort fun a b => a.1 ≤ b.1

namespace Nodes

variable {ν : Type}

/-- Everything strictly under `dir`, in path order. -/
def under (side : Nodes ν) (dir : Path) : List (Path × ν) :=
  inPathOrder (side.iter.filter fun e => isUnder e.1 dir)

/-- Every directory, in path order. -/
def dirs [Kinded ν] (side : Nodes ν) : List (Path × ν) :=
  inPathOrder (side.iter.filter fun e => Kinded.kind e.2 = .dir)

/-- Whether a directory stands at `path`. -/
def dirAt [Kinded ν] (side : Nodes ν) (path : Path) : Bool :=
  (side.nodeAt path).any fun node => Kinded.kind node = .dir

/-- Whether something stands at `path` or under it, under any spelling. -/
def occupied (side : Nodes ν) (fold : CaseFold) (path : Path) : Bool :=
  side.paths.any fun key => fold.atOrUnderFolded key path

variable {side : Nodes ν} {path : Path}

theorem mem_dirs [Kinded ν] {node : ν} :
    (path, node) ∈ side.dirs ↔ side.nodeAt path = some node ∧ Kinded.kind node = .dir := by
  unfold dirs inPathOrder
  rw [mem_insertionSort, mem_filter, mem_iter]
  simp

theorem dirAt_iff [Kinded ν] :
    side.dirAt path ↔ ∃ node, side.nodeAt path = some node ∧ Kinded.kind node = .dir := by
  unfold dirAt
  rw [Option.any_eq_true]
  simp

theorem holds_of_dirAt [Kinded ν] (h : side.dirAt path) :
    side.holds path := by
  obtain ⟨node, hnode, -⟩ := dirAt_iff.mp h
  exact holds_iff.mpr ⟨node, hnode⟩

theorem occupied_eq_false {fold : CaseFold} :
    side.occupied fold path = false ↔ ∀ p, side.holds p →
      ¬ AtOrUnder (fold.collisionKey p) (fold.collisionKey path) := by
  unfold occupied
  rw [any_eq_false]
  simp only [mem_paths, CaseFold.atOrUnderFolded_iff]

end Nodes

namespace Baseline

/-- Whether a row sits at `relPath` or under it, under any spelling. The pair
root holds none. -/
def occupied (b : Baseline) (fold : CaseFold) (relPath : Path) : Bool :=
  if relPath = [] then false else b.rowPaths.any fun key => fold.atOrUnderFolded key relPath

/-- Whether every row strictly under `relPath` is synced. -/
def subtreeAllSynced (b : Baseline) (relPath : Path) : Bool :=
  (b.subtree relPath).all fun row => row.state = .synced

theorem occupied_eq_false {b : Baseline} {fold : CaseFold} {path : Path} (hne : path ≠ []) :
    b.occupied fold path = false ↔ ∀ p, b.containsKey p →
      ¬ AtOrUnder (fold.collisionKey p) (fold.collisionKey path) := by
  unfold occupied
  rw [if_neg hne, any_eq_false]
  simp only [mem_rowPaths, CaseFold.atOrUnderFolded_iff]

end Baseline

/-! ## Reading signatures -/

abbrev Signature := BitVec 256

/-- What one path adds to the signature of a directory above it, `none` where no
signature can be read over it. -/
abbrev SignatureEntry := Option (NodeKind × Option Blake3Hash × Nat)

/-- The digest of a directory's paths, each below the directory and with what it adds. -/
abbrev Digest := List (Path × NodeKind × Option Blake3Hash × Nat) → Signature

def rowSignatureEntry (row : BaselineEntry) : SignatureEntry :=
  if row.state ≠ .synced then none
  else
    match row.kind with
    | .file =>
      row.contentHash.bind fun hash => row.size.map fun size => (.file, some hash, size)
    | .dir => some (.dir, none, 0)

def localSignatureEntry (node : LocalNode) : SignatureEntry :=
  match node.kind with
  | .file => node.contentHash.map fun hash => (.file, some hash, node.size)
  | .dir => some (.dir, none, 0)

/-- A signature being read: what was added, `none` once spoilt, and whether a
file was among it. -/
structure SignatureReader where
  hasher : Option (List (Path × NodeKind × Option Blake3Hash × Nat))
  files : Bool

namespace SignatureReader

def new : SignatureReader := ⟨some [], false⟩

def add (reader : SignatureReader) (rel : Path) (entry : SignatureEntry) : SignatureReader :=
  match reader.hasher with
  | none => reader
  | some read =>
    match entry with
    | none => { reader with hasher := none }
    | some (kind, hash, size) =>
      ⟨some (read ++ [(rel, kind, hash, size)]), reader.files || kind = .file⟩

def finish (reader : SignatureReader) (digest : Digest) : Option (Signature × Bool) :=
  reader.hasher.map fun read => (digest read, reader.files)

end SignatureReader

def stripPrefix (path pre : Path) : Option Path :=
  if pre.isPrefixOf path then some (path.drop pre.length) else none

def runStart (root : Path) : Path := root ++ ['/']

/-- The signatures read so far, the roots being read, innermost first, and the
nested roots not reached yet. -/
structure ReadState where
  read : List (Path × Option (Signature × Bool))
  «open» : List (Path × SignatureReader)
  nested : List Path

namespace ReadState

variable (digest : Digest)

/-- Close the roots `path` lies past, but never the outermost. -/
def close (path : Path) : List (Path × SignatureReader) →
    List (Path × Option (Signature × Bool)) →
    List (Path × SignatureReader) × List (Path × Option (Signature × Bool))
  | top :: below :: rest, read =>
    if isUnder path top.1 then (top :: below :: rest, read)
    else close path (below :: rest) (read ++ [(top.1, top.2.finish digest)])
  | stack, read => (stack, read)

/-- Take up the nested roots whose run starts at or before `path`. -/
def openRoots (path : Path) : List Path → ReadState → ReadState
  | [], s => { s with nested := [] }
  | root :: rest, s =>
    if runStart root ≤ path then
      if isUnder path root then
        openRoots path rest { s with «open» := (root, SignatureReader.new) :: s.open }
      else
        -- Its run lies before this path, with nothing in it.
        openRoots path rest
          { s with read := s.read ++ [(root, SignatureReader.new.finish digest)] }
    else { s with nested := root :: rest }

def visit (s : ReadState) (e : Path × SignatureEntry) : ReadState :=
  let closed := close digest e.1 s.open s.read
  let opened := openRoots digest e.1 s.nested { s with «open» := closed.1, read := closed.2 }
  { opened with
    «open» := opened.open.map fun top =>
      match stripPrefix e.1 top.1 with
      | some rel => (top.1, top.2.add rel e.2)
      | none => top }

def finish (s : ReadState) : List (Path × Option (Signature × Bool)) :=
  s.read ++ (s.open.reverse.map fun top => (top.1, top.2.finish digest)) ++
    s.nested.map fun root => (root, SignatureReader.new.finish digest)

end ReadState

/-- Walk the outermost roots one after another, each with the roots nested in it. -/
def readOuter (digest : Digest) (walk : Path → List (Path × SignatureEntry)) :
    Nat → List Path → List (Path × Option (Signature × Bool))
  | _, [] => []
  | 0, _ => []
  | fuel + 1, outer :: after =>
    let nested := after.takeWhile fun root => isUnder root outer
    let next := after.dropWhile fun root => isUnder root outer
    let walked := (walk outer).foldl (ReadState.visit digest)
      ⟨[], [(outer, SignatureReader.new)], nested⟩
    walked.finish digest ++ readOuter digest walk fuel next

/-- The signature of every directory in `roots` and whether it holds a file, in
one walk of each outermost root. -/
def readSignatures (digest : Digest) (roots : List Path)
    (walk : Path → List (Path × SignatureEntry)) : List (Path × Option (Signature × Bool)) :=
  let sorted := (roots.dedup).insertionSort fun a b => runStart a ≤ runStart b
  readOuter digest walk sorted.length sorted

/-- The signature of the local directory at `root` less what is at or under `excluded`. -/
def localSignature (digest : Digest) (l : Nodes LocalNode) (root : Path) (excluded : PathSet) :
    Option Signature :=
  let kept := (l.under root).filter fun e => !atOrUnderRoot excluded e.1
  let reader := kept.foldl
    (fun reader e => reader.add (e.1.drop root.length) (localSignatureEntry e.2))
    SignatureReader.new
  (reader.finish digest).map Prod.fst

/-- Whether two runs are the same paths below their roots, each adding the same. -/
def sameEntries (leftRoot rightRoot : Path) :
    List (SignatureEntry × Path) → List (SignatureEntry × Path) → Bool
  | [], [] => true
  | left :: ls, right :: rs =>
    left.1 = right.1 &&
      stripPrefix left.2 leftRoot = stripPrefix right.2 rightRoot &&
      sameEntries leftRoot rightRoot ls rs
  | _, _ => false

def rowEntries (b : Baseline) (root : Path) : List (SignatureEntry × Path) :=
  (b.subtree root).map fun row => (rowSignatureEntry row, row.relPath)

/-- Whether the rows under `src` and the local nodes under `dst`, less what is
at or under `excluded`, are the same tree. -/
def sameTree (b : Baseline) (src : Path) (l : Nodes LocalNode) (dst : Path)
    (excluded : PathSet) : Bool :=
  sameEntries src dst (rowEntries b src)
    (((l.under dst).filter fun e => !atOrUnderRoot excluded e.1).map fun e =>
      (localSignatureEntry e.2, e.1))

def sameRows (b : Baseline) (x y : Path) : Bool :=
  sameEntries x y (rowEntries b x) (rowEntries b y)

/-! ## Directories gone and new -/

structure MoveSource where
  path : Path
  uuid : Uuid
  /-- Whether the local side holds a directory at its path. -/
  localDir : Bool
deriving DecidableEq

/-- The sources gone locally whose subtree the rows vouch for, each with its
signature. Which of several with one signature is asked first decides nothing: a
match is settled path for path. -/
abbrev Gone := List (Path × Signature)

namespace Gone

def signatureOf (gone : Gone) (path : Path) : Option Signature :=
  (gone.find? fun e => e.1 = path).map Prod.snd

def bySignature (gone : Gone) (signature : Signature) : List Path :=
  (gone.filter fun e => e.2 = signature).map Prod.fst

/-- The source that holds what the local directory `dst` holds less `excluded`. -/
def explaining (gone : Gone) (b : Baseline) (signature : Signature) (l : Nodes LocalNode)
    (dst : Path) (excluded : PathSet) : Option Path :=
  (gone.bySignature signature).find? fun src => sameTree b src l dst excluded

end Gone

def goneSignatures (digest : Digest) (b : Baseline) (l : Nodes LocalNode)
    (sources : List MoveSource) : Gone :=
  let roots := (sources.filter fun source => !source.localDir && !l.holds source.path).map
    MoveSource.path
  let read := readSignatures digest roots fun root =>
    (b.subtree root).map fun row => (row.relPath, rowSignatureEntry row)
  read.filterMap fun e =>
    match e.2 with
    | some (signature, true) => some (e.1, signature)
    -- A subtree without a file says nothing about identity.
    | _ => none

/-- A new local directory and the signatures a pushed move into it is matched by. -/
structure NewLocalDir where
  path : Path
  full : Signature
  /-- What it holds less the nested directories that are moves, and those directories. -/
  withoutNestedMoves : Option (Signature × PathSet)
  explainedBy : Option Path
  moved : Bool

namespace NewLocalDir

/-- Whether the source `src` moved here, and then whether the full signature matched. -/
def matched (dir : NewLocalDir) (b : Baseline) (l : Nodes LocalNode) (src : Path)
    (signature : Signature) : Option Bool :=
  if dir.full = signature ∧
      (dir.explainedBy = some src ∨ sameTree b src l dir.path SortedSet.empty = true) then
    some true
  else
    dir.withoutNestedMoves.bind fun without =>
      if without.1 = signature ∧ sameTree b src l dir.path without.2 = true then some false
      else none

/-- Every signature the directory is matched by, once each. -/
def signatures (dir : NewLocalDir) : List Signature :=
  dir.full :: ((dir.withoutNestedMoves.map Prod.fst).filter fun w => w ≠ dir.full).toList

/-- Take up one directory after those nested in it, which stand in `after`. -/
def takeUp (digest : Digest) (b : Baseline) (l : Nodes LocalNode) (gone : Gone)
    (dir : Path × Signature) (after : List NewLocalDir) : NewLocalDir :=
  let explainedBy := gone.explaining b dir.2 l dir.1 SortedSet.empty
  let plain : NewLocalDir := ⟨dir.1, dir.2, none, explainedBy, explainedBy.isSome⟩
  if explainedBy.isSome then plain
  else
    let bounds := subtreeBounds dir.1
    let nested := (after.dropWhile fun inner => inner.path < bounds.1).takeWhile fun inner =>
      inner.path < bounds.2
    let excluded := SortedSet.ofList ((nested.filter NewLocalDir.moved).map NewLocalDir.path)
    if excluded.toList = [] then plain
    else
      match localSignature digest l dir.1 excluded with
      | none => plain
      | some without =>
        ⟨dir.1, dir.2, some (without, excluded), none,
          (gone.explaining b without l dir.1 excluded).isSome⟩

end NewLocalDir

/-- The new local directories that have a signature, in path order, each after
the ones nested in it have been taken up. -/
def newLocalDirSignatures (digest : Digest) (b : Baseline) (l : Nodes LocalNode) (gone : Gone)
    (localNew : List Path) : List NewLocalDir :=
  let read := readSignatures digest localNew fun root =>
    (l.under root).map fun e => (e.1, localSignatureEntry e.2)
  let signed := localNew.filterMap fun path =>
    (read.find? fun e => e.1 = path).bind fun e => e.2.map fun full => (path, full.1)
  let sorted := signed.insertionSort fun x y => x.1 ≤ y.1
  sorted.foldr (fun dir after => NewLocalDir.takeUp digest b l gone dir after :: after) []

/-- Every new directory the source `src` moved to, with whether its full
signature matched. -/
def matching (dirs : List NewLocalDir) (b : Baseline) (l : Nodes LocalNode) (src : Path)
    (signature : Signature) : List (NewLocalDir × Bool) :=
  (dirs.filter fun dir => dir.signatures.contains signature).filterMap fun dir =>
    (dir.matched b l src signature).map fun full => (dir, full)

theorem NewLocalDir.path_takeUp (digest : Digest) (b : Baseline) (l : Nodes LocalNode)
    (gone : Gone) (dir : Path × Signature) (after : List NewLocalDir) :
    (NewLocalDir.takeUp digest b l gone dir after).path = dir.1 := by
  unfold NewLocalDir.takeUp
  dsimp only
  split
  · rfl
  split
  · rfl
  split
  · rfl
  · rfl

variable {b : Baseline} {l : Nodes LocalNode}

theorem mem_newLocalDirSignatures {digest : Digest} {gone : Gone} {localNew : List Path} {dir : NewLocalDir}
    (h : dir ∈ newLocalDirSignatures digest b l gone localNew) : dir.path ∈ localNew := by
  have hpaths : ∀ signed : List (Path × Signature), ∀ dir : NewLocalDir,
      dir ∈ signed.foldr
        (fun dir after => NewLocalDir.takeUp digest b l gone dir after :: after) [] →
      dir.path ∈ signed.map Prod.fst := by
    intro signed
    induction signed with
    | nil =>
      intro dir hdir
      simp at hdir
    | cons e signed ih =>
      intro dir hdir
      rw [foldr_cons, mem_cons] at hdir
      rw [map_cons, mem_cons]
      rcases hdir with rfl | hdir
      · exact Or.inl (NewLocalDir.path_takeUp digest b l gone e _)
      · exact Or.inr (ih dir hdir)
  obtain ⟨e, he, heq⟩ := mem_map.mp (hpaths _ dir h)
  rw [mem_insertionSort] at he
  obtain ⟨path, hpath, hread⟩ := mem_filterMap.mp he
  obtain ⟨found, -, hfound⟩ := Option.bind_eq_some_iff.mp hread
  obtain ⟨full, -, hfull⟩ := Option.map_eq_some_iff.mp hfound
  rw [← heq, ← hfull]
  exact hpath

theorem mem_matching {dirs : List NewLocalDir} {src : Path} {signature : Signature} {e : NewLocalDir × Bool}
    (h : e ∈ matching dirs b l src signature) : e.1 ∈ dirs := by
  obtain ⟨dir, hdir, heq⟩ := mem_filterMap.mp h
  obtain ⟨full, -, hfull⟩ := Option.map_eq_some_iff.mp heq
  rw [← hfull]
  exact (mem_filter.mp hdir).1

/-! ## A signature for each root -/

/-- What a root's signature is read over: the entries strictly under it, in their order. -/
def SignatureReader.under (entries : List (Path × SignatureEntry)) (root : Path) : SignatureReader :=
  (entries.filter fun e => isUnder e.1 root).foldl (fun reader e => reader.add (e.1.drop root.length) e.2)
    SignatureReader.new

section Reading

variable {digest : Digest} {root outer path p q : Path} {roots nested : List Path}
  {entries done rest : List (Path × SignatureEntry)} {e : Path × SignatureEntry} {s : ReadState}
  {stack : List (Path × SignatureReader)} {read : List (Path × Option (Signature × Bool))}

theorem runStart_le_of_isUnder (h : isUnder path root = true) : runStart root ≤ path :=
  (mem_subtreeBounds.mpr h).1

/-- Past a root's run, nothing is under it. -/
theorem not_isUnder_of_past (hstart : runStart root ≤ p) (hnot : isUnder p root = false) (hle : p ≤ q) :
    isUnder q root = false := by
  rw [Bool.eq_false_iff] at hnot ⊢
  intro hunder
  exact hnot (mem_subtreeBounds.mp ⟨hstart, lt_of_le_of_lt hle (mem_subtreeBounds.mpr hunder).2⟩)

theorem runStart_lt_of_isUnder (h : isUnder q p = true) : runStart p < runStart q := by
  refine lt_of_le_of_lt (runStart_le_of_isUnder h) ?_
  have hlt : q ++ [] < runStart q := append_left_lt (nil_lt_cons '/' [])
  rwa [append_nil] at hlt

/-- Of two roots above a path, the one whose run starts later is nested in the other. -/
theorem isUnder_of_runStart_lt (hp : isUnder path p = true) (hq : isUnder path q = true)
    (hlt : runStart p < runStart q) : isUnder q p = true := by
  rcases atOrUnder_total (Or.inr hp) (Or.inr hq) with (rfl | hunder) | (rfl | hunder)
  · exact absurd hlt (lt_irrefl _)
  · exact absurd (runStart_lt_of_isUnder hunder) (not_lt_of_gt hlt)
  · exact absurd hlt (lt_irrefl _)
  · exact hunder

theorem SignatureReader.under_concat (done : List (Path × SignatureEntry)) (e : Path × SignatureEntry) (root : Path) :
    under (done ++ [e]) root =
      if isUnder e.1 root = true then (under done root).add (e.1.drop root.length) e.2 else under done root := by
  unfold under
  rw [filter_append, foldl_append, filter_singleton]
  split <;> simp [*]

theorem SignatureReader.under_eq_new (h : ∀ e ∈ entries, isUnder e.1 root = false) : under entries root = .new := by
  unfold under
  rw [filter_eq_nil_iff.mpr fun e he => by rw [h e he]; exact Bool.false_ne_true]
  rfl

/-- The reading of `roots` once `done` was handed over, where what is to come sorts at or after `path`. -/
structure Reading (digest : Digest) (outer : Path) (roots : List Path) (done : List (Path × SignatureEntry))
    (path : Path) (s : ReadState) : Prop where
  keys : (s.read.map Prod.fst ++ s.open.map Prod.fst ++ s.nested).Perm roots
  bottom : (s.open.map Prod.fst).getLast? = some outer
  read : ∀ e ∈ s.read, e.2 = (SignatureReader.under done e.1).finish digest ∧ ∀ q, path ≤ q → isUnder q e.1 = false
  opened : ∀ e ∈ s.open, e.2 = SignatureReader.under done e.1 ∧ runStart e.1 ≤ path
  chain : (s.open.map Prod.fst).Pairwise fun a b => isUnder a b = true
  waiting : ∀ root ∈ s.nested, ∀ e ∈ done, isUnder e.1 root = false
  sorted : s.nested.Pairwise fun a b => runStart a < runStart b
  nests : ∀ root ∈ s.open.map Prod.fst, ∀ other ∈ s.nested, runStart root < runStart other

theorem Reading.later (h : Reading digest outer roots done p s) (hle : p ≤ q) : Reading digest outer roots done q s :=
  { h with
    read := fun e he => ⟨(h.read e he).1, fun r hr => (h.read e he).2 r (hle.trans hr)⟩
    opened := fun e he => ⟨(h.opened e he).1, (h.opened e he).2.trans hle⟩ }

theorem Reading.close (h : Reading digest outer roots done path ⟨read, stack, nested⟩)
    (houter : isUnder path outer = true) :
    Reading digest outer roots done path
        ⟨(ReadState.close digest path stack read).2, (ReadState.close digest path stack read).1, nested⟩ ∧
      ∀ top ∈ (ReadState.close digest path stack read).1, isUnder path top.1 = true := by
  induction stack generalizing read with
  | nil => exact ⟨h, nofun⟩
  | cons top stack ih =>
    cases stack with
    | nil =>
      refine ⟨h, fun e he => ?_⟩
      have heq : top.1 = outer := Option.some.inj h.bottom
      rw [mem_singleton.mp he, heq]
      exact houter
    | cons below stack =>
      rw [ReadState.close]
      obtain ⟨hfirst, hrest⟩ := pairwise_cons.mp h.chain
      split
      · rename_i habove
        refine ⟨h, fun e he => ?_⟩
        rcases mem_cons.mp he with rfl | he
        · exact habove
        · exact isUnder_trans habove (hfirst e.1 (mem_map_of_mem he))
      rename_i hnot
      refine ih ⟨by simpa using h.keys, h.bottom, fun e he => ?_, fun e he => h.opened e (mem_cons_of_mem _ he), hrest,
        h.waiting, h.sorted, fun root hroot => h.nests root (mem_cons_of_mem _ hroot)⟩
      rcases mem_append.mp he with he | he
      · exact h.read e he
      obtain ⟨hreader, hstart⟩ := h.opened top mem_cons_self
      rw [mem_singleton.mp he, hreader]
      exact ⟨rfl, fun q hle => not_isUnder_of_past hstart (Bool.eq_false_iff.mpr hnot) hle⟩

theorem Reading.openRoots (h : Reading digest outer roots done path ⟨read, stack, nested⟩)
    (habove : ∀ top ∈ stack, isUnder path top.1 = true) (stale : List Path) :
    Reading digest outer roots done path (ReadState.openRoots digest path nested ⟨read, stack, stale⟩) ∧
      (∀ top ∈ (ReadState.openRoots digest path nested ⟨read, stack, stale⟩).open, isUnder path top.1 = true) ∧
      ∀ root ∈ (ReadState.openRoots digest path nested ⟨read, stack, stale⟩).nested, isUnder path root = false := by
  induction nested generalizing read stack with
  | nil => exact ⟨h, habove, nofun⟩
  | cons root nested ih =>
    obtain ⟨hfirst, hrest⟩ := pairwise_cons.mp h.sorted
    have hnew := SignatureReader.under_eq_new (h.waiting root mem_cons_self)
    have hwaiting : ∀ other ∈ nested, ∀ e ∈ done, isUnder e.1 other = false := fun other hother =>
      h.waiting other (mem_cons_of_mem _ hother)
    have hnests : ∀ top ∈ stack.map Prod.fst, ∀ other ∈ nested, runStart top < runStart other :=
      fun top htop other hother => h.nests top htop other (mem_cons_of_mem _ hother)
    have hkeys := (perm_middle.symm.append_left (read.map Prod.fst)).trans (append_assoc .. ▸ h.keys)
    rw [ReadState.openRoots]
    split
    · rename_i hstart
      split
      · rename_i hunder
        refine ih ⟨by simpa using hkeys, ?_, h.read, forall_mem_cons.mpr ⟨⟨hnew.symm, hstart⟩, h.opened⟩,
          pairwise_cons.mpr ⟨fun top htop => ?_, h.chain⟩, hwaiting, hrest, forall_mem_cons.mpr ⟨hfirst, hnests⟩⟩
          (forall_mem_cons.mpr ⟨hunder, habove⟩)
        · rw [map_cons, getLast?_cons, h.bottom]
          rfl
        obtain ⟨e, he, rfl⟩ := mem_map.mp htop
        exact isUnder_of_runStart_lt (habove e he) hunder (h.nests e.1 htop root mem_cons_self)
      rename_i hnot
      refine ih ⟨by simpa using hkeys, h.bottom, fun e he => ?_, h.opened, h.chain, hwaiting, hrest, hnests⟩ habove
      rcases mem_append.mp he with he | he
      · exact h.read e he
      rw [mem_singleton.mp he, hnew]
      exact ⟨rfl, fun q hle => not_isUnder_of_past hstart (Bool.eq_false_iff.mpr hnot) hle⟩
    rename_i hlater
    refine ⟨h, habove, fun other hother => Bool.eq_false_iff.mpr fun hunder => hlater ?_⟩
    rcases mem_cons.mp hother with rfl | hother
    · exact runStart_le_of_isUnder hunder
    · exact (hfirst other hother).le.trans (runStart_le_of_isUnder hunder)

/-- The path in hand is added to every open root. -/
theorem Reading.hand (h : Reading digest outer roots done e.1 ⟨read, stack, nested⟩)
    (habove : ∀ top ∈ stack, isUnder e.1 top.1 = true) (hbelow : ∀ root ∈ nested, isUnder e.1 root = false)
    {add : Path × SignatureReader → Path × SignatureReader}
    (hadd : ∀ top ∈ stack, add top = (top.1, top.2.add (e.1.drop top.1.length) e.2)) :
    Reading digest outer roots (done ++ [e]) e.1 ⟨read, stack.map add, nested⟩ := by
  have hkeys : (stack.map add).map Prod.fst = stack.map Prod.fst := by
    rw [map_map]
    exact map_congr_left fun top htop => by rw [Function.comp, hadd top htop]
  refine ⟨hkeys ▸ h.keys, hkeys ▸ h.bottom, fun f hf => ?_, fun f hf => ?_, hkeys ▸ h.chain, fun root hroot => ?_, h.sorted,
    hkeys ▸ h.nests⟩
  · obtain ⟨heq, hpast⟩ := h.read f hf
    rw [SignatureReader.under_concat, if_neg (Bool.eq_false_iff.mp (hpast e.1 le_rfl))]
    exact ⟨heq, hpast⟩
  · obtain ⟨top, htop, rfl⟩ := mem_map.mp hf
    rw [hadd top htop, SignatureReader.under_concat, if_pos (habove top htop), ← (h.opened top htop).1]
    exact ⟨rfl, (h.opened top htop).2⟩
  · intro f hf
    rcases mem_append.mp hf with hf | hf
    · exact h.waiting root hroot f hf
    · exact mem_singleton.mp hf ▸ hbelow root hroot

theorem Reading.visit (h : Reading digest outer roots done p s) (hle : p ≤ e.1) (houter : isUnder e.1 outer = true) :
    Reading digest outer roots (done ++ [e]) e.1 (s.visit digest e) := by
  obtain ⟨hclosed, habove⟩ := (h.later hle).close houter
  obtain ⟨hopened, habove, hbelow⟩ := hclosed.openRoots habove s.nested
  refine hopened.hand habove hbelow fun top htop => ?_
  obtain ⟨tail, htail⟩ := isUnder_iff.mp (habove top htop)
  have hstrip : stripPrefix e.1 top.1 = some (e.1.drop top.1.length) := by
    unfold stripPrefix
    rw [if_pos (by rw [htail]; simp)]
  rw [hstrip]

theorem Reading.foldl (h : Reading digest outer roots done p s) (hsorted : rest.Pairwise fun a b => a.1 ≤ b.1)
    (hrest : ∀ e ∈ rest, p ≤ e.1 ∧ isUnder e.1 outer = true) :
    ∃ q, Reading digest outer roots (done ++ rest) q (rest.foldl (ReadState.visit digest) s) := by
  induction rest generalizing done p s with
  | nil => exact ⟨p, (append_nil done).symm ▸ h⟩
  | cons e rest ih =>
    obtain ⟨hfirst, hlast⟩ := pairwise_cons.mp hsorted
    obtain ⟨hle, hunder⟩ := hrest e mem_cons_self
    rw [append_cons]
    exact ih (h.visit hle hunder) hlast fun f hf => ⟨hfirst f hf, (hrest f (mem_cons_of_mem _ hf)).2⟩

theorem Reading.mem_finish (h : Reading digest outer roots done p s) {result : Option (Signature × Bool)} :
    (root, result) ∈ s.finish digest ↔ root ∈ roots ∧ result = (SignatureReader.under done root).finish digest := by
  have hkeys : ((s.finish digest).map Prod.fst).Perm roots := by
    unfold ReadState.finish
    rw [map_append, map_append, map_map, map_map, map_reverse]
    refine Perm.trans (((reverse_perm _).append_left _).append_right _) ?_
    exact (map_id s.nested).symm ▸ h.keys
  have hvalue : ∀ e ∈ s.finish digest, e.2 = (SignatureReader.under done e.1).finish digest := by
    intro e he
    rcases mem_append.mp he with he | he
    · rcases mem_append.mp he with he | he
      · exact (h.read e he).1
      obtain ⟨top, htop, rfl⟩ := mem_map.mp he
      rw [(h.opened top (mem_reverse.mp htop)).1]
    obtain ⟨root, hroot, rfl⟩ := mem_map.mp he
    rw [SignatureReader.under_eq_new (h.waiting root hroot)]
  constructor
  · exact fun hmem => ⟨hkeys.mem_iff.mp (mem_map_of_mem hmem), hvalue _ hmem⟩
  rintro ⟨hroot, rfl⟩
  obtain ⟨e, he, rfl⟩ := mem_map.mp (hkeys.mem_iff.mpr hroot)
  rw [← hvalue e he]
  exact he

/-- The roots nested in an outermost one, with it, are read over what is under it. -/
theorem reading_outer (hstarts : (outer :: nested).Pairwise fun a b => runStart a < runStart b)
    (hsorted : rest.Pairwise fun a b => a.1 ≤ b.1) (hrest : ∀ e ∈ rest, isUnder e.1 outer = true) {result : Option (Signature × Bool)} :
    (root, result) ∈ (rest.foldl (ReadState.visit digest) ⟨[], [(outer, .new)], nested⟩).finish digest ↔
      root ∈ outer :: nested ∧ result = (SignatureReader.under rest root).finish digest := by
  obtain ⟨hfirst, hlast⟩ := pairwise_cons.mp hstarts
  have hstart : Reading digest outer (outer :: nested) [] (runStart outer) ⟨[], [(outer, .new)], nested⟩ :=
    ⟨Perm.refl _, rfl, nofun, forall_mem_singleton.mpr ⟨rfl, le_rfl⟩, pairwise_singleton _ _, nofun, hlast,
      forall_mem_singleton.mpr hfirst⟩
  obtain ⟨q, hread⟩ := hstart.foldl hsorted fun e he => ⟨runStart_le_of_isUnder (hrest e he), hrest e he⟩
  exact hread.mem_finish

theorem SignatureReader.under_under (h : AtOrUnder root outer) :
    under (entries.filter fun e => isUnder e.1 outer) root = under entries root := by
  unfold under
  rw [filter_filter]
  congr 1
  refine filter_congr fun e _ => ?_
  cases hunder : isUnder e.1 root with
  | false => rfl
  | true =>
    rcases h with rfl | h
    · rw [hunder]
      rfl
    · rw [isUnder_trans hunder h]
      rfl

/-- What is left once the roots right under an outermost one are taken is not under it. -/
theorem not_isUnder_of_mem_dropWhile (hstarts : (outer :: nested).Pairwise fun a b => runStart a < runStart b)
    (hroot : root ∈ nested.dropWhile fun root => isUnder root outer) : isUnder root outer = false := by
  induction nested with
  | nil => cases hroot
  | cons next nested ih =>
    obtain ⟨hfirst, hrest⟩ := pairwise_cons.mp hstarts
    cases hnext : isUnder next outer with
    | true =>
      rw [dropWhile_cons, if_pos hnext] at hroot
      exact ih (pairwise_cons.mpr ⟨fun q hq => hfirst q (mem_cons_of_mem _ hq), hrest.of_cons⟩) hroot
    | false =>
      rw [dropWhile_cons, hnext] at hroot
      rcases mem_cons.mp hroot with rfl | hroot
      · exact hnext
      have hnot : isUnder (runStart next) outer = false := by
        rw [Bool.eq_false_iff]
        intro hunder
        obtain ⟨tail, htail⟩ := isUnder_iff.mp hunder
        rcases eq_nil_or_concat tail with rfl | ⟨more, last, rfl⟩
        · exact absurd (hfirst next mem_cons_self) (htail ▸ lt_irrefl (runStart outer))
        rw [concat_eq_append, ← cons_append, ← append_assoc] at htail
        rw [(append_inj' htail rfl).1, isUnder_append] at hnext
        cases hnext
      have hpast := not_isUnder_of_past (hfirst next mem_cons_self).le hnot ((pairwise_cons.mp hrest).1 root hroot).le
      rw [Bool.eq_false_iff] at hpast ⊢
      intro hunder
      obtain ⟨tail, rfl⟩ := isUnder_iff.mp hunder
      exact hpast (isUnder_iff.mpr ⟨tail ++ ['/'], by simp [runStart]⟩)

theorem mem_readOuter {walk : Path → List (Path × SignatureEntry)} {fuel : Nat} (hfuel : roots.length ≤ fuel)
    (hstarts : roots.Pairwise fun a b => runStart a < runStart b) (hsorted : entries.Pairwise fun a b => a.1 ≤ b.1)
    (hwalk : ∀ outer ∈ roots, (∀ root ∈ roots, isUnder outer root = false) →
      walk outer = entries.filter fun e => isUnder e.1 outer) {result : Option (Signature × Bool)} :
    (root, result) ∈ readOuter digest walk fuel roots ↔
      root ∈ roots ∧ result = (SignatureReader.under entries root).finish digest := by
  induction fuel generalizing roots with
  | zero =>
    rw [length_eq_zero_iff.mp (Nat.le_zero.mp hfuel)]
    exact iff_of_false nofun fun h => by cases h.1
  | succ fuel ih =>
    cases roots with
    | nil => exact iff_of_false nofun fun h => by cases h.1
    | cons outer after =>
      obtain ⟨hfirst, hrest⟩ := pairwise_cons.mp hstarts
      have hsplit := takeWhile_append_dropWhile (p := fun root => isUnder root outer) (l := after)
      have houter : walk outer = entries.filter fun e => isUnder e.1 outer := by
        refine hwalk outer mem_cons_self fun root hroot => Bool.eq_false_iff.mpr fun hunder => ?_
        rcases mem_cons.mp hroot with rfl | hroot
        · simp at hunder
        · exact lt_asymm (hfirst root hroot) (runStart_lt_of_isUnder hunder)
      have hnext : ∀ root ∈ after.dropWhile fun root => isUnder root outer, isUnder root outer = false := fun root =>
        not_isUnder_of_mem_dropWhile hstarts
      have hmem : ∀ root, root ∈ outer :: after ↔ root ∈ outer :: after.takeWhile (fun root => isUnder root outer) ∨
          root ∈ after.dropWhile fun root => isUnder root outer := fun root => by
        rw [mem_cons, mem_cons, or_assoc, ← mem_append, hsplit]
      have hat : ∀ root ∈ outer :: after.takeWhile (fun root => isUnder root outer), AtOrUnder root outer := fun root hroot =>
        (mem_cons.mp hroot).imp_right (mem_takeWhile_imp (p := fun root => isUnder root outer))
      have hkept : (outer :: after.takeWhile fun root => isUnder root outer).Sublist (outer :: after) :=
        (takeWhile_sublist _).cons_cons _
      have hlater := ih ((length_dropWhile_le _ _).trans (Nat.le_of_succ_le_succ hfuel))
        (hrest.sublist (dropWhile_sublist _)) fun top htop hfree => hwalk top
          (mem_cons_of_mem _ ((dropWhile_sublist _).subset htop)) fun root hroot => by
            rcases (hmem root).mp hroot with hroot | hroot
            · refine Bool.eq_false_iff.mpr fun hunder => Bool.eq_false_iff.mp (hnext top htop) ?_
              rcases hat root hroot with rfl | hat
              · exact hunder
              · exact isUnder_trans hunder hat
            · exact hfree root hroot
      rw [readOuter, mem_append, houter, reading_outer (hstarts.sublist hkept) (hsorted.filter _)
        fun e he => (mem_filter.mp he).2, hlater, hmem, or_and_right]
      exact or_congr_left (and_congr_right fun hroot => by rw [SignatureReader.under_under (hat root hroot)])

end Reading

theorem SignatureReader.foldl_add_hasher (root : Path) (entries : List (Path × SignatureEntry)) (reader : SignatureReader) :
    (entries.foldl (fun reader e => reader.add (e.1.drop root.length) e.2) reader).hasher = none ↔
      reader.hasher = none ∨ ∃ e ∈ entries, e.2 = none := by
  induction entries generalizing reader with
  | nil => simp
  | cons e entries ih =>
    rw [foldl_cons, ih, exists_mem_cons_iff]
    obtain ⟨path, entry⟩ := e
    obtain ⟨hasher, files⟩ := reader
    cases hasher <;> cases entry <;> simp [add]

/-- Every root has the signature of the entries strictly under it, which one without an entry
spoils, and nothing else is read. -/
theorem readSignatures_eq {digest : Digest} {roots : List Path} {entries : List (Path × SignatureEntry)}
    {walk : Path → List (Path × SignatureEntry)} (hsorted : entries.Pairwise fun a b => a.1 < b.1)
    (hwalk : ∀ outer ∈ roots, (∀ root ∈ roots, isUnder outer root = false) →
      walk outer = entries.filter fun e => isUnder e.1 outer) (root : Path) (result : Option (Signature × Bool)) :
    ((root, result) ∈ readSignatures digest roots walk ↔
      root ∈ roots ∧ result = (SignatureReader.under entries root).finish digest) ∧
      ((SignatureReader.under entries root).finish digest = none ↔
        ∃ e ∈ entries, isUnder e.1 root = true ∧ e.2 = none) := by
  have hmem : ∀ root, root ∈ roots.dedup.insertionSort (fun a b => runStart a ≤ runStart b) ↔ root ∈ roots :=
    fun root => by rw [mem_insertionSort, mem_dedup]
  have hstarts : (roots.dedup.insertionSort fun a b => runStart a ≤ runStart b).Pairwise
      fun a b => runStart a < runStart b := by
    have hnodup := (perm_insertionSort (fun a b => runStart a ≤ runStart b) _).nodup_iff.mpr roots.nodup_dedup
    refine (pairwise_insertionSort (fun a b => runStart a ≤ runStart b) roots.dedup).imp₂ (fun a b hle hne => ?_) hnodup
    exact lt_of_le_of_ne hle fun heq => hne (append_cancel_right heq)
  constructor
  · unfold readSignatures
    rw [mem_readOuter le_rfl hstarts (hsorted.imp fun h => h.le) fun outer houter hfree => hwalk outer
      ((hmem outer).mp houter) fun root hroot => hfree root ((hmem root).mpr hroot), hmem]
  · unfold SignatureReader.finish SignatureReader.under
    rw [Option.map_eq_none_iff, SignatureReader.foldl_add_hasher]
    simp [SignatureReader.new, and_assoc]

/-- Entries of roots one of which sorts between another and its children. -/
def siblings : List (Path × SignatureEntry) :=
  [("a-b/f".toList, none), ("a/f".toList, some (.file, some 1, 1)), ("a/x/g".toList, some (.file, some 2, 1))]

theorem readSignatures_siblings :
    ("a".toList, some (2, true)) ∈ readSignatures (fun read => BitVec.ofNat 256 read.length)
      ["a".toList, "a-b".toList, "a/x".toList] fun root => siblings.filter fun e => isUnder e.1 root :=
  (@readSignatures_eq _ _ siblings _ (by decide) (fun _ _ _ => rfl) "a".toList (some (2, true))).1.mpr
    ⟨by decide, by decide⟩

end SyncEngine
