import SyncEngine.Thumb.Tiff
import Mathlib.Data.List.Nodup

/-! # The walk over a RAW container's directories

Directories point at further ones in four ways: sub-directories, the Exif directory, a
maker note's settings and the next directory. Every offset is the file's own word.
-/

namespace SyncEngine.Thumb

open Collections Checked List

def MAX_IFDS : Nat := 48

def MAX_DEPTH : Nat := 4

def MAX_CANDIDATES : Nat := 24

def MIN_PREVIEW_BYTES : Nat := 128

def MAX_UNCOMPRESSED_PREVIEW_PIXELS : Nat := 2 ^ 20

/-- A candidate before its bytes have been looked at. -/
structure Candidate where
  off : Nat
  len : Nat
  /-- Dimensions the directory declares, used only for the uncompressed case. -/
  w : Nat
  h : Nat
  uncompressed : Bool

structure Walk where
  visited : List Nat
  candidates : List Candidate
  orientation : Option Nat
  /-- Maker note payload, parsed after the main walk. -/
  makerNote : Option (Nat × Nat)

inductive Vocab where
  | tiff
  | maker
  deriving DecidableEq, Repr

def saturatingMul (a b : Nat) : Nat := min (a * b) (2 ^ 64 - 1)

namespace Walk

def push (walk : Walk) (off len w h : Nat) (uncompressed : Bool) : Walk :=
  if MIN_PREVIEW_BYTES ≤ len ∧ walk.candidates.length < MAX_CANDIDATES then
    { walk with candidates := walk.candidates ++ [{ off, len, w, h, uncompressed }] }
  else walk

def noteOrientation (walk : Walk) (dir : Directory) (endian : Endian) : Walk :=
  match walk.orientation, dir.scalar 0x0112 endian with
  | none, some o => if 1 ≤ o ∧ o ≤ 8 then { walk with orientation := some o } else walk
  | _, _ => walk

/-- The directory does not say that it describes the sensor mosaic. -/
def displayable (dir : Directory) (endian : Endian) : Bool :=
  (dir.scalar 0x0106 endian).all fun p => p = 2 ∨ p = 6

def collectInterchange (walk : Walk) (dir : Directory) (endian : Endian) (w h : Nat) : Walk :=
  if displayable dir endian then
    match dir.scalar 0x0201 endian, dir.scalar 0x0202 endian with
    | some off, some len => walk.push off len w h false
    | _, _ => walk
  else walk

/-- The directory's own tags say that its strip is a small uncompressed RGB image. -/
def uncompressedStrip (dir : Directory) (endian : Endian) (w h len : Nat) : Bool :=
  dir.scalar 0x0106 endian = some 2 ∧ dir.scalar 0x00FE endian = some 1 ∧ saturatingMul (w * h) 3 = len ∧
    w * h ≤ MAX_UNCOMPRESSED_PREVIEW_PIXELS

/-- A single strip is either a whole JPEG or a small uncompressed RGB image. -/
def collectStrip (walk : Walk) (dir : Directory) (endian : Endian) (w h : Nat) : Walk :=
  if displayable dir endian ∧ (dir.get 0x0111).any fun e => e.count = 1 then
    match dir.scalar 0x0111 endian, dir.scalar 0x0117 endian with
    | some off, some len => walk.push off len w h (uncompressedStrip dir endian w h len)
    | _, _ => walk
  else walk

def collectBlob (walk : Walk) (dir : Directory) (tag : Nat) : Walk :=
  match dir.get tag with
  | some entry =>
    if entry.typ = 7 ∧ entry.outside then walk.push entry.valueAt entry.count 0 0 false else walk
  | none => walk

def collectTiff (walk : Walk) (dir : Directory) (endian : Endian) : Walk :=
  let w := asU32 ((dir.scalar 0x0100 endian).getD 0)
  let h := asU32 ((dir.scalar 0x0101 endian).getD 0)
  (((walk.noteOrientation dir endian).collectInterchange dir endian w h).collectStrip dir endian w h).collectBlob
    dir 0x002E

def collectMaker (walk : Walk) (dir : Directory) (endian : Endian) (base : Nat) : Walk :=
  let walk := walk.collectBlob dir 0x0100
  match dir.scalar 0x0101 endian, dir.scalar 0x0102 endian with
  | some off, some len => walk.push (saturatingAdd base off) len 0 0 false
  | _, _ => walk

def collect (walk : Walk) (vocab : Vocab) (dir : Directory) (endian : Endian) (base : Nat) : Walk :=
  match vocab with
  | .tiff => walk.collectTiff dir endian
  | .maker => walk.collectMaker dir endian base

/-- The Exif directory is only interesting as the road to the maker note. -/
def noteMaker (walk : Walk) (vocab : Vocab) (dir : Directory) : Walk :=
  match vocab, walk.makerNote, dir.get 0x927C with
  | .tiff, none, some entry =>
    match entry.total with
    | some total => if 4 < total then { walk with makerNote := some (entry.valueAt, total) } else walk
    | none => walk
  | _, _, _ => walk

/-- The walk has had enough, or has been there. -/
def closed (walk : Walk) (at' depth : Nat) : Prop :=
  MAX_DEPTH < depth ∨ MAX_IFDS ≤ walk.visited.length ∨ MAX_CANDIDATES ≤ walk.candidates.length ∨
    at' ∈ walk.visited

instance (walk : Walk) (at' depth : Nat) : Decidable (walk.closed at' depth) := by
  unfold closed
  infer_instance

end Walk

section Walking

variable {σ : Type} (src : ByteSource σ)

/-- The array a sub-directories tag points at, bounded and bounds-checked. -/
def offsetArray (entry : Entry) (endian : Endian) (base : Nat) : Checked Unit σ (List Nat) :=
  if entry.typ ≠ 4 ∧ entry.typ ≠ 13 then Pure.pure []
  else
    let count := min entry.count MAX_IFDS
    if count = 1 then Pure.pure ((entry.scalar endian).map (saturatingAdd base)).toList
    else do
      let bytes ← Checked.attempt (src.readExactAt entry.valueAt (count * 4))
      match bytes with
      | none => return []
      | some bytes =>
        return ((List.range count).filterMap fun i => u32At bytes (i * 4) endian).map (saturatingAdd base)

/-- The way from a directory to another: the offset and the depth it is visited at. -/
abbrev Visit (σ : Type) : Type := (at' depth : Nat) → Walk → Checked Unit σ Walk

variable {src} (visit : Visit σ) (endian : Endian) (base depth : Nat) (vocab : Vocab) (dir : Directory) (walk : Walk)

def visitDeeper (at' : Nat) : Checked Unit σ Walk := do
  let deeper ← .addWithin 8 depth 1
  visit at' deeper walk

variable (src) in
def visitSubIfds : Checked Unit σ Walk :=
  match dir.get 0x014A with
  | none => Pure.pure walk
  | some entry => do
    let offsets ← offsetArray src entry endian base
    Checked.foldWith (fun walk off => visitDeeper visit depth walk off) offsets walk

def visitExif : Checked Unit σ Walk :=
  match vocab, dir.scalar 0x8769 endian with
  | .tiff, some exifAt => visitDeeper visit depth walk (saturatingAdd base exifAt)
  | _, _ => Pure.pure walk

/-- Olympus camera settings, which hold the offset of the large preview. -/
def visitSettings : Checked Unit σ Walk :=
  match vocab, dir.get 0x2020 with
  | .maker, some entry =>
    visitDeeper visit depth walk
      (match entry.scalar endian with
      | some rel => saturatingAdd base rel
      | none => entry.valueAt)
  | _, _ => Pure.pure walk

/-- A chained directory is a sibling, not a child. -/
def visitNext : Checked Unit σ Walk :=
  if dir.next ≠ 0 then visit (saturatingAdd base dir.next) depth walk else Pure.pure walk

variable (src) in
def follow : Checked Unit σ Walk := do
  let walk := walk.collect vocab dir endian base
  let walk ← visitSubIfds src visit endian base depth dir walk
  let walk ← visitExif visit endian base depth vocab dir walk
  let walk := walk.noteMaker vocab dir
  let walk ← visitSettings visit endian base depth vocab dir walk
  visitNext visit base depth dir walk

variable (src) in
/-- Visit a directory and what it leads to, so many calls deep at most. -/
def walkFrom (endian : Endian) (base : Nat) (vocab : Vocab) : (fuel : Nat) → Visit σ
  | 0, _, _, _ => .fault .endless
  | fuel + 1, at', depth, walk =>
    if walk.closed at' depth then Pure.pure walk
    else do
      let walk := { walk with visited := walk.visited ++ [at'] }
      let dir ← Checked.attempt (readDirectory src endian base at')
      match dir with
      | none => return walk
      | some dir => follow src (walkFrom endian base vocab fuel) endian base depth vocab dir walk

end Walking

/-! ## What a walk keeps -/

/-- What the candidates of a walk and its maker note may say, and where it has been. -/
structure Walk.Sound (walk : Walk) : Prop where
  once : walk.visited.Nodup
  capped : walk.visited.length ≤ MAX_IFDS
  strips : ∀ c ∈ walk.candidates, c.uncompressed = true → c.len = 3 * (c.w * c.h)
  maker : ∀ at' len, walk.makerNote = some (at', len) → at' < 2 ^ 32

namespace Walk

variable {walk : Walk} {dir : Directory} {endian : Endian} {base : Nat}

variable {len w height : Nat} {uncompressed : Bool} {h : Nat}

theorem Sound.push (h : walk.Sound) {off : Nat}
    (hstrip : uncompressed → len = 3 * (w * height)) : (walk.push off len w height uncompressed).Sound := by
  unfold Walk.push
  split
  · refine ⟨h.once, h.capped, fun c hc => ?_, h.maker⟩
    rcases mem_append.mp hc with hc | hc
    · exact h.strips c hc
    rw [mem_singleton.mp hc]
    exact hstrip
  · exact h

theorem push_visited {off : Nat} :
    (walk.push off len w h uncompressed).visited = walk.visited := by
  unfold push
  split <;> rfl

theorem Sound.noteOrientation (h : walk.Sound) : (walk.noteOrientation dir endian).Sound := by
  unfold Walk.noteOrientation
  split
  · split
    · exact ⟨h.once, h.capped, h.strips, h.maker⟩
    · exact h
  · exact h

theorem noteOrientation_visited : (walk.noteOrientation dir endian).visited = walk.visited := by
  unfold noteOrientation
  split
  · split <;> rfl
  · rfl

theorem Sound.collectInterchange (h : walk.Sound) :
    (walk.collectInterchange dir endian w height).Sound := by
  unfold Walk.collectInterchange
  split
  · split
    · exact h.push nofun
    · exact h
  · exact h

theorem collectInterchange_visited :
    (walk.collectInterchange dir endian w h).visited = walk.visited := by
  unfold collectInterchange
  split
  · split
    · exact push_visited
    · rfl
  · rfl

theorem uncompressedStrip_len (hstrip : uncompressedStrip dir endian w h len) :
    len = 3 * (w * h) := by
  unfold uncompressedStrip saturatingMul MAX_UNCOMPRESSED_PREVIEW_PIXELS at hstrip
  obtain ⟨-, -, hlen, hpixels⟩ := of_decide_eq_true hstrip
  omega

theorem Sound.collectStrip (h : walk.Sound) : (walk.collectStrip dir endian w height).Sound := by
  unfold Walk.collectStrip
  split
  · split
    · exact h.push uncompressedStrip_len
    · exact h
  · exact h

theorem collectStrip_visited : (walk.collectStrip dir endian w h).visited = walk.visited := by
  unfold collectStrip
  split
  · split
    · exact push_visited
    · rfl
  · rfl

theorem Sound.collectBlob (h : walk.Sound) {tag : Nat} : (walk.collectBlob dir tag).Sound := by
  unfold Walk.collectBlob
  split
  · split
    · exact h.push nofun
    · exact h
  · exact h

theorem collectBlob_visited {tag : Nat} : (walk.collectBlob dir tag).visited = walk.visited := by
  unfold collectBlob
  split
  · split
    · exact push_visited
    · rfl
  · rfl

variable {vocab : Vocab}

theorem Sound.collect (h : walk.Sound) : (walk.collect vocab dir endian base).Sound := by
  unfold Walk.collect
  cases vocab with
  | tiff => exact h.noteOrientation.collectInterchange.collectStrip.collectBlob
  | maker =>
    dsimp only [collectMaker]
    split
    · exact h.collectBlob.push nofun
    · exact h.collectBlob

theorem collect_visited : (walk.collect vocab dir endian base).visited = walk.visited := by
  unfold collect
  cases vocab with
  | tiff =>
    dsimp only [collectTiff]
    rw [collectBlob_visited, collectStrip_visited, collectInterchange_visited, noteOrientation_visited]
  | maker =>
    dsimp only [collectMaker]
    split
    · rw [push_visited, collectBlob_visited]
    · exact collectBlob_visited

theorem Sound.noteMaker (h : walk.Sound) (hbase : vocab = .tiff → base = 0)
    (hdir : ∀ e ∈ dir.entries, e.Resolved base) : (walk.noteMaker vocab dir).Sound := by
  unfold Walk.noteMaker
  split
  · rename_i entry hnone hentry
    split
    · rename_i total htotal
      split
      · rename_i hlarge
        refine ⟨h.once, h.capped, h.strips, fun at' len heq => ?_⟩
        have houtside : entry.outside := by
          unfold Entry.outside
          rw [htotal, Option.any_some]
          exact decide_eq_true hlarge
        obtain ⟨raw, hraw, hat⟩ := hdir entry (Directory.get_mem hentry) houtside
        cases heq
        rw [hat, hbase rfl]
        unfold saturatingAdd
        omega
      · exact h
    · exact h
  · exact h

theorem noteMaker_visited : (walk.noteMaker vocab dir).visited = walk.visited := by
  unfold noteMaker
  split
  · split
    · split <;> rfl
    · rfl
  · rfl

/-- A walk that keeps to the rules and has been at so many places at least. -/
def Reached (places : Nat) (walk : Walk) : Prop := walk.Sound ∧ places ≤ walk.visited.length

theorem Reached.collect {places : Nat} (h : Reached places walk) :
    Reached places (walk.collect vocab dir endian base) := by
  refine ⟨h.1.collect, ?_⟩
  rw [collect_visited]
  exact h.2

theorem Reached.noteMaker {places : Nat} (h : Reached places walk) (hbase : vocab = .tiff → base = 0)
    (hdir : ∀ e ∈ dir.entries, e.Resolved base) : Reached places (walk.noteMaker vocab dir) := by
  refine ⟨h.1.noteMaker hbase hdir, ?_⟩
  rw [noteMaker_visited]
  exact h.2

theorem Reached.visit {places at' depth : Nat} (h : Reached places walk) (hopen : ¬ walk.closed at' depth) :
    Reached (places + 1) { walk with visited := walk.visited ++ [at'] } := by
  unfold closed at hopen
  rw [not_or, not_or, not_or] at hopen
  obtain ⟨-, hroom, -, hnew⟩ := hopen
  obtain ⟨hsound, hplaces⟩ := h
  have hlength : (walk.visited ++ [at']).length = walk.visited.length + 1 := length_append
  refine ⟨⟨?_, ?_, hsound.strips, hsound.maker⟩, ?_⟩
  · exact concat_eq_append ▸ Nodup.concat hnew hsound.once
  · dsimp only
    omega
  dsimp only
  omega

end Walk

section Visits

variable {σ : Type} {src : ByteSource σ} {visit : Visit σ} {endian : Endian} {base depth places : Nat}
  {vocab : Vocab} {dir : Directory} {walk : Walk}

/-- A visit keeps to the rules from every walk that has been at so many places. -/
def Visits (visit : Visit σ) (places : Nat) : Prop :=
  ∀ at' depth walk, Walk.Reached places walk → depth ≤ MAX_DEPTH + 1 →
    (visit at' depth walk).Meets (fun _ => True) fun walk _ => Walk.Reached places walk

theorem offsetArray_meets {entry : Entry} :
    (offsetArray src entry endian base).Meets (fun _ => True) fun _ _ => True := by
  unfold offsetArray
  split
  · exact Meets.pure fun _ _ => trivial
  dsimp only
  split
  · exact Meets.pure fun _ _ => trivial
  refine src.readExactAt_meets.attempt.bind fun bytes => ?_
  cases bytes <;> exact Meets.pure fun _ _ => trivial

section

variable (hvisit : Visits visit places)
include hvisit

section

variable (hdepth : depth ≤ MAX_DEPTH)
include hdepth

section

variable (h : Walk.Reached places walk)
include h

theorem Visits.deeper
    (at' : Nat) :
    (visitDeeper visit depth walk at').Meets (fun _ => True) fun walk _ => Walk.Reached places walk := by
  unfold MAX_DEPTH at hdepth
  exact Meets.add (by omega) (hvisit at' (depth + 1) walk h (Nat.succ_le_succ hdepth))

theorem Visits.subIfds :
    (visitSubIfds src visit endian base depth dir walk).Meets (fun _ => True)
      fun walk _ => Walk.Reached places walk := by
  unfold visitSubIfds
  split
  · exact Meets.pure fun _ _ => h
  refine offsetArray_meets.bind fun offsets => ?_
  refine Meets.mono (Meets.foldWith (fun walk _ => Walk.Reached places walk) offsets
    (fun off _ walk => Meets.of_pre fun hwalk => hvisit.deeper hdepth hwalk off) walk)
    (fun _ _ => h) fun _ _ h => h

theorem Visits.exif :
    (visitExif visit endian base depth vocab dir walk).Meets (fun _ => True)
      fun walk _ => Walk.Reached places walk := by
  unfold visitExif
  split
  · exact hvisit.deeper hdepth h _
  · exact Meets.pure fun _ _ => h

theorem Visits.settings :
    (visitSettings visit endian base depth vocab dir walk).Meets (fun _ => True)
      fun walk _ => Walk.Reached places walk := by
  unfold visitSettings
  split
  · exact hvisit.deeper hdepth h _
  · exact Meets.pure fun _ _ => h

theorem Visits.next :
    (visitNext visit base depth dir walk).Meets (fun _ => True) fun walk _ => Walk.Reached places walk := by
  unfold visitNext
  split
  · exact hvisit _ depth walk h (Nat.le_succ_of_le hdepth)
  · exact Meets.pure fun _ _ => h

theorem Visits.follow
    (hbase : vocab = .tiff → base = 0) (hdir : ∀ e ∈ dir.entries, e.Resolved base) :
    (follow src visit endian base depth vocab dir walk).Meets (fun _ => True)
      fun walk _ => Walk.Reached places walk := by
  refine (hvisit.subIfds hdepth h.collect).bind fun walk => Meets.of_pre fun h => ?_
  refine (hvisit.exif hdepth h).bind fun walk => Meets.of_pre fun h => ?_
  refine (hvisit.settings hdepth (h.noteMaker hbase hdir)).bind fun walk => Meets.of_pre fun h => ?_
  exact hvisit.next hdepth h

end

end

end

theorem walkFrom_visits (hbase : vocab = .tiff → base = 0) {fuel : Nat} (hfuel : MAX_IFDS < places + fuel) :
    Visits (walkFrom src endian base vocab fuel) places := by
  induction fuel generalizing places with
  | zero =>
    intro at' depth walk h hdepth
    have hplaces := h.2
    have hcapped := h.1.capped
    omega
  | succ fuel ih =>
    intro at' depth walk h hdepth
    unfold walkFrom
    split
    · exact Meets.pure fun _ _ => h
    rename_i hopen
    have hthere := h.visit hopen
    have hless : ∀ {walk : Walk}, Walk.Reached (places + 1) walk → Walk.Reached places walk :=
      fun hwalk => ⟨hwalk.1, Nat.le_of_succ_le hwalk.2⟩
    have hdeep : depth ≤ MAX_DEPTH := Nat.le_of_not_lt fun hlt => hopen (Or.inl hlt)
    refine readDirectory_meets.attempt.bind fun dir => Meets.of_pre fun hdir => ?_
    cases dir with
    | none => exact Meets.pure fun _ _ => hless hthere
    | some dir =>
      have hvisit : Visits (walkFrom src endian base vocab fuel) (places + 1) := ih (by omega)
      exact (hvisit.follow hdeep hthere hbase (hdir dir rfl).2).weaken fun _ _ => hless

end Visits

end SyncEngine.Thumb
