import SyncEngine.Thumb.RawWalk
import SyncEngine.Thumb.JpegHead

/-! # The preview of a RAW container

The walk's candidates are believed once their bytes have been looked at. Believing one
reads its head, and more of it while its frame has not been reached.
-/

namespace SyncEngine.Thumb

open Collections Checked List

inductive Preview where
  /-- A JPEG byte range, described by its own leading segments. -/
  | jpeg (off len : Nat) (head : JpegHead)
  /-- A single uncompressed 8-bit RGB strip. -/
  | rgb (off w h : Nat)
  deriving DecidableEq, Repr

namespace Preview

def dims : Preview → Nat × Nat
  | jpeg _ _ head => (head.w, head.h)
  | rgb _ w h => (w, h)

def area (preview : Preview) : Nat := preview.dims.1 * preview.dims.2

def isJpeg : Preview → Bool
  | jpeg .. => true
  | rgb .. => false

end Preview

def MAX_SNIFF_BYTES : Nat := 1024 * 1024

/-- How much of a candidate is read first, and how fast that grows. -/
structure SniffSizes where
  bytes : Nat
  growth : Nat
  bytes_pos : 0 < bytes
  bytes_le : bytes ≤ MAX_SNIFF_BYTES
  growth_gt : 1 < growth
  growth_fits : MAX_SNIFF_BYTES * growth < 2 ^ 64

def SniffSizes.source : SniffSizes := ⟨4 * 1024, 8, by decide, by decide, by decide, by decide⟩

section Scanning

variable {σ : Type} (src : ByteSource σ) (sizes : SniffSizes)

abbrev SniffWindow : Type := { window : Nat // 0 < window ∧ window ≤ MAX_SNIFF_BYTES }

def SniffSizes.next (window : SniffWindow) : SniffWindow :=
  ⟨min (window.val * sizes.growth) MAX_SNIFF_BYTES, by
    have hpos := Nat.mul_pos window.property.1 (Nat.zero_lt_of_lt sizes.growth_gt)
    exact ⟨Nat.lt_min.mpr ⟨hpos, by decide⟩, Nat.min_le_right _ _⟩⟩

theorem SniffSizes.lt_next {window : SniffWindow} (h : window.val < MAX_SNIFF_BYTES) :
    window.val < (sizes.next window).val := by
  refine Nat.lt_min.mpr ⟨?_, h⟩
  exact (Nat.lt_mul_iff_one_lt_right window.property.1).mpr sizes.growth_gt

/-- The frame of the stretch, by reads of growing windows. -/
def sniff (off len : Nat) (window : SniffWindow) : Checked Unit σ Preview := do
  let bytes ← src.readExactAt off (min len window.val)
  if ¬ [0xFF, 0xD8] <+: bytes then .fail ()
  else
    match jpegSof bytes with
    | .done head => return .jpeg off len head
    | .failed .malformed => .fail ()
    | .faulted fault => .fault fault
    | .failed .truncated =>
      if _hlast : len ≤ window.val ∨ MAX_SNIFF_BYTES ≤ window.val then .fail ()
      else do
        let _ ← Checked.mulWithin 64 window.val sizes.growth
        sniff off len (sizes.next window)
termination_by MAX_SNIFF_BYTES - window.val
decreasing_by
  have hlt := sizes.lt_next (Nat.lt_of_not_le fun hle => _hlast (Or.inr hle))
  have hle := (sizes.next window).property.2
  omega

/-- A byte range believed to be a decodable JPEG, measured by its own frame. -/
def jpegWindow (off len : Nat) : Checked Unit σ Preview :=
  if len < MIN_PREVIEW_BYTES then .fail ()
  else if 2 ^ 64 ≤ off + len then .fail ()
  else if src.len < off + len then .fail ()
  else sniff src sizes off len ⟨sizes.bytes, sizes.bytes_pos, sizes.bytes_le⟩

/-- Turns a claimed candidate into one whose bytes have been seen, or nothing. -/
def believe (candidate : Candidate) : Checked Unit σ Preview :=
  if 2 ^ 64 ≤ candidate.off + candidate.len then .fail ()
  else if candidate.len < MIN_PREVIEW_BYTES ∨ src.len < candidate.off + candidate.len then .fail ()
  else do
    let jpeg ← Checked.attempt (jpegWindow src sizes candidate.off candidate.len)
    match jpeg with
    | some jpeg => return jpeg
    | none =>
      if candidate.uncompressed then return .rgb candidate.off candidate.w candidate.h else .fail ()

/-- Olympus hides its large preview behind a maker note, of two header layouts. -/
def walkOlympus (fileEndian : Endian) (at' len : Nat) (walk : Walk) : Checked Unit σ Walk := do
  let head ← Checked.attempt (src.readExactAt at' (min 12 len))
  match head with
  | none => return walk
  | some head =>
    if [0x4F, 0x4C, 0x59, 0x4D, 0x50, 0x55, 0x53, 0] <+: head then
      match byteOrder ((head.drop 8).take 2) with
      | none => return walk
      | some endian => do
        let table ← .addWithin 64 at' 12
        walkFrom src endian at' .maker (MAX_IFDS + 1) table 1 walk
    else if [0x4F, 0x4C, 0x59, 0x4D, 0x50, 0] <+: head then do
      let table ← .addWithin 64 at' 8
      walkFrom src fileEndian 0 .maker (MAX_IFDS + 1) table 1 walk
    else return walk

/-- Walk the whole container: the file's own directories, then the maker note. -/
def walkContainer : Checked Unit σ Walk := do
  let header ← src.readExactAt 0 8
  let endian ← .expect () (byteOrder header)
  let ifd0 ← .expect () (u32At header 4 endian)
  let walk ← walkFrom src endian 0 .tiff (MAX_IFDS + 1) ifd0 0 ⟨[], [], none, none⟩
  match walk.makerNote with
  | some (at', len) => walkOlympus src endian at' len walk
  | none => return walk

structure Index where
  orientation : Nat
  /-- The largest believable preview of either kind. -/
  preview : Option Preview
  jpeg : Option Preview

def maxByArea (previews : List Preview) : Option Preview :=
  previews.foldl (fun best preview =>
    match best with
    | some largest => if largest.area ≤ preview.area then some preview else some largest
    | none => some preview) none

def believeAll (candidates : List Candidate) : Checked Empty σ (List Preview) :=
  Checked.foldWith (fun believed candidate => do
    let preview ← Checked.attempt (believe src sizes candidate)
    return believed ++ preview.toList) candidates []

/-- Walks the container and returns the best preview it can prove is really there. -/
def scan : Checked Empty σ Index := do
  let walk ← Checked.attempt (walkContainer src)
  match walk with
  | none => return { orientation := 1, preview := none, jpeg := none }
  | some walk => do
    let believed ← believeAll src sizes walk.candidates
    return { orientation := walk.orientation.getD 1,
             preview := maxByArea believed,
             jpeg := maxByArea (believed.filter Preview.isJpeg) }

end Scanning

/-! ## What a preview points at -/

section Safe

variable {σ : Type} {src : ByteSource σ} {sizes : SniffSizes}

/-- A preview lies within the source, and a JPEG's head is what its leading bytes say. -/
def Preview.Points (src : ByteSource σ) : Preview → Prop
  | jpeg off len head =>
    off + len ≤ src.len ∧ [0xFF, 0xD8] <+: src.range off len ∧
      ∃ segments sof, head.Describes (src.range off (min len MAX_SNIFF_BYTES)) segments sof
  | rgb off w h => off + 3 * (w * h) ≤ src.len

/-- A JPEG whose head is the one the longest window shows. -/
def Preview.Sniffed (src : ByteSource σ) (off len : Nat) (preview : Preview) : Prop :=
  ∃ head, preview = jpeg off len head ∧ [0xFF, 0xD8] <+: src.range off len ∧
    jpegSof (src.range off (min len MAX_SNIFF_BYTES)) = .done head

theorem range_front (off : Nat) {len more : Nat} (h : len ≤ more) : src.range off len <+: src.range off more :=
  (take_prefix_take_left (l := src.bytes.drop off) h)

theorem sniff_meets {off len : Nat} (window : SniffWindow) :
    (sniff src sizes off len window).Meets (fun _ => True) fun preview _ => preview.Sniffed src off len := by
  induction hleft : MAX_SNIFF_BYTES - window.val using Nat.strong_induction_on generalizing window with
  | _ left ih =>
    unfold sniff
    refine src.readExactAt_meets.bind fun bytes => Meets.of_pre fun hbytes => ?_
    obtain ⟨-, hin, rfl⟩ := hbytes
    have hfront : src.range off (min len window.val) <+: src.range off (min len MAX_SNIFF_BYTES) :=
      range_front off (by omega)
    split
    · exact Meets.fail
    rename_i hsoi
    split
    · rename_i head hhead
      refine Meets.pure fun _ _ => ⟨head, rfl, ?_, ?_⟩
      · exact (not_not.mp hsoi).trans (range_front off (min_le_left _ _))
      · rw [jpegSof_of_front hfront (by rw [hhead]; exact nofun), hhead]
    · exact Meets.fail
    · rename_i fault hfault
      refine (jpegSof_not_faulted ?_ fault hfault).elim
      rw [ByteSource.length_range hin]
      have hwindow := le_trans (min_le_right len window.val) window.property.2
      exact lt_of_le_of_lt hwindow (by decide)
    split
    · exact Meets.fail
    rename_i hgrow
    rw [not_or] at hgrow
    have hlt := sizes.lt_next (Nat.lt_of_not_le hgrow.2)
    have hle := (sizes.next window).property.2
    have hsum : window.val * sizes.growth < 2 ^ 64 :=
      lt_of_le_of_lt (Nat.mul_le_mul_right _ window.property.2) sizes.growth_fits
    refine Meets.mul hsum (ih _ ?_ _ rfl)
    omega

theorem jpegWindow_meets {off len : Nat} :
    (jpegWindow src sizes off len).Meets (fun _ => True) fun preview _ =>
      off + len ≤ src.len ∧ preview.Sniffed src off len := by
  unfold jpegWindow
  split
  · exact Meets.fail
  split
  · exact Meets.fail
  split
  · exact Meets.fail
  rename_i hend
  exact (sniff_meets _).weaken fun _ _ hsniffed => ⟨Nat.le_of_not_lt hend, hsniffed⟩

theorem Preview.Sniffed.points {off len : Nat} {preview : Preview} (h : preview.Sniffed src off len)
    (hend : off + len ≤ src.len) : preview.Points src := by
  obtain ⟨head, rfl, hsoi, hhead⟩ := h
  exact ⟨hend, hsoi, jpegSof_describes hhead⟩

theorem believe_meets {candidate : Candidate}
    (hstrip : candidate.uncompressed → candidate.len = 3 * (candidate.w * candidate.h)) :
    (believe src sizes candidate).Meets (fun _ => True) fun preview _ => preview.Points src := by
  unfold believe
  split
  · exact Meets.fail
  split
  · exact Meets.fail
  rename_i hend
  rw [not_or] at hend
  refine jpegWindow_meets.attempt.bind fun jpeg => Meets.of_pre fun hjpeg => ?_
  cases jpeg with
  | some jpeg =>
    obtain ⟨hin, hsniffed⟩ := hjpeg jpeg rfl
    exact Meets.pure fun _ _ => hsniffed.points hin
  | none =>
    dsimp only
    split
    · rename_i huncompressed
      have hin := Nat.le_of_not_lt hend.2
      rw [hstrip huncompressed] at hin
      exact Meets.pure fun _ _ => hin
    · exact Meets.fail

theorem believeAll_meets {candidates : List Candidate}
    (hstrips : ∀ c ∈ candidates, c.uncompressed → c.len = 3 * (c.w * c.h)) :
    (believeAll src sizes candidates).Meets (fun _ => True) fun believed _ =>
      ∀ preview ∈ believed, preview.Points src := by
  unfold believeAll
  refine Meets.mono (Meets.foldWith (fun believed _ => ∀ preview ∈ believed, preview.Points src)
    candidates (fun candidate hmem believed => Meets.of_pre fun hbelieved => ?_) [])
    (fun _ _ _ hnil => nomatch hnil) fun _ _ h => h
  refine (believe_meets (hstrips candidate hmem)).attempt.bind fun found => Meets.pure fun _ hfound => ?_
  intro preview hpreview
  rcases mem_append.mp hpreview with hpreview | hpreview
  · exact hbelieved preview hpreview
  · exact hfound preview (Option.mem_toList.mp hpreview)

theorem walkOlympus_meets {fileEndian : Endian} {at' len : Nat} {walk : Walk} (h : walk.Sound) (hat : at' < 2 ^ 32) :
    (walkOlympus src fileEndian at' len walk).Meets (fun _ => True) fun walk _ => walk.Sound := by
  have hvisits : ∀ endian base table, (walkFrom src endian base .maker (MAX_IFDS + 1) table 1 walk).Meets
      (fun _ => True) fun walk _ => walk.Sound := by
    intro endian base table
    have hvisit : Visits (walkFrom src endian base .maker (MAX_IFDS + 1)) 0 := by
      refine walkFrom_visits ?_ (by omega)
      exact nofun
    exact (hvisit table 1 walk ⟨h, Nat.zero_le _⟩ (by decide)).weaken fun _ _ hreached => hreached.1
  unfold walkOlympus
  refine src.readExactAt_meets.attempt.bind fun head => ?_
  refine Meets.mono ?_ (fun _ _ => trivial) fun _ _ h => h
  cases head with
  | none => exact Meets.pure fun _ _ => h
  | some head =>
    dsimp only
    split
    · split
      · exact Meets.pure fun _ _ => h
      · exact Meets.add (by omega) (hvisits _ _ _)
    split
    · exact Meets.add (by omega) (hvisits _ _ _)
    · exact Meets.pure fun _ _ => h

theorem walkContainer_meets :
    (walkContainer src).Meets (fun _ => True) fun walk _ => walk.Sound := by
  unfold walkContainer
  refine src.readExactAt_meets.bind fun header => Meets.of_pre fun _ => ?_
  refine Meets.expect fun endian _ => Meets.expect fun ifd0 _ => ?_
  have hvisit : Visits (walkFrom src endian 0 .tiff (MAX_IFDS + 1)) 0 := by
    refine walkFrom_visits ?_ (by omega)
    exact fun _ => rfl
  have hstart : Walk.Reached 0 ⟨[], [], none, none⟩ :=
    ⟨⟨nodup_nil, Nat.zero_le _, (fun _ hc => nomatch hc), (fun _ _ hnone => nomatch hnone)⟩, Nat.zero_le _⟩
  refine (hvisit ifd0 0 _ hstart (by decide)).bind fun walk => Meets.of_pre fun hwalk => ?_
  split
  · rename_i at' len hmaker
    exact walkOlympus_meets hwalk.1 (hwalk.1.maker at' len hmaker)
  · exact Meets.pure fun _ _ => hwalk.1

theorem maxByArea_mem {previews : List Preview} {preview : Preview} (h : maxByArea previews = some preview) :
    preview ∈ previews := by
  suffices hfold : ∀ best, previews.foldl (fun best preview =>
      match best with
      | some largest => if largest.area ≤ preview.area then some preview else some largest
      | none => some preview) best = some preview → best = some preview ∨ preview ∈ previews by
    rcases hfold none h with hnone | hmem
    · exact nomatch hnone
    · exact hmem
  clear h
  induction previews with
  | nil => exact fun best h => Or.inl h
  | cons first previews ih =>
    intro best h
    rw [foldl_cons] at h
    rcases ih _ h with hbest | hmem
    · cases best with
      | none =>
        cases hbest
        exact Or.inr mem_cons_self
      | some largest =>
        dsimp only at hbest
        split at hbest
        · cases hbest
          exact Or.inr mem_cons_self
        · exact Or.inl hbest
    · exact Or.inr (mem_cons_of_mem _ hmem)

theorem scan_meets :
    (scan src sizes).Meets (fun _ => True) fun index _ =>
      ∀ preview, index.preview = some preview ∨ index.jpeg = some preview → preview.Points src := by
  unfold scan
  refine walkContainer_meets.attempt.bind fun walk => Meets.of_pre fun hwalk => ?_
  cases walk with
  | none =>
    refine Meets.pure fun _ _ preview hpreview => ?_
    rcases hpreview with hnone | hnone <;> exact nomatch hnone
  | some walk =>
    refine (believeAll_meets (hwalk walk rfl).strips).bind fun believed => Meets.pure fun _ hbelieved => ?_
    rintro preview (hpreview | hjpeg)
    · exact hbelieved preview (maxByArea_mem hpreview)
    · exact hbelieved preview (mem_filter.mp (maxByArea_mem hjpeg)).1

end Safe

/-- A scan ends without a fault and points only within the source, having visited no
directory twice, and what it says of a JPEG does not depend on how much of it was read. -/
theorem scan_safe {σ : Type} (src : ByteSource σ) (s : σ) :
    (∃ index t, scan src .source s = (.done index, t) ∧
      ∀ preview, index.preview = some preview ∨ index.jpeg = some preview → preview.Points src) ∧
    (∀ walk t, walkContainer src s = (.done walk, t) → walk.visited.Nodup ∧ walk.visited.length ≤ MAX_IFDS) ∧
    ∀ sizes off len, (∀ fault t, jpegWindow src sizes off len s ≠ (.faulted fault, t)) ∧
      ∀ preview t, jpegWindow src sizes off len s = (.done preview, t) →
        ∃ head, preview = .jpeg off len head ∧
          jpegSof (src.range off (min len MAX_SNIFF_BYTES)) = .done head := by
  refine ⟨?_, fun walk t hwalk => ?_, fun sizes off len => ⟨fun fault t hfault => ?_, ?_⟩⟩
  · obtain hdone | ⟨impossible, -⟩ := (@scan_meets σ src .source).ends (s := s) trivial
    · exact hdone
    · exact impossible.elim
  · have hmeets := @walkContainer_meets σ src s trivial
    rw [hwalk] at hmeets
    exact ⟨hmeets.once, hmeets.capped⟩
  · have hmeets := @jpegWindow_meets σ src sizes off len s trivial
    rw [hfault] at hmeets
    exact hmeets
  intro preview t hdone
  have hmeets := @jpegWindow_meets σ src sizes off len s trivial
  rw [hdone] at hmeets
  obtain ⟨-, head, rfl, -, hhead⟩ := hmeets
  exact ⟨head, rfl, hhead⟩

end SyncEngine.Thumb
