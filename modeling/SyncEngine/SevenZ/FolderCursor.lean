import Mathlib.Data.List.TakeDrop

/-! # Reading a 7z folder's entries

An entry behind the last one read in the same folder is decoded on from there, any other
opens its folder afresh. What a folder's coders decode to is taken as given. Each read of
them hands over the next bytes, as many as it likes of those asked for, or fails and takes
none.
-/

namespace SyncEngine.SevenZ

open List

abbrev Bytes := List UInt8

inductive IoError where
  | interrupted
  | other
  deriving DecidableEq

inductive SevenZError where
  | corrupt (what : String)
  | folderEndsEarly
  | read (error : IoError)
  | unopened
  deriving DecidableEq

/-- How a read goes: with so many bytes at most, or with an error. -/
abbrev Reply := Except IoError Nat

/-- A folder's reader, and how many bytes it has handed over. -/
structure Reader where
  unpacked : Bytes
  pos : Nat

def Reader.read (reader : Reader) (want : Nat) : Reply → Except IoError Bytes × Reader
  | .ok n =>
    let bytes := (reader.unpacked.drop reader.pos).take (min n want)
    (.ok bytes, { reader with pos := reader.pos + bytes.length })
  | .error error => (.error error, reader)

def DEFAULT_BUF_SIZE : Nat := 8 * 1024

/-- Copy up to so many bytes into a sink. An interrupted read is made again, and a read there is
no reply for fails. -/
def Reader.copy (reader : Reader) (limit copied : Nat) : List Reply → Except IoError Nat × Reader
  | [] => (if limit ≤ copied then .ok copied else .error .other, reader)
  | reply :: replies =>
    if limit ≤ copied then (.ok copied, reader)
    else
      match reader.read (min DEFAULT_BUF_SIZE (limit - copied)) reply with
      | (.ok [], reader) => (.ok copied, reader)
      | (.ok (byte :: bytes), reader) => reader.copy limit (copied + (byte :: bytes).length) replies
      | (.error .interrupted, reader) => reader.copy limit copied replies
      | (.error .other, reader) => (.error .other, reader)

structure StreamRef where
  folder : Nat
  offset : Nat
  crc : Option UInt32

structure SevenZEntry where
  size : Nat
  stream : Option StreamRef

/-- The folder a cursor reads, and how far into its data the reader is said to be. -/
structure OpenFolder where
  folder : Nat
  reader : Reader
  reached : Nat

structure FolderCursor where
  opened : Option OpenFolder

/-- One entry's data, with the bytes its CRC-32 was updated with. -/
structure EntryData where
  size : Nat
  expectedCrc : Option UInt32
  crc : Bytes
  read : Nat
  checked : Bool

/-- The folder at hand, where the stream lies ahead in it. -/
def FolderCursor.ahead (cursor : FolderCursor) (stream : StreamRef) : Option OpenFolder :=
  cursor.opened.filter fun opened => opened.folder == stream.folder && opened.reached ≤ stream.offset

/-- Open an entry. A folder that is opened afresh can fail to. -/
def FolderCursor.openEntry (unpacked : Nat → Bytes) (cursor : FolderCursor) (entry : SevenZEntry)
    (folderOpens : Except SevenZError Unit) (replies : List Reply) : Except SevenZError EntryData × FolderCursor :=
  match entry.stream with
  | none => (.error (.corrupt "a 7z entry without data"), cursor)
  | some stream =>
    match (cursor.ahead stream).map .ok |>.getD (folderOpens.map fun _ => ⟨stream.folder, ⟨unpacked stream.folder, 0⟩, 0⟩) with
    | .error error => (.error error, ⟨none⟩)
    | .ok opened =>
      let skip := stream.offset - opened.reached
      match opened.reader.copy skip 0 replies with
      | (.error error, reader) => (.error (.read error), ⟨some { opened with reader }⟩)
      | (.ok skipped, reader) =>
        let cursor : FolderCursor := ⟨some { opened with reader, reached := opened.reached + skipped }⟩
        if skipped = skip then (.ok ⟨entry.size, stream.crc, [], 0, false⟩, cursor)
        else (.error .folderEndsEarly, cursor)

def EntryData.readInto (crc32 : Bytes → UInt32) (data : EntryData) (opened : OpenFolder) (len : Nat) (reply : Reply) :
    Except SevenZError Bytes × EntryData × OpenFolder :=
  let want := min len (data.size - data.read)
  if len = 0 then (.ok [], data, opened)
  else if want = 0 then
    if !data.checked && data.expectedCrc.any (· != crc32 data.crc) then
      (.error (.corrupt "a 7z entry's CRC-32 does not match"), { data with checked := true }, opened)
    else (.ok [], { data with checked := true }, opened)
  else
    match opened.reader.read want reply with
    | (.error error, reader) => (.error (.read error), data, { opened with reader })
    | (.ok [], reader) => (.error .folderEndsEarly, data, { opened with reader })
    | (.ok (byte :: bytes), reader) =>
      (.ok (byte :: bytes),
        { data with crc := data.crc ++ byte :: bytes, read := data.read + (byte :: bytes).length },
        { opened with reader, reached := opened.reached + (byte :: bytes).length })

/-- An entry being read, what was handed out of it, and whether a read came to its end. -/
structure Reading where
  entry : SevenZEntry
  stream : StreamRef
  data : EntryData
  handed : Bytes
  ended : Bool

/-- A cursor, the entry read from it, and how many bytes failed skips took from the folder's reader. -/
structure Watched where
  cursor : FolderCursor
  reading : Option Reading
  lost : Nat

inductive Event where
  | openEntry (entry : SevenZEntry) (folderOpens : Except SevenZError Unit) (replies : List Reply)
  | read (len : Nat) (reply : Reply)

namespace Watched

def start : Watched := ⟨⟨none⟩, none, 0⟩

/-- Bytes a skip takes from the reader and fails. -/
def lostBy (unpacked : Nat → Bytes) (w : Watched) (stream : StreamRef) (replies : List Reply) : Nat :=
  let opened := (w.cursor.ahead stream).getD ⟨stream.folder, ⟨unpacked stream.folder, 0⟩, 0⟩
  match opened.reader.copy (stream.offset - opened.reached) 0 replies with
  | (.error _, reader) => reader.pos - opened.reader.pos
  | (.ok _, _) => 0

def step (unpacked : Nat → Bytes) (crc32 : Bytes → UInt32) (w : Watched) : Event → Watched
  | .openEntry entry folderOpens replies =>
    let (answer, cursor) := w.cursor.openEntry unpacked entry folderOpens replies
    match entry.stream with
    | none => { w with cursor, reading := none }
    | some stream =>
      { cursor
        reading := answer.toOption.map fun data => ⟨entry, stream, data, [], false⟩
        lost := (if (w.cursor.ahead stream).isSome then w.lost else 0) + w.lostBy unpacked stream replies }
  | .read len reply =>
    match w.reading, w.cursor.opened with
    | some reading, some opened =>
      let (answer, data, opened) := reading.data.readInto crc32 opened len reply
      let bytes := answer.toOption.getD []
      let ends := decide (len ≠ 0) && answer.toOption.any List.isEmpty
      { w with
        cursor := ⟨some opened⟩
        reading := some { reading with data, handed := reading.handed ++ bytes, ended := reading.ended || ends } }
    | _, _ => w

end Watched

inductive Reached (unpacked : Nat → Bytes) (crc32 : Bytes → UInt32) (allowed : Watched → Event → Prop) : Watched → Prop
  | start : Reached unpacked crc32 allowed .start
  | step {w : Watched} {event : Event} : Reached unpacked crc32 allowed w → allowed w event →
      Reached unpacked crc32 allowed (w.step unpacked crc32 event)

/-- Every byte handed out is the entry's own, and who read to the end has all of them. -/
def Watched.Right (unpacked : Nat → Bytes) (crc32 : Bytes → UInt32) (w : Watched) : Prop :=
  ∀ reading, w.reading = some reading →
    (∀ i byte, reading.handed[i]? = some byte →
      (unpacked reading.stream.folder)[reading.stream.offset + i]? = some byte) ∧
    (reading.ended = true → reading.handed.length = reading.entry.size ∧
      ∀ expected, reading.stream.crc = some expected → crc32 reading.handed = expected)

def EntryData.Matches (crc32 : Bytes → UInt32) (data : EntryData) : Prop :=
  ∀ expected, data.expectedCrc = some expected → crc32 data.crc = expected

/-- An open does not go on with a reader a failed skip took bytes from, and nothing is read on
after its CRC-32 was told not to match. -/
def Watched.Meets (crc32 : Bytes → UInt32) (w : Watched) : Event → Prop
  | .openEntry entry _ _ => ∀ stream, entry.stream = some stream → (w.cursor.ahead stream).isSome = true → w.lost = 0
  | .read _ _ => ∀ reading, w.reading = some reading → reading.data.checked = true → reading.data.Matches crc32

/-! ## What is read is the entry's own -/

section Reads

variable {reader after : Reader} {unpacked : Nat → Bytes} {crc32 : Bytes → UInt32} {stream : StreamRef}
  {opened : OpenFolder} {w : Watched}

theorem Reader.copy_spec (reader : Reader) (limit copied : Nat) (replies : List Reply) :
    (reader.copy limit copied replies).2.unpacked = reader.unpacked ∧
    reader.pos ≤ (reader.copy limit copied replies).2.pos ∧
    ∀ n, (reader.copy limit copied replies).1 = .ok n →
      (reader.copy limit copied replies).2.pos + copied = reader.pos + n := by
  induction replies generalizing reader copied with
  | nil =>
    unfold copy
    split
    · exact ⟨rfl, Nat.le_refl _, fun n h => by cases h; rfl⟩
    · exact ⟨rfl, Nat.le_refl _, nofun⟩
  | cons reply replies ih =>
    unfold copy
    split
    · exact ⟨rfl, Nat.le_refl _, fun n h => by cases h; rfl⟩
    rcases reply with (_ | _) | n
    · exact ih reader copied
    · exact ⟨rfl, Nat.le_refl _, nofun⟩
    unfold Reader.read
    dsimp only
    generalize (reader.unpacked.drop reader.pos).take (min n (min DEFAULT_BUF_SIZE (limit - copied))) = bytes
    cases bytes with
    | nil => exact ⟨rfl, Nat.le_refl _, fun n h => by cases h; rfl⟩
    | cons byte bytes =>
      obtain ⟨hdata, hle, hcounted⟩ :=
        ih { reader with pos := reader.pos + (byte :: bytes).length } (copied + (byte :: bytes).length)
      dsimp only at hle hcounted ⊢
      refine ⟨hdata, Nat.le_trans (Nat.le_add_right _ _) hle, fun n h => ?_⟩
      have := hcounted n h
      omega

theorem append_take_drop {bytes data : Bytes} (h : bytes <+: data) (n : Nat) :
    bytes ++ (data.drop bytes.length).take n <+: data := by
  have htake := prefix_iff_eq_take.mp h
  calc bytes ++ (data.drop bytes.length).take n
      = data.take bytes.length ++ (data.drop bytes.length).take n := congrArg (· ++ _) htake
    _ = data.take (bytes.length + n) := take_add.symm
    _ <+: data := take_prefix _ _

/-- The reader stands behind where it is said to be by what failed skips took. -/
def OpenFolder.Behind (unpacked : Nat → Bytes) (opened : OpenFolder) (lost : Nat) : Prop :=
  opened.reader.unpacked = unpacked opened.folder ∧ opened.reader.pos = opened.reached + lost

/-- What is known of an entry being read, and of the folder it is read from. -/
structure Reading.Whole (unpacked : Nat → Bytes) (crc32 : Bytes → UInt32) (reading : Reading) (opened : OpenFolder) : Prop where
  folder : opened.folder = reading.stream.folder
  reached : opened.reached = reading.stream.offset + reading.data.read
  size : reading.data.size = reading.entry.size
  expected : reading.data.expectedCrc = reading.stream.crc
  crc : reading.data.crc = reading.handed
  length : reading.handed.length = reading.data.read
  within : reading.data.read ≤ reading.data.size
  bytes : reading.handed <+: (unpacked reading.stream.folder).drop reading.stream.offset
  checked : reading.data.checked = true → reading.data.read = reading.data.size
  ended : reading.ended = true → reading.data.checked = true ∧ reading.data.Matches crc32

/-- Every reader stands where it is said to, but for what failed skips took, and the one read from exactly there. -/
structure Watched.Sound (unpacked : Nat → Bytes) (crc32 : Bytes → UInt32) (w : Watched) : Prop where
  opened : ∀ opened, w.cursor.opened = some opened → opened.Behind unpacked w.lost
  reading : ∀ reading, w.reading = some reading →
    ∃ opened, w.cursor.opened = some opened ∧ w.lost = 0 ∧ reading.Whole unpacked crc32 opened

theorem ahead_spec {cursor : FolderCursor} (h : cursor.ahead stream = some opened) :
    cursor.opened = some opened ∧ opened.folder = stream.folder ∧ opened.reached ≤ stream.offset := by
  obtain ⟨hopened, hahead⟩ := Option.filter_eq_some_iff.mp h
  rw [Bool.and_eq_true, beq_iff_eq, decide_eq_true_iff] at hahead
  exact ⟨hopened, hahead⟩

theorem openEntry_spec (cursor : FolderCursor) (entry : SevenZEntry) (folderOpens : Except SevenZError Unit)
    (replies : List Reply) (hstream : entry.stream = some stream) :
    (∃ error, cursor.openEntry unpacked entry folderOpens replies = (.error error, ⟨none⟩)) ∨
    ∃ opened, opened = (cursor.ahead stream).getD ⟨stream.folder, ⟨unpacked stream.folder, 0⟩, 0⟩ ∧
      cursor.openEntry unpacked entry folderOpens replies =
        match opened.reader.copy (stream.offset - opened.reached) 0 replies with
        | (.error error, reader) => (.error (.read error), ⟨some { opened with reader }⟩)
        | (.ok skipped, reader) =>
          if skipped = stream.offset - opened.reached then
            (.ok ⟨entry.size, stream.crc, [], 0, false⟩, ⟨some { opened with reader, reached := opened.reached + skipped }⟩)
          else (.error .folderEndsEarly, ⟨some { opened with reader, reached := opened.reached + skipped }⟩) := by
  unfold FolderCursor.openEntry
  rw [hstream]
  dsimp only
  rcases hahead : cursor.ahead stream with _ | opened
  · cases folderOpens with
    | error error => exact .inl ⟨error, rfl⟩
    | ok => exact .inr ⟨_, rfl, rfl⟩
  · exact .inr ⟨_, rfl, rfl⟩

/-- Opening an entry loses what a failed skip took, and otherwise the reader is where it is said to be. -/
theorem Watched.Sound.openEntry (h : w.Sound unpacked crc32) {entry : SevenZEntry}
    {folderOpens : Except SevenZError Unit} {replies : List Reply}
    (hmeets : w.Meets crc32 (.openEntry entry folderOpens replies)) :
    (w.step unpacked crc32 (.openEntry entry folderOpens replies)).Sound unpacked crc32 := by
  unfold step
  dsimp only
  rcases hstream : entry.stream with _ | stream
  · have hsame : w.cursor.openEntry unpacked entry folderOpens replies =
        (.error (.corrupt "a 7z entry without data"), w.cursor) := by
      unfold FolderCursor.openEntry
      rw [hstream]
    rw [hsame]
    exact ⟨h.opened, nofun⟩
  have hfrom : ((w.cursor.ahead stream).getD ⟨stream.folder, ⟨unpacked stream.folder, 0⟩, 0⟩).Behind unpacked
        (if (w.cursor.ahead stream).isSome then w.lost else 0) ∧
      ((w.cursor.ahead stream).getD ⟨stream.folder, ⟨unpacked stream.folder, 0⟩, 0⟩).folder = stream.folder ∧
      ((w.cursor.ahead stream).getD ⟨stream.folder, ⟨unpacked stream.folder, 0⟩, 0⟩).reached ≤ stream.offset ∧
      (if (w.cursor.ahead stream).isSome then w.lost else 0) = 0 := by
    rcases hahead : w.cursor.ahead stream with _ | opened
    · exact ⟨⟨rfl, rfl⟩, rfl, Nat.zero_le _, rfl⟩
    have hnone := hmeets stream hstream
    rw [hahead] at hnone
    exact ⟨h.opened opened (ahead_spec hahead).1, (ahead_spec hahead).2.1, (ahead_spec hahead).2.2, hnone rfl⟩
  rcases openEntry_spec w.cursor entry folderOpens replies hstream with ⟨error, hopen⟩ | ⟨opened, rfl, hopen⟩
  · rw [hopen]
    exact ⟨nofun, nofun⟩
  rw [hopen]
  unfold lostBy
  dsimp only
  generalize (w.cursor.ahead stream).getD ⟨stream.folder, ⟨unpacked stream.folder, 0⟩, 0⟩ = opened at hfrom ⊢
  obtain ⟨⟨hdata, hpos⟩, hfolder, hreached, hnone⟩ := hfrom
  obtain ⟨hsame, hle, hcounted⟩ := opened.reader.copy_spec (stream.offset - opened.reached) 0 replies
  rw [hnone] at hpos ⊢
  rcases hcopy : opened.reader.copy (stream.offset - opened.reached) 0 replies with ⟨error | skipped, reader⟩
  · rw [hcopy] at hsame hle
    dsimp only at hsame hle ⊢
    refine ⟨fun other hother => ?_, nofun⟩
    cases hother
    refine ⟨hsame.trans hdata, ?_⟩
    dsimp only
    omega
  rw [hcopy] at hsame hcounted
  dsimp only at hsame hcounted ⊢
  have hpos' : reader.pos = opened.reached + skipped := by
    have := hcounted skipped rfl
    omega
  split
  · rename_i hskipped
    refine ⟨fun other hother => ?_, fun reading hreading => ?_⟩
    · cases hother
      exact ⟨hsame.trans hdata, hpos'⟩
    cases hreading
    refine ⟨_, rfl, rfl, hfolder, ?_, rfl, rfl, rfl, rfl, Nat.zero_le _, nil_prefix, nofun, nofun⟩
    dsimp only
    omega
  refine ⟨fun other hother => ?_, nofun⟩
  cases hother
  exact ⟨hsame.trans hdata, hpos'⟩

theorem Watched.Sound.read (h : w.Sound unpacked crc32) {len : Nat} {reply : Reply} (hmeets : w.Meets crc32 (.read len reply)) :
    (w.step unpacked crc32 (.read len reply)).Sound unpacked crc32 := by
  unfold step
  rcases hreading : w.reading with _ | reading
  · exact h
  obtain ⟨opened, hopened, hnone, hwhole⟩ := h.reading reading hreading
  obtain ⟨hdata, hpos⟩ := h.opened opened hopened
  rw [hopened]
  have hread : ∀ {opened' : OpenFolder} {reading' : Reading}, opened'.Behind unpacked w.lost →
      reading'.Whole unpacked crc32 opened' →
      Watched.Sound unpacked crc32 { w with cursor := ⟨some opened'⟩, reading := some reading' } := by
    intro opened' reading' hbehind hwhole
    exact ⟨fun _ h => by cases h; exact hbehind, fun _ h => by cases h; exact ⟨_, rfl, hnone, hwhole⟩⟩
  unfold EntryData.readInto
  dsimp only
  split
  · rename_i hlen
    refine hread ⟨hdata, hpos⟩ { hwhole with crc := ?_, length := ?_, bytes := ?_, ended := ?_ }
    · exact hwhole.crc.trans (append_nil _).symm
    · exact (congrArg List.length (append_nil _)).trans hwhole.length
    · exact (append_nil reading.handed).symm ▸ hwhole.bytes
    intro h
    rw [hlen] at h
    exact hwhole.ended ((Bool.or_false _).symm.trans h)
  rename_i hlen
  split
  · rename_i hwant
    have hall : reading.data.read = reading.data.size := by
      have := hwhole.within
      omega
    have hchecked : ∀ {ended : Bool}, (ended → reading.data.Matches crc32) →
        Reading.Whole unpacked crc32
          { reading with data := { reading.data with checked := true }, handed := reading.handed ++ [], ended } opened := by
      intro ended hmatches
      rw [append_nil]
      exact { hwhole with checked := fun _ => hall, ended := fun h => ⟨rfl, hmatches h⟩ }
    split
    · exact hread ⟨hdata, hpos⟩ (hchecked fun h =>
        (hwhole.ended ((Bool.or_false _).symm.trans ((congrArg _ (Bool.and_false _)).symm.trans h))).2)
    rename_i hmatch
    refine hread ⟨hdata, hpos⟩ (hchecked fun _ => ?_)
    by_cases hbefore : reading.data.checked
    · exact hmeets reading hreading hbefore
    intro expected hexpected
    rw [Bool.not_eq_true] at hbefore
    rw [hbefore, hexpected, Option.any_some] at hmatch
    exact (by simpa using hmatch : expected = crc32 reading.data.crc).symm
  rename_i hwant
  have hended : reading.ended = false := by
    rw [Bool.eq_false_iff]
    intro hended
    have := hwhole.checked (hwhole.ended hended).1
    omega
  have hfails : ∀ {ends : Bool}, ends = false →
      Reading.Whole unpacked crc32
        { reading with handed := reading.handed ++ [], ended := reading.ended || (len ≠ 0 && ends) } opened := by
    rintro _ rfl
    rw [Bool.and_false, Bool.or_false, append_nil]
    exact hwhole
  unfold Reader.read
  rcases reply with error | n
  · exact hread ⟨hdata, hpos⟩ (hfails rfl)
  dsimp only
  have hnext := append_take_drop hwhole.bytes (min n (min len (reading.data.size - reading.data.read)))
  rw [hwhole.length, drop_drop, ← hwhole.reached, ← hwhole.folder, ← hdata, ← Nat.add_zero opened.reached,
    ← hnone, ← hpos] at hnext
  have hlength : ((opened.reader.unpacked.drop opened.reader.pos).take
      (min n (min len (reading.data.size - reading.data.read)))).length ≤ reading.data.size - reading.data.read :=
    Nat.le_trans (length_take_le _ _) (Nat.le_trans (Nat.min_le_right _ _) (Nat.min_le_right _ _))
  generalize (opened.reader.unpacked.drop opened.reader.pos).take
    (min n (min len (reading.data.size - reading.data.read))) = bytes at hnext hlength ⊢
  cases bytes with
  | nil => exact hread ⟨hdata, hpos⟩ (hfails rfl)
  | cons byte bytes =>
    have hwithin := hwhole.within
    refine hread ⟨hdata, ?_⟩
      ⟨hwhole.folder, ?_, hwhole.size, hwhole.expected, ?_, ?_, ?_, ?_, fun h => ?_, fun h => ?_⟩
    · dsimp only
      omega
    · have := hwhole.reached
      dsimp only
      omega
    · exact congrArg (· ++ byte :: bytes) hwhole.crc
    · exact length_append.trans (congrArg (· + (byte :: bytes).length) hwhole.length)
    · dsimp only
      omega
    · rw [hdata, hwhole.folder] at hnext
      exact hnext
    · have := hwhole.checked h
      omega
    have hends : (reading.ended || (len ≠ 0 && false)) := h
    rw [Bool.and_false, Bool.or_false, hended] at hends
    exact nomatch hends

theorem Watched.Sound.right (h : w.Sound unpacked crc32) : w.Right unpacked crc32 := by
  intro reading hreading
  obtain ⟨opened, -, -, hwhole⟩ := h.reading reading hreading
  refine ⟨fun i byte hbyte => ?_, fun hended => ?_⟩
  · obtain ⟨rest, hrest⟩ := hwhole.bytes
    rw [← getElem?_drop, ← hrest]
    exact List.getElem?_append_left (List.getElem?_eq_some_iff.mp hbyte).1 |>.trans hbyte
  obtain ⟨hchecked, hmatches⟩ := hwhole.ended hended
  refine ⟨hwhole.length.trans ((hwhole.checked hchecked).trans hwhole.size), fun expected hexpected => ?_⟩
  rw [← hwhole.crc]
  exact hmatches expected (hwhole.expected.trans hexpected)

/-- Where no open goes on behind a failed skip, an entry's bytes are its own. -/
theorem reached_right (h : Reached unpacked crc32 (Watched.Meets crc32) w) : w.Right unpacked crc32 := by
  refine Watched.Sound.right ?_
  induction h with
  | start => exact ⟨nofun, nofun⟩
  | @step w event _ hmeets ih =>
    cases event with
    | openEntry entry folderOpens replies => exact ih.openEntry hmeets
    | read len reply => exact ih.read hmeets

end Reads

def sixBytes : Nat → Bytes := fun _ => [1, 2, 3, 4, 5, 6]

def crcOfLastTwo (bytes : Bytes) : UInt32 := if bytes = [5, 6] then 3586999183 else 0

def lastTwo (crc : UInt32) : SevenZEntry := ⟨2, some ⟨0, 4, some crc⟩⟩

def runOf (events : List Event) : Watched := events.foldl (Watched.step sixBytes crcOfLastTwo) .start

theorem reached_runOf (events : List Event) : Reached sixBytes crcOfLastTwo (fun _ _ => True) (runOf events) := by
  have hrun : ∀ w, Reached sixBytes crcOfLastTwo (fun _ _ => True) w →
      Reached sixBytes crcOfLastTwo (fun _ _ => True) (events.foldl (Watched.step sixBytes crcOfLastTwo) w) := by
    induction events with
    | nil => exact fun _ h => h
    | cons event events ih => exact fun w h => ih _ (.step h trivial)
  exact hrun _ .start

theorem reached_right_lastTwo : (runOf [.openEntry (lastTwo 3586999183) (.ok ()) [.ok 3, .ok 3], .read 8 (.ok 2),
    .read 8 (.ok 0)]).Right sixBytes crcOfLastTwo := by
  unfold runOf
  rw [foldl_cons, foldl_cons, foldl_cons, foldl_nil]
  refine reached_right (.step (.step (.step .start ?_) ?_) ?_)
  · exact fun _ _ h => nomatch h
  all_goals
    intro reading h hchecked
    cases h
    exact nomatch hchecked

/-- A skip that takes a byte and fails leaves the next open a byte behind, and who reads on
after the CRC-32 did not match is told the end of it. -/
theorem not_reached_right :
    (∃ w, Reached sixBytes crcOfLastTwo (fun _ _ => True) w ∧ w.reading.map Reading.handed = some [6] ∧
      ¬ w.Right sixBytes crcOfLastTwo) ∧
    ∃ w, Reached sixBytes crcOfLastTwo (fun _ _ => True) w ∧ w.reading.map Reading.handed = some [5, 6] ∧
      ¬ w.Right sixBytes crcOfLastTwo := by
  refine ⟨⟨_, reached_runOf [.openEntry (lastTwo 3586999183) (.ok ()) [.ok 1, .error .other],
      .openEntry (lastTwo 3586999183) (.ok ()) [.ok 4], .read 8 (.ok 1)], rfl, fun h => ?_⟩,
    _, reached_runOf [.openEntry (lastTwo 0) (.ok ()) [.ok 4], .read 8 (.ok 2), .read 8 (.ok 0), .read 8 (.ok 0)],
      rfl, fun h => ?_⟩
  · exact absurd ((h _ rfl).1 0 6 rfl) (by decide)
  · exact absurd (((h _ rfl).2 rfl).2 0 rfl) (by decide)

end SyncEngine.SevenZ
