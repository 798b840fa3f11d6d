import SyncEngine.Thumb.Source
import Mathlib.Tactic.NormNum

/-! # TIFF directories

The directory tables of camera files, and the orientation an EXIF payload declares. All
offsets and counts are the file's own word for itself.
-/

namespace SyncEngine.Thumb

open Collections Checked List

inductive Endian where
  | little
  | big
  deriving DecidableEq, Repr

def u16Of (endian : Endian) (first second : UInt8) : Nat :=
  match endian with
  | .little => first.toNat + 256 * second.toNat
  | .big => 256 * first.toNat + second.toNat

def u16At (data : List UInt8) (off : Nat) (endian : Endian) : Option Nat :=
  match data[off]?, data[off + 1]? with
  | some first, some second => some (u16Of endian first second)
  | _, _ => none

def u32At (data : List UInt8) (off : Nat) (endian : Endian) : Option Nat :=
  match u16At data off endian, u16At data (off + 2) endian with
  | some first, some second =>
    match endian with
    | .little => some (first + 65536 * second)
    | .big => some (65536 * first + second)
  | _, _ => none

theorem u16Of_lt (endian : Endian) (first second : UInt8) : u16Of endian first second < 2 ^ 16 := by
  have hfirst := first.toNat_lt
  have hsecond := second.toNat_lt
  cases endian <;> dsimp only [u16Of] <;> omega

theorem u16At_lt {data : List UInt8} {off : Nat} {endian : Endian} {n : Nat} (h : u16At data off endian = some n) :
    n < 2 ^ 16 := by
  unfold u16At at h
  split at h
  · cases h
    exact u16Of_lt _ _ _
  · exact nomatch h

theorem u32At_lt {data : List UInt8} {off : Nat} {endian : Endian} {n : Nat} (h : u32At data off endian = some n) :
    n < 2 ^ 32 := by
  unfold u32At at h
  split at h
  · rename_i first second hfirst hsecond
    have hlow := u16At_lt hfirst
    have hhigh := u16At_lt hsecond
    cases endian <;> cases h <;> omega
  · exact nomatch h

/-! ## The orientation of an EXIF payload -/

structure Ifd where
  data : List UInt8
  endian : Endian
  offset : Nat
  entries : Nat
  offset_lt : offset < 2 ^ 32
  entries_lt : entries < 2 ^ 16

namespace Ifd

def entryAt (ifd : Ifd) (i : Nat) : Nat := ifd.offset + 2 + i * 12

/-- A tag's value from the entries at and after the given one, of so many left. -/
def uintValueFrom (ifd : Ifd) (tag : Nat) : (left i : Nat) → Option Nat
  | 0, _ => none
  | left + 1, i =>
    match u16At ifd.data (ifd.entryAt i) ifd.endian with
    | none => none
    | some found =>
      if found ≠ tag then uintValueFrom ifd tag left (i + 1)
      else
        match u16At ifd.data (ifd.entryAt i + 2) ifd.endian, u32At ifd.data (ifd.entryAt i + 4) ifd.endian with
        | some kind, some count =>
          if count ≠ 1 then none
          else if kind = 3 then u16At ifd.data (ifd.entryAt i + 8) ifd.endian
          else if kind = 4 then u32At ifd.data (ifd.entryAt i + 8) ifd.endian
          else none
        | _, _ => none

/-- A tag's value as an unsigned integer, for SHORT and LONG entries whose value fits
inline. -/
def uintValue (ifd : Ifd) (tag : Nat) : Option Nat := ifd.uintValueFrom tag ifd.entries 0

end Ifd

def byteOrder (header : List UInt8) : Option Endian :=
  match header with
  | 0x49 :: 0x49 :: _ => some .little
  | 0x4D :: 0x4D :: _ => some .big
  | _ => none

def tiffIfd0 (exif : List UInt8) : Option Ifd :=
  match byteOrder exif with
  | none => none
  | some endian =>
    if u16At exif 2 endian = some 42 then
      match hoffset : u32At exif 4 endian with
      | none => none
      | some offset =>
        match hentries : u16At exif offset endian with
        | none => none
        | some entries =>
          some ⟨exif, endian, offset, entries, u32At_lt hoffset, u16At_lt hentries⟩
    else none

/-- The EXIF orientation, upright when absent or malformed. -/
def exifOrientation (exif : List UInt8) : Nat :=
  match (tiffIfd0 exif).bind (Ifd.uintValue · 0x0112) with
  | some v => if 1 ≤ v ∧ v ≤ 8 then v else 1
  | none => 1

/-! ## Directory tables -/

def MAX_ENTRIES : Nat := 512

/-- One directory entry, with its value either inline or at a resolved absolute offset. -/
structure Entry where
  tag : Nat
  typ : Nat
  count : Nat
  /-- The 4 value bytes as stored, for inline values. -/
  bytes : List UInt8
  valueAt : Nat

def asU32 (n : Nat) : Nat := if n < 2 ^ 32 then n else 2 ^ 32 - 1

def saturatingAdd (a b : Nat) : Nat := min (a + b) (2 ^ 64 - 1)

namespace Entry

def typeSize (e : Entry) : Option Nat :=
  if e.typ = 1 ∨ e.typ = 2 ∨ e.typ = 6 ∨ e.typ = 7 then some 1
  else if e.typ = 3 ∨ e.typ = 8 then some 2
  else if e.typ = 4 ∨ e.typ = 9 ∨ e.typ = 11 ∨ e.typ = 13 then some 4
  else if e.typ = 5 ∨ e.typ = 10 ∨ e.typ = 12 then some 8
  else none

/-- The bytes of the value, where they can be counted. -/
def total (e : Entry) : Option Nat :=
  e.typeSize.bind fun size => if size * e.count < 2 ^ 64 then some (size * e.count) else none

def outside (e : Entry) : Bool := e.total.any fun total => 4 < total

def scalar (e : Entry) (endian : Endian) : Option Nat :=
  if e.count ≠ 1 then none
  else
    match e.total with
    | none => none
    | some total =>
      if 4 < total then none
      else if e.typ = 3 ∨ e.typ = 8 then u16At e.bytes 0 endian
      else if e.typ = 4 ∨ e.typ = 9 ∨ e.typ = 13 then u32At e.bytes 0 endian
      else if e.typ = 1 ∨ e.typ = 6 ∨ e.typ = 7 then e.bytes.head?.map UInt8.toNat
      else none

end Entry

structure Directory where
  entries : List Entry
  next : Nat

namespace Directory

def get (dir : Directory) (tag : Nat) : Option Entry := dir.entries.find? fun e => e.tag = tag

def scalar (dir : Directory) (tag : Nat) (endian : Endian) : Option Nat :=
  (dir.get tag).bind (Entry.scalar · endian)

theorem get_mem {dir : Directory} {tag : Nat} {e : Entry} (h : dir.get tag = some e) : e ∈ dir.entries :=
  mem_of_find?_eq_some h

end Directory

section Reading

variable {σ : Type} (src : ByteSource σ) (endian : Endian) (base at' : Nat)

def resolve (entry : Entry) : Entry :=
  if entry.outside then
    match u32At entry.bytes 0 endian with
    | some raw => { entry with valueAt := saturatingAdd base raw }
    | none => entry
  else entry

/-- The entry at one place of a table, if the table holds it whole. -/
def readEntry (table : List UInt8) (i : Nat) : Checked Unit σ (Option Entry) :=
  match u16At table (i * 12) endian, u16At table (i * 12 + 2) endian, u32At table (i * 12 + 4) endian with
  | some tag, some typ, some count =>
    if (table.drop (i * 12 + 8)).length < 4 then Pure.pure none
    else do
      let tableAt ← .addWithin 64 at' 2
      let entryAt ← .addWithin 64 tableAt (i * 12)
      let valueAt ← .addWithin 64 entryAt 8
      return some (resolve endian base { tag, typ, count, bytes := (table.drop (i * 12 + 8)).take 4, valueAt })
  | _, _, _ => Pure.pure none

/-- The entries of a table, in its order. -/
def readEntries (table : List UInt8) (count : Nat) : Checked Unit σ (List Entry) :=
  Checked.foldWith (fun entries i => do
    let entry ← readEntry endian base at' table i
    return entries ++ entry.toList) (List.range count) []

/-- The table behind a count and the pointer to the next directory, which may be missing. -/
def readTable (count : Nat) : Checked Unit σ (List UInt8 × Nat) := do
  let tableAt ← .addWithin 64 at' 2
  let whole ← Checked.attempt (src.readExactAt tableAt (count * 12 + 4))
  match whole with
  | some table => return (table, (u32At table (count * 12) endian).getD 0)
  | none => do
    let table ← src.readExactAt tableAt (count * 12)
    return (table, 0)

/-- Reads one directory table. Value offsets inside it are relative to the base. -/
def readDirectory : Checked Unit σ Directory := do
  let head ← src.readExactAt at' 2
  let count ← .expect () (u16At head 0 endian)
  if count = 0 ∨ MAX_ENTRIES < count then .fail ()
  else do
    let (table, next) ← readTable src endian at' count
    let entries ← readEntries endian base at' table count
    return { entries, next }

end Reading

/-! ## What a directory may say -/

section Read

variable {σ : Type} {src : ByteSource σ} {endian : Endian} {base at' : Nat}

/-- An entry whose value is outside says where in a word behind the base. -/
def Entry.Resolved (base : Nat) (entry : Entry) : Prop :=
  entry.outside = true → ∃ raw, raw < 2 ^ 32 ∧ entry.valueAt = saturatingAdd base raw

theorem resolve_resolved {entry : Entry} (hbytes : entry.bytes.length = 4) :
    (resolve endian base entry).Resolved base := by
  unfold resolve
  split
  · cases hraw : u32At entry.bytes 0 endian with
    | some raw => exact fun _ => ⟨raw, u32At_lt hraw, rfl⟩
    | none =>
      match hentry : entry.bytes, hbytes with
      | [a, b, c, d], _ =>
        rw [hentry] at hraw
        cases endian <;> exact nomatch hraw
  rename_i hinline
  exact fun houtside => (hinline houtside).elim

theorem readEntry_meets {table : List UInt8} {i : Nat} (hend : at' + 2 + table.length ≤ src.len) :
    (readEntry endian base at' table i : Checked Unit σ (Option Entry)).Meets (fun _ => True) fun entry _ =>
      ∀ e ∈ entry, e.Resolved base := by
  have hfits := src.fits
  unfold ByteSource.len at hend
  unfold readEntry
  split
  · split
    · exact Meets.pure fun _ _ e he => (Option.not_mem_none e he).elim
    rename_i hwhole
    rw [length_drop] at hwhole
    refine Meets.add (by omega) (Meets.add (by omega) (Meets.add (by omega) ?_))
    refine Meets.pure fun _ _ e he => ?_
    rw [← Option.mem_some_iff.mp he]
    exact resolve_resolved (by rw [length_take, length_drop]; omega)
  · exact Meets.pure fun _ _ e he => (Option.not_mem_none e he).elim

theorem readEntries_meets {table : List UInt8} {count : Nat} (hend : at' + 2 + table.length ≤ src.len) :
    (readEntries endian base at' table count : Checked Unit σ (List Entry)).Meets (fun _ => True)
      fun entries _ => ∀ e ∈ entries, e.Resolved base := by
  refine Meets.mono (Meets.foldWith (fun entries _ => ∀ e ∈ entries, e.Resolved base)
    (List.range count) (fun i _ entries => Meets.of_pre fun hentries => ?_) [])
    (fun _ _ _ he => nomatch he) fun _ _ h => h
  refine (readEntry_meets hend).bind fun entry => Meets.pure fun _ hentry e he => ?_
  rcases mem_append.mp he with he | he
  · exact hentries e he
  · exact hentry e (Option.mem_toList.mp he)

theorem readTable_meets {count : Nat} (hat : at' + 2 ≤ src.len) :
    (readTable src endian at' count).Meets (fun _ => True) fun table _ =>
      at' + 2 + table.1.length ≤ src.len ∧ table.2 < 2 ^ 32 := by
  have hfits := src.fits
  have hword : at' + 2 < 2 ^ 64 := lt_of_le_of_lt hat hfits
  refine Meets.add hword (Meets.bind src.readExactAt_meets.attempt fun whole => ?_)
  refine Meets.of_pre fun hwhole => ?_
  cases whole with
  | some table =>
    obtain ⟨-, hend, hrange⟩ := hwhole table rfl
    refine Meets.pure fun _ _ => ⟨?_, ?_⟩
    · rw [hrange, ByteSource.length_range hend]
      exact hend
    cases hnext : u32At table (count * 12) endian with
    | none => exact Nat.two_pow_pos 32
    | some next => exact u32At_lt hnext
  | none =>
    refine src.readExactAt_meets.bind fun table => Meets.pure fun _ htable => ?_
    obtain ⟨-, hend, hrange⟩ := htable
    rw [hrange, ByteSource.length_range hend]
    exact ⟨hend, Nat.two_pow_pos 32⟩

theorem readDirectory_meets :
    (readDirectory src endian base at').Meets (fun _ => True) fun dir _ =>
      dir.next < 2 ^ 32 ∧ ∀ e ∈ dir.entries, e.Resolved base := by
  refine src.readExactAt_meets.bind fun head => Meets.of_pre fun hhead => ?_
  refine Meets.expect fun count _ => ?_
  split
  · exact Meets.fail
  refine (readTable_meets hhead.2.1).bind fun table => Meets.of_pre fun htable => ?_
  refine (readEntries_meets htable.1).bind fun entries => Meets.pure fun _ hentries => ?_
  exact ⟨htable.2, hentries⟩

end Read

end SyncEngine.Thumb
