import SyncEngine.MobileCache.Schema

/-! # Upserts

A record of the server is written to the row it belongs to: the row of its uuid,
or of its stable id, or, for a record without one, of its name under its parent.
The per-type halves follow, and each write is one the triggers see.
-/

namespace SyncEngine.MobileCache

/-- Where the server says an item is. A trashed item remembers its parent. -/
inductive ParentUuid where
  | uuid (uuid : Uuid)
  | trash (uuid : Uuid)
  | recents
  | favorites
  | links
  deriving DecidableEq, Repr

/-- The `parent` and `trashed` columns of an item. -/
def decomposeParent : Option ParentUuid → Option Uuid × Bool
  | some (.uuid uuid) => (some uuid, false)
  | some (.trash uuid) => (some uuid, true)
  | some .recents => (none, false)
  | some .favorites => (none, false)
  | some .links => (none, false)
  | none => (none, false)

structure ItemRecord where
  uuid : Uuid
  stableUuid : Option Uuid
  parent : Option Uuid
  trashed : Bool
  name : Option String
  type : ItemType
  deriving DecidableEq, Repr

def ItemRow.rewrite (old : ItemRow) (item : ItemRecord) : ItemRow :=
  { old with
    uuid := item.uuid
    stableUuid := item.stableUuid
    parent := item.parent
    trashed := item.trashed
    type := item.type
    isStale := false }

def ItemRecord.row (item : ItemRecord) (id : Nat) (isRecent : Bool) : ItemRow where
  id := id
  uuid := item.uuid
  stableUuid := item.stableUuid
  parent := item.parent
  trashed := item.trashed
  type := item.type
  isRecent := isRecent

def oldest : List ItemRow → Option ItemRow
  | [] => none
  | row :: rows =>
    match oldest rows with
    | none => some row
    | some other => if row.id ≤ other.id then some row else some other

theorem oldest_mem {rows : List ItemRow} {row : ItemRow} (h : oldest rows = some row) :
    row ∈ rows := by
  induction rows with
  | nil => cases h
  | cons head rows ih =>
    unfold oldest at h
    cases hrest : oldest rows with
    | none =>
      rw [hrest] at h
      cases h
      exact List.mem_cons_self
    | some other =>
      rw [hrest] at h
      dsimp only at h
      split at h
      · cases h
        exact List.mem_cons_self
      cases h
      exact List.mem_cons_of_mem _ (ih hrest)

def ItemRow.named (row : ItemRow) (name : String) : Bool :=
  row.fileMeta.any (fun fileMeta => fileMeta.name = name) ||
    row.dirMeta.any (fun dirMeta => dirMeta.name = name)

namespace MobileDb

/-- The row of the uuid, of the type. -/
def byUuid (db : MobileDb) (uuid : Uuid) (type : ItemType) : Option ItemRow :=
  db.items.find? fun row => row.uuid = uuid && row.type = type

/-- The row of a stable id: a live one first, then the oldest. -/
def byStable (db : MobileDb) (stable : Uuid) : Option ItemRow :=
  let rows := db.items.filter fun row => row.stableUuid = some stable
  (oldest (rows.filter fun row => !row.trashed)).or (oldest rows)

/-- The live row of a name, for a record without a stable id. -/
def byParentName (db : MobileDb) (parent : Uuid) (name : String) (type : ItemType) :
    Option ItemRow :=
  oldest (db.items.filter fun row =>
    row.parent = some parent && !row.trashed && row.type = type && row.named name)

/-- The row an item belongs to. A record with a stable id is never found by name. -/
def upsertTarget (db : MobileDb) (item : ItemRecord) : Option ItemRow :=
  (db.byUuid item.uuid item.type).or
    (match item.stableUuid with
    | some stable => (db.byStable stable).filter fun row => row.type = item.type
    | none =>
      match item.parent, item.name with
      | some parent, some name => db.byParentName parent name item.type
      | _, _ => none)

/-- `upsert_item.sql`, and the id of the row written. A row of the same uuid but
of another type goes first, which can take the row found above with it: it is
then inserted anew under the id it had. -/
def upsertItem (db : MobileDb) (item : ItemRecord) : MobileDb × Nat :=
  let target := db.upsertTarget item
  let id := (target.map ItemRow.id).getD db.nextId
  let retired := db.retireCrossType item.uuid item.type
  match retired.row? id with
  | some old =>
    (retired.updateRow old (old.rewrite item), id)
  | none =>
    (retired.insertRow (item.row id ((target.map ItemRow.isRecent).getD false)), id)

/-! ## The per-type halves

A half whose item is gone breaks its foreign key, and the write fails. -/

def keepRank (old new : Int) : Int := if old = 0 ∨ new = 0 then new else old

/-- `upsert_file.sql`. -/
def upsertFile (db : MobileDb) (id : Nat) (new : FileRow) : Option MobileDb :=
  match db.row? id with
  | none => none
  | some row =>
    match row.file with
    | none => some ((db.setRow { row with file := some new }).bump id)
    | some old =>
      let new := { new with favoriteRank := keepRank old.favoriteRank new.favoriteRank }
      let written := db.setRow { row with file := some new }
      some (
        if old.size ≠ new.size ∨ old.chunks ≠ new.chunks ∨
            old.favoriteRank ≠ new.favoriteRank ∨ old.metadataState ≠ new.metadataState then
          written.bump id
        else written)

/-- `upsert_file_meta.sql`. -/
def upsertFileMeta (db : MobileDb) (id : Nat) (new : FileMetaRow) : Option MobileDb :=
  match db.row? id with
  | none => none
  | some row =>
    if row.file = none then none
    else
      let written := db.setRow { row with fileMeta := some new }
      match row.fileMeta with
      | none => some (written.bump id)
      | some old =>
        some (
          if old.name ≠ new.name ∨ old.mime ≠ new.mime ∨ old.modified ≠ new.modified ∨
              old.hash ≠ new.hash ∨ old.created ≠ new.created then written.bump id
          else written)

/-- `delete_file_meta.sql`. -/
def deleteFileMeta (db : MobileDb) (id : Nat) : MobileDb :=
  match db.row? id with
  | none => db
  | some row =>
    if row.fileMeta = none then db else (db.setRow { row with fileMeta := none }).bump id

def bumpDir (db : MobileDb) (row : ItemRow) : MobileDb :=
  if row.type = .root then db else db.bump row.id

/-- `upsert_dir.sql`. -/
def upsertDir (db : MobileDb) (id : Nat) (new : DirRow) : Option MobileDb :=
  match db.row? id with
  | none => none
  | some row =>
    match row.dir with
    | none => some ((db.setRow { row with dir := some new }).bumpDir row)
    | some old =>
      let new := { new with favoriteRank := keepRank old.favoriteRank new.favoriteRank }
      let written := db.setRow { row with dir := some new }
      some (
        if old.favoriteRank ≠ new.favoriteRank ∨ old.color ≠ new.color ∨
            old.metadataState ≠ new.metadataState then written.bumpDir row
        else written)

/-- `upsert_dir_meta.sql`. -/
def upsertDirMeta (db : MobileDb) (id : Nat) (new : DirMetaRow) : Option MobileDb :=
  match db.row? id with
  | none => none
  | some row =>
    if row.dir = none then none
    else
      let written := db.setRow { row with dirMeta := some new }
      match row.dirMeta with
      | none => some (written.bumpDir row)
      | some old =>
        some (
          if old.name ≠ new.name ∨ old.created ≠ new.created then written.bumpDir row
          else written)

/-- `delete_dir_meta.sql`. -/
def deleteDirMeta (db : MobileDb) (id : Nat) : MobileDb :=
  match db.row? id with
  | none => db
  | some row =>
    if row.dirMeta = none then db else (db.setRow { row with dirMeta := none }).bumpDir row

end MobileDb

/-! ## Records of the server -/

/-- Metadata as it arrives: decoded, or no further than one of the other states. -/
inductive RemoteMeta (α : Type) where
  | decoded (value : α)
  | decrypted
  | encrypted
  | rsaEncrypted
  deriving DecidableEq, Repr

namespace RemoteMeta

variable {α : Type}

def state : RemoteMeta α → MetaState
  | .decoded _ => .decoded
  | .decrypted => .decrypted
  | .encrypted => .encrypted
  | .rsaEncrypted => .rsaEncrypted

def value? : RemoteMeta α → Option α
  | .decoded value => some value
  | _ => none

end RemoteMeta

structure RemoteFile where
  uuid : Uuid
  stableUuid : Uuid
  parent : ParentUuid
  size : Int
  chunks : Int
  favorited : Bool
  fileMeta : RemoteMeta FileMetaRow
  deriving DecidableEq, Repr

structure RemoteDirectory where
  uuid : Uuid
  parent : ParentUuid
  favorited : Bool
  color : Option String
  dirMeta : RemoteMeta DirMetaRow
  deriving DecidableEq, Repr

def RemoteFile.name (file : RemoteFile) : Option String := file.fileMeta.value?.map FileMetaRow.name

def RemoteDirectory.name (dir : RemoteDirectory) : Option String :=
  dir.dirMeta.value?.map DirMetaRow.name

def RemoteFile.item (file : RemoteFile) : ItemRecord where
  uuid := file.uuid
  stableUuid := some file.stableUuid
  parent := (decomposeParent (some file.parent)).1
  trashed := (decomposeParent (some file.parent)).2
  name := file.name
  type := .file

def RemoteDirectory.item (dir : RemoteDirectory) : ItemRecord where
  uuid := dir.uuid
  stableUuid := none
  parent := (decomposeParent (some dir.parent)).1
  trashed := (decomposeParent (some dir.parent)).2
  name := dir.name
  type := .dir

/-- The root has no parent, no name and no stable id. -/
def rootItem (uuid : Uuid) : ItemRecord where
  uuid := uuid
  stableUuid := none
  parent := (decomposeParent none).1
  trashed := (decomposeParent none).2
  name := none
  type := .root

namespace MobileDb

/-- `DBFile::upsert_from_remote_stmts`, and the id of the row written. -/
def upsertFileFromRemote (db : MobileDb) (file : RemoteFile) : Option (MobileDb × Nat) := do
  let (db, id) := db.upsertItem file.item
  let db ← db.upsertFile id
    { size := file.size
      chunks := file.chunks
      favoriteRank := if file.favorited then 1 else 0
      metadataState := file.fileMeta.state }
  match file.fileMeta with
  | .decoded fileMeta => (db.upsertFileMeta id fileMeta).map fun db => (db, id)
  | _ => some (db.deleteFileMeta id, id)

/-- `DBDir::upsert_from_remote_stmts`, and the id of the row written. -/
def upsertDirFromRemote (db : MobileDb) (dir : RemoteDirectory) : Option (MobileDb × Nat) := do
  let (db, id) := db.upsertItem dir.item
  let db ← db.upsertDir id
    { favoriteRank := if dir.favorited then 1 else 0
      color := dir.color
      metadataState := dir.dirMeta.state }
  match dir.dirMeta with
  | .decoded dirMeta => (db.upsertDirMeta id dirMeta).map fun db => (db, id)
  | _ => some (db.deleteDirMeta id, id)

/-- `DBRoot::upsert_from_remote`. -/
def upsertRootFromRemote (db : MobileDb) (uuid : Uuid) : Option MobileDb :=
  let (db, id) := db.upsertItem (rootItem uuid)
  db.upsertDir id { favoriteRank := 0, color := none, metadataState := .decrypted }

end MobileDb

end SyncEngine.MobileCache
