import SyncEngine.Model

/-! # The mobile cache's tables and their triggers

Every item is a row, with the rows of its per-type tables hanging off it. The
triggers stamp a row with the next number of a shared counter whenever it changes
in a way a replica can see, and leave a tombstone for an id no row answers to any
more.
-/

namespace SyncEngine.MobileCache

inductive ItemType where
  | root
  | dir
  | file
  deriving DecidableEq, Repr

inductive MetaState where
  | decoded
  | decrypted
  | encrypted
  | rsaEncrypted
  deriving DecidableEq, Repr

/-- A row of `files`, in the columns a replica can see. -/
structure FileRow where
  size : Int
  chunks : Int
  favoriteRank : Int
  metadataState : MetaState
  deriving DecidableEq, Repr

/-- A row of `files_meta`. -/
structure FileMetaRow where
  name : String
  mime : String
  created : Option Int
  modified : Int
  hash : Option Blake3Hash
  deriving DecidableEq, Repr

/-- A row of `dirs`, in the columns a replica can see. -/
structure DirRow where
  favoriteRank : Int
  color : Option String
  metadataState : MetaState
  deriving DecidableEq, Repr

/-- A row of `dirs_meta`. -/
structure DirMetaRow where
  name : String
  created : Option Int
  deriving DecidableEq, Repr

/-- A row of `items`, with the rows the per-type tables hold under its id. They
are inserted under an item that exists and die with it. -/
structure ItemRow where
  id : Nat
  uuid : Uuid
  stableUuid : Option Uuid
  parent : Option Uuid
  trashed : Bool
  type : ItemType
  isStale : Bool := false
  isRecent : Bool := false
  pendingUploadAt : Option Int := none
  changeSeq : Nat := 0
  file : Option FileRow := none
  fileMeta : Option FileMetaRow := none
  dir : Option DirRow := none
  dirMeta : Option DirMetaRow := none
  deriving DecidableEq, Repr

/-- The id a replica knows a row by: a directory's uuid, a file's stable id. A
root is never part of a replica's world. -/
def ItemRow.key? (row : ItemRow) : Option (ItemType × Uuid) :=
  match row.type with
  | .root => none
  | .dir => some (.dir, row.uuid)
  | .file => row.stableUuid.map fun stable => (.file, stable)

/-- Whether an id of a kind resolves to a row. A file reusing the uuid of a
directory does not answer to the directory's id. -/
def ItemRow.answersTo (row : ItemRow) (kind : ItemType) (itemId : Uuid) : Bool :=
  kind = .file && row.stableUuid = some itemId ||
    kind = .dir && row.uuid = itemId && row.type = .dir

structure Tombstone where
  kind : ItemType
  itemId : Uuid
  seq : Nat
  deriving DecidableEq, Repr

/-- The database. `nextId` is the row id the next insert gets; `slotRemints` pairs the uuids a
row with an unsent edit gave up with those it took on. -/
structure MobileDb where
  items : List ItemRow
  nextId : Nat
  tombstones : List Tombstone
  counter : Nat
  dbInstance : BitVec 128
  slotRemints : List (Uuid × Uuid) := []
  deriving DecidableEq, Repr

namespace MobileDb

/-- The database the schema creates, under a fresh instance id. -/
def init (dbInstance : BitVec 128) : MobileDb where
  items := []
  nextId := 1
  tombstones := []
  counter := 0
  dbInstance := dbInstance

def row? (db : MobileDb) (id : Nat) : Option ItemRow := db.items.find? fun row => row.id = id

def setRow (db : MobileDb) (row : ItemRow) : MobileDb :=
  { db with items := db.items.map fun old => if old.id = row.id then row else old }

def eraseRow (db : MobileDb) (id : Nat) : MobileDb :=
  { db with items := db.items.filter fun row => row.id ≠ id }

def bump (db : MobileDb) (id : Nat) : MobileDb :=
  { db with
    counter := db.counter + 1
    items := db.items.map fun row =>
      if row.id = id then { row with changeSeq := db.counter + 1 } else row }

def clearTombstones (db : MobileDb) (row : ItemRow) : MobileDb :=
  { db with tombstones := db.tombstones.filter fun tomb => !row.answersTo tomb.kind tomb.itemId }

def retire (db : MobileDb) (kind : ItemType) (itemId : Uuid) : MobileDb :=
  { db with
    counter := db.counter + 1
    tombstones := ⟨kind, itemId, db.counter + 1⟩ ::
      db.tombstones.filter fun tomb => ¬ (tomb.kind = kind ∧ tomb.itemId = itemId) }

/-- Retire the id a row answered to, unless another row carries it. -/
def retireId (db : MobileDb) (old : ItemRow) : MobileDb :=
  match old.type with
  | .root => db
  | .dir =>
    if db.items.any fun row => row.uuid = old.uuid then db else db.retire .dir old.uuid
  | .file =>
    match old.stableUuid with
    | none => db
    | some stable =>
      if db.items.any fun row => row.stableUuid = some stable then db
      else db.retire .file stable

@[simp] theorem retireId_items (db : MobileDb) (old : ItemRow) :
    (db.retireId old).items = db.items := by
  unfold retireId
  cases old.type with
  | root => rfl
  | dir =>
    dsimp only
    split
    · rfl
    · rfl
  | file =>
    cases old.stableUuid with
    | none => rfl
    | some stable =>
      dsimp only
      split
      · rfl
      · rfl

/-- `tombstone_on_delete`: the only copy of unsent bytes is never reported gone. -/
def tombstoneOnDelete (db : MobileDb) (old : ItemRow) : MobileDb :=
  if old.pendingUploadAt = none then db.retireId old else db

@[simp] theorem tombstoneOnDelete_items (db : MobileDb) (old : ItemRow) :
    (db.tombstoneOnDelete old).items = db.items := by
  unfold tombstoneOnDelete
  split
  · exact retireId_items db old
  · rfl

def cascaded (db : MobileDb) (uuid : Uuid) : List Nat :=
  (db.items.filter fun row =>
    row.parent = some uuid && !row.trashed && row.pendingUploadAt = none).map ItemRow.id

/-- Delete rows of `items`, one after another, with cascades that go no deeper than
`fuel`. The triggers of a delete run before the next row goes, the tombstone's
before the cascade's. -/
def deleteWithin : Nat → MobileDb → List Nat → MobileDb
  | 0, db, _ => db
  | fuel + 1, db, ids =>
    ids.foldl (fun db id =>
      match db.row? id with
      | none => db
      | some old =>
        let erased := (db.eraseRow id).tombstoneOnDelete old
        if old.type = .file then erased
        else deleteWithin fuel erased (erased.cascaded old.uuid)) db

def deleteRows (db : MobileDb) (ids : List Nat) : MobileDb := deleteWithin db.items.length db ids

/-- `retire_row_on_cross_type_uuid_reuse`. -/
def retireCrossType (db : MobileDb) (uuid : Uuid) (type : ItemType) : MobileDb :=
  db.deleteRows
    ((db.items.filter fun row => row.uuid = uuid && row.type ≠ type).map ItemRow.id)

/-- Insert into `items`. A root is not stamped. -/
def insertRow (db : MobileDb) (row : ItemRow) : MobileDb :=
  let db := { db with items := db.items ++ [row], nextId := max db.nextId (row.id + 1) }
  if row.type = .root then db else (db.bump row.id).clearTombstones row

/-- `tombstone_on_id_retirement`. -/
def tombstoneOnIdRetirement (db : MobileDb) (old new : ItemRow) : MobileDb :=
  if old.pendingUploadAt = none ∧
      (old.type = .file ∧ old.stableUuid ≠ new.stableUuid ∨
        old.type = .dir ∧ old.uuid ≠ new.uuid) then db.retireId old
  else db

/-- `bump_seq_items_update`. -/
def bumpOnUpdate (db : MobileDb) (old new : ItemRow) : MobileDb :=
  if old.uuid ≠ new.uuid ∨ old.stableUuid ≠ new.stableUuid ∨ old.parent ≠ new.parent ∨
      old.trashed ≠ new.trashed then (db.bump new.id).clearTombstones new
  else db

/-- `cascade_on_update_uuid_delete_children`. -/
def cascadeOnUpdate (db : MobileDb) (old new : ItemRow) : MobileDb :=
  if old.uuid ≠ new.uuid ∧ old.type ≠ .file then db.deleteRows (db.cascaded old.uuid) else db

/-- `slot_remint_log`. -/
def slotRemintLog (db : MobileDb) (old new : ItemRow) : MobileDb :=
  if old.uuid ≠ new.uuid ∧ old.pendingUploadAt ≠ none then
    { db with slotRemints := db.slotRemints ++ [(old.uuid, new.uuid)] }
  else db

@[simp] theorem slotRemintLog_items (db : MobileDb) (old new : ItemRow) : (db.slotRemintLog old new).items = db.items := by
  unfold slotRemintLog
  split
  · rfl
  · rfl

/-- Update a row of `items` in place. -/
def updateRow (db : MobileDb) (old new : ItemRow) : MobileDb :=
  ((((db.setRow new).slotRemintLog old new).tombstoneOnIdRetirement old new).bumpOnUpdate old new).cascadeOnUpdate old new

end MobileDb

end SyncEngine.MobileCache
