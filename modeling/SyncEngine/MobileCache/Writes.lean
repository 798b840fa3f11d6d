import SyncEngine.MobileCache.Upserts

/-! # The writes of the mobile cache

Each write is one transaction: a record upserted, the listing of a directory or
of the trash with the sweep of what it no longer mentions, the recents, a
permanent delete, a favourite. One that fails is rolled back.
-/

namespace SyncEngine.MobileCache

def uuidText (uuid : Uuid) : String :=
  let digits := uuid.toHex.toList
  String.ofList ("-".toList.intercalate
    [digits.take 8, (digits.drop 8).take 4, (digits.drop 12).take 4, (digits.drop 16).take 4,
      digits.drop 20])

/-- The row changed last, and of two the one inserted last. -/
def newest : List ItemRow → Option ItemRow
  | [] => none
  | row :: rows =>
    match newest rows with
    | none => some row
    | some other =>
      if other.changeSeq < row.changeSeq ∨
          other.changeSeq = row.changeSeq ∧ other.id ≤ row.id then some row
      else some other

namespace MobileDb

/-- `select_item_by_parent_name.sql`: the live row a name means under a parent, by
its metadata first and by its uuid's text after that. -/
def selectByParentName (db : MobileDb) (parent : Uuid) (name : String) : Option ItemRow :=
  let live := db.items.filter fun row => row.parent = some parent && !row.trashed
  (newest (live.filter fun row => row.named name)).or
    (newest (live.filter fun row => uuidText row.uuid = name))

def markStaleWithParent (db : MobileDb) (parent : Uuid) : MobileDb :=
  { db with
    items := db.items.map fun row =>
      if row.parent = some parent ∧ row.trashed = false then { row with isStale := true } else row }

def markStaleTrashed (db : MobileDb) : MobileDb :=
  { db with
    items := db.items.map fun row => if row.trashed then { row with isStale := true } else row }

/-- Rows and what they shelter under: a step up is taken from a row a delete of
its parent would reach. -/
def climb (db : MobileDb) : Nat → List ItemRow → List ItemRow
  | 0, rows => rows
  | fuel + 1, rows =>
    let above := db.items.filter fun row =>
      !rows.contains row && rows.any fun low => !low.trashed && low.parent = some row.uuid
    if above = [] then rows else db.climb fuel (rows ++ above)

/-- The rows that hold an unsent edit or shelter one, from the given holders. -/
def pendingHolders (db : MobileDb) (holders : List ItemRow) : List Uuid :=
  (db.climb db.items.length holders).map ItemRow.uuid

def unmarkStale (db : MobileDb) (picks : ItemRow → Bool) : MobileDb :=
  { db with
    items := db.items.map fun row => if picks row then { row with isStale := false } else row }

def unmarkStalePendingWithParent (db : MobileDb) (parent : Uuid) : MobileDb :=
  let holders := db.pendingHolders
    (db.items.filter fun row => row.pendingUploadAt.isSome && !row.trashed)
  db.unmarkStale fun row => row.parent = some parent && holders.contains row.uuid

def unmarkStalePendingTrashed (db : MobileDb) : MobileDb :=
  let holders := db.pendingHolders (db.items.filter fun row => row.pendingUploadAt.isSome)
  db.unmarkStale fun row => row.trashed && holders.contains row.uuid

/-- Spare rows a sweep must not delete this round. -/
def unmarkSpared (db : MobileDb) (spare : List Uuid) : MobileDb :=
  spare.foldl (fun db uuid => db.unmarkStale fun row => row.uuid = uuid) db

def deleteWhere (db : MobileDb) (picks : ItemRow → Bool) : MobileDb :=
  db.deleteRows ((db.items.filter picks).map ItemRow.id)

def deleteStaleWithParent (db : MobileDb) (parent : Uuid) : MobileDb :=
  db.deleteWhere fun row =>
    row.parent = some parent && row.isStale && !row.trashed && row.pendingUploadAt = none

def deleteStaleTrashed (db : MobileDb) : MobileDb :=
  db.deleteWhere fun row => row.trashed && row.isStale && row.pendingUploadAt = none

/-- Whether a trashed record would take over a live row that is not its own. -/
def trashedRecordTargetsAnotherRow (db : MobileDb) (item : ItemRecord) (parent : ParentUuid) :
    Bool :=
  match parent with
  | .trash original =>
    match db.byUuid item.uuid item.type with
    | some row => row.stableUuid ≠ item.stableUuid
    | none =>
      if item.stableUuid.any fun stable => (db.byStable stable).isSome then false
      else
        match item.name with
        | none => false
        | some name =>
          (db.selectByParentName original name).any fun row => row.type = item.type
  | _ => false

def resolvesByIdentity (db : MobileDb) (item : ItemRecord) : Bool :=
  db.items.any fun row =>
    (row.uuid = item.uuid || item.stableUuid.any fun stable => row.stableUuid = some stable) &&
      row.type = item.type

/-- Upsert the records of a listing of one kind, those that own a row by identity
first. -/
def upsertListed {ρ : Type} (db : MobileDb) (item : ρ → ItemRecord) (parent : ρ → ParentUuid)
    (upsert : MobileDb → ρ → Option (MobileDb × Nat)) (records : List ρ) : Option MobileDb :=
  let byIdentity := records.filter fun record => db.resolvesByIdentity (item record)
  let byName := records.filter fun record => !db.resolvesByIdentity (item record)
  (byIdentity ++ byName).foldlM (fun db record =>
    if db.trashedRecordTargetsAnotherRow (item record) (parent record) then some db
    else (upsert db record).map Prod.fst) db

def upsertDirsAndFiles (db : MobileDb) (dirs : List RemoteDirectory) (files : List RemoteFile) :
    Option MobileDb := do
  let db ← db.upsertListed RemoteDirectory.item RemoteDirectory.parent upsertDirFromRemote dirs
  db.upsertListed RemoteFile.item RemoteFile.parent upsertFileFromRemote files

def updateItemsWithParent (db : MobileDb) (dirs : List RemoteDirectory) (files : List RemoteFile)
    (parent : Uuid) (spare : List Uuid) : Option MobileDb := do
  let db ← (db.markStaleWithParent parent).upsertDirsAndFiles dirs files
  return ((db.unmarkSpared spare).unmarkStalePendingWithParent parent).deleteStaleWithParent parent

def updateTrashedItems (db : MobileDb) (dirs : List RemoteDirectory) (files : List RemoteFile)
    (spare : List Uuid) : Option MobileDb := do
  let db ← db.markStaleTrashed.upsertDirsAndFiles dirs files
  return (db.unmarkSpared spare).unmarkStalePendingTrashed.deleteStaleTrashed

def clearRecents (db : MobileDb) : MobileDb :=
  { db with items := db.items.map fun row => { row with isRecent := false } }

def setRecent (db : MobileDb) (id : Nat) : MobileDb :=
  { db with
    items := db.items.map fun row => if row.id = id then { row with isRecent := true } else row }

/-- Upsert the records of one kind, each of them recent. -/
def upsertRecent {ρ : Type} (upsert : MobileDb → ρ → Option (MobileDb × Nat)) (db : MobileDb)
    (records : List ρ) : Option MobileDb :=
  records.foldlM (fun db record => (upsert db record).map fun (db, id) => db.setRecent id) db

def updateRecents (db : MobileDb) (dirs : List RemoteDirectory) (files : List RemoteFile) :
    Option MobileDb := do
  let db ← upsertRecent upsertDirFromRemote db.clearRecents dirs
  upsertRecent upsertFileFromRemote db files

def doomed (db : MobileDb) : Nat → List Uuid → List Uuid
  | 0, uuids => uuids
  | fuel + 1, uuids =>
    let below := (db.items.filter fun row =>
      !uuids.contains row.uuid && !row.trashed &&
        row.parent.any fun parent => uuids.contains parent).map ItemRow.uuid
    if below = [] then uuids else db.doomed fuel (uuids ++ below)

/-- `clear_pending_upload_subtree.sql`. -/
def clearPendingUploadSubtree (db : MobileDb) (uuid : Uuid) : MobileDb :=
  let uuids := db.doomed db.items.length [uuid]
  { db with
    items := db.items.map fun row =>
      if uuids.contains row.uuid then { row with pendingUploadAt := none } else row }

/-- Delete an item the server deleted for good, and what is below it. -/
def deleteItem (db : MobileDb) (uuid : Uuid) : MobileDb :=
  (db.clearPendingUploadSubtree uuid).deleteWhere fun row => row.uuid = uuid

def updateFileFavoriteRank (db : MobileDb) (id : Nat) (rank : Int) : MobileDb :=
  match db.row? id with
  | none => db
  | some row =>
    match row.file with
    | none => db
    | some old =>
      let written := db.setRow { row with file := some { old with favoriteRank := rank } }
      if old.favoriteRank ≠ rank then written.bump id else written

def updateDirFavoriteRank (db : MobileDb) (id : Nat) (rank : Int) : MobileDb :=
  match db.row? id with
  | none => db
  | some row =>
    match row.dir with
    | none => db
    | some old =>
      let written := db.setRow { row with dir := some { old with favoriteRank := rank } }
      if old.favoriteRank ≠ rank then written.bumpDir row else written

/-- Insert the account's root, unless it is there: a root of the same uuid breaks
the uniqueness of uuids, which the code reads as initialized already. -/
def insertRoot (db : MobileDb) (uuid : Uuid) : Option MobileDb :=
  let retired := db.retireCrossType uuid .root
  if retired.items.any fun row => row.uuid = uuid then none
  else
    some (retired.insertRow
      { id := db.nextId
        uuid := uuid
        stableUuid := none
        parent := none
        trashed := false
        type := .root
        dir := some { favoriteRank := 0, color := none, metadataState := .decrypted } })

end MobileDb

inductive CacheWrite where
  | insertRoot (uuid : Uuid)
  | upsertRoot (uuid : Uuid)
  | upsertDir (dir : RemoteDirectory)
  | upsertFile (file : RemoteFile)
  | updateItemsWithParent (dirs : List RemoteDirectory) (files : List RemoteFile) (parent : Uuid)
      (spare : List Uuid)
  | updateTrashedItems (dirs : List RemoteDirectory) (files : List RemoteFile) (spare : List Uuid)
  | updateRecents (dirs : List RemoteDirectory) (files : List RemoteFile)
  | deleteItem (uuid : Uuid)
  | updateFileFavoriteRank (id : Nat) (rank : Int)
  | updateDirFavoriteRank (id : Nat) (rank : Int)
  deriving DecidableEq, Repr

namespace CacheWrite

def transaction : CacheWrite → MobileDb → Option MobileDb
  | insertRoot uuid, db => db.insertRoot uuid
  | upsertRoot uuid, db => db.upsertRootFromRemote uuid
  | upsertDir dir, db => (db.upsertDirFromRemote dir).map Prod.fst
  | upsertFile file, db => (db.upsertFileFromRemote file).map Prod.fst
  | updateItemsWithParent dirs files parent spare, db =>
    db.updateItemsWithParent dirs files parent spare
  | updateTrashedItems dirs files spare, db => db.updateTrashedItems dirs files spare
  | updateRecents dirs files, db => db.updateRecents dirs files
  | deleteItem uuid, db => some (db.deleteItem uuid)
  | updateFileFavoriteRank id rank, db => some (db.updateFileFavoriteRank id rank)
  | updateDirFavoriteRank id rank, db => some (db.updateDirFavoriteRank id rank)

def commit (write : CacheWrite) (db : MobileDb) : MobileDb := (write.transaction db).getD db

def dirs : CacheWrite → List RemoteDirectory
  | upsertDir dir => [dir]
  | updateItemsWithParent dirs _ _ _ => dirs
  | updateTrashedItems dirs _ _ => dirs
  | updateRecents dirs _ => dirs
  | _ => []

def files : CacheWrite → List RemoteFile
  | upsertFile file => [file]
  | updateItemsWithParent _ files _ _ => files
  | updateTrashedItems _ files _ => files
  | updateRecents _ files => files
  | _ => []

end CacheWrite

end SyncEngine.MobileCache
