import SyncEngine.MobileCache.Writes

/-! # The changes since an anchor

A replica asks for what happened above the anchor it was handed last, a page at a
time. The anchor of the answer is read before the rows, and each read sees what
the cache holds at that moment.
-/

namespace SyncEngine.MobileCache

inductive CacheError where
  /-- The sync anchor was not issued by this database. -/
  | syncAnchorExpired
  /-- A column that may not be empty is. -/
  | conversion
  deriving DecidableEq, Repr

/-- The parent the `parent` and `trashed` columns stand for. -/
def combineParent : Option Uuid → Bool → Option ParentUuid
  | some uuid, true => some (.trash uuid)
  | some uuid, false => some (.uuid uuid)
  | none, _ => none

structure FfiFile where
  uuid : Uuid
  stableUuid : Uuid
  parent : ParentUuid
  fileMeta : Option FileMetaRow
  metadataState : MetaState
  size : Int
  favoriteRank : Int
  deriving DecidableEq, Repr

structure FfiDir where
  uuid : Uuid
  parent : ParentUuid
  dirMeta : Option DirMetaRow
  metadataState : MetaState
  color : Option String
  favoriteRank : Int
  deriving DecidableEq, Repr

inductive FfiObject where
  | file (file : FfiFile)
  | dir (dir : FfiDir)
  deriving DecidableEq, Repr

def FfiObject.providerId : FfiObject → Uuid
  | .file f => f.stableUuid
  | .dir d => d.uuid

/-- Decoded metadata is read from its own table; any other state has none. -/
def decodedMeta {α : Type} : MetaState → Option α → Except CacheError (Option α)
  | .decoded, some value => .ok (some value)
  | .decoded, none => .error .conversion
  | _, _ => .ok none

/-- `DBNonRootObject::from_row`, and what the replica is handed of it. -/
def ItemRow.object (row : ItemRow) : Except CacheError FfiObject :=
  match row.type, combineParent row.parent row.trashed with
  | .file, some parent =>
    match row.stableUuid, row.file with
    | some stable, some file => do
      let fileMeta ← decodedMeta file.metadataState row.fileMeta
      return .file
        { uuid := row.uuid
          stableUuid := stable
          parent := parent
          fileMeta := fileMeta
          metadataState := file.metadataState
          size := file.size
          favoriteRank := file.favoriteRank }
    | _, _ => .error .conversion
  | .dir, some parent =>
    match row.dir with
    | some dir => do
      let dirMeta ← decodedMeta dir.metadataState row.dirMeta
      return .dir
        { uuid := row.uuid
          parent := parent
          dirMeta := dirMeta
          metadataState := dir.metadataState
          color := dir.color
          favoriteRank := dir.favoriteRank }
    | none => .error .conversion
  | _, _ => .error .conversion

/-- The database an anchor was issued by, and the sequence it names. -/
structure SyncAnchor where
  dbInstance : BitVec 128
  seq : Nat
  deriving DecidableEq, Repr

def decodeAnchor (anchor : SyncAnchor) (dbInstance : BitVec 128) : Except CacheError Nat :=
  if anchor.dbInstance = dbInstance then .ok anchor.seq else .error .syncAnchorExpired

/-- Whether a sequence is above the floor and not above the cutoff, if there is one. -/
def inPage (floor : Nat) (cutoff : Option Nat) (seq : Nat) : Bool :=
  floor < seq && cutoff.all fun last => seq ≤ last

namespace MobileDb

/-- The sequences above a floor, of items and tombstones pooled, oldest first. -/
def selectChangeSeqsPage (db : MobileDb) (floor limit : Nat) : List Nat :=
  let items := (db.items.filter fun row => floor < row.changeSeq && row.type ≠ .root).map
    ItemRow.changeSeq
  let tombstones := (db.tombstones.filter fun tomb => floor < tomb.seq).map Tombstone.seq
  ((items ++ tombstones).insertionSort (· ≤ ·)).take limit

/-- The items of a page. One whose per-type half is missing is left out. -/
def selectChangedItems (db : MobileDb) (floor : Nat) (cutoff : Option Nat) :
    Except CacheError (List FfiObject) :=
  let rows := db.items.filter fun row =>
    inPage floor cutoff row.changeSeq && row.type ≠ .root && (row.file.isSome || row.dir.isSome)
  (rows.insertionSort fun a b => a.changeSeq ≤ b.changeSeq).mapM ItemRow.object

def selectRetiredIds (db : MobileDb) (floor : Nat) (cutoff : Option Nat) : List Uuid :=
  ((db.tombstones.filter fun tomb => inPage floor cutoff tomb.seq).insertionSort
    fun a b => a.seq ≤ b.seq).map Tombstone.itemId

end MobileDb

structure FfiChanges where
  updated : List FfiObject
  deletedIds : List Uuid
  anchor : SyncAnchor
  more : Bool
  deriving DecidableEq, Repr

/-- The last sequence of a page that does not hold the whole diff. -/
def pageCutoff (paged : MobileDb) (floor limit : Nat) : Option Nat :=
  if limit = 0 then none
  else
    let seqs := paged.selectChangeSeqsPage floor (limit + 1)
    if limit < seqs.length then seqs[limit - 1]? else none

/-- The diff above an anchor, or everything when there is none. The four reads
follow each other, and the cache may be written to in between. -/
def changesSince (first paged rows retired : MobileDb) (anchor : Option SyncAnchor)
    (limit : Nat) : Except CacheError FfiChanges := do
  let floor ←
    match anchor with
    | some anchor => decodeAnchor anchor first.dbInstance
    | none => .ok 0
  let cutoff := pageCutoff paged floor limit
  let updated ← rows.selectChangedItems floor cutoff
  let deletedIds :=
    match anchor with
    | some _ => retired.selectRetiredIds floor cutoff
    | none => []
  return {
    updated := updated
    deletedIds := deletedIds
    anchor := ⟨first.dbInstance, cutoff.getD first.counter⟩
    more := cutoff.isSome }

/-- The items a replica holds, under their provider ids. -/
abbrev Replica := Uuid → Option FfiObject

def Replica.erase (replica : Replica) (id : Uuid) : Replica :=
  fun k => if k = id then none else replica k

def Replica.insert (replica : Replica) (object : FfiObject) : Replica :=
  fun k => if k = object.providerId then some object else replica k

/-- Apply a page: its deletions, then its updates. -/
def Replica.apply (replica : Replica) (page : FfiChanges) : Replica :=
  page.updated.foldl Replica.insert (page.deletedIds.foldl Replica.erase replica)

end SyncEngine.MobileCache
