import SyncEngine.Model
import SyncEngine.Names.Validation

/-! # Creating directories in bulk

Directories are created in requests of so many each, parents before their children. A child is
sent under the uuid its parent is requested under, which the server takes for the directory it
answers for the parent. What a request leaves open is settled by single calls.
-/

namespace SyncEngine.Bulk

inductive NewDirParent where
  | existing (uuid : Uuid)
  /-- The directory at this index of the same list. -/
  | earlier (index : Nat)
  deriving DecidableEq

structure NewDir where
  name : Name
  created : Int
  parent : NewDirParent
  deriving DecidableEq

/-- A directory that was created, or found already there. -/
structure CreatedDir where
  uuid : Uuid
  merged : Bool
  timestamp : Int
  deriving DecidableEq

inductive Code where
  | cannotCreateInThisFolder
  | internalError
  | other (text : Name)
  deriving DecidableEq

inductive Error where
  | parentNotEarlier (item parent : Nat)
  | parentNotCreated (item parent : Nat)
  | server (code : Code)
  | fewerAnswers
  /-- Anything that is no answer of the server. -/
  | failed (text : Name)
  deriving DecidableEq

def Error.code : Error → Option Code
  | .server code => some code
  | _ => none

structure Response where
  uuid : Uuid
  timestamp : Int
  deriving DecidableEq

structure NewDirRequest (Hash : Type) where
  uuid : Uuid
  nameHashed : Hash
  deriving DecidableEq

structure Item (Hash : Type) where
  uuid : Uuid
  nameHashed : Hash
  parent : Uuid
  deriving DecidableEq

def NewDirRequest.inParent {Hash : Type} (request : NewDirRequest Hash) (parent : Uuid) : Item Hash :=
  ⟨request.uuid, request.nameHashed, parent⟩

/-! ## The server -/

/-- The directories of the account, by the items they were created with. -/
structure Server (Hash : Type) where
  roots : List Uuid
  initial : List (Item Hash)
  /-- Those created since, the latest first. -/
  created : List (Item Hash)

inductive Choice where
  | run (timestamp : Int)
  | refuse (code : Code)
  /-- It says that it does not know, having run it or not. -/
  | internalError (ran : Bool)

inductive Fate where
  | answers
  | unsupported
  /-- It fails as a whole once so many items ran. -/
  | fails (ran : Nat) (error : Error)

/-- What becomes of a single call for something that does not stand yet. -/
inductive SingleFate where
  | run (timestamp : Int)
  | refuse (code : Code)
  | fails (ran : Bool) (error : Error)

inductive Answer where
  | ok (response : Response)
  | err (code : Code)
  deriving DecidableEq

namespace Server

variable {Hash : Type} [DecidableEq Hash]

def standing (server : Server Hash) : List (Item Hash) := server.created ++ server.initial

def Exists (server : Server Hash) (uuid : Uuid) : Prop :=
  uuid ∈ server.roots ∨ uuid ∈ server.standing.map Item.uuid

instance (server : Server Hash) (uuid : Uuid) : Decidable (server.Exists uuid) := by
  unfold Exists
  infer_instance

def repeated (server : Server Hash) (item : Item Hash) : Bool :=
  server.standing.any fun dir => dir.uuid = item.uuid ∧ dir.nameHashed = item.nameHashed

/-- Run a create, in a folder that exists: what stands under the name is what is answered. -/
def create (server : Server Hash) (item : Item Hash) : Option (Uuid × Server Hash) :=
  if ¬ server.Exists item.parent then none
  else if server.repeated item then some (item.uuid, server)
  else
    match server.standing.find? fun dir => dir.parent = item.parent ∧ dir.nameHashed = item.nameHashed with
    | some dir => some (dir.uuid, server)
    | none => some (item.uuid, { server with created := item :: server.created })

/-- The directory a parent stands for in a request: what an earlier item of it was answered. -/
def standsFor (done : List (Uuid × Answer)) (parent : Uuid) : Uuid :=
  match done.find? fun answered => answered.1 = parent with
  | some (_, .ok response) => response.uuid
  | _ => parent

def runItem (choice : Choice) (done : List (Uuid × Answer)) (item : Item Hash) (server : Server Hash) : Answer × Server Hash :=
  let item := { item with parent := standsFor done item.parent }
  match choice, server.create item with
  | .refuse code, _ => (.err code, server)
  | .internalError false, _ | .internalError true, none => (.err .internalError, server)
  | .run _, none => (.err .cannotCreateInThisFolder, server)
  | .run timestamp, some (uuid, server) => (.ok ⟨uuid, timestamp⟩, server)
  | .internalError true, some (_, server) => (.err .internalError, server)

def runItems (choices : Nat → Choice) : List (Item Hash) → List (Uuid × Answer) → Server Hash → List (Uuid × Answer) × Server Hash
  | [], done, server => (done, server)
  | item :: items, done, server =>
    let (answer, server) := runItem (choices done.length) done item server
    runItems choices items (done ++ [(item.uuid, answer)]) server

end Server

structure Backend (Hash : Type) where
  hash : Name → Hash
  /-- The uuid the directory of an index is minted under. -/
  mint : Nat → Except Error Uuid
  /-- What becomes of the request that starts at a directory. -/
  bulk : Nat → Fate
  /-- What the server does about a directory in it. -/
  choices : Nat → Choice
  /-- What becomes of the single call for a directory. -/
  single : Nat → SingleFate

namespace Backend

variable {Hash : Type} [DecidableEq Hash] (backend : Backend Hash)

def mintDir (index : Nat) (dir : NewDir) : Except Error (NewDirRequest Hash) :=
  (backend.mint index).map fun uuid => ⟨uuid, backend.hash dir.name⟩

/-- Send one chunk; none is answered where the server has no such request. -/
def bulkCreateDirs (start : Nat) (items : List (Item Hash)) (server : Server Hash) :
    Except Error (Option (List Answer)) × Server Hash :=
  if items = [] then (.ok (some []), server)
  else
    match backend.bulk start with
    | .answers =>
      let (done, server) := server.runItems (fun n => backend.choices (start + n)) items []
      (.ok (some (done.map Prod.snd)), server)
    | .unsupported => (.ok none, server)
    | .fails ran error => (.error error, (server.runItems (fun n => backend.choices (start + n)) (items.take ran) []).2)

/-- Send one directory by itself; what was created with the same uuid and name is answered. -/
def createOneDir (index : Nat) (item : Item Hash) (server : Server Hash) : Except Error Response × Server Hash :=
  match backend.single index with
  | .run timestamp =>
    match server.create item with
    | some (uuid, server) => (.ok ⟨uuid, timestamp⟩, server)
    | none => (.error (.server .cannotCreateInThisFolder), server)
  | .refuse code => if server.repeated item then (.ok ⟨item.uuid, 0⟩, server) else (.error (.server code), server)
  | .fails ran error =>
    if server.repeated item then (.ok ⟨item.uuid, 0⟩, server)
    else
      match server.create item with
      | some (_, after) => (.error error, if ran then after else server)
      | none => (.error error, server)

end Backend

/-! ## The client -/

/-- A directory of a chunk before the chunk is sent. -/
inductive Slot (Hash : Type) where
  | failed (error : Error)
  /-- With the parent the bulk request names. -/
  | minted (request : NewDirRequest Hash) (parent : Uuid)

inductive Answers where
  | answered (answers : List Answer)
  | unsupported
  | failed (error : Error)

variable {Hash : Type} [DecidableEq Hash]

/-- The parent a directory is sent under: what an earlier chunk's directory was answered, or what
this chunk's directory is requested under. -/
def sentParent (start : Nat) (results : List (Except Error CreatedDir)) (slots : List (Slot Hash)) :
    NewDirParent → Except Error Uuid
  | .existing uuid => .ok uuid
  | .earlier parent =>
    let uuid :=
      if parent < start then
        match results[parent]? with
        | some (.ok created) => some created.uuid
        | _ => none
      else
        match slots[parent - start]? with
        | some (.minted request _) => some request.uuid
        | _ => none
    match uuid with
    | some uuid => .ok uuid
    | none => .error (.parentNotCreated (start + slots.length) parent)

def mintSlot (backend : Backend Hash) (start : Nat) (results : List (Except Error CreatedDir)) (slots : List (Slot Hash))
    (dir : NewDir) : Slot Hash :=
  match sentParent start results slots dir.parent with
  | .error error => .failed error
  | .ok parent =>
    match backend.mintDir (start + slots.length) dir with
    | .ok request => .minted request parent
    | .error error => .failed error

def mintSlots (backend : Backend Hash) (start : Nat) (results : List (Except Error CreatedDir)) :
    List NewDir → List (Slot Hash) → List (Slot Hash)
  | [], slots => slots
  | dir :: dirs, slots => mintSlots backend start results dirs (slots ++ [mintSlot backend start results slots dir])

def Slot.item : Slot Hash → Option (Item Hash)
  | .minted request parent => some (request.inParent parent)
  | .failed _ => none

/-- An answer as the single call's would be; none where only that can tell. -/
def answered : Answer → Option (Except Error Response)
  | .ok response => some (.ok response)
  | .err .internalError => none
  | .err code => some (.error (.server code))

def created (request : NewDirRequest Hash) (response : Response) : CreatedDir :=
  ⟨response.uuid, response.uuid ≠ request.uuid, response.timestamp⟩

/-- Whether a directory's parent is one of its chunk that the chunk's request did not create. -/
def parentCreatedAfter (dir : NewDir) (start : Nat) (createdHere : List Bool) : Bool :=
  match dir.parent with
  | .existing _ => false
  | .earlier parent => if parent < start then false else createdHere[parent - start]? == some false

/-- Create a directory with its single call, in the folder its parent's create answered. -/
def createOne (backend : Backend Hash) (item : Nat) (dir : NewDir) (request : NewDirRequest Hash)
    (results : List (Except Error CreatedDir)) (server : Server Hash) : Except Error CreatedDir × Server Hash :=
  let send := fun parent =>
    let (response, server) := backend.createOneDir item (request.inParent parent) server
    (response.map (created request), server)
  match dir.parent with
  | .existing uuid => send uuid
  | .earlier parent =>
    match results[parent]? with
    | some (.ok created) => send created.uuid
    | _ => (.error (.parentNotCreated item parent), server)

/-- The answer of a directory, where the request settled it, and those of the ones after it. -/
def Answers.next (answers : Answers) (request : NewDirRequest Hash) (createdAfter : Bool) :
    Option (Except Error CreatedDir) × Answers :=
  match answers with
  | .failed error => (some (.error error), answers)
  | .unsupported => (none, answers)
  | .answered [] => (some (.error .fewerAnswers), answers)
  | .answered (answer :: rest) =>
    match Bulk.answered answer with
    | some (.ok response) => (some (.ok (created request response)), .answered rest)
    | some (.error error) =>
      if error.code = some .cannotCreateInThisFolder ∧ createdAfter then (none, .answered rest)
      else (some (.error error), .answered rest)
    | none => (none, .answered rest)

/-- Settle the directories of a chunk that was sent, in order. -/
def settle (backend : Backend Hash) (start : Nat) :
    List (NewDir × Slot Hash) → Answers → List Bool → List (Except Error CreatedDir) → Server Hash →
      List (Except Error CreatedDir) × Server Hash
  | [], _, _, results, server => (results, server)
  | (_, .failed error) :: rest, answers, createdHere, results, server =>
    settle backend start rest answers (createdHere ++ [false]) (results ++ [.error error]) server
  | (dir, .minted request _) :: rest, answers, createdHere, results, server =>
    match answers.next request (parentCreatedAfter dir start createdHere) with
    | (some (.ok result), answers) => settle backend start rest answers (createdHere ++ [true]) (results ++ [.ok result]) server
    | (some (.error error), answers) =>
      settle backend start rest answers (createdHere ++ [false]) (results ++ [.error error]) server
    | (none, answers) =>
      let (result, server) := createOne backend (start + createdHere.length) dir request results server
      settle backend start rest answers (createdHere ++ [false]) (results ++ [result]) server

/-- Create a chunk of directories, after the results of those before it. -/
def createChunk (backend : Backend Hash) (chunk : List NewDir) (start : Nat) (results : List (Except Error CreatedDir))
    (server : Server Hash) : List (Except Error CreatedDir) × Server Hash :=
  let slots := mintSlots backend start results chunk []
  let (sent, server) := backend.bulkCreateDirs start (slots.filterMap Slot.item) server
  let answers := match sent with
    | .ok (some answers) => Answers.answered answers
    | .ok none => .unsupported
    | .error error => .failed error
  settle backend start (chunk.zip slots) answers [] results server

/-- Create the directories from one on, so many in a request. -/
def createChunks (backend : Backend Hash) (maxWriteItems : Nat) (dirs : List NewDir) :
    Nat → List (Except Error CreatedDir) → Server Hash → List (Except Error CreatedDir) × Server Hash
  | 0, results, server => (results, server)
  | chunks + 1, results, server =>
    let (results, server) := createChunk backend ((dirs.drop results.length).take maxWriteItems) results.length results server
    createChunks backend maxWriteItems dirs chunks results server

/-- The first directory whose parent does not come before it. -/
def parentNotEarlier (dirs : List NewDir) : Option Error :=
  dirs.zipIdx.findSome? fun (dir, item) =>
    match dir.parent with
    | .earlier parent => if item ≤ parent then some (.parentNotEarlier item parent) else none
    | .existing _ => none

/-- Create directories, parents before their children. -/
def createDirs (backend : Backend Hash) (maxWriteItems : Nat) (dirs : List NewDir) (server : Server Hash) :
    Except Error (List (Except Error CreatedDir)) × Server Hash :=
  match parentNotEarlier dirs with
  | some error => (.error error, server)
  | none =>
    let chunks := (dirs.length + maxWriteItems - 1) / maxWriteItems
    let (results, server) := createChunks backend maxWriteItems dirs chunks [] server
    (.ok results, server)

end SyncEngine.Bulk
