import SyncEngine.Transfer.Reader

/-! # Writing an archive's entries

The entries are written one after another. The ones after the entry being written wait in a
window, where their first chunks are fetched ahead with a half of the memory budget.
-/

namespace SyncEngine.Zip

open Collections

def maxWindowEntries : Nat := 32

inductive Entry where
  /-- A file of so many chunks and bytes, skipped where it has no path. -/
  | file (chunks size : Nat) (path : Option String)
  | dir (path : Option String)
deriving DecidableEq, Repr

structure BudgetSplit where
  readAhead : Nat
  window : Nat
deriving DecidableEq, Repr

/-- Half each, but a full chunk at least for the file being written. -/
def BudgetSplit.new (budget : Nat) : BudgetSplit :=
  let window := min (budget / 2) (budget - Transfer.fullChunk)
  {
    readAhead := budget - window
    window
  }

def firstChunkSize (chunks size : Nat) : Option Nat :=
  if size = 0 then none else Transfer.encryptedChunkSize chunks size 0

def firstChunkCost : Entry → Nat
  | .file chunks size (some _) => (firstChunkSize chunks size).getD 0
  | .file _ _ none => 0
  | .dir _ => 0

def saturatingAdd (a b : Nat) : Nat := min (a + b) (2 ^ 64 - 1)

structure Fetched where
  entry : Entry
  firstChunk : Option Transfer.Chunk
  reserved : Nat

/-- An entry whose first chunk is fetched, and what came of it. -/
structure Fetching (Error : Type) where
  entry : Entry
  reserved : Nat
  outcome : Option (Except Error (Option Transfer.Chunk))

/-- The window, and the entries not yet in it. -/
structure Lookahead (Error : Type) where
  /-- What is still to be listed, until it ended or failed. -/
  entries : Option (List (Except Error Entry))
  waiting : Option Entry
  fetching : List (Fetching Error)
  fetched : List Fetched
  reserved : Nat
  budget : Nat
  failure : Option Error

section Window

variable {Error : Type}

/-- Start to fetch an entry's first chunk, with so much reserved. -/
def fetch (entry : Entry) (reserved : Nat) : Fetching Error where
  entry
  reserved
  outcome := none

/-- What came of an entry's fetch, of what its download gave: only a file that is written has one. -/
def Fetching.done (fetching : Fetching Error) (download : Except Error (Option Transfer.Chunk)) :
    Fetching Error :=
  { fetching with
    outcome := match fetching.entry with
      | .file _ _ (some _) => some download
      | .file _ _ none => some (.ok none)
      | .dir _ => some (.ok none) }

namespace Lookahead

def new (entries : List (Except Error Entry)) (budget : Nat) : Lookahead Error where
  entries := some entries
  waiting := none
  fetching := []
  fetched := []
  reserved := 0
  budget
  failure := none

def len (lookahead : Lookahead Error) : Nat :=
  lookahead.fetching.length + lookahead.fetched.length

def fail (error : Error) (lookahead : Lookahead Error) : Lookahead Error :=
  { lookahead with failure := some (lookahead.failure.getD error) }

/-- The next entry, of a listing that has so many items more at once. -/
def pollEntry (listed : Nat) (lookahead : Lookahead Error) : Option Entry × Nat × Lookahead Error :=
  match lookahead.waiting with
  | some entry => (some entry, listed, { lookahead with waiting := none })
  | none =>
    match lookahead.entries, listed with
    | none, listed => (none, listed, lookahead)
    | some _, 0 => (none, 0, lookahead)
    | some (.ok entry :: entries), listed + 1 =>
      (some entry, listed, { lookahead with entries := some entries })
    | some (.error error :: _), listed + 1 =>
      (none, listed, { lookahead with entries := none }.fail error)
    | some [], listed + 1 => (none, listed, { lookahead with entries := none })

def admitted (idle : Bool) (cost : Nat) (lookahead : Lookahead Error) : Bool :=
  let fits := decide (saturatingAdd lookahead.reserved cost ≤ lookahead.budget)
  fits || (idle && lookahead.len = 0)

def takeIn (entry : Entry) (lookahead : Lookahead Error) : Lookahead Error :=
  { lookahead with
    reserved := saturatingAdd lookahead.reserved (firstChunkCost entry)
    fetching := lookahead.fetching ++ [fetch entry (firstChunkCost entry)] }

/-- Take entries in, while there is room for so many. -/
def fillWindow (idle : Bool) : Nat → Nat → Lookahead Error → Lookahead Error
  | 0, _, lookahead => lookahead
  | room + 1, listed, lookahead =>
    match lookahead.pollEntry listed with
    | (none, _, lookahead) => lookahead
    | (some entry, listed, lookahead) =>
      if lookahead.admitted idle (firstChunkCost entry) then
        fillWindow idle room listed (lookahead.takeIn entry)
      else { lookahead with waiting := some entry }

/-- Move along the fetches that are done, as far as they are in order. -/
def settle : List (Fetching Error) → Lookahead Error → Lookahead Error
  | [], lookahead => { lookahead with fetching := [] }
  | fetching :: rest, lookahead =>
    match fetching.outcome with
    | none => { lookahead with fetching := fetching :: rest }
    | some (.ok firstChunk) =>
      settle rest
        { lookahead with
          fetched := lookahead.fetched ++ [⟨fetching.entry, firstChunk, fetching.reserved⟩] }
    | some (.error error) => settle rest (lookahead.fail error)

def pollFill (idle : Bool) (listed : Nat) (lookahead : Lookahead Error) : Lookahead Error :=
  let filled := fillWindow idle (maxWindowEntries - lookahead.len) listed lookahead
  settle filled.fetching filled

end Lookahead

inductive Next (Error : Type) where
  | pending
  | entry (fetched : Fetched)
  | failed (error : Error)
  | ended

namespace Lookahead

/-- Poll for the next entry, with none being written. -/
def next (listed : Nat) (lookahead : Lookahead Error) : Next Error × Lookahead Error :=
  let lookahead := lookahead.pollFill true listed
  match lookahead.failure with
  | some error => (.failed error, { lookahead with failure := none })
  | none =>
    match lookahead.fetched with
    | fetched :: rest =>
      (.entry fetched,
        { lookahead with
          fetched := rest
          reserved := lookahead.reserved - fetched.reserved })
    | [] =>
      if lookahead.entries.isNone && lookahead.waiting.isNone && lookahead.fetching.isEmpty then
        (.ended, lookahead)
      else (.pending, lookahead)

/-- Poll the work on an entry, with the window filling alongside. -/
def alongside (listed : Nat) (work : Option (Except Error Unit)) (lookahead : Lookahead Error) :
    Option (Except Error Unit) × Lookahead Error :=
  let lookahead := lookahead.pollFill false listed
  match lookahead.failure with
  | some error => (some (.error error), { lookahead with failure := none })
  | none => (work, lookahead)

end Lookahead

inductive Phase (Error : Type) where
  | choosing
  | writing (fetched : Fetched)
  | finished
  | failed (error : Error)

structure Writing (Error : Type) where
  lookahead : Lookahead Error
  phase : Phase Error
  written : List Entry

inductive Move (Error : Type) where
  /-- The download of the entry at a place among the fetches is done. -/
  | arrive (place : Nat) (download : Except Error (Option Transfer.Chunk))
  /-- A poll, with so many items more listed and the work on the current entry so far. -/
  | poll (listed : Nat) (work : Option (Except Error Unit))

namespace Writing

def arrive (place : Nat) (download : Except Error (Option Transfer.Chunk)) (writing : Writing Error) :
    Option (Writing Error) :=
  match writing.lookahead.fetching[place]? with
  | some ⟨entry, reserved, none⟩ =>
    some { writing with
      lookahead := { writing.lookahead with
        fetching := writing.lookahead.fetching.set place
          (Fetching.done ⟨entry, reserved, none⟩ download) } }
  | _ => none

def poll (listed : Nat) (work : Option (Except Error Unit)) (writing : Writing Error) :
    Option (Writing Error) :=
  match writing.phase with
  | .choosing =>
    match writing.lookahead.next listed with
    | (.pending, lookahead) => some { writing with lookahead }
    | (.entry fetched, lookahead) => some { writing with lookahead, phase := .writing fetched }
    | (.failed error, lookahead) => some { writing with lookahead, phase := .failed error }
    | (.ended, lookahead) => some { writing with lookahead, phase := .finished }
  | .writing fetched =>
    match writing.lookahead.alongside listed work with
    | (none, lookahead) => some { writing with lookahead }
    | (some (.ok _), lookahead) =>
      some {
        lookahead
        phase := .choosing
        written := writing.written ++ [fetched.entry]
      }
    | (some (.error error), lookahead) => some { writing with lookahead, phase := .failed error }
  | _ => none

/-- The writing of a stream's entries, with a memory budget. -/
def machine (budget : Nat) (entries : List (Except Error Entry)) : Machine (Writing Error) (Move Error) where
  start :=
    {
      lookahead := .new entries (BudgetSplit.new budget).window
      phase := .choosing
      written := []
    }
  step
    | .arrive place download, writing => writing.arrive place download
    | .poll listed work, writing => writing.poll listed work

end Writing

end Window

end SyncEngine.Zip
