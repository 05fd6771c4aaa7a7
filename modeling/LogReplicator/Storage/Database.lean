import LogReplicator.Library.JsonText
import LogReplicator.Library.TableImage
import LogReplicator.Library.Text
import LogReplicator.Storage.Statements

/-!
# The tables of raft.db

`Store` has the content of the database.  This module has the database itself: the
table `metadata` with its decimal texts, the signed columns of `log_entries` and
`snapshot`, the column `kv.log_index`, the statements with their conversions, the
queries with their error paths, and `init`, which runs whenever the store is opened and
can be interrupted anywhere.

What SQLite reports when a statement fails is left open; an error says which of the
texts of `storage.go` it is wrapped in.
-/

namespace LogReplicator

open Library

/-- The conversion `int64(n)` of a `uint64`. -/
def int64 (n : Nat) : Int :=
  Int.bmod n (2 ^ 64)

/-- The conversion `uint64(i)` of an `int64`. -/
def uint64 (i : Int) : Nat :=
  (i % 2 ^ 64).toNat

/-- A string as it is stored. -/
def text (s : String) : Bytes :=
  JsonText.utf8 s.toList

/-- The keys of the table `metadata`. -/
inductive MetaKey where
  | currentTerm
  | votedFor
  | lastApplied
  | snapshotIndex
  | snapshotTerm
deriving DecidableEq, Repr

namespace MetaKey

def name : MetaKey → String
  | currentTerm => "current_term"
  | votedFor => "voted_for"
  | lastApplied => "last_applied"
  | snapshotIndex => "snapshot_index"
  | snapshotTerm => "snapshot_term"

/-- The value `init` seeds the key with. -/
def default : MetaKey → Bytes
  | currentTerm => text "0"
  | votedFor => text ""
  | lastApplied => text "0"
  | snapshotIndex => text "0"
  | snapshotTerm => text "0"

def all : List MetaKey :=
  [currentTerm, votedFor, lastApplied, snapshotIndex, snapshotTerm]

theorem mem_all
    (k : MetaKey) :
    k ∈ all := by
  cases k <;> decide

theorem name_injective :
    Function.Injective name := by
  intro k k' h
  cases k <;> cases k' <;> first | rfl | exact absurd h (by decide)

end MetaKey

/-- A row of `log_entries`; the primary key `idx` is the table key. -/
structure EntryColumns where
  term : Int
  command : Bytes
deriving DecidableEq, Repr

/-- A row of `kv`. -/
structure KvColumns where
  value : String
  logIndex : Int
deriving DecidableEq, Repr

/-- The row of `snapshot`, whose `id` is 1. -/
structure SnapshotColumns where
  lastIncludedIndex : Int
  lastIncludedTerm : Int
  data : Bytes
deriving DecidableEq, Repr

/-- The tables; one that was not created yet is `none`. -/
structure Database where
  metadata : Option (Table String Bytes)
  logEntries : Option (Table Int EntryColumns)
  kv : Option (Table String KvColumns)
  snapshot : Option (Table Int SnapshotColumns)

/-- The errors of `storage.go`, with what their texts name. -/
inductive StoreError where
  | createSchema
  | seedMetadata (key : MetaKey)
  | readMetadata (key : MetaKey)
  | invalidMetadata (key : MetaKey) (value : Bytes)
  | writeMetadata (key : MetaKey)
  | appendEntry (index : Nat)
  | deleteEntriesFrom (index : Nat)
  | compactLog (throughIndex : Nat)
  | applySet (key : String)
  | applyDelete (key : String)
  | clearStateMachine
  | restoreKey (key : String)
  | saveSnapshot
  | readLastEntry
  | loadSnapshot
  | readTerm (index : Nat)
  | readEntry (index : Nat)
  | readEntries (start : Nat)
  | readKey (key : String)
  | readStateMachine
  /-- `begin transaction`, or an error of the commit, which has no text of its own. -/
  | transaction
deriving DecidableEq, Repr

/-- The statements that write, with the values they are given. -/
inductive Sql where
  | createMetadata
  | createLogEntries
  | createKv
  | createSnapshot
  /-- `INSERT OR IGNORE INTO metadata`. -/
  | seedMeta (key : MetaKey) (value : Bytes)
  | setMeta (key : MetaKey) (value : Bytes)
  | putEntry (e : Entry)
  | deleteFrom (index : Nat)
  | compactLog (throughIndex : Nat)
  /-- `INSERT INTO kv` with `ON CONFLICT(key) DO UPDATE`. -/
  | putKv (key value : String) (index : Nat)
  /-- `INSERT INTO kv` without it. -/
  | insertKv (key value : String) (index : Nat)
  | deleteKv (key : String)
  | clearKv
  | putSnapshot (snapshot : Snapshot)

namespace Sql

/-- Execute a statement; `none` is an error of SQLite: the table does not exist, the key is
taken, or a column that is `NOT NULL` gets an empty byte string, which is bound as `NULL`. -/
def exec (db : Database) : Sql → Option Database
  | createMetadata => some { db with metadata := some (db.metadata.getD Table.empty) }
  | createLogEntries => some { db with logEntries := some (db.logEntries.getD Table.empty) }
  | createKv => some { db with kv := some (db.kv.getD Table.empty) }
  | createSnapshot => some { db with snapshot := some (db.snapshot.getD Table.empty) }
  | seedMeta key value => db.metadata.map fun t =>
      { db with metadata := some (if (t.get key.name).isSome then t else t.put key.name value) }
  | setMeta key value => db.metadata.map fun t =>
      { db with metadata := some (t.put key.name value) }
  | putEntry e => db.logEntries.bind fun t =>
      if e.command = [] then none
      else some
        { db with logEntries := some (t.put (int64 e.index) ⟨int64 e.term, e.command⟩) }
  | deleteFrom index => db.logEntries.map fun t =>
      { db with logEntries := some (t.deleteWhere fun idx => decide (int64 index ≤ idx)) }
  | compactLog throughIndex => db.logEntries.map fun t =>
      { db with
        logEntries := some (t.deleteWhere fun idx => decide (idx ≤ int64 throughIndex)) }
  | putKv key value index => db.kv.map fun t =>
      { db with kv := some (t.put key ⟨value, int64 index⟩) }
  | insertKv key value index => db.kv.bind fun t =>
      if (t.get key).isSome then none
      else some { db with kv := some (t.put key ⟨value, int64 index⟩) }
  | deleteKv key => db.kv.map fun t =>
      { db with kv := some (t.deleteWhere fun k => decide (k = key)) }
  | clearKv => db.kv.map fun _ => { db with kv := some Table.empty }
  | putSnapshot p => db.snapshot.bind fun t =>
      if p.data = [] then none
      else some
        { db with
          snapshot := some
            (t.put 1 ⟨int64 p.lastIncludedIndex, int64 p.lastIncludedTerm, p.data⟩) }

/-- The text a failure of the statement is wrapped in. -/
def error : Sql → StoreError
  | createMetadata => .createSchema
  | createLogEntries => .createSchema
  | createKv => .createSchema
  | createSnapshot => .createSchema
  | seedMeta key _ => .seedMetadata key
  | setMeta key _ => .writeMetadata key
  | putEntry e => .appendEntry e.index
  | deleteFrom index => .deleteEntriesFrom index
  | compactLog throughIndex => .compactLog throughIndex
  | putKv key _ _ => .applySet key
  | insertKv key _ _ => .restoreKey key
  | deleteKv key => .applyDelete key
  | clearKv => .clearStateMachine
  | putSnapshot _ => .saveSnapshot

end Sql

namespace Database

/-- The file before the store was ever opened. -/
def empty : Database :=
  ⟨none, none, none, none⟩

/-- Statements one after the other; the first that fails ends them. -/
def execAll (db : Database) : List Sql → Database × Option StoreError
  | [] => (db, none)
  | q :: qs =>
      match q.exec db with
      | none => (db, some q.error)
      | some db' => db'.execAll qs

/-- A transaction: the statements happen together or not at all. -/
def inTx (db : Database) (qs : List Sql) : Outcome → Database × Option StoreError
  | .commit =>
      match db.execAll qs with
      | (db', none) => (db', none)
      | (_, some e) => (db, some e)
  | _ => (db, some .transaction)

/-- The statements of `init`.  The defaults are a map, which is iterated in any order. -/
def init (order : List MetaKey) : List Sql :=
  [.createMetadata, .createLogEntries, .createKv, .createSnapshot] ++
    order.map fun key => .seedMeta key key.default

/-- `Open`.  Every statement of `init` stands for itself, and the process can be gone
after any number of them. -/
def openStore (db : Database) (order : List MetaKey) (done : Nat) :
    Database × Option StoreError :=
  db.execAll ((init order).take done)

/-- An empty file after attempts to open the store. -/
def attempted (attempts : List (List MetaKey × Nat)) : Database :=
  attempts.foldl (fun db a => (db.openStore a.1 a.2).1) empty

/-- The store opened on such a file. -/
def opened (attempts : List (List MetaKey × Nat)) (order : List MetaKey) : Database :=
  ((attempted attempts).openStore order (init order).length).1

section Queries

variable (db : Database)

def stringMeta (key : MetaKey) : Except StoreError Bytes :=
  match db.metadata.bind fun t => t.get key.name with
  | none => .error (.readMetadata key)
  | some value => .ok value

def uintMeta (key : MetaKey) : Except StoreError Nat := do
  let value ← db.stringMeta key
  match Text.parseUint value with
  | none => .error (.invalidMetadata key value)
  | some parsed => .ok parsed

def currentTermVote : Except StoreError (Nat × Bytes) := do
  let term ← db.uintMeta .currentTerm
  let votedFor ← db.stringMeta .votedFor
  return (term, votedFor)

def lastApplied : Except StoreError Nat :=
  db.uintMeta .lastApplied

def snapshotIndexTerm : Except StoreError (Nat × Nat) := do
  let index ← db.uintMeta .snapshotIndex
  let term ← db.uintMeta .snapshotTerm
  return (index, term)

def lastIndexAndTerm : Except StoreError (Nat × Nat) :=
  match db.logEntries.map Table.last with
  | none => .error .readLastEntry
  | some none => db.snapshotIndexTerm
  | some (some (idx, row)) => .ok (uint64 idx, uint64 row.term)

def loadSnapshot : Except StoreError Snapshot :=
  match db.snapshot.map fun t => t.get 1 with
  | none => .error .loadSnapshot
  | some none => .ok ⟨0, 0, []⟩
  | some (some row) =>
      .ok ⟨uint64 row.lastIncludedIndex, uint64 row.lastIncludedTerm, row.data⟩

/-- The result is `none` when the index is unknown. -/
def term (index : Nat) : Except StoreError (Option Nat) :=
  if index = 0 then .ok (some 0)
  else do
    let (snapshotIndex, snapshotTerm) ← db.snapshotIndexTerm
    if index = snapshotIndex then .ok (some snapshotTerm)
    else if index < snapshotIndex then .ok none
    else
      match db.logEntries.map fun t => t.get (int64 index) with
      | none => .error (.readTerm index)
      | some row => .ok (row.map fun row => uint64 row.term)

def entry (index : Nat) : Except StoreError (Option Entry) :=
  match db.logEntries.map fun t => t.get (int64 index) with
  | none => .error (.readEntry index)
  | some row => .ok (row.map fun row => ⟨index, uint64 row.term, row.command⟩)

def entriesFrom (start : Nat) (limit : Int) : Except StoreError (List Entry) := do
  let (snapshotIndex, _) ← db.snapshotIndexTerm
  let start := if start ≤ snapshotIndex then (snapshotIndex + 1) % 2 ^ 64 else start
  match db.logEntries.map fun t => t.select fun idx => decide (int64 start ≤ idx) with
  | none => .error (.readEntries start)
  | some rows =>
      -- a limit of -1 is no limit
      let rows := if limit ≤ 0 then rows else rows.take limit.toNat
      return rows.map fun r => ⟨uint64 r.1, uint64 r.2.term, r.2.command⟩

def get (key : String) : Except StoreError (Option String) :=
  match db.kv.map fun t => t.get key with
  | none => .error (.readKey key)
  | some row => .ok (row.map KvColumns.value)

def all : Except StoreError Members :=
  match db.kv with
  | none => .error .readStateMachine
  | some t => .ok (t.rows.map fun r => (r.1, r.2.value))

end Queries

end Database

namespace Transaction

/-- The statements of `saveSnapshot`. -/
def saveSnapshotSql (snapshot : Snapshot) : List Sql :=
  [.putSnapshot snapshot,
    .setMeta .snapshotIndex (Text.formatUint snapshot.lastIncludedIndex),
    .setMeta .snapshotTerm (Text.formatUint snapshot.lastIncludedTerm),
    .setMeta .lastApplied (Text.formatUint snapshot.lastIncludedIndex)]

/-- The statements of a transaction.  `CreateSnapshot` first reads the state machine. -/
def sql (json : Json) (db : Database) : Transaction → Except StoreError (List Sql)
  | saveTermVote term votedFor =>
      .ok [.setMeta .currentTerm (Text.formatUint term), .setMeta .votedFor (text votedFor)]
  | appendEntries entries _ =>
      .ok (entries.map .putEntry)
  | applySet index key value =>
      .ok [.putKv key value index, .setMeta .lastApplied (Text.formatUint index)]
  | applyDelete index key =>
      .ok [.deleteKv key, .setMeta .lastApplied (Text.formatUint index)]
  | skipTo index =>
      .ok [.setMeta .lastApplied (Text.formatUint index)]
  | createSnapshot lastIncludedIndex lastIncludedTerm => do
      let state ← db.all
      return saveSnapshotSql ⟨lastIncludedIndex, lastIncludedTerm, json.marshal state⟩ ++
        [.compactLog lastIncludedIndex]
  | installSnapshot snapshot _ rows _ =>
      .ok ([.clearKv] ++ rows.map (fun r => .insertKv r.1 r.2 snapshot.lastIncludedIndex) ++
        saveSnapshotSql snapshot ++ [.compactLog snapshot.lastIncludedIndex])

end Transaction

/-- What is done to the database: transactions, the one write outside a transaction, and
the store being opened again. -/
inductive StorageOp where
  | transact (t : Transaction) (o : Outcome)
  | deleteFrom (index : Nat) (o : Outcome)
  | openStore (order : List MetaKey) (done : Nat)

/-- The database afterwards, with the error that is returned. -/
def Database.perform (json : Json) (db : Database) :
    StorageOp → Database × Option StoreError
  | .transact t o =>
      match t.sql json db with
      | .error e => (db, some e)
      | .ok qs => db.inTx qs o
  | .deleteFrom index o =>
      -- a statement outside a transaction is one of its own
      db.inTx [.deleteFrom index] o
  | .openStore order done => db.openStore order done

/-- A whole run; the errors go to the callers. -/
def Database.performAll (json : Json) (db : Database) (ops : List StorageOp) : Database :=
  ops.foldl (fun db op => (db.perform json op).1) db

/-- The same operation on the store. -/
def Store.perform (json : Json) (s : Store) : StorageOp → Store
  | .transact t .commit => if t.accepted then t.effect json s else s
  | .deleteFrom index .commit => s.deleteFrom index
  | _ => s

def Store.performAll (json : Json) (s : Store) (ops : List StorageOp) : Store :=
  ops.foldl (Store.perform json) s

end LogReplicator
