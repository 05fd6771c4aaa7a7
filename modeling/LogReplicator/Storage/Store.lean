import LogReplicator.Library.Table
import LogReplicator.Storage.Json

/-!
# The durable store of a node

The SQLite store of `internal/storage`: the `metadata` keys, the tables
`log_entries` and `kv`, and the single row of `snapshot`.  A mutation is a
function on stores and stands for one transaction; whether a transaction
commits is decided where the mutation is issued.

Indexes and terms are natural numbers; the columns that hold indexes are signed, so the
store stands for the tables as long as indexes are below 2^63 (`Storage.Represents`).  The
column `kv.log_index` is written by the source and never read, so it is left out.

The columns `log_entries.command` and `snapshot.data` are `NOT NULL`, and an empty byte
string, which comes off the wire as `nil`, is bound as `NULL`.  A transaction that inserts
one is refused (`storable`).
-/

namespace LogReplicator

open Library

/-- A single record of the replicated log. -/
structure Entry where
  index : Nat
  term : Nat
  command : Bytes
deriving DecidableEq, Repr

/-- A row of `log_entries`; the primary key `idx` is the table key. -/
structure LogRow where
  term : Nat
  command : Bytes
deriving DecidableEq, Repr

/-- A compacted state machine plus the log position it covers. -/
structure Snapshot where
  lastIncludedIndex : Nat
  lastIncludedTerm : Nat
  data : Bytes
deriving DecidableEq, Repr

/-- The content of `raft.db`. -/
structure Store where
  currentTerm : Nat
  votedFor : String
  lastApplied : Nat
  snapshotIndex : Nat
  snapshotTerm : Nat
  logEntries : Table Nat LogRow
  kv : Table String String
  snapshot : Option Snapshot

namespace Store

/-- `init` on an empty data directory: the schema and the seeded metadata. -/
def init : Store where
  currentTerm := 0
  votedFor := ""
  lastApplied := 0
  snapshotIndex := 0
  snapshotTerm := 0
  logEntries := Table.empty
  kv := Table.empty
  snapshot := none

/-- Persist term and vote atomically. -/
def saveTermVote (s : Store) (term : Nat) (votedFor : String) : Store :=
  { s with currentTerm := term, votedFor := votedFor }

/-- The position of the last log entry, falling back to the snapshot position
when the log is empty. -/
def lastIndexAndTerm (s : Store) : Nat × Nat :=
  match s.logEntries.last with
  | some (index, row) => (index, row.term)
  | none => (s.snapshotIndex, s.snapshotTerm)

/-- The index part of `lastIndexAndTerm`. -/
def lastIndex (s : Store) : Nat :=
  s.lastIndexAndTerm.1

/-- The snapshot row, or the zero snapshot when there is none. -/
def loadSnapshot (s : Store) : Snapshot :=
  s.snapshot.getD ⟨0, 0, []⟩

/-- The term stored at an index; `none` when the index is unknown, either
because it was never written or because it is already compacted. -/
def term (s : Store) (index : Nat) : Option Nat :=
  if index = 0 then some 0
  else if index = s.snapshotIndex then some s.snapshotTerm
  else if index < s.snapshotIndex then none
  else (s.logEntries.get index).map LogRow.term

/-- The log entry at an index. -/
def entry (s : Store) (index : Nat) : Option Entry :=
  (s.logEntries.get index).map fun row => ⟨index, row.term, row.command⟩

/-- At most `limit` entries starting at `start`.  A limit of zero or less means
everything that is left. -/
def entriesFrom (s : Store) (start : Nat) (limit : Int) : List Entry :=
  let start := if start ≤ s.snapshotIndex then s.snapshotIndex + 1 else start
  let rows := s.logEntries.select fun index => decide (start ≤ index)
  let rows := if limit ≤ 0 then rows else rows.take limit.toNat
  rows.map fun r => ⟨r.1, r.2.term, r.2.command⟩

/-- Whether the schema accepts the entries: no command is empty. -/
def storable (entries : List Entry) : Bool :=
  entries.all fun e => decide (e.command ≠ [])

theorem storable_append
    (entries entries' : List Entry) :
    storable (entries ++ entries') = true ↔
      storable entries = true ∧ storable entries' = true := by
  rw [storable, List.all_append, Bool.and_eq_true]
  exact Iff.rfl

/-- Write entries, overwriting any entry that already occupies the index.  This is the
effect of the transaction when the entries are `storable`. -/
def appendEntries (s : Store) (entries : List Entry) : Store :=
  { s with
    logEntries :=
      s.logEntries.putAll (entries.map fun e => (e.index, ⟨e.term, e.command⟩)) }

/-- One statement of `appendEntries`. -/
def putEntry (s : Store) (e : Entry) : Store :=
  { s with logEntries := s.logEntries.put e.index ⟨e.term, e.command⟩ }

/-- Drop an index and everything after it. -/
def deleteFrom (s : Store) (index : Nat) : Store :=
  { s with logEntries := s.logEntries.deleteWhere fun i => decide (index ≤ i) }

/-- Store `key = value` and move `last_applied` in one transaction. -/
def applySet (s : Store) (index : Nat) (key value : String) : Store :=
  { s with kv := s.kv.put key value, lastApplied := index }

/-- Remove `key` and move `last_applied` in one transaction. -/
def applyDelete (s : Store) (index : Nat) (key : String) : Store :=
  { s with kv := s.kv.deleteWhere fun k => decide (k = key), lastApplied := index }

/-- Move `last_applied` without touching the state machine. -/
def skipTo (s : Store) (index : Nat) : Store :=
  { s with lastApplied := index }

/-- The value of a key. -/
def get (s : Store) (key : String) : Option String :=
  s.kv.get key

/-- The whole state machine. -/
def all (s : Store) : Members :=
  s.kv.rows

/-- Record a snapshot: the snapshot row and the three metadata keys. -/
def saveSnapshot (s : Store) (snapshot : Snapshot) : Store :=
  { s with
    snapshot := some snapshot
    snapshotIndex := snapshot.lastIncludedIndex
    snapshotTerm := snapshot.lastIncludedTerm
    lastApplied := snapshot.lastIncludedIndex }

/-- Drop every log entry a snapshot covers. -/
def compactLog (s : Store) (throughIndex : Nat) : Store :=
  { s with
    logEntries := s.logEntries.deleteWhere fun i => decide (i ≤ throughIndex) }

/-- Serialise the state machine, record it as the snapshot at the given
position and compact every log entry it covers. -/
def createSnapshot (json : Json) (s : Store)
    (lastIncludedIndex lastIncludedTerm : Nat) : Store :=
  (s.saveSnapshot
    ⟨lastIncludedIndex, lastIncludedTerm, json.marshal s.all⟩).compactLog
      lastIncludedIndex

/-- The state machine a snapshot holds; `none` when its data does not decode. -/
def decodeSnapshot (json : Json) (data : Bytes) : Option (Table String String) :=
  if data = [] then some Table.empty
  else (json.unmarshalMap data).map Table.empty.putAll

/-- Whether the schema accepts the data of a snapshot: it is not empty. -/
def storableData (data : Bytes) : Bool :=
  decide (data ≠ [])

/-- Replace the state machine by that of a snapshot, once it is decoded.  This is the
effect of the transaction when the data is `storableData`. -/
def installSnapshot (s : Store) (snapshot : Snapshot)
    (state : Table String String) : Store :=
  ({ s with kv := state }.saveSnapshot snapshot).compactLog
    snapshot.lastIncludedIndex

/-! Term and vote live beside the log: saving them changes nothing else. -/

section SaveTermVote

variable (s : Store) (t : Nat) (v : String)

@[simp] theorem lastIndexAndTerm_saveTermVote :
    (s.saveTermVote t v).lastIndexAndTerm = s.lastIndexAndTerm :=
  rfl

@[simp] theorem lastIndex_saveTermVote :
    (s.saveTermVote t v).lastIndex = s.lastIndex :=
  rfl

@[simp] theorem term_saveTermVote :
    (s.saveTermVote t v).term = s.term :=
  rfl

@[simp] theorem entry_saveTermVote :
    (s.saveTermVote t v).entry = s.entry :=
  rfl

@[simp] theorem snapshotIndex_saveTermVote :
    (s.saveTermVote t v).snapshotIndex = s.snapshotIndex :=
  rfl

end SaveTermVote

end Store

end LogReplicator
