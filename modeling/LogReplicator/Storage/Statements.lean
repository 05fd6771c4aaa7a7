import LogReplicator.Library.Txn
import LogReplicator.Storage.Store

/-!
# The statements of a transaction

`Store.inTx` begins a transaction, executes statements one by one and commits it or
rolls it back.  The rest of the development treats a transaction as one write with one
fate.  This is what the statements of every transaction amount to, whichever of them
fails and wherever the process dies.
-/

namespace LogReplicator

open Library

/-- The statements that change the database. -/
inductive Statement where
  | setCurrentTerm (term : Nat)
  | setVotedFor (votedFor : String)
  | setLastApplied (index : Nat)
  | setSnapshotIndex (index : Nat)
  | setSnapshotTerm (term : Nat)
  | putEntry (e : Entry)
  | deleteEntriesThrough (index : Nat)
  | putKey (key value : String)
  | deleteKey (key : String)
  | deleteKeys
  | putSnapshot (snapshot : Snapshot)

def Statement.run (s : Store) : Statement → Store
  | setCurrentTerm term => { s with currentTerm := term }
  | setVotedFor votedFor => { s with votedFor := votedFor }
  | setLastApplied index => { s with lastApplied := index }
  | setSnapshotIndex index => { s with snapshotIndex := index }
  | setSnapshotTerm term => { s with snapshotTerm := term }
  | putEntry e => s.putEntry e
  | deleteEntriesThrough index => s.compactLog index
  | putKey key value => { s with kv := s.kv.put key value }
  | deleteKey key => { s with kv := s.kv.deleteWhere fun k => decide (k = key) }
  | deleteKeys => { s with kv := Table.empty }
  | putSnapshot snapshot => { s with snapshot := some snapshot }

/-- Whether the schema accepts what a statement inserts. -/
def Statement.accepted : Statement → Bool
  | putEntry e => Store.storable [e]
  | putSnapshot snapshot => Store.storableData snapshot.data
  | _ => true

/-- The transactions of the store.  None is begun for an empty list of entries.  The
keys of a snapshot are restored in the order in which its map is iterated. -/
inductive Transaction where
  | saveTermVote (term : Nat) (votedFor : String)
  | appendEntries (entries : List Entry) (hne : entries ≠ [])
  | applySet (index : Nat) (key value : String)
  | applyDelete (index : Nat) (key : String)
  | skipTo (index : Nat)
  | createSnapshot (lastIncludedIndex lastIncludedTerm : Nat)
  | installSnapshot (snapshot : Snapshot) (state : Table String String)
      (rows : List (String × String)) (hrows : rows.Perm state.rows)

namespace Transaction

variable (json : Json)

/-- What the transaction does to the store. -/
def effect (s : Store) : Transaction → Store
  | saveTermVote term votedFor => s.saveTermVote term votedFor
  | appendEntries entries _ => s.appendEntries entries
  | applySet index key value => s.applySet index key value
  | applyDelete index key => s.applyDelete index key
  | skipTo index => s.skipTo index
  | createSnapshot lastIncludedIndex lastIncludedTerm =>
      s.createSnapshot json lastIncludedIndex lastIncludedTerm
  | installSnapshot snapshot state _ _ => s.installSnapshot snapshot state

/-- Whether the schema accepts everything the transaction inserts.  The text of a state
machine is never empty. -/
def accepted : Transaction → Bool
  | appendEntries entries _ => Store.storable entries
  | installSnapshot snapshot _ _ _ => Store.storableData snapshot.data
  | _ => true

/-- The statements of `saveSnapshot`. -/
def saveSnapshot (snapshot : Snapshot) : List Statement :=
  [.putSnapshot snapshot, .setSnapshotIndex snapshot.lastIncludedIndex,
    .setSnapshotTerm snapshot.lastIncludedTerm, .setLastApplied snapshot.lastIncludedIndex]

/-- The statements of the transaction, in their order.  The data of a snapshot is read
before it begins. -/
def statements (s : Store) : Transaction → List Statement
  | saveTermVote term votedFor => [.setCurrentTerm term, .setVotedFor votedFor]
  | appendEntries entries _ => entries.map .putEntry
  | applySet index key value => [.putKey key value, .setLastApplied index]
  | applyDelete index key => [.deleteKey key, .setLastApplied index]
  | skipTo index => [.setLastApplied index]
  | createSnapshot lastIncludedIndex lastIncludedTerm =>
      saveSnapshot ⟨lastIncludedIndex, lastIncludedTerm, json.marshal s.all⟩ ++
        [.deleteEntriesThrough lastIncludedIndex]
  | installSnapshot snapshot _ rows _ =>
      -- the table is empty and the keys differ, so that no row is overwritten
      .deleteKeys :: rows.map (fun r => .putKey r.1 r.2) ++ saveSnapshot snapshot ++
        [.deleteEntriesThrough snapshot.lastIncludedIndex]

theorem foldl_putEntry
    (entries : List Entry) (s : Store) :
    (entries.map Statement.putEntry).foldl Statement.run s = s.appendEntries entries := by
  induction entries generalizing s with
  | nil =>
      rfl
  | cons e entries ih =>
      exact ih (s.putEntry e)

theorem foldl_putKey
    (rows : List (String × String)) (s : Store) :
    (rows.map fun r => Statement.putKey r.1 r.2).foldl Statement.run s =
      { s with kv := s.kv.putAll rows } := by
  induction rows generalizing s with
  | nil =>
      rfl
  | cons r rows ih =>
      exact ih { s with kv := s.kv.put r.1 r.2 }

/-- The statements together have the effect of the transaction. -/
theorem foldl_statements
    (s : Store) (t : Transaction) :
    (t.statements json s).foldl Statement.run s = t.effect json s := by
  cases t with
  | appendEntries entries hne =>
      exact foldl_putEntry entries s
  | installSnapshot snapshot state rows hrows =>
      simp only [statements, List.foldl_append, List.foldl_cons]
      rw [foldl_putKey]
      simp only [Statement.run]
      rw [Table.putAll_of_perm hrows]
      rfl
  | _ => rfl

/-- A transaction is accepted when its statements are. -/
theorem all_accepted
    (s : Store) (t : Transaction) :
    (t.statements json s).all Statement.accepted = t.accepted := by
  cases t with
  | appendEntries entries hne =>
      simp [statements, accepted, Statement.accepted, Store.storable, Function.comp_def]
  | installSnapshot snapshot state rows hrows =>
      simp [statements, accepted, Statement.accepted, saveSnapshot, Function.comp_def]
  | createSnapshot lastIncludedIndex lastIncludedTerm =>
      simp [statements, accepted, Statement.accepted, saveSnapshot, Store.storableData]
  | _ => rfl

/-- However its statements fare, a transaction is one write with one fate, which has to be
accepted. -/
theorem inTx_eq_write
    (t : Transaction) (os : List Outcome) (s : Store) :
    ∃ o os',
      Txn.inTx (Txn.execAll
          ((t.statements json s).map fun q => (q.accepted, fun s => q.run s))) os s =
        ((Txn.writeIf t.accepted (t.effect json) [o] s).1,
          (Txn.writeIf t.accepted (t.effect json) [o] s).2.1, os') := by
  have heffect : Txn.effectAll
      ((t.statements json s).map fun q => (q.accepted, fun s => Statement.run s q)) s =
        t.effect json s := by
    rw [Txn.effectAll, List.foldl_map]
    exact foldl_statements json s t
  have haccepted : ((t.statements json s).map fun q =>
      (q.accepted, fun s => Statement.run s q)).all Prod.fst = t.accepted := by
    rw [List.all_map]
    exact all_accepted json s t
  obtain ⟨r, s', os', hrun, -, hcases⟩ := Txn.inTx_cases
    ((t.statements json s).map fun q => (q.accepted, fun s => Statement.run s q)) os s
  rw [haccepted, heffect] at hcases
  rw [hrun]
  rcases hcases with ⟨rfl, hall, rfl⟩ | ⟨rfl, rfl, -⟩ | ⟨rfl, rfl, -⟩
  · refine ⟨.commit, os', ?_⟩
    rw [hall]
    rfl
  · refine ⟨.fail, os', ?_⟩
    cases t.accepted <;> rfl
  · refine ⟨.crash, os', ?_⟩
    cases t.accepted <;> rfl

end Transaction

end LogReplicator
