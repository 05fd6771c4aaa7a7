import LogReplicator.Raft.Replication

/-!
# The follower side

The two incoming consensus RPCs of `follower.go`: `AppendEntries` with its
merge of leader entries, and `InstallSnapshot`.
-/

namespace LogReplicator

open Library

namespace Node

/-- The loop of `storeLeaderEntriesLocked`: skip entries the node already
holds, drop the suffix that starts at the first conflict, and collect
everything from there on.  The result is the match index with the entries still
to be written; `none` is a storage error. -/
def collectMissing (snapshotIndex : Nat) :
    List Entry → Nat → List Entry → Txn Node (Option (Nat × List Entry))
  | [], matchIndex, missing => pure (some (matchIndex, missing))
  | e :: es, matchIndex, missing =>
      if e.index ≤ snapshotIndex then
        collectMissing snapshotIndex es matchIndex missing
      else if missing ≠ [] then
        collectMissing snapshotIndex es (max matchIndex e.index) (missing ++ [e])
      else do
        let n ← Txn.read
        match n.store.term e.index with
        | none =>
            collectMissing snapshotIndex es (max matchIndex e.index) [e]
        | some localTerm =>
            if localTerm = e.term then
              collectMissing snapshotIndex es (max matchIndex e.index) []
            else do
              let deleted ← writeStore fun s => s.deleteFrom e.index
              if deleted then
                collectMissing snapshotIndex es (max matchIndex e.index) [e]
              else
                pure none

/-- `Store.AppendEntries`: no transaction when there is nothing to write. -/
def appendMissing (missing : List Entry) : Txn Node Bool :=
  if missing = [] then pure true
  else writeStoreIf (Store.storable missing) fun s => s.appendEntries missing

/-- Append the entries the follower is missing and return the highest index it
holds afterwards; `none` is a storage error. -/
def storeLeaderEntriesLocked (entries : List Entry)
    (prevLogIndex snapshotIndex : Nat) : Txn Node (Option Nat) := do
  let collected ← collectMissing snapshotIndex entries prevLogIndex []
  match collected with
  | none => pure none
  | some (matchIndex, missing) => do
      let appended ← appendMissing missing
      if appended then pure (some matchIndex) else pure none

/-- Adopt the leader commit index, capped by what this node stores, and apply
the newly committed entries. -/
def followLeaderCommitLocked (json : Json) (o : Options) (leaderCommit : Nat) :
    Txn Node Unit := do
  let n ← Txn.read
  if leaderCommit ≤ n.commitIndex then
    pure ()
  else do
    Txn.update fun n =>
      { n with commitIndex := min leaderCommit n.store.lastIndex }
    applyCommittedLocked json o

/-- The reply that tells the leader the local log position. -/
def rejectAppendLocked (n : Node) : AppendEntriesResponse :=
  ⟨n.currentTerm, false, n.store.lastIndex⟩

/-- The part of `AppendEntries` and `InstallSnapshot` that accepts the sender
as the leader of its term. -/
def acceptLeader (term : Nat) (leaderId : String) : Txn Node Unit := do
  let n ← Txn.read
  if n.currentTerm < term ∨ n.role ≠ .follower then do
    stepDownLocked term leaderId
    Txn.update fun n => { n with leaderID := leaderId }
  else
    Txn.update fun n => { n with leaderID := leaderId }

/-- The consistency check and the merge, once the leader is accepted. -/
def mergeLocked (json : Json) (o : Options) (req : AppendEntriesRequest) :
    Txn Node (Handled AppendEntriesResponse) := do
  let n ← Txn.read
  if req.prevLogIndex < n.store.snapshotIndex then
    pure ⟨.behindSnapshot,
      some ⟨n.currentTerm, false, n.store.snapshotIndex⟩⟩
  else if n.store.term req.prevLogIndex ≠ some req.prevLogTerm then
    pure ⟨.logMismatch, some n.rejectAppendLocked⟩
  else do
    let stored ← storeLeaderEntriesLocked req.entries req.prevLogIndex
      n.store.snapshotIndex
    match stored with
    | none => pure ⟨.error, none⟩
    | some matchIndex => do
        followLeaderCommitLocked json o req.leaderCommit
        pure ⟨.success, some ⟨n.currentTerm, true, matchIndex⟩⟩

/-- The `RaftService` heartbeat and replication RPC. -/
def appendEntries (json : Json) (o : Options) (req : AppendEntriesRequest) :
    Txn Node (Handled AppendEntriesResponse) := do
  let n ← Txn.read
  if req.term < n.currentTerm then
    pure ⟨.staleTerm, some n.rejectAppendLocked⟩
  else do
    acceptLeader req.term req.leaderId
    mergeLocked json o req

/-- The installation itself, once the leader is accepted. -/
def installLocked (json : Json) (req : InstallSnapshotRequest) :
    Txn Node (Handled InstallSnapshotResponse) := do
  let n ← Txn.read
  if req.lastIncludedIndex ≤ n.store.snapshotIndex then
    pure ⟨.ignored, some ⟨n.currentTerm⟩⟩
  else
    match Store.decodeSnapshot json req.data with
    | none => pure ⟨.error, none⟩
    | some state => do
        let installed ← writeStoreIf (Store.storableData req.data) fun s =>
          s.installSnapshot ⟨req.lastIncludedIndex, req.lastIncludedTerm, req.data⟩ state
        if installed then do
          Txn.update fun n =>
            { n with
              commitIndex := max n.commitIndex req.lastIncludedIndex
              lastApplied := max n.lastApplied req.lastIncludedIndex }
          pure ⟨.success, some ⟨n.currentTerm⟩⟩
        else
          pure ⟨.error, none⟩

/-- The `RaftService` snapshot RPC. -/
def installSnapshot (json : Json) (req : InstallSnapshotRequest) :
    Txn Node (Handled InstallSnapshotResponse) := do
  let n ← Txn.read
  if req.term < n.currentTerm then
    pure ⟨.staleTerm, some ⟨n.currentTerm⟩⟩
  else do
    acceptLeader req.term req.leaderId
    installLocked json req

end Node

end LogReplicator
