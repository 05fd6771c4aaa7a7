import LogReplicator.Raft.Election

/-!
# Replication, commit and apply

The sections of `replication.go`.  A round of `replicatePeer` is several
sections: `isLeader`, `peerNeedsSnapshot`, the building of the request, and the
handling of the reply; the lock is released between them.
-/

namespace LogReplicator

open Library

/-- How many entries travel in one `AppendEntries` call. -/
def appendBatchSize : Nat := 128

/-- How often one replication call may walk `nextIndex` back. -/
def maxAppendRounds : Nat := 32

/-- The result of a single `AppendEntries` round. -/
inductive AppendOutcome where
  | accepted
  | rejected
  | failed
deriving DecidableEq, Repr

/-- The position to retry from after a rejection. -/
def nextIndexAfterRejection (current followerLastIndex : Nat) : Nat :=
  if current ≤ followerLastIndex then (followerLastIndex + 1) % maxIndexes
  else if current ≤ 1 then 1
  else max (min (current - 1) ((followerLastIndex + 1) % maxIndexes)) 1

/-- The last position a request reaches. -/
def lastEntryIndex (req : AppendEntriesRequest) : Nat :=
  match req.entries.getLast? with
  | some e => e.index
  | none => req.prevLogIndex

namespace Node

def isLeader (n : Node) : Bool :=
  decide (n.role = .leader)

/-- Whether the entries a peer is missing were already compacted away. -/
def peerNeedsSnapshot (n : Node) (peerID : String) : Bool :=
  decide (n.nextIndexLocked peerID ≤ n.store.snapshotIndex)

/-- The next `AppendEntries` call for a peer.  There is none when the local log
cannot describe the position the peer is at; `nextIndex` is lowered then. -/
def buildAppendRequestLocked (o : Options) (peerID : String) (n : Node) :
    Node × Option AppendEntriesRequest :=
  let next := n.nextIndexLocked peerID
  let prevLogIndex := next - 1
  match n.store.term prevLogIndex with
  | none => (n.setNextIndex peerID (max prevLogIndex 1), none)
  | some prevLogTerm =>
      (n, some
        { term := n.currentTerm
          leaderId := o.nodeID
          prevLogIndex := prevLogIndex
          prevLogTerm := prevLogTerm
          entries := n.store.entriesFrom next appendBatchSize
          leaderCommit := n.commitIndex })

/-- The request `sendSnapshot` ships. -/
def buildSnapshotRequest (o : Options) (n : Node) : InstallSnapshotRequest :=
  let snapshot := n.store.loadSnapshot
  { term := n.currentTerm
    leaderId := o.nodeID
    lastIncludedIndex := snapshot.lastIncludedIndex
    lastIncludedTerm := snapshot.lastIncludedTerm
    data := snapshot.data }

/-- The number of nodes that store the entry at an index, this one included. -/
def replicaCountLocked (o : Options) (n : Node) (index : Nat) : Nat :=
  1 + (o.peers.filter fun p => decide (index ≤ n.matchIndex p)).length

/-- Whether `advanceCommitLocked` may commit an index: only entries of the
current term are committed directly. -/
def committable (o : Options) (n : Node) (index : Nat) : Bool :=
  decide (n.store.term index = some n.currentTerm) &&
    decide (majority o ≤ n.replicaCountLocked o index)

/-- The commit index the loop of `advanceCommitLocked` ends with. -/
def committedIndex (o : Options) (n : Node) : Nat :=
  (List.range' (n.commitIndex + 1) (n.store.lastIndex - n.commitIndex)).foldl
    (fun committed index => if n.committable o index then index else committed)
    n.commitIndex

/-- Handle a missing entry: it is fine only when a snapshot covers it. -/
def skipCompactedLocked (index : Nat) : Txn Node Bool := do
  let n ← Txn.read
  if n.store.snapshotIndex < index then
    pure false
  else do
    let saved ← writeStore fun s => s.skipTo n.store.snapshotIndex
    if saved then do
      Txn.update fun n' => { n' with lastApplied := n.store.snapshotIndex }
      pure true
    else
      pure false

/-- Replace applied entries with a snapshot once enough of them piled up. -/
def compactIfNeededLocked (json : Json) (o : Options) : Txn Node Unit := do
  let n ← Txn.read
  if o.snapshotThreshold = 0 ∨ n.lastApplied = 0 then
    pure ()
  else if n.lastApplied ≤ n.store.snapshotIndex ∨
      n.lastApplied - n.store.snapshotIndex < o.snapshotThreshold then
    pure ()
  else
    match n.store.term n.lastApplied with
    | none => pure ()
    | some term => do
        let _ ← writeStore fun s => s.createSnapshot json n.lastApplied term
        pure ()

/-- The loop of `applyCommittedLocked`.  Every round moves `lastApplied` up, so
`commitIndex - lastApplied` rounds reach its end. -/
def applyLoop (json : Json) (o : Options) : Nat → Txn Node Unit
  | 0 => compactIfNeededLocked json o
  | fuel + 1 => do
      let n ← Txn.read
      if n.lastApplied < n.commitIndex then
        match n.store.entry (n.lastApplied + 1) with
        | none => do
            let skipped ← skipCompactedLocked (n.lastApplied + 1)
            if skipped then applyLoop json o fuel else pure ()
        | some entry =>
            match decodeCommand json entry.command with
            | .error _ => pure ()
            | .ok cmd => do
                let applied ← writeStore (cmd.applyTo (n.lastApplied + 1))
                if applied then do
                  Txn.update fun n' =>
                    { n' with lastApplied := n.lastApplied + 1 }
                  applyLoop json o fuel
                else
                  pure ()
      else
        compactIfNeededLocked json o

/-- Feed committed entries to the state machine in order. -/
def applyCommittedLocked (json : Json) (o : Options) : Txn Node Unit := do
  let n ← Txn.read
  applyLoop json o (n.commitIndex - n.lastApplied)

/-- Commit every entry of the current term that a majority stores, then apply
whatever became committed. -/
def advanceCommitLocked (json : Json) (o : Options) : Txn Node Unit := do
  let n ← Txn.read
  if n.committedIndex o = n.commitIndex then
    pure ()
  else do
    Txn.update fun n' => { n' with commitIndex := n.committedIndex o }
    applyCommittedLocked json o

/-- Record what a peer is known to store. -/
def recordPeerProgressLocked (peerID : String) (matchIndex : Nat) (n : Node) :
    Node :=
  let n := if n.matchIndex peerID < matchIndex then
      n.setMatchIndex peerID matchIndex
    else n
  n.setNextIndex peerID ((n.matchIndex peerID + 1) % maxIndexes)

/-- The last section of `sendEntries`, after the reply arrived. -/
def appendReplied (json : Json) (o : Options) (peerID : String) (term : Nat)
    (req : AppendEntriesRequest) (reply : AppendEntriesResponse) :
    Txn Node AppendOutcome := do
  let n ← Txn.read
  if n.role ≠ .leader ∨ n.currentTerm ≠ term then
    pure .failed
  else if reply.success = false then do
    Txn.update fun n => n.setNextIndex peerID
      (nextIndexAfterRejection (n.nextIndexLocked peerID) reply.matchIndex)
    pure .rejected
  else do
    Txn.update
      (recordPeerProgressLocked peerID (max reply.matchIndex (lastEntryIndex req)))
    advanceCommitLocked json o
    pure .accepted

/-- The last section of `sendSnapshot`, after the reply arrived. -/
def snapshotReplied (json : Json) (o : Options) (peerID : String) (term : Nat)
    (lastIncludedIndex : Nat) : Txn Node Bool := do
  let n ← Txn.read
  if n.role ≠ .leader ∨ n.currentTerm ≠ term then
    pure false
  else do
    Txn.update (recordPeerProgressLocked peerID lastIncludedIndex)
    advanceCommitLocked json o
    pure true

end Node

end LogReplicator
