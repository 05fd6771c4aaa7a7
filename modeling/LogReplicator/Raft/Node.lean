import LogReplicator.Library.Txn
import LogReplicator.Raft.Command

/-!
# The state of a node

The mutable part of `raft.Node` together with its store, the messages of the
`RaftService`, and the operations of `node.go`.  Code that runs under `n.mu`
is a section over `Node` (`Txn Node`); a store method that writes is one
transaction of the section.

Timers, metrics and logging are left out; of the metrics only the outcome label
of a handled RPC is kept, since it tells what a handler did.
-/

namespace LogReplicator

open Library

inductive Role where
  | follower
  | candidate
  | leader
deriving DecidableEq, Repr

/-- The immutable part of a node; a peer is known by its id. -/
structure Options where
  nodeID : String
  peers : List String
  snapshotThreshold : Nat

structure Node where
  store : Store
  role : Role
  currentTerm : Nat
  votedFor : String
  leaderID : String
  commitIndex : Nat
  lastApplied : Nat
  nextIndex : String → Nat
  matchIndex : String → Nat

structure RequestVoteRequest where
  term : Nat
  candidateId : String
  lastLogIndex : Nat
  lastLogTerm : Nat
deriving DecidableEq, Repr

structure RequestVoteResponse where
  term : Nat
  voteGranted : Bool
deriving DecidableEq, Repr

structure AppendEntriesRequest where
  term : Nat
  leaderId : String
  prevLogIndex : Nat
  prevLogTerm : Nat
  entries : List Entry
  leaderCommit : Nat
deriving DecidableEq, Repr

structure AppendEntriesResponse where
  term : Nat
  success : Bool
  matchIndex : Nat
deriving DecidableEq, Repr

structure InstallSnapshotRequest where
  term : Nat
  leaderId : String
  lastIncludedIndex : Nat
  lastIncludedTerm : Nat
  data : Bytes
deriving DecidableEq, Repr

structure InstallSnapshotResponse where
  term : Nat
deriving DecidableEq, Repr

/-- The outcome label under which a handled RPC is counted. -/
inductive RpcOutcome where
  | staleTerm
  | rejected
  | granted
  | behindSnapshot
  | logMismatch
  | ignored
  | error
  | success
deriving DecidableEq, Repr

/-- What a handler leaves behind: its label and its reply; no reply is a gRPC
error. -/
structure Handled (α : Type) where
  outcome : RpcOutcome
  reply : Option α
deriving DecidableEq, Repr

/-- Terms are `uint64` counters. -/
def maxTerms : Nat := 2 ^ 64

/-- Indexes are `uint64` numbers. -/
def maxIndexes : Nat := 2 ^ 64

/-- The increment of `becomeCandidate`. -/
def nextTerm (term : Nat) : Nat :=
  (term + 1) % maxTerms

namespace Node

/-- `New`: open the data directory and restore the persistent state. -/
def new (store : Store) : Node where
  store := store
  role := .follower
  currentTerm := store.currentTerm
  votedFor := store.votedFor
  leaderID := ""
  commitIndex := store.lastApplied
  lastApplied := store.lastApplied
  nextIndex := fun _ => 0
  matchIndex := fun _ => 0

/-- A transaction on the store of the node. -/
def writeStore (f : Store → Store) : Txn Node Bool :=
  Txn.write fun n => { n with store := f n.store }

/-- A transaction that the schema may refuse. -/
def writeStoreIf (accepted : Bool) (f : Store → Store) : Txn Node Bool :=
  Txn.writeIf accepted fun n => { n with store := f n.store }

def saveTermVote (term : Nat) (votedFor : String) : Txn Node Bool :=
  writeStore fun s => s.saveTermVote term votedFor

/-- The part of `stepDownLocked` that adopts a newer term.  A failed write is
only logged. -/
def adoptTerm (term : Nat) : Txn Node Unit := do
  let n ← Txn.read
  if n.currentTerm < term then do
    Txn.update fun n => { n with currentTerm := term, votedFor := "" }
    let _ ← saveTermVote term ""
    pure ()
  else
    pure ()

/-- Turn the node into a follower of the given term. -/
def stepDownLocked (term : Nat) (leaderID : String) : Txn Node Unit := do
  adoptTerm term
  Txn.update fun n => { n with role := .follower, leaderID := leaderID }

/-- The number of nodes, including this one, that have to agree. -/
def majority (o : Options) : Nat :=
  (o.peers.length + 1) / 2 + 1

/-- The next index to send to a peer, never below 1. -/
def nextIndexLocked (n : Node) (peerID : String) : Nat :=
  max (n.nextIndex peerID) 1

/-- Set the next index of one peer. -/
def setNextIndex (n : Node) (peerID : String) (index : Nat) : Node :=
  { n with nextIndex := Function.update n.nextIndex peerID index }

/-- Set the match index of one peer. -/
def setMatchIndex (n : Node) (peerID : String) (index : Nat) : Node :=
  { n with matchIndex := Function.update n.matchIndex peerID index }

end Node

end LogReplicator
