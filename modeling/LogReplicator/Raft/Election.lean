import LogReplicator.Raft.Node

/-!
# Elections

The sections of `election.go`: becoming a candidate, becoming the leader,
handling a vote request and observing a newer term.
-/

namespace LogReplicator

open Library

/-- The state an election round runs with. -/
structure Candidacy where
  term : Nat
  lastLogIndex : Nat
  lastLogTerm : Nat
deriving DecidableEq, Repr

namespace Node

/-- Bump the term, vote for itself and persist both before any vote is
requested.  The memory keeps the new term when the write fails. -/
def becomeCandidate (o : Options) : Txn Node (Option Candidacy) := do
  let n ← Txn.read
  if n.role = .leader then
    pure none
  else do
    let term := nextTerm n.currentTerm
    Txn.update fun n =>
      { n with
        role := .candidate
        currentTerm := term
        votedFor := o.nodeID
        leaderID := "" }
    let saved ← saveTermVote term o.nodeID
    if saved then
      pure (some
        ⟨term, n.store.lastIndexAndTerm.1, n.store.lastIndexAndTerm.2⟩)
    else
      pure none

/-- The state of a freshly elected leader. -/
def asLeader (o : Options) (n : Node) : Node :=
  { n with
    role := .leader
    leaderID := o.nodeID
    nextIndex := fun p =>
      if p ∈ o.peers then n.store.lastIndex + 1 else n.nextIndex p
    matchIndex := fun p => if p ∈ o.peers then 0 else n.matchIndex p }

/-- Take over the cluster unless the node moved on to another term or role
while votes were being collected; the result says whether it took over. -/
def becomeLeader (o : Options) (term : Nat) : Txn Node Bool := do
  let n ← Txn.read
  if n.role ≠ .candidate ∨ n.currentTerm ≠ term then
    pure false
  else do
    Txn.update (asLeader o)
    pure true

/-- A candidate may only win if its log is at least as complete as ours. -/
def upToDate (s : Store) (req : RequestVoteRequest) : Bool :=
  decide (s.lastIndexAndTerm.2 < req.lastLogTerm) ||
    (decide (req.lastLogTerm = s.lastIndexAndTerm.2) &&
      decide (s.lastIndexAndTerm.1 ≤ req.lastLogIndex))

/-- The vote itself, once the term of the request is the term of the node. -/
def voteLocked (req : RequestVoteRequest) :
    Txn Node (Handled RequestVoteResponse) := do
  let n ← Txn.read
  let votedForSomeoneElse := n.votedFor ≠ "" ∧ n.votedFor ≠ req.candidateId
  if votedForSomeoneElse ∨ upToDate n.store req = false then
    pure ⟨.rejected, some ⟨n.currentTerm, false⟩⟩
  else do
    Txn.update fun n => { n with votedFor := req.candidateId }
    let saved ← saveTermVote n.currentTerm req.candidateId
    if saved then
      pure ⟨.granted, some ⟨n.currentTerm, true⟩⟩
    else
      pure ⟨.error, none⟩

/-- The `RaftService` election RPC. -/
def requestVote (req : RequestVoteRequest) :
    Txn Node (Handled RequestVoteResponse) := do
  let n ← Txn.read
  if req.term < n.currentTerm then
    pure ⟨.staleTerm, some ⟨n.currentTerm, false⟩⟩
  else if n.currentTerm < req.term then do
    stepDownLocked req.term ""
    voteLocked req
  else
    voteLocked req

/-- Step down when a peer reports a newer term, and report whether that
happened. -/
def observeHigherTerm (term : Nat) : Txn Node Bool := do
  let n ← Txn.read
  if term ≤ n.currentTerm then
    pure false
  else do
    stepDownLocked term ""
    pure true

end Node

end LogReplicator
