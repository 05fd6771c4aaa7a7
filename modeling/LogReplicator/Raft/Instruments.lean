import LogReplicator.Config.Timers
import LogReplicator.Library.Float64
import LogReplicator.Library.Watch
import LogReplicator.Raft.Solo

/-!
# A node with its instruments

The sections of a node once more, with everything the other modules leave out: the
election deadline, the metrics, and the set of peers that do not answer, with the log
lines about them.  Forgetting the instruments gives back the sections without them, so
that whatever holds for runs of a node holds for the runs of the watched node.  What a
node does depends on its election deadline, and on no other instrument.

The numbers in the metrics are converted to `float64`.  The two latency histograms are left
out, and so are the log lines that are not about one peer or that report a failing read.
-/

namespace LogReplicator

open Library

/-- What `SetState` publishes: the numbers are values of type `float64`. -/
structure Gauges where
  isLeader : Bool
  term : Nat
  commitIndex : Nat
  lastApplied : Nat
  lastLogIndex : Nat
  snapshotIndex : Nat
deriving DecidableEq, Repr

/-- The state of a node as `publishStateLocked` reads it. -/
def Node.gauges (n : Node) : Gauges :=
  ⟨decide (n.role = .leader), float64 n.currentTerm, float64 n.commitIndex,
    float64 n.lastApplied, float64 n.store.lastIndex, float64 n.store.snapshotIndex⟩

/-- The consensus RPCs that are counted. -/
inductive RpcMethod where
  | requestVote
  | appendEntries
  | installSnapshot
deriving DecidableEq, Repr

/-- The log, as far as it is about single peers.  A new process goes on with the log of the
one before it. -/
inductive LogLine where
  /-- Here a process begins. -/
  | started
  /-- The warning that a call failed, with what failed. -/
  | fails (peerID what : String)
  /-- `peer answers again`. -/
  | answers (peerID : String)
  /-- `request vote failed`, which does not ask whether the peer was known to fail. -/
  | voteFailed (peerID : String)
  | snapshotShipped (peerID : String) (lastIncludedIndex : Nat)
deriving DecidableEq, Repr

/-- What a line says about the peer: that it fails, that it answers, or nothing. -/
def LogLine.news (peerID : String) : LogLine → Option Bool
  | fails p _ => if p = peerID then some true else none
  | answers p => if p = peerID then some false else none
  | _ => none

structure Instruments where
  electionDeadline : Int
  gauges : Gauges
  elections : Nat
  rpcs : RpcMethod → RpcOutcome → Nat
  /-- The series of a peer, if there is one. -/
  replicationLag : String → Option Nat
  unreachable : String → Bool
  lines : List LogLine

/-- What `resetElectionDeadlineLocked` finds when it looks at the clock and draws the
random part. -/
structure Reading where
  now : Int
  int63n : Int → Int

/-- The readings of an operation: when it steps down, when it resets the deadline itself,
and when the node is restarted because it died. -/
structure Clock where
  stepDown : Reading
  reset : Reading
  restart : Reading

/-- A node and its instruments. -/
abbrev Watched : Type :=
  Node × Instruments

/-- The instruments of a new node, which goes on with the log. -/
def Instruments.new (cfg : NodeConfig) (r : Reading) (n : Node) (lines : List LogLine) :
    Instruments where
  electionDeadline := r.now + cfg.electionTimeout r.int63n
  gauges := n.gauges
  elections := 0
  rpcs := fun _ _ => 0
  replicationLag := fun _ => none
  unreachable := fun _ => false
  lines := lines ++ [.started]

namespace Watched

section Instruments

/-- Mirror the state of the node into the metrics. -/
def publishStateLocked : Txn Watched Unit :=
  Txn.onInstruments fun n i => { i with gauges := n.gauges }

/-- Pick the next election deadline. -/
def resetElectionDeadlineLocked (cfg : NodeConfig) (r : Reading) : Txn Watched Unit :=
  Txn.onInstruments fun _ i =>
    { i with electionDeadline := r.now + cfg.electionTimeout r.int63n }

def electionStarted : Txn Watched Unit :=
  Txn.onInstruments fun _ i => { i with elections := i.elections + 1 }

def rpcHandled (method : RpcMethod) (result : RpcOutcome) : Txn Watched Unit :=
  Txn.onInstruments fun _ i =>
    { i with
      rpcs := fun m r => if m = method ∧ r = result then i.rpcs m r + 1 else i.rpcs m r }

/-- The lag series belong to the leader: a leader that steps down drops them. -/
def clearReplicationLag : Txn Watched Unit :=
  Txn.onInstruments fun n i =>
    if n.role = .leader then { i with replicationLag := fun _ => none } else i

def setReplicationLag (peerID : String) : Txn Watched Unit :=
  Txn.onInstruments fun n i =>
    { i with
      replicationLag := Function.update i.replicationLag peerID
        (some (float64
          (n.store.lastIndex - min n.store.lastIndex (n.matchIndex peerID)))) }

/-- Log a failing peer once, until it answers again. -/
def notePeerUnreachable (peerID what : String) : Txn Watched Unit :=
  Txn.onInstruments fun _ i =>
    if i.unreachable peerID then i
    else
      { i with
        unreachable := Function.update i.unreachable peerID true
        lines := i.lines ++ [.fails peerID what] }

def notePeerReachableLocked (peerID : String) : Txn Watched Unit :=
  Txn.onInstruments fun _ i =>
    if i.unreachable peerID = false then i
    else
      { i with
        unreachable := Function.update i.unreachable peerID false
        lines := i.lines ++ [.answers peerID] }

def logLine (l : LogLine) : Txn Watched Unit :=
  Txn.onInstruments fun _ i => { i with lines := i.lines ++ [l] }

end Instruments

/-- Whether the election timer starts an election. -/
def electionDue (w : Watched) (now : Int) : Bool :=
  decide (w.1.role ≠ .leader) && decide (w.2.electionDeadline < now)

section Sections

variable (cfg : NodeConfig) (json : Json) (o : Options)

def stepDownLocked (r : Reading) (term : Nat) (leaderID : String) : Txn Watched Unit := do
  Txn.onState (Node.adoptTerm term)
  clearReplicationLag
  Txn.onState (Txn.update fun n => { n with role := .follower, leaderID := leaderID })
  resetElectionDeadlineLocked cfg r
  publishStateLocked

def observeHigherTerm (r : Reading) (term : Nat) : Txn Watched Bool := do
  let w ← Txn.read
  if term ≤ w.1.currentTerm then
    pure false
  else do
    stepDownLocked cfg r term ""
    pure true

def becomeCandidate (r : Reading) : Txn Watched (Option Candidacy) := do
  let w ← Txn.read
  if w.1.role = .leader then
    pure none
  else do
    let term := nextTerm w.1.currentTerm
    Txn.onState (Txn.update fun n =>
      { n with
        role := .candidate
        currentTerm := term
        votedFor := o.nodeID
        leaderID := "" })
    resetElectionDeadlineLocked cfg r
    let saved ← Txn.onState (Node.saveTermVote term o.nodeID)
    if saved then do
      electionStarted
      publishStateLocked
      pure (some ⟨term, w.1.store.lastIndexAndTerm.1, w.1.store.lastIndexAndTerm.2⟩)
    else
      pure none

def becomeLeader (term : Nat) : Txn Watched Bool := do
  let w ← Txn.read
  if w.1.role ≠ .candidate ∨ w.1.currentTerm ≠ term then
    pure false
  else do
    Txn.onState (Txn.update (Node.asLeader o))
    publishStateLocked
    pure true

/-- The vote itself.  The label of the result is what is counted. -/
def voteLocked (r : Reading) (req : RequestVoteRequest) :
    Txn Watched (Handled RequestVoteResponse) := do
  let h ← Txn.onState (Node.voteLocked req)
  if h.outcome = .granted then do
    resetElectionDeadlineLocked cfg r
    publishStateLocked
    rpcHandled .requestVote h.outcome
    pure h
  else do
    rpcHandled .requestVote h.outcome
    pure h

def requestVote (c : Clock) (req : RequestVoteRequest) :
    Txn Watched (Handled RequestVoteResponse) := do
  let w ← Txn.read
  if req.term < w.1.currentTerm then do
    rpcHandled .requestVote .staleTerm
    pure ⟨.staleTerm, some ⟨w.1.currentTerm, false⟩⟩
  else if w.1.currentTerm < req.term then do
    stepDownLocked cfg c.stepDown req.term ""
    voteLocked cfg c.reset req
  else
    voteLocked cfg c.reset req

/-- Accept the sender as the leader of its term. -/
def acceptLeader (c : Clock) (term : Nat) (leaderId : String) : Txn Watched Unit := do
  let w ← Txn.read
  if w.1.currentTerm < term ∨ w.1.role ≠ .follower then do
    stepDownLocked cfg c.stepDown term leaderId
    Txn.onState (Txn.update fun n => { n with leaderID := leaderId })
    resetElectionDeadlineLocked cfg c.reset
  else do
    Txn.onState (Txn.update fun n => { n with leaderID := leaderId })
    resetElectionDeadlineLocked cfg c.reset

/-- The end of a handler: a success is published, and the result is counted. -/
def finish {α : Type} (method : RpcMethod) (h : Handled α) : Txn Watched (Handled α) :=
  if h.outcome = .success then do
    publishStateLocked
    rpcHandled method h.outcome
    pure h
  else do
    rpcHandled method h.outcome
    pure h

def appendEntries (c : Clock) (req : AppendEntriesRequest) :
    Txn Watched (Handled AppendEntriesResponse) := do
  let w ← Txn.read
  if req.term < w.1.currentTerm then do
    rpcHandled .appendEntries .staleTerm
    pure ⟨.staleTerm, some w.1.rejectAppendLocked⟩
  else do
    acceptLeader cfg c req.term req.leaderId
    let h ← Txn.onState (Node.mergeLocked json o req)
    finish .appendEntries h

def installSnapshot (c : Clock) (req : InstallSnapshotRequest) :
    Txn Watched (Handled InstallSnapshotResponse) := do
  let w ← Txn.read
  if req.term < w.1.currentTerm then do
    rpcHandled .installSnapshot .staleTerm
    pure ⟨.staleTerm, some ⟨w.1.currentTerm⟩⟩
  else do
    acceptLeader cfg c req.term req.leaderId
    let h ← Txn.onState (Node.installLocked json req)
    finish .installSnapshot h

/-- Recompute the commit index outside of the replication path. -/
def commitAndApply : Txn Watched Unit := do
  Txn.onState (Node.advanceCommitLocked json o)
  publishStateLocked

/-- Record what a peer stores, move the commit index and publish both. -/
def recordProgress (peerID : String) (matchIndex : Nat) : Txn Watched Unit := do
  Txn.onState (Txn.update (Node.recordPeerProgressLocked peerID matchIndex))
  setReplicationLag peerID
  Txn.onState (Node.advanceCommitLocked json o)
  publishStateLocked

def appendReplied (peerID : String) (term : Nat) (req : AppendEntriesRequest)
    (reply : AppendEntriesResponse) : Txn Watched AppendOutcome := do
  notePeerReachableLocked peerID
  let w ← Txn.read
  if w.1.role ≠ .leader ∨ w.1.currentTerm ≠ term then
    pure .failed
  else if reply.success = false then do
    Txn.onState (Txn.update fun n => n.setNextIndex peerID
      (nextIndexAfterRejection (n.nextIndexLocked peerID) reply.matchIndex))
    pure .rejected
  else do
    recordProgress json o peerID (max reply.matchIndex (lastEntryIndex req))
    pure .accepted

def snapshotReplied (peerID : String) (term lastIncludedIndex : Nat) :
    Txn Watched Bool := do
  notePeerReachableLocked peerID
  let w ← Txn.read
  if w.1.role ≠ .leader ∨ w.1.currentTerm ≠ term then
    pure false
  else do
    logLine (.snapshotShipped peerID lastIncludedIndex)
    recordProgress json o peerID lastIncludedIndex
    pure true

def appendClientEntry (payload : Bytes) :
    Txn Watched (Except Status (Entry × Nat)) := do
  let w ← Txn.read
  if w.1.role ≠ .leader then
    pure (.error (notLeaderError w.1.leaderID))
  else do
    let stored ← Txn.onState
      (Node.writeStoreIf (Store.storable [w.1.clientEntry payload]) fun s =>
        s.appendEntries [w.1.clientEntry payload])
    if stored = false then
      pure (.error ⟨.internal, "append entry"⟩)
    else if o.peers = [] then do
      Txn.onState (Node.advanceCommitLocked json o)
      publishStateLocked
      pure (.ok (w.1.clientEntry payload, w.1.currentTerm))
    else do
      publishStateLocked
      pure (.ok (w.1.clientEntry payload, w.1.currentTerm))

end Sections

/-! ## Forgetting the instruments -/

section Erasure

open Txn

variable (cfg : NodeConfig) (json : Json) (o : Options)

theorem stepDownLocked_erases
    (r : Reading) (term : Nat) (leaderID : String) :
    Erases (stepDownLocked cfg r term leaderID) (Node.stepDownLocked term leaderID) :=
  (erases_onState _).bind fun _ => ((erases_onState _).after fun _ =>
    (erases_onInstruments _).instruments _).instruments _

theorem observeHigherTerm_erases
    (r : Reading) (term : Nat) :
    Erases (observeHigherTerm cfg r term) (Node.observeHigherTerm term) := by
  refine Erases.read fun n i => ?_
  dsimp only
  split_ifs
  · exact erases_pure _
  · exact (stepDownLocked_erases cfg r term "").bind fun _ => erases_pure _

theorem becomeCandidate_erases
    (r : Reading) :
    Erases (becomeCandidate cfg o r) (Node.becomeCandidate o) := by
  refine Erases.read fun n i => ?_
  dsimp only
  split_ifs
  · exact erases_pure _
  · refine (erases_onState _).bind fun _ => Erases.instruments ?_ _
    refine (erases_onState _).bind fun saved => ?_
    split_ifs
    · exact ((erases_pure _).instruments _).instruments _
    · exact erases_pure _

theorem becomeLeader_erases
    (term : Nat) :
    Erases (becomeLeader o term) (Node.becomeLeader o term) := by
  refine Erases.read fun n i => ?_
  dsimp only
  split_ifs
  · exact erases_pure _
  · exact (erases_onState _).bind fun _ => (erases_pure _).instruments _

theorem voteLocked_erases
    (r : Reading) (req : RequestVoteRequest) :
    Erases (voteLocked cfg r req) (Node.voteLocked req) := by
  refine (erases_onState _).after fun h => ?_
  split_ifs
  · exact (((erases_pure h).instruments _).instruments _).instruments _
  · exact (erases_pure h).instruments _

theorem requestVote_erases
    (c : Clock) (req : RequestVoteRequest) :
    Erases (requestVote cfg c req) (Node.requestVote req) := by
  refine Erases.read fun n i => ?_
  dsimp only
  split_ifs
  · exact (erases_pure _).instruments _
  · exact (stepDownLocked_erases cfg _ _ _).bind fun _ => voteLocked_erases cfg _ req
  · exact voteLocked_erases cfg _ req

theorem acceptLeader_erases
    (c : Clock) (term : Nat) (leaderId : String) :
    Erases (acceptLeader cfg c term leaderId) (Node.acceptLeader term leaderId) := by
  refine Erases.read fun n i => ?_
  dsimp only
  split_ifs
  · exact (stepDownLocked_erases cfg _ _ _).bind fun _ =>
      (erases_onState _).after fun _ => erases_onInstruments _
  · exact (erases_onState _).after fun _ => erases_onInstruments _

theorem finish_erases
    {α : Type} (method : RpcMethod) (h : Handled α) :
    Erases (finish method h) (pure h) := by
  unfold finish
  split_ifs
  · exact ((erases_pure h).instruments _).instruments _
  · exact (erases_pure h).instruments _

theorem appendEntries_erases
    (c : Clock) (req : AppendEntriesRequest) :
    Erases (appendEntries cfg json o c req) (Node.appendEntries json o req) := by
  refine Erases.read fun n i => ?_
  dsimp only
  split_ifs
  · exact (erases_pure _).instruments _
  · exact (acceptLeader_erases cfg c _ _).bind fun _ =>
      (erases_onState _).after fun h => finish_erases _ h

theorem installSnapshot_erases
    (c : Clock) (req : InstallSnapshotRequest) :
    Erases (installSnapshot cfg json c req) (Node.installSnapshot json req) := by
  refine Erases.read fun n i => ?_
  dsimp only
  split_ifs
  · exact (erases_pure _).instruments _
  · exact (acceptLeader_erases cfg c _ _).bind fun _ =>
      (erases_onState _).after fun h => finish_erases _ h

theorem commitAndApply_erases :
    Erases (commitAndApply json o) (Node.advanceCommitLocked json o) :=
  (erases_onState _).after fun _ => erases_onInstruments _

theorem recordProgress_erases
    (peerID : String) (matchIndex : Nat) :
    Erases (recordProgress json o peerID matchIndex) (do
      Txn.update (Node.recordPeerProgressLocked peerID matchIndex)
      Node.advanceCommitLocked json o) :=
  (erases_onState _).bind fun _ => (commitAndApply_erases json o).instruments _

theorem appendReplied_erases
    (peerID : String) (term : Nat) (req : AppendEntriesRequest)
    (reply : AppendEntriesResponse) :
    Erases (appendReplied json o peerID term req reply)
      (Node.appendReplied json o peerID term req reply) := by
  refine Erases.instruments (Erases.read fun n i => ?_) _
  dsimp only
  split_ifs
  · exact erases_pure _
  · exact (erases_onState _).bind fun _ => erases_pure _
  · have h := (recordProgress_erases json o peerID
      (max reply.matchIndex (lastEntryIndex req))).bind fun _ =>
        erases_pure AppendOutcome.accepted
    rwa [bind_assoc] at h

theorem snapshotReplied_erases
    (peerID : String) (term lastIncludedIndex : Nat) :
    Erases (snapshotReplied json o peerID term lastIncludedIndex)
      (Node.snapshotReplied json o peerID term lastIncludedIndex) := by
  refine Erases.instruments (Erases.read fun n i => ?_) _
  dsimp only
  split_ifs
  · exact erases_pure _
  · have h := (recordProgress_erases json o peerID lastIncludedIndex).bind fun _ =>
      erases_pure true
    rw [bind_assoc] at h
    exact h.instruments _

theorem appendClientEntry_erases
    (payload : Bytes) :
    Erases (appendClientEntry json o payload) (Node.appendClientEntry json o payload) := by
  refine Erases.read fun n i => ?_
  dsimp only
  split_ifs with hrole hpeers
  · exact erases_pure _
  · refine (erases_onState _).bind fun stored => ?_
    split_ifs
    · exact erases_pure _
    · exact (erases_onState _).bind fun _ => (erases_pure _).instruments _
  · refine (erases_onState _).bind fun stored => ?_
    split_ifs
    · exact erases_pure _
    · exact (erases_pure _).instruments _

end Erasure

/-! ## What the sections look at

Of all instruments only the election deadline has an influence on what a node does. -/

section Looks

open Txn

variable (cfg : NodeConfig) (json : Json) (o : Options)

theorem publishStateLocked_looks :
    LooksAt Instruments.electionDeadline publishStateLocked :=
  looksAt_onInstruments fun _ _ _ h => h

theorem rpcHandled_looks
    (method : RpcMethod) (result : RpcOutcome) :
    LooksAt Instruments.electionDeadline (rpcHandled method result) :=
  looksAt_onInstruments fun _ _ _ h => h

theorem resetElectionDeadlineLocked_looks
    (r : Reading) :
    LooksAt Instruments.electionDeadline (resetElectionDeadlineLocked cfg r) :=
  looksAt_onInstruments fun _ _ _ _ => rfl

theorem stepDownLocked_looks
    (r : Reading) (term : Nat) (leaderID : String) :
    LooksAt Instruments.electionDeadline (stepDownLocked cfg r term leaderID) := by
  have hclear : LooksAt Instruments.electionDeadline clearReplicationLag := by
    refine looksAt_onInstruments fun n _ _ h => ?_
    split_ifs <;> exact h
  exact (looksAt_onState _).bind fun _ => hclear.bind fun _ =>
    (looksAt_onState _).bind fun _ => (resetElectionDeadlineLocked_looks cfg r).bind fun _ =>
      publishStateLocked_looks

theorem observeHigherTerm_looks
    (r : Reading) (term : Nat) :
    LooksAt Instruments.electionDeadline (observeHigherTerm cfg r term) := by
  refine LooksAt.read (fun _ _ _ => rfl) fun w => ?_
  split_ifs
  · exact looksAt_pure _
  · exact (stepDownLocked_looks cfg r term "").bind fun _ => looksAt_pure _

theorem becomeCandidate_looks
    (r : Reading) :
    LooksAt Instruments.electionDeadline (becomeCandidate cfg o r) := by
  refine LooksAt.read (fun _ _ _ => rfl) fun w => ?_
  split_ifs
  · exact looksAt_pure _
  · refine (looksAt_onState _).bind fun _ =>
      (resetElectionDeadlineLocked_looks cfg r).bind fun _ =>
        (looksAt_onState _).bind fun saved => ?_
    split_ifs
    · exact (looksAt_onInstruments fun _ _ _ h => h).bind fun _ =>
        publishStateLocked_looks.bind fun _ => looksAt_pure _
    · exact looksAt_pure _

theorem becomeLeader_looks
    (term : Nat) :
    LooksAt Instruments.electionDeadline (becomeLeader o term) := by
  refine LooksAt.read (fun _ _ _ => rfl) fun w => ?_
  split_ifs
  · exact looksAt_pure _
  · exact (looksAt_onState _).bind fun _ => publishStateLocked_looks.bind fun _ =>
      looksAt_pure _

theorem voteLocked_looks
    (r : Reading) (req : RequestVoteRequest) :
    LooksAt Instruments.electionDeadline (voteLocked cfg r req) := by
  refine (looksAt_onState _).bind fun h => ?_
  split_ifs
  · exact (resetElectionDeadlineLocked_looks cfg r).bind fun _ =>
      publishStateLocked_looks.bind fun _ => (rpcHandled_looks _ _).bind fun _ =>
        looksAt_pure _
  · exact (rpcHandled_looks _ _).bind fun _ => looksAt_pure _

theorem requestVote_looks
    (c : Clock) (req : RequestVoteRequest) :
    LooksAt Instruments.electionDeadline (requestVote cfg c req) := by
  refine LooksAt.read (fun _ _ _ => rfl) fun w => ?_
  split_ifs
  · exact (rpcHandled_looks _ _).bind fun _ => looksAt_pure _
  · exact (stepDownLocked_looks cfg _ _ _).bind fun _ => voteLocked_looks cfg _ req
  · exact voteLocked_looks cfg _ req

theorem acceptLeader_looks
    (c : Clock) (term : Nat) (leaderId : String) :
    LooksAt Instruments.electionDeadline (acceptLeader cfg c term leaderId) := by
  refine LooksAt.read (fun _ _ _ => rfl) fun w => ?_
  split_ifs
  · exact (stepDownLocked_looks cfg _ _ _).bind fun _ => (looksAt_onState _).bind fun _ =>
      resetElectionDeadlineLocked_looks cfg _
  · exact (looksAt_onState _).bind fun _ => resetElectionDeadlineLocked_looks cfg _

theorem finish_looks
    {α : Type} (method : RpcMethod) (h : Handled α) :
    LooksAt Instruments.electionDeadline (finish method h) := by
  unfold finish
  split_ifs
  · exact publishStateLocked_looks.bind fun _ => (rpcHandled_looks _ _).bind fun _ =>
      looksAt_pure _
  · exact (rpcHandled_looks _ _).bind fun _ => looksAt_pure _

theorem appendEntries_looks
    (c : Clock) (req : AppendEntriesRequest) :
    LooksAt Instruments.electionDeadline (appendEntries cfg json o c req) := by
  refine LooksAt.read (fun _ _ _ => rfl) fun w => ?_
  split_ifs
  · exact (rpcHandled_looks _ _).bind fun _ => looksAt_pure _
  · exact (acceptLeader_looks cfg c _ _).bind fun _ => (looksAt_onState _).bind fun h =>
      finish_looks _ h

theorem installSnapshot_looks
    (c : Clock) (req : InstallSnapshotRequest) :
    LooksAt Instruments.electionDeadline (installSnapshot cfg json c req) := by
  refine LooksAt.read (fun _ _ _ => rfl) fun w => ?_
  split_ifs
  · exact (rpcHandled_looks _ _).bind fun _ => looksAt_pure _
  · exact (acceptLeader_looks cfg c _ _).bind fun _ => (looksAt_onState _).bind fun h =>
      finish_looks _ h

theorem commitAndApply_looks :
    LooksAt Instruments.electionDeadline (commitAndApply json o) :=
  (looksAt_onState _).bind fun _ => publishStateLocked_looks

theorem recordProgress_looks
    (peerID : String) (matchIndex : Nat) :
    LooksAt Instruments.electionDeadline (recordProgress json o peerID matchIndex) := by
  have hlag : LooksAt Instruments.electionDeadline (setReplicationLag peerID) :=
    looksAt_onInstruments fun _ _ _ h => h
  exact (looksAt_onState _).bind fun _ => hlag.bind fun _ => commitAndApply_looks json o

theorem notePeerReachableLocked_looks
    (peerID : String) :
    LooksAt Instruments.electionDeadline (notePeerReachableLocked peerID) := by
  refine looksAt_onInstruments fun _ i i' h => ?_
  split_ifs <;> exact h

theorem appendReplied_looks
    (peerID : String) (term : Nat) (req : AppendEntriesRequest)
    (reply : AppendEntriesResponse) :
    LooksAt Instruments.electionDeadline (appendReplied json o peerID term req reply) := by
  refine (notePeerReachableLocked_looks peerID).bind fun _ =>
    LooksAt.read (fun _ _ _ => rfl) fun w => ?_
  split_ifs
  · exact looksAt_pure _
  · exact (looksAt_onState _).bind fun _ => looksAt_pure _
  · exact (recordProgress_looks json o peerID _).bind fun _ => looksAt_pure _

theorem snapshotReplied_looks
    (peerID : String) (term lastIncludedIndex : Nat) :
    LooksAt Instruments.electionDeadline
      (snapshotReplied json o peerID term lastIncludedIndex) := by
  refine (notePeerReachableLocked_looks peerID).bind fun _ =>
    LooksAt.read (fun _ _ _ => rfl) fun w => ?_
  split_ifs
  · exact looksAt_pure _
  · have hline : LooksAt Instruments.electionDeadline
        (logLine (.snapshotShipped peerID lastIncludedIndex)) :=
      looksAt_onInstruments fun _ _ _ h => h
    exact hline.bind fun _ =>
      (recordProgress_looks json o peerID _).bind fun _ => looksAt_pure _

theorem appendClientEntry_looks
    (payload : Bytes) :
    LooksAt Instruments.electionDeadline (appendClientEntry json o payload) := by
  refine LooksAt.read (fun _ _ _ => rfl) fun w => ?_
  split_ifs
  · exact looksAt_pure _
  · refine (looksAt_onState _).bind fun stored => ?_
    split_ifs
    · exact looksAt_pure _
    · exact (looksAt_onState _).bind fun _ => publishStateLocked_looks.bind fun _ =>
        looksAt_pure _
  · refine (looksAt_onState _).bind fun stored => ?_
    split_ifs
    · exact looksAt_pure _
    · exact publishStateLocked_looks.bind fun _ => looksAt_pure _

end Looks

end Watched

end LogReplicator
