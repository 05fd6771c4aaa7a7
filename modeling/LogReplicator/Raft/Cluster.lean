import LogReplicator.Raft.Client

/-!
# The cluster

The nodes of one fixed member list, their goroutines, the RPCs between them and
the client calls.  A step is one critical section under `n.mu`, or one move of
a goroutine between two sections, so every interleaving of sections is a run.

* Requests stay in `calls` once sent and may be delivered at any later time, so
  they can be lost, delayed and reordered; a reply is taken only by the
  goroutine that still waits for its call.
* The fate of every store transaction is part of the action.  A node that dies
  loses its goroutines and is restarted by `New` from its store.
* `events` is a history: nothing reads it.
-/

namespace LogReplicator

open Library

/-- One member list shared by all nodes, and what else is fixed at startup. -/
structure Config where
  members : List String
  snapshotThreshold : String → Nat
  json : Json
  nodup : members.Nodup
  named : "" ∉ members

/-- The options of a member: its peers are all the others. -/
def Config.options (cfg : Config) (x : String) : Options where
  nodeID := x
  peers := cfg.members.filter fun p => decide (p ≠ x)
  snapshotThreshold := cfg.snapshotThreshold x

inductive Request where
  | vote (req : RequestVoteRequest)
  | append (req : AppendEntriesRequest)
  | snapshot (req : InstallSnapshotRequest)
deriving DecidableEq, Repr

inductive Response where
  | vote (resp : RequestVoteResponse)
  | append (resp : AppendEntriesResponse)
  | snapshot (resp : InstallSnapshotResponse)
deriving DecidableEq, Repr

/-- An RPC; its id is its position in `Cluster.calls`. -/
structure Call where
  src : String
  dst : String
  request : Request
deriving DecidableEq, Repr

/-- The vote collection of `startElection`: the calls still unanswered and the
votes so far. -/
structure Round where
  candidacy : Candidacy
  waiting : List (String × Nat)
  votes : Nat
deriving DecidableEq, Repr

/-- What the election goroutine of a node is doing. -/
inductive Election where
  | idle
  | polling (round : Round)
  | committing
deriving DecidableEq, Repr

/-- Where `replicatePeer` for one peer stands.  Its lock `sendMu` is held in
every state but `idle`; `owner` is the read that waits for the result. -/
inductive Sender where
  | idle
  | looping (round : Nat) (owner : Option Nat)
  | leading (round : Nat) (owner : Option Nat)
  | entries (round : Nat) (owner : Option Nat)
  | snapshot (owner : Option Nat)
  | appendSent (round : Nat) (owner : Option Nat) (id : Nat)
      (req : AppendEntriesRequest)
  | appendReplied (round : Nat) (owner : Option Nat)
      (req : AppendEntriesRequest) (resp : AppendEntriesResponse)
  | snapshotSent (owner : Option Nat) (id : Nat) (req : InstallSnapshotRequest)
  | snapshotReplied (owner : Option Nat) (req : InstallSnapshotRequest)
deriving DecidableEq, Repr

/-- A node and its goroutines. -/
structure Proc where
  node : Node
  election : Election
  sender : String → Sender

/-- Where a client call stands. -/
inductive Phase where
  | routing
  | proposing
  | waiting (index term : Nat)
  | confirming (pending : List String) (inSync : Nat)
  | reading
  | done
deriving DecidableEq, Repr

/-- A client call, at the node that currently serves it. -/
structure ClientOp where
  request : ClientRequest
  node : String
  forwarded : Bool
  phase : Phase
deriving DecidableEq, Repr

/-- The history of a run. -/
inductive Event where
  /-- The client invoked call `op`. -/
  | invoked (op : Nat)
  /-- The handler of call `op` returned. -/
  | returned (op : Nat) (answer : Answer)
  /-- The client of call `op` no longer waits: its deadline passed, or the node that forwarded
  the call gave up.  The handler does not know. -/
  | abandoned (op : Nat)
  /-- `becomeLeader` made `x` leader of `term`, with this log. -/
  | elected (x : String) (term snapshotIndex : Nat) (log : List Entry)
  /-- `advanceCommitLocked` of `x` moved `commitIndex`; `log` is what the log of
  `x` then held up to the new value. -/
  | committed (x : String) (term commitIndex : Nat) (log : List Entry)
deriving DecidableEq, Repr

structure Cluster where
  procs : String → Proc
  ops : List ClientOp
  calls : List Call
  replies : List (Nat × Response)
  events : List Event

namespace Cluster

/-- `New` and `Start`: the state of a process that just came up. -/
def startProc (store : Store) : Proc where
  node := Node.new store
  election := .idle
  sender := fun _ => .idle

/-- All nodes started on empty data directories. -/
def init : Cluster where
  procs := fun _ => startProc Store.init
  ops := []
  calls := []
  replies := []
  events := []

def node (c : Cluster) (x : String) : Node :=
  (c.procs x).node

def setProc (c : Cluster) (x : String) (p : Proc) : Cluster :=
  { c with procs := Function.update c.procs x p }

def setNode (c : Cluster) (x : String) (n : Node) : Cluster :=
  c.setProc x { c.procs x with node := n }

def setElection (c : Cluster) (x : String) (e : Election) : Cluster :=
  c.setProc x { c.procs x with election := e }

def setSender (c : Cluster) (x p : String) (s : Sender) : Cluster :=
  c.setProc x
    { c.procs x with sender := Function.update (c.procs x).sender p s }

def setOp (c : Cluster) (i : Nat) (op : ClientOp) : Cluster :=
  { c with ops := c.ops.set i op }

def setPhase (c : Cluster) (i : Nat) (op : ClientOp) (phase : Phase) : Cluster :=
  c.setOp i { op with phase := phase }

def record (c : Cluster) (es : List Event) : Cluster :=
  { c with events := c.events ++ es }

/-- Send an RPC. -/
def send (c : Cluster) (call : Call) : Cluster :=
  { c with calls := c.calls ++ [call] }

/-- Answer an RPC; a gRPC error carries no reply. -/
def answer (c : Cluster) (id : Nat) (resp : Option Response) : Cluster :=
  match resp with
  | some r => { c with replies := c.replies ++ [(id, r)] }
  | none => c

/-- A client call returns. -/
def finish (c : Cluster) (i : Nat) (op : ClientOp) (a : Answer) : Cluster :=
  (c.setPhase i op .done).record [.returned i a]

/-- A process dies and comes up again; the calls it served fail. -/
def restart (c : Cluster) (x : String) (store : Store) : Cluster :=
  { c.setProc x (startProc store) with
    ops := c.ops.map fun op =>
      if op.node = x then { op with phase := .done } else op }

/-- Run a section on a node. -/
def runSection {α : Type} (c : Cluster) (x : String) (m : Txn Node α)
    (os : List Outcome) (k : Cluster → α → Cluster) : Cluster :=
  match m os (c.node x) with
  | (some a, n, _) => k (c.setNode x n) a
  | (none, n, _) => c.restart x n.store

/-- The log entries of a node up to an index. -/
def logThrough (n : Node) (index : Nat) : List Entry :=
  (n.store.entriesFrom 1 0).filter fun e => decide (e.index ≤ index)

/-- What `advanceCommitLocked`, called in state `n`, is about to commit. -/
def commitEvent (o : Options) (n : Node) : List Event :=
  if n.committedIndex o = n.commitIndex then []
  else [.committed o.nodeID n.currentTerm (n.committedIndex o)
    (logThrough n (n.committedIndex o))]

/-- `replicatePeer` returns; a read that waits for it counts the result. -/
def senderReturns (c : Cluster) (x p : String) (owner : Option Nat)
    (inSync : Bool) : Cluster :=
  let c := c.setSender x p .idle
  match owner with
  | none => c
  | some i =>
      match c.ops[i]? with
      | some op =>
          match op.phase with
          | .confirming pending k =>
              c.setPhase i op
                (.confirming (pending.erase p) (if inSync then k + 1 else k))
          | _ => c
      | none => c

end Cluster

/-- The moves of a run; `os` are the fates of the store transactions. -/
inductive Action where
  /-- The election timer of `x` fires: `becomeCandidate`, then the requests. -/
  | campaign (x : String) (os : List Outcome)
  /-- The election goroutine of `x` takes the reply to call `id`. -/
  | countVote (x peer : String) (id : Nat) (resp : RequestVoteResponse)
      (os : List Outcome)
  /-- The vote call `id` of `x` fails. -/
  | missVote (x peer : String) (id : Nat)
  /-- The round of `x` ended without a majority. -/
  | loseElection (x : String)
  /-- The round of `x` has a majority: `becomeLeader`. -/
  | winElection (x : String) (os : List Outcome)
  /-- `commitAndApply` of a single node cluster. -/
  | commitAlone (x : String) (os : List Outcome)
  /-- Call `id` reaches its destination, whose handler runs. -/
  | deliver (id : Nat) (os : List Outcome)
  /-- `replicatePeer` for peer `p` gets its lock. -/
  | replicate (x p : String) (owner : Option Nat)
  /-- The context of `replicatePeer` ended. -/
  | giveUp (x p : String)
  /-- The section `isLeader` of `replicatePeer`. -/
  | checkLeader (x p : String)
  /-- The section `peerNeedsSnapshot` of `replicatePeer`. -/
  | checkSnapshot (x p : String)
  /-- The first section of `sendEntries`, then the call. -/
  | sendEntries (x p : String)
  /-- The first section of `sendSnapshot`, then the call. -/
  | sendSnapshot (x p : String)
  /-- The pending call of `replicatePeer` fails. -/
  | callFails (x p : String)
  /-- The reply to an append arrives: `observeHigherTerm`. -/
  | appendReply (x p : String) (resp : AppendEntriesResponse) (os : List Outcome)
  /-- The last section of `sendEntries`. -/
  | appendDone (x p : String) (os : List Outcome)
  /-- The reply to a snapshot arrives: `observeHigherTerm`. -/
  | snapshotReply (x p : String) (resp : InstallSnapshotResponse)
      (os : List Outcome)
  /-- The last section of `sendSnapshot`. -/
  | snapshotDone (x p : String) (os : List Outcome)
  /-- A client calls node `x`. -/
  | invoke (x : String) (req : ClientRequest)
  /-- The section `leaderClient` of call `i`. -/
  | route (i : Nat)
  /-- The section `appendClientEntry` of call `i`. -/
  | propose (i : Nat) (os : List Outcome)
  /-- One poll of `waitForCommit` for call `i`. -/
  | poll (i : Nat)
  /-- The context of call `i` ended.  Only a call that waits for its entry watches it; in
  any other phase the client gives up and the call goes on. -/
  | expire (i : Nat)
  /-- The check of `confirmLeadership` for call `i`. -/
  | confirm (i : Nat)
  /-- The read of call `i`. -/
  | readKey (i : Nat)
  /-- `x` dies between two sections and is restarted. -/
  | crash (x : String)
deriving DecidableEq, Repr

namespace Cluster

variable (cfg : Config)

/-- The vote calls of a round and who was asked with which call. -/
def requestVotes (c : Cluster) (x : String) (round : Candidacy) :
    List String → Cluster × List (String × Nat)
  | [] => (c, [])
  | p :: ps =>
      let c' := c.send ⟨x, p, .vote
        ⟨round.term, x, round.lastLogIndex, round.lastLogTerm⟩⟩
      let r := requestVotes c' x round ps
      (r.1, (p, c.calls.length) :: r.2)

/-- `startElection` up to the first reply. -/
def startElection (c : Cluster) (x : String) (os : List Outcome) : Cluster :=
  let o := cfg.options x
  c.runSection x (Node.becomeCandidate o) os fun c candidacy =>
    match candidacy with
    | none => c
    | some round =>
        if Node.majority o ≤ 1 then
          c.setElection x (.polling ⟨round, [], 1⟩)
        else
          let r := c.requestVotes x round o.peers
          r.1.setElection x (.polling ⟨round, r.2, 1⟩)

/-- The handler of a call runs at its destination. -/
def handle (c : Cluster) (id : Nat) (call : Call) (os : List Outcome) : Cluster :=
  let o := cfg.options call.dst
  match call.request with
  | .vote req =>
      c.runSection call.dst (Node.requestVote req) os fun c h =>
        c.answer id (h.reply.map .vote)
  | .append req =>
      c.runSection call.dst (Node.appendEntries cfg.json o req) os fun c h =>
        c.answer id (h.reply.map .append)
  | .snapshot req =>
      c.runSection call.dst (Node.installSnapshot cfg.json req) os fun c h =>
        c.answer id (h.reply.map .snapshot)

/-- A move of the election goroutine of `x`. -/
def electionStep (c : Cluster) : Action → Option Cluster
  | .campaign x os =>
      if x ∈ cfg.members ∧ (c.procs x).election = .idle then
        some (c.startElection cfg x os)
      else none
  | .countVote x peer id resp os =>
      match (c.procs x).election with
      | .polling round =>
          if (peer, id) ∈ round.waiting ∧
              round.votes < Node.majority (cfg.options x) ∧
              (id, Response.vote resp) ∈ c.replies then
            some (c.runSection x (Node.observeHigherTerm resp.term) os
              fun c higher =>
                if higher then c.setElection x .idle
                else c.setElection x (.polling
                  { round with
                    waiting := round.waiting.erase (peer, id)
                    votes := if resp.voteGranted then round.votes + 1
                      else round.votes }))
          else none
      | _ => none
  | .missVote x peer id =>
      match (c.procs x).election with
      | .polling round =>
          if (peer, id) ∈ round.waiting then
            some (c.setElection x (.polling
              { round with waiting := round.waiting.erase (peer, id) }))
          else none
      | _ => none
  | .loseElection x =>
      match (c.procs x).election with
      | .polling round =>
          if round.waiting = [] ∧
              round.votes < Node.majority (cfg.options x) then
            some (c.setElection x .idle)
          else none
      | _ => none
  | .winElection x os =>
      match (c.procs x).election with
      | .polling round =>
          if Node.majority (cfg.options x) ≤ round.votes then
            let o := cfg.options x
            let n := c.node x
            some (c.runSection x (Node.becomeLeader o round.candidacy.term) os
              fun c won =>
                if won then
                  (c.setElection x (if o.peers = [] then .committing else .idle)).record
                    [.elected x n.currentTerm n.store.snapshotIndex
                      (n.store.entriesFrom 1 0)]
                else c.setElection x .idle)
          else none
      | _ => none
  | .commitAlone x os =>
      match (c.procs x).election with
      | .committing =>
          let o := cfg.options x
          some (((c.record (commitEvent o (c.node x))).setElection x .idle).runSection
            x (Node.advanceCommitLocked cfg.json o) os fun c _ => c)
      | _ => none
  | _ => none

/-- A move of `replicatePeer` of `x` for peer `p`. -/
def senderStep (c : Cluster) : Action → Option Cluster
  | .replicate x p owner =>
      if x ∈ cfg.members ∧ p ∈ (cfg.options x).peers ∧
          (c.procs x).sender p = .idle then
        match owner with
        | none => some (c.setSender x p (.looping 0 none))
        | some i =>
            match c.ops[i]? with
            | some ⟨_, y, _, .confirming pending _⟩ =>
                if y = x ∧ p ∈ pending then
                  some (c.setSender x p (.looping 0 (some i)))
                else none
            | _ => none
      else none
  | .giveUp x p =>
      match (c.procs x).sender p with
      | .looping _ owner => some (c.senderReturns x p owner false)
      | _ => none
  | .checkLeader x p =>
      match (c.procs x).sender p with
      | .looping round owner =>
          if (c.node x).isLeader then
            some (c.setSender x p (.leading round owner))
          else
            some (c.senderReturns x p owner false)
      | _ => none
  | .checkSnapshot x p =>
      match (c.procs x).sender p with
      | .leading round owner =>
          if (c.node x).peerNeedsSnapshot p then
            some (c.setSender x p (.snapshot owner))
          else
            some (c.setSender x p (.entries round owner))
      | _ => none
  | .sendEntries x p =>
      match (c.procs x).sender p with
      | .entries round owner =>
          match (c.node x).buildAppendRequestLocked (cfg.options x) p with
          | (n, none) =>
              let c := c.setNode x n
              if round + 1 < maxAppendRounds then
                some (c.setSender x p (.looping (round + 1) owner))
              else
                some (c.senderReturns x p owner false)
          | (n, some req) =>
              some (((c.setNode x n).send ⟨x, p, .append req⟩).setSender x p
                (.appendSent round owner c.calls.length req))
      | _ => none
  | .sendSnapshot x p =>
      match (c.procs x).sender p with
      | .snapshot owner =>
          let req := (c.node x).buildSnapshotRequest (cfg.options x)
          some ((c.send ⟨x, p, .snapshot req⟩).setSender x p
            (.snapshotSent owner c.calls.length req))
      | _ => none
  | .callFails x p =>
      match (c.procs x).sender p with
      | .appendSent _ owner _ _ => some (c.senderReturns x p owner false)
      | .snapshotSent owner _ _ => some (c.senderReturns x p owner false)
      | _ => none
  | .appendReply x p resp os =>
      match (c.procs x).sender p with
      | .appendSent round owner id req =>
          if (id, Response.append resp) ∈ c.replies then
            some (c.runSection x (Node.observeHigherTerm resp.term) os
              fun c higher =>
                if higher then c.senderReturns x p owner false
                else c.setSender x p (.appendReplied round owner req resp))
          else none
      | _ => none
  | .appendDone x p os =>
      match (c.procs x).sender p with
      | .appendReplied round owner req resp =>
          let o := cfg.options x
          let n := c.node x
          let events :=
            if n.role = .leader ∧ n.currentTerm = req.term ∧ resp.success then
              commitEvent o (n.recordPeerProgressLocked p
                (max resp.matchIndex (lastEntryIndex req)))
            else []
          some ((c.record events).runSection x
            (Node.appendReplied cfg.json o p req.term req resp) os
              fun c outcome =>
                match outcome with
                | .accepted => c.senderReturns x p owner true
                | .failed => c.senderReturns x p owner false
                | .rejected =>
                    if round + 1 < maxAppendRounds then
                      c.setSender x p (.looping (round + 1) owner)
                    else c.senderReturns x p owner false)
      | _ => none
  | .snapshotReply x p resp os =>
      match (c.procs x).sender p with
      | .snapshotSent owner id req =>
          if (id, Response.snapshot resp) ∈ c.replies then
            some (c.runSection x (Node.observeHigherTerm resp.term) os
              fun c higher =>
                if higher then c.senderReturns x p owner false
                else c.setSender x p (.snapshotReplied owner req))
          else none
      | _ => none
  | .snapshotDone x p os =>
      match (c.procs x).sender p with
      | .snapshotReplied owner req =>
          let o := cfg.options x
          let n := c.node x
          let events :=
            if n.role = .leader ∧ n.currentTerm = req.term then
              commitEvent o (n.recordPeerProgressLocked p req.lastIncludedIndex)
            else []
          some ((c.record events).runSection x
            (Node.snapshotReplied cfg.json o p req.term req.lastIncludedIndex) os
              fun c inSync => c.senderReturns x p owner inSync)
      | _ => none
  | _ => none

/-- A move of a client call. -/
def clientStep (c : Cluster) : Action → Option Cluster
  | .invoke x req =>
      if x ∈ cfg.members then
        let i := c.ops.length
        let op : ClientOp := ⟨req, x, false, .routing⟩
        let c := { c with ops := c.ops ++ [op] }.record [.invoked i]
        if req.key = "" then some (c.finish i op (.failed keyRequired))
        else some c
      else none
  | .route i =>
      match c.ops[i]? with
      | some op =>
          if op.phase = .routing then
            let o := cfg.options op.node
            match (c.node op.node).leaderClient o op.forwarded with
            | .refuse status => some (c.finish i op (.failed status))
            | .forward leaderID =>
                some (c.setOp i { op with node := leaderID, forwarded := true })
            | .here =>
                match op.request with
                | .read _ => some (c.setPhase i op (.confirming o.peers 1))
                | _ => some (c.setPhase i op .proposing)
          else none
      | none => none
  | .propose i os =>
      match c.ops[i]? with
      | some op =>
          match op.phase, op.request.command with
          | .proposing, some cmd =>
              let o := cfg.options op.node
              let n := c.node op.node
              let payload := cmd.encode cfg.json
              let events :=
                if n.role = .leader ∧ o.peers = [] ∧ Txn.commits os then
                  commitEvent o
                    { n with store := n.store.appendEntries [n.clientEntry payload] }
                else []
              some ((c.record events).runSection op.node
                (Node.appendClientEntry cfg.json o payload) os fun c r =>
                  match r with
                  | .ok (entry, term) =>
                      c.setPhase i op (.waiting entry.index term)
                  | .error status => c.finish i op (.failed status))
          | _, _ => none
      | none => none
  | .poll i =>
      match c.ops[i]? with
      | some op =>
          match op.phase with
          | .waiting index term =>
              match (c.node op.node).pollCommit index term with
              | none => some c
              | some (.ok _) =>
                  some (c.finish i op (.written op.node index term))
              | some (.error status) => some (c.finish i op (.failed status))
          | _ => none
      | none => none
  | .expire i =>
      match c.ops[i]? with
      | some op =>
          match op.phase with
          | .done => none
          -- `waitForCommit` watches the context
          | .waiting index _ => some (c.finish i op (.failed (notCommitted index)))
          -- nothing else does: the client has its error and the handler goes on
          | _ => some (c.record [.abandoned i])
      | none => none
  | .confirm i =>
      match c.ops[i]? with
      | some op =>
          match op.phase with
          | .confirming [] inSync =>
              match (c.node op.node).confirmLeadership (cfg.options op.node) inSync with
              | .ok _ => some (c.setPhase i op .reading)
              | .error status => some (c.finish i op (.failed status))
          | _ => none
      | none => none
  | .readKey i =>
      match c.ops[i]? with
      | some op =>
          if op.phase = .reading then
            some (c.finish i op
              ((c.node op.node).readKey (cfg.options op.node) op.request.key))
          else none
      | none => none
  | _ => none

/-- One step of the cluster; `none` when the action is not possible. -/
def step (c : Cluster) : Action → Option Cluster
  | .deliver id os =>
      match c.calls[id]? with
      | some call => some (c.handle cfg id call os)
      | none => none
  | .crash x =>
      if x ∈ cfg.members then some (c.restart x (c.node x).store) else none
  | a =>
      match c.electionStep cfg a with
      | some c' => some c'
      | none =>
          match c.senderStep cfg a with
          | some c' => some c'
          | none => c.clientStep cfg a

/-- Run a list of actions. -/
def exec (c : Cluster) : List Action → Option Cluster
  | [] => some c
  | a :: as =>
      match c.step cfg a with
      | some c' => c'.exec as
      | none => none

end Cluster

end LogReplicator
