import LogReplicator.Raft.Follower

/-!
# The client API

The sections of `client.go`: routing a call to the leader, appending a client
entry, one poll of `waitForCommit`, the check of `confirmLeadership`, and the
read itself.
-/

namespace LogReplicator

open Library

/-- The gRPC status codes the client API answers with. -/
inductive Code where
  | invalidArgument
  | notFound
  | unavailable
  | deadlineExceeded
  | internal
deriving DecidableEq, Repr

structure Status where
  code : Code
  message : String
deriving DecidableEq, Repr

/-- A client call. -/
inductive ClientRequest where
  | write (key value : String)
  | delete (key : String)
  | read (key : String)
deriving DecidableEq, Repr

/-- What a client call returns. -/
inductive Answer where
  | written (leaderId : String) (index term : Nat)
  | value (leaderId value : String)
  | failed (status : Status)
deriving DecidableEq, Repr

def ClientRequest.key : ClientRequest → String
  | .write key _ => key
  | .delete key => key
  | .read key => key

/-- The command a call proposes. -/
def ClientRequest.command : ClientRequest → Option Command
  | .write key value => some (Command.setCommand key value)
  | .delete key => some (Command.deleteCommand key)
  | .read _ => none

def keyRequired : Status :=
  ⟨.invalidArgument, "key is required"⟩

def notLeaderError (leaderID : String) : Status :=
  if leaderID = "" then ⟨.unavailable, "no leader has been elected yet"⟩
  else ⟨.unavailable, "this node is not the leader, try " ++ leaderID.quote⟩

def unknownLeader (leaderID : String) : Status :=
  ⟨.internal, "leader " ++ leaderID.quote ++ " is not a configured peer"⟩

def notCommitted (index : Nat) : Status :=
  ⟨.deadlineExceeded, "entry " ++ toString index ++
    " is stored on the leader but was not committed by a majority"⟩

def noQuorum (inSync majority : Nat) : Status :=
  ⟨.unavailable, "only " ++ toString inSync ++ " of " ++ toString majority ++
    " nodes answered, refusing to serve a stale read"⟩

def keyMissing (key : String) : Status :=
  ⟨.notFound, "key " ++ key.quote ++ " does not exist"⟩

/-- Where a call has to run. -/
inductive Route where
  | here
  | forward (leaderID : String)
  | refuse (status : Status)
deriving DecidableEq, Repr

namespace Node

/-- The node that should handle a client call; a call is forwarded at most
once. -/
def leaderClient (o : Options) (n : Node) (wasForwarded : Bool) : Route :=
  if n.role = .leader then .here
  else if n.leaderID = "" then .refuse (notLeaderError "")
  else if wasForwarded then .refuse (notLeaderError n.leaderID)
  else if n.leaderID ∈ o.peers then .forward n.leaderID
  else .refuse (unknownLeader n.leaderID)

/-- The entry `appendClientEntry` writes. -/
def clientEntry (n : Node) (payload : Bytes) : Entry :=
  ⟨n.store.lastIndex + 1, n.currentTerm, payload⟩

/-- Append a command to the local log; a single node cluster is its own
majority. -/
def appendClientEntry (json : Json) (o : Options) (payload : Bytes) :
    Txn Node (Except Status (Entry × Nat)) := do
  let n ← Txn.read
  if n.role ≠ .leader then
    pure (.error (notLeaderError n.leaderID))
  else do
    let stored ← writeStoreIf (Store.storable [n.clientEntry payload]) fun s =>
      s.appendEntries [n.clientEntry payload]
    if stored = false then
      pure (.error ⟨.internal, "append entry"⟩)
    else if o.peers = [] then do
      advanceCommitLocked json o
      pure (.ok (n.clientEntry payload, n.currentTerm))
    else
      pure (.ok (n.clientEntry payload, n.currentTerm))

/-- One poll of `waitForCommit`: the answer, if there is one already. -/
def pollCommit (n : Node) (index term : Nat) : Option (Except Status Unit) :=
  if index ≤ n.commitIndex then some (.ok ())
  else if n.role ≠ .leader ∨ n.currentTerm ≠ term then
    some (.error (notLeaderError n.leaderID))
  else none

/-- The check of `confirmLeadership` after its round. -/
def confirmLeadership (o : Options) (n : Node) (inSync : Nat) :
    Except Status Unit :=
  if n.role ≠ .leader then .error (notLeaderError n.leaderID)
  else if inSync < majority o then .error (noQuorum inSync (majority o))
  else .ok ()

/-- The answer of a read whose leadership is confirmed. -/
def readKey (o : Options) (n : Node) (key : String) : Answer :=
  match n.store.get key with
  | some value => .value o.nodeID value
  | none => .failed (keyMissing key)

end Node

end LogReplicator
