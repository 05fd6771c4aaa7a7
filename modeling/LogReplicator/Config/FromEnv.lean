import LogReplicator.Library.Text
import LogReplicator.Raft.Node

/-!
# The configuration of a node

`config.FromEnv` and what it calls.  A string of the program is a sequence of bytes, an
unset variable is the empty one, and a duration is a number of nanoseconds in a signed
integer of 64 bits.
-/

namespace LogReplicator

open Library Library.Text

/-- The value of a computation in a signed integer of 64 bits. -/
def toInt64 (n : Int) : Int :=
  n.bmod (2 ^ 64)

theorem toInt64_lt
    (n : Int) :
    toInt64 n < 2 ^ 63 := by
  have := Int.bmod_lt (x := n) (m := 2 ^ 64) (by decide)
  unfold toInt64
  omega

theorem toInt64_eq
    {n : Int} (hlow : -2 ^ 63 ≤ n) (hhigh : n < 2 ^ 63) :
    toInt64 n = n :=
  Int.bmod_eq_of_le (by omega) (by omega)

/-- `time.Millisecond`. -/
def millisecond : Int := 1000000

/-- Another node of the cluster. -/
structure Peer where
  id : Bytes
  address : Bytes
deriving DecidableEq, Repr

/-- Everything a node needs to start: the source's `config.Config`. -/
structure NodeConfig where
  nodeID : Bytes
  grpcAddr : Bytes
  httpAddr : Bytes
  dataDir : Bytes
  peers : List Peer
  electionMin : Int
  electionMax : Int
  heartbeatInterval : Int
  snapshotThreshold : Nat
  logLevel : Int
deriving DecidableEq, Repr

/-- What is wrong with a configuration. -/
inductive ConfigError where
  | duration (key : String) (raw : Bytes)
  | uint (key : String) (raw : Bytes)
  | logLevel (key : String) (raw : Bytes)
  | peerEntry (item : Bytes)
  | duplicatePeer (id : Bytes)
  | electionMin
  | electionMax
deriving DecidableEq, Repr

/-- The text of an error, with a way to quote what was read. -/
def ConfigError.message (quote : Bytes → String) : ConfigError → String
  | duration key raw =>
      key ++ " must be a positive number of milliseconds, got " ++ quote raw
  | uint key raw =>
      key ++ " must be a non-negative integer, got " ++ quote raw
  | logLevel key raw =>
      key ++ " must be one of debug, info, warn, error, got " ++ quote raw
  | peerEntry item =>
      "invalid RAFT_PEERS entry " ++ quote item ++ ", want id=host:port"
  | duplicatePeer id =>
      "duplicate peer id " ++ quote id ++ " in RAFT_PEERS"
  | electionMin =>
      "RAFT_ELECTION_MIN_MS must be greater than RAFT_HEARTBEAT_MS"
  | electionMax =>
      "RAFT_ELECTION_MAX_MS must be greater than or equal to RAFT_ELECTION_MIN_MS"

namespace NodeConfig

section Peers

/-- The id and the address of an entry of the peer list, if it has both. -/
def readItem (item : Bytes) : Option Peer :=
  match cut 61 (trimSpace item) with
  | (id, address, found) =>
      if !found ∨ id = [] ∨ address = [] then none else some ⟨id, address⟩

/-- The loop of `parsePeers`. -/
def parseItems (selfID : Bytes) :
    List Bytes → List Bytes → List Peer → Except ConfigError (List Peer)
  | [], _, peers => .ok peers
  | item :: items, seen, peers =>
      match readItem item with
      | none => .error (.peerEntry item)
      | some peer =>
          if peer.id ∈ seen then .error (.duplicatePeer peer.id)
          else if peer.id ≠ selfID then
            parseItems selfID items (peer.id :: seen) (peers ++ [peer])
          else
            parseItems selfID items (peer.id :: seen) peers

/-- Read a `node1=host:port,node2=host:port` list.  The entry for the node itself is
allowed and ignored, so every node can share one peer list. -/
def parsePeers (raw selfID : Bytes) : Except ConfigError (List Peer) :=
  if trimSpace raw = [] then .ok []
  else parseItems selfID (split 44 raw) [] []

end Peers

section Variables

variable (getenv : String → Bytes)

/-- A variable without the white space around it. -/
def env (key : String) (fallback : Bytes) : Bytes :=
  if trimSpace (getenv key) ≠ [] then trimSpace (getenv key) else fallback

/-- A number of milliseconds.  The sign is checked before the multiplication, which
wraps around. -/
def envDuration (key : String) (fallback : Int) : Except ConfigError Int :=
  if env getenv key [] = [] then .ok fallback
  else
    match atoi (env getenv key []) with
    | none => .error (.duration key (env getenv key []))
    | some milliseconds =>
        if milliseconds ≤ 0 then .error (.duration key (env getenv key []))
        else .ok (toInt64 (milliseconds * millisecond))

def envUint (key : String) (fallback : Nat) : Except ConfigError Nat :=
  if env getenv key [] = [] then .ok fallback
  else
    match parseUint (env getenv key []) with
    | none => .error (.uint key (env getenv key []))
    | some value => .ok value

/-- Upper case, as far as a comparison with an ASCII word can tell: besides the ASCII
letters only U+0131 and U+017F have an ASCII upper case. -/
def toUpper : Bytes → Bytes
  | 0xC4 :: 0xB1 :: s => 73 :: toUpper s
  | 0xC5 :: 0xBF :: s => 83 :: toUpper s
  | b :: s => (if 97 ≤ b ∧ b ≤ 122 then b - 32 else b) :: toUpper s
  | [] => []

/-- The levels of `log/slog`. -/
def levelNamed (name : Bytes) : Option Int :=
  if toUpper name = ascii "DEBUG" then some (-4)
  else if toUpper name = ascii "INFO" then some 0
  else if toUpper name = ascii "WARN" then some 4
  else if toUpper name = ascii "ERROR" then some 8
  else none

/-- `slog.Level.UnmarshalText`: a name, and an offset that starts with its sign. -/
def unmarshalLevel (s : Bytes) : Option Int :=
  let offset := s.dropWhile fun b => decide (b ≠ 43 ∧ b ≠ 45)
  let name := s.takeWhile fun b => decide (b ≠ 43 ∧ b ≠ 45)
  match if offset = [] then some 0 else atoi offset with
  | none => none
  | some offset => (levelNamed name).map fun level => toInt64 (level + offset)

def envLogLevel (key : String) (fallback : Int) : Except ConfigError Int :=
  if env getenv key [] = [] then .ok fallback
  else
    match unmarshalLevel (env getenv key []) with
    | none => .error (.logLevel key (env getenv key []))
    | some level => .ok level

/-- Build a validated config.  Every variable has a default that works for a single
node. -/
def fromEnv : Except ConfigError NodeConfig := do
  let nodeID := env getenv "NODE_ID" (ascii "node1")
  let electionMin ← envDuration getenv "RAFT_ELECTION_MIN_MS" (500 * millisecond)
  let electionMax ← envDuration getenv "RAFT_ELECTION_MAX_MS" (900 * millisecond)
  let heartbeatInterval ← envDuration getenv "RAFT_HEARTBEAT_MS" (100 * millisecond)
  let snapshotThreshold ← envUint getenv "RAFT_SNAPSHOT_THRESHOLD" 10000
  let logLevel ← envLogLevel getenv "RAFT_LOG_LEVEL" 0
  let peers ← parsePeers (env getenv "RAFT_PEERS" []) nodeID
  if electionMin ≤ heartbeatInterval then
    .error .electionMin
  else if electionMax < electionMin then
    .error .electionMax
  else
    .ok
      { nodeID := nodeID
        grpcAddr := env getenv "RAFT_GRPC_ADDR" (ascii ":9001")
        httpAddr := env getenv "RAFT_HTTP_ADDR" (ascii ":8001")
        dataDir := env getenv "RAFT_DATA_DIR" (ascii "data/node1")
        peers := peers
        electionMin := electionMin
        electionMax := electionMax
        heartbeatInterval := heartbeatInterval
        snapshotThreshold := snapshotThreshold
        logLevel := logLevel }

end Variables

/-- An id as the rest of the node sees it: one character for every byte. -/
def idText (id : Bytes) : String :=
  String.ofList (id.map fun b => Char.ofNat b.toNat)

/-- The options of the node: the source's `raft.OptionsFromConfig`. -/
def optionsFromConfig (cfg : NodeConfig) : Options where
  nodeID := idText cfg.nodeID
  peers := cfg.peers.map fun p => idText p.id
  snapshotThreshold := cfg.snapshotThreshold

end NodeConfig

end LogReplicator
