import LogReplicator.Config.Errors
import LogReplicator.Storage.Represents

/-!
# Starting a node

`run` of `cmd/raftnode`: read the environment, check the options, open the store and
restore the persistent state.  A configuration that is accepted and a file that earlier
runs left behind always give a node, in the state from which the runs of the cluster take
it up after a crash.  Nodes with the same peer list are members of one cluster.

What happens afterwards (connections, servers, signals) is not modelled.
-/

namespace LogReplicator

open Library

/-- The source's `raft.Options`, without the logger. -/
structure RaftOptions where
  nodeID : Bytes
  grpcAddr : Bytes
  httpAddr : Bytes
  dataDir : Bytes
  peers : List Peer
  electionMin : Int
  electionMax : Int
  heartbeatInterval : Int
  snapshotThreshold : Nat
deriving DecidableEq, Repr

/-- The source's `OptionsFromConfig` with all its fields. -/
def NodeConfig.raftOptions (cfg : NodeConfig) : RaftOptions where
  nodeID := cfg.nodeID
  grpcAddr := cfg.grpcAddr
  httpAddr := cfg.httpAddr
  dataDir := cfg.dataDir
  peers := cfg.peers
  electionMin := cfg.electionMin
  electionMax := cfg.electionMax
  heartbeatInterval := cfg.heartbeatInterval
  snapshotThreshold := cfg.snapshotThreshold

/-- Why there is no node. -/
inductive StartError where
  | config (e : ConfigError)
  | nodeIDRequired
  | grpcAddrRequired
  | dataDirRequired
  | store (e : StoreError)
deriving DecidableEq, Repr

/-- The node that `New` returns: the options it keeps and the state it restores. -/
structure NewNode where
  options : Options
  grpcAddr : Bytes
  httpAddr : Bytes
  electionMin : Int
  electionMax : Int
  heartbeat : Int
  role : Role
  currentTerm : Nat
  votedFor : Bytes
  commitIndex : Nat
  lastApplied : Nat

namespace RaftOptions

def defaultMinElectionTimeout : Int := 500 * millisecond
def defaultMaxElectionTimeout : Int := 900 * millisecond
def defaultHeartbeatInterval : Int := 100 * millisecond

/-- What the options have to name. -/
def check (opts : RaftOptions) : Except StartError Unit :=
  if opts.nodeID = [] then .error .nodeIDRequired
  else if opts.grpcAddr = [] then .error .grpcAddrRequired
  else if opts.dataDir = [] then .error .dataDirRequired
  else .ok ()

/-- A duration of zero stands for the default. -/
def withDefaults (opts : RaftOptions) : RaftOptions :=
  { opts with
    electionMin :=
      if opts.electionMin = 0 then defaultMinElectionTimeout else opts.electionMin
    electionMax :=
      if opts.electionMax = 0 then defaultMaxElectionTimeout else opts.electionMax
    heartbeatInterval :=
      if opts.heartbeatInterval = 0 then defaultHeartbeatInterval
      else opts.heartbeatInterval }

/-- The node with what was read from its store. -/
def node (opts : RaftOptions) (term : Nat) (votedFor : Bytes) (lastApplied : Nat) :
    NewNode where
  options :=
    ⟨NodeConfig.idText opts.nodeID, opts.peers.map fun p => NodeConfig.idText p.id,
      opts.snapshotThreshold⟩
  grpcAddr := opts.grpcAddr
  httpAddr := opts.httpAddr
  electionMin := opts.electionMin
  electionMax := opts.electionMax
  heartbeat := opts.heartbeatInterval
  role := .follower
  currentTerm := term
  votedFor := votedFor
  commitIndex := lastApplied
  lastApplied := lastApplied

/-- The part of `New` that reads the store once it is open. -/
def restore (opts : RaftOptions) (db : Database) : Except StoreError NewNode := do
  let (term, votedFor) ← db.currentTermVote
  let lastApplied ← db.lastApplied
  return opts.node term votedFor lastApplied

/-- `New`, on the file `raft.db`; `order` is the order in which its metadata is seeded. -/
def new (opts : RaftOptions) (order : List MetaKey) (db : Database) :
    Database × Except StartError NewNode :=
  match opts.check with
  | .error e => (db, .error e)
  | .ok () =>
      match db.openStore order (Database.init order).length with
      | (db', some e) => (db', .error (.store e))
      | (db', none) => (db', (opts.withDefaults.restore db').mapError .store)

end RaftOptions

/-- The part of `run` up to the node. -/
def runNode (getenv : String → Bytes) (order : List MetaKey) (db : Database) :
    Database × Except StartError NewNode :=
  match NodeConfig.fromEnv getenv with
  | .error e => (db, .error (.config e))
  | .ok cfg => cfg.raftOptions.new order db

section Restoring

variable {getenv : String → Bytes} {cfg : NodeConfig} {db : Database} {s : Store}

/-- The node holds the state from which the cluster takes up a node on this store. -/
structure NewNode.Resumes (r : NewNode) (o : Options) (n : Node) : Prop where
  options : r.options = o
  role : r.role = n.role
  currentTerm : r.currentTerm = n.currentTerm
  votedFor : r.votedFor = text n.votedFor
  commitIndex : r.commitIndex = n.commitIndex
  lastApplied : r.lastApplied = n.lastApplied

theorem env_ne_nil
    (getenv : String → Bytes) (key : String)
    {fallback : Bytes} (h : fallback ≠ []) :
    NodeConfig.env getenv key fallback ≠ [] := by
  unfold NodeConfig.env
  split_ifs with hvalue
  · exact hvalue
  · exact h

/-- What is configured names everything that has to be named. -/
theorem named_of_fromEnv
    (hok : NodeConfig.fromEnv getenv = .ok cfg) :
    cfg.nodeID ≠ [] ∧ cfg.grpcAddr ≠ [] ∧ cfg.dataDir ≠ [] := by
  unfold NodeConfig.fromEnv at hok
  obtain ⟨electionMin, -, hok⟩ := first_of_bind_eq_ok hok
  obtain ⟨electionMax, -, hok⟩ := first_of_bind_eq_ok hok
  obtain ⟨heartbeatInterval, -, hok⟩ := first_of_bind_eq_ok hok
  obtain ⟨snapshotThreshold, -, hok⟩ := first_of_bind_eq_ok hok
  obtain ⟨logLevel, -, hok⟩ := first_of_bind_eq_ok hok
  obtain ⟨peers, -, hok⟩ := first_of_bind_eq_ok hok
  split_ifs at hok
  cases hok
  exact ⟨env_ne_nil _ _ (by decide), env_ne_nil _ _ (by decide), env_ne_nil _ _ (by decide)⟩

theorem check_of_fromEnv
    (hok : NodeConfig.fromEnv getenv = .ok cfg) :
    cfg.raftOptions.check = .ok () := by
  simp [RaftOptions.check, NodeConfig.raftOptions, named_of_fromEnv hok]

/-- On a file that holds a store, `New` reads that store and changes nothing. -/
theorem RaftOptions.new_eq
    {opts : RaftOptions}
    (hcheck : opts.check = .ok ())
    (hrep : Represents db s) (hfits : s.Fits) (order : List MetaKey) :
    opts.new order db =
      (db, .ok (opts.withDefaults.node s.currentTerm (text s.votedFor) s.lastApplied)) := by
  have hanswers := hrep.answers hfits
  unfold RaftOptions.new RaftOptions.restore
  simp only [hcheck, hrep.openStore, hanswers.currentTermVote, hanswers.lastApplied]
  rfl

theorem RaftOptions.withDefaults_eq_self
    {opts : RaftOptions}
    (hmin : 0 < opts.electionMin)
    (hmax : 0 < opts.electionMax)
    (hheartbeat : 0 < opts.heartbeatInterval) :
    opts.withDefaults = opts := by
  unfold RaftOptions.withDefaults
  rw [if_neg hmin.ne', if_neg hmax.ne', if_neg hheartbeat.ne']

/-- The durations that are asked for are durations. -/
structure Durations (getenv : String → Bytes) : Prop where
  electionMin : NodeConfig.configured getenv "RAFT_ELECTION_MIN_MS" 500 ≤
    NodeConfig.maxMilliseconds
  electionMax : NodeConfig.configured getenv "RAFT_ELECTION_MAX_MS" 900 ≤
    NodeConfig.maxMilliseconds
  heartbeat : NodeConfig.configured getenv "RAFT_HEARTBEAT_MS" 100 ≤
    NodeConfig.maxMilliseconds

theorem Durations.withDefaults
    (h : Durations getenv)
    (hok : NodeConfig.fromEnv getenv = .ok cfg) :
    cfg.raftOptions.withDefaults = cfg.raftOptions := by
  have haccepted := NodeConfig.fromEnv_ok hok
  exact RaftOptions.withDefaults_eq_self
    (NodeConfig.envDuration_pos haccepted.readMin (by decide) (by decide) h.electionMin)
    (NodeConfig.envDuration_pos haccepted.readMax (by decide) (by decide) h.electionMax)
    (NodeConfig.envDuration_pos haccepted.readHeartbeat (by decide) (by decide) h.heartbeat)

end Restoring

section Deployment

open NodeConfig Library.Text

/-- The snapshot threshold of the node with an id. -/
def thresholdOf (cfgs : List NodeConfig) (id : String) : Nat :=
  ((cfgs.find? fun cfg => decide (idText cfg.nodeID = id)).map
    NodeConfig.snapshotThreshold).getD 0

theorem thresholdOf_eq
    {cfgs : List NodeConfig} (hids : (cfgs.map NodeConfig.nodeID).Nodup)
    {cfg : NodeConfig} (hcfg : cfg ∈ cfgs) :
    thresholdOf cfgs (idText cfg.nodeID) = cfg.snapshotThreshold := by
  have hfind : (cfgs.find? fun c => decide (idText c.nodeID = idText cfg.nodeID)).isSome :=
    List.find?_isSome.mpr ⟨cfg, hcfg, by simp⟩
  obtain ⟨found, hfound⟩ := Option.isSome_iff_exists.mp hfind
  have hid : idText found.nodeID = idText cfg.nodeID := by
    simpa using List.find?_some hfound
  have heq : found = cfg := List.inj_on_of_nodup_map hids (List.mem_of_find?_eq_some hfound)
    hcfg (idText_injective hid)
  rw [thresholdOf, hfound, heq]
  rfl

/-- Nodes that are started with one peer list run as members of one cluster: each has the
options that the cluster gives it. -/
theorem NodeConfig.deployment
    (json : Json) (raw : Bytes)
    (cfgs : List NodeConfig)
    (hstarted : ∀ cfg ∈ cfgs, ∃ getenv,
      fromEnv getenv = .ok cfg ∧ env getenv "RAFT_PEERS" [] = raw)
    (hids : (cfgs.map NodeConfig.nodeID).Nodup)
    (hlisted : ∀ cfg ∈ cfgs, cfg.nodeID ∈ itemIDs raw) :
    ∃ cluster : Config, cluster.json = json ∧ ∀ cfg ∈ cfgs,
      idText cfg.nodeID ∈ cluster.members ∧
        cfg.optionsFromConfig = cluster.options (idText cfg.nodeID) := by
  cases cfgs with
  | nil =>
      exact ⟨⟨[], fun _ => 0, json, List.nodup_nil, by simp⟩, rfl, by simp⟩
  | cons first rest =>
      have hread : ∀ cfg ∈ first :: rest, parsePeers raw cfg.nodeID = .ok cfg.peers := by
        intro cfg hcfg
        obtain ⟨getenv, hok, rfl⟩ := hstarted cfg hcfg
        exact (fromEnv_ok hok).readPeers
      obtain ⟨members, hlists, -⟩ := parsePeers_eq_ok.mp (hread first List.mem_cons_self)
      -- a blank list only has a blank id, and no node has it
      have hblank : trimSpace raw ≠ [] := by
        intro hblank
        obtain ⟨getenv, hok, -⟩ := hstarted first List.mem_cons_self
        have hid := hlisted first List.mem_cons_self
        rw [itemIDs_blank hblank, List.mem_singleton] at hid
        exact (named_of_fromEnv hok).1 hid
      refine ⟨hlists.cluster (thresholdOf (first :: rest)) json, rfl, fun cfg hcfg => ⟨?_, ?_⟩⟩
      · obtain ⟨m, hm, hid⟩ := List.mem_map.mp ((hlists.mem_ids hblank).mp (hlisted cfg hcfg))
        exact List.mem_map.mpr ⟨m, hm, by rw [hid]⟩
      · exact hlists.optionsFromConfig_eq _ json cfg (hread cfg hcfg)
          (thresholdOf_eq hids hcfg)

/-- The variables of one of three nodes. -/
def nodeEnv (id threshold : Bytes) (key : String) : Bytes :=
  if key = "NODE_ID" then id
  else if key = "RAFT_PEERS" then threeNodes
  else if key = "RAFT_SNAPSHOT_THRESHOLD" then threshold
  else []

/-- Two of the nodes, with different thresholds. -/
def twoStarted : List NodeConfig :=
  [⟨ascii "node1", ascii ":9001", ascii ":8001", ascii "data/node1",
      [⟨ascii "node2", ascii "node2:9001"⟩, ⟨ascii "node3", ascii "node3:9001"⟩],
      500000000, 900000000, 100000000, 10000, 0⟩,
    ⟨ascii "node3", ascii ":9001", ascii ":8001", ascii "data/node1",
      [⟨ascii "node1", ascii "node1:9001"⟩, ⟨ascii "node2", ascii "node2:9001"⟩],
      500000000, 900000000, 100000000, 5, 0⟩]

theorem NodeConfig.deployment_twoStarted :
    ∃ cluster : Config, cluster.json = .compact ∧ ∀ cfg ∈ twoStarted,
      idText cfg.nodeID ∈ cluster.members ∧
        cfg.optionsFromConfig = cluster.options (idText cfg.nodeID) := by
  have hstarted : ∀ cfg ∈ twoStarted, ∃ getenv,
      fromEnv getenv = .ok cfg ∧ env getenv "RAFT_PEERS" [] = threeNodes := by
    intro cfg hcfg
    rcases List.mem_pair.mp hcfg with rfl | rfl
    · exact ⟨nodeEnv (ascii "node1") [], by decide +kernel, by decide +kernel⟩
    · exact ⟨nodeEnv (ascii "node3") (ascii "5"), by decide +kernel, by decide +kernel⟩
  exact NodeConfig.deployment .compact threeNodes twoStarted hstarted (by decide +kernel)
    (by decide +kernel)

end Deployment

end LogReplicator
