import LogReplicator.Config.FromEnv

/-!
# The timers of an accepted configuration

A number of milliseconds is checked before it becomes a duration, the order of the
durations afterwards.  Exactly as long as no multiplication wraps around, the checks give
what the timers need: a positive heartbeat interval, a longer election timeout, and a
window for its random part that is not negative.
-/

namespace LogReplicator

open Library.Text

/-- A computation that succeeds has a first step that succeeds. -/
theorem first_of_bind_eq_ok
    {ε α β : Type} {first : Except ε α} {rest : α → Except ε β} {b : β}
    (h : first >>= rest = .ok b) :
    ∃ a, first = .ok a ∧ rest a = .ok b := by
  rcases first with _ | a
  · nomatch h
  · exact ⟨a, rfl, h⟩

namespace NodeConfig

/-- The random part of the election timeout is below this. -/
def electionWindow (cfg : NodeConfig) : Int :=
  toInt64 (cfg.electionMax - cfg.electionMin)

/-- The time to the next election deadline that `resetElectionDeadlineLocked` picks, with
any `rand.Int63n`. -/
def electionTimeout (cfg : NodeConfig) (int63n : Int → Int) : Int :=
  if 0 < cfg.electionWindow then
    toInt64 (cfg.electionMin + int63n cfg.electionWindow)
  else
    cfg.electionMin

section Durations

variable {getenv : String → Bytes} {key : String} {fallback d : Int}

/-- The number of milliseconds a variable asks for. -/
def configured (getenv : String → Bytes) (key : String) (fallback : Int) : Int :=
  (atoi (trimSpace (getenv key))).getD fallback

/-- The largest number of milliseconds that is a duration. -/
def maxMilliseconds : Int := 9223372036854

/-- A positive number of milliseconds becomes a duration without a wrap-around exactly up
to the largest one. -/
theorem toInt64_millisecond_iff
    {n : Int} (hpos : 0 < n) :
    toInt64 (n * millisecond) = n * millisecond ↔ n ≤ maxMilliseconds := by
  unfold maxMilliseconds millisecond
  constructor
  · intro h
    have hlt := toInt64_lt (n * 1000000)
    omega
  · intro hle
    exact toInt64_eq (by omega) (by omega)

theorem env_eq_trimSpace
    (getenv : String → Bytes) (key : String) :
    env getenv key [] = trimSpace (getenv key) := by
  unfold env
  split_ifs with h
  · rfl
  · exact (not_not.mp h).symm

/-- A duration that is read is that of a positive number of milliseconds, reduced to 64
bits. -/
theorem envDuration_read
    (h : envDuration getenv key (fallback * millisecond) = .ok d)
    (hfallback : 0 < fallback)
    (hle : fallback ≤ maxMilliseconds) :
    d = toInt64 (configured getenv key fallback * millisecond) ∧
      0 < configured getenv key fallback := by
  unfold envDuration at h
  unfold configured
  rw [env_eq_trimSpace] at h
  split_ifs at h with hempty
  · cases h
    rw [hempty, show atoi [] = none from rfl, Option.getD_none]
    exact ⟨((toInt64_millisecond_iff hfallback).mpr hle).symm, hfallback⟩
  · cases hatoi : atoi (trimSpace (getenv key)) with
    | none =>
        rw [hatoi] at h
        cases h
    | some milliseconds =>
        rw [hatoi] at h
        simp only at h
        split_ifs at h with hsign
        cases h
        exact ⟨rfl, not_le.mp hsign⟩

theorem envDuration_pos
    (h : envDuration getenv key (fallback * millisecond) = .ok d)
    (hfallback : 0 < fallback)
    (hle : fallback ≤ maxMilliseconds)
    (hconfigured : configured getenv key fallback ≤ maxMilliseconds) :
    0 < d := by
  obtain ⟨hd, hpos⟩ := envDuration_read h hfallback hle
  rw [hd, (toInt64_millisecond_iff hpos).mpr hconfigured]
  exact Int.mul_pos hpos (by decide)

end Durations

/-- What an accepted configuration went through. -/
structure Accepted (getenv : String → Bytes) (cfg : NodeConfig) : Prop where
  readMin : envDuration getenv "RAFT_ELECTION_MIN_MS" (500 * millisecond) =
    .ok cfg.electionMin
  readMax : envDuration getenv "RAFT_ELECTION_MAX_MS" (900 * millisecond) =
    .ok cfg.electionMax
  readHeartbeat : envDuration getenv "RAFT_HEARTBEAT_MS" (100 * millisecond) =
    .ok cfg.heartbeatInterval
  readThreshold : envUint getenv "RAFT_SNAPSHOT_THRESHOLD" 10000 = .ok cfg.snapshotThreshold
  readLevel : envLogLevel getenv "RAFT_LOG_LEVEL" 0 = .ok cfg.logLevel
  readPeers : parsePeers (env getenv "RAFT_PEERS" []) cfg.nodeID = .ok cfg.peers
  heartbeat_lt : cfg.heartbeatInterval < cfg.electionMin
  min_le : cfg.electionMin ≤ cfg.electionMax

theorem fromEnv_ok
    {getenv : String → Bytes} {cfg : NodeConfig}
    (h : fromEnv getenv = .ok cfg) :
    Accepted getenv cfg := by
  unfold fromEnv at h
  obtain ⟨electionMin, hmin, h⟩ := first_of_bind_eq_ok h
  obtain ⟨electionMax, hmax, h⟩ := first_of_bind_eq_ok h
  obtain ⟨heartbeatInterval, hheartbeat, h⟩ := first_of_bind_eq_ok h
  obtain ⟨snapshotThreshold, hthreshold, h⟩ := first_of_bind_eq_ok h
  obtain ⟨logLevel, hlevel, h⟩ := first_of_bind_eq_ok h
  obtain ⟨peers, hpeers, h⟩ := first_of_bind_eq_ok h
  split_ifs at h with hshort hinverted
  cases h
  exact ⟨hmin, hmax, hheartbeat, hthreshold, hlevel, hpeers, not_le.mp hshort,
    not_lt.mp hinverted⟩

/-- The timers are those the configuration asks for, they are in the right order, and every
election timeout is between the two bounds. -/
structure SaneTimers (getenv : String → Bytes) (cfg : NodeConfig) : Prop where
  electionMin : cfg.electionMin = configured getenv "RAFT_ELECTION_MIN_MS" 500 * 10 ^ 6
  electionMax : cfg.electionMax = configured getenv "RAFT_ELECTION_MAX_MS" 900 * 10 ^ 6
  heartbeat : cfg.heartbeatInterval = configured getenv "RAFT_HEARTBEAT_MS" 100 * 10 ^ 6
  heartbeat_pos : 0 < cfg.heartbeatInterval
  heartbeat_lt : cfg.heartbeatInterval < cfg.electionMin
  min_le : cfg.electionMin ≤ cfg.electionMax
  max_lt : cfg.electionMax < 2 ^ 63
  window : cfg.electionWindow = cfg.electionMax - cfg.electionMin
  timeout : ∀ int63n : Int → Int, (∀ w, 0 < w → 0 ≤ int63n w ∧ int63n w < w) →
    cfg.electionMin ≤ cfg.electionTimeout int63n ∧
      cfg.electionTimeout int63n ≤ cfg.electionMax

/-- An accepted configuration has sane timers exactly when every number of milliseconds is
a duration. -/
theorem accepted_timers
    (getenv : String → Bytes) (cfg : NodeConfig)
    (hok : fromEnv getenv = .ok cfg) :
    SaneTimers getenv cfg ↔
      configured getenv "RAFT_ELECTION_MIN_MS" 500 ≤ maxMilliseconds ∧
      configured getenv "RAFT_ELECTION_MAX_MS" 900 ≤ maxMilliseconds ∧
      configured getenv "RAFT_HEARTBEAT_MS" 100 ≤ maxMilliseconds := by
  obtain ⟨hreadMin, hreadMax, hreadHeartbeat, -, -, -, hshort, hinverted⟩ := fromEnv_ok hok
  obtain ⟨hmin, hposMin⟩ := envDuration_read hreadMin (by decide) (by decide)
  obtain ⟨hmax, hposMax⟩ := envDuration_read hreadMax (by decide) (by decide)
  obtain ⟨hheartbeat, hposHeartbeat⟩ :=
    envDuration_read hreadHeartbeat (by decide) (by decide)
  rw [← toInt64_millisecond_iff hposMin, ← toInt64_millisecond_iff hposMax,
    ← toInt64_millisecond_iff hposHeartbeat, ← hmin, ← hmax, ← hheartbeat]
  constructor
  · intro h
    exact ⟨h.electionMin, h.electionMax, h.heartbeat⟩
  · rintro ⟨heqMin, heqMax, heqHeartbeat⟩
    have hpos : 0 < cfg.heartbeatInterval := heqHeartbeat ▸ Int.mul_pos hposHeartbeat (by decide)
    have hbound : cfg.electionMax < 2 ^ 63 := hmax ▸ toInt64_lt _
    have hwindow : cfg.electionWindow = cfg.electionMax - cfg.electionMin :=
      toInt64_eq (by omega) (by omega)
    refine ⟨heqMin, heqMax, heqHeartbeat, hpos, hshort, hinverted, hbound, hwindow, ?_⟩
    intro int63n hrandom
    unfold electionTimeout
    split_ifs with hpositive
    · obtain ⟨hlow, hhigh⟩ := hrandom _ hpositive
      rw [hwindow] at hlow hhigh ⊢
      rw [toInt64_eq (by omega) (by omega)]
      omega
    · exact ⟨le_rfl, hinverted⟩

/-- The variables of a node with its own timers, and with white space around them. -/
def quickEnv (key : String) : Bytes :=
  if key = "RAFT_HEARTBEAT_MS" then ascii " 40"
  else if key = "RAFT_ELECTION_MIN_MS" then ascii "+200 "
  else if key = "RAFT_ELECTION_MAX_MS" then ascii "400"
  else []

theorem accepted_timers_quickEnv :
    ∃ cfg, fromEnv quickEnv = .ok cfg ∧ SaneTimers quickEnv cfg := by
  have hok : fromEnv quickEnv = .ok
      { nodeID := ascii "node1"
        grpcAddr := ascii ":9001"
        httpAddr := ascii ":8001"
        dataDir := ascii "data/node1"
        peers := []
        electionMin := 200000000
        electionMax := 400000000
        heartbeatInterval := 40000000
        snapshotThreshold := 10000
        logLevel := 0 } := by
    decide +kernel
  exact ⟨_, hok, (accepted_timers quickEnv _ hok).mpr (by decide +kernel)⟩

/-- A heartbeat interval that is too long for a duration. -/
def overflowEnv (key : String) : Bytes :=
  if key = "RAFT_HEARTBEAT_MS" then ascii "9223372036855" else []

/-- The multiplication wraps around, and the configuration is accepted with a negative
heartbeat interval. -/
theorem negative_heartbeat_accepted :
    configured overflowEnv "RAFT_HEARTBEAT_MS" 100 = 9223372036855 ∧
    ∃ cfg, fromEnv overflowEnv = .ok cfg ∧ cfg.heartbeatInterval = -9223372036854551616 := by
  have hok : (fromEnv overflowEnv).toOption.map heartbeatInterval =
      some (-9223372036854551616) := by
    decide +kernel
  constructor
  · decide +kernel
  · cases hread : fromEnv overflowEnv with
    | error e =>
        rw [hread] at hok
        cases hok
    | ok cfg =>
        rw [hread] at hok
        exact ⟨cfg, rfl, Option.some.inj hok⟩

end NodeConfig

end LogReplicator
