import LogReplicator.Config.Peers
import LogReplicator.Config.Timers
import Mathlib.Data.List.Duplicate

/-!
# Why a configuration is refused

The errors of `config.FromEnv` name a variable and quote what was read from it.  What
they say is true of the environment.
-/

namespace LogReplicator

open Library Library.Text

/-- A computation that fails does so in its first step or after it. -/
theorem bind_eq_error_cases
    {ε α β : Type} {first : Except ε α} {rest : α → Except ε β} {e : ε}
    (h : first >>= rest = .error e) :
    first = .error e ∨ ∃ a, first = .ok a ∧ rest a = .error e := by
  rcases first with _ | a
  · cases h
    exact Or.inl rfl
  · exact Or.inr ⟨a, rfl, h⟩

namespace NodeConfig

/-- The variables that hold a number of milliseconds. -/
def durationKeys : List String :=
  ["RAFT_ELECTION_MIN_MS", "RAFT_ELECTION_MAX_MS", "RAFT_HEARTBEAT_MS"]

/-- What has to be wrong with the environment for each of the errors. -/
inductive Refused (getenv : String → Bytes) : ConfigError → Prop
  | duration
      {key : String}
      (hkey : key ∈ durationKeys)
      (hset : env getenv key [] ≠ [])
      (hbad : ∀ milliseconds, atoi (env getenv key []) = some milliseconds →
        milliseconds ≤ 0) :
      Refused getenv (.duration key (env getenv key []))
  | uint
      (hset : env getenv "RAFT_SNAPSHOT_THRESHOLD" [] ≠ [])
      (hbad : parseUint (env getenv "RAFT_SNAPSHOT_THRESHOLD" []) = none) :
      Refused getenv
        (.uint "RAFT_SNAPSHOT_THRESHOLD" (env getenv "RAFT_SNAPSHOT_THRESHOLD" []))
  | logLevel
      (hset : env getenv "RAFT_LOG_LEVEL" [] ≠ [])
      (hbad : unmarshalLevel (env getenv "RAFT_LOG_LEVEL" []) = none) :
      Refused getenv (.logLevel "RAFT_LOG_LEVEL" (env getenv "RAFT_LOG_LEVEL" []))
  | peerEntry
      {item : Bytes}
      (hset : trimSpace (env getenv "RAFT_PEERS" []) ≠ [])
      (hitem : item ∈ split 44 (env getenv "RAFT_PEERS" []))
      (hbad : readItem item = none) :
      Refused getenv (.peerEntry item)
  | duplicatePeer
      {id : Bytes}
      (hset : trimSpace (env getenv "RAFT_PEERS" []) ≠ [])
      (hid : List.Duplicate id (itemIDs (env getenv "RAFT_PEERS" []))) :
      Refused getenv (.duplicatePeer id)
  | electionMin
      {electionMin heartbeatInterval : Int}
      (hmin : envDuration getenv "RAFT_ELECTION_MIN_MS" (500 * millisecond) =
        .ok electionMin)
      (hheartbeat : envDuration getenv "RAFT_HEARTBEAT_MS" (100 * millisecond) =
        .ok heartbeatInterval)
      (hle : electionMin ≤ heartbeatInterval) :
      Refused getenv .electionMin
  | electionMax
      {electionMin electionMax : Int}
      (hmin : envDuration getenv "RAFT_ELECTION_MIN_MS" (500 * millisecond) =
        .ok electionMin)
      (hmax : envDuration getenv "RAFT_ELECTION_MAX_MS" (900 * millisecond) =
        .ok electionMax)
      (hlt : electionMax < electionMin) :
      Refused getenv .electionMax

section Variables

variable {getenv : String → Bytes} {key : String} {e : ConfigError}

theorem envDuration_refused
    {fallback : Int}
    (h : envDuration getenv key fallback = .error e)
    (hkey : key ∈ durationKeys) :
    Refused getenv e := by
  unfold envDuration at h
  split_ifs at h with hempty
  cases hatoi : atoi (env getenv key []) with
  | none =>
      rw [hatoi] at h
      cases h
      exact .duration hkey hempty (by simp [hatoi])
  | some milliseconds =>
      rw [hatoi] at h
      simp only at h
      split_ifs at h with hsign
      cases h
      refine .duration hkey hempty fun n hn => ?_
      rw [hatoi] at hn
      cases hn
      exact hsign

/-- A variable that is set and read holds a positive number. -/
theorem pos_of_envDuration_ok
    {fallback d : Int}
    (h : envDuration getenv key fallback = .ok d)
    (hset : env getenv key [] ≠ []) :
    ∃ milliseconds, atoi (env getenv key []) = some milliseconds ∧ 0 < milliseconds := by
  unfold envDuration at h
  rw [if_neg hset] at h
  cases hatoi : atoi (env getenv key []) with
  | none =>
      rw [hatoi] at h
      cases h
  | some milliseconds =>
      rw [hatoi] at h
      simp only at h
      split_ifs at h with hsign
      exact ⟨milliseconds, rfl, not_le.mp hsign⟩

theorem envUint_refused
    {fallback : Nat}
    (h : envUint getenv "RAFT_SNAPSHOT_THRESHOLD" fallback = .error e) :
    Refused getenv e := by
  unfold envUint at h
  split_ifs at h with hempty
  cases hparse : parseUint (env getenv "RAFT_SNAPSHOT_THRESHOLD" []) with
  | none =>
      rw [hparse] at h
      cases h
      exact .uint hempty hparse
  | some value =>
      rw [hparse] at h
      cases h

theorem envLogLevel_refused
    {fallback : Int}
    (h : envLogLevel getenv "RAFT_LOG_LEVEL" fallback = .error e) :
    Refused getenv e := by
  unfold envLogLevel at h
  split_ifs at h with hempty
  cases hlevel : unmarshalLevel (env getenv "RAFT_LOG_LEVEL" []) with
  | none =>
      rw [hlevel] at h
      cases h
      exact .logLevel hempty hlevel
  | some level =>
      rw [hlevel] at h
      cases h

end Variables

section Items

variable {selfID : Bytes} {items seen : List Bytes} {peers : List Peer} {e : ConfigError}

/-- The loop stops at an entry that cannot be read, or at an id that it has seen. -/
theorem parseItems_eq_error
    (h : parseItems selfID items seen peers = .error e) :
    (∃ item ∈ items, readItem item = none ∧ e = .peerEntry item) ∨
      ∃ id, e = .duplicatePeer id ∧
        (id ∈ seen ∧ id ∈ items.map (fun item => (cut 61 (trimSpace item)).1) ∨
          List.Duplicate id (items.map fun item => (cut 61 (trimSpace item)).1)) := by
  induction items generalizing seen peers with
  | nil =>
      cases h
  | cons item items ih =>
      unfold parseItems at h
      cases hitem : readItem item with
      | none =>
          rw [hitem] at h
          cases h
          exact Or.inl ⟨item, List.mem_cons_self, hitem, rfl⟩
      | some peer =>
          rw [hitem] at h
          simp only at h
          rw [List.map_cons, (readItem_id hitem).1]
          by_cases hseen : peer.id ∈ seen
          · rw [if_pos hseen] at h
            cases h
            exact Or.inr ⟨peer.id, rfl, Or.inl ⟨hseen, List.mem_cons_self⟩⟩
          · rw [if_neg hseen] at h
            have hrest : ∃ peers, parseItems selfID items (peer.id :: seen) peers = .error e := by
              split_ifs at h
              · exact ⟨_, h⟩
              · exact ⟨_, h⟩
            obtain ⟨peers, hrest⟩ := hrest
            rcases ih hrest with ⟨bad, hmem, hbad⟩ | ⟨id, hid, ⟨hmem, hlater⟩ | htwice⟩
            · exact Or.inl ⟨bad, List.mem_cons_of_mem _ hmem, hbad⟩
            · refine Or.inr ⟨id, hid, ?_⟩
              rcases List.mem_cons.mp hmem with rfl | hmem
              · exact Or.inr (.cons_mem hlater)
              · exact Or.inl ⟨hmem, List.mem_cons_of_mem _ hlater⟩
            · exact Or.inr ⟨id, hid, Or.inr (.cons_duplicate htwice)⟩

theorem readItem_ne_none_of_mapM
    {item : Bytes} {members : List Peer}
    (h : items.mapM readItem = some members)
    (hitem : item ∈ items) :
    readItem item ≠ none := by
  induction items generalizing members with
  | nil =>
      cases hitem
  | cons first items ih =>
      obtain ⟨peer, rest, hpeer, hrest, -⟩ := mapM_readItem_cons.mp h
      rcases List.mem_cons.mp hitem with rfl | hitem
      · simp [hpeer]
      · exact ih hrest hitem

theorem parsePeers_refused
    {getenv : String → Bytes}
    (h : parsePeers (env getenv "RAFT_PEERS" []) selfID = .error e) :
    Refused getenv e := by
  unfold parsePeers at h
  split_ifs at h with hblank
  rcases parseItems_eq_error h with ⟨item, hmem, hbad, rfl⟩ | ⟨id, rfl, hseen | htwice⟩
  · exact .peerEntry hblank hmem hbad
  · exact absurd hseen.1 List.not_mem_nil
  · exact .duplicatePeer hblank htwice

end Items

/-- An environment that is refused is refused for a reason that it has. -/
theorem fromEnv_refused
    {getenv : String → Bytes} {e : ConfigError}
    (h : fromEnv getenv = .error e) :
    Refused getenv e := by
  unfold fromEnv at h
  obtain hfirst | ⟨electionMin, hmin, h⟩ := bind_eq_error_cases h
  · exact envDuration_refused hfirst (by decide)
  obtain hfirst | ⟨electionMax, hmax, h⟩ := bind_eq_error_cases h
  · exact envDuration_refused hfirst (by decide)
  obtain hfirst | ⟨heartbeatInterval, hheartbeat, h⟩ := bind_eq_error_cases h
  · exact envDuration_refused hfirst (by decide)
  obtain hfirst | ⟨snapshotThreshold, -, h⟩ := bind_eq_error_cases h
  · exact envUint_refused hfirst
  obtain hfirst | ⟨logLevel, -, h⟩ := bind_eq_error_cases h
  · exact envLogLevel_refused hfirst
  obtain hfirst | ⟨peers, -, h⟩ := bind_eq_error_cases h
  · exact parsePeers_refused hfirst
  split_ifs at h with hshort hinverted
  · cases h
    exact .electionMin hmin hheartbeat hshort
  · cases h
    exact .electionMax hmin hmax hinverted

theorem Accepted.readDuration
    {getenv : String → Bytes} {cfg : NodeConfig} {key : String}
    (h : Accepted getenv cfg)
    (hkey : key ∈ durationKeys) :
    ∃ fallback d, envDuration getenv key fallback = .ok d := by
  simp only [durationKeys, List.mem_cons, List.not_mem_nil, or_false] at hkey
  rcases hkey with rfl | rfl | rfl
  · exact ⟨_, _, h.readMin⟩
  · exact ⟨_, _, h.readMax⟩
  · exact ⟨_, _, h.readHeartbeat⟩

/-- An environment that is accepted gives no reason to refuse it. -/
theorem Accepted.not_refused
    {getenv : String → Bytes} {cfg : NodeConfig} {e : ConfigError}
    (h : Accepted getenv cfg) :
    ¬ Refused getenv e := by
  obtain ⟨members, hlists, -⟩ := parsePeers_eq_ok.mp h.readPeers
  intro hrefused
  cases hrefused with
  | duration hkey hset hbad =>
      obtain ⟨_, _, hread⟩ := h.readDuration hkey
      obtain ⟨milliseconds, hatoi, hpos⟩ := pos_of_envDuration_ok hread hset
      exact absurd (hbad milliseconds hatoi) (not_le.mpr hpos)
  | uint hset hbad =>
      have hread := h.readThreshold
      rw [envUint, if_neg hset, hbad] at hread
      cases hread
  | logLevel hset hbad =>
      have hread := h.readLevel
      rw [envLogLevel, if_neg hset, hbad] at hread
      cases hread
  | peerEntry hset hitem hbad =>
      exact readItem_ne_none_of_mapM (hlists.items hset) hitem hbad
  | duplicatePeer hset hid =>
      have hids : itemIDs (env getenv "RAFT_PEERS" []) = members.map Peer.id :=
        (map_id_of_mapM (hlists.items hset)).1.symm
      rw [hids] at hid
      exact hid.not_nodup hlists.nodup
  | electionMin hmin hheartbeat hle =>
      cases hmin.symm.trans h.readMin
      cases hheartbeat.symm.trans h.readHeartbeat
      exact absurd hle (not_le.mpr h.heartbeat_lt)
  | electionMax hmin hmax hlt =>
      cases hmin.symm.trans h.readMin
      cases hmax.symm.trans h.readMax
      exact absurd hlt (not_lt.mpr h.min_le)

/-- `config.FromEnv` accepts exactly the environments in which nothing is wrong. -/
theorem fromEnv_accepts_iff
    (getenv : String → Bytes) :
    (∃ cfg, fromEnv getenv = .ok cfg) ↔ ∀ e, ¬ Refused getenv e := by
  constructor
  · rintro ⟨cfg, hok⟩ e
    exact (fromEnv_ok hok).not_refused
  · intro hnone
    cases h : fromEnv getenv with
    | ok cfg =>
        exact ⟨cfg, rfl⟩
    | error e =>
        exact absurd (fromEnv_refused h) (hnone e)

end NodeConfig

end LogReplicator
