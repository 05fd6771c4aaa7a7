import LogReplicator.Library.Consensus
import LogReplicator.Raft.Applying
import LogReplicator.Raft.Backoff
import LogReplicator.Raft.Batches
import LogReplicator.Raft.Counters
import LogReplicator.Raft.Durability
import LogReplicator.Raft.Identity
import LogReplicator.Raft.Installing
import LogReplicator.Raft.Matching
import LogReplicator.Raft.Retry
import LogReplicator.Raft.Verified
import LogReplicator.Raft.Payloads
import LogReplicator.Raft.Provenance
import LogReplicator.Raft.Terms
import LogReplicator.Raft.Transfer
import LogReplicator.Raft.Acknowledged
import LogReplicator.Raft.Reading
import LogReplicator.Raft.Linearizable
import LogReplicator.Raft.Alone
import LogReplicator.Raft.Campaigns
import LogReplicator.Raft.Exchanges
import LogReplicator.Raft.Metrics
import LogReplicator.Raft.Progress
import LogReplicator.Raft.Prompt
import LogReplicator.Raft.Wakeups
import LogReplicator.Storage.Statements
import LogReplicator.Config.Startup
import LogReplicator.Ctl.Compare
