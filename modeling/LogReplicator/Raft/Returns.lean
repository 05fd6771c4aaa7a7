import LogReplicator.Raft.Client

/-!
# Sections return

A section that is not interrupted by a crash comes to its end, whatever the fate of
its transactions.
-/

namespace LogReplicator

open Library

section Elections

theorem stepDownLocked_returns
    (term : Nat) (leaderID : String) :
    Txn.Returns (Node.stepDownLocked term leaderID) := by
  refine Txn.Returns.bind (Txn.returns_read.bind fun n => ?_) fun _ => Txn.returns_update _
  split_ifs
  · exact (Txn.returns_update _).bind fun _ =>
      (Txn.returns_write _).bind fun _ => Txn.returns_pure _
  · exact Txn.returns_pure _

theorem becomeCandidate_returns
    (o : Options) :
    Txn.Returns (Node.becomeCandidate o) := by
  refine Txn.returns_read.bind fun n => ?_
  split_ifs
  · exact Txn.returns_pure _
  · refine (Txn.returns_update _).bind fun _ => (Txn.returns_write _).bind fun saved => ?_
    split_ifs <;> exact Txn.returns_pure _

theorem becomeLeader_returns
    (o : Options) (term : Nat) :
    Txn.Returns (Node.becomeLeader o term) := by
  refine Txn.returns_read.bind fun n => ?_
  split_ifs
  · exact Txn.returns_pure _
  · exact (Txn.returns_update _).bind fun _ => Txn.returns_pure _

theorem voteLocked_returns
    (req : RequestVoteRequest) :
    Txn.Returns (Node.voteLocked req) := by
  refine Txn.returns_read.bind fun n => ?_
  simp only
  split_ifs
  · exact Txn.returns_pure _
  · refine (Txn.returns_update _).bind fun _ => (Txn.returns_write _).bind fun saved => ?_
    split_ifs <;> exact Txn.returns_pure _

theorem requestVote_returns
    (req : RequestVoteRequest) :
    Txn.Returns (Node.requestVote req) := by
  refine Txn.returns_read.bind fun n => ?_
  split_ifs
  · exact Txn.returns_pure _
  · exact (stepDownLocked_returns _ _).bind fun _ => voteLocked_returns req
  · exact voteLocked_returns req

theorem observeHigherTerm_returns
    (term : Nat) :
    Txn.Returns (Node.observeHigherTerm term) := by
  refine Txn.returns_read.bind fun n => ?_
  split_ifs
  · exact Txn.returns_pure _
  · exact (stepDownLocked_returns _ _).bind fun _ => Txn.returns_pure _

end Elections

section Replication

variable (json : Json) (o : Options)

theorem skipCompactedLocked_returns
    (index : Nat) :
    Txn.Returns (Node.skipCompactedLocked index) := by
  refine Txn.returns_read.bind fun n => ?_
  split_ifs
  · exact Txn.returns_pure _
  · refine (Txn.returns_write _).bind fun saved => ?_
    split_ifs
    · exact (Txn.returns_update _).bind fun _ => Txn.returns_pure _
    · exact Txn.returns_pure _

theorem compactIfNeededLocked_returns :
    Txn.Returns (Node.compactIfNeededLocked json o) := by
  refine Txn.returns_read.bind fun n => ?_
  split_ifs
  · exact Txn.returns_pure _
  · exact Txn.returns_pure _
  · split
    · exact Txn.returns_pure _
    · exact (Txn.returns_write _).bind fun _ => Txn.returns_pure _

theorem applyLoop_returns
    (fuel : Nat) :
    Txn.Returns (Node.applyLoop json o fuel) := by
  induction fuel with
  | zero =>
      exact compactIfNeededLocked_returns json o
  | succ fuel ih =>
      refine Txn.returns_read.bind fun n => ?_
      split_ifs
      · split
        · refine (skipCompactedLocked_returns _).bind fun skipped => ?_
          split_ifs
          · exact ih
          · exact Txn.returns_pure _
        · split
          · exact Txn.returns_pure _
          · refine (Txn.returns_write _).bind fun applied => ?_
            split_ifs
            · exact (Txn.returns_update _).bind fun _ => ih
            · exact Txn.returns_pure _
      · exact compactIfNeededLocked_returns json o

theorem applyCommittedLocked_returns :
    Txn.Returns (Node.applyCommittedLocked json o) :=
  Txn.returns_read.bind fun _ => applyLoop_returns json o _

theorem advanceCommitLocked_returns :
    Txn.Returns (Node.advanceCommitLocked json o) := by
  refine Txn.returns_read.bind fun n => ?_
  split_ifs
  · exact Txn.returns_pure _
  · exact (Txn.returns_update _).bind fun _ => applyCommittedLocked_returns json o

theorem appendReplied_returns
    (peerID : String) (term : Nat) (req : AppendEntriesRequest)
    (reply : AppendEntriesResponse) :
    Txn.Returns (Node.appendReplied json o peerID term req reply) := by
  refine Txn.returns_read.bind fun n => ?_
  split_ifs
  · exact Txn.returns_pure _
  · exact (Txn.returns_update _).bind fun _ => Txn.returns_pure _
  · exact (Txn.returns_update _).bind fun _ =>
      (advanceCommitLocked_returns json o).bind fun _ => Txn.returns_pure _

theorem snapshotReplied_returns
    (peerID : String) (term lastIncludedIndex : Nat) :
    Txn.Returns (Node.snapshotReplied json o peerID term lastIncludedIndex) := by
  refine Txn.returns_read.bind fun n => ?_
  split_ifs
  · exact Txn.returns_pure _
  · exact (Txn.returns_update _).bind fun _ =>
      (advanceCommitLocked_returns json o).bind fun _ => Txn.returns_pure _

theorem appendClientEntry_returns
    (payload : Bytes) :
    Txn.Returns (Node.appendClientEntry json o payload) := by
  refine Txn.returns_read.bind fun n => ?_
  split
  · exact Txn.returns_pure _
  · refine (Txn.returns_writeIf _ _).bind fun stored => ?_
    split_ifs
    · exact Txn.returns_pure _
    · exact (advanceCommitLocked_returns json o).bind fun _ => Txn.returns_pure _
    · exact Txn.returns_pure _

end Replication

section Follower

variable (json : Json) (o : Options)

theorem collectMissing_returns
    (snapshotIndex : Nat) (es : List Entry) :
    ∀ (matchIndex : Nat) (missing : List Entry),
      Txn.Returns (Node.collectMissing snapshotIndex es matchIndex missing) := by
  induction es with
  | nil =>
      exact fun _ _ => Txn.returns_pure _
  | cons e es ih =>
      intro matchIndex missing
      unfold Node.collectMissing
      split_ifs
      · exact ih _ _
      · exact ih _ _
      · refine Txn.returns_read.bind fun n => ?_
        split
        · exact ih _ _
        · split_ifs
          · exact ih _ _
          · refine (Txn.returns_write _).bind fun deleted => ?_
            split_ifs
            · exact ih _ _
            · exact Txn.returns_pure _

theorem appendMissing_returns
    (missing : List Entry) :
    Txn.Returns (Node.appendMissing missing) := by
  unfold Node.appendMissing
  split_ifs
  · exact Txn.returns_pure _
  · exact Txn.returns_writeIf _ _

theorem storeLeaderEntriesLocked_returns
    (es : List Entry) (prev snapshotIndex : Nat) :
    Txn.Returns (Node.storeLeaderEntriesLocked es prev snapshotIndex) := by
  refine (collectMissing_returns _ _ _ _).bind fun collected => ?_
  split
  · exact Txn.returns_pure _
  · refine (appendMissing_returns _).bind fun appended => ?_
    split_ifs <;> exact Txn.returns_pure _

theorem followLeaderCommitLocked_returns
    (leaderCommit : Nat) :
    Txn.Returns (Node.followLeaderCommitLocked json o leaderCommit) := by
  refine Txn.returns_read.bind fun n => ?_
  split_ifs
  · exact Txn.returns_pure _
  · exact (Txn.returns_update _).bind fun _ => applyCommittedLocked_returns json o

theorem acceptLeader_returns
    (term : Nat) (leaderId : String) :
    Txn.Returns (Node.acceptLeader term leaderId) := by
  refine Txn.returns_read.bind fun n => ?_
  split_ifs
  · exact (stepDownLocked_returns _ _).bind fun _ => Txn.returns_update _
  · exact Txn.returns_update _

theorem appendEntries_returns
    (req : AppendEntriesRequest) :
    Txn.Returns (Node.appendEntries json o req) := by
  refine Txn.returns_read.bind fun n => ?_
  split_ifs
  · exact Txn.returns_pure _
  · refine (acceptLeader_returns _ _).bind fun _ => Txn.returns_read.bind fun n => ?_
    split_ifs
    · exact Txn.returns_pure _
    · exact Txn.returns_pure _
    · refine (storeLeaderEntriesLocked_returns _ _ _).bind fun stored => ?_
      split
      · exact Txn.returns_pure _
      · exact (followLeaderCommitLocked_returns json o _).bind fun _ => Txn.returns_pure _

theorem installSnapshot_returns
    (req : InstallSnapshotRequest) :
    Txn.Returns (Node.installSnapshot json req) := by
  refine Txn.returns_read.bind fun n => ?_
  split_ifs
  · exact Txn.returns_pure _
  · refine (acceptLeader_returns _ _).bind fun _ => Txn.returns_read.bind fun n => ?_
    split_ifs
    · exact Txn.returns_pure _
    · split
      · exact Txn.returns_pure _
      · refine (Txn.returns_writeIf _ _).bind fun installed => ?_
        split_ifs
        · exact (Txn.returns_update _).bind fun _ => Txn.returns_pure _
        · exact Txn.returns_pure _

end Follower

end LogReplicator
