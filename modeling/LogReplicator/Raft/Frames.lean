import LogReplicator.Library.Watch
import LogReplicator.Raft.Follower

/-!
# What sections leave alone

Applying entries changes the store and `lastApplied`, and nothing else.  Storing,
committing and voting change neither the role of the node nor what it says about the
leader; only the sections that are made for it do.
-/

namespace LogReplicator

open Library Txn

/-- A part of the node that neither the store nor the applied position belongs to. -/
structure Node.Ignores {γ : Type} (f : Node → γ) : Prop where
  store : ∀ n s, f { n with store := s } = f n
  lastApplied : ∀ n k, f { n with lastApplied := k } = f n

theorem Node.ignores_role :
    Node.Ignores Node.role :=
  ⟨fun _ _ => rfl, fun _ _ => rfl⟩

theorem Node.ignores_commitIndex :
    Node.Ignores Node.commitIndex :=
  ⟨fun _ _ => rfl, fun _ _ => rfl⟩

section Apply

variable {γ : Type} {f : Node → γ}

theorem Node.Ignores.writeStore
    (h : Node.Ignores f) (g : Store → Store) :
    Keeps f (Node.writeStore g) :=
  keeps_write fun n => h.store n (g n.store)

theorem Node.Ignores.writeStoreIf
    (h : Node.Ignores f) (accepted : Bool) (g : Store → Store) :
    Keeps f (Node.writeStoreIf accepted g) :=
  keeps_writeIf accepted fun n => h.store n (g n.store)

variable (json : Json) (o : Options)

theorem Node.Ignores.compactIfNeededLocked
    (h : Node.Ignores f) :
    Keeps f (Node.compactIfNeededLocked json o) := by
  refine keeps_read.bind fun n => ?_
  split_ifs
  · exact keeps_pure _
  · exact keeps_pure _
  · cases n.store.term n.lastApplied with
    | none => exact keeps_pure _
    | some term => exact (h.writeStore _).bind fun _ => keeps_pure _

theorem Node.Ignores.skipCompactedLocked
    (h : Node.Ignores f) (index : Nat) :
    Keeps f (Node.skipCompactedLocked index) := by
  refine keeps_read.bind fun n => ?_
  split_ifs
  · exact keeps_pure _
  · refine (h.writeStore _).bind fun saved => ?_
    split_ifs
    · exact Keeps.update (fun n' => h.lastApplied n' _) (keeps_pure _)
    · exact keeps_pure _

theorem Node.Ignores.applyLoop
    (h : Node.Ignores f) (fuel : Nat) :
    Keeps f (Node.applyLoop json o fuel) := by
  induction fuel with
  | zero =>
      exact h.compactIfNeededLocked json o
  | succ fuel ih =>
      refine keeps_read.bind fun n => ?_
      split_ifs
      · cases n.store.entry (n.lastApplied + 1) with
        | none =>
            refine (h.skipCompactedLocked _).bind fun skipped => ?_
            split_ifs
            · exact ih
            · exact keeps_pure _
        | some entry =>
            dsimp only
            cases decodeCommand json entry.command with
            | error e => exact keeps_pure _
            | ok cmd =>
                refine (h.writeStore _).bind fun applied => ?_
                split_ifs
                · exact Keeps.update (fun n' => h.lastApplied n' _) ih
                · exact keeps_pure _
      · exact h.compactIfNeededLocked json o

theorem Node.Ignores.applyCommittedLocked
    (h : Node.Ignores f) :
    Keeps f (Node.applyCommittedLocked json o) :=
  keeps_read.bind fun _ => h.applyLoop json o _

end Apply

/-- A part of the node that storing, committing, voting and keeping track of the peers do
not touch. -/
structure Node.Standing {γ : Type} (f : Node → γ) : Prop extends Node.Ignores f where
  commitIndex : ∀ n k, f { n with commitIndex := k } = f n
  votedFor : ∀ n v, f { n with votedFor := v } = f n
  nextIndex : ∀ n g, f { n with nextIndex := g } = f n
  matchIndex : ∀ n g, f { n with matchIndex := g } = f n

theorem Node.standing_role :
    Node.Standing Node.role where
  toIgnores := Node.ignores_role
  commitIndex := fun _ _ => rfl
  votedFor := fun _ _ => rfl
  nextIndex := fun _ _ => rfl
  matchIndex := fun _ _ => rfl

theorem Node.keeps_role_adoptTerm
    (term : Nat) :
    Keeps Node.role (Node.adoptTerm term) := by
  refine keeps_read.bind fun n => ?_
  split_ifs
  · exact Keeps.update (fun _ => rfl)
      ((Node.ignores_role.writeStore _).bind fun _ => keeps_pure _)
  · exact keeps_pure _

namespace Node.Standing

variable {γ : Type} {f : Node → γ}

theorem voteLocked
    (h : Node.Standing f) (req : RequestVoteRequest) :
    Keeps f (Node.voteLocked req) := by
  refine keeps_read.bind fun n => ?_
  dsimp only
  split_ifs
  · exact keeps_pure _
  · refine Keeps.update (fun n' => h.votedFor n' _) ((h.writeStore _).bind fun saved => ?_)
    split_ifs <;> exact keeps_pure _

theorem recordPeerProgressLocked
    (h : Node.Standing f) (peerID : String) (matchIndex : Nat) (n : Node) :
    f (n.recordPeerProgressLocked peerID matchIndex) = f n := by
  unfold Node.recordPeerProgressLocked
  dsimp only
  split_ifs
  · exact (h.nextIndex _ _).trans (h.matchIndex n _)
  · exact h.nextIndex n _

variable (json : Json) (o : Options)

theorem advanceCommitLocked
    (h : Node.Standing f) :
    Keeps f (Node.advanceCommitLocked json o) := by
  refine keeps_read.bind fun n => ?_
  split_ifs
  · exact keeps_pure _
  · exact Keeps.update (fun n' => h.commitIndex n' _) (h.applyCommittedLocked json o)

theorem followLeaderCommitLocked
    (h : Node.Standing f) (leaderCommit : Nat) :
    Keeps f (Node.followLeaderCommitLocked json o leaderCommit) := by
  refine keeps_read.bind fun n => ?_
  split_ifs
  · exact keeps_pure _
  · exact Keeps.update (fun n' => h.commitIndex n' _) (h.applyCommittedLocked json o)

theorem collectMissing
    (h : Node.Standing f)
    (snapshotIndex : Nat) (entries : List Entry) (matchIndex : Nat) (missing : List Entry) :
    Keeps f (Node.collectMissing snapshotIndex entries matchIndex missing) := by
  induction entries generalizing matchIndex missing with
  | nil =>
      exact keeps_pure _
  | cons e entries ih =>
      unfold Node.collectMissing
      split_ifs
      · exact ih _ _
      · exact ih _ _
      · refine keeps_read.bind fun n => ?_
        cases n.store.term e.index with
        | none => exact ih _ _
        | some localTerm =>
            dsimp only
            split_ifs
            · exact ih _ _
            · refine (h.writeStore _).bind fun deleted => ?_
              split_ifs
              · exact ih _ _
              · exact keeps_pure _

theorem storeLeaderEntriesLocked
    (h : Node.Standing f)
    (entries : List Entry) (prevLogIndex snapshotIndex : Nat) :
    Keeps f (Node.storeLeaderEntriesLocked entries prevLogIndex snapshotIndex) := by
  refine (h.collectMissing _ _ _ _).bind fun collected => ?_
  cases collected with
  | none => exact keeps_pure _
  | some found =>
      have happend : Keeps f (Node.appendMissing found.2) := by
        unfold Node.appendMissing
        split_ifs
        · exact keeps_pure _
        · exact h.writeStoreIf _ _
      refine happend.bind fun appended => ?_
      split_ifs <;> exact keeps_pure _

theorem mergeLocked
    (h : Node.Standing f) (req : AppendEntriesRequest) :
    Keeps f (Node.mergeLocked json o req) := by
  refine keeps_read.bind fun n => ?_
  split_ifs
  · exact keeps_pure _
  · exact keeps_pure _
  · refine (h.storeLeaderEntriesLocked _ _ _).bind fun stored => ?_
    cases stored with
    | none => exact keeps_pure _
    | some matchIndex =>
        exact (h.followLeaderCommitLocked json o _).bind fun _ => keeps_pure _

theorem installLocked
    (h : Node.Standing f) (req : InstallSnapshotRequest) :
    Keeps f (Node.installLocked json req) := by
  refine keeps_read.bind fun n => ?_
  split_ifs
  · exact keeps_pure _
  · cases Store.decodeSnapshot json req.data with
    | none => exact keeps_pure _
    | some state =>
        refine (h.writeStoreIf _ _).bind fun installed => ?_
        split_ifs
        · refine Keeps.update (fun n' => ?_) (keeps_pure _)
          exact (h.lastApplied
            { n' with commitIndex := max n'.commitIndex req.lastIncludedIndex } _).trans
              (h.commitIndex n' _)
        · exact keeps_pure _

end Node.Standing

end LogReplicator
