import LogReplicator.Raft.Batches
import LogReplicator.Raft.Merge
import LogReplicator.Raft.Transfer

/-!
# Backing off to the log of a follower

A leader and one follower, both in the term of the leader, exchange messages and
nothing gets lost.  `exchange` is one turn of the loop of `replicatePeer`.  While
the follower rejects, `nextIndexAfterRejection` moves the next index to the end of
the follower's log or one step below it, and never further down.  So the exchange
comes to an acceptance when at most the last entry of the follower is foreign, or
when the leader has to send a snapshot; it goes round in circles otherwise, and no
exchange is ever accepted.
-/

namespace LogReplicator

open Library Library.Consensus

/-- A leader and one of its peers. -/
structure Pair where
  leader : Node
  follower : Node

namespace Pair

/-- `sendSnapshot`, with the handler of the peer. -/
def sendSnapshot (json : Json) (o : Options) (peer : Options) (s : Pair) :
    AppendOutcome × Pair :=
  let req := s.leader.buildSnapshotRequest o
  match Node.installSnapshot json req [] s.follower with
  | (some ⟨_, some reply⟩, follower, _) =>
      match Node.observeHigherTerm reply.term [] s.leader with
      | (some false, leader, _) =>
          match Node.snapshotReplied json o peer.nodeID req.term req.lastIncludedIndex []
            leader with
          | (some true, leader, _) => (.accepted, ⟨leader, follower⟩)
          | (_, leader, _) => (.failed, ⟨leader, follower⟩)
      | (_, leader, _) => (.failed, ⟨leader, follower⟩)
  | (_, follower, _) => (.failed, ⟨s.leader, follower⟩)

/-- `sendEntries`, with the handler of the peer. -/
def sendEntries (json : Json) (o : Options) (peer : Options) (s : Pair) :
    AppendOutcome × Pair :=
  match s.leader.buildAppendRequestLocked o peer.nodeID with
  | (leader, none) => (.rejected, ⟨leader, s.follower⟩)
  | (leader, some req) =>
      match Node.appendEntries json peer req [] s.follower with
      | (some ⟨_, some reply⟩, follower, _) =>
          match Node.observeHigherTerm reply.term [] leader with
          | (some false, leader, _) =>
              match Node.appendReplied json o peer.nodeID req.term req reply [] leader with
              | (some outcome, leader, _) => (outcome, ⟨leader, follower⟩)
              | (none, leader, _) => (.failed, ⟨leader, follower⟩)
          | (_, leader, _) => (.failed, ⟨leader, follower⟩)
      | (_, follower, _) => (.failed, ⟨leader, follower⟩)

/-- One turn of the loop of `replicatePeer`, with every message delivered and every
transaction committed. -/
def exchange (json : Json) (o : Options) (peer : Options) (s : Pair) :
    AppendOutcome × Pair :=
  if s.leader.peerNeedsSnapshot peer.nodeID then s.sendSnapshot json o peer
  else s.sendEntries json o peer

/-- The pair after some turns. -/
def exchanges (json : Json) (o : Options) (peer : Options) (k : Nat) (s : Pair) : Pair :=
  (fun s => (s.exchange json o peer).2)^[k] s

end Pair

section Follower

variable {json : Json} {o : Options} {n : Node} {req : AppendEntriesRequest}

theorem acceptLeader_current
    {term : Nat} {leaderId : String}
    (hterm : n.currentTerm = term) :
    Node.acceptLeader term leaderId [] n =
      (some (), { n with role := .follower, leaderID := leaderId }, []) := by
  subst hterm
  have hrun : Node.acceptLeader n.currentTerm leaderId [] n =
      (if n.currentTerm < n.currentTerm ∨ n.role ≠ .follower then do
        Node.stepDownLocked n.currentTerm leaderId
        Txn.update fun n => { n with leaderID := leaderId }
      else Txn.update fun n => { n with leaderID := leaderId } : Txn Node Unit) [] n := rfl
  rw [hrun]
  by_cases hrole : n.role = .follower
  · rw [if_neg (by simp [hrole])]
    show (some (), { n with leaderID := leaderId }, []) = _
    rw [← hrole]
  · rw [if_pos (Or.inr hrole)]
    have hadopt : Node.adoptTerm n.currentTerm [] n = (some (), n, []) := by
      show (if n.currentTerm < n.currentTerm then _ else pure () : Txn Node Unit) [] n = _
      rw [if_neg (lt_irrefl _)]
      rfl
    have hdown : Node.stepDownLocked n.currentTerm leaderId [] n =
        (some (), { n with role := .follower, leaderID := leaderId }, []) :=
      Txn.run_bind hadopt
    exact Txn.run_bind hdown

theorem appendEntries_current
    (hterm : n.currentTerm = req.term) :
    Node.appendEntries json o req [] n =
      Node.mergeLocked json o req []
        { n with role := .follower, leaderID := req.leaderId } := by
  show (if req.term < n.currentTerm then _ else _ : Txn Node _) [] n = _
  rw [if_neg (by omega)]
  exact Txn.run_bind (acceptLeader_current hterm)

/-- The previous entry is not the leader's: the answer is the end of the log. -/
theorem appendEntries_mismatch
    (json : Json) (o : Options)
    (hterm : n.currentTerm = req.term)
    (hsnapshot : n.store.snapshotIndex ≤ req.prevLogIndex)
    (hprev : n.store.term req.prevLogIndex ≠ some req.prevLogTerm) :
    Node.appendEntries json o req [] n =
      (some ⟨.logMismatch, some ⟨req.term, false, n.store.lastIndex⟩⟩,
        { n with role := .follower, leaderID := req.leaderId }, []) := by
  rw [appendEntries_current hterm, ← hterm]
  show (if req.prevLogIndex < n.store.snapshotIndex then _
    else if n.store.term req.prevLogIndex ≠ some req.prevLogTerm then _ else _ :
      Txn Node _) [] _ = _
  rw [if_neg (not_lt.mpr hsnapshot), if_pos hprev]
  rfl

/-- Without storage errors the merge collects every entry; what it collects is part of the
request. -/
theorem collectMissing_stored
    (snapshotIndex : Nat) (es : List Entry) (matchIndex : Nat) (missing : List Entry)
    (n : Node)
    (hes : Store.storable es = true)
    (hmissing : Store.storable missing = true) :
    ∃ m missing' n', Node.collectMissing snapshotIndex es matchIndex missing [] n =
      (some (some (m, missing')), n', []) ∧ Store.storable missing' = true := by
  induction es generalizing matchIndex missing n with
  | nil =>
      exact ⟨_, _, n, rfl, hmissing⟩
  | cons e es ih =>
      have hboth : Store.storable [e] = true ∧ Store.storable es = true :=
        (Store.storable_append [e] es).1 hes
      have happend : Store.storable (missing ++ [e]) = true :=
        (Store.storable_append ..).2 ⟨hmissing, hboth.1⟩
      unfold Node.collectMissing
      split_ifs with hold hne
      · exact ih _ _ n hboth.2 hmissing
      · exact ih _ _ n hboth.2 happend
      · rw [Txn.run_bind (rfl : Txn.read [] n = (some n, n, []))]
        cases n.store.term e.index with
        | none => exact ih _ _ n hboth.2 hboth.1
        | some localTerm =>
            simp only
            split_ifs
            · exact ih _ _ n hboth.2 rfl
            · exact ih _ _ _ hboth.2 hboth.1

theorem storeLeaderEntriesLocked_stored
    (es : List Entry) (prevLogIndex snapshotIndex : Nat) (n : Node)
    (hes : Store.storable es = true) :
    ∃ m n', Node.storeLeaderEntriesLocked es prevLogIndex snapshotIndex [] n =
      (some (some m), n', []) := by
  obtain ⟨m, missing, n₁, hr, haccepted⟩ :=
    collectMissing_stored snapshotIndex es prevLogIndex [] n hes rfl
  unfold Node.storeLeaderEntriesLocked
  rw [Txn.run_bind hr]
  simp only [Node.appendMissing, Node.writeStoreIf, haccepted]
  split_ifs
  · exact ⟨m, _, rfl⟩
  · exact ⟨m, _, rfl⟩

/-- The previous entry is the leader's: the handler succeeds. -/
theorem appendEntries_match
    (json : Json) (o : Options)
    (hterm : n.currentTerm = req.term)
    (hsnapshot : n.store.snapshotIndex ≤ req.prevLogIndex)
    (hprev : n.store.term req.prevLogIndex = some req.prevLogTerm)
    (haccepted : Store.storable req.entries = true) :
    ∃ r n' os', Node.appendEntries json o req [] n = (some ⟨.success, some r⟩, n', os') ∧
      r.success = true := by
  rw [appendEntries_current hterm]
  show ∃ r n' os', (if req.prevLogIndex < n.store.snapshotIndex then _
    else if n.store.term req.prevLogIndex ≠ some req.prevLogTerm then _ else _ :
      Txn Node _) [] _ = _ ∧ _
  rw [if_neg (not_lt.mpr hsnapshot), if_neg (not_not.mpr hprev)]
  obtain ⟨m, n₁, hr⟩ := storeLeaderEntriesLocked_stored req.entries req.prevLogIndex
    n.store.snapshotIndex { n with role := .follower, leaderID := req.leaderId } haccepted
  obtain ⟨_, n₂, os₂, hr', -⟩ :=
    followLeaderCommitLocked_returns json o req.leaderCommit [] n₁ (by simp)
  exact ⟨_, n₂, os₂, (Txn.run_bind hr).trans (Txn.run_bind hr'), rfl⟩

/-- A snapshot that is news replaces the beginning of the log. -/
theorem installSnapshot_new
    (snapshot : InstallSnapshotRequest) {state : Table String String}
    (hterm : n.currentTerm = snapshot.term)
    (hnew : n.store.snapshotIndex < snapshot.lastIncludedIndex)
    (hstate : Store.decodeSnapshot json snapshot.data = some state)
    (hdata : snapshot.data ≠ []) :
    ∃ n', Node.installSnapshot json snapshot [] n =
        (some ⟨.success, some ⟨snapshot.term⟩⟩, n', []) ∧
      n'.currentTerm = snapshot.term ∧
      n'.store = n.store.installSnapshot
        ⟨snapshot.lastIncludedIndex, snapshot.lastIncludedTerm, snapshot.data⟩ state := by
  have hrun : Node.installSnapshot json snapshot [] n =
      Node.installLocked json snapshot []
        { n with role := .follower, leaderID := snapshot.leaderId } := by
    show (if snapshot.term < n.currentTerm then _ else _ : Txn Node _) [] n = _
    rw [if_neg (by omega)]
    exact Txn.run_bind (acceptLeader_current hterm)
  rw [hrun]
  show ∃ n', (if snapshot.lastIncludedIndex ≤ n.store.snapshotIndex then _ else _ :
    Txn Node _) [] _ = _ ∧ _
  have haccepted : Store.storableData snapshot.data = true := decide_eq_true hdata
  rw [if_neg (not_le.mpr hnew), hstate, ← hterm]
  simp only [Node.writeStoreIf, haccepted]
  exact ⟨_, rfl, rfl, rfl⟩

end Follower

section Leader

variable {json : Json} {o : Options} {l : List Entry} {n n' : Node} {p : String}

/-- A compacted store has the snapshot that replaces what is gone. -/
def Store.Shippable (json : Json) (s : Store) : Prop :=
  0 < s.snapshotIndex →
    ∃ snap state, s.snapshot = some snap ∧ decodeSnapshot json snap.data = some state ∧
      snap.data ≠ []

/-- The leader of the log `l`, whose commands the schema accepts and whose positions have 64
bits. -/
structure Node.Replicates (json : Json) (l : List Entry) (term : Nat) (n : Node) :
    Prop where
  role : n.role = .leader
  term : n.currentTerm = term
  log : n.store.Stores l
  shippable : n.store.Shippable json
  accepted : Store.storable l = true
  fits : l.length + 1 < maxIndexes

/-- A leader that keeps its role, its term and its log. -/
theorem Node.Replicates.congr
    {term : Nat}
    (h : n.Replicates json l term)
    (hrole : n'.role = n.role)
    (hterm : n'.currentTerm = n.currentTerm)
    (hlog : n'.store.Stores l)
    (hshippable : n'.store.Shippable json) :
    n'.Replicates json l term :=
  ⟨hrole.trans h.role, hterm.trans h.term, hlog, hshippable, h.accepted, h.fits⟩

theorem Node.Replicates.observeHigherTerm
    {term : Nat}
    (h : n.Replicates json l term) :
    Node.observeHigherTerm term [] n = (some false, n, []) := by
  show (if term ≤ n.currentTerm then _ else _ : Txn Node Bool) [] n = _
  rw [if_pos h.term.ge]
  rfl

/-- The moves of a commit keep the leader and what it knows about its peers. -/
theorem Node.Replicates.move
    {term : Nat} {a : Label}
    (h : n.Replicates json l term)
    (hmove : Move (Solo.env json o) a n n')
    (ha : a.Applies ∨ a = (Solo.env json o).advanceLabel n) :
    n'.Replicates json l term ∧ n'.nextIndex = n.nextIndex ∧
      n'.matchIndex = n.matchIndex := by
  have hkeeps : a.KeepsLog := by
    rcases ha with ha | rfl
    · cases a <;> simp_all [Label.Applies, Label.KeepsLog]
    · trivial
  have hlog := hmove.stores hkeeps h.log
  cases hmove with
  | advance _ _ => exact ⟨h.congr rfl rfl hlog h.shippable, rfl, rfl⟩
  | apply _ _ _ _ =>
      refine ⟨h.congr rfl rfl hlog ?_, rfl, rfl⟩
      rw [Command.applyTo_eq]
      exact h.shippable
  | skip _ _ _ _ => exact ⟨h.congr rfl rfl hlog h.shippable, rfl, rfl⟩
  | compact _ _ _ =>
      exact ⟨h.congr rfl rfl hlog fun _ =>
        ⟨_, _, rfl, Store.decodeSnapshot_marshal json _, json.marshal_ne_nil _⟩, rfl, rfl⟩
  | _ => exact (ha.elim id fun h => by cases h).elim

/-- Recording the progress of a peer and committing what follows from it. -/
theorem Node.Replicates.records
    {term m : Nat} {ls : List Label}
    (h : n.Replicates json l term)
    (hpath : Path (Move (Solo.env json o)) ls n n')
    (hls : (Solo.env json o).Records n p m ls) :
    n'.Replicates json l term ∧
      n'.nextIndex p = (max (n.matchIndex p) m + 1) % maxIndexes ∧
      n'.matchIndex p = max (n.matchIndex p) m := by
  obtain ⟨ls', rfl, hcommits⟩ := hls
  cases hpath with
  | @cons _ _ _ n₁ _ hprogress hrest =>
      obtain rfl : n₁ = Node.recordPeerProgressLocked p m n := by
        generalize n.currentTerm = t at hprogress
        cases hprogress
        rfl
      have hstart : (Node.recordPeerProgressLocked p m n).Replicates json l term ∧
          (Node.recordPeerProgressLocked p m n).nextIndex p =
            (max (n.matchIndex p) m + 1) % maxIndexes ∧
          (Node.recordPeerProgressLocked p m n).matchIndex p = max (n.matchIndex p) m := by
        unfold Node.recordPeerProgressLocked
        split_ifs with hlt
        · exact ⟨h.congr rfl rfl h.log h.shippable,
            by simp [Node.setNextIndex, Node.setMatchIndex, max_eq_right hlt.le],
            by simp [Node.setNextIndex, Node.setMatchIndex, max_eq_right hlt.le]⟩
        · exact ⟨h.congr rfl rfl h.log h.shippable,
            by simp [Node.setNextIndex, max_eq_left (not_lt.mp hlt)],
            by simp [Node.setNextIndex, max_eq_left (not_lt.mp hlt)]⟩
      -- the rest of the path raises the commit index once, then applies
      have happlies : ∀ {ls : List Label} {m₁ m₂ : Node},
          Path (Move (Solo.env json o)) ls m₁ m₂ → (∀ a ∈ ls, a.Applies) →
          m₁.Replicates json l term →
          m₂.Replicates json l term ∧ m₂.nextIndex = m₁.nextIndex ∧
            m₂.matchIndex = m₁.matchIndex := by
        intro ls m₁ m₂ hpath hls hm₁
        refine hpath.invariant
          (P := fun m => m.Replicates json l term ∧ m.nextIndex = m₁.nextIndex ∧
            m.matchIndex = m₁.matchIndex) ⟨hm₁, rfl, rfl⟩ ?_
        rintro a ha m m' hmove ⟨hm, hnext, hmatch⟩
        obtain ⟨hm', hnext', hmatch'⟩ := hm.move hmove (Or.inl (hls a ha))
        exact ⟨hm', hnext'.trans hnext, hmatch'.trans hmatch⟩
      obtain ⟨hrep, hnext, hmatch⟩ := hstart
      rcases hcommits with ⟨-, rfl⟩ | ⟨-, ls'', rfl, hls''⟩
      · rw [hrest.eq_of_nil]
        exact ⟨hrep, hnext, hmatch⟩
      · cases hrest with
        | cons hadvance hrest =>
            obtain ⟨hrep₁, hnext₁, hmatch₁⟩ := hrep.move hadvance (Or.inr rfl)
            obtain ⟨hrep₂, hnext₂, hmatch₂⟩ := happlies hrest hls'' hrep₁
            exact ⟨hrep₂, by rw [hnext₂, hnext₁, hnext], by rw [hmatch₂, hmatch₁, hmatch]⟩

/-- A success is recorded. -/
theorem Node.Replicates.appendReplied
    {term m : Nat} {req : AppendEntriesRequest} {reply : AppendEntriesResponse}
    (h : n.Replicates json l term)
    (hsuccess : reply.success = true)
    (hm : max reply.matchIndex (lastEntryIndex req) = m) :
    ∃ n' os', Node.appendReplied json o p term req reply [] n = (some .accepted, n', os') ∧
      n'.Replicates json l term ∧
      n'.nextIndex p = (max (n.matchIndex p) m + 1) % maxIndexes ∧
      n'.matchIndex p = max (n.matchIndex p) m := by
  obtain ⟨outcome, n', os', hr, -⟩ :=
    appendReplied_returns json o p term req reply [] n (by simp)
  obtain ⟨ls, hpath, hls⟩ :=
    Txn.wp_some (appendReplied_spec : (Solo.env json o).Spec _ _ _ n) (fun _ => trivial) hr
  rcases hls with ⟨-, hmoved, -⟩ | ⟨-, -, ⟨-, hfail, -⟩ | ⟨rfl, -, hrecords, -⟩⟩
  · exact absurd hmoved (by simp [h.role, h.term])
  · rw [hsuccess] at hfail
    cases hfail
  · exact ⟨n', os', hr, h.records hpath (hm ▸ hrecords)⟩

theorem Node.Replicates.snapshotReplied
    {term m : Nat}
    (h : n.Replicates json l term) :
    ∃ n' os', Node.snapshotReplied json o p term m [] n = (some true, n', os') ∧
      n'.Replicates json l term ∧
      n'.nextIndex p = (max (n.matchIndex p) m + 1) % maxIndexes ∧
      n'.matchIndex p = max (n.matchIndex p) m := by
  obtain ⟨inSync, n', os', hr, -⟩ := snapshotReplied_returns json o p term m [] n (by simp)
  obtain ⟨ls, hpath, hls⟩ :=
    Txn.wp_some (snapshotReplied_spec : (Solo.env json o).Spec _ _ _ n) (fun _ => trivial) hr
  rcases hls with ⟨-, hmoved, -⟩ | ⟨rfl, -, -, hrecords, -⟩
  · exact absurd hmoved (by simp [h.role, h.term])
  · exact ⟨n', os', hr, h.records hpath hrecords⟩

/-- A rejection moves the next index. -/
theorem Node.Replicates.appendRejected
    {term : Nat} {req : AppendEntriesRequest} {reply : AppendEntriesResponse}
    (h : n.Replicates json l term)
    (hfail : reply.success = false) :
    Node.appendReplied json o p term req reply [] n =
      (some .rejected, n.setNextIndex p
        (nextIndexAfterRejection (n.nextIndexLocked p) reply.matchIndex), []) := by
  show (if n.role ≠ .leader ∨ n.currentTerm ≠ term then _
    else if reply.success = false then _ else _ : Txn Node AppendOutcome) [] n = _
  rw [if_neg (by simp [h.role, h.term]), if_pos hfail]
  rfl

end Leader

section Exchange

variable {json : Json} {o peer : Options} {l f : List Entry} {term x : Nat} {s : Pair}

/-- The leader has the log `l`, the follower the log `f`, and the leader does not
take the follower for longer than it is.  Positions have 64 bits. -/
structure Pair.Aligned (json : Json) (l f : List Entry) (term : Nat) (p : String)
    (s : Pair) : Prop where
  leader : s.leader.Replicates json l term
  follower : s.follower.store.Stores f
  current : s.follower.currentTerm = term
  known : s.leader.matchIndex p ≤ f.length
  bounded : f.length + 1 < maxIndexes

/-- The follower has the first `a` entries of the leader, and the leader goes on
from there. -/
structure Pair.Synced (json : Json) (l : List Entry) (term : Nat) (p : String) (a : Nat)
    (s : Pair) : Prop
    extends s.Aligned json l (l.take a) term p where
  le : a ≤ l.length
  next : s.leader.nextIndex p = a + 1

/-- The follower has the whole log of the leader. -/
def Pair.Caught (l : List Entry) (s : Pair) : Prop :=
  ∃ f, s.follower.store.Stores f ∧ l <+: f

/-- The request the leader builds above its snapshot. -/
theorem Node.Replicates.build
    {n : Node} {p : String}
    (h : n.Replicates json l term)
    (hx : n.nextIndexLocked p = x)
    (habove : n.store.snapshotIndex < x)
    (hle : x - 1 ≤ l.length) :
    ∃ req, n.buildAppendRequestLocked o p = (n, some req) ∧ req.term = term ∧
      req.leaderId = o.nodeID ∧ req.prevLogIndex = x - 1 ∧
      req.prevLogTerm = termAt Entry.term l (x - 1) ∧ req.Carries l ∧
      req.entries.length = min appendBatchSize (l.length - (x - 1)) := by
  subst hx
  have hterm := h.log.term_eq (Nat.le_sub_one_of_lt habove) hle
  have hbuild := Node.buildAppendRequestLocked_of_term (o := o) hterm
  refine ⟨_, hbuild, h.term, rfl, rfl, rfl, Node.carries_of_build h.log habove hbuild, ?_⟩
  have hindexes := congrArg List.length
    (Cluster.appendRequest_indexes o (termAt Entry.term l (n.nextIndexLocked p - 1))
      h.log.ordered habove)
  rw [List.length_map, List.length_range', h.log.length] at hindexes
  exact hindexes

theorem exchange_eq_sendEntries
    (hx : s.leader.nextIndexLocked peer.nodeID = x)
    (habove : s.leader.store.snapshotIndex < x) :
    s.exchange json o peer = s.sendEntries json o peer := by
  unfold Pair.exchange Node.peerNeedsSnapshot
  rw [hx, if_neg (by simpa using habove)]

/-- The follower lacks the previous entry or has another one. -/
theorem Pair.Aligned.exchange_rejected
    (h : s.Aligned json l f term peer.nodeID)
    (hx : s.leader.nextIndexLocked peer.nodeID = x)
    (habove : s.leader.store.snapshotIndex < x)
    (hle : x - 1 ≤ l.length)
    (hsnapshot : s.follower.store.snapshotIndex ≤ x - 1)
    (hne : x - 1 ≤ f.length →
      termAt Entry.term f (x - 1) ≠ termAt Entry.term l (x - 1)) :
    s.exchange json o peer =
      (.rejected,
        ⟨s.leader.setNextIndex peer.nodeID (nextIndexAfterRejection x f.length),
          { s.follower with role := .follower, leaderID := o.nodeID }⟩) := by
  obtain ⟨req, hbuild, hterm, hid, hprev, hprevTerm, -⟩ :=
    h.leader.build (o := o) hx habove hle
  have hforeign : s.follower.store.term req.prevLogIndex ≠ some req.prevLogTerm := by
    intro hknown
    rw [hprev, hprevTerm] at hknown
    obtain ⟨hlen, hat⟩ := h.follower.of_term hknown
    exact hne hlen hat
  have hrun := appendEntries_mismatch json peer (h.current.trans hterm.symm)
    (hprev ▸ hsnapshot) hforeign
  have hreplied : Node.appendReplied json o peer.nodeID term req ⟨term, false, f.length⟩ []
      s.leader = (some .rejected, s.leader.setNextIndex peer.nodeID
        (nextIndexAfterRejection (s.leader.nextIndexLocked peer.nodeID) f.length), []) :=
    h.leader.appendRejected rfl
  rw [hx] at hreplied
  rw [exchange_eq_sendEntries hx habove]
  unfold Pair.sendEntries
  rw [hterm, hid, h.follower.length] at hrun
  simp only [hbuild, hrun, h.leader.observeHigherTerm, hterm, hreplied]

/-- The follower has the previous entry. -/
theorem Pair.Aligned.exchange_accepted
    (h : s.Aligned json l f term peer.nodeID)
    (hl : Indexed l)
    (hmatching : Matching Entry.term f l)
    (hx : s.leader.nextIndexLocked peer.nodeID = x)
    (habove : s.leader.store.snapshotIndex < x)
    (hle : x - 1 ≤ l.length)
    (hsnapshot : s.follower.store.snapshotIndex ≤ x - 1)
    (hlen : x - 1 ≤ f.length)
    (heq : termAt Entry.term f (x - 1) = termAt Entry.term l (x - 1)) :
    ∃ s' f' m, s.exchange json o peer = (.accepted, s') ∧
      m = x - 1 + min appendBatchSize (l.length - (x - 1)) ∧
      s'.leader.Replicates json l term ∧ s'.follower.store.Stores f' ∧
      s'.follower.currentTerm = term ∧ l.take m <+: f' ∧
      (f' = f ∨ (f' <+: l ∧ f'.length ≤ m)) ∧
      s'.leader.nextIndex peer.nodeID =
        (max (s.leader.matchIndex peer.nodeID) m + 1) % maxIndexes ∧
      s'.leader.matchIndex peer.nodeID = max (s.leader.matchIndex peer.nodeID) m := by
  obtain ⟨req, hbuild, hterm, -, hprev, hprevTerm, hcarries, hlength⟩ :=
    h.leader.build (o := o) hx habove hle
  have hcurrent : s.follower.currentTerm = req.term := h.current.trans hterm.symm
  have hknown : s.follower.store.term req.prevLogIndex = some req.prevLogTerm := by
    rw [hprev, hprevTerm, ← heq]
    exact h.follower.term_eq hsnapshot hlen
  have haccepted : Store.storable req.entries = true := by
    have hall := h.leader.accepted
    rw [Store.storable, List.all_eq_true] at hall ⊢
    exact fun e he => hall e (List.mem_of_mem_drop (hcarries.entries.subset he))
  obtain ⟨r, n', os', hrun, hsuccess⟩ :=
    appendEntries_match json peer hcurrent (hprev ▸ hsnapshot) hknown haccepted
  obtain ⟨ls, hpath, happended⟩ :=
    Txn.wp_some (appendEntries_spec : (Solo.env json peer).Spec _ _ _ s.follower)
      (fun _ => trivial) hrun
  obtain ⟨f', hf', -, hshapes, haccepted⟩ :=
    Path.merges hpath happended.labels hcarries hl h.follower hmatching
  obtain ⟨hrterm, -, haccept⟩ := happended.success r rfl hsuccess
  obtain ⟨hm, hheld⟩ := haccepted _ haccept
  have hlast := lastEntryIndex_of_numbered (hcarries.numbered hl)
  have hmax : max r.matchIndex (lastEntryIndex req) = r.matchIndex := by omega
  obtain ⟨leader', os'', hreplied, hrep, hnext, hmatch⟩ :=
    h.leader.appendReplied (o := o) (p := peer.nodeID) hsuccess hmax
  have hobserve : Node.observeHigherTerm r.term [] s.leader = (some false, s.leader, []) := by
    rw [hrterm, hterm]
    exact h.leader.observeHigherTerm
  refine ⟨⟨leader', n'⟩, f', r.matchIndex, ?_, by rw [hm, hprev, hlength], hrep, hf', ?_,
    hheld, hm ▸ hshapes, hnext, hmatch⟩
  · rw [exchange_eq_sendEntries hx habove]
    unfold Pair.sendEntries
    simp only [hbuild, hrun, hobserve, hterm, hreplied]
  · exact (happended.term r rfl).1.symm.trans (hrterm.trans hterm)

/-- The follower gets the snapshot of the leader and ends where it ends. -/
theorem Pair.Aligned.exchange_snapshot
    (h : s.Aligned json l f term peer.nodeID)
    (hx : s.leader.nextIndexLocked peer.nodeID = x)
    (hcompacted : x ≤ s.leader.store.snapshotIndex)
    (hsnapshot : s.follower.store.snapshotIndex < x)
    (hlen : f.length ≤ x) :
    ∃ s', s.exchange json o peer = (.accepted, s') ∧
      s'.Synced json l term peer.nodeID s.leader.store.snapshotIndex := by
  obtain ⟨snap, state, hsnap, hstate, hdata⟩ := h.leader.shippable (by omega)
  obtain ⟨hindex, hat⟩ := h.leader.log.ordered.snapshot snap hsnap
  have hle := h.leader.log.snapshotIndex_le
  have hreq : s.leader.buildSnapshotRequest o =
      ⟨term, o.nodeID, s.leader.store.snapshotIndex, s.leader.store.snapshotTerm, snap.data⟩ := by
    unfold Node.buildSnapshotRequest Store.loadSnapshot
    simp only [hsnap, Option.getD_some, hindex, hat, h.leader.term]
  obtain ⟨n', hrun, hterm', hstore⟩ :=
    installSnapshot_new
      ⟨term, o.nodeID, s.leader.store.snapshotIndex, s.leader.store.snapshotTerm, snap.data⟩
      h.current (hsnapshot.trans_le hcompacted) hstate hdata
  obtain ⟨leader', os', hreplied, hrep, hnext, hmatch⟩ :=
    h.leader.snapshotReplied (o := o) (p := peer.nodeID)
      (m := s.leader.store.snapshotIndex)
  have hmax : max (s.leader.matchIndex peer.nodeID) s.leader.store.snapshotIndex =
      s.leader.store.snapshotIndex := max_eq_right (by have := h.known; omega)
  have hlog : n'.store.Stores (l.take s.leader.store.snapshotIndex) := by
    rw [hstore]
    refine h.follower.installSnapshot (hsnapshot.trans_le hcompacted) ?_ ?_ fun i hi => ?_
    · rw [h.leader.log.snapshotTerm]
      exact (termAt_mono (List.take_prefix _ _) (by simp [hle])).symm
    · simp [hle]
    · simp only at hi
      rw [List.getElem?_eq_none (by simp; omega), List.getElem?_eq_none (by omega)]
  have hfits := h.leader.fits
  have hlength : (l.take s.leader.store.snapshotIndex).length =
      s.leader.store.snapshotIndex := by
    rw [List.length_take, min_eq_left hle]
  refine ⟨⟨leader', n'⟩, ?_, ⟨⟨hrep, hlog, hterm', ?_, by omega⟩, hle, ?_⟩⟩
  · unfold Pair.exchange Node.peerNeedsSnapshot
    rw [hx, if_pos (by simpa using hcompacted)]
    unfold Pair.sendSnapshot
    simp only [hreq, hrun, h.leader.observeHigherTerm, hreplied]
  · rw [hmatch, hmax, hlength]
  · rw [hnext, hmax, Nat.mod_eq_of_lt (by omega)]

end Exchange

section Convergence

variable {json : Json} {o peer : Options} {l f : List Entry} {term x a : Nat} {s s' : Pair}

/-- A position of the follower that fits brings a batch of entries or the snapshot,
and the follower ends with a piece of the leader's log. -/
theorem Pair.Aligned.exchange_syncs
    (h : s.Aligned json l f term peer.nodeID)
    (hl : Indexed l)
    (hmatching : Matching Entry.term f l)
    (hx : s.leader.nextIndexLocked peer.nodeID = x)
    (hle : x ≤ l.length)
    (hsnapshot : s.follower.store.snapshotIndex < x)
    (hlen : f.length ≤ x)
    (hfits : x ≤ s.leader.store.snapshotIndex ∨
      (x - 1 ≤ f.length ∧
        termAt Entry.term f (x - 1) = termAt Entry.term l (x - 1))) :
    ∃ s' a, s.exchange json o peer = (.accepted, s') ∧ x ≤ a ∧
      s'.Synced json l term peer.nodeID a := by
  by_cases hcompacted : x ≤ s.leader.store.snapshotIndex
  · obtain ⟨s', hrun, hsynced⟩ := h.exchange_snapshot (o := o) hx hcompacted hsnapshot hlen
    exact ⟨s', _, hrun, hcompacted, hsynced⟩
  obtain ⟨hprev, heq⟩ := hfits.resolve_left hcompacted
  obtain ⟨s', f', m, hrun, hm, hrep, hf', hcurrent, hheld, hshape, hnext, hmatch⟩ :=
    h.exchange_accepted (o := o) hl hmatching hx (not_le.mp hcompacted) (by omega) (by omega)
      hprev heq
  have hbatch : 0 < appendBatchSize := by decide
  have hxm : x ≤ m := by omega
  have hml : m ≤ l.length := by omega
  -- the follower has everything up to `m`, and nothing beyond
  have hend : f'.length ≤ m := by
    rcases hshape with rfl | ⟨-, hshort⟩
    · omega
    · exact hshort
  have htake : f' = l.take m := by
    refine (hheld.eq_of_length_le ?_).symm
    rw [List.length_take, min_eq_left hml]
    exact hend
  have hmax : max (s.leader.matchIndex peer.nodeID) m = m :=
    max_eq_right (h.known.trans (hlen.trans hxm))
  have hfits := h.leader.fits
  have hlength : (l.take m).length = m := by rw [List.length_take, min_eq_left hml]
  refine ⟨s', m, hrun, hxm, ⟨⟨hrep, htake ▸ hf', hcurrent, ?_, by omega⟩, hml, ?_⟩⟩
  · rw [hmatch, hmax, hlength]
  · rw [hnext, hmax, Nat.mod_eq_of_lt (by omega)]

/-- The follower has the last entry of the leader. -/
theorem Pair.Aligned.exchange_caught
    (h : s.Aligned json l f term peer.nodeID)
    (hl : Indexed l)
    (hmatching : Matching Entry.term f l)
    (hx : s.leader.nextIndexLocked peer.nodeID = l.length + 1)
    (hsnapshot : s.follower.store.snapshotIndex ≤ l.length)
    (hlen : l.length ≤ f.length)
    (heq : termAt Entry.term f l.length = termAt Entry.term l l.length) :
    ∃ s', s.exchange json o peer = (.accepted, s') ∧ s'.Caught l := by
  have habove := h.leader.log.snapshotIndex_le
  obtain ⟨s', f', m, hrun, hm, -, hf', -, hheld, -⟩ :=
    h.exchange_accepted (o := o) hl hmatching hx (by omega) (by simp) (by simpa using hsnapshot)
      (by simpa using hlen) (by simpa using heq)
  refine ⟨s', hrun, f', hf', ?_⟩
  rwa [List.take_of_length_le (by omega)] at hheld

/-- From a piece of the leader's log to all of it. -/
theorem Pair.Synced.caught
    (hl : Indexed l)
    (h : s.Synced json l term peer.nodeID a) :
    ∃ k, (s.exchanges json o peer k).Caught l := by
  refine exists_iterate (P := fun s => ∃ a, s.Synced json l term peer.nodeID a)
    (fun s => l.length + 1 - s.leader.nextIndex peer.nodeID) ?_ ⟨a, h⟩
  rintro s ⟨a, h⟩
  rcases h.le.eq_or_lt with rfl | hlt
  · exact Or.inl ⟨_, h.follower, by rw [List.take_length]⟩
  have hlength : (l.take a).length = a := by rw [List.length_take, min_eq_left h.le]
  have hx : s.leader.nextIndexLocked peer.nodeID = a + 1 := by
    unfold Node.nextIndexLocked
    rw [h.next]
    omega
  have hsnapshot := h.follower.snapshotIndex_le
  obtain ⟨s', a', hrun, hle, h'⟩ :=
    h.exchange_syncs (o := o) hl (matching_of_le (List.take_prefix _ _)) hx hlt (by omega)
      (by omega) (Or.inr ⟨by omega, termAt_mono (List.take_prefix _ _) (by simp [hlength])⟩)
  refine Or.inr ⟨⟨a', by rwa [hrun]⟩, ?_⟩
  rw [hrun, h'.next, h.next]
  have := h'.le
  omega

/-- Some exchange is accepted, and the follower catches up later. -/
def Pair.Converges (json : Json) (o peer : Options) (l : List Entry) (s : Pair) : Prop :=
  ∃ k k', ((s.exchanges json o peer k).exchange json o peer).1 = .accepted ∧
    (s.exchanges json o peer (k + 1 + k')).Caught l

theorem exchanges_succ
    (k : Nat) :
    s.exchanges json o peer (k + 1) =
      (s.exchange json o peer).2.exchanges json o peer k :=
  rfl

theorem converges_of_synced
    (hl : Indexed l)
    (hrun : s.exchange json o peer = (.accepted, s'))
    (h : s'.Synced json l term peer.nodeID a) :
    s.Converges json o peer l := by
  obtain ⟨k', hk'⟩ := h.caught (o := o) hl
  refine ⟨0, k', congrArg Prod.fst hrun, ?_⟩
  rw [Nat.zero_add, Nat.add_comm, exchanges_succ, hrun]
  exact hk'

theorem converges_of_rejected
    {outcome : AppendOutcome}
    (hrun : s.exchange json o peer = (outcome, s'))
    (h : s'.Converges json o peer l) :
    s.Converges json o peer l := by
  obtain ⟨k, k', haccepted, hcaught⟩ := h
  refine ⟨k + 1, k', ?_, ?_⟩
  · rw [exchanges_succ, hrun]
    exact haccepted
  · rw [show k + 1 + 1 + k' = k + 1 + k' + 1 by omega, exchanges_succ, hrun]
    exact hcaught

/-- A rejection leaves both logs alone. -/
theorem Pair.Aligned.rejected
    (h : s.Aligned json l f term peer.nodeID)
    (next : Nat) (leaderID : String) :
    Pair.Aligned json l f term peer.nodeID
      ⟨s.leader.setNextIndex peer.nodeID next,
        { s.follower with role := .follower, leaderID := leaderID }⟩ :=
  ⟨h.leader.congr rfl rfl h.leader.log h.leader.shippable, h.follower, h.current, h.known,
    h.bounded⟩

theorem nextIndexLocked_setNextIndex
    {n : Node} {p : String} {next : Nat}
    (hnext : 0 < next) :
    (n.setNextIndex p next).nextIndexLocked p = next := by
  simp only [Node.nextIndexLocked, Node.setNextIndex, Function.update_self]
  omega

/-- The position after a rejection, when it has 64 bits. -/
theorem nextIndexAfterRejection_eq
    {current last : Nat}
    (hlast : last + 1 < maxIndexes) :
    nextIndexAfterRejection current last =
      if current ≤ last then last + 1 else max (min (current - 1) (last + 1)) 1 := by
  unfold nextIndexAfterRejection
  rw [Nat.mod_eq_of_lt hlast]
  split_ifs <;> omega

/-- The leader tries the last entry of the follower, which is foreign. -/
theorem Pair.Aligned.converges_at_last
    (h : s.Aligned json l f term peer.nodeID)
    (hl : Indexed l)
    (hmatching : Matching Entry.term f l)
    (hx : s.leader.nextIndexLocked peer.nodeID = f.length)
    (hle : f.length ≤ l.length)
    (hsnapshot : s.follower.store.snapshotIndex < f.length)
    (hconflict : f.dropLast <+: l ∨ f.length ≤ s.leader.store.snapshotIndex) :
    s.Converges json o peer l := by
  have hfits : f.length ≤ s.leader.store.snapshotIndex ∨
      (f.length - 1 ≤ f.length ∧
        termAt Entry.term f (f.length - 1) = termAt Entry.term l (f.length - 1)) := by
    rcases hconflict with hdrop | hcompacted
    · refine Or.inr ⟨by omega, ?_⟩
      have hlength : f.length - 1 ≤ f.dropLast.length := by rw [List.length_dropLast]
      exact (termAt_mono (List.dropLast_prefix f) hlength).symm.trans
        (termAt_mono hdrop hlength)
    · exact Or.inl hcompacted
  obtain ⟨s', a, hrun, -, hsynced⟩ :=
    h.exchange_syncs (o := o) hl hmatching hx hle hsnapshot le_rfl hfits
  exact converges_of_synced hl hrun hsynced

/-- The leader tries the position after the last entry of the follower. -/
theorem Pair.Aligned.converges_after_last
    (h : s.Aligned json l f term peer.nodeID)
    (hl : Indexed l)
    (hmatching : Matching Entry.term f l)
    (hx : s.leader.nextIndexLocked peer.nodeID = f.length + 1)
    (hlt : f.length < l.length)
    (hforeign : termAt Entry.term f f.length ≠ termAt Entry.term l f.length →
      s.follower.store.snapshotIndex < f.length)
    (hconflict : f.dropLast <+: l ∨ f.length ≤ s.leader.store.snapshotIndex) :
    s.Converges json o peer l := by
  have hsnapshot := h.follower.snapshotIndex_le
  by_cases hfits : f.length + 1 ≤ s.leader.store.snapshotIndex ∨
      termAt Entry.term f f.length = termAt Entry.term l f.length
  · obtain ⟨s', a, hrun, -, hsynced⟩ :=
      h.exchange_syncs (o := o) hl hmatching hx hlt (by omega) (by omega)
        (hfits.imp_right fun heq => ⟨by omega, by simpa using heq⟩)
    exact converges_of_synced hl hrun hsynced
  rw [not_or, not_le] at hfits
  obtain ⟨habove, hne⟩ := hfits
  have hrun := h.exchange_rejected (o := o) hx habove (by simpa using hlt.le)
    (by simpa using hsnapshot) (fun _ => by simpa using hne)
  have hpos := hforeign hne
  have hback : nextIndexAfterRejection (f.length + 1) f.length = f.length := by
    rw [nextIndexAfterRejection_eq h.bounded, if_neg (by omega)]
    omega
  rw [hback] at hrun
  exact converges_of_rejected hrun ((h.rejected _ _).converges_at_last hl hmatching
    (nextIndexLocked_setNextIndex (by omega)) hlt.le hpos hconflict)

/-- The back-off comes to an acceptance, and the follower to the whole log, when the
follower has the log already, when at most its last entry is foreign, or when the
leader has compacted as much as the follower has. -/
theorem Pair.Aligned.converges
    (h : s.Aligned json l f term peer.nodeID)
    (hl : Indexed l)
    (hmatching : Matching Entry.term f l)
    (hsnapshot : s.follower.store.snapshotIndex ≤ s.follower.commitIndex)
    (hcommit : s.follower.commitIndex ≤ l.length)
    (hagree : f.take s.follower.commitIndex = l.take s.follower.commitIndex)
    (hx : s.leader.nextIndexLocked peer.nodeID = l.length + 1)
    (hconflict : l <+: f ∨ f.dropLast <+: l ∨
      f.length ≤ s.leader.store.snapshotIndex) :
    s.Converges json o peer l := by
  have habove := h.leader.log.snapshotIndex_le
  by_cases hlast : l.length ≤ f.length ∧
      termAt Entry.term f l.length = termAt Entry.term l l.length
  · obtain ⟨s', hrun, hcaught⟩ :=
      h.exchange_caught (o := o) hl hmatching hx (by omega) hlast.1 hlast.2
    refine ⟨0, 0, congrArg Prod.fst hrun, ?_⟩
    rw [Nat.zero_add, Nat.add_zero, exchanges_succ, hrun]
    exact hcaught
  -- the follower's log is not longer, and its last entry may be foreign
  have hnot : ¬ l <+: f := fun hle =>
    hlast ⟨hle.length_le, (termAt_mono hle le_rfl).symm⟩
  have hconflict' := hconflict.resolve_left hnot
  have hlen : f.length ≤ l.length := by
    rcases hconflict' with hdrop | hcompacted
    · by_contra hlong
      have hshort := hdrop.length_le
      rw [List.length_dropLast] at hshort
      have hall : f.dropLast = l := hdrop.eq_of_length (by rw [List.length_dropLast]; omega)
      exact hnot (hall ▸ List.dropLast_prefix f)
    · omega
  have hforeign : termAt Entry.term f f.length ≠ termAt Entry.term l f.length →
      s.follower.store.snapshotIndex < f.length := by
    intro hne
    by_contra hge
    refine hne ?_
    have hcommitted : f.length ≤ s.follower.commitIndex := by omega
    have hprefix : f <+: l := by
      rw [List.take_of_length_le hcommitted] at hagree
      exact hagree ▸ List.take_prefix _ _
    exact termAt_mono hprefix le_rfl
  have hrun := h.exchange_rejected (o := o) hx (by omega) (by simp) (by simp; omega)
    (fun hle heq => hlast ⟨by simpa using hle, by simpa using heq⟩)
  refine converges_of_rejected hrun ?_
  rw [nextIndexAfterRejection_eq h.bounded, if_neg (by omega)]
  rcases hlen.eq_or_lt with heq | hlt
  · have hne : termAt Entry.term f f.length ≠ termAt Entry.term l f.length :=
      fun hat => hlast ⟨heq.ge, heq ▸ hat⟩
    have hpos := hforeign hne
    rw [show max (min (l.length + 1 - 1) (f.length + 1)) 1 = f.length by omega]
    exact (h.rejected _ _).converges_at_last hl hmatching
      (nextIndexLocked_setNextIndex (by omega)) hlen hpos hconflict'
  · rw [show max (min (l.length + 1 - 1) (f.length + 1)) 1 = f.length + 1 by omega]
    exact (h.rejected _ _).converges_after_last hl hmatching
      (nextIndexLocked_setNextIndex (by omega)) hlt hforeign hconflict'

section Circles

/-- The leader knows no term at the previous position: it goes one step back. -/
theorem Pair.Aligned.exchange_unknown
    (h : s.Aligned json l f term peer.nodeID)
    (hx : s.leader.nextIndexLocked peer.nodeID = x)
    (hgt : l.length < x - 1) :
    s.exchange json o peer =
      (.rejected, ⟨s.leader.setNextIndex peer.nodeID (x - 1), s.follower⟩) := by
  have habove := h.leader.log.snapshotIndex_le
  have hunknown : s.leader.store.term (s.leader.nextIndexLocked peer.nodeID - 1) = none := by
    cases hterm : s.leader.store.term (s.leader.nextIndexLocked peer.nodeID - 1) with
    | none => rfl
    | some t =>
        have := (h.leader.log.of_term hterm).1
        omega
  rw [exchange_eq_sendEntries hx (by omega)]
  unfold Pair.sendEntries Node.buildAppendRequestLocked
  simp only [hunknown]
  rw [hx, max_eq_left (by omega)]

/-- From this position on, as far as both logs reach, the entries of the follower are
foreign, and neither node has compacted further. -/
structure Pair.Foreign (l f : List Entry) (b : Nat) (s : Pair) : Prop where
  below : b < f.length
  within : b ≤ l.length
  leader : s.leader.store.snapshotIndex ≤ b
  follower : s.follower.store.snapshotIndex ≤ b
  terms : ∀ i, b ≤ i → i ≤ f.length → i ≤ l.length →
    termAt Entry.term f i ≠ termAt Entry.term l i

/-- The next index never gets down to the foreign position. -/
theorem Pair.Aligned.exchange_circles
    {b : Nat}
    (h : s.Aligned json l f term peer.nodeID)
    (hforeign : s.Foreign l f b)
    (hlow : b < s.leader.nextIndexLocked peer.nodeID)
    (hhigh : s.leader.nextIndexLocked peer.nodeID ≤ f.length + 1 ∨
      s.leader.nextIndexLocked peer.nodeID = l.length + 1) :
    ∃ s', s.exchange json o peer = (.rejected, s') ∧
      s'.Aligned json l f term peer.nodeID ∧ s'.Foreign l f b ∧
      b < s'.leader.nextIndexLocked peer.nodeID ∧
      (s'.leader.nextIndexLocked peer.nodeID ≤ f.length + 1 ∨
        s'.leader.nextIndexLocked peer.nodeID = l.length + 1) := by
  have hbelow := hforeign.below
  have hwithin := hforeign.within
  have hleader := hforeign.leader
  have hfollower := hforeign.follower
  generalize hx : s.leader.nextIndexLocked peer.nodeID = x at hlow hhigh
  by_cases hknown : x - 1 ≤ l.length
  · have hrun := h.exchange_rejected (o := o) hx (by omega) hknown (by omega)
      (fun hle => hforeign.terms (x - 1) (by omega) hle hknown)
    rw [nextIndexAfterRejection_eq h.bounded] at hrun
    refine ⟨_, hrun, h.rejected _ _,
      ⟨hbelow, hwithin, hleader, hfollower, hforeign.terms⟩, ?_⟩
    rw [nextIndexLocked_setNextIndex (by split_ifs <;> omega)]
    split_ifs <;> omega
  · have hrun := h.exchange_unknown (o := o) hx (not_le.mp hknown)
    refine ⟨_, hrun, ⟨h.leader.congr rfl rfl h.leader.log h.leader.shippable, h.follower,
      h.current, h.known, h.bounded⟩,
      ⟨hbelow, hwithin, hleader, hfollower, hforeign.terms⟩, ?_⟩
    rw [nextIndexLocked_setNextIndex (by omega)]
    omega

/-- No exchange is ever accepted. -/
theorem Pair.Aligned.never_accepted
    {b : Nat}
    (h : s.Aligned json l f term peer.nodeID)
    (hforeign : s.Foreign l f b)
    (hx : s.leader.nextIndexLocked peer.nodeID = l.length + 1)
    (k : Nat) :
    ((s.exchanges json o peer k).exchange json o peer).1 = .rejected := by
  have hrun : ∀ s : Pair, s.Aligned json l f term peer.nodeID → s.Foreign l f b →
      b < s.leader.nextIndexLocked peer.nodeID →
      (s.leader.nextIndexLocked peer.nodeID ≤ f.length + 1 ∨
        s.leader.nextIndexLocked peer.nodeID = l.length + 1) →
      ((s.exchanges json o peer k).exchange json o peer).1 = .rejected := by
    induction k with
    | zero =>
        intro s h hforeign hlow hhigh
        obtain ⟨s', hrun, -⟩ := h.exchange_circles (o := o) hforeign hlow hhigh
        exact congrArg Prod.fst hrun
    | succ k ih =>
        intro s h hforeign hlow hhigh
        obtain ⟨s', hrun, h', hforeign', hlow', hhigh'⟩ :=
          h.exchange_circles (o := o) hforeign hlow hhigh
        rw [exchanges_succ, hrun]
        exact ih s' h' hforeign' hlow' hhigh'
  have := hforeign.within
  exact hrun s h hforeign (by omega) (Or.inr hx)

/-- Logs of which the follower's has more than its last entry of its own, and is not the
leader's with more entries. -/
theorem Pair.Aligned.foreign
    (h : s.Aligned json l f term peer.nodeID)
    (hmatching : Matching Entry.term f l)
    (hsnapshot : s.follower.store.snapshotIndex ≤ s.follower.commitIndex)
    (hagree : f.take s.follower.commitIndex = l.take s.follower.commitIndex)
    (hnot : ¬ l <+: f)
    (hdrop : ¬ f.dropLast <+: l)
    (hcompacted : s.leader.store.snapshotIndex < f.length) :
    s.Foreign l f (min (f.length - 1) l.length) := by
  have hleader := h.leader.log.snapshotIndex_le
  have hlong : 1 < f.length := by
    by_contra hshort
    refine hdrop ?_
    rw [List.length_eq_zero_iff.mp (by rw [List.length_dropLast]; omega : f.dropLast.length = 0)]
    exact List.nil_prefix
  -- where the terms agree, so do the logs up to there
  have hcommon : ∀ i, min (f.length - 1) l.length ≤ i → ¬ f.take i = l.take i := by
    intro i hi heq
    rcases le_or_gt f.length l.length with hle | hgt
    · refine hdrop ?_
      rw [List.dropLast_eq_take]
      have : f.take (f.length - 1) <+: f.take i := List.take_prefix_take_left (by omega)
      exact (heq ▸ this).trans (List.take_prefix _ _)
    · refine hnot ?_
      rw [List.take_of_length_le (by omega : l.length ≤ i)] at heq
      exact heq ▸ List.take_prefix _ _
  refine ⟨by omega, by omega, by omega, ?_, fun i hi hif hil heq => ?_⟩
  · by_contra hgt
    exact hcommon s.follower.commitIndex (by omega) hagree
  · exact hcommon i hi (hmatching i hif hil heq)

end Circles

/-- The back-off comes to an acceptance, and the follower to the whole log, when the
follower has the log already, when at most its last entry is foreign, or when the
leader has compacted as much as the follower has; and only then. -/
theorem backoff_converges
    (json : Json) (o peer : Options) (s : Pair) (l f : List Entry)
    (hl : Indexed l)
    (hleader : s.leader.store.Stores l)
    (hfollower : s.follower.store.Stores f)
    (hmatching : Matching Entry.term f l)
    (hrole : s.leader.role = .leader)
    (hterm : s.follower.currentTerm = s.leader.currentTerm)
    (hsnapshot : s.follower.store.snapshotIndex ≤ s.follower.commitIndex)
    (hcommit : s.follower.commitIndex ≤ l.length)
    (hagree : f.take s.follower.commitIndex = l.take s.follower.commitIndex)
    (hshippable : s.leader.store.Shippable json)
    (hnext : s.leader.nextIndex peer.nodeID = l.length + 1)
    (hmatch : s.leader.matchIndex peer.nodeID ≤ f.length)
    (hcommands : Store.storable l = true)
    (hl63 : l.length < 2 ^ 63)
    (hf63 : f.length < 2 ^ 63) :
    (∃ k k', ((s.exchanges json o peer k).exchange json o peer).1 = .accepted ∧
      ∃ f', (s.exchanges json o peer (k + 1 + k')).follower.store.Stores f' ∧ l <+: f') ↔
    l <+: f ∨ f.dropLast <+: l ∨ f.length ≤ s.leader.store.snapshotIndex := by
  have hbounds : l.length + 1 < maxIndexes ∧ f.length + 1 < maxIndexes := by
    unfold maxIndexes
    omega
  have h : s.Aligned json l f s.leader.currentTerm peer.nodeID :=
    ⟨⟨hrole, rfl, hleader, hshippable, hcommands, hbounds.1⟩, hfollower, hterm, hmatch,
      hbounds.2⟩
  have hx : s.leader.nextIndexLocked peer.nodeID = l.length + 1 := by
    unfold Node.nextIndexLocked
    omega
  constructor
  · rintro ⟨k, k', haccepted, -⟩
    by_contra hcircles
    simp only [not_or, not_le] at hcircles
    obtain ⟨hnot, hdrop, hcompacted⟩ := hcircles
    have hforeign := h.foreign hmatching hsnapshot hagree hnot hdrop hcompacted
    rw [h.never_accepted (o := o) hforeign hx k] at haccepted
    cases haccepted
  · exact h.converges hl hmatching hsnapshot hcommit hagree hx

/-- A fresh leader of term 2 and a follower it knows nothing about. -/
def freshPair (l f : List Entry) : Pair where
  leader :=
    { Node.new (Store.init.appendEntries l) with
      role := .leader
      currentTerm := 2
      nextIndex := fun _ => l.length + 1 }
  follower := { Node.new (Store.init.appendEntries f) with currentTerm := 2 }

/-- One entry of the follower is foreign: the third exchange is accepted. -/
theorem backoff_converges_diverged :
    let s := freshPair leaderLog divergedLog
    ¬ divergedLog <+: leaderLog ∧
    ∃ k k', ((s.exchanges Json.compact ⟨"l", ["f"], 0⟩ ⟨"f", ["l"], 0⟩ k).exchange
        Json.compact ⟨"l", ["f"], 0⟩ ⟨"f", ["l"], 0⟩).1 = .accepted ∧
      ∃ f', (s.exchanges Json.compact ⟨"l", ["f"], 0⟩ ⟨"f", ["l"], 0⟩
        (k + 1 + k')).follower.store.Stores f' ∧ leaderLog <+: f' :=
  ⟨by decide +kernel, (backoff_converges Json.compact ⟨"l", ["f"], 0⟩ ⟨"f", ["l"], 0⟩
    (freshPair leaderLog divergedLog) leaderLog divergedLog (by decide)
    (Store.stores_indexed (by decide)) (Store.stores_indexed (by decide)) (by decide) rfl rfl
    (by decide +kernel) (by decide +kernel) (by decide +kernel)
    (fun h => absurd h (by decide +kernel)) rfl (by decide +kernel) (by decide +kernel)
    (by decide) (by decide)).mpr (Or.inr (Or.inl (by decide +kernel)))⟩

/-- Two entries of term 2. -/
def newLog : List Entry :=
  [⟨1, 2, sampleCommand⟩, ⟨2, 2, sampleCommand⟩]

/-- Two entries of term 1 in their place. -/
def oldLog : List Entry :=
  [⟨1, 1, sampleCommand⟩, ⟨2, 1, sampleCommand⟩]

/-- Logs that match, with nothing committed, both nodes in the term of the leader: the next
index goes from 3 to 2 and back to 3, every exchange is rejected, and the follower never
gets an entry. -/
theorem backoff_never_accepted :
    let s := freshPair newLog oldLog
    Indexed newLog ∧ s.leader.store.Stores newLog ∧ s.follower.store.Stores oldLog ∧
    Matching Entry.term oldLog newLog ∧ s.leader.role = .leader ∧
    s.follower.currentTerm = s.leader.currentTerm ∧ s.follower.commitIndex = 0 ∧
    s.follower.store.snapshotIndex = 0 ∧ s.leader.store.snapshotIndex = 0 ∧
    s.leader.nextIndex "f" = newLog.length + 1 ∧ s.leader.matchIndex "f" = 0 ∧
    ∀ k, ((s.exchanges Json.compact ⟨"l", ["f"], 0⟩ ⟨"f", ["l"], 0⟩ k).exchange
      Json.compact ⟨"l", ["f"], 0⟩ ⟨"f", ["l"], 0⟩).1 = .rejected := by
  have hnew : (freshPair newLog oldLog).leader.store.Stores newLog :=
    Store.stores_indexed (by decide)
  have hold : (freshPair newLog oldLog).follower.store.Stores oldLog :=
    Store.stores_indexed (by decide)
  have hmatching : Matching Entry.term oldLog newLog := by decide
  have haligned : (freshPair newLog oldLog).Aligned Json.compact newLog oldLog 2
      (⟨"f", ["l"], 0⟩ : Options).nodeID :=
    ⟨⟨rfl, rfl, hnew, fun h => absurd h (by decide +kernel), by decide +kernel, by decide⟩,
      hold, rfl, Nat.zero_le _, by decide⟩
  have hforeign := haligned.foreign hmatching (by decide +kernel) rfl (by decide +kernel)
    (by decide +kernel) (by decide +kernel)
  exact ⟨by decide, hnew, hold, hmatching, rfl, rfl, rfl, rfl, rfl, rfl, rfl,
    haligned.never_accepted hforeign rfl⟩

end Convergence

end LogReplicator
