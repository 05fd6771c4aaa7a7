import LogReplicator.Raft.Frames
import LogReplicator.Raft.Monitor

/-!
# What the metrics show

On every run of a watched node only a leader has series of replication lag, and the
gauges show the state of the node as long as the storage takes every write.
-/

namespace LogReplicator

open Library

namespace Monitor

/-! ## The lag series -/

section Lag

open Txn

variable (json : Json) (o : Options)

/-- Only a leader has lag series. -/
def LagOwned (w : Watched) : Prop :=
  w.1.role ≠ .leader → w.2.replicationLag = fun _ => none

/-- There are no lag series. -/
def NoLag (i : Instruments) : Prop :=
  i.replicationLag = fun _ => none

theorem lagOwned_onState
    {α : Type} {m : Txn Node α} (hm : Keeps Node.role m) :
    Preserves LagOwned (onState m) := by
  intro w hw os _
  have hrole := hm os w.1
  unfold onState
  rcases hrun : m os w.1 with ⟨_ | a, n, os'⟩
  · trivial
  · rw [hrun] at hrole
    exact ⟨fun hn => hw (hrole ▸ hn), fun _ => trivial⟩

theorem lagOwned_onInstruments
    {f : Node → Instruments → Instruments}
    (h : ∀ n i, (f n i).replicationLag = i.replicationLag) :
    Preserves LagOwned (onInstruments f) :=
  fun w hw => wp_onInstruments fun hrole => (h w.1 w.2).trans (hw hrole)

theorem leader_onState
    {α : Type} {m : Txn Node α} (hm : Keeps Node.role m) :
    Preserves (fun w : Watched => w.1.role = .leader) (onState m) := by
  intro w hw os _
  have hrole := hm os w.1
  unfold onState
  rcases hrun : m os w.1 with ⟨_ | a, n, os'⟩
  · trivial
  · rw [hrun] at hrole
    exact ⟨hrole.trans hw, fun _ => trivial⟩

theorem leader_onInstruments
    (f : Node → Instruments → Instruments) :
    Preserves (fun w : Watched => w.1.role = .leader) (onInstruments f) :=
  fun _ hw => wp_onInstruments hw

/-- What a leader does and stays leader. -/
theorem lagOwned_of_leader
    {α : Type} {sec : Txn Watched α} {w : Watched}
    (h : Preserves (fun w : Watched => w.1.role = .leader) sec)
    (hw : w.1.role = .leader) :
    wp True sec (fun _ w' => LagOwned w') (fun _ => True) w :=
  wp_mono (h w hw) (fun _ _ hleader hrole => absurd hleader hrole) fun _ h => h

variable (cfg : NodeConfig)

theorem lagOwned_publish :
    Preserves LagOwned Watched.publishStateLocked :=
  lagOwned_onInstruments fun _ _ => rfl

theorem lagOwned_reset
    (r : Reading) :
    Preserves LagOwned (Watched.resetElectionDeadlineLocked cfg r) :=
  lagOwned_onInstruments fun _ _ => rfl

theorem lagOwned_rpcHandled
    (method : RpcMethod) (result : RpcOutcome) :
    Preserves LagOwned (Watched.rpcHandled method result) :=
  lagOwned_onInstruments fun _ _ => rfl

/-- A leader that steps down drops its series before it is a follower. -/
theorem lagOwned_stepDownLocked
    (r : Reading) (term : Nat) (leaderID : String) :
    Preserves LagOwned (Watched.stepDownLocked cfg r term leaderID) := by
  intro w hw
  refine wp_bind (wp_mono (lagOwned_onState (Node.keeps_role_adoptTerm term) w hw) ?_ fun _ h => h)
  intro _ w₁ hw₁
  have hclear : (if w₁.1.role = .leader then
      { w₁.2 with replicationLag := fun _ => none } else w₁.2).replicationLag =
      fun _ => none := by
    split_ifs with hrole
    · rfl
    · exact hw₁ hrole
  exact wp_bind (wp_onInstruments (wp_bind (wp_onState (wp_update
    (wp_bind (wp_onInstruments (wp_onInstruments fun _ => hclear)))))))

theorem lagOwned_becomeCandidate
    (r : Reading) :
    Preserves LagOwned (Watched.becomeCandidate cfg o r) := by
  intro w hw
  refine wp_read_bind ?_
  split_ifs with hrole
  · exact wp_pure hw
  · -- a node that is no leader has no series, and none is added
    refine wp_bind (wp_onState (wp_update (wp_bind (wp_onInstruments ?_))))
    refine wp_mono (((guards_onState (J := NoLag) _).bind fun saved => ?_) _ (hw hrole))
      (fun _ _ hnone _ => hnone) fun _ _ => trivial
    have hstarted : Guards (fun w : Watched => NoLag w.2) Watched.electionStarted :=
      guards_onInstruments fun _ _ h => h
    have hpublish : Guards (fun w : Watched => NoLag w.2) Watched.publishStateLocked :=
      guards_onInstruments fun _ _ h => h
    split_ifs
    · exact hstarted.bind fun _ => hpublish.bind fun _ => guards_pure _
    · exact guards_pure _

theorem lagOwned_becomeLeader
    (term : Nat) :
    Preserves LagOwned (Watched.becomeLeader o term) := by
  intro w hw
  refine wp_read_bind ?_
  split_ifs
  · exact wp_pure hw
  · exact wp_bind (wp_onState (wp_update (wp_bind (wp_onInstruments
      (wp_pure fun hrole => absurd rfl hrole)))))

theorem lagOwned_voteLocked
    (r : Reading) (req : RequestVoteRequest) :
    Preserves LagOwned (Watched.voteLocked cfg r req) := by
  refine (lagOwned_onState (Node.standing_role.voteLocked req)).bind fun h => ?_
  split_ifs
  · exact (lagOwned_reset cfg r).bind fun _ => lagOwned_publish.bind fun _ =>
      (lagOwned_rpcHandled _ _).bind fun _ => preserves_pure h
  · exact (lagOwned_rpcHandled _ _).bind fun _ => preserves_pure h

theorem lagOwned_requestVote
    (c : Clock) (req : RequestVoteRequest) :
    Preserves LagOwned (Watched.requestVote cfg c req) := by
  refine Preserves.read fun w => ?_
  split_ifs
  · exact (lagOwned_rpcHandled _ _).bind fun _ => preserves_pure _
  · exact (lagOwned_stepDownLocked cfg _ _ _).bind fun _ => lagOwned_voteLocked cfg _ req
  · exact lagOwned_voteLocked cfg _ req

theorem keeps_role_setLeader
    (leaderId : String) :
    Keeps Node.role (update fun n : Node => { n with leaderID := leaderId }) :=
  fun _ _ => rfl

theorem lagOwned_acceptLeader
    (c : Clock) (term : Nat) (leaderId : String) :
    Preserves LagOwned (Watched.acceptLeader cfg c term leaderId) := by
  refine Preserves.read fun w => ?_
  split_ifs
  · exact (lagOwned_stepDownLocked cfg _ _ _).bind fun _ =>
      (lagOwned_onState (keeps_role_setLeader _)).bind fun _ => lagOwned_reset cfg _
  · exact (lagOwned_onState (keeps_role_setLeader _)).bind fun _ => lagOwned_reset cfg _

theorem lagOwned_finish
    {α : Type} (method : RpcMethod) (h : Handled α) :
    Preserves LagOwned (Watched.finish method h) := by
  unfold Watched.finish
  split_ifs
  · exact lagOwned_publish.bind fun _ => (lagOwned_rpcHandled _ _).bind fun _ =>
      preserves_pure h
  · exact (lagOwned_rpcHandled _ _).bind fun _ => preserves_pure h

theorem lagOwned_appendEntries
    (c : Clock) (req : AppendEntriesRequest) :
    Preserves LagOwned (Watched.appendEntries cfg json o c req) := by
  refine Preserves.read fun w => ?_
  split_ifs
  · exact (lagOwned_rpcHandled _ _).bind fun _ => preserves_pure _
  · exact (lagOwned_acceptLeader cfg c _ _).bind fun _ =>
      (lagOwned_onState (Node.standing_role.mergeLocked json o req)).bind fun h =>
        lagOwned_finish _ h

theorem lagOwned_installSnapshot
    (c : Clock) (req : InstallSnapshotRequest) :
    Preserves LagOwned (Watched.installSnapshot cfg json c req) := by
  refine Preserves.read fun w => ?_
  split_ifs
  · exact (lagOwned_rpcHandled _ _).bind fun _ => preserves_pure _
  · exact (lagOwned_acceptLeader cfg c _ _).bind fun _ =>
      (lagOwned_onState (Node.standing_role.installLocked json req)).bind fun h =>
        lagOwned_finish _ h

theorem lagOwned_observeHigherTerm
    (r : Reading) (term : Nat) :
    Preserves LagOwned (Watched.observeHigherTerm cfg r term) := by
  refine Preserves.read fun w => ?_
  split_ifs
  · exact preserves_pure _
  · exact (lagOwned_stepDownLocked cfg _ _ _).bind fun _ => preserves_pure _

theorem lagOwned_commitAndApply :
    Preserves LagOwned (Watched.commitAndApply json o) :=
  (lagOwned_onState (Node.standing_role.advanceCommitLocked json o)).bind fun _ => lagOwned_publish

/-- Progress is recorded by a leader, which stays leader. -/
theorem leader_recordProgress
    (peerID : String) (matchIndex : Nat) :
    Preserves (fun w : Watched => w.1.role = .leader)
      (Watched.recordProgress json o peerID matchIndex) := by
  have hrecord : Keeps Node.role (update (Node.recordPeerProgressLocked peerID matchIndex)) := by
    intro os n
    show (Node.recordPeerProgressLocked peerID matchIndex n).role = n.role
    unfold Node.recordPeerProgressLocked
    split_ifs <;> rfl
  exact (leader_onState hrecord).bind fun _ => (leader_onInstruments _).bind fun _ =>
    (leader_onState (Node.standing_role.advanceCommitLocked json o)).bind fun _ =>
      leader_onInstruments _

theorem lagOwned_notePeerReachableLocked
    (peerID : String) :
    Preserves LagOwned (Watched.notePeerReachableLocked peerID) :=
  lagOwned_onInstruments fun _ i => by
    show (if _ then _ else _ : Instruments).replicationLag = _
    split_ifs <;> rfl

theorem lagOwned_appendReplied
    (peerID : String) (term : Nat) (req : AppendEntriesRequest)
    (reply : AppendEntriesResponse) :
    Preserves LagOwned (Watched.appendReplied json o peerID term req reply) := by
  refine (lagOwned_notePeerReachableLocked peerID).bind fun _ w hw => wp_read_bind ?_
  split_ifs with hmoved hrejected
  · exact wp_pure hw
  · exact wp_bind (wp_onState (wp_update (wp_pure hw)))
  · have hleader : w.1.role = .leader := by
      by_contra hrole
      exact hmoved (Or.inl hrole)
    exact lagOwned_of_leader
      ((leader_recordProgress json o peerID _).bind fun _ => preserves_pure _) hleader

theorem lagOwned_snapshotReplied
    (peerID : String) (term lastIncludedIndex : Nat) :
    Preserves LagOwned (Watched.snapshotReplied json o peerID term lastIncludedIndex) := by
  refine (lagOwned_notePeerReachableLocked peerID).bind fun _ w hw => wp_read_bind ?_
  split_ifs with hmoved
  · exact wp_pure hw
  · have hleader : w.1.role = .leader := by
      by_contra hrole
      exact hmoved (Or.inl hrole)
    exact lagOwned_of_leader ((leader_onInstruments _).bind fun _ =>
      (leader_recordProgress json o peerID _).bind fun _ => preserves_pure _) hleader

theorem lagOwned_appendClientEntry
    (payload : Bytes) :
    Preserves LagOwned (Watched.appendClientEntry json o payload) := by
  refine Preserves.read fun w => ?_
  split_ifs
  · exact preserves_pure _
  · refine (lagOwned_onState (Node.ignores_role.writeStoreIf _ _)).bind fun stored => ?_
    split_ifs
    · exact preserves_pure _
    · exact (lagOwned_onState (Node.standing_role.advanceCommitLocked json o)).bind fun _ =>
        lagOwned_publish.bind fun _ => preserves_pure _
  · refine (lagOwned_onState (Node.ignores_role.writeStoreIf _ _)).bind fun stored => ?_
    split_ifs
    · exact preserves_pure _
    · exact lagOwned_publish.bind fun _ => preserves_pure _

theorem LagOwned.performNode
    {m : Monitor} (hm : LagOwned m.watched) (op : Operation) (c : Clock)
    (os : List Outcome) :
    LagOwned (m.performNode cfg json o op c os).watched := by
  have hsection : ∀ {α : Type} {sec : Txn Watched α} {answer : α → List Answered},
      Preserves LagOwned sec →
      LagOwned (m.runSection cfg c.restart sec os answer).watched := fun hsec =>
    runSection_inv (hsec m.watched hm) (fun _ => trivial) fun _ _ _ => rfl
  cases op with
  | timeout =>
      show LagOwned (m.startElection cfg o c os).watched
      unfold startElection
      split_ifs
      · exact hsection (lagOwned_becomeCandidate o cfg c.reset)
      · exact hm
  | win term => exact hsection (lagOwned_becomeLeader o term)
  | commitAlone => exact hsection (lagOwned_commitAndApply json o)
  | vote req => exact hsection (lagOwned_requestVote cfg c req)
  | append req => exact hsection (lagOwned_appendEntries json o cfg c req)
  | snapshot req => exact hsection (lagOwned_installSnapshot json cfg c req)
  | observe term => exact hsection (lagOwned_observeHigherTerm cfg c.stepDown term)
  | build peerID =>
      have hrole : (m.solo.node.buildAppendRequestLocked o peerID).1.role = m.solo.node.role := by
        unfold Node.buildAppendRequestLocked
        dsimp only
        split <;> rfl
      exact fun hn => hm (hrole ▸ hn)
  | appendReply peerID term req reply =>
      exact hsection (lagOwned_appendReplied json o peerID term req reply)
  | snapshotReply peerID term lastIncludedIndex =>
      exact hsection (lagOwned_snapshotReplied json o peerID term lastIncludedIndex)
  | client payload => exact hsection (lagOwned_appendClientEntry json o payload)
  | crash => exact fun _ => rfl

/-- On every run, a node without the leadership shows no replication lag. -/
theorem lag_only_on_leader
    (r : Reading) (ops : List (WatchedOp × List Outcome)) :
    ((init cfg r).run cfg json o ops).solo.node.role = .leader ∨
      ∀ peerID, ((init cfg r).run cfg json o ops).instruments.replicationLag peerID = none := by
  have howned : LagOwned ((init cfg r).run cfg json o ops).watched := by
    induction ops using List.reverseRecOn with
    | nil =>
        exact fun _ => rfl
    | append_singleton ops op ih =>
        unfold run at ih ⊢
        rw [List.foldl_append]
        obtain ⟨op, os⟩ := op
        cases op with
        | node op c => exact LagOwned.performNode json o cfg ih op c os
        | tick now => exact ih
        | peerFails peerID what =>
            intro hrole
            refine Eq.trans ?_ (ih hrole)
            show (if _ then _ else _ : Instruments).replicationLag = _
            split_ifs <;> rfl
        | voteFails peerID => exact ih
  by_cases hrole : ((init cfg r).run cfg json o ops).solo.node.role = .leader
  · exact Or.inl hrole
  · exact Or.inr fun peerID => congrFun (howned hrole) peerID

end Lag

/-! ## The gauges -/

section Gauges

open Txn

variable {w : Watched}

/-- The gauges show the state of the node. -/
def Published (w : Watched) : Prop :=
  w.2.gauges = w.1.gauges

theorem adoptTerm_wp
    (term : Nat) (n : Node) :
    wp False (Node.adoptTerm term) (fun _ _ => True) (fun _ => True) n := by
  refine wp_read_bind ?_
  split_ifs
  · exact wp_bind (wp_update (wp_bind (wp_write (wp_pure trivial) (fun hf => hf.elim) trivial)))
  · exact wp_pure trivial

variable (cfg : NodeConfig) (json : Json) (o : Options)

theorem advanceCommitLocked_wp
    (n : Node) :
    wp False (Node.advanceCommitLocked json o) (fun _ _ => True) (fun _ => True) n := by
  have hspec : (Solo.envOf False json o).Spec (Node.advanceCommitLocked json o) _ _ n :=
    advanceCommitLocked_spec (Or.inl trivial)
  exact wp_mono hspec (fun _ _ _ => trivial) fun _ _ => trivial

theorem applyCommittedLocked_wp
    (n : Node) :
    wp False (Node.applyCommittedLocked json o) (fun _ _ => True) (fun _ => True) n := by
  have hspec : (Solo.envOf False json o).Spec (Node.applyCommittedLocked json o) _ _ n :=
    applyCommittedLocked_spec (Or.inl trivial)
  exact wp_mono hspec (fun _ _ _ => trivial) fun _ _ => trivial

theorem voteLocked_gauges
    (req : RequestVoteRequest) (n : Node) :
    wp False (Node.voteLocked req) (fun _ n' => n'.gauges = n.gauges) (fun _ => True) n := by
  refine wp_read_bind ?_
  dsimp only
  split_ifs
  · exact wp_pure rfl
  · exact wp_bind (wp_update (wp_bind (wp_write (wp_pure rfl) (fun hf => hf.elim) trivial)))

/-- What a follower lacks is among what it is sent. -/
theorem collectMissing_storable
    (snapshotIndex : Nat) (entries : List Entry) (matchIndex : Nat) (missing : List Entry)
    (hentries : Store.storable entries = true) (hmissing : Store.storable missing = true)
    (n : Node) :
    wp False (Node.collectMissing snapshotIndex entries matchIndex missing)
      (fun r _ => ∃ found, r = some found ∧ Store.storable found.2 = true) (fun _ => True) n := by
  induction entries generalizing matchIndex missing n with
  | nil =>
      exact wp_pure ⟨_, rfl, hmissing⟩
  | cons e entries ih =>
      obtain ⟨he, hrest⟩ := (Store.storable_append [e] entries).mp hentries
      unfold Node.collectMissing
      split_ifs
      · exact ih _ _ hrest hmissing n
      · exact ih _ _ hrest ((Store.storable_append _ _).mpr ⟨hmissing, he⟩) n
      · refine wp_read_bind ?_
        cases n.store.term e.index with
        | none => exact ih _ _ hrest he n
        | some localTerm =>
            dsimp only
            split_ifs
            · exact ih _ _ hrest rfl n
            · exact wp_bind (wp_write (ih _ _ hrest he _) (fun hf => hf.elim) trivial)

/-- A merge that is no success has changed nothing. -/
theorem mergeLocked_unchanged
    (req : AppendEntriesRequest) (hreq : Store.storable req.entries = true) (n : Node) :
    wp False (Node.mergeLocked json o req)
      (fun h n' => h.outcome ≠ .success → n' = n) (fun _ => True) n := by
  refine wp_read_bind ?_
  split_ifs
  · exact wp_pure fun _ => rfl
  · exact wp_pure fun _ => rfl
  · have hfollow : ∀ n', wp False (Node.followLeaderCommitLocked json o req.leaderCommit)
        (fun _ _ => True) (fun _ => True) n' := by
      intro n'
      refine wp_read_bind ?_
      split_ifs
      · exact wp_pure trivial
      · exact wp_bind (wp_update (applyCommittedLocked_wp json o _))
    have hstored : wp False (Node.storeLeaderEntriesLocked req.entries req.prevLogIndex
        n.store.snapshotIndex) (fun r _ => r.isSome = true) (fun _ => True) n := by
      refine wp_bind (wp_mono (collectMissing_storable _ _ _ _ hreq rfl n) ?_ fun _ h => h)
      rintro _ n' ⟨found, rfl, hfound⟩
      dsimp only
      unfold Node.appendMissing
      split_ifs
      · exact wp_bind (wp_pure (wp_pure rfl))
      · refine wp_bind (wp_writeIf (fun _ => wp_pure rfl) (fun hrefused => ?_) trivial)
        simp [hfound] at hrefused
    refine wp_bind (wp_mono hstored ?_ fun _ h => h)
    intro stored n' hsome
    obtain ⟨matchIndex, rfl⟩ := Option.isSome_iff_exists.mp hsome
    exact wp_bind (wp_mono (hfollow n') (fun _ _ _ => wp_pure fun h => absurd rfl h)
      fun _ h => h)

/-- An installation that is no success has changed nothing. -/
theorem installLocked_unchanged
    (req : InstallSnapshotRequest) (n : Node) :
    wp False (Node.installLocked json req)
      (fun h n' => h.outcome ≠ .success → n' = n) (fun _ => True) n := by
  refine wp_read_bind ?_
  split_ifs
  · exact wp_pure fun _ => rfl
  · cases Store.decodeSnapshot json req.data with
    | none => exact wp_pure fun _ => rfl
    | some state =>
        exact wp_bind (wp_writeIf
          (fun _ => wp_bind (wp_update (wp_pure fun h => absurd rfl h)))
          (fun _ => wp_pure fun _ => rfl) trivial)

/-- Whoever steps down publishes. -/
theorem published_stepDownLocked
    (r : Reading) (term : Nat) (leaderID : String) :
    wp False (Watched.stepDownLocked cfg r term leaderID) (fun _ w' => Published w')
      (fun _ => True) w :=
  wp_bind (wp_onState (wp_mono (adoptTerm_wp term w.1)
    (fun _ _ _ => wp_bind (wp_onInstruments (wp_bind (wp_onState (wp_update
      (wp_bind (wp_onInstruments (wp_onInstruments rfl))))))))
    fun _ h => h))

theorem published_observeHigherTerm
    (hw : Published w) (r : Reading) (term : Nat) :
    wp False (Watched.observeHigherTerm cfg r term) (fun _ w' => Published w')
      (fun _ => True) w := by
  refine wp_read_bind ?_
  split_ifs
  · exact wp_pure hw
  · exact wp_bind (wp_mono (published_stepDownLocked cfg r term "")
      (fun _ _ h => wp_pure h) fun _ h => h)

theorem published_becomeCandidate
    (hw : Published w) (r : Reading) :
    wp False (Watched.becomeCandidate cfg o r) (fun _ w' => Published w') (fun _ => True) w := by
  refine wp_read_bind ?_
  split_ifs
  · exact wp_pure hw
  · exact wp_bind (wp_onState (wp_update (wp_bind (wp_onInstruments (wp_bind (wp_onState
      (wp_write (wp_bind (wp_onInstruments (wp_bind (wp_onInstruments (wp_pure rfl)))))
        (fun hf => hf.elim) trivial)))))))

theorem published_becomeLeader
    (hw : Published w) (term : Nat) :
    wp False (Watched.becomeLeader o term) (fun _ w' => Published w') (fun _ => True) w := by
  refine wp_read_bind ?_
  split_ifs
  · exact wp_pure hw
  · exact wp_bind (wp_onState (wp_update (wp_bind (wp_onInstruments (wp_pure rfl)))))

theorem published_voteLocked
    (hw : Published w) (r : Reading) (req : RequestVoteRequest) :
    wp False (Watched.voteLocked cfg r req) (fun _ w' => Published w') (fun _ => True) w := by
  refine wp_bind (wp_onState (wp_mono (voteLocked_gauges req w.1) ?_ fun _ h => h))
  intro h n hgauges
  split_ifs
  · exact wp_bind (wp_onInstruments (wp_bind (wp_onInstruments
      (wp_bind (wp_onInstruments (wp_pure rfl))))))
  · exact wp_bind (wp_onInstruments (wp_pure (hw.trans hgauges.symm)))

theorem published_requestVote
    (hw : Published w) (c : Clock) (req : RequestVoteRequest) :
    wp False (Watched.requestVote cfg c req) (fun _ w' => Published w') (fun _ => True) w := by
  refine wp_read_bind ?_
  split_ifs
  · exact wp_bind (wp_onInstruments (wp_pure hw))
  · exact wp_bind (wp_mono (published_stepDownLocked cfg _ _ _)
      (fun _ _ h => published_voteLocked cfg h _ req) fun _ h => h)
  · exact published_voteLocked cfg hw _ req

theorem published_acceptLeader
    (hw : Published w) (c : Clock) (term : Nat) (leaderId : String) :
    wp False (Watched.acceptLeader cfg c term leaderId) (fun _ w' => Published w')
      (fun _ => True) w := by
  refine wp_read_bind ?_
  split_ifs
  · exact wp_bind (wp_mono (published_stepDownLocked cfg _ _ _)
      (fun _ _ h => wp_bind (wp_onState (wp_update (wp_onInstruments h)))) fun _ h => h)
  · exact wp_bind (wp_onState (wp_update (wp_onInstruments hw)))

/-- A success is published; without it the gauges have to show the state already. -/
theorem published_finish
    {α : Type} (method : RpcMethod) {h : Handled α}
    (hw : h.outcome ≠ .success → Published w) :
    wp False (Watched.finish method h) (fun _ w' => Published w') (fun _ => True) w := by
  unfold Watched.finish
  split_ifs with hsuccess
  · exact wp_bind (wp_onInstruments (wp_bind (wp_onInstruments (wp_pure rfl))))
  · exact wp_bind (wp_onInstruments (wp_pure (hw hsuccess)))

theorem published_appendEntries
    (hw : Published w) (c : Clock) (req : AppendEntriesRequest)
    (hreq : Store.storable req.entries = true) :
    wp False (Watched.appendEntries cfg json o c req) (fun _ w' => Published w')
      (fun _ => True) w := by
  refine wp_read_bind ?_
  split_ifs
  · exact wp_bind (wp_onInstruments (wp_pure hw))
  · refine wp_bind (wp_mono (published_acceptLeader cfg hw c _ _) ?_ fun _ h => h)
    intro _ w₁ hw₁
    refine wp_bind (wp_onState (wp_mono (mergeLocked_unchanged json o req hreq w₁.1) ?_ fun _ h => h))
    intro h n hn
    refine published_finish _ fun hfailed => ?_
    rw [hn hfailed]
    exact hw₁

theorem published_installSnapshot
    (hw : Published w) (c : Clock) (req : InstallSnapshotRequest) :
    wp False (Watched.installSnapshot cfg json c req) (fun _ w' => Published w')
      (fun _ => True) w := by
  refine wp_read_bind ?_
  split_ifs
  · exact wp_bind (wp_onInstruments (wp_pure hw))
  · refine wp_bind (wp_mono (published_acceptLeader cfg hw c _ _) ?_ fun _ h => h)
    intro _ w₁ hw₁
    refine wp_bind (wp_onState (wp_mono (installLocked_unchanged json req w₁.1) ?_ fun _ h => h))
    intro h n hn
    refine published_finish _ fun hfailed => ?_
    rw [hn hfailed]
    exact hw₁

theorem published_commitAndApply :
    wp False (Watched.commitAndApply json o) (fun _ w' => Published w') (fun _ => True) w :=
  wp_bind (wp_onState (wp_mono (advanceCommitLocked_wp json o w.1)
    (fun _ _ _ => wp_onInstruments rfl) fun _ h => h))

theorem published_recordProgress
    (peerID : String) (matchIndex : Nat) :
    wp False (Watched.recordProgress json o peerID matchIndex) (fun _ w' => Published w')
      (fun _ => True) w :=
  wp_bind (wp_onState (wp_update (wp_bind (wp_onInstruments
    (published_commitAndApply json o)))))

theorem published_notePeerReachableLocked
    (hw : Published w) (peerID : String) :
    wp False (Watched.notePeerReachableLocked peerID) (fun _ w' => Published w')
      (fun _ => True) w := by
  refine wp_onInstruments ?_
  split_ifs <;> exact hw

theorem published_appendReplied
    (hw : Published w) (peerID : String) (term : Nat) (req : AppendEntriesRequest)
    (reply : AppendEntriesResponse) :
    wp False (Watched.appendReplied json o peerID term req reply) (fun _ w' => Published w')
      (fun _ => True) w := by
  refine wp_bind (wp_mono (published_notePeerReachableLocked hw peerID) ?_ fun _ h => h)
  intro _ w₁ hw₁
  refine wp_read_bind ?_
  split_ifs
  · exact wp_pure hw₁
  · exact wp_bind (wp_onState (wp_update (wp_pure hw₁)))
  · exact wp_bind (wp_mono (published_recordProgress json o peerID _)
      (fun _ _ h => wp_pure h) fun _ h => h)

theorem published_snapshotReplied
    (hw : Published w) (peerID : String) (term lastIncludedIndex : Nat) :
    wp False (Watched.snapshotReplied json o peerID term lastIncludedIndex)
      (fun _ w' => Published w') (fun _ => True) w := by
  refine wp_bind (wp_mono (published_notePeerReachableLocked hw peerID) ?_ fun _ h => h)
  intro _ w₁ hw₁
  refine wp_read_bind ?_
  split_ifs
  · exact wp_pure hw₁
  · exact wp_bind (wp_onInstruments (wp_bind (wp_mono
      (published_recordProgress json o peerID _) (fun _ _ h => wp_pure h) fun _ h => h)))

theorem published_appendClientEntry
    (hw : Published w) (payload : Bytes) :
    wp False (Watched.appendClientEntry json o payload) (fun _ w' => Published w')
      (fun _ => True) w := by
  refine wp_read_bind ?_
  split_ifs
  · exact wp_pure hw
  · exact wp_bind (wp_onState (wp_writeIf
      (fun _ => wp_bind (wp_onState (wp_mono (advanceCommitLocked_wp json o _)
        (fun _ _ _ => wp_bind (wp_onInstruments (wp_pure rfl))) fun _ h => h)))
      (fun _ => wp_pure hw) trivial))
  · exact wp_bind (wp_onState (wp_writeIf
      (fun _ => wp_bind (wp_onInstruments (wp_pure rfl))) (fun _ => wp_pure hw) trivial))

/-- No command that the operation brings from a leader is empty. -/
def storable : WatchedOp → Bool
  | .node (.append req) _ => Store.storable req.entries
  | _ => true

theorem Published.performNode
    {m : Monitor} (hm : Published m.watched) (op : Operation) (c : Clock)
    {os : List Outcome} (hos : Outcome.fail ∉ os) (hop : storable (.node op c) = true) :
    Published (m.performNode cfg json o op c os).watched := by
  have hsection : ∀ {α : Type} {sec : Txn Watched α} {answer : α → List Answered},
      wp False sec (fun _ w' => Published w') (fun _ => True) m.watched →
      Published (m.runSection cfg c.restart sec os answer).watched := fun hsec =>
    runSection_inv hsec hos fun _ _ => rfl
  cases op with
  | timeout =>
      show Published (m.startElection cfg o c os).watched
      unfold startElection
      split_ifs
      · exact hsection (published_becomeCandidate cfg o hm c.reset)
      · exact hm
  | win term => exact hsection (published_becomeLeader o hm term)
  | commitAlone => exact hsection (published_commitAndApply json o)
  | vote req => exact hsection (published_requestVote cfg hm c req)
  | append req => exact hsection (published_appendEntries cfg json o hm c req hop)
  | snapshot req => exact hsection (published_installSnapshot cfg json hm c req)
  | observe term => exact hsection (published_observeHigherTerm cfg hm c.stepDown term)
  | build peerID =>
      have hgauges : (m.solo.node.buildAppendRequestLocked o peerID).1.gauges =
          m.solo.node.gauges := by
        unfold Node.buildAppendRequestLocked
        dsimp only
        split <;> rfl
      exact hm.trans hgauges.symm
  | appendReply peerID term req reply =>
      exact hsection (published_appendReplied json o hm peerID term req reply)
  | snapshotReply peerID term lastIncludedIndex =>
      exact hsection (published_snapshotReplied json o hm peerID term lastIncludedIndex)
  | client payload => exact hsection (published_appendClientEntry json o hm payload)
  | crash => rfl

/-- The values are the numbers themselves. -/
structure Gauges.Precise (g : Gauges) (n : Node) : Prop where
  isLeader : g.isLeader = decide (n.role = .leader)
  term : n.currentTerm ≤ 2 ^ 53 → g.term = n.currentTerm
  commitIndex : n.commitIndex ≤ 2 ^ 53 → g.commitIndex = n.commitIndex
  lastApplied : n.lastApplied ≤ 2 ^ 53 → g.lastApplied = n.lastApplied
  lastLogIndex : n.store.lastIndex ≤ 2 ^ 53 → g.lastLogIndex = n.store.lastIndex
  snapshotIndex : n.store.snapshotIndex ≤ 2 ^ 53 → g.snapshotIndex = n.store.snapshotIndex

theorem gauges_precise
    (n : Node) :
    Gauges.Precise n.gauges n :=
  ⟨rfl, float64_eq_self, float64_eq_self, float64_eq_self, float64_eq_self, float64_eq_self⟩

/-- As long as no write fails and no entry with an empty command arrives, which the schema
refuses, the gauges show the state of the node: its numbers as values of type `float64`,
which are the numbers themselves up to `2 ^ 53`. -/
theorem gauges_show_state
    (r : Reading) (ops : List (WatchedOp × List Outcome))
    (hops : ∀ op ∈ ops, Outcome.fail ∉ op.2 ∧ storable op.1 = true) :
    ((init cfg r).run cfg json o ops).instruments.gauges =
        ((init cfg r).run cfg json o ops).solo.node.gauges ∧
      Gauges.Precise ((init cfg r).run cfg json o ops).instruments.gauges
        ((init cfg r).run cfg json o ops).solo.node := by
  have hpublished : Published ((init cfg r).run cfg json o ops).watched := by
    induction ops using List.reverseRecOn with
    | nil =>
        rfl
    | append_singleton ops op ih =>
        have hpublished := ih fun op hop => hops op (List.mem_append_left _ hop)
        obtain ⟨hos, hop⟩ := hops op (by simp)
        unfold run at hpublished ⊢
        rw [List.foldl_append]
        obtain ⟨op, os⟩ := op
        cases op with
        | node op c => exact Published.performNode cfg json o hpublished op c hos hop
        | tick now => exact hpublished
        | peerFails peerID what =>
            refine Eq.trans ?_ hpublished
            show (if _ then _ else _ : Instruments).gauges = _
            split_ifs <;> rfl
        | voteFails peerID => exact hpublished
  refine ⟨hpublished, ?_⟩
  rw [show ((init cfg r).run cfg json o ops).instruments.gauges = _ from hpublished]
  exact gauges_precise _

/-- A node without peers is elected when its timer is over, and takes a write. -/
def aloneRun : List (WatchedOp × List Outcome) :=
  [(.tick 500000001, []), (.node .timeout (clockAt 500000002), []),
    (.node (.win 1) (clockAt 500000003), []),
    (.node (.client ((Command.setCommand "k" "v").encode Json.compact)) (clockAt 500000004), [])]

theorem gauges_show_state_aloneRun :
    ((init defaultConfig (clockAt 0).reset).run defaultConfig .compact ⟨"node1", [], 0⟩
      aloneRun).instruments.gauges.lastLogIndex = 1 := by
  have hstate : ((init defaultConfig (clockAt 0).reset).run defaultConfig .compact
      ⟨"node1", [], 0⟩ aloneRun).solo.node.store.lastIndex = 1 := by
    decide +kernel
  have hshown := (gauges_show_state defaultConfig .compact ⟨"node1", [], 0⟩ (clockAt 0).reset
    aloneRun (by decide)).2.lastLogIndex
  rw [hstate] at hshown
  exact hshown (by decide)

end Gauges

end Monitor

end LogReplicator
