import LogReplicator.Raft.Backoff

/-!
# The exchanges of a pair happen in the cluster

The results about a leader and one of its peers are about `Pair.exchange`, which runs the
sections of the two nodes one after the other.  The goroutines of a cluster can do the
same: from every state in which the sender for the peer is idle, there are steps that take
the two nodes through one exchange, with nobody else involved.
-/

namespace LogReplicator

open Library

namespace Cluster

variable {cfg : Config} {c c' : Cluster} {x p : String}

/-- Steps without a failure take `x` and `p` to these states; the sender of `x` for `p` is
idle then, and no other node has changed. -/
def Reaches (cfg : Config) (x p : String) (c : Cluster) (s : Pair) : Prop :=
  ∃ as c', c.exec cfg as = some c' ∧ (∀ a ∈ as, a.outcomes = []) ∧
    (c'.procs x).sender p = .idle ∧ c'.node x = s.leader ∧ c'.node p = s.follower ∧
    ∀ y, y ≠ x → y ≠ p → c'.node y = c.node y

theorem reaches_step
    {a : Action} {s : Pair}
    (hos : a.outcomes = [])
    (h : ∃ c', c.step cfg a = some c' ∧ (∀ y, y ≠ x → y ≠ p → c'.node y = c.node y) ∧
      c'.Reaches cfg x p s) :
    c.Reaches cfg x p s := by
  obtain ⟨c', hstep, hframe, as, c₁, hexec, hoss, hidle, hleader, hfollower, hframe₁⟩ := h
  exact ⟨a :: as, c₁, by simp [exec, hstep, hexec], List.forall_mem_cons.mpr ⟨hos, hoss⟩, hidle,
    hleader, hfollower, fun y hyx hyp => (hframe₁ y hyx hyp).trans (hframe y hyx hyp)⟩

/-- The sender ends its work. -/
theorem reaches_senderReturns
    {inSync : Bool} {s : Pair}
    (hleader : c.node x = s.leader)
    (hfollower : c.node p = s.follower) :
    (c.senderReturns x p none inSync).Reaches cfg x p s :=
  ⟨[], _, rfl, by simp, by simp, by simpa using hleader, by simpa using hfollower,
    fun _ _ _ => rfl⟩

/-- A sender between two turns can end, too. -/
theorem reaches_looping
    {r : Nat} {s : Pair}
    (hsender : (c.procs x).sender p = .looping r none)
    (hleader : c.node x = s.leader)
    (hfollower : c.node p = s.follower) :
    c.Reaches cfg x p s := by
  apply reaches_step (a := .giveUp x p) rfl
  simp only [step, electionStep, senderStep, hsender]
  exact ⟨_, rfl, by simp, reaches_senderReturns hleader hfollower⟩

/-- Without a failure a section returns. -/
theorem run_nil
    {α : Type} {m : Txn Node α}
    (hm : Txn.Returns m)
    (n : Node) :
    ∃ a n' os, m [] n = (some a, n', os) := by
  obtain ⟨a, n', os, hrun, -⟩ := hm [] n (by simp)
  exact ⟨a, n', os, hrun⟩

section Entries

variable {req : AppendEntriesRequest} {reply : AppendEntriesResponse}
variable {leader follower n : Node} {os : List Outcome}

/-- The last section of `sendEntries`. -/
theorem reaches_appendDone
    {outcome : AppendOutcome}
    (hsender : (c.procs x).sender p = .appendReplied 0 none req reply)
    (hpx : p ≠ x)
    (hleader : c.node x = leader)
    (hfollower : c.node p = follower)
    (hrun : Node.appendReplied cfg.json (cfg.options x) p req.term req reply [] leader =
      (some outcome, n, os)) :
    c.Reaches cfg x p ⟨n, follower⟩ := by
  subst hleader hfollower
  apply reaches_step (a := .appendDone x p []) rfl
  simp only [step, electionStep, senderStep, hsender, runSection, node_record, hrun]
  cases outcome with
  | accepted =>
      exact ⟨_, rfl, fun y hyx _ => by simp [hyx],
        reaches_senderReturns (by simp) (by simp [hpx])⟩
  | failed =>
      exact ⟨_, rfl, fun y hyx _ => by simp [hyx],
        reaches_senderReturns (by simp) (by simp [hpx])⟩
  | rejected =>
      exact ⟨_, rfl, fun y hyx _ => by simp [hyx, maxAppendRounds],
        reaches_looping (r := 1) (by simp [maxAppendRounds]) (by simp [maxAppendRounds])
          (by simp [maxAppendRounds, hpx])⟩

/-- An append stays without an answer. -/
theorem reaches_append_unanswered
    (id : Nat) (req : AppendEntriesRequest)
    (hsender : (c.procs x).sender p = .appendSent 0 none id req)
    (hleader : c.node x = leader)
    (hfollower : c.node p = follower) :
    c.Reaches cfg x p ⟨leader, follower⟩ := by
  apply reaches_step (a := .callFails x p) rfl
  simp only [step, electionStep, senderStep, hsender]
  exact ⟨_, rfl, by simp, reaches_senderReturns hleader hfollower⟩

/-- The reply to an append says nothing about a newer term. -/
theorem reaches_appendReply
    {outcome : AppendOutcome} {n' : Node} {os' : List Outcome} (id : Nat)
    (hsender : (c.procs x).sender p = .appendSent 0 none id req)
    (hreply : (id, Response.append reply) ∈ c.replies)
    (hpx : p ≠ x)
    (hleader : c.node x = leader)
    (hfollower : c.node p = follower)
    (hobserve : Node.observeHigherTerm reply.term [] leader = (some false, n, os))
    (hrun : Node.appendReplied cfg.json (cfg.options x) p req.term req reply [] n =
      (some outcome, n', os')) :
    c.Reaches cfg x p ⟨n', follower⟩ := by
  subst hleader hfollower
  apply reaches_step (a := .appendReply x p reply []) rfl
  simp only [step, electionStep, senderStep, hsender, runSection, hobserve]
  rw [if_pos hreply]
  refine ⟨_, rfl, fun y hyx _ => by simp [hyx], ?_⟩
  exact reaches_appendDone (by simp) hpx (by simp) (by simp [hpx]) hrun

/-- The reply to an append makes the leader step down. -/
theorem reaches_appendReply_newer
    (id : Nat) (req : AppendEntriesRequest)
    (hsender : (c.procs x).sender p = .appendSent 0 none id req)
    (hreply : (id, Response.append reply) ∈ c.replies)
    (hpx : p ≠ x)
    (hleader : c.node x = leader)
    (hfollower : c.node p = follower)
    (hobserve : Node.observeHigherTerm reply.term [] leader = (some true, n, os)) :
    c.Reaches cfg x p ⟨n, follower⟩ := by
  subst hleader hfollower
  apply reaches_step (a := .appendReply x p reply []) rfl
  simp only [step, electionStep, senderStep, hsender, runSection, hobserve, if_true]
  rw [if_pos hreply]
  exact ⟨_, rfl, fun y hyx _ => by simp [hyx], reaches_senderReturns (by simp) (by simp [hpx])⟩

/-- `sendEntries` of the cluster does what `sendEntries` of the pair does. -/
theorem reaches_sendEntries
    (hsender : (c.procs x).sender p = .entries 0 none)
    (hpx : p ≠ x)
    (hleader : c.node x = leader)
    (hfollower : c.node p = follower) :
    c.Reaches cfg x p
      (Pair.sendEntries cfg.json (cfg.options x) (cfg.options p) ⟨leader, follower⟩).2 := by
  subst hleader hfollower
  have hxp : x ≠ p := hpx.symm
  have hpeer : (cfg.options p).nodeID = p := rfl
  apply reaches_step (a := .sendEntries x p) rfl
  simp only [step, electionStep, senderStep, hsender, Pair.sendEntries, hpeer]
  rcases (c.node x).buildAppendRequestLocked (cfg.options x) p with ⟨n, _ | req⟩
  · simp only [maxAppendRounds]
    refine ⟨_, rfl, fun y hyx _ => by simp [hyx], ?_⟩
    exact reaches_looping (r := 1) (by simp) (by simp) (by simp [hpx])
  · refine ⟨_, rfl, fun y hyx _ => by simp [hyx], ?_⟩
    -- The handler of the peer runs on the call that was just sent.
    obtain ⟨h, follower, os, hhandled⟩ :=
      run_nil (appendEntries_returns cfg.json (cfg.options p) req) (c.node p)
    apply reaches_step (a := .deliver c.calls.length []) rfl
    have hnode : (((c.setNode x n).send ⟨x, p, .append req⟩).setSender x p
        (.appendSent 0 none c.calls.length req)).node p = c.node p := by simp [hpx]
    have hcall : (((c.setNode x n).send ⟨x, p, .append req⟩).setSender x p
        (.appendSent 0 none c.calls.length req)).calls[c.calls.length]? =
          some ⟨x, p, .append req⟩ := by simp
    simp only [step, hcall, handle, runSection, hnode, hhandled]
    refine ⟨_, rfl, fun y _ hyp => by simp [hyp], ?_⟩
    rcases h with ⟨outcome, _ | reply⟩
    · exact reaches_append_unanswered c.calls.length req (by simp [answer]) (by simp [hxp])
        (by simp)
    · obtain ⟨higher, n₁, os₁, hobserve⟩ := run_nil (observeHigherTerm_returns reply.term) n
      cases higher with
      | true =>
          simp only [hobserve]
          exact reaches_appendReply_newer c.calls.length req (by simp [answer])
            (by simp [answer]) hpx (by simp [hxp]) (by simp) hobserve
      | false =>
          obtain ⟨outcome, n₂, os₂, hrun⟩ := run_nil
            (appendReplied_returns cfg.json (cfg.options x) p req.term req reply) n₁
          simp only [hobserve, hrun]
          exact reaches_appendReply c.calls.length (by simp [answer]) (by simp [answer]) hpx
            (by simp [hxp]) (by simp) hobserve hrun

end Entries

section Snapshots

variable {req : InstallSnapshotRequest} {reply : InstallSnapshotResponse}
variable {leader follower n : Node} {os : List Outcome}

/-- The last section of `sendSnapshot`. -/
theorem reaches_snapshotDone
    {inSync : Bool}
    (hsender : (c.procs x).sender p = .snapshotReplied none req)
    (hpx : p ≠ x)
    (hleader : c.node x = leader)
    (hfollower : c.node p = follower)
    (hrun : Node.snapshotReplied cfg.json (cfg.options x) p req.term req.lastIncludedIndex []
      leader = (some inSync, n, os)) :
    c.Reaches cfg x p ⟨n, follower⟩ := by
  subst hleader hfollower
  apply reaches_step (a := .snapshotDone x p []) rfl
  simp only [step, electionStep, senderStep, hsender, runSection, node_record, hrun]
  exact ⟨_, rfl, fun y hyx _ => by simp [hyx], reaches_senderReturns (by simp) (by simp [hpx])⟩

/-- A snapshot stays without an answer. -/
theorem reaches_snapshot_unanswered
    (id : Nat) (req : InstallSnapshotRequest)
    (hsender : (c.procs x).sender p = .snapshotSent none id req)
    (hleader : c.node x = leader)
    (hfollower : c.node p = follower) :
    c.Reaches cfg x p ⟨leader, follower⟩ := by
  apply reaches_step (a := .callFails x p) rfl
  simp only [step, electionStep, senderStep, hsender]
  exact ⟨_, rfl, by simp, reaches_senderReturns hleader hfollower⟩

/-- The reply to a snapshot says nothing about a newer term. -/
theorem reaches_snapshotReply
    {inSync : Bool} {n' : Node} {os' : List Outcome} (id : Nat)
    (hsender : (c.procs x).sender p = .snapshotSent none id req)
    (hreply : (id, Response.snapshot reply) ∈ c.replies)
    (hpx : p ≠ x)
    (hleader : c.node x = leader)
    (hfollower : c.node p = follower)
    (hobserve : Node.observeHigherTerm reply.term [] leader = (some false, n, os))
    (hrun : Node.snapshotReplied cfg.json (cfg.options x) p req.term req.lastIncludedIndex []
      n = (some inSync, n', os')) :
    c.Reaches cfg x p ⟨n', follower⟩ := by
  subst hleader hfollower
  apply reaches_step (a := .snapshotReply x p reply []) rfl
  simp only [step, electionStep, senderStep, hsender, runSection, hobserve]
  rw [if_pos hreply]
  refine ⟨_, rfl, fun y hyx _ => by simp [hyx], ?_⟩
  exact reaches_snapshotDone (by simp) hpx (by simp) (by simp [hpx]) hrun

/-- The reply to a snapshot makes the leader step down. -/
theorem reaches_snapshotReply_newer
    (id : Nat) (req : InstallSnapshotRequest)
    (hsender : (c.procs x).sender p = .snapshotSent none id req)
    (hreply : (id, Response.snapshot reply) ∈ c.replies)
    (hpx : p ≠ x)
    (hleader : c.node x = leader)
    (hfollower : c.node p = follower)
    (hobserve : Node.observeHigherTerm reply.term [] leader = (some true, n, os)) :
    c.Reaches cfg x p ⟨n, follower⟩ := by
  subst hleader hfollower
  apply reaches_step (a := .snapshotReply x p reply []) rfl
  simp only [step, electionStep, senderStep, hsender, runSection, hobserve, if_true]
  rw [if_pos hreply]
  exact ⟨_, rfl, fun y hyx _ => by simp [hyx], reaches_senderReturns (by simp) (by simp [hpx])⟩

/-- `sendSnapshot` of the cluster does what `sendSnapshot` of the pair does. -/
theorem reaches_sendSnapshot
    (hsender : (c.procs x).sender p = .snapshot none)
    (hpx : p ≠ x)
    (hleader : c.node x = leader)
    (hfollower : c.node p = follower) :
    c.Reaches cfg x p
      (Pair.sendSnapshot cfg.json (cfg.options x) (cfg.options p) ⟨leader, follower⟩).2 := by
  subst hleader hfollower
  have hxp : x ≠ p := hpx.symm
  have hpeer : (cfg.options p).nodeID = p := rfl
  apply reaches_step (a := .sendSnapshot x p) rfl
  simp only [step, electionStep, senderStep, hsender, Pair.sendSnapshot, hpeer]
  refine ⟨_, rfl, fun y hyx _ => by simp, ?_⟩
  generalize (c.node x).buildSnapshotRequest (cfg.options x) = req
  obtain ⟨h, follower, os, hhandled⟩ :=
    run_nil (installSnapshot_returns cfg.json req) (c.node p)
  apply reaches_step (a := .deliver c.calls.length []) rfl
  have hnode : ((c.send ⟨x, p, .snapshot req⟩).setSender x p
      (.snapshotSent none c.calls.length req)).node p = c.node p := by simp
  have hcall : ((c.send ⟨x, p, .snapshot req⟩).setSender x p
      (.snapshotSent none c.calls.length req)).calls[c.calls.length]? =
        some ⟨x, p, .snapshot req⟩ := by simp
  simp only [step, hcall, handle, runSection, hnode, hhandled]
  refine ⟨_, rfl, fun y _ hyp => by simp [hyp], ?_⟩
  rcases h with ⟨outcome, _ | reply⟩
  · exact reaches_snapshot_unanswered c.calls.length req (by simp [answer]) (by simp [hxp])
      (by simp)
  · obtain ⟨higher, n₁, os₁, hobserve⟩ :=
      run_nil (observeHigherTerm_returns reply.term) (c.node x)
    cases higher with
    | true =>
        simp only [hobserve]
        exact reaches_snapshotReply_newer c.calls.length req (by simp [answer])
          (by simp [answer]) hpx (by simp [hxp]) (by simp) hobserve
    | false =>
        obtain ⟨inSync, n₂, os₂, hrun⟩ := run_nil
          (snapshotReplied_returns cfg.json (cfg.options x) p req.term req.lastIncludedIndex) n₁
        cases inSync with
        | true =>
            simp only [hobserve, hrun]
            exact reaches_snapshotReply c.calls.length (by simp [answer]) (by simp [answer]) hpx
              (by simp [hxp]) (by simp) hobserve hrun
        | false =>
            simp only [hobserve, hrun]
            exact reaches_snapshotReply c.calls.length (by simp [answer]) (by simp [answer]) hpx
              (by simp [hxp]) (by simp) hobserve hrun

end Snapshots

/-- The checks of `replicatePeer`, before the request is built. -/
theorem reaches_checks
    {s : Pair}
    (hx : x ∈ cfg.members)
    (hp : p ∈ (cfg.options x).peers)
    (hidle : (c.procs x).sender p = .idle)
    (hleader : (c.node x).role = .leader)
    (h : ∀ c' : Cluster, (∀ y, c'.node y = c.node y) →
      (c'.procs x).sender p =
        (if (c.node x).peerNeedsSnapshot p then .snapshot none else .entries 0 none) →
      c'.Reaches cfg x p s) :
    c.Reaches cfg x p s := by
  apply reaches_step (a := .replicate x p none) rfl
  simp only [step, electionStep, senderStep]
  rw [if_pos ⟨hx, hp, hidle⟩]
  refine ⟨_, rfl, by simp, ?_⟩
  apply reaches_step (a := .checkLeader x p) rfl
  have hsender : ((c.setSender x p (.looping 0 none)).procs x).sender p = .looping 0 none := by
    simp
  have hisLeader : ((c.setSender x p (.looping 0 none)).node x).isLeader = true := by
    simp [Node.isLeader, hleader]
  simp only [step, electionStep, senderStep, hsender, hisLeader, if_true]
  refine ⟨_, rfl, by simp, ?_⟩
  apply reaches_step (a := .checkSnapshot x p) rfl
  have hsender' : (((c.setSender x p (.looping 0 none)).setSender x p
      (.leading 0 none)).procs x).sender p = .leading 0 none := by simp
  have hnode : ((c.setSender x p (.looping 0 none)).setSender x p (.leading 0 none)).node x =
      c.node x := by simp
  simp only [step, electionStep, senderStep, hsender', hnode]
  by_cases hneeds : (c.node x).peerNeedsSnapshot p = true
  · rw [if_pos hneeds]
    exact ⟨_, rfl, by simp, h _ (by simp) (by simp [hneeds])⟩
  · rw [if_neg hneeds]
    exact ⟨_, rfl, by simp, h _ (by simp) (by simp [hneeds])⟩

/-- One exchange. -/
theorem reaches_exchange
    (hx : x ∈ cfg.members)
    (hp : p ∈ (cfg.options x).peers)
    (hidle : (c.procs x).sender p = .idle)
    (hleader : (c.node x).role = .leader) :
    c.Reaches cfg x p
      (Pair.exchange cfg.json (cfg.options x) (cfg.options p) ⟨c.node x, c.node p⟩).2 := by
  have hpx : p ≠ x := (mem_peers.mp hp).2
  refine reaches_checks hx hp hidle hleader fun c' hnode hsender => ?_
  by_cases hneeds : (c.node x).peerNeedsSnapshot p = true
  · have hexchange : Pair.exchange cfg.json (cfg.options x) (cfg.options p)
        ⟨c.node x, c.node p⟩ = _ := if_pos hneeds
    rw [if_pos hneeds] at hsender
    rw [hexchange]
    exact reaches_sendSnapshot hsender hpx (hnode x) (hnode p)
  · have hexchange : Pair.exchange cfg.json (cfg.options x) (cfg.options p)
        ⟨c.node x, c.node p⟩ = _ := if_neg hneeds
    rw [if_neg hneeds] at hsender
    rw [hexchange]
    exact reaches_sendEntries hsender hpx (hnode x) (hnode p)

/-- As long as the leader leads, a leader and its peer go through their exchanges: there
are steps of the cluster, without a failure and without anybody else, that take the two
nodes where `Pair.exchanges` takes them. -/
theorem exchanges_reached
    (hx : x ∈ cfg.members)
    (hp : p ∈ (cfg.options x).peers)
    (hidle : (c.procs x).sender p = .idle)
    {k : Nat}
    (hleader : ∀ j < k, (Pair.exchanges cfg.json (cfg.options x) (cfg.options p) j
      ⟨c.node x, c.node p⟩).leader.role = .leader) :
    ∃ as c', c.exec cfg as = some c' ∧ (∀ a ∈ as, a.outcomes = []) ∧
      (⟨c'.node x, c'.node p⟩ : Pair) = Pair.exchanges cfg.json (cfg.options x)
        (cfg.options p) k ⟨c.node x, c.node p⟩ ∧
      ∀ y, y ≠ x → y ≠ p → c'.node y = c.node y := by
  induction k generalizing c with
  | zero =>
      exact ⟨[], c, rfl, by simp, rfl, fun _ _ _ => rfl⟩
  | succ k ih =>
      obtain ⟨as₁, c₁, hexec₁, hos₁, hidle₁, hself, hpeer, hframe₁⟩ :=
        reaches_exchange hx hp hidle (hleader 0 (Nat.succ_pos k))
      have hpair : (⟨c₁.node x, c₁.node p⟩ : Pair) =
          (Pair.exchange cfg.json (cfg.options x) (cfg.options p)
            ⟨c.node x, c.node p⟩).2 := by
        rw [hself, hpeer]
      obtain ⟨as₂, c₂, hexec₂, hos₂, hpair₂, hframe₂⟩ := ih hidle₁ (fun j hj => by
        rw [hpair, ← exchanges_succ]
        exact hleader (j + 1) (Nat.succ_lt_succ hj))
      refine ⟨as₁ ++ as₂, c₂, by rw [exec_append, hexec₁, Option.bind_some, hexec₂],
        fun a ha => (List.mem_append.mp ha).elim (hos₁ a) (hos₂ a), ?_,
        fun y hyx hyp => (hframe₂ y hyx hyp).trans (hframe₁ y hyx hyp)⟩
      rw [hpair₂, hpair, ← exchanges_succ]

theorem exchanges_reached_elected :
    ∃ c, init.exec (trio fun _ => 0) (elect "a" "b" 0 1) = some c ∧
      ∃ as c', c.exec (trio fun _ => 0) as = some c' ∧
        (⟨c'.node "a", c'.node "b"⟩ : Pair) = Pair.exchanges Json.compact
          ((trio fun _ => 0).options "a") ((trio fun _ => 0).options "b") 1
            ⟨c.node "a", c.node "b"⟩ := by
  have hrun : ((init.exec (trio fun _ => 0) (elect "a" "b" 0 1)).map fun c =>
      ((c.node "a").role, (c.procs "a").sender "b")) = some (.leader, .idle) := by
    decide +kernel
  obtain ⟨c, hexec, hstate⟩ := Option.map_eq_some_iff.mp hrun
  obtain ⟨hrole, hidle⟩ := Prod.mk.inj hstate
  have hmember : "a" ∈ (trio fun _ => 0).members := by decide
  have hpeer : "b" ∈ ((trio fun _ => 0).options "a").peers := by decide
  obtain ⟨as, c', hexec', -, hpair, -⟩ := exchanges_reached hmember hpeer hidle (k := 1)
    fun j hj => by
      obtain rfl : j = 0 := Nat.lt_one_iff.mp hj
      exact hrole
  exact ⟨c, hexec, as, c', hexec', hpair⟩

end Cluster

end LogReplicator
