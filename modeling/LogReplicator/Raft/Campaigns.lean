import LogReplicator.Raft.Voting

/-!
# Elections that nothing disturbs

A node whose log is not behind the logs of a majority wins an election if the requests and
the replies of that majority arrive and the writes of these nodes commit.  It may have to
run more than once, until its term is the highest of them.  The other nodes need not be up:
none of them takes a step.
-/

namespace LogReplicator

open Library

namespace Node

variable {n : Node}

theorem adoptTerm_newer
    {term : Nat}
    (hterm : n.currentTerm < term) :
    adoptTerm term [] n =
      (some (),
        { n with
          currentTerm := term
          votedFor := ""
          store := n.store.saveTermVote term "" }, []) := by
  unfold adoptTerm
  rw [Txn.run_read_bind, if_pos hterm]
  rfl

/-- A node in an earlier term votes for a candidate whose log is not behind its own. -/
theorem requestVote_granted
    {req : RequestVoteRequest}
    (hterm : n.currentTerm < req.term)
    (hlog : upToDate n.store req = true) :
    ∃ n', requestVote req [] n =
      (some ⟨.granted, some ⟨req.term, true⟩⟩, n', []) := by
  unfold requestVote
  rw [Txn.run_read_bind, if_neg hterm.not_gt, if_pos hterm]
  have hdown : stepDownLocked req.term "" [] n = _ := Txn.run_bind (adoptTerm_newer hterm)
  rw [Txn.run_bind hdown]
  have hlog' : upToDate (n.store.saveTermVote req.term "") req = true := hlog
  unfold voteLocked
  rw [Txn.run_read_bind, if_neg (by simp [hlog'])]
  exact ⟨_, rfl⟩

theorem observeHigherTerm_current
    {term : Nat}
    (hterm : term ≤ n.currentTerm) :
    observeHigherTerm term [] n = (some false, n, []) := by
  unfold observeHigherTerm
  rw [Txn.run_read_bind, if_pos hterm]
  rfl

/-- The candidate of the next term. -/
def asCandidate (o : Options) (n : Node) : Node :=
  { n with
    role := .candidate
    currentTerm := n.currentTerm + 1
    votedFor := o.nodeID
    leaderID := ""
    store := n.store.saveTermVote (n.currentTerm + 1) o.nodeID }

theorem becomeCandidate_next
    (o : Options)
    (hrole : n.role ≠ .leader)
    (hterms : n.currentTerm + 1 < maxTerms) :
    becomeCandidate o [] n =
      (some (some ⟨n.currentTerm + 1, n.store.lastIndexAndTerm.1, n.store.lastIndexAndTerm.2⟩),
        n.asCandidate o, []) := by
  have hnext : nextTerm n.currentTerm = n.currentTerm + 1 := Nat.mod_eq_of_lt hterms
  unfold becomeCandidate asCandidate
  rw [Txn.run_read_bind, if_neg hrole, ← hnext]
  rfl

theorem becomeLeader_candidate
    (o : Options)
    (hrole : n.role = .candidate) :
    becomeLeader o n.currentTerm [] n = (some true, n.asLeader o, []) := by
  unfold becomeLeader
  rw [Txn.run_read_bind, if_neg (by simp [hrole])]
  rfl

end Node

namespace Cluster

variable {cfg : Config} {c : Cluster} {x v : String}

/-- The log of `v` is not ahead of that of `x`: nothing but a newer term or a vote for
another candidate keeps `v` from voting for `x`. -/
def NotAhead (c : Cluster) (x v : String) : Prop :=
  Node.upToDate (c.node v).store
    ⟨(c.node x).currentTerm + 1, x, (c.node x).store.lastIndexAndTerm.1,
      (c.node x).store.lastIndexAndTerm.2⟩ = true

instance (c : Cluster) (x v : String) : Decidable (c.NotAhead x v) :=
  inferInstanceAs (Decidable (_ = true))

/-- `x` has `k` votes in its round and can still get those of `vs`. -/
structure Campaigning (x : String) (r : Candidacy) (k : Nat) (vs : List String)
    (c : Cluster) : Prop where
  election : ∃ waiting, (c.procs x).election = .polling ⟨r, waiting, k⟩ ∧
    ∀ v ∈ vs, ∃ id, (v, id) ∈ waiting ∧ c.calls[id]? = some (voteCall x r v)
  role : (c.node x).role = .candidate
  term : (c.node x).currentTerm = r.term
  log : (c.node x).store.lastIndexAndTerm = (r.lastLogIndex, r.lastLogTerm)
  willing : ∀ v ∈ vs, (c.node v).currentTerm < r.term ∧
    Node.upToDate (c.node v).store ⟨r.term, x, r.lastLogIndex, r.lastLogTerm⟩ = true

/-- The timer fires, and the requests go out. -/
theorem campaign_starts
    (hx : x ∈ cfg.members)
    (hidle : (c.procs x).election = .idle)
    (hrole : (c.node x).role ≠ .leader)
    (hterms : (c.node x).currentTerm + 1 < maxTerms)
    (vs : List String)
    (hvs : ∀ v ∈ vs, v ∈ (cfg.options x).peers ∧
      (c.node v).currentTerm ≤ (c.node x).currentTerm ∧ c.NotAhead x v)
    (halone : Node.majority (cfg.options x) ≤ 1 → vs = []) :
    ∃ c', c.step cfg (.campaign x []) = some c' ∧
      c'.Campaigning x ⟨(c.node x).currentTerm + 1, (c.node x).store.lastIndexAndTerm.1,
        (c.node x).store.lastIndexAndTerm.2⟩ 1 vs ∧
      ∀ y, y ≠ x → c'.node y = c.node y := by
  have hstep : c.step cfg (.campaign x []) = some (c.startElection cfg x []) := by
    simp only [step, electionStep]
    rw [if_pos ⟨hx, hidle⟩]
  refine ⟨_, hstep, ?_⟩
  have hother : ∀ v ∈ vs, v ≠ x := fun v hv => (mem_peers.mp (hvs v hv).1).2
  have hwilling : ∀ v ∈ vs, (c.node v).currentTerm < (c.node x).currentTerm + 1 ∧ _ :=
    fun v hv => ⟨Nat.lt_succ_of_le (hvs v hv).2.1, (hvs v hv).2.2⟩
  simp only [startElection, runSection, Node.becomeCandidate_next _ hrole hterms]
  split_ifs with hmajority
  · refine ⟨⟨⟨[], by simp, by simp [halone hmajority]⟩, ?_, ?_, ?_, by simp [halone hmajority]⟩,
      ?_⟩
    · simp [Node.asCandidate]
    · simp [Node.asCandidate]
    · simp [Node.asCandidate]
    · intro y hy
      simp [hy]
  · obtain ⟨hpeers, hcalls⟩ := requestVotes_snd
      (c := c.setNode x ((c.node x).asCandidate (cfg.options x))) (x := x)
      ⟨(c.node x).currentTerm + 1, (c.node x).store.lastIndexAndTerm.1,
        (c.node x).store.lastIndexAndTerm.2⟩ (cfg.options x).peers
    refine ⟨⟨⟨_, by rw [election_setElection, if_pos rfl], fun v hv => ?_⟩, ?_, ?_,
      ?_, fun v hv => ?_⟩, fun y hy => ?_⟩
    · have hmem : v ∈ List.map Prod.fst _ := hpeers ▸ (hvs v hv).1
      obtain ⟨w, hw, rfl⟩ := List.mem_map.mp hmem
      refine ⟨w.2, hw, ?_⟩
      rw [calls_setElection, requestVotes_fst]
      exact hcalls w hw
    · rw [node_setElection, requestVotes_fst]
      exact (congrArg Node.role (node_setNode c x x _)).trans (by simp [Node.asCandidate])
    · rw [node_setElection, requestVotes_fst]
      exact (congrArg Node.currentTerm (node_setNode c x x _)).trans
        (by simp [Node.asCandidate])
    · rw [node_setElection, requestVotes_fst]
      have hself : (c.setNode x ((c.node x).asCandidate (cfg.options x))).node x =
          (c.node x).asCandidate (cfg.options x) := by simp
      have hposition := congrArg (fun n : Node => n.store.lastIndexAndTerm) hself
      exact hposition
    · rw [node_setElection, requestVotes_fst]
      have hv' : (c.setNode x ((c.node x).asCandidate (cfg.options x))).node v = c.node v := by
        simp [hother v hv]
      exact hv' ▸ hwilling v hv
    · rw [node_setElection, requestVotes_fst]
      exact (node_setNode c x y _).trans (if_neg hy)

/-- A request arrives, is granted, and the reply arrives. -/
theorem vote_counted
    {r : Candidacy} {k : Nat} {vs : List String}
    (h : c.Campaigning x r k (v :: vs))
    (hvx : v ≠ x)
    (hvs : v ∉ vs)
    (hk : k < Node.majority (cfg.options x)) :
    ∃ id c', c.exec cfg [.deliver id [], .countVote x v id ⟨r.term, true⟩ []] = some c' ∧
      c'.Campaigning x r (k + 1) vs ∧ ∀ y, y ≠ v → c'.node y = c.node y := by
  obtain ⟨⟨waiting, helection, hwaiting⟩, hrole, hterm, hposition, hwilling⟩ := h
  obtain ⟨id, hid, hcall⟩ := hwaiting v List.mem_cons_self
  obtain ⟨hbehind, hlog⟩ := hwilling v List.mem_cons_self
  obtain ⟨n', hgranted⟩ := Node.requestVote_granted hbehind hlog
  let c₁ := (c.setNode v n').answer id (some (.vote ⟨r.term, true⟩))
  have hdeliver : c.step cfg (.deliver id []) = some c₁ := by
    simp only [step, hcall, handle, voteCall, runSection, hgranted]
    rfl
  have hself : c₁.node x = c.node x := by simp [c₁, hvx.symm]
  have hpolling : (c₁.procs x).election = .polling ⟨r, waiting, k⟩ :=
    (election_setNode c v x n').trans helection
  have hreply : (id, Response.vote ⟨r.term, true⟩) ∈ c₁.replies := by simp [c₁, answer]
  let c₂ := c₁.setElection x (.polling ⟨r, waiting.erase (v, id), k + 1⟩)
  have hcount : c₁.step cfg (.countVote x v id ⟨r.term, true⟩ []) = some c₂ := by
    have hobserve : Node.observeHigherTerm r.term [] (c₁.node x) = (some false, c₁.node x, []) :=
      Node.observeHigherTerm_current (by rw [hself, hterm])
    simp only [step, electionStep, hpolling]
    rw [if_pos ⟨hid, hk, hreply⟩, runSection_of_some hobserve]
    rfl
  have hnode : ∀ y, y ≠ v → c₂.node y = c.node y := by
    intro y hy
    simp [c₂, c₁, hy]
  have hcalls : c₂.calls = c.calls := rfl
  have helection₂ : (c₂.procs x).election =
      .polling ⟨r, waiting.erase (v, id), k + 1⟩ := by
    rw [election_setElection, if_pos rfl]
  refine ⟨id, c₂, by simp [exec, hdeliver, hcount], ⟨⟨_, helection₂, fun u hu => ?_⟩,
    ?_, ?_, ?_, fun u hu => ?_⟩, hnode⟩
  · have huv : u ≠ v := fun he => hvs (he ▸ hu)
    obtain ⟨id', hid', hcall'⟩ := hwaiting u (List.mem_cons_of_mem v hu)
    refine ⟨id', ?_, hcalls ▸ hcall'⟩
    exact (List.mem_erase_of_ne fun he => huv (Prod.mk.inj he).1).mpr hid'
  · rw [hnode x hvx.symm, hrole]
  · rw [hnode x hvx.symm, hterm]
  · rw [hnode x hvx.symm, hposition]
  · rw [hnode u fun he => hvs (he ▸ hu)]
    exact hwilling u (List.mem_cons_of_mem v hu)

/-- One vote after the other. -/
theorem votes_counted
    {r : Candidacy} {k : Nat} {vs : List String}
    (h : c.Campaigning x r k vs)
    (hx : x ∉ vs)
    (hnodup : vs.Nodup)
    (hk : k + vs.length ≤ Node.majority (cfg.options x)) :
    ∃ as c', c.exec cfg as = some c' ∧ c'.Campaigning x r (k + vs.length) [] ∧
      (∀ a ∈ as, a.outcomes = []) ∧ ∀ y, y ∉ vs → c'.node y = c.node y := by
  induction vs generalizing c k with
  | nil =>
      exact ⟨[], c, rfl, h, by simp, fun _ _ => rfl⟩
  | cons v vs ih =>
      rw [List.length_cons] at hk
      obtain ⟨hvs, hrest⟩ := List.nodup_cons.mp hnodup
      have hmore : k < Node.majority (cfg.options x) := by omega
      obtain ⟨id, c₁, hexec₁, h₁, hframe₁⟩ := vote_counted h
        (fun he => hx (he ▸ List.mem_cons_self)) hvs hmore
      obtain ⟨as, c₂, hexec₂, h₂, hos, hframe₂⟩ := ih h₁
        (fun he => hx (List.mem_cons_of_mem v he)) hrest (by omega)
      refine ⟨_ ++ as, c₂, by rw [exec_append, hexec₁, Option.bind_some, hexec₂], ?_, ?_,
        fun y hy => ?_⟩
      · rwa [List.length_cons, Nat.add_comm vs.length 1, ← Nat.add_assoc]
      · simpa [Action.outcomes] using hos
      · rw [List.mem_cons, not_or] at hy
        exact (hframe₂ y hy.2).trans (hframe₁ y hy.1)

theorem campaign_won
    {r : Candidacy} {k : Nat}
    (h : c.Campaigning x r k [])
    (hk : Node.majority (cfg.options x) ≤ k) :
    ∃ c', c.step cfg (.winElection x []) = some c' ∧ (c'.node x).role = .leader ∧
      (c'.node x).currentTerm = r.term ∧ ∀ y, y ≠ x → c'.node y = c.node y := by
  obtain ⟨⟨waiting, helection, -⟩, hrole, hterm, -, -⟩ := h
  have hlead := Node.becomeLeader_candidate (cfg.options x) hrole
  rw [hterm] at hlead
  simp only [step, electionStep, helection]
  rw [if_pos hk]
  refine ⟨_, rfl, ?_⟩
  simp only [runSection, hlead]
  refine ⟨?_, ?_, fun y hy => ?_⟩
  · simp [Node.asLeader]
  · simp [Node.asLeader, hterm]
  · simp [hy]

/-- A node in the highest term of a majority wins its next election. -/
theorem next_election_won
    (hx : x ∈ cfg.members)
    (hidle : (c.procs x).election = .idle)
    (hrole : (c.node x).role ≠ .leader)
    (hterms : (c.node x).currentTerm + 1 < maxTerms)
    {voters : List String}
    (hnodup : voters.Nodup)
    (hvoters : ∀ v ∈ voters, v ∈ (cfg.options x).peers ∧
      (c.node v).currentTerm ≤ (c.node x).currentTerm ∧ c.NotAhead x v)
    (hmajority : Node.majority (cfg.options x) ≤ voters.length + 1) :
    ∃ as c', c.exec cfg as = some c' ∧ (∀ a ∈ as, a.outcomes = []) ∧
      (c'.node x).role = .leader ∧
      (c'.node x).currentTerm = (c.node x).currentTerm + 1 ∧
      ∀ y, y ≠ x → y ∉ voters → c'.node y = c.node y := by
  -- As many votes as are needed, and no more: the round ends with the majority.
  let vs := voters.take (Node.majority (cfg.options x) - 1)
  have hsub : ∀ v ∈ vs, v ∈ voters := fun v hv => List.mem_of_mem_take hv
  have hpos : 1 ≤ Node.majority (cfg.options x) := Nat.succ_le_succ (Nat.zero_le _)
  have hlength : 1 + vs.length = Node.majority (cfg.options x) := by
    simp only [vs, List.length_take]
    omega
  obtain ⟨c₁, hstep₁, h₁, hframe₁⟩ := campaign_starts hx hidle hrole hterms vs
    (fun v hv => hvoters v (hsub v hv))
    (fun hone => List.length_eq_zero_iff.mp (by omega))
  obtain ⟨as, c₂, hexec₂, h₂, hos, hframe₂⟩ := votes_counted h₁
    (fun hmem => (mem_peers.mp (hvoters x (hsub x hmem)).1).2 rfl)
    (hnodup.sublist (List.take_sublist _ _)) hlength.le
  obtain ⟨c₃, hstep₃, hleader, hterm, hframe₃⟩ := campaign_won h₂ hlength.ge
  refine ⟨.campaign x [] :: (as ++ [.winElection x []]), c₃, ?_, ?_, hleader, hterm,
    fun y hyx hy => ?_⟩
  · simp only [exec, hstep₁]
    rw [exec_append, hexec₂]
    simp [exec, hstep₃]
  · simpa [Action.outcomes, or_imp, forall_and] using hos
  · rw [hframe₃ y hyx, hframe₂ y fun hmem => hy (hsub y hmem), hframe₁ y hyx]

variable (cfg) in
/-- The calls of a round can all fail. -/
theorem votes_missed
    {r : Candidacy} {k : Nat} {waiting : List (String × Nat)}
    (helection : (c.procs x).election = .polling ⟨r, waiting, k⟩) :
    ∃ as c', c.exec cfg as = some c' ∧ (∀ a ∈ as, a.outcomes = []) ∧
      (c'.procs x).election = .polling ⟨r, [], k⟩ ∧ ∀ y, c'.node y = c.node y := by
  induction waiting generalizing c with
  | nil =>
      exact ⟨[], c, rfl, by simp, helection, fun _ => rfl⟩
  | cons w waiting ih =>
      have hstep : c.step cfg (.missVote x w.1 w.2) =
          some (c.setElection x (.polling ⟨r, waiting, k⟩)) := by
        simp only [step, electionStep, helection]
        rw [if_pos List.mem_cons_self]
        simp
      obtain ⟨as, c', hexec, hos, hdone, hnode⟩ := ih
        (c := c.setElection x (.polling ⟨r, waiting, k⟩)) (by simp)
      refine ⟨.missVote x w.1 w.2 :: as, c', by simp [exec, hstep, hexec], ?_, hdone,
        fun y => (hnode y).trans (node_setElection c x y _)⟩
      simpa [Action.outcomes] using hos

/-- A node that hears from nobody gives up its candidacy, in the next term. -/
theorem campaign_lost
    (hx : x ∈ cfg.members)
    (hidle : (c.procs x).election = .idle)
    (hrole : (c.node x).role ≠ .leader)
    (hterms : (c.node x).currentTerm + 1 < maxTerms)
    (hmajority : 1 < Node.majority (cfg.options x)) :
    ∃ as c', c.exec cfg as = some c' ∧ (∀ a ∈ as, a.outcomes = []) ∧
      (c'.procs x).election = .idle ∧ (c'.node x).role = .candidate ∧
      (c'.node x).currentTerm = (c.node x).currentTerm + 1 ∧
      (c'.node x).store.lastIndexAndTerm = (c.node x).store.lastIndexAndTerm ∧
      ∀ y, y ≠ x → c'.node y = c.node y := by
  obtain ⟨c₁, hstep₁, h₁, hframe₁⟩ := campaign_starts hx hidle hrole hterms []
    (by simp) fun _ => rfl
  obtain ⟨waiting, helection, -⟩ := h₁.election
  obtain ⟨as, c₂, hexec₂, hos, hpolling, hnode⟩ := votes_missed cfg helection
  have hstep₃ : c₂.step cfg (.loseElection x) = some (c₂.setElection x .idle) := by
    simp only [step, electionStep, hpolling]
    rw [if_pos ⟨trivial, hmajority⟩]
  refine ⟨.campaign x [] :: (as ++ [.loseElection x]), c₂.setElection x .idle, ?_, ?_, by simp,
    ?_, ?_, ?_, fun y hy => ?_⟩
  · simp only [exec, hstep₁]
    rw [exec_append, hexec₂]
    simp [exec, hstep₃]
  · simpa [Action.outcomes, or_imp, forall_and] using hos
  · rw [node_setElection, hnode, h₁.role]
  · rw [node_setElection, hnode, h₁.term]
  · rw [node_setElection, hnode, h₁.log]
  · rw [node_setElection, hnode, hframe₁ y hy]

theorem NotAhead.of_eq
    {c' : Cluster}
    (h : c.NotAhead x v)
    (hx : (c'.node x).store.lastIndexAndTerm = (c.node x).store.lastIndexAndTerm)
    (hv : c'.node v = c.node v) :
    c'.NotAhead x v := by
  unfold NotAhead Node.upToDate at h ⊢
  rwa [hx, hv]

/-- Who can vote is a peer, so one vote is not a majority. -/
theorem one_lt_majority
    (hv : v ∈ (cfg.options x).peers) :
    1 < Node.majority (cfg.options x) := by
  have hpos := List.length_pos_of_mem hv
  unfold Node.majority
  omega

/-- From any state of the cluster, a node that is not the leader and has finished its last
election can become leader in steps in which no write fails, if a majority, itself
included, has no log that is ahead of its own and is not in the last term, `2 ^ 64 - 1`.
Nobody else takes part, and the new term is later than the terms of that majority. -/
theorem election_elects
    (hx : x ∈ cfg.members)
    (hidle : (c.procs x).election = .idle)
    (hrole : (c.node x).role ≠ .leader)
    {voters : List String}
    (hnodup : voters.Nodup)
    (hvoters : ∀ v ∈ voters, v ∈ (cfg.options x).peers ∧ c.NotAhead x v)
    (hmajority : Node.majority (cfg.options x) ≤ voters.length + 1)
    {highest : Nat}
    (hhighest : ∀ y ∈ x :: voters, (c.node y).currentTerm ≤ highest)
    (hterms : highest + 1 < maxTerms) :
    ∃ as c', c.exec cfg as = some c' ∧ (∀ a ∈ as, a.outcomes = []) ∧
      (c'.node x).role = .leader ∧
      (∀ y ∈ x :: voters, (c.node y).currentTerm < (c'.node x).currentTerm) ∧
      ∀ y, y ≠ x → y ∉ voters → c'.node y = c.node y := by
  -- The induction is on the terms that `x` is behind; each lost election makes up for one.
  obtain ⟨behind, hbehind⟩ : ∃ d, (c.node x).currentTerm + d = highest :=
    ⟨_, Nat.add_sub_cancel' (hhighest x List.mem_cons_self)⟩
  induction behind generalizing c with
  | zero =>
      obtain rfl : (c.node x).currentTerm = highest := hbehind
      obtain ⟨as, c', hexec, hos, hleader, hterm, hframe⟩ := next_election_won hx hidle hrole
        hterms hnodup (fun v hv => ⟨(hvoters v hv).1,
          hhighest v (List.mem_cons_of_mem x hv), (hvoters v hv).2⟩) hmajority
      refine ⟨as, c', hexec, hos, hleader, fun y hy => ?_, hframe⟩
      rw [hterm]
      exact Nat.lt_succ_of_le (hhighest y hy)
  | succ behind ih =>
      by_cases hready : ∀ v ∈ voters, (c.node v).currentTerm ≤ (c.node x).currentTerm
      · obtain ⟨as, c', hexec, hos, hleader, hterm, hframe⟩ := next_election_won hx hidle hrole
          (by omega) hnodup
          (fun v hv => ⟨(hvoters v hv).1, hready v hv, (hvoters v hv).2⟩) hmajority
        refine ⟨as, c', hexec, hos, hleader, ?_, hframe⟩
        rw [hterm]
        exact List.forall_mem_cons.mpr
          ⟨Nat.lt_succ_self _, fun v hv => Nat.lt_succ_of_le (hready v hv)⟩
      · push Not at hready
        obtain ⟨w, hw, -⟩ := hready
        obtain ⟨as₁, c₁, hexec₁, hos₁, hidle₁, hrole₁, hterm₁, hlog₁, hframe₁⟩ :=
          campaign_lost hx hidle hrole (by omega) (one_lt_majority (hvoters w hw).1)
        have hother : ∀ v ∈ voters, c₁.node v = c.node v := fun v hv =>
          hframe₁ v (mem_peers.mp (hvoters v hv).1).2
        have hhighest₁ : ∀ y ∈ x :: voters, (c₁.node y).currentTerm ≤ highest :=
          List.forall_mem_cons.mpr ⟨by omega, fun v hv => by
            rw [hother v hv]
            exact hhighest v (List.mem_cons_of_mem x hv)⟩
        obtain ⟨as₂, c₂, hexec₂, hos₂, hleader, hlater, hframe₂⟩ := ih hidle₁
          (by rw [hrole₁]; decide)
          (fun v hv => ⟨(hvoters v hv).1, (hvoters v hv).2.of_eq hlog₁ (hother v hv)⟩)
          hhighest₁ (by omega)
        obtain ⟨hself, hvotes⟩ := List.forall_mem_cons.mp hlater
        refine ⟨as₁ ++ as₂, c₂, by rw [exec_append, hexec₁, Option.bind_some, hexec₂],
          fun a ha => (List.mem_append.mp ha).elim (hos₁ a) (hos₂ a), hleader,
          List.forall_mem_cons.mpr ⟨by omega, fun v hv => ?_⟩,
          fun y hyx hy => (hframe₂ y hyx hy).trans (hframe₁ y hyx)⟩
        rw [← hother v hv]
        exact hvotes v hv

/-- `a` leads term 1 with the vote of `b`, and `c` has heard of none of it. -/
theorem election_elects_unaware :
    ∃ c, init.exec (trio fun _ => 0) (elect "a" "b" 0 1) = some c ∧
      (c.node "a").role = .leader ∧ (c.node "c").currentTerm = 0 ∧
      ∃ as c', c.exec (trio fun _ => 0) as = some c' ∧ (c'.node "c").role = .leader ∧
        (c.node "b").currentTerm < (c'.node "c").currentTerm := by
  have hrun : ((init.exec (trio fun _ => 0) (elect "a" "b" 0 1)).map fun c =>
      ((c.node "a").role, (c.procs "c").election, (c.node "c").role,
        decide (c.NotAhead "c" "b"), (c.node "c").currentTerm, (c.node "b").currentTerm)) =
      some (.leader, .idle, .follower, true, 0, 1) := by
    decide +kernel
  obtain ⟨c, hexec, hstate⟩ := Option.map_eq_some_iff.mp hrun
  simp only [Prod.mk.injEq, decide_eq_true_eq] at hstate
  obtain ⟨hleader, hidle, hrole, hlog, hc, hb⟩ := hstate
  have hmember : "c" ∈ (trio fun _ => 0).members := by decide
  have hvoters : ∀ v ∈ ["b"], v ∈ ((trio fun _ => 0).options "c").peers ∧ c.NotAhead "c" v :=
    List.forall_mem_singleton.mpr ⟨by decide, hlog⟩
  have hhighest : ∀ y ∈ ["c", "b"], (c.node y).currentTerm ≤ 1 := by simp [hc, hb]
  obtain ⟨as, c', hexec', -, hwon, hlater, -⟩ := election_elects hmember hidle
    (by rw [hrole]; decide) (by decide) hvoters (by decide) hhighest (by decide)
  exact ⟨c, hexec, hleader, hc, as, c', hexec', hwon, hlater "b" (by simp)⟩

end Cluster

end LogReplicator
