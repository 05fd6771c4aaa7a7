import LogReplicator.Raft.Steps

/-!
# One leader per term

A vote counts once it is on disk.  The votes given so far are kept as a ghost
relation: `g v t k` says that `v` saved a vote for `k` in term `t`.  Failing
writes leave memory ahead of the disk, but a vote is sent and a leader is made
only when the vote was saved.
-/

namespace LogReplicator

open Library

/-- The vote a change puts on disk. -/
def Label.ballot (x : String) : Label → Option (Nat × String)
  | .vote req true => some (req.term, req.candidateId)
  | .campaign term true => some (term, x)
  | _ => none

/-- The changes that touch neither the term nor the vote nor the role. -/
def Label.KeepsVote : Label → Prop
  | .raise _ _ => False
  | .follow _ => False
  | .campaign _ _ => False
  | .vote _ _ => False
  | .lead _ _ _ _ => False
  | .restart => False
  | _ => True

/-- The saved votes of a node and what it has in memory and on disk. -/
structure Node.Votes (n : Node) (g : Nat → String → Prop) : Prop where
  unique : ∀ t k k', g t k → g t k' → k = k'
  named : ∀ t k, g t k → k ≠ ""
  durable : ∀ t k, g t k →
    t < n.store.currentTerm ∨ (t = n.store.currentTerm ∧ k = n.store.votedFor)
  le : n.store.currentTerm ≤ n.currentTerm
  agree : n.store.currentTerm = n.currentTerm →
    n.store.votedFor = "" ∨ n.store.votedFor = n.votedFor
  recorded : n.store.votedFor ≠ "" → g n.store.currentTerm n.store.votedFor

/-- The elections a node has won. -/
structure Node.Leads (n : Node) (won : Nat → Prop) : Prop where
  leader : n.role = .leader → won n.currentTerm
  spent : ∀ t, won t →
    t ≤ n.store.currentTerm ∧ (n.currentTerm = t → n.role ≠ .candidate)

section Moves

variable {env : Env} {l : Label} {n n' : Node} {x : String}
variable {g : Nat → String → Prop} {won : Nat → Prop}

theorem Move.vote_eq
    (hmove : Move env l n n')
    (hl : l.KeepsVote) :
    n'.role = n.role ∧ n'.currentTerm = n.currentTerm ∧ n'.votedFor = n.votedFor ∧
      n'.store.currentTerm = n.store.currentTerm ∧
      n'.store.votedFor = n.store.votedFor := by
  cases hmove with
  | raise _ => exact hl.elim
  | raiseUnsaved _ _ => exact hl.elim
  | follow => exact hl.elim
  | campaign _ _ => exact hl.elim
  | campaignUnsaved _ _ _ => exact hl.elim
  | vote _ _ _ => exact hl.elim
  | voteUnsaved _ _ _ => exact hl.elim
  | lead _ _ => exact hl.elim
  | restart => exact hl.elim
  | progress _ =>
      unfold Node.recordPeerProgressLocked
      split_ifs <;> exact ⟨rfl, rfl, rfl, rfl, rfl⟩
  | apply _ _ _ _ =>
      rw [Command.applyTo_eq]
      exact ⟨rfl, rfl, rfl, rfl, rfl⟩
  | _ => exact ⟨rfl, rfl, rfl, rfl, rfl⟩

theorem nextTerm_eq
    (hsolo : ¬ env.solo)
    (h : env.solo ∨ n.currentTerm + 1 < maxTerms) :
    nextTerm n.currentTerm = n.currentTerm + 1 :=
  Nat.mod_eq_of_lt (h.resolve_left hsolo)

/-- A vote saved in the current term is the vote in memory. -/
theorem Node.Votes.current
    (h : n.Votes g)
    {k : String} (hk : g n.currentTerm k) :
    n.votedFor = k := by
  rcases h.durable _ _ hk with hlt | ⟨heq, hvoted⟩
  · exact absurd (lt_of_lt_of_le hlt h.le) (lt_irrefl _)
  · rcases h.agree heq.symm with hempty | hagree
    · exact absurd (hvoted.trans hempty) (h.named _ _ hk)
    · rw [← hagree, hvoted]

/-- Saved votes lie in terms up to the one on disk. -/
theorem Node.Votes.le_of_vote
    (h : n.Votes g)
    {t : Nat} {k : String} (hk : g t k) :
    t ≤ n.currentTerm := by
  rcases h.durable t k hk with hlt | ⟨rfl, -⟩
  · exact (hlt.trans_le h.le).le
  · exact h.le

/-- A new term with no vote in it yet. -/
theorem Node.Votes.raise
    (h : n.Votes g)
    (hterm : n.currentTerm < n'.currentTerm)
    (hsaved : n'.store.currentTerm = n'.currentTerm ∧ n'.store.votedFor = "" ∨
      n'.store.currentTerm = n.store.currentTerm ∧
        n'.store.votedFor = n.store.votedFor) :
    n'.Votes g := by
  rcases hsaved with ⟨hd, hv⟩ | ⟨hd, hv⟩
  · refine ⟨h.unique, h.named, fun t k hk => Or.inl ?_, hd.le, fun _ => Or.inl hv,
      fun hne => absurd hv hne⟩
    rw [hd]
    exact lt_of_le_of_lt (h.le_of_vote hk) hterm
  · have hlt : n'.store.currentTerm < n'.currentTerm := by
      rw [hd]
      exact lt_of_le_of_lt h.le hterm
    exact ⟨h.unique, h.named, by rw [hd, hv]; exact h.durable, hlt.le,
      fun he => absurd he hlt.ne, by rw [hd, hv]; exact h.recorded⟩

/-- A vote is saved in the current term. -/
theorem Node.Votes.save
    {k : String} {b : Option (Nat × String)}
    (h : n.Votes g)
    (hb : b = some (n'.currentTerm, k))
    (hterm : n.currentTerm ≤ n'.currentTerm)
    (hk : k ≠ "")
    (hfree : n.currentTerm = n'.currentTerm → n.votedFor = "" ∨ n.votedFor = k)
    (hdisk : n'.store.currentTerm = n'.currentTerm)
    (hvoted : n'.store.votedFor = k)
    (hmemory : n'.votedFor = k) :
    n'.Votes fun t k' => g t k' ∨ b = some (t, k') := by
  subst hb
  -- an older vote in the same term is this very vote
  have hsame : ∀ k', g n'.currentTerm k' → k' = k := by
    intro k' hk'
    have heq : n.currentTerm = n'.currentTerm := le_antisymm hterm (h.le_of_vote hk')
    rw [← heq] at hk'
    have hvoted' := h.current hk'
    rcases hfree heq with hfree | hfree
    · exact absurd (hvoted'.symm.trans hfree) (h.named _ _ hk')
    · exact hvoted'.symm.trans hfree
  refine ⟨?_, ?_, ?_, hdisk.le, fun _ => Or.inr (hvoted.trans hmemory.symm),
    fun _ => Or.inr (by rw [hdisk, hvoted])⟩
  · rintro t k₁ k₂ (h₁ | h₁) (h₂ | h₂)
    · exact h.unique t k₁ k₂ h₁ h₂
    · cases h₂
      exact hsame k₁ h₁
    · cases h₁
      exact (hsame k₂ h₂).symm
    · cases h₁
      cases h₂
      rfl
  · rintro t k' (hk' | hk')
    · exact h.named t k' hk'
    · cases hk'
      exact hk
  · rintro t k' (hk' | hk')
    · rw [hdisk, hvoted]
      rcases (h.le_of_vote hk').trans hterm |>.lt_or_eq with hlt | rfl
      · exact Or.inl hlt
      · exact Or.inr ⟨rfl, hsame k' hk'⟩
    · cases hk'
      exact Or.inr ⟨hdisk.symm, hvoted.symm⟩

theorem Move.votes
    (hmove : Move env l n n')
    (hsolo : ¬ env.solo)
    (hx : env.options.nodeID ≠ "")
    (hl : ∀ req saved, l = .vote req saved → req.candidateId ≠ "")
    (h : n.Votes g) :
    n'.Votes fun t k => g t k ∨ l.ballot env.options.nodeID = some (t, k) := by
  have hweaken : l.ballot env.options.nodeID = none → n'.Votes g →
      n'.Votes fun t k => g t k ∨ l.ballot env.options.nodeID = some (t, k) := by
    intro hnone hvotes
    simpa [hnone] using hvotes
  have hself := hmove
  cases hmove with
  | raise hterm => exact hweaken rfl (h.raise hterm (Or.inl ⟨rfl, rfl⟩))
  | raiseUnsaved _ hterm => exact hweaken rfl (h.raise hterm (Or.inr ⟨rfl, rfl⟩))
  | follow =>
      exact hweaken rfl ⟨h.unique, h.named, h.durable, h.le, h.agree, h.recorded⟩
  | campaign _ hterm =>
      have hlt : n.currentTerm < nextTerm n.currentTerm := by
        rw [nextTerm_eq hsolo hterm]
        exact Nat.lt_succ_self _
      exact h.save rfl hlt.le hx (fun he => absurd he hlt.ne) rfl rfl rfl
  | campaignUnsaved _ _ hterm =>
      refine hweaken rfl (h.raise ?_ (Or.inr ⟨rfl, rfl⟩))
      show n.currentTerm < nextTerm n.currentTerm
      rw [nextTerm_eq hsolo hterm]
      exact Nat.lt_succ_self _
  | vote hterm hfree _ =>
      refine h.save ?_ le_rfl (hl _ _ rfl) (fun _ => hfree) rfl rfl rfl
      simp [Label.ballot, hterm]
  | voteUnsaved _ hterm hfree =>
      refine hweaken rfl ⟨h.unique, h.named, h.durable, h.le, fun hd => ?_, h.recorded⟩
      rcases h.agree hd with hempty | hagree
      · exact Or.inl hempty
      · exact hfree.imp (fun he => hagree.trans he) fun he => hagree.trans he
  | lead _ _ =>
      exact hweaken rfl ⟨h.unique, h.named, h.durable, h.le, h.agree, h.recorded⟩
  | restart =>
      exact hweaken rfl ⟨h.unique, h.named, h.durable, le_rfl, fun _ => Or.inr rfl,
        h.recorded⟩
  | _ =>
      obtain ⟨-, hterm, hvoted, hdterm, hdvoted⟩ := hself.vote_eq trivial
      refine hweaken rfl ⟨h.unique, h.named, ?_, ?_, ?_, ?_⟩
      · rw [hdterm, hdvoted]
        exact h.durable
      · rw [hdterm, hterm]
        exact h.le
      · rw [hdterm, hterm, hdvoted, hvoted]
        exact h.agree
      · rw [hdterm, hdvoted]
        exact h.recorded

theorem Move.leads
    (hmove : Move env l n n')
    (hsolo : ¬ env.solo)
    (hvotes : n.Votes g)
    (h : n.Leads won) :
    n'.Leads fun t => won t ∨ ∃ last s log, l = .lead t last s log := by
  -- a new term is above every term the node ever won
  have hlater : n.currentTerm < n'.currentTerm →
      n.store.currentTerm ≤ n'.store.currentTerm → n'.role ≠ .leader →
      n'.Leads won := by
    intro hlt hle hrole
    refine ⟨fun hr => absurd hr hrole, fun t ht => ?_⟩
    have hspent := (h.spent t ht).1
    have hle' := hvotes.le
    exact ⟨hspent.trans hle, fun he => by omega⟩
  have hweaken : (∀ t last s log, l ≠ .lead t last s log) → n'.Leads won →
      n'.Leads fun t => won t ∨ ∃ last s log, l = .lead t last s log := by
    intro hl hleads
    refine ⟨fun hr => Or.inl (hleads.leader hr), ?_⟩
    rintro t (ht | ⟨last, s, log, he⟩)
    · exact hleads.spent t ht
    · exact absurd he (hl t last s log)
  have hself := hmove
  cases hmove with
  | raise hterm =>
      exact hweaken (by simp) (hlater hterm (hvotes.le.trans hterm.le) (by simp))
  | raiseUnsaved _ hterm => exact hweaken (by simp) (hlater hterm le_rfl (by simp))
  | follow =>
      exact hweaken (by simp) ⟨by simp, fun t ht => ⟨(h.spent t ht).1, by simp⟩⟩
  | campaign _ hterm =>
      have hlt : n.currentTerm < nextTerm n.currentTerm := by
        rw [nextTerm_eq hsolo hterm]
        exact Nat.lt_succ_self _
      exact hweaken (by simp) (hlater hlt (hvotes.le.trans hlt.le) (by simp))
  | campaignUnsaved _ _ hterm =>
      have hlt : n.currentTerm < nextTerm n.currentTerm := by
        rw [nextTerm_eq hsolo hterm]
        exact Nat.lt_succ_self _
      exact hweaken (by simp) (hlater hlt le_rfl (by simp))
  | vote _ _ _ =>
      exact hweaken (by simp) ⟨h.leader,
        fun t ht => ⟨(h.spent t ht).1.trans hvotes.le, (h.spent t ht).2⟩⟩
  | voteUnsaved _ _ _ => exact hweaken (by simp) ⟨h.leader, h.spent⟩
  | lead hrole hvote =>
      obtain ⟨hsaved, -⟩ := hvote.resolve_left hsolo
      refine ⟨fun _ => Or.inr ⟨_, _, _, rfl⟩, ?_⟩
      rintro t (ht | ⟨last, s, log, hl⟩)
      · exact ⟨(h.spent t ht).1, by simp [Node.asLeader]⟩
      · cases hl
        exact ⟨hsaved.ge, by simp [Node.asLeader]⟩
  | restart =>
      exact hweaken (by simp) ⟨by simp [Node.new],
        fun t ht => ⟨(h.spent t ht).1, by simp [Node.new]⟩⟩
  | _ =>
      obtain ⟨hrole, hterm, -, hdterm, -⟩ := hself.vote_eq trivial
      refine hweaken (by simp) ⟨?_, fun t ht => ?_⟩
      · rw [hrole, hterm]
        exact h.leader
      · rw [hrole, hterm, hdterm]
        exact h.spent t ht

/-- A candidate that wins has saved its own vote. -/
theorem Move.self_vote
    {t s : Nat} {last : Nat × Nat} {log : List Entry}
    (hmove : Move env (.lead t last s log) n n')
    (hsolo : ¬ env.solo)
    (hx : env.options.nodeID ≠ "")
    (h : n.Votes g) :
    g t env.options.nodeID := by
  cases hmove with
  | lead _ hvote =>
      obtain ⟨hterm, hvoted⟩ := hvote.resolve_left hsolo
      have hrecorded := h.recorded (hvoted ▸ hx)
      rwa [hterm, hvoted] at hrecorded

end Moves

/-- A majority of the members. -/
structure Config.Quorum (cfg : Config) (q : Finset String) : Prop where
  members : ∀ v ∈ q, v ∈ cfg.members
  majority : cfg.members.length < 2 * q.card

section Quorums

variable {cfg : Config} {x : String}

theorem Config.Quorum.meet
    {q q' : Finset String}
    (h : cfg.Quorum q)
    (h' : cfg.Quorum q') :
    ∃ v ∈ q, v ∈ q' := by
  have hsub : ∀ q, cfg.Quorum q → q ⊆ cfg.members.toFinset := fun q hq v hv =>
    List.mem_toFinset.mpr (hq.members v hv)
  have hcard : cfg.members.toFinset.card < q.card + q'.card := by
    rw [List.toFinset_card_of_nodup cfg.nodup]
    have := h.majority
    have := h'.majority
    omega
  obtain ⟨v, hv⟩ :=
    Finset.inter_nonempty_of_card_lt_card_add_card (hsub q h) (hsub q' h') hcard
  exact ⟨v, Finset.mem_inter.mp hv⟩

theorem length_peers
    (hx : x ∈ cfg.members) :
    (cfg.options x).peers.length + 1 = cfg.members.length := by
  have hfilter : (cfg.options x).peers = cfg.members.erase x := by
    rw [cfg.nodup.erase_eq_filter]
    simp [Config.options, Bool.beq_eq_decide_eq, bne]
  rw [hfilter, List.length_erase_of_mem hx]
  have := List.length_pos_of_mem hx
  omega

/-- A node and enough of its peers are a majority. -/
theorem quorum_insert
    {granted : Finset String}
    (hx : x ∈ cfg.members)
    (hpeers : ∀ p ∈ granted, p ∈ (cfg.options x).peers)
    (hmajority : Node.majority (cfg.options x) ≤ granted.card + 1) :
    cfg.Quorum (insert x granted) := by
  have hfresh : x ∉ granted := fun hmem =>
    (Cluster.mem_peers.mp (hpeers x hmem)).2 rfl
  refine ⟨?_, ?_⟩
  · intro v hv
    rcases Finset.mem_insert.mp hv with rfl | hv
    · exact hx
    · exact (Cluster.mem_peers.mp (hpeers v hv)).1
  · rw [Finset.card_insert_of_notMem hfresh]
    unfold Node.majority at hmajority
    rw [length_peers hx] at hmajority
    omega

end Quorums

namespace Cluster

/-- `x` became leader of this term. -/
def Won (c : Cluster) (x : String) (term : Nat) : Prop :=
  ∃ snapshotIndex log, .elected x term snapshotIndex log ∈ c.events

/-- The votes of a run: `g v t k` says that `v` saved a vote for `k` in `t`. -/
structure Elections (cfg : Config) (g : String → Nat → String → Prop) (c : Cluster) :
    Prop where
  votes : ∀ x, (c.node x).Votes (g x)
  leads : ∀ x, (c.node x).Leads (c.Won x)
  granted : ∀ id src dst req resp, c.calls[id]? = some ⟨src, dst, .vote req⟩ →
    (id, Response.vote resp) ∈ c.replies → resp.voteGranted = true →
    g dst req.term req.candidateId
  won : ∀ x term, c.Won x term → ∃ q, cfg.Quorum q ∧ ∀ v ∈ q, g v term x

section Step

variable {cfg : Config} {faulty : Prop}
variable {c c' : Cluster} {a : Action} {x : String} {ls : List Label}
variable {g : String → Nat → String → Prop}

theorem not_won_init
    (y : String) (t : Nat) :
    ¬ init.Won y t := by
  rintro ⟨s, log, hmem⟩
  cases hmem

theorem elections_init :
    Elections cfg (fun _ _ _ => False) init where
  votes := fun y => ⟨by simp, by simp, by simp, le_rfl, fun _ => Or.inl rfl,
    fun h => absurd rfl h⟩
  leads := fun y => ⟨by simp [init, node, startProc, Node.new],
    fun t ht => absurd ht (not_won_init y t)⟩
  granted := by simp [init]
  won := fun y t ht => absurd ht (not_won_init y t)

/-- The elections of a step are its `lead` moves. -/
theorem Transition.won_iff
    (T : Transition cfg faulty c a c' x ls)
    (y : String) (t : Nat) :
    c'.Won y t ↔ c.Won y t ∨ (y = x ∧ ∃ last s log, .lead t last s log ∈ ls) := by
  obtain ⟨new, hevents, hclient⟩ := T.events
  unfold Won
  rw [hevents]
  constructor
  · rintro ⟨s, log, hmem⟩
    simp only [List.mem_append, List.mem_filterMap] at hmem
    rcases hmem with (hmem | ⟨l, hl, hevent⟩) | hmem
    · exact Or.inl ⟨s, log, hmem⟩
    · cases l <;> simp only [Label.event, Option.some.injEq, reduceCtorEq] at hevent
      cases hevent
      exact Or.inr ⟨rfl, _, _, _, hl⟩
    · exact (hclient _ hmem).elim
  · rintro (⟨s, log, hmem⟩ | ⟨rfl, last, s, log, hl⟩)
    · exact ⟨s, log, by simp [hmem]⟩
    · refine ⟨s, log, ?_⟩
      simp only [List.mem_append, List.mem_filterMap]
      exact Or.inl (Or.inr ⟨_, hl, rfl⟩)

theorem received_candidate
    (h : c.Threads cfg)
    {req : RequestVoteRequest}
    (hreceived : c.Received a x (.vote req)) :
    req.candidateId ∈ cfg.members := by
  obtain ⟨src, id, os, -, hcall⟩ := hreceived
  have hok := h.calls _ (List.mem_of_getElem? hcall)
  have hsender : req.candidateId = src := hok.sender
  rw [hsender]
  exact hok.src

/-- The votes after a step: those before it and those its moves save. -/
def addVotes (g : String → Nat → String → Prop) (x : String) (ls : List Label)
    (v : String) (t : Nat) (k : String) : Prop :=
  g v t k ∨ (v = x ∧ ∃ l ∈ ls, l.ballot x = some (t, k))

theorem addVotes_self :
    addVotes g x ls x = fun t k => g x t k ∨ ∃ l ∈ ls, l.ballot x = some (t, k) := by
  funext t k
  simp [addVotes]

theorem addVotes_of_ne
    {y : String} (hy : y ≠ x) :
    addVotes g x ls y = g y := by
  funext t k
  simp [addVotes, hy]

/-- The votes and elections of a node after some moves of a step. -/
structure VotesAlong (g : String → Nat → String → Prop) (c : Cluster) (x : String)
    (ls : List Label) (n : Node) : Prop where
  votes : n.Votes fun t k => g x t k ∨ ∃ l ∈ ls, l.ballot x = some (t, k)
  leads : n.Leads fun t => c.Won x t ∨ ∃ last s log, .lead t last s log ∈ ls
  self : ∀ t last s log, .lead t last s log ∈ ls →
    g x t x ∨ ∃ l ∈ ls, l.ballot x = some (t, x)

theorem Elections.along
    (h : Elections cfg g c)
    (x : String) :
    VotesAlong g c x [] (c.node x) :=
  ⟨by simpa using h.votes x, by simpa using h.leads x, by simp⟩

theorem VotesAlong.step
    {pre : List Label} {l : Label} {n n' : Node}
    (h : VotesAlong g c x pre n)
    (T : Transition cfg faulty c a c' x ls)
    (hthreads : c.Threads cfg)
    (hl : l ∈ ls)
    (hmove : Move (env cfg faulty x) l n n') :
    VotesAlong g c x (pre ++ [l]) n' := by
  have hcandidate : ∀ req saved, l = .vote req saved → req.candidateId ≠ "" := by
    rintro req saved rfl
    exact ne_empty_of_mem (received_candidate hthreads (T.justified _ hl))
  have hvotes : n'.Votes fun t k =>
      (g x t k ∨ ∃ l ∈ pre, l.ballot x = some (t, k)) ∨ l.ballot x = some (t, k) :=
    hmove.votes (fun hs => hs) (ne_empty_of_mem T.member) hcandidate h.votes
  have hleads := hmove.leads (fun hs => hs) h.votes h.leads
  refine ⟨by simpa [or_and_right, exists_or, or_assoc] using hvotes,
    by simpa [exists_or, or_assoc, eq_comm] using hleads, ?_⟩
  intro t last s log hmem
  have hvote : g x t x ∨ ∃ l ∈ pre, l.ballot x = some (t, x) := by
    rcases List.mem_append.mp hmem with hmem | hmem
    · exact h.self t last s log hmem
    · rw [← List.mem_singleton.mp hmem] at hmove
      exact hmove.self_vote (fun hs => hs) (ne_empty_of_mem T.member) h.votes
  exact hvote.imp_right fun ⟨l, hl, hb⟩ => ⟨l, List.mem_append_left _ hl, hb⟩

/-- The votes and elections of the acting node after its moves. -/
theorem Transition.votes
    (T : Transition cfg faulty c a c' x ls)
    (hthreads : c.Threads cfg)
    (h : Elections cfg g c) :
    (c'.node x).Votes (addVotes g x ls x) ∧ (c'.node x).Leads (c'.Won x) ∧
      ∀ t last s log, .lead t last s log ∈ ls → addVotes g x ls x t x := by
  rw [addVotes_self]
  obtain ⟨hvotes, hleads, hself⟩ := T.path.accumulate (I := VotesAlong g c x) (h.along x)
    fun pre l n n' hpre hmove hn => hn.step T hthreads (hpre.subset (by simp)) hmove
  exact ⟨hvotes,
    ⟨fun hr => (T.won_iff x _).mpr (by simpa using hleads.leader hr),
      fun t ht => hleads.spent t (by simpa using (T.won_iff x t).mp ht)⟩, hself⟩

theorem Elections.step
    (h : Elections cfg g c)
    (hthreads : c.Threads cfg)
    (T : Transition cfg faulty c a c' x ls) :
    Elections cfg (addVotes g x ls) c' := by
  obtain ⟨hvotes, hleads, hself⟩ := T.votes hthreads h
  refine ⟨fun y => ?_, fun y => ?_, ?_, ?_⟩
  · by_cases hy : y = x
    · exact hy ▸ hvotes
    · rw [T.frame y hy, addVotes_of_ne hy]
      exact h.votes y
  · by_cases hy : y = x
    · exact hy ▸ hleads
    · have hwon : c'.Won y = c.Won y := by
        funext t
        simp [T.won_iff, hy]
      rw [T.frame y hy, hwon]
      exact h.leads y
  · intro id src dst req resp hcall hreply hgranted
    obtain ⟨new, hnew, hanswers⟩ := T.replies
    rw [hnew, List.mem_append] at hreply
    rcases hreply with hreply | hreply
    · -- a reply from before refers to a call from before
      obtain ⟨call, hcall'⟩ := hthreads.replies _ hreply
      have hsame := (T.extends.call hcall').symm.trans hcall
      cases hsame
      exact Or.inl (h.granted id src dst req resp hcall' hreply hgranted)
    · cases hanswers _ hreply with
      | vote hcall' _ _ hvote =>
          have hsame := (T.extends.call hcall').symm.trans hcall
          cases hsame
          exact Or.inr ⟨rfl, _, (hvote hgranted).2, rfl⟩
  · intro y t hwon
    rcases (T.won_iff y t).mp hwon with hwon | ⟨rfl, last, s, log, hl⟩
    · obtain ⟨q, hq, hall⟩ := h.won y t hwon
      exact ⟨q, hq, fun v hv => Or.inl (hall v hv)⟩
    · obtain ⟨-, -, granted, hmajority, hpolled⟩ := T.justified _ hl
      refine ⟨insert y granted,
        quorum_insert T.member (fun p hp => (hpolled p hp).1) hmajority, ?_⟩
      intro v hv
      rcases Finset.mem_insert.mp hv with rfl | hv
      · exact hself t last s log hl
      · obtain ⟨-, id, resp, hcall, hreply, hgranted⟩ := hpolled v hv
        exact Or.inl (h.granted id _ _ _ resp hcall hreply hgranted)

theorem Elections.winner_unique
    (h : Elections cfg g c)
    {y : String} {t : Nat}
    (hx : c.Won x t)
    (hy : c.Won y t) :
    x = y := by
  obtain ⟨q, hq, hvotes⟩ := h.won x t hx
  obtain ⟨q', hq', hvotes'⟩ := h.won y t hy
  obtain ⟨v, hv, hv'⟩ := hq.meet hq'
  exact (h.votes v).unique t x y (hvotes v hv) (hvotes' v hv')

end Step

section Runs

variable {cfg : Config} {faulty : Prop}
variable {ok : Cluster → Action → Prop} {as : List Action} {c c₀ : Cluster}

/-- The votes of every run are in order. -/
theorem exec_elections
    (hok : ∀ c a, ok c a → Usual faulty c a)
    (halong : Along cfg ok init as)
    (hexec : init.exec cfg as = some c) :
    ∃ g, Elections cfg g c :=
  exec_invariant (P := fun c => ∃ g, Elections cfg g c) hok
    (fun _ _ _ _ _ hthreads _ T _ ⟨_, h⟩ => ⟨_, h.step hthreads T⟩)
    ⟨_, elections_init⟩ halong hexec

/-- The history only grows. -/
theorem exec_events
    (hok : ∀ c a, ok c a → Usual faulty c a)
    (hthreads : c₀.Threads cfg)
    (halong : Along cfg ok c₀ as)
    (hexec : c₀.exec cfg as = some c) :
    c₀.events <+: c.events := by
  refine (exec_invariant_from (P := fun c => c₀.events <+: c.events) hok ?_ hthreads
    (List.prefix_refl _) halong hexec).2
  intro c a c' x ls _ _ T _ h
  obtain ⟨new, hevents, -⟩ := T.events
  rw [hevents, List.append_assoc]
  exact h.trans (List.prefix_append _ _)

/-- A leader at any moment of a run won its term in the history of the run. -/
theorem won_of_leader
    {as₁ : List Action} {c₁ : Cluster} {x : String}
    (hok : ∀ c a, ok c a → Usual faulty c a)
    (halong : Along cfg ok init as)
    (hexec : init.exec cfg as = some c)
    (hmoment : as₁ <+: as)
    (hexec₁ : init.exec cfg as₁ = some c₁)
    (hrole : (c₁.node x).role = .leader) :
    c.Won x (c₁.node x).currentTerm := by
  obtain ⟨halong₁, rest, hrest, hexec'⟩ := exec_moment hmoment halong hexec hexec₁
  obtain ⟨g, h⟩ := exec_elections hok halong₁ hexec₁
  obtain ⟨hthreads, -⟩ := exec_invariant_from (P := fun _ => True) hok
    (fun _ _ _ _ _ _ _ _ _ h => h) threads_init trivial halong₁ hexec₁
  obtain ⟨s, log, hmem⟩ := (h.leads x).leader hrole
  exact ⟨s, log, (exec_events hok hthreads hrest hexec').subset hmem⟩

/-- In every run, with any failures of writes, a term has at most one leader and
a node grants at most one vote per term. -/
theorem election_safety
    (hterms : Along cfg TermsLeft init as)
    (hexec : init.exec cfg as = some c) :
    (∀ as₁ as₂ c₁ c₂ x y term,
      as₁ <+: as → init.exec cfg as₁ = some c₁ →
      as₂ <+: as → init.exec cfg as₂ = some c₂ →
      (c₁.node x).role = .leader → (c₁.node x).currentTerm = term →
      (c₂.node y).role = .leader → (c₂.node y).currentTerm = term → x = y) ∧
    (∀ id id' src src' voter req req' resp resp',
      c.calls[id]? = some ⟨src, voter, .vote req⟩ →
      (id, Response.vote resp) ∈ c.replies → resp.voteGranted = true →
      c.calls[id']? = some ⟨src', voter, .vote req'⟩ →
      (id', Response.vote resp') ∈ c.replies → resp'.voteGranted = true →
      req.term = req'.term → req.candidateId = req'.candidateId) := by
  have hok : ∀ c a, TermsLeft c a → Usual True c a := fun _ _ h => ⟨fun _ => trivial, h⟩
  obtain ⟨g, h⟩ := exec_elections hok hterms hexec
  constructor
  · intro as₁ as₂ c₁ c₂ x y term hp₁ hexec₁ hp₂ hexec₂ hrole₁ hterm₁ hrole₂ hterm₂
    have hx := won_of_leader hok hterms hexec hp₁ hexec₁ hrole₁
    have hy := won_of_leader hok hterms hexec hp₂ hexec₂ hrole₂
    rw [hterm₁] at hx
    rw [hterm₂] at hy
    exact h.winner_unique hx hy
  · intro id id' src src' voter req req' resp resp' hcall hreply hgranted hcall' hreply'
      hgranted' hterm
    have hvote := h.granted id src voter req resp hcall hreply hgranted
    have hvote' := h.granted id' src' voter req' resp' hcall' hreply' hgranted'
    rw [← hterm] at hvote'
    exact (h.votes voter).unique _ _ _ hvote hvote'

end Runs

section Sample

open LogReplicator.Action

/-- Three members. -/
def trio (snapshotThreshold : String → Nat) : Config where
  members := ["a", "b", "c"]
  snapshotThreshold := snapshotThreshold
  json := Json.compact
  nodup := by decide
  named := by decide

/-- `x` runs for `term` and wins with the vote of `p`, asked by call `id`. -/
def elect (x p : String) (id term : Nat) : List Action :=
  [campaign x [], deliver id [], countVote x p id ⟨term, true⟩ [], winElection x []]

/-- Client call `i` writes to the leader `x`. -/
def proposal (x : String) (i : Nat) (key value : String) : List Action :=
  [invoke x (.write key value), route i, propose i []]

/-- `replicatePeer` up to the building of a request. -/
def checks (x p : String) (owner : Option Nat) : List Action :=
  [replicate x p owner, checkLeader x p, checkSnapshot x p]

/-- One `AppendEntries` call and its answer. -/
def appendCall (x p : String) (id term matchIndex : Nat) (success : Bool) : List Action :=
  [sendEntries x p, deliver id [], appendReply x p ⟨term, success, matchIndex⟩ [],
    appendDone x p []]

/-- Two candidates in term 1; the vote of `b` goes to the first. -/
def splitVote : List Action :=
  [campaign "a" [], campaign "c" [], deliver 0 [], deliver 3 [],
    countVote "a" "b" 0 ⟨1, true⟩ [], winElection "a" []]

instance (c : Cluster) (a : Action) : Decidable (c.TermsLeft a) :=
  match a with
  | .campaign x _ => inferInstanceAs (Decidable ((c.node x).currentTerm + 1 < maxTerms))
  | .countVote .. | .missVote .. | .loseElection .. | .winElection .. | .commitAlone ..
  | .deliver .. | .replicate .. | .giveUp .. | .checkLeader .. | .checkSnapshot ..
  | .sendEntries .. | .sendSnapshot .. | .callFails .. | .appendReply .. | .appendDone ..
  | .snapshotReply .. | .snapshotDone .. | .invoke .. | .route .. | .propose .. | .poll ..
  | .expire .. | .confirm .. | .readKey .. | .crash .. => inferInstanceAs (Decidable True)

theorem election_safety_splitVote :
    Along (trio fun _ => 0) TermsLeft init splitVote ∧
      ∃ c, init.exec (trio fun _ => 0) splitVote = some c ∧
        (c.node "a").role = .leader ∧
        ∀ y, (c.node y).role = .leader → (c.node y).currentTerm = 1 → y = "a" := by
  have hterms : Along (trio fun _ => 0) TermsLeft init splitVote := by decide +kernel
  have hleader : (init.exec (trio fun _ => 0) splitVote).map
      (fun c => ((c.node "a").role, (c.node "a").currentTerm)) = some (.leader, 1) := by
    decide +kernel
  obtain ⟨c, hexec, hnode⟩ := Option.map_eq_some_iff.mp hleader
  obtain ⟨hrole, hterm⟩ := Prod.mk.inj hnode
  refine ⟨hterms, c, hexec, hrole, fun y hy hty => ?_⟩
  exact (election_safety hterms hexec).1 splitVote splitVote c c y "a" 1
    (List.prefix_refl _) hexec (List.prefix_refl _) hexec hy hty hrole hterm

end Sample

end Cluster

end LogReplicator
