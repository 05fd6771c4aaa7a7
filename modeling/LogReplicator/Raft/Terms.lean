import LogReplicator.Raft.Durability

/-!
# The term and the vote on disk

Five operations write the pair of the current term and the vote.  As long as no write
fails and no election is started in the last term there is, memory and disk agree on
the pair between any two operations, the term only grows, and a vote is never taken
back within a term.  `becomeCandidate` increments the term without a check: from the
last term it goes back to term 0.
-/

namespace LogReplicator

open Library

/-- From one pair on disk to a later one: the term grows, or it stays and a vote that
was given stays too. -/
def Store.Advances (s s' : Store) : Prop :=
  s.currentTerm < s'.currentTerm ∨
    (s.currentTerm = s'.currentTerm ∧ (s.votedFor = "" ∨ s'.votedFor = s.votedFor))

/-- Memory and disk agree on the term and the vote. -/
structure Node.Saved (n : Node) : Prop where
  term : n.store.currentTerm = n.currentTerm
  vote : n.store.votedFor = n.votedFor

section Pairs

variable {s s' s'' : Store} {n : Node}

theorem Store.Advances.refl
    (s : Store) :
    s.Advances s :=
  Or.inr ⟨rfl, Or.inr rfl⟩

theorem Store.advances_of_eq
    (hterm : s'.currentTerm = s.currentTerm)
    (hvote : s'.votedFor = s.votedFor) :
    s.Advances s' :=
  Or.inr ⟨hterm.symm, Or.inr hvote⟩

theorem Store.Advances.trans
    (h : s.Advances s')
    (h' : s'.Advances s'') :
    s.Advances s'' := by
  rcases h with hlt | ⟨heq, hvote⟩
  · refine Or.inl (hlt.trans_le ?_)
    rcases h' with hlt' | ⟨heq', -⟩
    · exact hlt'.le
    · exact heq'.le
  · rcases h' with hlt' | ⟨heq', hvote'⟩
    · exact Or.inl (heq.trans_lt hlt')
    · refine Or.inr ⟨heq.trans heq', ?_⟩
      rcases hvote with hempty | hsame
      · exact Or.inl hempty
      · rw [hsame] at hvote'
        exact hvote'

theorem Store.Advances.currentTerm_le
    (h : s.Advances s') :
    s.currentTerm ≤ s'.currentTerm := by
  rcases h with hlt | ⟨heq, -⟩
  · exact hlt.le
  · exact heq.le

theorem Store.Advances.votedFor_eq
    (h : s.Advances s')
    (hterm : s'.currentTerm = s.currentTerm)
    (hvote : s.votedFor ≠ "") :
    s'.votedFor = s.votedFor := by
  rcases h with hlt | ⟨-, hempty | hsame⟩
  · exact absurd hterm hlt.ne'
  · exact absurd hempty hvote
  · exact hsame

theorem Node.saved_new
    (s : Store) :
    (Node.new s).Saved :=
  ⟨rfl, rfl⟩

end Pairs

section Moves

variable {json : Json} {o : Options} {l : Label} {n n' : Node}

/-- The moves other than a campaign, when no write fails. -/
theorem Move.advances
    (h : Move (Solo.envOf False json o) l n n')
    (hl : ∀ term saved, l ≠ .campaign term saved)
    (hn : n.Saved) :
    n'.Saved ∧ n.store.Advances n'.store := by
  -- a move that writes neither the pair in memory nor the one on disk
  have hframe : ∀ m : Node, m.currentTerm = n.currentTerm → m.votedFor = n.votedFor →
      m.store.currentTerm = n.store.currentTerm → m.store.votedFor = n.store.votedFor →
      m.Saved ∧ n.store.Advances m.store := by
    intro m hterm hvote hterm' hvote'
    refine ⟨⟨?_, ?_⟩, Store.advances_of_eq hterm' hvote'⟩
    · rw [hterm', hn.term, hterm]
    · rw [hvote', hn.vote, hvote]
  cases h with
  | raise hlt =>
      exact ⟨⟨rfl, rfl⟩, Or.inl (hn.term.trans_lt hlt)⟩
  | raiseUnsaved hfaulty _ =>
      exact hfaulty.elim
  | campaign _ _ =>
      exact absurd rfl (hl _ _)
  | campaignUnsaved _ _ _ =>
      exact absurd rfl (hl _ _)
  | vote _ hfree _ =>
      refine ⟨⟨rfl, rfl⟩, Or.inr ⟨hn.term, ?_⟩⟩
      rw [hn.vote]
      exact hfree.imp_right Eq.symm
  | voteUnsaved hfaulty _ _ =>
      exact hfaulty.elim
  | apply _ _ _ _ =>
      rw [Command.applyTo_eq]
      exact hframe _ rfl rfl rfl rfl
  | progress _ =>
      unfold Node.recordPeerProgressLocked
      split_ifs <;> exact hframe _ rfl rfl rfl rfl
  | restart =>
      exact hframe _ hn.term hn.vote rfl rfl
  | _ =>
      exact hframe _ rfl rfl rfl rfl

end Moves

namespace Solo

variable {json : Json} {o : Options} {s : Solo}

/-- No write fails, and no election is started in the last term there is. -/
def Counts (s : Solo) (op : Operation) (os : List Outcome) : Prop :=
  .fail ∉ os ∧
    (op = .timeout → s.node.role ≠ .leader → s.node.currentTerm + 1 < maxTerms)

instance (s : Solo) (op : Operation) (os : List Outcome) : Decidable (s.Counts op os) :=
  inferInstanceAs (Decidable (_ ∧ (_ → _ → _)))

/-- Every operation of a run does. -/
def CountsAll (json : Json) (o : Options) :
    Solo → List (Operation × List Outcome) → Prop
  | _, [] => True
  | s, op :: ops => s.Counts op.1 op.2 ∧ CountsAll json o (s.perform json o op.1 op.2) ops

instance CountsAll.decidable (json : Json) (o : Options) :
    (s : Solo) → (ops : List (Operation × List Outcome)) → Decidable (CountsAll json o s ops)
  | _, [] => isTrue trivial
  | s, op :: ops =>
      @instDecidableAnd _ _ (inferInstanceAs (Decidable (s.Counts op.1 op.2)))
        (CountsAll.decidable json o (s.perform json o op.1 op.2) ops)

/-- An election is started in the next term, or the node dies before. -/
theorem advances_timeout
    {os : List Outcome}
    (hs : s.node.Saved)
    (hcounts : s.Counts .timeout os) :
    (s.perform json o .timeout os).node.Saved ∧
      s.node.store.Advances (s.perform json o .timeout os).node.store := by
  obtain ⟨hos, hterm⟩ := hcounts
  by_cases hrole : s.node.role = .leader
  · have hrun : Node.becomeCandidate o os s.node = (some none, s.node, os) := by
      simp only [Node.becomeCandidate, bind, Txn.andThen, Txn.read, hrole, if_true]
      rfl
    simp only [perform, runSection, hrun]
    exact ⟨hs, Store.Advances.refl _⟩
  · have hfirst : os.head? ≠ some .fail := fun h => hos (List.mem_of_head? h)
    rcases becomeCandidate_first o hrole hfirst with ⟨round, hrun⟩ | ⟨n', os', hrun, hstore⟩
    · simp only [perform, runSection, hrun]
      refine ⟨⟨rfl, rfl⟩, Or.inl ?_⟩
      show s.node.store.currentTerm < nextTerm s.node.currentTerm
      rw [hs.term, nextTerm, Nat.mod_eq_of_lt (hterm rfl hrole)]
      exact Nat.lt_succ_self _
    · simp only [perform, runSection, hrun, hstore]
      exact ⟨Node.saved_new _, Store.Advances.refl _⟩

/-- One operation. -/
theorem perform_advances
    {op : Operation} {os : List Outcome}
    (hs : s.node.Saved)
    (hcounts : s.Counts op os) :
    (s.perform json o op os).node.Saved ∧
      s.node.store.Advances (s.perform json o op os).node.store := by
  by_cases htimeout : op = .timeout
  · subst htimeout
    exact advances_timeout hs hcounts
  · obtain ⟨ls, hpath, hls⟩ := @perform_moves False json o s op os hcounts.1
    refine hpath.invariant
      (P := fun n => n.Saved ∧ s.node.store.Advances n.store)
      ⟨hs, Store.Advances.refl _⟩ ?_
    rintro l hl n n' hmove ⟨hn, hadvances⟩
    have helects : ∀ term saved, l ≠ .campaign term saved := by
      rintro term saved rfl
      exact htimeout (hls _ hl).elects
    obtain ⟨hn', hstep⟩ := hmove.advances helects hn
    exact ⟨hn', hadvances.trans hstep⟩

/-- Any number of operations. -/
theorem run_advances
    {ops : List (Operation × List Outcome)}
    (hs : s.node.Saved)
    (hops : CountsAll json o s ops) :
    (s.run json o ops).node.Saved ∧
      s.node.store.Advances (s.run json o ops).node.store := by
  induction ops generalizing s with
  | nil =>
      exact ⟨hs, Store.Advances.refl _⟩
  | cons op ops ih =>
      obtain ⟨hs', hstep⟩ := perform_advances hs hops.1
      obtain ⟨hend, hrest⟩ := ih hs' hops.2
      exact ⟨hend, hstep.trans hrest⟩

theorem CountsAll.append
    {ops ops' : List (Operation × List Outcome)} :
    CountsAll json o s (ops ++ ops') ↔
      CountsAll json o s ops ∧ CountsAll json o (s.run json o ops) ops' := by
  induction ops generalizing s with
  | nil =>
      simp [CountsAll, run]
  | cons op ops ih =>
      rw [List.cons_append, CountsAll, CountsAll, ih, and_assoc]
      rfl

/-- Between any two moments of a run, from any data directory: the term on disk is the
term in memory and does not decrease, and while it stays the same a vote that was given
stays too. -/
theorem term_vote_monotone
    (store : Store)
    (ops ops' : List (Operation × List Outcome))
    (hops : CountsAll json o ⟨Node.new store, []⟩ (ops ++ ops')) :
    let n := (run json o ⟨Node.new store, []⟩ ops).node
    let n' := (run json o ⟨Node.new store, []⟩ (ops ++ ops')).node
    n.store.currentTerm = n.currentTerm ∧ n'.store.currentTerm = n'.currentTerm ∧
      n.store.currentTerm ≤ n'.store.currentTerm ∧
      (n'.store.currentTerm = n.store.currentTerm → n.store.votedFor ≠ "" →
        n'.store.votedFor = n.store.votedFor) := by
  intro n n'
  obtain ⟨hfirst, hsecond⟩ := CountsAll.append.mp hops
  obtain ⟨hn, -⟩ := run_advances (s := ⟨Node.new store, []⟩) (Node.saved_new store) hfirst
  obtain ⟨hn', hadvances⟩ := run_advances hn hsecond
  have hrun : (run json o ⟨Node.new store, []⟩ ops).run json o ops' =
      run json o ⟨Node.new store, []⟩ (ops ++ ops') := by
    simp only [run, List.foldl_append]
  rw [hrun] at hn' hadvances
  exact ⟨hn.term, hn'.term, hadvances.currentTerm_le, hadvances.votedFor_eq⟩

/-- A vote, a crash, a request of another candidate for the same term, and an append of
that term. -/
def votingRun : List (Operation × List Outcome) :=
  [(.vote ⟨3, "b", 0, 0⟩, []), (.crash, []), (.vote ⟨3, "c", 0, 0⟩, []),
    (.append ⟨3, "c", 0, 0, [], 0⟩, [])]

theorem term_vote_monotone_votingRun :
    let s : Solo := ⟨Node.new Store.init, []⟩
    let n := (s.run Json.compact ⟨"a", ["b", "c"], 0⟩ (votingRun.take 1)).node
    let n' := (s.run Json.compact ⟨"a", ["b", "c"], 0⟩ (votingRun.take 1 ++
      votingRun.drop 1)).node
    n.store.votedFor = "b" ∧ n'.store.currentTerm = n.store.currentTerm ∧
      n'.store.votedFor = "b" := by
  intro s n n'
  have hterm : n'.store.currentTerm = n.store.currentTerm := by decide +kernel
  have hvote : n.store.votedFor = "b" := by decide +kernel
  have hmonotone := @term_vote_monotone Json.compact ⟨"a", ["b", "c"], 0⟩
    Store.init (votingRun.take 1) (votingRun.drop 1) (by decide +kernel)
  exact ⟨hvote, hterm, hvote ▸ hmonotone.2.2.2 hterm (by rw [hvote]; decide)⟩

/-- A request of the last term there is, and an election timeout. -/
def lastTermRun : List (Operation × List Outcome) :=
  [(.vote ⟨2 ^ 64 - 1, "b", 0, 0⟩, []), (.timeout, [])]

/-- The election timeout takes the node back to term 0, in memory and on disk. -/
theorem term_decreases_of_lastTermRun :
    let s : Solo := ⟨Node.new Store.init, []⟩
    let n := (s.run Json.compact ⟨"a", ["b", "c"], 0⟩ (lastTermRun.take 1)).node
    let n' := (s.run Json.compact ⟨"a", ["b", "c"], 0⟩ lastTermRun).node
    (∀ op ∈ lastTermRun, .fail ∉ op.2) ∧
      n.store.currentTerm = 2 ^ 64 - 1 ∧ n.store.votedFor = "b" ∧
      n'.store.currentTerm = 0 ∧ n'.store.votedFor = "a" ∧
      n'.store.currentTerm < n.store.currentTerm := by
  decide +kernel

end Solo

end LogReplicator
