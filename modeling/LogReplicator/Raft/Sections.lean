import LogReplicator.Raft.Move

/-!
# The sections as paths of moves

One specification per section.  It says which moves a run of the section makes,
how they relate to its result, and which moves it may have made when it dies.
-/

namespace LogReplicator

open Library

/-- The moves of the apply loop. -/
def Label.Applies : Label → Prop
  | .apply _ => True
  | .skip => True
  | .compact => True
  | _ => False

theorem Label.Applies.keepsTerm
    {l : Label} (h : l.Applies) :
    l.KeepsTerm := by
  cases l <;> simp_all [Label.Applies, Label.KeepsTerm]

/-- The apply loop has nothing more to do, or cannot go on. -/
def Node.Settled (env : Env) (n : Node) : Prop :=
  n.commitIndex ≤ n.lastApplied ∨
    (n.store.entry (n.lastApplied + 1) = none ∧
      n.store.snapshotIndex < n.lastApplied + 1) ∨
    ∃ entry err, n.store.entry (n.lastApplied + 1) = some entry ∧
      decodeCommand env.json entry.command = .error err

section Apply

variable {env : Env} {n : Node}

theorem skipCompactedLocked_spec
    (hrole : env.solo ∨ n.role ≠ .candidate)
    (hcommit : n.lastApplied < n.commitIndex)
    (hentry : n.store.entry (n.lastApplied + 1) = none) :
    env.Spec (Node.skipCompactedLocked (n.lastApplied + 1))
      (fun skipped ls n' =>
        (skipped = true ∧ ls = [.skip] ∧ n'.role = n.role ∧
          n'.commitIndex = n.commitIndex ∧ n.lastApplied < n'.lastApplied) ∨
        (skipped = false ∧ ls = [] ∧ n' = n ∧
          (env.faulty ∨ n.store.snapshotIndex < n.lastApplied + 1)))
      (fun ls => ∀ l ∈ ls, l.Applies) n := by
  unfold Node.skipCompactedLocked
  refine Txn.Spec.read ?_
  split_ifs with hsnap
  · exact Txn.Spec.pure (Or.inr ⟨rfl, rfl, rfl, Or.inr hsnap⟩)
  · have hle : n.lastApplied + 1 ≤ n.store.snapshotIndex := by omega
    refine Txn.Spec.write_update (Move.skip hrole hcommit hentry hle)
      (Txn.Spec.pure (Or.inl ⟨rfl, rfl, rfl, rfl, ?_⟩))
      (fun hf => Txn.Spec.pure (Or.inr ⟨rfl, rfl, rfl, Or.inl hf⟩))
      (by simp)
    simpa using hle

theorem compactIfNeededLocked_spec
    (hrole : env.solo ∨ n.role ≠ .candidate) :
    env.Spec (Node.compactIfNeededLocked env.json env.options)
      (fun _ ls n' =>
        (∀ l ∈ ls, l.Applies) ∧ n'.lastApplied = n.lastApplied ∧
          n'.commitIndex = n.commitIndex)
      (fun ls => ∀ l ∈ ls, l.Applies) n := by
  unfold Node.compactIfNeededLocked
  refine Txn.Spec.read ?_
  split_ifs with hzero hfew
  · exact Txn.Spec.pure (by simp)
  · exact Txn.Spec.pure (by simp)
  · cases hterm : n.store.term n.lastApplied with
    | none =>
        exact Txn.Spec.pure (by simp)
    | some term =>
        have hlt : n.store.snapshotIndex < n.lastApplied := by omega
        exact Txn.Spec.write_bind (Move.compact hrole hlt hterm)
          (Txn.Spec.pure (by simp [Label.Applies]))
          (fun _ => Txn.Spec.pure (by simp)) (by simp)

/-- The apply loop applies, skips and compacts; unless a write fails it ends
with nothing left to apply. -/
theorem applyLoop_spec
    (fuel : Nat)
    (hrole : env.solo ∨ n.role ≠ .candidate)
    (hfuel : n.commitIndex - n.lastApplied ≤ fuel) :
    env.Spec (Node.applyLoop env.json env.options fuel)
      (fun _ ls n' => (∀ l ∈ ls, l.Applies) ∧ (env.faulty ∨ n'.Settled env))
      (fun ls => ∀ l ∈ ls, l.Applies) n := by
  have hdone : ∀ {m : Node}, (env.solo ∨ m.role ≠ .candidate) →
      m.commitIndex ≤ m.lastApplied →
      env.Spec (Node.compactIfNeededLocked env.json env.options)
        (fun _ ls n' => (∀ l ∈ ls, l.Applies) ∧ (env.faulty ∨ n'.Settled env))
        (fun ls => ∀ l ∈ ls, l.Applies) m := by
    intro m hm hle
    refine (compactIfNeededLocked_spec hm).mono ?_ (fun _ h => h)
    rintro _ ls n' _ ⟨hls, happlied, hcommit⟩
    exact ⟨hls, Or.inr (Or.inl (by omega))⟩
  induction fuel generalizing n with
  | zero =>
      exact hdone hrole (by omega)
  | succ fuel ih =>
      unfold Node.applyLoop
      refine Txn.Spec.read ?_
      split_ifs with hcommit
      swap
      · exact hdone hrole (by omega)
      cases hentry : n.store.entry (n.lastApplied + 1) with
      | none =>
          refine Txn.Spec.bind (skipCompactedLocked_spec hrole hcommit hentry) ?_
          rintro skipped ls n' _ (⟨rfl, rfl, hrole', hcommit', hlt⟩ | ⟨rfl, rfl, rfl, hstuck⟩)
          · refine (ih (by rwa [hrole']) (by omega)).mono ?_ ?_
            · rintro _ ls' m _ ⟨hls, hm⟩
              exact ⟨by simpa [Label.Applies] using hls, hm⟩
            · intro ls' hls
              simpa [Label.Applies] using hls
          · refine Txn.Spec.pure ⟨by simp, ?_⟩
            exact hstuck.imp_right fun h => Or.inr (Or.inl ⟨hentry, h⟩)
      | some entry =>
          simp only
          cases hcmd : decodeCommand env.json entry.command with
          | error err =>
              exact Txn.Spec.pure
                ⟨by simp, Or.inr (Or.inr (Or.inr ⟨entry, err, hentry, hcmd⟩))⟩
          | ok cmd =>
              refine Txn.Spec.write_update (Move.apply hrole hcommit hentry hcmd) ?_
                (fun hf => Txn.Spec.pure ⟨by simp, Or.inl hf⟩) (by simp)
              refine (ih ?_ ?_).mono ?_ ?_
              · exact hrole
              · simp only
                omega
              · rintro _ ls' m _ ⟨hls, hm⟩
                exact ⟨by simpa [Label.Applies] using hls, hm⟩
              · intro ls' hls
                simpa [Label.Applies] using hls

theorem applyCommittedLocked_spec
    (hrole : env.solo ∨ n.role ≠ .candidate) :
    env.Spec (Node.applyCommittedLocked env.json env.options)
      (fun _ ls n' => (∀ l ∈ ls, l.Applies) ∧ (env.faulty ∨ n'.Settled env))
      (fun ls => ∀ l ∈ ls, l.Applies) n :=
  Txn.Spec.read (applyLoop_spec _ hrole le_rfl)

end Apply

section Commit

variable {env : Env} {n : Node}

/-- The move `advanceCommitLocked` starts with. -/
def Env.advanceLabel (env : Env) (n : Node) : Label :=
  .advance n.currentTerm (n.committedIndex env.options)
    (Cluster.logThrough n (n.committedIndex env.options))

/-- The moves of `advanceCommitLocked`. -/
def Env.Commits (env : Env) (n : Node) (ls : List Label) : Prop :=
  (n.committedIndex env.options = n.commitIndex ∧ ls = []) ∨
    (n.committedIndex env.options ≠ n.commitIndex ∧
      ∃ ls', ls = env.advanceLabel n :: ls' ∧ ∀ l ∈ ls', l.Applies)

theorem advanceCommitLocked_spec
    (hrole : env.solo ∨ n.role = .leader) :
    env.Spec (Node.advanceCommitLocked env.json env.options)
      (fun _ ls n' => env.Commits n ls ∧ (ls = [] ∨ env.faulty ∨ n'.Settled env))
      (env.Commits n) n := by
  unfold Node.advanceCommitLocked
  refine Txn.Spec.read ?_
  split_ifs with hsame
  · exact Txn.Spec.pure ⟨Or.inl ⟨hsame, rfl⟩, Or.inl rfl⟩
  · have hrole' : env.solo ∨ n.role ≠ .candidate :=
      hrole.imp_right fun h => by simp [h]
    refine Txn.Spec.update_bind (Move.advance hrole hsame) ?_
    refine (applyCommittedLocked_spec ?_).mono ?_ ?_
    · exact hrole'
    · rintro _ ls n' _ ⟨hls, hn'⟩
      exact ⟨Or.inr ⟨hsame, ls, rfl, hls⟩, Or.inr hn'⟩
    · intro ls hls
      exact Or.inr ⟨hsame, ls, rfl, hls⟩

end Commit

section Terms

variable {env : Env} {n : Node}

/-- The log, the commit index and the state machine are as before. -/
structure Node.Kept (n n' : Node) : Prop where
  store : ∃ t v, n'.store = n.store.saveTermVote t v
  commitIndex : n'.commitIndex = n.commitIndex
  lastApplied : n'.lastApplied = n.lastApplied

/-- The moves of `stepDownLocked`. -/
def Node.StepsDown (n : Node) (term : Nat) (leaderID : String) (ls : List Label) :
    Prop :=
  (term ≤ n.currentTerm ∧ ls = [.follow leaderID]) ∨
    (n.currentTerm < term ∧ ∃ saved, ls = [.raise term saved, .follow leaderID])

theorem stepDownLocked_spec
    {term : Nat} {leaderID : String} :
    env.Spec (Node.stepDownLocked term leaderID)
      (fun _ ls n' =>
        n.StepsDown term leaderID ls ∧ n'.currentTerm = max n.currentTerm term ∧
          n'.role = .follower ∧ n.Kept n')
      (fun ls => ls = []) n := by
  unfold Node.stepDownLocked Node.adoptTerm
  refine Txn.wp_bind (Txn.wp_bind (Txn.wp_read ?_))
  split_ifs with hlt
  · -- the term, the role and the leader change together, whether the write fails or not
    refine Txn.wp_bind (Txn.wp_update (Txn.wp_bind (Txn.wp_write ?_ (fun hf => ?_) ?_)))
    · refine Txn.wp_pure (Txn.wp_update ⟨[.raise term true, .follow leaderID],
        Path.cons (Move.raise hlt) (Path.single Move.follow),
        Or.inr ⟨hlt, true, rfl⟩, ?_, rfl, ⟨_, _, rfl⟩, rfl, rfl⟩)
      simp only
      omega
    · refine Txn.wp_pure (Txn.wp_update ⟨[.raise term false, .follow leaderID],
        Path.cons (Move.raiseUnsaved hf hlt) (Path.single Move.follow),
        Or.inr ⟨hlt, false, rfl⟩, ?_, rfl, ⟨_, _, rfl⟩, rfl, rfl⟩)
      simp only
      omega
    · exact ⟨[], n, Path.nil n, rfl, rfl⟩
  · refine Txn.wp_pure (Txn.wp_update ⟨[.follow leaderID], Path.single Move.follow,
      Or.inl ⟨by omega, rfl⟩, ?_, rfl, ⟨_, _, rfl⟩, rfl, rfl⟩)
    simp only
    omega

theorem observeHigherTerm_spec
    {term : Nat} :
    env.Spec (Node.observeHigherTerm term)
      (fun higher ls n' =>
        (higher = false ∧ term ≤ n.currentTerm ∧ ls = [] ∧ n' = n) ∨
        (higher = true ∧ n.currentTerm < term ∧
          ∃ saved, ls = [.raise term saved, .follow ""]))
      (fun ls => ls = []) n := by
  unfold Node.observeHigherTerm
  refine Txn.Spec.read ?_
  split_ifs with hle
  · exact Txn.Spec.pure (Or.inl ⟨rfl, hle, rfl, rfl⟩)
  · refine Txn.Spec.bind stepDownLocked_spec ?_
    rintro _ ls n' _ ⟨⟨hle', -⟩ | ⟨hlt, saved, rfl⟩, -⟩
    · omega
    · exact Txn.Spec.pure (Or.inr ⟨rfl, hlt, saved, rfl⟩)

end Terms

section Elections

variable {env : Env} {n : Node}

theorem becomeCandidate_spec
    (hterm : env.solo ∨ n.currentTerm + 1 < maxTerms) :
    env.Spec (Node.becomeCandidate env.options)
      (fun round ls _ =>
        (round = none ∧
          (ls = [] ∨ (env.faulty ∧ ls = [.campaign (nextTerm n.currentTerm) false]))) ∨
        (round = some ⟨nextTerm n.currentTerm, n.store.lastIndexAndTerm.1,
            n.store.lastIndexAndTerm.2⟩ ∧
          ls = [.campaign (nextTerm n.currentTerm) true]))
      (fun ls => ls = []) n := by
  unfold Node.becomeCandidate
  refine Txn.Spec.read ?_
  split_ifs with hrole
  · exact Txn.Spec.pure (Or.inl ⟨rfl, Or.inl rfl⟩)
  · exact Txn.Spec.update_write rfl (Move.campaign hrole hterm)
      (Txn.Spec.pure (Or.inr ⟨rfl, rfl⟩))
      (fun hf => Move.campaignUnsaved hf hrole hterm)
      (fun hf => Txn.Spec.pure (Or.inl ⟨rfl, Or.inr ⟨hf, rfl⟩⟩)) rfl

/-- The move of a won election. -/
def Node.leadLabel (n : Node) : Label :=
  .lead n.currentTerm n.store.lastIndexAndTerm n.store.snapshotIndex
    (n.store.entriesFrom 1 0)

theorem becomeLeader_spec
    {term : Nat}
    (hvote : n.role = .candidate → n.currentTerm = term →
      env.solo ∨
        (n.store.currentTerm = n.currentTerm ∧
          n.store.votedFor = env.options.nodeID)) :
    env.Spec (Node.becomeLeader env.options term)
      (fun won ls n' =>
        (won = false ∧ ls = [] ∧ n' = n) ∨
        (won = true ∧ n.role = .candidate ∧ n.currentTerm = term ∧
          ls = [n.leadLabel]))
      (fun _ => False) n := by
  unfold Node.becomeLeader
  refine Txn.Spec.read ?_
  split_ifs with hmoved
  · exact Txn.Spec.pure (Or.inl ⟨rfl, rfl, rfl⟩)
  · obtain ⟨hrole, hterm⟩ : n.role = .candidate ∧ n.currentTerm = term := by
      simpa using hmoved
    exact Txn.Spec.update_bind (Move.lead hrole (hvote hrole hterm))
      (Txn.Spec.pure (Or.inr ⟨rfl, hrole, hterm, rfl⟩))

/-- The moves of a vote handler. -/
def Label.Votes (req : RequestVoteRequest) : Label → Prop
  | .raise term _ => term = req.term
  | .follow _ => True
  | .vote req' _ => req' = req
  | _ => False

theorem voteLocked_spec
    {req : RequestVoteRequest}
    (hterm : n.currentTerm = req.term) :
    env.Spec (Node.voteLocked req)
      (fun h ls n' =>
        n'.currentTerm = req.term ∧
          ((h.reply = some ⟨req.term, false⟩ ∧ h.outcome = .rejected ∧ ls = []) ∨
            (h.reply = some ⟨req.term, true⟩ ∧ h.outcome = .granted ∧
              ls = [.vote req true]) ∨
            (h.reply = none ∧ h.outcome = .error ∧ ls = [.vote req false])))
      (fun ls => ls = []) n := by
  unfold Node.voteLocked
  refine Txn.Spec.read ?_
  simp only
  split_ifs with hrefuse
  · exact Txn.Spec.pure ⟨hterm, Or.inl ⟨by simp [hterm], rfl, rfl⟩⟩
  · have hfree' : n.votedFor = "" ∨ n.votedFor = req.candidateId := by tauto
    have hlog' : Node.upToDate n.store req = true := by
      by_contra h
      exact hrefuse (Or.inr (by simpa using h))
    exact Txn.Spec.update_write rfl (Move.vote hterm hfree' hlog')
      (Txn.Spec.pure ⟨hterm, Or.inr (Or.inl ⟨by simp [hterm], rfl, rfl⟩)⟩)
      (fun hf => Move.voteUnsaved hf hterm hfree')
      (fun hf => Txn.Spec.pure ⟨hterm, Or.inr (Or.inr ⟨rfl, rfl, rfl⟩)⟩) rfl

/-- What a vote handler did, and what its reply says about it. -/
structure Node.Voted (n : Node) (req : RequestVoteRequest)
    (h : Handled RequestVoteResponse) (ls : List Label) (n' : Node) : Prop where
  labels : ∀ l ∈ ls, l.Votes req
  follow : ∀ id, .follow id ∈ ls → n.currentTerm < req.term
  term : ∀ r, h.reply = some r → r.term = n'.currentTerm ∧ req.term ≤ r.term
  granted : ∀ r, h.reply = some r → r.voteGranted = true →
    r.term = req.term ∧ n.currentTerm ≤ req.term ∧ .vote req true ∈ ls

theorem requestVote_spec
    {req : RequestVoteRequest} :
    env.Spec (Node.requestVote req)
      (fun h ls n' => n.Voted req h ls n')
      (fun ls => (∀ l ∈ ls, l.Votes req) ∧
        ∀ id, .follow id ∈ ls → n.currentTerm < req.term) n := by
  unfold Node.requestVote
  refine Txn.Spec.read ?_
  split_ifs with hstale hnewer
  · refine Txn.Spec.pure ⟨by simp, by simp, ?_, by simp⟩
    rintro r hr
    simp only [Option.some.injEq] at hr
    subst hr
    exact ⟨rfl, by simp only; omega⟩
  · refine Txn.Spec.bind (stepDownLocked_spec.mono (fun _ _ _ _ h => h) ?_) ?_
    · rintro ls rfl
      simp
    rintro _ ls n' _ ⟨hls, hterm, -⟩
    have hterm' : n'.currentTerm = req.term := by omega
    have hvotes : ∀ l ∈ ls, l.Votes req := by
      rcases hls with ⟨-, rfl⟩ | ⟨-, saved, rfl⟩ <;> simp [Label.Votes]
    refine (voteLocked_spec hterm').mono ?_ ?_
    · rintro h ls' n'' _ ⟨hterm'', hcases⟩
      rcases hcases with ⟨hr, -, rfl⟩ | ⟨hr, -, rfl⟩ | ⟨hr, -, rfl⟩
      · exact ⟨by simpa using hvotes, fun _ _ => hnewer, by simp [hr, hterm''], by simp [hr]⟩
      · refine ⟨?_, fun _ _ => hnewer, by simp [hr, hterm''], ?_⟩
        · simpa [or_imp, forall_and, Label.Votes] using hvotes
        · simp [hr, hnewer.le]
      · refine ⟨?_, fun _ _ => hnewer, by simp [hr], by simp [hr]⟩
        simpa [or_imp, forall_and, Label.Votes] using hvotes
    · rintro ls' rfl
      exact ⟨by simpa using hvotes, fun _ _ => hnewer⟩
  · have hterm : n.currentTerm = req.term := by omega
    refine (voteLocked_spec hterm).mono ?_ ?_
    · rintro h ls' n'' _ ⟨hterm'', hcases⟩
      rcases hcases with ⟨hr, -, rfl⟩ | ⟨hr, -, rfl⟩ | ⟨hr, -, rfl⟩
      · exact ⟨by simp, by simp, by simp [hr, hterm''], by simp [hr]⟩
      · exact ⟨by simp [Label.Votes], by simp, by simp [hr, hterm''],
          by simp [hr, hterm]⟩
      · exact ⟨by simp [Label.Votes], by simp, by simp [hr], by simp [hr]⟩
    · rintro ls' rfl
      simp

end Elections

section Leader

variable {env : Env} {n : Node}

/-- The request `buildAppendRequestLocked` returns when it knows the previous
term. -/
def Node.appendRequest (n : Node) (o : Options) (peerID : String)
    (prevLogTerm : Nat) : AppendEntriesRequest :=
  { term := n.currentTerm
    leaderId := o.nodeID
    prevLogIndex := n.nextIndexLocked peerID - 1
    prevLogTerm := prevLogTerm
    entries := n.store.entriesFrom (n.nextIndexLocked peerID) appendBatchSize
    leaderCommit := n.commitIndex }

theorem buildAppendRequestLocked_cases
    (n : Node) (o : Options) (peerID : String) :
    (∃ next, n.buildAppendRequestLocked o peerID = (n.setNextIndex peerID next, none)) ∨
    (∃ prevLogTerm,
      n.store.term (n.nextIndexLocked peerID - 1) = some prevLogTerm ∧
      n.buildAppendRequestLocked o peerID =
        (n, some (n.appendRequest o peerID prevLogTerm))) := by
  unfold Node.buildAppendRequestLocked
  cases h : n.store.term (n.nextIndexLocked peerID - 1) with
  | none =>
      simp only [h]
      exact Or.inl ⟨_, rfl⟩
  | some prevLogTerm =>
      simp only [h]
      exact Or.inr ⟨prevLogTerm, rfl, rfl⟩

/-- The moves of a leader that records what a peer stores. -/
def Env.Records (env : Env) (n : Node) (peerID : String) (matchIndex : Nat)
    (ls : List Label) : Prop :=
  ∃ ls', ls = .progress peerID n.currentTerm matchIndex :: ls' ∧
    env.Commits (Node.recordPeerProgressLocked peerID matchIndex n) ls'

/-- Record the progress of a peer, then commit. -/
theorem record_spec
    {α : Type} {a : α} {peerID : String} {matchIndex : Nat}
    (hrole : n.role = .leader) :
    env.Spec
      (do
        Txn.update (Node.recordPeerProgressLocked peerID matchIndex)
        Node.advanceCommitLocked env.json env.options
        pure a)
      (fun b ls n' => b = a ∧ env.Records n peerID matchIndex ls ∧
        ((∀ l ∈ ls, l = .progress peerID n.currentTerm matchIndex) ∨
          env.faulty ∨ n'.Settled env))
      (env.Records n peerID matchIndex) n := by
  refine Txn.Spec.update_bind (Move.progress hrole) ?_
  refine Txn.Spec.bind ((advanceCommitLocked_spec ?_).mono (fun _ _ _ _ h => h) ?_) ?_
  · refine Or.inr ?_
    unfold Node.recordPeerProgressLocked
    split_ifs <;> exact hrole
  · intro ls hls
    exact ⟨ls, rfl, hls⟩
  · rintro _ ls n' _ ⟨hls, hn'⟩
    refine Txn.Spec.pure ⟨rfl, ⟨ls, by simp, hls⟩, ?_⟩
    rcases hn' with rfl | hn'
    · exact Or.inl (by simp)
    · exact Or.inr hn'

theorem appendReplied_spec
    {peerID : String} {term : Nat} {req : AppendEntriesRequest}
    {reply : AppendEntriesResponse} :
    env.Spec (Node.appendReplied env.json env.options peerID term req reply)
      (fun outcome ls n' =>
        (outcome = .failed ∧ (n.role ≠ .leader ∨ n.currentTerm ≠ term) ∧ ls = []) ∨
        (n.role = .leader ∧ n.currentTerm = term ∧
          ((outcome = .rejected ∧ reply.success = false ∧
              ls = [.setNext peerID (nextIndexAfterRejection
                (n.nextIndexLocked peerID) reply.matchIndex)]) ∨
            (outcome = .accepted ∧ reply.success = true ∧
              env.Records n peerID (max reply.matchIndex (lastEntryIndex req)) ls ∧
              ((∀ l ∈ ls, l = .progress peerID n.currentTerm
                  (max reply.matchIndex (lastEntryIndex req))) ∨
                env.faulty ∨ n'.Settled env)))))
      (fun ls => n.role = .leader ∧ n.currentTerm = term ∧ reply.success = true ∧
        env.Records n peerID (max reply.matchIndex (lastEntryIndex req)) ls) n := by
  unfold Node.appendReplied
  refine Txn.Spec.read ?_
  split_ifs with hmoved hfail
  · exact Txn.Spec.pure (Or.inl ⟨rfl, hmoved, rfl⟩)
  all_goals
    obtain ⟨hrole, hterm⟩ : n.role = .leader ∧ n.currentTerm = term := by
      simpa using hmoved
  · refine Txn.Spec.update_bind Move.setNext (Txn.Spec.pure ?_)
    exact Or.inr ⟨hrole, hterm, Or.inl ⟨rfl, hfail, rfl⟩⟩
  · have hsuccess : reply.success = true := by simpa using hfail
    refine (record_spec hrole).mono ?_ ?_
    · rintro _ ls n' _ ⟨rfl, hrecords, hn'⟩
      exact Or.inr ⟨hrole, hterm, Or.inr ⟨rfl, hsuccess, hrecords, hn'⟩⟩
    · intro ls hls
      exact ⟨hrole, hterm, hsuccess, hls⟩

theorem snapshotReplied_spec
    {peerID : String} {term lastIncludedIndex : Nat} :
    env.Spec
      (Node.snapshotReplied env.json env.options peerID term lastIncludedIndex)
      (fun inSync ls n' =>
        (inSync = false ∧ (n.role ≠ .leader ∨ n.currentTerm ≠ term) ∧ ls = []) ∨
        (inSync = true ∧ n.role = .leader ∧ n.currentTerm = term ∧
          env.Records n peerID lastIncludedIndex ls ∧
          ((∀ l ∈ ls, l = .progress peerID n.currentTerm lastIncludedIndex) ∨
            env.faulty ∨ n'.Settled env)))
      (fun ls => n.role = .leader ∧ n.currentTerm = term ∧
        env.Records n peerID lastIncludedIndex ls) n := by
  unfold Node.snapshotReplied
  refine Txn.Spec.read ?_
  split_ifs with hmoved
  · exact Txn.Spec.pure (Or.inl ⟨rfl, hmoved, rfl⟩)
  · obtain ⟨hrole, hterm⟩ : n.role = .leader ∧ n.currentTerm = term := by
      simpa using hmoved
    refine (record_spec hrole).mono ?_ ?_
    · rintro _ ls n' _ ⟨rfl, hrecords, hn'⟩
      exact Or.inr ⟨rfl, hrole, hterm, hrecords, hn'⟩
    · intro ls hls
      exact ⟨hrole, hterm, hls⟩

/-- The node after it stored a client entry. -/
def Node.withClientEntry (n : Node) (payload : Bytes) : Node :=
  { n with store := n.store.appendEntries [n.clientEntry payload] }

/-- The first move of an accepted client call. -/
def Node.proposeLabel (n : Node) (payload : Bytes) : Label :=
  .propose (n.clientEntry payload) n.store.lastIndexAndTerm.2

/-- The moves of an accepted client call. -/
def Env.Proposes (env : Env) (n : Node) (payload : Bytes) (ls : List Label) : Prop :=
  n.role = .leader ∧ ∃ ls', ls = n.proposeLabel payload :: ls' ∧
    if env.options.peers = [] then env.Commits (n.withClientEntry payload) ls'
    else ls' = []

/-- What follows the write of a client entry: a single node commits at once. -/
def Node.proposed (json : Json) (o : Options) (r : Except Status (Entry × Nat)) :
    Txn Node (Except Status (Entry × Nat)) :=
  if o.peers = [] then do
    Node.advanceCommitLocked json o
    pure r
  else
    pure r

theorem proposed_spec
    {payload : Bytes} {r : Except Status (Entry × Nat)}
    (hrole : n.role = .leader) :
    env.Spec (Node.proposed env.json env.options r)
      (fun r' ls n' => r' = r ∧
        env.Proposes n payload (n.proposeLabel payload :: ls) ∧
        (ls = [] ∨ env.faulty ∨ n'.Settled env))
      (fun ls => env.Proposes n payload (n.proposeLabel payload :: ls))
      (n.withClientEntry payload) := by
  unfold Node.proposed
  split_ifs with hpeers
  · have hproposes : ∀ ls, env.Commits (n.withClientEntry payload) ls →
        env.Proposes n payload (n.proposeLabel payload :: ls) := by
      intro ls hls
      refine ⟨hrole, ls, rfl, ?_⟩
      rw [if_pos hpeers]
      exact hls
    refine Txn.Spec.bind ((advanceCommitLocked_spec ?_).mono (fun _ _ _ _ h => h)
      hproposes) ?_
    · exact Or.inr hrole
    · rintro _ ls n' _ ⟨hls, hn'⟩
      exact Txn.Spec.pure ⟨rfl, by simpa using hproposes ls hls, by simpa using hn'⟩
  · refine Txn.Spec.pure ⟨rfl, ⟨hrole, [], rfl, ?_⟩, Or.inl rfl⟩
    rw [if_neg hpeers]

theorem appendClientEntry_spec
    {payload : Bytes} :
    env.Spec (Node.appendClientEntry env.json env.options payload)
      (fun r ls _ =>
        ((∃ status, r = .error status) ∧ ls = []) ∨
        (r = .ok (n.clientEntry payload, n.currentTerm) ∧ env.Proposes n payload ls))
      (fun ls => ls = [] ∨ env.Proposes n payload ls) n := by
  unfold Node.appendClientEntry
  refine Txn.Spec.read ?_
  by_cases hrole : n.role = .leader
  swap
  · rw [if_pos hrole]
    exact Txn.Spec.pure (Or.inl ⟨⟨_, rfl⟩, rfl⟩)
  rw [if_neg (not_not.mpr hrole)]
  refine Txn.Spec.writeIf_bind (fun _ => Move.propose hrole) (fun _ => ?_)
    (fun _ => Txn.Spec.pure (Or.inl ⟨⟨_, rfl⟩, rfl⟩)) (Or.inl rfl)
  rw [if_neg (by decide)]
  refine (proposed_spec hrole).mono ?_ ?_
  · rintro r ls n' _ ⟨rfl, hproposes, -⟩
    exact Or.inr ⟨rfl, hproposes⟩
  · intro ls hproposes
    exact Or.inr hproposes

end Leader

end LogReplicator
