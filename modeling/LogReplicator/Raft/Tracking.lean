import LogReplicator.Raft.Merge
import LogReplicator.Raft.Provenance

/-!
# A node stands for an abstract node

A node that stores a log, with whatever part of it compacted, stands for a node of
the abstract protocol of `Library.Consensus` with the full log.  Each of its moves
is a sequence of steps of the protocol (`Move.simulates`): votes, elections and
acknowledgements are the abstract ones, the rest moves the log as the leader of
the term has it, or does not move it.
-/

namespace LogReplicator

open Library Library.Consensus

section Backed

variable {cfg : Config} {σ σ' : State String Entry}

/-- The request is a piece of the log of the leader of its term, and what it says
about the commit index is true. -/
structure AppendEntriesRequest.Backed (cfg : Config) (σ : State String Entry)
    (req : AppendEntriesRequest) : Prop where
  led : σ.base req.term ≠ none
  carries : req.Carries (σ.llog req.term)
  commit_le : req.leaderCommit ≤ (σ.llog req.term).length
  committed : CommittedBy Entry.term cfg.Quorum σ req.term
    ((σ.llog req.term).take req.leaderCommit)

/-- The snapshot ends in the committed part of the log of the leader of its term. -/
structure InstallSnapshotRequest.Backed (cfg : Config) (σ : State String Entry)
    (req : InstallSnapshotRequest) : Prop where
  led : σ.base req.term ≠ none
  le : req.lastIncludedIndex ≤ (σ.llog req.term).length
  term : req.lastIncludedTerm = termAt Entry.term (σ.llog req.term) req.lastIncludedIndex
  committed : CommittedBy Entry.term cfg.Quorum σ req.term
    ((σ.llog req.term).take req.lastIncludedIndex)

theorem take_prefix_eq
    {l l' : List Entry} {i : Nat}
    (h : l <+: l')
    (hi : i ≤ l.length) :
    l'.take i = l.take i := by
  obtain ⟨r, rfl⟩ := h
  exact List.take_append_of_le_length hi

theorem getElem?_prefix_eq
    {l l' : List Entry} {i : Nat} {e : Entry}
    (h : l <+: l')
    (he : l[i]? = some e) :
    l'[i]? = some e := by
  obtain ⟨r, rfl⟩ := h
  obtain ⟨hi, -⟩ := List.getElem?_eq_some_iff.mp he
  rw [List.getElem?_append_left hi, he]

theorem AppendEntriesRequest.Carries.mono
    {req : AppendEntriesRequest} {l l' : List Entry}
    (h : req.Carries l)
    (hl : l <+: l') :
    req.Carries l' where
  prev_le := h.prev_le.trans hl.length_le
  prev := h.prev.trans (termAt_mono hl h.prev_le)
  entries := h.entries.trans (hl.drop _)

theorem AppendEntriesRequest.Backed.mono
    {req : AppendEntriesRequest}
    (h : req.Backed cfg σ)
    (hg : Grows σ σ') :
    req.Backed cfg σ' where
  led := hg.elected h.led
  carries := h.carries.mono (hg.llog _)
  commit_le := h.commit_le.trans (hg.llog _).length_le
  committed := by
    rw [take_prefix_eq (hg.llog _) h.commit_le]
    exact hg.committed le_rfl h.committed

theorem InstallSnapshotRequest.Backed.mono
    {req : InstallSnapshotRequest}
    (h : req.Backed cfg σ)
    (hg : Grows σ σ') :
    req.Backed cfg σ' where
  led := hg.elected h.led
  le := h.le.trans (hg.llog _).length_le
  term := h.term.trans (termAt_mono (hg.llog _) h.le)
  committed := by
    rw [take_prefix_eq (hg.llog _) h.le]
    exact hg.committed le_rfl h.committed

theorem indexed_prefix_le
    {l l' : List Entry}
    (h : Indexed l)
    (hl : l' <+: l) :
    Indexed l' := by
  obtain ⟨r, rfl⟩ := hl
  unfold Indexed at h ⊢
  rw [List.map_append, List.length_append, ← List.range'_append_1] at h
  exact (List.append_inj h (by simp)).1

theorem Indexed.index_eq
    {l : List Entry} {i : Nat} {e : Entry}
    (h : Indexed l)
    (he : l[i]? = some e) :
    e.index = i + 1 := by
  obtain ⟨hi, -⟩ := List.getElem?_eq_some_iff.mp he
  have hat := congrArg (fun k => k[i]?) h
  simp only [List.getElem?_map, he, Option.map_some, List.getElem?_range' hi,
    Option.some.injEq] at hat
  omega

end Backed

section Tracks

/-- What the leader of a term knows about its peers is what they acknowledged. -/
structure Node.Leading (cfg : Config) (σ : State String Entry) (x : String) (n : Node) :
    Prop where
  led : σ.base n.currentTerm ≠ none
  log : σ.log x = σ.llog n.currentTerm
  self : σ.acks x n.currentTerm (σ.log x).length
  peers : ∀ p ∈ (cfg.options x).peers,
    n.matchIndex p = 0 ∨ ∃ m, n.matchIndex p ≤ m ∧ σ.acks p n.currentTerm m

/-- The node stands for the abstract node `x`. -/
structure Node.Tracks (cfg : Config) (σ : State String Entry) (x : String) (n : Node) :
    Prop where
  term : σ.term x = n.currentTerm
  disk : n.store.currentTerm = n.currentTerm
  log : n.store.Stores (σ.log x)
  applied : n.store.lastApplied ≤ n.lastApplied
  reached : n.lastApplied ≤ n.commitIndex
  commit_le : n.commitIndex ≤ (σ.log x).length
  committed : CommittedBy Entry.term cfg.Quorum σ n.currentTerm
    ((σ.log x).take n.commitIndex)
  candidate : n.role = .candidate →
    Consensus.Voted σ x n.currentTerm (position Entry.term (σ.log x))
  leader : n.role = .leader → n.Leading cfg σ x

/-- What a move reports has happened. -/
def Label.Done (cfg : Config) (σ : State String Entry) (x : String) : Label → Prop
  | .vote req saved => saved = true →
      Voted σ x req.term (req.lastLogTerm, req.lastLogIndex)
  | .accept req m => σ.acks x req.term m ∧ m = req.prevLogIndex + req.entries.length
  | .install req _ _ _ => σ.acks x req.term req.lastIncludedIndex
  | .ignore req => σ.acks x req.term req.lastIncludedIndex
  | .lead t _ s log => ∃ b, σ.base t = some b ∧ log = b.drop s
  | .propose e _ => (σ.llog e.term)[e.index - 1]? = some e
  | .advance t k log => k ≤ (σ.llog t).length ∧
      Chosen Entry.term cfg.Quorum σ t ((σ.llog t).take k) ∧
      ∀ e ∈ log, e.index ≤ k ∧ (σ.llog t)[e.index - 1]? = some e
  | _ => True

/-- What a move rests on. -/
def Label.Rests (cfg : Config) (σ : State String Entry) (x : String) : Label → Prop
  | .truncate req _ => req.Backed cfg σ
  | .store req _ => req.Backed cfg σ
  | .accept req _ => req.Backed cfg σ
  | .learn req last => req.Backed cfg σ ∧
      (req.leaderCommit ≤ req.prevLogIndex + req.entries.length ∨
        last ≤ req.prevLogIndex + req.entries.length)
  | .install req last known _ => req.Backed cfg σ ∧
      (last ≤ req.lastIncludedIndex ∨ known = some req.lastIncludedTerm)
  | .ignore req => req.Backed cfg σ
  | .lead t last _ _ => ∃ granted : Finset String,
      Node.majority (cfg.options x) ≤ granted.card + 1 ∧
      ∀ p ∈ granted, p ∈ (cfg.options x).peers ∧ Voted σ p t (last.2, last.1)
  | .progress p t m => p ∈ (cfg.options x).peers ∧ ∃ m', m ≤ m' ∧ σ.acks p t m'
  | _ => True

variable {cfg : Config} {σ σ' : State String Entry} {x : String} {n n' : Node}

theorem Label.Rests.mono
    {l : Label}
    (h : l.Rests cfg σ x)
    (hg : Grows σ σ') :
    l.Rests cfg σ' x := by
  cases l with
  | truncate req e => exact AppendEntriesRequest.Backed.mono h hg
  | store req es => exact AppendEntriesRequest.Backed.mono h hg
  | accept req m => exact AppendEntriesRequest.Backed.mono h hg
  | learn req last => exact ⟨h.1.mono hg, h.2⟩
  | install req last known applied => exact ⟨h.1.mono hg, h.2⟩
  | ignore req => exact InstallSnapshotRequest.Backed.mono h hg
  | lead t last s log =>
      obtain ⟨granted, hmajority, hvoted⟩ := h
      exact ⟨granted, hmajority, fun p hp => ⟨(hvoted p hp).1, hg.voted (hvoted p hp).2⟩⟩
  | progress p t m =>
      obtain ⟨hp, m', hm, hack⟩ := h
      exact ⟨hp, m', hm, hg.acks _ _ _ hack⟩
  | _ => trivial

theorem Label.Done.mono
    {l : Label}
    (h : l.Done cfg σ x)
    (hg : Grows σ σ') :
    l.Done cfg σ' x := by
  cases l with
  | vote req saved => exact fun hs => hg.voted (h hs)
  | accept req m => exact ⟨hg.acks _ _ _ h.1, h.2⟩
  | install req last known applied => exact hg.acks _ _ _ h
  | ignore req => exact hg.acks _ _ _ h
  | lead t last s log =>
      obtain ⟨b, hb, hlog⟩ := h
      exact ⟨b, hg.base t b hb, hlog⟩
  | propose e prevTerm => exact getElem?_prefix_eq (hg.llog _) h
  | advance t k log =>
      obtain ⟨hk, hchosen, hentries⟩ := h
      refine ⟨hk.trans (hg.llog t).length_le, ?_, fun e he => ⟨(hentries e he).1, ?_⟩⟩
      · rw [take_prefix_eq (hg.llog t) hk]
        exact hg.chosen hchosen
      · exact getElem?_prefix_eq (hg.llog t) (hentries e he).2
  | _ => trivial

/-- The steps of other nodes leave a node alone, unless they write to its leader
log. -/
theorem Node.Tracks.mono
    (h : n.Tracks cfg σ x)
    (hg : Grows σ σ')
    (hterm : σ'.term x = σ.term x)
    (hlog : σ'.log x = σ.log x)
    (hllog : n.role = .leader → σ'.llog n.currentTerm = σ.llog n.currentTerm) :
    n.Tracks cfg σ' x where
  term := hterm.trans h.term
  disk := h.disk
  log := hlog ▸ h.log
  applied := h.applied
  reached := h.reached
  commit_le := hlog ▸ h.commit_le
  committed := by
    rw [hlog]
    exact hg.committed le_rfl h.committed
  candidate := fun hrole => by
    rw [hlog]
    exact hg.voted (h.candidate hrole)
  leader := fun hrole => by
    obtain ⟨hled, heq, hself, hpeers⟩ := h.leader hrole
    refine ⟨hg.elected hled, by rw [hlog, hllog hrole, heq], ?_, fun p hp => ?_⟩
    · rw [hlog]
      exact hg.acks _ _ _ hself
    · exact (hpeers p hp).imp_right fun ⟨m, hm, hack⟩ => ⟨m, hm, hg.acks _ _ _ hack⟩

theorem Node.Tracks.matching
    (hI : Inv Entry.term cfg.Quorum σ)
    (t : Nat) :
    Matching Entry.term (σ.log x) (σ.llog t) :=
  fun _ hi hi' hterm => (hI.log_matches x).take_eq (hI.llog_matches t) hi hi' hterm

/-- What a node has committed is part of the log of the leader of its term. -/
theorem Node.Tracks.committed_le
    (h : n.Tracks cfg σ x)
    (hI : Inv Entry.term cfg.Quorum σ)
    (hled : σ.base n.currentTerm ≠ none) :
    (σ.log x).take n.commitIndex <+: σ.llog n.currentTerm :=
  hI.committed_llog (fun _ _ hA hB => Config.Quorum.meet hA hB) h.committed hled

/-- The logs of nodes are numbered, as those of leaders are. -/
theorem indexed_log
    (hI : Inv Entry.term cfg.Quorum σ)
    (hnum : ∀ t, Indexed (σ.llog t))
    (x : String) :
    Indexed (σ.log x) := by
  rcases List.eq_nil_or_concat' (σ.log x) with hnil | ⟨p, e, hlog⟩
  · rw [hnil]
    rfl
  · rw [hlog]
    exact indexed_prefix_le (hnum e.term) (hI.log_matches x p e (hlog ▸ List.prefix_rfl))

end Tracks

section Moves

variable {cfg : Config} {σ : State String Entry} {x : String} {l : Label} {n n' : Node}

/-- A move is simulated by steps of `x` that end in `σ'`. -/
structure Simulates (cfg : Config) (σ : State String Entry) (x : String) (l : Label)
    (n n' : Node) (σ' : State String Entry) : Prop where
  steps : Steps Entry.term cfg.Quorum x σ σ'
  tracks : n'.Tracks cfg σ' x
  done : l.Done cfg σ' x
  /-- Leader logs are written by their leaders only. -/
  llog : ∀ t, σ'.llog t = σ.llog t ∨
    (t = n.currentTerm ∧ n.role = .leader) ∨ (t = n'.currentTerm ∧ n'.role = .leader)
  base : ∀ t, σ'.base t = σ.base t ∨ ∃ last s log, l = .lead t last s log
  indexed : ∀ t, Indexed (σ'.llog t)

/-- A move that the abstract protocol does not see. -/
theorem Simulates.stutter
    (htracks : n'.Tracks cfg σ x)
    (hdone : l.Done cfg σ x)
    (hnum : ∀ t, Indexed (σ.llog t)) :
    Simulates cfg σ x l n n' σ :=
  ⟨Relation.ReflTransGen.refl, htracks, hdone, fun _ => Or.inl rfl, fun _ => Or.inl rfl, hnum⟩

/-- What is committed is shared with the leader, so a merge keeps it. -/
theorem Node.Tracks.kept
    (h : n.Tracks cfg σ x)
    (hI : Inv Entry.term cfg.Quorum σ)
    (hled : σ.base n.currentTerm ≠ none)
    {f' : List Entry}
    (hmerges : Merges (σ.llog n.currentTerm) (σ.log x) f') :
    n.commitIndex ≤ f'.length ∧
      f'.take n.commitIndex = (σ.log x).take n.commitIndex := by
  have hkept : (σ.log x).take n.commitIndex <+: f' :=
    hmerges.common _ (List.take_prefix _ _) (h.committed_le hI hled)
  have hlength : ((σ.log x).take n.commitIndex).length = n.commitIndex := by
    rw [List.length_take, min_eq_left h.commit_le]
  have heq := List.prefix_iff_eq_take.mp hkept
  rw [hlength] at heq
  exact ⟨hlength ▸ hkept.length_le, heq.symm⟩

/-- A follower takes over a log that keeps what it shares with the leader. -/
theorem Node.Tracks.adopts
    (n' : Node)
    (h : n.Tracks cfg σ x)
    (hI : Inv Entry.term cfg.Quorum σ)
    (hled : σ.base n.currentTerm ≠ none)
    {f' : List Entry}
    (hmerges : Merges (σ.llog n.currentTerm) (σ.log x) f')
    (hshape : f' = σ.log x ∨ f' <+: σ.llog n.currentTerm)
    (hstores : n'.store.Stores f')
    (hrole : n'.role = .follower)
    (hterm : n'.currentTerm = n.currentTerm)
    (hdisk : n'.store.currentTerm = n.store.currentTerm)
    (happlied : n'.store.lastApplied ≤ n'.lastApplied)
    (hreached : n'.lastApplied ≤ n'.commitIndex)
    (hcommit : n'.commitIndex ≤ f'.length)
    (hcommitted : CommittedBy Entry.term cfg.Quorum σ n.currentTerm
      (f'.take n'.commitIndex)) :
    ∃ σ', Steps Entry.term cfg.Quorum x σ σ' ∧ n'.Tracks cfg σ' x ∧ σ'.log x = f' ∧
      σ'.llog = σ.llog ∧ σ'.base = σ.base := by
  have htracks : ∀ σ' : State String Entry, Grows σ σ' → σ'.term = σ.term →
      σ'.log x = f' → n'.Tracks cfg σ' x := by
    intro σ' hg hterms hlog
    refine ⟨by rw [hterms, h.term, hterm], by rw [hdisk, h.disk, hterm], hlog ▸ hstores,
      happlied, hreached, hlog ▸ hcommit, ?_, by simp [hrole], by simp [hrole]⟩
    rw [hlog, hterm]
    exact hg.committed le_rfl hcommitted
  rcases hshape with hsame | hle
  · exact ⟨σ, Relation.ReflTransGen.refl, htracks σ (Grows.refl σ) rfl hsame.symm, hsame.symm,
      rfl, rfl⟩
  · have hled' : σ.base (σ.term x) ≠ none := h.term ▸ hled
    have hstep : Step Entry.term cfg.Quorum x σ
        { σ with log := Function.update σ.log x ((σ.llog (σ.term x)).take f'.length) } := by
      refine Step.adopt hled' fun p hp hp' => ?_
      rw [h.term] at hp'
      exact (hmerges.common p hp hp').length_le
    have hlog : Function.update σ.log x ((σ.llog (σ.term x)).take f'.length) x = f' := by
      rw [Function.update_self, h.term, ← List.prefix_iff_eq_take.mp hle]
    exact ⟨_, Relation.ReflTransGen.single hstep, htracks _ (hstep.grows hI) rfl hlog, hlog,
      rfl, rfl⟩

/-- A node acknowledges what it holds. -/
theorem Node.Tracks.acknowledges
    (h : n.Tracks cfg σ x)
    (hI : Inv Entry.term cfg.Quorum σ)
    {m : Nat}
    (hled : σ.base n.currentTerm ≠ none)
    (hm : m ≤ (σ.llog n.currentTerm).length)
    (hheld : (σ.llog n.currentTerm).take m <+: σ.log x) :
    ∃ σ', Step Entry.term cfg.Quorum x σ σ' ∧ n.Tracks cfg σ' x ∧
      σ'.acks x n.currentTerm m ∧ σ'.llog = σ.llog ∧ σ'.base = σ.base := by
  have hstep : Step Entry.term cfg.Quorum x σ
      { σ with acks := fun u t k => σ.acks u t k ∨ (u = x ∧ t = σ.term x ∧ k = m) } :=
    Step.ack (h.term ▸ hled) (h.term ▸ hm) (by rw [h.term]; exact hheld)
  exact ⟨_, hstep, h.mono (hstep.grows hI) rfl rfl fun _ => rfl,
    Or.inr ⟨rfl, h.term.symm, rfl⟩, rfl, rfl⟩

/-- A request is merged: the log changes, or the node says that it has everything. -/
theorem Node.Tracks.merges
    {faulty : Prop} {req : AppendEntriesRequest}
    (h : n.Tracks cfg σ x)
    (hI : Inv Entry.term cfg.Quorum σ)
    (hnum : ∀ t, Indexed (σ.llog t))
    (hmove : Move (Cluster.env cfg faulty x) l n n')
    (hl : (∃ e, l = .truncate req e) ∨ (∃ es, l = .store req es) ∨ ∃ m, l = .accept req m)
    (hreq : req.Backed cfg σ) :
    ∃ σ', Simulates cfg σ x l n n' σ' := by
  have hattached : n.Attached req := by
    rcases hl with ⟨e, rfl⟩ | ⟨es, rfl⟩ | ⟨m, rfl⟩ <;> cases hmove <;> assumption
  have happends : l.Appends req := by
    rcases hl with ⟨e, rfl⟩ | ⟨es, rfl⟩ | ⟨m, rfl⟩ <;> rfl
  have hterm : n.currentTerm = req.term := hattached.term
  have hled : σ.base n.currentTerm ≠ none := hterm ▸ hreq.led
  obtain ⟨f', hstores, hmerges, hshape, haccept⟩ :=
    hmove.merges happends (hterm ▸ hreq.carries) (hnum n.currentTerm) h.log
      (Node.Tracks.matching hI n.currentTerm)
  have hframe : n'.role = .follower ∧ n'.currentTerm = n.currentTerm ∧
      n'.store.currentTerm = n.store.currentTerm ∧
      n'.store.lastApplied = n.store.lastApplied ∧ n'.lastApplied = n.lastApplied ∧
      n'.commitIndex = n.commitIndex := by
    rcases hl with ⟨e, rfl⟩ | ⟨es, rfl⟩ | ⟨m, rfl⟩ <;> cases hmove <;>
      exact ⟨hattached.role, rfl, rfl, rfl, rfl, rfl⟩
  obtain ⟨hrole', hterm', hdisk', happlied', hlast', hcommit'⟩ := hframe
  obtain ⟨hkept, htake⟩ := h.kept hI hled hmerges
  obtain ⟨σ₁, hsteps, htracks, hlog, hllog, hbase⟩ :=
    h.adopts n' hI hled hmerges (hshape.imp_right And.left) hstores hrole' hterm' hdisk'
      (by rw [happlied', hlast']; exact h.applied)
      (by rw [hlast', hcommit']; exact h.reached) (hcommit' ▸ hkept)
      (by rw [hcommit', htake]; exact h.committed)
  by_cases hdone : ∃ m, l = .accept req m
  · obtain ⟨m, rfl⟩ := hdone
    obtain ⟨hm, hheld⟩ := haccept m rfl
    have hI₁ := Steps.inv hI hsteps
    have hm' : m ≤ (σ₁.llog n'.currentTerm).length := by
      rw [hterm', hllog, hm, hterm]
      exact hreq.carries.length_le
    obtain ⟨σ₂, hstep, htracks₂, hack, hllog₂, hbase₂⟩ :=
      htracks.acknowledges hI₁ (by rw [hterm', hbase]; exact hled) hm'
        (by rw [hterm', hllog, hlog]; exact hheld)
    refine ⟨σ₂, hsteps.tail hstep, htracks₂, ⟨?_, hm⟩, fun t => Or.inl ?_, fun t => Or.inl ?_,
      fun t => ?_⟩
    · rwa [hterm', hterm] at hack
    · rw [hllog₂, hllog]
    · rw [hbase₂, hbase]
    · rw [hllog₂, hllog]
      exact hnum t
  · refine ⟨σ₁, hsteps, htracks, ?_, fun t => Or.inl (by rw [hllog]),
      fun t => Or.inl (by rw [hbase]), fun t => by rw [hllog]; exact hnum t⟩
    rcases hl with ⟨e, rfl⟩ | ⟨es, rfl⟩ | hl
    · trivial
    · trivial
    · exact absurd hl hdone

/-- A move that changes neither the log nor what the abstract node knows. -/
theorem Node.Tracks.frame
    (h : n.Tracks cfg σ x)
    (hterm : n'.currentTerm = n.currentTerm)
    (hdisk : n'.store.currentTerm = n'.currentTerm)
    (hlog : n'.store.Stores (σ.log x))
    (happlied : n'.store.lastApplied ≤ n'.lastApplied)
    (hreached : n'.lastApplied ≤ n'.commitIndex)
    (hcommit : n'.commitIndex ≤ n.commitIndex)
    (hcandidate : n'.role = .candidate → n.role = .candidate)
    (hleader : n'.role = .leader → n.role = .leader ∧ n'.matchIndex = n.matchIndex) :
    n'.Tracks cfg σ x where
  term := h.term.trans hterm.symm
  disk := hdisk
  log := hlog
  applied := happlied
  reached := hreached
  commit_le := hcommit.trans h.commit_le
  committed := by
    rw [hterm]
    exact h.committed.mono le_rfl (List.take_prefix_take_left hcommit)
  candidate := fun hrole => by
    rw [hterm]
    exact h.candidate (hcandidate hrole)
  leader := fun hrole => by
    obtain ⟨hrole', hmatch⟩ := hleader hrole
    obtain ⟨hled, heq, hself, hpeers⟩ := h.leader hrole'
    refine ⟨?_, ?_, ?_, ?_⟩
    · rwa [hterm]
    · rwa [hterm]
    · rwa [hterm]
    · rwa [hterm, hmatch]

/-- A vote, also that of a candidate for itself. -/
theorem Node.Tracks.votes
    (h : n.Tracks cfg σ x)
    (hI : Inv Entry.term cfg.Quorum σ)
    {p : Nat × Nat}
    (hp : UpToDate p (position Entry.term (σ.log x))) :
    ∃ σ', Steps Entry.term cfg.Quorum x σ σ' ∧ n.Tracks cfg σ' x ∧
      Consensus.Voted σ' x n.currentTerm p ∧ σ'.log = σ.log ∧ σ'.llog = σ.llog ∧
      σ'.base = σ.base := by
  obtain ⟨σ', hsteps, hvoted, hterm, hlog, hbase, hllog⟩ := exists_voted hp
  exact ⟨σ', hsteps, h.mono (Steps.grows hI hsteps) (by rw [hterm]) (by rw [hlog])
    (fun _ => by rw [hllog]), h.term ▸ hvoted, hlog, hllog, hbase⟩

/-- A newer term. -/
theorem Node.Tracks.raises
    (n' : Node)
    (h : n.Tracks cfg σ x)
    (hI : Inv Entry.term cfg.Quorum σ)
    {t : Nat}
    (ht : n.currentTerm ≤ t)
    (hterm : n'.currentTerm = t)
    (hdisk : n'.store.currentTerm = t)
    (hlog : n'.store.Stores (σ.log x))
    (happlied : n'.store.lastApplied = n.store.lastApplied)
    (hlast : n'.lastApplied = n.lastApplied)
    (hcommit : n'.commitIndex = n.commitIndex)
    (hrole : n'.role = .follower) :
    ∃ σ', Step Entry.term cfg.Quorum x σ σ' ∧ n'.Tracks cfg σ' x ∧ σ'.log = σ.log ∧
      σ'.llog = σ.llog ∧ σ'.base = σ.base := by
  have hstep : Step Entry.term cfg.Quorum x σ
      { σ with term := Function.update σ.term x t } := Step.raise (h.term ▸ ht)
  refine ⟨_, hstep, ⟨?_, by rw [hdisk, hterm], hlog, ?_, ?_, by rw [hcommit]; exact h.commit_le,
    ?_, by simp [hrole], by simp [hrole]⟩, rfl, rfl, rfl⟩
  · rw [hterm]
    exact Function.update_self _ _ _
  · rw [happlied, hlast]
    exact h.applied
  · rw [hlast, hcommit]
    exact h.reached
  · rw [hcommit, hterm]
    exact (hstep.grows hI).committed ht h.committed

/-- A candidate with a majority of votes becomes the leader of its term. -/
theorem Node.Tracks.leads
    (h : n.Tracks cfg σ x)
    (hI : Inv Entry.term cfg.Quorum σ)
    (hnum : ∀ t, Indexed (σ.llog t))
    (hx : x ∈ cfg.members)
    (hrole : n.role = .candidate)
    (hopen : σ.base n.currentTerm = none)
    (hrests : Label.Rests cfg σ x
      (.lead n.currentTerm n.store.lastIndexAndTerm n.store.snapshotIndex
        (n.store.entriesFrom 1 0))) :
    ∃ σ', Simulates cfg σ x
      (.lead n.currentTerm n.store.lastIndexAndTerm n.store.snapshotIndex
        (n.store.entriesFrom 1 0)) n (Node.asLeader (cfg.options x) n) σ' := by
  obtain ⟨granted, hmajority, hgranted⟩ := hrests
  have hquorum : cfg.Quorum (insert x granted) :=
    quorum_insert hx (fun p hp => (hgranted p hp).1) hmajority
  have hopen' : σ.base (σ.term x) = none := h.term ▸ hopen
  have hballots : ∀ u ∈ insert x granted,
      σ.ballots u (σ.term x) (position Entry.term (σ.log x)) := by
    intro u hu
    rw [h.term]
    rcases Finset.mem_insert.mp hu with rfl | hu
    · exact h.candidate hrole hopen
    · rw [h.log.position_eq]
      exact (hgranted u hu).2 hopen
  obtain ⟨σ', hsteps, hself, hterms, hlogs, hbases, hllogs⟩ :=
    exists_elected hopen' hquorum hballots
  have hg := Steps.grows hI hsteps
  have hllog : σ'.llog n.currentTerm = σ.log x := by
    rw [hllogs, h.term, Function.update_self]
  have hbase : σ'.base n.currentTerm = some (σ.log x) := by
    rw [hbases, h.term, Function.update_self]
  refine ⟨σ', hsteps, ?_, ⟨_, hbase, h.log.entriesFrom_all⟩, fun t => ?_, fun t => ?_,
    fun t => ?_⟩
  · refine ⟨(congrFun hterms x).trans h.term, h.disk, hlogs ▸ h.log, h.applied, h.reached,
      hlogs ▸ h.commit_le, ?_, by simp [Node.asLeader], fun _ => ⟨?_, ?_, ?_, ?_⟩⟩
    · rw [hlogs]
      exact hg.committed le_rfl h.committed
    · show σ'.base n.currentTerm ≠ none
      simp [hbase]
    · show σ'.log x = σ'.llog n.currentTerm
      rw [hllog, hlogs]
    · show σ'.acks x n.currentTerm (σ'.log x).length
      rw [hlogs, ← h.term]
      exact hself
    · intro p hp
      exact Or.inl (by simp [Node.asLeader, hp])
  · by_cases ht : t = n.currentTerm
    · exact Or.inr (Or.inr ⟨ht, rfl⟩)
    · refine Or.inl ?_
      rw [hllogs, h.term, Function.update_of_ne ht]
  · by_cases ht : t = n.currentTerm
    · exact Or.inr ⟨_, _, _, by rw [ht]⟩
    · refine Or.inl ?_
      rw [hbases, h.term, Function.update_of_ne ht]
  · by_cases ht : t = n.currentTerm
    · rw [ht, hllog]
      exact indexed_log hI hnum x
    · rw [hllogs, h.term, Function.update_of_ne ht]
      exact hnum t

/-- The leader appends the entry of a client. -/
theorem Node.Tracks.proposes
    (h : n.Tracks cfg σ x)
    (hI : Inv Entry.term cfg.Quorum σ)
    (hnum : ∀ t, Indexed (σ.llog t))
    (hrole : n.role = .leader)
    (payload : Bytes) (prevTerm : Nat) :
    ∃ σ', Simulates cfg σ x (.propose (n.clientEntry payload) prevTerm) n
      { n with store := n.store.appendEntries [n.clientEntry payload] } σ' := by
  obtain ⟨hled, heq, hself, hpeers⟩ := h.leader hrole
  have hled' : σ.base (σ.term x) ≠ none := h.term ▸ hled
  have hentry : (n.clientEntry payload).term = σ.term x := h.term.symm
  obtain ⟨σ', hstep, hself', hterms, hlog, hbases, hllogs⟩ :=
    exists_proposed hled' (h.term ▸ heq) hentry
  have hg := hstep.grows hI
  have hindex : (n.clientEntry payload).index = (σ.log x).length + 1 := by
    rw [← h.log.length]
    rfl
  have hstores : (n.store.appendEntries [n.clientEntry payload]).Stores
      (σ.log x ++ [n.clientEntry payload]) :=
    h.log.appendEntries (by simp [hindex])
  have hllog : σ'.llog n.currentTerm = σ.log x ++ [n.clientEntry payload] := by
    rw [hllogs, h.term, Function.update_self]
  have hdone : (σ'.llog n.currentTerm)[(n.clientEntry payload).index - 1]? =
      some (n.clientEntry payload) := by
    rw [hllog, hindex]
    simp
  refine ⟨σ', Relation.ReflTransGen.single hstep, ?_, hdone, fun t => ?_,
    fun t => Or.inl (by rw [hbases]), fun t => ?_⟩
  · refine ⟨(congrFun hterms x).trans h.term, h.disk, by rw [hlog]; exact hstores, h.applied,
      h.reached, ?_, ?_, by simp [hrole], fun _ => ⟨hg.elected hled, hlog.trans hllog.symm, ?_, ?_⟩⟩
    · rw [hlog, List.length_append]
      exact h.commit_le.trans (Nat.le_add_right _ _)
    · rw [hlog, List.take_append_of_le_length h.commit_le]
      exact hg.committed le_rfl h.committed
    · rw [hlog, List.length_append, ← h.term]
      exact hself'
    · exact fun p hp => (hpeers p hp).imp_right fun ⟨m, hm, hack⟩ =>
        ⟨m, hm, hg.acks _ _ _ hack⟩
  · by_cases ht : t = n.currentTerm
    · exact Or.inr (Or.inl ⟨ht, hrole⟩)
    · exact Or.inl (by rw [hllogs, h.term, Function.update_of_ne ht])
  · by_cases ht : t = n.currentTerm
    · have hold := indexed_log hI hnum x
      rw [ht, hllog]
      unfold Indexed at hold ⊢
      rw [List.map_append, hold, List.length_append, ← List.range'_append_1]
      simp [hindex, Nat.add_comm]
    · rw [hllogs, h.term, Function.update_of_ne ht]
      exact hnum t

/-- The commit index moves only to an index that may be committed. -/
theorem Node.committable_committedIndex
    (n : Node) (o : Options)
    (hne : n.committedIndex o ≠ n.commitIndex) :
    n.committable o (n.committedIndex o) = true ∧ n.commitIndex < n.committedIndex o ∧
      n.committedIndex o ≤ n.store.lastIndex := by
  have hfold : ∀ (is : List Nat) (c : Nat),
      is.foldl (fun c i => if n.committable o i then i else c) c = c ∨
        (is.foldl (fun c i => if n.committable o i then i else c) c ∈ is ∧
          n.committable o (is.foldl (fun c i => if n.committable o i then i else c) c) =
            true) := by
    intro is
    induction is with
    | nil =>
        exact fun c => Or.inl rfl
    | cons i is ih =>
        intro c
        rw [List.foldl_cons]
        by_cases hi : n.committable o i = true
        · rw [if_pos hi]
          rcases ih i with heq | ⟨hmem, hcommittable⟩
          · rw [heq]
            exact Or.inr ⟨List.mem_cons_self, hi⟩
          · exact Or.inr ⟨List.mem_cons_of_mem _ hmem, hcommittable⟩
        · rw [if_neg hi]
          exact (ih c).imp_right fun ⟨hmem, h⟩ => ⟨List.mem_cons_of_mem _ hmem, h⟩
  obtain ⟨hmem, hcommittable⟩ := (hfold _ _).resolve_left hne
  have hrange := List.mem_range'_1.mp hmem
  refine ⟨hcommittable, ?_, ?_⟩
  · show n.commitIndex < List.foldl _ _ _
    omega
  · show List.foldl _ _ _ ≤ _
    omega

/-- What the leader commits was acknowledged by a majority. -/
theorem Node.Tracks.chosen
    (h : n.Tracks cfg σ x)
    (hx : x ∈ cfg.members)
    (hrole : n.role = .leader)
    (hne : n.committedIndex (cfg.options x) ≠ n.commitIndex) :
    n.committedIndex (cfg.options x) ≤ (σ.llog n.currentTerm).length ∧
      Chosen Entry.term cfg.Quorum σ n.currentTerm
        ((σ.llog n.currentTerm).take (n.committedIndex (cfg.options x))) := by
  obtain ⟨hcommittable, hlt, hle⟩ := n.committable_committedIndex (cfg.options x) hne
  generalize n.committedIndex (cfg.options x) = i at hcommittable hlt hle
  obtain ⟨hled, heq, hself, hpeers⟩ := h.leader hrole
  simp only [Node.committable, Bool.and_eq_true, decide_eq_true_eq] at hcommittable
  obtain ⟨hterm, hmajority⟩ := hcommittable
  obtain ⟨hlen, hat⟩ := h.log.of_term hterm
  rw [← heq]
  refine ⟨hlen, ⟨heq ▸ List.take_prefix _ _, ?_⟩, ?_⟩
  · obtain ⟨p, e, hp, -, he⟩ := exists_last_take (τ := Entry.term) (by omega) hlen
    exact ⟨p, e, hp, he.trans hat⟩
  · -- the leader and the peers known to store the entry
    have hnodup : (cfg.options x).peers.Nodup := cfg.nodup.filter _
    have hcard : ((cfg.options x).peers.filter fun p =>
        decide (i ≤ n.matchIndex p)).toFinset.card =
        ((cfg.options x).peers.filter fun p => decide (i ≤ n.matchIndex p)).length :=
      List.toFinset_card_of_nodup (hnodup.filter _)
    refine ⟨insert x ((cfg.options x).peers.filter fun p =>
      decide (i ≤ n.matchIndex p)).toFinset, quorum_insert hx ?_ ?_, ?_⟩
    · intro p hp
      exact (List.mem_filter.mp (List.mem_toFinset.mp hp)).1
    · rw [hcard]
      unfold Node.replicaCountLocked at hmajority
      omega
    · have hlength : ((σ.log x).take i).length = i := by
        rw [List.length_take, min_eq_left hlen]
      intro u hu
      rw [hlength]
      rcases Finset.mem_insert.mp hu with rfl | hu
      · exact ⟨_, hlen, hself⟩
      · obtain ⟨hp, hstored⟩ := List.mem_filter.mp (List.mem_toFinset.mp hu)
        rw [decide_eq_true_eq] at hstored
        rcases hpeers u hp with hzero | ⟨m, hm, hack⟩
        · omega
        · exact ⟨m, hstored.trans hm, hack⟩

/-- The leader moves its commit index. -/
theorem Node.Tracks.advances
    (h : n.Tracks cfg σ x)
    (hnum : ∀ t, Indexed (σ.llog t))
    (hx : x ∈ cfg.members)
    (hrole : n.role = .leader)
    (hne : n.committedIndex (cfg.options x) ≠ n.commitIndex) :
    Simulates cfg σ x
      (.advance n.currentTerm (n.committedIndex (cfg.options x))
        (Cluster.logThrough n (n.committedIndex (cfg.options x)))) n
      { n with commitIndex := n.committedIndex (cfg.options x) } σ := by
  obtain ⟨hle, hchosen⟩ := h.chosen hx hrole hne
  obtain ⟨-, hlt, -⟩ := n.committable_committedIndex (cfg.options x) hne
  have hleading := h.leader hrole
  refine Simulates.stutter ?_ ⟨hle, hchosen, fun e he => ?_⟩ hnum
  · refine ⟨h.term, h.disk, h.log, h.applied, h.reached.trans hlt.le, ?_, ?_, h.candidate,
      fun _ => ⟨hleading.led, hleading.log, hleading.self, hleading.peers⟩⟩
    · rw [hleading.log]
      exact hle
    · rw [hleading.log]
      exact Or.inr ⟨_, le_rfl, _, hchosen, List.prefix_rfl⟩
  · obtain ⟨hmem, hindex⟩ := List.mem_filter.mp he
    rw [← hleading.log]
    exact ⟨by simpa using hindex, h.log.mem_entriesFrom hmem⟩

/-- A follower learns a commit index for a part of the log that it has verified. -/
theorem Node.Tracks.learns
    {req : AppendEntriesRequest}
    (h : n.Tracks cfg σ x)
    (hI : Inv Entry.term cfg.Quorum σ)
    (hnum : ∀ t, Indexed (σ.llog t))
    (hattached : n.Attached req)
    (hheld : req.Numbered → n.Holds req.entries)
    (hcommit : n.commitIndex < req.leaderCommit)
    (hrests : Label.Rests cfg σ x (.learn req n.store.lastIndex)) :
    Simulates cfg σ x (.learn req n.store.lastIndex) n
      { n with commitIndex := min req.leaderCommit n.store.lastIndex } σ := by
  obtain ⟨hreq, hverified⟩ := hrests
  have hterm : n.currentTerm = req.term := hattached.term
  obtain ⟨hlen, hagree⟩ := hattached.agrees hreq.carries (hnum req.term) h.log
    (Node.Tracks.matching hI req.term) (List.append_nil _).symm
    (hheld (hreq.carries.numbered (hnum req.term)))
  have hlast := h.log.length
  have hcommit_le := h.commit_le
  have hbound : min req.leaderCommit n.store.lastIndex ≤
      req.prevLogIndex + req.entries.length := by omega
  have hsame : (σ.log x).take (min req.leaderCommit n.store.lastIndex) =
      (σ.llog req.term).take (min req.leaderCommit n.store.lastIndex) :=
    take_eq_of_le hagree hbound
  refine Simulates.stutter ⟨h.term, h.disk, h.log, h.applied, ?_, ?_, ?_, ?_, ?_⟩ trivial hnum
  · have := h.reached
    show n.lastApplied ≤ min req.leaderCommit n.store.lastIndex
    omega
  · show min req.leaderCommit n.store.lastIndex ≤ _
    omega
  · show CommittedBy Entry.term cfg.Quorum σ n.currentTerm
      ((σ.log x).take (min req.leaderCommit n.store.lastIndex))
    rw [hsame, hterm]
    exact hreq.committed.mono le_rfl (List.take_prefix_take_left (min_le_left _ _))
  · simp [hattached.role]
  · simp [hattached.role]

/-- A snapshot that is no news ends in what the node has committed. -/
theorem Node.Tracks.ignores
    {req : InstallSnapshotRequest}
    (h : n.Tracks cfg σ x)
    (hI : Inv Entry.term cfg.Quorum σ)
    (hnum : ∀ t, Indexed (σ.llog t))
    (hterm : n.currentTerm = req.term)
    (hold : req.lastIncludedIndex ≤ n.store.snapshotIndex)
    (hreq : req.Backed cfg σ) :
    ∃ σ', Simulates cfg σ x (.ignore req) n n σ' := by
  have hled : σ.base n.currentTerm ≠ none := hterm ▸ hreq.led
  have hbelow : req.lastIncludedIndex ≤ n.commitIndex :=
    hold.trans (h.log.ordered.applied.trans (h.applied.trans h.reached))
  -- committed, so a prefix of the leader log
  have hshared : (σ.log x).take req.lastIncludedIndex <+: σ.llog n.currentTerm :=
    (List.take_prefix_take_left hbelow).trans (h.committed_le hI hled)
  have hheld : (σ.llog n.currentTerm).take req.lastIncludedIndex <+: σ.log x := by
    have heq := List.prefix_iff_eq_take.mp hshared
    rw [List.length_take, min_eq_left (hbelow.trans h.commit_le)] at heq
    rw [← heq]
    exact List.take_prefix _ _
  obtain ⟨σ', hstep, htracks, hack, hllog, hbase⟩ :=
    h.acknowledges hI hled (hterm ▸ hreq.le) hheld
  have hdone : σ'.acks x req.term req.lastIncludedIndex := hterm ▸ hack
  exact ⟨σ', Relation.ReflTransGen.single hstep, htracks, hdone,
    fun t => Or.inl (by rw [hllog]), fun t => Or.inl (by rw [hbase]),
    fun t => by rw [hllog]; exact hnum t⟩

/-- The log after a snapshot that fits: the node has the leader's log up to the
snapshot, or it had it before. -/
theorem Node.Tracks.fits
    {req : InstallSnapshotRequest} (state : Table String String)
    (h : n.Tracks cfg σ x)
    (hI : Inv Entry.term cfg.Quorum σ)
    (hterm : n.currentTerm = req.term)
    (hnew : n.store.snapshotIndex < req.lastIncludedIndex)
    (hreq : req.Backed cfg σ)
    (hfits : n.store.lastIndex ≤ req.lastIncludedIndex ∨
      n.store.term req.lastIncludedIndex = some req.lastIncludedTerm) :
    ∃ f', (n.store.installSnapshot
        ⟨req.lastIncludedIndex, req.lastIncludedTerm, req.data⟩ state).Stores f' ∧
      Merges (σ.llog n.currentTerm) (σ.log x) f' ∧
      (f' = σ.log x ∨ f' <+: σ.llog n.currentTerm) ∧
      req.lastIncludedIndex ≤ f'.length ∧
      f'.take req.lastIncludedIndex =
        (σ.llog n.currentTerm).take req.lastIncludedIndex := by
  rw [hterm]
  rcases hfits with hshort | hknown
  · rw [h.log.length] at hshort
    have hlength : ((σ.llog req.term).take req.lastIncludedIndex).length =
        req.lastIncludedIndex := by rw [List.length_take, min_eq_left hreq.le]
    refine ⟨(σ.llog req.term).take req.lastIncludedIndex,
      h.log.installSnapshot hnew ?_ hlength.ge fun i hi => ?_,
      ⟨matching_of_le (List.take_prefix _ _), fun p hp hp' => ?_⟩,
      Or.inr (List.take_prefix _ _), hlength.ge, by rw [List.take_take, min_self]⟩
    · exact hreq.term.trans (termAt_mono (List.take_prefix _ _) hlength.ge).symm
    · simp only at hi
      rw [List.getElem?_eq_none (by omega), List.getElem?_eq_none (by omega)]
    · exact List.prefix_take_iff.mpr ⟨hp', hp.length_le.trans hshort⟩
  · obtain ⟨hle, hat⟩ := h.log.of_term hknown
    have hmatching := Node.Tracks.matching (x := x) hI req.term
    exact ⟨σ.log x, h.log.installSnapshot hnew hat.symm hle fun _ _ => rfl,
      Merges.refl hmatching, Or.inl rfl, hle,
      hmatching _ hle hreq.le (hat.trans hreq.term)⟩

/-- A follower installs a snapshot that fits its log. -/
theorem Node.Tracks.installs
    {req : InstallSnapshotRequest} {state : Table String String}
    (h : n.Tracks cfg σ x)
    (hI : Inv Entry.term cfg.Quorum σ)
    (hnum : ∀ t, Indexed (σ.llog t))
    (hlistens : n.Listens req)
    (hnew : n.store.snapshotIndex < req.lastIncludedIndex)
    (hrests : Label.Rests cfg σ x
      (.install req n.store.lastIndex (n.store.term req.lastIncludedIndex) n.lastApplied)) :
    ∃ σ', Simulates cfg σ x
      (.install req n.store.lastIndex (n.store.term req.lastIncludedIndex) n.lastApplied) n
      { n with
        store := n.store.installSnapshot
          ⟨req.lastIncludedIndex, req.lastIncludedTerm, req.data⟩ state
        commitIndex := max n.commitIndex req.lastIncludedIndex
        lastApplied := max n.lastApplied req.lastIncludedIndex } σ' := by
  obtain ⟨hreq, hfits⟩ := hrests
  have hterm : n.currentTerm = req.term := hlistens.term
  have hled : σ.base n.currentTerm ≠ none := hterm ▸ hreq.led
  obtain ⟨f', hstores, hmerges, hshape, hle, hsame⟩ :=
    h.fits state hI hterm hnew hreq hfits
  obtain ⟨hkept, htake⟩ := h.kept hI hled hmerges
  have hcommitted : CommittedBy Entry.term cfg.Quorum σ n.currentTerm
      (f'.take (max n.commitIndex req.lastIncludedIndex)) := by
    rcases le_total n.commitIndex req.lastIncludedIndex with hc | hc
    · rw [max_eq_right hc, hsame, hterm]
      exact hreq.committed
    · rw [max_eq_left hc, htake]
      exact h.committed
  obtain ⟨σ₁, hsteps, htracks, hlog, hllog, hbase⟩ :=
    h.adopts { n with
        store := n.store.installSnapshot
          ⟨req.lastIncludedIndex, req.lastIncludedTerm, req.data⟩ state
        commitIndex := max n.commitIndex req.lastIncludedIndex
        lastApplied := max n.lastApplied req.lastIncludedIndex }
      hI hled hmerges hshape hstores hlistens.role rfl rfl (le_max_right _ _)
      (max_le_max_right _ h.reached) (max_le hkept hle) hcommitted
  have hI₁ := Steps.inv hI hsteps
  have hm : req.lastIncludedIndex ≤ (σ₁.llog n.currentTerm).length := by
    rw [hllog, hterm]
    exact hreq.le
  have hheld : (σ₁.llog n.currentTerm).take req.lastIncludedIndex <+: σ₁.log x := by
    rw [hllog, hlog, ← hsame]
    exact List.take_prefix _ _
  obtain ⟨σ₂, hstep, htracks₂, hack, hllog₂, hbase₂⟩ :=
    htracks.acknowledges hI₁ (by rw [hbase]; exact hled) hm hheld
  have hdone : σ₂.acks x req.term req.lastIncludedIndex := hterm ▸ hack
  exact ⟨σ₂, hsteps.tail hstep, htracks₂, hdone, fun t => Or.inl (by rw [hllog₂, hllog]),
    fun t => Or.inl (by rw [hbase₂, hbase]), fun t => by rw [hllog₂, hllog]; exact hnum t⟩

/-- The leader records what a peer has acknowledged. -/
theorem Node.Tracks.progresses
    {p : String} {m : Nat}
    (h : n.Tracks cfg σ x)
    (hnum : ∀ t, Indexed (σ.llog t))
    (hrole : n.role = .leader)
    (hrests : Label.Rests cfg σ x (.progress p n.currentTerm m)) :
    Simulates cfg σ x (.progress p n.currentTerm m) n
      (Node.recordPeerProgressLocked p m n) σ := by
  obtain ⟨-, m', hm, hack⟩ := hrests
  obtain ⟨hled, heq, hself, hpeers⟩ := h.leader hrole
  refine Simulates.stutter ?_ trivial hnum
  unfold Node.recordPeerProgressLocked
  split_ifs with hlt
  · refine ⟨h.term, h.disk, h.log, h.applied, h.reached, h.commit_le, h.committed,
      h.candidate, fun _ => ⟨hled, heq, hself, fun q hq => ?_⟩⟩
    by_cases hqp : q = p
    · subst hqp
      exact Or.inr ⟨m', by simpa [Node.setNextIndex, Node.setMatchIndex] using hm, hack⟩
    · simpa [Node.setNextIndex, Node.setMatchIndex, Function.update_of_ne hqp]
        using hpeers q hq
  · exact ⟨h.term, h.disk, h.log, h.applied, h.reached, h.commit_le, h.committed,
      h.candidate, fun _ => ⟨hled, heq, hself, hpeers⟩⟩

/-- Every move of a node is a sequence of steps of the abstract node. -/
theorem Move.simulates
    (hmove : Move (Cluster.env cfg False x) l n n')
    (h : n.Tracks cfg σ x)
    (hI : Inv Entry.term cfg.Quorum σ)
    (hnum : ∀ t, Indexed (σ.llog t))
    (hx : x ∈ cfg.members)
    (hrests : l.Rests cfg σ x)
    (hopen : ∀ t last s log, l = .lead t last s log → σ.base t = none) :
    ∃ σ', Simulates cfg σ x l n n' σ' := by
  have hself := hmove
  cases hmove with
  | raise hterm =>
      obtain ⟨σ', hstep, htracks, -, hllog, hbase⟩ :=
        h.raises _ hI hterm.le rfl rfl (hself.stores trivial h.log) rfl rfl rfl rfl
      exact ⟨σ', Relation.ReflTransGen.single hstep, htracks, trivial,
        fun t => Or.inl (by rw [hllog]), fun t => Or.inl (by rw [hbase]),
        fun t => by rw [hllog]; exact hnum t⟩
  | raiseUnsaved hfaulty _ => exact hfaulty.elim
  | follow =>
      exact ⟨σ, Simulates.stutter (h.frame rfl h.disk h.log h.applied h.reached le_rfl
        (by simp) (by simp)) trivial hnum⟩
  | campaign hrole hterm =>
      have hnext : nextTerm n.currentTerm = n.currentTerm + 1 :=
        Nat.mod_eq_of_lt (hterm.resolve_left fun hs => hs)
      have hle : n.currentTerm ≤ nextTerm n.currentTerm := hnext ▸ Nat.le_succ _
      -- the node as it is between the new term and its own vote
      obtain ⟨σ₁, hstep, htracks₁, hlog₁, hllog₁, hbase₁⟩ :=
        h.raises { n with
            role := .follower
            currentTerm := nextTerm n.currentTerm
            store := n.store.saveTermVote (nextTerm n.currentTerm) x }
          hI hle rfl rfl (hself.stores trivial h.log) rfl rfl rfl rfl
      obtain ⟨σ₂, hsteps, htracks₂, hvoted, hlog₂, hllog₂, hbase₂⟩ :=
        htracks₁.votes (hstep.inv hI) (p := position Entry.term (σ₁.log x))
          (Or.inr ⟨rfl, le_rfl⟩)
      refine ⟨σ₂, (Relation.ReflTransGen.single hstep).trans hsteps, ?_, trivial,
        fun t => Or.inl (by rw [hllog₂, hllog₁]), fun t => Or.inl (by rw [hbase₂, hbase₁]),
        fun t => by rw [hllog₂, hllog₁]; exact hnum t⟩
      refine ⟨htracks₂.term, htracks₂.disk, htracks₂.log, htracks₂.applied, htracks₂.reached,
        htracks₂.commit_le, htracks₂.committed, fun _ => ?_, by simp⟩
      rw [hlog₂]
      exact hvoted
  | campaignUnsaved hfaulty _ _ => exact hfaulty.elim
  | @vote _ req hterm _ hlog =>
      have hp : UpToDate (req.lastLogTerm, req.lastLogIndex)
          (position Entry.term (σ.log x)) := by
        rw [h.log.position_eq]
        simpa [Node.upToDate, UpToDate] using hlog
      have hsaved : ({ n with
          votedFor := req.candidateId
          store := n.store.saveTermVote n.currentTerm req.candidateId } : Node).Tracks
          cfg σ x :=
        h.frame rfl rfl (hself.stores trivial h.log) h.applied h.reached le_rfl id
          fun hrole => ⟨hrole, rfl⟩
      obtain ⟨σ', hsteps, htracks, hvoted, -, hllog, hbase⟩ := hsaved.votes hI hp
      exact ⟨σ', hsteps, htracks, fun _ => hterm ▸ hvoted, fun t => Or.inl (by rw [hllog]),
        fun t => Or.inl (by rw [hbase]), fun t => by rw [hllog]; exact hnum t⟩
  | voteUnsaved hfaulty _ _ => exact hfaulty.elim
  | lead hrole _ => exact h.leads hI hnum hx hrole (hopen _ _ _ _ rfl) hrests
  | propose hrole => exact h.proposes hI hnum hrole _ _
  | truncate _ _ _ _ => exact h.merges hI hnum hself (Or.inl ⟨_, rfl⟩) hrests
  | store _ _ _ => exact h.merges hI hnum hself (Or.inr (Or.inl ⟨_, rfl⟩)) hrests
  | accept _ _ _ => exact h.merges hI hnum hself (Or.inr (Or.inr ⟨_, rfl⟩)) hrests
  | learn hreq hheld hcommit => exact ⟨σ, h.learns hI hnum hreq hheld hcommit hrests⟩
  | advance hrole hne =>
      exact ⟨σ, h.advances hnum hx (hrole.resolve_left fun hs => hs) hne⟩
  | apply _ hcommit _ _ =>
      refine ⟨σ, Simulates.stutter (h.frame rfl ?_ (hself.stores trivial h.log) ?_ hcommit
        le_rfl id fun hrole => ⟨hrole, rfl⟩) trivial hnum⟩
      · rw [Command.applyTo_eq]
        exact h.disk
      · rw [Command.applyTo_eq]
  | skip _ _ _ _ =>
      exact ⟨σ, Simulates.stutter (h.frame rfl h.disk (hself.stores trivial h.log) le_rfl
        (h.log.ordered.applied.trans (h.applied.trans h.reached)) le_rfl id
        fun hrole => ⟨hrole, rfl⟩) trivial hnum⟩
  | compact _ _ _ =>
      exact ⟨σ, Simulates.stutter (h.frame rfl h.disk (hself.stores trivial h.log) le_rfl
        h.reached le_rfl id fun hrole => ⟨hrole, rfl⟩) trivial hnum⟩
  | install hreq hnew _ => exact h.installs hI hnum hreq hnew hrests
  | ignore hreq hold => exact h.ignores hI hnum hreq.term hold hrests
  | setNext =>
      exact ⟨σ, Simulates.stutter (h.frame rfl h.disk h.log h.applied h.reached le_rfl id
        fun hrole => ⟨hrole, rfl⟩) trivial hnum⟩
  | progress hrole => exact ⟨σ, h.progresses hnum hrole hrests⟩
  | restart =>
      exact ⟨σ, Simulates.stutter (h.frame h.disk rfl h.log le_rfl le_rfl
        (h.applied.trans h.reached) (by simp [Node.new]) (by simp [Node.new])) trivial hnum⟩

end Moves

section Requests

variable {cfg : Config} {σ : State String Entry} {x : String} {n : Node}

/-- A request of a leader is a piece of its log. -/
theorem Node.Tracks.backs_append
    {p : String} {prevLogTerm : Nat}
    (h : n.Tracks cfg σ x)
    (hleader : n.role = .leader)
    (hprev : n.store.term (n.nextIndexLocked p - 1) = some prevLogTerm)
    (habove : n.store.snapshotIndex < n.nextIndexLocked p) :
    (n.appendRequest (cfg.options x) p prevLogTerm).Backed cfg σ := by
  have hlog := (h.leader hleader).log
  have hcarries := Node.carries_of_build h.log habove
    (Node.buildAppendRequestLocked_of_term (o := cfg.options x) hprev)
  exact ⟨(h.leader hleader).led, hlog ▸ hcarries, hlog ▸ h.commit_le, hlog ▸ h.committed⟩

/-- A snapshot of a leader ends in what it has committed. -/
theorem Node.Tracks.backs_snapshot
    (h : n.Tracks cfg σ x)
    (hleader : n.role = .leader) :
    (n.buildSnapshotRequest (cfg.options x)).Backed cfg σ := by
  have hlog := (h.leader hleader).log
  have hsnapshot : n.store.snapshotIndex ≤ n.commitIndex :=
    h.log.ordered.applied.trans (h.applied.trans h.reached)
  have hposition : ∀ i t, i ≤ n.store.snapshotIndex →
      t = termAt Entry.term (σ.log x) i →
      (⟨n.currentTerm, (cfg.options x).nodeID, i, t, n.store.loadSnapshot.data⟩ :
        InstallSnapshotRequest).Backed cfg σ := by
    intro i t hi ht
    rw [hlog] at ht
    exact ⟨(h.leader hleader).led, hlog ▸ (hi.trans hsnapshot).trans h.commit_le, ht,
      hlog ▸ h.committed.mono le_rfl (List.take_prefix_take_left (hi.trans hsnapshot))⟩
  unfold Node.buildSnapshotRequest
  refine hposition _ _ ?_ ?_
  all_goals
    unfold Store.loadSnapshot
    rcases hs : n.store.snapshot with _ | snap
    · simp
    · obtain ⟨hindex, hterm⟩ := h.log.ordered.snapshot snap hs
      simp [hindex, hterm, h.log.snapshotTerm]

end Requests

end LogReplicator
