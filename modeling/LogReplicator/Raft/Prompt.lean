import LogReplicator.Raft.Calls
import LogReplicator.Raft.Payloads
import LogReplicator.Raft.Projection
import LogReplicator.Raft.Refinement

/-!
# Nothing committed waits

A node applies what it learns to be committed in the same section, under the same lock.
The loop gives up at a failed write, at a gap of the log and at a payload that does not
decode.  Where writes do not fail, the other two do not happen either, so between two
steps of the cluster every node has applied exactly what it knows to be committed.
-/

namespace LogReplicator

open Library Txn

/-- What the node knows to be committed is applied. -/
def Node.Prompt (n : Node) : Prop :=
  n.commitIndex ≤ n.lastApplied

section Moves

variable {env : Env} {l : Label} {ls : List Label} {n n' : Node}

/-- Only news about the commit index can leave something to apply. -/
theorem Move.prompt
    (h : Move env l n n')
    (hl : ¬ l.Learns)
    (hn : n.Prompt) :
    n'.Prompt := by
  cases h with
  | learn _ _ _ =>
      exact absurd trivial hl
  | advance _ _ =>
      exact absurd trivial hl
  | apply _ hcommit _ _ =>
      exact absurd hn (not_le.mpr hcommit)
  | skip _ hcommit _ _ =>
      exact absurd hn (not_le.mpr hcommit)
  | install _ _ _ =>
      exact max_le_max_right _ hn
  | progress _ =>
      unfold Node.recordPeerProgressLocked
      split_ifs <;> exact hn
  | restart =>
      exact le_rfl
  | _ =>
      exact hn

theorem Node.Prompt.path
    (hn : n.Prompt)
    (hpath : Path (Move env) ls n n')
    (hls : ∀ l ∈ ls, ¬ l.Learns) :
    n'.Prompt :=
  hpath.invariant (P := Node.Prompt) hn fun l hl _ _ hmove hm => hmove.prompt (hls l hl) hm

theorem not_learns_of_installs
    {req : InstallSnapshotRequest}
    (h : l.Installs req) :
    ¬ l.Learns := by
  cases l <;> simp_all [Label.Installs, Label.Learns]

theorem not_learns_of_votes
    {req : RequestVoteRequest}
    (h : l.Votes req) :
    ¬ l.Learns := by
  cases l <;> simp_all [Label.Votes, Label.Learns]

/-- Of the moves of an append handler, only the one that adopts the commit index of the
leader brings news about it. -/
theorem Label.Appends.learns
    {req : AppendEntriesRequest}
    (h : l.Appends req)
    (hl : l.Learns) :
    ∃ last, l = .learn req last := by
  cases l <;> simp_all [Label.Appends, Label.Applies, Label.Learns]

/-- A single node commits a client's entry at once, and applies it. -/
theorem appendClientEntry_settles
    {payload : Bytes} :
    env.Spec (Node.appendClientEntry env.json env.options payload)
      (fun _ ls n' => (∀ l ∈ ls, ¬ l.Learns) ∨ env.faulty ∨ n'.Settled env)
      (fun _ => True) n := by
  unfold Node.appendClientEntry
  refine Txn.Spec.read ?_
  by_cases hrole : n.role = .leader
  swap
  · rw [if_pos hrole]
    exact Txn.Spec.pure (Or.inl (by simp))
  rw [if_neg (not_not.mpr hrole)]
  refine Txn.Spec.writeIf_bind (fun _ => Move.propose hrole) (fun _ => ?_)
    (fun _ => Txn.Spec.pure (Or.inl (by simp))) trivial
  rw [if_neg (by decide)]
  refine (proposed_spec hrole).mono ?_ fun _ _ => trivial
  rintro r ls n' _ ⟨-, -, rfl | hsettled⟩
  · exact Or.inl (by simp [Label.Learns])
  · exact Or.inr hsettled

end Moves

namespace Solo

variable {json : Json} {o : Options} {s : Solo} {os : List Outcome}

/-- A section whose writes do not fail, and that ends with nothing to apply or stuck. -/
theorem runSection_settled
    {α : Type} {m : Txn Node α} {answer : α → List Answered}
    {Q : α → List Label → Node → Prop} {D : List Label → Prop}
    (h : (envOf False json o).Spec m Q D s.node)
    (hos : Txn.Allowed False os)
    (hs : s.node.Prompt)
    (hQ : ∀ a ls n', Q a ls n' →
      (∀ l ∈ ls, ¬ l.Learns) ∨ n'.Settled (envOf False json o)) :
    (s.runSection m os answer).node.Settled (envOf False json o) := by
  rcases h.cases os hos with
    ⟨a, n', os', ls, hr, hpath, hq⟩ | ⟨n', os', ls, n'', hr, -, -, -⟩
  · simp only [runSection, hr]
    rcases hQ a ls n' hq with hls | hsettled
    · exact Or.inl (hs.path hpath hls)
    · exact hsettled
  · simp only [runSection, hr]
    exact Or.inl le_rfl

theorem perform_settled
    (hs : s.node.Prompt)
    (op : Operation)
    (hos : Txn.Allowed False os) :
    (s.perform json o op os).node.Settled (envOf False json o) := by
  have hsolo : (envOf False json o).solo := trivial
  cases op with
  | timeout =>
      refine runSection_settled (becomeCandidate_spec (Or.inl hsolo)) hos hs ?_
      rintro _ ls _ (⟨-, rfl | ⟨-, rfl⟩⟩ | ⟨-, rfl⟩) <;> exact Or.inl (by simp [Label.Learns])
  | win term =>
      refine runSection_settled (becomeLeader_spec fun _ _ => Or.inl hsolo) hos hs ?_
      rintro _ ls _ (⟨-, rfl, -⟩ | ⟨-, -, -, rfl⟩) <;>
        exact Or.inl (by simp [Label.Learns, Node.leadLabel])
  | commitAlone =>
      refine runSection_settled (advanceCommitLocked_spec (Or.inl hsolo)) hos hs ?_
      rintro _ ls _ ⟨-, rfl | hfaulty | hsettled⟩
      · exact Or.inl (by simp)
      · exact hfaulty.elim
      · exact Or.inr hsettled
  | vote req =>
      exact runSection_settled requestVote_spec hos hs fun _ _ _ h =>
        Or.inl fun l hl => not_learns_of_votes (h.labels l hl)
  | append req =>
      refine runSection_settled appendEntries_spec hos hs fun _ ls _ h => ?_
      by_cases hlearns : ∃ l ∈ ls, l.Learns
      · obtain ⟨l, hl, hl'⟩ := hlearns
        obtain ⟨last, rfl⟩ := (h.labels l hl).learns hl'
        exact Or.inr ((h.settled ⟨last, hl⟩).resolve_left id)
      · exact Or.inl fun l hl hl' => hlearns ⟨l, hl, hl'⟩
  | snapshot req =>
      exact runSection_settled installSnapshot_spec hos hs fun _ _ _ h =>
        Or.inl fun l hl => not_learns_of_installs (h.labels l hl)
  | observe term =>
      refine runSection_settled observeHigherTerm_spec hos hs ?_
      rintro _ ls _ (⟨-, -, rfl, -⟩ | ⟨-, -, saved, rfl⟩) <;>
        exact Or.inl (by simp [Label.Learns])
  | build peerID =>
      rcases buildAppendRequestLocked_cases s.node o peerID with ⟨next, h⟩ | ⟨term, -, h⟩
      · refine Or.inl ?_
        simp only [perform, h]
        exact hs
      · refine Or.inl ?_
        simp only [perform, h]
        exact hs
  | appendReply peerID term req reply =>
      refine runSection_settled appendReplied_spec hos hs ?_
      rintro _ ls _ (⟨-, -, rfl⟩ | ⟨-, -, ⟨-, -, rfl⟩ | ⟨-, -, -, hls | hfaulty | hsettled⟩⟩)
      · exact Or.inl (by simp)
      · exact Or.inl (by simp [Label.Learns])
      · exact Or.inl fun l hl => by simp [hls l hl, Label.Learns]
      · exact hfaulty.elim
      · exact Or.inr hsettled
  | snapshotReply peerID term lastIncludedIndex =>
      refine runSection_settled snapshotReplied_spec hos hs ?_
      rintro _ ls _ (⟨-, -, rfl⟩ | ⟨-, -, -, -, hls | hfaulty | hsettled⟩)
      · exact Or.inl (by simp)
      · exact Or.inl fun l hl => by simp [hls l hl, Label.Learns]
      · exact hfaulty.elim
      · exact Or.inr hsettled
  | client payload =>
      exact runSection_settled appendClientEntry_settles hos hs fun _ _ _ h =>
        h.imp_right fun hsettled => hsettled.resolve_left id
  | crash =>
      exact Or.inl le_rfl

end Solo

namespace Cluster

section Steps

variable {cfg : Config} {c c' : Cluster} {a : Action} {x : String}

theorem outcomes_of_task
    {t : Task}
    (h : c.task cfg a = some t) :
    t.outcomes = a.outcomes := by
  cases a with
  | winElection x os =>
      simp only [task] at h
      split at h
      all_goals cases h
      rfl
  | deliver id os =>
      obtain ⟨call, -, rfl⟩ := Option.map_eq_some_iff.mp h
      rfl
  | appendDone x p os =>
      simp only [task] at h
      split at h
      all_goals cases h
      rfl
  | snapshotDone x p os =>
      simp only [task] at h
      split at h
      all_goals cases h
      rfl
  | propose i os =>
      obtain ⟨op, -, h⟩ := Option.bind_eq_some_iff.mp h
      obtain ⟨cmd, -, rfl⟩ := Option.map_eq_some_iff.mp h
      rfl
  | _ =>
      cases h
      try rfl

/-- A step without a failed write leaves no node with something it could apply. -/
theorem step_settled
    (hstep : c.step cfg a = some c')
    (hcommits : .fail ∉ a.outcomes)
    (hprompt : ∀ y, (c.node y).Prompt) :
    (c'.node x).Settled (Solo.envOf False cfg.json (cfg.options x)) := by
  rcases step_moves hstep with ⟨-, hrests⟩ | ⟨t, htask, hperforms⟩
  · rw [hrests.node]
    exact Or.inl (hprompt x)
  · by_cases hx : x = t.node
    · subst hx
      rw [hperforms.self]
      refine Solo.perform_settled (hprompt t.node) t.operation ?_
      rw [outcomes_of_task htask]
      exact hcommits
    · rw [hperforms.frame x hx]
      exact Or.inl (hprompt x)

/-- Where the log is whole and every payload decodes, the loop stops only when there is
nothing to apply. -/
theorem Refines.prompt
    {σ : Consensus.State String Entry} {as : List Action} {env : Env}
    (h : Refines cfg σ c)
    (hclean : c.Clean cfg as)
    (hjson : env.json = cfg.json)
    (hsettled : (c.node x).Settled env) :
    (c.node x).Prompt := by
  have htracks := h.nodes x
  rcases hsettled with hdone | ⟨hmissing, hsnapshot⟩ | ⟨entry, err, hentry, herr⟩
  · exact hdone
  · rw [htracks.log.rows _ (Nat.lt_succ_iff.mp hsnapshot), List.getElem?_eq_none_iff] at hmissing
    exact htracks.commit_le.trans hmissing
  · obtain ⟨row, hrow, rfl⟩ := Option.map_eq_some_iff.mp hentry
    obtain ⟨cmd, hcmd⟩ := hclean.rows x _ row hrow
    rw [hjson, hcmd.decode] at herr
    cases herr

end Steps

section Runs

variable {cfg : Config} {as : List Action} {c : Cluster}

theorem exec_prompt
    (halong : Along cfg Followable init as)
    (hexec : init.exec cfg as = some c) :
    ∀ x, (c.node x).Prompt := by
  induction as using List.reverseRecOn generalizing c with
  | nil =>
      cases hexec
      exact fun _ => le_rfl
  | append_singleton as a ih =>
      obtain ⟨c₁, hexec₁, hstep⟩ := exec_concat.mp hexec
      obtain ⟨hbefore, hlast⟩ := along_append halong
      have hcommits : .fail ∉ a.outcomes := (hlast c₁ hexec₁).1.commits
      obtain ⟨σ, hrefines⟩ := exec_refines halong hexec
      intro x
      exact hrefines.prompt (exec_clean _ c hexec) rfl
        (step_settled hstep hcommits (ih hbefore hexec₁))

end Runs

end Cluster

end LogReplicator
