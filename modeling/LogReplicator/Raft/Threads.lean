import LogReplicator.Raft.ClusterFacts
import LogReplicator.Raft.FollowerSections

/-!
# The goroutines and what they know

A goroutine keeps values across sections: the round of an election, the request
of a sender, the reply it waits for.  `Threads` says how these values relate to
the calls and replies of the run and to the node, which may have moved on in the
meantime.
-/

namespace LogReplicator

open Library

/-- The candidate a round was started for: as long as the node is a candidate in
the term of the round, its log and its vote are those of the start. -/
structure Node.Stands (n : Node) (x : String) (round : Candidacy) : Prop where
  term_le : round.term ≤ n.currentTerm
  vote : n.role = .candidate → n.currentTerm = round.term → n.votedFor = x
  saved : n.role = .candidate → n.currentTerm = round.term →
    n.store.currentTerm = round.term ∧ n.store.votedFor = x
  last : n.role = .candidate → n.currentTerm = round.term →
    n.store.lastIndexAndTerm = (round.lastLogIndex, round.lastLogTerm)

/-- The changes of a process that neither starts an election nor dies. -/
def Label.Continues : Label → Prop
  | .campaign _ _ => False
  | .restart => False
  | _ => True

section Stands

variable {env : Env} {l : Label} {n n' : Node} {x : String} {round : Candidacy}

theorem Node.Stands.of_not_candidate
    (h : n.Stands x round)
    (hterm : n'.currentTerm = n.currentTerm)
    (hrole : n'.role ≠ .candidate) :
    n'.Stands x round :=
  ⟨hterm ▸ h.term_le, fun hc => absurd hc hrole, fun hc => absurd hc hrole,
    fun hc => absurd hc hrole⟩

theorem Node.Stands.of_term_lt
    (h : n.Stands x round)
    (hterm : n.currentTerm < n'.currentTerm) :
    n'.Stands x round := by
  have hlt : round.term < n'.currentTerm := lt_of_le_of_lt h.term_le hterm
  exact ⟨hlt.le, fun _ he => absurd he hlt.ne', fun _ he => absurd he hlt.ne',
    fun _ he => absurd he hlt.ne'⟩

/-- A candidate keeps its log: every change of a log needs another role. -/
theorem Move.stands
    (hmove : Move env l n n')
    (hsolo : ¬ env.solo)
    (hl : l.Continues)
    (hx : x ≠ "")
    (h : n.Stands x round) :
    n'.Stands x round := by
  have hself := hmove
  cases hmove with
  | raise hterm => exact h.of_term_lt hterm
  | raiseUnsaved _ hterm => exact h.of_term_lt hterm
  | follow => exact h.of_not_candidate rfl (by simp)
  | campaign _ _ => exact hl.elim
  | campaignUnsaved _ _ _ => exact hl.elim
  | vote hterm hfree _ =>
      refine ⟨h.term_le, fun hr ht => ?_, fun hr ht => ?_, h.last⟩
      all_goals
        have hvoted := h.vote hr ht
        rw [hvoted] at hfree
        have := hfree.resolve_left hx
      · exact this.symm
      · exact ⟨ht, this.symm⟩
  | voteUnsaved _ hterm hfree =>
      refine ⟨h.term_le, fun hr ht => ?_, h.saved, h.last⟩
      have hvoted := h.vote hr ht
      rw [hvoted] at hfree
      exact (hfree.resolve_left hx).symm
  | lead _ _ => exact h.of_not_candidate rfl (by simp [Node.asLeader])
  | propose hrole => exact h.of_not_candidate rfl (by simp [hrole])
  | truncate hreq _ _ _ => exact h.of_not_candidate rfl (by simp [hreq.role])
  | store hreq _ _ => exact h.of_not_candidate rfl (by simp [hreq.role])
  | accept _ _ _ => exact h
  | learn hreq _ _ => exact h.of_not_candidate rfl (by simp [hreq.role])
  | advance hrole _ =>
      exact h.of_not_candidate rfl (by simp [hrole.resolve_left hsolo])
  | apply hrole _ _ _ => exact h.of_not_candidate rfl (hrole.resolve_left hsolo)
  | skip hrole _ _ _ => exact h.of_not_candidate rfl (hrole.resolve_left hsolo)
  | compact hrole _ _ => exact h.of_not_candidate rfl (hrole.resolve_left hsolo)
  | install hreq _ _ => exact h.of_not_candidate rfl (by simp [hreq.role])
  | ignore _ _ => exact h
  | setNext => exact ⟨h.term_le, h.vote, h.saved, h.last⟩
  | progress hrole =>
      refine h.of_not_candidate (hself.currentTerm_eq trivial) ?_
      rw [hself.role_eq trivial]
      simp [hrole]
  | restart => exact hl.elim

theorem Path.stands
    {ls : List Label}
    (hpath : Path (Move env) ls n n')
    (hsolo : ¬ env.solo)
    (hls : ∀ l ∈ ls, l.Continues)
    (hx : x ≠ "")
    (h : n.Stands x round) :
    n'.Stands x round :=
  hpath.invariant h fun l hl _ _ hmove => hmove.stands hsolo (hls l hl) hx

theorem Move.currentTerm_le
    (hmove : Move env l n n')
    (hsolo : ¬ env.solo)
    (hl : l ≠ .restart) :
    n.currentTerm ≤ n'.currentTerm := by
  have hnext : env.solo ∨ n.currentTerm + 1 < maxTerms →
      n.currentTerm ≤ nextTerm n.currentTerm := by
    intro h
    unfold nextTerm
    rw [Nat.mod_eq_of_lt (h.resolve_left hsolo)]
    exact Nat.le_succ _
  have hself := hmove
  cases hmove with
  | raise hterm => exact hterm.le
  | raiseUnsaved _ hterm => exact hterm.le
  | campaign _ hterm => exact hnext hterm
  | campaignUnsaved _ _ hterm => exact hnext hterm
  | progress hrole => exact (hself.currentTerm_eq trivial).ge
  | restart => exact absurd rfl hl
  | _ => exact le_rfl

theorem Path.currentTerm_le
    {ls : List Label}
    (hpath : Path (Move env) ls n n')
    (hsolo : ¬ env.solo)
    (hls : .restart ∉ ls) :
    n.currentTerm ≤ n'.currentTerm :=
  hpath.invariant (P := fun m => n.currentTerm ≤ m.currentTerm) le_rfl
    fun _ hl _ _ hmove hm =>
      hm.trans (hmove.currentTerm_le hsolo fun he => hls (he ▸ hl))

end Stands

/-- The name a request gives its sender. -/
def Request.sender : Request → String
  | .vote req => req.candidateId
  | .append req => req.leaderId
  | .snapshot req => req.leaderId

/-- The term of a request. -/
def Request.term : Request → Nat
  | .vote req => req.term
  | .append req => req.term
  | .snapshot req => req.term

/-- The request comes from a leader. -/
def Request.FromLeader : Request → Prop
  | .vote _ => False
  | .append _ => True
  | .snapshot _ => True

namespace Cluster

variable (cfg : Config)

/-- The surroundings of a member. -/
def env (cfg : Config) (faulty : Prop) (x : String) : Env where
  json := cfg.json
  options := cfg.options x
  faulty := faulty
  solo := False

/-- `p` granted its vote to `x`, whose log ended at `last`. -/
def Granted (c : Cluster) (x p : String) (term : Nat) (last : Nat × Nat) : Prop :=
  ∃ id resp, c.calls[id]? = some ⟨x, p, .vote ⟨term, x, last.1, last.2⟩⟩ ∧
    (id, Response.vote resp) ∈ c.replies ∧ resp.voteGranted = true

/-- Peers that granted their votes to `x`. -/
def Polled (c : Cluster) (x : String) (term : Nat) (last : Nat × Nat)
    (granted : Finset String) : Prop :=
  ∀ p ∈ granted, p ∈ (cfg.options x).peers ∧ c.Granted x p term last

/-- What an election goroutine knows. -/
structure RoundOk (c : Cluster) (x : String) (n : Node) (r : Round) : Prop where
  member : x ∈ cfg.members
  stands : n.Stands x r.candidacy
  asked : ∀ w ∈ r.waiting, w.1 ∈ (cfg.options x).peers ∧
    c.calls[w.2]? = some ⟨x, w.1, .vote ⟨r.candidacy.term, x,
      r.candidacy.lastLogIndex, r.candidacy.lastLogTerm⟩⟩
  nodup : (r.waiting.map Prod.fst).Nodup
  counted : ∃ granted : Finset String, r.votes = granted.card + 1 ∧
    c.Polled cfg x r.candidacy.term
      (r.candidacy.lastLogIndex, r.candidacy.lastLogTerm) granted ∧
    ∀ w ∈ r.waiting, w.1 ∉ granted

def ElectionOk (c : Cluster) (x : String) (n : Node) : Election → Prop
  | .idle => True
  | .polling r => c.RoundOk cfg x n r
  | .committing => x ∈ cfg.members ∧ (cfg.options x).peers = [] ∧ n.role = .leader

/-- What `replicatePeer` knows between its call and the end of its round. -/
def SenderKnows (c : Cluster) (x p : String) (n : Node) : Sender → Prop
  | .appendSent _ _ id req => c.calls[id]? = some ⟨x, p, .append req⟩
  | .appendReplied _ _ req resp =>
      ∃ id, c.calls[id]? = some ⟨x, p, .append req⟩ ∧
        (id, Response.append resp) ∈ c.replies
  | .snapshotSent _ id req => c.calls[id]? = some ⟨x, p, .snapshot req⟩
  | .snapshotReplied _ req =>
      ∃ id resp, c.calls[id]? = some ⟨x, p, .snapshot req⟩ ∧
        (id, Response.snapshot resp) ∈ c.replies ∧ resp.term ≤ n.currentTerm
  | _ => True

def SenderOk (c : Cluster) (x p : String) (n : Node) (s : Sender) : Prop :=
  s = .idle ∨
    (x ∈ cfg.members ∧ p ∈ (cfg.options x).peers ∧ c.SenderKnows x p n s)

/-- A call goes from a member to one of its peers. -/
structure CallOk (call : Call) : Prop where
  src : call.src ∈ cfg.members
  dst : call.dst ∈ (cfg.options call.src).peers
  sender : call.request.sender = call.src

structure OpOk (op : ClientOp) : Prop where
  member : op.node ∈ cfg.members
  keyed : op.phase ≠ .done → op.request.key ≠ ""

structure Threads (c : Cluster) : Prop where
  calls : ∀ call ∈ c.calls, CallOk cfg call
  replies : ∀ r ∈ c.replies, ∃ call, c.calls[r.1]? = some call
  election : ∀ x, c.ElectionOk cfg x (c.node x) (c.procs x).election
  sender : ∀ x p, c.SenderOk cfg x p (c.node x) ((c.procs x).sender p)
  ops : ∀ op ∈ c.ops, OpOk cfg op

section Monotone

variable {cfg}
variable {c c' : Cluster} {x p : String} {n n' : Node}

/-- The network only grows. -/
structure Extends (c c' : Cluster) : Prop where
  calls : c.calls <+: c'.calls
  replies : c.replies <+: c'.replies

theorem Extends.call
    (h : c.Extends c')
    {id : Nat} {call : Call}
    (hcall : c.calls[id]? = some call) :
    c'.calls[id]? = some call := by
  obtain ⟨new, hnew⟩ := h.calls
  obtain ⟨hlt, -⟩ := List.getElem?_eq_some_iff.mp hcall
  rw [← hnew, List.getElem?_append_left hlt, hcall]

theorem Extends.reply
    (h : c.Extends c')
    {r : Nat × Response}
    (hr : r ∈ c.replies) :
    r ∈ c'.replies :=
  h.replies.subset hr

theorem Granted.mono
    {term : Nat} {last : Nat × Nat}
    (h : c.Granted x p term last)
    (hext : c.Extends c') :
    c'.Granted x p term last := by
  obtain ⟨id, resp, hcall, hreply, hgranted⟩ := h
  exact ⟨id, resp, hext.call hcall, hext.reply hreply, hgranted⟩

theorem Polled.mono
    {term : Nat} {last : Nat × Nat} {granted : Finset String}
    (h : c.Polled cfg x term last granted)
    (hext : c.Extends c') :
    c'.Polled cfg x term last granted :=
  fun p hp => ⟨(h p hp).1, (h p hp).2.mono hext⟩

theorem RoundOk.mono
    {r : Round}
    (h : c.RoundOk cfg x n r)
    (hext : c.Extends c')
    (hstands : n'.Stands x r.candidacy) :
    c'.RoundOk cfg x n' r := by
  obtain ⟨granted, hvotes, hpolled, hwaiting⟩ := h.counted
  exact ⟨h.member, hstands, fun w hw => ⟨(h.asked w hw).1, hext.call (h.asked w hw).2⟩,
    h.nodup, granted, hvotes, hpolled.mono hext, hwaiting⟩

theorem ElectionOk.mono
    {e : Election}
    (h : c.ElectionOk cfg x n e)
    (hext : c.Extends c')
    (hstands : ∀ round, n.Stands x round → n'.Stands x round)
    (hrole : e = .committing → n'.role = n.role) :
    c'.ElectionOk cfg x n' e := by
  cases e with
  | idle => trivial
  | polling r => exact RoundOk.mono h hext (hstands _ h.stands)
  | committing => exact ⟨h.1, h.2.1, (hrole rfl).trans h.2.2⟩

theorem SenderKnows.mono
    {s : Sender}
    (h : c.SenderKnows x p n s)
    (hext : c.Extends c')
    (hterm : n.currentTerm ≤ n'.currentTerm) :
    c'.SenderKnows x p n' s := by
  cases s with
  | appendSent round owner id req => exact hext.call h
  | appendReplied round owner req resp =>
      obtain ⟨id, hcall, hreply⟩ := h
      exact ⟨id, hext.call hcall, hext.reply hreply⟩
  | snapshotSent owner id req => exact hext.call h
  | snapshotReplied owner req =>
      obtain ⟨id, resp, hcall, hreply, hle⟩ := h
      exact ⟨id, resp, hext.call hcall, hext.reply hreply, hle.trans hterm⟩
  | _ => trivial

theorem SenderOk.mono
    {s : Sender}
    (h : c.SenderOk cfg x p n s)
    (hext : c.Extends c')
    (hterm : n.currentTerm ≤ n'.currentTerm) :
    c'.SenderOk cfg x p n' s :=
  h.imp_right fun ⟨hx, hp, hknows⟩ => ⟨hx, hp, hknows.mono hext hterm⟩

theorem SenderOk.active
    {s : Sender}
    (h : c.SenderOk cfg x p n s)
    (hs : s ≠ .idle) :
    x ∈ cfg.members ∧ p ∈ (cfg.options x).peers ∧ c.SenderKnows x p n s :=
  h.resolve_left hs

end Monotone

section Peers

variable {cfg}
variable {x p : String}

theorem mem_peers :
    p ∈ (cfg.options x).peers ↔ p ∈ cfg.members ∧ p ≠ x := by
  simp [Config.options]

/-- A call reaches a member, and not the only one. -/
theorem CallOk.dst_member
    {call : Call} (h : CallOk cfg call) :
    call.dst ∈ cfg.members ∧ (cfg.options call.dst).peers ≠ [] := by
  obtain ⟨hmem, hne⟩ := mem_peers.mp h.dst
  refine ⟨hmem, List.ne_nil_of_mem (a := call.src) ?_⟩
  exact mem_peers.mpr ⟨h.src, Ne.symm hne⟩

end Peers

end Cluster

end LogReplicator
