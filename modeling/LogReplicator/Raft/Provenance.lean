import LogReplicator.Raft.Identity

/-!
# Where requests of leaders come from

`replicatePeer` checks that its node is the leader in one section and builds the
request in a later one.  In between the node can step down for a newer term, and
the request then carries that term.  As long as no node hears of a newer term
while it is between the two, every request is built by the leader of its term.
-/

namespace LogReplicator

open Library

namespace Cluster

/-- A node hears of a newer term only while none of its senders is between the
leadership check and the building of its request. -/
def Undisturbed (cfg : Config) (c : Cluster) (a : Action) : Prop :=
  ∀ h ∈ c.heard a, (c.node h.1).currentTerm < h.2 →
    ∀ p ∈ (cfg.options h.1).peers, ¬ ((c.procs h.1).sender p).Sending

/-- Requests come from the leaders of their terms, and who is about to send one
still leads. -/
structure Provenance (c : Cluster) : Prop where
  sent : ∀ call ∈ c.calls, call.request.FromLeader → c.Won call.src call.request.term
  sending : ∀ x p, ((c.procs x).sender p).Sending → (c.node x).role = .leader

section Step

variable {cfg : Config} {faulty : Prop}
variable {c c' : Cluster} {a : Action} {x : String} {ls : List Label}
variable {g : String → Nat → String → Prop}

theorem provenance_init :
    init.Provenance :=
  ⟨by simp [init], fun _ _ h => h.elim⟩

theorem Undisturbed.heard_le
    (h : c.Undisturbed cfg a)
    (hthreads : c.Threads cfg)
    {p : String} {term : Nat}
    (hsending : ((c.procs x).sender p).Sending)
    (hheard : c.heard a = some (x, term)) :
    term ≤ (c.node x).currentTerm := by
  by_contra hlt
  have hactive : (c.procs x).sender p ≠ .idle := by
    intro hidle
    simp [hidle, Sender.Sending] at hsending
  obtain ⟨-, hpeer, -⟩ := (hthreads.sender x p).active hactive
  exact h _ hheard (not_le.mp hlt) p hpeer hsending

/-- A leader gets no request of its own term: it would be its own. -/
theorem Provenance.received_ne
    (h : c.Provenance)
    (hthreads : c.Threads cfg)
    (helections : Elections cfg g c)
    (hrole : (c.node x).role = .leader)
    {r : Request}
    (hleader : r.FromLeader)
    (hreceived : c.Received a x r) :
    r.term ≠ (c.node x).currentTerm := by
  obtain ⟨src, id, os, -, hcall⟩ := hreceived
  have hmem := List.mem_of_getElem? hcall
  intro hterm
  have hsrc : c.Won src r.term := h.sent _ hmem hleader
  have hself : c.Won x r.term := hterm ▸ (helections.leads x).leader hrole
  have hdst : x ∈ (cfg.options src).peers := (hthreads.calls _ hmem).dst
  exact (mem_peers.mp hdst).2 (helections.winner_unique hself hsrc)

/-- A node that is about to send stays the leader. -/
theorem Provenance.leader_kept
    (h : c.Provenance)
    (hthreads : c.Threads cfg)
    (helections : Elections cfg g c)
    (hundisturbed : c.Undisturbed cfg a)
    (T : Transition cfg faulty c a c' x ls)
    {p : String}
    (hsending : ((c.procs x).sender p).Sending)
    (hrestart : .restart ∉ ls) :
    (c'.node x).role = .leader := by
  have hrole := h.sending x p hsending
  have hheard : ∀ term, c.heard a = some (x, term) → term ≤ (c.node x).currentTerm :=
    fun term => hundisturbed.heard_le hthreads hsending
  refine (T.path.invariant (P := fun n => n.role = .leader ∧
    n.currentTerm = (c.node x).currentTerm) ⟨hrole, rfl⟩ ?_).1
  rintro l hl n n' hmove ⟨hn, hterm⟩
  have hjustified := T.justified l hl
  have hself := hmove
  cases hmove with
  | raise hlt => exact absurd (hheard _ hjustified) (by omega)
  | raiseUnsaved _ hlt => exact absurd (hheard _ hjustified) (by omega)
  | follow =>
      rcases hjustified with ⟨term, hterm', hlt⟩ | ⟨r, hleader, hreceived, hle⟩
      · exact absurd (hheard term hterm') (not_le.mpr hlt)
      · have hne := h.received_ne hthreads helections hrole hleader hreceived
        obtain ⟨src, id, os, rfl, hcall⟩ := hreceived
        have := hheard r.term (by simp [heard, hcall])
        omega
  | campaign hnot _ => exact absurd hn hnot
  | campaignUnsaved _ hnot _ => exact absurd hn hnot
  | lead _ _ => exact ⟨rfl, hterm⟩
  | restart => exact absurd hl hrestart
  | _ => exact ⟨(hself.role_eq trivial).trans hn, (hself.currentTerm_eq trivial).trans hterm⟩

theorem Provenance.built
    (h : c.Provenance)
    {call : Call}
    (hbuilt : c.Built cfg a x (c'.node x) call)
    (hleader : call.request.FromLeader) :
    call.src = x ∧ (c.node x).role = .leader ∧
      (c.node x).currentTerm = call.request.term := by
  cases hbuilt with
  | vote _ _ _ _ => exact hleader.elim
  | append _ _ hsending _ hsame =>
      exact ⟨rfl, h.sending x _ hsending, congrArg Node.currentTerm hsame.symm⟩
  | snapshot _ _ hsending hsame =>
      exact ⟨rfl, h.sending x _ hsending, congrArg Node.currentTerm hsame.symm⟩

theorem Provenance.step
    (h : c.Provenance)
    (hthreads : c.Threads cfg)
    (helections : Elections cfg g c)
    (hundisturbed : c.Undisturbed cfg a)
    (T : Transition cfg faulty c a c' x ls) :
    c'.Provenance := by
  constructor
  · intro call hcall hleader
    refine (T.won_iff _ _).mpr (Or.inl ?_)
    obtain ⟨new, hcalls, hbuilt⟩ := T.calls
    rw [hcalls, List.mem_append] at hcall
    rcases hcall with hcall | hcall
    · exact h.sent call hcall hleader
    · obtain ⟨hsrc, hrole, hterm⟩ := h.built (hbuilt call hcall) hleader
      rw [hsrc, ← hterm]
      exact (helections.leads x).leader hrole
  · intro y p hsending
    rcases T.sending y p hsending with ⟨hbefore, hrestart⟩ | hrole
    · by_cases hy : y = x
      · subst hy
        exact h.leader_kept hthreads helections hundisturbed T hbefore (hrestart rfl)
      · rw [T.frame y hy]
        exact h.sending y p hbefore
    · exact hrole

end Step

section Runs

variable {cfg : Config} {as : List Action} {c : Cluster}

theorem usual_of_undisturbed
    (c : Cluster) (a : Action)
    (h : c.TermsLeft a ∧ c.Undisturbed cfg a) :
    Usual True c a :=
  ⟨fun _ => trivial, h.1⟩

theorem exec_provenance
    (halong : Along cfg (fun c a => c.TermsLeft a ∧ c.Undisturbed cfg a) init as)
    (hexec : init.exec cfg as = some c) :
    c.Threads cfg ∧ ∃ g, Elections cfg g c ∧ c.Provenance := by
  refine exec_invariant_from (P := fun c => ∃ g, Elections cfg g c ∧ c.Provenance)
    usual_of_undisturbed ?_ threads_init ⟨_, elections_init, provenance_init⟩ halong hexec
  rintro c a c' x ls hthreads hok T - ⟨g, helections, hprovenance⟩
  exact ⟨_, helections.step hthreads T, hprovenance.step hthreads helections hok.2 T⟩

/-- In every undisturbed run, with any failures of writes, every `AppendEntries`
and `InstallSnapshot` request was built while the node it names as its leader
had that role in the term of the request, and all requests of a term name the
same leader. -/
theorem message_provenance
    (halong : Along cfg (fun c a => c.TermsLeft a ∧ c.Undisturbed cfg a) init as)
    (hexec : init.exec cfg as = some c) :
    (∀ (id : Nat) (call : Call), c.calls[id]? = some call → call.request.FromLeader →
      ∃ as₁ a as₂ c₁ c₂, as = as₁ ++ a :: as₂ ∧
        init.exec cfg as₁ = some c₁ ∧ c₁.step cfg a = some c₂ ∧
        c₁.calls[id]? = none ∧ c₂.calls[id]? = some call ∧
        (c₁.node call.request.sender).role = .leader ∧
        (c₁.node call.request.sender).currentTerm = call.request.term) ∧
    (∀ call ∈ c.calls, ∀ call' ∈ c.calls,
      call.request.FromLeader → call'.request.FromLeader →
      call.request.term = call'.request.term →
      call.request.sender = call'.request.sender) := by
  constructor
  · intro id call hcall hleader
    obtain ⟨as₁, a, as₂, c₁, c₂, rfl, hexec₁, hstep, hbefore, hafter⟩ :=
      exec_first (P := fun c => c.calls[id]? = some call) (by simp [init]) hexec hcall
    obtain ⟨halong₁, hrest⟩ := along_append halong
    obtain ⟨hthreads, g, -, hprovenance⟩ := exec_provenance halong₁ hexec₁
    obtain ⟨hos, hterms⟩ := usual_of_undisturbed c₁ a (hrest c₁ hexec₁).1
    obtain ⟨x, ls, T, hthreads'⟩ := step_next hthreads hos hterms hstep
    have hnone : c₁.calls[id]? = none := by
      cases hold : c₁.calls[id]? with
      | none => rfl
      | some old => exact absurd (hold.trans ((T.extends.call hold).symm.trans hafter)) hbefore
    obtain ⟨new, hcalls, hbuilt⟩ := T.calls
    have hnew : call ∈ new := by
      rw [hcalls, List.getElem?_append_right (List.getElem?_eq_none_iff.mp hnone)] at hafter
      exact List.mem_of_getElem? hafter
    obtain ⟨hsrc, hrole, hterm⟩ := hprovenance.built (hbuilt call hnew) hleader
    have hsender : call.request.sender = x :=
      (hthreads'.calls call (List.mem_of_getElem? hafter)).sender.trans hsrc
    exact ⟨as₁, a, as₂, c₁, c₂, rfl, hexec₁, hstep, hnone, hafter, hsender ▸ hrole,
      hsender ▸ hterm⟩
  · intro call hcall call' hcall' hleader hleader' hterm
    obtain ⟨hthreads, g, helections, hprovenance⟩ := exec_provenance halong hexec
    rw [(hthreads.calls call hcall).sender, (hthreads.calls call' hcall').sender]
    refine helections.winner_unique (hprovenance.sent call hcall hleader) ?_
    rw [hterm]
    exact hprovenance.sent call' hcall' hleader'

section Sample

open LogReplicator.Action

/-- `a` leads term 1 and is about to call `b` when the campaign of `c` for term 2
reaches it. -/
def deposedSender : List Action :=
  [campaign "a" [], deliver 0 [], deliver 1 [], countVote "a" "b" 0 ⟨1, true⟩ [],
    winElection "a" []] ++
  checks "a" "b" none ++ [campaign "c" [], deliver 2 [], sendEntries "a" "b"]

/-- The deposed leader sends a request in the term of the candidate that deposed
it: nobody leads that term. -/
theorem forged_term_of_deposedSender :
    ∃ c call, init.exec (trio fun _ => 0) deposedSender = some c ∧
      c.calls[4]? = some call ∧ call.request.FromLeader ∧ call.request.term = 2 ∧
      ∀ as₁ c₁, as₁ <+: deposedSender → init.exec (trio fun _ => 0) as₁ = some c₁ →
        ∀ x ∈ (trio fun _ => 0).members,
          ¬ ((c₁.node x).role = .leader ∧ (c₁.node x).currentTerm = 2) := by
  have hcall : ((init.exec (trio fun _ => 0) deposedSender).bind fun c => c.calls[4]?) =
      some ⟨"a", "b", .append ⟨2, "a", 0, 0, [], 0⟩⟩ := by
    decide +kernel
  have hleaders : ∀ as₁ ∈ deposedSender.inits, ∀ c₁ ∈ init.exec (trio fun _ => 0) as₁,
      ∀ x ∈ (trio fun _ => 0).members,
        ¬ ((c₁.node x).role = .leader ∧ (c₁.node x).currentTerm = 2) := by
    decide +kernel
  obtain ⟨c, hexec, hcall⟩ := Option.bind_eq_some_iff.mp hcall
  exact ⟨c, _, hexec, hcall, trivial, rfl, fun as₁ c₁ hmoment hexec₁ =>
    hleaders as₁ ((List.mem_inits _ _).mpr hmoment) c₁ hexec₁⟩

instance (s : Sender) : Decidable s.Sending :=
  match s with
  | .leading .. | .entries .. | .snapshot .. => inferInstanceAs (Decidable True)
  | .idle | .looping .. | .appendSent .. | .appendReplied .. | .snapshotSent ..
  | .snapshotReplied .. => inferInstanceAs (Decidable False)

instance (cfg : Config) (c : Cluster) (a : Action) : Decidable (c.Undisturbed cfg a) :=
  inferInstanceAs (Decidable (∀ h ∈ c.heard a, _))

theorem message_provenance_firstEntry :
    Along (trio fun _ => 0) (fun c a => c.TermsLeft a ∧ c.Undisturbed (trio fun _ => 0) a)
        init firstEntry ∧
      ∃ c call, init.exec (trio fun _ => 0) firstEntry = some c ∧
        c.calls[2]? = some call ∧ call.request.FromLeader ∧
        ∃ as₁ a as₂ c₁ c₂, firstEntry = as₁ ++ a :: as₂ ∧
          init.exec (trio fun _ => 0) as₁ = some c₁ ∧
          c₁.step (trio fun _ => 0) a = some c₂ ∧
          c₁.calls[2]? = none ∧ c₂.calls[2]? = some call ∧
          (c₁.node call.request.sender).role = .leader ∧
          (c₁.node call.request.sender).currentTerm = call.request.term := by
  have halong : Along (trio fun _ => 0)
      (fun c a => c.TermsLeft a ∧ c.Undisturbed (trio fun _ => 0) a) init firstEntry := by
    decide +kernel
  have hrun : ((init.exec (trio fun _ => 0) firstEntry).bind fun c =>
      (c.calls[2]?).map fun call => match call.request with
        | .append _ => true
        | _ => false) = some true := by
    decide +kernel
  obtain ⟨c, hexec, hrun⟩ := Option.bind_eq_some_iff.mp hrun
  obtain ⟨call, hcall, hrequest⟩ := Option.map_eq_some_iff.mp hrun
  have hleader : call.request.FromLeader := by
    cases hreq : call.request <;> simp [hreq, Request.FromLeader] at hrequest ⊢
  exact ⟨halong, c, call, hexec, hcall, hleader,
    (message_provenance halong hexec).1 2 call hcall hleader⟩

end Sample

end Runs

end Cluster

end LogReplicator
