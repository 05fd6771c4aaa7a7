import LogReplicator.Raft.Batches
import LogReplicator.Raft.Matching
import LogReplicator.Raft.Tracking

/-!
# The cluster refines the replicated log

A step of the cluster is a sequence of steps of the abstract protocol: the moves of
the acting node are simulated one by one, what they rest on was sent and answered
before, and what the step sends, answers and records is true of the new abstract
state.  So is a run, and what holds of the protocol holds of the history of the
cluster: a later leader has what an earlier one committed.
-/

namespace LogReplicator

open Library Library.Consensus

/-- What an event of the history says about the abstract state. -/
def Event.Holds (cfg : Config) (σ : State String Entry) : Event → Prop
  | .elected x t s log => (Label.lead t (0, 0) s log).Done cfg σ x
  | .committed x t k log => (Label.advance t k log).Done cfg σ x
  | _ => True

theorem Event.Holds.mono
    {cfg : Config} {σ σ' : State String Entry} {event : Event}
    (h : event.Holds cfg σ)
    (hg : Grows σ σ') :
    event.Holds cfg σ' := by
  cases event with
  | elected x t s log =>
      change (Label.lead t (0, 0) s log).Done cfg σ x at h
      exact h.mono hg
  | committed x t k log =>
      change (Label.advance t k log).Done cfg σ x at h
      exact h.mono hg
  | _ => trivial

theorem Event.holds_of_client
    {cfg : Config} {σ : State String Entry} {event : Event}
    (h : event.Client) :
    event.Holds cfg σ := by
  cases event with
  | invoked op => trivial
  | returned op answer => trivial
  | abandoned op => trivial
  | _ => exact h.elim

theorem Label.Done.event
    {cfg : Config} {σ : State String Entry} {x : String} {l : Label} {event : Event}
    (h : l.Done cfg σ x)
    (hevent : l.event x = some event) :
    event.Holds cfg σ := by
  cases l <;> cases hevent <;> exact h

namespace Cluster

/-- Appends and snapshots are sent by leaders only. -/
def SentByLeader (c : Cluster) : Action → Prop
  | .sendEntries x _ => (c.node x).role = .leader
  | .sendSnapshot x _ => (c.node x).role = .leader
  | _ => True

/-- A request brings no commit index for entries of the follower that it does not
reach. -/
def CommitReached (c : Cluster) (call : Call) : Prop :=
  match call.request with
  | .append req =>
      req.leaderCommit ≤ req.prevLogIndex + req.entries.length ∨
        (c.node call.dst).store.lastIndex ≤ req.prevLogIndex + req.entries.length
  | _ => True

/-- The follower is told to commit only what the request has verified. -/
def Verified (c : Cluster) : Action → Prop
  | .deliver id _ => ∀ call ∈ c.calls[id]?, c.CommitReached call
  | _ => True

/-- The steps that the abstract protocol can follow. -/
structure Followable (c : Cluster) (a : Action) : Prop where
  commits : .fail ∉ a.outcomes
  terms : c.TermsLeft a
  gapless : c.Gapless a
  sent : c.SentByLeader a
  verified : c.Verified a

/-- The cluster is in the abstract state `σ`, and what was sent, answered and
recorded is true of it. -/
structure Refines (cfg : Config) (σ : State String Entry) (c : Cluster) : Prop where
  inv : Inv Entry.term cfg.Quorum σ
  indexed : ∀ t, Indexed (σ.llog t)
  taken : ∀ t, σ.base t ≠ none → ∃ x, c.Won x t
  nodes : ∀ x, (c.node x).Tracks cfg σ x
  appends : ∀ call ∈ c.calls, ∀ req, call.request = .append req → req.Backed cfg σ
  snapshots : ∀ call ∈ c.calls, ∀ req, call.request = .snapshot req → req.Backed cfg σ
  voted : ∀ id src dst req resp, c.calls[id]? = some ⟨src, dst, .vote req⟩ →
    (id, Response.vote resp) ∈ c.replies → resp.voteGranted = true →
    Voted σ dst req.term (req.lastLogTerm, req.lastLogIndex)
  accepted : ∀ id src dst req resp, c.calls[id]? = some ⟨src, dst, .append req⟩ →
    (id, Response.append resp) ∈ c.replies → resp.success = true →
    σ.acks dst req.term resp.matchIndex ∧
      resp.matchIndex = req.prevLogIndex + req.entries.length
  installed : ∀ id src dst req resp, c.calls[id]? = some ⟨src, dst, .snapshot req⟩ →
    (id, Response.snapshot resp) ∈ c.replies → resp.term ≤ req.term →
    σ.acks dst req.term req.lastIncludedIndex
  history : ∀ event ∈ c.events, event.Holds cfg σ

section Step

variable {cfg : Config} {c c' : Cluster} {a : Action} {x : String} {ls : List Label}
variable {σ σ' : State String Entry} {g : String → Nat → String → Prop}

theorem refines_init :
    Refines cfg Consensus.init init where
  inv := inv_init
  indexed := fun _ => rfl
  taken := fun t ht => absurd rfl ht
  nodes := fun x =>
    { term := rfl
      disk := rfl
      log := Store.stores_init
      applied := le_rfl
      reached := le_rfl
      commit_le := le_rfl
      committed := Or.inl rfl
      candidate := by simp [init, node, startProc, Node.new]
      leader := by simp [init, node, startProc, Node.new] }
  appends := by simp [init]
  snapshots := by simp [init]
  voted := by simp [init]
  accepted := by simp [init]
  installed := by simp [init]
  history := by simp [init]

/-- The moves of a step rest on what the cluster has sent and answered. -/
theorem Refines.rests
    (h : Refines cfg σ c)
    (hok : c.Followable a)
    {l : Label}
    (hl : c.Justified cfg a x l) :
    l.Rests cfg σ x := by
  cases l with
  | truncate req e =>
      obtain ⟨src, id, os, -, hcall⟩ := hl
      exact h.appends _ (List.mem_of_getElem? hcall) req rfl
  | store req es =>
      obtain ⟨src, id, os, -, hcall⟩ := hl
      exact h.appends _ (List.mem_of_getElem? hcall) req rfl
  | accept req m =>
      obtain ⟨src, id, os, -, hcall⟩ := hl
      exact h.appends _ (List.mem_of_getElem? hcall) req rfl
  | learn req last =>
      obtain ⟨⟨src, id, os, rfl, hcall⟩, hlast⟩ := hl
      have hreq := h.appends _ (List.mem_of_getElem? hcall) req rfl
      have hnumbered := hlast (hreq.carries.numbered (h.indexed req.term))
      have hverified : req.leaderCommit ≤ req.prevLogIndex + req.entries.length ∨
          (c.node x).store.lastIndex ≤ req.prevLogIndex + req.entries.length :=
        hok.verified _ hcall
      exact ⟨hreq, hverified.imp_right fun hle => by omega⟩
  | install req last known applied =>
      obtain ⟨⟨src, id, os, rfl, hcall⟩, rfl, rfl, -, hterm, hnew⟩ := hl
      have hfits : c.SnapshotFits ⟨src, x, .snapshot req⟩ := hok.gapless _ hcall
      refine ⟨h.snapshots _ (List.mem_of_getElem? hcall) req rfl, ?_⟩
      rcases hfits with hstale | hold | hfits
      · exact absurd hterm (not_le.mpr hstale)
      · exact absurd hnew (not_lt.mpr hold)
      · exact hfits
  | ignore req =>
      obtain ⟨src, id, os, -, hcall⟩ := hl
      exact h.snapshots _ (List.mem_of_getElem? hcall) req rfl
  | lead t last s log =>
      obtain ⟨-, -, granted, hmajority, hpolled⟩ := hl
      refine ⟨granted, hmajority, fun p hp => ⟨(hpolled p hp).1, ?_⟩⟩
      obtain ⟨-, id, resp, hcall, hreply, hgranted⟩ := hpolled p hp
      exact h.voted id x p _ resp hcall hreply hgranted
  | progress p t m =>
      obtain ⟨hp, hconfirmed⟩ := hl
      refine ⟨hp, ?_⟩
      cases hconfirmed with
      | @append id req resp hcall hreply hsuccess =>
          have hreq := h.appends _ (List.mem_of_getElem? hcall) req rfl
          have hlast :=
            lastEntryIndex_of_numbered (hreq.carries.numbered (h.indexed req.term))
          obtain ⟨hack, hm⟩ := h.accepted id x p req resp hcall hreply hsuccess
          exact ⟨_, by omega, hack⟩
      | @snapshot id req resp hcall hreply hle =>
          exact ⟨_, le_rfl, h.installed id x p req resp hcall hreply hle⟩
  | _ => trivial

/-- The abstract state after some moves of a step. -/
structure RefinesAlong (cfg : Config) (σ : State String Entry) (c' : Cluster) (x : String)
    (ls : List Label) (n : Node) (σ' : State String Entry) : Prop where
  steps : Steps Entry.term cfg.Quorum x σ σ'
  tracks : n.Tracks cfg σ' x
  indexed : ∀ t, Indexed (σ'.llog t)
  done : ∀ l ∈ ls, l.Done cfg σ' x
  llog : ∀ t, σ'.llog t = σ.llog t ∨ c'.Won x t
  base : ∀ t, σ'.base t = σ.base t ∨ ∃ last s log, .lead t last s log ∈ ls

/-- A term in which a node is about to become leader has no leader yet. -/
theorem Refines.open_of_lead
    (h : Refines cfg σ c)
    (helections : Elections cfg (addVotes g x ls) c')
    (T : Transition cfg False c a c' x ls)
    {pre : List Label} {n : Node} {t : Nat}
    (halong : RefinesAlong cfg σ c' x pre n σ')
    (hvotes : VotesAlong g c x pre n)
    (hrole : n.role = .candidate)
    (hterm : n.currentTerm = t)
    (hwon : c'.Won x t) :
    σ'.base t = none := by
  by_contra hne
  rcases halong.base t with heq | hled
  · rw [heq] at hne
    obtain ⟨y, hy⟩ := h.taken t hne
    obtain rfl := helections.winner_unique hwon ((T.won_iff y t).mpr (Or.inl hy))
    exact (hvotes.leads.spent t (Or.inl hy)).2 hterm hrole
  · exact (hvotes.leads.spent t (Or.inr hled)).2 hterm hrole

theorem RefinesAlong.step
    (h : Refines cfg σ c)
    (hok : c.Followable a)
    (helections : Elections cfg (addVotes g x ls) c')
    (T : Transition cfg False c a c' x ls)
    {pre : List Label} {l : Label} {n n' : Node}
    (hpre : pre ++ [l] <+: ls)
    (hmove : Move (env cfg False x) l n n')
    (halong : RefinesAlong cfg σ c' x pre n σ')
    (hvotes : VotesAlong g c x pre n)
    (hvotes' : VotesAlong g c x (pre ++ [l]) n') :
    ∃ σ'', Steps Entry.term cfg.Quorum x σ' σ'' ∧
      RefinesAlong cfg σ c' x (pre ++ [l]) n' σ'' := by
  have hl : l ∈ ls := hpre.subset (by simp)
  have hI := Steps.inv h.inv halong.steps
  have hg := Steps.grows h.inv halong.steps
  have hlead : ∀ {t last s log}, .lead t last s log ∈ ls → c'.Won x t :=
    fun hmem => (T.won_iff x _).mpr (Or.inr ⟨rfl, _, _, _, hmem⟩)
  have hwon : ∀ {ls' t}, ls' <+: ls →
      (c.Won x t ∨ ∃ last s log, .lead t last s log ∈ ls') → c'.Won x t := by
    rintro ls' t hle (hwon | ⟨last, s, log, hmem⟩)
    · exact (T.won_iff x t).mpr (Or.inl hwon)
    · exact hlead (hle.subset hmem)
  have hopen : ∀ t last s log, l = .lead t last s log → σ'.base t = none := by
    rintro t last s log rfl
    have hcandidate : n.role = .candidate ∧ n.currentTerm = t := by
      generalize hlabel : Label.lead t last s log = label at hmove
      cases hmove <;> cases hlabel
      exact ⟨by assumption, rfl⟩
    exact h.open_of_lead helections T halong hvotes hcandidate.1 hcandidate.2 (hlead hl)
  obtain ⟨σ'', hsim⟩ := hmove.simulates halong.tracks hI halong.indexed T.member
    ((h.rests hok (T.justified l hl)).mono hg) hopen
  have hg' := Steps.grows hI hsim.steps
  refine ⟨σ'', hsim.steps, halong.steps.trans hsim.steps, hsim.tracks, hsim.indexed,
    fun d hd => ?_, fun t => ?_, fun t => ?_⟩
  · rcases List.mem_append.mp hd with hd | hd
    · exact (halong.done d hd).mono hg'
    · exact List.mem_singleton.mp hd ▸ hsim.done
  · rcases hsim.llog t with heq | ⟨rfl, hrole⟩ | ⟨rfl, hrole⟩
    · rw [heq]
      exact halong.llog t
    · exact Or.inr (hwon ((List.prefix_append _ _).trans hpre) (hvotes.leads.leader hrole))
    · exact Or.inr (hwon hpre (hvotes'.leads.leader hrole))
  · rcases hsim.base t with heq | ⟨last, s, log, rfl⟩
    · rw [heq]
      exact (halong.base t).imp_right fun ⟨last, s, log, hmem⟩ =>
        ⟨last, s, log, List.mem_append_left _ hmem⟩
    · exact Or.inr ⟨last, s, log, by simp⟩

/-- A move of a step, with the abstract states before and after it. -/
structure Followed (cfg : Config) (σ : State String Entry) (x : String) (l : Label)
    (n n' : Node) (σ₁ σ₂ : State String Entry) : Prop where
  move : Move (env cfg False x) l n n'
  before : n.Tracks cfg σ₁ x
  after : n'.Tracks cfg σ₂ x
  inv : Inv Entry.term cfg.Quorum σ₂
  since : Grows σ σ₁
  grows : Grows σ₁ σ₂

/-- The abstract state after all moves of a step, and what each move preserves. -/
theorem Refines.path
    {Q : State String Entry → Node → Prop}
    (h : Refines cfg σ c)
    (hok : c.Followable a)
    (hthreads : c.Threads cfg)
    (hvotes : Elections cfg g c)
    (T : Transition cfg False c a c' x ls)
    (hQ : Q σ (c.node x))
    (hmoves : ∀ l ∈ ls, ∀ n n' σ₁ σ₂, Followed cfg σ x l n n' σ₁ σ₂ → Q σ₁ n → Q σ₂ n') :
    ∃ σ', RefinesAlong cfg σ c' x ls (c'.node x) σ' ∧ Q σ' (c'.node x) := by
  have helections := hvotes.step hthreads T
  refine (T.path.accumulate
    (I := fun pre n => VotesAlong g c x pre n ∧
      ∃ σ', RefinesAlong cfg σ c' x pre n σ' ∧ Q σ' n)
    ⟨hvotes.along x, σ, ⟨Relation.ReflTransGen.refl, h.nodes x, h.indexed, by simp,
      fun _ => Or.inl rfl, fun _ => Or.inl rfl⟩, hQ⟩ ?_).2
  rintro pre l n n' hpre hmove ⟨halong, σ₁, hrefines, hn⟩
  have hl : l ∈ ls := hpre.subset (by simp)
  have halong' := halong.step T hthreads hl hmove
  obtain ⟨σ₂, hsteps, hrefines'⟩ :=
    hrefines.step h hok helections T hpre hmove halong halong'
  have hinv := Steps.inv h.inv hrefines.steps
  have hfollowed : Followed cfg σ x l n n' σ₁ σ₂ :=
    ⟨hmove, hrefines.tracks, hrefines'.tracks, Steps.inv hinv hsteps,
      Steps.grows h.inv hrefines.steps, Steps.grows hinv hsteps⟩
  exact ⟨halong', σ₂, hrefines', hmoves l hl n n' σ₁ σ₂ hfollowed hn⟩

theorem Refines.calls
    (hok : c.Followable a)
    (T : Transition cfg False c a c' x ls)
    (halong : RefinesAlong cfg σ c' x ls (c'.node x) σ')
    {call : Call}
    (hcall : c.Built cfg a x (c'.node x) call) :
    (∀ req, call.request = .append req → req.Backed cfg σ') ∧
      ∀ req, call.request = .snapshot req → req.Backed cfg σ' := by
  cases hcall with
  | vote _ _ _ _ => exact ⟨by simp, by simp⟩
  | @append p prevLogTerm haction _ _ hprev hsame =>
      subst haction
      have hleader : (c'.node x).role = .leader := hsame ▸ hok.sent
      have habove : (c'.node x).store.snapshotIndex < (c'.node x).nextIndexLocked p :=
        hsame ▸ hok.gapless
      refine ⟨fun req h => ?_, by simp⟩
      cases h
      exact halong.tracks.backs_append hleader hprev habove
  | snapshot haction _ _ hsame =>
      subst haction
      have hleader : (c'.node x).role = .leader := hsame ▸ hok.sent
      refine ⟨by simp, fun req h => ?_⟩
      cases h
      exact halong.tracks.backs_snapshot hleader

/-- What the moves of a step leave behind is the abstract state of the cluster. -/
theorem RefinesAlong.refines
    (h : Refines cfg σ c)
    (hok : c.Followable a)
    (hthreads : c.Threads cfg)
    (hvotes : Elections cfg g c)
    (T : Transition cfg False c a c' x ls)
    (halong : RefinesAlong cfg σ c' x ls (c'.node x) σ') :
    Refines cfg σ' c' := by
  have helections := hvotes.step hthreads T
  have hg := Steps.grows h.inv halong.steps
  have hold : ∀ {id : Nat} {r : Response} {call : Call}, c'.calls[id]? = some call →
      (id, r) ∈ c.replies → c.calls[id]? = some call := by
    intro id r call hcall hreply
    obtain ⟨call', hcall'⟩ := hthreads.replies _ hreply
    rw [hcall', ← T.extends.call hcall', hcall]
  obtain ⟨newCalls, hcalls, hbuilt⟩ := T.calls
  obtain ⟨newReplies, hreplies, hanswers⟩ := T.replies
  obtain ⟨newEvents, hevents, hclient⟩ := T.events
  refine ⟨Steps.inv h.inv halong.steps, halong.indexed, fun t ht => ?_, fun y => ?_,
    fun call hcall => ?_, fun call hcall => ?_, ?_, ?_, ?_, fun event hevent => ?_⟩
  · rcases halong.base t with heq | ⟨last, s, log, hmem⟩
    · obtain ⟨y, hy⟩ := h.taken t (heq ▸ ht)
      exact ⟨y, (T.won_iff y t).mpr (Or.inl hy)⟩
    · exact ⟨x, (T.won_iff x t).mpr (Or.inr ⟨rfl, last, s, log, hmem⟩)⟩
  · by_cases hy : y = x
    · exact hy ▸ halong.tracks
    · obtain ⟨hterm, hlog⟩ := Steps.frame halong.steps hy
      rw [T.frame y hy]
      refine (h.nodes y).mono hg hterm hlog fun hrole => ?_
      -- only the leader of a term moves its log
      refine (halong.llog _).resolve_right fun hwon => hy ?_
      exact helections.winner_unique
        ((T.won_iff y _).mpr (Or.inl ((hvotes.leads y).leader hrole))) hwon
  · rw [hcalls, List.mem_append] at hcall
    rcases hcall with hcall | hcall
    · exact fun req hreq => (h.appends call hcall req hreq).mono hg
    · exact (Refines.calls hok T halong (hbuilt call hcall)).1
  · rw [hcalls, List.mem_append] at hcall
    rcases hcall with hcall | hcall
    · exact fun req hreq => (h.snapshots call hcall req hreq).mono hg
    · exact (Refines.calls hok T halong (hbuilt call hcall)).2
  · intro id src dst req resp hcall hreply hgranted
    rw [hreplies, List.mem_append] at hreply
    rcases hreply with hreply | hreply
    · exact hg.voted (h.voted id src dst req resp (hold hcall hreply) hreply hgranted)
    · cases hanswers _ hreply with
      | vote hcall' _ _ hvote =>
          cases (T.extends.call hcall').symm.trans hcall
          exact halong.done _ (hvote hgranted).2 rfl
  · intro id src dst req resp hcall hreply hsuccess
    rw [hreplies, List.mem_append] at hreply
    rcases hreply with hreply | hreply
    · obtain ⟨hack, hm⟩ := h.accepted id src dst req resp (hold hcall hreply) hreply hsuccess
      exact ⟨hg.acks _ _ _ hack, hm⟩
    · cases hanswers _ hreply with
      | append hcall' _ _ haccept =>
          cases (T.extends.call hcall').symm.trans hcall
          exact halong.done _ (haccept hsuccess).2
  · intro id src dst req resp hcall hreply hle
    rw [hreplies, List.mem_append] at hreply
    rcases hreply with hreply | hreply
    · exact hg.acks _ _ _ (h.installed id src dst req resp (hold hcall hreply) hreply hle)
    · cases hanswers _ hreply with
      | snapshot hcall' _ hge hdone =>
          cases (T.extends.call hcall').symm.trans hcall
          rcases hdone (le_antisymm hle hge) with hmem | ⟨last, known, applied, hmem⟩
          · exact halong.done _ hmem
          · exact halong.done _ hmem
  · rw [hevents, List.mem_append, List.mem_append, List.mem_filterMap] at hevent
    rcases hevent with (hevent | ⟨l, hl, hlabel⟩) | hevent
    · exact (h.history event hevent).mono hg
    · exact (halong.done l hl).event hlabel
    · exact Event.holds_of_client (hclient event hevent)

/-- The entries of a `committed` event, at their positions. -/
theorem Refines.committed_entry
    (h : Refines cfg σ c)
    {t k : Nat} {log : List Entry} {e : Entry}
    (hevent : .committed x t k log ∈ c.events)
    (he : e ∈ log) :
    ((σ.llog t).take k)[e.index - 1]? = some e := by
  obtain ⟨-, -, hentries⟩ := h.history _ hevent
  obtain ⟨hle, hat⟩ := hentries e he
  have hpos := (h.indexed t).index_eq hat
  rw [List.getElem?_take_of_lt (by omega), hat]

/-- What holds of the abstract state and the cluster along every step holds after a
run. -/
theorem exec_refines_from
    {ok : Cluster → Action → Prop} {P : State String Entry → Cluster → Prop}
    (hok : ∀ c a, ok c a → c.Followable a)
    (hstep : ∀ g σ c a c', c.Threads cfg → Elections cfg g c → Refines cfg σ c → ok c a →
      c.step cfg a = some c' → P σ c →
      ∃ x ls σ', Transition cfg False c a c' x ls ∧
        RefinesAlong cfg σ c' x ls (c'.node x) σ' ∧ P σ' c')
    {as : List Action} {c₀ : Cluster}
    (hthreads : c₀.Threads cfg)
    (hP : ∃ g σ, Elections cfg g c₀ ∧ Refines cfg σ c₀ ∧ P σ c₀)
    (halong : Along cfg ok c₀ as)
    (hexec : c₀.exec cfg as = some c) :
    c.Threads cfg ∧ ∃ g σ, Elections cfg g c ∧ Refines cfg σ c ∧ P σ c := by
  refine exec_invariant_from
    (P := fun c => ∃ g σ, Elections cfg g c ∧ Refines cfg σ c ∧ P σ c)
    (fun c a h => ⟨fun hfail => (hok c a h).commits hfail, (hok c a h).terms⟩) ?_
    hthreads hP halong hexec
  rintro c a c' - - hthreads ha - hc' ⟨g, σ, hvotes, hrefines, hP⟩
  obtain ⟨x, ls, σ', T, halong, hP'⟩ := hstep g σ c a c' hthreads hvotes hrefines ha hc' hP
  exact ⟨_, σ', hvotes.step hthreads T, halong.refines hrefines (hok c a ha) hthreads hvotes T,
    hP'⟩

theorem exec_refines_with
    {ok : Cluster → Action → Prop} {P : State String Entry → Cluster → Prop}
    (hok : ∀ c a, ok c a → c.Followable a)
    (hinit : P Consensus.init init)
    (hstep : ∀ g σ c a c', c.Threads cfg → Elections cfg g c → Refines cfg σ c → ok c a →
      c.step cfg a = some c' → P σ c →
      ∃ x ls σ', Transition cfg False c a c' x ls ∧
        RefinesAlong cfg σ c' x ls (c'.node x) σ' ∧ P σ' c')
    {as : List Action}
    (halong : Along cfg ok init as)
    (hexec : init.exec cfg as = some c) :
    ∃ σ, Refines cfg σ c ∧ P σ c := by
  obtain ⟨-, -, σ, -, hrefines⟩ := exec_refines_from hok hstep threads_init
    ⟨_, _, elections_init, refines_init, hinit⟩ halong hexec
  exact ⟨σ, hrefines⟩

/-- A run of such steps is a run of the abstract protocol. -/
theorem exec_refines
    {as : List Action}
    (halong : Along cfg Followable init as)
    (hexec : init.exec cfg as = some c) :
    ∃ σ, Refines cfg σ c := by
  have hrun : ∃ σ, Refines cfg σ c ∧ True := by
    refine exec_refines_with (P := fun _ _ => True) (fun _ _ h => h) trivial ?_ halong hexec
    intro g σ c a c' hthreads hvotes hrefines hok hc' _
    obtain ⟨x, ls, T, -⟩ : c.Next cfg False a c' :=
      step_next hthreads (fun hfail => hok.commits hfail) hok.terms hc'
    obtain ⟨σ', hpath, -⟩ := hrefines.path (Q := fun _ _ => True) hok hthreads hvotes T trivial
      fun _ _ _ _ _ _ _ _ => trivial
    exact ⟨x, ls, σ', T, hpath, trivial⟩
  obtain ⟨σ, hrefines, -⟩ := hrun
  exact ⟨σ, hrefines⟩

end Step

section Runs

variable {cfg : Config} {as : List Action} {c : Cluster}

/-- A leader of a later term has every entry that a leader committed, in its log or
under its snapshot. -/
theorem leader_completeness
    (halong : Along cfg Followable init as)
    (hexec : init.exec cfg as = some c)
    {x y : String} {t t' k s : Nat} {log log' : List Entry}
    (hcommitted : .committed x t k log ∈ c.events)
    (helected : .elected y t' s log' ∈ c.events)
    (hlater : t < t') :
    ∀ e ∈ log, e ∈ log' ∨ e.index ≤ s := by
  obtain ⟨σ, h⟩ := exec_refines halong hexec
  obtain ⟨-, hchosen, -⟩ := h.history _ hcommitted
  obtain ⟨b, hb, rfl⟩ := h.history _ helected
  -- what was chosen is a prefix of the log the later leader started with
  have hextends : (σ.llog t).take k <+: b :=
    h.inv.complete (fun _ _ hA hB => Config.Quorum.meet hA hB) hchosen t' b hlater hb
  intro e he
  have hbase : b[e.index - 1]? = some e :=
    getElem?_prefix_eq hextends (h.committed_entry hcommitted he)
  rcases le_or_gt e.index s with hcovered | hlt
  · exact Or.inr hcovered
  · refine Or.inl (List.mem_of_getElem? (i := e.index - 1 - s) ?_)
    rw [List.getElem?_drop, show s + (e.index - 1 - s) = e.index - 1 by omega, hbase]

section Sample

open LogReplicator.Action

instance (c : Cluster) (a : Action) : Decidable (c.SentByLeader a) :=
  match a with
  | .sendEntries x _ | .sendSnapshot x _ =>
      inferInstanceAs (Decidable ((c.node x).role = .leader))
  | .campaign .. | .countVote .. | .missVote .. | .loseElection .. | .winElection ..
  | .commitAlone .. | .deliver .. | .replicate .. | .giveUp .. | .checkLeader ..
  | .checkSnapshot .. | .callFails .. | .appendReply .. | .appendDone .. | .snapshotReply ..
  | .snapshotDone .. | .invoke .. | .route .. | .propose .. | .poll .. | .expire ..
  | .confirm .. | .readKey .. | .crash .. => inferInstanceAs (Decidable True)

instance (c : Cluster) (call : Call) : Decidable (c.CommitReached call) :=
  match call with
  | ⟨_, _, .append _⟩ => inferInstanceAs (Decidable (_ ∨ _))
  | ⟨_, _, .vote _⟩ => inferInstanceAs (Decidable True)
  | ⟨_, _, .snapshot _⟩ => inferInstanceAs (Decidable True)

instance (c : Cluster) (a : Action) : Decidable (c.Verified a) :=
  match a with
  | .deliver id _ =>
      inferInstanceAs (Decidable (∀ call ∈ c.calls[id]?, c.CommitReached call))
  | .campaign .. | .countVote .. | .missVote .. | .loseElection .. | .winElection ..
  | .commitAlone .. | .replicate .. | .giveUp .. | .checkLeader .. | .checkSnapshot ..
  | .sendEntries .. | .sendSnapshot .. | .callFails .. | .appendReply .. | .appendDone ..
  | .snapshotReply .. | .snapshotDone .. | .invoke .. | .route .. | .propose .. | .poll ..
  | .expire .. | .confirm .. | .readKey .. | .crash .. => inferInstanceAs (Decidable True)

instance (c : Cluster) (a : Action) : Decidable (c.Followable a) :=
  decidable_of_iff
    (.fail ∉ a.outcomes ∧ c.TermsLeft a ∧ c.Gapless a ∧ c.SentByLeader a ∧ c.Verified a)
    ⟨fun ⟨h₁, h₂, h₃, h₄, h₅⟩ => ⟨h₁, h₂, h₃, h₄, h₅⟩,
      fun h => ⟨h.commits, h.terms, h.gapless, h.sent, h.verified⟩⟩

/-- The entry of the first client call of the sample runs. -/
def firstWrite : Entry :=
  ⟨1, 1, Command.encode Json.compact ⟨.set, "k1", "v1"⟩⟩

/-- `a` commits an entry in term 1 with `b`, and `b` leads term 2. -/
def failover : List Action :=
  firstEntry ++ [appendReply "a" "b" ⟨1, true, 1⟩ [], appendDone "a" "b" []] ++
    elect "b" "c" 4 2

theorem leader_completeness_failover :
    Along (trio fun _ => 0) Followable init failover ∧
      ∃ c log', init.exec (trio fun _ => 0) failover = some c ∧
        .committed "a" 1 1 [firstWrite] ∈ c.events ∧ .elected "b" 2 0 log' ∈ c.events ∧
        (firstWrite ∈ log' ∨ firstWrite.index ≤ 0) := by
  have halong : Along (trio fun _ => 0) Followable init failover := by decide +kernel
  have hrun : ((init.exec (trio fun _ => 0) failover).map fun c =>
      decide (.committed "a" 1 1 [firstWrite] ∈ c.events ∧
        .elected "b" 2 0 [firstWrite] ∈ c.events)) = some true := by
    decide +kernel
  obtain ⟨c, hexec, hevents⟩ := Option.map_eq_some_iff.mp hrun
  obtain ⟨hcommitted, helected⟩ := of_decide_eq_true hevents
  exact ⟨halong, c, _, hexec, hcommitted, helected,
    leader_completeness halong hexec hcommitted helected (by decide) firstWrite (by simp)⟩

/-- The request to `c` leaves out the first entry, which `a` has compacted, and says
that nothing comes before the second; `c` leads term 2 with a longer log than `b`. -/
def electedOverGap : List Action :=
  compactedBehindCheck ++ [sendEntries "a" "c", deliver 3 []] ++ elect "c" "b" 5 2

/-- The entry that `a` committed in term 1 is neither in the log of the leader of
term 2 nor under its snapshot. -/
theorem leader_incomplete_of_electedOverGap :
    Along (trio fun x => if x = "a" then 1 else 0)
        (fun c a => .fail ∉ a.outcomes ∧ c.TermsLeft a) init electedOverGap ∧
      ∃ c log', init.exec (trio fun x => if x = "a" then 1 else 0) electedOverGap = some c ∧
        .committed "a" 1 1 [firstWrite] ∈ c.events ∧ .elected "c" 2 0 log' ∈ c.events ∧
        firstWrite.index = 1 ∧ firstWrite ∉ log' := by
  have halong : Along (trio fun x => if x = "a" then 1 else 0)
      (fun c a => .fail ∉ a.outcomes ∧ c.TermsLeft a) init electedOverGap := by
    decide +kernel
  have hrun : ((init.exec (trio fun x => if x = "a" then 1 else 0) electedOverGap).map
      fun c => decide (.committed "a" 1 1 [firstWrite] ∈ c.events ∧
        .elected "c" 2 0 [⟨2, 1, Command.encode Json.compact ⟨.set, "k2", "v2"⟩⟩] ∈ c.events)) =
      some true := by
    decide +kernel
  obtain ⟨c, hexec, hevents⟩ := Option.map_eq_some_iff.mp hrun
  obtain ⟨hcommitted, helected⟩ := of_decide_eq_true hevents
  exact ⟨halong, c, _, hexec, hcommitted, helected, rfl, by decide⟩

end Sample

end Runs

end Cluster

end LogReplicator
