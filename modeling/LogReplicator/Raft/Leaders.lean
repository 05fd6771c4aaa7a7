import LogReplicator.Raft.Frames
import LogReplicator.Raft.Projection
import LogReplicator.Raft.Provenance

/-!
# Whom a node takes for the leader

A node that does not lead remembers who does, reports it in `Status` and sends clients
there.  The name comes from the requests of leaders and is dropped with every new term.
So it is always a peer, and it is the leader of the term, unless a request was built for a
term that its sender did not lead.
-/

namespace LogReplicator

open Library Txn

/-- How far a peer is, as its leader sees it. -/
structure PeerStatus where
  id : String
  matchIndex : Nat
  nextIndex : Nat
deriving DecidableEq, Repr

structure StatusResponse where
  id : String
  role : Role
  term : Nat
  leaderId : String
  commitIndex : Nat
  lastApplied : Nat
  lastLogIndex : Nat
  snapshotIndex : Nat
  peers : List PeerStatus
deriving DecidableEq, Repr

/-- The Raft state of a node, including per peer progress. -/
def Node.status (o : Options) (n : Node) : StatusResponse where
  id := o.nodeID
  role := n.role
  term := n.currentTerm
  leaderId := if n.role = .leader then o.nodeID else n.leaderID
  commitIndex := n.commitIndex
  lastApplied := n.lastApplied
  lastLogIndex := n.store.lastIndex
  snapshotIndex := n.store.snapshotIndex
  peers := o.peers.map fun p => ⟨p, n.matchIndex p, n.nextIndex p⟩

/-- The leader the node knows, if it knows one and is none itself, has property `H` in the
term of the node. -/
def Node.Hinted (H : Nat → String → Prop) (n : Node) : Prop :=
  n.role = .leader ∨ n.leaderID = "" ∨ H n.currentTerm n.leaderID

theorem Node.Hinted.mono
    {H H' : Nat → String → Prop} {n : Node}
    (h : n.Hinted H)
    (hle : ∀ t l, H t l → H' t l) :
    n.Hinted H' :=
  h.imp_right fun h => h.imp_right fun h => hle _ _ h

section Sections

variable {H : Nat → String → Prop} {n : Node}

/-- Role, term and leader of a node. -/
def Node.profile (n : Node) : Role × Nat × String :=
  (n.role, n.currentTerm, n.leaderID)

theorem Node.standing_profile :
    Node.Standing Node.profile where
  store := fun _ _ => rfl
  lastApplied := fun _ _ => rfl
  commitIndex := fun _ _ => rfl
  votedFor := fun _ _ => rfl
  nextIndex := fun _ _ => rfl
  matchIndex := fun _ _ => rfl

theorem Node.Hinted.of_profile
    {n' : Node}
    (h : n.Hinted H)
    (hprofile : n'.profile = n.profile) :
    n'.Hinted H := by
  simp only [Node.profile, Prod.mk.injEq] at hprofile
  obtain ⟨hrole, hterm, hleader⟩ := hprofile
  unfold Node.Hinted
  rwa [hrole, hterm, hleader]

theorem preserves_hinted_of_keeps
    {α : Type} {m : Txn Node α}
    (h : Keeps Node.profile m) :
    Preserves (Node.Hinted H) m := by
  intro n hn os _
  have hprofile := h os n
  rcases hrun : m os n with ⟨_ | a, n', os'⟩
  · trivial
  · rw [hrun] at hprofile
    exact ⟨hn.of_profile hprofile, fun _ => trivial⟩

theorem wp_adoptTerm
    (term : Nat) (n : Node) :
    wp True (Node.adoptTerm term) (fun _ n' => n'.currentTerm = max n.currentTerm term)
      (fun _ => True) n := by
  refine wp_read_bind ?_
  split_ifs with hterm
  · refine wp_bind (wp_update (wp_bind (wp_write ?_ ?_ ?_)))
    · exact wp_pure (max_eq_right hterm.le).symm
    · exact fun _ => wp_pure (max_eq_right hterm.le).symm
    · trivial
  · exact wp_pure (max_eq_left (not_lt.mp hterm)).symm

/-- Who steps down for a newer term knows no leader yet. -/
theorem preserves_hinted_stepDownLocked
    (term : Nat) :
    Preserves (Node.Hinted H) (Node.stepDownLocked term "") := by
  intro n _
  exact wp_bind (wp_mono (wp_adoptTerm term n)
    (fun _ _ _ => wp_update (Or.inr (Or.inl rfl))) fun _ h => h)

theorem preserves_hinted_becomeCandidate
    (o : Options) :
    Preserves (Node.Hinted H) (Node.becomeCandidate o) := by
  intro n hn
  refine wp_read_bind ?_
  split_ifs
  · exact wp_pure hn
  · have hsave := preserves_hinted_of_keeps (H := H)
      (Node.standing_profile.writeStore fun s => s.saveTermVote (nextTerm n.currentTerm) o.nodeID)
    refine wp_bind (wp_update (wp_bind (wp_mono (hsave _ (Or.inr (Or.inl rfl)))
      (fun saved n' hn' => ?_) fun _ h => h)))
    split_ifs
    · exact wp_pure hn'
    · exact wp_pure hn'

theorem preserves_hinted_becomeLeader
    (o : Options) (term : Nat) :
    Preserves (Node.Hinted H) (Node.becomeLeader o term) := by
  intro n hn
  refine wp_read_bind ?_
  split_ifs
  · exact wp_pure hn
  · exact wp_bind (wp_update (wp_pure (Or.inl rfl)))

theorem preserves_hinted_requestVote
    (req : RequestVoteRequest) :
    Preserves (Node.Hinted H) (Node.requestVote req) := by
  have hvote := preserves_hinted_of_keeps (H := H) (Node.standing_profile.voteLocked req)
  refine Preserves.read fun n => ?_
  split_ifs
  · exact preserves_pure _
  · exact (preserves_hinted_stepDownLocked _).bind fun _ => hvote
  · exact hvote

theorem preserves_hinted_observeHigherTerm
    (term : Nat) :
    Preserves (Node.Hinted H) (Node.observeHigherTerm term) := by
  refine Preserves.read fun n => ?_
  split_ifs
  · exact preserves_pure _
  · exact (preserves_hinted_stepDownLocked _).bind fun _ => preserves_pure _

/-- A request that is not stale makes its sender the leader of its term. -/
theorem wp_acceptLeader
    {term : Nat}
    (hterm : n.currentTerm ≤ term)
    (leaderId : String) :
    wp True (Node.acceptLeader term leaderId)
      (fun _ n' => n'.currentTerm = term ∧ n'.leaderID = leaderId) (fun _ => True) n := by
  refine wp_read_bind ?_
  split_ifs with hstep
  · refine wp_bind (wp_bind (wp_mono (wp_adoptTerm term n) (fun _ n' hn' => ?_) fun _ h => h))
    exact wp_update (wp_update ⟨hn'.trans (max_eq_right hterm), rfl⟩)
  · obtain ⟨hnot, -⟩ := not_or.mp hstep
    exact wp_update ⟨le_antisymm hterm (not_lt.mp hnot), rfl⟩

theorem preserves_hinted_appendEntries
    (json : Json) (o : Options) {req : AppendEntriesRequest}
    (hreq : H req.term req.leaderId) :
    Preserves (Node.Hinted H) (Node.appendEntries json o req) := by
  intro n hn
  have hmerge := preserves_hinted_of_keeps (H := H) (Node.standing_profile.mergeLocked json o req)
  refine wp_read_bind ?_
  split_ifs with hstale
  · exact wp_pure hn
  · refine wp_bind (wp_mono (wp_acceptLeader (not_lt.mp hstale) _) ?_ fun _ h => h)
    rintro _ n' ⟨hterm, hleader⟩
    exact hmerge n' (Or.inr (Or.inr (by rwa [hterm, hleader])))

theorem preserves_hinted_installSnapshot
    (json : Json) {req : InstallSnapshotRequest}
    (hreq : H req.term req.leaderId) :
    Preserves (Node.Hinted H) (Node.installSnapshot json req) := by
  intro n hn
  have hinstall := preserves_hinted_of_keeps (H := H)
    (Node.standing_profile.installLocked json req)
  refine wp_read_bind ?_
  split_ifs with hstale
  · exact wp_pure hn
  · refine wp_bind (wp_mono (wp_acceptLeader (not_lt.mp hstale) _) ?_ fun _ h => h)
    rintro _ n' ⟨hterm, hleader⟩
    exact hinstall n' (Or.inr (Or.inr (by rwa [hterm, hleader])))

theorem keeps_profile_appendReplied
    (json : Json) (o : Options) (peerID : String) (term : Nat) (req : AppendEntriesRequest)
    (reply : AppendEntriesResponse) :
    Keeps Node.profile (Node.appendReplied json o peerID term req reply) := by
  refine keeps_read.bind fun n => ?_
  split_ifs
  · exact keeps_pure _
  · exact Keeps.update (fun _ => rfl) (keeps_pure _)
  · exact Keeps.update (fun n' => Node.standing_profile.recordPeerProgressLocked _ _ n')
      ((Node.standing_profile.advanceCommitLocked json o).bind fun _ => keeps_pure _)

theorem keeps_profile_snapshotReplied
    (json : Json) (o : Options) (peerID : String) (term lastIncludedIndex : Nat) :
    Keeps Node.profile (Node.snapshotReplied json o peerID term lastIncludedIndex) := by
  refine keeps_read.bind fun n => ?_
  split_ifs
  · exact keeps_pure _
  · exact Keeps.update (fun n' => Node.standing_profile.recordPeerProgressLocked _ _ n')
      ((Node.standing_profile.advanceCommitLocked json o).bind fun _ => keeps_pure _)

theorem keeps_profile_appendClientEntry
    (json : Json) (o : Options) (payload : Bytes) :
    Keeps Node.profile (Node.appendClientEntry json o payload) := by
  refine keeps_read.bind fun n => ?_
  split_ifs
  · exact keeps_pure _
  · refine (Node.standing_profile.writeStoreIf _ _).bind fun stored => ?_
    split_ifs
    · exact keeps_pure _
    · exact (Node.standing_profile.advanceCommitLocked json o).bind fun _ => keeps_pure _
  · refine (Node.standing_profile.writeStoreIf _ _).bind fun stored => ?_
    split_ifs
    · exact keeps_pure _
    · exact keeps_pure _

end Sections

/-- The request of a leader, if the operation is one, names a leader with property `H`. -/
def Operation.Names (H : Nat → String → Prop) : Operation → Prop
  | .append req => H req.term req.leaderId
  | .snapshot req => H req.term req.leaderId
  | _ => True

namespace Solo

variable {H : Nat → String → Prop} {s : Solo}

/-- A node that was just started knows no leader. -/
theorem hinted_new
    (store : Store) :
    (Node.new store).Hinted H :=
  Or.inr (Or.inl rfl)

theorem hinted_runSection
    {α : Type} {m : Txn Node α}
    (hm : Preserves (Node.Hinted H) m)
    (hs : s.node.Hinted H)
    (os : List Outcome) (answer : α → List Answered) :
    (s.runSection m os answer).node.Hinted H := by
  have hrun := hm s.node hs os fun _ => trivial
  unfold runSection
  rcases h : m os s.node with ⟨_ | a, n, os'⟩
  · exact hinted_new n.store
  · simp only [h] at hrun
    exact hrun.1

theorem hinted_perform
    (json : Json) (o : Options)
    {op : Operation}
    (hs : s.node.Hinted H)
    (hop : op.Names H)
    (os : List Outcome) :
    (s.perform json o op os).node.Hinted H := by
  cases op with
  | timeout => exact hinted_runSection (preserves_hinted_becomeCandidate o) hs os _
  | win term => exact hinted_runSection (preserves_hinted_becomeLeader o term) hs os _
  | commitAlone =>
      exact hinted_runSection
        (preserves_hinted_of_keeps (Node.standing_profile.advanceCommitLocked json o)) hs os _
  | vote req => exact hinted_runSection (preserves_hinted_requestVote req) hs os _
  | append req => exact hinted_runSection (preserves_hinted_appendEntries json o hop) hs os _
  | snapshot req => exact hinted_runSection (preserves_hinted_installSnapshot json hop) hs os _
  | observe term => exact hinted_runSection (preserves_hinted_observeHigherTerm term) hs os _
  | build peerID =>
      refine hs.of_profile ?_
      simp only [perform, Node.buildAppendRequestLocked]
      split <;> rfl
  | appendReply peerID term req reply =>
      exact hinted_runSection
        (preserves_hinted_of_keeps (keeps_profile_appendReplied json o peerID term req reply))
        hs os _
  | snapshotReply peerID term lastIncludedIndex =>
      exact hinted_runSection
        (preserves_hinted_of_keeps
          (keeps_profile_snapshotReplied json o peerID term lastIncludedIndex)) hs os _
  | client payload =>
      exact hinted_runSection
        (preserves_hinted_of_keeps (keeps_profile_appendClientEntry json o payload)) hs os _
  | crash => exact hinted_new _

end Solo

namespace Cluster

section Steps

variable {cfg : Config} {c c' : Cluster} {a : Action} {t : Task}

/-- The requests a node is asked to handle are on their way to it. -/
theorem task_names
    {H : Nat → String → Prop}
    (htask : c.task cfg a = some t)
    (hcalls : ∀ call ∈ c.calls, call.dst = t.node → call.request.FromLeader →
      H call.request.term call.request.sender) :
    t.operation.Names H := by
  cases a with
  | deliver id os =>
      obtain ⟨call, hcall, rfl⟩ := Option.map_eq_some_iff.mp htask
      have hnames := hcalls call (List.mem_of_getElem? hcall) rfl
      cases hrequest : call.request with
      | vote req => trivial
      | append req =>
          rw [hrequest] at hnames
          exact hnames trivial
      | snapshot req =>
          rw [hrequest] at hnames
          exact hnames trivial
  | winElection x os =>
      simp only [task] at htask
      split at htask
      · cases htask
        trivial
      · cases htask
  | appendDone x p os =>
      simp only [task] at htask
      split at htask
      · cases htask
        trivial
      · cases htask
  | snapshotDone x p os =>
      simp only [task] at htask
      split at htask
      · cases htask
        trivial
      · cases htask
  | propose i os =>
      obtain ⟨op, -, htask⟩ := Option.bind_eq_some_iff.mp htask
      obtain ⟨cmd, -, rfl⟩ := Option.map_eq_some_iff.mp htask
      trivial
  | _ => cases htask <;> trivial

/-- What the requests of leaders say about them is what the nodes believe. -/
theorem step_hinted
    {H : String → Nat → String → Prop}
    (hstep : c.step cfg a = some c')
    (hcalls : ∀ call ∈ c.calls, call.request.FromLeader →
      H call.dst call.request.term call.request.sender)
    (h : ∀ x, (c.node x).Hinted (H x)) (x : String) :
    (c'.node x).Hinted (H x) := by
  rcases step_moves hstep with ⟨-, hrests⟩ | ⟨t, htask, hperforms⟩
  · rw [hrests.node]
    exact h x
  · by_cases hx : x = t.node
    · subst hx
      rw [hperforms.self]
      refine Solo.hinted_perform (s := ⟨c.node t.node, []⟩) cfg.json _ (h _)
        (task_names htask fun call hcall hdst hleader => ?_) _
      exact hdst ▸ hcalls call hcall hleader
    · rw [hperforms.frame x hx]
      exact h x

end Steps

section Runs

variable {cfg : Config} {as : List Action} {c : Cluster}

/-- In every run, with any failures of writes, a node that does not lead knows no leader
or takes a peer for it; no client is told that the leader is not a configured peer. -/
theorem redirects_known
    (hterms : Along cfg TermsLeft init as)
    (hexec : init.exec cfg as = some c)
    (x : String) :
    ((c.node x).role = .leader ∨ (c.node x).leaderID = "" ∨
        (c.node x).leaderID ∈ (cfg.options x).peers) ∧
      ∀ forwarded leaderID, (c.node x).leaderClient (cfg.options x) forwarded ≠
        .refuse (unknownLeader leaderID) := by
  have hhinted : ∀ x, (c.node x).Hinted fun _ l => l ∈ (cfg.options x).peers := by
    have hok : ∀ (c : Cluster) a, c.TermsLeft a → Usual True c a :=
      fun _ _ h => ⟨fun _ => trivial, h⟩
    refine exec_invariant
      (P := fun c => ∀ x, (c.node x).Hinted fun _ l => l ∈ (cfg.options x).peers)
      hok ?_ (fun _ => Solo.hinted_new _) hterms hexec
    intro c a c' _ _ hthreads _ _ hstep h
    refine step_hinted hstep (fun call hcall _ => ?_) h
    obtain ⟨hsrc, hdst, hsender⟩ := hthreads.calls call hcall
    rw [hsender]
    exact mem_peers.mpr ⟨hsrc, fun he => (mem_peers.mp hdst).2 he.symm⟩
  refine ⟨hhinted x, fun forwarded leaderID hroute => ?_⟩
  unfold Node.leaderClient at hroute
  split_ifs at hroute with hrole hnone hforwarded hpeer
  · simp [notLeaderError, unknownLeader] at hroute
  · simp [notLeaderError, unknownLeader, hnone] at hroute
  · exact ((hhinted x).resolve_left hrole).elim hnone hpeer

theorem redirects_known_firstEntry :
    Along (trio fun _ => 0) TermsLeft init firstEntry ∧
      ∃ c, init.exec (trio fun _ => 0) firstEntry = some c ∧
        (c.node "b").leaderID = "a" ∧
        ∀ forwarded leaderID,
          (c.node "b").leaderClient ((trio fun _ => 0).options "b") forwarded ≠
            .refuse (unknownLeader leaderID) := by
  have hterms : Along (trio fun _ => 0) TermsLeft init firstEntry := by decide +kernel
  have hrun : ((init.exec (trio fun _ => 0) firstEntry).map fun c =>
      (c.node "b").leaderID) = some "a" := by
    decide +kernel
  obtain ⟨c, hexec, hleader⟩ := Option.map_eq_some_iff.mp hrun
  exact ⟨hterms, c, hexec, hleader, (redirects_known hterms hexec "b").2⟩

/-- The status report of a node. -/
def status (cfg : Config) (c : Cluster) (x : String) : StatusResponse :=
  (c.node x).status (cfg.options x)

/-- Nodes believe what the leaders of their terms say. -/
theorem exec_hinted
    (halong : Along cfg (fun c a => c.TermsLeft a ∧ c.Undisturbed cfg a) init as)
    (hexec : init.exec cfg as = some c) :
    ∃ g, Elections cfg g c ∧ ∀ x, (c.node x).Hinted fun t l => c.Won l t := by
  have h := exec_invariant
    (P := fun c => ∃ g, Elections cfg g c ∧ c.Provenance ∧
      ∀ x, (c.node x).Hinted fun t l => c.Won l t)
    usual_of_undisturbed ?_
    ⟨_, elections_init, provenance_init, fun _ => Solo.hinted_new _⟩ halong hexec
  · obtain ⟨g, helections, -, hhinted⟩ := h
    exact ⟨g, helections, hhinted⟩
  · rintro c a c' x ls hthreads hok T hstep ⟨g, helections, hprovenance, hhinted⟩
    refine ⟨_, helections.step hthreads T,
      hprovenance.step hthreads helections hok.2 T, fun y => ?_⟩
    refine (step_hinted (H := fun _ t l => c.Won l t) hstep (fun call hcall hleader => ?_)
      hhinted y).mono fun t l => won_mono T
    rw [(hthreads.calls call hcall).sender]
    exact hprovenance.sent call hcall hleader

theorem won_of_reported
    {g : String → Nat → String → Prop} {x : String}
    (helections : Elections cfg g c)
    (hhinted : ∀ x, (c.node x).Hinted fun t l => c.Won l t)
    (hknown : (c.status cfg x).leaderId ≠ "") :
    c.Won (c.status cfg x).leaderId (c.status cfg x).term := by
  simp only [status, Node.status] at hknown ⊢
  split_ifs at hknown ⊢ with hrole
  · exact (helections.leads x).leader hrole
  · exact ((hhinted x).resolve_left hrole).resolve_left hknown

/-- In every undisturbed run, with any failures of writes, a leader that `Status` reports
won the term of the report, and all reports of a term, by any nodes at any times, name the
same leader or none. -/
theorem reported_leaders_agree
    (halong : Along cfg (fun c a => c.TermsLeft a ∧ c.Undisturbed cfg a) init as)
    (hexec : init.exec cfg as = some c) :
    (∀ x, (c.status cfg x).leaderId ≠ "" →
      c.Won (c.status cfg x).leaderId (c.status cfg x).term) ∧
    ∀ as₁ c₁ x y, as₁ <+: as → init.exec cfg as₁ = some c₁ →
      (c₁.status cfg x).term = (c.status cfg y).term →
      (c₁.status cfg x).leaderId ≠ "" → (c.status cfg y).leaderId ≠ "" →
      (c₁.status cfg x).leaderId = (c.status cfg y).leaderId := by
  obtain ⟨g, helections, hhinted⟩ := exec_hinted halong hexec
  refine ⟨fun x => won_of_reported helections hhinted, ?_⟩
  intro as₁ c₁ x y hmoment hexec₁ hterm hx hy
  obtain ⟨halong₁, rest, hrest, hexec'⟩ := exec_moment hmoment halong hexec hexec₁
  obtain ⟨g₁, helections₁, hhinted₁⟩ := exec_hinted halong₁ hexec₁
  obtain ⟨hthreads₁, -⟩ := exec_provenance halong₁ hexec₁
  -- The earlier election is still part of the history.
  obtain ⟨s, log, helected⟩ := won_of_reported helections₁ hhinted₁ hx
  have hevents := exec_events usual_of_undisturbed hthreads₁ hrest hexec'
  have hwon : c.Won (c₁.status cfg x).leaderId (c.status cfg y).term :=
    hterm ▸ ⟨s, log, hevents.subset helected⟩
  exact helections.winner_unique hwon (won_of_reported helections hhinted hy)

theorem reported_leaders_agree_firstEntry :
    Along (trio fun _ => 0) (fun c a => c.TermsLeft a ∧ c.Undisturbed (trio fun _ => 0) a)
        init firstEntry ∧
      ∃ c, init.exec (trio fun _ => 0) firstEntry = some c ∧
        (c.status (trio fun _ => 0) "b").leaderId = "a" ∧ c.Won "a" 1 := by
  have halong : Along (trio fun _ => 0)
      (fun c a => c.TermsLeft a ∧ c.Undisturbed (trio fun _ => 0) a) init firstEntry := by
    decide +kernel
  have hrun : ((init.exec (trio fun _ => 0) firstEntry).map fun c =>
      ((c.status (trio fun _ => 0) "b").leaderId, (c.status (trio fun _ => 0) "b").term)) =
      some ("a", 1) := by
    decide +kernel
  obtain ⟨c, hexec, hstatus⟩ := Option.map_eq_some_iff.mp hrun
  obtain ⟨hleader, hterm⟩ := Prod.mk.inj hstatus
  have hwon := (reported_leaders_agree halong hexec).1 "b" (by rw [hleader]; decide)
  rw [hleader, hterm] at hwon
  exact ⟨halong, c, hexec, hleader, hwon⟩

end Runs

end Cluster

end LogReplicator
