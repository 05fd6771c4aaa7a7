import LogReplicator.Raft.FollowerSections
import LogReplicator.Raft.Returns

/-!
# One node on its own

The runs of a single node against arbitrary surroundings: any requests, any
replies, any client calls, timeouts at any time, any fate of any transaction.
A crash at a transaction leaves the store as it is at that boundary, so the
stores these runs end with are the stores at all transaction boundaries.
-/

namespace LogReplicator

open Library

/-- What can happen to a node. -/
inductive Operation where
  | timeout
  | win (term : Nat)
  | commitAlone
  | vote (req : RequestVoteRequest)
  | append (req : AppendEntriesRequest)
  | snapshot (req : InstallSnapshotRequest)
  | observe (term : Nat)
  | build (peerID : String)
  | appendReply (peerID : String) (term : Nat) (req : AppendEntriesRequest)
      (reply : AppendEntriesResponse)
  | snapshotReply (peerID : String) (term lastIncludedIndex : Nat)
  | client (payload : Bytes)
  | crash
deriving DecidableEq, Repr

/-- An RPC the node has handled. -/
inductive Answered where
  | vote (req : RequestVoteRequest) (h : Handled RequestVoteResponse)
  | append (req : AppendEntriesRequest) (h : Handled AppendEntriesResponse)
  | snapshot (req : InstallSnapshotRequest) (h : Handled InstallSnapshotResponse)
deriving DecidableEq, Repr

namespace Answered

/-- The term of the request. -/
def requestTerm : Answered → Nat
  | vote req _ => req.term
  | append req _ => req.term
  | snapshot req _ => req.term

/-- The term the node answered with, if it answered. -/
def replyTerm : Answered → Option Nat
  | vote _ h => h.reply.map RequestVoteResponse.term
  | append _ h => h.reply.map AppendEntriesResponse.term
  | snapshot _ h => h.reply.map InstallSnapshotResponse.term

/-- The node granted the vote, accepted the entries or installed the snapshot. -/
def consents : Answered → Bool
  | vote _ h => decide (h.reply.map RequestVoteResponse.voteGranted = some true)
  | append _ h => decide (h.reply.map AppendEntriesResponse.success = some true)
  | snapshot _ h => decide (h.outcome = .success)

end Answered

/-- A node and the RPCs it has handled, the latest last. -/
structure Solo where
  node : Node
  answered : List Answered

namespace Solo

variable (json : Json) (o : Options)

/-- A node on an empty data directory. -/
def init : Solo :=
  ⟨Node.new Store.init, []⟩

/-- Run a section; a node that dies is restarted and answers nothing. -/
def runSection {α : Type} (s : Solo) (m : Txn Node α) (os : List Outcome)
    (answer : α → List Answered) : Solo :=
  match m os s.node with
  | (some a, n, _) => ⟨n, s.answered ++ answer a⟩
  | (none, n, _) => ⟨Node.new n.store, s.answered⟩

/-- The node does one thing. -/
def perform (s : Solo) (op : Operation) (os : List Outcome) : Solo :=
  match op with
  | .timeout => s.runSection (Node.becomeCandidate o) os fun _ => []
  | .win term => s.runSection (Node.becomeLeader o term) os fun _ => []
  | .commitAlone => s.runSection (Node.advanceCommitLocked json o) os fun _ => []
  | .vote req => s.runSection (Node.requestVote req) os fun h => [.vote req h]
  | .append req =>
      s.runSection (Node.appendEntries json o req) os fun h => [.append req h]
  | .snapshot req =>
      s.runSection (Node.installSnapshot json req) os fun h => [.snapshot req h]
  | .observe term => s.runSection (Node.observeHigherTerm term) os fun _ => []
  | .build peerID =>
      ⟨(s.node.buildAppendRequestLocked o peerID).1, s.answered⟩
  | .appendReply peerID term req reply =>
      s.runSection (Node.appendReplied json o peerID term req reply) os fun _ => []
  | .snapshotReply peerID term lastIncludedIndex =>
      s.runSection (Node.snapshotReplied json o peerID term lastIncludedIndex) os
        fun _ => []
  | .client payload =>
      s.runSection (Node.appendClientEntry json o payload) os fun _ => []
  | .crash => ⟨Node.new s.node.store, s.answered⟩

/-- The node does one thing after the other. -/
def run (s : Solo) (ops : List (Operation × List Outcome)) : Solo :=
  ops.foldl (fun s op => s.perform json o op.1 op.2) s

end Solo

section Layout

variable {env : Env} {n n' : Node} {l : Label}

/-- The entries of a request the change takes part of are numbered. -/
def Label.Numbered : Label → Prop
  | .truncate req _ => req.Numbered
  | .store req _ => req.Numbered
  | _ => True

/-- The first entry a node lacks goes right behind its log. -/
theorem Node.Lacks.index_eq
    {req : AppendEntriesRequest} {pre post : List Entry} {e : Entry}
    (hlacks : n.Lacks req pre e post)
    (hreq : n.Attached req)
    (hnum : req.Numbered)
    (hnone : n.store.term e.index = none)
    (hordered : n.store.Ordered) :
    e.index = n.store.lastIndex + 1 := by
  obtain ⟨hpre, he, -⟩ := hnum.split hlacks.split
  have hfresh := hlacks.fresh
  have hgt : n.store.lastIndex < e.index := by
    by_contra h
    have := (hordered.term_isSome_iff (i := e.index) (by omega)).mpr ⟨by omega, by omega⟩
    simp [hnone] at this
  have hle : req.prevLogIndex + pre.length ≤ n.store.lastIndex := by
    rcases List.eq_nil_or_concat' pre with rfl | ⟨p, d, rfl⟩
    · exact hordered.le_of_term (hreq.prev hnum)
    · have hd : d.index = req.prevLogIndex + (p ++ [d]).length := by
        have hlast := congrArg List.getLast? hpre
        rw [List.getLast?_range'] at hlast
        simp only [List.map_append, List.map_cons, List.map_nil, List.getLast?_concat,
          List.length_append, List.length_singleton, Nat.add_eq_zero_iff, one_ne_zero,
          and_false, if_false, Option.some.injEq] at hlast
        simp only [List.length_append, List.length_singleton]
        omega
      rw [← hd]
      exact hordered.le_of_term (hlacks.held hnum d (by simp))
  omega

/-- No change of a node breaks the layout of its store. -/
theorem Move.ordered
    (h : Move env l n n')
    (hl : l.Numbered)
    (hordered : n.store.Ordered) :
    n'.store.Ordered := by
  cases h with
  | raise _ =>
      exact hordered.saveTermVote _ _
  | campaign _ _ =>
      exact hordered.saveTermVote _ _
  | vote _ _ _ =>
      exact hordered.saveTermVote _ _
  | propose _ =>
      exact hordered.appendEntries (by simp [Node.clientEntry])
  | truncate _ hlacks _ _ =>
      exact hordered.deleteFrom hlacks.fresh
  | store hreq hlacks hnone =>
      refine hordered.appendEntries ?_
      obtain ⟨-, -, hpost⟩ := AppendEntriesRequest.Numbered.split hl hlacks.split
      rw [hlacks.filter_eq hl, hpost, hlacks.index_eq hreq hl hnone hordered]
  | apply _ _ hentry _ =>
      have hrow : (n.store.logEntries.get (n.lastApplied + 1)).isSome := by
        by_contra hnone
        simp only [Option.not_isSome_iff_eq_none] at hnone
        simp [Store.entry, hnone] at hentry
      have := ((hordered.rows _).mp hrow).1
      rw [Command.applyTo_eq]
      exact ⟨hordered.rows, hordered.snapshot, this.le⟩
  | skip _ _ _ _ =>
      exact ⟨hordered.rows, hordered.snapshot, le_rfl⟩
  | compact _ happlied _ =>
      exact hordered.createSnapshot env.json happlied
  | install _ hnew _ =>
      exact hordered.installSnapshot hnew
  | progress _ =>
      unfold Node.recordPeerProgressLocked
      split_ifs <;> exact hordered
  | _ =>
      exact hordered

end Layout

/-- The operation brings no append with wrongly numbered entries. -/
def Operation.Numbered : Operation → Prop
  | .append req => req.Numbered
  | _ => True

instance : DecidablePred Operation.Numbered := fun op =>
  match op with
  | .append req => inferInstanceAs (Decidable req.Numbered)
  | .timeout | .win _ | .commitAlone | .vote _ | .snapshot _ | .observe _ | .build _
  | .appendReply _ _ _ _ | .snapshotReply _ _ _ | .client _ | .crash => isTrue trivial

section Origin

variable {env : Env} {n : Node} {l : Label} {op : Operation} {os : List Outcome}

/-- The change may come from the operation, started at `n` with these fates. -/
def Label.From (n : Node) (op : Operation) (os : List Outcome) : Label → Prop
  | .truncate req _ => op = .append req
  | .store req _ => op = .append req
  | .accept req _ => op = .append req
  | .learn req _ => op = .append req
  | .install req _ _ _ => op = .snapshot req
  | .ignore req => op = .snapshot req
  | .propose entry _ => ∃ payload, op = .client payload ∧ entry = n.clientEntry payload
  | .restart => op = .crash ∨ Outcome.crash ∈ os
  | _ => True

/-- Only a timeout starts a campaign. -/
def Label.Elects (op : Operation) : Label → Prop
  | .campaign _ _ => op = .timeout
  | _ => True

/-- Where a change of a run comes from. -/
@[mk_iff]
structure Label.Comes (n : Node) (op : Operation) (os : List Outcome) (l : Label) : Prop where
  origin : l.From n op os
  elects : l.Elects op

theorem Label.From.numbered
    (h : l.From n op os)
    (hop : op.Numbered) :
    l.Numbered := by
  cases l with
  | truncate req e =>
      subst h
      exact hop
  | store req missing =>
      subst h
      exact hop
  | _ => trivial

theorem Label.Applies.comes
    (h : l.Applies) :
    l.Comes n op os := by
  constructor <;> cases l <;> trivial

theorem Label.Appends.comes
    {req : AppendEntriesRequest}
    (h : l.Appends req) :
    l.Comes n (.append req) os := by
  constructor <;>
    cases l <;> simp_all [Label.Appends, Label.Applies, Label.From, Label.Elects]

theorem Label.Installs.comes
    {req : InstallSnapshotRequest}
    (h : l.Installs req) :
    l.Comes n (.snapshot req) os := by
  constructor <;> cases l <;> simp_all [Label.Installs, Label.From, Label.Elects]

theorem Label.Votes.comes
    {req : RequestVoteRequest}
    (h : l.Votes req) :
    l.Comes n op os := by
  constructor <;> cases l <;> trivial

theorem Env.Commits.comes
    {n₀ : Node} {ls : List Label} (h : env.Commits n₀ ls) :
    ∀ l ∈ ls, l.Comes n op os := by
  rcases h with ⟨-, rfl⟩ | ⟨-, ls', rfl, happlies⟩
  · simp
  · intro l hl
    rcases List.mem_cons.mp hl with rfl | hl
    · exact ⟨trivial, trivial⟩
    · exact (happlies l hl).comes

theorem Env.Records.comes
    {n₀ : Node} {peerID : String} {matchIndex : Nat} {ls : List Label}
    (h : env.Records n₀ peerID matchIndex ls) :
    ∀ l ∈ ls, l.Comes n op os := by
  obtain ⟨ls', rfl, hcommits⟩ := h
  intro l hl
  rcases List.mem_cons.mp hl with rfl | hl
  · exact ⟨trivial, trivial⟩
  · exact hcommits.comes l hl

theorem Env.Proposes.comes
    {payload : Bytes} {ls : List Label}
    (h : env.Proposes n payload ls) :
    ∀ l ∈ ls, l.Comes n (.client payload) os := by
  obtain ⟨-, ls', rfl, hrest⟩ := h
  intro l hl
  rcases List.mem_cons.mp hl with rfl | hl
  · exact ⟨⟨payload, rfl, rfl⟩, trivial⟩
  · split_ifs at hrest
    · exact hrest.comes l hl
    · simp [hrest] at hl

end Origin

namespace Solo

variable {json : Json} {o : Options} {s : Solo}

/-- A node about whose surroundings nothing is known. -/
def env (json : Json) (o : Options) : Env :=
  ⟨json, o, True, True⟩

/-- A node about whose surroundings only the writes are known: they fail only if it is
`faulty`. -/
def envOf (faulty : Prop) (json : Json) (o : Options) : Env :=
  ⟨json, o, faulty, True⟩

theorem runSection_path
    {faulty : Prop}
    {α : Type} {m : Txn Node α} {os : List Outcome} {answer : α → List Answered}
    {Q : α → List Label → Node → Prop} {D : List Label → Prop} {P : Label → Prop}
    (h : (envOf faulty json o).Spec m Q D s.node)
    (hos : Txn.Allowed faulty os)
    (hreturns : Txn.Returns m)
    (hQ : ∀ a ls n', Q a ls n' → ∀ l ∈ ls, P l)
    (hD : ∀ ls, D ls → ∀ l ∈ ls, P l)
    (hrestart : Outcome.crash ∈ os → P .restart) :
    ∃ ls, Path (Move (envOf faulty json o)) ls s.node (s.runSection m os answer).node ∧
      ∀ l ∈ ls, P l := by
  rcases h.cases os hos with
    ⟨a, n', os', ls, hr, hpath, hq⟩ | ⟨n', os', ls, n'', hr, hstore, hpath, hd⟩
  · refine ⟨ls, ?_, hQ a ls n' hq⟩
    simpa [runSection, hr] using hpath
  · have hcrash : Outcome.crash ∈ os := by
      by_contra hnone
      obtain ⟨a, n₁, os₁, hr', -⟩ := hreturns os s.node hnone
      simp [hr] at hr'
    refine ⟨ls ++ [.restart], ?_, ?_⟩
    · simpa [runSection, hr, hstore] using hpath.append (Path.single Move.restart)
    intro l hl
    rcases List.mem_append.mp hl with hl | hl
    · exact hD ls hd l hl
    · exact List.mem_singleton.mp hl ▸ hrestart hcrash

/-- Whatever happens to the node, it makes moves that come from it. -/
theorem perform_moves
    {faulty : Prop}
    (json : Json) (o : Options) (s : Solo) (op : Operation) (os : List Outcome)
    (hos : Txn.Allowed faulty os) :
    ∃ ls, Path (Move (envOf faulty json o)) ls s.node (s.perform json o op os).node ∧
      ∀ l ∈ ls, l.Comes s.node op os := by
  have hsolo : (envOf faulty json o).solo := trivial
  have hrestart : Outcome.crash ∈ os → Label.Comes s.node op os .restart :=
    fun hcrash => ⟨Or.inr hcrash, trivial⟩
  cases op with
  | timeout =>
      refine runSection_path (becomeCandidate_spec (Or.inl hsolo)) hos (becomeCandidate_returns o)
        ?_ (by simp) hrestart
      rintro _ ls _ (⟨-, rfl | ⟨-, rfl⟩⟩ | ⟨-, rfl⟩) <;> simp [Label.comes_iff, Label.From, Label.Elects]
  | win term =>
      refine runSection_path (becomeLeader_spec fun _ _ => Or.inl hsolo)
        hos (becomeLeader_returns o term) ?_ (by simp) hrestart
      rintro _ ls _ (⟨-, rfl, -⟩ | ⟨-, -, -, rfl⟩) <;> simp [Label.comes_iff, Label.From, Label.Elects, Node.leadLabel]
  | commitAlone =>
      exact runSection_path (advanceCommitLocked_spec (Or.inl hsolo))
        hos (advanceCommitLocked_returns json o) (fun _ _ _ h => h.1.comes)
        (fun _ h => h.comes) hrestart
  | vote req =>
      exact runSection_path requestVote_spec hos (requestVote_returns req)
        (fun _ _ _ h l hl => (h.labels l hl).comes)
        (fun _ h l hl => (h.1 l hl).comes) hrestart
  | append req =>
      exact runSection_path appendEntries_spec hos (appendEntries_returns json o req)
        (fun _ _ _ h l hl => (h.labels l hl).comes)
        (fun _ h l hl => (h.labels l hl).comes) hrestart
  | snapshot req =>
      exact runSection_path installSnapshot_spec hos (installSnapshot_returns json req)
        (fun _ _ _ h l hl => (h.labels l hl).comes)
        (fun _ h l hl => (h.labels l hl).comes) hrestart
  | observe term =>
      refine runSection_path observeHigherTerm_spec hos (observeHigherTerm_returns term) ?_
        (by simp) hrestart
      rintro _ ls _ (⟨-, -, rfl, -⟩ | ⟨-, -, saved, rfl⟩) <;> simp [Label.comes_iff, Label.From, Label.Elects]
  | build peerID =>
      rcases buildAppendRequestLocked_cases s.node o peerID with ⟨next, h⟩ | ⟨term, -, h⟩
      · refine ⟨[.setNext peerID next], ?_, by simp [Label.comes_iff, Label.From, Label.Elects]⟩
        simpa [perform, h] using Path.single Move.setNext
      · exact ⟨[], by simpa [perform, h] using Path.nil s.node, by simp⟩
  | appendReply peerID term req reply =>
      refine runSection_path appendReplied_spec
        hos (appendReplied_returns json o peerID term req reply) ?_
        (fun _ h => h.2.2.2.comes) hrestart
      rintro _ ls _ (⟨-, -, rfl⟩ | ⟨-, -, ⟨-, -, rfl⟩ | ⟨-, -, h, -⟩⟩)
      · simp
      · simp [Label.comes_iff, Label.From, Label.Elects]
      · exact h.comes
  | snapshotReply peerID term lastIncludedIndex =>
      refine runSection_path snapshotReplied_spec
        hos (snapshotReplied_returns json o peerID term lastIncludedIndex) ?_
        (fun _ h => h.2.2.comes) hrestart
      rintro _ ls _ (⟨-, -, rfl⟩ | ⟨-, -, -, h, -⟩)
      · simp
      · exact h.comes
  | client payload =>
      refine runSection_path appendClientEntry_spec hos (appendClientEntry_returns json o payload)
        ?_ ?_ hrestart
      · rintro _ ls _ (⟨-, rfl⟩ | ⟨-, h⟩)
        · simp
        · exact h.comes
      · rintro ls (rfl | h)
        · simp
        · exact h.comes
  | crash =>
      exact ⟨[.restart], Path.single Move.restart, by simp [Label.comes_iff, Label.From, Label.Elects]⟩

theorem perform_path
    (json : Json) (o : Options) (s : Solo) (op : Operation) (os : List Outcome) :
    ∃ ls, Path (Move (env json o)) ls s.node (s.perform json o op os).node ∧
      ∀ l ∈ ls, l.From s.node op os := by
  obtain ⟨ls, hpath, hls⟩ := @perform_moves True json o s op os fun _ => trivial
  exact ⟨ls, hpath, fun l hl => (hls l hl).origin⟩

/-- What every change preserves holds after any number of operations. -/
theorem run_invariant
    {P : Node → Prop}
    (hmove : ∀ l n n', Move (env json o) l n n' → l.Numbered → P n → P n')
    {ops : List (Operation × List Outcome)}
    (hops : ∀ op ∈ ops, op.1.Numbered)
    (hs : P s.node) :
    P (s.run json o ops).node := by
  induction ops generalizing s with
  | nil =>
      exact hs
  | cons op ops ih =>
      refine ih (s := s.perform json o op.1 op.2)
        (fun p hp => hops p (List.mem_cons_of_mem _ hp)) ?_
      obtain ⟨ls, hpath, hls⟩ := perform_path json o s op.1 op.2
      exact hpath.invariant hs fun l hl n n' h hn =>
        hmove l n n' h ((hls l hl).numbered (hops op List.mem_cons_self)) hn

theorem run_ordered
    {ops : List (Operation × List Outcome)}
    (hops : ∀ op ∈ ops, op.1.Numbered) :
    (init.run json o ops).node.store.Ordered :=
  run_invariant (P := fun n => n.store.Ordered)
    (fun _ _ _ h hl hn => h.ordered hl hn) hops Store.ordered_init

/-- At every transaction boundary the log is the gapless range between the
snapshot position and the last index, the snapshot row names that position, and
nothing in the snapshot is left to apply; so `Term` knows exactly that range and
`EntriesFrom` returns consecutive runs of it. -/
theorem store_layout
    (ops : List (Operation × List Outcome))
    (hops : ∀ op ∈ ops, op.1.Numbered) :
    let s := (init.run json o ops).node.store
    (s.logEntries.keys =
        List.range' (s.snapshotIndex + 1) (s.lastIndex - s.snapshotIndex) ∧
      s.snapshotIndex ≤ s.lastIndex ∧
      (s.logEntries.keys = [] → s.lastIndex = s.snapshotIndex)) ∧
    (∀ snap, s.snapshot = some snap →
      snap.lastIncludedIndex = s.snapshotIndex ∧
        snap.lastIncludedTerm = s.snapshotTerm) ∧
    s.snapshotIndex ≤ s.lastApplied ∧
    (∀ i, 0 < i → ((s.term i).isSome ↔ s.snapshotIndex ≤ i ∧ i ≤ s.lastIndex)) ∧
    ∀ start k : Nat, 0 < k →
      (s.entriesFrom start k).map Entry.index =
          List.range' (max start (s.snapshotIndex + 1))
            (min k (s.lastIndex + 1 - max start (s.snapshotIndex + 1))) ∧
        ∀ e ∈ s.entriesFrom start k, s.entry e.index = some e := by
  intro s
  have hordered : s.Ordered := run_ordered hops
  have hle := hordered.snapshotIndex_le
  refine ⟨⟨hordered.keys_eq, hle, fun hempty => ?_⟩, hordered.snapshot,
    hordered.applied, fun i hi => hordered.term_isSome_iff hi, fun start k hk =>
      ⟨hordered.entriesFrom_indexes start hk, fun e he => Store.entry_of_mem_entriesFrom he⟩⟩
  rw [hordered.keys_eq, List.range'_eq_nil_iff] at hempty
  omega

/-- Three entries of which the first is compacted, then a conflict at the third:
the node dies between the truncation and the append. -/
def layoutRun : List (Operation × List Outcome) :=
  let cmd := (Command.setCommand "k" "v").encode Json.compact
  [(.append ⟨1, "b", 0, 0, [⟨1, 1, cmd⟩, ⟨2, 1, cmd⟩, ⟨3, 1, cmd⟩], 1⟩, []),
    (.append ⟨2, "b", 2, 1, [⟨3, 2, cmd⟩], 1⟩, [.commit, .commit, .crash])]

theorem store_layout_truncated :
    let s := (init.run Json.compact ⟨"a", ["b"], 1⟩ layoutRun).node.store
    (∀ op ∈ layoutRun, op.1.Numbered) ∧ s.snapshotIndex = 1 ∧ s.lastIndex = 2 ∧
      s.logEntries.keys =
        List.range' (s.snapshotIndex + 1) (s.lastIndex - s.snapshotIndex) :=
  ⟨by decide, by decide +kernel, by decide +kernel,
    (store_layout layoutRun (by decide)).1.1⟩

end Solo

end LogReplicator
