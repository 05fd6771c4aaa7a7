import LogReplicator.Raft.Threads

/-!
# What a step of the cluster can do

Every step is a path of moves of one node, together with the calls and replies
it adds.  `Transition` says so, and says where each move and each message comes
from; it is proved once, action by action, along with `Threads`.
-/

namespace LogReplicator

open Library

/-- What a change leaves in the history. -/
def Label.event (x : String) : Label → Option Event
  | .lead term _ snapshotIndex log => some (.elected x term snapshotIndex log)
  | .advance term commitIndex log => some (.committed x term commitIndex log)
  | _ => none

/-- The changes that move the commit index. -/
def Label.Learns : Label → Prop
  | .learn _ _ => True
  | .advance _ _ _ => True
  | _ => False

/-- The events of clients. -/
def Event.Client : Event → Prop
  | .invoked _ => True
  | .returned _ _ => True
  | .abandoned _ => True
  | _ => False

/-- `replicatePeer` found its node to be the leader and goes on to send. -/
def Sender.Sending : Sender → Prop
  | .leading _ _ => True
  | .entries _ _ => True
  | .snapshot _ => True
  | _ => False

/-- The fates of the transactions of an action. -/
def Action.outcomes : Action → List Outcome
  | .campaign _ os => os
  | .countVote _ _ _ _ os => os
  | .winElection _ os => os
  | .commitAlone _ os => os
  | .deliver _ os => os
  | .appendReply _ _ _ os => os
  | .appendDone _ _ os => os
  | .snapshotReply _ _ _ os => os
  | .snapshotDone _ _ os => os
  | .propose _ os => os
  | _ => []

namespace Cluster

variable (cfg : Config) (faulty : Prop)

/-- The term counter does not wrap around. -/
def TermsLeft (c : Cluster) : Action → Prop
  | .campaign x _ => (c.node x).currentTerm + 1 < maxTerms
  | _ => True

/-- The action delivers the request to `x`. -/
def Received (c : Cluster) (a : Action) (x : String) (r : Request) : Prop :=
  ∃ src id os, a = .deliver id os ∧ c.calls[id]? = some ⟨src, x, r⟩

/-- The node that an action tells of a term, with that term. -/
def heard (c : Cluster) : Action → Option (String × Nat)
  | .deliver id _ => c.calls[id]?.map fun call => (call.dst, call.request.term)
  | .countVote x _ _ resp _ => some (x, resp.term)
  | .appendReply x _ resp _ => some (x, resp.term)
  | .snapshotReply x _ resp _ => some (x, resp.term)
  | _ => none

/-- `p` told `x` that it stores the log of the leader of a term, `x`, up to a
position. -/
inductive Confirmed (c : Cluster) (x p : String) : Nat → Nat → Prop
  | append
      {id : Nat} {req : AppendEntriesRequest} {resp : AppendEntriesResponse}
      (hcall : c.calls[id]? = some ⟨x, p, .append req⟩)
      (hreply : (id, Response.append resp) ∈ c.replies)
      (hsuccess : resp.success = true) :
      Confirmed c x p req.term (max resp.matchIndex (lastEntryIndex req))
  | snapshot
      {id : Nat} {req : InstallSnapshotRequest} {resp : InstallSnapshotResponse}
      (hcall : c.calls[id]? = some ⟨x, p, .snapshot req⟩)
      (hreply : (id, Response.snapshot resp) ∈ c.replies)
      (hle : resp.term ≤ req.term) :
      Confirmed c x p req.term req.lastIncludedIndex

/-- Where a change of node `x` comes from. -/
def Justified (c : Cluster) (a : Action) (x : String) : Label → Prop
  | .raise term _ => c.heard a = some (x, term)
  | .follow _ => (∃ term, c.heard a = some (x, term) ∧ (c.node x).currentTerm < term) ∨
      ∃ r, r.FromLeader ∧ c.Received a x r ∧ (c.node x).currentTerm ≤ r.term
  | .vote req _ => c.Received a x (.vote req)
  | .lead term last _ _ => (c.node x).role = .candidate ∧
      (c.node x).currentTerm = term ∧ ∃ granted : Finset String,
        Node.majority (cfg.options x) ≤ granted.card + 1 ∧
          c.Polled cfg x term last granted
  | .propose entry prevTerm => (c.node x).role = .leader ∧
      prevTerm = (c.node x).store.lastIndexAndTerm.2 ∧
      ∃ i os op cmd, a = .propose i os ∧ c.ops[i]? = some op ∧ op.node = x ∧
      op.phase = .proposing ∧ op.request.key ≠ "" ∧
      op.request.command = some cmd ∧
      entry = (c.node x).clientEntry (cmd.encode cfg.json)
  | .truncate req _ => c.Received a x (.append req)
  | .store req _ => c.Received a x (.append req)
  | .accept req _ => c.Received a x (.append req)
  | .learn req last => c.Received a x (.append req) ∧
      (req.Numbered → last ≤ max (c.node x).store.lastIndex
        (req.prevLogIndex + req.entries.length))
  | .install req last known applied => c.Received a x (.snapshot req) ∧
      last = (c.node x).store.lastIndex ∧
      known = (c.node x).store.term req.lastIncludedIndex ∧
      applied = (c.node x).lastApplied ∧ (c.node x).currentTerm ≤ req.term ∧
      (c.node x).store.snapshotIndex < req.lastIncludedIndex
  | .ignore req => c.Received a x (.snapshot req)
  | .progress p term matchIndex => p ∈ (cfg.options x).peers ∧
      c.Confirmed x p term matchIndex
  | _ => True

/-- The calls a step sends; `n` is the node after the step. -/
inductive Built (c : Cluster) (a : Action) (x : String) (n : Node) : Call → Prop
  | vote
      {p : String} {round : Candidacy}
      (hpeer : p ∈ (cfg.options x).peers)
      (hrole : n.role = .candidate)
      (hterm : n.currentTerm = round.term)
      (hstands : n.Stands x round) :
      Built c a x n ⟨x, p, .vote ⟨round.term, x, round.lastLogIndex, round.lastLogTerm⟩⟩
  | append
      {p : String} {prevLogTerm : Nat}
      (haction : a = .sendEntries x p)
      (hpeer : p ∈ (cfg.options x).peers)
      (hsending : ((c.procs x).sender p).Sending)
      (hprev : n.store.term (n.nextIndexLocked p - 1) = some prevLogTerm)
      (hsame : n = c.node x) :
      Built c a x n ⟨x, p, .append (n.appendRequest (cfg.options x) p prevLogTerm)⟩
  | snapshot
      {p : String}
      (haction : a = .sendSnapshot x p)
      (hpeer : p ∈ (cfg.options x).peers)
      (hsending : ((c.procs x).sender p).Sending)
      (hsame : n = c.node x) :
      Built c a x n ⟨x, p, .snapshot (n.buildSnapshotRequest (cfg.options x))⟩

/-- The replies a step sends, and the changes they report. -/
inductive Answers (c : Cluster) (x : String) (ls : List Label) (n : Node) :
    Nat × Response → Prop
  | vote
      {id : Nat} {src : String} {req : RequestVoteRequest} {resp : RequestVoteResponse}
      (hcall : c.calls[id]? = some ⟨src, x, .vote req⟩)
      (hterm : resp.term = n.currentTerm)
      (hle : req.term ≤ resp.term)
      (hgranted : resp.voteGranted = true →
        resp.term = req.term ∧ .vote req true ∈ ls) :
      Answers c x ls n (id, .vote resp)
  | append
      {id : Nat} {src : String} {req : AppendEntriesRequest}
      {resp : AppendEntriesResponse}
      (hcall : c.calls[id]? = some ⟨src, x, .append req⟩)
      (hterm : resp.term = n.currentTerm)
      (hle : req.term ≤ resp.term)
      (hsuccess : resp.success = true →
        resp.term = req.term ∧ .accept req resp.matchIndex ∈ ls) :
      Answers c x ls n (id, .append resp)
  | snapshot
      {id : Nat} {src : String} {req : InstallSnapshotRequest}
      {resp : InstallSnapshotResponse}
      (hcall : c.calls[id]? = some ⟨src, x, .snapshot req⟩)
      (hterm : resp.term = n.currentTerm)
      (hle : req.term ≤ resp.term)
      (hdone : resp.term = req.term →
        .ignore req ∈ ls ∨ ∃ last known applied, .install req last known applied ∈ ls) :
      Answers c x ls n (id, .snapshot resp)

/-- A step of the cluster as moves of node `x`. -/
structure Transition (c : Cluster) (a : Action) (c' : Cluster) (x : String)
    (ls : List Label) : Prop where
  member : x ∈ cfg.members
  path : Path (Move (env cfg faulty x)) ls (c.node x) (c'.node x)
  frame : ∀ y, y ≠ x → c'.node y = c.node y
  justified : ∀ l ∈ ls, c.Justified cfg a x l
  calls : ∃ new, c'.calls = c.calls ++ new ∧ ∀ call ∈ new, c.Built cfg a x (c'.node x) call
  replies : ∃ new, c'.replies = c.replies ++ new ∧
    ∀ r ∈ new, c.Answers x ls (c'.node x) r
  events : ∃ new, c'.events = c.events ++ ls.filterMap (Label.event x) ++ new ∧
    ∀ e ∈ new, e.Client
  settled : (∃ l ∈ ls, l.Learns) →
    .restart ∈ ls ∨ faulty ∨ (c'.node x).Settled (env cfg faulty x)
  sending : ∀ y q, ((c'.procs y).sender q).Sending →
    (((c.procs y).sender q).Sending ∧ (y = x → .restart ∉ ls)) ∨
      (c'.node y).role = .leader

/-- A step is a transition that keeps the goroutines in order. -/
def Next (c : Cluster) (a : Action) (c' : Cluster) : Prop :=
  ∃ x ls, Transition cfg faulty c a c' x ls ∧ c'.Threads cfg

section General

variable {cfg faulty}
variable {c c' : Cluster} {a : Action} {x : String} {ls : List Label} {n' : Node}

theorem Transition.extends
    (T : Transition cfg faulty c a c' x ls) :
    c.Extends c' := by
  obtain ⟨calls, hcalls, -⟩ := T.calls
  obtain ⟨replies, hreplies, -⟩ := T.replies
  exact ⟨⟨calls, hcalls.symm⟩, ⟨replies, hreplies.symm⟩⟩

theorem Built.callOk
    {n : Node} {call : Call}
    (h : c.Built cfg a x n call)
    (hx : x ∈ cfg.members) :
    CallOk cfg call := by
  cases h with
  | vote hpeer _ _ _ => exact ⟨hx, hpeer, rfl⟩
  | append _ hpeer _ _ _ => exact ⟨hx, hpeer, rfl⟩
  | snapshot _ hpeer _ _ => exact ⟨hx, hpeer, rfl⟩

theorem ne_empty_of_mem
    (hx : x ∈ cfg.members) :
    x ≠ "" := by
  rintro rfl
  exact cfg.named hx

/-- The goroutines of the other nodes stay as they are. -/
theorem Threads.next
    (h : c.Threads cfg)
    (T : Transition cfg faulty c a c' x ls)
    (hothers : ∀ y, y ≠ x → (c'.procs y).election = (c.procs y).election ∧
      (c'.procs y).sender = (c.procs y).sender)
    (helection : c'.ElectionOk cfg x (c'.node x) (c'.procs x).election)
    (hsender : ∀ p, c'.SenderOk cfg x p (c'.node x) ((c'.procs x).sender p))
    (hops : ∀ op ∈ c'.ops, OpOk cfg op) :
    c.Next cfg faulty a c' := by
  refine ⟨x, ls, T, ?_, ?_, ?_, ?_, hops⟩
  · obtain ⟨new, hnew, hbuilt⟩ := T.calls
    intro call hcall
    rw [hnew, List.mem_append] at hcall
    rcases hcall with hcall | hcall
    · exact h.calls call hcall
    · exact (hbuilt call hcall).callOk T.member
  · obtain ⟨new, hnew, hanswers⟩ := T.replies
    intro r hr
    rw [hnew, List.mem_append] at hr
    rcases hr with hr | hr
    · obtain ⟨call, hcall⟩ := h.replies r hr
      exact ⟨call, T.extends.call hcall⟩
    · cases hanswers r hr with
      | vote hcall _ _ _ => exact ⟨_, T.extends.call hcall⟩
      | append hcall _ _ _ => exact ⟨_, T.extends.call hcall⟩
      | snapshot hcall _ _ _ => exact ⟨_, T.extends.call hcall⟩
  · intro y
    by_cases hy : y = x
    · exact hy ▸ helection
    · rw [(hothers y hy).1]
      refine (h.election y).mono T.extends ?_ ?_
      · intro round hround
        rwa [T.frame y hy]
      · intro _
        rw [T.frame y hy]
  · intro y p
    by_cases hy : y = x
    · exact hy ▸ hsender p
    · rw [(hothers y hy).2]
      exact (h.sender y p).mono T.extends (by rw [T.frame y hy])

theorem Threads.election_kept
    (h : c.Threads cfg)
    (T : Transition cfg faulty c a c' x ls)
    (hls : ∀ l ∈ ls, l.Continues)
    (hrole : (c.procs x).election = .committing → (c'.node x).role = (c.node x).role) :
    c'.ElectionOk cfg x (c'.node x) (c.procs x).election :=
  (h.election x).mono T.extends
    (fun _ => Path.stands T.path (fun hs => hs) hls (ne_empty_of_mem T.member)) hrole

theorem Threads.sender_kept
    (h : c.Threads cfg)
    (T : Transition cfg faulty c a c' x ls)
    (hls : .restart ∉ ls)
    (p : String) :
    c'.SenderOk cfg x p (c'.node x) ((c.procs x).sender p) :=
  (h.sender x p).mono T.extends (Path.currentTerm_le T.path (fun hs => hs) hls)

theorem not_restart_of_continues
    (h : ∀ l ∈ ls, l.Continues) :
    .restart ∉ ls :=
  fun hmem => h _ hmem

/-- A step that touches no node and sends nothing. -/
theorem Transition.quiet
    (hx : x ∈ cfg.members)
    (hnode : ∀ y, c'.node y = c.node y)
    (hcalls : c'.calls = c.calls)
    (hreplies : c'.replies = c.replies)
    (hevents : ∃ new, c'.events = c.events ++ new ∧ ∀ e ∈ new, e.Client)
    (hsending : ∀ y q, ((c'.procs y).sender q).Sending →
      ((c.procs y).sender q).Sending ∨ (c'.node y).role = .leader) :
    Transition cfg faulty c a c' x [] where
  member := hx
  path := by
    rw [hnode]
    exact Path.nil _
  frame := fun y _ => hnode y
  justified := by simp
  calls := ⟨[], by simp [hcalls], by simp⟩
  replies := ⟨[], by simp [hreplies], by simp⟩
  events := by simpa using hevents
  settled := by simp
  sending := fun y q hq => (hsending y q hq).imp_left fun h => ⟨h, by simp⟩

/-- A section of node `x` that returns. -/
theorem Transition.returns
    (hx : x ∈ cfg.members)
    (hpath : Path (Move (env cfg faulty x)) ls (c.node x) n')
    (hnode : ∀ y, c'.node y = if y = x then n' else c.node y)
    (hjustified : ∀ l ∈ ls, c.Justified cfg a x l)
    (hls : .restart ∉ ls)
    (hcalls : ∃ new, c'.calls = c.calls ++ new ∧ ∀ call ∈ new, c.Built cfg a x n' call)
    (hreplies : ∃ new, c'.replies = c.replies ++ new ∧ ∀ r ∈ new, c.Answers x ls n' r)
    (hevents : ∃ new, c'.events = c.events ++ ls.filterMap (Label.event x) ++ new ∧
      ∀ e ∈ new, e.Client)
    (hsettled : (∃ l ∈ ls, l.Learns) → faulty ∨ n'.Settled (env cfg faulty x))
    (hsending : ∀ y q, ((c'.procs y).sender q).Sending →
      ((c.procs y).sender q).Sending) :
    Transition cfg faulty c a c' x ls := by
  have hself : c'.node x = n' := by simp [hnode]
  refine ⟨hx, by rwa [hself], fun y hy => by simp [hnode, hy], hjustified, ?_, ?_,
    hevents, ?_, ?_⟩
  · rwa [hself]
  · rwa [hself]
  · intro hl
    rw [hself]
    exact Or.inr (hsettled hl)
  · intro y q hq
    exact Or.inl ⟨hsending y q hq, fun _ => hls⟩

/-- A section of node `x` that dies. -/
theorem Threads.crash
    (h : c.Threads cfg)
    (hx : x ∈ cfg.members)
    {store : Store} (evs : List Event)
    (hpath : Path (Move (env cfg faulty x)) (ls ++ [.restart]) (c.node x)
      (Node.new store))
    (hjustified : ∀ l ∈ ls, c.Justified cfg a x l)
    (hevs : evs = ls.filterMap (Label.event x)) :
    c.Next cfg faulty a ((c.record evs).restart x store) := by
  have T : Transition cfg faulty c a ((c.record evs).restart x store) x
      (ls ++ [.restart]) := by
    refine ⟨hx, by simpa using hpath, fun y hy => by simp [hy], ?_,
      ⟨[], by simp, by simp⟩, ⟨[], by simp, by simp⟩,
      ⟨[], by simp [hevs, Label.event], by simp⟩, fun _ => Or.inl (by simp), ?_⟩
    · intro l hl
      rcases List.mem_append.mp hl with hl | hl
      · exact hjustified l hl
      · rw [List.mem_singleton.mp hl]
        trivial
    · intro y q hq
      by_cases hy : y = x
      · simp [hy, Sender.Sending] at hq
      · simp only [sender_restart, if_neg hy, procs_record] at hq
        exact Or.inl ⟨hq, fun he => absurd he hy⟩
  refine h.next T ?_ ?_ ?_ ?_
  · intro y hy
    simp [hy, funext_iff]
  · simp [ElectionOk]
  · intro p
    simp [SenderOk]
  · intro op hop
    obtain ⟨op', hop', rfl⟩ := List.mem_map.mp hop
    obtain ⟨hmember, hkeyed⟩ := h.ops op' hop'
    split_ifs
    · exact ⟨hmember, by simp⟩
    · exact ⟨hmember, hkeyed⟩

/-- A section of a member whose first moves are known returns at the end of its
path or dies. -/
theorem runSection_cases_of_run
    {α : Type} {m m' : Txn Node α} {k : Cluster → α → Cluster}
    {os os₁ : List Outcome} {pre : List Label} {n₁ : Node}
    {Q : α → List Label → Node → Prop} {D : List Label → Prop}
    (hpre : Path (Move (env cfg faulty x)) pre (c.node x) n₁)
    (hrun : m os (c.node x) = m' os₁ n₁)
    (hspec : (env cfg faulty x).Spec m' Q D n₁)
    (hos : Txn.Allowed faulty os₁) :
    (∃ r n' ls, c.runSection x m os k = k (c.setNode x n') r ∧
      Path (Move (env cfg faulty x)) (pre ++ ls) (c.node x) n' ∧ Q r ls n') ∨
    (∃ store ls, c.runSection x m os k = c.restart x store ∧
      Path (Move (env cfg faulty x)) (pre ++ ls ++ [.restart]) (c.node x)
        (Node.new store) ∧ D ls) := by
  unfold runSection
  rcases hspec.cases os₁ hos with
    ⟨r, n', os', ls, hrun', hpath, hQ⟩ | ⟨n', os', ls, n'', hrun', hstore, hpath, hD⟩
  · exact Or.inl ⟨r, n', ls, by rw [hrun, hrun'], hpre.append hpath, hQ⟩
  · refine Or.inr ⟨n'.store, ls, by rw [hrun, hrun'], (hpre.append hpath).append ?_, hD⟩
    rw [hstore]
    exact Path.single Move.restart

/-- A section of a member returns at the end of its path or dies. -/
theorem runSection_cases
    {α : Type} {m : Txn Node α} {k : Cluster → α → Cluster} {os : List Outcome}
    {Q : α → List Label → Node → Prop} {D : List Label → Prop}
    (hspec : (env cfg faulty x).Spec m Q D (c.node x))
    (hos : Txn.Allowed faulty os) :
    (∃ r n' ls, c.runSection x m os k = k (c.setNode x n') r ∧
      Path (Move (env cfg faulty x)) ls (c.node x) n' ∧ Q r ls n') ∨
    (∃ store ls, c.runSection x m os k = c.restart x store ∧
      Path (Move (env cfg faulty x)) (ls ++ [.restart]) (c.node x) (Node.new store) ∧
      D ls) :=
  runSection_cases_of_run (Path.nil _) rfl hspec hos

@[simp] theorem record_nil :
    c.record [] = c := by
  simp [record]

theorem setNode_self :
    c.setNode x (c.node x) = c := by
  unfold setNode setProc node
  simp

/-- A goroutine takes a reply: the node steps down, or nothing happens, or it
dies. -/
theorem observeHigherTerm_cases
    {term : Nat} {os : List Outcome} {k : Cluster → Bool → Cluster}
    (hos : Txn.Allowed faulty os) :
    (∃ n' saved, c.runSection x (Node.observeHigherTerm term) os k =
        k (c.setNode x n') true ∧ (c.node x).currentTerm < term ∧
      Path (Move (env cfg faulty x)) [.raise term saved, .follow ""] (c.node x) n') ∨
    (term ≤ (c.node x).currentTerm ∧
      c.runSection x (Node.observeHigherTerm term) os k = k c false) ∨
    (∃ store, c.runSection x (Node.observeHigherTerm term) os k = c.restart x store ∧
      Path (Move (env cfg faulty x)) ([] ++ [.restart]) (c.node x) (Node.new store)) := by
  have hspec := @observeHigherTerm_spec (env cfg faulty x) (c.node x) term
  rcases runSection_cases hspec hos with
    ⟨r, n', ls, hrun, hpath, hQ⟩ | ⟨store, ls, hrun, hpath, rfl⟩
  · rcases hQ with ⟨rfl, hle, rfl, rfl⟩ | ⟨rfl, hlt, saved, rfl⟩
    · exact Or.inr (Or.inl ⟨hle, by rw [hrun, setNode_self]⟩)
    · exact Or.inl ⟨n', saved, hrun, hlt, hpath⟩
  · exact Or.inr (Or.inr ⟨store, hrun, hpath⟩)

/-- The moves of a node that hears of a newer term. -/
theorem stepsDown_justified
    {term : Nat} {saved : Bool}
    (hheard : c.heard a = some (x, term))
    (hterm : (c.node x).currentTerm < term) :
    ∀ l ∈ [Label.raise term saved, .follow ""], c.Justified cfg a x l := by
  simp only [List.mem_cons, List.not_mem_nil, or_false, forall_eq_or_imp, forall_eq]
  exact ⟨hheard, Or.inl ⟨term, hheard, hterm⟩⟩

/-- The transition of a node that steps down for a newer term. -/
theorem Transition.stepsDown
    {term : Nat} {saved : Bool}
    (hx : x ∈ cfg.members)
    (hheard : c.heard a = some (x, term))
    (hterm : (c.node x).currentTerm < term)
    (hpath : Path (Move (env cfg faulty x)) [.raise term saved, .follow ""] (c.node x) n')
    (hnode : ∀ y, c'.node y = if y = x then n' else c.node y)
    (hcalls : c'.calls = c.calls)
    (hreplies : c'.replies = c.replies)
    (hevents : c'.events = c.events)
    (hsending : ∀ y q, ((c'.procs y).sender q).Sending →
      ((c.procs y).sender q).Sending) :
    Transition cfg faulty c a c' x [.raise term saved, .follow ""] :=
  Transition.returns hx hpath hnode (stepsDown_justified hheard hterm) (by simp)
    ⟨[], by simp [hcalls], by simp⟩ ⟨[], by simp [hreplies], by simp⟩
    ⟨[], by simp [hevents, Label.event], by simp⟩ (by simp [Label.Learns]) hsending

end General

section Elections

variable {cfg faulty}
variable {c c' : Cluster} {x : String} {os : List Outcome}

/-- The vote request of a round to one peer. -/
def voteCall (x : String) (round : Candidacy) (p : String) : Call :=
  ⟨x, p, .vote ⟨round.term, x, round.lastLogIndex, round.lastLogTerm⟩⟩

theorem requestVotes_fst
    (round : Candidacy) (ps : List String) :
    (c.requestVotes x round ps).1 =
      { c with calls := c.calls ++ ps.map (voteCall x round) } := by
  induction ps generalizing c with
  | nil => simp [requestVotes]
  | cons p ps ih => simp [requestVotes, ih, send, voteCall]

theorem requestVotes_snd
    (round : Candidacy) (ps : List String) :
    (c.requestVotes x round ps).2.map Prod.fst = ps ∧
      ∀ w ∈ (c.requestVotes x round ps).2,
        (c.calls ++ ps.map (voteCall x round))[w.2]? = some (voteCall x round w.1) := by
  induction ps generalizing c with
  | nil => simp [requestVotes]
  | cons p ps ih =>
      simp only [requestVotes, List.map_cons, List.cons.injEq, true_and,
        List.mem_cons, forall_eq_or_imp]
      refine ⟨ih.1, by simp, fun w hw => ?_⟩
      simpa [send, voteCall] using ih.2 w hw

/-- The round a new candidate starts with. -/
theorem stands_of_campaign
    {n n' : Node} {term : Nat}
    (hmove : Move (env cfg faulty x) (.campaign term true) n n') :
    n'.role = .candidate ∧ n'.currentTerm = term ∧
      n'.Stands x ⟨term, n.store.lastIndexAndTerm.1, n.store.lastIndexAndTerm.2⟩ := by
  cases hmove with
  | campaign hrole hterm =>
      exact ⟨rfl, rfl, le_rfl, fun _ _ => rfl, fun _ _ => ⟨rfl, rfl⟩, fun _ _ => rfl⟩

/-- A candidate starts a round in which it asks `ps`. -/
theorem polling_next
    {n' : Node} (round : Candidacy) {ps : List String} {waiting : List (String × Nat)}
    (h : c.Threads cfg)
    (hx : x ∈ cfg.members)
    (hpath : Path (Move (env cfg faulty x)) [.campaign round.term true] (c.node x) n')
    (hround : round = ⟨round.term, (c.node x).store.lastIndexAndTerm.1,
      (c.node x).store.lastIndexAndTerm.2⟩)
    (hps : ∀ p ∈ ps, p ∈ (cfg.options x).peers)
    (hnodup : ps.Nodup)
    (hwaiting : waiting.map Prod.fst = ps)
    (hasked : ∀ w ∈ waiting,
      (c.calls ++ ps.map (voteCall x round))[w.2]? = some (voteCall x round w.1)) :
    c.Next cfg faulty (.campaign x os)
      ({ c.setNode x n' with calls := c.calls ++ ps.map (voteCall x round) }.setElection x
        (.polling ⟨round, waiting, 1⟩)) := by
  obtain ⟨hrole, hterm, hstands⟩ := stands_of_campaign (Path.of_single hpath)
  rw [← hround] at hstands
  generalize hc₁ :
    { c.setNode x n' with calls := c.calls ++ ps.map (voteCall x round) } = c₁
  have hnode : ∀ y, c₁.node y = if y = x then n' else c.node y := by
    intro y
    rw [← node_setNode, ← hc₁]
    rfl
  have hcalls : c₁.calls = c.calls ++ ps.map (voteCall x round) := by rw [← hc₁]
  have hprocs : c₁.procs = (c.setNode x n').procs := by rw [← hc₁]
  have hops : c₁.ops = c.ops := by
    rw [← hc₁]
    rfl
  have T : Transition cfg faulty c (.campaign x os)
      (c₁.setElection x (.polling ⟨round, waiting, 1⟩)) x
      [.campaign round.term true] := by
    refine Transition.returns hx hpath (fun y => by simp [hnode]) (by simp [Justified])
      (by simp) ⟨ps.map (voteCall x round), hcalls, ?_⟩
      ⟨[], ?_, by simp⟩ ⟨[], ?_, by simp⟩
      (by simp [Label.Learns]) (by simp [hprocs])
    · intro call hcall
      obtain ⟨p, hp, rfl⟩ := List.mem_map.mp hcall
      exact Built.vote (hps p hp) hrole hterm hstands
    · simp [← hc₁]
    · simp [← hc₁, Label.event]
  refine h.next T (fun y hy => by simp [hy, hprocs]) ?_ ?_ (by simpa [hops] using h.ops)
  · simp only [election_setElection, if_true, ElectionOk]
    refine ⟨hx, by simpa [hnode] using hstands, fun w hw => ⟨?_, ?_⟩, ?_, ∅,
      by simp [Polled]⟩
    · exact hps _ (hwaiting ▸ List.mem_map_of_mem hw)
    · simpa [hcalls, voteCall] using hasked w hw
    · rw [hwaiting]
      exact hnodup
  · intro p
    simpa [hprocs] using h.sender_kept T (by simp) p

theorem campaign_next
    (h : c.Threads cfg)
    (hx : x ∈ cfg.members)
    (hidle : (c.procs x).election = .idle)
    (hos : Txn.Allowed faulty os)
    (hterm : (c.node x).currentTerm + 1 < maxTerms) :
    c.Next cfg faulty (.campaign x os) (c.startElection cfg x os) := by
  unfold startElection
  have hspec := @becomeCandidate_spec (env cfg faulty x) _ (Or.inr hterm)
  rcases runSection_cases hspec hos with
    ⟨r, n', ls, hrun, hpath, hQ⟩ | ⟨store, ls, hrun, hpath, rfl⟩
  swap
  · -- the process died before the vote was saved
    refine (congrArg (c.Next cfg faulty _) hrun).mpr ?_
    simpa using h.crash hx [] hpath (by simp) rfl
  refine (congrArg (c.Next cfg faulty _) hrun).mpr ?_
  rcases hQ with ⟨rfl, hls⟩ | ⟨rfl, rfl⟩
  · -- the vote could not be saved, or the node leads already
    have T : Transition cfg faulty c (.campaign x os) (c.setNode x n') x ls := by
      refine Transition.returns hx hpath (fun y => by simp) ?_ ?_
        ⟨[], by simp, by simp⟩ ⟨[], by simp, by simp⟩ ⟨[], ?_, by simp⟩ ?_ ?_
      all_goals rcases hls with rfl | ⟨-, rfl⟩
      all_goals simp [Justified, Label.event, Label.Learns]
    refine h.next T (fun y hy => by simp) ?_ ?_ ?_
    · simp [hidle, ElectionOk]
    · intro p
      simpa using h.sender_kept T (by rcases hls with rfl | ⟨-, rfl⟩ <;> simp) p
    · simpa using h.ops
  · let round : Candidacy := ⟨nextTerm (c.node x).currentTerm,
      (c.node x).store.lastIndexAndTerm.1, (c.node x).store.lastIndexAndTerm.2⟩
    simp only
    split_ifs with hmajority
    · have hnext : c.Next cfg faulty (.campaign x os) _ :=
        polling_next round h hx hpath rfl (by simp) List.nodup_nil List.map_nil (by simp)
      rw [List.map_nil, List.append_nil] at hnext
      exact hnext
    · rw [requestVotes_fst]
      obtain ⟨hfst, hasked⟩ := requestVotes_snd (c := c.setNode x n') (x := x) round
        (cfg.options x).peers
      exact polling_next round h hx hpath rfl (fun p hp => hp) (cfg.nodup.filter _)
        hfst hasked

/-- A call that is no longer waited for. -/
theorem RoundOk.erase
    {round : Round} {n : Node}
    (h : c.RoundOk cfg x n round)
    (w : String × Nat) :
    c.RoundOk cfg x n { round with waiting := round.waiting.erase w } := by
  obtain ⟨granted, hvotes, hpolled, hfresh⟩ := h.counted
  exact ⟨h.member, h.stands, fun w hw => h.asked w (List.mem_of_mem_erase hw),
    h.nodup.sublist (List.erase_sublist.map _), granted, hvotes, hpolled,
    fun w hw => hfresh w (List.mem_of_mem_erase hw)⟩

/-- A vote that is counted. -/
theorem RoundOk.count
    {round : Round} {peer : String} {id : Nat} {resp : RequestVoteResponse} {n : Node}
    (h : c.RoundOk cfg x n round)
    (hwaiting : (peer, id) ∈ round.waiting)
    (hreply : (id, Response.vote resp) ∈ c.replies)
    (hgranted : resp.voteGranted = true) :
    c.RoundOk cfg x n
      { round with
        waiting := round.waiting.erase (peer, id)
        votes := round.votes + 1 } := by
  obtain ⟨granted, hvotes, hpolled, hfresh⟩ := h.counted
  have hother : ∀ w ∈ round.waiting.erase (peer, id), w.1 ≠ peer := by
    intro w hw hpeer
    have hinj := List.inj_on_of_nodup_map h.nodup (List.mem_of_mem_erase hw) hwaiting hpeer
    rw [hinj, (h.nodup.of_map).mem_erase_iff] at hw
    exact hw.1 rfl
  obtain ⟨hmember, hstands, hasked, hnodup, -⟩ := h.erase (peer, id)
  refine ⟨hmember, hstands, hasked, hnodup, insert peer granted, ?_, fun p hp => ?_,
    fun w hw => ?_⟩
  · rw [Finset.card_insert_of_notMem (hfresh _ hwaiting), hvotes]
  · rcases Finset.mem_insert.mp hp with rfl | hp
    · obtain ⟨hpeer, hcall⟩ := h.asked _ hwaiting
      exact ⟨hpeer, id, resp, hcall, hreply, hgranted⟩
    · exact hpolled p hp
  · simp only [Finset.mem_insert, not_or]
    exact ⟨hother w hw, hfresh w (List.mem_of_mem_erase hw)⟩

/-- A move of the election goroutine that touches nothing else. -/
theorem setElection_next
    {a : Action} {e : Election}
    (h : c.Threads cfg)
    (hx : x ∈ cfg.members)
    (he : c.ElectionOk cfg x (c.node x) e) :
    c.Next cfg faulty a (c.setElection x e) := by
  have T : Transition cfg faulty c a (c.setElection x e) x [] :=
    Transition.quiet hx (by simp) (by simp) (by simp) ⟨[], by simp, by simp⟩
      (fun y q hq => Or.inl (by simpa using hq))
  refine h.next T (fun y hy => by simp [hy]) ?_ ?_ (by simpa using h.ops)
  · simp only [election_setElection, if_true]
    exact he.mono T.extends (fun round hround => by simpa using hround) (by simp)
  · intro p
    simpa using h.sender_kept T (by simp) p

theorem countVote_next
    {round : Round} {peer : String} {id : Nat} {resp : RequestVoteResponse}
    (h : c.Threads cfg)
    (hround : (c.procs x).election = .polling round)
    (hwaiting : (peer, id) ∈ round.waiting)
    (hreply : (id, Response.vote resp) ∈ c.replies)
    (hos : Txn.Allowed faulty os) :
    c.Next cfg faulty (.countVote x peer id resp os)
      (c.runSection x (Node.observeHigherTerm resp.term) os fun c higher =>
        if higher then c.setElection x .idle
        else c.setElection x (.polling
          { round with
            waiting := round.waiting.erase (peer, id)
            votes := if resp.voteGranted then round.votes + 1 else round.votes })) := by
  have hok : c.RoundOk cfg x (c.node x) round := by
    have := h.election x
    rwa [hround] at this
  rcases observeHigherTerm_cases hos with
    ⟨n', saved, hrun, hlt, hpath⟩ | ⟨-, hrun⟩ | ⟨store, hrun, hpath⟩
  · rw [hrun, if_pos rfl]
    have T : Transition cfg faulty c (.countVote x peer id resp os)
        ((c.setNode x n').setElection x .idle) x [.raise resp.term saved, .follow ""] :=
      Transition.stepsDown hok.member rfl hlt hpath (by simp) (by simp) (by simp) (by simp) (by simp)
    refine h.next T (fun y hy => by simp [hy]) ?_ ?_ (by simpa using h.ops)
    · simp [ElectionOk]
    · intro p
      simpa using h.sender_kept T (by simp) p
  · rw [hrun, if_neg (by simp)]
    refine setElection_next h hok.member ?_
    cases hgranted : resp.voteGranted with
    | false => exact hok.erase (peer, id)
    | true => exact hok.count hwaiting hreply hgranted
  · rw [hrun]
    simpa using h.crash hok.member [] hpath (by simp) rfl

theorem role_of_lead
    {env : Env} {n n' : Node} {term snapshotIndex : Nat} {last : Nat × Nat}
    {log : List Entry}
    (hmove : Move env (.lead term last snapshotIndex log) n n') :
    n'.role = .leader := by
  cases hmove
  rfl

/-- A majority of granted votes makes a leader. -/
theorem winElection_next
    {round : Round}
    (h : c.Threads cfg)
    (hround : (c.procs x).election = .polling round)
    (hvotes : Node.majority (cfg.options x) ≤ round.votes)
    (hos : Txn.Allowed faulty os) :
    c.Next cfg faulty (.winElection x os)
      (c.runSection x (Node.becomeLeader (cfg.options x) round.candidacy.term) os
        fun c' won =>
          if won then
            (c'.setElection x
              (if (cfg.options x).peers = [] then .committing else .idle)).record
                [.elected x (c.node x).currentTerm (c.node x).store.snapshotIndex
                  ((c.node x).store.entriesFrom 1 0)]
          else c'.setElection x .idle) := by
  have hok : c.RoundOk cfg x (c.node x) round := by
    have := h.election x
    rwa [hround] at this
  have hspec := @becomeLeader_spec (env cfg faulty x) (c.node x) round.candidacy.term
    (fun hrole hterm => Or.inr (hterm ▸ hok.stands.saved hrole hterm))
  rcases runSection_cases hspec hos with
    ⟨r, n', ls, hrun, hpath, hQ⟩ | ⟨store, ls, hrun, hpath, ⟨⟩⟩
  refine (congrArg (c.Next cfg faulty _) hrun).mpr ?_
  rcases hQ with ⟨rfl, rfl, rfl⟩ | ⟨rfl, hrole, hterm, rfl⟩
  · rw [if_neg (by simp), setNode_self]
    exact setElection_next h hok.member trivial
  · rw [if_pos rfl]
    have hlast := hok.stands.last hrole hterm
    obtain ⟨granted, hcard, hpolled, -⟩ := hok.counted
    have hleader : n'.role = .leader := role_of_lead (Path.of_single hpath)
    generalize he : (if (cfg.options x).peers = [] then Election.committing else .idle) = e
    have T : Transition cfg faulty c (.winElection x os)
        (((c.setNode x n').setElection x e).record
          [.elected x (c.node x).currentTerm (c.node x).store.snapshotIndex
            ((c.node x).store.entriesFrom 1 0)]) x [(c.node x).leadLabel] := by
      refine Transition.returns hok.member hpath (by simp) ?_ (by simp [Node.leadLabel])
        ⟨[], by simp, by simp⟩ ⟨[], by simp, by simp⟩
        ⟨[], by simp [Node.leadLabel, Label.event], by simp⟩
        (by simp [Node.leadLabel, Label.Learns]) (by simp)
      simp only [List.mem_singleton, forall_eq]
      refine ⟨hrole, rfl, granted, by omega, ?_⟩
      rw [hlast, hterm]
      exact hpolled
    refine h.next T (fun y hy => by simp [hy]) ?_ ?_ (by simpa using h.ops)
    · simp only [procs_record, election_setElection, if_true, ← he]
      split_ifs with hpeers
      · exact ⟨hok.member, hpeers, by simpa using hleader⟩
      · trivial
    · intro p
      simpa using h.sender_kept T (by simp [Node.leadLabel]) p

/-- What `advanceCommitLocked` records is what its moves say. -/
theorem commits_events
    {n : Node} {ls : List Label}
    (h : (env cfg faulty x).Commits n ls) :
    ls.filterMap (Label.event x) = commitEvent (cfg.options x) n := by
  have hquiet : ∀ ls' : List Label, (∀ l ∈ ls', l.Applies) →
      ls'.filterMap (Label.event x) = [] := by
    intro ls' hls'
    refine List.filterMap_eq_nil_iff.mpr fun l hl => ?_
    have happlies := hls' l hl
    cases l <;> first | rfl | exact happlies.elim
  unfold commitEvent
  rcases h with ⟨hsame, rfl⟩ | ⟨hmoved, ls', rfl, hls'⟩
  · exact (if_pos hsame).symm
  · refine Eq.trans ?_ (if_neg hmoved).symm
    rw [List.filterMap_cons]
    simp only [Env.advanceLabel, Label.event, hquiet ls' hls']
    rfl

theorem commits_continues
    {n : Node} {ls : List Label}
    (h : (env cfg faulty x).Commits n ls) :
    ∀ l ∈ ls, l.Continues ∧ l.KeepsRole ∧ ∀ c : Cluster, ∀ a, c.Justified cfg a x l := by
  intro l hl
  rcases h with ⟨-, rfl⟩ | ⟨-, ls', rfl, hls'⟩
  · cases hl
  · rcases List.mem_cons.mp hl with rfl | hl
    · exact ⟨trivial, trivial, fun _ _ => trivial⟩
    · have happlies := hls' l hl
      cases l <;> first | exact happlies.elim | exact ⟨trivial, trivial, fun _ _ => trivial⟩

theorem restart_setElection
    (e : Election) (store : Store) :
    (c.setElection x e).restart x store = c.restart x store := by
  simp [restart, setElection, setProc]

theorem commitAlone_next
    (h : c.Threads cfg)
    (helection : (c.procs x).election = .committing)
    (hos : Txn.Allowed faulty os) :
    c.Next cfg faulty (.commitAlone x os)
      (((c.record (commitEvent (cfg.options x) (c.node x))).setElection x .idle).runSection
        x (Node.advanceCommitLocked cfg.json (cfg.options x)) os fun c _ => c) := by
  have hok : c.ElectionOk cfg x (c.node x) .committing := helection ▸ h.election x
  obtain ⟨hx, hpeers, hrole⟩ := hok
  generalize hc₁ :
    (c.record (commitEvent (cfg.options x) (c.node x))).setElection x .idle = c₁
  have hnode : ∀ y, c₁.node y = c.node y := by simp [← hc₁]
  have hspec := @advanceCommitLocked_spec (env cfg faulty x) (c₁.node x)
    (Or.inr (hnode x ▸ hrole))
  rcases runSection_cases hspec hos with
    ⟨r, n', ls, hrun, hpath, hcommits, hsettled⟩ | ⟨store, ls, hrun, hpath, hcommits⟩
  all_goals
    refine (congrArg (c.Next cfg faulty _) hrun).mpr ?_
    rw [hnode] at hpath hcommits
    have hls := commits_continues hcommits
  · have T : Transition cfg faulty c (.commitAlone x os) (c₁.setNode x n') x ls := by
      refine Transition.returns hx hpath (by simp [hnode]) (fun l hl => (hls l hl).2.2 c _)
        (not_restart_of_continues fun l hl => (hls l hl).1)
        ⟨[], by simp [← hc₁], by simp⟩ ⟨[], by simp [← hc₁], by simp⟩
        ⟨[], by simp [← hc₁, commits_events hcommits], by simp⟩ ?_ (by simp [← hc₁])
      rintro ⟨l, hl, -⟩
      exact hsettled.resolve_left (List.ne_nil_of_mem hl)
    refine h.next T (fun y hy => by simp [← hc₁, hy]) ?_ ?_ (by simpa [← hc₁] using h.ops)
    · simp [← hc₁, ElectionOk]
    · intro p
      simpa [← hc₁] using
        h.sender_kept T (not_restart_of_continues fun l hl => (hls l hl).1) p
  · rw [← hc₁, restart_setElection]
    exact h.crash hx _ hpath (fun l hl => (hls l hl).2.2 c _) (commits_events hcommits).symm

theorem electionStep_next
    {a : Action}
    (h : c.Threads cfg)
    (hos : Txn.Allowed faulty a.outcomes)
    (hterm : c.TermsLeft a)
    (hstep : c.electionStep cfg a = some c') :
    c.Next cfg faulty a c' := by
  have hround : ∀ {x round}, (c.procs x).election = .polling round →
      c.RoundOk cfg x (c.node x) round := by
    intro x round he
    have := h.election x
    rwa [he] at this
  cases a with
  | campaign x os =>
      simp only [electionStep] at hstep
      obtain ⟨hidle, hstep⟩ := Option.ite_none_right_eq_some.mp hstep
      cases hstep
      exact campaign_next h hidle.1 hidle.2 hos hterm
  | countVote x peer id resp os =>
      simp only [electionStep] at hstep
      split at hstep
      · next round he =>
          obtain ⟨hwaiting, hstep⟩ := Option.ite_none_right_eq_some.mp hstep
          cases hstep
          exact countVote_next h he hwaiting.1 hwaiting.2.2 hos
      · cases hstep
  | missVote x peer id =>
      simp only [electionStep] at hstep
      split at hstep
      · next round he =>
          obtain ⟨-, hstep⟩ := Option.ite_none_right_eq_some.mp hstep
          cases hstep
          exact setElection_next h (hround he).member ((hround he).erase _)
      · cases hstep
  | loseElection x =>
      simp only [electionStep] at hstep
      split at hstep
      · next round he =>
          obtain ⟨-, hstep⟩ := Option.ite_none_right_eq_some.mp hstep
          cases hstep
          exact setElection_next h (hround he).member trivial
      · cases hstep
  | winElection x os =>
      simp only [electionStep] at hstep
      split at hstep
      · next round he =>
          obtain ⟨hvotes, hstep⟩ := Option.ite_none_right_eq_some.mp hstep
          cases hstep
          exact winElection_next h he hvotes hos
      · cases hstep
  | commitAlone x os =>
      simp only [electionStep] at hstep
      split at hstep
      · next he =>
          cases hstep
          exact commitAlone_next h he hos
      · cases hstep
  | _ => cases hstep

end Elections

section Handlers

variable {cfg faulty}
variable {c : Cluster} {x src : String} {id : Nat} {os : List Outcome}
variable {ls : List Label} {n' : Node} {r : Request}

/-- The changes of a handler: they answer the delivered request and leave no
trace in the history. -/
structure Handles (cfg : Config) (c : Cluster) (a : Action) (x : String) (l : Label) : Prop where
  continues : l.Continues
  event : l.event x = none
  justified : c.Justified cfg a x l

theorem handles_events
    {a : Action}
    (hls : ∀ l ∈ ls, Handles cfg c a x l) :
    ls.filterMap (Label.event x) = [] :=
  List.filterMap_eq_nil_iff.mpr fun l hl => (hls l hl).event

theorem handler_returns
    {resp : Option Response}
    (h : c.Threads cfg)
    (hcall : c.calls[id]? = some ⟨src, x, r⟩)
    (hpath : Path (Move (env cfg faulty x)) ls (c.node x) n')
    (hls : ∀ l ∈ ls, Handles cfg c (.deliver id os) x l)
    (hanswers : ∀ r, resp = some r → c.Answers x ls n' (id, r))
    (hsettled : (∃ l ∈ ls, l.Learns) → faulty ∨ n'.Settled (env cfg faulty x)) :
    c.Next cfg faulty (.deliver id os) ((c.setNode x n').answer id resp) := by
  obtain ⟨hx, hpeers⟩ := (h.calls _ (List.mem_of_getElem? hcall)).dst_member
  have T : Transition cfg faulty c (.deliver id os) ((c.setNode x n').answer id resp)
      x ls := by
    refine Transition.returns hx hpath (by simp) (fun l hl => (hls l hl).justified)
      (not_restart_of_continues fun l hl => (hls l hl).continues)
      ⟨[], by simp, by simp⟩ ⟨_, replies_answer _ _ _, ?_⟩
      ⟨[], by simp [handles_events hls], by simp⟩ hsettled (by simp)
    intro r hr
    cases resp with
    | none => simp at hr
    | some resp =>
        simp only [Option.map_some, Option.toList_some, List.mem_singleton] at hr
        exact hr ▸ hanswers resp rfl
  refine h.next T (fun y hy => by simp) ?_ ?_ (by simpa using h.ops)
  · have hkept := h.election_kept T (fun l hl => (hls l hl).continues) ?_
    · simpa using hkept
    · intro he
      have hok : c.ElectionOk cfg x (c.node x) .committing := he ▸ h.election x
      exact absurd hok.2.1 hpeers
  · intro p
    simpa using h.sender_kept T
      (not_restart_of_continues fun l hl => (hls l hl).continues) p

theorem handler_dies
    {store : Store}
    (h : c.Threads cfg)
    (hcall : c.calls[id]? = some ⟨src, x, r⟩)
    (hpath : Path (Move (env cfg faulty x)) (ls ++ [.restart]) (c.node x)
      (Node.new store))
    (hls : ∀ l ∈ ls, Handles cfg c (.deliver id os) x l) :
    c.Next cfg faulty (.deliver id os) (c.restart x store) := by
  obtain ⟨hx, -⟩ := (h.calls _ (List.mem_of_getElem? hcall)).dst_member
  simpa using h.crash hx [] hpath (fun l hl => (hls l hl).justified)
    (handles_events hls).symm

theorem votes_handles
    {req : RequestVoteRequest}
    (hcall : c.calls[id]? = some ⟨src, x, .vote req⟩)
    (hlabels : ∀ l ∈ ls, l.Votes req)
    (hfollow : ∀ id, .follow id ∈ ls → (c.node x).currentTerm < req.term)
    {l : Label} (hmem : l ∈ ls) :
    Handles cfg c (.deliver id os) x l := by
  have hl := hlabels l hmem
  have hheard : c.heard (.deliver id os) = some (x, req.term) := by
    simp [heard, hcall, Request.term]
  cases l with
  | raise term saved =>
      cases hl
      exact ⟨trivial, rfl, hheard⟩
  | follow leaderID =>
      exact ⟨trivial, rfl, Or.inl ⟨req.term, hheard, hfollow leaderID hmem⟩⟩
  | vote req' saved =>
      cases hl
      exact ⟨trivial, rfl, src, id, os, rfl, hcall⟩
  | _ => exact hl.elim

theorem requestVote_next
    {req : RequestVoteRequest}
    (h : c.Threads cfg)
    (hcall : c.calls[id]? = some ⟨src, x, .vote req⟩)
    (hos : Txn.Allowed faulty os) :
    c.Next cfg faulty (.deliver id os)
      (c.runSection x (Node.requestVote req) os fun c h =>
        c.answer id (h.reply.map .vote)) := by
  have hspec := @requestVote_spec (env cfg faulty x) (c.node x) req
  rcases runSection_cases hspec hos with
    ⟨r, n', ls, hrun, hpath, hvoted⟩ | ⟨store, ls, hrun, hpath, hlabels, hfollow⟩
  · refine (congrArg (c.Next cfg faulty _) hrun).mpr ?_
    refine handler_returns h hcall hpath
      (fun l hl => votes_handles hcall hvoted.labels hvoted.follow hl) ?_ ?_
    · intro resp hresp
      obtain ⟨resp, hreply, rfl⟩ := Option.map_eq_some_iff.mp hresp
      obtain ⟨hterm, hle⟩ := hvoted.term resp hreply
      refine Answers.vote hcall hterm hle fun hgranted => ?_
      obtain ⟨hterm', -, hmem⟩ := hvoted.granted resp hreply hgranted
      exact ⟨hterm', hmem⟩
    · rintro ⟨l, hl, hlearns⟩
      have hvotes := hvoted.labels l hl
      cases l <;> first | exact hvotes.elim | exact hlearns.elim
  · refine (congrArg (c.Next cfg faulty _) hrun).mpr ?_
    exact handler_dies h hcall hpath fun l hl => votes_handles hcall hlabels hfollow hl

theorem appends_handles
    {req : AppendEntriesRequest}
    (hcall : c.calls[id]? = some ⟨src, x, .append req⟩)
    (hlabels : (c.node x).AppendLabels req ls)
    {l : Label} (hl : l ∈ ls) :
    Handles cfg c (.deliver id os) x l := by
  have happends := hlabels.labels l hl
  have hreceived : c.Received (.deliver id os) x (.append req) :=
    ⟨src, id, os, rfl, hcall⟩
  have hheard : c.heard (.deliver id os) = some (x, req.term) := by
    simp [heard, hcall, Request.term]
  cases l with
  | raise term saved =>
      cases happends
      exact ⟨trivial, rfl, hheard⟩
  | follow leaderID =>
      exact ⟨trivial, rfl, Or.inr ⟨.append req, trivial, hreceived, hlabels.fresh _ hl⟩⟩
  | truncate req' e =>
      cases happends
      exact ⟨trivial, rfl, hreceived⟩
  | store req' missing =>
      cases happends
      exact ⟨trivial, rfl, hreceived⟩
  | accept req' matchIndex =>
      cases happends
      exact ⟨trivial, rfl, hreceived⟩
  | learn req' last =>
      cases happends
      exact ⟨trivial, rfl, hreceived, hlabels.learn last hl⟩
  | _ => first | exact ⟨trivial, rfl, trivial⟩ | exact happends.elim

theorem appendEntries_next
    {req : AppendEntriesRequest}
    (h : c.Threads cfg)
    (hcall : c.calls[id]? = some ⟨src, x, .append req⟩)
    (hos : Txn.Allowed faulty os) :
    c.Next cfg faulty (.deliver id os)
      (c.runSection x (Node.appendEntries cfg.json (cfg.options x) req) os fun c h =>
        c.answer id (h.reply.map .append)) := by
  have hspec := @appendEntries_spec (env cfg faulty x) (c.node x) req
  rcases runSection_cases hspec hos with
    ⟨r, n', ls, hrun, hpath, happended⟩ | ⟨store, ls, hrun, hpath, hlabels⟩
  · refine (congrArg (c.Next cfg faulty _) hrun).mpr ?_
    refine handler_returns h hcall hpath
      (fun l hl => appends_handles hcall happended.toAppendLabels hl) ?_ ?_
    · intro resp hresp
      obtain ⟨resp, hreply, rfl⟩ := Option.map_eq_some_iff.mp hresp
      obtain ⟨hterm, hle⟩ := happended.term resp hreply
      refine Answers.append hcall hterm hle fun hsuccess => ?_
      obtain ⟨hterm', -, hmem⟩ := happended.success resp hreply hsuccess
      exact ⟨hterm', hmem⟩
    · rintro ⟨l, hl, hlearns⟩
      have happends := happended.labels l hl
      cases l with
      | learn req' last =>
          cases happends
          exact happended.settled ⟨last, hl⟩
      | _ => first | exact happends.elim | exact hlearns.elim
  · refine (congrArg (c.Next cfg faulty _) hrun).mpr ?_
    exact handler_dies h hcall hpath fun l hl => appends_handles hcall hlabels hl

theorem installs_handles
    {req : InstallSnapshotRequest}
    (hcall : c.calls[id]? = some ⟨src, x, .snapshot req⟩)
    (hlabels : (c.node x).InstallLabels req ls)
    {l : Label} (hl : l ∈ ls) :
    Handles cfg c (.deliver id os) x l := by
  have hinstalls := hlabels.labels l hl
  have hreceived : c.Received (.deliver id os) x (.snapshot req) :=
    ⟨src, id, os, rfl, hcall⟩
  have hheard : c.heard (.deliver id os) = some (x, req.term) := by
    simp [heard, hcall, Request.term]
  cases l with
  | raise term saved =>
      cases hinstalls
      exact ⟨trivial, rfl, hheard⟩
  | follow leaderID =>
      exact ⟨trivial, rfl, Or.inr ⟨.snapshot req, trivial, hreceived, hlabels.fresh _ hl⟩⟩
  | install req' last known applied =>
      cases hinstalls
      exact ⟨trivial, rfl, hreceived, hlabels.install last known applied hl⟩
  | ignore req' =>
      cases hinstalls
      exact ⟨trivial, rfl, hreceived⟩
  | _ => exact hinstalls.elim

theorem installSnapshot_next
    {req : InstallSnapshotRequest}
    (h : c.Threads cfg)
    (hcall : c.calls[id]? = some ⟨src, x, .snapshot req⟩)
    (hos : Txn.Allowed faulty os) :
    c.Next cfg faulty (.deliver id os)
      (c.runSection x (Node.installSnapshot cfg.json req) os fun c h =>
        c.answer id (h.reply.map .snapshot)) := by
  have hspec := @installSnapshot_spec (env cfg faulty x) (c.node x) req
  rcases runSection_cases hspec hos with
    ⟨r, n', ls, hrun, hpath, hinstalled⟩ | ⟨store, ls, hrun, hpath, hlabels⟩
  · refine (congrArg (c.Next cfg faulty _) hrun).mpr ?_
    refine handler_returns h hcall hpath
      (fun l hl => installs_handles hcall hinstalled.toInstallLabels hl) ?_ ?_
    · intro resp hresp
      obtain ⟨resp, hreply, rfl⟩ := Option.map_eq_some_iff.mp hresp
      obtain ⟨hterm, hle⟩ := hinstalled.term resp hreply
      exact Answers.snapshot hcall hterm hle (hinstalled.done resp hreply)
    · rintro ⟨l, hl, hlearns⟩
      have hinstalls := hinstalled.labels l hl
      cases l <;> first | exact hinstalls.elim | exact hlearns.elim
  · refine (congrArg (c.Next cfg faulty _) hrun).mpr ?_
    exact handler_dies h hcall hpath fun l hl => installs_handles hcall hlabels hl

theorem handle_next
    {call : Call}
    (h : c.Threads cfg)
    (hcall : c.calls[id]? = some call)
    (hos : Txn.Allowed faulty os) :
    c.Next cfg faulty (.deliver id os) (c.handle cfg id call os) := by
  obtain ⟨src, dst, request⟩ := call
  cases request with
  | vote req => exact requestVote_next h hcall hos
  | append req => exact appendEntries_next h hcall hos
  | snapshot req => exact installSnapshot_next h hcall hos

end Handlers

end Cluster

end LogReplicator
