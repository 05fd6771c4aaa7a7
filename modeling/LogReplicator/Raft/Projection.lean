import LogReplicator.Raft.Solo
import LogReplicator.Raft.Voting

/-!
# The nodes of a cluster, one by one

A step of the cluster is at most one operation of one node.  `task` says whose and which,
and a run of the cluster, seen from one of its nodes, is the run of that node on its own
with the operations the cluster asks of it.  What holds on every run of a single node
therefore holds for every node of a cluster, and for what it sends.
-/

namespace LogReplicator

open Library

/-- The handler a request runs. -/
def Request.operation : Request → Operation
  | .vote req => .vote req
  | .append req => .append req
  | .snapshot req => .snapshot req

/-- A request with the reply that was sent, if one was. -/
def Answered.exchange : Answered → Option (Request × Response)
  | .vote req h => h.reply.map fun r => (.vote req, .vote r)
  | .append req h => h.reply.map fun r => (.append req, .append r)
  | .snapshot req h => h.reply.map fun r => (.snapshot req, .snapshot r)

/-- An operation of a node of the cluster. -/
structure Task where
  node : String
  operation : Operation
  outcomes : List Outcome

namespace Solo

variable (json : Json) (o : Options)

/-- The node after an operation. -/
def nodeAfter (n : Node) (op : Operation) (os : List Outcome) : Node :=
  (perform json o ⟨n, []⟩ op os).node

/-- The RPCs an operation answers. -/
def answersOf (n : Node) (op : Operation) (os : List Outcome) : List Answered :=
  (perform json o ⟨n, []⟩ op os).answered

variable {json o}

theorem runSection_eq
    {α : Type} (s : Solo) (m : Txn Node α) (os : List Outcome) (answer : α → List Answered) :
    s.runSection m os answer =
      ⟨(runSection ⟨s.node, []⟩ m os answer).node,
        s.answered ++ (runSection ⟨s.node, []⟩ m os answer).answered⟩ := by
  unfold runSection
  rcases m os s.node with ⟨_ | a, n, os'⟩
  · simp
  · simp

/-- An operation looks at the node only. -/
theorem perform_eq
    (s : Solo) (op : Operation) (os : List Outcome) :
    s.perform json o op os =
      ⟨nodeAfter json o s.node op os, s.answered ++ answersOf json o s.node op os⟩ := by
  unfold nodeAfter answersOf
  cases op with
  | build peerID => simp [perform]
  | crash => simp [perform]
  | _ => exact runSection_eq s _ os _

end Solo

namespace Cluster

variable (cfg : Config)

/-- The operation a step consists of, if it is more than a move of a goroutine or of a
client call. -/
def task (c : Cluster) : Action → Option Task
  | .campaign x os => some ⟨x, .timeout, os⟩
  | .countVote x _ _ resp os => some ⟨x, .observe resp.term, os⟩
  | .winElection x os =>
      match (c.procs x).election with
      | .polling round => some ⟨x, .win round.candidacy.term, os⟩
      | _ => none
  | .commitAlone x os => some ⟨x, .commitAlone, os⟩
  | .deliver id os => (c.calls[id]?).map fun call => ⟨call.dst, call.request.operation, os⟩
  | .sendEntries x p => some ⟨x, .build p, []⟩
  | .appendReply x _ resp os => some ⟨x, .observe resp.term, os⟩
  | .appendDone x p os =>
      match (c.procs x).sender p with
      | .appendReplied _ _ req resp => some ⟨x, .appendReply p req.term req resp, os⟩
      | _ => none
  | .snapshotReply x _ resp os => some ⟨x, .observe resp.term, os⟩
  | .snapshotDone x p os =>
      match (c.procs x).sender p with
      | .snapshotReplied _ req => some ⟨x, .snapshotReply p req.term req.lastIncludedIndex, os⟩
      | _ => none
  | .propose i os =>
      (c.ops[i]?).bind fun op => op.request.command.map fun cmd =>
        ⟨op.node, .client (cmd.encode cfg.json), os⟩
  | .crash x => some ⟨x, .crash, []⟩
  | _ => none

/-- What a step asks of node `x`. -/
def asked (c : Cluster) (x : String) (a : Action) : List (Operation × List Outcome) :=
  ((c.task cfg a).toList.filter fun t => decide (t.node = x)).map fun t =>
    (t.operation, t.outcomes)

/-- What a run asks of node `x`. -/
def askedOf (c : Cluster) (x : String) : List Action → List (Operation × List Outcome)
  | [] => []
  | a :: as => c.asked cfg x a ++ ((c.step cfg a).map fun c' => c'.askedOf x as).getD []

/-- The RPCs node `x` has answered, with its replies. -/
def exchanges (c : Cluster) (x : String) : List (Request × Response) :=
  c.replies.filterMap fun r => (c.calls[r.1]?).bind fun call =>
    if call.dst = x then some (call.request, r.2) else none

/-- Every reply belongs to a call. -/
def Addressed (c : Cluster) : Prop :=
  ∀ r ∈ c.replies, r.1 < c.calls.length

/-- No node does anything. -/
structure Rests (c c' : Cluster) : Prop where
  node : ∀ y, c'.node y = c.node y
  calls : c.calls <+: c'.calls
  replies : c'.replies = c.replies

/-- One node performs an operation. -/
structure Performs (c c' : Cluster) (t : Task) : Prop where
  self : c'.node t.node =
    Solo.nodeAfter cfg.json (cfg.options t.node) (c.node t.node) t.operation t.outcomes
  frame : ∀ y, y ≠ t.node → c'.node y = c.node y
  calls : c.calls <+: c'.calls
  replies : ∃ new, c'.replies = c.replies ++ new ∧
    new.map (fun r => ((c.calls[r.1]?).map fun call => (call.dst, call.request), r.2)) =
      ((Solo.answersOf cfg.json (cfg.options t.node) (c.node t.node) t.operation
        t.outcomes).filterMap Answered.exchange).map fun e => (some (t.node, e.1), e.2)

section Steps

variable {cfg}
variable {c c' : Cluster} {a : Action} {x p : String} {os : List Outcome}

theorem Rests.refl
    (c : Cluster) :
    c.Rests c :=
  ⟨fun _ => rfl, List.prefix_rfl, rfl⟩

theorem Rests.record
    (h : c.Rests c')
    (es : List Event) :
    c.Rests (c'.record es) :=
  ⟨h.node, h.calls, h.replies⟩

/-- A section of `x` as the operation it belongs to, when what follows it only moves
goroutines and client calls. -/
theorem performs_runSection
    {α : Type} {m : Txn Node α} {k : Cluster → α → Cluster} {op : Operation}
    (hop : ∀ s : Solo, s.perform cfg.json (cfg.options x) op os =
      s.runSection m os fun _ => [])
    (hk : ∀ (c : Cluster) (r : α), c.Rests (k c r)) :
    c.Performs cfg (c.runSection x m os k) ⟨x, op, os⟩ := by
  have hperform := hop ⟨c.node x, []⟩
  unfold Solo.runSection at hperform
  unfold runSection
  rcases hrun : m os (c.node x) with ⟨_ | r, n, os'⟩
  · simp only [hrun] at hperform
    refine ⟨?_, fun y hy => ?_, List.prefix_rfl, [], by simp, ?_⟩
    · simp [Solo.nodeAfter, hperform]
    · simp [hy]
    · simp [Solo.answersOf, hperform]
  · simp only [hrun] at hperform
    obtain ⟨hnode, hcalls, hreplies⟩ := hk (c.setNode x n) r
    refine ⟨?_, fun y hy => ?_, hcalls, [], by simpa using hreplies, ?_⟩
    · simp [Solo.nodeAfter, hperform, hnode]
    · simp only at hy
      simp [hnode, hy]
    · simp [Solo.answersOf, hperform]

theorem Performs.of_eq
    {c₀ : Cluster} {t : Task}
    (h : c₀.Performs cfg c' t)
    (hnode : ∀ y, c₀.node y = c.node y)
    (hcalls : c₀.calls = c.calls)
    (hreplies : c₀.replies = c.replies) :
    c.Performs cfg c' t := by
  obtain ⟨hself, hframe, hgrow, hanswers⟩ := h
  rw [hnode] at hself hanswers
  rw [hcalls] at hgrow hanswers
  rw [hreplies] at hanswers
  exact ⟨hself, fun y hy => (hframe y hy).trans (hnode y), hgrow, hanswers⟩

theorem performs_record
    {α : Type} {m : Txn Node α} {k : Cluster → α → Cluster} {op : Operation}
    (es : List Event)
    (hop : ∀ s : Solo, s.perform cfg.json (cfg.options x) op os =
      s.runSection m os fun _ => [])
    (hk : ∀ (c : Cluster) (r : α), c.Rests (k c r)) :
    c.Performs cfg ((c.record es).runSection x m os k) ⟨x, op, os⟩ :=
  (performs_runSection hop hk).of_eq (fun _ => rfl) rfl rfl

theorem rests_setElection
    (c : Cluster) (x : String) (e : Election) :
    c.Rests (c.setElection x e) :=
  ⟨by simp, List.prefix_rfl, rfl⟩

theorem rests_setSender
    (c : Cluster) (x p : String) (s : Sender) :
    c.Rests (c.setSender x p s) :=
  ⟨by simp, List.prefix_rfl, rfl⟩

theorem rests_senderReturns
    (c : Cluster) (x p : String) (owner : Option Nat) (inSync : Bool) :
    c.Rests (c.senderReturns x p owner inSync) :=
  ⟨by simp, by simp, by simp⟩

theorem rests_setPhase
    (c : Cluster) (i : Nat) (op : ClientOp) (phase : Phase) :
    c.Rests (c.setPhase i op phase) :=
  ⟨fun _ => rfl, List.prefix_rfl, rfl⟩

theorem rests_finish
    (c : Cluster) (i : Nat) (op : ClientOp) (answer : Answer) :
    c.Rests (c.finish i op answer) :=
  ⟨fun _ => rfl, List.prefix_rfl, rfl⟩

/-- The handler of a call, with the reply it sends. -/
theorem performs_handler
    {α : Type} {m : Txn Node (Handled α)} {id : Nat} {call : Call} {req : Request}
    {wrap : α → Response}
    (answered : Handled α → Answered)
    (hcall : c.calls[id]? = some call)
    (hrequest : call.request = req)
    (hop : ∀ s : Solo, s.perform cfg.json (cfg.options call.dst) req.operation os =
      s.runSection m os fun h => [answered h])
    (hexchange : ∀ h, (answered h).exchange = h.reply.map fun r => (req, wrap r)) :
    c.Performs cfg (c.runSection call.dst m os fun c h => c.answer id (h.reply.map wrap))
      ⟨call.dst, req.operation, os⟩ := by
  have hperform := hop ⟨c.node call.dst, []⟩
  unfold Solo.runSection at hperform
  unfold runSection
  rcases hrun : m os (c.node call.dst) with ⟨_ | h, n, os'⟩
  · simp only [hrun] at hperform
    refine ⟨?_, fun y hy => ?_, List.prefix_rfl, [], by simp, ?_⟩
    · simp [Solo.nodeAfter, hperform]
    · simp [hy]
    · simp [Solo.answersOf, hperform]
  · simp only [hrun, List.nil_append] at hperform
    refine ⟨?_, fun y hy => ?_, by simp, ?_⟩
    · simp [Solo.nodeAfter, hperform]
    · simp only at hy
      simp [hy]
    · simp only [Solo.answersOf, hperform, List.filterMap_cons, hexchange,
        List.filterMap_nil]
      cases h.reply with
      | none => exact ⟨[], by simp [answer], rfl⟩
      | some r => exact ⟨[(id, wrap r)], by simp [answer], by simp [hcall, hrequest]⟩

/-- A step is nothing to the nodes, or the task it stands for. -/
def Moves (cfg : Config) (c : Cluster) (a : Action) (c' : Cluster) : Prop :=
  (c.task cfg a = none ∧ c.Rests c') ∨ ∃ t, c.task cfg a = some t ∧ c.Performs cfg c' t

theorem handle_moves
    {id : Nat} {call : Call}
    (hcall : c.calls[id]? = some call) :
    c.Moves cfg (.deliver id os) (c.handle cfg id call os) := by
  refine Or.inr ⟨⟨call.dst, call.request.operation, os⟩, by simp [task, hcall], ?_⟩
  unfold handle
  rcases hrequest : call.request with req | req | req
  · exact performs_handler (.vote req) hcall hrequest (fun _ => rfl) fun _ => rfl
  · exact performs_handler (.append req) hcall hrequest (fun _ => rfl) fun _ => rfl
  · exact performs_handler (.snapshot req) hcall hrequest (fun _ => rfl) fun _ => rfl

theorem crash_moves
    (c : Cluster) (x : String) :
    c.Moves cfg (.crash x) (c.restart x (c.node x).store) := by
  refine Or.inr ⟨_, rfl, ?_, fun y hy => ?_, List.prefix_rfl, [], by simp, rfl⟩
  · simp [Solo.nodeAfter, Solo.perform]
  · simp only at hy
    simp [hy]

theorem electionStep_moves
    (hstep : c.electionStep cfg a = some c') :
    c.Moves cfg a c' := by
  cases a with
  | campaign x os =>
      obtain ⟨-, hstep⟩ := Option.ite_none_right_eq_some.mp hstep
      cases hstep
      refine Or.inr ⟨_, rfl, ?_⟩
      unfold startElection
      refine performs_runSection (fun _ => rfl) fun c candidacy => ?_
      rcases candidacy with _ | round
      · exact Rests.refl c
      · dsimp only
        split_ifs
        · exact rests_setElection c x _
        · rw [requestVotes_fst]
          exact ⟨fun y => (node_setElection _ x y _).trans rfl, ⟨_, rfl⟩, rfl⟩
  | countVote x peer id resp os =>
      simp only [electionStep] at hstep
      split at hstep
      · obtain ⟨-, hstep⟩ := Option.ite_none_right_eq_some.mp hstep
        cases hstep
        refine Or.inr ⟨_, rfl, performs_runSection (fun _ => rfl) fun c higher => ?_⟩
        cases higher with
        | true => exact rests_setElection c x _
        | false => exact rests_setElection c x _
      · cases hstep
  | missVote x peer id =>
      simp only [electionStep] at hstep
      split at hstep
      · obtain ⟨-, hstep⟩ := Option.ite_none_right_eq_some.mp hstep
        cases hstep
        exact Or.inl ⟨rfl, rests_setElection c x _⟩
      · cases hstep
  | loseElection x =>
      simp only [electionStep] at hstep
      split at hstep
      · obtain ⟨-, hstep⟩ := Option.ite_none_right_eq_some.mp hstep
        cases hstep
        exact Or.inl ⟨rfl, rests_setElection c x _⟩
      · cases hstep
  | winElection x os =>
      simp only [electionStep] at hstep
      split at hstep
      · next round hround =>
          obtain ⟨-, hstep⟩ := Option.ite_none_right_eq_some.mp hstep
          cases hstep
          refine Or.inr ⟨⟨x, .win round.candidacy.term, os⟩, by simp [task, hround],
            performs_runSection (fun _ => rfl) fun c won => ?_⟩
          cases won with
          | true => exact (rests_setElection c x _).record _
          | false => exact rests_setElection c x _
      · cases hstep
  | commitAlone x os =>
      simp only [electionStep] at hstep
      split at hstep
      · cases hstep
        exact Or.inr ⟨_, rfl, (performs_runSection (fun _ => rfl) fun c _ =>
          Rests.refl c).of_eq (by simp) rfl rfl⟩
      · cases hstep
  | _ => cases hstep

theorem senderStep_moves
    (hstep : c.senderStep cfg a = some c') :
    c.Moves cfg a c' := by
  cases a with
  | replicate x p owner =>
      obtain ⟨-, hstep⟩ := Option.ite_none_right_eq_some.mp hstep
      refine Or.inl ⟨rfl, ?_⟩
      rcases owner with _ | i
      · cases hstep
        exact rests_setSender c x p _
      · dsimp only at hstep
        split at hstep
        · obtain ⟨-, hstep⟩ := Option.ite_none_right_eq_some.mp hstep
          cases hstep
          exact rests_setSender c x p _
        · cases hstep
  | giveUp x p =>
      simp only [senderStep] at hstep
      split at hstep
      · cases hstep
        exact Or.inl ⟨rfl, rests_senderReturns c x p _ _⟩
      · cases hstep
  | checkLeader x p =>
      simp only [senderStep] at hstep
      split at hstep
      · split_ifs at hstep
        all_goals cases hstep
        · exact Or.inl ⟨rfl, rests_setSender c x p _⟩
        · exact Or.inl ⟨rfl, rests_senderReturns c x p _ _⟩
      · cases hstep
  | checkSnapshot x p =>
      simp only [senderStep] at hstep
      split at hstep
      · split_ifs at hstep
        all_goals cases hstep
        · exact Or.inl ⟨rfl, rests_setSender c x p _⟩
        · exact Or.inl ⟨rfl, rests_setSender c x p _⟩
      · cases hstep
  | sendEntries x p =>
      have hnode : ∀ n req, (c.node x).buildAppendRequestLocked (cfg.options x) p = (n, req) →
          Solo.nodeAfter cfg.json (cfg.options x) (c.node x) (.build p) [] = n :=
        fun n req hbuild => congrArg Prod.fst hbuild
      simp only [senderStep] at hstep
      split at hstep
      · split at hstep
        · next n hbuild =>
            refine Or.inr ⟨_, rfl, ?_⟩
            split_ifs at hstep
            all_goals cases hstep
            · exact ⟨by simp [hnode n _ hbuild], fun y hy => by simp_all, by simp, [],
                by simp, rfl⟩
            · exact ⟨by simp [hnode n _ hbuild], fun y hy => by simp_all, by simp, [],
                by simp, rfl⟩
        · next n req hbuild =>
            cases hstep
            refine Or.inr ⟨_, rfl, ?_⟩
            exact ⟨by simp [hnode n _ hbuild], fun y hy => by simp_all, by simp, [],
              by simp, rfl⟩
      · cases hstep
  | sendSnapshot x p =>
      simp only [senderStep] at hstep
      split at hstep
      · cases hstep
        exact Or.inl ⟨rfl, by simp, by simp, by simp⟩
      · cases hstep
  | callFails x p =>
      simp only [senderStep] at hstep
      split at hstep
      · cases hstep
        exact Or.inl ⟨rfl, rests_senderReturns c x p _ _⟩
      · cases hstep
        exact Or.inl ⟨rfl, rests_senderReturns c x p _ _⟩
      · cases hstep
  | appendReply x p resp os =>
      simp only [senderStep] at hstep
      split at hstep
      · obtain ⟨-, hstep⟩ := Option.ite_none_right_eq_some.mp hstep
        cases hstep
        refine Or.inr ⟨_, rfl, performs_runSection (fun _ => rfl) fun c higher => ?_⟩
        split_ifs
        · exact rests_senderReturns c x p _ _
        · exact rests_setSender c x p _
      · cases hstep
  | appendDone x p os =>
      simp only [senderStep] at hstep
      split at hstep
      · next round owner req resp hsender =>
          cases hstep
          refine Or.inr ⟨⟨x, .appendReply p req.term req resp, os⟩, by simp [task, hsender],
            performs_record _ (fun _ => rfl) fun c outcome => ?_⟩
          cases outcome with
          | accepted => exact rests_senderReturns c x p _ _
          | failed => exact rests_senderReturns c x p _ _
          | rejected =>
              dsimp only
              split_ifs
              · exact rests_setSender c x p _
              · exact rests_senderReturns c x p _ _
      · cases hstep
  | snapshotReply x p resp os =>
      simp only [senderStep] at hstep
      split at hstep
      · obtain ⟨-, hstep⟩ := Option.ite_none_right_eq_some.mp hstep
        cases hstep
        refine Or.inr ⟨_, rfl, performs_runSection (fun _ => rfl) fun c higher => ?_⟩
        split_ifs
        · exact rests_senderReturns c x p _ _
        · exact rests_setSender c x p _
      · cases hstep
  | snapshotDone x p os =>
      simp only [senderStep] at hstep
      split at hstep
      · next owner req hsender =>
          cases hstep
          exact Or.inr ⟨⟨x, .snapshotReply p req.term req.lastIncludedIndex, os⟩,
            by simp [task, hsender], performs_record _ (fun _ => rfl) fun c inSync =>
              rests_senderReturns c x p owner inSync⟩
      · cases hstep
  | _ => cases hstep

theorem clientStep_moves
    (hstep : c.clientStep cfg a = some c') :
    c.Moves cfg a c' := by
  cases a with
  | invoke x req =>
      obtain ⟨-, hstep⟩ := Option.ite_none_right_eq_some.mp hstep
      refine Or.inl ⟨rfl, ?_⟩
      split_ifs at hstep
      all_goals cases hstep
      · exact ⟨fun _ => rfl, List.prefix_rfl, rfl⟩
      · exact ⟨fun _ => rfl, List.prefix_rfl, rfl⟩
  | route i =>
      simp only [clientStep] at hstep
      split at hstep
      · next op hop =>
          obtain ⟨-, hstep⟩ := Option.ite_none_right_eq_some.mp hstep
          refine Or.inl ⟨rfl, ?_⟩
          split at hstep
          · cases hstep
            exact rests_finish c i op _
          · cases hstep
            exact ⟨fun _ => rfl, List.prefix_rfl, rfl⟩
          · split at hstep
            all_goals cases hstep
            · exact rests_setPhase c i op _
            · exact rests_setPhase c i op _
      · cases hstep
  | propose i os =>
      simp only [clientStep] at hstep
      split at hstep
      · next op hop =>
          split at hstep
          · next cmd hphase hcmd =>
              cases hstep
              refine Or.inr ⟨⟨op.node, .client (cmd.encode cfg.json), os⟩,
                by simp [task, hop, hcmd], performs_record _ (fun _ => rfl) fun c r => ?_⟩
              rcases r with status | ⟨entry, term⟩
              · exact rests_finish c i op _
              · exact rests_setPhase c i op _
          · cases hstep
      · cases hstep
  | poll i =>
      simp only [clientStep] at hstep
      split at hstep
      · next op hop =>
          split at hstep
          · refine Or.inl ⟨rfl, ?_⟩
            split at hstep
            all_goals cases hstep
            · exact Rests.refl c
            · exact rests_finish c i op _
            · exact rests_finish c i op _
          · cases hstep
      · cases hstep
  | expire i =>
      simp only [clientStep] at hstep
      split at hstep
      · next op hop =>
          refine Or.inl ⟨rfl, ?_⟩
          split at hstep
          all_goals cases hstep
          · exact rests_finish c i op _
          · exact (Rests.refl c).record _
      · cases hstep
  | confirm i =>
      simp only [clientStep] at hstep
      split at hstep
      · next op hop =>
          split at hstep
          · refine Or.inl ⟨rfl, ?_⟩
            split at hstep
            all_goals cases hstep
            · exact rests_setPhase c i op _
            · exact rests_finish c i op _
          · cases hstep
      · cases hstep
  | readKey i =>
      simp only [clientStep] at hstep
      split at hstep
      · next op hop =>
          obtain ⟨-, hstep⟩ := Option.ite_none_right_eq_some.mp hstep
          cases hstep
          exact Or.inl ⟨rfl, rests_finish c i op _⟩
      · cases hstep
  | _ => cases hstep

/-- Every step is at most one operation of one node. -/
theorem step_moves
    (hstep : c.step cfg a = some c') :
    c.Moves cfg a c' := by
  rcases step_cases hstep with ⟨id, os, call, rfl, hcall, rfl⟩ | ⟨x, rfl, -, rfl⟩ |
    helection | hsender | hclient
  · exact handle_moves hcall
  · exact crash_moves c x
  · exact electionStep_moves helection
  · exact senderStep_moves hsender
  · exact clientStep_moves hclient

end Steps

section Views

variable {cfg}
variable {c c' : Cluster} {a : Action} {x y : String} {s : Solo}

/-- What one node has seen of the cluster is what the node on its own has seen. -/
structure Shows (c : Cluster) (x : String) (s : Solo) : Prop where
  node : s.node = c.node x
  exchanges : s.answered.filterMap Answered.exchange = c.exchanges x

/-- The replies of `x` among replies whose calls are looked up. -/
def repliesOf (x : String) (r : Option (String × Request) × Response) :
    Option (Request × Response) :=
  r.1.bind fun call => if call.1 = x then some (call.2, r.2) else none

/-- A reply with the destination and the request of its call. -/
def lookup (c : Cluster) (r : Nat × Response) : Option (String × Request) × Response :=
  ((c.calls[r.1]?).map fun call => (call.dst, call.request), r.2)

theorem exchanges_eq
    (c : Cluster) (x : String) :
    c.exchanges x = (c.replies.map c.lookup).filterMap (repliesOf x) := by
  unfold exchanges
  rw [List.filterMap_map]
  refine congrArg (c.replies.filterMap ·) (funext fun r => ?_)
  simp only [Function.comp, lookup, repliesOf]
  cases c.calls[r.1]? <;> rfl

theorem lookup_of_calls
    (hcalls : c.calls <+: c'.calls)
    {r : Nat × Response}
    (hr : r.1 < c.calls.length) :
    c'.lookup r = c.lookup r := by
  obtain ⟨more, hmore⟩ := hcalls
  unfold lookup
  rw [← hmore, List.getElem?_append_left hr]

theorem Addressed.lookup
    (h : c.Addressed)
    (hcalls : c.calls <+: c'.calls) :
    c.replies.map c'.lookup = c.replies.map c.lookup :=
  List.map_congr_left fun r hr => lookup_of_calls hcalls (h r hr)

theorem filterMap_repliesOf
    (x y : String) (es : List (Request × Response)) :
    (es.map fun e => (some (x, e.1), e.2)).filterMap (repliesOf y) =
      if x = y then es else [] := by
  induction es with
  | nil => simp
  | cons e es ih =>
      rw [List.map_cons, List.filterMap_cons, ih]
      by_cases hxy : x = y
      · simp [repliesOf, hxy]
      · simp [repliesOf, hxy]

theorem Rests.shows
    (h : c.Rests c')
    (haddressed : c.Addressed)
    (hshows : c.Shows x s) :
    c'.Addressed ∧ c'.Shows x s := by
  refine ⟨fun r hr => ?_, hshows.node.trans (h.node x).symm, ?_⟩
  · rw [h.replies] at hr
    exact (haddressed r hr).trans_le h.calls.length_le
  · rw [hshows.exchanges, exchanges_eq, exchanges_eq, h.replies, haddressed.lookup h.calls]

theorem Performs.exchanges
    {t : Task}
    (h : c.Performs cfg c' t)
    (haddressed : c.Addressed) :
    c'.Addressed ∧ ∀ y, c'.exchanges y = c.exchanges y ++
      if t.node = y then
        (Solo.answersOf cfg.json (cfg.options t.node) (c.node t.node) t.operation
          t.outcomes).filterMap Answered.exchange
      else [] := by
  obtain ⟨new, hreplies, hnew⟩ := h.replies
  -- A new reply belongs to a call that was already there.
  have hold : ∀ r ∈ new, r.1 < c.calls.length := by
    intro r hr
    have hmem := List.mem_map_of_mem (f := c.lookup) hr
    rw [show new.map c.lookup = _ from hnew, List.mem_map] at hmem
    obtain ⟨e, -, he⟩ := hmem
    by_contra hge
    have hnone : c.calls[r.1]? = none := List.getElem?_eq_none (not_lt.mp hge)
    simp [lookup, hnone] at he
  have hlookup : new.map c'.lookup = new.map c.lookup :=
    List.map_congr_left fun r hr => lookup_of_calls h.calls (hold r hr)
  refine ⟨fun r hr => ?_, fun y => ?_⟩
  · rw [hreplies, List.mem_append] at hr
    rcases hr with hr | hr
    · exact (haddressed r hr).trans_le h.calls.length_le
    · exact (hold r hr).trans_le h.calls.length_le
  · rw [exchanges_eq, exchanges_eq, hreplies, List.map_append, List.filterMap_append,
      haddressed.lookup h.calls, hlookup, show new.map c.lookup = _ from hnew,
      filterMap_repliesOf]

theorem Performs.shows
    {t : Task}
    (h : c.Performs cfg c' t)
    (haddressed : c.Addressed)
    (hshows : c.Shows x s) :
    c'.Addressed ∧ c'.Shows x (if t.node = x then
      s.perform cfg.json (cfg.options x) t.operation t.outcomes else s) := by
  obtain ⟨haddressed', hexchanges⟩ := h.exchanges haddressed
  refine ⟨haddressed', ?_⟩
  have hx := hexchanges x
  split_ifs with htask
  · subst htask
    rw [if_pos rfl] at hx
    rw [Solo.perform_eq, hshows.node]
    exact ⟨h.self.symm, by rw [List.filterMap_append, hshows.exchanges, hx]⟩
  · rw [if_neg htask, List.append_nil] at hx
    exact ⟨hshows.node.trans (h.frame x fun he => htask he.symm).symm,
      hshows.exchanges.trans hx.symm⟩

/-- A step, seen from one node. -/
theorem step_shows
    (hstep : c.step cfg a = some c')
    (haddressed : c.Addressed)
    (hshows : c.Shows x s) :
    c'.Addressed ∧ c'.Shows x (s.run cfg.json (cfg.options x) (c.asked cfg x a)) := by
  rcases step_moves hstep with ⟨hnone, hrests⟩ | ⟨t, htask, hperforms⟩
  · simpa [asked, hnone, Solo.run] using hrests.shows haddressed hshows
  · have h := hperforms.shows haddressed hshows
    by_cases hx : t.node = x
    · simpa [asked, htask, hx, Solo.run] using h
    · simpa [asked, htask, hx, Solo.run] using h

/-- A run, seen from one node. -/
theorem exec_shows
    {as : List Action}
    (haddressed : c.Addressed)
    (hshows : c.Shows x s)
    (hexec : c.exec cfg as = some c') :
    c'.Shows x (s.run cfg.json (cfg.options x) (c.askedOf cfg x as)) := by
  induction as generalizing c s with
  | nil =>
      cases hexec
      exact hshows
  | cons a as ih =>
      simp only [exec] at hexec
      split at hexec
      · next c₁ hstep =>
          obtain ⟨haddressed₁, hshows₁⟩ := step_shows hstep haddressed hshows
          have hrest := ih haddressed₁ hshows₁ hexec
          simpa [askedOf, hstep, Solo.run, List.foldl_append] using hrest
      · cases hexec

/-- Seen from any of its nodes, every run of the cluster is a run of that node on its own:
the node ends in the same state, and the replies it has sent are the ones it sends on its
own to the same requests, in the same order. -/
theorem node_runs_alone
    {as : List Action}
    (hexec : init.exec cfg as = some c)
    (x : String) :
    (Solo.init.run cfg.json (cfg.options x) (init.askedOf cfg x as)).node = c.node x ∧
      (Solo.init.run cfg.json (cfg.options x)
        (init.askedOf cfg x as)).answered.filterMap Answered.exchange = c.exchanges x := by
  have hshows : init.Shows x Solo.init := ⟨rfl, rfl⟩
  have hrun := exec_shows (by simp [Addressed, init]) hshows hexec
  exact ⟨hrun.node, hrun.exchanges⟩

theorem node_runs_alone_splitVote :
    ∃ c, init.exec (trio fun _ => 0) splitVote = some c ∧ (c.exchanges "b").length = 2 ∧
      (Solo.init.run Json.compact ((trio fun _ => 0).options "b")
        (init.askedOf (trio fun _ => 0) "b" splitVote)).answered.filterMap
          Answered.exchange = c.exchanges "b" := by
  have hrun : ((init.exec (trio fun _ => 0) splitVote).map fun c =>
      (c.exchanges "b").length) = some 2 := by
    decide +kernel
  obtain ⟨c, hexec, hlength⟩ := Option.map_eq_some_iff.mp hrun
  exact ⟨c, hexec, hlength, (node_runs_alone hexec "b").2⟩

end Views

end Cluster

end LogReplicator
