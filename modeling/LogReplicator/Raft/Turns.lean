import LogReplicator.Raft.ClusterFacts
import LogReplicator.Raft.Solo

/-!
# A step of the cluster is an operation of one node

Seen from a single node, the rest of the cluster only chooses its next operation.
`Turn` says which operation of which node a step is, where the entries it brings come
from, and what becomes of the client calls; so what holds of every run of one node
holds of every node of a cluster.
-/

namespace LogReplicator

open Library

/-- The node a section leaves behind; a node that dies is restarted. -/
def Node.after {α : Type} (m : Txn Node α) (os : List Outcome) (n : Node) : Node :=
  match m os n with
  | (some _, n', _) => n'
  | (none, n', _) => Node.new n'.store

theorem Solo.node_runSection
    {α : Type} (s : Solo) (m : Txn Node α) (os : List Outcome)
    (answer : α → List Answered) :
    (s.runSection m os answer).node = Node.after m os s.node := by
  unfold Solo.runSection Node.after
  rcases m os s.node with ⟨_ | a, n', os'⟩ <;> rfl

namespace Cluster

variable (cfg : Config)

/-- Client calls that are still being served have a key. -/
def Keyed (c : Cluster) : Prop :=
  ∀ op ∈ c.ops, op.phase ≠ .done → op.request.key ≠ ""

/-- Nothing happened to the nodes and the requests of clients, and no entries were
sent. -/
structure Quiet (c c' : Cluster) : Prop where
  nodes : ∀ y, c'.node y = c.node y
  calls : ∃ new, c'.calls = c.calls ++ new ∧
    ∀ call ∈ new, ∀ req, call.request ≠ .append req
  requests : c'.ops.map ClientOp.request = c.ops.map ClientOp.request
  keyed : c.Keyed → c'.Keyed

/-- Where an operation of node `x` comes from. -/
def Sourced (c : Cluster) (a : Action) (x : String) : Operation → Prop
  | .append req => ∃ src id os, a = .deliver id os ∧
      c.calls[id]? = some ⟨src, x, .append req⟩
  | .client payload => ∃ i os op cmd, a = .propose i os ∧ c.ops[i]? = some op ∧
      op.node = x ∧ op.phase = .proposing ∧ op.request.command = some cmd ∧
      payload = cmd.encode cfg.json
  | _ => True

/-- The append calls a step sends are built from the log of their sender. -/
def Sends (c : Cluster) (a : Action) (call : Call) : Prop :=
  ∀ req, call.request = .append req → ∃ p prevLogTerm, a = .sendEntries call.src p ∧
    (c.node call.src).store.term ((c.node call.src).nextIndexLocked p - 1) =
      some prevLogTerm ∧
    req = (c.node call.src).appendRequest (cfg.options call.src) p prevLogTerm

/-- A step as an operation of at most one node. -/
structure Turn (c : Cluster) (a : Action) (c' : Cluster) : Prop where
  nodes : (∀ y, c'.node y = c.node y) ∨
    ∃ x op os, c.Sourced cfg a x op ∧
      ∀ y, c'.node y = if y = x then
        (Solo.perform cfg.json (cfg.options x) ⟨c.node x, []⟩ op os).node else c.node y
  calls : ∃ new, c'.calls = c.calls ++ new ∧ ∀ call ∈ new, c.Sends cfg a call
  requests : c.ops.map ClientOp.request <+: c'.ops.map ClientOp.request
  keyed : c.Keyed → c'.Keyed

section Quiet

variable {c c' c'' : Cluster} {x p : String} {i : Nat} {op op' : ClientOp}

theorem Quiet.trans
    (h : c.Quiet c')
    (h' : c'.Quiet c'') :
    c.Quiet c'' := by
  obtain ⟨new, hcalls, hnew⟩ := h.calls
  obtain ⟨new', hcalls', hnew'⟩ := h'.calls
  refine ⟨fun y => (h'.nodes y).trans (h.nodes y),
    ⟨new ++ new', by rw [hcalls', hcalls, List.append_assoc], fun call hcall => ?_⟩,
    h'.requests.trans h.requests, fun hk => h'.keyed (h.keyed hk)⟩
  exact (List.mem_append.mp hcall).elim (hnew call) (hnew' call)

theorem quiet_of_ops
    (hnodes : ∀ y, c'.node y = c.node y)
    (hcalls : c'.calls = c.calls)
    (hops : c'.ops = c.ops) :
    c.Quiet c' :=
  ⟨hnodes, ⟨[], by simp [hcalls], by simp⟩, by rw [hops], fun hk => by rwa [Keyed, hops]⟩

theorem Quiet.refl
    (c : Cluster) :
    c.Quiet c :=
  quiet_of_ops (fun _ => rfl) rfl rfl

theorem quiet_record
    (es : List Event) :
    c.Quiet (c.record es) :=
  quiet_of_ops (by simp) (by simp) (by simp)

theorem quiet_setElection
    (e : Election) :
    c.Quiet (c.setElection x e) :=
  quiet_of_ops (by simp) (by simp) (by simp)

theorem quiet_setSender
    (s : Sender) :
    c.Quiet (c.setSender x p s) :=
  quiet_of_ops (by simp) (by simp) (by simp)

theorem quiet_answer
    (id : Nat) (resp : Option Response) :
    c.Quiet (c.answer id resp) :=
  quiet_of_ops (by simp) (by simp) (by simp)

/-- A call moves on but keeps its request. -/
theorem quiet_setOp
    (hop : c.ops[i]? = some op)
    (hrequest : op'.request = op.request)
    (hphase : op.phase = .done → op'.phase = .done) :
    c.Quiet (c.setOp i op') := by
  refine ⟨by simp, ⟨[], by simp, by simp⟩, ?_, fun hk d hd hdone => ?_⟩
  · rw [ops_setOp, List.map_set, hrequest]
    obtain ⟨hi, rfl⟩ := List.getElem?_eq_some_iff.mp hop
    refine List.ext_getElem (by simp) fun j hj hj' => ?_
    rw [List.getElem_set]
    split_ifs with h
    · subst h
      rw [List.getElem_map]
    · rfl
  · rw [ops_setOp] at hd
    rcases List.mem_or_eq_of_mem_set hd with hd | rfl
    · exact hk d hd hdone
    · rw [hrequest]
      exact hk op (List.mem_of_getElem? hop) fun h => hdone (hphase h)

theorem quiet_setPhase
    {phase : Phase}
    (hop : c.ops[i]? = some op)
    (hphase : op.phase = .done → phase = .done) :
    c.Quiet (c.setPhase i op phase) :=
  quiet_setOp hop rfl hphase

theorem quiet_finish
    (hop : c.ops[i]? = some op)
    (answer : Answer) :
    c.Quiet (c.finish i op answer) :=
  (quiet_setPhase hop fun _ => rfl).trans (quiet_record _)

theorem quiet_senderReturns
    (owner : Option Nat) (inSync : Bool) :
    c.Quiet (c.senderReturns x p owner inSync) := by
  rcases senderReturns_cases c x p owner inSync with
    h | ⟨i, op, pending, k, -, hop, hphase, h⟩
  · rw [h]
    exact quiet_setSender _
  · rw [h]
    exact (quiet_setSender _).trans (quiet_setPhase (by simpa using hop) (by simp [hphase]))

theorem quiet_send
    {call : Call}
    (h : ∀ req, call.request ≠ .append req) :
    c.Quiet (c.send call) :=
  ⟨by simp, ⟨[call], by simp, by simpa using h⟩, by simp, fun hk => hk⟩

theorem quiet_requestVotes
    (round : Candidacy) (ps : List String) :
    c.Quiet (c.requestVotes x round ps).1 := by
  induction ps generalizing c with
  | nil =>
      exact Quiet.refl c
  | cons p ps ih =>
      exact (quiet_send (by simp)).trans ih

/-- No call of a quiet step carries entries. -/
theorem Quiet.sends
    {cfg : Config} {a : Action} {c₀ : Cluster}
    (h : c.Quiet c') :
    ∃ new, c'.calls = c.calls ++ new ∧ ∀ call ∈ new, c₀.Sends cfg a call := by
  obtain ⟨new, hcalls, hnew⟩ := h.calls
  exact ⟨new, hcalls, fun call hcall req hreq => absurd hreq (hnew call hcall req)⟩

theorem Quiet.turn
    {cfg : Config} {a : Action}
    (h : c.Quiet c') :
    c.Turn cfg a c' :=
  ⟨Or.inl h.nodes, h.sends, by rw [h.requests], h.keyed⟩

end Quiet

section Sections

variable {cfg}
variable {c c₁ : Cluster} {a : Action} {x : String} {op : Operation} {os : List Outcome}

/-- A restart ends the calls a node serves and touches nothing else. -/
theorem restart_requests
    (c : Cluster) (x : String) (store : Store) :
    (c.restart x store).ops.map ClientOp.request = c.ops.map ClientOp.request ∧
      (c.Keyed → (c.restart x store).Keyed) := by
  refine ⟨?_, fun hk d hd hdone => ?_⟩
  · show (c.ops.map _).map _ = _
    rw [List.map_map]
    refine List.map_congr_left fun op _ => ?_
    simp only [Function.comp_apply]
    split_ifs <;> rfl
  · obtain ⟨op, hop, rfl⟩ := List.mem_map.mp hd
    split_ifs at hdone ⊢
    · exact absurd rfl hdone
    · exact hk op hop hdone

/-- A section of a node is an operation of it, whatever quiet things follow. -/
theorem runSection_turn
    {α : Type} {m : Txn Node α} {k : Cluster → α → Cluster} (op : Operation)
    (hbefore : c.Quiet c₁)
    (hperform : ∀ s : Solo, (s.perform cfg.json (cfg.options x) op os).node =
      Node.after m os s.node)
    (hsourced : c.Sourced cfg a x op)
    (hk : ∀ n r, (c₁.setNode x n).Quiet (k (c₁.setNode x n) r)) :
    c.Turn cfg a (c₁.runSection x m os k) := by
  have hafter := hperform ⟨c.node x, []⟩
  unfold Node.after at hafter
  unfold runSection
  rw [hbefore.nodes]
  rcases hr : m os (c.node x) with ⟨_ | r, n', os'⟩
  · simp only [hr] at hafter
    obtain ⟨hrequests, hkeyed⟩ := restart_requests c₁ x n'.store
    refine ⟨Or.inr ⟨x, op, os, hsourced, fun y => ?_⟩, by simpa using hbefore.sends,
      by rw [hrequests, hbefore.requests], fun h => hkeyed (hbefore.keyed h)⟩
    rw [hafter]
    simp [hbefore.nodes]
  · simp only [hr] at hafter
    have hq := hk n' r
    obtain ⟨new, hcalls, hnew⟩ := hbefore.calls
    obtain ⟨new', hcalls', hnew'⟩ := hq.calls
    refine ⟨Or.inr ⟨x, op, os, hsourced, fun y => ?_⟩, ⟨new ++ new', ?_, ?_⟩, ?_,
      fun h => hq.keyed ?_⟩
    · rw [hafter, hq.nodes]
      simp [hbefore.nodes]
    · rw [hcalls', calls_setNode, hcalls, List.append_assoc]
    · intro call hcall req hreq
      exact ((List.mem_append.mp hcall).elim (hnew call · req hreq) (hnew' call · req hreq)).elim
    · rw [hq.requests, ops_setNode, hbefore.requests]
    · exact fun d hd => hbefore.keyed h d (by simpa using hd)

end Sections

section Steps

variable {cfg}
variable {c c' : Cluster} {a : Action}

theorem electionStep_turn
    (hstep : c.electionStep cfg a = some c') :
    c.Turn cfg a c' := by
  cases a with
  | campaign x os =>
      simp only [electionStep] at hstep
      obtain ⟨-, hstep⟩ := Option.ite_none_right_eq_some.mp hstep
      cases hstep
      unfold startElection
      refine runSection_turn .timeout (Quiet.refl c)
        (fun s => s.node_runSection _ _ _) trivial fun n candidacy => ?_
      cases candidacy with
      | none =>
          exact Quiet.refl _
      | some round =>
          simp only
          split_ifs
          · exact quiet_setElection _
          · exact (quiet_requestVotes round _).trans (quiet_setElection _)
  | countVote x peer id resp os =>
      simp only [electionStep] at hstep
      split at hstep
      · obtain ⟨-, hstep⟩ := Option.ite_none_right_eq_some.mp hstep
        cases hstep
        refine runSection_turn (.observe resp.term) (Quiet.refl c)
          (fun s => s.node_runSection _ _ _) trivial fun n higher => ?_
        split_ifs <;> exact quiet_setElection _
      · cases hstep
  | missVote x peer id =>
      simp only [electionStep] at hstep
      split at hstep
      · obtain ⟨-, hstep⟩ := Option.ite_none_right_eq_some.mp hstep
        cases hstep
        exact (quiet_setElection _).turn
      · cases hstep
  | loseElection x =>
      simp only [electionStep] at hstep
      split at hstep
      · obtain ⟨-, hstep⟩ := Option.ite_none_right_eq_some.mp hstep
        cases hstep
        exact (quiet_setElection _).turn
      · cases hstep
  | winElection x os =>
      simp only [electionStep] at hstep
      split at hstep
      · next round _ =>
          obtain ⟨-, hstep⟩ := Option.ite_none_right_eq_some.mp hstep
          cases hstep
          refine runSection_turn (.win round.candidacy.term) (Quiet.refl c)
            (fun s => s.node_runSection _ _ _) trivial fun n won => ?_
          cases won
          · exact quiet_setElection _
          · exact (quiet_setElection _).trans (quiet_record _)
      · cases hstep
  | commitAlone x os =>
      simp only [electionStep] at hstep
      split at hstep
      · cases hstep
        exact runSection_turn .commitAlone
          ((quiet_record _).trans (quiet_setElection _))
          (fun s => s.node_runSection _ _ _) trivial fun n _ => Quiet.refl _
      · cases hstep
  | _ => cases hstep

theorem handle_turn
    {id : Nat} {call : Call} {os : List Outcome}
    (hcall : c.calls[id]? = some call) :
    c.Turn cfg (.deliver id os) (c.handle cfg id call os) := by
  obtain ⟨src, dst, request⟩ := call
  cases request with
  | vote req =>
      simp only [handle]
      exact runSection_turn (.vote req) (Quiet.refl c)
        (fun s => s.node_runSection _ _ _) trivial fun n _ => quiet_answer _ _
  | append req =>
      simp only [handle]
      exact runSection_turn (.append req) (Quiet.refl c)
        (fun s => s.node_runSection _ _ _) ⟨src, id, os, rfl, hcall⟩
        fun n _ => quiet_answer _ _
  | snapshot req =>
      simp only [handle]
      exact runSection_turn (.snapshot req) (Quiet.refl c)
        (fun s => s.node_runSection _ _ _) trivial fun n _ => quiet_answer _ _

/-- The request is built, or the next index is lowered. -/
theorem sendEntries_turn
    {x p : String} {round : Nat} {owner : Option Nat}
    (hsender : (c.procs x).sender p = .entries round owner)
    (hstep : c.senderStep cfg (.sendEntries x p) = some c') :
    c.Turn cfg (.sendEntries x p) c' := by
  have hnodes : ∀ c₁ : Cluster,
      (c.setNode x ((c.node x).buildAppendRequestLocked (cfg.options x) p).1).Quiet c₁ →
      ∀ y, c₁.node y = if y = x then (Solo.perform cfg.json (cfg.options x)
        ⟨c.node x, []⟩ (.build p) []).node else c.node y := by
    intro c₁ hq y
    rw [hq.nodes]
    simp [Solo.perform]
  simp only [senderStep, hsender] at hstep
  rcases buildAppendRequestLocked_cases (c.node x) (cfg.options x) p with
    ⟨next, hbuild⟩ | ⟨prevLogTerm, hprev, hbuild⟩
  · rw [hbuild] at hstep hnodes
    simp only at hstep
    have hturn : ∀ c₁ : Cluster, (c.setNode x ((c.node x).setNextIndex p next)).Quiet c₁ →
        c.Turn cfg (.sendEntries x p) c₁ := fun c₁ hq =>
      ⟨Or.inr ⟨x, .build p, [], trivial, hnodes c₁ hq⟩, by simpa using hq.sends,
        by rw [hq.requests, ops_setNode], fun hk => hq.keyed fun d hd => hk d (by simpa using hd)⟩
    split_ifs at hstep
    all_goals cases hstep
    · exact hturn _ (quiet_setSender _)
    · exact hturn _ (quiet_senderReturns _ _)
  · rw [hbuild] at hstep
    cases hstep
    refine ⟨Or.inl fun y => ?_, ⟨_, by simp; rfl, ?_⟩, by simp, fun hk d hd => hk d (by simpa using hd)⟩
    · by_cases hy : y = x
      · simp [hy]
      · simp [hy]
    · intro call hcall req hreq
      obtain rfl := List.mem_singleton.mp hcall
      cases hreq
      exact ⟨p, prevLogTerm, rfl, hprev, rfl⟩

theorem senderStep_turn
    (hstep : c.senderStep cfg a = some c') :
    c.Turn cfg a c' := by
  cases a with
  | replicate x p owner =>
      simp only [senderStep] at hstep
      obtain ⟨-, hstep⟩ := Option.ite_none_right_eq_some.mp hstep
      split at hstep
      · cases hstep
        exact (quiet_setSender _).turn
      · split at hstep
        · obtain ⟨-, hstep⟩ := Option.ite_none_right_eq_some.mp hstep
          cases hstep
          exact (quiet_setSender _).turn
        · cases hstep
  | giveUp x p =>
      simp only [senderStep] at hstep
      split at hstep
      · cases hstep
        exact (quiet_senderReturns _ _).turn
      · cases hstep
  | checkLeader x p =>
      simp only [senderStep] at hstep
      split at hstep
      · split_ifs at hstep
        all_goals cases hstep
        · exact (quiet_setSender _).turn
        · exact (quiet_senderReturns _ _).turn
      · cases hstep
  | checkSnapshot x p =>
      simp only [senderStep] at hstep
      split at hstep
      · split_ifs at hstep
        all_goals
          cases hstep
          exact (quiet_setSender _).turn
      · cases hstep
  | sendEntries x p =>
      have hstep' := hstep
      simp only [senderStep] at hstep'
      split at hstep'
      · next hsender => exact sendEntries_turn hsender hstep
      · cases hstep'
  | sendSnapshot x p =>
      simp only [senderStep] at hstep
      split at hstep
      · cases hstep
        exact ((quiet_send (by simp)).trans (quiet_setSender _)).turn
      · cases hstep
  | callFails x p =>
      simp only [senderStep] at hstep
      split at hstep
      · cases hstep
        exact (quiet_senderReturns _ _).turn
      · cases hstep
        exact (quiet_senderReturns _ _).turn
      · cases hstep
  | appendReply x p resp os =>
      simp only [senderStep] at hstep
      split at hstep
      · obtain ⟨-, hstep⟩ := Option.ite_none_right_eq_some.mp hstep
        cases hstep
        refine runSection_turn (.observe resp.term) (Quiet.refl c)
          (fun s => s.node_runSection _ _ _) trivial fun n higher => ?_
        split_ifs
        · exact quiet_senderReturns _ _
        · exact quiet_setSender _
      · cases hstep
  | appendDone x p os =>
      simp only [senderStep] at hstep
      split at hstep
      · next round owner req resp _ =>
          cases hstep
          refine runSection_turn (.appendReply p req.term req resp) (quiet_record _)
            (fun s => s.node_runSection _ _ _) trivial fun n outcome => ?_
          cases outcome with
          | accepted => exact quiet_senderReturns _ _
          | failed => exact quiet_senderReturns _ _
          | rejected =>
              by_cases hround : round + 1 < maxAppendRounds
              · simp only [if_pos hround]
                exact quiet_setSender _
              · simp only [if_neg hround]
                exact quiet_senderReturns _ _
      · cases hstep
  | snapshotReply x p resp os =>
      simp only [senderStep] at hstep
      split at hstep
      · obtain ⟨-, hstep⟩ := Option.ite_none_right_eq_some.mp hstep
        cases hstep
        refine runSection_turn (.observe resp.term) (Quiet.refl c)
          (fun s => s.node_runSection _ _ _) trivial fun n higher => ?_
        split_ifs
        · exact quiet_senderReturns _ _
        · exact quiet_setSender _
      · cases hstep
  | snapshotDone x p os =>
      simp only [senderStep] at hstep
      split at hstep
      · next owner req _ =>
          cases hstep
          exact runSection_turn (.snapshotReply p req.term req.lastIncludedIndex)
            (quiet_record _) (fun s => s.node_runSection _ _ _) trivial
            fun n inSync => quiet_senderReturns _ _
      · cases hstep
  | _ => cases hstep

/-- A call of a client is new; it is served only if it has a key. -/
theorem invoke_turn
    {x : String} {req : ClientRequest}
    (hstep : c.clientStep cfg (.invoke x req) = some c') :
    c.Turn cfg (.invoke x req) c' := by
  simp only [clientStep] at hstep
  obtain ⟨-, hstep⟩ := Option.ite_none_right_eq_some.mp hstep
  split_ifs at hstep with hkey
  all_goals cases hstep
  · refine ⟨Or.inl fun y => rfl, ⟨[], by simp [finish, setPhase, setOp, record], by simp⟩, ?_, ?_⟩
    · simp only [ops_finish, ops_record]
      rw [List.set_append_right _ _ le_rfl, List.map_append]
      exact List.prefix_append _ _
    · intro hk d hd hdone
      simp only [ops_finish, ops_record] at hd
      rw [List.set_append_right _ _ le_rfl] at hd
      simp only [Nat.sub_self, List.set_cons_zero, List.mem_append, List.mem_singleton] at hd
      rcases hd with hd | rfl
      · exact hk d hd hdone
      · exact absurd rfl hdone
  · refine ⟨Or.inl fun y => rfl, ⟨[], by simp [record], by simp⟩, ?_, ?_⟩
    · simp only [ops_record, List.map_append]
      exact List.prefix_append _ _
    · intro hk d hd hdone
      simp only [ops_record, List.mem_append, List.mem_singleton] at hd
      rcases hd with hd | rfl
      · exact hk d hd hdone
      · exact hkey

theorem clientStep_turn
    (hstep : c.clientStep cfg a = some c') :
    c.Turn cfg a c' := by
  cases a with
  | invoke x req =>
      exact invoke_turn hstep
  | route i =>
      simp only [clientStep] at hstep
      split at hstep
      · next op hop =>
          obtain ⟨hphase, hstep⟩ := Option.ite_none_right_eq_some.mp hstep
          split at hstep
          · cases hstep
            exact (quiet_finish hop _).turn
          · cases hstep
            refine (quiet_setOp hop ?_ ?_).turn
            · rfl
            · simp [hphase]
          · split at hstep
            all_goals
              cases hstep
              exact (quiet_setPhase hop (by simp [hphase])).turn
      · cases hstep
  | propose i os =>
      simp only [clientStep] at hstep
      split at hstep
      · next op hop =>
          split at hstep
          · next cmd hphase hcmd =>
              cases hstep
              refine runSection_turn (.client (cmd.encode cfg.json)) (quiet_record _)
                (fun s => s.node_runSection _ _ _)
                ⟨i, os, op, cmd, rfl, hop, rfl, hphase, hcmd, rfl⟩ fun n r => ?_
              have hop' : ∀ evs n, ((c.record evs).setNode op.node n).ops[i]? = some op :=
                fun evs n => by simpa using hop
              rcases r with status | ⟨entry, term⟩
              · exact quiet_finish (hop' _ n) _
              · exact quiet_setPhase (hop' _ n) (by simp [hphase])
          · cases hstep
      · cases hstep
  | poll i =>
      simp only [clientStep] at hstep
      split at hstep
      · next op hop =>
          split at hstep
          · split at hstep
            · cases hstep
              exact (Quiet.refl c).turn
            all_goals
              cases hstep
              exact (quiet_finish hop _).turn
          · cases hstep
      · cases hstep
  | expire i =>
      simp only [clientStep] at hstep
      split at hstep
      · next op hop =>
          split at hstep
          · cases hstep
          · cases hstep
            exact (quiet_finish hop _).turn
          · cases hstep
            exact (quiet_record _).turn
      · cases hstep
  | confirm i =>
      simp only [clientStep] at hstep
      split at hstep
      · next op hop =>
          split at hstep
          · next hphase =>
              split at hstep
              all_goals cases hstep
              · exact (quiet_setPhase hop (by simp [hphase])).turn
              · exact (quiet_finish hop _).turn
          · cases hstep
      · cases hstep
  | readKey i =>
      simp only [clientStep] at hstep
      split at hstep
      · next op hop =>
          obtain ⟨-, hstep⟩ := Option.ite_none_right_eq_some.mp hstep
          cases hstep
          exact (quiet_finish hop _).turn
      · cases hstep
  | _ => cases hstep

/-- Every step is an operation of at most one node. -/
theorem step_turn
    (hstep : c.step cfg a = some c') :
    c.Turn cfg a c' := by
  rcases step_cases hstep with ⟨id, os, call, rfl, hcall, rfl⟩ | ⟨x, rfl, -, rfl⟩ |
    helection | hsender | hclient
  · exact handle_turn hcall
  · obtain ⟨hrequests, hkeyed⟩ := restart_requests c x (c.node x).store
    exact ⟨Or.inr ⟨x, .crash, [], trivial, fun y => by simp [Solo.perform]⟩,
      ⟨[], by simp, by simp⟩, by rw [hrequests], hkeyed⟩
  · exact electionStep_turn helection
  · exact senderStep_turn hsender
  · exact clientStep_turn hclient

end Steps

end Cluster

end LogReplicator
