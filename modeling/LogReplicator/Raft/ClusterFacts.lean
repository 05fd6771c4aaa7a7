import LogReplicator.Raft.Cluster

/-!
# What the cluster operations touch

Every helper of the cluster model changes one component.  These are the lemmas
that say so, component by component.
-/

namespace LogReplicator
namespace Cluster

open Library

variable (c : Cluster) (x y p q : String)

section Node

@[simp] theorem node_setNode
    (n : Node) :
    (c.setNode x n).node y = if y = x then n else c.node y := by
  unfold node setNode setProc
  by_cases h : y = x
  · subst h
    simp
  · simp [h]

@[simp] theorem node_setElection
    (e : Election) :
    (c.setElection x e).node y = c.node y := by
  unfold node setElection setProc
  by_cases h : y = x
  · subst h
    simp
  · simp [h]

@[simp] theorem node_setSender
    (s : Sender) :
    (c.setSender x p s).node y = c.node y := by
  unfold node setSender setProc
  by_cases h : y = x
  · subst h
    simp
  · simp [h]

@[simp] theorem node_setOp
    (i : Nat) (op : ClientOp) :
    (c.setOp i op).node y = c.node y :=
  rfl

@[simp] theorem node_setPhase
    (i : Nat) (op : ClientOp) (phase : Phase) :
    (c.setPhase i op phase).node y = c.node y :=
  rfl

@[simp] theorem node_record
    (es : List Event) :
    (c.record es).node y = c.node y :=
  rfl

@[simp] theorem node_send
    (call : Call) :
    (c.send call).node y = c.node y :=
  rfl

@[simp] theorem node_answer
    (id : Nat) (resp : Option Response) :
    (c.answer id resp).node y = c.node y := by
  cases resp <;> rfl

@[simp] theorem node_finish
    (i : Nat) (op : ClientOp) (a : Answer) :
    (c.finish i op a).node y = c.node y :=
  rfl

@[simp] theorem node_restart
    (store : Store) :
    (c.restart x store).node y = if y = x then Node.new store else c.node y := by
  unfold node restart setProc
  by_cases h : y = x
  · subst h
    simp [startProc]
  · simp [h]

end Node

section Election

@[simp] theorem election_setNode
    (n : Node) :
    ((c.setNode x n).procs y).election = (c.procs y).election := by
  unfold setNode setProc
  by_cases h : y = x
  · subst h
    simp
  · simp [h]

@[simp] theorem election_setElection
    (e : Election) :
    ((c.setElection x e).procs y).election =
      if y = x then e else (c.procs y).election := by
  unfold setElection setProc
  by_cases h : y = x
  · subst h
    simp
  · simp [h]

@[simp] theorem election_setSender
    (s : Sender) :
    ((c.setSender x p s).procs y).election = (c.procs y).election := by
  unfold setSender setProc
  by_cases h : y = x
  · subst h
    simp
  · simp [h]

@[simp] theorem procs_record
    (es : List Event) :
    (c.record es).procs = c.procs :=
  rfl

@[simp] theorem procs_send
    (call : Call) :
    (c.send call).procs = c.procs :=
  rfl

@[simp] theorem procs_setOp
    (i : Nat) (op : ClientOp) :
    (c.setOp i op).procs = c.procs :=
  rfl

@[simp] theorem procs_setPhase
    (i : Nat) (op : ClientOp) (phase : Phase) :
    (c.setPhase i op phase).procs = c.procs :=
  rfl

@[simp] theorem procs_finish
    (i : Nat) (op : ClientOp) (a : Answer) :
    (c.finish i op a).procs = c.procs :=
  rfl

@[simp] theorem procs_answer
    (id : Nat) (resp : Option Response) :
    (c.answer id resp).procs = c.procs := by
  cases resp <;> rfl

@[simp] theorem election_restart
    (store : Store) :
    ((c.restart x store).procs y).election =
      if y = x then .idle else (c.procs y).election := by
  unfold restart setProc
  by_cases h : y = x
  · subst h
    simp [startProc]
  · simp [h]

end Election

section Sender

@[simp] theorem sender_setNode
    (n : Node) :
    ((c.setNode x n).procs y).sender = (c.procs y).sender := by
  unfold setNode setProc
  by_cases h : y = x
  · subst h
    simp
  · simp [h]

@[simp] theorem sender_setElection
    (e : Election) :
    ((c.setElection x e).procs y).sender = (c.procs y).sender := by
  unfold setElection setProc
  by_cases h : y = x
  · subst h
    simp
  · simp [h]

@[simp] theorem sender_setSender
    (s : Sender) :
    ((c.setSender x p s).procs y).sender q =
      if y = x ∧ q = p then s else (c.procs y).sender q := by
  unfold setSender setProc
  by_cases h : y = x
  · subst h
    by_cases h' : q = p
    · subst h'
      simp
    · simp [h']
  · simp [h]

@[simp] theorem sender_restart
    (store : Store) :
    ((c.restart x store).procs y).sender q =
      if y = x then .idle else (c.procs y).sender q := by
  unfold restart setProc
  by_cases h : y = x
  · subst h
    simp [startProc]
  · simp [h]

end Sender

section Messages

@[simp] theorem calls_setNode (n : Node) :
    (c.setNode x n).calls = c.calls :=
  rfl

@[simp] theorem calls_setElection (e : Election) :
    (c.setElection x e).calls = c.calls :=
  rfl

@[simp] theorem calls_setSender (s : Sender) :
    (c.setSender x p s).calls = c.calls :=
  rfl

@[simp] theorem calls_setOp (i : Nat) (op : ClientOp) :
    (c.setOp i op).calls = c.calls :=
  rfl

@[simp] theorem calls_setPhase (i : Nat) (op : ClientOp) (phase : Phase) :
    (c.setPhase i op phase).calls = c.calls :=
  rfl

@[simp] theorem calls_record (es : List Event) :
    (c.record es).calls = c.calls :=
  rfl

@[simp] theorem calls_send (call : Call) :
    (c.send call).calls = c.calls ++ [call] :=
  rfl

@[simp] theorem calls_answer (id : Nat) (resp : Option Response) :
    (c.answer id resp).calls = c.calls := by
  cases resp <;> rfl

@[simp] theorem calls_finish (i : Nat) (op : ClientOp) (a : Answer) :
    (c.finish i op a).calls = c.calls :=
  rfl

@[simp] theorem calls_restart (store : Store) :
    (c.restart x store).calls = c.calls :=
  rfl

@[simp] theorem replies_setNode (n : Node) :
    (c.setNode x n).replies = c.replies :=
  rfl

@[simp] theorem replies_setElection (e : Election) :
    (c.setElection x e).replies = c.replies :=
  rfl

@[simp] theorem replies_setSender (s : Sender) :
    (c.setSender x p s).replies = c.replies :=
  rfl

@[simp] theorem replies_setOp (i : Nat) (op : ClientOp) :
    (c.setOp i op).replies = c.replies :=
  rfl

@[simp] theorem replies_setPhase (i : Nat) (op : ClientOp) (phase : Phase) :
    (c.setPhase i op phase).replies = c.replies :=
  rfl

@[simp] theorem replies_record (es : List Event) :
    (c.record es).replies = c.replies :=
  rfl

@[simp] theorem replies_send (call : Call) :
    (c.send call).replies = c.replies :=
  rfl

@[simp] theorem replies_answer (id : Nat) (resp : Option Response) :
    (c.answer id resp).replies = c.replies ++ (resp.map fun r => (id, r)).toList := by
  cases resp <;> simp [answer]

@[simp] theorem replies_finish (i : Nat) (op : ClientOp) (a : Answer) :
    (c.finish i op a).replies = c.replies :=
  rfl

@[simp] theorem replies_restart (store : Store) :
    (c.restart x store).replies = c.replies :=
  rfl

end Messages

section Events

@[simp] theorem events_setNode (n : Node) :
    (c.setNode x n).events = c.events :=
  rfl

@[simp] theorem events_setElection (e : Election) :
    (c.setElection x e).events = c.events :=
  rfl

@[simp] theorem events_setSender (s : Sender) :
    (c.setSender x p s).events = c.events :=
  rfl

@[simp] theorem events_setOp (i : Nat) (op : ClientOp) :
    (c.setOp i op).events = c.events :=
  rfl

@[simp] theorem events_setPhase (i : Nat) (op : ClientOp) (phase : Phase) :
    (c.setPhase i op phase).events = c.events :=
  rfl

@[simp] theorem events_record (es : List Event) :
    (c.record es).events = c.events ++ es :=
  rfl

@[simp] theorem events_send (call : Call) :
    (c.send call).events = c.events :=
  rfl

@[simp] theorem events_answer (id : Nat) (resp : Option Response) :
    (c.answer id resp).events = c.events := by
  cases resp <;> rfl

@[simp] theorem events_finish (i : Nat) (op : ClientOp) (a : Answer) :
    (c.finish i op a).events = c.events ++ [.returned i a] :=
  rfl

@[simp] theorem events_restart (store : Store) :
    (c.restart x store).events = c.events :=
  rfl

end Events

section Ops

@[simp] theorem ops_setNode (n : Node) :
    (c.setNode x n).ops = c.ops :=
  rfl

@[simp] theorem ops_setElection (e : Election) :
    (c.setElection x e).ops = c.ops :=
  rfl

@[simp] theorem ops_setSender (s : Sender) :
    (c.setSender x p s).ops = c.ops :=
  rfl

@[simp] theorem ops_record (es : List Event) :
    (c.record es).ops = c.ops :=
  rfl

@[simp] theorem ops_send (call : Call) :
    (c.send call).ops = c.ops :=
  rfl

@[simp] theorem ops_answer (id : Nat) (resp : Option Response) :
    (c.answer id resp).ops = c.ops := by
  cases resp <;> rfl

@[simp] theorem ops_setOp (i : Nat) (op : ClientOp) :
    (c.setOp i op).ops = c.ops.set i op :=
  rfl

@[simp] theorem ops_setPhase (i : Nat) (op : ClientOp) (phase : Phase) :
    (c.setPhase i op phase).ops = c.ops.set i { op with phase := phase } :=
  rfl

@[simp] theorem ops_finish (i : Nat) (op : ClientOp) (a : Answer) :
    (c.finish i op a).ops = c.ops.set i { op with phase := .done } :=
  rfl

end Ops

section SenderReturns

variable (owner : Option Nat) (inSync : Bool)

/-- The end of `replicatePeer` frees the sender and may count for a read. -/
theorem senderReturns_cases :
    c.senderReturns x p owner inSync = c.setSender x p .idle ∨
      ∃ i op pending k, owner = some i ∧ c.ops[i]? = some op ∧
        op.phase = .confirming pending k ∧
        c.senderReturns x p owner inSync =
          (c.setSender x p .idle).setPhase i op
            (.confirming (pending.erase p) (if inSync then k + 1 else k)) := by
  unfold senderReturns
  cases owner with
  | none =>
      exact Or.inl rfl
  | some i =>
      simp only [ops_setSender]
      cases hop : c.ops[i]? with
      | none =>
          exact Or.inl rfl
      | some op =>
          simp only
          cases hphase : op.phase with
          | confirming pending k =>
              exact Or.inr ⟨i, op, pending, k, rfl, hop, hphase, rfl⟩
          | _ =>
              exact Or.inl rfl

@[simp] theorem node_senderReturns :
    (c.senderReturns x p owner inSync).node y = c.node y := by
  rcases senderReturns_cases c x p owner inSync with h | ⟨i, op, pending, k, -, -, -, h⟩ <;>
    simp [h]

@[simp] theorem election_senderReturns :
    ((c.senderReturns x p owner inSync).procs y).election = (c.procs y).election := by
  rcases senderReturns_cases c x p owner inSync with h | ⟨i, op, pending, k, -, -, -, h⟩ <;>
    simp [h]

@[simp] theorem sender_senderReturns :
    ((c.senderReturns x p owner inSync).procs y).sender q =
      if y = x ∧ q = p then .idle else (c.procs y).sender q := by
  rcases senderReturns_cases c x p owner inSync with h | ⟨i, op, pending, k, -, -, -, h⟩ <;>
    simp [h]

@[simp] theorem calls_senderReturns :
    (c.senderReturns x p owner inSync).calls = c.calls := by
  rcases senderReturns_cases c x p owner inSync with h | ⟨i, op, pending, k, -, -, -, h⟩ <;>
    simp [h]

@[simp] theorem replies_senderReturns :
    (c.senderReturns x p owner inSync).replies = c.replies := by
  rcases senderReturns_cases c x p owner inSync with h | ⟨i, op, pending, k, -, -, -, h⟩ <;>
    simp [h]

@[simp] theorem events_senderReturns :
    (c.senderReturns x p owner inSync).events = c.events := by
  rcases senderReturns_cases c x p owner inSync with h | ⟨i, op, pending, k, -, -, -, h⟩ <;>
    simp [h]

end SenderReturns

section Step

/-- An action is a delivery, a crash, or a step of an election, of a sender or of a
client call. -/
theorem step_cases
    {cfg : Config} {c c' : Cluster} {a : Action}
    (hstep : c.step cfg a = some c') :
    (∃ id os call, a = .deliver id os ∧ c.calls[id]? = some call ∧
      c' = c.handle cfg id call os) ∨
    (∃ x, a = .crash x ∧ x ∈ cfg.members ∧ c' = c.restart x (c.node x).store) ∨
    c.electionStep cfg a = some c' ∨ c.senderStep cfg a = some c' ∨
      c.clientStep cfg a = some c' := by
  unfold step at hstep
  split at hstep
  · split at hstep
    · next call hcall =>
        cases hstep
        exact Or.inl ⟨_, _, call, rfl, hcall, rfl⟩
    · cases hstep
  · obtain ⟨hx, hstep⟩ := Option.ite_none_right_eq_some.mp hstep
    cases hstep
    exact Or.inr (Or.inl ⟨_, rfl, hx, rfl⟩)
  · split at hstep
    · next helection =>
        cases hstep
        exact Or.inr (Or.inr (Or.inl helection))
    · split at hstep
      · next hsender =>
          cases hstep
          exact Or.inr (Or.inr (Or.inr (Or.inl hsender)))
      · exact Or.inr (Or.inr (Or.inr (Or.inr hstep)))

end Step

end Cluster
end LogReplicator
