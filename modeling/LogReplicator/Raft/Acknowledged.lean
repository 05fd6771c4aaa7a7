import LogReplicator.Raft.StateMachine
import LogReplicator.Raft.Turns

/-!
# Acknowledged writes are committed

A write waits for the entry that its leader appended for it, and returns when the
commit index of that node has reached the entry.  The entry is in the log of the
leader of its term for good; what the commit index has reached is that entry if
the node still leads the term, or still has an entry of that term there.
-/

namespace LogReplicator

open Library Library.Consensus

namespace Cluster

/-- No call starts to wait for an entry, and none returns. -/
structure Attends (c c' : Cluster) : Prop where
  waiting : ∀ (i : Nat) (op : ClientOp) (index term : Nat), c'.ops[i]? = some op →
    op.phase = .waiting index term → c.ops[i]? = some op
  returned : ∀ i answer, .returned i answer ∈ c'.events → .returned i answer ∈ c.events

/-- Where the waiting calls and the answers to writes come from. -/
structure Serves (c : Cluster) (a : Action) (c' : Cluster) : Prop where
  waiting : ∀ (i : Nat) (op : ClientOp) (index term : Nat), c'.ops[i]? = some op →
    op.phase = .waiting index term → c.ops[i]? = some op ∨ ∃ os, a = .propose i os
  written : ∀ i x index term, .returned i (.written x index term) ∈ c'.events →
    .returned i (.written x index term) ∈ c.events ∨
      (a = .poll i ∧ ∃ op, c.ops[i]? = some op ∧ op.node = x ∧
        op.phase = .waiting index term ∧ index ≤ (c.node x).commitIndex)

section Attends

variable {c c' c'' : Cluster} {x p : String} {i : Nat} {op : ClientOp}

theorem Attends.trans
    (h : c.Attends c')
    (h' : c'.Attends c'') :
    c.Attends c'' where
  waiting := fun i op index term hop hphase =>
    h.waiting i op index term (h'.waiting i op index term hop hphase) hphase
  returned := fun i answer hmem => h.returned i answer (h'.returned i answer hmem)

theorem attends_of_eq
    (hops : c'.ops = c.ops)
    (hevents : c'.events = c.events) :
    c.Attends c' :=
  ⟨fun _ _ _ _ hop _ => hops ▸ hop, fun _ _ hmem => hevents ▸ hmem⟩

theorem attends_setNode
    (n : Node) :
    c.Attends (c.setNode x n) :=
  attends_of_eq rfl rfl

theorem attends_setElection
    (e : Election) :
    c.Attends (c.setElection x e) :=
  attends_of_eq rfl rfl

theorem attends_setSender
    (s : Sender) :
    c.Attends (c.setSender x p s) :=
  attends_of_eq rfl rfl

theorem attends_send
    (call : Call) :
    c.Attends (c.send call) :=
  attends_of_eq rfl rfl

theorem attends_answer
    (id : Nat) (resp : Option Response) :
    c.Attends (c.answer id resp) :=
  attends_of_eq (ops_answer c id resp) (events_answer c id resp)

theorem attends_record
    {es : List Event}
    (hes : ∀ i answer, .returned i answer ∉ es) :
    c.Attends (c.record es) :=
  ⟨fun _ _ _ _ hop _ => hop,
    fun i answer hmem => (List.mem_append.mp hmem).resolve_right (hes i answer)⟩

theorem attends_setOp
    (hphase : ∀ index term, op.phase ≠ .waiting index term) :
    c.Attends (c.setOp i op) := by
  refine ⟨fun j d index term hd hwaits => ?_, fun _ _ hmem => hmem⟩
  rw [ops_setOp, List.getElem?_set] at hd
  split_ifs at hd
  · cases hd
    exact absurd hwaits (hphase index term)
  · exact hd

theorem attends_setPhase
    {phase : Phase}
    (hphase : ∀ index term, phase ≠ .waiting index term) :
    c.Attends (c.setPhase i op phase) :=
  attends_setOp hphase

theorem attends_senderReturns
    (owner : Option Nat) (inSync : Bool) :
    c.Attends (c.senderReturns x p owner inSync) := by
  rcases senderReturns_cases c x p owner inSync with h | ⟨i, op, pending, k, -, -, -, h⟩
  · rw [h]
    exact attends_setSender .idle
  · rw [h]
    exact (attends_setSender .idle).trans (attends_setPhase fun _ _ => by simp)

theorem attends_requestVotes
    (round : Candidacy) (ps : List String) :
    c.Attends (c.requestVotes x round ps).1 := by
  induction ps generalizing c with
  | nil =>
      exact attends_of_eq rfl rfl
  | cons q ps ih =>
      exact (attends_send _).trans ih

theorem attends_restart
    (store : Store) :
    c.Attends (c.restart x store) := by
  refine ⟨fun j d index term hd hwaits => ?_, fun _ _ hmem => hmem⟩
  obtain ⟨op, hop, rfl⟩ := Option.map_eq_some_iff.mp (List.getElem?_map ▸ hd)
  split_ifs at hwaits ⊢
  exact hop

theorem returned_notMem_commitEvent
    (o : Options) (n : Node) (i : Nat) (answer : Answer) :
    .returned i answer ∉ commitEvent o n := by
  unfold commitEvent
  split_ifs <;> simp

theorem attends_commitEvent
    {b : Prop} [Decidable b] (o : Options) (n : Node) :
    c.Attends (c.record (if b then commitEvent o n else [])) := by
  refine attends_record fun i answer => ?_
  split_ifs
  · exact returned_notMem_commitEvent o n i answer
  · simp

/-- A section changes a node, or ends with a crash. -/
theorem attends_runSection
    {α : Type} {m : Txn Node α} {os : List Outcome} {k : Cluster → α → Cluster}
    (hbefore : c.Attends c')
    (hk : ∀ n r, (c'.setNode x n).Attends (k (c'.setNode x n) r)) :
    c.Attends (c'.runSection x m os k) := by
  unfold runSection
  rcases m os (c'.node x) with ⟨_ | r, n, os'⟩
  · exact hbefore.trans (attends_restart n.store)
  · exact (hbefore.trans (attends_setNode n)).trans (hk n r)

theorem Attends.refl
    (c : Cluster) :
    c.Attends c :=
  attends_of_eq rfl rfl

theorem Attends.serves
    {a : Action}
    (h : c.Attends c') :
    c.Serves a c' :=
  ⟨fun i op index term hop hphase => Or.inl (h.waiting i op index term hop hphase),
    fun i _ _ _ hmem => Or.inl (h.returned i _ hmem)⟩

theorem Attends.then_serves
    {a : Action}
    (h : c.Attends c')
    (ha : ∀ i, a ≠ .poll i)
    (h' : c'.Serves a c'') :
    c.Serves a c'' := by
  refine ⟨fun j d index term hd hwaits => ?_, fun j y index term hmem => ?_⟩
  · exact (h'.waiting j d index term hd hwaits).imp_left
      (h.waiting j d index term · hwaits)
  · rcases h'.written j y index term hmem with hmem | ⟨hpoll, -⟩
    · exact Or.inl (h.returned j _ hmem)
    · exact absurd hpoll (ha j)

theorem serves_runSection
    {α : Type} {a : Action} {m : Txn Node α} {os : List Outcome} {k : Cluster → α → Cluster}
    (hbefore : c.Attends c')
    (ha : ∀ i, a ≠ .poll i)
    (hk : ∀ n r, (c'.setNode x n).Serves a (k (c'.setNode x n) r)) :
    c.Serves a (c'.runSection x m os k) := by
  unfold runSection
  rcases m os (c'.node x) with ⟨_ | r, n, os'⟩
  · exact (hbefore.trans (attends_restart n.store)).serves
  · exact (hbefore.trans (attends_setNode n)).then_serves ha (hk n r)

end Attends

section Steps

variable {cfg : Config} {c c' : Cluster} {a : Action}

theorem electionStep_attends
    (hstep : c.electionStep cfg a = some c') :
    c.Attends c' := by
  cases a with
  | campaign x os =>
      simp only [electionStep] at hstep
      obtain ⟨-, hstep⟩ := Option.ite_none_right_eq_some.mp hstep
      cases hstep
      unfold startElection
      refine attends_runSection (Attends.refl c) fun n candidacy => ?_
      cases candidacy with
      | none =>
          exact Attends.refl _
      | some round =>
          simp only
          split_ifs
          · exact attends_of_eq rfl rfl
          · exact (attends_requestVotes round _).trans (attends_of_eq rfl rfl)
  | countVote x peer id resp os =>
      simp only [electionStep] at hstep
      split at hstep
      · obtain ⟨-, hstep⟩ := Option.ite_none_right_eq_some.mp hstep
        cases hstep
        refine attends_runSection (Attends.refl c) fun n higher => ?_
        split_ifs <;> exact attends_of_eq rfl rfl
      · cases hstep
  | missVote x peer id =>
      simp only [electionStep] at hstep
      split at hstep
      · obtain ⟨-, hstep⟩ := Option.ite_none_right_eq_some.mp hstep
        cases hstep
        exact attends_of_eq rfl rfl
      · cases hstep
  | loseElection x =>
      simp only [electionStep] at hstep
      split at hstep
      · obtain ⟨-, hstep⟩ := Option.ite_none_right_eq_some.mp hstep
        cases hstep
        exact attends_of_eq rfl rfl
      · cases hstep
  | winElection x os =>
      simp only [electionStep] at hstep
      split at hstep
      · obtain ⟨-, hstep⟩ := Option.ite_none_right_eq_some.mp hstep
        cases hstep
        refine attends_runSection (Attends.refl c) fun n won => ?_
        cases won
        · exact attends_of_eq rfl rfl
        · exact (attends_setElection _).trans (attends_record fun _ _ => by simp)
      · cases hstep
  | commitAlone x os =>
      simp only [electionStep] at hstep
      split at hstep
      · cases hstep
        refine attends_runSection ?_ fun n _ => Attends.refl _
        exact (attends_record (returned_notMem_commitEvent _ _)).trans (attends_of_eq rfl rfl)
      · cases hstep
  | _ => cases hstep

theorem handle_attends
    (id : Nat) (call : Call) (os : List Outcome) :
    c.Attends (c.handle cfg id call os) := by
  obtain ⟨src, dst, request⟩ := call
  cases request <;> simp only [handle] <;>
    exact attends_runSection (Attends.refl c) fun n _ => attends_answer _ _

theorem sendEntries_attends
    {x p : String}
    (hstep : c.senderStep cfg (.sendEntries x p) = some c') :
    c.Attends c' := by
  simp only [senderStep] at hstep
  split at hstep
  · rcases buildAppendRequestLocked_cases (c.node x) (cfg.options x) p with
      ⟨next, hbuild⟩ | ⟨prevLogTerm, -, hbuild⟩
    · rw [hbuild] at hstep
      simp only at hstep
      split_ifs at hstep
      all_goals cases hstep
      · exact attends_of_eq rfl rfl
      · exact (attends_setNode _).trans (attends_senderReturns _ _)
    · rw [hbuild] at hstep
      cases hstep
      exact attends_of_eq rfl rfl
  · cases hstep

theorem senderStep_attends
    (hstep : c.senderStep cfg a = some c') :
    c.Attends c' := by
  cases a with
  | replicate x p owner =>
      simp only [senderStep] at hstep
      obtain ⟨-, hstep⟩ := Option.ite_none_right_eq_some.mp hstep
      split at hstep
      · cases hstep
        exact attends_of_eq rfl rfl
      · split at hstep
        · obtain ⟨-, hstep⟩ := Option.ite_none_right_eq_some.mp hstep
          cases hstep
          exact attends_of_eq rfl rfl
        · cases hstep
  | giveUp x p =>
      simp only [senderStep] at hstep
      split at hstep
      · cases hstep
        exact attends_senderReturns _ _
      · cases hstep
  | checkLeader x p =>
      simp only [senderStep] at hstep
      split at hstep
      · split_ifs at hstep
        all_goals cases hstep
        · exact attends_of_eq rfl rfl
        · exact attends_senderReturns _ _
      · cases hstep
  | checkSnapshot x p =>
      simp only [senderStep] at hstep
      split at hstep
      · split_ifs at hstep
        all_goals
          cases hstep
          exact attends_of_eq rfl rfl
      · cases hstep
  | sendEntries x p => exact sendEntries_attends hstep
  | sendSnapshot x p =>
      simp only [senderStep] at hstep
      split at hstep
      · cases hstep
        exact attends_of_eq rfl rfl
      · cases hstep
  | callFails x p =>
      simp only [senderStep] at hstep
      split at hstep
      · cases hstep
        exact attends_senderReturns _ _
      · cases hstep
        exact attends_senderReturns _ _
      · cases hstep
  | appendReply x p resp os =>
      simp only [senderStep] at hstep
      split at hstep
      · obtain ⟨-, hstep⟩ := Option.ite_none_right_eq_some.mp hstep
        cases hstep
        refine attends_runSection (Attends.refl c) fun n higher => ?_
        split_ifs
        · exact attends_senderReturns _ _
        · exact attends_of_eq rfl rfl
      · cases hstep
  | appendDone x p os =>
      simp only [senderStep] at hstep
      split at hstep
      · next round owner req resp _ =>
          cases hstep
          refine attends_runSection (attends_commitEvent _ _) fun n outcome => ?_
          cases outcome with
          | accepted => exact attends_senderReturns _ _
          | failed => exact attends_senderReturns _ _
          | rejected =>
              by_cases hround : round + 1 < maxAppendRounds
              · simp only [if_pos hround]
                exact attends_of_eq rfl rfl
              · simp only [if_neg hround]
                exact attends_senderReturns _ _
      · cases hstep
  | snapshotReply x p resp os =>
      simp only [senderStep] at hstep
      split at hstep
      · obtain ⟨-, hstep⟩ := Option.ite_none_right_eq_some.mp hstep
        cases hstep
        refine attends_runSection (Attends.refl c) fun n higher => ?_
        split_ifs
        · exact attends_senderReturns _ _
        · exact attends_of_eq rfl rfl
      · cases hstep
  | snapshotDone x p os =>
      simp only [senderStep] at hstep
      split at hstep
      · cases hstep
        exact attends_runSection (attends_commitEvent _ _) fun n _ => attends_senderReturns _ _
      · cases hstep
  | _ => cases hstep

/-- A call returns with something else than an acknowledgement. -/
theorem serves_finish
    {i : Nat} {op : ClientOp} {answer : Answer}
    (hanswer : ∀ x index term, answer ≠ .written x index term) :
    c.Serves a (c.finish i op answer) := by
  refine ⟨fun j d index term hd hwaits => ?_, fun j x index term hmem => ?_⟩
  · exact Or.inl ((attends_setPhase (by simp)).waiting j d index term hd hwaits)
  · simp only [events_finish, List.mem_append, List.mem_singleton, Event.returned.injEq] at hmem
    rcases hmem with hmem | ⟨-, heq⟩
    · exact Or.inl hmem
    · exact absurd heq.symm (hanswer x index term)

/-- `waitForCommit` returns. -/
theorem serves_poll
    {i index term : Nat} {op : ClientOp}
    (hop : c.ops[i]? = some op)
    (hphase : op.phase = .waiting index term)
    (hpoll : (c.node op.node).pollCommit index term = some (.ok ())) :
    c.Serves (.poll i) (c.finish i op (.written op.node index term)) := by
  have hcommit : index ≤ (c.node op.node).commitIndex := by
    unfold Node.pollCommit at hpoll
    split_ifs at hpoll with hle
    · exact hle
    · simp at hpoll
  refine ⟨fun j d k t hd hwaits => ?_, fun j x k t hmem => ?_⟩
  · exact Or.inl ((attends_setPhase (by simp)).waiting j d k t hd hwaits)
  · simp only [events_finish, List.mem_append, List.mem_singleton, Event.returned.injEq,
      Answer.written.injEq] at hmem
    rcases hmem with hmem | ⟨rfl, rfl, rfl, rfl⟩
    · exact Or.inl hmem
    · exact Or.inr ⟨rfl, op, hop, rfl, hphase, hcommit⟩

/-- A new call waits for nothing. -/
theorem invoke_serves
    {x : String} {req : ClientRequest}
    (hstep : c.clientStep cfg (.invoke x req) = some c') :
    c.Serves (.invoke x req) c' := by
  simp only [clientStep] at hstep
  obtain ⟨-, hstep⟩ := Option.ite_none_right_eq_some.mp hstep
  generalize hc₁ : ({ c with ops := c.ops ++ [(⟨req, x, false, .routing⟩ : ClientOp)] } :
    Cluster).record [.invoked c.ops.length] = c₁ at hstep
  have hnew : c.Attends c₁ := by
    subst hc₁
    refine ⟨fun j d index term hd hwaits => ?_, fun j answer hmem => by simpa [record] using hmem⟩
    rw [ops_record, List.getElem?_append] at hd
    split_ifs at hd
    · exact hd
    · rw [List.getElem?_singleton] at hd
      split_ifs at hd
      cases hd
      cases hwaits
  split_ifs at hstep
  all_goals cases hstep
  · exact hnew.then_serves (by simp) (serves_finish (by simp))
  · exact hnew.serves

/-- Only the call whose entry is appended may start to wait. -/
theorem serves_waits
    {i : Nat} {op : ClientOp} {phase : Phase} {os : List Outcome} :
    c.Serves (.propose i os) (c.setPhase i op phase) := by
  refine ⟨fun j d index term hd _ => ?_, fun _ _ _ _ hmem => Or.inl hmem⟩
  rw [ops_setPhase, List.getElem?_set] at hd
  split_ifs at hd with hij
  · exact Or.inr ⟨os, by rw [hij]⟩
  · exact Or.inl hd


theorem propose_serves
    {i : Nat} {os : List Outcome}
    (hstep : c.clientStep cfg (.propose i os) = some c') :
    c.Serves (.propose i os) c' := by
  simp only [clientStep] at hstep
  split at hstep
  · next op hop =>
      split at hstep
      · cases hstep
        refine serves_runSection (attends_commitEvent _ _) (by simp) fun n r => ?_
        rcases r with status | ⟨entry, term⟩
        · exact serves_finish (by simp)
        · exact serves_waits
      · cases hstep
  · cases hstep

theorem clientStep_serves
    (hstep : c.clientStep cfg a = some c') :
    c.Serves a c' := by
  cases a with
  | invoke x req =>
      exact invoke_serves hstep
  | route i =>
      simp only [clientStep] at hstep
      split at hstep
      · obtain ⟨hphase, hstep⟩ := Option.ite_none_right_eq_some.mp hstep
        split at hstep
        · cases hstep
          exact serves_finish (by simp)
        · cases hstep
          exact (attends_setOp (by simp [hphase])).serves
        · split at hstep
          all_goals
            cases hstep
            exact (attends_setPhase (by simp)).serves
      · cases hstep
  | propose i os =>
      exact propose_serves hstep
  | poll i =>
      simp only [clientStep] at hstep
      split at hstep
      · next op hop =>
          split at hstep
          · next index term hphase =>
              split at hstep
              · cases hstep
                exact (Attends.refl c).serves
              · next hpoll =>
                  cases hstep
                  exact serves_poll hop hphase hpoll
              · cases hstep
                exact serves_finish (by simp)
          · cases hstep
      · cases hstep
  | expire i =>
      simp only [clientStep] at hstep
      split at hstep
      · split at hstep
        · cases hstep
        · cases hstep
          exact serves_finish (by simp)
        · cases hstep
          exact (attends_record (by simp)).serves
      · cases hstep
  | confirm i =>
      simp only [clientStep] at hstep
      split at hstep
      · split at hstep
        · split at hstep
          all_goals cases hstep
          · exact (attends_setPhase (by simp)).serves
          · exact serves_finish (by simp)
        · cases hstep
      · cases hstep
  | readKey i =>
      simp only [clientStep] at hstep
      split at hstep
      · obtain ⟨-, hstep⟩ := Option.ite_none_right_eq_some.mp hstep
        cases hstep
        refine serves_finish fun x index term => ?_
        unfold Node.readKey
        split <;> simp
      · cases hstep
  | _ => cases hstep

theorem step_serves
    (hstep : c.step cfg a = some c') :
    c.Serves a c' := by
  rcases step_cases hstep with ⟨id, os, call, rfl, -, rfl⟩ | ⟨x, rfl, -, rfl⟩ |
    helection | hsender | hclient
  · exact (handle_attends id call os).serves
  · exact (attends_restart _).serves
  · exact (electionStep_attends helection).serves
  · exact (senderStep_attends hsender).serves
  · exact clientStep_serves hclient

/-- A step as a transition; the entry of a call that starts to wait is among its
moves. -/
theorem step_waits
    {faulty : Prop}
    (h : c.Threads cfg)
    (husual : Usual faulty c a)
    (hstep : c.step cfg a = some c') :
    ∃ x ls, Transition cfg faulty c a c' x ls ∧
      ∀ i os, a = .propose i os → Waits cfg c' i x ls := by
  by_cases hpropose : ∃ i os, a = .propose i os
  · obtain ⟨i, os, rfl⟩ := hpropose
    have hclient : c.clientStep cfg (.propose i os) = some c' := hstep
    have hcases := hclient
    simp only [clientStep] at hcases
    split at hcases
    · next op hop =>
        split at hcases
        · next cmd hphase hcmd =>
            obtain ⟨x, ls, T, -, hwaits⟩ :=
              propose_next h hop hphase hcmd husual.1 hclient
            refine ⟨x, ls, T, fun j os' heq => ?_⟩
            cases heq
            exact hwaits
        · cases hcases
    · cases hcases
  · obtain ⟨x, ls, T, -⟩ := step_next h husual.1 husual.2 hstep
    exact ⟨x, ls, T, fun i os heq => absurd ⟨i, os, heq⟩ hpropose⟩

end Steps

/-- The log of the leader of the term has the entry of the request. -/
def Owed (cfg : Config) (σ : State String Entry) (req : ClientRequest) (index term : Nat) :
    Prop :=
  ∃ cmd, req.command = some cmd ∧
    (σ.llog term)[index - 1]? = some ⟨index, term, cmd.encode cfg.json⟩

/-- The entry of the request is committed. -/
def Settled (cfg : Config) (σ : State String Entry) (req : ClientRequest)
    (index term : Nat) : Prop :=
  Owed cfg σ req index term ∧
    ∃ t, CommittedBy Entry.term cfg.Quorum σ t ((σ.llog term).take index)

/-- What waiting and acknowledged writes stand for. -/
structure Promised (cfg : Config) (σ : State String Entry) (c : Cluster) : Prop where
  waiting : ∀ (i : Nat) (op : ClientOp) (index term : Nat), c.ops[i]? = some op →
    op.phase = .waiting index term → Owed cfg σ op.request index term
  written : ∀ i x index term, .returned i (.written x index term) ∈ c.events →
    ∃ req, (c.ops.map ClientOp.request)[i]? = some req ∧ Settled cfg σ req index term

/-- A call returns for the commit index of a node that still leads the term of its
entry, or still has an entry of that term at its place. -/
def AnsweredBy (n : Node) (op : ClientOp) : Prop :=
  match op.phase with
  | .waiting index term => index ≤ n.commitIndex →
      (n.role = .leader ∧ n.currentTerm = term) ∨ n.store.term index = some term
  | _ => True

/-- The step acknowledges no entry that may have been replaced. -/
def Answerable (c : Cluster) : Action → Prop
  | .poll i => ∀ op ∈ c.ops[i]?, AnsweredBy (c.node op.node) op
  | _ => True

section Promises

variable {cfg : Config} {c c' : Cluster} {a : Action} {x : String} {ls : List Label}
variable {σ σ' : State String Entry} {g : String → Nat → String → Prop}

theorem promised_init :
    Promised cfg Consensus.init init :=
  ⟨by simp [init], by simp [init]⟩

theorem Owed.mono
    {req : ClientRequest} {index term : Nat}
    (h : Owed cfg σ req index term)
    (hg : Grows σ σ') :
    Owed cfg σ' req index term := by
  obtain ⟨cmd, hcmd, hat⟩ := h
  exact ⟨cmd, hcmd, getElem?_prefix_eq (hg.llog term) hat⟩

theorem Settled.mono
    {req : ClientRequest} {index term : Nat}
    (h : Settled cfg σ req index term)
    (hg : Grows σ σ') :
    Settled cfg σ' req index term := by
  obtain ⟨howed, t, hcommitted⟩ := h
  refine ⟨howed.mono hg, t, ?_⟩
  obtain ⟨cmd, -, hat⟩ := howed
  obtain ⟨hlt, -⟩ := List.getElem?_eq_some_iff.mp hat
  rw [take_prefix_eq (hg.llog term) (by omega)]
  exact hg.committed le_rfl hcommitted

/-- The commit index of such a node has reached the entry itself. -/
theorem Refines.settled
    (h : Refines cfg σ c)
    {req : ClientRequest} {index term : Nat}
    (howed : Owed cfg σ req index term)
    (hcommit : index ≤ (c.node x).commitIndex)
    (hanswered : ((c.node x).role = .leader ∧ (c.node x).currentTerm = term) ∨
      (c.node x).store.term index = some term) :
    Settled cfg σ req index term := by
  refine ⟨howed, (c.node x).currentTerm, ?_⟩
  obtain ⟨cmd, -, hat⟩ := howed
  have hpos : index = index - 1 + 1 := (h.indexed term).index_eq hat
  obtain ⟨hlt, -⟩ := List.getElem?_eq_some_iff.mp hat
  have htracks := h.nodes x
  have hsame : (σ.log x).take index = (σ.llog term).take index := by
    rcases hanswered with ⟨hrole, rfl⟩ | hterm
    · rw [(htracks.leader hrole).log]
    · obtain ⟨hle, hterm⟩ := htracks.log.of_term hterm
      have hsucc := termAt_succ (τ := Entry.term) hat
      rw [← hpos] at hsucc
      exact (h.inv.log_matches x).take_eq (h.inv.llog_matches term) hle (by omega)
        (hterm.trans hsucc.symm)
  rw [← hsame]
  exact htracks.committed.mono le_rfl (List.take_prefix_take_left hcommit)

theorem Promised.step
    (hpromised : Promised cfg σ c)
    (h : Refines cfg σ c)
    (hanswerable : c.Answerable a)
    (hstep : c.step cfg a = some c')
    (hwaits : ∀ i os, a = .propose i os → Waits cfg c' i x ls)
    (halong : RefinesAlong cfg σ c' x ls (c'.node x) σ') :
    Promised cfg σ' c' := by
  have hg := Steps.grows h.inv halong.steps
  have hserves := step_serves hstep
  have hrequests := (step_turn hstep).requests
  refine ⟨fun i op index term hop hphase => ?_, fun i y index term hmem => ?_⟩
  · rcases hserves.waiting i op index term hop hphase with hold | ⟨os, ha⟩
    · exact (hpromised.waiting i op index term hold hphase).mono hg
    · obtain ⟨-, cmd, prevTerm, hcmd, hmem⟩ := hwaits i os ha op index term hop hphase
      exact ⟨cmd, hcmd, halong.done _ hmem⟩
  · obtain ⟨req, hreq, hsettled⟩ : ∃ req, (c.ops.map ClientOp.request)[i]? = some req ∧
        Settled cfg σ req index term := by
      rcases hserves.written i y index term hmem with hold |
        ⟨rfl, op, hop, rfl, hphase, hcommit⟩
      · exact hpromised.written i y index term hold
      · have hanswered : AnsweredBy (c.node op.node) op := hanswerable op hop
        rw [AnsweredBy, hphase] at hanswered
        exact ⟨op.request, by simp [hop],
          h.settled (hpromised.waiting i op index term hop hphase) hcommit
            (hanswered hcommit)⟩
    obtain ⟨new, hnew⟩ := hrequests
    obtain ⟨hlt, -⟩ := List.getElem?_eq_some_iff.mp hreq
    exact ⟨req, by rw [← hnew, List.getElem?_append_left hlt, hreq], hsettled.mono hg⟩

end Promises

section Runs

variable {cfg : Config} {as : List Action} {c : Cluster}

/-- An acknowledged write or delete is committed: the entry with the index and the
term of the answer and the command of the request is the one at its place of the
committed sequence, and every node whose commit index covers it has it there or has
compacted it. -/
theorem acknowledged_committed
    (halong : Along cfg (fun c a => c.Followable a ∧ c.Answerable a) init as)
    (hexec : init.exec cfg as = some c)
    {i index term : Nat} {x : String}
    (hreturned : .returned i (.written x index term) ∈ c.events) :
    ∃ op cmd l, c.ops[i]? = some op ∧ op.request.command = some cmd ∧ c.Commits cfg l ∧
      l[index - 1]? = some ⟨index, term, cmd.encode cfg.json⟩ ∧
      ∀ y ∈ cfg.members, index ≤ (c.node y).commitIndex →
        (c.node y).store.entry index = some ⟨index, term, cmd.encode cfg.json⟩ ∨
          index ≤ (c.node y).store.snapshotIndex := by
  obtain ⟨σ, hrefines, hpromised⟩ : ∃ σ, Refines cfg σ c ∧ Promised cfg σ c := by
    refine exec_refines_with (fun _ _ h => h.1) promised_init ?_ halong hexec
    intro g σ c a c' hthreads hvotes hrefines hok hc' hpromised
    obtain ⟨x, ls, T, hwaits⟩ := step_waits hthreads
      (show Usual False c a from ⟨fun hfail => hok.1.commits hfail, hok.1.terms⟩) hc'
    obtain ⟨σ', hpath, -⟩ := hrefines.path (Q := fun _ _ => True) hok.1 hthreads hvotes T
      trivial fun _ _ _ _ _ _ _ _ => trivial
    exact ⟨x, ls, σ', T, hpath, hpromised.step hrefines hok.2 hc' hwaits hpath⟩
  obtain ⟨req, hreq, ⟨cmd, hcmd, hat⟩, t, hcommitted⟩ :=
    hpromised.written i x index term hreturned
  rw [List.getElem?_map] at hreq
  obtain ⟨op, hop, rfl⟩ := Option.map_eq_some_iff.mp hreq
  have hpos : index = index - 1 + 1 := (hrefines.indexed term).index_eq hat
  obtain ⟨l, hcommits, -, hextends⟩ := hrefines.commits [(σ.llog term).take index]
    fun l hl => ⟨t, List.mem_singleton.mp hl ▸ hcommitted⟩
  have hl : l[index - 1]? = some ⟨index, term, cmd.encode cfg.json⟩ := by
    refine getElem?_prefix_eq (hextends _ (List.mem_singleton_self _)) ?_
    rw [List.getElem?_take_of_lt (by omega), hat]
  refine ⟨op, cmd, l, hop, hcmd, hcommits, hl, fun y hy hcommit => ?_⟩
  rcases le_or_gt index (c.node y).store.snapshotIndex with hcovered | hlt
  · exact Or.inr hcovered
  · have hheld := hcommits.held y hy (index - 1) (by omega) (by omega)
    rw [← hpos, hl] at hheld
    exact Or.inl hheld

section Sample

open LogReplicator.Action

instance (n : Node) (op : ClientOp) : Decidable (AnsweredBy n op) :=
  match op with
  | ⟨_, _, _, .waiting _ _⟩ => inferInstanceAs (Decidable (_ → _))
  | ⟨_, _, _, .routing⟩ | ⟨_, _, _, .proposing⟩ | ⟨_, _, _, .confirming _ _⟩
  | ⟨_, _, _, .reading⟩ | ⟨_, _, _, .done⟩ => inferInstanceAs (Decidable True)

instance (c : Cluster) (a : Action) : Decidable (c.Answerable a) :=
  match a with
  | .poll i => inferInstanceAs (Decidable (∀ op ∈ c.ops[i]?, AnsweredBy (c.node op.node) op))
  | .campaign .. | .countVote .. | .missVote .. | .loseElection .. | .winElection ..
  | .commitAlone .. | .deliver .. | .replicate .. | .giveUp .. | .checkLeader ..
  | .checkSnapshot .. | .sendEntries .. | .sendSnapshot .. | .callFails .. | .appendReply ..
  | .appendDone .. | .snapshotReply .. | .snapshotDone .. | .invoke .. | .route ..
  | .propose .. | .expire .. | .confirm .. | .readKey .. | .crash .. =>
      inferInstanceAs (Decidable True)

/-- The write of `firstEntry` is committed and acknowledged. -/
def firstAnswer : List Action :=
  firstEntry ++ [appendReply "a" "b" ⟨1, true, 1⟩ [], appendDone "a" "b" [], poll 0]

theorem acknowledged_committed_firstAnswer :
    Along (trio fun _ => 0) (fun c a => c.Followable a ∧ c.Answerable a) init firstAnswer ∧
      ∃ c op cmd l, init.exec (trio fun _ => 0) firstAnswer = some c ∧
        .returned 0 (.written "a" 1 1) ∈ c.events ∧ c.ops[0]? = some op ∧
        op.request.command = some cmd ∧ c.Commits (trio fun _ => 0) l ∧
        l[0]? = some ⟨1, 1, cmd.encode Json.compact⟩ := by
  have halong : Along (trio fun _ => 0) (fun c a => c.Followable a ∧ c.Answerable a) init
      firstAnswer := by
    decide +kernel
  have hrun : ((init.exec (trio fun _ => 0) firstAnswer).map fun c =>
      decide (.returned 0 (.written "a" 1 1) ∈ c.events)) = some true := by
    decide +kernel
  obtain ⟨c, hexec, hevents⟩ := Option.map_eq_some_iff.mp hrun
  have hreturned := of_decide_eq_true hevents
  obtain ⟨op, cmd, l, hop, hcmd, hcommits, hl, -⟩ :=
    acknowledged_committed halong hexec hreturned
  exact ⟨halong, c, op, cmd, l, hexec, hreturned, hop, hcmd, hcommits, hl⟩

/-- `a` appends an entry in term 1 and sends it to nobody.  `b` leads term 2, commits
its own entry at the same index and sends it to `a`; then the write at `a` looks at
the commit index. -/
def overwrittenWrite : List Action :=
  elect "a" "b" 0 1 ++ proposal "a" 0 "k1" "v1" ++ elect "b" "c" 3 2 ++
    proposal "b" 1 "k2" "v2" ++ checks "b" "c" none ++ appendCall "b" "c" 4 2 1 true ++
    checks "b" "a" none ++ [sendEntries "b" "a", deliver 5 [], poll 0]

/-- The write of `k1` is acknowledged with index 1 and term 1, but the entry that was
committed at index 1, by `b` and on `a` itself, is the write of `k2` of term 2. -/
theorem false_acknowledgement_of_overwrittenWrite :
    Along (trio fun _ => 0) (fun c a => .fail ∉ a.outcomes ∧ c.TermsLeft a) init
        overwrittenWrite ∧
      ∃ c, init.exec (trio fun _ => 0) overwrittenWrite = some c ∧
        .returned 0 (.written "a" 1 1) ∈ c.events ∧
        (c.ops.map ClientOp.request)[0]? = some (.write "k1" "v1") ∧
        .committed "b" 2 1 [⟨1, 2, Command.encode Json.compact ⟨.set, "k2", "v2"⟩⟩] ∈
          c.events ∧
        (c.node "a").commitIndex = 1 ∧
        (c.node "a").store.entry 1 =
          some ⟨1, 2, Command.encode Json.compact ⟨.set, "k2", "v2"⟩⟩ := by
  have halong : Along (trio fun _ => 0) (fun c a => .fail ∉ a.outcomes ∧ c.TermsLeft a) init
      overwrittenWrite := by
    decide +kernel
  have hrun : ((init.exec (trio fun _ => 0) overwrittenWrite).map fun c =>
      decide (.returned 0 (.written "a" 1 1) ∈ c.events ∧
        (c.ops.map ClientOp.request)[0]? = some (.write "k1" "v1") ∧
        .committed "b" 2 1 [⟨1, 2, Command.encode Json.compact ⟨.set, "k2", "v2"⟩⟩] ∈
          c.events ∧
        (c.node "a").commitIndex = 1 ∧
        (c.node "a").store.entry 1 =
          some ⟨1, 2, Command.encode Json.compact ⟨.set, "k2", "v2"⟩⟩)) = some true := by
    decide +kernel
  obtain ⟨c, hexec, hstate⟩ := Option.map_eq_some_iff.mp hrun
  exact ⟨halong, c, hexec, of_decide_eq_true hstate⟩

end Sample

end Runs

end Cluster

end LogReplicator
