import LogReplicator.Raft.Voting

/-!
# The life of a client call

A call is routed, at most once to another node.  A write then proposes an entry and
waits for it, a read confirms the leadership of its node and looks the key up; either
way it returns once.  `CallStep` has what a step of the cluster can do to the calls and
to the answers of the history; the rest of the cluster counts the replies to a read and
drops the calls of a node that dies, nothing else.
-/

namespace LogReplicator

open Library

/-- The answers of a history, with the numbers of their calls. -/
def Event.answered : Event → Option (Nat × Answer)
  | .returned i answer => some (i, answer)
  | _ => none

/-- How far a call has got. -/
def Phase.rank : Phase → Nat
  | .routing => 0
  | .proposing => 1
  | .confirming _ _ => 1
  | .waiting _ _ => 2
  | .reading => 2
  | .done => 3

/-- The call fails if node `x` serves it. -/
def ClientOp.dropped (x : String) (op : ClientOp) : ClientOp :=
  if op.node = x then { op with phase := .done } else op

/-- What happens to a call until it returns. -/
inductive ClientOp.Moves (op : ClientOp) : ClientOp → Prop
  | forward
      {leaderID : String}
      (hphase : op.phase = .routing)
      (hfirst : op.forwarded = false) :
      Moves op { op with node := leaderID, forwarded := true }
  | propose
      (hphase : op.phase = .routing) :
      Moves op { op with phase := .proposing }
  | wait
      {index term : Nat}
      (hphase : op.phase = .proposing) :
      Moves op { op with phase := .waiting index term }
  | confirm
      {pending : List String} {inSync : Nat}
      (hphase : op.phase = .routing) :
      Moves op { op with phase := .confirming pending inSync }
  | count
      {pending pending' : List String} {inSync inSync' : Nat}
      (hphase : op.phase = .confirming pending inSync) :
      Moves op { op with phase := .confirming pending' inSync' }
  | read
      {inSync : Nat}
      (hphase : op.phase = .confirming [] inSync) :
      Moves op { op with phase := .reading }

/-- What a step does to the calls, and the answers it gives. -/
inductive CallStep (ops : List ClientOp) : List ClientOp → List (Nat × Answer) → Prop
  | same :
      CallStep ops ops []
  | died (x : String) :
      CallStep ops (ops.map (ClientOp.dropped x)) []
  | invoked (request : ClientRequest) (x : String) :
      CallStep ops (ops ++ [⟨request, x, false, .routing⟩]) []
  | refused (request : ClientRequest) (x : String) (answer : Answer) :
      CallStep ops (ops ++ [⟨request, x, false, .done⟩]) [(ops.length, answer)]
  | moved
      {i : Nat} {op op' : ClientOp}
      (hop : ops[i]? = some op)
      (hmoves : op.Moves op') :
      CallStep ops (ops.set i op') []
  | returned
      {i : Nat} {op : ClientOp} (answer : Answer)
      (hop : ops[i]? = some op)
      (hphase : op.phase ≠ .done) :
      CallStep ops (ops.set i { op with phase := .done }) [(i, answer)]

namespace Cluster

/-- The answers given so far. -/
def answers (c : Cluster) : List (Nat × Answer) :=
  c.events.filterMap Event.answered

/-- A step of the cluster as a step of its calls. -/
def Tends (c c' : Cluster) : Prop :=
  ∃ new, CallStep c.ops c'.ops new ∧ c'.answers = c.answers ++ new

theorem mem_answers
    {c : Cluster} {i : Nat} {answer : Answer} :
    (i, answer) ∈ c.answers ↔ .returned i answer ∈ c.events := by
  unfold answers
  rw [List.mem_filterMap]
  constructor
  · rintro ⟨event, hmem, hevent⟩
    cases event with
    | returned j b =>
        cases hevent
        exact hmem
    | _ => cases hevent
  · exact fun hmem => ⟨_, hmem, rfl⟩

section Basic

variable {c c' c₁ : Cluster} {x p : String} {i : Nat} {op op' : ClientOp}

theorem answers_record_of_notMem
    {es : List Event}
    (hes : ∀ i answer, .returned i answer ∉ es) :
    (c.record es).answers = c.answers := by
  have hnone : es.filterMap Event.answered = [] := by
    refine List.filterMap_eq_nil_iff.mpr fun event hmem => ?_
    cases event with
    | returned j b => exact absurd hmem (hes j b)
    | _ => rfl
  unfold answers record
  rw [List.filterMap_append, hnone, List.append_nil]

theorem answers_record_commitEvent
    (o : Options) (n : Node) :
    (c.record (commitEvent o n)).answers = c.answers := by
  refine answers_record_of_notMem fun i answer => ?_
  unfold commitEvent
  split_ifs <;> simp

theorem answers_record_if
    {b : Prop} [Decidable b] (o : Options) (n : Node) :
    (c.record (if b then commitEvent o n else [])).answers = c.answers := by
  split_ifs
  · exact answers_record_commitEvent o n
  · exact answers_record_of_notMem (by simp)

@[simp] theorem answers_answer
    (id : Nat) (resp : Option Response) :
    (c.answer id resp).answers = c.answers := by
  cases resp <;> rfl

@[simp] theorem answers_finish
    (answer : Answer) :
    (c.finish i op answer).answers = c.answers ++ [(i, answer)] := by
  unfold answers
  rw [events_finish, List.filterMap_append]
  rfl

theorem tends_of_eq
    (hops : c'.ops = c.ops)
    (hanswers : c'.answers = c.answers) :
    c.Tends c' :=
  ⟨[], hops ▸ .same, by rw [hanswers, List.append_nil]⟩

theorem Tends.refl
    (c : Cluster) :
    c.Tends c :=
  tends_of_eq rfl rfl

theorem tends_restart
    (store : Store) :
    c.Tends (c.restart x store) :=
  ⟨[], .died x, (List.append_nil _).symm⟩

/-- What does not concern the calls may come before a step. -/
theorem Tends.of_eq
    (h : c₁.Tends c')
    (hops : c₁.ops = c.ops)
    (hanswers : c₁.answers = c.answers) :
    c.Tends c' := by
  obtain ⟨new, hstep, hnew⟩ := h
  exact ⟨new, hops ▸ hstep, hanswers ▸ hnew⟩

theorem tends_setOp
    (hop : c.ops[i]? = some op)
    (hmoves : op.Moves op') :
    c.Tends (c.setOp i op') :=
  ⟨[], .moved hop hmoves, (List.append_nil _).symm⟩

theorem tends_finish
    (hop : c.ops[i]? = some op)
    (hphase : op.phase ≠ .done)
    (answer : Answer) :
    c.Tends (c.finish i op answer) :=
  ⟨[(i, answer)], .returned answer hop hphase, answers_finish answer⟩

theorem tends_senderReturns
    (owner : Option Nat) (inSync : Bool) :
    c.Tends (c.senderReturns x p owner inSync) := by
  rcases senderReturns_cases c x p owner inSync with h | ⟨i, op, pending, k, -, hop, hphase, h⟩
  · rw [h]
    exact tends_of_eq rfl rfl
  · rw [h]
    exact Tends.of_eq (tends_setOp hop (.count hphase)) rfl rfl

/-- A section changes a node, or ends with a crash. -/
theorem tends_runSection
    {α : Type} {m : Txn Node α} {os : List Outcome} {k : Cluster → α → Cluster}
    (hops : c₁.ops = c.ops)
    (hanswers : c₁.answers = c.answers)
    (hk : ∀ n r, (c₁.setNode x n).Tends (k (c₁.setNode x n) r)) :
    c.Tends (c₁.runSection x m os k) := by
  unfold runSection
  rcases m os (c₁.node x) with ⟨_ | r, n, os'⟩
  · exact Tends.of_eq (tends_restart n.store) hops hanswers
  · exact Tends.of_eq (hk n r) hops hanswers

end Basic

section Steps

variable {cfg : Config} {c c' : Cluster} {a : Action} {x p : String} {i : Nat}

theorem electionStep_tends
    (hstep : c.electionStep cfg a = some c') :
    c.Tends c' := by
  cases a with
  | campaign x os =>
      simp only [electionStep] at hstep
      obtain ⟨-, hstep⟩ := Option.ite_none_right_eq_some.mp hstep
      cases hstep
      unfold startElection
      refine tends_runSection rfl rfl fun n candidacy => ?_
      cases candidacy with
      | none =>
          exact Tends.refl _
      | some round =>
          simp only
          split_ifs
          · exact tends_of_eq rfl rfl
          · rw [requestVotes_fst]
            exact tends_of_eq rfl rfl
  | countVote x peer id resp os =>
      simp only [electionStep] at hstep
      split at hstep
      · obtain ⟨-, hstep⟩ := Option.ite_none_right_eq_some.mp hstep
        cases hstep
        refine tends_runSection rfl rfl fun n higher => ?_
        split_ifs <;> exact tends_of_eq rfl rfl
      · cases hstep
  | missVote x peer id =>
      simp only [electionStep] at hstep
      split at hstep
      · obtain ⟨-, hstep⟩ := Option.ite_none_right_eq_some.mp hstep
        cases hstep
        exact tends_of_eq rfl rfl
      · cases hstep
  | loseElection x =>
      simp only [electionStep] at hstep
      split at hstep
      · obtain ⟨-, hstep⟩ := Option.ite_none_right_eq_some.mp hstep
        cases hstep
        exact tends_of_eq rfl rfl
      · cases hstep
  | winElection x os =>
      simp only [electionStep] at hstep
      split at hstep
      · obtain ⟨-, hstep⟩ := Option.ite_none_right_eq_some.mp hstep
        cases hstep
        refine tends_runSection rfl rfl fun n won => ?_
        cases won
        · exact tends_of_eq rfl rfl
        · exact tends_of_eq rfl (answers_record_of_notMem fun _ _ => by simp)
      · cases hstep
  | commitAlone x os =>
      simp only [electionStep] at hstep
      split at hstep
      · cases hstep
        exact tends_runSection rfl (answers_record_commitEvent _ _) fun n _ => Tends.refl _
      · cases hstep
  | _ => cases hstep

theorem handle_tends
    (id : Nat) (call : Call) (os : List Outcome) :
    c.Tends (c.handle cfg id call os) := by
  obtain ⟨src, dst, request⟩ := call
  cases request <;> simp only [handle] <;>
    exact tends_runSection rfl rfl fun n _ => tends_of_eq (by simp) (by simp)

theorem sendEntries_tends
    (hstep : c.senderStep cfg (.sendEntries x p) = some c') :
    c.Tends c' := by
  simp only [senderStep] at hstep
  split at hstep
  · rcases buildAppendRequestLocked_cases (c.node x) (cfg.options x) p with
      ⟨next, hbuild⟩ | ⟨prevLogTerm, -, hbuild⟩
    · rw [hbuild] at hstep
      simp only at hstep
      split_ifs at hstep
      all_goals cases hstep
      · exact tends_of_eq rfl rfl
      · exact Tends.of_eq (tends_senderReturns _ _) rfl rfl
    · rw [hbuild] at hstep
      cases hstep
      exact tends_of_eq rfl rfl
  · cases hstep

theorem senderStep_tends
    (hstep : c.senderStep cfg a = some c') :
    c.Tends c' := by
  cases a with
  | replicate x p owner =>
      simp only [senderStep] at hstep
      obtain ⟨-, hstep⟩ := Option.ite_none_right_eq_some.mp hstep
      split at hstep
      · cases hstep
        exact tends_of_eq rfl rfl
      · split at hstep
        · obtain ⟨-, hstep⟩ := Option.ite_none_right_eq_some.mp hstep
          cases hstep
          exact tends_of_eq rfl rfl
        · cases hstep
  | giveUp x p =>
      simp only [senderStep] at hstep
      split at hstep
      · cases hstep
        exact tends_senderReturns _ _
      · cases hstep
  | checkLeader x p =>
      simp only [senderStep] at hstep
      split at hstep
      · split_ifs at hstep
        all_goals cases hstep
        · exact tends_of_eq rfl rfl
        · exact tends_senderReturns _ _
      · cases hstep
  | checkSnapshot x p =>
      simp only [senderStep] at hstep
      split at hstep
      · split_ifs at hstep
        all_goals
          cases hstep
          exact tends_of_eq rfl rfl
      · cases hstep
  | sendEntries x p => exact sendEntries_tends hstep
  | sendSnapshot x p =>
      simp only [senderStep] at hstep
      split at hstep
      · cases hstep
        exact tends_of_eq rfl rfl
      · cases hstep
  | callFails x p =>
      simp only [senderStep] at hstep
      split at hstep
      · cases hstep
        exact tends_senderReturns _ _
      · cases hstep
        exact tends_senderReturns _ _
      · cases hstep
  | appendReply x p resp os =>
      simp only [senderStep] at hstep
      split at hstep
      · obtain ⟨-, hstep⟩ := Option.ite_none_right_eq_some.mp hstep
        cases hstep
        refine tends_runSection rfl rfl fun n higher => ?_
        split_ifs
        · exact tends_senderReturns _ _
        · exact tends_of_eq rfl rfl
      · cases hstep
  | appendDone x p os =>
      simp only [senderStep] at hstep
      split at hstep
      · next round owner req resp _ =>
          cases hstep
          refine tends_runSection rfl (answers_record_if _ _) fun n outcome => ?_
          cases outcome with
          | accepted => exact tends_senderReturns _ _
          | failed => exact tends_senderReturns _ _
          | rejected =>
              by_cases hround : round + 1 < maxAppendRounds
              · simp only [if_pos hround]
                exact tends_of_eq rfl rfl
              · simp only [if_neg hround]
                exact tends_senderReturns _ _
      · cases hstep
  | snapshotReply x p resp os =>
      simp only [senderStep] at hstep
      split at hstep
      · obtain ⟨-, hstep⟩ := Option.ite_none_right_eq_some.mp hstep
        cases hstep
        refine tends_runSection rfl rfl fun n higher => ?_
        split_ifs
        · exact tends_senderReturns _ _
        · exact tends_of_eq rfl rfl
      · cases hstep
  | snapshotDone x p os =>
      simp only [senderStep] at hstep
      split at hstep
      · cases hstep
        exact tends_runSection rfl (answers_record_if _ _) fun n _ => tends_senderReturns _ _
      · cases hstep
  | _ => cases hstep

/-- A call without a key is answered where it is received. -/
theorem invoke_tends
    {req : ClientRequest}
    (hstep : c.clientStep cfg (.invoke x req) = some c') :
    c.Tends c' := by
  simp only [clientStep] at hstep
  obtain ⟨-, hstep⟩ := Option.ite_none_right_eq_some.mp hstep
  have hanswers : (({ c with ops := c.ops ++ [⟨req, x, false, .routing⟩] } : Cluster).record
      [.invoked c.ops.length]).answers = c.answers :=
    answers_record_of_notMem (c := { c with ops := c.ops ++ [⟨req, x, false, .routing⟩] })
      fun _ _ => by simp
  split_ifs at hstep
  all_goals cases hstep
  · refine ⟨[(c.ops.length, .failed keyRequired)], ?_, by rw [answers_finish, hanswers]⟩
    have hops : (c.ops ++ [(⟨req, x, false, .routing⟩ : ClientOp)]).set c.ops.length
        ⟨req, x, false, .done⟩ = c.ops ++ [⟨req, x, false, .done⟩] := by
      rw [List.set_append_right _ _ le_rfl, Nat.sub_self]
      rfl
    rw [ops_finish]
    exact hops.symm ▸ .refused req x _
  · exact ⟨[], .invoked req x, by rw [hanswers, List.append_nil]⟩

/-- `leaderClient` refuses a call, forwards one that was not forwarded yet, or has the
node serve it. -/
theorem route_tends
    (hstep : c.clientStep cfg (.route i) = some c') :
    c.Tends c' := by
  simp only [clientStep] at hstep
  split at hstep
  · next op hop =>
      obtain ⟨hphase, hstep⟩ := Option.ite_none_right_eq_some.mp hstep
      split at hstep
      · cases hstep
        exact tends_finish hop (by simp [hphase]) _
      · next leaderID hroute =>
          cases hstep
          refine tends_setOp hop (.forward hphase ?_)
          unfold Node.leaderClient at hroute
          cases hforwarded : op.forwarded with
          | false => rfl
          | true =>
              simp only [hforwarded] at hroute
              split_ifs at hroute
      · split at hstep
        all_goals cases hstep
        · exact tends_setOp hop (.confirm hphase)
        · exact tends_setOp hop (.propose hphase)
  · cases hstep

theorem propose_tends
    {os : List Outcome}
    (hstep : c.clientStep cfg (.propose i os) = some c') :
    c.Tends c' := by
  simp only [clientStep] at hstep
  split at hstep
  · next op hop =>
      split at hstep
      · next hphase hcmd =>
          cases hstep
          refine tends_runSection rfl (answers_record_if _ _) fun n r => ?_
          rcases r with status | ⟨entry, term⟩
          · refine tends_finish ?_ (by simp [hphase]) _
            exact hop
          · refine tends_setOp ?_ (.wait hphase)
            exact hop
      · cases hstep
  · cases hstep

theorem clientStep_tends
    (hstep : c.clientStep cfg a = some c') :
    c.Tends c' := by
  cases a with
  | invoke x req => exact invoke_tends hstep
  | route i => exact route_tends hstep
  | propose i os => exact propose_tends hstep
  | poll i =>
      simp only [clientStep] at hstep
      split at hstep
      · next op hop =>
          split at hstep
          · next index term hphase =>
              split at hstep
              all_goals cases hstep
              · exact Tends.refl c
              · exact tends_finish hop (by simp [hphase]) _
              · exact tends_finish hop (by simp [hphase]) _
          · cases hstep
      · cases hstep
  | expire i =>
      simp only [clientStep] at hstep
      split at hstep
      · next op hop =>
          split at hstep
          · cases hstep
          · next hphase =>
              cases hstep
              exact tends_finish hop (by simp [hphase]) _
          · cases hstep
            exact tends_of_eq rfl (answers_record_of_notMem fun _ _ => by simp)
      · cases hstep
  | confirm i =>
      simp only [clientStep] at hstep
      split at hstep
      · next op hop =>
          split at hstep
          · next hphase =>
              split at hstep
              all_goals cases hstep
              · exact tends_setOp hop (.read hphase)
              · exact tends_finish hop (by simp [hphase]) _
          · cases hstep
      · cases hstep
  | readKey i =>
      simp only [clientStep] at hstep
      split at hstep
      · next op hop =>
          obtain ⟨hphase, hstep⟩ := Option.ite_none_right_eq_some.mp hstep
          cases hstep
          exact tends_finish hop (by simp [hphase]) _
      · cases hstep
  | _ => cases hstep

/-- What a step of the cluster does to its calls. -/
theorem step_tends
    (hstep : c.step cfg a = some c') :
    c.Tends c' := by
  rcases step_cases hstep with ⟨id, os, call, rfl, -, rfl⟩ | ⟨x, rfl, -, rfl⟩ |
    helection | hsender | hclient
  · exact handle_tends id call os
  · exact tends_restart _
  · exact electionStep_tends helection
  · exact senderStep_tends hsender
  · exact clientStep_tends hclient

end Steps

end Cluster

/-- The call at a later moment of a run. -/
structure ClientOp.Onward (op op' : ClientOp) : Prop where
  request : op'.request = op.request
  rank : op.phase.rank ≤ op'.phase.rank
  route : (op'.node = op.node ∧ op'.forwarded = op.forwarded) ∨
    (op.forwarded = false ∧ op'.forwarded = true)
  settled : op.phase = .done → op' = op

section Onward

variable {op op' op'' : ClientOp} {ops ops' : List ClientOp} {new : List (Nat × Answer)}
variable {i j : Nat}

theorem ClientOp.Onward.refl
    (op : ClientOp) :
    op.Onward op :=
  ⟨rfl, le_rfl, Or.inl ⟨rfl, rfl⟩, fun _ => rfl⟩

theorem ClientOp.Onward.trans
    (h : op.Onward op')
    (h' : op'.Onward op'') :
    op.Onward op'' := by
  refine ⟨h'.request.trans h.request, h.rank.trans h'.rank, ?_, fun hdone => ?_⟩
  · rcases h.route with ⟨hnode, hforwarded⟩ | ⟨hfirst, hforwarded⟩
    · rcases h'.route with ⟨hnode', hforwarded'⟩ | ⟨hfirst', hforwarded'⟩
      · exact Or.inl ⟨hnode'.trans hnode, hforwarded'.trans hforwarded⟩
      · exact Or.inr ⟨hforwarded.symm.trans hfirst', hforwarded'⟩
    · rcases h'.route with ⟨-, hforwarded'⟩ | ⟨hfirst', -⟩
      · exact Or.inr ⟨hfirst, hforwarded'.trans hforwarded⟩
      · exact absurd (hforwarded.symm.trans hfirst') (by simp)
  · have heq := h.settled hdone
    rw [h'.settled (heq ▸ hdone), heq]

/-- A call that goes to a later phase at the same node. -/
theorem ClientOp.onward_phase
    {phase : Phase}
    (hrank : op.phase.rank ≤ phase.rank)
    (hdone : op.phase = .done → phase = .done) :
    op.Onward { op with phase := phase } := by
  refine ⟨rfl, hrank, Or.inl ⟨rfl, rfl⟩, fun h => ?_⟩
  obtain ⟨request, node, forwarded, old⟩ := op
  cases h
  rw [hdone rfl]

theorem ClientOp.onward_done
    (op : ClientOp) :
    op.Onward { op with phase := .done } :=
  ClientOp.onward_phase (by cases op.phase <;> simp [Phase.rank]) fun _ => rfl

theorem ClientOp.Moves.onward
    (h : op.Moves op') :
    op.Onward op' := by
  cases h with
  | forward hphase hfirst =>
      exact ⟨rfl, le_rfl, Or.inr ⟨hfirst, rfl⟩, fun hdone => by simp [hphase] at hdone⟩
  | propose hphase => exact ClientOp.onward_phase (by simp [hphase, Phase.rank]) (by simp [hphase])
  | wait hphase => exact ClientOp.onward_phase (by simp [hphase, Phase.rank]) (by simp [hphase])
  | confirm hphase => exact ClientOp.onward_phase (by simp [hphase, Phase.rank]) (by simp [hphase])
  | count hphase => exact ClientOp.onward_phase (by simp [hphase, Phase.rank]) (by simp [hphase])
  | read hphase => exact ClientOp.onward_phase (by simp [hphase, Phase.rank]) (by simp [hphase])

theorem ClientOp.onward_dropped
    (x : String) (op : ClientOp) :
    op.Onward (op.dropped x) := by
  unfold ClientOp.dropped
  split_ifs
  · exact op.onward_done
  · exact ClientOp.Onward.refl op

/-- A change of one call. -/
theorem onward_set
    (hd : ops[j]? = some op)
    (honward : op.Onward op')
    {old : ClientOp}
    (hold : ops[i]? = some old) :
    ∃ d, (ops.set j op')[i]? = some d ∧ old.Onward d := by
  by_cases hij : j = i
  · subst hij
    obtain ⟨hlt, -⟩ := List.getElem?_eq_some_iff.mp hd
    rw [hd, Option.some.injEq] at hold
    exact ⟨op', List.getElem?_set_self hlt, hold ▸ honward⟩
  · exact ⟨old, by rw [List.getElem?_set_ne hij, hold], ClientOp.Onward.refl old⟩

theorem CallStep.onward
    (h : CallStep ops ops' new)
    (hop : ops[i]? = some op) :
    ∃ op', ops'[i]? = some op' ∧ op.Onward op' := by
  have happend : ∀ d, ∃ op', (ops ++ [d])[i]? = some op' ∧ op.Onward op' := fun d => by
    obtain ⟨hlt, -⟩ := List.getElem?_eq_some_iff.mp hop
    exact ⟨op, by rw [List.getElem?_append_left hlt, hop], ClientOp.Onward.refl op⟩
  cases h with
  | same => exact ⟨op, hop, ClientOp.Onward.refl op⟩
  | died x => exact ⟨op.dropped x, by simp [hop], op.onward_dropped x⟩
  | invoked request x => exact happend _
  | refused request x answer => exact happend _
  | moved hd hmoves => exact onward_set hd hmoves.onward hop
  | @returned j d answer hd hphase => exact onward_set hd d.onward_done hop

/-- Calls are answered once, when they are done. -/
structure Answering (ops : List ClientOp) (answers : List (Nat × Answer)) : Prop where
  once : (answers.map Prod.fst).Nodup
  done : ∀ r ∈ answers, ∃ op, ops[r.1]? = some op ∧ op.phase = .done

theorem Answering.kept
    {answers : List (Nat × Answer)}
    (h : Answering ops answers)
    (hstep : CallStep ops ops' new) :
    ∀ r ∈ answers, ∃ op, ops'[r.1]? = some op ∧ op.phase = .done := by
  intro r hr
  obtain ⟨op, hop, hdone⟩ := h.done r hr
  obtain ⟨op', hop', honward⟩ := hstep.onward hop
  exact ⟨op', hop', by rw [honward.settled hdone, hdone]⟩

/-- An answer to a call that was not done. -/
theorem Answering.answer
    {answers : List (Nat × Answer)} {answer : Answer}
    (h : Answering ops answers)
    (hkept : ∀ r ∈ answers, ∃ op, ops'[r.1]? = some op ∧ op.phase = .done)
    (hopen : ∀ op, ops[i]? = some op → op.phase ≠ .done)
    (hop : ops'[i]? = some op)
    (hdone : op.phase = .done) :
    Answering ops' (answers ++ [(i, answer)]) := by
  refine ⟨?_, fun r hr => ?_⟩
  · rw [List.map_append, List.nodup_append]
    refine ⟨h.once, List.nodup_singleton _, ?_⟩
    intro k hk k' hk' heq
    obtain ⟨r, hr, rfl⟩ := List.mem_map.mp hk
    obtain ⟨d, hd, hphase⟩ := h.done r hr
    have hi : r.1 = i := heq.trans (List.mem_singleton.mp hk')
    exact hopen d (hi ▸ hd) hphase
  · rcases List.mem_append.mp hr with hr | hr
    · exact hkept r hr
    · obtain rfl := List.mem_singleton.mp hr
      exact ⟨op, hop, hdone⟩

theorem Answering.step
    {answers : List (Nat × Answer)}
    (h : Answering ops answers)
    (hstep : CallStep ops ops' new) :
    Answering ops' (answers ++ new) := by
  have hkept := h.kept hstep
  have hnone : Answering ops' (answers ++ []) := by
    rw [List.append_nil]
    exact ⟨h.once, hkept⟩
  cases hstep with
  | refused request x answer =>
      have hnew : (ops ++ [(⟨request, x, false, .done⟩ : ClientOp)])[ops.length]? =
          some ⟨request, x, false, .done⟩ := by
        rw [List.getElem?_append_right le_rfl, Nat.sub_self]
        rfl
      refine h.answer hkept (fun op hop => ?_) hnew rfl
      exact absurd (List.getElem?_eq_some_iff.mp hop).1 (lt_irrefl _)
  | @returned j d answer hd hphase =>
      obtain ⟨hlt, -⟩ := List.getElem?_eq_some_iff.mp hd
      refine h.answer hkept (fun op hop => ?_) (List.getElem?_set_self hlt) rfl
      rw [hd, Option.some.injEq] at hop
      exact hop ▸ hphase
  | _ => exact hnone

end Onward

namespace Cluster

section Runs

variable {cfg : Config} {as bs : List Action} {c c₁ : Cluster}

theorem exec_concat
    {a : Action} :
    c₁.exec cfg (as ++ [a]) = some c ↔
      ∃ c₂, c₁.exec cfg as = some c₂ ∧ c₂.step cfg a = some c := by
  rw [exec_append, Option.bind_eq_some_iff]
  refine exists_congr fun c₂ => and_congr_right fun _ => ?_
  simp only [exec]
  cases c₂.step cfg a <;> simp

theorem exec_answering
    (hexec : init.exec cfg as = some c) :
    Answering c.ops c.answers := by
  induction as using List.reverseRecOn generalizing c with
  | nil =>
      cases hexec
      exact ⟨List.nodup_nil, by simp [answers, init]⟩
  | append_singleton as a ih =>
      obtain ⟨c₁, hexec, hstep⟩ := exec_concat.mp hexec
      obtain ⟨new, hcalls, hanswers⟩ := step_tends hstep
      rw [hanswers]
      exact (ih hexec).step hcalls

theorem exec_onward
    {i : Nat} {op : ClientOp}
    (hop : c₁.ops[i]? = some op)
    (hexec : c₁.exec cfg as = some c) :
    ∃ op', c.ops[i]? = some op' ∧ op.Onward op' := by
  induction as using List.reverseRecOn generalizing c with
  | nil =>
      cases hexec
      exact ⟨op, hop, ClientOp.Onward.refl op⟩
  | append_singleton as a ih =>
      obtain ⟨c₂, hexec, hstep⟩ := exec_concat.mp hexec
      obtain ⟨op₂, hop₂, honward⟩ := ih hexec
      obtain ⟨new, hcalls, -⟩ := step_tends hstep
      obtain ⟨op', hop', honward'⟩ := hcalls.onward hop₂
      exact ⟨op', hop', honward.trans honward'⟩

/-- In every run the handler of a client call returns at most once, is forwarded at most
once, never goes back to an earlier phase and never changes its request; and a handler that
has returned is done for good.  A client that gives up has its error earlier than that,
and its handler may still append the entry. -/
theorem calls_go_forward
    (hexec₁ : init.exec cfg as = some c₁)
    (hexec : c₁.exec cfg bs = some c) :
    (c.answers.map Prod.fst).Nodup ∧
      (∀ (i : Nat) (op : ClientOp), c₁.ops[i]? = some op →
        ∃ op', c.ops[i]? = some op' ∧ op.Onward op') ∧
      ∀ i answer, .returned i answer ∈ c₁.events →
        ∃ op, op.phase = .done ∧ c₁.ops[i]? = some op ∧ c.ops[i]? = some op := by
  have hrun : init.exec cfg (as ++ bs) = some c := by
    rw [exec_append, hexec₁]
    exact hexec
  refine ⟨(exec_answering hrun).once, fun i op hop => exec_onward hop hexec,
    fun i answer hmem => ?_⟩
  obtain ⟨op, hop, hdone⟩ := (exec_answering hexec₁).done _ (mem_answers.mpr hmem)
  obtain ⟨op', hop', honward⟩ := exec_onward hop hexec
  exact ⟨op, hdone, hop, honward.settled hdone ▸ hop'⟩

section Sample

open LogReplicator.Action

/-- The write waits for its entry, and its client gives up. -/
theorem calls_go_forward_expire :
    ∃ c₁ c op op', init.exec (trio fun _ => 0)
        (elect "a" "b" 0 1 ++ proposal "a" 0 "k1" "v1") = some c₁ ∧
      c₁.exec (trio fun _ => 0) [expire 0] = some c ∧
      (c.answers.map Prod.fst).Nodup ∧ c.answers.map Prod.fst = [0] ∧
      c₁.ops[0]? = some op ∧ op.phase = .waiting 1 1 ∧ c.ops[0]? = some op' ∧
      ClientOp.Onward op op' := by
  have hrun : ((init.exec (trio fun _ => 0)
      (elect "a" "b" 0 1 ++ proposal "a" 0 "k1" "v1")).map fun c₁ =>
        (c₁.ops[0]?.map ClientOp.phase, (c₁.exec (trio fun _ => 0) [expire 0]).map fun c =>
          c.answers.map Prod.fst)) = some (some (.waiting 1 1), some [0]) := by
    decide +kernel
  obtain ⟨c₁, hexec₁, hstate⟩ := Option.map_eq_some_iff.mp hrun
  obtain ⟨hphase, hrest⟩ := Prod.mk.inj hstate
  obtain ⟨op, hop, hphase⟩ := Option.map_eq_some_iff.mp hphase
  obtain ⟨c, hexec, hanswers⟩ := Option.map_eq_some_iff.mp hrest
  obtain ⟨honce, honward, -⟩ := calls_go_forward hexec₁ hexec
  obtain ⟨op', hop', h⟩ := honward 0 op hop
  exact ⟨c₁, c, op, op', hexec₁, hexec, honce, hanswers, hop, hphase, hop', h⟩

end Sample

end Runs

end Cluster

end LogReplicator
