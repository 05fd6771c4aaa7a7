import LogReplicator.Raft.Acknowledged
import LogReplicator.Raft.Rounds

/-!
# Reads after acknowledged writes

A majority of the peers was in the term of an acknowledged write.  A reader that a
heartbeat round confirms is therefore the leader of that term or of a later one.
What leaders of earlier terms committed it has in its log, and it has applied it once
it has applied an entry of its own term.
-/

namespace LogReplicator

open Library Library.Consensus

namespace Cluster

section Answers

/-- The answer of a read that found the key or found that it does not exist. -/
def Found : Answer → Prop
  | .value _ _ => True
  | .failed status => status.code = .notFound
  | .written _ _ _ => False

/-- The answer is what the table says about the key. -/
def Looks (kv : Table String String) (key : String) : Answer → Prop
  | .value _ value => kv.get key = some value
  | .failed _ => kv.get key = none
  | .written _ _ _ => False

theorem looks_readKey
    (n : Node) (o : Options) (key : String) :
    Looks n.store.kv key (n.readKey o key) := by
  unfold Node.readKey Store.get
  cases hget : n.store.kv.get key with
  | none => exact hget
  | some value => exact hget

/-- Where the answers to reads come from. -/
structure ReadsFrom (cfg : Config) (c : Cluster) (a : Action) (c' : Cluster) : Prop where
  known : ∀ i answer, .returned i answer ∈ c'.events →
    .returned i answer ∈ c.events ∨ i < c'.ops.length
  found : ∀ (i : Nat) answer, .returned i answer ∈ c'.events → Found answer →
    (∀ op, c.ops[i]? = some op → op.request.command = none) →
    .returned i answer ∈ c.events ∨ (a = .readKey i ∧ ∃ op, c.ops[i]? = some op ∧
      op.phase = .reading ∧
      answer = (c.node op.node).readKey (cfg.options op.node) op.request.key)

variable {cfg : Config} {c c' c'' : Cluster} {a : Action}

theorem Attends.readsFrom
    (h : c.Attends c') :
    ReadsFrom cfg c a c' :=
  ⟨fun i answer hmem => Or.inl (h.returned i answer hmem),
    fun i answer hmem _ _ => Or.inl (h.returned i answer hmem)⟩

theorem readsFrom_finish
    {i : Nat} {op : ClientOp} {answer : Answer}
    (hop : c.ops[i]? = some op)
    (hanswer : Found answer → op.request.command = none →
      a = .readKey i ∧ op.phase = .reading ∧
        answer = (c.node op.node).readKey (cfg.options op.node) op.request.key) :
    ReadsFrom cfg c a (c.finish i op answer) := by
  obtain ⟨hlt, -⟩ := List.getElem?_eq_some_iff.mp hop
  refine ⟨fun j answer' hmem => ?_, fun j answer' hmem hfound hread => ?_⟩
  all_goals
    simp only [events_finish, List.mem_append, List.mem_singleton, Event.returned.injEq] at hmem
    rcases hmem with hmem | ⟨rfl, rfl⟩
  · exact Or.inl hmem
  · exact Or.inr (by simpa using hlt)
  · exact Or.inl hmem
  · obtain ⟨ha, hphase, heq⟩ := hanswer hfound (hread op hop)
    exact Or.inr ⟨ha, op, hop, hphase, heq⟩

theorem readsFrom_refuse
    {i : Nat} {op : ClientOp} {status : Status}
    (hop : c.ops[i]? = some op)
    (hstatus : status.code ≠ .notFound) :
    ReadsFrom cfg c a (c.finish i op (.failed status)) :=
  readsFrom_finish hop fun hfound _ => absurd hfound hstatus

theorem readsFrom_runSection
    {α : Type} {x : String} {m : Txn Node α} {os : List Outcome} {k : Cluster → α → Cluster}
    (hbefore : c.Attends c')
    (hops : c'.ops = c.ops)
    (ha : ∀ i, a ≠ .readKey i)
    (hk : ∀ n r, ReadsFrom cfg (c'.setNode x n) a (k (c'.setNode x n) r)) :
    ReadsFrom cfg c a (c'.runSection x m os k) := by
  unfold runSection
  rcases m os (c'.node x) with ⟨_ | r, n, os'⟩
  · exact (hbefore.trans (attends_restart n.store)).readsFrom
  · have hset := hbefore.trans (attends_setNode (x := x) n)
    refine ⟨fun i answer hmem => ?_, fun i answer hmem hfound hread => ?_⟩
    · exact ((hk n r).known i answer hmem).imp_left (hset.returned i answer)
    · rcases (hk n r).found i answer hmem hfound (by rwa [ops_setNode, hops]) with
        hmem | ⟨hreadKey, -⟩
      · exact Or.inl (hset.returned i answer hmem)
      · exact absurd hreadKey (ha i)

theorem code_leaderClient
    {o : Options} {n : Node} {forwarded : Bool} {status : Status}
    (h : n.leaderClient o forwarded = .refuse status) :
    status.code ≠ .notFound := by
  unfold Node.leaderClient notLeaderError unknownLeader at h
  split_ifs at h
  all_goals
    cases h
    simp

theorem code_notLeaderError
    (leaderID : String) :
    (notLeaderError leaderID).code ≠ .notFound := by
  unfold notLeaderError
  split_ifs <;> simp

theorem invoke_readsFrom
    {x : String} {req : ClientRequest}
    (hstep : c.clientStep cfg (.invoke x req) = some c') :
    ReadsFrom cfg c (.invoke x req) c' := by
  simp only [clientStep] at hstep
  obtain ⟨-, hstep⟩ := Option.ite_none_right_eq_some.mp hstep
  split_ifs at hstep
  all_goals cases hstep
  · refine ⟨fun j answer hmem => ?_, fun j answer hmem hfound _ => ?_⟩
    all_goals
      simp only [events_finish, events_record, List.mem_append, List.mem_singleton,
        Event.returned.injEq, reduceCtorEq, or_false] at hmem
      rcases hmem with hmem | ⟨rfl, rfl⟩
    · exact Or.inl hmem
    · exact Or.inr (by simp)
    · exact Or.inl hmem
    · cases hfound
  · refine ⟨fun j answer hmem => ?_, fun j answer hmem hfound _ => ?_⟩
    all_goals
      simp only [events_record, List.mem_append, List.mem_singleton, reduceCtorEq,
        or_false] at hmem
      exact Or.inl hmem

theorem propose_readsFrom
    {i : Nat} {os : List Outcome}
    (hstep : c.clientStep cfg (.propose i os) = some c') :
    ReadsFrom cfg c (.propose i os) c' := by
  simp only [clientStep] at hstep
  split at hstep
  · next op hop =>
      split at hstep
      · next cmd hphase hcmd =>
          cases hstep
          refine readsFrom_runSection (attends_commitEvent _ _) rfl (by simp) fun n r => ?_
          rcases r with status | ⟨entry, t⟩
          · exact readsFrom_finish (by simpa using hop) fun _ hnone => by simp [hcmd] at hnone
          · exact ⟨fun _ _ hmem => Or.inl hmem, fun _ _ hmem _ _ => Or.inl hmem⟩
      · cases hstep
  · cases hstep

theorem clientStep_readsFrom
    (hstep : c.clientStep cfg a = some c') :
    ReadsFrom cfg c a c' := by
  cases a with
  | invoke x req => exact invoke_readsFrom hstep
  | route i =>
      simp only [clientStep] at hstep
      split at hstep
      · next op hop =>
          obtain ⟨hphase, hstep⟩ := Option.ite_none_right_eq_some.mp hstep
          split at hstep
          · next hroute =>
              cases hstep
              exact readsFrom_refuse hop (code_leaderClient hroute)
          · cases hstep
            exact (attends_setOp (by simp [hphase])).readsFrom
          · split at hstep
            all_goals
              cases hstep
              exact (attends_setPhase (by simp)).readsFrom
      · cases hstep
  | propose i os => exact propose_readsFrom hstep
  | poll i =>
      simp only [clientStep] at hstep
      split at hstep
      · next op hop =>
          split at hstep
          · next index term hphase =>
              split at hstep
              · cases hstep
                exact (Attends.refl c).readsFrom
              · cases hstep
                exact readsFrom_finish hop fun hfound _ => hfound.elim
              · next status hpoll =>
                  cases hstep
                  refine readsFrom_refuse hop ?_
                  unfold Node.pollCommit at hpoll
                  split_ifs at hpoll
                  all_goals
                    simp only [Option.some.injEq, reduceCtorEq, Except.error.injEq] at hpoll
                  rw [← hpoll]
                  exact code_notLeaderError _
          · cases hstep
      · cases hstep
  | expire i =>
      simp only [clientStep] at hstep
      split at hstep
      · next op hop =>
          split at hstep
          · cases hstep
          · cases hstep
            exact readsFrom_refuse hop (by simp [notCommitted])
          · cases hstep
            exact (attends_record (by simp)).readsFrom
      · cases hstep
  | confirm i =>
      simp only [clientStep] at hstep
      split at hstep
      · next op hop =>
          split at hstep
          · split at hstep
            · cases hstep
              exact (attends_setPhase (by simp)).readsFrom
            · next status hconfirm =>
                cases hstep
                refine readsFrom_refuse hop ?_
                unfold Node.confirmLeadership at hconfirm
                split_ifs at hconfirm
                all_goals cases hconfirm
                · exact code_notLeaderError _
                · simp [noQuorum]
          · cases hstep
      · cases hstep
  | readKey i =>
      simp only [clientStep] at hstep
      split at hstep
      · next op hop =>
          obtain ⟨hphase, hstep⟩ := Option.ite_none_right_eq_some.mp hstep
          cases hstep
          exact readsFrom_finish hop fun _ _ => ⟨rfl, hphase, rfl⟩
      · cases hstep
  | _ => cases hstep

theorem step_readsFrom
    (hstep : c.step cfg a = some c') :
    ReadsFrom cfg c a c' := by
  rcases step_cases hstep with ⟨id, os, call, rfl, -, rfl⟩ | ⟨x, rfl, -, rfl⟩ |
    helection | hsender | hclient
  · exact (handle_attends id call os).readsFrom
  · exact (attends_restart _).readsFrom
  · exact (electionStep_attends helection).readsFrom
  · exact (senderStep_attends hsender).readsFrom
  · exact clientStep_readsFrom hclient

end Answers

/-- What a leader has committed in a term stays committed while it leads the term. -/
theorem Transition.keeps_commitIndex
    {cfg : Config} {c c' : Cluster} {a : Action} {x : String} {ls : List Label}
    {g : String → Nat → String → Prop} {index t : Nat}
    (T : Transition cfg False c a c' x ls)
    (hthreads : c.Threads cfg)
    (hvotes : Elections cfg g c)
    (hwon : c.Won x t)
    (h : (c.node x).role = .leader → (c.node x).currentTerm = t →
      index ≤ (c.node x).commitIndex) :
    (c'.node x).role = .leader → (c'.node x).currentTerm = t →
      index ≤ (c'.node x).commitIndex := by
  refine (T.path.accumulate
    (I := fun pre n => VotesAlong g c x pre n ∧
      (n.role = .leader → n.currentTerm = t → index ≤ n.commitIndex))
    ⟨hvotes.along x, h⟩ ?_).2
  rintro pre l n n' hpre hmove ⟨halong, hn⟩
  refine ⟨halong.step T hthreads (hpre.subset (by simp)) hmove, ?_⟩
  cases hmove with
  | raise _ => simp
  | raiseUnsaved _ _ => simp
  | follow => simp
  | campaign _ _ => simp
  | campaignUnsaved _ _ _ => simp
  | restart => simp [Node.new]
  | lead hrole _ =>
      -- a node does not win a term again
      intro _ hterm
      exact absurd hrole ((halong.leads.spent t (Or.inl hwon)).2 hterm)
  | learn hreq _ _ =>
      intro hrole
      have hfollower : n.role = .leader := hrole
      rw [hreq.role] at hfollower
      cases hfollower
  | advance _ hne =>
      intro hrole hterm
      exact (hn hrole hterm).trans (n.committable_committedIndex _ hne).2.1.le
  | install _ _ _ =>
      intro hrole hterm
      exact (hn hrole hterm).trans (le_max_left _ _)
  | progress _ =>
      unfold Node.recordPeerProgressLocked
      split_ifs <;> exact hn
  | _ => exact hn

/-- A write is acknowledged by the leader of its term. -/
def LedBy (n : Node) (op : ClientOp) : Prop :=
  match op.phase with
  | .waiting index term => index ≤ n.commitIndex → n.role = .leader ∧ n.currentTerm = term
  | _ => True

/-- A leader that has applied all it has committed, an entry of its own term last. -/
structure Current (n : Node) : Prop where
  role : n.role = .leader
  term : n.store.term n.lastApplied = some n.currentTerm
  applied : n.lastApplied = n.commitIndex

/-- Writes are acknowledged by leaders of their term, and reads are answered by
leaders that are current. -/
def Serving (c : Cluster) : Action → Prop
  | .poll i => ∀ op ∈ c.ops[i]?, LedBy (c.node op.node) op
  | .readKey i => ∀ op ∈ c.ops[i]?, Current (c.node op.node)
  | _ => True

/-- The acknowledged writes of a run: the entry was chosen in its own term. -/
structure Acked (cfg : Config) (σ : State String Entry) (c : Cluster) (x : String)
    (index t : Nat) : Prop where
  entry : ∃ e, (σ.llog t)[index - 1]? = some e ∧ e.index = index ∧ e.term = t
  committed : CommittedBy Entry.term cfg.Quorum σ t ((σ.llog t).take index)
  won : c.Won x t
  kept : (c.node x).role = .leader → (c.node x).currentTerm = t →
    index ≤ (c.node x).commitIndex

section Reads

variable {cfg : Config} {c c' : Cluster} {a : Action} {x y : String} {ls : List Label}
variable {σ σ' : State String Entry} {g : String → Nat → String → Prop} {index t : Nat}

theorem Acked.step
    (h : Acked cfg σ c x index t)
    (hg : Grows σ σ')
    (hthreads : c.Threads cfg)
    (hvotes : Elections cfg g c)
    (T : Transition cfg False c a c' y ls) :
    Acked cfg σ' c' x index t := by
  obtain ⟨e, he, hentry⟩ := h.entry
  obtain ⟨hlt, -⟩ := List.getElem?_eq_some_iff.mp he
  refine ⟨⟨e, getElem?_prefix_eq (hg.llog t) he, hentry⟩, ?_,
    (T.won_iff x t).mpr (Or.inl h.won), ?_⟩
  · rw [take_prefix_eq (hg.llog t) (by omega)]
    exact hg.committed le_rfl h.committed
  · by_cases hx : x = y
    · subst hx
      exact T.keeps_commitIndex hthreads hvotes h.won h.kept
    · rw [T.frame x hx]
      exact h.kept

/-- The entry was chosen in its own term. -/
theorem Acked.chosen
    (h : Acked cfg σ c x index t)
    (hrefines : Refines cfg σ c) :
    ∃ k, Chosen Entry.term cfg.Quorum σ t k ∧ index ≤ k.length := by
  obtain ⟨e, he, hat, hterm⟩ := h.entry
  have hpos := (hrefines.indexed t).index_eq he
  obtain ⟨hlt, -⟩ := List.getElem?_eq_some_iff.mp he
  have hlength : ((σ.llog t).take index).length = index := by
    rw [List.length_take]
    omega
  rcases h.committed with hnil | ⟨u, hu, k, hchosen, hle⟩
  · rw [hnil, List.length_nil] at hlength
    omega
  · have hmem : e ∈ (σ.llog t).take index :=
      List.mem_of_getElem? ((List.getElem?_take_of_lt (by omega)).trans he)
    have hlate : e.term ≤ u :=
      hrefines.inv.llog_le u e (hchosen.1.1.subset (hle.subset hmem))
    obtain rfl : u = t := by omega
    exact ⟨k, hchosen, hlength ▸ hle.length_le⟩

/-- A majority was in the term or later. -/
theorem Acked.reached
    (h : Acked cfg σ c x index t)
    (hrefines : Refines cfg σ c) :
    ∃ q, cfg.Quorum q ∧ ∀ v ∈ q, t ≤ (c.node v).currentTerm := by
  obtain ⟨k, ⟨-, q, hq, hacks⟩, -⟩ := h.chosen hrefines
  refine ⟨q, hq, fun v hv => ?_⟩
  obtain ⟨m, -, hack⟩ := hacks v hv
  rw [← (hrefines.nodes v).term]
  exact (hrefines.inv.ack_term v t m hack).1

/-- A leader of the term or of a later one that is current has applied the entry. -/
theorem Acked.applied
    (h : Acked cfg σ c x index t)
    (hrefines : Refines cfg σ c)
    (hvotes : Elections cfg g c)
    (hcurrent : Current (c.node y))
    (hterm : t ≤ (c.node y).currentTerm) :
    index ≤ (c.node y).lastApplied := by
  have htracks := hrefines.nodes y
  rcases hterm.eq_or_lt with rfl | hlt
  · obtain rfl := hvotes.winner_unique h.won ((hvotes.leads y).leader hcurrent.role)
    rw [hcurrent.applied]
    exact h.kept hcurrent.role rfl
  · -- the leader started with the entry, and has applied what it appended itself
    have hleads := htracks.leader hcurrent.role
    obtain ⟨b, hb⟩ := Option.ne_none_iff_exists'.mp hleads.led
    obtain ⟨k, hchosen, hindex⟩ := h.chosen hrefines
    have hk : k <+: b := hrefines.inv.complete
      (fun _ _ hA hB => Config.Quorum.meet hA hB) hchosen _ b hlt hb
    by_contra hlate
    obtain ⟨hle, hat⟩ := htracks.log.of_term hcurrent.term
    rw [hleads.log] at hat
    have hshort : (c.node y).lastApplied ≤ b.length := by
      have := hk.length_le
      omega
    rw [← termAt_mono (hrefines.inv.base_llog _ b hb) hshort] at hat
    obtain hzero | ⟨i, hi⟩ : (c.node y).lastApplied = 0 ∨ ∃ i, (c.node y).lastApplied = i + 1 :=
      by cases (c.node y).lastApplied <;> simp
    · rw [hzero, termAt_zero] at hat
      omega
    · rw [hi] at hat hshort
      have hget := List.getElem?_eq_getElem (l := b) (i := i) (by omega)
      rw [termAt_succ hget] at hat
      have := hrefines.inv.base_lt _ b hb _ (List.mem_of_getElem? hget)
      omega

/-- The answer is the look-up of the key in the replay of a committed sequence of at
least `index` entries, which some node has applied. -/
def ReadsCommitted (cfg : Config) (σ : State String Entry) (c : Cluster) (index : Nat)
    (key : String) (answer : Answer) : Prop :=
  ∃ t l kv, CommittedBy Entry.term cfg.Quorum σ t l ∧ index ≤ l.length ∧
    (∃ y ∈ cfg.members, l.length ≤ (c.node y).lastApplied) ∧
    Replayed cfg.json l kv ∧ Looks kv key answer

/-- The reads from number `first` on, after the write of `index` was acknowledged;
`fence` has the terms of that time. -/
structure Reads (cfg : Config) (first index : Nat) (fence : String → Nat)
    (σ : State String Entry) (c : Cluster) : Prop where
  replaying : Replaying cfg σ c
  promised : Promised cfg σ c
  acked : ∀ j x w t, .returned j (.written x w t) ∈ c.events → Acked cfg σ c x w t
  known : ∀ i answer, .returned i answer ∈ c.events → i < c.ops.length
  fenced : ∀ v, fence v ≤ (c.node v).currentTerm
  rounds : c.Rounds cfg first fence (fun y => (c.node y).currentTerm) c.replies
  after : index = 0 ∨ ∃ x t, Acked cfg σ c x index t ∧
    ∃ q, cfg.Quorum q ∧ ∀ v ∈ q, t ≤ fence v
  served : ∀ i answer req, first ≤ i → .returned i answer ∈ c.events → Found answer →
    (c.ops.map ClientOp.request)[i]? = some req → req.command = none →
    ReadsCommitted cfg σ c index req.key answer

theorem reads_init :
    Reads cfg 0 0 (fun _ => 0) Consensus.init init where
  replaying := replaying_init
  promised := promised_init
  acked := by simp [init]
  known := by simp [init]
  fenced := fun _ => Nat.zero_le _
  rounds := ⟨by simp [init, startProc, Sender.owner], by simp [init], by simp [init]⟩
  after := Or.inl rfl
  served := by simp [init]

/-- The invariant for the reads that are still to come, once a write was
acknowledged. -/
theorem Reads.after_write
    {index' : Nat} {fence : String → Nat} {j : Nat}
    (h : Reads cfg 0 index' fence σ c)
    (hrefines : Refines cfg σ c)
    (hreturned : .returned j (.written x index t) ∈ c.events) :
    Reads cfg c.ops.length index (fun v => (c.node v).currentTerm) σ c := by
  have hacked := h.acked j x index t hreturned
  have hnew : ∀ {i : Nat} {op : ClientOp}, c.ops.length ≤ i → c.ops[i]? ≠ some op :=
    fun hi hop => absurd (List.getElem?_eq_some_iff.mp hop).1 (by omega)
  refine ⟨h.replaying, h.promised, h.acked, h.known, fun _ => le_rfl,
    ⟨fun y p i howner hi => ?_, fun i op _ _ hi hop => absurd hop (hnew hi),
      fun i op hi hop => absurd hop (hnew hi)⟩,
    Or.inr ⟨x, t, hacked, hacked.reached hrefines⟩,
    fun i answer req hi hmem => absurd (h.known i answer hmem) (by omega)⟩
  obtain ⟨-, op, hop, -⟩ := h.rounds.owners y p i howner (Nat.zero_le i)
  exact absurd hop (hnew hi)

/-- A confirmed read on a current leader sees the write. -/
theorem Reads.answered
    {first : Nat} {fence : String → Nat} {i : Nat} {op : ClientOp}
    (h : Reads cfg first index fence σ c)
    (hrefines : Refines cfg σ c)
    (hthreads : c.Threads cfg)
    (hvotes : Elections cfg g c)
    (hi : first ≤ i)
    (hop : c.ops[i]? = some op)
    (hphase : op.phase = .reading)
    (hcurrent : Current (c.node op.node)) :
    ReadsCommitted cfg σ c index op.request.key
      ((c.node op.node).readKey (cfg.options op.node) op.request.key) := by
  have htracks := hrefines.nodes op.node
  have hmember := (hthreads.ops op (List.mem_of_getElem? hop)).member
  have hindex : index ≤ (c.node op.node).lastApplied := by
    rcases h.after with rfl | ⟨x, t, hacked, q, hq, hlate⟩
    · exact Nat.zero_le _
    · refine hacked.applied hrefines hvotes hcurrent ?_
      -- a peer of the round has seen the term of the write
      obtain ⟨S, hmajority, hS⟩ := h.rounds.reading i op hi hop hphase
      have hround := quorum_insert hmember (fun p hp => (hS p hp).1) hmajority
      obtain ⟨v, hv, hvq⟩ := Config.Quorum.meet hround hq
      refine (hlate v hvq).trans ?_
      rcases Finset.mem_insert.mp hv with rfl | hv
      · exact h.fenced op.node
      · exact (hS v hv).2
  have hlength : ((σ.log op.node).take (c.node op.node).lastApplied).length =
      (c.node op.node).lastApplied := by
    rw [List.length_take, min_eq_left (htracks.reached.trans htracks.commit_le)]
  exact ⟨_, _, _,
    htracks.committed.mono le_rfl (List.take_prefix_take_left htracks.reached),
    hindex.trans hlength.ge, ⟨op.node, hmember, hlength.le⟩, (h.replaying.nodes op.node).kv,
    looks_readKey _ _ _⟩

/-- An acknowledgement by the leader of the term. -/
theorem Promised.acked
    {i : Nat} {op : ClientOp}
    (h : Promised cfg σ c)
    (hrefines : Refines cfg σ c)
    (hvotes : Elections cfg g c)
    (hop : c.ops[i]? = some op)
    (hphase : op.phase = .waiting index t)
    (hcommit : index ≤ (c.node op.node).commitIndex)
    (hled : LedBy (c.node op.node) op) :
    Acked cfg σ c op.node index t := by
  rw [LedBy, hphase] at hled
  obtain ⟨hrole, rfl⟩ := hled hcommit
  obtain ⟨cmd, -, hat⟩ := h.waiting i op index _ hop hphase
  have htracks := hrefines.nodes op.node
  refine ⟨⟨_, hat, rfl, rfl⟩, ?_, (hvotes.leads op.node).leader hrole, fun _ _ => hcommit⟩
  rw [← (htracks.leader hrole).log]
  exact htracks.committed.mono le_rfl (List.take_prefix_take_left hcommit)

theorem Serving.answerable
    (h : c.Serving a) :
    c.Answerable a := by
  cases a with
  | poll i =>
      intro op hop
      have hled : LedBy (c.node op.node) op := h op hop
      unfold AnsweredBy
      unfold LedBy at hled
      split
      · next hphase =>
          rw [hphase] at hled
          exact fun hcommit => Or.inl (hled hcommit)
      · trivial
  | _ => trivial

theorem Reads.step
    {first : Nat} {fence : String → Nat}
    (h : Reads cfg first index fence σ c)
    (hrefines : Refines cfg σ c)
    (hok : c.Followable a)
    (hforward : c.Forward a)
    (hserving : c.Serving a)
    (hthreads : c.Threads cfg)
    (hvotes : Elections cfg g c)
    (hstep : c.step cfg a = some c') :
    ∃ x ls σ', Transition cfg False c a c' x ls ∧
      RefinesAlong cfg σ c' x ls (c'.node x) σ' ∧ Reads cfg first index fence σ' c' := by
  obtain ⟨x, ls, T, hwaits⟩ := step_waits hthreads
    (show Usual False c a from ⟨fun hfail => hok.commits hfail, hok.terms⟩) hstep
  obtain ⟨σ', halong, hreplaying, happlied⟩ :=
    h.replaying.step hrefines hok hforward hthreads hvotes T
  have hg := Steps.grows hrefines.inv halong.steps
  have hafter := halong.refines hrefines hok hthreads hvotes T
  have hterm : ∀ v, (c.node v).currentTerm ≤ (c'.node v).currentTerm := fun v => by
    rw [← (hrefines.nodes v).term, ← (hafter.nodes v).term]
    exact hg.term v
  have hfenced := fun v => (h.fenced v).trans (hterm v)
  have hreads := step_readsFrom hstep
  obtain ⟨new, hnew⟩ := (step_turn hstep).requests
  have hlength : c.ops.length ≤ c'.ops.length := by
    have := congrArg List.length hnew
    simp only [List.length_append, List.length_map] at this
    omega
  refine ⟨x, ls, σ', T, halong, hreplaying,
    h.promised.step hrefines hserving.answerable hstep hwaits halong,
    fun j y w t hmem => ?_, fun i answer hmem => ?_, hfenced,
    h.rounds.step hthreads (fun hfail => hok.commits hfail) hterm hfenced T hstep, ?_,
    fun i answer req hi hmem hfound hreq hread => ?_⟩
  · rcases (step_serves hstep).written j y w t hmem with hold |
      ⟨rfl, op, hop, rfl, hphase, hcommit⟩
    · exact (h.acked j y w t hold).step hg hthreads hvotes T
    · exact (h.promised.acked hrefines hvotes hop hphase hcommit (hserving op hop)).step
        hg hthreads hvotes T
  · exact (hreads.known i answer hmem).elim
      (fun hold => (h.known i answer hold).trans_le hlength) id
  · exact h.after.imp_right fun ⟨x, t, hacked, hq⟩ =>
      ⟨x, t, hacked.step hg hthreads hvotes T, hq⟩
  · have hsame : ∀ old : ClientRequest, (c.ops.map ClientOp.request)[i]? = some old →
        old = req := by
      intro old hold
      obtain ⟨hlt, -⟩ := List.getElem?_eq_some_iff.mp hold
      rw [← hnew, List.getElem?_append_left hlt, hold] at hreq
      exact Option.some.inj hreq
    have hmono : ReadsCommitted cfg σ c index req.key answer →
        ReadsCommitted cfg σ' c' index req.key answer :=
      fun ⟨t, l, kv, hcommitted, hindex, ⟨y, hy, hle⟩, hrest⟩ =>
        ⟨t, l, kv, hg.committed le_rfl hcommitted, hindex, ⟨y, hy, hle.trans (happlied y)⟩, hrest⟩
    have hnone : ∀ op, c.ops[i]? = some op → op.request.command = none := fun op hop => by
      rw [hsame op.request (by simp [hop]), hread]
    rcases hreads.found i answer hmem hfound hnone with hold | ⟨rfl, op, hop, hphase, rfl⟩
    · have hold' := List.getElem?_eq_getElem (l := c.ops.map ClientOp.request)
        (by simpa using h.known i answer hold)
      exact hmono (h.served i answer req hi hold hfound (hsame _ hold' ▸ hold') hread)
    · obtain rfl := hsame op.request (by simp [hop])
      exact hmono (h.answered hrefines hthreads hvotes hi hop hphase (hserving op hop))

end Reads

section Runs

variable {cfg : Config} {as bs : List Action} {c₁ c : Cluster}

/-- Reads are linearizable along such steps. -/
def Linear (c : Cluster) (a : Action) : Prop :=
  c.Followable a ∧ c.Forward a ∧ c.Serving a

theorem Reads.exec
    {first index : Nat} {fence : String → Nat}
    (hthreads : c₁.Threads cfg)
    (h : ∃ g σ, Elections cfg g c₁ ∧ Refines cfg σ c₁ ∧ Reads cfg first index fence σ c₁)
    (halong : Along cfg Linear c₁ as)
    (hexec : c₁.exec cfg as = some c) :
    c.Threads cfg ∧
      ∃ g σ, Elections cfg g c ∧ Refines cfg σ c ∧ Reads cfg first index fence σ c :=
  exec_refines_from (fun _ _ hok => hok.1)
    (fun _ _ _ _ _ hthreads hvotes hrefines hok hstep h =>
      h.step hrefines hok.1 hok.2.1 hok.2.2 hthreads hvotes hstep)
    hthreads h halong hexec

/-- A read that is invoked after a write or delete was acknowledged and that returns a
value or `NotFound` returns the look-up of its key in the replay of the committed
commands through the index of the write or a later one. -/
theorem linearizable_reads
    (halong : Along cfg Linear init as)
    (hexec : init.exec cfg as = some c₁)
    {j index t : Nat} {x : String}
    (hwritten : .returned j (.written x index t) ∈ c₁.events)
    (halong' : Along cfg Linear c₁ bs)
    (hexec' : c₁.exec cfg bs = some c)
    {i : Nat} {op : ClientOp} {answer : Answer}
    (hinvoked : c₁.ops.length ≤ i)
    (hop : c.ops[i]? = some op)
    (hread : op.request.command = none)
    (hreturned : .returned i answer ∈ c.events)
    (hfound : Found answer) :
    ∃ l k kv, c.Commits cfg l ∧ index ≤ k ∧
      (∃ y ∈ cfg.members, k ≤ (c.node y).commitIndex) ∧
      Replayed cfg.json (l.take k) kv ∧ Looks kv op.request.key answer := by
  obtain ⟨hthreads, g₁, σ₁, hvotes, hrefines, hreads⟩ := Reads.exec threads_init
    ⟨_, _, elections_init, refines_init, reads_init⟩ halong hexec
  obtain ⟨-, -, σ, -, hrefines, hreads⟩ := Reads.exec hthreads
    ⟨g₁, σ₁, hvotes, hrefines, hreads.after_write hrefines hwritten⟩ halong' hexec'
  obtain ⟨u, p, kv, hcommitted, hindex, ⟨y, hy, happlied⟩, hreplayed, hlooks⟩ :=
    hreads.served i answer op.request hinvoked hreturned hfound (by simp [hop]) hread
  obtain ⟨l, hcommits, -, hextends⟩ := hrefines.commits [p]
    fun l hl => ⟨u, List.mem_singleton.mp hl ▸ hcommitted⟩
  have hle := hextends p (List.mem_singleton_self p)
  refine ⟨l, p.length, kv, hcommits, hindex,
    ⟨y, hy, happlied.trans (hrefines.nodes y).reached⟩, ?_, hlooks⟩
  rw [← List.prefix_iff_eq_take.mp hle]
  exact hreplayed

section Sample

open LogReplicator.Action

instance (n : Node) (op : ClientOp) : Decidable (LedBy n op) :=
  match op with
  | ⟨_, _, _, .waiting _ _⟩ => inferInstanceAs (Decidable (_ → _))
  | ⟨_, _, _, .routing⟩ | ⟨_, _, _, .proposing⟩ | ⟨_, _, _, .confirming _ _⟩
  | ⟨_, _, _, .reading⟩ | ⟨_, _, _, .done⟩ => inferInstanceAs (Decidable True)

instance (n : Node) : Decidable (Current n) :=
  decidable_of_iff
    (n.role = .leader ∧ n.store.term n.lastApplied = some n.currentTerm ∧
      n.lastApplied = n.commitIndex)
    ⟨fun h => ⟨h.1, h.2.1, h.2.2⟩, fun h => ⟨h.role, h.term, h.applied⟩⟩

instance (c : Cluster) (a : Action) : Decidable (c.Serving a) :=
  match a with
  | .poll i => inferInstanceAs (Decidable (∀ op ∈ c.ops[i]?, LedBy (c.node op.node) op))
  | .readKey i => inferInstanceAs (Decidable (∀ op ∈ c.ops[i]?, Current (c.node op.node)))
  | .campaign .. | .countVote .. | .missVote .. | .loseElection .. | .winElection ..
  | .commitAlone .. | .deliver .. | .replicate .. | .giveUp .. | .checkLeader ..
  | .checkSnapshot .. | .sendEntries .. | .sendSnapshot .. | .callFails .. | .appendReply ..
  | .appendDone .. | .snapshotReply .. | .snapshotDone .. | .invoke .. | .route ..
  | .propose .. | .expire .. | .confirm .. | .crash .. =>
      inferInstanceAs (Decidable True)

instance (c : Cluster) (a : Action) : Decidable (c.Linear a) :=
  inferInstanceAs (Decidable (_ ∧ _ ∧ _))

/-- A read at `a`, confirmed by `b`. -/
def confirmedRead : List Action :=
  [invoke "a" (.read "k1"), route 1] ++ checks "a" "b" (some 1) ++
    appendCall "a" "b" 3 1 1 true ++
    [replicate "a" "c" (some 1), giveUp "a" "c", confirm 1, readKey 1]

/-- The read after the write of `firstAnswer`. -/
theorem linearizable_reads_confirmedRead :
    Along (trio fun _ => 0) Linear init firstAnswer ∧
      ∃ c₁ c, init.exec (trio fun _ => 0) firstAnswer = some c₁ ∧
        Along (trio fun _ => 0) Linear c₁ confirmedRead ∧
        c₁.exec (trio fun _ => 0) confirmedRead = some c ∧
        .returned 0 (.written "a" 1 1) ∈ c₁.events ∧ c₁.ops.length = 1 ∧
        .returned 1 (.value "a" "v1") ∈ c.events ∧
        ∃ l k kv, c.Commits (trio fun _ => 0) l ∧ 1 ≤ k ∧
          (∃ y ∈ (trio fun _ => 0).members, k ≤ (c.node y).commitIndex) ∧
          Replayed Json.compact (l.take k) kv ∧ Looks kv "k1" (.value "a" "v1") := by
  have halong : Along (trio fun _ => 0) Linear init firstAnswer := by
    decide +kernel
  have hrun : ((init.exec (trio fun _ => 0) firstAnswer).map fun c =>
      decide (.returned 0 (.written "a" 1 1) ∈ c.events ∧ c.ops.length = 1 ∧
        Along (trio fun _ => 0) Linear c confirmedRead ∧
        ((c.exec (trio fun _ => 0) confirmedRead).map fun c' =>
          decide (.returned 1 (.value "a" "v1") ∈ c'.events ∧
            (c'.ops.map ClientOp.request)[1]? = some (.read "k1"))) = some true)) =
        some true := by
    decide +kernel
  obtain ⟨c₁, hexec, hstate⟩ := Option.map_eq_some_iff.mp hrun
  obtain ⟨hwritten, hlength, halong', hrun'⟩ := of_decide_eq_true hstate
  obtain ⟨c, hexec', hstate'⟩ := Option.map_eq_some_iff.mp hrun'
  obtain ⟨hreturned, hrequest⟩ := of_decide_eq_true hstate'
  rw [List.getElem?_map] at hrequest
  obtain ⟨op, hop, hread⟩ := Option.map_eq_some_iff.mp hrequest
  have hanswer := linearizable_reads halong hexec hwritten halong' hexec' (i := 1)
    (by omega) hop (by rw [hread]; rfl) hreturned trivial
  rw [hread] at hanswer
  exact ⟨halong, c₁, c, hexec, halong', hexec', hwritten, hlength, hreturned, hanswer⟩

/-- The call for which the event reports that there is no such key. -/
def missed : Event → Option Nat
  | .returned i (.failed status) => if status.code = .notFound then some i else none
  | _ => none

theorem missed_eq_some
    {event : Event} {i : Nat}
    (h : missed event = some i) :
    ∃ status, status.code = .notFound ∧ event = .returned i (.failed status) := by
  unfold missed at h
  split at h
  · split_ifs at h with hcode
    cases h
    exact ⟨_, hcode, rfl⟩
  · cases h

/-- The leader `b` of term 2 has the acknowledged write of `a` in its log and has not
committed it.  It sends the entry to `c` in the heartbeat round of the read, and does
not count it. -/
def freshLeader : List Action :=
  elect "a" "b" 0 1 ++ proposal "a" 0 "k1" "v1" ++ checks "a" "b" none ++
    appendCall "a" "b" 2 1 1 true ++ [poll 0] ++ elect "b" "c" 4 2

def freshRead : List Action :=
  [invoke "b" (.read "k1"), route 1] ++ checks "b" "c" (some 1) ++
    appendCall "b" "c" 5 2 0 false ++ [checkLeader "b" "c", checkSnapshot "b" "c"] ++
    appendCall "b" "c" 6 2 1 true ++
    [replicate "b" "a" (some 1), giveUp "b" "a", confirm 1, readKey 1]

/-- The read of `k1` is invoked after the write of `k1` with index 1 was acknowledged,
and returns `NotFound`: not what any replay through index 1 or later says. -/
theorem stale_read_of_freshLeader :
    Along (trio fun _ => 0) (fun c a => .fail ∉ a.outcomes ∧ c.TermsLeft a) init
        (freshLeader ++ freshRead) ∧
      ∃ c₁ c, init.exec (trio fun _ => 0) freshLeader = some c₁ ∧
        .returned 0 (.written "a" 1 1) ∈ c₁.events ∧ c₁.ops.length = 1 ∧
        c₁.exec (trio fun _ => 0) freshRead = some c ∧
        (c.ops.map ClientOp.request)[1]? = some (.read "k1") ∧
        ∃ status, status.code = .notFound ∧ .returned 1 (.failed status) ∈ c.events ∧
          ∀ l k kv, c.Commits (trio fun _ => 0) l → 1 ≤ k →
            (∃ y ∈ (trio fun _ => 0).members, k ≤ (c.node y).commitIndex) →
            Replayed Json.compact (l.take k) kv → ¬ Looks kv "k1" (.failed status) := by
  have halong : Along (trio fun _ => 0) (fun c a => .fail ∉ a.outcomes ∧ c.TermsLeft a) init
      (freshLeader ++ freshRead) := by
    decide +kernel
  have hrun : ((init.exec (trio fun _ => 0) freshLeader).map fun c =>
      decide (.returned 0 (.written "a" 1 1) ∈ c.events ∧ c.ops.length = 1 ∧
        ((c.exec (trio fun _ => 0) freshRead).map fun c' =>
          decide ((c'.ops.map ClientOp.request)[1]? = some (.read "k1") ∧
            some 1 ∈ c'.events.map missed ∧
            .committed "a" 1 1 [⟨1, 1, Command.encode Json.compact ⟨.set, "k1", "v1"⟩⟩] ∈
              c'.events ∧
            ∀ y ∈ (trio fun _ => 0).members, (c'.node y).commitIndex ≤ 1)) = some true)) =
        some true := by
    decide +kernel
  obtain ⟨c₁, hexec, hstate⟩ := Option.map_eq_some_iff.mp hrun
  obtain ⟨hwritten, hlength, hrun'⟩ := of_decide_eq_true hstate
  obtain ⟨c, hexec', hstate'⟩ := Option.map_eq_some_iff.mp hrun'
  obtain ⟨hrequest, hmissed, hcommitted, hcommit⟩ := of_decide_eq_true hstate'
  obtain ⟨event, hreturned, hevent⟩ := List.mem_map.mp hmissed
  obtain ⟨status, hstatus, rfl⟩ := missed_eq_some hevent
  refine ⟨halong, c₁, c, hexec, hwritten, hlength, hexec', hrequest, status, hstatus, hreturned,
    fun l k kv hcommits hk ⟨y, hy, hle⟩ hreplayed => ?_⟩
  have hfirst : l[0]? = some ⟨1, 1, Command.encode Json.compact ⟨.set, "k1", "v1"⟩⟩ :=
    (hcommits.recorded _ _ _ _ hcommitted).2 _ (List.mem_singleton_self _)
  obtain rfl : k = 1 := le_antisymm (hle.trans (hcommit y hy)) hk
  have htake : l.take 1 = [⟨1, 1, Command.encode Json.compact ⟨.set, "k1", "v1"⟩⟩] := by
    rw [List.take_one, List.head?_eq_getElem?, hfirst]
    rfl
  rw [htake] at hreplayed
  have hset : Replayed Json.compact [⟨1, 1, Command.encode Json.compact ⟨.set, "k1", "v1"⟩⟩]
      (replay [⟨.set, "k1", "v1"⟩]) :=
    ⟨[⟨.set, "k1", "v1"⟩], by decide +kernel, rfl⟩
  obtain rfl := hreplayed.unique hset
  show ¬ (replay [⟨.set, "k1", "v1"⟩]).get "k1" = none
  decide +kernel

end Sample

end Runs

end Cluster

end LogReplicator
