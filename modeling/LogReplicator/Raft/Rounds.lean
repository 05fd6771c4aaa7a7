import LogReplicator.Raft.Steps

/-!
# Heartbeat rounds

`confirmLeadership` counts the peers that answer a heartbeat.  A peer that answers
after the read was invoked had no later term than the reader when the read was
invoked.
-/

namespace LogReplicator

open Library

/-- The read that `replicatePeer` works for. -/
def Sender.owner : Sender → Option Nat
  | .idle => none
  | .looping _ owner | .leading _ owner | .entries _ owner | .snapshot owner
  | .appendSent _ owner _ _ | .appendReplied _ owner _ _ | .snapshotSent owner _ _
  | .snapshotReplied owner _ => owner

namespace Cluster

/-- A reply shows that the peer had a term of at least `fence`; a reply that was
accepted shows that the sender has. -/
def Fenced (replies : List (Nat × Response)) (fence term : Nat) : Sender → Prop
  | .appendSent _ _ id _ => ∀ resp, (id, Response.append resp) ∈ replies → fence ≤ resp.term
  | .snapshotSent _ id _ =>
      ∀ resp, (id, Response.snapshot resp) ∈ replies → fence ≤ resp.term
  | .appendReplied _ _ _ _ => fence ≤ term
  | .snapshotReplied _ _ => fence ≤ term
  | _ => True

/-- The goroutine of `y` for `p` works for this call. -/
def WorksFor (y p : String) (op : ClientOp) : Prop :=
  op.phase ≠ .routing ∧
    ∀ pending k, op.phase = .confirming pending k → op.node = y ∧ p ∈ pending

/-- The rounds of the reads from number `first` on: the peers that were counted had
no later term at the time of `fence` than the reader has. -/
structure Rounds (cfg : Config) (first : Nat) (fence term : String → Nat)
    (replies : List (Nat × Response)) (c : Cluster) : Prop where
  owners : ∀ y p i, ((c.procs y).sender p).owner = some i → first ≤ i →
    Fenced replies (fence p) (term y) ((c.procs y).sender p) ∧
      ∃ op, c.ops[i]? = some op ∧ WorksFor y p op
  confirming : ∀ (i : Nat) (op : ClientOp) (pending : List String) (k : Nat), first ≤ i →
    c.ops[i]? = some op → op.phase = .confirming pending k →
    pending.Nodup ∧ ∃ S : Finset String, k = S.card + 1 ∧
      ∀ v ∈ S, v ∈ (cfg.options op.node).peers ∧ v ∉ pending ∧ fence v ≤ term op.node
  reading : ∀ (i : Nat) (op : ClientOp), first ≤ i → c.ops[i]? = some op →
    op.phase = .reading → ∃ S : Finset String,
      Node.majority (cfg.options op.node) ≤ S.card + 1 ∧
      ∀ v ∈ S, v ∈ (cfg.options op.node).peers ∧ fence v ≤ term op.node

section Primitives

variable {cfg : Config} {first : Nat} {fence term term' : String → Nat}
variable {replies replies' : List (Nat × Response)}
variable {c c' : Cluster} {x p : String} {i : Nat} {op op' : ClientOp}

theorem Rounds.of_eq
    (h : c.Rounds cfg first fence term replies)
    (hops : c'.ops = c.ops)
    (hsenders : ∀ y q, (c'.procs y).sender q = (c.procs y).sender q) :
    c'.Rounds cfg first fence term replies := by
  refine ⟨fun y q i howner hi => ?_, ?_, ?_⟩
  · rw [hsenders] at howner ⊢
    rw [hops]
    exact h.owners y q i howner hi
  · rw [hops]
    exact h.confirming
  · rw [hops]
    exact h.reading

theorem Rounds.setNode
    (h : c.Rounds cfg first fence term replies)
    (n : Node) :
    (c.setNode x n).Rounds cfg first fence term replies :=
  h.of_eq rfl (by simp)

theorem Rounds.setElection
    (h : c.Rounds cfg first fence term replies)
    (e : Election) :
    (c.setElection x e).Rounds cfg first fence term replies :=
  h.of_eq rfl (by simp)

theorem Rounds.record
    (h : c.Rounds cfg first fence term replies)
    (es : List Event) :
    (c.record es).Rounds cfg first fence term replies :=
  h.of_eq rfl fun _ _ => rfl

theorem Rounds.send
    (h : c.Rounds cfg first fence term replies)
    (call : Call) :
    (c.send call).Rounds cfg first fence term replies :=
  h.of_eq rfl fun _ _ => rfl

theorem Rounds.answer
    (h : c.Rounds cfg first fence term replies)
    (id : Nat) (resp : Option Response) :
    (c.answer id resp).Rounds cfg first fence term replies :=
  h.of_eq (by simp) (by simp)

theorem Rounds.requestVotes
    (h : c.Rounds cfg first fence term replies)
    (round : Candidacy) (ps : List String) :
    (c.requestVotes x round ps).1.Rounds cfg first fence term replies := by
  induction ps generalizing c with
  | nil =>
      exact h
  | cons q ps ih =>
      exact ih (h.send _)

/-- A goroutine goes on for the same read. -/
theorem Rounds.setSender
    (h : c.Rounds cfg first fence term replies)
    {s : Sender}
    (howner : s.owner = ((c.procs x).sender p).owner)
    (hfenced : ∀ i, s.owner = some i → first ≤ i → Fenced replies (fence p) (term x) s) :
    (c.setSender x p s).Rounds cfg first fence term replies := by
  refine ⟨fun y q i hi hfirst => ?_, h.confirming, h.reading⟩
  rw [sender_setSender] at hi ⊢
  split_ifs at hi ⊢ with hsame
  · obtain ⟨rfl, rfl⟩ := hsame
    exact ⟨hfenced i hi hfirst, (h.owners y q i (howner ▸ hi) hfirst).2⟩
  · exact h.owners y q i hi hfirst

/-- A goroutine starts to work for a read. -/
theorem Rounds.startSender
    (h : c.Rounds cfg first fence term replies)
    {round : Nat} {owner : Option Nat}
    (hop : ∀ i, owner = some i → ∃ op, c.ops[i]? = some op ∧ WorksFor x p op) :
    (c.setSender x p (.looping round owner)).Rounds cfg first fence term replies := by
  refine ⟨fun y q i hi hfirst => ?_, h.confirming, h.reading⟩
  rw [sender_setSender] at hi ⊢
  split_ifs at hi ⊢ with hsame
  · obtain ⟨rfl, rfl⟩ := hsame
    exact ⟨trivial, hop i hi⟩
  · exact h.owners y q i hi hfirst

/-- A call goes on to a phase that counts nobody. -/
theorem Rounds.setOp
    (h : c.Rounds cfg first fence term replies)
    (hop : c.ops[i]? = some op)
    (hrouting : op'.phase = .routing → op.phase = .routing)
    (hconfirming : ∀ pending k, op'.phase ≠ .confirming pending k)
    (hreading : op'.phase ≠ .reading) :
    (c.setOp i op').Rounds cfg first fence term replies := by
  obtain ⟨hlt, -⟩ := List.getElem?_eq_some_iff.mp hop
  refine ⟨fun y q j hj hfirst => ?_, fun j d pending k hfirst hd hphase => ?_,
    fun j d hfirst hd hphase => ?_⟩
  · obtain ⟨hfenced, d, hd, hworks⟩ := h.owners y q j hj hfirst
    refine ⟨hfenced, ?_⟩
    by_cases hij : i = j
    · subst hij
      rw [hop, Option.some.injEq] at hd
      subst hd
      exact ⟨op', by rw [ops_setOp, List.getElem?_set_self hlt],
        fun hr => hworks.1 (hrouting hr), fun pending k hp => absurd hp (hconfirming pending k)⟩
    · exact ⟨d, by rw [ops_setOp, List.getElem?_set_ne hij, hd], hworks⟩
  · rw [ops_setOp, List.getElem?_set] at hd
    split_ifs at hd
    · cases hd
      exact absurd hphase (hconfirming pending k)
    · exact h.confirming j d pending k hfirst hd hphase
  · rw [ops_setOp, List.getElem?_set] at hd
    split_ifs at hd
    · cases hd
      exact absurd hphase hreading
    · exact h.reading j d hfirst hd hphase

theorem Rounds.finish
    (h : c.Rounds cfg first fence term replies)
    (hop : c.ops[i]? = some op)
    (answer : Answer) :
    (c.finish i op answer).Rounds cfg first fence term replies := by
  have hset : (c.setPhase i op .done).Rounds cfg first fence term replies :=
    h.setOp hop (by simp) (by simp) (by simp)
  exact hset.record _

theorem Rounds.restart
    (h : c.Rounds cfg first fence term replies)
    (store : Store) :
    (c.restart x store).Rounds cfg first fence term replies := by
  have hops : ∀ {j : Nat} {d : ClientOp}, (c.restart x store).ops[j]? = some d →
      d.phase ≠ .done → c.ops[j]? = some d := by
    intro j d hd hphase
    obtain ⟨d', hd', rfl⟩ := Option.map_eq_some_iff.mp (List.getElem?_map ▸ hd)
    split_ifs at hphase ⊢
    · exact absurd rfl hphase
    · exact hd'
  refine ⟨fun y q j hj hfirst => ?_, fun j d pending k hfirst hd hphase => ?_,
    fun j d hfirst hd hphase => ?_⟩
  · rw [sender_restart] at hj ⊢
    split_ifs at hj ⊢ with hy
    · cases hj
    · obtain ⟨hfenced, d, hd, hworks⟩ := h.owners y q j hj hfirst
      refine ⟨hfenced, _, by rw [Cluster.restart, List.getElem?_map, hd]; rfl, ?_⟩
      simp only
      split_ifs
      · exact ⟨by simp, by simp⟩
      · exact hworks
  · exact h.confirming j d pending k hfirst (hops hd (by simp [hphase])) hphase
  · exact h.reading j d hfirst (hops hd (by simp [hphase])) hphase

theorem Rounds.runSection
    {α : Type} {m : Txn Node α} {os : List Outcome} {k : Cluster → α → Cluster}
    (h : c.Rounds cfg first fence term replies)
    (hk : ∀ n r, (c.setNode x n).Rounds cfg first fence term replies →
      (k (c.setNode x n) r).Rounds cfg first fence term replies) :
    (c.runSection x m os k).Rounds cfg first fence term replies := by
  unfold Cluster.runSection
  rcases m os (c.node x) with ⟨_ | r, n, os'⟩
  · exact h.restart n.store
  · exact hk n r (h.setNode n)

theorem Rounds.fenced
    (h : c.Rounds cfg first fence term replies)
    {s : Sender}
    (hs : (c.procs x).sender p = s)
    (howner : s.owner = some i)
    (hfirst : first ≤ i) :
    Fenced replies (fence p) (term x) s := by
  subst hs
  exact (h.owners x p i howner hfirst).1

/-- A pending peer is counted, if it is in sync, and no longer pending. -/
theorem counted_erase
    {peers pending : List String} {good : String → Prop} {inSync : Bool} {k : Nat}
    {S : Finset String}
    (hnodup : pending.Nodup)
    (hp : p ∈ pending)
    (hpeer : p ∈ peers)
    (hgood : inSync = true → good p)
    (hk : k = S.card + 1)
    (hS : ∀ v ∈ S, v ∈ peers ∧ v ∉ pending ∧ good v) :
    ∃ S' : Finset String, (if inSync then k + 1 else k) = S'.card + 1 ∧
      ∀ v ∈ S', v ∈ peers ∧ v ∉ pending.erase p ∧ good v := by
  have hold : ∀ v ∈ S, v ∈ peers ∧ v ∉ pending.erase p ∧ good v := fun v hv =>
    ⟨(hS v hv).1, fun hmem => (hS v hv).2.1 (List.mem_of_mem_erase hmem), (hS v hv).2.2⟩
  cases inSync with
  | false =>
      exact ⟨S, hk, hold⟩
  | true =>
      have hnew : p ∉ S := fun hmem => (hS p hmem).2.1 hp
      refine ⟨insert p S, by simp [Finset.card_insert_of_notMem hnew, hk], fun v hv => ?_⟩
      rcases Finset.mem_insert.mp hv with rfl | hv
      · exact ⟨hpeer, hnodup.not_mem_erase, hgood rfl⟩
      · exact hold v hv

/-- `replicatePeer` returns: the read it worked for counts the peer, if it is in
sync. -/
theorem Rounds.senderReturns
    (h : c.Rounds cfg first fence term replies)
    {owner : Option Nat} {inSync : Bool}
    (howner : owner = ((c.procs x).sender p).owner)
    (hsync : ∀ i, owner = some i → first ≤ i → inSync = true → fence p ≤ term x)
    (hpeer : p ∈ (cfg.options x).peers) :
    (c.senderReturns x p owner inSync).Rounds cfg first fence term replies := by
  have hidle : (c.setSender x p .idle).Rounds cfg first fence term replies := by
    refine ⟨fun y q i hi hfirst => ?_, h.confirming, h.reading⟩
    rw [sender_setSender] at hi ⊢
    split_ifs at hi ⊢
    · cases hi
    · exact h.owners y q i hi hfirst
  rcases senderReturns_cases c x p owner inSync with heq |
    ⟨i, op, pending, k, hi, hop, hphase, heq⟩
  · rw [heq]
    exact hidle
  rw [heq]
  subst hi
  obtain ⟨hlt, -⟩ := List.getElem?_eq_some_iff.mp hop
  generalize hcount : (if inSync then k + 1 else k) = count
  refine ⟨fun y q j hj hfirst => ?_, fun j d pending' k' hfirst hd hphase' => ?_,
    fun j d hfirst hd hphase' => ?_⟩
  · obtain ⟨hfenced, d, hd, hrouting, hworks⟩ := hidle.owners y q j hj hfirst
    refine ⟨hfenced, ?_⟩
    by_cases hij : i = j
    · subst hij
      refine ⟨_, List.getElem?_set_self (l := c.ops) hlt, by simp, ?_⟩
      intro pending' k' hconfirming
      cases hconfirming
      rw [ops_setSender, hop, Option.some.injEq] at hd
      subst hd
      obtain ⟨hy, hq⟩ := hworks pending k hphase
      -- another goroutine of the same node works for another peer
      have hne : q ≠ p := by
        rintro rfl
        obtain ⟨-, d, hd, -, hworks'⟩ := h.owners x q i howner.symm hfirst
        rw [hop, Option.some.injEq] at hd
        subst hd
        have hx := (hworks' pending k hphase).1
        rw [← hy, hx, procs_setPhase, sender_setSender, if_pos ⟨rfl, rfl⟩] at hj
        cases hj
      exact ⟨hy, (List.mem_erase_of_ne hne).mpr hq⟩
    · exact ⟨d, by rw [ops_setPhase, List.getElem?_set_ne hij, hd], hrouting, hworks⟩
  · rw [ops_setPhase, List.getElem?_set] at hd
    split_ifs at hd with hij
    · subst hij
      cases hd
      cases hphase'
      obtain ⟨hnodup, S, hk, hS⟩ := h.confirming i op pending k hfirst hop hphase
      obtain ⟨-, d, hd, -, hworks⟩ := h.owners x p i howner.symm hfirst
      rw [hop, Option.some.injEq] at hd
      subst hd
      obtain ⟨hx, hp⟩ := hworks pending k hphase
      refine ⟨hnodup.erase p, ?_⟩
      rw [← hcount]
      exact counted_erase hnodup hp (hx ▸ hpeer) (fun hin => hx ▸ hsync i rfl hfirst hin) hk hS
    · exact h.confirming j d pending' k' hfirst hd hphase'
  · rw [ops_setPhase, List.getElem?_set] at hd
    split_ifs at hd
    · cases hd
      cases hphase'
    · exact h.reading j d hfirst hd hphase'

end Primitives

section Steps

variable {cfg : Config} {first : Nat} {fence term : String → Nat}
variable {replies : List (Nat × Response)}
variable {c c' : Cluster} {a : Action}

theorem electionStep_rounds
    (h : c.Rounds cfg first fence term replies)
    (hstep : c.electionStep cfg a = some c') :
    c'.Rounds cfg first fence term replies := by
  cases a with
  | campaign x os =>
      simp only [electionStep] at hstep
      obtain ⟨-, hstep⟩ := Option.ite_none_right_eq_some.mp hstep
      cases hstep
      unfold startElection
      refine h.runSection fun n candidacy hn => ?_
      cases candidacy with
      | none =>
          exact hn
      | some round =>
          simp only
          split_ifs
          · exact hn.setElection _
          · exact (hn.requestVotes round _).setElection _
  | countVote x peer id resp os =>
      simp only [electionStep] at hstep
      split at hstep
      · obtain ⟨-, hstep⟩ := Option.ite_none_right_eq_some.mp hstep
        cases hstep
        refine h.runSection fun n higher hn => ?_
        split_ifs <;> exact hn.setElection _
      · cases hstep
  | missVote x peer id =>
      simp only [electionStep] at hstep
      split at hstep
      · obtain ⟨-, hstep⟩ := Option.ite_none_right_eq_some.mp hstep
        cases hstep
        exact h.setElection _
      · cases hstep
  | loseElection x =>
      simp only [electionStep] at hstep
      split at hstep
      · obtain ⟨-, hstep⟩ := Option.ite_none_right_eq_some.mp hstep
        cases hstep
        exact h.setElection _
      · cases hstep
  | winElection x os =>
      simp only [electionStep] at hstep
      split at hstep
      · obtain ⟨-, hstep⟩ := Option.ite_none_right_eq_some.mp hstep
        cases hstep
        refine h.runSection fun n won hn => ?_
        cases won
        · exact hn.setElection _
        · exact (hn.setElection _).record _
      · cases hstep
  | commitAlone x os =>
      simp only [electionStep] at hstep
      split at hstep
      · cases hstep
        exact ((h.record _).setElection _).runSection fun n _ hn => hn
      · cases hstep
  | _ => cases hstep

theorem handle_rounds
    (h : c.Rounds cfg first fence term replies)
    (id : Nat) (call : Call) (os : List Outcome) :
    (c.handle cfg id call os).Rounds cfg first fence term replies := by
  obtain ⟨src, dst, request⟩ := call
  cases request <;> simp only [handle] <;>
    exact h.runSection fun n _ hn => hn.answer _ _

/-- A goroutine that works has a peer. -/
theorem Threads.peer
    {x p : String}
    (h : c.Threads cfg)
    (hs : (c.procs x).sender p ≠ .idle) :
    p ∈ (cfg.options x).peers := by
  rcases h.sender x p with hidle | ⟨-, hp, -⟩
  · exact absurd hidle hs
  · exact hp

/-- A reply with a higher term ends the round; any other leaves the node alone. -/
theorem Rounds.observed
    {x : String} {t : Nat} {os : List Outcome} {k : Cluster → Bool → Cluster}
    (h : c.Rounds cfg first fence term replies)
    (hos : Txn.Allowed False os)
    (hhigher : ∀ n, (k (c.setNode x n) true).Rounds cfg first fence term replies)
    (hknown : t ≤ (c.node x).currentTerm → (k c false).Rounds cfg first fence term replies) :
    (c.runSection x (Node.observeHigherTerm t) os k).Rounds cfg first fence term replies := by
  rcases @observeHigherTerm_cases cfg False c x t os k hos with
    ⟨n, saved, heq, -⟩ | ⟨hle, heq⟩ | ⟨store, heq, -⟩
  · rw [heq]
    exact hhigher n
  · rw [heq]
    exact hknown hle
  · rw [heq]
    exact h.restart store

/-- A reply with no higher term is taken up for the same read. -/
theorem Rounds.replied
    {x p : String} {s s' : Sender} {owner : Option Nat} {t : Nat} {os : List Outcome}
    (h : c.Rounds cfg first fence term replies)
    (hthreads : c.Threads cfg)
    (hos : Txn.Allowed False os)
    (hs : (c.procs x).sender p = s)
    (hidle : s ≠ .idle)
    (howner : s.owner = owner)
    (howner' : s'.owner = owner)
    (hfenced : ∀ i, owner = some i → first ≤ i → t ≤ (c.node x).currentTerm →
      Fenced replies (fence p) (term x) s') :
    (c.runSection x (Node.observeHigherTerm t) os fun c higher =>
      if higher then c.senderReturns x p owner false
      else c.setSender x p s').Rounds cfg first fence term replies := by
  subst hs
  refine h.observed hos (fun n => ?_) fun hle => ?_
  · rw [if_pos rfl]
    exact (h.setNode n).senderReturns (by rw [sender_setNode, howner]) (by simp)
      (hthreads.peer hidle)
  · rw [if_neg (by simp)]
    exact h.setSender (howner'.trans howner.symm) fun i hi hfirst =>
      hfenced i (howner' ▸ hi) hfirst hle

theorem senderStep_rounds
    (h : c.Rounds cfg first fence term replies)
    (hthreads : c.Threads cfg)
    (hos : Txn.Allowed False a.outcomes)
    (hterm : ∀ y, (c.node y).currentTerm ≤ term y)
    (hreplies : ∀ r ∈ c.replies, r ∈ replies)
    (hfresh : ∀ r ∈ replies, r.1 < c.calls.length)
    (hstep : c.senderStep cfg a = some c') :
    c'.Rounds cfg first fence term replies := by
  have hreturns : ∀ {x p : String} {s : Sender} {inSync : Bool} {d : Cluster},
      (c.procs x).sender p = s → s ≠ .idle → d.Rounds cfg first fence term replies →
      (d.procs x).sender p = (c.procs x).sender p →
      (∀ i, s.owner = some i → first ≤ i → inSync = true → fence p ≤ term x) →
      (d.senderReturns x p s.owner inSync).Rounds cfg first fence term replies := by
    rintro x p s inSync d rfl hs hd hsame hsync
    exact hd.senderReturns (by rw [hsame]) hsync (hthreads.peer hs)
  cases a with
  | replicate x p owner =>
      simp only [senderStep] at hstep
      obtain ⟨-, hstep⟩ := Option.ite_none_right_eq_some.mp hstep
      split at hstep
      · cases hstep
        exact h.startSender (by simp)
      · split at hstep
        · next i _ _ y _ pending k hop =>
            obtain ⟨⟨rfl, hp⟩, hstep⟩ := Option.ite_none_right_eq_some.mp hstep
            cases hstep
            refine h.startSender fun j hj => ?_
            cases hj
            refine ⟨_, hop, by simp, fun pending' k' hphase => ?_⟩
            cases hphase
            exact ⟨rfl, hp⟩
        · cases hstep
  | giveUp x p =>
      simp only [senderStep] at hstep
      split at hstep
      · next round owner hs =>
          cases hstep
          exact hreturns hs (by simp) h rfl (by simp)
      · cases hstep
  | checkLeader x p =>
      simp only [senderStep] at hstep
      split at hstep
      · next round owner hs =>
          split_ifs at hstep
          all_goals cases hstep
          · exact h.setSender (by rw [hs]; rfl) fun _ _ _ => trivial
          · exact hreturns hs (by simp) h rfl (by simp)
      · cases hstep
  | checkSnapshot x p =>
      simp only [senderStep] at hstep
      split at hstep
      · next round owner hs =>
          split_ifs at hstep
          all_goals
            cases hstep
            exact h.setSender (by rw [hs]; rfl) fun _ _ _ => trivial
      · cases hstep
  | sendEntries x p =>
      simp only [senderStep] at hstep
      split at hstep
      · next round owner hs =>
          rcases buildAppendRequestLocked_cases (c.node x) (cfg.options x) p with
            ⟨next, hbuild⟩ | ⟨prevLogTerm, -, hbuild⟩
          · rw [hbuild] at hstep
            simp only at hstep
            split_ifs at hstep
            all_goals cases hstep
            · exact (h.setNode _).setSender (by rw [sender_setNode, hs]; rfl)
                fun _ _ _ => trivial
            · exact hreturns hs (by simp) (h.setNode _) (by simp) (by simp)
          · rw [hbuild] at hstep
            cases hstep
            refine ((h.setNode _).send _).setSender
              (by rw [procs_send, sender_setNode, hs]; rfl) fun _ _ _ resp hmem => ?_
            exact absurd (hfresh _ hmem) (lt_irrefl _)
      · cases hstep
  | sendSnapshot x p =>
      simp only [senderStep] at hstep
      split at hstep
      · next owner hs =>
          cases hstep
          refine (h.send _).setSender (by rw [procs_send, hs]; rfl) fun _ _ _ resp hmem => ?_
          exact absurd (hfresh _ hmem) (lt_irrefl _)
      · cases hstep
  | callFails x p =>
      simp only [senderStep] at hstep
      split at hstep
      · next hs =>
          cases hstep
          exact hreturns hs (by simp) h rfl (by simp)
      · next hs =>
          cases hstep
          exact hreturns hs (by simp) h rfl (by simp)
      · cases hstep
  | appendReply x p resp os =>
      simp only [senderStep] at hstep
      split at hstep
      · next round owner id req hs =>
          obtain ⟨hreply, hstep⟩ := Option.ite_none_right_eq_some.mp hstep
          cases hstep
          refine h.replied hthreads hos hs (by simp) rfl rfl fun i hi hfirst hle => ?_
          exact (h.fenced hs hi hfirst resp (hreplies _ hreply)).trans (hle.trans (hterm x))
      · cases hstep
  | appendDone x p os =>
      simp only [senderStep] at hstep
      split at hstep
      · next round owner req resp hs =>
          cases hstep
          refine (h.record _).runSection fun n outcome hn => ?_
          cases outcome with
          | accepted =>
              exact hreturns hs (by simp) hn (by simp) fun i hi hfirst _ =>
                h.fenced hs hi hfirst
          | failed => exact hreturns hs (by simp) hn (by simp) (by simp)
          | rejected =>
              by_cases hround : round + 1 < maxAppendRounds
              · simp only [if_pos hround]
                exact hn.setSender (by rw [sender_setNode, procs_record, hs]; rfl)
                  fun _ _ _ => trivial
              · simp only [if_neg hround]
                exact hreturns hs (by simp) hn (by simp) (by simp)
      · cases hstep
  | snapshotReply x p resp os =>
      simp only [senderStep] at hstep
      split at hstep
      · next owner id req hs =>
          obtain ⟨hreply, hstep⟩ := Option.ite_none_right_eq_some.mp hstep
          cases hstep
          refine h.replied hthreads hos hs (by simp) rfl rfl fun i hi hfirst hle => ?_
          exact (h.fenced hs hi hfirst resp (hreplies _ hreply)).trans (hle.trans (hterm x))
      · cases hstep
  | snapshotDone x p os =>
      simp only [senderStep] at hstep
      split at hstep
      · next owner req hs =>
          cases hstep
          refine (h.record _).runSection fun n inSync hn => ?_
          exact hreturns hs (by simp) hn (by simp) fun i hi hfirst _ => h.fenced hs hi hfirst
      · cases hstep
  | _ => cases hstep

/-- A new call. -/
theorem invoke_rounds
    {x : String} {req : ClientRequest}
    (h : c.Rounds cfg first fence term replies)
    (hstep : c.clientStep cfg (.invoke x req) = some c') :
    c'.Rounds cfg first fence term replies := by
  simp only [clientStep] at hstep
  obtain ⟨-, hstep⟩ := Option.ite_none_right_eq_some.mp hstep
  generalize hc₁ : ({ c with ops := c.ops ++ [(⟨req, x, false, .routing⟩ : ClientOp)] } :
    Cluster).record [.invoked c.ops.length] = c₁ at hstep
  have hops : ∀ {j : Nat} {d : ClientOp}, c₁.ops[j]? = some d → d.phase ≠ .routing →
      c.ops[j]? = some d := by
    subst hc₁
    intro j d hd hphase
    rw [ops_record, List.getElem?_append] at hd
    split_ifs at hd
    · exact hd
    · rw [List.getElem?_singleton] at hd
      split_ifs at hd
      cases hd
      exact absurd rfl hphase
  have hnew : c₁.Rounds cfg first fence term replies := by
    refine ⟨fun y q j hj hfirst => ?_, fun j d pending k hfirst hd hphase => ?_,
      fun j d hfirst hd hphase => ?_⟩
    · subst hc₁
      obtain ⟨hfenced, d, hd, hworks⟩ := h.owners y q j hj hfirst
      obtain ⟨hlt, -⟩ := List.getElem?_eq_some_iff.mp hd
      exact ⟨hfenced, d, by rw [ops_record, List.getElem?_append_left hlt, hd], hworks⟩
    · exact h.confirming j d pending k hfirst (hops hd (by simp [hphase])) hphase
    · exact h.reading j d hfirst (hops hd (by simp [hphase])) hphase
  split_ifs at hstep
  all_goals cases hstep
  · refine hnew.finish ?_ _
    subst hc₁
    simp
  · exact hnew

/-- A read starts to ask its peers. -/
theorem Rounds.startConfirming
    {i : Nat} {op : ClientOp}
    (h : c.Rounds cfg first fence term replies)
    (hop : c.ops[i]? = some op)
    (hphase : op.phase = .routing) :
    (c.setPhase i op (.confirming (cfg.options op.node).peers 1)).Rounds cfg first fence term
      replies := by
  refine ⟨fun y q j hj hfirst => ?_, fun j d pending k hfirst hd hphase' => ?_,
    fun j d hfirst hd hphase' => ?_⟩
  · obtain ⟨hfenced, d, hd, hworks⟩ := h.owners y q j hj hfirst
    have hij : i ≠ j := by
      rintro rfl
      rw [hop, Option.some.injEq] at hd
      subst hd
      exact hworks.1 hphase
    exact ⟨hfenced, d, by rw [ops_setPhase, List.getElem?_set_ne hij, hd], hworks⟩
  · rw [ops_setPhase, List.getElem?_set] at hd
    split_ifs at hd
    · cases hd
      cases hphase'
      exact ⟨cfg.nodup.filter _, ∅, rfl, by simp⟩
    · exact h.confirming j d pending k hfirst hd hphase'
  · rw [ops_setPhase, List.getElem?_set] at hd
    split_ifs at hd
    · cases hd
      cases hphase'
    · exact h.reading j d hfirst hd hphase'

/-- A read has heard from a majority. -/
theorem Rounds.startReading
    {i k : Nat} {op : ClientOp}
    (h : c.Rounds cfg first fence term replies)
    (hop : c.ops[i]? = some op)
    (hphase : op.phase = .confirming [] k)
    (hmajority : Node.majority (cfg.options op.node) ≤ k) :
    (c.setPhase i op .reading).Rounds cfg first fence term replies := by
  obtain ⟨hlt, -⟩ := List.getElem?_eq_some_iff.mp hop
  refine ⟨fun y q j hj hfirst => ?_, fun j d pending k' hfirst hd hphase' => ?_,
    fun j d hfirst hd hphase' => ?_⟩
  · obtain ⟨hfenced, d, hd, hworks⟩ := h.owners y q j hj hfirst
    have hij : i ≠ j := by
      rintro rfl
      rw [hop, Option.some.injEq] at hd
      subst hd
      have hmem := (hworks.2 [] k hphase).2
      cases hmem
    exact ⟨hfenced, d, by rw [ops_setPhase, List.getElem?_set_ne hij, hd], hworks⟩
  · rw [ops_setPhase, List.getElem?_set] at hd
    split_ifs at hd
    · cases hd
      cases hphase'
    · exact h.confirming j d pending k' hfirst hd hphase'
  · rw [ops_setPhase, List.getElem?_set] at hd
    split_ifs at hd with hij
    · subst hij
      cases hd
      obtain ⟨-, S, hk, hS⟩ := h.confirming i op [] k hfirst hop hphase
      exact ⟨S, hk ▸ hmajority, fun v hv => ⟨(hS v hv).1, (hS v hv).2.2⟩⟩
    · exact h.reading j d hfirst hd hphase'

theorem clientStep_rounds
    (h : c.Rounds cfg first fence term replies)
    (hstep : c.clientStep cfg a = some c') :
    c'.Rounds cfg first fence term replies := by
  have hsetPhase : ∀ {d : Cluster} {i : Nat} {op : ClientOp} {phase : Phase},
      d.Rounds cfg first fence term replies → d.ops[i]? = some op → phase ≠ .routing →
      (∀ pending k, phase ≠ .confirming pending k) → phase ≠ .reading →
      (d.setPhase i op phase).Rounds cfg first fence term replies :=
    fun hd hop hr hc hread => hd.setOp hop (fun h => absurd h hr) hc hread
  cases a with
  | invoke x req => exact invoke_rounds h hstep
  | route i =>
      simp only [clientStep] at hstep
      split at hstep
      · next op hop =>
          obtain ⟨hphase, hstep⟩ := Option.ite_none_right_eq_some.mp hstep
          split at hstep
          · cases hstep
            exact h.finish hop _
          · cases hstep
            exact h.setOp hop (fun _ => hphase) (by simp [hphase]) (by simp [hphase])
          · split at hstep
            · cases hstep
              exact h.startConfirming hop hphase
            · cases hstep
              exact hsetPhase h hop (by simp) (by simp) (by simp)
      · cases hstep
  | propose i os =>
      simp only [clientStep] at hstep
      split at hstep
      · next op hop =>
          split at hstep
          · cases hstep
            refine (h.record _).runSection fun n r hn => ?_
            rcases r with status | ⟨entry, t⟩
            · exact hn.finish (by simpa using hop) _
            · exact hsetPhase hn (by simpa using hop) (by simp) (by simp) (by simp)
          · cases hstep
      · cases hstep
  | poll i =>
      simp only [clientStep] at hstep
      split at hstep
      · next op hop =>
          split at hstep
          · split at hstep
            · cases hstep
              exact h
            all_goals
              cases hstep
              exact h.finish hop _
          · cases hstep
      · cases hstep
  | expire i =>
      simp only [clientStep] at hstep
      split at hstep
      · next op hop =>
          split at hstep
          · cases hstep
          · cases hstep
            exact h.finish hop _
          · cases hstep
            exact h.record _
      · cases hstep
  | confirm i =>
      simp only [clientStep] at hstep
      split at hstep
      · next op hop =>
          split at hstep
          · next inSync hphase =>
              split at hstep
              · next hconfirm =>
                  cases hstep
                  refine h.startReading hop hphase ?_
                  unfold Node.confirmLeadership at hconfirm
                  split_ifs at hconfirm with hrole hlt
                  exact not_lt.mp hlt
              · cases hstep
                exact h.finish hop _
          · cases hstep
      · cases hstep
  | readKey i =>
      simp only [clientStep] at hstep
      split at hstep
      · next op hop =>
          obtain ⟨-, hstep⟩ := Option.ite_none_right_eq_some.mp hstep
          cases hstep
          exact h.finish hop _
      · cases hstep
  | _ => cases hstep

/-- New replies come from nodes as they are after the step. -/
theorem Rounds.mono
    {term' : String → Nat} {replies' : List (Nat × Response)}
    (h : c.Rounds cfg first fence term replies)
    (hthreads : c.Threads cfg)
    (hterm : ∀ y, term y ≤ term' y)
    (happend : ∀ id resp, (id, Response.append resp) ∈ replies' →
      (id, Response.append resp) ∈ replies ∨
        ∃ src dst req, c.calls[id]? = some ⟨src, dst, req⟩ ∧ fence dst ≤ resp.term)
    (hsnapshot : ∀ id resp, (id, Response.snapshot resp) ∈ replies' →
      (id, Response.snapshot resp) ∈ replies ∨
        ∃ src dst req, c.calls[id]? = some ⟨src, dst, req⟩ ∧ fence dst ≤ resp.term) :
    c.Rounds cfg first fence term' replies' := by
  refine ⟨fun y p i hi hfirst => ?_, fun i op pending k hfirst hop hphase => ?_,
    fun i op hfirst hop hphase => ?_⟩
  · obtain ⟨hfenced, hworks⟩ := h.owners y p i hi hfirst
    refine ⟨?_, hworks⟩
    have hok := hthreads.sender y p
    generalize (c.procs y).sender p = s at hfenced hok ⊢
    cases s with
    | appendSent round owner id req =>
        intro resp hmem
        rcases happend id resp hmem with hmem | ⟨src, dst, req', hcall, hle⟩
        · exact hfenced resp hmem
        · rcases hok with hidle | ⟨-, -, hknown⟩
          · cases hidle
          · have hsame := hcall.symm.trans hknown
            cases hsame
            exact hle
    | snapshotSent owner id req =>
        intro resp hmem
        rcases hsnapshot id resp hmem with hmem | ⟨src, dst, req', hcall, hle⟩
        · exact hfenced resp hmem
        · rcases hok with hidle | ⟨-, -, hknown⟩
          · cases hidle
          · have hsame := hcall.symm.trans hknown
            cases hsame
            exact hle
    | appendReplied round owner req resp => exact le_trans hfenced (hterm y)
    | snapshotReplied owner req => exact le_trans hfenced (hterm y)
    | _ => trivial
  · obtain ⟨hnodup, S, hk, hS⟩ := h.confirming i op pending k hfirst hop hphase
    exact ⟨hnodup, S, hk, fun v hv => ⟨(hS v hv).1, (hS v hv).2.1, (hS v hv).2.2.trans (hterm _)⟩⟩
  · obtain ⟨S, hmajority, hS⟩ := h.reading i op hfirst hop hphase
    exact ⟨S, hmajority, fun v hv => ⟨(hS v hv).1, (hS v hv).2.trans (hterm _)⟩⟩

theorem Rounds.step
    {x : String} {ls : List Label}
    (h : c.Rounds cfg first fence (fun y => (c.node y).currentTerm) c.replies)
    (hthreads : c.Threads cfg)
    (hos : Txn.Allowed False a.outcomes)
    (hterm : ∀ y, (c.node y).currentTerm ≤ (c'.node y).currentTerm)
    (hfence : ∀ y, fence y ≤ (c'.node y).currentTerm)
    (T : Transition cfg False c a c' x ls)
    (hstep : c.step cfg a = some c') :
    c'.Rounds cfg first fence (fun y => (c'.node y).currentTerm) c'.replies := by
  obtain ⟨new, hreplies, hanswers⟩ := T.replies
  have hmoved : c.Rounds cfg first fence (fun y => (c'.node y).currentTerm) c'.replies := by
    refine h.mono hthreads hterm (fun id resp hmem => ?_) fun id resp hmem => ?_
    all_goals
      rw [hreplies, List.mem_append] at hmem
      refine hmem.imp_right fun hmem => ?_
      cases hanswers _ hmem with
      | _ hcall hresp _ _ => exact ⟨_, _, _, hcall, hresp ▸ hfence x⟩
  have hfresh : ∀ r ∈ c'.replies, r.1 < c.calls.length := by
    have hlt : ∀ {id : Nat} {call : Call}, c.calls[id]? = some call → id < c.calls.length :=
      fun hcall => (List.getElem?_eq_some_iff.mp hcall).1
    intro r hr
    rw [hreplies, List.mem_append] at hr
    rcases hr with hr | hr
    · obtain ⟨call, hcall⟩ := hthreads.replies r hr
      exact hlt hcall
    · cases hanswers r hr with
      | vote hcall _ _ _ => exact hlt hcall
      | append hcall _ _ _ => exact hlt hcall
      | snapshot hcall _ _ _ => exact hlt hcall
  rcases step_cases hstep with ⟨id, os, call, rfl, -, rfl⟩ | ⟨y, rfl, -, rfl⟩ |
    helection | hsender | hclient
  · exact handle_rounds hmoved id call os
  · exact hmoved.restart _
  · exact electionStep_rounds hmoved helection
  · exact senderStep_rounds hmoved hthreads hos hterm
      (fun r hr => by rw [hreplies]; exact List.mem_append_left _ hr) hfresh hsender
  · exact clientStep_rounds hmoved hclient

end Steps

end Cluster

end LogReplicator
