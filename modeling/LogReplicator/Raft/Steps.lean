import LogReplicator.Raft.Transition

/-!
# Senders, clients and runs

The steps of `replicatePeer` and of the client calls, the theorem that every
step is a transition, and the induction over runs that all invariants use.
-/

namespace LogReplicator
namespace Cluster

open Library

section Senders

variable {cfg : Config} {faulty : Prop}
variable {c c' : Cluster} {a : Action} {x p : String} {os : List Outcome}
variable {owner : Option Nat} {ls : List Label} {n' : Node}

theorem senderReturns_ops
    {inSync : Bool}
    (h : ∀ op ∈ c.ops, OpOk cfg op) :
    ∀ op ∈ (c.senderReturns x p owner inSync).ops, OpOk cfg op := by
  rcases senderReturns_cases c x p owner inSync with
    hr | ⟨i, op, pending, k, -, hop, hphase, hr⟩
  · simpa [hr] using h
  · intro op' hop'
    rw [hr, ops_setPhase, ops_setSender] at hop'
    rcases List.mem_or_eq_of_mem_set hop' with hop' | rfl
    · exact h op' hop'
    · obtain ⟨hmember, hkeyed⟩ := h op (List.mem_of_getElem? hop)
      exact ⟨hmember, fun _ => hkeyed (by simp [hphase])⟩

/-- A move of one sender that touches no node. -/
theorem setSender_next
    {s : Sender}
    (h : c.Threads cfg)
    (hx : x ∈ cfg.members)
    (hs : c.SenderOk cfg x p (c.node x) s)
    (hsending : s.Sending → ((c.procs x).sender p).Sending ∨ (c.node x).role = .leader) :
    c.Next cfg faulty a (c.setSender x p s) := by
  have T : Transition cfg faulty c a (c.setSender x p s) x [] := by
    refine Transition.quiet hx (by simp) (by simp) (by simp) ⟨[], by simp, by simp⟩ ?_
    intro y q hq
    rw [sender_setSender] at hq
    split_ifs at hq with hyq
    · obtain ⟨rfl, rfl⟩ := hyq
      simpa using hsending hq
    · exact Or.inl hq
  refine h.next T (fun y hy => by simp [hy, funext_iff]) ?_ ?_ (by simpa using h.ops)
  · simpa using h.election_kept T (by simp) (by simp)
  · intro q
    rw [sender_setSender]
    split_ifs with hq
    · rw [hq.2, node_setSender]
      exact hs.mono T.extends le_rfl
    · exact h.sender_kept T (by simp) q

/-- The end of a round of `replicatePeer` that made the moves `ls`; `c'` differs
from the state before in the node, the history and this sender. -/
theorem round_next
    {s : Sender} {evs : List Event}
    (h : c.Threads cfg)
    (hx : x ∈ cfg.members)
    (hpeer : p ∈ (cfg.options x).peers)
    (hpath : Path (Move (env cfg faulty x)) ls (c.node x) n')
    (hls : ∀ l ∈ ls, l.Continues ∧ c.Justified cfg a x l)
    (hevs : evs = ls.filterMap (Label.event x))
    (hsettled : (∃ l ∈ ls, l.Learns) → faulty ∨ n'.Settled (env cfg faulty x))
    (hs : s = .idle ∨ ∃ round owner, s = .looping round owner)
    (hnode : ∀ y, c'.node y = if y = x then n' else c.node y)
    (hcalls : c'.calls = c.calls)
    (hreplies : c'.replies = c.replies)
    (hevents : c'.events = c.events ++ evs)
    (helection : ∀ y, (c'.procs y).election = (c.procs y).election)
    (hsender : ∀ y q, (c'.procs y).sender q =
      if y = x ∧ q = p then s else (c.procs y).sender q)
    (hops : ∀ op ∈ c'.ops, OpOk cfg op) :
    c.Next cfg faulty a c' := by
  have hrestart : .restart ∉ ls := not_restart_of_continues fun l hl => (hls l hl).1
  have T : Transition cfg faulty c a c' x ls := by
    refine Transition.returns hx hpath hnode (fun l hl => (hls l hl).2) hrestart
      ⟨[], by simp [hcalls], by simp⟩ ⟨[], by simp [hreplies], by simp⟩
      ⟨[], by simp [hevents, hevs], by simp⟩ hsettled ?_
    intro y q hq
    rw [hsender] at hq
    split_ifs at hq
    · rcases hs with rfl | ⟨round, owner, rfl⟩ <;> exact hq.elim
    · exact hq
  refine h.next T ?_ ?_ ?_ hops
  · intro y hy
    refine ⟨helection y, ?_⟩
    funext q
    simp [hsender, hy]
  · rw [helection]
    refine h.election_kept T (fun l hl => (hls l hl).1) fun he => ?_
    have hok : c.ElectionOk cfg x (c.node x) .committing := he ▸ h.election x
    rw [hok.2.1] at hpeer
    cases hpeer
  · intro q
    rw [hsender]
    split_ifs with hq
    · rcases hs with rfl | ⟨round, owner, rfl⟩
      · exact Or.inl rfl
      · exact Or.inr ⟨hx, hq.2 ▸ hpeer, trivial⟩
    · exact h.sender_kept T hrestart q

section Rounds

variable (owner : Option Nat) (evs : List Event)

theorem round_returns
    (h : c.Threads cfg)
    (hx : x ∈ cfg.members)
    (hpeer : p ∈ (cfg.options x).peers)
    (hpath : Path (Move (env cfg faulty x)) ls (c.node x) n')
    (hls : ∀ l ∈ ls, l.Continues ∧ c.Justified cfg a x l)
    (hevs : evs = ls.filterMap (Label.event x))
    (hsettled : (∃ l ∈ ls, l.Learns) → faulty ∨ n'.Settled (env cfg faulty x))
    (inSync : Bool) :
    c.Next cfg faulty a
      (((c.record evs).setNode x n').senderReturns x p owner inSync) :=
  round_next h hx hpeer hpath hls hevs hsettled (Or.inl rfl) (by simp) (by simp) (by simp)
    (by simp) (by simp) (by simp) (senderReturns_ops (by simpa using h.ops))

theorem round_loops
    (h : c.Threads cfg)
    (hx : x ∈ cfg.members)
    (hpeer : p ∈ (cfg.options x).peers)
    (hpath : Path (Move (env cfg faulty x)) ls (c.node x) n')
    (hls : ∀ l ∈ ls, l.Continues ∧ c.Justified cfg a x l)
    (hevs : evs = ls.filterMap (Label.event x))
    (hsettled : (∃ l ∈ ls, l.Learns) → faulty ∨ n'.Settled (env cfg faulty x))
    (round : Nat) :
    c.Next cfg faulty a
      (((c.record evs).setNode x n').setSender x p (.looping round owner)) :=
  round_next h hx hpeer hpath hls hevs hsettled (Or.inr ⟨round, owner, rfl⟩) (by simp)
    (by simp) (by simp) (by simp) (by simp) (by simp) (by simpa using h.ops)

end Rounds

/-- A round that ends without touching the node. -/
theorem senderReturns_next
    (h : c.Threads cfg)
    (hx : x ∈ cfg.members)
    (hpeer : p ∈ (cfg.options x).peers)
    (inSync : Bool) :
    c.Next cfg faulty a (c.senderReturns x p owner inSync) := by
  have hnext : c.Next cfg faulty a
      (((c.record []).setNode x (c.node x)).senderReturns x p owner inSync) :=
    round_returns owner [] h hx hpeer (Path.nil _) (by simp) rfl (by simp) inSync
  rwa [record_nil, setNode_self] at hnext

theorem sendEntries_next
    {round : Nat}
    (h : c.Threads cfg)
    (hsender : (c.procs x).sender p = .entries round owner)
    (hstep : c.senderStep cfg (.sendEntries x p) = some c') :
    c.Next cfg faulty (.sendEntries x p) c' := by
  obtain ⟨hx, hpeer, -⟩ := (h.sender x p).active (by simp [hsender])
  simp only [senderStep, hsender] at hstep
  rcases buildAppendRequestLocked_cases (c.node x) (cfg.options x) p with
    ⟨next, hbuild⟩ | ⟨prevLogTerm, hprev, hbuild⟩
  · -- the log cannot describe the position of the peer
    rw [hbuild] at hstep
    have hpath : Path (Move (env cfg faulty x)) [.setNext p next] (c.node x)
        ((c.node x).setNextIndex p next) := Path.single Move.setNext
    have hls : ∀ l ∈ [Label.setNext p next], l.Continues ∧
        c.Justified cfg (.sendEntries x p) x l := by
      simp [Label.Continues, Justified]
    simp only at hstep
    split_ifs at hstep
    all_goals cases hstep
    · simpa using round_loops owner [] h hx hpeer hpath hls rfl (by simp [Label.Learns])
        (round + 1)
    · simpa using round_returns owner [] h hx hpeer hpath hls rfl (by simp [Label.Learns])
        false
  · rw [hbuild] at hstep
    simp only [setNode_self] at hstep
    cases hstep
    generalize hreq : (c.node x).appendRequest (cfg.options x) p prevLogTerm = req
    have T : Transition cfg faulty c (.sendEntries x p)
        ((c.send ⟨x, p, .append req⟩).setSender x p
          (.appendSent round owner c.calls.length req)) x [] := by
      refine Transition.returns hx (Path.nil _) (by simp) (by simp) (by simp)
        ⟨[⟨x, p, .append req⟩], by simp, ?_⟩ ⟨[], by simp, by simp⟩
        ⟨[], by simp, by simp⟩ (by simp) ?_
      · simp only [List.mem_singleton, forall_eq, ← hreq]
        exact Built.append rfl hpeer (by simp [hsender, Sender.Sending]) hprev rfl
      · intro y q hq
        rw [sender_setSender] at hq
        split_ifs at hq
        · exact hq.elim
        · simpa using hq
    refine h.next T (fun y hy => by simp [hy, funext_iff]) ?_ ?_ (by simpa using h.ops)
    · simpa using h.election_kept T (by simp) (by simp)
    · intro q
      rw [sender_setSender]
      split_ifs with hq
      · exact Or.inr ⟨hx, hq.2 ▸ hpeer, by simp [SenderKnows, hq.2]⟩
      · exact h.sender_kept T (by simp) q

theorem sendSnapshot_next
    (h : c.Threads cfg)
    (hsender : (c.procs x).sender p = .snapshot owner) :
    c.Next cfg faulty (.sendSnapshot x p)
      ((c.send ⟨x, p, .snapshot ((c.node x).buildSnapshotRequest (cfg.options x))⟩).setSender
        x p (.snapshotSent owner c.calls.length
          ((c.node x).buildSnapshotRequest (cfg.options x)))) := by
  obtain ⟨hx, hpeer, -⟩ := (h.sender x p).active (by simp [hsender])
  generalize hreq : (c.node x).buildSnapshotRequest (cfg.options x) = req
  have T : Transition cfg faulty c (.sendSnapshot x p)
      ((c.send ⟨x, p, .snapshot req⟩).setSender x p
        (.snapshotSent owner c.calls.length req)) x [] := by
    refine Transition.returns hx (Path.nil _) (by simp) (by simp) (by simp)
      ⟨[⟨x, p, .snapshot req⟩], by simp, ?_⟩ ⟨[], by simp, by simp⟩
      ⟨[], by simp, by simp⟩ (by simp) ?_
    · simp only [List.mem_singleton, forall_eq, ← hreq]
      exact Built.snapshot rfl hpeer (by simp [hsender, Sender.Sending]) rfl
    · intro y q hq
      rw [sender_setSender] at hq
      split_ifs at hq
      · exact hq.elim
      · simpa using hq
  refine h.next T (fun y hy => by simp [hy, funext_iff]) ?_ ?_ (by simpa using h.ops)
  · simpa using h.election_kept T (by simp) (by simp)
  · intro q
    rw [sender_setSender]
    split_ifs with hq
    · exact Or.inr ⟨hx, hq.2 ▸ hpeer, by simp [SenderKnows, hq.2]⟩
    · exact h.sender_kept T (by simp) q

/-- A reply arrives: the round ends on a newer term and goes on otherwise. -/
theorem reply_next
    {term : Nat} {s : Sender}
    (h : c.Threads cfg)
    (hx : x ∈ cfg.members)
    (hpeer : p ∈ (cfg.options x).peers)
    (hheard : c.heard a = some (x, term))
    (hs : term ≤ (c.node x).currentTerm → c.SenderKnows x p (c.node x) s)
    (hsending : ¬ s.Sending)
    (hos : Txn.Allowed faulty os) :
    c.Next cfg faulty a
      (c.runSection x (Node.observeHigherTerm term) os fun c higher =>
        if higher then c.senderReturns x p owner false else c.setSender x p s) := by
  rcases observeHigherTerm_cases hos with
    ⟨n', saved, hrun, hlt, hpath⟩ | ⟨hle, hrun⟩ | ⟨store, hrun, hpath⟩
  · rw [hrun, if_pos rfl]
    have hls : ∀ l ∈ [Label.raise term saved, .follow ""],
        l.Continues ∧ c.Justified cfg a x l := fun l hl =>
      ⟨by
        simp only [List.mem_cons, List.not_mem_nil, or_false] at hl
        rcases hl with rfl | rfl <;> trivial, stepsDown_justified hheard hlt l hl⟩
    simpa using round_returns owner [] h hx hpeer hpath hls rfl (by simp [Label.Learns]) false
  · rw [hrun, if_neg (by simp)]
    exact setSender_next h hx (Or.inr ⟨hx, hpeer, hs hle⟩) fun hq => absurd hq hsending
  · rw [hrun]
    simpa using h.crash hx [] hpath (by simp) rfl

section Records

variable {m : Nat}

theorem records_events
    {n : Node}
    (h : (env cfg faulty x).Records n p m ls) :
    ls.filterMap (Label.event x) =
      commitEvent (cfg.options x) (n.recordPeerProgressLocked p m) := by
  obtain ⟨ls', rfl, hcommits⟩ := h
  rw [List.filterMap_cons]
  exact commits_events hcommits

theorem records_justified
    {n : Node}
    (h : (env cfg faulty x).Records n p m ls)
    (hpeer : p ∈ (cfg.options x).peers)
    (hconfirmed : c.Confirmed x p n.currentTerm m) :
    ∀ l ∈ ls, l.Continues ∧ c.Justified cfg a x l := by
  obtain ⟨ls', rfl, hcommits⟩ := h
  intro l hl
  rcases List.mem_cons.mp hl with rfl | hl
  · exact ⟨trivial, hpeer, hconfirmed⟩
  · obtain ⟨hcontinues, -, hjustified⟩ := commits_continues hcommits l hl
    exact ⟨hcontinues, hjustified c a⟩

theorem records_settled
    {P : Prop}
    {t : Nat}
    (h : (∀ l ∈ ls, l = .progress p t m) ∨ P)
    (hlearns : ∃ l ∈ ls, l.Learns) :
    P := by
  obtain ⟨l, hl, hlearns⟩ := hlearns
  refine h.resolve_left fun hall => ?_
  rw [hall l hl] at hlearns
  exact hlearns

end Records

theorem appendDone_next
    {round : Nat} {req : AppendEntriesRequest} {resp : AppendEntriesResponse}
    (h : c.Threads cfg)
    (hsender : (c.procs x).sender p = .appendReplied round owner req resp)
    (hos : Txn.Allowed faulty os)
    (hstep : c.senderStep cfg (.appendDone x p os) = some c') :
    c.Next cfg faulty (.appendDone x p os) c' := by
  obtain ⟨hx, hpeer, hknows⟩ := (h.sender x p).active (by simp [hsender])
  rw [hsender] at hknows
  obtain ⟨id, hcall, hreply⟩ := hknows
  simp only [senderStep, hsender] at hstep
  cases hstep
  generalize hevs : (if (c.node x).role = .leader ∧ (c.node x).currentTerm = req.term ∧
      resp.success then commitEvent (cfg.options x) ((c.node x).recordPeerProgressLocked p
        (max resp.matchIndex (lastEntryIndex req))) else []) = evs
  have hspec := @appendReplied_spec (env cfg faulty x) ((c.record evs).node x) p req.term
    req resp
  rcases runSection_cases hspec hos with
    ⟨r, n', ls, hrun, hpath, hQ⟩ | ⟨store, ls, hrun, hpath, hrole, hterm, hsuccess, hrecords⟩
  all_goals
    refine (congrArg (c.Next cfg faulty _) hrun).mpr ?_
    simp only [node_record] at *
  swap
  · rw [if_pos ⟨hrole, hterm, hsuccess⟩] at hevs
    have hconfirmed := hterm ▸ Confirmed.append hcall hreply hsuccess
    exact h.crash hx evs hpath
      (fun l hl => (records_justified hrecords hpeer hconfirmed l hl).2)
      (by rw [records_events hrecords, hevs])
  rcases hQ with ⟨rfl, hmoved, rfl⟩ | ⟨hrole, hterm, ⟨rfl, hfail, rfl⟩ |
    ⟨rfl, hsuccess, hrecords, hsettled⟩⟩
  · rw [if_neg (by tauto)] at hevs
    exact round_returns owner evs h hx hpeer hpath (by simp) hevs.symm (by simp) false
  · rw [if_neg (by simp [hfail])] at hevs
    have hls : ∀ l ∈ [Label.setNext p (nextIndexAfterRejection
        ((c.node x).nextIndexLocked p) resp.matchIndex)],
        l.Continues ∧ c.Justified cfg (.appendDone x p os) x l := by
      simp [Label.Continues, Justified]
    split_ifs
    · exact round_loops owner evs h hx hpeer hpath hls hevs.symm (by simp [Label.Learns])
        (round + 1)
    · exact round_returns owner evs h hx hpeer hpath hls hevs.symm (by simp [Label.Learns])
        false
  · rw [if_pos ⟨hrole, hterm, hsuccess⟩] at hevs
    have hconfirmed := hterm ▸ Confirmed.append hcall hreply hsuccess
    exact round_returns owner evs h hx hpeer hpath
      (records_justified hrecords hpeer hconfirmed)
      (by rw [records_events hrecords, hevs]) (records_settled hsettled) true

theorem snapshotDone_next
    {req : InstallSnapshotRequest}
    (h : c.Threads cfg)
    (hsender : (c.procs x).sender p = .snapshotReplied owner req)
    (hos : Txn.Allowed faulty os)
    (hstep : c.senderStep cfg (.snapshotDone x p os) = some c') :
    c.Next cfg faulty (.snapshotDone x p os) c' := by
  obtain ⟨hx, hpeer, hknows⟩ := (h.sender x p).active (by simp [hsender])
  rw [hsender] at hknows
  obtain ⟨id, resp, hcall, hreply, hle⟩ := hknows
  simp only [senderStep, hsender] at hstep
  cases hstep
  generalize hevs : (if (c.node x).role = .leader ∧ (c.node x).currentTerm = req.term then
      commitEvent (cfg.options x) ((c.node x).recordPeerProgressLocked p
        req.lastIncludedIndex) else []) = evs
  have hspec := @snapshotReplied_spec (env cfg faulty x) ((c.record evs).node x) p req.term
    req.lastIncludedIndex
  rcases runSection_cases hspec hos with
    ⟨r, n', ls, hrun, hpath, hQ⟩ | ⟨store, ls, hrun, hpath, hrole, hterm, hrecords⟩
  all_goals
    refine (congrArg (c.Next cfg faulty _) hrun).mpr ?_
    simp only [node_record] at *
  swap
  · rw [if_pos ⟨hrole, hterm⟩] at hevs
    have hconfirmed := hterm ▸ Confirmed.snapshot hcall hreply (hterm ▸ hle)
    exact h.crash hx evs hpath
      (fun l hl => (records_justified hrecords hpeer hconfirmed l hl).2)
      (by rw [records_events hrecords, hevs])
  rcases hQ with ⟨rfl, hmoved, rfl⟩ | ⟨rfl, hrole, hterm, hrecords, hsettled⟩
  · rw [if_neg (by tauto)] at hevs
    exact round_returns owner evs h hx hpeer hpath (by simp) hevs.symm (by simp) false
  · rw [if_pos ⟨hrole, hterm⟩] at hevs
    have hconfirmed := hterm ▸ Confirmed.snapshot hcall hreply (hterm ▸ hle)
    exact round_returns owner evs h hx hpeer hpath
      (records_justified hrecords hpeer hconfirmed)
      (by rw [records_events hrecords, hevs]) (records_settled hsettled) true

theorem senderStep_next
    (h : c.Threads cfg)
    (hos : Txn.Allowed faulty a.outcomes)
    (hstep : c.senderStep cfg a = some c') :
    c.Next cfg faulty a c' := by
  have hactive : ∀ {x p s}, (c.procs x).sender p = s → s ≠ .idle →
      x ∈ cfg.members ∧ p ∈ (cfg.options x).peers ∧ c.SenderKnows x p (c.node x) s := by
    rintro x p s rfl hs
    exact (h.sender x p).active hs
  cases a with
  | replicate x p owner =>
      simp only [senderStep] at hstep
      obtain ⟨⟨hx, hpeer, hidle⟩, hstep⟩ := Option.ite_none_right_eq_some.mp hstep
      have hloop : ∀ owner, c.Next cfg faulty (.replicate x p owner)
          (c.setSender x p (.looping 0 owner)) := fun owner =>
        setSender_next h hx (Or.inr ⟨hx, hpeer, trivial⟩) fun hq => hq.elim
      cases owner with
      | none =>
          cases hstep
          exact hloop none
      | some i =>
          simp only at hstep
          split at hstep
          · obtain ⟨-, hstep⟩ := Option.ite_none_right_eq_some.mp hstep
            cases hstep
            exact hloop (some i)
          · cases hstep
  | giveUp x p =>
      simp only [senderStep] at hstep
      split at hstep
      · next round owner hs =>
          cases hstep
          obtain ⟨hx, hpeer, -⟩ := hactive hs (by simp)
          exact senderReturns_next h hx hpeer false
      · cases hstep
  | checkLeader x p =>
      simp only [senderStep] at hstep
      split at hstep
      · next round owner hs =>
          obtain ⟨hx, hpeer, -⟩ := hactive hs (by simp)
          split_ifs at hstep with hleader
          all_goals cases hstep
          · refine setSender_next h hx (Or.inr ⟨hx, hpeer, trivial⟩) fun _ => Or.inr ?_
            simpa [Node.isLeader] using hleader
          · exact senderReturns_next h hx hpeer false
      · cases hstep
  | checkSnapshot x p =>
      simp only [senderStep] at hstep
      split at hstep
      · next round owner hs =>
          obtain ⟨hx, hpeer, -⟩ := hactive hs (by simp)
          have hsending : ((c.procs x).sender p).Sending := by simp [hs, Sender.Sending]
          split_ifs at hstep
          all_goals
            cases hstep
            exact setSender_next h hx (Or.inr ⟨hx, hpeer, trivial⟩)
              fun _ => Or.inl hsending
      · cases hstep
  | sendEntries x p =>
      have hstep' := hstep
      simp only [senderStep] at hstep'
      split at hstep'
      · next round owner hs => exact sendEntries_next h hs hstep
      · cases hstep'
  | sendSnapshot x p =>
      simp only [senderStep] at hstep
      split at hstep
      · next owner hs =>
          cases hstep
          exact sendSnapshot_next h hs
      · cases hstep
  | callFails x p =>
      simp only [senderStep] at hstep
      split at hstep
      · next hs =>
          cases hstep
          obtain ⟨hx, hpeer, -⟩ := hactive hs (by simp)
          exact senderReturns_next h hx hpeer false
      · next hs =>
          cases hstep
          obtain ⟨hx, hpeer, -⟩ := hactive hs (by simp)
          exact senderReturns_next h hx hpeer false
      · cases hstep
  | appendReply x p resp os =>
      simp only [senderStep] at hstep
      split at hstep
      · next round owner id req hs =>
          obtain ⟨hreply, hstep⟩ := Option.ite_none_right_eq_some.mp hstep
          cases hstep
          obtain ⟨hx, hpeer, hcall⟩ := hactive hs (by simp)
          exact reply_next h hx hpeer rfl (fun _ => ⟨id, hcall, hreply⟩)
            (fun hq => hq) hos
      · cases hstep
  | appendDone x p os =>
      have hstep' := hstep
      simp only [senderStep] at hstep'
      split at hstep'
      · next round owner req resp hs => exact appendDone_next h hs hos hstep
      · cases hstep'
  | snapshotReply x p resp os =>
      simp only [senderStep] at hstep
      split at hstep
      · next owner id req hs =>
          obtain ⟨hreply, hstep⟩ := Option.ite_none_right_eq_some.mp hstep
          cases hstep
          obtain ⟨hx, hpeer, hcall⟩ := hactive hs (by simp)
          exact reply_next h hx hpeer rfl (fun hle => ⟨id, resp, hcall, hreply, hle⟩)
            (fun hq => hq) hos
      · cases hstep
  | snapshotDone x p os =>
      have hstep' := hstep
      simp only [senderStep] at hstep'
      split at hstep'
      · next owner req hs => exact snapshotDone_next h hs hos hstep
      · cases hstep'
  | _ => cases hstep

end Senders

section Clients

variable {cfg : Config} {faulty : Prop}
variable {c c' : Cluster} {a : Action} {x : String} {i : Nat} {op : ClientOp}

/-- A step of a client call that touches neither nodes nor goroutines. -/
theorem client_next
    (h : c.Threads cfg)
    (hx : x ∈ cfg.members)
    (hprocs : c'.procs = c.procs)
    (hcalls : c'.calls = c.calls)
    (hreplies : c'.replies = c.replies)
    (hevents : ∃ new, c'.events = c.events ++ new ∧ ∀ e ∈ new, e.Client)
    (hops : ∀ op ∈ c'.ops, OpOk cfg op) :
    c.Next cfg faulty a c' := by
  have hnode : ∀ y, c'.node y = c.node y := by
    intro y
    simp [node, hprocs]
  have T : Transition cfg faulty c a c' x [] :=
    Transition.quiet hx hnode hcalls hreplies hevents
      fun y q hq => Or.inl (by rwa [hprocs] at hq)
  refine h.next T (fun y _ => by simp [hprocs]) ?_ ?_ hops
  · rw [hprocs]
    exact h.election_kept T (by simp) fun _ => by rw [hnode]
  · intro p
    rw [hprocs]
    exact h.sender_kept T (by simp) p

theorem set_ops
    {op' : ClientOp}
    (h : ∀ op ∈ c.ops, OpOk cfg op)
    (hop : OpOk cfg op') :
    ∀ op ∈ c.ops.set i op', OpOk cfg op := by
  intro op hmem
  rcases List.mem_or_eq_of_mem_set hmem with hmem | rfl
  · exact h op hmem
  · exact hop

theorem finish_next
    (h : c.Threads cfg)
    (hop : c.ops[i]? = some op)
    (answer : Answer) :
    c.Next cfg faulty a (c.finish i op answer) := by
  obtain ⟨hmember, -⟩ := h.ops op (List.mem_of_getElem? hop)
  refine client_next h hmember rfl rfl rfl ⟨[.returned i answer], rfl, ?_⟩ ?_
  · simp [Event.Client]
  · exact set_ops h.ops ⟨hmember, by simp⟩

theorem setPhase_next
    {phase : Phase}
    (h : c.Threads cfg)
    (hop : c.ops[i]? = some op)
    (hphase : op.phase ≠ .done) :
    c.Next cfg faulty a (c.setPhase i op phase) := by
  obtain ⟨hmember, hkeyed⟩ := h.ops op (List.mem_of_getElem? hop)
  exact client_next h hmember rfl rfl rfl ⟨[], by simp, by simp⟩
    (set_ops h.ops ⟨hmember, fun _ => hkeyed hphase⟩)

/-- The first write decides what becomes of a client entry. -/
theorem appendClientEntry_run
    {json : Json} {o : Options} {payload : Bytes} {n : Node}
    (hpayload : payload ≠ [])
    (hrole : n.role = .leader)
    (os : List Outcome) :
    (Txn.commits os = true ∧
      Node.appendClientEntry json o payload os n =
        Node.proposed json o (.ok (n.clientEntry payload, n.currentTerm)) os.tail
          (n.withClientEntry payload)) ∨
    (Txn.commits os = false ∧ ∃ status os',
      Node.appendClientEntry json o payload os n = (some (.error status), n, os')) ∨
    (Txn.commits os = false ∧ ∃ os',
      Node.appendClientEntry json o payload os n = (none, n, os')) := by
  have hunfold : Node.appendClientEntry json o payload os n =
      (Node.writeStore (fun s => s.appendEntries [n.clientEntry payload]) >>= fun stored =>
        if stored = false then pure (.error ⟨.internal, "append entry"⟩)
        else Node.proposed json o (.ok (n.clientEntry payload, n.currentTerm))) os n := by
    show (if n.role ≠ .leader then _ else _ : Txn Node _) os n = _
    rw [if_neg (not_not.mpr hrole)]
    have haccepted : Store.storable [n.clientEntry payload] = true := by
      simpa [Store.storable, Node.clientEntry] using hpayload
    rw [haccepted]
    rfl
  rw [hunfold]
  cases os with
  | nil => exact Or.inl ⟨rfl, rfl⟩
  | cons o os =>
      cases o with
      | commit => exact Or.inl ⟨rfl, rfl⟩
      | fail => exact Or.inr (Or.inl ⟨rfl, _, os, rfl⟩)
      | crash => exact Or.inr (Or.inr ⟨rfl, os, rfl⟩)

theorem runSection_of_some
    {α : Type} {m : Txn Node α} {k : Cluster → α → Cluster} {os os' : List Outcome}
    {r : α}
    (hrun : m os (c.node x) = (some r, c.node x, os')) :
    c.runSection x m os k = k c r := by
  unfold runSection
  rw [hrun]
  simp only [setNode_self]

theorem runSection_of_none
    {α : Type} {m : Txn Node α} {k : Cluster → α → Cluster} {os os' : List Outcome}
    {n : Node}
    (hrun : m os (c.node x) = (none, n, os')) :
    c.runSection x m os k = c.restart x n.store := by
  unfold runSection
  rw [hrun]

theorem crash_next
    (h : c.Threads cfg)
    (hx : x ∈ cfg.members) :
    c.Next cfg faulty a (c.restart x (c.node x).store) := by
  have hpath : Path (Move (env cfg faulty x)) ([] ++ [.restart]) (c.node x)
      (Node.new (c.node x).store) := Path.single Move.restart
  simpa using h.crash hx [] hpath (by simp) rfl

section Propose

variable {os : List Outcome} {cmd : Command} {payload : Bytes} {n : Node}
variable {ls : List Label}

/-- The moves after the new entry: a commit, and only in a single node cluster. -/
theorem proposes_cases
    (h : (env cfg faulty x).Proposes n payload ls) :
    ∃ ls', ls = n.proposeLabel payload :: ls' ∧
      (((cfg.options x).peers = [] ∧
          (env cfg faulty x).Commits (n.withClientEntry payload) ls') ∨
        ((cfg.options x).peers ≠ [] ∧ ls' = [])) := by
  obtain ⟨-, ls', rfl, hls'⟩ := h
  have hcases : if (cfg.options x).peers = [] then
      (env cfg faulty x).Commits (n.withClientEntry payload) ls' else ls' = [] := hls'
  by_cases hpeers : (cfg.options x).peers = []
  · rw [if_pos hpeers] at hcases
    exact ⟨ls', rfl, Or.inl ⟨hpeers, hcases⟩⟩
  · rw [if_neg hpeers] at hcases
    exact ⟨ls', rfl, Or.inr ⟨hpeers, hcases⟩⟩

theorem proposes_events
    (h : (env cfg faulty x).Proposes n payload ls) :
    ls.filterMap (Label.event x) =
      if (cfg.options x).peers = [] then
        commitEvent (cfg.options x) (n.withClientEntry payload)
      else [] := by
  obtain ⟨ls', rfl, ⟨hpeers, hcommits⟩ | ⟨hpeers, rfl⟩⟩ := proposes_cases h
  · rw [List.filterMap_cons, if_pos hpeers]
    exact commits_events hcommits
  · rw [if_neg hpeers]
    rfl

theorem proposes_keeps
    (h : (env cfg faulty x).Proposes n payload ls)
    {l : Label} (hl : l ∈ ls) :
    l.Continues ∧ l.KeepsRole ∧
      (c.Justified cfg a x (n.proposeLabel payload) → c.Justified cfg a x l) := by
  obtain ⟨ls', rfl, hcases⟩ := proposes_cases h
  rcases List.mem_cons.mp hl with rfl | hl
  · exact ⟨trivial, trivial, id⟩
  · rcases hcases with ⟨-, hcommits⟩ | ⟨-, rfl⟩
    · obtain ⟨hcontinues, hrole, hjustified⟩ := commits_continues hcommits l hl
      exact ⟨hcontinues, hrole, fun _ => hjustified c a⟩
    · cases hl

/-- A call that waits for its entry comes from a leader that made the entry. -/
def Waits (cfg : Config) (c' : Cluster) (i : Nat) (x : String) (ls : List Label) : Prop :=
  ∀ op index term, c'.ops[i]? = some op → op.phase = .waiting index term →
    op.node = x ∧ ∃ cmd prevTerm, op.request.command = some cmd ∧
      .propose ⟨index, term, cmd.encode cfg.json⟩ prevTerm ∈ ls

/-- A call that returned does not wait. -/
theorem Next.returned
    {op' : ClientOp}
    (h : c.Next cfg faulty a c')
    (hop : c'.ops[i]? = some op')
    (hdone : op'.phase = .done) :
    ∃ x ls, Transition cfg faulty c a c' x ls ∧ c'.Threads cfg ∧ Waits cfg c' i x ls := by
  obtain ⟨y, ls, T, hthreads⟩ := h
  refine ⟨y, ls, T, hthreads, fun op'' index term hop'' hphase => ?_⟩
  rw [hop, Option.some.injEq] at hop''
  simp [← hop'', hdone] at hphase

/-- A client entry goes into the log of the leader. -/
theorem propose_next
    (h : c.Threads cfg)
    (hop : c.ops[i]? = some op)
    (hphase : op.phase = .proposing)
    (hcmd : op.request.command = some cmd)
    (hos : Txn.Allowed faulty os)
    (hstep : c.clientStep cfg (.propose i os) = some c') :
    ∃ x ls, Transition cfg faulty c (.propose i os) c' x ls ∧ c'.Threads cfg ∧
      Waits cfg c' i x ls := by
  obtain ⟨hx, hkeyed⟩ := h.ops op (List.mem_of_getElem? hop)
  obtain ⟨hi, -⟩ := List.getElem?_eq_some_iff.mp hop
  simp only [clientStep, hop, hphase, hcmd, Option.some.injEq] at hstep
  obtain ⟨x, hxop⟩ : ∃ x, x = op.node := ⟨_, rfl⟩
  rw [← hxop] at hx hstep
  generalize hpayload : cmd.encode cfg.json = payload at hstep
  generalize hevs : (if (c.node x).role = .leader ∧ (cfg.options x).peers = [] ∧
      Txn.commits os then commitEvent (cfg.options x)
        { c.node x with
          store := (c.node x).store.appendEntries [(c.node x).clientEntry payload] }
      else []) = evs at hstep
  have hjustified : (c.node x).role = .leader → c.Justified cfg (.propose i os) x
      ((c.node x).proposeLabel payload) := fun hrole =>
    ⟨hrole, rfl, i, os, op, cmd, rfl, hop, hxop.symm, hphase, hkeyed (by simp [hphase]), hcmd,
      by rw [hpayload]⟩
  have hrefused : ∀ status os', evs = [] →
      Node.appendClientEntry cfg.json (cfg.options x) payload os ((c.record evs).node x) =
        (some (.error status), (c.record evs).node x, os') →
      ∃ y ls, Transition cfg faulty c (.propose i os) c' y ls ∧ c'.Threads cfg ∧
        Waits cfg c' i y ls := by
    rintro status os' rfl hrun
    rw [← hstep, runSection_of_some hrun, record_nil]
    exact (finish_next h hop _).returned (List.getElem?_set_self hi) rfl
  have hcrashed : ∀ store, c' = (c.record evs).restart x store →
      c.Next cfg faulty (.propose i os) c' →
      ∃ y ls, Transition cfg faulty c (.propose i os) c' y ls ∧ c'.Threads cfg ∧
        Waits cfg c' i y ls := by
    rintro store rfl hnext
    have hdone : ((c.record evs).restart x store).ops[i]? = some { op with phase := .done } := by
      simp [restart, record, hop, hxop]
    exact hnext.returned hdone rfl
  by_cases hrole : (c.node x).role = .leader
  swap
  · rw [if_neg (by simp [hrole])] at hevs
    refine hrefused (notLeaderError (c.node x).leaderID) os hevs.symm ?_
    show (if (c.node x).role ≠ .leader then _ else _ : Txn Node _) os _ = _
    rw [if_pos hrole]
    rfl
  have hne : payload ≠ [] := hpayload ▸ cmd.encode_ne_nil cfg.json
  rcases appendClientEntry_run hne hrole os with
    ⟨hcommits, hrun⟩ | ⟨hcommits, status, os', hrun⟩ | ⟨hcommits, os', hrun⟩
  · have hpre : Path (Move (env cfg faulty x)) [(c.node x).proposeLabel payload]
        (c.node x) ((c.node x).withClientEntry payload) := Path.single (Move.propose hrole)
    have hos' : Txn.Allowed faulty os.tail := fun hmem => hos (List.mem_of_mem_tail hmem)
    have hevs' : ∀ {ls}, (env cfg faulty x).Proposes (c.node x) payload ls →
        evs = ls.filterMap (Label.event x) := by
      intro ls hls
      rw [proposes_events hls, ← hevs]
      simp [hrole, hcommits, Node.withClientEntry]
    rcases runSection_cases_of_run (c := c.record evs) hpre hrun (proposed_spec hrole) hos' with
      ⟨r, n', ls, hrun', hpath, rfl, hproposes, hsettled⟩ | ⟨store, ls, hrun', hpath, hproposes⟩
    all_goals have hc' := hstep.symm.trans hrun'
    · rw [hc']
      have hkeeps := fun l (hl : l ∈ (c.node x).proposeLabel payload :: ls) =>
        proposes_keeps (c := c) (a := .propose i os) hproposes hl
      have hrestart : .restart ∉ (c.node x).proposeLabel payload :: ls :=
        not_restart_of_continues fun l hl => (hkeeps l hl).1
      have T : Transition cfg faulty c (.propose i os)
          (((c.record evs).setNode x n').setPhase i op
            (.waiting ((c.node x).clientEntry payload).index (c.node x).currentTerm)) x
          ((c.node x).proposeLabel payload :: ls) := by
        refine Transition.returns hx hpath (by simp)
          (fun l hl => (hkeeps l hl).2.2 (hjustified hrole)) hrestart
          ⟨[], by simp, by simp⟩ ⟨[], by simp, by simp⟩
          ⟨[], by simp [hevs' hproposes], by simp⟩ ?_ (by simp)
        rintro ⟨l, hl, hlearns⟩
        refine hsettled.resolve_left ?_
        rintro rfl
        rw [List.mem_singleton.mp hl] at hlearns
        exact hlearns
      obtain ⟨-, -, -, hthreads⟩ : c.Next cfg faulty (.propose i os) _ := by
        refine h.next T (fun y hy => by simp) ?_ ?_ ?_
        · have hkept := h.election_kept T (fun l hl => (hkeeps l hl).1)
            fun _ => Path.role_eq T.path fun l hl => (hkeeps l hl).2.1
          simpa using hkept
        · intro p
          simpa using h.sender_kept T hrestart p
        · rw [hxop] at hx
          exact set_ops h.ops ⟨hx, fun _ => hkeyed (by simp [hphase])⟩
      refine ⟨x, _, T, hthreads, fun op' index term hop' hwaiting => ?_⟩
      rw [ops_setPhase, ops_setNode, ops_record, List.getElem?_set_self hi,
        Option.some.injEq] at hop'
      subst hop'
      cases hwaiting
      refine ⟨hxop.symm, cmd, (c.node x).store.lastIndexAndTerm.2, hcmd, ?_⟩
      rw [hpayload]
      exact List.mem_cons_self
    · refine hcrashed store hc' ?_
      rw [hc']
      exact h.crash hx evs hpath
        (fun l hl => (proposes_keeps hproposes hl).2.2 (hjustified hrole)) (hevs' hproposes)
  · rw [if_neg (by simp [hcommits])] at hevs
    exact hrefused status os' hevs.symm hrun
  · rw [if_neg (by simp [hcommits])] at hevs
    have hrun' : Node.appendClientEntry cfg.json (cfg.options x) payload os
        ((c.record evs).node x) = (none, c.node x, os') := hrun
    have hc' := hstep.symm.trans (runSection_of_none hrun')
    refine hcrashed _ hc' ?_
    rw [hc', ← hevs, record_nil]
    exact crash_next h hx

end Propose

theorem forward_mem_peers
    {o : Options} {n : Node} {forwarded : Bool} {leaderID : String}
    (h : n.leaderClient o forwarded = .forward leaderID) :
    leaderID ∈ o.peers := by
  unfold Node.leaderClient at h
  split_ifs at h with h1 h2 h3 h4
  cases h
  exact h4

theorem clientStep_next
    (h : c.Threads cfg)
    (hos : Txn.Allowed faulty a.outcomes)
    (hstep : c.clientStep cfg a = some c') :
    c.Next cfg faulty a c' := by
  cases a with
  | invoke x req =>
      simp only [clientStep] at hstep
      obtain ⟨hx, hstep⟩ := Option.ite_none_right_eq_some.mp hstep
      have hops : ∀ op ∈ c.ops ++ [⟨req, x, false, .routing⟩], req.key ≠ "" →
          OpOk cfg op := by
        intro op hop hkey
        rcases List.mem_append.mp hop with hop | hop
        · exact h.ops op hop
        · rw [List.mem_singleton.mp hop]
          exact ⟨hx, fun _ => hkey⟩
      split_ifs at hstep with hkey
      all_goals cases hstep
      · refine client_next h hx rfl rfl rfl ⟨[.invoked c.ops.length,
          .returned c.ops.length (.failed keyRequired)], by simp [finish, record, setPhase,
            setOp], by simp [Event.Client]⟩ ?_
        simp only [ops_finish, ops_record]
        intro op hop
        rw [List.set_append_right _ _ le_rfl] at hop
        simp only [Nat.sub_self, List.set_cons_zero, List.mem_append,
          List.mem_singleton] at hop
        rcases hop with hop | rfl
        · exact h.ops op hop
        · exact ⟨hx, by simp⟩
      · exact client_next h hx rfl rfl rfl ⟨[.invoked c.ops.length], rfl,
          by simp [Event.Client]⟩ fun op hop => hops op hop hkey
  | route i =>
      simp only [clientStep] at hstep
      split at hstep
      · next op hop =>
          obtain ⟨hphase, hstep⟩ := Option.ite_none_right_eq_some.mp hstep
          have hphase' : op.phase ≠ .done := by simp [hphase]
          split at hstep
          · cases hstep
            exact finish_next h hop _
          · next leaderID hroute =>
              cases hstep
              obtain ⟨hmember, hkeyed⟩ := h.ops op (List.mem_of_getElem? hop)
              obtain ⟨hleader, -⟩ := mem_peers.mp (forward_mem_peers hroute)
              exact client_next h hmember rfl rfl rfl ⟨[], by simp, by simp⟩
                (set_ops h.ops ⟨hleader, fun _ => hkeyed hphase'⟩)
          · split at hstep
            all_goals
              cases hstep
              exact setPhase_next h hop hphase'
      · cases hstep
  | propose i os =>
      have hstep' := hstep
      simp only [clientStep] at hstep'
      split at hstep'
      · next op hop =>
          split at hstep'
          · next cmd hphase hcmd =>
              obtain ⟨y, ls, T, hthreads, -⟩ := propose_next h hop hphase hcmd hos hstep
              exact ⟨y, ls, T, hthreads⟩
          · cases hstep'
      · cases hstep'
  | poll i =>
      simp only [clientStep] at hstep
      split at hstep
      · next op hop =>
          obtain ⟨hmember, -⟩ := h.ops op (List.mem_of_getElem? hop)
          split at hstep
          · split at hstep
            · cases hstep
              exact client_next h hmember rfl rfl rfl ⟨[], by simp, by simp⟩ h.ops
            all_goals
              cases hstep
              exact finish_next h hop _
          · cases hstep
      · cases hstep
  | expire i =>
      simp only [clientStep] at hstep
      split at hstep
      · next op hop =>
          obtain ⟨hmember, -⟩ := h.ops op (List.mem_of_getElem? hop)
          split at hstep
          · cases hstep
          · cases hstep
            exact finish_next h hop _
          · cases hstep
            exact client_next h hmember rfl rfl rfl
              ⟨[.abandoned i], rfl, by simp [Event.Client]⟩ h.ops
      · cases hstep
  | confirm i =>
      simp only [clientStep] at hstep
      split at hstep
      · next op hop =>
          split at hstep
          · next hphase =>
              split at hstep
              all_goals cases hstep
              · exact setPhase_next h hop (by simp [hphase])
              · exact finish_next h hop _
          · cases hstep
      · cases hstep
  | readKey i =>
      simp only [clientStep] at hstep
      split at hstep
      · next op hop =>
          obtain ⟨-, hstep⟩ := Option.ite_none_right_eq_some.mp hstep
          cases hstep
          exact finish_next h hop _
      · cases hstep
  | _ => cases hstep

end Clients

section Runs

variable {cfg : Config} {faulty : Prop}
variable {c c' : Cluster} {a : Action}

/-- Every step is a transition. -/
theorem step_next
    (h : c.Threads cfg)
    (hos : Txn.Allowed faulty a.outcomes)
    (hterm : c.TermsLeft a)
    (hstep : c.step cfg a = some c') :
    c.Next cfg faulty a c' := by
  rcases step_cases hstep with ⟨id, os, call, rfl, hcall, rfl⟩ | ⟨x, rfl, hx, rfl⟩ |
    helection | hsender | hclient
  · exact handle_next h hcall hos
  · exact crash_next h hx
  · exact electionStep_next h hos hterm helection
  · exact senderStep_next h hos hsender
  · exact clientStep_next h hos hclient

theorem threads_init :
    Threads cfg init where
  calls := by simp [init]
  replies := by simp [init]
  election := fun _ => trivial
  sender := fun _ _ => Or.inl rfl
  ops := by simp [init]

/-- The condition holds at every step of a run. -/
def Along (cfg : Config) (ok : Cluster → Action → Prop) : Cluster → List Action → Prop
  | _, [] => True
  | c, a :: as => ok c a ∧
      match c.step cfg a with
      | some c' => Along cfg ok c' as
      | none => True

instance decidableAlong (cfg : Config) (ok : Cluster → Action → Prop)
    [hok : ∀ c a, Decidable (ok c a)] :
    (c : Cluster) → (as : List Action) → Decidable (Along cfg ok c as)
  | _, [] => inferInstanceAs (Decidable True)
  | c, a :: as =>
      match hok c a with
      | isFalse h => isFalse fun h' => h h'.1
      | isTrue h =>
          match hstep : c.step cfg a with
          | none => isTrue ⟨h, by rw [hstep]; trivial⟩
          | some c' =>
              match decidableAlong cfg ok c' as with
              | isTrue h' => isTrue ⟨h, by rw [hstep]; exact h'⟩
              | isFalse h' => isFalse fun hall => h' (by
                  have hrest := hall.2
                  rw [hstep] at hrest
                  exact hrest)

/-- The steps that the model of the network and of the disk allows: no write
fails unless `faulty`, and the term counter does not wrap around. -/
def Usual (faulty : Prop) (c : Cluster) (a : Action) : Prop :=
  Txn.Allowed faulty a.outcomes ∧ c.TermsLeft a

/-- What every transition preserves is preserved by every run. -/
theorem exec_invariant_from
    {ok : Cluster → Action → Prop} {P : Cluster → Prop}
    (hok : ∀ c a, ok c a → Usual faulty c a)
    (hstep : ∀ c a c' x ls, c.Threads cfg → ok c a →
      Transition cfg faulty c a c' x ls → c.step cfg a = some c' → P c → P c')
    {as : List Action} {c₀ : Cluster}
    (hthreads : c₀.Threads cfg)
    (hP : P c₀)
    (halong : Along cfg ok c₀ as)
    (hexec : c₀.exec cfg as = some c) :
    c.Threads cfg ∧ P c := by
  induction as generalizing c₀ with
  | nil =>
      cases hexec
      exact ⟨hthreads, hP⟩
  | cons a as ih =>
      simp only [exec] at hexec
      split at hexec
      · next c₁ hc₁ =>
          obtain ⟨hos, hterm⟩ := hok c₀ a halong.1
          obtain ⟨x, ls, T, hthreads'⟩ := step_next hthreads hos hterm hc₁
          have hrest := halong.2
          rw [hc₁] at hrest
          exact ih hthreads' (hstep c₀ a c₁ x ls hthreads halong.1 T hc₁ hP) hrest hexec
      · cases hexec

/-- What holds at the start and is preserved by every transition holds after
every run. -/
theorem exec_invariant
    {ok : Cluster → Action → Prop} {P : Cluster → Prop}
    (hok : ∀ c a, ok c a → Usual faulty c a)
    (hstep : ∀ c a c' x ls, c.Threads cfg → ok c a →
      Transition cfg faulty c a c' x ls → c.step cfg a = some c' → P c → P c')
    (hinit : P init)
    {as : List Action}
    (halong : Along cfg ok init as)
    (hexec : init.exec cfg as = some c) :
    P c :=
  (exec_invariant_from hok hstep threads_init hinit halong hexec).2

theorem exec_append
    (as bs : List Action) :
    c.exec cfg (as ++ bs) = (c.exec cfg as).bind fun c' => c'.exec cfg bs := by
  induction as generalizing c with
  | nil => rfl
  | cons a as ih =>
      simp only [List.cons_append, exec]
      cases c.step cfg a with
      | none => rfl
      | some c' => exact ih

theorem along_append
    {ok : Cluster → Action → Prop} {as bs : List Action}
    (halong : Along cfg ok c (as ++ bs)) :
    Along cfg ok c as ∧ ∀ c', c.exec cfg as = some c' → Along cfg ok c' bs := by
  induction as generalizing c with
  | nil =>
      refine ⟨trivial, fun c' hc' => ?_⟩
      cases hc'
      exact halong
  | cons a as ih =>
      obtain ⟨hok, hrest⟩ := halong
      simp only [Along, exec]
      cases hstep : c.step cfg a with
      | none => exact ⟨⟨hok, trivial⟩, fun c' hc' => by cases hc'⟩
      | some c₁ =>
          simp only [List.append_eq, hstep] at hrest
          exact ⟨⟨hok, (ih hrest).1⟩, (ih hrest).2⟩

/-- The step of a run that makes a property true. -/
theorem exec_first
    {P : Cluster → Prop} {as : List Action}
    (hnot : ¬ P c)
    (hexec : c.exec cfg as = some c')
    (hP : P c') :
    ∃ as₁ a as₂ c₁ c₂, as = as₁ ++ a :: as₂ ∧ c.exec cfg as₁ = some c₁ ∧
      c₁.step cfg a = some c₂ ∧ ¬ P c₁ ∧ P c₂ := by
  induction as generalizing c with
  | nil =>
      cases hexec
      exact absurd hP hnot
  | cons a as ih =>
      simp only [exec] at hexec
      split at hexec
      · next c₂ hstep =>
          by_cases h₂ : P c₂
          · exact ⟨[], a, as, c, c₂, rfl, rfl, hstep, hnot, h₂⟩
          · obtain ⟨as₁, b, as₂, c₃, c₄, rfl, hexec₁, hstep', h₃, h₄⟩ := ih h₂ hexec
            exact ⟨a :: as₁, b, as₂, c₃, c₄, rfl, by simp [exec, hstep, hexec₁], hstep',
              h₃, h₄⟩
      · cases hexec

/-- A run cut at one of its moments. -/
theorem exec_moment
    {ok : Cluster → Action → Prop} {as bs : List Action} {c₁ : Cluster}
    (hmoment : bs <+: as)
    (halong : Along cfg ok c as)
    (hexec : c.exec cfg as = some c')
    (hexec₁ : c.exec cfg bs = some c₁) :
    Along cfg ok c bs ∧ ∃ rest, Along cfg ok c₁ rest ∧ c₁.exec cfg rest = some c' := by
  obtain ⟨rest, rfl⟩ := hmoment
  obtain ⟨hbs, hrest⟩ := along_append halong
  rw [exec_append, hexec₁] at hexec
  exact ⟨hbs, rest, hrest c₁ hexec₁, hexec⟩

end Runs

end Cluster
end LogReplicator
