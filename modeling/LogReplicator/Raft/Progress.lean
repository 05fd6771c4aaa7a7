import LogReplicator.Library.Followers
import LogReplicator.Raft.Leaders
import LogReplicator.Raft.Refinement

/-!
# What `Status` says about the logs

The indexes a node reports about itself are in order, and the match index a leader reports
for a peer is true of the peer: it has these entries for as long as it is in the term of
the leader.
-/

namespace LogReplicator

open Library Library.Consensus

namespace Cluster

section Runs

variable {cfg : Config} {as : List Action} {c : Cluster}

/-- The abstract protocol a run follows is faithful to its leaders. -/
theorem exec_faithful
    (halong : Along cfg Followable init as)
    (hexec : init.exec cfg as = some c) :
    ∃ σ, Refines cfg σ c ∧ Faithful σ := by
  refine exec_refines_with (P := fun σ _ => Faithful σ) (fun _ _ h => h) faithful_init ?_
    halong hexec
  intro g σ c a c' hthreads hvotes hrefines hok hc' hfaithful
  obtain ⟨x, ls, T, -⟩ : c.Next cfg False a c' :=
    step_next hthreads (fun hfail => hok.commits hfail) hok.terms hc'
  obtain ⟨σ', hpath, -⟩ := hrefines.path (Q := fun _ _ => True) hok hthreads hvotes T trivial
    fun _ _ _ _ _ _ _ _ => trivial
  exact ⟨x, ls, σ', T, hpath, hpath.steps.faithful hrefines.inv hfaithful⟩

/-- A peer in the term of its leader has what the leader has counted. -/
theorem Refines.peer_holds
    {σ : State String Entry} {x p : String}
    (h : Refines cfg σ c)
    (hfaithful : Faithful σ)
    (hleader : (c.node x).role = .leader)
    (hp : p ∈ (cfg.options x).peers)
    (hterm : (c.node p).currentTerm = (c.node x).currentTerm) :
    (σ.log x).take ((c.node x).matchIndex p) <+: σ.log p ∧
      (c.node x).matchIndex p ≤ (σ.log x).length := by
  have hleading := (h.nodes x).leader hleader
  rcases hleading.peers p hp with hzero | ⟨m, hm, hack⟩
  · simp [hzero]
  · have hbound := (h.inv.ack_term p _ m hack).2
    rw [← hleading.log] at hbound
    refine ⟨?_, hm.trans hbound⟩
    have hkept := hfaithful p m (by rwa [(h.nodes p).term, hterm])
    rw [(h.nodes p).term, hterm, ← hleading.log] at hkept
    exact (List.take_prefix_take_left hm).trans hkept

/-- On every run the protocol can follow, the indexes in a status report are in order, and
what a leader reports about a peer in its term is true: the peer has a log of at least that
length, and wherever both still have the entries, they are the same up to there. -/
theorem status_true
    (halong : Along cfg Followable init as)
    (hexec : init.exec cfg as = some c)
    (x : String) :
    ((c.status cfg x).snapshotIndex ≤ (c.status cfg x).lastApplied ∧
      (c.status cfg x).lastApplied ≤ (c.status cfg x).commitIndex ∧
      (c.status cfg x).commitIndex ≤ (c.status cfg x).lastLogIndex) ∧
    ((c.status cfg x).role = .leader → ∀ peer ∈ (c.status cfg x).peers,
      (c.status cfg peer.id).term = (c.status cfg x).term →
        peer.matchIndex ≤ (c.status cfg x).lastLogIndex ∧
        peer.matchIndex ≤ (c.status cfg peer.id).lastLogIndex ∧
        ∀ i, (c.status cfg x).snapshotIndex < i → (c.status cfg peer.id).snapshotIndex < i →
          i ≤ peer.matchIndex →
          (c.node peer.id).store.entry i = (c.node x).store.entry i) := by
  obtain ⟨σ, h, hfaithful⟩ := exec_faithful halong hexec
  have hx := h.nodes x
  refine ⟨⟨?_, hx.reached, ?_⟩, fun hrole peer hpeer hterm => ?_⟩
  · exact hx.log.ordered.applied.trans hx.applied
  · exact hx.commit_le.trans hx.log.length.ge
  · obtain ⟨p, hp, rfl⟩ := List.mem_map.mp hpeer
    obtain ⟨hheld, hbound⟩ := h.peer_holds hfaithful hrole hp hterm
    have hlength : (c.node x).matchIndex p ≤ (σ.log p).length := by
      have hle := hheld.length_le
      rwa [List.length_take, min_eq_left hbound] at hle
    refine ⟨hbound.trans hx.log.length.ge, hlength.trans (h.nodes p).log.length.ge, ?_⟩
    intro i hi hip hmatch
    obtain ⟨j, rfl⟩ : ∃ j, i = j + 1 := ⟨i - 1, by omega⟩
    rw [(h.nodes p).log.rows j (Nat.lt_succ_iff.mp hip), hx.log.rows j (Nat.lt_succ_iff.mp hi)]
    have hentry : (σ.log x)[j]? = some (σ.log x)[j] :=
      List.getElem?_eq_getElem (Nat.lt_of_lt_of_le hmatch hbound)
    rw [hentry]
    exact getElem?_prefix_eq hheld (by rwa [List.getElem?_take_of_lt hmatch])

/-- `a` leads term 1 and knows that `b` has its first entry. -/
def firstAck : List Action :=
  firstEntry ++ [.appendReply "a" "b" ⟨1, true, 1⟩ [], .appendDone "a" "b" []]

theorem status_true_firstAck :
    Along (trio fun _ => 0) Followable init firstAck ∧
      ∃ c, init.exec (trio fun _ => 0) firstAck = some c ∧
        (⟨"b", 1, 2⟩ : PeerStatus) ∈ (c.status (trio fun _ => 0) "a").peers ∧
        (c.node "b").store.entry 1 = (c.node "a").store.entry 1 := by
  have halong : Along (trio fun _ => 0) Followable init firstAck := by decide +kernel
  have hrun : ((init.exec (trio fun _ => 0) firstAck).map fun c =>
      ((c.status (trio fun _ => 0) "a").role, (c.status (trio fun _ => 0) "a").peers,
        (c.status (trio fun _ => 0) "a").snapshotIndex,
        (c.status (trio fun _ => 0) "b").snapshotIndex,
        decide ((c.status (trio fun _ => 0) "b").term =
          (c.status (trio fun _ => 0) "a").term))) =
      some (.leader, [⟨"b", 1, 2⟩, ⟨"c", 0, 1⟩], 0, 0, true) := by
    decide +kernel
  obtain ⟨c, hexec, hstatus⟩ := Option.map_eq_some_iff.mp hrun
  simp only [Prod.mk.injEq, decide_eq_true_eq] at hstatus
  obtain ⟨hrole, hpeers, ha, hb, hterm⟩ := hstatus
  have hpeer : (⟨"b", 1, 2⟩ : PeerStatus) ∈ (c.status (trio fun _ => 0) "a").peers := by
    rw [hpeers]
    exact List.mem_cons_self
  obtain ⟨-, -, hentries⟩ := (status_true halong hexec "a").2 hrole _ hpeer hterm
  exact ⟨halong, c, hexec, hpeer,
    hentries 1 (by rw [ha]; decide) (by rw [hb]; decide) le_rfl⟩

end Runs

end Cluster

end LogReplicator
