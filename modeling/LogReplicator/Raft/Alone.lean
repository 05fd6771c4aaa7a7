import LogReplicator.Raft.Frames
import LogReplicator.Raft.Solo

/-!
# A cluster of one

A node without peers is its own majority.  It wins its elections without asking, commits a
write in the section that appends it, and confirms its leadership for a read without a
round.
-/

namespace LogReplicator

open Library Txn

/-- An entry at the next index is the last one then. -/
theorem Store.lastIndex_appendEntries_next
    {s : Store} (h : s.Ordered)
    {e : Entry} (he : e.index = s.lastIndex + 1) :
    (s.appendEntries [e]).lastIndex = e.index := by
  have hsnapshot := h.snapshotIndex_le
  refine le_antisymm (Store.lastIndex_le ?_ fun i hi => ?_)
    (Store.lastIndex_appendEntries_singleton e)
  · show s.snapshotIndex ≤ e.index
    omega
  · have hother : ∀ e' ∈ [e], e'.index ≠ i := by
      intro e' he'
      rw [List.mem_singleton.mp he']
      omega
    rw [Store.get_appendEntries_of_notMem hother]
    exact Store.get_of_lastIndex_lt (by omega)

namespace Node

variable {n : Node} {o : Options}

theorem majority_alone
    (hpeers : o.peers = []) :
    majority o = 1 := by
  rw [majority, hpeers]
  rfl

/-- The commit loop reaches the end of the log when the last entry may be committed. -/
theorem lastIndex_le_committedIndex
    (hlt : n.commitIndex < n.store.lastIndex)
    (h : n.committable o n.store.lastIndex = true) :
    n.store.lastIndex ≤ n.committedIndex o := by
  obtain ⟨k, hk⟩ := Nat.exists_eq_add_of_lt hlt
  have hrange : List.range' (n.commitIndex + 1) (n.store.lastIndex - n.commitIndex) =
      List.range' (n.commitIndex + 1) k ++ [n.store.lastIndex] := by
    rw [show n.store.lastIndex - n.commitIndex = k + 1 by omega, List.range'_1_concat,
      show n.commitIndex + 1 + k = n.store.lastIndex by omega]
  unfold committedIndex
  rw [hrange, List.foldl_append, List.foldl_cons, List.foldl_nil, if_pos h]

/-- Without peers the entries of the current term may be committed. -/
theorem committable_alone
    (hpeers : o.peers = [])
    {index : Nat} (hterm : n.store.term index = some n.currentTerm) :
    n.committable o index = true := by
  simp [committable, hterm, majority_alone hpeers, replicaCountLocked]

/-- After a look at the commit index, the last entry of the current term is committed. -/
theorem advanceCommitLocked_alone
    (json : Json) (hpeers : o.peers = [])
    (hterm : n.store.term n.store.lastIndex = some n.currentTerm)
    (os : List Outcome) :
    n.store.lastIndex ≤ (advanceCommitLocked json o os n).2.1.commitIndex := by
  unfold advanceCommitLocked
  rw [run_read_bind]
  rcases Nat.lt_or_ge n.commitIndex n.store.lastIndex with hlt | hge
  · have hreach := lastIndex_le_committedIndex hlt (committable_alone hpeers hterm)
    rw [if_neg (hlt.trans_le hreach).ne']
    exact hreach.trans (ignores_commitIndex.applyCommittedLocked json o os
      { n with commitIndex := n.committedIndex o }).ge
  · have hsame : n.committedIndex o = n.commitIndex := by
      rw [committedIndex, Nat.sub_eq_zero_of_le hge]
      rfl
    rw [if_pos hsame]
    exact hge

/-- A write that is accepted is committed when its section ends. -/
theorem appendClientEntry_alone
    (json : Json) (hpeers : o.peers = []) (hordered : n.store.Ordered)
    {payload : Bytes} {os os' : List Outcome} {e : Entry} {term : Nat} {n' : Node}
    (hrun : appendClientEntry json o payload os n = (some (.ok (e, term)), n', os')) :
    e.index ≤ n'.commitIndex := by
  unfold appendClientEntry at hrun
  rw [run_read_bind] at hrun
  split_ifs at hrun with hrole
  · cases hrun
  · let f : Node → Node := fun m =>
      { m with store := m.store.appendEntries [n.clientEntry payload] }
    change (Txn.writeIf _ f >>= _) os n = _ at hrun
    rcases writeIf_cases (Store.storable [n.clientEntry payload]) f os n with
      ⟨-, hwrite⟩ | ⟨-, hwrite⟩ | ⟨-, hwrite⟩
    · rw [run_bind hwrite] at hrun
      rw [if_neg Bool.true_eq_false.mp] at hrun
      have hlast : (f n).store.lastIndex = (n.clientEntry payload).index :=
        Store.lastIndex_appendEntries_next hordered rfl
      have hterm : (f n).store.term (f n).store.lastIndex = some n.currentTerm := by
        rw [hlast]
        exact Store.term_appendEntries_of_mem (by simp) (List.mem_singleton.mpr rfl)
          (Nat.lt_succ_of_le hordered.snapshotIndex_le)
      have hcommit := advanceCommitLocked_alone json hpeers hterm os.tail
      rcases hadvance : advanceCommitLocked json o os.tail (f n) with ⟨_ | u, n₂, os₂⟩
      · rw [run_bind_none hadvance] at hrun
        cases hrun
      · rw [run_bind hadvance] at hrun
        cases hrun
        rw [hadvance, hlast] at hcommit
        exact hcommit
    · rw [run_bind hwrite] at hrun
      cases hrun
    · rw [run_bind_none hwrite] at hrun
      cases hrun

end Node

/-- A candidate that its own vote elects leads the next term. -/
theorem Solo.elected_alone
    (json : Json) (o : Options) {s : Solo} (hrole : s.node.role ≠ .leader) :
    let s' := s.run json o [(.timeout, []), (.win (nextTerm s.node.currentTerm), [])]
    s'.node.role = .leader ∧ s'.node.currentTerm = nextTerm s.node.currentTerm := by
  have htimeout : s.perform json o .timeout [] =
      ⟨{ s.node with
          role := .candidate
          currentTerm := nextTerm s.node.currentTerm
          votedFor := o.nodeID
          leaderID := ""
          store := s.node.store.saveTermVote (nextTerm s.node.currentTerm) o.nodeID },
        s.answered ++ []⟩ := by
    simp only [Solo.perform, Solo.runSection, Node.becomeCandidate]
    rw [run_read_bind, if_neg hrole]
    rfl
  simp only [Solo.run, List.foldl_cons, List.foldl_nil, htimeout]
  simp only [Solo.perform, Solo.runSection, Node.becomeLeader]
  rw [run_read_bind, if_neg (by simp)]
  exact ⟨rfl, rfl⟩

/-- In a cluster of one the vote for itself elects a node, a write that is accepted is
answered at the first look at the commit index, and a read needs nobody to confirm the
leadership. -/
theorem Solo.alone_serves
    (json : Json) (o : Options) (hpeers : o.peers = [])
    (ops : List (Operation × List Outcome)) (hops : ∀ op ∈ ops, op.1.Numbered)
    (payload : Bytes) (os : List Outcome) :
    let s := Solo.init.run json o ops
    Node.majority o ≤ 1 ∧
    (s.node.role ≠ .leader →
      (s.run json o [(.timeout, []), (.win (nextTerm s.node.currentTerm), [])]).node.role =
        .leader) ∧
    (∀ e term n' os',
      Node.appendClientEntry json o payload os s.node = (some (.ok (e, term)), n', os') →
        n'.pollCommit e.index term = some (.ok ())) ∧
    (s.node.role = .leader → s.node.confirmLeadership o 1 = .ok ()) := by
  refine ⟨(Node.majority_alone hpeers).le, fun hrole => (Solo.elected_alone json o hrole).1,
    fun e term n' os' hrun => ?_, fun hrole => ?_⟩
  · have hcommitted := Node.appendClientEntry_alone json hpeers (Solo.run_ordered hops) hrun
    rw [Node.pollCommit, if_pos hcommitted]
  · simp [Node.confirmLeadership, hrole, Node.majority_alone hpeers]

/-- A node on its own is elected, takes a write and may be read. -/
theorem Solo.alone_serves_elected :
    (Solo.init.run .compact ⟨"a", [], 0⟩ [(.timeout, []), (.win 1, [])]).node.role = .leader ∧
      ∃ e n' os', Node.appendClientEntry .compact ⟨"a", [], 0⟩
          ((Command.setCommand "k" "v").encode Json.compact) []
          (Solo.init.run .compact ⟨"a", [], 0⟩ [(.timeout, []), (.win 1, [])]).node =
            (some (.ok (e, 1)), n', os') ∧
        n'.pollCommit e.index 1 = some (.ok ()) ∧
        (Solo.init.run .compact ⟨"a", [], 0⟩ [(.timeout, []), (.win 1, [])]).node.confirmLeadership
          ⟨"a", [], 0⟩ 1 = .ok () := by
  obtain ⟨-, helected, -, -⟩ := Solo.alone_serves .compact ⟨"a", [], 0⟩ rfl [] (by simp) [] []
  have hrole : (Solo.init.run .compact ⟨"a", [], 0⟩
      [(.timeout, []), (.win 1, [])]).node.role = .leader := helected (by decide)
  obtain ⟨-, -, hwrite, hconfirm⟩ := Solo.alone_serves .compact ⟨"a", [], 0⟩ rfl
    [(.timeout, []), (.win 1, [])] (by decide)
    ((Command.setCommand "k" "v").encode Json.compact) []
  exact ⟨hrole, _, _, _, rfl, hwrite _ _ _ _ rfl, hconfirm hrole⟩

end LogReplicator
