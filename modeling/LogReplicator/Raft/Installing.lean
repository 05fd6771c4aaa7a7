import LogReplicator.Library.TwoLogs
import LogReplicator.Raft.FollowerSections
import LogReplicator.Raft.Transfer
import LogReplicator.Storage.FullLog

/-!
# Installing a snapshot

What `InstallSnapshot` does to a follower that is somewhere in the middle of its
log: to the commands it has applied, and to the rows it keeps above the snapshot.
-/

namespace LogReplicator

open Library Library.Consensus

section Applied

/-- The key/value table is the replay of the commands the node has applied, and the
disk knows how many these are. -/
structure Node.Replays (cs : List Command) (n : Node) : Prop where
  kv : n.store.kv = replay (cs.take n.lastApplied)
  disk : n.store.lastApplied = n.lastApplied

/-- A snapshot that is not behind the applied commands takes their place. -/
theorem Node.Replays.move
    {env : Env} {cs : List Command} {req : InstallSnapshotRequest} {l : Label}
    {n n' : Node}
    (h : n.Replays cs)
    (hmove : Move env l n n')
    (hl : l.Installs req)
    (hdata : Store.decodeSnapshot env.json req.data =
      some (replay (cs.take req.lastIncludedIndex)))
    (hforward : ∀ last known applied, l = .install req last known applied →
      applied ≤ req.lastIncludedIndex) :
    n'.Replays cs := by
  cases hmove with
  | raise _ =>
      exact ⟨h.kv, h.disk⟩
  | raiseUnsaved _ _ =>
      exact ⟨h.kv, h.disk⟩
  | follow =>
      exact ⟨h.kv, h.disk⟩
  | ignore _ _ =>
      exact h
  | @install _ req' state _ _ hstate =>
      obtain rfl : req' = req := hl
      have hle : n.lastApplied ≤ req'.lastIncludedIndex := hforward _ _ _ rfl
      rw [hdata, Option.some.injEq] at hstate
      refine ⟨?_, (max_eq_right hle).symm⟩
      show state = replay (cs.take (max n.lastApplied req'.lastIncludedIndex))
      rw [max_eq_right hle, ← hstate]
  | _ =>
      exact hl.elim

/-- A leader of the current term or a later one is accepted with the log and the counters
as they are. -/
theorem acceptLeader_keeps
    (n : Node) (term : Nat) (leaderID : String) :
    ∃ n', Node.acceptLeader term leaderID [] n = (some (), n', []) ∧ n.Kept n' := by
  by_cases hraise : n.currentTerm < term
  · refine ⟨{ n with
      role := .follower
      leaderID := leaderID
      currentTerm := term
      votedFor := ""
      store := n.store.saveTermVote term "" }, ?_, ⟨_, _, rfl⟩, rfl, rfl⟩
    simp only [Node.acceptLeader, Node.stepDownLocked, Node.adoptTerm, bind, Txn.andThen,
      Txn.read, hraise, true_or, if_true]
    rfl
  · refine ⟨{ n with role := .follower, leaderID := leaderID }, ?_, ⟨_, _, rfl⟩, rfl, rfl⟩
    by_cases hrole : n.role = .follower
    · simp [Node.acceptLeader, bind, Txn.andThen, Txn.read, Txn.update, hraise, hrole]
    · simp only [Node.acceptLeader, Node.stepDownLocked, Node.adoptTerm, bind, Txn.andThen,
        Txn.read, hraise, ne_eq, hrole, not_false_eq_true, or_true, if_true, if_false]
      rfl

/-- A snapshot that is accepted and newer than the last one is installed, whatever the
node has applied. -/
theorem Node.installSnapshot_newer
    {json : Json} {req : InstallSnapshotRequest} {n : Node} {state : Table String String}
    (haccepted : n.currentTerm ≤ req.term)
    (hnewer : n.store.snapshotIndex < req.lastIncludedIndex)
    (hstate : Store.decodeSnapshot json req.data = some state)
    (hdata : req.data ≠ []) :
    ∃ h n' term vote, Node.installSnapshot json req [] n = (some h, n', []) ∧
      n'.store = (n.store.saveTermVote term vote).installSnapshot
        ⟨req.lastIncludedIndex, req.lastIncludedTerm, req.data⟩ state ∧
      n'.lastApplied = max n.lastApplied req.lastIncludedIndex := by
  obtain ⟨n₁, haccept, hkept⟩ := acceptLeader_keeps n req.term req.leaderId
  obtain ⟨term, vote, hstore⟩ := hkept.store
  have hrun : Node.installSnapshot json req [] n = Node.installLocked json req [] n₁ := by
    show (if req.term < n.currentTerm then _ else _ : Txn Node _) [] n = _
    rw [if_neg (not_lt.mpr haccepted)]
    exact Txn.run_bind haccept
  have hnewer₁ : ¬ req.lastIncludedIndex ≤ n₁.store.snapshotIndex := by
    rw [hstore]
    exact not_le.mpr hnewer
  have hstorable : Store.storableData req.data = true := decide_eq_true hdata
  refine ⟨⟨.success, some ⟨n₁.currentTerm⟩⟩,
    { n₁ with
      store := n₁.store.installSnapshot
        ⟨req.lastIncludedIndex, req.lastIncludedTerm, req.data⟩ state
      commitIndex := max n₁.commitIndex req.lastIncludedIndex
      lastApplied := max n₁.lastApplied req.lastIncludedIndex },
    term, vote, ?_, by rw [← hstore], by rw [← hkept.lastApplied]⟩
  rw [hrun]
  show (if req.lastIncludedIndex ≤ n₁.store.snapshotIndex then _ else _ :
    Txn Node _) [] n₁ = _
  rw [if_neg hnewer₁, hstate]
  simp only [Node.writeStoreIf, hstorable]
  rfl

/-- An accepted snapshot of the same commands leaves a node that has applied exactly what
its counters say if it is no news, or not behind what the node has applied, or if the store
refuses it; and only then. -/
theorem Node.installSnapshot_replays
    {json : Json} {cs : List Command} {req : InstallSnapshotRequest} {n : Node}
    (hreplays : n.Replays cs)
    (haccepted : n.currentTerm ≤ req.term)
    (hdata : Store.decodeSnapshot json req.data =
      some (replay (cs.take req.lastIncludedIndex))) :
    (∀ os h n' os', Node.installSnapshot json req os n = (some h, n', os') →
      n'.Replays cs) ↔
    req.lastIncludedIndex ≤ n.store.snapshotIndex ∨
      n.lastApplied ≤ req.lastIncludedIndex ∨ req.data = [] := by
  constructor
  · intro hall
    by_contra hbehind
    simp only [not_or, not_le] at hbehind
    obtain ⟨hnewer, happlied, hne⟩ := hbehind
    obtain ⟨h, n', term, vote, hrun, hstore, hmemory⟩ :=
      Node.installSnapshot_newer haccepted hnewer hdata hne
    -- the disk goes back to the snapshot, the memory does not
    have hdisk := (hall _ _ _ _ hrun).disk
    have hback : n'.store.lastApplied = req.lastIncludedIndex := by
      rw [hstore]
      rfl
    omega
  · intro hforward os h n' os' hrun
    let env : Env := ⟨json, ⟨"", [], 0⟩, True, True⟩
    obtain ⟨ls, hpath, hinstalled⟩ :=
      Txn.wp_some (installSnapshot_spec : env.Spec _ _ _ n) (fun _ => trivial) hrun
    refine hpath.invariant hreplays fun l hl m m' hmove hm =>
      hm.move hmove (hinstalled.labels l hl) hdata ?_
    rintro last known applied rfl
    obtain ⟨-, -, happlied, -, hnew⟩ := hinstalled.install last known applied hl
    rcases hforward with hold | hle | hempty
    · omega
    · omega
    · exact absurd hempty (hinstalled.stored last known applied hl)

/-- Two writes to one key. -/
def twoWrites : List Command :=
  [.setCommand "k" "1", .setCommand "k" "2"]

/-- A follower that stores the two writes of term 1 and has applied some of them. -/
def appliedNode (applied : Nat) : Node :=
  Node.new ((Store.init.appendEntries
    [⟨1, 1, (Command.setCommand "k" "1").encode Json.compact⟩,
      ⟨2, 1, (Command.setCommand "k" "2").encode Json.compact⟩]).applyFrom 0
        (twoWrites.take applied))

/-- The snapshot of a leader of term 1 after some of the two writes. -/
def snapshotAfter (index : Nat) : InstallSnapshotRequest :=
  ⟨1, "l", index, 1, Json.compact.marshal (replay (twoWrites.take index)).rows⟩

theorem installSnapshot_replays_ahead :
    let r := Node.installSnapshot Json.compact (snapshotAfter 2) [] (appliedNode 1)
    (appliedNode 1).Replays twoWrites ∧ r.1.map Handled.outcome = some .success ∧
      r.2.1.lastApplied = 2 ∧ r.2.1.Replays twoWrites := by
  intro r
  have hreplays : (appliedNode 1).Replays twoWrites :=
    ⟨Store.kv_applyFrom 0 (twoWrites.take 1) _, rfl⟩
  have hdata : Store.decodeSnapshot Json.compact (snapshotAfter 2).data =
      some (replay (twoWrites.take (snapshotAfter 2).lastIncludedIndex)) :=
    Store.decodeSnapshot_marshal _ _
  have hdone : r.1.map Handled.outcome = some .success := by decide +kernel
  obtain ⟨h, hr, -⟩ := Option.map_eq_some_iff.mp hdone
  exact ⟨hreplays, hdone, by decide +kernel,
    (Node.installSnapshot_replays hreplays (by decide +kernel) hdata).mpr
      (by decide +kernel) [] h _ _ (Prod.ext hr rfl)⟩

/-- The snapshot of the first write takes the second one away again: the memory
still says that two commands are applied, the disk that one is. -/
theorem installSnapshot_rewinds :
    let r := Node.installSnapshot Json.compact (snapshotAfter 1) [] (appliedNode 2)
    (appliedNode 2).Replays twoWrites ∧
    Store.decodeSnapshot Json.compact (snapshotAfter 1).data =
      some (replay (twoWrites.take (snapshotAfter 1).lastIncludedIndex)) ∧
    (appliedNode 2).currentTerm ≤ (snapshotAfter 1).term ∧
    r.1.map Handled.outcome = some .success ∧
    r.2.1.lastApplied = 2 ∧ r.2.1.store.lastApplied = 1 ∧
    r.2.1.store.kv ≠ replay (twoWrites.take r.2.1.lastApplied) := by
  refine ⟨⟨Store.kv_applyFrom 0 (twoWrites.take 2) _, rfl⟩,
    Store.decodeSnapshot_marshal _ _, by decide +kernel, by decide +kernel,
    by decide +kernel, by decide +kernel, fun hkv => ?_⟩
  exact absurd (congrArg Table.rows hkv) (by decide +kernel)

end Applied

section Tail

/-- The terms of the snapshot position and of the rows behind it, in log order. -/
def Store.terms (s : Store) : List Nat :=
  s.snapshotTerm :: s.logEntries.rows.map fun r => r.2.term

/-- The last term is one of the terms of the log. -/
theorem Store.snapshotTerm_le_last
    {s : Store}
    (h : s.terms.Pairwise (· ≤ ·)) :
    s.snapshotTerm ≤ s.lastIndexAndTerm.2 := by
  unfold lastIndexAndTerm
  cases hlast : s.logEntries.last with
  | none =>
      exact le_rfl
  | some r =>
      have hmem : r ∈ s.logEntries.rows := List.mem_of_getLast? hlast
      exact (List.pairwise_cons.mp h).1 _ (List.mem_map_of_mem hmem)

/-- A row further up has no smaller term. -/
theorem Store.term_le_of_lt
    {s : Store} {i j : Nat} {row row' : LogRow}
    (h : s.terms.Pairwise (· ≤ ·))
    (hrow : s.logEntries.get i = some row)
    (hrow' : s.logEntries.get j = some row')
    (hij : i < j) :
    row.term ≤ row'.term := by
  have hterms := List.pairwise_map.mp (List.pairwise_cons.mp h).2
  have hboth := s.logEntries.sorted.and hterms
  have hi := (Table.mem_rows_iff _ _ _).mpr hrow
  have hj := (Table.mem_rows_iff _ _ _).mpr hrow'
  -- the rows are in key order, so the one with the smaller key stands first
  obtain ⟨pre, post, hsplit⟩ := List.append_of_mem hi
  rw [hsplit] at hboth hj
  obtain ⟨-, hpost, hcross⟩ := List.pairwise_append.mp hboth
  rcases List.mem_append.mp hj with hj | hj
  · have := (hcross _ hj _ List.mem_cons_self).1
    simp only at this
    omega
  · rcases List.mem_cons.mp hj with heq | hj
    · simp only [Prod.mk.injEq] at heq
      omega
    · exact ((List.pairwise_cons.mp hpost).1 _ hj).2

/-- The rows above a snapshot fit it if there are none, or if the row under it has
the term of the snapshot. -/
theorem Store.terms_installSnapshot
    {s : Store} {snapshot : Snapshot} {state : Table String String}
    (h : s.terms.Pairwise (· ≤ ·))
    (hordered : s.Ordered)
    (hnew : s.snapshotIndex < snapshot.lastIncludedIndex)
    (hfits : s.lastIndex ≤ snapshot.lastIncludedIndex ∨
      s.term snapshot.lastIncludedIndex = some snapshot.lastIncludedTerm) :
    (s.installSnapshot snapshot state).terms.Pairwise (· ≤ ·) := by
  have hrows : (s.installSnapshot snapshot state).logEntries.rows.Sublist
      s.logEntries.rows :=
    List.filter_sublist
  refine List.pairwise_cons.mpr
    ⟨?_, (List.pairwise_cons.mp h).2.sublist (hrows.map _)⟩
  intro t ht
  obtain ⟨⟨i, row⟩, hmem, rfl⟩ := List.mem_map.mp ht
  have hget := (Table.mem_rows_iff _ _ _).mp hmem
  rw [get_installSnapshot] at hget
  split_ifs at hget with hi
  have hi' := ((hordered.rows i).mp (by simp [hget])).2
  rcases hfits with hlast | hknown
  · omega
  · rw [term_eq_map hnew] at hknown
    obtain ⟨row', hrow', hterm⟩ := Option.map_eq_some_iff.mp hknown
    show snapshot.lastIncludedTerm ≤ row.term
    rw [← hterm]
    exact Store.term_le_of_lt h hrow' hget (by omega)

/-- The store has ordered terms and no rows but those it had. -/
structure Node.Trims (s : Store) (n : Node) : Prop where
  ordered : n.store.Ordered
  terms : n.store.terms.Pairwise (· ≤ ·)
  rows : ∀ i, (n.store.logEntries.get i).isSome → (s.logEntries.get i).isSome

theorem Node.Trims.move
    {env : Env} {s : Store} {req : InstallSnapshotRequest} {l : Label} {n n' : Node}
    (h : n.Trims s)
    (hmove : Move env l n n')
    (hl : l.Installs req)
    (hfits : ∀ last known applied, l = .install req last known applied →
      last ≤ req.lastIncludedIndex ∨ known = some req.lastIncludedTerm) :
    n'.Trims s := by
  cases hmove with
  | raise _ =>
      exact ⟨h.ordered.saveTermVote _ _, h.terms, h.rows⟩
  | raiseUnsaved _ _ =>
      exact ⟨h.ordered, h.terms, h.rows⟩
  | follow =>
      exact ⟨h.ordered, h.terms, h.rows⟩
  | ignore _ _ =>
      exact h
  | @install _ req' state _ hnew _ =>
      obtain rfl : req' = req := hl
      refine ⟨h.ordered.installSnapshot hnew,
        Store.terms_installSnapshot h.terms h.ordered hnew (hfits _ _ _ rfl), ?_⟩
      intro i hi
      rw [Store.get_installSnapshot] at hi
      split_ifs at hi
      · simp at hi
      · exact h.rows i hi
  | _ =>
      exact hl.elim

/-- The terms of the log do not decrease, and rows above the snapshot are kept only if
the row at its position was the one it stands for. -/
structure Node.FitsTail (n : Node) (req : InstallSnapshotRequest) (n' : Node) : Prop where
  terms : n'.store.terms.Pairwise (· ≤ ·)
  last : n'.store.snapshotTerm ≤ n'.store.lastIndexAndTerm.2
  tail : n.store.snapshotIndex < req.lastIncludedIndex →
    ∀ i, req.lastIncludedIndex < i → (n'.store.logEntries.get i).isSome →
      n.store.term req.lastIncludedIndex = some req.lastIncludedTerm

/-- An accepted snapshot that is no news, finds no rows above it, or finds the row it
stands for, leaves a log whose terms do not decrease, and keeps rows above it only in the
last case.  No other snapshot does: the last row stays behind a position that nobody
compared.  The columns are signed, so positions are below 2^63. -/
theorem Node.installSnapshot_keeps_fitting_tail
    {json : Json} {req : InstallSnapshotRequest} {n : Node} {state : Table String String}
    (hordered : n.store.Ordered)
    (hterms : n.store.terms.Pairwise (· ≤ ·))
    (haccepted : n.currentTerm ≤ req.term)
    (hstate : Store.decodeSnapshot json req.data = some state)
    (hdata : req.data ≠ []) :
    n.store.lastIndex < 2 ^ 63 → req.lastIncludedIndex < 2 ^ 63 →
    ((∀ os h n' os', Node.installSnapshot json req os n = (some h, n', os') →
      n.FitsTail req n') ↔
    req.lastIncludedIndex ≤ n.store.snapshotIndex ∨
      n.store.lastIndex ≤ req.lastIncludedIndex ∨
      n.store.term req.lastIncludedIndex = some req.lastIncludedTerm) := by
  intro _ _
  constructor
  · intro hall
    by_contra hforeign
    simp only [not_or, not_le] at hforeign
    obtain ⟨hnewer, hlast, hother⟩ := hforeign
    obtain ⟨h, n', term, vote, hrun, hstore, -⟩ :=
      Node.installSnapshot_newer haccepted hnewer hstate hdata
    refine hother ((hall _ _ _ _ hrun).tail hnewer n.store.lastIndex hlast ?_)
    rw [hstore, Store.get_installSnapshot, if_neg (not_le.mpr hlast)]
    exact (hordered.rows _).mpr ⟨hnewer.trans hlast, le_rfl⟩
  · intro hfits os h n' os' hrun
    let env : Env := ⟨json, ⟨"", [], 0⟩, True, True⟩
    obtain ⟨ls, hpath, hinstalled⟩ :=
      Txn.wp_some (installSnapshot_spec : env.Spec _ _ _ n) (fun _ => trivial) hrun
    have htrims : n'.Trims n.store := by
      refine hpath.invariant ⟨hordered, hterms, fun _ hi => hi⟩ fun l hl m m' hmove hm =>
        hm.move hmove (hinstalled.labels l hl) ?_
      rintro last known applied rfl
      obtain ⟨rfl, rfl, -, -, hnew⟩ := hinstalled.install last known applied hl
      exact hfits.resolve_left (not_le.mpr hnew)
    refine ⟨htrims.terms, Store.snapshotTerm_le_last htrims.terms, fun hnew i hi hrow => ?_⟩
    have hlast := ((hordered.rows i).mp (htrims.rows i hrow)).2
    rcases hfits with hold | hend | hknown
    · omega
    · omega
    · exact hknown

/-- Two entries of term 1. -/
def staleLog : List Entry :=
  [⟨1, 1, (Command.setCommand "k" "1").encode Json.compact⟩,
    ⟨2, 1, (Command.setCommand "k" "2").encode Json.compact⟩]

/-- A log of a leader of term 2 that shares nothing with `staleLog`. -/
def freshLog : List Entry :=
  [⟨1, 2, (Command.setCommand "k" "3").encode Json.compact⟩]

/-- The snapshot of `freshLog` or, in term 1, of the first entry of `staleLog`. -/
def snapshotOfFirst (term : Nat) : InstallSnapshotRequest :=
  ⟨2, "l", 1, term, Json.compact.marshal [("k", "3")]⟩

def staleNode : Node :=
  Node.new (Store.init.appendEntries staleLog)

theorem staleNode_stores :
    staleNode.store.Stores staleLog :=
  Store.stores_indexed (by decide)

theorem installSnapshot_keeps_fitting_tail_known :
    let r := Node.installSnapshot Json.compact (snapshotOfFirst 1) [] staleNode
    staleNode.store.terms.Pairwise (· ≤ ·) ∧
      r.1.map Handled.outcome = some .success ∧
      (r.2.1.store.logEntries.get 2).isSome ∧
      r.2.1.store.terms.Pairwise (· ≤ ·) := by
  intro r
  have hterms : staleNode.store.terms.Pairwise (· ≤ ·) := by decide +kernel
  have hdone : r.1.map Handled.outcome = some .success := by decide +kernel
  obtain ⟨h, hr, -⟩ := Option.map_eq_some_iff.mp hdone
  have hrun : Node.installSnapshot Json.compact (snapshotOfFirst 1) [] staleNode =
      (some h, r.2.1, r.2.2) := Prod.ext hr rfl
  have hstate : ∃ state,
      Store.decodeSnapshot Json.compact (snapshotOfFirst 1).data = some state := by
    rw [← Option.isSome_iff_exists]
    decide +kernel
  obtain ⟨state, hstate⟩ := hstate
  exact ⟨hterms, hdone, by decide +kernel,
    ((Node.installSnapshot_keeps_fitting_tail staleNode_stores.ordered hterms
      (by decide +kernel) hstate (by decide +kernel) (by decide +kernel)
      (by decide +kernel)).mpr (by decide +kernel) _ _ _ _ hrun).terms⟩

/-- The follower has two entries of term 1 and installs a snapshot of term 2 at the
first position: the second entry stays, and the log ends with a term below that of
the snapshot. -/
theorem installSnapshot_keeps_foreign_tail :
    let r := Node.installSnapshot Json.compact (snapshotOfFirst 2) [] staleNode
    staleNode.store.Stores staleLog ∧
    Matching Entry.term staleLog freshLog ∧
    (freshLog.map Entry.term).Pairwise (· ≤ ·) ∧
    (staleLog.map Entry.term).Pairwise (· ≤ ·) ∧
    (snapshotOfFirst 2).lastIncludedIndex ≤ freshLog.length ∧
    (snapshotOfFirst 2).lastIncludedTerm =
      termAt Entry.term freshLog (snapshotOfFirst 2).lastIncludedIndex ∧
    r.1.map Handled.outcome = some .success ∧
    staleNode.store.term (snapshotOfFirst 2).lastIncludedIndex ≠
      some (snapshotOfFirst 2).lastIncludedTerm ∧
    (r.2.1.store.logEntries.get 2).isSome ∧
    ¬ r.2.1.store.terms.Pairwise (· ≤ ·) ∧
    r.2.1.store.lastIndexAndTerm.2 < r.2.1.store.snapshotTerm :=
  ⟨staleNode_stores, by decide +kernel, by decide +kernel, by decide +kernel,
    by decide +kernel, by decide +kernel, by decide +kernel, by decide +kernel,
    by decide +kernel, by decide +kernel, by decide +kernel⟩

end Tail

end LogReplicator
