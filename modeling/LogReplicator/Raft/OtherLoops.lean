import LogReplicator.Raft.Solo

/-!
# The sections with another apply loop

The sections that move the commit index end with `applyCommittedLocked`.  Here they take
what they run in its place as an argument.  It makes no difference to an operation if it
makes none in the states where the operation runs it, and these have every property that the
moves of the operation keep (`Solo.performWith_eq`).
-/

namespace LogReplicator

open Library

namespace Node

section Sections

variable (apply : Txn Node Unit) (o : Options)

def followLeaderCommitWith (leaderCommit : Nat) : Txn Node Unit := do
  let n ← Txn.read
  if leaderCommit ≤ n.commitIndex then
    pure ()
  else do
    Txn.update fun n =>
      { n with commitIndex := min leaderCommit n.store.lastIndex }
    apply

def mergeLockedWith (req : AppendEntriesRequest) : Txn Node (Handled AppendEntriesResponse) := do
  let n ← Txn.read
  if req.prevLogIndex < n.store.snapshotIndex then
    pure ⟨.behindSnapshot,
      some ⟨n.currentTerm, false, n.store.snapshotIndex⟩⟩
  else if n.store.term req.prevLogIndex ≠ some req.prevLogTerm then
    pure ⟨.logMismatch, some n.rejectAppendLocked⟩
  else do
    let stored ← storeLeaderEntriesLocked req.entries req.prevLogIndex
      n.store.snapshotIndex
    match stored with
    | none => pure ⟨.error, none⟩
    | some matchIndex => do
        followLeaderCommitWith apply req.leaderCommit
        pure ⟨.success, some ⟨n.currentTerm, true, matchIndex⟩⟩

def appendEntriesWith (req : AppendEntriesRequest) :
    Txn Node (Handled AppendEntriesResponse) := do
  let n ← Txn.read
  if req.term < n.currentTerm then
    pure ⟨.staleTerm, some n.rejectAppendLocked⟩
  else do
    acceptLeader req.term req.leaderId
    mergeLockedWith apply req

def advanceCommitWith : Txn Node Unit := do
  let n ← Txn.read
  if n.committedIndex o = n.commitIndex then
    pure ()
  else do
    Txn.update fun n' => { n' with commitIndex := n.committedIndex o }
    apply

def appendRepliedWith (peerID : String) (term : Nat) (req : AppendEntriesRequest)
    (reply : AppendEntriesResponse) : Txn Node AppendOutcome := do
  let n ← Txn.read
  if n.role ≠ .leader ∨ n.currentTerm ≠ term then
    pure .failed
  else if reply.success = false then do
    Txn.update fun n => n.setNextIndex peerID
      (nextIndexAfterRejection (n.nextIndexLocked peerID) reply.matchIndex)
    pure .rejected
  else do
    Txn.update
      (recordPeerProgressLocked peerID (max reply.matchIndex (lastEntryIndex req)))
    advanceCommitWith apply o
    pure .accepted

def snapshotRepliedWith (peerID : String) (term lastIncludedIndex : Nat) :
    Txn Node Bool := do
  let n ← Txn.read
  if n.role ≠ .leader ∨ n.currentTerm ≠ term then
    pure false
  else do
    Txn.update (recordPeerProgressLocked peerID lastIncludedIndex)
    advanceCommitWith apply o
    pure true

def appendClientEntryWith (payload : Bytes) :
    Txn Node (Except Status (Entry × Nat)) := do
  let n ← Txn.read
  if n.role ≠ .leader then
    pure (.error (notLeaderError n.leaderID))
  else do
    let stored ← writeStoreIf (Store.storable [n.clientEntry payload]) fun s =>
      s.appendEntries [n.clientEntry payload]
    if stored = false then
      pure (.error ⟨.internal, "append entry"⟩)
    else if o.peers = [] then do
      advanceCommitWith apply o
      pure (.ok (n.clientEntry payload, n.currentTerm))
    else
      pure (.ok (n.clientEntry payload, n.currentTerm))

end Sections

end Node

/-- `perform` with another `applyCommittedLocked`. -/
def Solo.performWith (apply : Txn Node Unit) (json : Json) (o : Options) (s : Solo)
    (op : Operation) (os : List Outcome) : Solo :=
  match op with
  | .commitAlone => s.runSection (Node.advanceCommitWith apply o) os fun _ => []
  | .append req =>
      s.runSection (Node.appendEntriesWith apply req) os fun h => [.append req h]
  | .appendReply peerID term req reply =>
      s.runSection (Node.appendRepliedWith apply o peerID term req reply) os fun _ => []
  | .snapshotReply peerID term lastIncludedIndex =>
      s.runSection (Node.snapshotRepliedWith apply o peerID term lastIncludedIndex) os
        fun _ => []
  | .client payload =>
      s.runSection (Node.appendClientEntryWith apply o payload) os fun _ => []
  | .timeout | .win _ | .vote _ | .snapshot _ | .observe _ | .build _ | .crash =>
      s.perform json o op os

/-- With its own, it is `perform`. -/
theorem Solo.performWith_self
    (json : Json) (o : Options) (s : Solo) (op : Operation) (os : List Outcome) :
    s.performWith (Node.applyCommittedLocked json o) json o op os = s.perform json o op os := by
  cases op <;> rfl

section Runs

variable {json : Json} {o : Options} {P : Node → Prop} {apply : Txn Node Unit}
variable {n : Node} {op : Operation} {os : List Outcome}

/-- From the states with `P`, `apply` runs as `applyCommittedLocked`, and the moves that the
operation makes before keep `P`. -/
structure Interchangeable (json : Json) (o : Options) (P : Node → Prop)
    (apply : Txn Node Unit) (n : Node) (op : Operation) (os : List Outcome) : Prop where
  same : ∀ m, P m → ∀ os', apply os' m = Node.applyCommittedLocked json o os' m
  kept : ∀ l m m', Move (Solo.env json o) l m m' → l.From n op os →
    (∀ req, op = .append req → l.Appends req) → P m → P m'

namespace Interchangeable

open Txn

theorem advanceCommit
    (h : Interchangeable json o P apply n op os) (hop : ∀ req, op ≠ .append req)
    {m : Node} (hm : P m) (os' : List Outcome) :
    Node.advanceCommitWith apply o os' m = Node.advanceCommitLocked json o os' m := by
  unfold Node.advanceCommitWith Node.advanceCommitLocked
  rw [run_read_bind, run_read_bind]
  split_ifs with hcommit
  · rfl
  · refine h.same _ (h.kept _ _ _ (Move.advance (Or.inl trivial) hcommit) trivial ?_ hm) os'
    exact fun req hreq => absurd hreq (hop req)

/-- Progress of a peer is recorded first. -/
theorem record
    {α : Type} {a : α}
    (h : Interchangeable json o P apply n op os) (hop : ∀ req, op ≠ .append req)
    {m : Node} (hm : P m) (hrole : m.role = .leader) (peerID : String) (matchIndex : Nat)
    (os' : List Outcome) :
    (do
      Txn.update (Node.recordPeerProgressLocked peerID matchIndex)
      Node.advanceCommitWith apply o
      pure a) os' m =
    (do
      Txn.update (Node.recordPeerProgressLocked peerID matchIndex)
      Node.advanceCommitLocked json o
      pure a) os' m := by
  have hrecorded : P (Node.recordPeerProgressLocked peerID matchIndex m) :=
    h.kept _ _ _ (Move.progress hrole) trivial (fun req hreq => absurd hreq (hop req)) hm
  exact run_bind_left (h.advanceCommit hop hrecorded os') fun _ => pure a

theorem appendReplied
    (h : Interchangeable json o P apply n op os) (hop : ∀ req, op ≠ .append req) (hn : P n)
    (peerID : String) (term : Nat) (req : AppendEntriesRequest)
    (reply : AppendEntriesResponse) :
    Node.appendRepliedWith apply o peerID term req reply os n =
      Node.appendReplied json o peerID term req reply os n := by
  unfold Node.appendRepliedWith Node.appendReplied
  rw [run_read_bind, run_read_bind]
  split_ifs with hmoved hrejected
  · rfl
  · rfl
  · have hrole : n.role = .leader := by
      by_contra hrole
      exact hmoved (Or.inl hrole)
    exact h.record hop hn hrole peerID _ os

theorem snapshotReplied
    (h : Interchangeable json o P apply n op os) (hop : ∀ req, op ≠ .append req) (hn : P n)
    (peerID : String) (term lastIncludedIndex : Nat) :
    Node.snapshotRepliedWith apply o peerID term lastIncludedIndex os n =
      Node.snapshotReplied json o peerID term lastIncludedIndex os n := by
  unfold Node.snapshotRepliedWith Node.snapshotReplied
  rw [run_read_bind, run_read_bind]
  split_ifs with hmoved
  · rfl
  · have hrole : n.role = .leader := by
      by_contra hrole
      exact hmoved (Or.inl hrole)
    exact h.record hop hn hrole peerID _ os

theorem appendClientEntry
    {payload : Bytes}
    (h : Interchangeable json o P apply n (.client payload) os) (hn : P n) :
    Node.appendClientEntryWith apply o payload os n =
      Node.appendClientEntry json o payload os n := by
  unfold Node.appendClientEntryWith Node.appendClientEntry
  rw [run_read_bind, run_read_bind]
  split_ifs with hrole hpeers
  · rfl
  · refine run_bind_congr fun stored n' os' hrun => ?_
    split_ifs with hstored
    · rfl
    · -- what was written is the entry
      have hn' : P n' := by
        rcases writeIf_cases (Store.storable [n.clientEntry payload])
          (fun m : Node => { m with store := m.store.appendEntries [n.clientEntry payload] })
          os n with ⟨-, hwrite⟩ | ⟨-, hwrite⟩ | ⟨-, hwrite⟩
        · cases hwrite.symm.trans hrun
          have hpropose : Move (Solo.env json o)
              (.propose (n.clientEntry payload) n.store.lastIndexAndTerm.2) n
              { n with store := n.store.appendEntries [n.clientEntry payload] } :=
            Move.propose (not_not.mp hrole)
          exact h.kept _ _ _ hpropose ⟨payload, rfl, rfl⟩ (by simp) hn
        · cases hwrite.symm.trans hrun
          exact absurd rfl hstored
        · cases hwrite.symm.trans hrun
      exact run_bind_left (h.advanceCommit (by simp) hn' os') _
  · rfl

theorem kept_append
    {req : AppendEntriesRequest} {l : Label} {m m' : Node}
    (h : Interchangeable json o P apply n (.append req) os)
    (hmove : Move (Solo.env json o) l m m') (hl : l.Appends req) (hm : P m) :
    P m' := by
  refine h.kept l m m' hmove hl.comes.origin ?_ hm
  rintro _ ⟨⟩
  exact hl

theorem merge
    {req : AppendEntriesRequest}
    (h : Interchangeable json o P apply n (.append req) os)
    {m : Node} (hm : P m) (hterm : m.currentTerm = req.term) (hrole : m.role = .follower)
    (os' : List Outcome) :
    Node.mergeLockedWith apply req os' m = Node.mergeLocked json o req os' m := by
  unfold Node.mergeLockedWith Node.mergeLocked
  rw [run_read_bind, run_read_bind]
  split_ifs with hbehind hmismatch
  · rfl
  · rfl
  have hattached : m.Attached req :=
    ⟨hterm, hrole, not_lt.mp hbehind, fun _ => not_not.mp hmismatch⟩
  refine run_bind_congr fun stored m' os₁ hrun => ?_
  cases stored with
  | none => rfl
  | some matchIndex =>
      obtain ⟨ls, hpath, hstored⟩ := wp_some
        (storeLeaderEntriesLocked_spec hattached : (Solo.env json o).Spec _ _ _ m)
        (fun _ => trivial) hrun
      have hm' : P m' := hpath.invariant hm fun l hl k k' hmove hk => by
        have hl : l.Appends req := by
          rcases hstored.labels l hl with ⟨e, rfl⟩ | ⟨missing, rfl⟩ <;> rfl
        exact h.kept_append hmove hl hk
      refine run_bind_left ?_ _
      unfold Node.followLeaderCommitWith Node.followLeaderCommitLocked
      rw [run_read_bind, run_read_bind]
      split_ifs with hold
      · rfl
      · exact h.same _ (h.kept_append (Move.learn hstored.attached
          (fun hnum => (hstored.result _ rfl hnum).1) (not_le.mp hold)) rfl hm') os₁

theorem appendEntries
    {req : AppendEntriesRequest}
    (h : Interchangeable json o P apply n (.append req) os) (hn : P n) :
    Node.appendEntriesWith apply req os n = Node.appendEntries json o req os n := by
  unfold Node.appendEntriesWith Node.appendEntries
  rw [run_read_bind, run_read_bind]
  split_ifs with hstale
  · rfl
  · refine run_bind_congr fun _ m os' hrun => ?_
    obtain ⟨ls, hpath, hls, hterm, hrole, -⟩ := wp_some
      (acceptLeader_spec (not_lt.mp hstale) : (Solo.env json o).Spec _ _ _ n)
      (fun _ => trivial) hrun
    refine h.merge (hpath.invariant hn fun l hl k k' hmove hk => ?_) hterm hrole os'
    have hl : l.Appends req := by
      rcases hls l hl with ⟨saved, rfl⟩ | rfl <;> trivial
    exact h.kept_append hmove hl hk

end Interchangeable

/-- The operation runs the same with either. -/
theorem Solo.performWith_eq
    {s : Solo}
    (h : Interchangeable json o P apply s.node op os)
    (hs : P s.node) :
    s.performWith apply json o op os = s.perform json o op os := by
  have hsection : ∀ {α : Type} {m m' : Txn Node α} {answer : α → List Answered},
      m os s.node = m' os s.node → s.runSection m os answer = s.runSection m' os answer := by
    intro α m m' answer heq
    unfold Solo.runSection
    rw [heq]
  cases op with
  | commitAlone => exact hsection (h.advanceCommit (by simp) hs os)
  | append req => exact hsection (h.appendEntries hs)
  | appendReply peerID term req reply =>
      exact hsection (h.appendReplied (by simp) hs peerID term req reply)
  | snapshotReply peerID term lastIncludedIndex =>
      exact hsection (h.snapshotReplied (by simp) hs peerID term lastIncludedIndex)
  | client payload => exact hsection (h.appendClientEntry hs)
  | _ => rfl

end Runs

end LogReplicator
