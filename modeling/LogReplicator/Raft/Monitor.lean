import LogReplicator.Raft.Instruments

/-!
# Runs of a watched node

The runs of one node on its own, with its instruments.  The run of the node is a run
without instruments, and of the instruments only the election deadline has an influence on
it (`run_solo`).  On every run the log of each process says once that a peer fails and once
that it answers again, in turns; and after it has heard from a leader a node finds no
election due before the shortest election timeout is over.
-/

namespace LogReplicator

open Library

/-- A node, the RPCs it has handled, and its instruments. -/
structure Monitor where
  solo : Solo
  instruments : Instruments
  /-- The election timer has found an election due and has not started it yet. -/
  due : Bool

/-- What happens to a watched node: what happens to a node, ticks of its election timer,
and calls to peers that fail. -/
inductive WatchedOp where
  | node (op : Operation) (clock : Clock)
  | tick (now : Int)
  | peerFails (peerID what : String)
  | voteFails (peerID : String)

/-- The readings of the operation. -/
def WatchedOp.clock : WatchedOp → Option Clock
  | node _ c => some c
  | tick _ => none
  | peerFails _ _ => none
  | voteFails _ => none

namespace Monitor

def watched (m : Monitor) : Watched :=
  (m.solo.node, m.instruments)

section Runs

variable (cfg : NodeConfig) (json : Json) (o : Options)

/-- `New` on an empty data directory. -/
def init (r : Reading) : Monitor :=
  ⟨Solo.init, Instruments.new cfg r (Node.new Store.init) [], false⟩

/-- The process starts again on its store, with new metrics. -/
def restart (m : Monitor) (r : Reading) (store : Store) (lines : List LogLine) : Monitor :=
  ⟨⟨Node.new store, m.solo.answered⟩, Instruments.new cfg r (Node.new store) lines, false⟩

def runSection {α : Type} (m : Monitor) (r : Reading) (sec : Txn Watched α)
    (os : List Outcome) (answer : α → List Answered) : Monitor :=
  match sec os m.watched with
  | (some a, w, _) => ⟨⟨w.1, m.solo.answered ++ answer a⟩, w.2, m.due⟩
  | (none, w, _) => m.restart cfg r w.1.store w.2.lines

/-- The timer starts the election that it has found due. -/
def startElection (m : Monitor) (c : Clock) (os : List Outcome) : Monitor :=
  if m.due then
    { m.runSection cfg c.restart (Watched.becomeCandidate cfg o c.reset) os fun _ => [] with
      due := false }
  else m

def performNode (m : Monitor) (op : Operation) (c : Clock) (os : List Outcome) : Monitor :=
  match op with
  | .timeout => m.startElection cfg o c os
  | .win term => m.runSection cfg c.restart (Watched.becomeLeader o term) os fun _ => []
  | .commitAlone => m.runSection cfg c.restart (Watched.commitAndApply json o) os fun _ => []
  | .vote req =>
      m.runSection cfg c.restart (Watched.requestVote cfg c req) os fun h => [.vote req h]
  | .append req =>
      m.runSection cfg c.restart (Watched.appendEntries cfg json o c req) os
        fun h => [.append req h]
  | .snapshot req =>
      m.runSection cfg c.restart (Watched.installSnapshot cfg json c req) os
        fun h => [.snapshot req h]
  | .observe term =>
      m.runSection cfg c.restart (Watched.observeHigherTerm cfg c.stepDown term) os
        fun _ => []
  | .build peerID =>
      { m with
        solo := ⟨(m.solo.node.buildAppendRequestLocked o peerID).1, m.solo.answered⟩ }
  | .appendReply peerID term req reply =>
      m.runSection cfg c.restart (Watched.appendReplied json o peerID term req reply) os
        fun _ => []
  | .snapshotReply peerID term lastIncludedIndex =>
      m.runSection cfg c.restart
        (Watched.snapshotReplied json o peerID term lastIncludedIndex) os fun _ => []
  | .client payload =>
      m.runSection cfg c.restart (Watched.appendClientEntry json o payload) os fun _ => []
  | .crash => m.restart cfg c.restart m.solo.node.store m.instruments.lines

/-- What is done with the instruments alone. -/
def record (m : Monitor) (sec : Txn Watched Unit) : Monitor :=
  { m with instruments := (sec [] m.watched).2.1.2 }

def perform (m : Monitor) (op : WatchedOp) (os : List Outcome) : Monitor :=
  match op with
  | .node op c => m.performNode cfg json o op c os
  | .tick now => { m with due := Watched.electionDue m.watched now }
  | .peerFails peerID what => m.record (Watched.notePeerUnreachable peerID what)
  | .voteFails peerID => m.record (Watched.logLine (.voteFailed peerID))

def run (m : Monitor) (ops : List (WatchedOp × List Outcome)) : Monitor :=
  ops.foldl (fun m op => m.perform cfg json o op.1 op.2) m

/-- What happens to the node itself: no election, unless the timer has found one due. -/
def happens (m : Monitor) : WatchedOp → Option Operation
  | .node .timeout _ => if m.due then some .timeout else none
  | .node op _ => some op
  | .tick _ => none
  | .peerFails _ _ => none
  | .voteFails _ => none

/-- What happens to the node itself on a run. -/
def performed (m : Monitor) :
    List (WatchedOp × List Outcome) → List (Operation × List Outcome)
  | [] => []
  | (op, os) :: ops =>
      ((m.happens op).map fun p => (p, os)).toList ++
        performed (m.perform cfg json o op os) ops

end Runs

section Erasure

variable (cfg : NodeConfig) (json : Json) (o : Options)

theorem runSection_solo
    {α : Type} (m : Monitor) (r : Reading) {w : Txn Watched α} {sec : Txn Node α}
    (h : Txn.Erases w sec) (os : List Outcome) (answer : α → List Answered) :
    (m.runSection cfg r w os answer).solo = m.solo.runSection sec os answer := by
  obtain ⟨i, hrun⟩ := h os m.solo.node m.instruments
  unfold runSection Solo.runSection watched
  rw [hrun]
  rcases sec os m.solo.node with ⟨_ | a, n, os'⟩ <;> rfl

/-- An operation on the watched node is what happens to the node itself. -/
theorem perform_solo
    (m : Monitor) (op : WatchedOp) (os : List Outcome) :
    (m.perform cfg json o op os).solo =
      m.solo.run json o ((m.happens op).map fun p => (p, os)).toList := by
  cases op with
  | tick now => rfl
  | peerFails peerID what => rfl
  | voteFails peerID => rfl
  | node op c =>
      cases op with
      | timeout =>
          show (m.startElection cfg o c os).solo =
            m.solo.run json o
              ((if m.due then some Operation.timeout else none).map fun p => (p, os)).toList
          unfold startElection
          split_ifs
          · exact runSection_solo cfg m _ (Watched.becomeCandidate_erases cfg o _) os _
          · rfl
      | win term => exact runSection_solo cfg m _ (Watched.becomeLeader_erases o term) os _
      | commitAlone =>
          exact runSection_solo cfg m _ (Watched.commitAndApply_erases json o) os _
      | vote req => exact runSection_solo cfg m _ (Watched.requestVote_erases cfg c req) os _
      | append req =>
          exact runSection_solo cfg m _ (Watched.appendEntries_erases cfg json o c req) os _
      | snapshot req =>
          exact runSection_solo cfg m _ (Watched.installSnapshot_erases cfg json c req) os _
      | observe term =>
          exact runSection_solo cfg m _ (Watched.observeHigherTerm_erases cfg _ term) os _
      | build peerID => rfl
      | appendReply peerID term req reply =>
          exact runSection_solo cfg m _
            (Watched.appendReplied_erases json o peerID term req reply) os _
      | snapshotReply peerID term lastIncludedIndex =>
          exact runSection_solo cfg m _
            (Watched.snapshotReplied_erases json o peerID term lastIncludedIndex) os _
      | client payload =>
          exact runSection_solo cfg m _ (Watched.appendClientEntry_erases json o payload) os _
      | crash => rfl

theorem run_performed
    (m : Monitor) (ops : List (WatchedOp × List Outcome)) :
    (m.run cfg json o ops).solo = m.solo.run json o (m.performed cfg json o ops) := by
  induction ops generalizing m with
  | nil =>
      rfl
  | cons op ops ih =>
      obtain ⟨op, os⟩ := op
      refine (ih (m.perform cfg json o op os)).trans ?_
      rw [perform_solo]
      exact (List.foldl_append ..).symm

end Erasure

/-! ### What has an influence -/

/-- The two nodes differ in their metrics and in their logs at most. -/
structure Alike (m m' : Monitor) : Prop where
  solo : m.solo = m'.solo
  due : m.due = m'.due
  deadline : m.instruments.electionDeadline = m'.instruments.electionDeadline

namespace Alike

variable {m m' : Monitor} {cfg : NodeConfig} {json : Json} {o : Options}

theorem restart
    (h : Alike m m') (r : Reading) (store : Store) (lines lines' : List LogLine) :
    Alike (m.restart cfg r store lines) (m'.restart cfg r store lines') := by
  refine ⟨?_, rfl, rfl⟩
  show (⟨_, m.solo.answered⟩ : Solo) = ⟨_, m'.solo.answered⟩
  rw [h.solo]

theorem runSection
    {α : Type} {sec : Txn Watched α}
    (h : Alike m m') (hsec : Txn.LooksAt Instruments.electionDeadline sec)
    (r : Reading) (os : List Outcome) (answer : α → List Answered) :
    Alike (m.runSection cfg r sec os answer) (m'.runSection cfg r sec os answer) := by
  have hseen := hsec os m.solo.node m.instruments m'.instruments h.deadline
  rw [show (m.solo.node, m'.instruments) = m'.watched by unfold watched; rw [h.solo]] at hseen
  unfold Monitor.runSection
  change Txn.seen _ (sec os m.watched) = _ at hseen
  generalize sec os m.watched = w, sec os m'.watched = w' at hseen ⊢
  obtain ⟨a, ⟨n, i⟩, os₁⟩ := w
  obtain ⟨a', ⟨n', i'⟩, os₁'⟩ := w'
  simp only [Txn.seen, Prod.mk.injEq] at hseen
  obtain ⟨rfl, ⟨rfl, hdeadline⟩, rfl⟩ := hseen
  cases a with
  | none => exact h.restart r n.store i.lines i'.lines
  | some a =>
      refine ⟨?_, h.due, hdeadline⟩
      show (⟨n, m.solo.answered ++ _⟩ : Solo) = ⟨n, m'.solo.answered ++ _⟩
      rw [h.solo]

theorem performNode
    (h : Alike m m') (op : Operation) (c : Clock) (os : List Outcome) :
    Alike (m.performNode cfg json o op c os) (m'.performNode cfg json o op c os) := by
  cases op with
  | timeout =>
      show Alike (m.startElection cfg o c os) (m'.startElection cfg o c os)
      unfold startElection
      rw [h.due]
      split_ifs
      · have hstarted : Alike
            (m.runSection cfg c.restart (Watched.becomeCandidate cfg o c.reset) os fun _ => [])
            (m'.runSection cfg c.restart (Watched.becomeCandidate cfg o c.reset) os
              fun _ => []) :=
          h.runSection (Watched.becomeCandidate_looks cfg o c.reset) _ os _
        exact ⟨hstarted.solo, rfl, hstarted.deadline⟩
      · exact h
  | win term => exact h.runSection (Watched.becomeLeader_looks o term) _ os _
  | commitAlone => exact h.runSection (Watched.commitAndApply_looks json o) _ os _
  | vote req => exact h.runSection (Watched.requestVote_looks cfg c req) _ os _
  | append req => exact h.runSection (Watched.appendEntries_looks cfg json o c req) _ os _
  | snapshot req => exact h.runSection (Watched.installSnapshot_looks cfg json c req) _ os _
  | observe term => exact h.runSection (Watched.observeHigherTerm_looks cfg _ term) _ os _
  | build peerID =>
      refine ⟨?_, h.due, h.deadline⟩
      show (⟨(m.solo.node.buildAppendRequestLocked o peerID).1, m.solo.answered⟩ : Solo) =
        ⟨(m'.solo.node.buildAppendRequestLocked o peerID).1, m'.solo.answered⟩
      rw [h.solo]
  | appendReply peerID term req reply =>
      exact h.runSection (Watched.appendReplied_looks json o peerID term req reply) _ os _
  | snapshotReply peerID term lastIncludedIndex =>
      exact h.runSection
        (Watched.snapshotReplied_looks json o peerID term lastIncludedIndex) _ os _
  | client payload => exact h.runSection (Watched.appendClientEntry_looks json o payload) _ os _
  | crash =>
      show Alike (m.restart cfg c.restart m.solo.node.store _) _
      rw [h.solo]
      exact h.restart _ _ _ _

theorem perform
    (h : Alike m m') (op : WatchedOp) (os : List Outcome) :
    Alike (m.perform cfg json o op os) (m'.perform cfg json o op os) := by
  cases op with
  | node op c => exact h.performNode op c os
  | tick now =>
      refine ⟨h.solo, ?_, h.deadline⟩
      show Watched.electionDue m.watched now = Watched.electionDue m'.watched now
      unfold Watched.electionDue watched
      rw [h.solo, h.deadline]
  | peerFails peerID what =>
      refine ⟨h.solo, h.due, ?_⟩
      show (if _ then _ else _ : Instruments).electionDeadline =
        (if _ then _ else _ : Instruments).electionDeadline
      split_ifs <;> exact h.deadline
  | voteFails peerID => exact ⟨h.solo, h.due, h.deadline⟩

theorem run
    (h : Alike m m') (ops : List (WatchedOp × List Outcome)) :
    Alike (m.run cfg json o ops) (m'.run cfg json o ops) := by
  induction ops generalizing m m' with
  | nil => exact h
  | cons op ops ih => exact ih (h.perform op.1 op.2)

end Alike

/-- The run of a watched node is a run of the node without its instruments, on which it
starts the elections that its timer has found due.  The metrics and the log have no
influence on it. -/
theorem run_solo
    (cfg : NodeConfig) (json : Json) (o : Options)
    (m : Monitor) (ops : List (WatchedOp × List Outcome)) :
    (m.run cfg json o ops).solo = m.solo.run json o (m.performed cfg json o ops) ∧
      ∀ i : Instruments, i.electionDeadline = m.instruments.electionDeadline →
        (Monitor.run cfg json o { m with instruments := i } ops).solo =
          (m.run cfg json o ops).solo := by
  refine ⟨run_performed cfg json o m ops, fun i hdeadline => ?_⟩
  have halike : Alike { m with instruments := i } m := ⟨rfl, rfl, hdeadline⟩
  exact (halike.run ops).solo

/-! ## Invariants of runs -/

section Invariants

variable {cfg : NodeConfig} {json : Json} {o : Options} {I : Watched → Prop}

theorem runSection_inv
    {faulty : Prop} {α : Type} {m : Monitor} {r : Reading} {sec : Txn Watched α}
    {os : List Outcome} {answer : α → List Answered} {C : Watched → Prop}
    (h : Txn.wp faulty sec (fun _ w => I w) C m.watched)
    (hos : Txn.Allowed faulty os)
    (hnew : ∀ w : Watched, C w →
      I (Node.new w.1.store, Instruments.new cfg r (Node.new w.1.store) w.2.lines)) :
    I (m.runSection cfg r sec os answer).watched := by
  unfold runSection
  rcases hrun : sec os m.watched with ⟨_ | a, w, os'⟩
  · exact hnew w (Txn.wp_none h hos hrun)
  · exact Txn.wp_some h hos hrun

end Invariants

/-! ### Invariants of the instruments -/

/-- A property of the instruments that says nothing about the metrics, and that a new line
of the log does not break. -/
structure Timeless (J : Instruments → Prop) : Prop where
  gauges : ∀ i g, J i → J { i with gauges := g }
  elections : ∀ i k, J i → J { i with elections := k }
  rpcs : ∀ i f, J i → J { i with rpcs := f }
  replicationLag : ∀ i f, J i → J { i with replicationLag := f }
  line : ∀ i (l : LogLine) (unreachable : String → Bool), l ≠ .started →
    (∀ peerID, l.news peerID = none → unreachable peerID = i.unreachable peerID) →
    (∀ peerID b, l.news peerID = some b →
      unreachable peerID = b ∧ i.unreachable peerID ≠ b) →
    J i → J { i with unreachable := unreachable, lines := i.lines ++ [l] }

/-- A property of the instruments that nothing a node does to them breaks. -/
structure Stable (cfg : NodeConfig) (c : Clock) (J : Instruments → Prop) : Prop
    extends Timeless J where
  stepDown : ∀ i, J i →
    J { i with electionDeadline := c.stepDown.now + cfg.electionTimeout c.stepDown.int63n }
  reset : ∀ i, J i →
    J { i with electionDeadline := c.reset.now + cfg.electionTimeout c.reset.int63n }
  restart : ∀ i n, J i → J (Instruments.new cfg c.restart n i.lines)

namespace Timeless

open Txn Watched

variable {J : Instruments → Prop}

/-- A line on whether one peer answers, written when that is the opposite of what is
recorded. -/
theorem note
    (h : Timeless J) {l : LogLine} {peerID : String} {b : Bool} {i : Instruments}
    (hl : l ≠ .started)
    (hnews : ∀ p, l.news p = if peerID = p then some b else none)
    (hknown : i.unreachable peerID ≠ b)
    (hi : J i) :
    J { i with
      unreachable := Function.update i.unreachable peerID b
      lines := i.lines ++ [l] } := by
  refine h.line i l _ hl (fun p hp => ?_) (fun p b' hp => ?_) hi
  · exact Function.update_of_ne (fun hsame => by simp [hnews, hsame] at hp) _ _
  · simp only [hnews, Option.ite_none_right_eq_some, Option.some.injEq] at hp
    obtain ⟨rfl, rfl⟩ := hp
    exact ⟨Function.update_self .., hknown⟩

theorem notePeerUnreachable
    (h : Timeless J) (peerID what : String) :
    Guards (fun w : Watched => J w.2) (Watched.notePeerUnreachable peerID what) := by
  refine guards_onInstruments fun _ i hi => ?_
  split_ifs with hknown
  · exact hi
  · exact h.note (by simp) (fun _ => rfl) hknown hi

theorem notePeerReachableLocked
    (h : Timeless J) (peerID : String) :
    Guards (fun w : Watched => J w.2) (Watched.notePeerReachableLocked peerID) := by
  refine guards_onInstruments fun _ i hi => ?_
  split_ifs with hknown
  · exact hi
  · exact h.note (by simp) (fun _ => rfl) hknown hi

/-- A line that says nothing about whether a peer answers. -/
theorem logLine
    (h : Timeless J) {l : LogLine} (hl : l ≠ .started)
    (hnews : ∀ peerID, l.news peerID = none) :
    Guards (fun w : Watched => J w.2) (Watched.logLine l) :=
  guards_onInstruments fun _ i => h.line i l i.unreachable hl (fun _ _ => rfl)
    fun p b hp => by simp [hnews p] at hp

end Timeless

namespace Stable

open Txn Watched

variable {cfg : NodeConfig} {c : Clock} {J : Instruments → Prop}
variable {json : Json} {o : Options}

theorem publishStateLocked
    (h : Stable cfg c J) :
    Guards (fun w : Watched => J w.2) Watched.publishStateLocked :=
  guards_onInstruments fun n i => h.gauges i n.gauges

theorem rpcHandled
    (h : Stable cfg c J) (method : RpcMethod) (result : RpcOutcome) :
    Guards (fun w : Watched => J w.2) (Watched.rpcHandled method result) :=
  guards_onInstruments fun _ i => h.rpcs i _

theorem stepDownLocked
    (h : Stable cfg c J) (term : Nat) (leaderID : String) :
    Guards (fun w : Watched => J w.2)
      (Watched.stepDownLocked cfg c.stepDown term leaderID) := by
  have hclear : Guards (fun w : Watched => J w.2) clearReplicationLag := by
    refine guards_onInstruments fun n i hi => ?_
    split_ifs
    · exact h.replicationLag i _ hi
    · exact hi
  exact (guards_onState _).bind fun _ => hclear.bind fun _ =>
    (guards_onState _).bind fun _ =>
      (guards_onInstruments fun _ i => h.stepDown i).bind fun _ => h.publishStateLocked

theorem resetElectionDeadlineLocked
    (h : Stable cfg c J) :
    Guards (fun w : Watched => J w.2) (Watched.resetElectionDeadlineLocked cfg c.reset) :=
  guards_onInstruments fun _ i => h.reset i

theorem becomeCandidate
    (h : Stable cfg c J) :
    Guards (fun w : Watched => J w.2) (Watched.becomeCandidate cfg o c.reset) := by
  refine Guards.read fun w => ?_
  split_ifs
  · exact guards_pure _
  · refine (guards_onState _).bind fun _ => h.resetElectionDeadlineLocked.bind fun _ =>
      (guards_onState _).bind fun saved => ?_
    split_ifs
    · exact (guards_onInstruments fun _ i => h.elections i _).bind fun _ =>
        h.publishStateLocked.bind fun _ => guards_pure _
    · exact guards_pure _

theorem becomeLeader
    (h : Stable cfg c J) (term : Nat) :
    Guards (fun w : Watched => J w.2) (Watched.becomeLeader o term) := by
  refine Guards.read fun w => ?_
  split_ifs
  · exact guards_pure _
  · exact (guards_onState _).bind fun _ =>
      h.publishStateLocked.bind fun _ => guards_pure _

theorem voteLocked
    (h : Stable cfg c J) (req : RequestVoteRequest) :
    Guards (fun w : Watched => J w.2) (Watched.voteLocked cfg c.reset req) := by
  refine (guards_onState _).bind fun r => ?_
  split_ifs
  · exact h.resetElectionDeadlineLocked.bind fun _ => h.publishStateLocked.bind fun _ =>
      (h.rpcHandled _ _).bind fun _ => guards_pure r
  · exact (h.rpcHandled _ _).bind fun _ => guards_pure r

theorem requestVote
    (h : Stable cfg c J) (req : RequestVoteRequest) :
    Guards (fun w : Watched => J w.2) (Watched.requestVote cfg c req) := by
  refine Guards.read fun w => ?_
  split_ifs
  · exact (h.rpcHandled _ _).bind fun _ => guards_pure _
  · exact (h.stepDownLocked _ _).bind fun _ => h.voteLocked req
  · exact h.voteLocked req

theorem acceptLeader
    (h : Stable cfg c J) (term : Nat) (leaderId : String) :
    Guards (fun w : Watched => J w.2) (Watched.acceptLeader cfg c term leaderId) := by
  refine Guards.read fun w => ?_
  split_ifs
  · exact (h.stepDownLocked _ _).bind fun _ => (guards_onState _).bind fun _ =>
      h.resetElectionDeadlineLocked
  · exact (guards_onState _).bind fun _ => h.resetElectionDeadlineLocked

theorem finish
    (h : Stable cfg c J) {α : Type} (method : RpcMethod) (r : Handled α) :
    Guards (fun w : Watched => J w.2) (Watched.finish method r) := by
  unfold Watched.finish
  split_ifs
  · exact h.publishStateLocked.bind fun _ => (h.rpcHandled _ _).bind fun _ =>
      guards_pure r
  · exact (h.rpcHandled _ _).bind fun _ => guards_pure r

theorem appendEntries
    (h : Stable cfg c J) (req : AppendEntriesRequest) :
    Guards (fun w : Watched => J w.2) (Watched.appendEntries cfg json o c req) := by
  refine Guards.read fun w => ?_
  split_ifs
  · exact (h.rpcHandled _ _).bind fun _ => guards_pure _
  · exact (h.acceptLeader _ _).bind fun _ => (guards_onState _).bind fun r =>
      h.finish _ r

theorem installSnapshot
    (h : Stable cfg c J) (req : InstallSnapshotRequest) :
    Guards (fun w : Watched => J w.2) (Watched.installSnapshot cfg json c req) := by
  refine Guards.read fun w => ?_
  split_ifs
  · exact (h.rpcHandled _ _).bind fun _ => guards_pure _
  · exact (h.acceptLeader _ _).bind fun _ => (guards_onState _).bind fun r =>
      h.finish _ r

theorem observeHigherTerm
    (h : Stable cfg c J) (term : Nat) :
    Guards (fun w : Watched => J w.2) (Watched.observeHigherTerm cfg c.stepDown term) := by
  refine Guards.read fun w => ?_
  split_ifs
  · exact guards_pure _
  · exact (h.stepDownLocked _ _).bind fun _ => guards_pure _

theorem commitAndApply
    (h : Stable cfg c J) :
    Guards (fun w : Watched => J w.2) (Watched.commitAndApply json o) :=
  (guards_onState _).bind fun _ => h.publishStateLocked

theorem recordProgress
    (h : Stable cfg c J) (peerID : String) (matchIndex : Nat) :
    Guards (fun w : Watched => J w.2)
      (Watched.recordProgress json o peerID matchIndex) :=
  (guards_onState _).bind fun _ =>
    (guards_onInstruments fun _ i => h.replicationLag i _).bind fun _ => h.commitAndApply

theorem appendReplied
    (h : Stable cfg c J) (peerID : String) (term : Nat) (req : AppendEntriesRequest)
    (reply : AppendEntriesResponse) :
    Guards (fun w : Watched => J w.2)
      (Watched.appendReplied json o peerID term req reply) := by
  refine (h.notePeerReachableLocked peerID).bind fun _ => Guards.read fun w => ?_
  split_ifs
  · exact guards_pure _
  · exact (guards_onState _).bind fun _ => guards_pure _
  · exact (h.recordProgress _ _).bind fun _ => guards_pure _

theorem snapshotReplied
    (h : Stable cfg c J) (peerID : String) (term lastIncludedIndex : Nat) :
    Guards (fun w : Watched => J w.2)
      (Watched.snapshotReplied json o peerID term lastIncludedIndex) := by
  refine (h.notePeerReachableLocked peerID).bind fun _ => Guards.read fun w => ?_
  split_ifs
  · exact guards_pure _
  · exact (h.logLine (by simp) fun _ => rfl).bind fun _ =>
      (h.recordProgress _ _).bind fun _ => guards_pure _

theorem appendClientEntry
    (h : Stable cfg c J) (payload : Bytes) :
    Guards (fun w : Watched => J w.2) (Watched.appendClientEntry json o payload) := by
  refine Guards.read fun w => ?_
  split_ifs
  · exact guards_pure _
  · refine (guards_onState _).bind fun stored => ?_
    split_ifs
    · exact guards_pure _
    · exact (guards_onState _).bind fun _ =>
        h.publishStateLocked.bind fun _ => guards_pure _
  · refine (guards_onState _).bind fun stored => ?_
    split_ifs
    · exact guards_pure _
    · exact h.publishStateLocked.bind fun _ => guards_pure _

/-- No operation breaks a stable property. -/
theorem performNode
    (h : Stable cfg c J) {m : Monitor} (hm : J m.instruments) (op : Operation)
    (os : List Outcome) :
    J (m.performNode cfg json o op c os).instruments := by
  have hsection : ∀ {α : Type} {sec : Txn Watched α} {answer : α → List Answered},
      Guards (fun w : Watched => J w.2) sec →
      J (m.runSection cfg c.restart sec os answer).instruments := fun hsec =>
    runSection_inv (I := fun w => J w.2) (hsec m.watched hm) (fun _ => trivial)
      fun w hw => h.restart w.2 _ hw
  cases op with
  | timeout =>
      show J (m.startElection cfg o c os).instruments
      unfold startElection
      split_ifs
      · exact hsection h.becomeCandidate
      · exact hm
  | win term => exact hsection (h.becomeLeader term)
  | commitAlone => exact hsection h.commitAndApply
  | vote req => exact hsection (h.requestVote req)
  | append req => exact hsection (h.appendEntries req)
  | snapshot req => exact hsection (h.installSnapshot req)
  | observe term => exact hsection (h.observeHigherTerm term)
  | build peerID => exact hm
  | appendReply peerID term req reply => exact hsection (h.appendReplied peerID term req reply)
  | snapshotReply peerID term lastIncludedIndex =>
      exact hsection (h.snapshotReplied peerID term lastIncludedIndex)
  | client payload => exact hsection (h.appendClientEntry payload)
  | crash => exact h.restart m.instruments _ hm

/-- What is done with the instruments alone. -/
theorem record
    {m : Monitor} (hm : J m.instruments) {sec : Txn Watched Unit}
    (hsec : Guards (fun w : Watched => J w.2) sec) :
    J (m.record sec).instruments := by
  have hend := hsec m.watched hm [] fun _ => trivial
  show J (sec [] m.watched).2.1.2
  rcases hrun : sec [] m.watched with ⟨_ | a, w, os'⟩
  · rw [hrun] at hend
    exact hend
  · rw [hrun] at hend
    exact hend.1

end Stable

/-- A property that is stable at all readings of a run holds at its end. -/
theorem Timeless.run
    {cfg : NodeConfig} {J : Instruments → Prop} (hJ : Timeless J) (json : Json) (o : Options)
    {m : Monitor} (hm : J m.instruments) (ops : List (WatchedOp × List Outcome))
    (h : ∀ op ∈ ops, ∀ c ∈ op.1.clock, Stable cfg c J) :
    J (m.run cfg json o ops).instruments := by
  induction ops generalizing m with
  | nil => exact hm
  | cons op ops ih =>
      obtain ⟨op, os⟩ := op
      refine ih ?_ fun op hop => h op (List.mem_cons_of_mem _ hop)
      cases op with
      | node op c => exact (h _ List.mem_cons_self c rfl).performNode hm op os
      | tick now => exact hm
      | peerFails peerID what => exact Stable.record hm (hJ.notePeerUnreachable peerID what)
      | voteFails peerID => exact Stable.record hm (hJ.logLine (by simp) fun _ => rfl)

/-! ### Peers that do not answer -/

section PeerLines

/-- The lines of the process that runs now. -/
def lifetime (lines : List LogLine) : List LogLine :=
  (lines.reverse.takeWhile fun l => decide (l ≠ .started)).reverse

@[simp] theorem lifetime_started
    (lines : List LogLine) :
    lifetime (lines ++ [.started]) = [] := by
  simp [lifetime]

@[simp] theorem lifetime_line
    (lines : List LogLine) {l : LogLine} (hl : l ≠ .started) :
    lifetime (lines ++ [l]) = lifetime lines ++ [l] := by
  simp [lifetime, hl]

/-- What the process that runs now has logged about a peer: `true` where it says that the
peer fails, `false` where it says that the peer answers again. -/
def news (i : Instruments) (peerID : String) : List Bool :=
  (lifetime i.lines).filterMap (LogLine.news peerID)

/-- Warnings about a peer and the news that it answers take turns, beginning with a
warning, and the node remembers the last of them. -/
structure InTurns (i : Instruments) : Prop where
  chain : ∀ peerID, List.IsChain (· ≠ ·) (false :: news i peerID)
  last : ∀ peerID, (false :: news i peerID).getLast? = some (i.unreachable peerID)

theorem inTurns_new
    (cfg : NodeConfig) (r : Reading) (n : Node) (lines : List LogLine) :
    InTurns (Instruments.new cfg r n lines) := by
  have hnews : ∀ peerID, news (Instruments.new cfg r n lines) peerID = [] := by
    simp [news, Instruments.new]
  constructor
  · intro peerID
    rw [hnews]
    exact List.isChain_singleton _
  · intro peerID
    rw [hnews]
    rfl

/-- A line that is no repetition for the peer it is about. -/
theorem InTurns.line
    {i : Instruments} (h : InTurns i) {l : LogLine} {unreachable : String → Bool}
    (hl : l ≠ .started)
    (hother : ∀ peerID, l.news peerID = none → unreachable peerID = i.unreachable peerID)
    (hnews : ∀ peerID b, l.news peerID = some b →
      unreachable peerID = b ∧ i.unreachable peerID ≠ b) :
    InTurns { i with unreachable := unreachable, lines := i.lines ++ [l] } := by
  have happend : ∀ peerID,
      news { i with unreachable := unreachable, lines := i.lines ++ [l] } peerID =
        news i peerID ++ (l.news peerID).toList := by
    intro peerID
    simp only [news, lifetime_line i.lines hl, List.filterMap_append]
    cases hline : l.news peerID <;> simp [hline]
  constructor
  · intro peerID
    rw [happend]
    cases hline : l.news peerID with
    | none => simpa using h.chain peerID
    | some b =>
        rw [Option.toList_some, ← List.cons_append]
        refine List.isChain_append.mpr ⟨h.chain peerID, List.isChain_singleton _, ?_⟩
        intro x hx y hy
        rw [h.last peerID] at hx
        cases hx
        cases hy
        exact (hnews peerID b hline).2
  · intro peerID
    rw [happend]
    cases hline : l.news peerID with
    | none =>
        rw [Option.toList_none, List.append_nil, h.last peerID]
        exact congrArg some (hother peerID hline).symm
    | some b =>
        rw [Option.toList_some, ← List.cons_append, List.getLast?_concat]
        exact congrArg some (hnews peerID b hline).1.symm

theorem inTurns_timeless :
    Timeless InTurns where
  gauges _ _ h := ⟨h.chain, h.last⟩
  elections _ _ h := ⟨h.chain, h.last⟩
  rpcs _ _ h := ⟨h.chain, h.last⟩
  replicationLag _ _ h := ⟨h.chain, h.last⟩
  line _ _ _ hl hother hnews h := h.line hl hother hnews

theorem inTurns_stable
    (cfg : NodeConfig) (c : Clock) :
    Stable cfg c InTurns where
  toTimeless := inTurns_timeless
  stepDown _ h := ⟨h.chain, h.last⟩
  reset _ h := ⟨h.chain, h.last⟩
  restart i n _ := inTurns_new cfg c.restart n i.lines

/-- The log goes on from `base`. -/
theorem log_timeless
    (base : List LogLine) :
    Timeless fun i => base <+: i.lines where
  gauges _ _ h := h
  elections _ _ h := h
  rpcs _ _ h := h
  replicationLag _ _ h := h
  line _ _ _ _ _ _ h := h.trans (List.prefix_append _ _)

theorem log_stable
    (cfg : NodeConfig) (c : Clock) (base : List LogLine) :
    Stable cfg c fun i => base <+: i.lines where
  toTimeless := log_timeless base
  stepDown _ h := h
  reset _ h := h
  restart _ _ h := h.trans (List.prefix_append _ _)

end PeerLines

/-! ### The election timer -/

section Timer

variable {cfg : NodeConfig}

/-- The bounds of the election timeout are durations, in the right order. -/
structure Timed (cfg : NodeConfig) : Prop where
  min_nonneg : 0 ≤ cfg.electionMin
  min_le : cfg.electionMin ≤ cfg.electionMax
  max_lt : cfg.electionMax < 2 ^ 63

/-- A reading at time `t` or later, with a random number in its range. -/
structure After (t : Int) (r : Reading) : Prop where
  now : t ≤ r.now
  random : ∀ w, 0 < w → 0 ≤ r.int63n w ∧ r.int63n w < w

theorem After.deadline
    {t : Int} {r : Reading}
    (h : After t r) (hcfg : Timed cfg) :
    t + cfg.electionMin ≤ r.now + cfg.electionTimeout r.int63n := by
  have hmin := hcfg.min_nonneg
  have hle := hcfg.min_le
  have hmax := hcfg.max_lt
  have hnow := h.now
  have hwindow : cfg.electionWindow = cfg.electionMax - cfg.electionMin :=
    toInt64_eq (by omega) (by omega)
  unfold NodeConfig.electionTimeout
  split_ifs with hpositive
  · obtain ⟨hlow, hhigh⟩ := h.random _ hpositive
    rw [hwindow] at hlow hhigh ⊢
    rw [toInt64_eq (by omega) (by omega)]
    omega
  · omega

/-- All readings of the operation are at time `t` or later. -/
def AllAfter (t : Int) : WatchedOp → Prop
  | .node _ c => After t c.stepDown ∧ After t c.reset ∧ After t c.restart
  | .tick _ => True
  | .peerFails _ _ => True
  | .voteFails _ => True

/-- The node has heard at time `t` that there is a leader, or has begun to look for one. -/
def Patient (cfg : NodeConfig) (t : Int) (i : Instruments) : Prop :=
  t + cfg.electionMin ≤ i.electionDeadline

theorem patient_timeless
    (t : Int) :
    Timeless (Patient cfg t) where
  gauges _ _ h := h
  elections _ _ h := h
  rpcs _ _ h := h
  replicationLag _ _ h := h
  line _ _ _ _ _ _ h := h

theorem patient_stable
    (hcfg : Timed cfg) {t : Int} {c : Clock}
    (hc : After t c.stepDown ∧ After t c.reset ∧ After t c.restart) :
    Stable cfg c (Patient cfg t) where
  toTimeless := patient_timeless t
  stepDown _ _ := hc.1.deadline hcfg
  reset _ _ := hc.2.1.deadline hcfg
  restart _ _ _ := hc.2.2.deadline hcfg

/-- The operation is news of a leader, or the start of an election. -/
def Hears (m : Monitor) : Operation → Prop
  | .append req => m.solo.node.currentTerm ≤ req.term
  | .snapshot req => m.solo.node.currentTerm ≤ req.term
  | .timeout => m.due = true ∧ m.solo.node.role ≠ .leader
  | _ => False

section Hears

open Txn

variable {t : Int} {c : Clock} {w : Watched}

theorem stable_true
    (cfg : NodeConfig) (c : Clock) :
    Stable cfg c fun _ => True := by
  refine ⟨⟨?_, ?_, ?_, ?_, ?_⟩, ?_, ?_, ?_⟩ <;> intros <;> trivial

theorem acceptLeader_patient
    (hcfg : Timed cfg) (hreset : After t c.reset) (term : Nat) (leaderId : String) :
    wp True (Watched.acceptLeader cfg c term leaderId) (fun _ w' => Patient cfg t w'.2)
      (fun _ => True) w := by
  have hend : ∀ w, wp True (do
      onState (update fun n : Node => { n with leaderID := leaderId })
      Watched.resetElectionDeadlineLocked cfg c.reset)
      (fun _ w' => Patient cfg t w'.2) (fun _ => True) w := fun w =>
    wp_bind (wp_onState (wp_update (wp_onInstruments (hreset.deadline hcfg))))
  refine wp_read_bind ?_
  split_ifs
  · exact wp_bind (wp_mono ((stable_true cfg c).stepDownLocked term leaderId w trivial)
      (fun _ w' _ => hend w') fun _ _ => trivial)
  · exact hend w

/-- An operation that is news of a leader sets the deadline. -/
theorem performNode_patient
    {json : Json} {o : Options}
    (hcfg : Timed cfg) (m : Monitor) {op : Operation} (os : List Outcome)
    (hc : After t c.stepDown ∧ After t c.reset ∧ After t c.restart)
    (hears : Hears m op) :
    Patient cfg t (m.performNode cfg json o op c os).instruments := by
  have hstable := patient_stable hcfg hc
  have hsection : ∀ {α : Type} {sec : Txn Watched α} {answer : α → List Answered},
      wp True sec (fun _ w => Patient cfg t w.2) (fun _ => True) m.watched →
      Patient cfg t (m.runSection cfg c.restart sec os answer).instruments := fun hsec =>
    runSection_inv (I := fun w => Patient cfg t w.2) hsec (fun _ => trivial)
      fun _ _ => hc.2.2.deadline hcfg
  cases op with
  | append req =>
      have hfresh : ¬ req.term < m.watched.1.currentTerm := not_lt.mpr hears
      refine hsection (wp_read_bind ?_)
      rw [if_neg hfresh]
      refine wp_bind (wp_mono (acceptLeader_patient hcfg hc.2.1 _ _) ?_ fun _ h => h)
      exact fun _ w hw =>
        ((guards_onState _).bind fun r => hstable.finish _ r).preserves w hw
  | snapshot req =>
      have hfresh : ¬ req.term < m.watched.1.currentTerm := not_lt.mpr hears
      refine hsection (wp_read_bind ?_)
      rw [if_neg hfresh]
      refine wp_bind (wp_mono (acceptLeader_patient hcfg hc.2.1 _ _) ?_ fun _ h => h)
      exact fun _ w hw =>
        ((guards_onState _).bind fun r => hstable.finish _ r).preserves w hw
  | timeout =>
      have hrole : m.watched.1.role ≠ .leader := hears.2
      show Patient cfg t (m.startElection cfg o c os).instruments
      unfold startElection
      rw [if_pos hears.1]
      refine hsection (wp_read_bind ?_)
      rw [if_neg hrole]
      refine wp_bind (wp_onState (wp_update ?_))
      refine wp_bind (wp_onInstruments ?_)
      refine ((guards_onState _).bind fun saved => ?_).preserves _ (hc.2.1.deadline hcfg)
      split_ifs
      · exact (guards_onInstruments fun _ i => hstable.elections i _).bind fun _ =>
          hstable.publishStateLocked.bind fun _ => guards_pure _
      · exact guards_pure _
  | win term => exact hears.elim
  | commitAlone => exact hears.elim
  | vote req => exact hears.elim
  | observe term => exact hears.elim
  | build peerID => exact hears.elim
  | appendReply peerID term req reply => exact hears.elim
  | snapshotReply peerID term lastIncludedIndex => exact hears.elim
  | client payload => exact hears.elim
  | crash => exact hears.elim

end Hears

/-- With sane timers, a node that has heard from a leader or has started an election finds
no election due before the shortest election timeout is over, whatever happens to it in the
meantime.  It starts an election later than it has found it due, so a leader may be heard
in between. -/
theorem election_waits
    (cfg : NodeConfig) (json : Json) (o : Options) (hcfg : Timed cfg)
    (m : Monitor) (op : Operation) (c : Clock) (os : List Outcome) (t : Int)
    (hc : AllAfter t (.node op c))
    (hears : Hears m op)
    (later : List (WatchedOp × List Outcome))
    (hlater : ∀ op ∈ later, AllAfter t op.1)
    (now : Int)
    (hdue : Watched.electionDue
      ((m.performNode cfg json o op c os).run cfg json o later).watched now = true) :
    t + cfg.electionMin < now := by
  have hpatient : Patient cfg t
      ((m.performNode cfg json o op c os).run cfg json o later).instruments := by
    refine (patient_timeless t).run json o (performNode_patient hcfg m os hc hears) later ?_
    rintro ⟨op, os⟩ hop c hc
    cases op with
    | node op c' =>
        obtain rfl := Option.some.inj hc
        exact patient_stable hcfg (hlater _ hop)
    | tick now => simp [WatchedOp.clock] at hc
    | peerFails peerID what => simp [WatchedOp.clock] at hc
    | voteFails peerID => simp [WatchedOp.clock] at hc
  have hdeadline := of_decide_eq_true (Bool.and_eq_true_iff.mp hdue).2
  unfold Patient at hpatient
  exact lt_of_le_of_lt hpatient hdeadline

/-- A node with the default timers. -/
def defaultConfig : NodeConfig where
  nodeID := Text.ascii "node1"
  grpcAddr := Text.ascii ":9001"
  httpAddr := Text.ascii ":8001"
  dataDir := Text.ascii "data/node1"
  peers := []
  electionMin := 500 * millisecond
  electionMax := 900 * millisecond
  heartbeatInterval := 100 * millisecond
  snapshotThreshold := 10000
  logLevel := 0

/-- All readings at one time, with the smallest random number. -/
def clockAt (t : Int) : Clock :=
  ⟨⟨t, fun _ => 0⟩, ⟨t, fun _ => 0⟩, ⟨t, fun _ => 0⟩⟩

theorem allAfter_clockAt
    (op : Operation) (t : Int) :
    AllAfter t (.node op (clockAt t)) :=
  have h : After t ⟨t, fun _ => 0⟩ := ⟨le_rfl, fun _ hw => ⟨le_rfl, hw⟩⟩
  ⟨h, h, h⟩

/-- A heartbeat of a leader. -/
def heartbeat : Operation :=
  .append ⟨1, "node2", 0, 0, [], 0⟩

/-- A node that has a heartbeat at time 10 and cannot reach a peer afterwards. -/
def afterHeartbeat : Monitor :=
  ((init defaultConfig (clockAt 0).reset).performNode defaultConfig .compact
    ⟨"node1", [], 0⟩ heartbeat (clockAt 10) []).run defaultConfig .compact ⟨"node1", [], 0⟩
      [(.peerFails "node2" "append entries failed", [])]

theorem election_waits_heartbeat :
    Watched.electionDue afterHeartbeat.watched 500000011 = true ∧
      10 + defaultConfig.electionMin < 500000011 := by
  have hdue : Watched.electionDue afterHeartbeat.watched 500000011 = true := by
    decide +kernel
  exact ⟨hdue, election_waits defaultConfig .compact ⟨"node1", [], 0⟩
    ⟨by decide, by decide, by decide⟩ (init defaultConfig (clockAt 0).reset) heartbeat
    (clockAt 10) [] 10 (allAfter_clockAt _ 10) (show 0 ≤ 1 by decide)
    [(.peerFails "node2" "append entries failed", [])] (by simp [AllAfter]) 500000011 hdue⟩

end Timer

end Monitor

end LogReplicator
