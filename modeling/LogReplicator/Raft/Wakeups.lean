import LogReplicator.Raft.Node

/-!
# Waking up the replication loops

Every peer has a loop, `runReplication`, that waits for its heartbeat or for a wake-up,
then looks whether the node leads and runs one round of replication.  A wake-up is a value
in a channel with room for one; `signalReplication` drops it when there is one already.
That is enough: after every signal each loop looks at the node again, or still has the
wake-up, or is about to look.  So an entry that was appended before the signal is shipped
by a round that starts after it.

The loops end with the node; a node that stops is not modelled.
-/

namespace LogReplicator

open Library

/-- Where the loop of a peer is. -/
inductive LoopPhase where
  | waiting
  /-- The heartbeat or a wake-up has come. -/
  | woken
  | replicating
deriving DecidableEq, Repr

/-- The loop of a peer with its channel. -/
structure PeerLoop where
  pending : Bool
  phase : LoopPhase
deriving DecidableEq, Repr

/-- The loops of a node. -/
abbrev Loops : Type :=
  String → PeerLoop

/-- What happens to the loops. -/
inductive LoopStep where
  /-- `signalReplication`, to all peers. -/
  | signal
  | tick (peerID : String)
  | receive (peerID : String)
  /-- The loop looks whether the node leads. -/
  | check (peerID : String) (isLeader : Bool)
  | finish (peerID : String)
deriving DecidableEq, Repr

namespace Loops

/-- The loops after `Start`. -/
def init : Loops :=
  fun _ => ⟨false, .waiting⟩

/-- The send that does not block: a wake-up that is pending is as good as a new one. -/
def wake (l : PeerLoop) : PeerLoop :=
  { l with pending := true }

/-- One step of the loop of a peer; `none` when the loop is elsewhere. -/
def advance (l : PeerLoop) : LoopStep → Option PeerLoop
  | .signal => some (wake l)
  | .tick _ => if l.phase = .waiting then some { l with phase := .woken } else none
  | .receive _ =>
      if l.phase = .waiting ∧ l.pending = true then some ⟨false, .woken⟩ else none
  | .check _ isLeader =>
      if l.phase = .woken then
        some { l with phase := if isLeader then .replicating else .waiting }
      else none
  | .finish _ => if l.phase = .replicating then some { l with phase := .waiting } else none

/-- The loop a step belongs to; a signal goes to all of them. -/
def target : LoopStep → Option String
  | .signal => none
  | .tick peerID => some peerID
  | .receive peerID => some peerID
  | .check peerID _ => some peerID
  | .finish peerID => some peerID

def step (o : Options) (ls : Loops) (a : LoopStep) : Option Loops :=
  match target a with
  | none =>
      some fun p => if p ∈ o.peers then wake (ls p) else ls p
  | some peerID => (advance (ls peerID) a).map (Function.update ls peerID)

def exec (o : Options) (ls : Loops) (as : List LoopStep) : Option Loops :=
  as.foldlM (step o) ls

variable {o : Options} {ls ls' : Loops} {as : List LoopStep} {a : LoopStep}
variable {peerID : String}

/-- The loop is going to look at the node: it has a wake-up or has been woken. -/
def Alert (l : PeerLoop) : Prop :=
  l.pending = true ∨ l.phase = .woken

theorem exec_cons
    (h : exec o ls (a :: as) = some ls') :
    ∃ mid, step o ls a = some mid ∧ exec o mid as = some ls' := by
  unfold exec at h ⊢
  rw [List.foldlM_cons] at h
  exact Option.bind_eq_some_iff.mp h

/-- A signal reaches every peer. -/
theorem alert_signal
    (hpeer : peerID ∈ o.peers)
    (h : step o ls .signal = some ls') :
    Alert (ls' peerID) := by
  cases h
  simp [Alert, hpeer, wake]

/-- Only looking at the node uses up a wake-up. -/
theorem Alert.step
    (halert : Alert (ls peerID))
    (h : Loops.step o ls a = some ls') :
    (∃ isLeader, a = .check peerID isLeader) ∨ Alert (ls' peerID) := by
  cases htarget : target a with
  | none =>
      simp only [Loops.step, htarget, Option.some.injEq] at h
      subst h
      refine Or.inr ?_
      dsimp only
      split_ifs
      · exact Or.inl rfl
      · exact halert
  | some p =>
      simp only [Loops.step, htarget] at h
      obtain ⟨l, hadvance, rfl⟩ := Option.map_eq_some_iff.mp h
      by_cases hp : peerID = p
      · subst hp
        rw [Function.update_self]
        cases a with
        | signal => cases htarget
        | tick q =>
            cases htarget
            simp only [advance, Option.ite_none_right_eq_some, Option.some.injEq] at hadvance
            exact Or.inr (Or.inr (hadvance.2 ▸ rfl))
        | receive q =>
            cases htarget
            simp only [advance, Option.ite_none_right_eq_some, Option.some.injEq] at hadvance
            exact Or.inr (Or.inr (hadvance.2 ▸ rfl))
        | check q isLeader =>
            cases htarget
            exact Or.inl ⟨isLeader, rfl⟩
        | finish q =>
            cases htarget
            simp only [advance, Option.ite_none_right_eq_some, Option.some.injEq] at hadvance
            obtain ⟨hphase, rfl⟩ := hadvance
            rcases halert with hpending | hwoken
            · exact Or.inr (Or.inl hpending)
            · rw [hphase] at hwoken
              cases hwoken
      · rw [Function.update_of_ne hp]
        exact Or.inr halert

theorem Alert.exec
    (halert : Alert (ls peerID))
    (h : Loops.exec o ls as = some ls') :
    (∃ isLeader, .check peerID isLeader ∈ as) ∨ Alert (ls' peerID) := by
  induction as generalizing ls with
  | nil =>
      cases h
      exact Or.inr halert
  | cons a as ih =>
      obtain ⟨mid, hstep, hrest⟩ := exec_cons h
      rcases halert.step hstep with ⟨isLeader, rfl⟩ | hmid
      · exact Or.inl ⟨isLeader, List.mem_cons_self⟩
      · exact (ih hmid hrest).imp_left fun ⟨isLeader, hmem⟩ =>
          ⟨isLeader, List.mem_cons_of_mem _ hmem⟩

/-- The steps after which an alert loop looks at the node. -/
def untilCheck (peerID : String) : LoopPhase → List LoopStep
  | .waiting => [.receive peerID]
  | .woken => []
  | .replicating => [.finish peerID, .receive peerID]

/-- An alert loop gets to look at the node on its own. -/
theorem Alert.reaches
    (halert : Alert (ls peerID)) (isLeader : Bool) :
    (Loops.exec o ls (untilCheck peerID (ls peerID).phase ++
      [.check peerID isLeader])).isSome = true := by
  rcases hloop : ls peerID with ⟨pending, phase⟩
  rw [hloop] at halert
  cases phase with
  | waiting =>
      have hpending : pending = true := halert.resolve_right (by simp)
      simp [untilCheck, Loops.exec, Loops.step, target, advance, hloop, hpending]
  | woken =>
      simp [untilCheck, Loops.exec, Loops.step, target, advance, hloop]
  | replicating =>
      have hpending : pending = true := halert.resolve_right (by simp)
      simp [untilCheck, Loops.exec, Loops.step, target, advance, hloop, hpending]

/-- No wake-up is lost.  After a signal the loop of every peer looks at the node, or at any
time it gets there by at most two steps of its own, without a heartbeat. -/
theorem signal_answered
    (before after : List LoopStep) (ls : Loops)
    (hpeer : peerID ∈ o.peers)
    (h : exec o init (before ++ .signal :: after) = some ls) :
    (∃ isLeader, .check peerID isLeader ∈ after) ∨
      ∃ own : List LoopStep, own.length ≤ 2 ∧
        (∀ a ∈ own, target a = some peerID ∧ a ≠ .tick peerID) ∧
        ∀ isLeader, (exec o ls (own ++ [.check peerID isLeader])).isSome = true := by
  have hsplit : ∃ mid, exec o init before = some mid ∧
      exec o mid (.signal :: after) = some ls := by
    unfold exec at h ⊢
    rw [List.foldlM_append] at h
    exact Option.bind_eq_some_iff.mp h
  obtain ⟨mid, -, hrest⟩ := hsplit
  obtain ⟨signalled, hsignal, hrest⟩ := exec_cons hrest
  rcases (alert_signal hpeer hsignal).exec hrest with hcheck | halert
  · exact Or.inl hcheck
  · refine Or.inr ⟨untilCheck peerID (ls peerID).phase, ?_, ?_, halert.reaches⟩
    · cases (ls peerID).phase <;> simp [untilCheck]
    · cases (ls peerID).phase <;> simp [untilCheck, target]

/-- The signal comes while a round is under way. -/
theorem signal_answered_midRound :
    ∃ ls, exec ⟨"a", ["b"], 0⟩ init [.tick "b", .check "b" true, .signal] = some ls ∧
      ((∃ isLeader, LoopStep.check "b" isLeader ∈ []) ∨
        ∃ own : List LoopStep, own.length ≤ 2 ∧
          (∀ a ∈ own, target a = some "b" ∧ a ≠ .tick "b") ∧
          ∀ isLeader, (exec ⟨"a", ["b"], 0⟩ ls (own ++ [.check "b" isLeader])).isSome =
            true) := by
  have hsome : (exec ⟨"a", ["b"], 0⟩ init
      [.tick "b", .check "b" true, .signal]).isSome = true := by decide
  obtain ⟨ls, hls⟩ := Option.isSome_iff_exists.mp hsome
  exact ⟨ls, hls, signal_answered [.tick "b", .check "b" true] [] ls (by decide) hls⟩

end Loops

end LogReplicator
