import LogReplicator.Raft.Matching
import LogReplicator.Raft.Turns

/-!
# What an append request carries

A leader whose snapshot lies below the next index of a peer sends it a consecutive
piece of its log.  A leader that compacts between the check for a snapshot and the
building of the request may leave a gap.
-/

namespace LogReplicator
namespace Cluster

open Library

/-- Entries are sent only from above the snapshot. -/
def AboveSnapshot (c : Cluster) : Action → Prop
  | .sendEntries x p => (c.node x).store.snapshotIndex < (c.node x).nextIndexLocked p
  | _ => True

/-- No log and no request has a gap. -/
structure Consecutive (c : Cluster) : Prop where
  stores : ∀ x, (c.node x).store.Ordered
  calls : ∀ call ∈ c.calls, ∀ req, call.request = .append req → req.Numbered

section Step

variable {cfg : Config} {c c' : Cluster} {a : Action} {as : List Action}

theorem consecutive_init :
    init.Consecutive :=
  ⟨fun _ => Store.ordered_init, by simp [init]⟩

/-- A request built above the snapshot is numbered from the position before it, and
as long as the batch and the log allow. -/
theorem appendRequest_indexes
    {n : Node} (o : Options) {p : String} (prevLogTerm : Nat)
    (h : n.store.Ordered)
    (hnext : n.store.snapshotIndex < n.nextIndexLocked p) :
    (n.appendRequest o p prevLogTerm).entries.map Entry.index =
      List.range' ((n.appendRequest o p prevLogTerm).prevLogIndex + 1)
        (min appendBatchSize
          (n.store.lastIndex - (n.appendRequest o p prevLogTerm).prevLogIndex)) := by
  have hbatch : 0 < appendBatchSize := by decide
  have hindexes := h.entriesFrom_indexes (n.nextIndexLocked p) hbatch
  rw [max_eq_left (by omega)] at hindexes
  refine hindexes.trans ?_
  show _ = List.range' (n.nextIndexLocked p - 1 + 1)
    (min appendBatchSize (n.store.lastIndex - (n.nextIndexLocked p - 1)))
  congr 1
  · omega
  · congr 1
    omega

theorem Consecutive.step
    (h : c.Consecutive)
    (hok : c.AboveSnapshot a)
    (T : c.Turn cfg a c') :
    c'.Consecutive := by
  refine ⟨fun y => ?_, fun call hcall req hreq => ?_⟩
  · rcases T.nodes with hsame | ⟨x, op, os, hsourced, hnodes⟩
    · rw [hsame]
      exact h.stores y
    · rw [hnodes]
      split_ifs with hy
      swap
      · exact h.stores y
      have hop : op.Numbered := by
        cases op with
        | append req =>
            obtain ⟨src, id, os, -, hcall⟩ := hsourced
            exact h.calls _ (List.mem_of_getElem? hcall) req rfl
        | _ => trivial
      obtain ⟨ls, hpath, hls⟩ :=
        Solo.perform_path cfg.json (cfg.options x) ⟨c.node x, []⟩ op os
      exact hpath.invariant (P := fun m => m.store.Ordered) (h.stores x)
        fun l hl m m' hmove hm => hmove.ordered ((hls l hl).numbered hop) hm
  · obtain ⟨new, hcalls, hnew⟩ := T.calls
    rw [hcalls, List.mem_append] at hcall
    rcases hcall with hcall | hcall
    · exact h.calls call hcall req hreq
    · obtain ⟨p, prevLogTerm, rfl, -, rfl⟩ := hnew call hcall req hreq
      have hindexes := appendRequest_indexes (cfg.options call.src) prevLogTerm
        (h.stores call.src) hok
      have hlength := congrArg List.length hindexes
      rw [List.length_map, List.length_range'] at hlength
      rw [AppendEntriesRequest.Numbered, hlength]
      exact hindexes

theorem exec_consecutive
    {c₀ : Cluster}
    (h : c₀.Consecutive)
    (halong : Along cfg AboveSnapshot c₀ as)
    (hexec : c₀.exec cfg as = some c) :
    c.Consecutive := by
  induction as generalizing c₀ with
  | nil =>
      cases hexec
      exact h
  | cons a as ih =>
      simp only [exec] at hexec
      split at hexec
      · next c₁ hc₁ =>
          have hrest := halong.2
          rw [hc₁] at hrest
          exact ih (h.step halong.1 (step_turn hc₁)) hrest hexec
      · cases hexec

end Step

section Runs

variable {cfg : Config} {as : List Action} {c : Cluster}

/-- In every run that sends entries only from above the snapshot, a request built
there carries the rows of its sender right behind the previous position, as many as
there are or fit in a batch, and the term its log or its snapshot has there. -/
theorem append_requests_consecutive
    (halong : Along cfg AboveSnapshot init as)
    (hexec : init.exec cfg as = some c)
    {x p : String} {n : Node} {req : AppendEntriesRequest}
    (hnext : (c.node x).store.snapshotIndex < (c.node x).nextIndexLocked p)
    (hbuild : (c.node x).buildAppendRequestLocked (cfg.options x) p = (n, some req)) :
    req.entries.map Entry.index =
        List.range' (req.prevLogIndex + 1)
          (min appendBatchSize ((c.node x).store.lastIndex - req.prevLogIndex)) ∧
      (∀ e ∈ req.entries, (c.node x).store.entry e.index = some e) ∧
      ((req.prevLogIndex = 0 ∧ req.prevLogTerm = 0) ∨
        (req.prevLogIndex = (c.node x).store.snapshotIndex ∧
          req.prevLogTerm = (c.node x).store.snapshotTerm) ∨
        ∃ e, (c.node x).store.entry req.prevLogIndex = some e ∧
          req.prevLogTerm = e.term) := by
  have hordered := (exec_consecutive consecutive_init halong hexec).stores x
  rcases buildAppendRequestLocked_cases (c.node x) (cfg.options x) p with
    ⟨next, h⟩ | ⟨prevLogTerm, hterm, h⟩
  · simp [h] at hbuild
  rw [h, Prod.mk.injEq, Option.some.injEq] at hbuild
  obtain ⟨-, rfl⟩ := hbuild
  refine ⟨appendRequest_indexes _ _ hordered hnext,
    fun e he => Store.entry_of_mem_entriesFrom he, ?_⟩
  show ((c.node x).nextIndexLocked p - 1 = 0 ∧ prevLogTerm = 0) ∨
    ((c.node x).nextIndexLocked p - 1 = (c.node x).store.snapshotIndex ∧
      prevLogTerm = (c.node x).store.snapshotTerm) ∨
    ∃ e, (c.node x).store.entry ((c.node x).nextIndexLocked p - 1) = some e ∧
      prevLogTerm = e.term
  unfold Store.term at hterm
  split_ifs at hterm with hzero hsnapshot
  · exact Or.inl ⟨hzero, (Option.some.inj hterm).symm⟩
  · exact Or.inr (Or.inl ⟨hsnapshot, (Option.some.inj hterm).symm⟩)
  · obtain ⟨row, hrow, rfl⟩ := Option.map_eq_some_iff.mp hterm
    exact Or.inr (Or.inr ⟨_, by rw [Store.entry, hrow]; rfl, rfl⟩)

section Sample

open LogReplicator.Action

instance (c : Cluster) (a : Action) : Decidable (c.AboveSnapshot a) :=
  match a with
  | .sendEntries x p => inferInstanceAs
      (Decidable ((c.node x).store.snapshotIndex < (c.node x).nextIndexLocked p))
  | .deliver .. | .campaign .. | .countVote .. | .missVote .. | .loseElection ..
  | .winElection .. | .commitAlone .. | .replicate .. | .giveUp .. | .checkLeader ..
  | .checkSnapshot .. | .sendSnapshot .. | .callFails .. | .appendReply .. | .appendDone ..
  | .snapshotReply .. | .snapshotDone .. | .invoke .. | .route .. | .propose .. | .poll ..
  | .expire .. | .confirm .. | .readKey .. | .crash .. => inferInstanceAs (Decidable True)

theorem append_requests_consecutive_firstEntry :
    Along (trio fun _ => 0) AboveSnapshot init firstEntry ∧
      ∃ c n req, init.exec (trio fun _ => 0) firstEntry = some c ∧
        (c.node "a").buildAppendRequestLocked ((trio fun _ => 0).options "a") "c" =
          (n, some req) ∧
        req.entries.map Entry.index = List.range' (req.prevLogIndex + 1)
          (min appendBatchSize ((c.node "a").store.lastIndex - req.prevLogIndex)) := by
  have halong : Along (trio fun _ => 0) AboveSnapshot init firstEntry := by decide +kernel
  have hrun : ((init.exec (trio fun _ => 0) firstEntry).map fun c =>
      (decide ((c.node "a").store.snapshotIndex < (c.node "a").nextIndexLocked "c"),
        ((c.node "a").buildAppendRequestLocked
          ((trio fun _ => 0).options "a") "c").2.isSome)) = some (true, true) := by
    decide +kernel
  obtain ⟨c, hexec, hc⟩ := Option.map_eq_some_iff.mp hrun
  obtain ⟨hnext, hsome⟩ := Prod.mk.inj hc
  obtain ⟨req, hreq⟩ := Option.isSome_iff_exists.mp hsome
  have hbuild : (c.node "a").buildAppendRequestLocked ((trio fun _ => 0).options "a") "c" =
      (_, some req) := Prod.ext rfl hreq
  exact ⟨halong, c, _, req, hexec, hbuild,
    (append_requests_consecutive halong hexec (of_decide_eq_true hnext) hbuild).1⟩

/-- The goroutine of `a` for `c` has passed the check for a snapshot; then `a` commits
its first entry with `b`, compacts it and appends a second one. -/
def compactedBehindCheck : List Action :=
  elect "a" "b" 0 1 ++ checks "a" "c" none ++ proposal "a" 0 "k1" "v1" ++
    checks "a" "b" none ++ appendCall "a" "b" 2 1 1 true ++ proposal "a" 1 "k2" "v2"

/-- The request to `c` says that nothing comes before it and starts with the second
entry. -/
theorem append_request_gap_of_compactedBehindCheck :
    ∃ c n req, init.exec (trio fun x => if x = "a" then 1 else 0) compactedBehindCheck =
        some c ∧
      (c.node "a").role = .leader ∧ (c.procs "a").sender "c" = .entries 0 none ∧
      (c.node "a").store.snapshotIndex = 1 ∧ (c.node "a").store.lastIndex = 2 ∧
      (c.node "a").buildAppendRequestLocked
        ((trio fun x => if x = "a" then 1 else 0).options "a") "c" = (n, some req) ∧
      req.prevLogIndex = 0 ∧ req.entries.map Entry.index = [2] := by
  have hrun : ((init.exec (trio fun x => if x = "a" then 1 else 0)
      compactedBehindCheck).map fun c =>
        (decide ((c.node "a").role = .leader ∧ (c.procs "a").sender "c" = .entries 0 none ∧
            (c.node "a").store.snapshotIndex = 1 ∧ (c.node "a").store.lastIndex = 2),
          ((c.node "a").buildAppendRequestLocked
            ((trio fun x => if x = "a" then 1 else 0).options "a") "c").2.map fun req =>
              (req.prevLogIndex, req.entries.map Entry.index))) =
      some (true, some (0, [2])) := by
    decide +kernel
  obtain ⟨c, hexec, hc⟩ := Option.map_eq_some_iff.mp hrun
  obtain ⟨hstate, hbuilt⟩ := Prod.mk.inj hc
  obtain ⟨hrole, hsender, hsnapshot, hlast⟩ := of_decide_eq_true hstate
  obtain ⟨req, hreq, hentries⟩ := Option.map_eq_some_iff.mp hbuilt
  obtain ⟨hprev, hindexes⟩ := Prod.mk.inj hentries
  exact ⟨c, _, req, hexec, hrole, hsender, hsnapshot, hlast, Prod.ext rfl hreq, hprev, hindexes⟩

end Sample

end Runs

end Cluster
end LogReplicator
