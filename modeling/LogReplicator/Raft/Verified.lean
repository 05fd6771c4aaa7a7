import LogReplicator.Raft.Frames
import LogReplicator.Raft.Retry

/-!
# What a follower commits

A follower that answers a request with a success has merged it, and then follows the commit
index of the leader as far as its own log reaches.  The request need not reach that far:
what lies behind it has been compared with nothing.
-/

namespace LogReplicator

open Library Library.Consensus

section Follow

variable {json : Json} {o : Options} {n n' : Node} {os os' : List Outcome}

/-- The commit index after the leader's was followed. -/
theorem followLeaderCommitLocked_commitIndex
    {leaderCommit : Nat}
    (hrun : Node.followLeaderCommitLocked json o leaderCommit os n = (some (), n', os')) :
    n'.commitIndex =
      if leaderCommit ≤ n.commitIndex then n.commitIndex
      else min leaderCommit n.store.lastIndex := by
  unfold Node.followLeaderCommitLocked at hrun
  rw [Txn.run_read_bind] at hrun
  split_ifs at hrun ⊢ with hold
  · cases hrun
    rfl
  · have hkeeps := Node.ignores_commitIndex.applyCommittedLocked json o os
      { n with commitIndex := min leaderCommit n.store.lastIndex }
    rw [show Node.applyCommittedLocked json o os
      { n with commitIndex := min leaderCommit n.store.lastIndex } = _ from hrun] at hkeeps
    exact hkeeps

theorem Node.Ended.commitIndex
    {req : AppendEntriesRequest} {r : Option (Option Nat)}
    (h : n.Ended req r n') :
    n'.commitIndex = n.commitIndex := by
  cases h <;> rfl

end Follow

section Success

variable {json : Json} {o : Options} {l f : List Entry} {n n' : Node}
variable {req : AppendEntriesRequest} {os os' : List Outcome}
variable {h : Handled AppendEntriesResponse} {r : AppendEntriesResponse}

/-- The merge of a follower that answers a success. -/
theorem mergeLocked_success
    (hterm : n.currentTerm = req.term)
    (hrole : n.role = .follower)
    (hcarries : req.Carries l)
    (hl : Indexed l)
    (hf : n.store.Stores f)
    (hmatching : Matching Entry.term f l)
    (hrun : Node.mergeLocked json o req os n = (some h, n', os'))
    (hreply : h.reply = some r)
    (hsuccess : r.success = true) :
    r.matchIndex = req.prevLogIndex + req.entries.length ∧
      n'.store.Stores (req.mergedLog l f) ∧
      n'.commitIndex =
        if req.leaderCommit ≤ n.commitIndex then n.commitIndex
        else min req.leaderCommit (req.mergedLog l f).length := by
  have hnum := hcarries.numbered hl
  unfold Node.mergeLocked at hrun
  rw [Txn.run_read_bind] at hrun
  split_ifs at hrun with hsnapshot hprev
  · cases hrun
    cases hreply
    cases hsuccess
  · cases hrun
    cases hreply
    cases hsuccess
  · have hreq : n.Attached req :=
      ⟨hterm, hrole, not_lt.mp hsnapshot, fun _ => not_not.mp hprev⟩
    obtain ⟨stored, n₁, os₁, hstore, hanswer⟩ := Txn.of_run_bind hrun
    obtain ⟨ended, n₂, os₂, hread, hended, -⟩ :=
      storeReading_ended appendsAll_appendMissing hnum hreq.snapshot req.entries.length os
    rw [storeReading_eq le_rfl, hstore] at hread
    cases hread
    obtain ⟨ls, -, hstored⟩ := Txn.wp_some
      (storeLeaderEntriesLocked_spec hreq : (Solo.env json o).Spec _ _ _ n)
      (fun _ => trivial) hstore
    cases stored with
    | none =>
        cases hanswer
        cases hreply
    | some m =>
        obtain ⟨_, n₂, os₂, hfollow, hdone⟩ := Txn.of_run_bind hanswer
        cases hdone
        cases hreply
        obtain ⟨hheld, rfl⟩ := hstored.result m rfl hnum
        rcases hended.stores hreq hcarries hl hf hmatching with ⟨hstopped, -⟩ | ⟨-, hmerged⟩
        · exact absurd hstopped (not_stopped _)
        · refine ⟨rfl, followLeaderCommitLocked_stores hstored.attached (fun _ => hheld) hmerged
            hfollow, ?_⟩
          rw [followLeaderCommitLocked_commitIndex hfollow, hended.commitIndex, hmerged.length]

/-- A follower that answers a success has the merged log, and its commit index is the old
one or that of the leader, as far as the merged log reaches. -/
theorem appendEntries_success
    (hcarries : req.Carries l)
    (hl : Indexed l)
    (hf : n.store.Stores f)
    (hmatching : Matching Entry.term f l)
    (hrun : Node.appendEntries json o req os n = (some h, n', os'))
    (hreply : h.reply = some r)
    (hsuccess : r.success = true) :
    r.matchIndex = req.prevLogIndex + req.entries.length ∧
      n'.store.Stores (req.mergedLog l f) ∧
      n'.commitIndex =
        if req.leaderCommit ≤ n.commitIndex then n.commitIndex
        else min req.leaderCommit (req.mergedLog l f).length := by
  unfold Node.appendEntries at hrun
  rw [Txn.run_read_bind] at hrun
  split_ifs at hrun with hstale
  · cases hrun
    cases hreply
    cases hsuccess
  · obtain ⟨_, n₁, os₁, haccept, hmerge⟩ := Txn.of_run_bind hrun
    obtain ⟨ls, -, -, hterm, hrole, hkept⟩ := Txn.wp_some
      (acceptLeader_spec (not_lt.mp hstale) : (Solo.env json o).Spec _ _ _ n)
      (fun _ => trivial) haccept
    obtain ⟨t, v, hstore⟩ := hkept.store
    have hf₁ : n₁.store.Stores f := by
      rw [hstore]
      exact hf.congr (hf.ordered.saveTermVote t v) rfl rfl rfl
    rw [← hkept.commitIndex]
    exact mergeLocked_success hterm hrole hcarries hl hf₁ hmatching hmerge hreply hsuccess

end Success

section Verified

variable {l f : List Entry} {req : AppendEntriesRequest}

/-- The request leaves no part of the follower's log behind it that the leader's commit
index reaches: it brings no commit index above what is known, the log ends with it, or the
log has a conflict with it and is cut. -/
def AppendEntriesRequest.Verifies (req : AppendEntriesRequest) (commitIndex : Nat)
    (l f : List Entry) : Prop :=
  req.leaderCommit ≤ max commitIndex (req.prevLogIndex + req.entries.length) ∨
    f.length ≤ max commitIndex (req.prevLogIndex + req.entries.length) ∨
    f.take (req.prevLogIndex + req.entries.length) ≠
      l.take (req.prevLogIndex + req.entries.length)

instance (commitIndex : Nat) : Decidable (req.Verifies commitIndex l f) :=
  inferInstanceAs (Decidable (_ ∨ _ ∨ _))

theorem take_prefix_iff_take_eq
    {m : Nat} (hm : m ≤ l.length) :
    l.take m <+: f ↔ f.take m = l.take m := by
  constructor
  · intro h
    have := List.prefix_iff_eq_take.mp h
    rw [List.length_take, min_eq_left hm] at this
    exact this.symm
  · intro h
    exact h ▸ List.take_prefix _ _

/-- The merged log is the old one exactly when that agrees with the request. -/
theorem mergedLog_eq
    (hreach : req.prevLogIndex + req.entries.length ≤ l.length) :
    req.mergedLog l f =
      if f.take (req.prevLogIndex + req.entries.length) =
        l.take (req.prevLogIndex + req.entries.length) then f
      else l.take (req.prevLogIndex + req.entries.length) := by
  unfold AppendEntriesRequest.mergedLog
  simp only [take_prefix_iff_take_eq hreach]

/-- What both logs have in common up to the commit index, the merge keeps. -/
theorem mergedLog_keeps
    {commitIndex : Nat}
    (hreach : req.prevLogIndex + req.entries.length ≤ l.length)
    (hlength : commitIndex ≤ f.length)
    (hagree : f.take commitIndex = l.take commitIndex) :
    commitIndex ≤ (req.mergedLog l f).length ∧
      (req.mergedLog l f).take commitIndex = l.take commitIndex := by
  rw [mergedLog_eq hreach]
  split_ifs with hsame
  · exact ⟨hlength, hagree⟩
  · -- the conflict is above what was committed
    have hle : commitIndex ≤ req.prevLogIndex + req.entries.length := by
      by_contra hgt
      exact hsame (take_eq_of_le hagree (by omega))
    rw [List.length_take, List.take_take, min_eq_left hle]
    exact ⟨by omega, rfl⟩

/-- The commit index after the merge, and what is committed with it. -/
theorem verified_iff
    {commitIndex commitIndex' : Nat}
    (hreach : req.prevLogIndex + req.entries.length ≤ l.length)
    (hcommit : commitIndex ≤ l.length)
    (hagree : f.take commitIndex = l.take commitIndex)
    (hcommit' : commitIndex' =
      if req.leaderCommit ≤ commitIndex then commitIndex
      else min req.leaderCommit (req.mergedLog l f).length) :
    (commitIndex' ≤ max commitIndex (req.prevLogIndex + req.entries.length) ↔
      req.Verifies commitIndex l f) ∧
    (commitIndex' ≤ (req.mergedLog l f).length ∧
        (req.mergedLog l f).take commitIndex' = l.take commitIndex' ↔
      req.Verifies commitIndex l f ∨
        f.take (min req.leaderCommit f.length) = l.take (min req.leaderCommit f.length)) := by
  have hlength : commitIndex ≤ f.length := by
    have := congrArg List.length hagree
    rw [List.length_take, List.length_take] at this
    omega
  by_cases hold : req.leaderCommit ≤ commitIndex
  · -- nothing is followed
    rw [if_pos hold] at hcommit'
    subst hcommit'
    have hverifies : req.Verifies commitIndex' l f := Or.inl (le_max_of_le_left hold)
    exact ⟨iff_of_true (le_max_left _ _) hverifies,
      iff_of_true (mergedLog_keeps hreach hlength hagree) (Or.inl hverifies)⟩
  · rw [if_neg hold] at hcommit'
    subst hcommit'
    rw [mergedLog_eq hreach]
    unfold AppendEntriesRequest.Verifies
    generalize req.prevLogIndex + req.entries.length = m at hreach ⊢
    by_cases hsame : f.take m = l.take m
    · -- nothing is cut, and the log may reach further than the request
      rw [if_pos hsame]
      have hor : req.leaderCommit ≤ max commitIndex m ∨ f.length ≤ max commitIndex m ∨
          f.take m ≠ l.take m ↔ min req.leaderCommit f.length ≤ max commitIndex m := by
        rw [or_iff_left (not_not.mpr hsame)]
        omega
      have hmax : f.take (max commitIndex m) = l.take (max commitIndex m) := by
        rcases le_total commitIndex m with h | h
        · rwa [max_eq_right h]
        · rwa [max_eq_left h]
      rw [hor]
      refine ⟨Iff.rfl, fun h => Or.inr h.2, ?_⟩
      rintro (hle | heq)
      · exact ⟨min_le_right _ _, take_eq_of_le hmax hle⟩
      · exact ⟨min_le_right _ _, heq⟩
    · rw [if_neg hsame, List.length_take, min_eq_left hreach]
      refine ⟨iff_of_true (by omega) (Or.inr (Or.inr hsame)),
        iff_of_true ⟨min_le_right _ _, ?_⟩ (Or.inl (Or.inr (Or.inr hsame)))⟩
      rw [List.take_take, min_eq_left (min_le_right _ _)]

/-- A follower that answers a success has committed no more than it has verified exactly
when the request leaves nothing unverified behind it.  Otherwise what it has committed is
the leader's exactly when its own log happens to agree with it. -/
theorem commit_verified
    {json : Json} {o o' : Options} {n n' leader leader' : Node}
    {p : String} {leaderCommit : Nat} {os os' : List Outcome}
    {h : Handled AppendEntriesResponse} {r : AppendEntriesResponse}
    (hl : Indexed l)
    (hleader : leader.store.Stores l)
    (hf : n.store.Stores f)
    (hmatching : Matching Entry.term f l)
    (hcommit : n.commitIndex ≤ l.length)
    (hagree : f.take n.commitIndex = l.take n.commitIndex)
    (hnext : leader.store.snapshotIndex < leader.nextIndexLocked p)
    (hbuild : leader.buildAppendRequestLocked o' p = (leader', some req))
    (hrun : Node.appendEntries json o { req with leaderCommit := leaderCommit } os n =
      (some h, n', os'))
    (hreply : h.reply = some r)
    (hsuccess : r.success = true) :
    let sent := { req with leaderCommit := leaderCommit }
    let merged := sent.mergedLog l f
    let last := min leaderCommit f.length
    n'.store.Stores merged ∧
    (n'.commitIndex ≤ max n.commitIndex r.matchIndex ↔ sent.Verifies n.commitIndex l f) ∧
    (n'.commitIndex ≤ merged.length ∧
        merged.take n'.commitIndex = l.take n'.commitIndex ↔
      sent.Verifies n.commitIndex l f ∨ f.take last = l.take last) := by
  have hcarries := Node.carries_of_build hleader hnext hbuild
  have hcarries' : AppendEntriesRequest.Carries l { req with leaderCommit := leaderCommit } :=
    ⟨hcarries.prev_le, hcarries.prev, hcarries.entries⟩
  obtain ⟨hmatch, hstores, hcommit'⟩ :=
    appendEntries_success hcarries' hl hf hmatching hrun hreply hsuccess
  rw [hmatch]
  exact ⟨hstores, verified_iff hcarries'.length_le hcommit hagree hcommit'⟩

theorem commit_verified_diverged :
    let r := Node.appendEntries Json.compact ⟨"f", ["l"], 0⟩
      { (leaderOf leaderLog).appendRequest ⟨"l", ["f"], 0⟩ "f" 0 with leaderCommit := 3 } []
      divergedNode
    r.2.1.commitIndex = 3 ∧ r.2.1.commitIndex ≤ max divergedNode.commitIndex 3 := by
  intro r
  have hdone : r.1 = some ⟨.success, some ⟨2, true, 3⟩⟩ := by decide +kernel
  have hstores : (leaderOf leaderLog).store.Stores leaderLog :=
    Store.stores_indexed (by decide)
  have hbuild : (leaderOf leaderLog).buildAppendRequestLocked ⟨"l", ["f"], 0⟩ "f" =
      (leaderOf leaderLog,
        some ((leaderOf leaderLog).appendRequest ⟨"l", ["f"], 0⟩ "f" 0)) := rfl
  have hrun : r = (some ⟨.success, some ⟨2, true, 3⟩⟩, r.2.1, r.2.2) := by
    rw [← hdone]
  obtain ⟨-, hbound, -⟩ := commit_verified (by decide) hstores divergedNode_stores (by decide)
    (by decide +kernel) (by decide +kernel) (by decide +kernel) hbuild hrun rfl rfl
  exact ⟨by decide +kernel, hbound.mpr (by decide +kernel)⟩

/-- More than a batch: the leader's entries after the first 128 are of term 2. -/
def twoTermLog : List Entry :=
  (List.range' 1 130).map fun i => ⟨i, if i ≤ 128 then 1 else 2, sampleCommand⟩

/-- As long as `twoTermLog`, but all of term 1. -/
def oneTermLog : List Entry :=
  (List.range' 1 130).map fun i => ⟨i, 1, sampleCommand⟩

/-- The first batch brings the commit index of the whole log: the follower commits
its own two last entries, which nobody has verified. -/
theorem commit_unverified :
    let n := Node.new (Store.init.appendEntries oneTermLog)
    let req := (leaderOf twoTermLog).appendRequest ⟨"l", ["f"], 0⟩ "f" 0
    let r := Node.appendEntries Json.compact ⟨"f", ["l"], 0⟩ req [] n
    (leaderOf twoTermLog).store.Stores twoTermLog ∧ n.store.Stores oneTermLog ∧
    Indexed twoTermLog ∧ Matching Entry.term oneTermLog twoTermLog ∧
    n.commitIndex = 0 ∧
    (leaderOf twoTermLog).buildAppendRequestLocked ⟨"l", ["f"], 0⟩ "f" =
      (leaderOf twoTermLog, some req) ∧
    req.entries.length = 128 ∧ req.leaderCommit = twoTermLog.length ∧
    twoTermLog[129]? = some ⟨130, 2, sampleCommand⟩ ∧
    r.1 = some ⟨.success, some ⟨2, true, 128⟩⟩ ∧
    r.2.1.commitIndex = 130 ∧
    r.2.1.store.entry 130 = some ⟨130, 1, sampleCommand⟩ :=
  ⟨Store.stores_indexed (by decide +kernel), Store.stores_indexed (by decide +kernel),
    by decide +kernel, by decide +kernel, by decide +kernel,
    Node.buildAppendRequestLocked_of_term (by decide +kernel), by decide +kernel,
    by decide +kernel, by decide +kernel, by decide +kernel⟩

end Verified

end LogReplicator
