import LogReplicator.Raft.Sections

/-!
# The follower's sections as paths of moves

The specifications of `AppendEntries` and `InstallSnapshot`.  Requests are
arbitrary; what depends on a proper numbering of the entries is stated under the
hypothesis `Numbered`.
-/

namespace LogReplicator

open Library

variable {env : Env} {n : Node}

section Collect

/-- The match index after a list of entries, those in the snapshot left out. -/
def heldThrough (snapshotIndex : Nat) (es : List Entry) (matchIndex : Nat) : Nat :=
  es.foldl
    (fun m e => if e.index ≤ snapshotIndex then m else max m e.index) matchIndex

theorem heldThrough_numbered
    {snapshotIndex prev : Nat}
    (hsnap : snapshotIndex ≤ prev) :
    ∀ es : List Entry,
      es.map Entry.index = List.range' (prev + 1) es.length →
      heldThrough snapshotIndex es prev = prev + es.length := by
  intro es
  induction es generalizing prev with
  | nil =>
      intro _
      rfl
  | cons e es ih =>
      intro hes
      rw [List.map_cons, List.length_cons, List.range'_succ, List.cons.injEq] at hes
      have hstep : heldThrough snapshotIndex (e :: es) prev =
          heldThrough snapshotIndex es (prev + 1) := by
        have hgt : ¬ prev + 1 ≤ snapshotIndex := by omega
        simp [heldThrough, hes.1, hgt]
      rw [hstep, ih (by omega) hes.2, List.length_cons]
      omega

/-- After the first missing entry the loop only collects. -/
theorem collectMissing_of_ne_nil
    (snapshotIndex : Nat) (es : List Entry) :
    ∀ (matchIndex : Nat) (missing : List Entry), missing ≠ [] →
      Node.collectMissing snapshotIndex es matchIndex missing =
        pure (some (heldThrough snapshotIndex es matchIndex,
          missing ++ es.filter fun d => decide (snapshotIndex < d.index))) := by
  induction es with
  | nil =>
      intro matchIndex missing _
      simp [Node.collectMissing, heldThrough]
  | cons e es ih =>
      intro matchIndex missing hne
      by_cases hold : e.index ≤ snapshotIndex
      · have hlt : ¬ snapshotIndex < e.index := by omega
        simp [Node.collectMissing, hold, hlt, ih _ missing hne, heldThrough]
      · have hlt : snapshotIndex < e.index := by omega
        simp [Node.collectMissing, hold, hlt, hne, ih _ (missing ++ [e]) (by simp),
          heldThrough]

/-- What the loop found out about the entries of a request. -/
def Node.Collected (n : Node) (req : AppendEntriesRequest) (missing : List Entry) :
    Prop :=
  (missing = [] ∧ (req.Numbered → n.Holds req.entries)) ∨
    ∃ pre e post, n.Lacks req pre e post ∧ n.store.term e.index = none ∧
      missing = (e :: post).filter fun d => decide (n.store.snapshotIndex < d.index)

/-- Truncating at an entry of the request keeps the node attached to it. -/
theorem Node.Attached.truncate
    {req : AppendEntriesRequest} {pre post : List Entry} {e : Entry}
    (hreq : n.Attached req)
    (hlacks : n.Lacks req pre e post) :
    Node.Attached { n with store := n.store.deleteFrom e.index } req ∧
      Node.Lacks { n with store := n.store.deleteFrom e.index } req pre e post := by
  refine ⟨⟨hreq.term, hreq.role, hreq.snapshot, ?_⟩, hlacks.split, hlacks.fresh, ?_⟩
  · intro hnum
    have he := (hnum.split hlacks.split).2.1
    rw [Store.term_deleteFrom_of_lt (by omega)]
    exact hreq.prev hnum
  · intro hnum d hd
    rw [Store.term_deleteFrom_of_lt (hnum.lt_of_mem_pre hlacks.split hd)]
    exact hlacks.held hnum d hd

/-- From the first missing entry on, the node does not change any more. -/
theorem collectMissing_lacking_spec
    {req : AppendEntriesRequest} {pre es : List Entry} {e : Entry} {snapshotIndex : Nat}
    (hsnap : n.store.snapshotIndex = snapshotIndex)
    (hlacks : n.Lacks req pre e es)
    (hnone : n.store.term e.index = none) :
    env.Spec
      (Node.collectMissing snapshotIndex es
        (max (heldThrough snapshotIndex pre req.prevLogIndex) e.index) [e])
      (fun r ls n' => ls = [] ∧ n' = n ∧ ∀ m missing, r = some (m, missing) →
        m = heldThrough snapshotIndex req.entries req.prevLogIndex ∧
          n.Collected req missing)
      (fun _ => False) n := by
  have hfresh : snapshotIndex < e.index := hsnap ▸ hlacks.fresh
  rw [collectMissing_of_ne_nil _ _ _ _ (by simp)]
  refine Txn.Spec.pure ⟨rfl, rfl, ?_⟩
  rintro m missing ⟨⟩
  refine ⟨?_, Or.inr ⟨pre, e, es, hlacks, hnone, ?_⟩⟩
  · simp [hlacks.split, heldThrough, not_le.mpr hfresh]
  · simp [hsnap, hfresh]

/-- What the loop leaves behind. -/
structure Node.Merged (n : Node) (req : AppendEntriesRequest)
    (r : Option (Nat × List Entry)) (ls : List Label) (n' : Node) : Prop where
  attached : n'.Attached req
  last : n'.store.lastIndex ≤ max n.store.lastIndex req.prevLogIndex
  labels : ∀ l ∈ ls, ∃ e, l = .truncate req e
  result : ∀ m missing, r = some (m, missing) →
    m = heldThrough n.store.snapshotIndex req.entries req.prevLogIndex ∧
      n'.Collected req missing

theorem collectMissing_spec
    {req : AppendEntriesRequest}
    (hreq : n.Attached req)
    (es : List Entry) :
    ∀ pre, req.entries = pre ++ es → (req.Numbered → n.Holds pre) →
      env.Spec
        (Node.collectMissing n.store.snapshotIndex es
          (heldThrough n.store.snapshotIndex pre req.prevLogIndex) [])
        (n.Merged req) (fun ls => ls = []) n := by
  induction es with
  | nil =>
      intro pre hsplit hheld
      rw [List.append_nil] at hsplit
      refine Txn.Spec.pure ⟨hreq, le_max_left _ _, by simp, ?_⟩
      rintro m missing ⟨⟩
      exact ⟨by rw [hsplit], Or.inl ⟨rfl, by rwa [hsplit]⟩⟩
  | cons e es ih =>
      intro pre hsplit hheld
      have hsplit' : req.entries = (pre ++ [e]) ++ es := by simp [hsplit]
      have hnext : heldThrough n.store.snapshotIndex (pre ++ [e]) req.prevLogIndex =
          if e.index ≤ n.store.snapshotIndex then
            heldThrough n.store.snapshotIndex pre req.prevLogIndex
          else max (heldThrough n.store.snapshotIndex pre req.prevLogIndex) e.index := by
        simp [heldThrough]
      unfold Node.collectMissing
      split_ifs with hold hmissing
      · -- numbered entries never reach into the snapshot
        have := ih (pre ++ [e]) hsplit' (fun hnum => by
          have := (hnum.split hsplit).2.1
          have := hreq.snapshot
          omega)
        rwa [hnext, if_pos hold] at this
      · exact absurd rfl hmissing
      refine Txn.Spec.read ?_
      have hlacks : n.Lacks req pre e es := ⟨hsplit, by omega, hheld⟩
      cases hlocal : n.store.term e.index with
      | none =>
          refine (collectMissing_lacking_spec rfl hlacks hlocal).mono ?_ (fun _ h => h.elim)
          rintro r ls n' _ ⟨rfl, rfl, hr⟩
          exact ⟨hreq, le_max_left _ _, by simp, hr⟩
      | some localTerm =>
          simp only
          split_ifs with hsame
          · have := ih (pre ++ [e]) hsplit' (fun hnum d hd => by
              rcases List.mem_append.mp hd with hd | hd
              · exact hheld hnum d hd
              · rw [List.mem_singleton.mp hd, hlocal, hsame])
            rwa [hnext, if_neg hold] at this
          · obtain ⟨hattached, hlacks'⟩ := hreq.truncate hlacks
            refine Txn.Spec.write_bind (Move.truncate hreq hlacks hlocal hsame) ?_
              (fun hf => Txn.Spec.pure ⟨hreq, le_max_left _ _, by simp, by simp⟩) rfl
            refine (collectMissing_lacking_spec ?_ hlacks' ?_).mono ?_ (fun _ h => h.elim)
            · rfl
            · exact Store.term_deleteFrom_of_le le_rfl hlacks.fresh
            rintro r ls n' _ ⟨rfl, rfl, hr⟩
            refine ⟨hattached, ?_, by simp, hr⟩
            refine Store.lastIndex_le (le_trans hreq.snapshot (le_max_right _ _)) ?_
            intro i hi
            rw [Store.get_deleteFrom]
            split_ifs
            · rfl
            · exact Store.get_of_lastIndex_lt (lt_of_le_of_lt (le_max_left _ _) hi)

end Collect

section Store

variable {req : AppendEntriesRequest} {pre post : List Entry} {e : Entry}

/-- In a numbered request everything after the first missing entry is new. -/
theorem Node.Lacks.filter_eq
    (hlacks : n.Lacks req pre e post)
    (hnum : req.Numbered) :
    ((e :: post).filter fun d => decide (n.store.snapshotIndex < d.index)) =
      e :: post := by
  refine List.filter_eq_self.mpr fun d hd => ?_
  have := hnum.le_of_mem_post hlacks.split hd
  have := hlacks.fresh
  simpa using by omega

/-- Storing the missing entries completes a numbered request. -/
theorem Node.Lacks.holds_store
    (hlacks : n.Lacks req pre e post)
    (hnum : req.Numbered) :
    Node.Holds { n with store := n.store.appendEntries (e :: post) } req.entries := by
  obtain ⟨-, -, hpost⟩ := hnum.split hlacks.split
  have hnodup : ((e :: post).map Entry.index).Nodup := by
    rw [hpost]
    exact List.nodup_range'
  intro d hd
  rw [hlacks.split, List.mem_append] at hd
  rcases hd with hd | hd
  · have hlt := hnum.lt_of_mem_pre hlacks.split hd
    rw [Store.term_appendEntries_of_notMem]
    · exact hlacks.held hnum d hd
    · intro d' hd'
      have := hnum.le_of_mem_post hlacks.split hd'
      omega
  · have := hnum.le_of_mem_post hlacks.split hd
    have := hlacks.fresh
    exact Store.term_appendEntries_of_mem hnodup hd (by omega)

theorem Node.Attached.store
    (hreq : n.Attached req)
    (hlacks : n.Lacks req pre e post)
    {missing : List Entry}
    (hmissing : missing =
      (e :: post).filter fun d => decide (n.store.snapshotIndex < d.index)) :
    Node.Attached { n with store := n.store.appendEntries missing } req := by
  refine ⟨hreq.term, hreq.role, hreq.snapshot, fun hnum => ?_⟩
  rw [hmissing, hlacks.filter_eq hnum, Store.term_appendEntries_of_notMem]
  · exact hreq.prev hnum
  · intro d hd
    have := hnum.le_of_mem_post hlacks.split hd
    have := (hnum.split hlacks.split).2.1
    omega

theorem Node.Lacks.lastIndex_store_le
    (hlacks : n.Lacks req pre e post)
    (hreq : n.Attached req)
    (hnum : req.Numbered) :
    (n.store.appendEntries (e :: post)).lastIndex ≤
      max n.store.lastIndex (req.prevLogIndex + req.entries.length) := by
  refine Store.lastIndex_le ?_ ?_
  · have := hreq.snapshot
    show n.store.snapshotIndex ≤ _
    omega
  · intro i hi
    rw [Store.get_appendEntries_of_notMem]
    · exact Store.get_of_lastIndex_lt (lt_of_le_of_lt (le_max_left _ _) hi)
    · intro d hd
      have hmem : d ∈ req.entries := by
        rw [hlacks.split]
        exact List.mem_append_right _ hd
      have := hnum.mem_bounds hmem
      omega

/-- What the merge of a request leaves behind. -/
structure Node.Stored (n : Node) (req : AppendEntriesRequest) (r : Option Nat)
    (ls : List Label) (n' : Node) : Prop where
  attached : n'.Attached req
  last : req.Numbered → n'.store.lastIndex ≤
    max n.store.lastIndex (req.prevLogIndex + req.entries.length)
  labels : ∀ l ∈ ls, (∃ e, l = .truncate req e) ∨ ∃ missing, l = .store req missing
  result : ∀ m, r = some m → req.Numbered →
    n'.Holds req.entries ∧ m = req.prevLogIndex + req.entries.length

theorem storeLeaderEntriesLocked_spec
    (hreq : n.Attached req) :
    env.Spec
      (Node.storeLeaderEntriesLocked req.entries req.prevLogIndex
        n.store.snapshotIndex)
      (n.Stored req) (fun ls => ∀ l ∈ ls, ∃ e, l = .truncate req e) n := by
  unfold Node.storeLeaderEntriesLocked
  refine Txn.Spec.bind ((collectMissing_spec hreq req.entries [] rfl
    (fun _ => by simp [Node.Holds])).mono (fun _ _ _ _ h => h) (by rintro ls rfl; simp)) ?_
  intro r ls n' _ hmerged
  have hlabels : ∀ l ∈ ls, (∃ e, l = .truncate req e) ∨
      ∃ missing, l = .store req missing :=
    fun l hl => Or.inl (hmerged.labels l hl)
  have hlast := hmerged.last
  cases r with
  | none =>
      exact Txn.Spec.pure
        ⟨hmerged.attached, fun _ => by omega, by simpa using hlabels, by simp⟩
  | some found =>
      obtain ⟨m, missing⟩ := found
      obtain ⟨hm, hcollected⟩ := hmerged.result m missing rfl
      have hm' : req.Numbered → m = req.prevLogIndex + req.entries.length :=
        fun hnum => hm.trans (heldThrough_numbered hreq.snapshot _ hnum)
      simp only
      rcases hcollected with ⟨rfl, hheld⟩ | ⟨pre, e, post, hlacks, hnone, hmissing⟩
      · refine Txn.Spec.pure
          ⟨hmerged.attached, fun _ => by omega, by simpa using hlabels, ?_⟩
        rintro k ⟨⟩ hnum
        exact ⟨hheld hnum, hm' hnum⟩
      · have hne : missing ≠ [] := by
          have := hlacks.fresh
          simp [hmissing, this]
        have hmove : Move env (.store req missing) n'
            { n' with store := n'.store.appendEntries missing } := by
          rw [hmissing]
          exact Move.store hmerged.attached hlacks hnone
        unfold Node.appendMissing
        rw [if_neg hne]
        refine Txn.Spec.writeIf_bind (fun _ => hmove) (fun _ => ?_) (fun _ => ?_)
          (by simpa using hmerged.labels)
        · refine Txn.Spec.pure ⟨hmerged.attached.store hlacks hmissing, ?_, ?_, ?_⟩
          · intro hnum
            have := hlacks.lastIndex_store_le hmerged.attached hnum
            rw [hmissing, hlacks.filter_eq hnum]
            show (n'.store.appendEntries (e :: post)).lastIndex ≤ _
            omega
          · intro l hl
            rcases List.mem_append.mp hl with hl | hl
            · exact hlabels l hl
            · exact Or.inr ⟨missing, by simpa using hl⟩
          · rintro k ⟨⟩ hnum
            refine ⟨?_, hm' hnum⟩
            rw [hmissing, hlacks.filter_eq hnum]
            exact hlacks.holds_store hnum
        · exact Txn.Spec.pure
            ⟨hmerged.attached, fun _ => by omega, by simpa using hlabels, by simp⟩

end Store

section Append

variable {req : AppendEntriesRequest}

/-- The moves of an append handler. -/
def Label.Appends (req : AppendEntriesRequest) : Label → Prop
  | .raise term _ => term = req.term
  | .follow _ => True
  | .truncate req' _ => req' = req
  | .store req' _ => req' = req
  | .accept req' _ => req' = req
  | .learn req' _ => req' = req
  | l => l.Applies

theorem Label.Applies.appends
    {l : Label} (h : l.Applies) :
    l.Appends req := by
  cases l <;> simp_all [Label.Applies, Label.Appends]

theorem followLeaderCommitLocked_spec
    (hreq : n.Attached req)
    (hheld : req.Numbered → n.Holds req.entries) :
    env.Spec (Node.followLeaderCommitLocked env.json env.options req.leaderCommit)
      (fun _ ls n' => ls = [] ∧ n' = n ∨
        (∃ ls', ls = .learn req n.store.lastIndex :: ls' ∧ ∀ l ∈ ls', l.Applies) ∧
          (env.faulty ∨ n'.Settled env))
      (fun ls => ∃ ls', ls = .learn req n.store.lastIndex :: ls' ∧
        ∀ l ∈ ls', l.Applies) n := by
  unfold Node.followLeaderCommitLocked
  refine Txn.Spec.read ?_
  split_ifs with hold
  · exact Txn.Spec.pure (Or.inl ⟨rfl, rfl⟩)
  · refine Txn.Spec.update_bind (Move.learn hreq hheld (not_le.mp hold)) ?_
    refine (applyCommittedLocked_spec ?_).mono ?_ ?_
    · refine Or.inr ?_
      simp [hreq.role]
    · rintro _ ls n' _ ⟨hls, hn'⟩
      exact Or.inr ⟨⟨ls, rfl, hls⟩, hn'⟩
    · intro ls hls
      exact ⟨ls, rfl, hls⟩

theorem acceptLeader_spec
    {term : Nat} {leaderID : String}
    (hterm : n.currentTerm ≤ term) :
    env.Spec (Node.acceptLeader term leaderID)
      (fun _ ls n' =>
        (∀ l ∈ ls, (∃ saved, l = .raise term saved) ∨ l = .follow leaderID) ∧
          n'.currentTerm = term ∧ n'.role = .follower ∧ n.Kept n')
      (fun ls => ls = []) n := by
  unfold Node.acceptLeader
  refine Txn.Spec.read ?_
  split_ifs with hdown
  · refine Txn.Spec.bind stepDownLocked_spec ?_
    rintro _ ls n' _ ⟨hls, hterm', hrole, hkept⟩
    have hself : { n' with leaderID := leaderID } =
        { n' with role := .follower, leaderID := leaderID } := by
      rw [← hrole]
    have hmove : Move env (.follow leaderID) n' { n' with leaderID := leaderID } := by
      rw [hself]
      exact Move.follow
    refine Txn.Spec.update hmove
      ⟨?_, by simp only; omega, hrole, hkept.store, hkept.commitIndex, hkept.lastApplied⟩
    rcases hls with ⟨-, rfl⟩ | ⟨-, saved, rfl⟩ <;> simp
  · have hrole : n.role = .follower := by
      by_contra h
      exact hdown (Or.inr h)
    have hself : { n with leaderID := leaderID } =
        { n with role := .follower, leaderID := leaderID } := by
      rw [← hrole]
    have hmove : Move env (.follow leaderID) n { n with leaderID := leaderID } := by
      rw [hself]
      exact Move.follow
    refine Txn.Spec.update hmove ⟨by simp, ?_, hrole, ⟨_, _, rfl⟩, rfl, rfl⟩
    simp only
    omega

/-- The labels of a merge, and how far the log reaches when it learns. -/
structure Node.AppendLabels (n : Node) (req : AppendEntriesRequest) (ls : List Label) :
    Prop where
  labels : ∀ l ∈ ls, l.Appends req
  learn : ∀ last, .learn req last ∈ ls → req.Numbered →
    last ≤ max n.store.lastIndex (req.prevLogIndex + req.entries.length)
  fresh : ∀ l ∈ ls, n.currentTerm ≤ req.term

/-- What an append handler did, and what its reply says about it. -/
structure Node.Appended (env : Env) (n : Node) (req : AppendEntriesRequest)
    (h : Handled AppendEntriesResponse) (ls : List Label) (n' : Node) : Prop
    extends n.AppendLabels req ls where
  term : ∀ r, h.reply = some r → r.term = n'.currentTerm ∧ req.term ≤ r.term
  success : ∀ r, h.reply = some r → r.success = true →
    r.term = req.term ∧ n.currentTerm ≤ req.term ∧ .accept req r.matchIndex ∈ ls
  settled : (∃ last, .learn req last ∈ ls) → env.faulty ∨ n'.Settled env

/-- A label of the apply loop is none of the others. -/
theorem not_learn_of_applies
    {ls : List Label} (h : ∀ l ∈ ls, l.Applies)
    (last : Nat) :
    .learn req last ∉ ls := by
  intro hmem
  exact h _ hmem

theorem mergeLocked_spec
    (hterm : n.currentTerm = req.term)
    (hrole : n.role = .follower) :
    env.Spec (Node.mergeLocked env.json env.options req)
      (fun h ls n' => n.Appended env req h ls n')
      (n.AppendLabels req) n := by
  unfold Node.mergeLocked
  refine Txn.Spec.read ?_
  split_ifs with hbehind hmismatch
  · exact Txn.Spec.pure ⟨⟨by simp, by simp, by simp⟩, by simp [hterm], by simp, by simp⟩
  · exact Txn.Spec.pure ⟨⟨by simp, by simp, by simp⟩, by simp [hterm, Node.rejectAppendLocked],
      by simp [Node.rejectAppendLocked], by simp⟩
  have hreq : n.Attached req :=
    ⟨hterm, hrole, not_lt.mp hbehind, fun _ => not_not.mp hmismatch⟩
  refine Txn.Spec.bind ((storeLeaderEntriesLocked_spec hreq).mono
    (fun _ _ _ _ h => h) ?_) ?_
  · intro ls hls
    refine ⟨fun l hl => ?_, fun last hl => ?_, fun _ _ => hterm.le⟩
    · obtain ⟨e, rfl⟩ := hls l hl
      rfl
    · obtain ⟨e, he⟩ := hls _ hl
      cases he
  intro r ls n₁ _ hstored
  have hls : ∀ l ∈ ls, l.Appends req := by
    intro l hl
    rcases hstored.labels l hl with ⟨e, rfl⟩ | ⟨missing, rfl⟩ <;> rfl
  have hnolearn : ∀ last, .learn req last ∉ ls := by
    intro last hl
    rcases hstored.labels _ hl with ⟨e, he⟩ | ⟨missing, he⟩ <;> cases he
  cases r with
  | none =>
      refine Txn.Spec.pure ⟨⟨by simpa using hls, ?_, fun _ _ => hterm.le⟩, by simp,
        by simp, ?_⟩
      · intro last hl
        exact absurd (by simpa using hl) (hnolearn last)
      · rintro ⟨last, hl⟩
        exact absurd (by simpa using hl) (hnolearn last)
  | some m =>
      have hheld := fun hnum => (hstored.result m rfl hnum).1
      have haccept : Move env (.accept req m) n₁ n₁ :=
        Move.accept hstored.attached hheld fun hnum => (hstored.result m rfl hnum).2
      -- the labels of the whole handler, given those after the merge
      have hall : ∀ ls', (ls' = [] ∨ ∃ ls'', ls' = .learn req n₁.store.lastIndex :: ls'' ∧
          ∀ l ∈ ls'', l.Applies) → n.AppendLabels req (ls ++ .accept req m :: ls') := by
        intro ls' hls'
        refine ⟨fun l hl => ?_, fun last hl hnum => ?_, fun _ _ => hterm.le⟩
        · simp only [List.mem_append, List.mem_cons] at hl
          rcases hl with hl | rfl | hl
          · exact hls l hl
          · rfl
          · rcases hls' with rfl | ⟨ls'', rfl, happlies⟩
            · cases hl
            · rcases List.mem_cons.mp hl with rfl | hl
              · rfl
              · exact (happlies l hl).appends
        · simp only [List.mem_append, List.mem_cons, reduceCtorEq, false_or] at hl
          rcases hl with hl | hl
          · exact absurd hl (hnolearn last)
          · rcases hls' with rfl | ⟨ls'', rfl, happlies⟩
            · cases hl
            · rcases List.mem_cons.mp hl with hl | hl
              · cases hl
                exact hstored.last hnum
              · exact absurd hl (not_learn_of_applies happlies last)
      refine Txn.Spec.cons haccept ?_
      refine Txn.Spec.bind ((followLeaderCommitLocked_spec hstored.attached hheld).mono
        (fun _ _ _ _ h => h) ?_) ?_
      · intro ls' hls'
        exact hall ls' (Or.inr hls')
      intro _ ls' n₂ hpath hcases
      have hls' : ls' = [] ∨ ∃ ls'', ls' = .learn req n₁.store.lastIndex :: ls'' ∧
          ∀ l ∈ ls'', l.Applies :=
        hcases.imp And.left And.left
      have hterm₂ : n₂.currentTerm = req.term := by
        rw [← hstored.attached.term]
        refine Path.currentTerm_eq hpath fun l hl => ?_
        rcases hls' with rfl | ⟨ls'', rfl, happlies⟩
        · cases hl
        · rcases List.mem_cons.mp hl with rfl | hl
          · trivial
          · exact (happlies l hl).keepsTerm
      refine Txn.Spec.pure ⟨by simpa using hall ls' hls', ?_, ?_, ?_⟩
      · rintro r ⟨⟩
        exact ⟨by simp [hterm, hterm₂], by simp [hterm]⟩
      · rintro r ⟨⟩ _
        exact ⟨hterm, hterm.le, by simp⟩
      · rintro ⟨last, hl⟩
        rcases hcases with ⟨rfl, -⟩ | ⟨-, hsettled⟩
        · simp only [List.append_nil, List.mem_append, List.mem_singleton,
            reduceCtorEq, or_false] at hl
          exact absurd hl (hnolearn last)
        · exact hsettled

theorem appendEntries_spec :
    env.Spec (Node.appendEntries env.json env.options req)
      (fun h ls n' => n.Appended env req h ls n')
      (n.AppendLabels req) n := by
  unfold Node.appendEntries
  refine Txn.Spec.read ?_
  split_ifs with hstale
  · refine Txn.Spec.pure ⟨⟨by simp, by simp, by simp⟩, ?_, by simp [Node.rejectAppendLocked], by simp⟩
    rintro r ⟨⟩
    exact ⟨rfl, by simp only [Node.rejectAppendLocked]; omega⟩
  · refine Txn.Spec.bind ((acceptLeader_spec (not_lt.mp hstale)).mono
      (fun _ _ _ _ h => h) ?_) ?_
    · rintro ls rfl
      exact ⟨by simp, by simp, by simp⟩
    rintro _ ls n₁ _ ⟨hls, hterm, hrole, hkept⟩
    obtain ⟨t, v, hstore⟩ := hkept.store
    have hlast : n₁.store.lastIndex = n.store.lastIndex := by simp [hstore]
    have happends : ∀ l ∈ ls, l.Appends req := by
      intro l hl
      rcases hls l hl with ⟨saved, rfl⟩ | rfl
      · rfl
      · trivial
    have hnolearn : ∀ last, .learn req last ∉ ls := by
      intro last hl
      rcases hls _ hl with ⟨saved, h⟩ | h <;> cases h
    have hlabels : ∀ ls', n₁.AppendLabels req ls' → n.AppendLabels req (ls ++ ls') := by
      intro ls' h
      refine ⟨fun l hl => ?_, fun last hl hnum => ?_, fun _ _ => not_lt.mp hstale⟩
      · exact (List.mem_append.mp hl).elim (happends l) (h.labels l)
      · rcases List.mem_append.mp hl with hl | hl
        · exact absurd hl (hnolearn last)
        · exact hlast ▸ h.learn last hl hnum
    refine (mergeLocked_spec hterm hrole).mono ?_ hlabels
    intro h ls' n₂ _ happended
    refine ⟨hlabels ls' happended.toAppendLabels, happended.term, ?_, ?_⟩
    · intro r hr hsuccess
      obtain ⟨h1, -, h3⟩ := happended.success r hr hsuccess
      exact ⟨h1, not_lt.mp hstale, List.mem_append_right _ h3⟩
    · rintro ⟨last, hl⟩
      rcases List.mem_append.mp hl with hl | hl
      · exact absurd hl (hnolearn last)
      · exact happended.settled ⟨last, hl⟩

end Append

section Snapshot

variable {req : InstallSnapshotRequest}

/-- The moves of a snapshot handler. -/
def Label.Installs (req : InstallSnapshotRequest) : Label → Prop
  | .raise term _ => term = req.term
  | .follow _ => True
  | .install req' _ _ _ => req' = req
  | .ignore req' => req' = req
  | _ => False

/-- The labels of a snapshot handler, and what it installs onto. -/
structure Node.InstallLabels (n : Node) (req : InstallSnapshotRequest)
    (ls : List Label) : Prop where
  labels : ∀ l ∈ ls, l.Installs req
  install : ∀ last known applied, .install req last known applied ∈ ls →
    last = n.store.lastIndex ∧ known = n.store.term req.lastIncludedIndex ∧
      applied = n.lastApplied ∧ n.currentTerm ≤ req.term ∧
      n.store.snapshotIndex < req.lastIncludedIndex
  fresh : ∀ l ∈ ls, n.currentTerm ≤ req.term
  stored : ∀ last known applied, .install req last known applied ∈ ls → req.data ≠ []

/-- What a snapshot handler did, and what its reply says about it. -/
structure Node.Installed (n : Node) (req : InstallSnapshotRequest)
    (h : Handled InstallSnapshotResponse) (ls : List Label) (n' : Node) : Prop
    extends n.InstallLabels req ls where
  term : ∀ r, h.reply = some r → r.term = n'.currentTerm ∧ req.term ≤ r.term
  done : ∀ r, h.reply = some r → r.term = req.term →
    .ignore req ∈ ls ∨ ∃ last known applied, .install req last known applied ∈ ls
  success : h.outcome = .success → n.currentTerm ≤ req.term

theorem installLocked_spec
    (hterm : n.currentTerm = req.term)
    (hrole : n.role = .follower) :
    env.Spec (Node.installLocked env.json req)
      (fun h ls n' => n.Installed req h ls n')
      (n.InstallLabels req) n := by
  have hreq : n.Listens req := ⟨hterm, hrole⟩
  unfold Node.installLocked
  refine Txn.Spec.read ?_
  split_ifs with hold
  · refine Txn.Spec.cons (Move.ignore hreq hold) (Txn.Spec.pure ?_)
    exact ⟨⟨by simp [Label.Installs], by simp, fun _ _ => hterm.le, by simp⟩,
      by simp [hterm], by simp, by simp⟩
  cases hstate : Store.decodeSnapshot env.json req.data with
  | none =>
      exact Txn.Spec.pure ⟨⟨by simp, by simp, by simp, by simp⟩, by simp, by simp, by simp⟩
  | some state =>
      refine Txn.Spec.writeIf_update (fun _ => Move.install hreq (not_le.mp hold) hstate)
        (fun haccepted => Txn.Spec.pure ?_)
        (fun _ => Txn.Spec.pure ⟨⟨by simp, by simp, by simp, by simp⟩, by simp, by simp, by simp⟩)
        ⟨by simp, by simp, by simp, by simp⟩
      refine ⟨⟨by simp [Label.Installs], ?_, fun _ _ => hterm.le,
        fun _ _ _ _ => of_decide_eq_true haccepted⟩, by simp [hterm], ?_, by simp [hterm]⟩
      · rintro last known applied hl
        simp only [List.mem_singleton, Label.install.injEq, true_and] at hl
        exact ⟨hl.1, hl.2.1, hl.2.2, hterm.le, not_le.mp hold⟩
      · rintro r ⟨⟩ _
        exact Or.inr ⟨_, _, _, List.mem_singleton.mpr rfl⟩

theorem installSnapshot_spec :
    env.Spec (Node.installSnapshot env.json req)
      (fun h ls n' => n.Installed req h ls n')
      (n.InstallLabels req) n := by
  unfold Node.installSnapshot
  refine Txn.Spec.read ?_
  split_ifs with hstale
  · refine Txn.Spec.pure ⟨⟨by simp, by simp, by simp, by simp⟩, ?_, ?_, by simp⟩
    · rintro r ⟨⟩
      exact ⟨rfl, by simp only; omega⟩
    · rintro r ⟨⟩ hr
      simp only at hr
      omega
  · refine Txn.Spec.bind ((acceptLeader_spec (not_lt.mp hstale)).mono
      (fun _ _ _ _ h => h) ?_) ?_
    · rintro ls rfl
      exact ⟨by simp, by simp, by simp, by simp⟩
    rintro _ ls n₁ _ ⟨hls, hterm, hrole, hkept⟩
    obtain ⟨t, v, hstore⟩ := hkept.store
    have hinstalls : ∀ l ∈ ls, l.Installs req := by
      intro l hl
      rcases hls l hl with ⟨saved, rfl⟩ | rfl
      · rfl
      · trivial
    have hlabels : ∀ ls', n₁.InstallLabels req ls' → n.InstallLabels req (ls ++ ls') := by
      intro ls' h
      have hlater : ∀ {last known applied}, .install req last known applied ∈ ls ++ ls' →
          .install req last known applied ∈ ls' := by
        intro last known applied hl
        rcases List.mem_append.mp hl with hl | hl
        · rcases hls _ hl with ⟨saved, h⟩ | h <;> cases h
        · exact hl
      refine ⟨fun l hl => ?_, fun last known applied hl => ?_, fun _ _ => not_lt.mp hstale,
        fun last known applied hl => h.stored last known applied (hlater hl)⟩
      · exact (List.mem_append.mp hl).elim (hinstalls l) (h.labels l)
      · obtain ⟨h1, h2, h3, -, h5⟩ := h.install last known applied (hlater hl)
        simp only [hstore, Store.lastIndex_saveTermVote, Store.term_saveTermVote,
          Store.snapshotIndex_saveTermVote] at h1 h2 h5
        exact ⟨h1, h2, h3.trans hkept.lastApplied, not_lt.mp hstale, h5⟩
    refine (installLocked_spec hterm hrole).mono ?_ hlabels
    intro h ls' n₂ _ hinstalled
    refine ⟨hlabels ls' hinstalled.toInstallLabels, hinstalled.term, ?_,
      fun _ => not_lt.mp hstale⟩
    intro r hr hr'
    rcases hinstalled.done r hr hr' with h | ⟨last, known, applied, h⟩
    · exact Or.inl (List.mem_append_right _ h)
    · exact Or.inr ⟨last, known, applied, List.mem_append_right _ h⟩

end Snapshot

end LogReplicator
