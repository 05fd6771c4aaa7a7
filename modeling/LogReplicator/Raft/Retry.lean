import LogReplicator.Raft.Merge

/-!
# Merges that are cut short

`storeLeaderEntriesLocked` truncates and appends in two transactions, and it reads the
local terms before.  Each of these can fail, and the node can die at each of them.
What is left is the old log or its part before the first conflict, and the same
request completes the merge later.
-/

namespace LogReplicator

open Library Library.Consensus

namespace Node

/-- The loop of `storeLeaderEntriesLocked` when only the first `reads` calls of
`Store.Term` succeed. -/
def collectReading (snapshotIndex : Nat) :
    Nat → List Entry → Nat → List Entry → Txn Node (Option (Nat × List Entry))
  | _, [], matchIndex, missing => pure (some (matchIndex, missing))
  | reads, e :: es, matchIndex, missing =>
      if e.index ≤ snapshotIndex then
        collectReading snapshotIndex reads es matchIndex missing
      else if missing ≠ [] then
        collectReading snapshotIndex reads es (max matchIndex e.index) (missing ++ [e])
      else if reads = 0 then
        pure none
      else do
        let n ← Txn.read
        match n.store.term e.index with
        | none =>
            collectReading snapshotIndex (reads - 1) es (max matchIndex e.index) [e]
        | some localTerm =>
            if localTerm = e.term then
              collectReading snapshotIndex (reads - 1) es (max matchIndex e.index) []
            else do
              let deleted ← writeStore fun s => s.deleteFrom e.index
              if deleted then
                collectReading snapshotIndex (reads - 1) es (max matchIndex e.index) [e]
              else
                pure none

/-- `Store.AppendEntries` statement by statement. -/
def appendInTx (missing : List Entry) : Txn Node Bool :=
  if missing = [] then pure true
  else
    Txn.inTx (Txn.execAll (missing.map fun e =>
      (Store.storable [e], fun n => { n with store := n.store.putEntry e })))

/-- The end of `storeLeaderEntriesLocked`, with any way to append the entries. -/
def appendRest (append : List Entry → Txn Node Bool) (matchIndex : Nat)
    (missing : List Entry) : Txn Node (Option Nat) := do
  let appended ← append missing
  if appended then pure (some matchIndex) else pure none

/-- `storeLeaderEntriesLocked` when only the first `reads` calls of `Store.Term`
succeed. -/
def storeReading (append : List Entry → Txn Node Bool) (reads : Nat) (entries : List Entry)
    (prevLogIndex snapshotIndex : Nat) : Txn Node (Option Nat) := do
  let collected ← collectReading snapshotIndex reads entries prevLogIndex []
  match collected with
  | none => pure none
  | some (matchIndex, missing) => appendRest append matchIndex missing

/-- The end of `mergeLocked`: follow the commit index and answer. -/
def answerMerge (json : Json) (o : Options) (leaderCommit currentTerm : Nat) :
    Option Nat → Txn Node (Handled AppendEntriesResponse)
  | none => pure ⟨.error, none⟩
  | some matchIndex => do
      followLeaderCommitLocked json o leaderCommit
      pure ⟨.success, some ⟨currentTerm, true, matchIndex⟩⟩

/-- `mergeLocked` with any way to store the entries above the snapshot position. -/
def mergeWith (store : Nat → Txn Node (Option Nat)) (json : Json) (o : Options)
    (req : AppendEntriesRequest) : Txn Node (Handled AppendEntriesResponse) := do
  let n ← Txn.read
  if req.prevLogIndex < n.store.snapshotIndex then
    pure ⟨.behindSnapshot,
      some ⟨n.currentTerm, false, n.store.snapshotIndex⟩⟩
  else if n.store.term req.prevLogIndex ≠ some req.prevLogTerm then
    pure ⟨.logMismatch, some n.rejectAppendLocked⟩
  else
    store n.store.snapshotIndex >>= answerMerge json o req.leaderCommit n.currentTerm

/-- The `AppendEntries` handler when only the first `reads` calls of `Store.Term` in
`storeLeaderEntriesLocked` succeed. -/
def appendReading (append : List Entry → Txn Node Bool) (reads : Nat) (json : Json)
    (o : Options) (req : AppendEntriesRequest) :
    Txn Node (Handled AppendEntriesResponse) := do
  let n ← Txn.read
  if req.term < n.currentTerm then
    pure ⟨.staleTerm, some n.rejectAppendLocked⟩
  else do
    acceptLeader req.term req.leaderId
    mergeWith (storeReading append reads req.entries req.prevLogIndex) json o req

end Node

section Reads

variable {snapshotIndex reads : Nat}

theorem collectReading_eq
    (es : List Entry) (h : es.length ≤ reads) (matchIndex : Nat) (missing : List Entry) :
    Node.collectReading snapshotIndex reads es matchIndex missing =
      Node.collectMissing snapshotIndex es matchIndex missing := by
  induction es generalizing reads matchIndex missing with
  | nil =>
      rfl
  | cons e es ih =>
      rw [List.length_cons] at h
      have hread : reads ≠ 0 := by omega
      have hle : es.length ≤ reads := by omega
      have hrest : es.length ≤ reads - 1 := by omega
      unfold Node.collectReading Node.collectMissing
      rewrite [ih hle, ih hle, if_neg hread, ih hrest, ih hrest]
      rfl

theorem storeReading_eq
    {entries : List Entry} (h : entries.length ≤ reads) (prevLogIndex : Nat) :
    Node.storeReading Node.appendMissing reads entries prevLogIndex snapshotIndex =
      Node.storeLeaderEntriesLocked entries prevLogIndex snapshotIndex := by
  unfold Node.storeReading Node.storeLeaderEntriesLocked Node.appendRest
  rewrite [collectReading_eq entries h]
  rfl

/-- With enough reads it is the handler. -/
theorem appendReading_eq
    {req : AppendEntriesRequest}
    (h : req.entries.length ≤ reads) (json : Json) (o : Options) :
    Node.appendReading Node.appendMissing reads json o req =
      Node.appendEntries json o req := by
  have hstore : Node.storeReading Node.appendMissing reads req.entries req.prevLogIndex =
      Node.storeLeaderEntriesLocked req.entries req.prevLogIndex :=
    funext fun _ => storeReading_eq h _
  unfold Node.appendReading
  rewrite [hstore]
  rfl

end Reads

section Collect

variable {n : Node} {snapshotIndex : Nat}

theorem collectReading_of_ne_nil
    (es : List Entry) (hes : ∀ d ∈ es, snapshotIndex < d.index)
    (reads matchIndex : Nat) (missing : List Entry) (hne : missing ≠ []) :
    Node.collectReading snapshotIndex reads es matchIndex missing =
      pure (some (heldThrough snapshotIndex es matchIndex, missing ++ es)) := by
  induction es generalizing matchIndex missing with
  | nil =>
      rw [List.append_nil]
      rfl
  | cons e es ih =>
      have hfresh : ¬ e.index ≤ snapshotIndex := not_le.mpr (hes e List.mem_cons_self)
      unfold Node.collectReading
      rw [if_neg hfresh, if_pos hne,
        ih (fun d hd => hes d (List.mem_cons_of_mem _ hd)) _ _ (by simp)]
      simp [heldThrough, hfresh]

/-- The loop passes the entries that the node holds, as long as it can read. -/
theorem collectReading_held
    (pre es : List Entry)
    (hpre : ∀ d ∈ pre, snapshotIndex < d.index)
    (hheld : n.Holds pre)
    (reads matchIndex : Nat) (os : List Outcome) :
    Node.collectReading snapshotIndex reads (pre ++ es) matchIndex [] os n =
      if reads < pre.length then (some none, n, os)
      else Node.collectReading snapshotIndex (reads - pre.length) es
        (heldThrough snapshotIndex pre matchIndex) [] os n := by
  induction pre generalizing reads matchIndex with
  | nil =>
      rfl
  | cons d pre ih =>
      have hfresh : ¬ d.index ≤ snapshotIndex := not_le.mpr (hpre d List.mem_cons_self)
      have hterm : n.store.term d.index = some d.term := hheld d List.mem_cons_self
      rw [List.cons_append, List.length_cons]
      conv_lhs => unfold Node.collectReading
      rw [if_neg hfresh, if_neg (not_not.mpr rfl)]
      by_cases hreads : reads = 0
      · rw [if_pos hreads, if_pos (by omega)]
        rfl
      · rw [if_neg hreads, Txn.run_read_bind]
        simp only [hterm, if_true]
        rw [ih (fun e he => hpre e (List.mem_cons_of_mem _ he))
          (fun e he => hheld e (List.mem_cons_of_mem _ he))]
        have hheldThrough : heldThrough snapshotIndex (d :: pre) matchIndex =
            heldThrough snapshotIndex pre (max matchIndex d.index) := by
          simp [heldThrough, hfresh]
        rw [hheldThrough, show reads - (pre.length + 1) = reads - 1 - pre.length by omega]
        by_cases hlt : reads - 1 < pre.length
        · rw [if_pos hlt, if_pos (by omega)]
        · rw [if_neg hlt, if_neg (by omega)]

end Collect

/-- The merge did not go through: the node died, or a storage error was returned. -/
def Stopped (r : Option (Option Nat)) : Prop :=
  ∀ m, r ≠ some (some m)

/-- No transaction fails and the node does not die. -/
def Unbroken (os : List Outcome) : Prop :=
  .fail ∉ os ∧ .crash ∉ os

instance (os : List Outcome) : Decidable (Unbroken os) :=
  inferInstanceAs (Decidable (_ ∧ _))

theorem Unbroken.of_suffix
    {os os' : List Outcome} (h : Unbroken os)
    (hsuffix : os' <:+ os) :
    Unbroken os' :=
  ⟨fun hmem => h.1 (hsuffix.subset hmem), fun hmem => h.2 (hsuffix.subset hmem)⟩

/-- A way to append entries in one transaction, which the schema has to accept. -/
structure AppendsAll (append : List Entry → Txn Node Bool) : Prop where
  nil : append [] = pure true
  cases : ∀ missing ≠ [], ∀ os n, ∃ r n' os', append missing os n = (r, n', os') ∧
    os' <:+ os ∧
    (r = some true ∧ n' = { n with store := n.store.appendEntries missing } ∨
      r = some false ∧ n' = n ∧ (Store.storable missing = false ∨ Outcome.fail ∈ os) ∨
      r = none ∧ n' = n ∧ Outcome.crash ∈ os)

theorem appendsAll_appendMissing : AppendsAll Node.appendMissing where
  nil := rfl
  cases := by
    intro missing hne os n
    unfold Node.appendMissing
    rw [if_neg hne]
    have htail := List.tail_suffix os
    rcases Txn.writeIf_cases (Store.storable missing)
      (fun n : Node => { n with store := n.store.appendEntries missing }) os n
      with ⟨-, hrun⟩ | ⟨hfail, hrun⟩ | ⟨hcrash, hrun⟩
    · exact ⟨_, _, _, hrun, htail, Or.inl ⟨rfl, rfl⟩⟩
    · exact ⟨_, _, _, hrun, htail, Or.inr (Or.inl ⟨rfl, rfl, hfail⟩)⟩
    · exact ⟨_, _, _, hrun, htail, Or.inr (Or.inr ⟨rfl, rfl, hcrash⟩)⟩

theorem appendsAll_appendInTx : AppendsAll Node.appendInTx where
  nil := rfl
  cases := by
    intro missing hne os n
    unfold Node.appendInTx
    rw [if_neg hne]
    have heffect : ∀ es (n : Node),
        Txn.effectAll (es.map fun e =>
            (Store.storable [e], fun n : Node => { n with store := n.store.putEntry e })) n =
          { n with store := n.store.appendEntries es } := by
      intro es
      induction es with
      | nil =>
          exact fun n => rfl
      | cons e es ih =>
          exact fun n => ih _
    have haccepted : (missing.map fun e =>
        (Store.storable [e], fun n : Node => { n with store := n.store.putEntry e })).all
          Prod.fst = Store.storable missing := by
      simp [Store.storable, Function.comp_def]
    obtain ⟨r, n', os', hrun, hsuffix, hcases⟩ := Txn.inTx_cases (missing.map fun e =>
      (Store.storable [e], fun n : Node => { n with store := n.store.putEntry e })) os n
    rw [heffect, haccepted] at hcases
    exact ⟨r, n', os', hrun, hsuffix, hcases.imp_left fun h => ⟨h.1, h.2.2⟩⟩

/-- The ends a merge can have. -/
inductive Node.Ended (n : Node) (req : AppendEntriesRequest) :
    Option (Option Nat) → Node → Prop
  | held
      (hheld : n.Holds req.entries) :
      Node.Ended n req (some (some (req.prevLogIndex + req.entries.length))) n
  | appended
      {pre post : List Entry} {e : Entry}
      (hlacks : n.Lacks req pre e post)
      (hnone : n.store.term e.index = none) :
      Node.Ended n req (some (some (req.prevLogIndex + req.entries.length)))
        { n with store := n.store.appendEntries (e :: post) }
  | replaced
      {pre post : List Entry} {e : Entry} {term : Nat}
      (hlacks : n.Lacks req pre e post)
      (hlocal : n.store.term e.index = some term)
      (hconflict : term ≠ e.term) :
      Node.Ended n req (some (some (req.prevLogIndex + req.entries.length)))
        { n with store := (n.store.deleteFrom e.index).appendEntries (e :: post) }
  | unchanged
      {r : Option (Option Nat)}
      (hr : Stopped r) :
      Node.Ended n req r n
  | truncated
      {pre post : List Entry} {e : Entry} {term : Nat} {r : Option (Option Nat)}
      (hr : Stopped r)
      (hlacks : n.Lacks req pre e post)
      (hlocal : n.store.term e.index = some term)
      (hconflict : term ≠ e.term) :
      Node.Ended n req r { n with store := n.store.deleteFrom e.index }

section Store

variable {n : Node} {req : AppendEntriesRequest} {reads : Nat} {os : List Outcome}
variable {append : List Entry → Txn Node Bool}

/-- The node holds the entries of the request, or there is a first one it lacks. -/
theorem Node.holds_or_lacks
    (n : Node) (req : AppendEntriesRequest)
    (hfresh : ∀ e ∈ req.entries, n.store.snapshotIndex < e.index) :
    n.Holds req.entries ∨ ∃ pre e post, n.Lacks req pre e post ∧ n.Holds pre ∧
      n.store.term e.index ≠ some e.term := by
  have hsplit : ∀ es pre, req.entries = pre ++ es → n.Holds pre →
      n.Holds req.entries ∨ ∃ pre e post, n.Lacks req pre e post ∧ n.Holds pre ∧
        n.store.term e.index ≠ some e.term := by
    intro es
    induction es with
    | nil =>
        intro pre hsplit hheld
        rw [List.append_nil] at hsplit
        exact Or.inl (hsplit ▸ hheld)
    | cons e es ih =>
        intro pre hsplit hheld
        by_cases hterm : n.store.term e.index = some e.term
        · refine ih (pre ++ [e]) (by simp [hsplit]) fun d hd => ?_
          rcases List.mem_append.mp hd with hd | hd
          · exact hheld d hd
          · rw [List.mem_singleton.mp hd, hterm]
        · exact Or.inr ⟨pre, e, es,
            ⟨hsplit, hfresh e (hsplit ▸ by simp), fun _ => hheld⟩, hheld, hterm⟩
  exact hsplit req.entries [] rfl (by simp [Node.Holds])

/-- The transaction that appends, when it is the next one. -/
theorem appendRest_run
    (happends : AppendsAll append)
    {missing : List Entry} (hne : missing ≠ []) (matchIndex : Nat)
    (os : List Outcome) (n : Node) :
    ∃ os', os' <:+ os ∧
      (Node.appendRest append matchIndex missing os n =
          (some (some matchIndex), { n with store := n.store.appendEntries missing }, os') ∨
        ∃ r, Stopped r ∧ ¬ (Unbroken os ∧ Store.storable missing = true) ∧
          Node.appendRest append matchIndex missing os n = (r, n, os')) := by
  unfold Node.appendRest
  obtain ⟨r, n', os', hrun, hsuffix, hcases⟩ := happends.cases missing hne os n
  refine ⟨os', hsuffix, ?_⟩
  rcases hcases with ⟨rfl, rfl⟩ | ⟨rfl, rfl, hfail⟩ | ⟨rfl, rfl, hcrash⟩
  · exact Or.inl (Txn.run_bind hrun)
  · refine Or.inr ⟨some none, by simp [Stopped], fun h => ?_, Txn.run_bind hrun⟩
    rcases hfail with hrefused | hfail
    · exact Bool.noConfusion (hrefused.symm.trans h.2)
    · exact h.1.1 hfail
  · exact Or.inr ⟨none, by simp [Stopped], fun h => h.1.2 hcrash, Txn.run_bind_none hrun⟩

section Collected

variable {entries missing : List Entry} {prevLogIndex snapshotIndex matchIndex : Nat}
variable {n' : Node} {os' : List Outcome}

theorem storeReading_of_crash
    (h : Node.collectReading snapshotIndex reads entries prevLogIndex [] os n =
      (none, n', os')) :
    Node.storeReading append reads entries prevLogIndex snapshotIndex os n = (none, n', os') :=
  Txn.run_bind_none h

theorem storeReading_of_error
    (h : Node.collectReading snapshotIndex reads entries prevLogIndex [] os n =
      (some none, n', os')) :
    Node.storeReading append reads entries prevLogIndex snapshotIndex os n = (some none, n', os') :=
  Txn.run_bind h

theorem storeReading_of_collected
    (h : Node.collectReading snapshotIndex reads entries prevLogIndex [] os n =
      (some (some (matchIndex, missing)), n', os')) :
    Node.storeReading append reads entries prevLogIndex snapshotIndex os n =
      Node.appendRest append matchIndex missing os' n' :=
  Txn.run_bind h

end Collected

theorem stopped_none : Stopped none := by
  simp [Stopped]

theorem stopped_error : Stopped (some none) := by
  simp [Stopped]

theorem not_stopped
    (m : Nat) :
    ¬ Stopped (some (some m)) :=
  fun h => h m rfl

/-- What the loop does at the first entry that the node lacks. -/
theorem collectReading_lacks
    {snapshotIndex : Nat} {post : List Entry} {e : Entry}
    (hfresh : snapshotIndex < e.index)
    (hpost : ∀ d ∈ post, snapshotIndex < d.index)
    (hreads : reads ≠ 0)
    (hterm : n.store.term e.index ≠ some e.term)
    (matchIndex : Nat) (os : List Outcome) :
    (n.store.term e.index = none ∧
      Node.collectReading snapshotIndex reads (e :: post) matchIndex [] os n =
        (some (some (heldThrough snapshotIndex (e :: post) matchIndex, e :: post)), n, os)) ∨
    ∃ term, n.store.term e.index = some term ∧ term ≠ e.term ∧
      (Node.collectReading snapshotIndex reads (e :: post) matchIndex [] os n =
          (some (some (heldThrough snapshotIndex (e :: post) matchIndex, e :: post)),
            { n with store := n.store.deleteFrom e.index }, os.tail) ∨
        ¬ Unbroken os ∧
          (Node.collectReading snapshotIndex reads (e :: post) matchIndex [] os n =
              (some none, n, os.tail) ∨
            Node.collectReading snapshotIndex reads (e :: post) matchIndex [] os n =
              (none, n, os.tail))) := by
  have hheldThrough : heldThrough snapshotIndex (e :: post) matchIndex =
      heldThrough snapshotIndex post (max matchIndex e.index) := by
    simp [heldThrough, not_le.mpr hfresh]
  rw [hheldThrough]
  unfold Node.collectReading
  rw [if_neg (not_le.mpr hfresh), if_neg (not_not.mpr rfl), if_neg hreads,
    Txn.run_read_bind,
    collectReading_of_ne_nil post hpost _ _ [e] (by simp)]
  cases hlocal : n.store.term e.index with
  | none =>
      exact Or.inl ⟨rfl, rfl⟩
  | some term =>
      have hconflict : term ≠ e.term := fun heq => hterm (by rw [hlocal, heq])
      refine Or.inr ⟨term, rfl, hconflict, ?_⟩
      simp only [if_neg hconflict]
      rcases Txn.write_cases (fun n : Node => { n with store := n.store.deleteFrom e.index }) os n
        with hrun | ⟨hfail, hrun⟩ | ⟨hcrash, hrun⟩
      · exact Or.inl (Txn.run_bind hrun)
      · exact Or.inr ⟨fun h => h.1 hfail, Or.inl (Txn.run_bind hrun)⟩
      · exact Or.inr ⟨fun h => h.2 hcrash, Or.inr (Txn.run_bind_none hrun)⟩

/-- The whole loop when the node holds the entries of the request. -/
theorem collectReading_request_held
    (hnum : req.Numbered)
    (hsnap : n.store.snapshotIndex ≤ req.prevLogIndex)
    (hfresh : ∀ e ∈ req.entries, n.store.snapshotIndex < e.index)
    (hheld : n.Holds req.entries)
    (reads : Nat) (os : List Outcome) :
    Node.collectReading n.store.snapshotIndex reads req.entries req.prevLogIndex [] os n =
      if reads < req.entries.length then (some none, n, os)
      else (some (some (req.prevLogIndex + req.entries.length, [])), n, os) := by
  have hcollect := collectReading_held req.entries [] hfresh hheld reads req.prevLogIndex os
  rw [List.append_nil, heldThrough_numbered hsnap _ hnum] at hcollect
  exact hcollect

/-- The whole loop when `e` is the first entry of the request that the node lacks. -/
theorem collectReading_request_lacks
    {pre post : List Entry} {e : Entry}
    (hfresh : ∀ e ∈ req.entries, n.store.snapshotIndex < e.index)
    (hlacks : n.Lacks req pre e post)
    (hheld : n.Holds pre)
    (reads : Nat) (os : List Outcome) :
    Node.collectReading n.store.snapshotIndex reads req.entries req.prevLogIndex [] os n =
      if reads < pre.length + 1 then (some none, n, os)
      else
        Node.collectReading n.store.snapshotIndex (reads - pre.length) (e :: post)
          (heldThrough n.store.snapshotIndex pre req.prevLogIndex) [] os n := by
  have hpre : ∀ d ∈ pre, n.store.snapshotIndex < d.index := fun d hd =>
    hfresh d (hlacks.split ▸ List.mem_append_left _ hd)
  have hcollect := collectReading_held pre (e :: post) hpre hheld reads req.prevLogIndex os
  rw [← hlacks.split] at hcollect
  refine hcollect.trans ?_
  by_cases hlt : reads < pre.length + 1
  · -- the read of this term, or of one before it, fails
    rw [if_pos hlt]
    split_ifs with hbefore
    · rfl
    · unfold Node.collectReading
      rw [if_neg (not_le.mpr hlacks.fresh), if_neg (not_not.mpr rfl),
        if_pos (by omega : reads - pre.length = 0)]
      rfl
  · rw [if_neg hlt, if_neg (by omega)]

/-- The match index after the whole request, from the one before the first lacking entry. -/
theorem heldThrough_request_lacks
    {pre post : List Entry} {e : Entry}
    (hnum : req.Numbered)
    (hsnap : n.store.snapshotIndex ≤ req.prevLogIndex)
    (hlacks : n.Lacks req pre e post) :
    heldThrough n.store.snapshotIndex (e :: post)
        (heldThrough n.store.snapshotIndex pre req.prevLogIndex) =
      req.prevLogIndex + req.entries.length := by
  rw [← heldThrough_numbered hsnap _ hnum, hlacks.split, heldThrough, heldThrough,
    heldThrough, List.foldl_append]

/-- How a merge ends, whichever read or transaction fails and wherever the node dies. -/
theorem storeReading_ended
    (happends : AppendsAll append)
    (hnum : req.Numbered)
    (hsnap : n.store.snapshotIndex ≤ req.prevLogIndex)
    (reads : Nat) (os : List Outcome) :
    ∃ r n' os', Node.storeReading append reads req.entries req.prevLogIndex
        n.store.snapshotIndex os n = (r, n', os') ∧ n.Ended req r n' ∧
      (Unbroken os → Store.storable req.entries = true → req.entries.length ≤ reads →
        ¬ Stopped r ∧ Unbroken os') := by
  have hfresh : ∀ e ∈ req.entries, n.store.snapshotIndex < e.index := fun e he => by
    have := (hnum.mem_bounds he).1
    omega
  rcases n.holds_or_lacks req hfresh with hheld | ⟨pre, e, post, hlacks, hheld, hterm⟩
  · have hcollect := collectReading_request_held hnum hsnap hfresh hheld reads os
    by_cases hlt : reads < req.entries.length
    · rw [if_pos hlt] at hcollect
      exact ⟨_, _, _, storeReading_of_error hcollect, .unchanged stopped_error,
        fun _ _ hle => absurd hle (not_le.mpr hlt)⟩
    · rw [if_neg hlt] at hcollect
      refine ⟨_, _, _, (storeReading_of_collected hcollect).trans ?_, .held hheld,
        fun hos _ _ => ⟨not_stopped _, hos⟩⟩
      unfold Node.appendRest
      rw [happends.nil]
      rfl
  · have hcollect := collectReading_request_lacks hfresh hlacks hheld reads os
    have hpost : ∀ d ∈ post, n.store.snapshotIndex < d.index := fun d hd =>
      hfresh d (hlacks.split ▸ by simp [hd])
    have hlength : pre.length < req.entries.length := by
      simp [hlacks.split]
    have hrest : Store.storable req.entries = true → Store.storable (e :: post) = true := by
      rw [hlacks.split, Store.storable_append]
      exact And.right
    by_cases hlt : reads < pre.length + 1
    · rw [if_pos hlt] at hcollect
      exact ⟨_, _, _, storeReading_of_error hcollect, .unchanged stopped_error,
        fun _ _ hle => absurd hle (by omega)⟩
    · rw [if_neg hlt] at hcollect
      have hlacking := collectReading_lacks hlacks.fresh hpost
        (by omega : reads - pre.length ≠ 0) hterm
        (heldThrough n.store.snapshotIndex pre req.prevLogIndex) os
      rw [heldThrough_request_lacks hnum hsnap hlacks, ← hcollect] at hlacking
      rcases hlacking with ⟨hnone, hrun⟩ | ⟨term, hlocal, hconflict, hrun | ⟨hos, hrun | hrun⟩⟩
      · obtain ⟨os', hsuffix, happend | ⟨r, hr, hos, happend⟩⟩ :=
          appendRest_run happends (List.cons_ne_nil e post)
            (req.prevLogIndex + req.entries.length) os n
        · exact ⟨_, _, _, (storeReading_of_collected hrun).trans happend,
            .appended hlacks hnone, fun hos _ _ => ⟨not_stopped _, hos.of_suffix hsuffix⟩⟩
        · exact ⟨_, _, _, (storeReading_of_collected hrun).trans happend, .unchanged hr,
            fun hos' haccepted => absurd ⟨hos', hrest haccepted⟩ hos⟩
      · have htail := List.tail_suffix os
        obtain ⟨os', hsuffix, happend | ⟨r, hr, hos, happend⟩⟩ :=
          appendRest_run happends (List.cons_ne_nil e post)
            (req.prevLogIndex + req.entries.length) os.tail
            { n with store := n.store.deleteFrom e.index }
        · exact ⟨_, _, _, (storeReading_of_collected hrun).trans happend,
            .replaced hlacks hlocal hconflict,
            fun hos _ _ => ⟨not_stopped _, hos.of_suffix (hsuffix.trans htail)⟩⟩
        · exact ⟨_, _, _, (storeReading_of_collected hrun).trans happend,
            .truncated hr hlacks hlocal hconflict,
            fun hos' haccepted => absurd ⟨hos'.of_suffix htail, hrest haccepted⟩ hos⟩
      · exact ⟨_, _, _, storeReading_of_error hrun, .unchanged stopped_error,
          fun hos' => absurd hos' hos⟩
      · exact ⟨_, _, _, storeReading_of_crash hrun, .unchanged stopped_none,
          fun hos' => absurd hos' hos⟩

end Store

/-- The log of a follower with the log `f` after the request is merged. -/
def AppendEntriesRequest.mergedLog (req : AppendEntriesRequest) (l f : List Entry) :
    List Entry :=
  if l.take (req.prevLogIndex + req.entries.length) <+: f then f
  else l.take (req.prevLogIndex + req.entries.length)

section Logs

variable {n n' : Node} {req : AppendEntriesRequest} {l f : List Entry}
variable {pre post : List Entry} {e : Entry} {term : Nat}

/-- The entry at which the merge truncates is the first conflict of the two logs. -/
theorem Node.Lacks.firstConflict
    (hlacks : n.Lacks req pre e post)
    (hreq : n.Attached req)
    (hcarries : req.Carries l)
    (hl : Indexed l)
    (hf : n.store.Stores f)
    (hmatching : Matching Entry.term f l)
    (hlocal : n.store.term e.index = some term)
    (hconflict : term ≠ e.term) :
    FirstConflict Entry.term f l (e.index - 1) ∧
      e.index - 1 < req.prevLogIndex + req.entries.length := by
  have hnum := hcarries.numbered hl
  obtain ⟨-, hindex, -⟩ := hnum.split hlacks.split
  obtain ⟨-, hagree⟩ := hreq.agrees hcarries hl hf hmatching hlacks.split (hlacks.held hnum)
  obtain ⟨hle, hterm⟩ := hf.of_term hlocal
  have hbound := (hnum.mem_bounds (hlacks.split ▸ by simp : e ∈ req.entries)).2
  have hposition : e.index - 1 = req.prevLogIndex + pre.length := by omega
  refine ⟨⟨by rw [hposition, hagree], ?_⟩, by omega⟩
  have hlt : e.index - 1 < f.length := by omega
  refine ⟨f[e.index - 1], e, List.getElem?_eq_getElem hlt, ?_, ?_⟩
  · rw [hposition]
    exact hcarries.getElem? hlacks.split
  · rw [← termAt_succ (τ := Entry.term) (List.getElem?_eq_getElem hlt),
      show e.index - 1 + 1 = e.index by omega, hterm]
    exact hconflict

/-- A log that lacks the entries from some point on is completed. -/
theorem Node.Lacks.stores_append
    (hlacks : n.Lacks req pre e post)
    (hreq : n.Attached req)
    (hcarries : req.Carries l)
    (hl : Indexed l)
    (hf : n.store.Stores f)
    (hmatching : Matching Entry.term f l)
    (hnone : n.store.term e.index = none) :
    (n.store.appendEntries (e :: post)).Stores
        (l.take (req.prevLogIndex + req.entries.length)) ∧
      f.length < req.prevLogIndex + req.entries.length := by
  have hnum := hcarries.numbered hl
  obtain ⟨hstores, -, hle, -⟩ := hlacks.merged_store hreq hcarries hl hf hmatching hnone
  have hlast := hlacks.index_eq hreq hnum hnone hf.ordered
  rw [hf.length, (hnum.split hlacks.split).2.1] at hlast
  have hlength : (f ++ e :: post).length = req.prevLogIndex + req.entries.length := by
    rw [hlacks.split, List.length_append, List.length_append]
    omega
  rw [← hlength, ← List.prefix_iff_eq_take.mp hle]
  refine ⟨hstores, ?_⟩
  rw [List.length_append, List.length_cons]
  omega

/-- The log that a merge leaves behind. -/
theorem Node.Ended.stores
    {r : Option (Option Nat)}
    (h : n.Ended req r n')
    (hreq : n.Attached req)
    (hcarries : req.Carries l)
    (hl : Indexed l)
    (hf : n.store.Stores f)
    (hmatching : Matching Entry.term f l) :
    (Stopped r ∧ (n'.store.Stores f ∨ ∃ i, FirstConflict Entry.term f l i ∧
        i < req.prevLogIndex + req.entries.length ∧ n'.store.Stores (f.take i))) ∨
      (¬ Stopped r ∧ n'.store.Stores (req.mergedLog l f)) := by
  have hreach := hcarries.length_le
  cases h with
  | held hheld =>
      refine Or.inr ⟨not_stopped _, ?_⟩
      obtain ⟨-, hagree⟩ := hreq.agrees hcarries hl hf hmatching
        (List.append_nil _).symm hheld
      rw [AppendEntriesRequest.mergedLog, if_pos (hagree ▸ List.take_prefix _ _)]
      exact hf
  | appended hlacks hnone =>
      refine Or.inr ⟨not_stopped _, ?_⟩
      obtain ⟨hstores, hshort⟩ :=
        hlacks.stores_append hreq hcarries hl hf hmatching hnone
      rw [AppendEntriesRequest.mergedLog, if_neg]
      · exact hstores
      · intro hle
        have := hle.length_le
        rw [List.length_take] at this
        omega
  | replaced hlacks hlocal hconflict =>
      refine Or.inr ⟨not_stopped _, ?_⟩
      obtain ⟨hfirst, hlt⟩ :=
        hlacks.firstConflict hreq hcarries hl hf hmatching hlocal hconflict
      obtain ⟨hmerges, -⟩ :=
        hlacks.merged_truncate hreq hcarries hl hf hmatching hlocal hconflict
      obtain ⟨hreq', hlacks'⟩ := hreq.truncate hlacks
      rw [AppendEntriesRequest.mergedLog, if_neg (hfirst.not_le hlt)]
      exact (hlacks'.stores_append hreq' hcarries hl (hf.deleteFrom hlacks.fresh)
        hmerges.matching (Store.term_deleteFrom_of_le le_rfl hlacks.fresh)).1
  | unchanged hr =>
      exact Or.inl ⟨hr, Or.inl hf⟩
  | truncated hr hlacks hlocal hconflict =>
      obtain ⟨hfirst, hlt⟩ :=
        hlacks.firstConflict hreq hcarries hl hf hmatching hlocal hconflict
      exact Or.inl ⟨hr, Or.inr ⟨_, hfirst, hlt, hf.deleteFrom hlacks.fresh⟩⟩

/-- A truncated log is merged into the same log. -/
theorem mergedLog_take
    {i : Nat}
    (hfirst : FirstConflict Entry.term f l i)
    (hlt : i < req.prevLogIndex + req.entries.length)
    (hcarries : req.Carries l) :
    req.mergedLog l (f.take i) = req.mergedLog l f := by
  have hreach := hcarries.length_le
  rw [AppendEntriesRequest.mergedLog, AppendEntriesRequest.mergedLog,
    if_neg (hfirst.not_le hlt), if_neg]
  intro hle
  have := hle.length_le
  rw [List.length_take, List.length_take] at this
  omega

end Logs

section Handler

/-- The node takes the sender for the leader, and the request passes the consistency
check.  The term on disk is never ahead of the one in memory. -/
structure Node.Passes (n : Node) (req : AppendEntriesRequest) : Prop where
  term : n.currentTerm ≤ req.term
  saved : n.store.currentTerm ≤ n.currentTerm
  snapshot : n.store.snapshotIndex ≤ req.prevLogIndex
  prev : n.store.term req.prevLogIndex = some req.prevLogTerm

variable {json : Json} {o : Options} {req : AppendEntriesRequest} {l f : List Entry}
variable {n n₁ n₂ : Node} {os os₁ os₂ : List Outcome} {reads : Nat}
variable {append : List Entry → Txn Node Bool}

theorem Node.Passes.attached
    (h : n.Passes req)
    (hterm : n.currentTerm = req.term)
    (hrole : n.role = .follower) :
    n.Attached req :=
  ⟨hterm, hrole, h.snapshot, fun _ => h.prev⟩

theorem Node.Passes.new
    (h : n.Passes req) :
    (Node.new n.store).Passes req :=
  ⟨h.saved.trans h.term, le_rfl, h.snapshot, h.prev⟩

/-- Truncating above the previous position. -/
theorem Node.Passes.deleteFrom
    (h : n.Passes req)
    {index : Nat} (hindex : req.prevLogIndex < index) :
    Node.Passes { n with store := n.store.deleteFrom index } req :=
  ⟨h.term, h.saved, h.snapshot, by
    rw [Store.term_deleteFrom_of_lt hindex]
    exact h.prev⟩

/-- The node after it has accepted the leader. -/
theorem Node.Passes.accept
    (h : n.Passes req)
    (hrun : Node.acceptLeader req.term req.leaderId os n = (some (), n₁, os₁)) :
    n₁.Attached req ∧ n₁.Passes req ∧ ∀ f, n.store.Stores f → n₁.store.Stores f := by
  obtain ⟨ls, hpath, hls, hterm, hrole, hkept⟩ := Txn.wp_some
    (acceptLeader_spec h.term : (Solo.env Json.compact ⟨"", [], 0⟩).Spec _ _ _ n)
    (fun _ => trivial) hrun
  obtain ⟨t, v, hstore⟩ := hkept.store
  have hsaved : n₁.store.currentTerm ≤ n₁.currentTerm := by
    refine hpath.invariant (P := fun m => m.store.currentTerm ≤ m.currentTerm) h.saved ?_
    intro a ha m m' hmove hm
    rcases hls a ha with ⟨saved, rfl⟩ | rfl
    · cases hmove with
      | raise hlt => exact le_rfl
      | raiseUnsaved _ hlt => exact hm.trans hlt.le
    · cases hmove with
      | follow => exact hm
  have hpasses : n₁.Passes req := by
    refine ⟨hterm.le, hsaved, ?_, ?_⟩
    · rw [hstore]
      exact h.snapshot
    · rw [hstore, Store.term_saveTermVote]
      exact h.prev
  refine ⟨hpasses.attached hterm hrole, hpasses, fun f hf => ?_⟩
  rw [hstore]
  exact hf.congr (hf.ordered.saveTermVote t v) rfl rfl rfl

theorem Node.Passes.accept_undisturbed
    (h : n.Passes req)
    (hos : Unbroken os) :
    ∃ n₁ os₁, Node.acceptLeader req.term req.leaderId os n = (some (), n₁, os₁) ∧
      Unbroken os₁ := by
  obtain ⟨_, n₁, os₁, hrun, hcrash⟩ :=
    acceptLeader_returns req.term req.leaderId os n hos.2
  have hfail := Txn.wp_allowed
    (acceptLeader_spec h.term : (Solo.envOf False Json.compact ⟨"", [], 0⟩).Spec _ _ _ n)
    hos.1 hrun
  exact ⟨n₁, os₁, hrun, hfail, hcrash⟩

theorem Node.Passes.appendReading_run
    (h : n.Passes req)
    (hrun : Node.acceptLeader req.term req.leaderId os n = (some (), n₁, os₁)) :
    Node.appendReading append reads json o req os n =
      Node.mergeWith (Node.storeReading append reads req.entries req.prevLogIndex) json o
        req os₁ n₁ := by
  unfold Node.appendReading
  rw [Txn.run_read_bind,
    if_neg (not_lt.mpr h.term)]
  exact Txn.run_bind hrun

/-- The request passes, so the entries are stored. -/
theorem Node.Passes.mergeWith_eq
    (h : n.Passes req)
    (store : Nat → Txn Node (Option Nat)) (os : List Outcome) :
    Node.mergeWith store json o req os n =
      (store n.store.snapshotIndex >>=
        Node.answerMerge json o req.leaderCommit n.currentTerm) os n := by
  unfold Node.mergeWith
  rw [Txn.run_read_bind, if_neg (not_lt.mpr h.snapshot), if_neg (not_not.mpr h.prev)]

/-- Following the commit index leaves the log alone. -/
theorem followLeaderCommitLocked_stores
    (hreq : n.Attached req)
    (hheld : req.Numbered → n.Holds req.entries)
    (hf : n.store.Stores f)
    (hrun : Node.followLeaderCommitLocked json o req.leaderCommit os n = (some (), n₁, os₁)) :
    n₁.store.Stores f := by
  obtain ⟨ls, hpath, hcases⟩ := Txn.wp_some
    (followLeaderCommitLocked_spec hreq hheld : (Solo.env json o).Spec _ _ _ n)
    (fun _ => trivial) hrun
  refine hpath.invariant hf fun a ha m m' hmove hm => hmove.stores ?_ hm
  rcases hcases with ⟨rfl, -⟩ | ⟨⟨ls', rfl, happlies⟩, -⟩
  · cases ha
  · rcases List.mem_cons.mp ha with rfl | ha
    · trivial
    · have := happlies a ha
      cases a <;> trivial

/-- A request that is handled without a failure succeeds, and the merged log is
stored. -/
theorem Node.Passes.appendEntries_undisturbed
    (json : Json) (o : Options)
    (h : n.Passes req)
    (hcarries : req.Carries l)
    (hl : Indexed l)
    (hf : n.store.Stores f)
    (hmatching : Matching Entry.term f l)
    (haccepted : Store.storable req.entries = true)
    (hos : Unbroken os) :
    ∃ n' os', Node.appendEntries json o req os n =
        (some ⟨.success, some ⟨req.term, true, req.prevLogIndex + req.entries.length⟩⟩,
          n', os') ∧
      n'.store.Stores (req.mergedLog l f) := by
  have hnum := hcarries.numbered hl
  obtain ⟨n₁, os₁, haccept, hos₁⟩ := h.accept_undisturbed hos
  obtain ⟨hreq, hpass, hstores⟩ := h.accept haccept
  obtain ⟨r, n₂, os₂, hrun, hended, hclean⟩ :=
    storeReading_ended appendsAll_appendMissing hnum hpass.snapshot req.entries.length os₁
  obtain ⟨hr, hos₂⟩ := hclean hos₁ haccepted le_rfl
  rcases hended.stores hreq hcarries hl (hstores f hf) hmatching with
    ⟨hstopped, -⟩ | ⟨-, hmerged⟩
  · exact absurd hstopped hr
  · obtain ⟨m, rfl⟩ : ∃ m, r = some (some m) := by
      simpa [Stopped] using hr
    have hrun' := hrun
    rw [storeReading_eq le_rfl] at hrun'
    obtain ⟨ls, -, hstored⟩ := Txn.wp_some
      (storeLeaderEntriesLocked_spec hreq : (Solo.env json o).Spec _ _ _ n₁)
      (fun _ => trivial) hrun'
    obtain ⟨hheld, rfl⟩ := hstored.result m rfl hnum
    obtain ⟨_, n₃, os₃, hfollow, -⟩ :=
      followLeaderCommitLocked_returns json o req.leaderCommit os₂ n₂ hos₂.2
    refine ⟨n₃, os₃, ?_, followLeaderCommitLocked_stores hstored.attached
      (fun _ => hheld) hmerged hfollow⟩
    rw [← appendReading_eq le_rfl, h.appendReading_run haccept, hpass.mergeWith_eq,
      Txn.run_bind hrun, hreq.term]
    exact Txn.run_bind hfollow

/-- The handling of the request comes to an end before the entries are stored: the node
dies, a term cannot be read, or a transaction fails. -/
def Node.Interrupted (n : Node) (append : List Entry → Txn Node Bool)
    (req : AppendEntriesRequest) (reads : Nat) (os : List Outcome) : Prop :=
  ∀ n₁ os₁, Node.acceptLeader req.term req.leaderId os n = (some (), n₁, os₁) →
    Stopped (Node.storeReading append reads req.entries req.prevLogIndex
      n₁.store.snapshotIndex os₁ n₁).1

theorem Node.interrupted_of_run
    (hrun : Node.acceptLeader req.term req.leaderId os n = (some (), n₁, os₁))
    (hr : Stopped (Node.storeReading append reads req.entries req.prevLogIndex
      n₁.store.snapshotIndex os₁ n₁).1) :
    n.Interrupted append req reads os := by
  intro n₂ os₂ hrun'
  rw [hrun] at hrun'
  cases hrun'
  exact hr

/-- The merge that stopped left the node such that the request still passes. -/
theorem Node.Ended.passes
    {r : Option (Option Nat)}
    (h : n.Ended req r n₁)
    (hr : Stopped r)
    (hnum : req.Numbered)
    (hpass : n.Passes req) :
    n₁.Passes req := by
  cases h with
  | held _ => exact absurd hr (not_stopped _)
  | appended _ _ => exact absurd hr (not_stopped _)
  | replaced _ _ _ => exact absurd hr (not_stopped _)
  | unchanged _ => exact hpass
  | truncated _ hlacks _ _ =>
      have := (hnum.split hlacks.split).2.1
      exact hpass.deleteFrom (by omega)

/-- An interrupted handling ends in a crash or a storage error, with the old log or its
part before the first conflict, and the request passes again. -/
theorem Node.Passes.interrupted
    (json : Json) (o : Options)
    (happends : AppendsAll append)
    (h : n.Passes req)
    (hcarries : req.Carries l)
    (hl : Indexed l)
    (hf : n.store.Stores f)
    (hmatching : Matching Entry.term f l)
    (hstop : n.Interrupted append req reads os) :
    ∃ n' os',
      (Node.appendReading append reads json o req os n = (none, n', os') ∧
          (Node.new n'.store).Passes req ∨
        Node.appendReading append reads json o req os n = (some ⟨.error, none⟩, n', os') ∧
          n'.Passes req) ∧
      (n'.store.Stores f ∨ ∃ i, FirstConflict Entry.term f l i ∧
        i < req.prevLogIndex + req.entries.length ∧ n'.store.Stores (f.take i)) := by
  have hnum := hcarries.numbered hl
  rcases (acceptLeader_spec h.term : (Solo.env json o).Spec _ _ _ n).cases os
    (fun _ => trivial) with
    ⟨_, n₁, os₁, _, haccept, -, -⟩ | ⟨n', os', ls, n'', haccept, hstore, hpath, rfl⟩
  · obtain ⟨hreq, hpass, hstores⟩ := h.accept haccept
    obtain ⟨r, n₂, os₂, hrun, hended, -⟩ :=
      storeReading_ended happends hnum hpass.snapshot reads os₁
    have hr : Stopped r := by
      have := hstop n₁ os₁ haccept
      rwa [hrun] at this
    have hpass₂ := hended.passes hr hnum hpass
    refine ⟨n₂, os₂, ?_, ?_⟩
    · rw [h.appendReading_run haccept, hpass.mergeWith_eq]
      rcases r with - | - | m
      · exact Or.inl ⟨Txn.run_bind_none hrun, hpass₂.new⟩
      · exact Or.inr ⟨Txn.run_bind hrun, hpass₂⟩
      · exact absurd hr (not_stopped m)
    · rcases hended.stores hreq hcarries hl (hstores f hf) hmatching with
        ⟨-, hlog⟩ | ⟨hgo, -⟩
      · exact hlog
      · exact absurd hr hgo
  · -- the node dies while it saves the new term
    have hsame : n'.store = n.store := by
      rw [hstore, hpath.eq_of_nil]
    refine ⟨n', os', Or.inl ⟨?_, ?_⟩, Or.inl ?_⟩
    · unfold Node.appendReading
      rw [Txn.run_read_bind,
        if_neg (not_lt.mpr h.term)]
      exact Txn.run_bind_none haccept
    · rw [hsame]
      exact h.new
    · rwa [hsame]

/-- The runs of the interrupted handler. -/
theorem runSection_interrupted
    {n' : Node} {os' : List Outcome} (answered : List Answered)
    (hrun : Node.appendReading append reads json o req os n = (none, n', os') ∧
        (Node.new n'.store).Passes req ∨
      Node.appendReading append reads json o req os n = (some ⟨.error, none⟩, n', os') ∧
        n'.Passes req) :
    let s := Solo.runSection ⟨n, answered⟩ (Node.appendReading append reads json o req) os
      fun h => [.append req h]
    (s.answered = answered ∨ s.answered = answered ++ [.append req ⟨.error, none⟩]) ∧
      s.node.Passes req ∧ s.node.store = n'.store := by
  rcases hrun with ⟨hrun, hpass⟩ | ⟨hrun, hpass⟩
  · simp only [Solo.runSection, hrun]
    exact ⟨Or.inl trivial, hpass, rfl⟩
  · simp only [Solo.runSection, hrun]
    exact ⟨Or.inr trivial, hpass, trivial⟩

/-- A request that passes, handled without a failure. -/
theorem Node.Passes.perform_undisturbed
    {s : Solo} (json : Json) (o : Options)
    (h : s.node.Passes req)
    (hcarries : req.Carries l)
    (hl : Indexed l)
    (hf : s.node.store.Stores f)
    (hmatching : Matching Entry.term f l)
    (haccepted : Store.storable req.entries = true)
    (hos : Unbroken os) :
    (s.perform json o (.append req) os).node.store.Stores (req.mergedLog l f) ∧
      (s.perform json o (.append req) os).answered = s.answered ++ [.append req
        ⟨.success, some ⟨req.term, true, req.prevLogIndex + req.entries.length⟩⟩] := by
  obtain ⟨n', os', hrun, hstores⟩ :=
    h.appendEntries_undisturbed json o hcarries hl hf hmatching haccepted hos
  simp only [Solo.perform, Solo.runSection, hrun]
  exact ⟨hstores, trivial⟩

/-- A merge that is cut short answers no success.  It leaves the follower's log or its
part before the first conflict with the leader's, so no common entry is lost, and the
same request then gives the log that it would have given at once.  A request with an empty
command is never handled without a failure, as the schema refuses it. -/
theorem interrupted_merge_harmless
    (json : Json) (o : Options) (l f : List Entry)
    (hl : Indexed l)
    (n : Node) (answered : List Answered)
    (hf : n.store.Stores f)
    (hmatching : Matching Entry.term f l)
    (req : AppendEntriesRequest)
    (hcarries : req.Carries l)
    (hpass : n.Passes req)
    (reads : Nat) (os : List Outcome)
    (hstop : n.Interrupted Node.appendInTx req reads os) :
    let s₀ : Solo := ⟨n, answered⟩
    let s := s₀.runSection (Node.appendReading Node.appendInTx reads json o req) os
      fun h => [.append req h]
    (s.answered = answered ∨ s.answered = answered ++ [.append req ⟨.error, none⟩]) ∧
    ∃ f' g, s.node.store.Stores f' ∧
      (f' = f ∨ ∃ i, FirstConflict Entry.term f l i ∧ f' = f.take i) ∧
      (∀ (j : Nat) (e : Entry), f[j]? = some e → l[j]? = some e → f'[j]? = some e) ∧
      ∀ os', Unbroken os' → Store.storable req.entries = true →
        (s₀.perform json o (.append req) os').node.store.Stores g ∧
        (s.perform json o (.append req) os').node.store.Stores g ∧
        (s.perform json o (.append req) os').answered = s.answered ++ [.append req
          ⟨.success, some ⟨req.term, true, req.prevLogIndex + req.entries.length⟩⟩] := by
  intro s₀ s
  obtain ⟨n', os', hrun, hlog⟩ :=
    hpass.interrupted json o appendsAll_appendInTx hcarries hl hf hmatching hstop
  obtain ⟨hanswered, hpass', hstore⟩ := runSection_interrupted answered hrun
  refine ⟨hanswered, ?_⟩
  have hunbroken : ∀ os', Unbroken os' → Store.storable req.entries = true →
      (s₀.perform json o (.append req) os').node.store.Stores (req.mergedLog l f) :=
    fun os' hos' haccepted => (Node.Passes.perform_undisturbed (s := s₀) json o hpass hcarries
      hl hf hmatching haccepted hos').1
  rw [← hstore] at hlog
  rcases hlog with hlog | ⟨i, hfirst, hlt, hlog⟩
  · exact ⟨f, req.mergedLog l f, hlog, Or.inl rfl, fun _ _ he _ => he,
      fun os' hos' haccepted => ⟨hunbroken os' hos' haccepted,
        hpass'.perform_undisturbed json o hcarries hl hlog hmatching haccepted hos'⟩⟩
  · have hmatching' : Matching Entry.term (f.take i) l :=
      matching_of_le (hfirst.before ▸ List.take_prefix _ _)
    refine ⟨f.take i, req.mergedLog l f, hlog, Or.inr ⟨i, hfirst, rfl⟩, ?_, ?_⟩
    · intro j e hj hj'
      rw [List.getElem?_take_of_lt (hfirst.lt_of_common hmatching hj hj'), hj]
    · intro os' hos' haccepted
      have hagain := hpass'.perform_undisturbed json o hcarries hl hlog
        hmatching' haccepted hos'
      rw [mergedLog_take hfirst hlt hcarries] at hagain
      exact ⟨hunbroken os' hos' haccepted, hagain⟩

/-- The last two entries of `leaderLog`. -/
def leaderPiece : AppendEntriesRequest :=
  ⟨2, "l", 1, 1, [⟨2, 2, sampleCommand⟩, ⟨3, 2, sampleCommand⟩], 0⟩

/-- The node dies in the transaction that appends, at the second entry: its entry 2 is
gone, its entry 1 is not, and the next attempt stores the entries of the leader. -/
theorem interrupted_merge_harmless_diverged :
    let s₀ : Solo := ⟨divergedNode, []⟩
    let s := s₀.runSection
      (Node.appendReading Node.appendInTx 2 Json.compact ⟨"f", ["l"], 0⟩ leaderPiece)
      [.commit, .commit, .commit, .commit, .crash] fun h => [.append leaderPiece h]
    s.node.store.lastIndex = 1 ∧
    (s.answered = [] ∨ s.answered = [.append leaderPiece ⟨.error, none⟩]) ∧
    ∃ f' g, s.node.store.Stores f' ∧
      (f' = divergedLog ∨
        ∃ i, FirstConflict Entry.term divergedLog leaderLog i ∧ f' = divergedLog.take i) ∧
      (∀ (j : Nat) (e : Entry), divergedLog[j]? = some e → leaderLog[j]? = some e →
        f'[j]? = some e) ∧
      ∀ os', Unbroken os' →
        (s₀.perform Json.compact ⟨"f", ["l"], 0⟩ (.append leaderPiece) os').node.store.Stores
          g ∧
        (s.perform Json.compact ⟨"f", ["l"], 0⟩ (.append leaderPiece) os').node.store.Stores
          g ∧
        (s.perform Json.compact ⟨"f", ["l"], 0⟩ (.append leaderPiece) os').answered =
          s.answered ++ [.append leaderPiece ⟨.success, some ⟨2, true, 3⟩⟩] := by
  have hstop : divergedNode.Interrupted Node.appendInTx leaderPiece 2
      [.commit, .commit, .commit, .commit, .crash] :=
    Node.interrupted_of_run rfl (by
      have hdies : (Node.storeReading Node.appendInTx 2 leaderPiece.entries 1 0
          [.commit, .commit, .commit, .crash]
          (Node.acceptLeader 2 "l" [.commit, .commit, .commit, .commit, .crash]
            divergedNode).2.1).1 = none := by decide +kernel
      exact hdies ▸ stopped_none)
  obtain ⟨hanswered, f', g, hf', hcut, hcommon, hagain⟩ :=
    interrupted_merge_harmless Json.compact ⟨"f", ["l"], 0⟩ leaderLog divergedLog (by decide)
      divergedNode [] divergedNode_stores (by decide) leaderPiece (by decide +kernel)
      ⟨by decide, by decide, by decide, by decide⟩ 2 _ hstop
  exact ⟨by decide +kernel, hanswered, f', g, hf', hcut, hcommon,
    fun os' hos' => hagain os' hos' (by decide +kernel)⟩

end Handler

end LogReplicator
