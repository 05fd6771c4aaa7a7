import LogReplicator.Raft.OtherLoops

/-!
# The four counters of a node

`snapshot_index`, `lastApplied`, `commitIndex` and the last log index stay in this
order as long as no leader takes back a committed entry, and the apply loop then
finds every entry it looks for.
-/

namespace LogReplicator

open Library

/-- The counters of the node are in order. -/
structure Node.Counted (n : Node) : Prop where
  ordered : n.store.Ordered
  disk : n.store.lastApplied ≤ n.lastApplied
  committed : n.lastApplied ≤ n.commitIndex
  stored : n.commitIndex ≤ n.store.lastIndex

section Log

variable {s s' : Store}

/-- A log that keeps its rows above the new snapshot does not get shorter. -/
theorem Store.Ordered.lastIndex_mono
    (h : s.Ordered)
    (h' : s'.Ordered)
    (hsnapshot : s.snapshotIndex ≤ s'.lastIndex)
    (hrows : ∀ i, s'.snapshotIndex < i → (s.logEntries.get i).isSome →
      (s'.logEntries.get i).isSome) :
    s.lastIndex ≤ s'.lastIndex := by
  have hle := h'.snapshotIndex_le
  rcases Nat.lt_or_ge s'.lastIndex s.lastIndex with hlt | hge
  · have hrow := (h.rows s.lastIndex).mpr ⟨by omega, le_rfl⟩
    exact ((h'.rows _).mp (hrows _ (by omega) hrow)).2
  · exact hge

/-- Truncating behind an index keeps the log up to it. -/
theorem Store.Ordered.le_lastIndex_deleteFrom
    (h : s.Ordered)
    {i index : Nat}
    (hindex : s.snapshotIndex < index)
    (hi : i < index)
    (hle : i ≤ s.lastIndex) :
    i ≤ (s.deleteFrom index).lastIndex := by
  have h' := h.deleteFrom hindex
  rcases Nat.lt_or_ge s.snapshotIndex i with hlt | hge
  · have hrow := (h.rows i).mpr ⟨hlt, hle⟩
    refine ((h'.rows i).mp ?_).2
    rwa [get_deleteFrom, if_neg (by omega)]
  · exact hge.trans h'.snapshotIndex_le

/-- The commit loop stays between the commit index and the end of the log. -/
theorem Node.committedIndex_bounds
    (n : Node) (o : Options)
    (h : n.commitIndex ≤ n.store.lastIndex) :
    n.commitIndex ≤ n.committedIndex o ∧ n.committedIndex o ≤ n.store.lastIndex := by
  have hfold : ∀ (is : List Nat) (c : Nat),
      (∀ i ∈ is, n.commitIndex ≤ i ∧ i ≤ n.store.lastIndex) →
      n.commitIndex ≤ c → c ≤ n.store.lastIndex →
      n.commitIndex ≤ is.foldl (fun c i => if n.committable o i then i else c) c ∧
        is.foldl (fun c i => if n.committable o i then i else c) c ≤ n.store.lastIndex := by
    intro is
    induction is with
    | nil =>
        exact fun c _ hle hge => ⟨hle, hge⟩
    | cons i is ih =>
        intro c his hle hge
        have hi := his i List.mem_cons_self
        refine ih _ (fun j hj => his j (List.mem_cons_of_mem _ hj)) ?_ ?_
        all_goals
          beta_reduce
          split_ifs
          · omega
          · assumption
  refine hfold _ _ (fun i hi => ?_) le_rfl h
  rw [List.mem_range'_1] at hi
  omega

end Log

section Step

variable {env : Env} {n n' : Node} {a : Label}

theorem Node.Counted.snapshotIndex_le
    (h : n.Counted) :
    n.store.snapshotIndex ≤ n.lastApplied :=
  h.ordered.applied.trans h.disk

/-- The entry the apply loop looks for is in the log. -/
theorem Node.Counted.entry_isSome
    (h : n.Counted)
    (hbehind : n.lastApplied < n.commitIndex) :
    (n.store.entry (n.lastApplied + 1)).isSome := by
  have hsnapshot := h.snapshotIndex_le
  have hstored := h.stored
  rw [Store.entry, Option.isSome_map]
  exact (h.ordered.rows _).mpr ⟨by omega, by omega⟩

/-- One move keeps the counters in order and, unless the node restarts, lets none of
them go back. -/
theorem Move.counted
    (hmove : Move env a n n')
    (hnumbered : a.Numbered)
    (h : n.Counted)
    (huncommitted : ∀ req e, a = .truncate req e → n.commitIndex < e.index) :
    n'.Counted ∧
      (a ≠ .restart → n.commitIndex ≤ n'.commitIndex ∧ n.lastApplied ≤ n'.lastApplied) := by
  have hordered := hmove.ordered hnumbered h.ordered
  have hdisk := h.disk
  have hcommitted := h.committed
  have hstored := h.stored
  cases hmove with
  | propose _ =>
      refine ⟨⟨hordered, hdisk, hcommitted, ?_⟩, fun _ => ⟨le_rfl, le_rfl⟩⟩
      have := n.store.lastIndex_appendEntries_singleton (n.clientEntry ‹_›)
      simp only [Node.clientEntry] at this ⊢
      omega
  | @truncate _ req _ _ e _ _ hlacks _ _ =>
      have hlt := huncommitted req e rfl
      exact ⟨⟨hordered, hdisk, hcommitted,
        h.ordered.le_lastIndex_deleteFrom hlacks.fresh hlt hstored⟩,
        fun _ => ⟨le_rfl, le_rfl⟩⟩
  | @store _ req pre post e hreq hlacks hnone =>
      refine ⟨⟨hordered, hdisk, hcommitted, hstored.trans ?_⟩, fun _ => ⟨le_rfl, le_rfl⟩⟩
      refine h.ordered.lastIndex_mono hordered hordered.snapshotIndex_le fun i _ hrow => ?_
      obtain ⟨row, hrow⟩ := Option.isSome_iff_exists.mp hrow
      rw [hlacks.filter_eq hnumbered]
      by_cases hmem : ∃ d ∈ e :: post, d.index = i
      · obtain ⟨d, hd, rfl⟩ := hmem
        have hpost := (AppendEntriesRequest.Numbered.split hnumbered hlacks.split).2.2
        rw [Store.get_appendEntries_of_mem (hpost ▸ List.nodup_range') hd]
        rfl
      · push Not at hmem
        rw [Store.get_appendEntries_of_notMem hmem, hrow]
        rfl
  | learn _ _ hlt =>
      exact ⟨⟨hordered, hdisk, by simp only; omega, by simp only; omega⟩,
        fun _ => ⟨by simp only; omega, le_rfl⟩⟩
  | advance _ _ =>
      obtain ⟨hge, hle⟩ := n.committedIndex_bounds env.options hstored
      exact ⟨⟨hordered, hdisk, hcommitted.trans hge, hle⟩, fun _ => ⟨hge, le_rfl⟩⟩
  | apply _ hlt _ _ =>
      rw [Command.applyTo_eq] at hordered ⊢
      exact ⟨⟨hordered, le_rfl, hlt, hstored⟩, fun _ => ⟨le_rfl, Nat.le_succ _⟩⟩
  | skip _ hbehind hmissing _ =>
      have hsome := h.entry_isSome hbehind
      simp [hmissing] at hsome
  | compact _ hold _ =>
      exact ⟨⟨hordered, le_rfl, hcommitted,
        hstored.trans (Store.lastIndex_le_createSnapshot env.json hold)⟩,
        fun _ => ⟨le_rfl, le_rfl⟩⟩
  | @install _ req state _ hnew _ =>
      have hposition : req.lastIncludedIndex ≤
          (n.store.installSnapshot
            ⟨req.lastIncludedIndex, req.lastIncludedTerm, req.data⟩ state).lastIndex :=
        hordered.snapshotIndex_le
      have hlast := h.ordered.lastIndex_mono hordered (hnew.le.trans hposition)
        fun i hi hrow => by
          have hi' : ¬ i ≤ req.lastIncludedIndex := not_le.mpr hi
          rwa [Store.get_installSnapshot, if_neg hi']
      exact ⟨⟨hordered, le_max_right _ _, max_le_max_right _ hcommitted,
        max_le (hstored.trans hlast) hposition⟩,
        fun _ => ⟨le_max_left _ _, le_max_left _ _⟩⟩
  | progress _ =>
      unfold Node.recordPeerProgressLocked
      split_ifs <;> exact ⟨⟨h.ordered, hdisk, hcommitted, hstored⟩, fun _ => ⟨le_rfl, le_rfl⟩⟩
  | restart =>
      exact ⟨⟨hordered, le_rfl, le_rfl, hdisk.trans (hcommitted.trans hstored)⟩,
        fun hne => absurd rfl hne⟩
  | _ =>
      exact ⟨⟨hordered, hdisk, hcommitted, hstored⟩, fun _ => ⟨le_rfl, le_rfl⟩⟩

end Step

section ApplyLoop

/-- The apply loop with another treatment of an entry that is not in the log, or that
does not decode. -/
def Node.applyLoopWith (missing : Nat → Txn Node Bool)
    (undecodable : DecodeError → Txn Node Unit) (json : Json) (o : Options) :
    Nat → Txn Node Unit
  | 0 => compactIfNeededLocked json o
  | fuel + 1 => do
      let n ← Txn.read
      if n.lastApplied < n.commitIndex then
        match n.store.entry (n.lastApplied + 1) with
        | none => do
            let skipped ← missing (n.lastApplied + 1)
            if skipped then applyLoopWith missing undecodable json o fuel else pure ()
        | some entry =>
            match decodeCommand json entry.command with
            | .error err => undecodable err
            | .ok cmd => do
                let applied ← writeStore (cmd.applyTo (n.lastApplied + 1))
                if applied then do
                  Txn.update fun n' =>
                    { n' with lastApplied := n.lastApplied + 1 }
                  applyLoopWith missing undecodable json o fuel
                else
                  pure ()
      else
        compactIfNeededLocked json o

theorem Node.applyLoopWith_eq
    (json : Json) (o : Options) (fuel : Nat) :
    applyLoopWith skipCompactedLocked (fun _ => pure ()) json o fuel =
      applyLoop json o fuel := by
  induction fuel with
  | zero => rfl
  | succ fuel ih =>
      unfold applyLoopWith applyLoop
      -- not `rw`: whether it closes the goal depends on shared matchers
      rewrite [ih]
      rfl

/-- `applyCommittedLocked` with such a loop. -/
def Node.applyCommittedWith (missing : Nat → Txn Node Bool)
    (undecodable : DecodeError → Txn Node Unit) (json : Json) (o : Options) :
    Txn Node Unit := do
  let n ← Txn.read
  applyLoopWith missing undecodable json o (n.commitIndex - n.lastApplied)

/-- With its own branches, the operation is the one of the node. -/
theorem Solo.performWith_own
    (json : Json) (o : Options) (s : Solo) (op : Operation) (os : List Outcome) :
    s.performWith (Node.applyCommittedWith Node.skipCompactedLocked (fun _ => pure ()) json o)
      json o op os = s.perform json o op os := by
  have hown : Node.applyCommittedWith Node.skipCompactedLocked (fun _ => pure ()) json o =
      Node.applyCommittedLocked json o := by
    unfold Node.applyCommittedWith Node.applyCommittedLocked
    simp only [Node.applyLoopWith_eq]
  rw [hown]
  exact performWith_self json o s op os

/-- The loop runs the same whatever it would do about a missing entry: neither branch
of `skipCompactedLocked` is taken. -/
def Node.FindsEntries (json : Json) (o : Options) (n : Node) : Prop :=
  ∀ missing fuel os,
    applyLoopWith missing (fun _ => pure ()) json o fuel os n = applyLoop json o fuel os n

theorem Node.Counted.findsEntries
    {n : Node}
    (h : n.Counted)
    (json : Json) (o : Options) :
    n.FindsEntries json o := by
  intro missing fuel
  induction fuel generalizing n with
  | zero =>
      exact fun _ => rfl
  | succ fuel ih =>
      intro os
      show (if n.lastApplied < n.commitIndex then _ else _ : Txn Node Unit) os n =
        (if n.lastApplied < n.commitIndex then _ else _ : Txn Node Unit) os n
      split_ifs with hbehind
      swap
      · rfl
      obtain ⟨entry, hentry⟩ := Option.isSome_iff_exists.mp (h.entry_isSome hbehind)
      rw [hentry]
      simp only
      cases hcmd : decodeCommand json entry.command with
      | error err => rfl
      | ok cmd =>
          -- only a committed transaction goes on, with one more entry applied
          have hnext := (Move.counted
            (Move.apply (Or.inl trivial) hbehind hentry hcmd : Move (Solo.env json o) _ n _)
            trivial h (by simp)).1
          rcases os with _ | ⟨_ | _ | _, os⟩
          · exact ih hnext []
          · exact ih hnext os
          · rfl
          · rfl

end ApplyLoop

section Run

variable {json : Json} {o : Options}

/-- The entries do not contradict rows at or below the commit index. -/
def Node.Agrees (n : Node) (req : AppendEntriesRequest) : Prop :=
  ∀ e ∈ req.entries, e.index ≤ n.commitIndex →
    ∀ row, n.store.logEntries.get e.index = some row → row.term = e.term

/-- An append is numbered and takes back nothing that is committed. -/
def Operation.Guarded (n : Node) : Operation → Prop
  | .append req => req.Numbered ∧ n.Agrees req
  | _ => True

/-- Every operation of the run is guarded when it happens. -/
def Solo.Guarded (json : Json) (o : Options) :
    Solo → List (Operation × List Outcome) → Prop
  | _, [] => True
  | s, (op, os) :: ops => op.Guarded s.node ∧ Guarded json o (s.perform json o op os) ops

theorem Operation.Guarded.numbered
    {op : Operation} {n : Node}
    (h : op.Guarded n) :
    op.Numbered := by
  cases op with
  | append req => exact h.1
  | _ => trivial

/-- A guarded request stays guarded while it is handled. -/
theorem Move.agrees
    {env : Env} {a : Label} {n n' : Node} {req : AppendEntriesRequest}
    (hmove : Move env a n n')
    (ha : a.Appends req ∨ a = .restart)
    (hnum : req.Numbered)
    (hcounted : n.Counted)
    (h : n.Agrees req) :
    n'.Agrees req := by
  rcases ha with ha | rfl
  swap
  · cases hmove
    exact fun e he hi => h e he (hi.trans (hcounted.disk.trans hcounted.committed))
  cases hmove with
  | @truncate _ _ _ _ e _ _ _ _ _ =>
      intro d hd hi row hrow
      rw [Store.get_deleteFrom] at hrow
      split_ifs at hrow
      exact h d hd hi row hrow
  | @store _ req' pre post e hreq hlacks hnone =>
      obtain rfl : req' = req := ha
      intro d hd hi row hrow
      rw [hlacks.filter_eq hnum] at hrow
      rcases Store.get_appendEntries_cases n.store (e :: post) d.index with
        hold | ⟨d', hd', hindex, hnew⟩
      · exact h d hd hi row (hold ▸ hrow)
      · have hmem : d' ∈ req'.entries := by
          rw [hlacks.split]
          exact List.mem_append_right _ hd'
        obtain rfl := List.inj_on_of_nodup_map hnum.nodup hmem hd hindex
        rw [hnew, Option.some.injEq] at hrow
        rw [← hrow]
  | @learn _ req' hreq hheld _ =>
      obtain rfl : req' = req := ha
      intro d hd _ row hrow
      have hterm := hheld hnum d hd
      rw [Store.term_of_row ((hcounted.ordered.rows _).mp (by simp [hrow])).1 hrow,
        Option.some.injEq] at hterm
      exact hterm
  | compact _ _ _ =>
      intro d hd hi row hrow
      rw [Store.get_createSnapshot] at hrow
      split_ifs at hrow
      exact h d hd hi row hrow
  | apply _ _ _ _ =>
      rw [Command.applyTo_eq]
      exact h
  | _ => first | exact h | exact ha.elim

/-- A move between states with ordered counters. -/
structure Orderly (json : Json) (o : Options) (a : Label) (n n' : Node) : Prop where
  move : Move (Solo.env json o) a n n'
  before : n.Counted
  after : n'.Counted
  forward : a ≠ .restart →
    n.commitIndex ≤ n'.commitIndex ∧ n.lastApplied ≤ n'.lastApplied

/-- A move of a guarded operation keeps the counters in order, and its request guarded. -/
theorem Operation.Guarded.move
    {op : Operation} {n m m' : Node} {os : List Outcome} {a : Label}
    (hop : op.Guarded n)
    (hmove : Move (Solo.env json o) a m m')
    (hfrom : a.From n op os)
    (happends : ∀ req, op = .append req → a.Appends req ∨ a = .restart)
    (hm : m.Counted ∧ ∀ req, op = .append req → m.Agrees req) :
    (m'.Counted ∧ ∀ req, op = .append req → m'.Agrees req) ∧ Orderly json o a m m' := by
  obtain ⟨hcounted, hagrees⟩ := hm
  -- a truncation starts at a row that contradicts the request
  have huncommitted : ∀ req e, a = .truncate req e → m.commitIndex < e.index := by
    rintro req e rfl
    obtain rfl : op = .append req := hfrom
    cases hmove with
    | truncate _ hlacks hlocal hconflict =>
        by_contra hle
        rw [Store.term_eq_map hlacks.fresh] at hlocal
        obtain ⟨row, hrow, rfl⟩ := Option.map_eq_some_iff.mp hlocal
        exact hconflict
          (hagrees req rfl e (hlacks.split ▸ by simp) (not_lt.mp hle) row hrow)
  obtain ⟨hcounted', hforward⟩ :=
    hmove.counted (hfrom.numbered hop.numbered) hcounted huncommitted
  refine ⟨⟨hcounted', ?_⟩, hmove, hcounted, hcounted', hforward⟩
  rintro req rfl
  exact hmove.agrees (happends req rfl) hop.1 hcounted (hagrees req rfl)

theorem Operation.Guarded.agrees
    {op : Operation} {n : Node} (hop : op.Guarded n) :
    ∀ req, op = .append req → n.Agrees req := by
  rintro req rfl
  exact hop.2

/-- A guarded operation is a sequence of such moves. -/
theorem Solo.perform_orderly
    (json : Json) (o : Options) {s : Solo} {op : Operation}
    (h : s.node.Counted)
    (hop : op.Guarded s.node)
    (os : List Outcome) :
    ∃ ls, Path (Orderly json o) ls s.node (s.perform json o op os).node ∧
      (.restart ∈ ls → op = .crash ∨ Outcome.crash ∈ os) := by
  obtain ⟨ls, hpath, hls⟩ : ∃ ls, Path (Move (Solo.env json o)) ls s.node
      (s.perform json o op os).node ∧
      ∀ a ∈ ls, a.From s.node op os ∧
        ∀ req, op = .append req → a.Appends req ∨ a = .restart := by
    by_cases happend : ∃ req, op = .append req
    · obtain ⟨req, rfl⟩ := happend
      have happends : ∀ a : Label, a.Appends req → a.From s.node (.append req) os ∧
          ∀ req', Operation.append req = .append req' → a.Appends req' ∨ a = .restart := by
        refine fun a ha => ⟨ha.comes.origin, ?_⟩
        rintro _ ⟨⟩
        exact Or.inl ha
      exact runSection_path appendEntries_spec (fun _ => trivial)
        (appendEntries_returns json o req)
        (fun _ _ _ h l hl => happends l (h.labels l hl))
        (fun _ h l hl => happends l (h.labels l hl))
        fun hcrash => ⟨Or.inr hcrash, fun _ _ => Or.inr rfl⟩
    · obtain ⟨ls, hpath, hls⟩ := perform_path json o s op os
      exact ⟨ls, hpath, fun a ha => ⟨hls a ha, fun req hreq => absurd ⟨req, hreq⟩ happend⟩⟩
  refine ⟨ls, hpath.refine ⟨h, hop.agrees⟩ fun a ha m m' hmove hm =>
    hop.move hmove (hls a ha).1 (hls a ha).2 hm, fun hrestart => (hls _ hrestart).1⟩

/-- A guarded operation runs the same whatever the apply loop would do about a missing
entry. -/
theorem Solo.performWith_guarded
    (json : Json) (o : Options) {s : Solo} {op : Operation}
    (h : s.node.Counted)
    (hop : op.Guarded s.node)
    (os : List Outcome) (missing : Nat → Txn Node Bool) :
    s.performWith (Node.applyCommittedWith missing (fun _ => pure ()) json o) json o op os =
      s.perform json o op os := by
  refine Solo.performWith_eq
    (P := fun m => m.Counted ∧ ∀ req, op = .append req → m.Agrees req) ⟨?_, ?_⟩
    ⟨h, hop.agrees⟩
  · exact fun m hm os' => hm.1.findsEntries json o missing _ os'
  · exact fun a m m' hmove hfrom happends hm =>
      (hop.move hmove hfrom (fun req hreq => Or.inl (happends req hreq)) hm).1

theorem Solo.run_counted
    {s : Solo} {ops : List (Operation × List Outcome)}
    (h : s.node.Counted)
    (hops : Solo.Guarded json o s ops) :
    (s.run json o ops).node.Counted := by
  induction ops generalizing s with
  | nil =>
      exact h
  | cons op ops ih =>
      obtain ⟨ls, hpath, -⟩ := perform_orderly json o h hops.1 op.2
      exact ih (hpath.invariant h fun _ _ _ _ horderly _ => horderly.after) hops.2

theorem Node.counted_init :
    (Node.new Store.init).Counted :=
  ⟨Store.ordered_init, le_rfl, le_rfl, Nat.zero_le _⟩

/-- In every run in which appends are numbered and take back nothing committed, the
counters are ordered, go back only when the node restarts, and the apply loop finds
every entry it looks for: no operation depends on what the loop does about a missing
entry, nor would it in any state that the operation goes through. -/
theorem counters_ordered
    (json : Json) (o : Options) (ops : List (Operation × List Outcome))
    (hops : Solo.Guarded json o Solo.init ops) :
    let s := Solo.init.run json o ops
    (s.node.store.snapshotIndex ≤ s.node.lastApplied ∧
      s.node.lastApplied ≤ s.node.commitIndex ∧
      s.node.commitIndex ≤ s.node.store.lastIndex) ∧
    s.node.FindsEntries json o ∧
    ∀ op os, op.Guarded s.node →
      (op ≠ .crash → Outcome.crash ∉ os →
        s.node.commitIndex ≤ (s.perform json o op os).node.commitIndex ∧
          s.node.lastApplied ≤ (s.perform json o op os).node.lastApplied) ∧
      (∀ missing, s.performWith (Node.applyCommittedWith missing (fun _ => pure ()) json o)
        json o op os = s.perform json o op os) ∧
      ∃ ls, Path (fun a m m' => Move (Solo.env json o) a m m' ∧ a ≠ .skip ∧
          m.FindsEntries json o ∧ m'.FindsEntries json o)
        ls s.node (s.perform json o op os).node := by
  intro s
  have hcounted : s.node.Counted := Solo.run_counted Node.counted_init hops
  refine ⟨⟨hcounted.snapshotIndex_le, hcounted.committed, hcounted.stored⟩,
    hcounted.findsEntries json o, fun op os hop => ?_⟩
  obtain ⟨ls, hpath, hrestart⟩ := Solo.perform_orderly json o hcounted hop os
  refine ⟨fun hop' hos => ?_, Solo.performWith_guarded json o hcounted hop os, ls, ?_⟩
  · refine hpath.invariant
      (P := fun m => s.node.commitIndex ≤ m.commitIndex ∧ s.node.lastApplied ≤ m.lastApplied)
      ⟨le_rfl, le_rfl⟩ ?_
    intro a ha m m' horderly hm
    have hne : a ≠ .restart := by
      rintro rfl
      exact (hrestart ha).elim hop' hos
    have := horderly.forward hne
    omega
  · refine hpath.refine (P := fun _ => True) trivial fun a _ m m' horderly _ =>
      ⟨trivial, horderly.move, ?_, horderly.before.findsEntries json o,
        horderly.after.findsEntries json o⟩
    rintro rfl
    cases horderly.move with
    | skip _ hbehind hmissing _ =>
        have hsome := horderly.before.entry_isSome hbehind
        simp [hmissing] at hsome

instance (n : Node) (req : AppendEntriesRequest) : Decidable (n.Agrees req) :=
  decidable_of_iff
    (∀ e ∈ req.entries, e.index ≤ n.commitIndex →
      (n.store.logEntries.get e.index).all (fun row => decide (row.term = e.term)) = true)
    (by simp [Node.Agrees, Option.all_eq_true])

instance (n : Node) : DecidablePred (Operation.Guarded n) := fun op =>
  match op with
  | .append req => inferInstanceAs (Decidable (req.Numbered ∧ n.Agrees req))
  | .timeout | .win _ | .commitAlone | .vote _ | .snapshot _ | .observe _ | .build _
  | .appendReply _ _ _ _ | .snapshotReply _ _ _ | .client _ | .crash => isTrue trivial

instance Solo.decidableGuarded (json : Json) (o : Options) :
    ∀ (ops : List (Operation × List Outcome)) (s : Solo), Decidable (s.Guarded json o ops)
  | [], _ => isTrue trivial
  | (op, os) :: ops, s =>
      have := decidableGuarded json o ops (s.perform json o op os)
      inferInstanceAs (Decidable
        (op.Guarded s.node ∧ Solo.Guarded json o (s.perform json o op os) ops))

/-- Three entries of which two are committed, applied and compacted, a conflict at the
third, a crash, and a snapshot further up. -/
def countersRun : List (Operation × List Outcome) :=
  let cmd := (Command.setCommand "k" "v").encode Json.compact
  [(.append ⟨1, "b", 0, 0, [⟨1, 1, cmd⟩, ⟨2, 1, cmd⟩, ⟨3, 1, cmd⟩], 2⟩, []),
    (.append ⟨2, "b", 2, 1, [⟨3, 2, cmd⟩], 3⟩, [.commit, .commit, .commit, .fail]),
    (.crash, []), (.snapshot ⟨2, "b", 5, 2, Json.compact.marshal []⟩, [])]

theorem counters_ordered_truncated :
    let s := Solo.init.run Json.compact ⟨"a", ["b"], 1⟩ countersRun
    s.node.store.snapshotIndex = 5 ∧
      s.node.store.snapshotIndex ≤ s.node.lastApplied ∧
      s.node.lastApplied ≤ s.node.commitIndex ∧
      s.node.commitIndex ≤ s.node.store.lastIndex :=
  ⟨by decide +kernel,
    (counters_ordered Json.compact ⟨"a", ["b"], 1⟩ countersRun (by decide +kernel)).1⟩

end Run

end LogReplicator
