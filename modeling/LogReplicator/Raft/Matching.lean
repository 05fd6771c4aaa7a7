import LogReplicator.Raft.Identity
import LogReplicator.Raft.Solo

/-!
# Logs that agree at a position agree below it

A log is a chain: every entry was created behind the entry before it.  Index and
term determine an entry and its predecessor, so two chains that agree at one
position agree below it, as far as both reach down.

Two operations of the source can break the chain: a request whose entries start
above its previous position, built when the leader compacted in between, and a
snapshot that is installed under rows of another history.
-/

namespace LogReplicator

open Library

/-- Every entry of the log was created behind the entry before it. -/
structure Store.Chained (made : Entry → Nat → Prop) (s : Store) : Prop where
  link : ∀ i row t, s.logEntries.get (i + 1) = some row → s.term i = some t →
    made ⟨i + 1, row.term, row.command⟩ t
  origin : s.snapshotIndex = 0 → s.snapshotTerm = 0

/-- Every entry of the request was created behind the entry before it. -/
structure AppendEntriesRequest.Linked (made : Entry → Nat → Prop)
    (req : AppendEntriesRequest) : Prop where
  numbered : req.Numbered
  first : ∀ e ∈ req.entries, e.index = req.prevLogIndex + 1 → made e req.prevLogTerm
  next : ∀ d ∈ req.entries, ∀ e ∈ req.entries, e.index = d.index + 1 → made e d.term

section Stores

variable {made : Entry → Nat → Prop} {s s' : Store}

theorem Store.Chained.mono
    {made' : Entry → Nat → Prop}
    (h : s.Chained made)
    (hmade : ∀ e p, made e p → made' e p) :
    s.Chained made' :=
  ⟨fun i row t hrow ht => hmade _ _ (h.link i row t hrow ht), h.origin⟩

theorem AppendEntriesRequest.Linked.mono
    {made' : Entry → Nat → Prop} {req : AppendEntriesRequest}
    (h : req.Linked made)
    (hmade : ∀ e p, made e p → made' e p) :
    req.Linked made' :=
  ⟨h.numbered, fun e he hi => hmade _ _ (h.first e he hi),
    fun d hd e he hi => hmade _ _ (h.next d hd e he hi)⟩

/-- Moving the snapshot up to a known position keeps the terms from there on. -/
theorem Store.term_advance
    {index term i : Nat}
    (hindex : s.snapshotIndex < index)
    (hget : ∀ i, s'.logEntries.get i = if i ≤ index then none else s.logEntries.get i)
    (hposition : s'.snapshotIndex = index ∧ s'.snapshotTerm = term)
    (hknown : s.term index = some term)
    (hi : index ≤ i) :
    s'.term i = s.term i := by
  rcases hi.eq_or_lt with rfl | hlt
  · rw [hknown, ← hposition.1, term_snapshotIndex (by omega), hposition.2]
  · rw [term_eq_map (by omega), term_eq_map (by omega), hget, if_neg (by omega)]

/-- A snapshot keeps the chain when its position is known with its term, or when
no row is left above it. -/
theorem Store.Chained.advance
    {index term : Nat}
    (h : s.Chained made)
    (hindex : s.snapshotIndex < index)
    (hget : ∀ i, s'.logEntries.get i = if i ≤ index then none else s.logEntries.get i)
    (hposition : s'.snapshotIndex = index ∧ s'.snapshotTerm = term)
    (hknown : s.lastIndex ≤ index ∨ s.term index = some term) :
    s'.Chained made := by
  refine ⟨fun i row t hrow ht => ?_, fun hzero => by omega⟩
  rw [hget] at hrow
  split_ifs at hrow with hle
  rcases hknown with hlast | hknown
  · rw [get_of_lastIndex_lt (by omega)] at hrow
    cases hrow
  · rw [term_advance hindex hget hposition hknown (by omega)] at ht
    exact h.link i row t hrow ht

theorem Store.Chained.deleteFrom
    (h : s.Chained made)
    (index : Nat) :
    (s.deleteFrom index).Chained made := by
  refine ⟨fun i row t hrow ht => ?_, h.origin⟩
  rw [get_deleteFrom] at hrow
  split_ifs at hrow with hle
  rw [term_deleteFrom_of_lt (by omega)] at ht
  exact h.link i row t hrow ht

/-- A new entry goes behind the last one. -/
theorem Store.Chained.propose
    {e : Entry}
    (h : s.Chained made)
    (hordered : s.Ordered)
    (hindex : e.index = s.lastIndex + 1)
    (hmade : made e s.lastIndexAndTerm.2) :
    (s.appendEntries [e]).Chained made := by
  refine ⟨fun i row t hrow ht => ?_, h.origin⟩
  rcases get_appendEntries_cases s [e] (i + 1) with hold | ⟨d, hd, hi, hnew⟩
  · rw [hold] at hrow
    have hle := le_lastIndex_of_row hrow
    rw [term_appendEntries_of_notMem (by simp; omega)] at ht
    exact h.link i row t hrow ht
  · rw [List.mem_singleton] at hd
    subst hd
    rw [hnew, Option.some.injEq] at hrow
    have hlast : i = s.lastIndex := by omega
    rw [term_appendEntries_of_notMem (by simp; omega), hlast,
      hordered.term_lastIndex h.origin, Option.some.injEq] at ht
    subst hrow
    subst ht
    rw [← hi]
    exact hmade

end Stores

section Moves

variable {made : Entry → Nat → Prop} {env : Env} {l : Label} {n n' : Node}

/-- The entries a node stores continue the chain of its log. -/
theorem Store.Chained.store
    {req : AppendEntriesRequest} {es : List Entry}
    (h : n.store.Chained made)
    (hlinked : req.Linked made)
    (hes : ∀ e ∈ es, e ∈ req.entries)
    (hattached : { n with store := n.store.appendEntries es }.Attached req)
    (hholds : { n with store := n.store.appendEntries es }.Holds req.entries)
    (hold : ∀ i, i ≤ n.store.lastIndex → ∀ e ∈ es, e.index ≠ i) :
    (n.store.appendEntries es).Chained made := by
  refine ⟨fun i row t hrow ht => ?_, h.origin⟩
  rcases get_appendEntries_cases n.store es (i + 1) with hsame | ⟨d, hd, hi, hnew⟩
  · rw [hsame] at hrow
    have hle := le_lastIndex_of_row hrow
    rw [term_appendEntries_of_notMem (hold i (by omega))] at ht
    exact h.link i row t hrow ht
  · rw [hnew, Option.some.injEq] at hrow
    subst hrow
    have hmem := hes d hd
    have hd' : (⟨i + 1, d.term, d.command⟩ : Entry) = d := by rw [← hi]
    rw [hd']
    -- the entry before it is the previous entry of the request, or its prev position
    obtain ⟨hgt, hle⟩ := hlinked.numbered.mem_bounds hmem
    rcases Nat.eq_or_lt_of_le (show req.prevLogIndex ≤ i by omega) with hprev | hlt
    · have hterm := hattached.prev hlinked.numbered
      rw [hprev] at hterm
      have heq : t = req.prevLogTerm := by
        rw [ht] at hterm
        exact Option.some.inj hterm
      rw [heq]
      exact hlinked.first d hmem (by omega)
    · have hbefore : i ∈ req.entries.map Entry.index := by
        rw [hlinked.numbered, List.mem_range'_1]
        omega
      obtain ⟨d', hd'mem, hd'i⟩ := List.mem_map.mp hbefore
      have hterm := hholds d' hd'mem
      rw [hd'i] at hterm
      have heq : t = d'.term := by
        rw [ht] at hterm
        exact Option.some.inj hterm
      rw [heq]
      exact hlinked.next d' hd'mem d hmem (by omega)

/-- The snapshot fits the log it is installed on. -/
def Label.Fits : Label → Prop
  | .install req last known _ =>
      last ≤ req.lastIncludedIndex ∨ known = some req.lastIncludedTerm
  | _ => True

theorem Move.chained
    (hmove : Move env l n n')
    (hordered : n.store.Ordered)
    (hpropose : ∀ e p, l = .propose e p → made e p)
    (hstore : ∀ req missing, l = .store req missing → req.Linked made)
    (hfits : l.Fits)
    (h : n.store.Chained made) :
    n'.store.Chained made := by
  cases hmove with
  | propose _ => exact h.propose hordered rfl (hpropose _ _ rfl)
  | truncate _ _ _ _ => exact h.deleteFrom _
  | store hreq hlacks hnone =>
      have hlinked := hstore _ _ rfl
      have hnum := hlinked.numbered
      have hattached := hreq.store hlacks rfl
      rw [hlacks.filter_eq hnum] at hattached ⊢
      refine h.store hlinked ?_ hattached (hlacks.holds_store hnum) ?_
      · intro d hd
        rw [hlacks.split]
        exact List.mem_append_right _ hd
      · intro i hi d hd
        have hindex := hlacks.index_eq hreq hnum hnone hordered
        have := hnum.le_of_mem_post hlacks.split hd
        omega
  | compact _ happlied hterm =>
      exact h.advance happlied (Store.get_createSnapshot _ _ _ _) ⟨rfl, rfl⟩ (Or.inr hterm)
  | install _ hnew _ =>
      exact h.advance hnew (Store.get_installSnapshot _ _ _) ⟨rfl, rfl⟩ hfits
  | apply _ _ _ _ =>
      rw [Command.applyTo_eq]
      exact ⟨h.link, h.origin⟩
  | progress _ =>
      unfold Node.recordPeerProgressLocked
      split_ifs <;> exact h
  | _ => exact ⟨h.link, h.origin⟩

end Moves

section Agreement

variable {made : Entry → Nat → Prop} {s s' : Store}

/-- A row of a chain, with the term before it. -/
theorem Store.Chained.row
    (h : s.Chained made)
    (hordered : s.Ordered)
    {i : Nat} {row : LogRow}
    (hrow : s.logEntries.get (i + 1) = some row) :
    s.term (i + 1) = some row.term ∧
      ∃ t, s.term i = some t ∧ made ⟨i + 1, row.term, row.command⟩ t := by
  obtain ⟨habove, hlast⟩ := (hordered.rows (i + 1)).mp (by simp [hrow])
  have hknown : (s.term i).isSome := by
    rcases Nat.eq_zero_or_pos i with rfl | hpos
    · simp
    · exact (hordered.term_isSome_iff hpos).mpr ⟨by omega, by omega⟩
  obtain ⟨t, ht⟩ := Option.isSome_iff_exists.mp hknown
  exact ⟨term_of_row habove hrow, t, ht, h.link i row t hrow ht⟩

/-- Two chains that hold the same entry hold the same command and the same term
before it. -/
theorem Store.Chained.agree_row
    (hunique : ∀ e p e' p', made e p → made e' p' → e.index = e'.index →
      e.term = e'.term → e = e' ∧ p = p')
    (h : s.Chained made) (hordered : s.Ordered)
    (h' : s'.Chained made) (hordered' : s'.Ordered)
    {i : Nat} {row row' : LogRow}
    (hrow : s.logEntries.get (i + 1) = some row)
    (hrow' : s'.logEntries.get (i + 1) = some row')
    (hterm : s.term (i + 1) = s'.term (i + 1)) :
    s.term i = s'.term i ∧ row.command = row'.command := by
  obtain ⟨ht, p, hp, hmade⟩ := h.row hordered hrow
  obtain ⟨ht', p', hp', hmade'⟩ := h'.row hordered' hrow'
  rw [ht, ht', Option.some.injEq] at hterm
  obtain ⟨heq, rfl⟩ := hunique _ _ _ _ hmade hmade' rfl hterm
  exact ⟨hp.trans hp'.symm, congrArg Entry.command heq⟩

/-- Two chains that agree at a position agree below it. -/
theorem Store.Chained.agree
    (hunique : ∀ e p e' p', made e p → made e' p' → e.index = e'.index →
      e.term = e'.term → e = e' ∧ p = p')
    (h : s.Chained made) (hordered : s.Ordered)
    (h' : s'.Chained made) (hordered' : s'.Ordered)
    {i j t : Nat}
    (hi : s.term i = some t) (hi' : s'.term i = some t)
    (hji : j ≤ i) (hj : (s.term j).isSome) (hj' : (s'.term j).isSome) :
    s.term j = s'.term j ∧
      ∀ e e', s.entry j = some e → s'.entry j = some e' → e.command = e'.command := by
  have hrow : ∀ {s : Store}, s.Ordered → (s.term i).isSome → (s.term j).isSome →
      ∀ k, 0 < j → j < k → k ≤ i → ∃ row, s.logEntries.get k = some row := by
    intro s hordered hi hj k hpos hjk hki
    refine Option.isSome_iff_exists.mp ((hordered.rows k).mpr ?_)
    have := (hordered.term_isSome_iff hpos).mp hj
    have := (hordered.term_isSome_iff (i := i) (by omega)).mp hi
    omega
  have hterms : s.term j = s'.term j := by
    rcases Nat.eq_zero_or_pos j with rfl | hpos
    · simp
    -- from the common position down, one entry at a time
    obtain ⟨d, rfl⟩ := Nat.exists_eq_add_of_le hji
    clear hji
    have hdown : ∀ k, k ≤ d → s.term (j + (d - k)) = s'.term (j + (d - k)) := by
      intro k
      induction k with
      | zero =>
          intro _
          rw [Nat.sub_zero, hi, hi']
      | succ k ih =>
          intro hk
          have hsucc : j + (d - k) = j + (d - (k + 1)) + 1 := by omega
          obtain ⟨row, hr⟩ := hrow hordered (by simp [hi]) hj (j + (d - (k + 1)) + 1) hpos
            (by omega) (by omega)
          obtain ⟨row', hr'⟩ := hrow hordered' (by simp [hi']) hj' (j + (d - (k + 1)) + 1)
            hpos (by omega) (by omega)
          have hterm := ih (by omega)
          rw [hsucc] at hterm
          exact (h.agree_row hunique hordered h' hordered' hr hr' hterm).1
    simpa using hdown d le_rfl
  refine ⟨hterms, fun e e' he he' => ?_⟩
  obtain ⟨row, hr, rfl⟩ := Option.map_eq_some_iff.mp he
  obtain ⟨row', hr', rfl⟩ := Option.map_eq_some_iff.mp he'
  obtain ⟨habove, -⟩ := (hordered.rows j).mp (by simp [hr])
  obtain ⟨k, rfl⟩ : ∃ k, j = k + 1 := ⟨j - 1, by omega⟩
  exact (h.agree_row hunique hordered h' hordered' hr hr' hterms).2

end Agreement

namespace Cluster

/-- The logs of a run are chains of created entries. -/
structure Matching (made : Entry → Nat → Prop) (c : Cluster) : Prop where
  ordered : ∀ x, (c.node x).store.Ordered
  chained : ∀ x, (c.node x).store.Chained made
  sent : ∀ call ∈ c.calls, ∀ req, call.request = .append req → req.Linked made

/-- A snapshot that is installed fits the log of the node it reaches. -/
def SnapshotFits (c : Cluster) (call : Call) : Prop :=
  match call.request with
  | .snapshot req =>
      req.term < (c.node call.dst).currentTerm ∨
        req.lastIncludedIndex ≤ (c.node call.dst).store.snapshotIndex ∨
        (c.node call.dst).store.lastIndex ≤ req.lastIncludedIndex ∨
        (c.node call.dst).store.term req.lastIncludedIndex = some req.lastIncludedTerm
  | _ => True

/-- The step builds no request across a gap of the log, and installs no snapshot
under rows of another history. -/
def Gapless (c : Cluster) : Action → Prop
  | .sendEntries x p => (c.node x).store.snapshotIndex < (c.node x).nextIndexLocked p
  | .deliver id _ => ∀ call ∈ c.calls[id]?, c.SnapshotFits call
  | _ => True

section Step

variable {cfg : Config} {faulty : Prop}
variable {c c' : Cluster} {a : Action} {x : String} {ls : List Label}
variable {made : Entry → Nat → Prop}

theorem matching_init :
    Matching (fun _ _ => False) init where
  ordered := fun _ => Store.ordered_init
  chained := fun _ => ⟨by simp [init, node, startProc, Node.new, Store.init], fun _ => rfl⟩
  sent := by simp [init]

/-- A request built from a chain is linked. -/
theorem appendRequest_linked
    {n : Node} {o : Options} {p : String} {prevLogTerm : Nat}
    (hordered : n.store.Ordered)
    (hchained : n.store.Chained made)
    (hgap : n.store.snapshotIndex < n.nextIndexLocked p)
    (hprev : n.store.term (n.nextIndexLocked p - 1) = some prevLogTerm) :
    (n.appendRequest o p prevLogTerm).Linked made := by
  have hpos : 1 ≤ n.nextIndexLocked p := le_max_right _ _
  have hbatch : 0 < appendBatchSize := by decide
  have hindexes := hordered.entriesFrom_indexes (n.nextIndexLocked p) hbatch
  rw [max_eq_left (by omega)] at hindexes
  have hrow : ∀ e ∈ n.store.entriesFrom (n.nextIndexLocked p) appendBatchSize,
      n.store.snapshotIndex < e.index ∧
        n.store.logEntries.get e.index = some ⟨e.term, e.command⟩ := by
    intro e he
    obtain ⟨row, hrow, heq⟩ :=
      Option.map_eq_some_iff.mp (Store.entry_of_mem_entriesFrom he)
    have hget : n.store.logEntries.get e.index = some ⟨e.term, e.command⟩ := by
      rw [hrow, ← heq]
    exact ⟨((hordered.rows e.index).mp (by simp [hget])).1, hget⟩
  refine ⟨?_, fun e he hi => ?_, fun d hd e he hi => ?_⟩
  · have hlength := congrArg List.length hindexes
    rw [List.length_map, List.length_range'] at hlength
    show (n.store.entriesFrom (n.nextIndexLocked p) appendBatchSize).map Entry.index =
      List.range' (n.nextIndexLocked p - 1 + 1) _
    rw [hindexes, Nat.sub_add_cancel hpos, ← hlength]
    rfl
  · have hget := (hrow e he).2
    rw [hi] at hget
    have hlink := hchained.link _ _ _ hget hprev
    rw [← hi] at hlink
    exact hlink
  · have hget := (hrow e he).2
    rw [hi] at hget
    have hlink := hchained.link _ _ _ hget (Store.term_of_row (hrow d hd).1 (hrow d hd).2)
    rw [← hi] at hlink
    exact hlink

theorem Matching.step
    (h : Matching made c)
    (hgapless : c.Gapless a)
    (T : Transition cfg faulty c a c' x ls) :
    Matching (addMade made ls) c' := by
  have hmade : ∀ e p, made e p → addMade made ls e p := fun _ _ => Or.inl
  have hreceived : ∀ req, c.Received a x (.append req) → req.Linked made := by
    rintro req ⟨src, id, os, -, hcall⟩
    exact h.sent _ (List.mem_of_getElem? hcall) req rfl
  have hnode : (c'.node x).store.Ordered ∧ (c'.node x).store.Chained (addMade made ls) := by
    refine T.path.invariant
      (P := fun n => n.store.Ordered ∧ n.store.Chained (addMade made ls))
      ⟨h.ordered x, (h.chained x).mono hmade⟩ ?_
    rintro l hl n n' hmove ⟨hordered, hchained⟩
    have hjustified := T.justified l hl
    refine ⟨hmove.ordered ?_ hordered, hmove.chained hordered ?_ ?_ ?_ hchained⟩
    · cases l with
      | truncate req e => exact (hreceived req hjustified).numbered
      | store req missing => exact (hreceived req hjustified).numbered
      | _ => trivial
    · rintro e p rfl
      exact Or.inr hl
    · rintro req missing rfl
      exact (hreceived req hjustified).mono hmade
    · cases l with
      | install req last known applied =>
          obtain ⟨⟨src, id, os, rfl, hcall⟩, rfl, rfl, -, hterm, hnew⟩ := hjustified
          rcases hgapless _ hcall with hstale | hold | hfits
          · exact absurd hterm (not_le.mpr hstale)
          · exact absurd hnew (not_lt.mpr hold)
          · exact hfits
      | _ => trivial
  refine ⟨fun y => ?_, fun y => ?_, ?_⟩
  · by_cases hy : y = x
    · exact hy ▸ hnode.1
    · rw [T.frame y hy]
      exact h.ordered y
  · by_cases hy : y = x
    · exact hy ▸ hnode.2
    · rw [T.frame y hy]
      exact (h.chained y).mono hmade
  · obtain ⟨new, hcalls, hbuilt⟩ := T.calls
    intro call hcall req hreq
    rw [hcalls, List.mem_append] at hcall
    rcases hcall with hcall | hcall
    · exact (h.sent call hcall req hreq).mono hmade
    · cases hbuilt call hcall with
      | vote _ _ _ _ => cases hreq
      | snapshot _ _ _ _ => cases hreq
      | append haction _ _ hprev hsame =>
          cases hreq
          subst haction
          refine appendRequest_linked hnode.1 hnode.2 ?_ hprev
          rw [hsame]
          exact hgapless

end Step

section Runs

variable {cfg : Config} {as : List Action} {c : Cluster}

/-- In every run without gaps, with any failures of writes, two nodes that know
the same term at a position agree at every position below it that both hold. -/
theorem log_matching
    (halong : Along cfg (fun c a => c.TermsLeft a ∧ c.Gapless a) init as)
    (hexec : init.exec cfg as = some c) :
    ∀ x y i t, (c.node x).store.term i = some t → (c.node y).store.term i = some t →
      ∀ j, j ≤ i → ((c.node x).store.term j).isSome → ((c.node y).store.term j).isSome →
        (c.node x).store.term j = (c.node y).store.term j ∧
        ∀ e e', (c.node x).store.entry j = some e → (c.node y).store.entry j = some e' →
          e.command = e'.command := by
  have hok : ∀ c a, c.TermsLeft a ∧ c.Gapless a → Usual True c a :=
    fun _ _ h => ⟨fun _ => trivial, h.1⟩
  obtain ⟨g, made, -, hidentity, hmatching⟩ : ∃ g made, Elections cfg g c ∧
      Identity made c ∧ Matching made c := by
    refine exec_invariant (P := fun c => ∃ g made, Elections cfg g c ∧ Identity made c ∧
      Matching made c) hok ?_
      ⟨_, _, elections_init, identity_init, matching_init⟩ halong hexec
    rintro c a c' x ls hthreads hgapless T - ⟨g, made, helections, hidentity, hmatching⟩
    have helections' := helections.step hthreads T
    exact ⟨_, _, helections', hidentity.step helections helections' T,
      hmatching.step hgapless.2 T⟩
  intro x y i t hx hy j hji hjx hjy
  exact (hmatching.chained x).agree hidentity.unique (hmatching.ordered x)
    (hmatching.chained y) (hmatching.ordered y) hx hy hji hjx hjy

section Sample

open LogReplicator.Action

/-- Five members. -/
def quintet (snapshotThreshold : String → Nat) : Config where
  members := ["a", "b", "c", "d", "e"]
  snapshotThreshold := snapshotThreshold
  json := Json.compact
  nodup := by decide
  named := by decide

/-- `a` leads term 1 and replicates two entries to `b` only.  `c` leads term 2
without them, commits its own first entry, compacts it and sends `a` the
snapshot. -/
def snapshotUnderRows : List Action :=
  [campaign "a" [], deliver 0 [], deliver 1 [], countVote "a" "b" 0 ⟨1, true⟩ [],
    countVote "a" "c" 1 ⟨1, true⟩ [], winElection "a" []] ++
  proposal "a" 0 "k1" "v1" ++ proposal "a" 1 "k2" "v2" ++
  checks "a" "b" none ++ appendCall "a" "b" 4 1 2 true ++
  [campaign "c" [], deliver 7 [], deliver 8 [], countVote "c" "d" 7 ⟨2, true⟩ [],
    countVote "c" "e" 8 ⟨2, true⟩ [], winElection "c" []] ++
  proposal "c" 2 "k3" "v3" ++
  checks "c" "d" none ++ appendCall "c" "d" 9 2 1 true ++
  checks "c" "e" none ++ appendCall "c" "e" 10 2 1 true ++
  checks "c" "a" none ++ [sendSnapshot "c" "a", deliver 11 []]

/-- `InstallSnapshot` keeps the rows above the snapshot whatever their history:
`a` and `b` know the same term at 2 and different terms at 1. -/
theorem log_mismatch_of_snapshotUnderRows :
    ∃ c, init.exec (quintet fun x => if x = "c" then 1 else 0) snapshotUnderRows = some c ∧
      (c.node "a").store.term 2 = some 1 ∧ (c.node "b").store.term 2 = some 1 ∧
      (c.node "a").store.term 1 = some 2 ∧ (c.node "b").store.term 1 = some 1 := by
  have hrun : ((init.exec (quintet fun x => if x = "c" then 1 else 0)
      snapshotUnderRows).map fun c =>
        ((c.node "a").store.term 2, (c.node "b").store.term 2,
          (c.node "a").store.term 1, (c.node "b").store.term 1)) =
      some (some 1, some 1, some 2, some 1) := by
    decide +kernel
  obtain ⟨c, hexec, hterms⟩ := Option.map_eq_some_iff.mp hrun
  simp only [Prod.mk.injEq] at hterms
  exact ⟨c, hexec, hterms⟩

instance (c : Cluster) (call : Call) : Decidable (c.SnapshotFits call) :=
  match call with
  | ⟨_, _, .vote _⟩ => inferInstanceAs (Decidable True)
  | ⟨_, _, .append _⟩ => inferInstanceAs (Decidable True)
  | ⟨_, _, .snapshot _⟩ => inferInstanceAs (Decidable (_ ∨ _ ∨ _ ∨ _))

instance (c : Cluster) (a : Action) : Decidable (c.Gapless a) :=
  match a with
  | .sendEntries x p => inferInstanceAs
      (Decidable ((c.node x).store.snapshotIndex < (c.node x).nextIndexLocked p))
  | .deliver id _ => inferInstanceAs (Decidable (∀ call ∈ c.calls[id]?, c.SnapshotFits call))
  | .campaign .. | .countVote .. | .missVote .. | .loseElection .. | .winElection ..
  | .commitAlone .. | .replicate .. | .giveUp .. | .checkLeader .. | .checkSnapshot ..
  | .sendSnapshot .. | .callFails .. | .appendReply .. | .appendDone ..
  | .snapshotReply .. | .snapshotDone .. | .invoke .. | .route .. | .propose .. | .poll ..
  | .expire .. | .confirm .. | .readKey .. | .crash .. => inferInstanceAs (Decidable True)

/-- `a` leads term 1 and sends two entries to `b`. -/
def twoEntries : List Action :=
  elect "a" "b" 0 1 ++ proposal "a" 0 "k1" "v1" ++ proposal "a" 1 "k2" "v2" ++
    checks "a" "b" none ++ [sendEntries "a" "b", deliver 2 []]

/-- The nodes know the same term at 2, and so they have the same command at 1. -/
theorem log_matching_twoEntries :
    Along (trio fun _ => 0) (fun c a => c.TermsLeft a ∧ c.Gapless a) init twoEntries ∧
      ∃ c e e', init.exec (trio fun _ => 0) twoEntries = some c ∧
        (c.node "a").store.term 2 = some 1 ∧ (c.node "b").store.term 2 = some 1 ∧
        (c.node "a").store.entry 1 = some e ∧ (c.node "b").store.entry 1 = some e' ∧
        e.command = e'.command := by
  have halong : Along (trio fun _ => 0) (fun c a => c.TermsLeft a ∧ c.Gapless a) init
      twoEntries := by
    decide +kernel
  have hrun : ((init.exec (trio fun _ => 0) twoEntries).map fun c =>
      ((c.node "a").store.term 2, (c.node "b").store.term 2,
        (c.node "a").store.term 1, (c.node "b").store.term 1,
        ((c.node "a").store.entry 1).isSome, ((c.node "b").store.entry 1).isSome)) =
      some (some 1, some 1, some 1, some 1, true, true) := by
    decide +kernel
  obtain ⟨c, hexec, hstate⟩ := Option.map_eq_some_iff.mp hrun
  simp only [Prod.mk.injEq] at hstate
  obtain ⟨ha, hb, ha', hb', hentry, hentry'⟩ := hstate
  obtain ⟨e, he⟩ := Option.isSome_iff_exists.mp hentry
  obtain ⟨e', he'⟩ := Option.isSome_iff_exists.mp hentry'
  have hmatch := log_matching halong hexec "a" "b" 2 1 ha hb 1 (by decide) (by simp [ha'])
    (by simp [hb'])
  exact ⟨halong, c, e, e', hexec, ha, hb, he, he', hmatch.2 e e' he he'⟩

end Sample

end Runs

end Cluster

end LogReplicator
