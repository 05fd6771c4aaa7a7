import LogReplicator.Raft.Voting

/-!
# An entry is its index and its term

The entries ever created are kept as a ghost relation: `made e p` says that a
leader appended `e` to a log whose last entry had term `p`.  A term has one
leader, and as long as it leads, no entry of its term lies above its last index;
so index and term determine an entry and the term before it.
-/

namespace LogReplicator

open Library

/-- Every row of the log satisfies `R`. -/
def Node.Rows (n : Node) (R : Entry → Prop) : Prop :=
  ∀ i row, n.store.logEntries.get i = some row → R ⟨i, row.term, row.command⟩

section Moves

variable {env : Env} {l : Label} {n n' : Node} {R : Entry → Prop}

/-- The rows of a log are created or received. -/
theorem Move.rows
    (hmove : Move env l n n')
    (hpropose : ∀ e p, l = .propose e p → R e)
    (hstore : ∀ req missing, l = .store req missing → ∀ e ∈ req.entries, R e)
    (h : n.Rows R) :
    n'.Rows R := by
  have happend : ∀ es : List Entry, (∀ e ∈ es, R e) →
      n'.store.logEntries = (n.store.appendEntries es).logEntries → n'.Rows R := by
    intro es hes hlog i row hrow
    rw [hlog] at hrow
    rcases Store.get_appendEntries_cases n.store es i with hold | ⟨e, he, rfl, hnew⟩
    · exact h i row (hold ▸ hrow)
    · rw [hnew, Option.some.injEq] at hrow
      subst hrow
      exact hes e he
  have hfewer : (∀ i, n'.store.logEntries.get i = n.store.logEntries.get i ∨
      n'.store.logEntries.get i = none) → n'.Rows R := by
    intro hget i row hrow
    rcases hget i with hi | hi
    · exact h i row (hi ▸ hrow)
    · rw [hi] at hrow
      cases hrow
  cases hmove with
  | propose _ =>
      refine happend _ ?_ rfl
      simpa using hpropose _ _ rfl
  | store _ hlacks _ =>
      refine happend _ (fun d hd => hstore _ _ rfl d ?_) rfl
      rw [hlacks.split]
      exact List.mem_append_right _ (List.mem_of_mem_filter hd)
  | truncate _ _ _ _ =>
      refine hfewer fun i => ?_
      rw [Store.get_deleteFrom]
      split_ifs <;> simp
  | compact _ _ _ =>
      refine hfewer fun i => ?_
      rw [Store.get_createSnapshot]
      split_ifs <;> simp
  | install _ _ _ =>
      refine hfewer fun i => ?_
      rw [Store.get_installSnapshot]
      split_ifs <;> simp
  | apply _ _ _ _ =>
      rw [Command.applyTo_eq]
      exact h
  | progress _ =>
      unfold Node.recordPeerProgressLocked
      split_ifs <;> exact h
  | _ => exact h

/-- The log of a leader never gets shorter. -/
theorem Move.leader_lastIndex_le
    (hmove : Move env l n n')
    (hrole : n'.role = .leader) :
    n.store.lastIndex ≤ n'.store.lastIndex := by
  cases hmove with
  | propose _ =>
      exact (Nat.le_succ _).trans
        (Store.lastIndex_appendEntries_singleton (n.clientEntry _))
  | truncate hreq _ _ _ => exact absurd (hreq.role.symm.trans hrole) (by simp)
  | store hreq _ _ => exact absurd (hreq.role.symm.trans hrole) (by simp)
  | install hreq _ _ => exact absurd (hreq.role.symm.trans hrole) (by simp)
  | compact _ happlied _ => exact Store.lastIndex_le_createSnapshot _ happlied
  | apply _ _ _ _ =>
      rw [Command.applyTo_eq]
      exact le_rfl
  | progress _ =>
      unfold Node.recordPeerProgressLocked
      split_ifs <;> exact le_rfl
  | _ => exact le_rfl

/-- A leader was leader before in the same term, or has just been elected. -/
theorem Move.leader_cases
    (hmove : Move env l n n')
    (hrole : n'.role = .leader) :
    (n.role = .leader ∧ n'.currentTerm = n.currentTerm) ∨
      ∃ last s log, l = .lead n'.currentTerm last s log := by
  have hself := hmove
  cases hmove with
  | raise _ => cases hrole
  | raiseUnsaved _ _ => cases hrole
  | follow => cases hrole
  | campaign _ _ => cases hrole
  | campaignUnsaved _ _ _ => cases hrole
  | restart => cases hrole
  | lead _ _ => exact Or.inr ⟨_, _, _, rfl⟩
  | _ => exact Or.inl ⟨(hself.role_eq trivial).symm.trans hrole, hself.currentTerm_eq trivial⟩

end Moves

namespace Cluster

/-- The entries created so far. -/
structure Identity (made : Entry → Nat → Prop) (c : Cluster) : Prop where
  unique : ∀ e p e' p', made e p → made e' p' → e.index = e'.index →
    e.term = e'.term → e = e' ∧ p = p'
  won : ∀ e p, made e p → ∃ x, c.Won x e.term
  rows : ∀ x, (c.node x).Rows fun e => ∃ p, made e p
  sent : ∀ call ∈ c.calls, ∀ req, call.request = .append req →
    ∀ e ∈ req.entries, ∃ p, made e p
  bound : ∀ x, (c.node x).role = .leader → ∀ e p, made e p →
    e.term = (c.node x).currentTerm → e.index ≤ (c.node x).store.lastIndex

section Step

variable {cfg : Config} {faulty : Prop}
variable {c c' : Cluster} {a : Action} {x : String} {ls : List Label}
variable {g : String → Nat → String → Prop} {made : Entry → Nat → Prop}

/-- The entries after a step: those before it and the one it proposes. -/
def addMade (made : Entry → Nat → Prop) (ls : List Label) (e : Entry) (p : Nat) : Prop :=
  made e p ∨ .propose e p ∈ ls

theorem identity_init :
    Identity (fun _ _ => False) init where
  unique := by simp
  won := by simp
  rows := by
    intro x i row hrow
    simp [init, node, startProc, Node.new, Store.init] at hrow
  sent := by simp [init]
  bound := by simp

theorem won_mono
    (T : Transition cfg faulty c a c' x ls)
    {y : String} {t : Nat}
    (h : c.Won y t) :
    c'.Won y t :=
  (T.won_iff y t).mpr (Or.inl h)

/-- A step creates one entry, right after the log of the leader. -/
theorem Transition.proposed
    (T : Transition cfg faulty c a c' x ls)
    {e : Entry} {p : Nat}
    (he : .propose e p ∈ ls) :
    (c.node x).role = .leader ∧ e.index = (c.node x).store.lastIndex + 1 ∧
      e.term = (c.node x).currentTerm ∧
      ∀ e' p', .propose e' p' ∈ ls → e' = e ∧ p' = p := by
  obtain ⟨hrole, rfl, i, os, op, cmd, rfl, hop, -, -, -, hcmd, rfl⟩ := T.justified _ he
  refine ⟨hrole, rfl, rfl, fun e' p' he' => ?_⟩
  obtain ⟨-, rfl, i', os', op', cmd', ha, hop', -, -, -, hcmd', rfl⟩ := T.justified _ he'
  cases ha
  rw [hop, Option.some.injEq] at hop'
  subst hop'
  rw [hcmd, Option.some.injEq] at hcmd'
  exact ⟨by rw [hcmd'], rfl⟩

theorem Identity.unique_step
    (h : Identity made c)
    (T : Transition cfg faulty c a c' x ls) :
    ∀ e p e' p', addMade made ls e p → addMade made ls e' p' →
      e.index = e'.index → e.term = e'.term → e = e' ∧ p = p' := by
  -- a new entry lies above all entries of its term
  have hnew : ∀ e p e' p', made e p → .propose e' p' ∈ ls → e.term = e'.term →
      e.index ≠ e'.index := by
    intro e p e' p' he he' hterm
    obtain ⟨hrole, hindex, hterm', -⟩ := T.proposed he'
    have := h.bound x hrole e p he (hterm.trans hterm')
    omega
  rintro e p e' p' (he | he) (he' | he') hindex hterm
  · exact h.unique e p e' p' he he' hindex hterm
  · exact absurd hindex (hnew e p e' p' he he' hterm)
  · exact absurd hindex.symm (hnew e' p' e p he' he hterm.symm)
  · exact (T.proposed he').2.2.2 e p he

theorem Identity.rows_step
    (h : Identity made c)
    (T : Transition cfg faulty c a c' x ls) :
    (c'.node x).Rows fun e => ∃ p, addMade made ls e p := by
  have hstart : (c.node x).Rows fun e => ∃ p, addMade made ls e p := by
    intro i row hrow
    obtain ⟨p, hp⟩ := h.rows x i row hrow
    exact ⟨p, Or.inl hp⟩
  refine T.path.invariant (P := fun n => n.Rows fun e => ∃ p, addMade made ls e p)
    hstart ?_
  intro l hl n n' hmove hn
  refine hmove.rows ?_ ?_ hn
  · rintro e p rfl
    exact ⟨p, Or.inr hl⟩
  · rintro req missing rfl e he
    obtain ⟨src, id, os, -, hcall⟩ := T.justified _ hl
    obtain ⟨p, hp⟩ := h.sent _ (List.mem_of_getElem? hcall) req rfl e he
    exact ⟨p, Or.inl hp⟩

/-- No entry of the term of a leader lies above its log. -/
theorem Identity.bound_step
    (h : Identity made c)
    (helections : Elections cfg g c)
    (helections' : Elections cfg (addVotes g x ls) c')
    (T : Transition cfg faulty c a c' x ls) :
    (c'.node x).role = .leader → ∀ e p, addMade made ls e p →
      e.term = (c'.node x).currentTerm → e.index ≤ (c'.node x).store.lastIndex := by
  refine T.path.accumulate
    (I := fun pre n => n.role = .leader → ∀ e p, addMade made pre e p →
      e.term = n.currentTerm → e.index ≤ n.store.lastIndex)
    (by simpa [addMade] using h.bound x) ?_
  intro pre l n n' hpre hmove hn hrole e p he hterm
  have hlast := hmove.leader_lastIndex_le hrole
  have hl : l ∈ ls := hpre.subset (by simp)
  rcases hmove.leader_cases hrole with ⟨hrole', hterm'⟩ | ⟨last, s, log, rfl⟩
  · -- the leader keeps its entries; a new one is the last of its log
    have hold : addMade made pre e p → e.index ≤ n'.store.lastIndex :=
      fun he => (hn hrole' e p he (hterm.trans hterm')).trans hlast
    rcases he with he | he
    · exact hold (Or.inl he)
    · rcases List.mem_append.mp he with he | he
      · exact hold (Or.inr he)
      · rw [← List.mem_singleton.mp he] at hmove
        cases hmove
        exact Store.lastIndex_appendEntries_singleton _
  · -- nobody created an entry in a term that is only now won
    obtain ⟨hcandidate, hcurrent, -⟩ := T.justified _ hl
    have hwon : c'.Won x n'.currentTerm := (T.won_iff x _).mpr (Or.inr ⟨rfl, _, _, _, hl⟩)
    rcases he with he | he
    · obtain ⟨y, hy⟩ := h.won e p he
      rw [hterm] at hy
      have hyx : y = x := helections'.winner_unique (won_mono T hy) hwon
      exact absurd hcandidate (((helections.leads x).spent _ (hyx ▸ hy)).2 hcurrent)
    · have hmem : .propose e p ∈ ls := by
        refine hpre.subset (List.mem_append_left _ ?_)
        simpa using he
      exact absurd ((T.proposed hmem).1.symm.trans hcandidate) (by simp)

theorem Identity.step
    (h : Identity made c)
    (helections : Elections cfg g c)
    (helections' : Elections cfg (addVotes g x ls) c')
    (T : Transition cfg faulty c a c' x ls) :
    Identity (addMade made ls) c' := by
  have hrows := h.rows_step T
  have hwon : ∀ e p, .propose e p ∈ ls → c.Won x e.term := by
    intro e p he
    obtain ⟨hrole, -, hterm, -⟩ := T.proposed he
    rw [hterm]
    exact (helections.leads x).leader hrole
  refine ⟨h.unique_step T, ?_, fun y => ?_, ?_, fun y => ?_⟩
  · rintro e p (he | he)
    · obtain ⟨y, hy⟩ := h.won e p he
      exact ⟨y, won_mono T hy⟩
    · exact ⟨x, won_mono T (hwon e p he)⟩
  · by_cases hy : y = x
    · exact hy ▸ hrows
    · intro i row hrow
      rw [T.frame y hy] at hrow
      obtain ⟨p, hp⟩ := h.rows y i row hrow
      exact ⟨p, Or.inl hp⟩
  · obtain ⟨new, hcalls, hbuilt⟩ := T.calls
    intro call hcall req hreq e he
    rw [hcalls, List.mem_append] at hcall
    rcases hcall with hcall | hcall
    · obtain ⟨p, hp⟩ := h.sent call hcall req hreq e he
      exact ⟨p, Or.inl hp⟩
    · -- what is sent was read from the log
      cases hbuilt call hcall with
      | vote _ _ _ _ => cases hreq
      | snapshot _ _ _ _ => cases hreq
      | append _ _ _ _ _ =>
          cases hreq
          have hentry := Store.entry_of_mem_entriesFrom he
          obtain ⟨row, hrow, heq⟩ := Option.map_eq_some_iff.mp hentry
          rw [← heq]
          exact hrows _ row hrow
  · by_cases hy : y = x
    · subst hy
      exact h.bound_step helections helections' T
    · rw [T.frame y hy]
      rintro hrole e p (he | he) hterm
      · exact h.bound y hrole e p he hterm
      · have hwon' := (helections.leads y).leader hrole
        rw [← hterm] at hwon'
        exact absurd (helections.winner_unique hwon' (hwon e p he)) hy

end Step

section Runs

variable {cfg : Config} {faulty : Prop}
variable {ok : Cluster → Action → Prop} {as : List Action} {c c₀ : Cluster}

/-- Votes and entries along a run; nothing that was created is forgotten. -/
theorem exec_identity
    {g₀ : String → Nat → String → Prop} {made₀ : Entry → Nat → Prop}
    (hok : ∀ c a, ok c a → Usual faulty c a)
    (hthreads : c₀.Threads cfg)
    (helections : Elections cfg g₀ c₀)
    (hidentity : Identity made₀ c₀)
    (halong : Along cfg ok c₀ as)
    (hexec : c₀.exec cfg as = some c) :
    c.Threads cfg ∧
      ∃ g made, Elections cfg g c ∧ Identity made c ∧ ∀ e p, made₀ e p → made e p := by
  refine exec_invariant_from (P := fun c => ∃ g made, Elections cfg g c ∧
    Identity made c ∧ ∀ e p, made₀ e p → made e p) hok ?_ hthreads
    ⟨g₀, made₀, helections, hidentity, fun _ _ h => h⟩ halong hexec
  rintro c a c' x ls hthreads - T - ⟨g, made, helections, hidentity, hmade⟩
  have helections' := helections.step hthreads T
  exact ⟨_, _, helections', hidentity.step helections helections' T,
    fun e p he => Or.inl (hmade e p he)⟩

/-- The entry is in the log of a node or in an `AppendEntries` request. -/
def Present (c : Cluster) (e : Entry) : Prop :=
  (∃ x, (c.node x).store.entry e.index = some e) ∨
    ∃ call ∈ c.calls, ∃ req, call.request = .append req ∧ e ∈ req.entries

theorem Identity.present
    {made : Entry → Nat → Prop} {e : Entry}
    (h : Identity made c)
    (he : c.Present e) :
    ∃ p, made e p := by
  rcases he with ⟨x, hx⟩ | ⟨call, hcall, req, hreq, he⟩
  · obtain ⟨row, hrow, heq⟩ := Option.map_eq_some_iff.mp hx
    rw [← heq]
    exact h.rows x _ row hrow
  · exact h.sent call hcall req hreq e he

/-- An entry seen at a moment of a run is among those created in the run. -/
theorem made_of_present
    (hok : ∀ c a, ok c a → Usual faulty c a)
    (halong : Along cfg ok init as)
    (hexec : init.exec cfg as = some c)
    {as₁ as₂ : List Action} {c₁ c₂ : Cluster} {e₁ e₂ : Entry}
    (hmoment₂ : as₂ <+: as)
    (hmoment : as₁ <+: as₂)
    (hexec₁ : init.exec cfg as₁ = some c₁)
    (hexec₂ : init.exec cfg as₂ = some c₂)
    (he₁ : c₁.Present e₁)
    (he₂ : c₂.Present e₂) :
    ∃ made, Identity made c₂ ∧ (∃ p, made e₁ p) ∧ ∃ p, made e₂ p := by
  obtain ⟨halong₂, -⟩ := exec_moment hmoment₂ halong hexec hexec₂
  obtain ⟨halong₁, rest, hrest, hexec'⟩ := exec_moment hmoment halong₂ hexec₂ hexec₁
  obtain ⟨hthreads, g₁, made₁, helections, hidentity, -⟩ :=
    exec_identity hok threads_init elections_init identity_init halong₁ hexec₁
  obtain ⟨-, g₂, made₂, -, hidentity₂, hmade⟩ :=
    exec_identity hok hthreads helections hidentity hrest hexec'
  obtain ⟨p, hp⟩ := hidentity.present he₁
  exact ⟨made₂, hidentity₂, ⟨p, hmade e₁ p hp⟩, hidentity₂.present he₂⟩

/-- In every run, with any failures of writes, two entries with the same index
and the same term, seen anywhere at any two moments, carry the same command. -/
theorem entry_identity
    (hterms : Along cfg TermsLeft init as)
    (hexec : init.exec cfg as = some c) :
    ∀ as₁ as₂ c₁ c₂ e₁ e₂,
      as₁ <+: as → init.exec cfg as₁ = some c₁ →
      as₂ <+: as → init.exec cfg as₂ = some c₂ →
      c₁.Present e₁ → c₂.Present e₂ →
      e₁.index = e₂.index → e₁.term = e₂.term → e₁.command = e₂.command := by
  have hok : ∀ c a, TermsLeft c a → Usual True c a := fun _ _ h => ⟨fun _ => trivial, h⟩
  intro as₁ as₂ c₁ c₂ e₁ e₂ hp₁ hexec₁ hp₂ hexec₂ he₁ he₂ hindex hterm
  -- of two moments one is the earlier
  rcases List.prefix_or_prefix_of_prefix hp₁ hp₂ with hle | hle
  · obtain ⟨made, h, ⟨p₁, h₁⟩, p₂, h₂⟩ :=
      made_of_present hok hterms hexec hp₂ hle hexec₁ hexec₂ he₁ he₂
    rw [(h.unique e₁ p₁ e₂ p₂ h₁ h₂ hindex hterm).1]
  · obtain ⟨made, h, ⟨p₂, h₂⟩, p₁, h₁⟩ :=
      made_of_present hok hterms hexec hp₁ hle hexec₂ hexec₁ he₂ he₁
    rw [(h.unique e₁ p₁ e₂ p₂ h₁ h₂ hindex hterm).1]

section Sample

open LogReplicator.Action

/-- `a` leads term 1 and sends its first entry to `b`. -/
def firstEntry : List Action :=
  elect "a" "b" 0 1 ++ proposal "a" 0 "k1" "v1" ++ checks "a" "b" none ++
    [sendEntries "a" "b", deliver 2 []]

/-- The entry in the log of `a` and the one in the log of `b`, and what follows
for their commands. -/
theorem entry_identity_firstEntry :
    Along (trio fun _ => 0) TermsLeft init firstEntry ∧
      ∃ c e e', init.exec (trio fun _ => 0) firstEntry = some c ∧
        (c.node "a").store.entry 1 = some e ∧ (c.node "b").store.entry 1 = some e' ∧
        e.command = e'.command := by
  have hterms : Along (trio fun _ => 0) TermsLeft init firstEntry := by decide +kernel
  have hrun : ((init.exec (trio fun _ => 0) firstEntry).map fun c =>
      (((c.node "a").store.entry 1).map fun e => (e.index, e.term),
        ((c.node "b").store.entry 1).map fun e => (e.index, e.term))) =
      some (some (1, 1), some (1, 1)) := by
    decide +kernel
  obtain ⟨c, hexec, hentries⟩ := Option.map_eq_some_iff.mp hrun
  obtain ⟨ha, hb⟩ := Prod.mk.inj hentries
  obtain ⟨e, he, hpos⟩ := Option.map_eq_some_iff.mp ha
  obtain ⟨e', he', hpos'⟩ := Option.map_eq_some_iff.mp hb
  obtain ⟨hi, ht⟩ := Prod.mk.inj hpos
  obtain ⟨hi', ht'⟩ := Prod.mk.inj hpos'
  refine ⟨hterms, c, e, e', hexec, he, he', ?_⟩
  exact entry_identity hterms hexec firstEntry firstEntry c c e e'
    (List.prefix_refl _) hexec (List.prefix_refl _) hexec
    (Or.inl ⟨"a", by rw [hi]; exact he⟩) (Or.inl ⟨"b", by rw [hi']; exact he'⟩)
    (hi.trans hi'.symm) (ht.trans ht'.symm)

end Sample

end Runs

end Cluster

end LogReplicator
