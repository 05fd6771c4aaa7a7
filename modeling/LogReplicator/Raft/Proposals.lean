import LogReplicator.Raft.Calls
import LogReplicator.Raft.Identity

/-!
# An entry belongs to one client call

Entries are created by client calls.  A call that has created its entry waits for it
or has returned, so it creates no other; and an entry lies above all entries of its
term when it is created, so no other call has created it.  Whatever fails, a command
of a client is in the log at most once.
-/

namespace LogReplicator

open Library

namespace Cluster

/-- The calls for which the entries were created. -/
structure Owners (cfg : Config) (made : Entry → Nat → Prop) (own : Nat → Entry → Prop)
    (c : Cluster) : Prop where
  owned : ∀ e p, made e p → ∃ i, own i e
  made : ∀ i e, own i e → ∃ p, made e p
  past : ∀ i e, own i e → ∃ op cmd, c.ops[i]? = some op ∧ 2 ≤ op.phase.rank ∧
    op.request.command = some cmd ∧ op.request.key ≠ "" ∧ e.command = cmd.encode cfg.json
  once : ∀ i e e', own i e → own i e' → e = e'
  owner : ∀ i j e, own i e → own j e → i = j

/-- The owners after a step. -/
def addOwn (own : Nat → Entry → Prop) (a : Action) (ls : List Label) (i : Nat) (e : Entry) :
    Prop :=
  own i e ∨ ∃ os p, a = .propose i os ∧ .propose e p ∈ ls

section Step

variable {cfg : Config} {faulty : Prop} {c c' : Cluster} {a : Action} {x : String}
variable {ls : List Label} {made : Entry → Nat → Prop} {own : Nat → Entry → Prop}

theorem owners_init :
    Owners cfg (fun _ _ => False) (fun _ _ => False) init :=
  ⟨by simp, by simp, by simp, by simp, by simp⟩

/-- A call that has tried to append its entry does not try again. -/
theorem propose_rank
    {i : Nat} {os : List Outcome} {op : ClientOp}
    (hstep : c.step cfg (.propose i os) = some c')
    (hop : c'.ops[i]? = some op) :
    2 ≤ op.phase.rank := by
  have hclient : c.clientStep cfg (.propose i os) = some c' := hstep
  simp only [clientStep] at hclient
  split at hclient
  · next d hd =>
      obtain ⟨hlt, -⟩ := List.getElem?_eq_some_iff.mp hd
      split at hclient
      · cases hclient
        unfold runSection at hop
        split at hop
        · next r n os' _ =>
            rcases r with status | ⟨entry, term⟩
            · rw [ops_finish, ops_setNode, ops_record, List.getElem?_set_self hlt] at hop
              cases hop
              simp [Phase.rank]
            · rw [ops_setPhase, ops_setNode, ops_record, List.getElem?_set_self hlt] at hop
              cases hop
              simp [Phase.rank]
        · simp only [restart, ops_record, List.getElem?_map, hd, Option.map_some,
            Option.some.injEq, if_true] at hop
          subst hop
          simp [Phase.rank]
      · cases hclient
  · cases hclient

/-- The call of a new entry, before the step. -/
theorem Transition.proposes
    (T : Transition cfg faulty c a c' x ls)
    {i : Nat} {e : Entry} {os : List Outcome} {p : Nat}
    (ha : a = .propose i os)
    (he : .propose e p ∈ ls) :
    ∃ op cmd, c.ops[i]? = some op ∧ op.node = x ∧ op.phase = .proposing ∧
      op.request.command = some cmd ∧ op.request.key ≠ "" ∧
      e = (c.node x).clientEntry (cmd.encode cfg.json) := by
  obtain ⟨-, -, j, os', op, cmd, ha', hop, hnode, hphase, hkey, hcmd, hentry⟩ :=
    T.justified _ he
  rw [ha] at ha'
  cases ha'
  exact ⟨op, cmd, hop, hnode, hphase, hcmd, hkey, hentry⟩

/-- What is said of a call of the past stays true of it. -/
theorem Owners.past_step
    (h : Owners cfg made own c)
    (T : Transition cfg faulty c a c' x ls)
    (hstep : c.step cfg a = some c')
    {i : Nat} {e : Entry}
    (he : addOwn own a ls i e) :
    ∃ op cmd, c'.ops[i]? = some op ∧ 2 ≤ op.phase.rank ∧
      op.request.command = some cmd ∧ op.request.key ≠ "" ∧
      e.command = cmd.encode cfg.json := by
  obtain ⟨new, hcalls, -⟩ := step_tends hstep
  rcases he with he | ⟨os, p, rfl, he⟩
  · obtain ⟨op, cmd, hop, hrank, hcmd, hkey, hencode⟩ := h.past i e he
    obtain ⟨op', hop', honward⟩ := hcalls.onward hop
    exact ⟨op', cmd, hop', hrank.trans honward.rank, honward.request ▸ hcmd,
      honward.request ▸ hkey, hencode⟩
  · obtain ⟨op, cmd, hop, -, -, hcmd, hkey, rfl⟩ := T.proposes rfl he
    obtain ⟨op', hop', honward⟩ := hcalls.onward hop
    exact ⟨op', cmd, hop', propose_rank hstep hop', honward.request ▸ hcmd,
      honward.request ▸ hkey, rfl⟩

/-- A call of the past creates nothing more. -/
theorem Owners.not_proposes
    (h : Owners cfg made own c)
    (T : Transition cfg faulty c a c' x ls)
    {i : Nat} {e e' : Entry} {os : List Outcome} {p : Nat}
    (he : own i e)
    (ha : a = .propose i os) :
    .propose e' p ∉ ls := by
  intro he'
  obtain ⟨op, -, hop, hrank, -⟩ := h.past i e he
  obtain ⟨op', -, hop', -, hphase, -⟩ := T.proposes ha he'
  rw [hop, Option.some.injEq] at hop'
  rw [hop', hphase] at hrank
  exact absurd hrank (by decide)

/-- An entry that exists is not created again. -/
theorem Identity.not_proposes
    (h : Identity made c)
    (T : Transition cfg faulty c a c' x ls)
    {e : Entry} {p p' : Nat}
    (he : made e p) :
    .propose e p' ∉ ls := by
  intro he'
  obtain ⟨hrole, hindex, hterm, -⟩ := T.proposed he'
  have := h.bound x hrole e p he hterm
  omega

theorem Owners.step
    (h : Owners cfg made own c)
    (hidentity : Identity made c)
    (T : Transition cfg faulty c a c' x ls)
    (hstep : c.step cfg a = some c') :
    Owners cfg (addMade made ls) (addOwn own a ls) c' := by
  refine ⟨?_, ?_, fun i e he => h.past_step T hstep he, ?_, ?_⟩
  · rintro e p (he | he)
    · exact (h.owned e p he).imp fun i hi => Or.inl hi
    · obtain ⟨-, -, i, os, op, cmd, ha, -⟩ := T.justified _ he
      exact ⟨i, Or.inr ⟨os, p, ha, he⟩⟩
  · rintro i e (he | ⟨os, p, -, he⟩)
    · exact (h.made i e he).imp fun p hp => Or.inl hp
    · exact ⟨p, Or.inr he⟩
  · rintro i e e' (he | ⟨os, p, ha, he⟩) (he' | ⟨os', p', ha', he'⟩)
    · exact h.once i e e' he he'
    · exact absurd he' (h.not_proposes T he ha')
    · exact absurd he (h.not_proposes T he' ha)
    · exact ((T.proposed he').2.2.2 e p he).1
  · rintro i j e (he | ⟨os, p, ha, he⟩) (he' | ⟨os', p', ha', he'⟩)
    · exact h.owner i j e he he'
    · obtain ⟨q, hq⟩ := h.made i e he
      exact absurd he' (hidentity.not_proposes T hq)
    · obtain ⟨q, hq⟩ := h.made j e he'
      exact absurd he (hidentity.not_proposes T hq)
    · cases ha.symm.trans ha'
      rfl

end Step

/-- The entries of a run that can be seen at some moment, with the calls invoked by
then. -/
def Seen (cfg : Config) (as : List Action) (e : Entry) (k : Nat) : Prop :=
  ∃ as₁ c₁, as₁ <+: as ∧ init.exec cfg as₁ = some c₁ ∧ c₁.Present e ∧ c₁.ops.length = k

section Runs

variable {cfg : Config} {as : List Action} {c : Cluster}

theorem Owners.lt_length
    {made : Entry → Nat → Prop} {own : Nat → Entry → Prop} {i : Nat} {e : Entry}
    (h : Owners cfg made own c)
    (he : own i e) :
    i < c.ops.length := by
  obtain ⟨op, -, hop, -⟩ := h.past i e he
  exact (List.getElem?_eq_some_iff.mp hop).1

/-- The owners along a run, with any failures of writes. -/
theorem exec_owners
    (hterms : Along cfg TermsLeft init as)
    (hexec : init.exec cfg as = some c) :
    c.Threads cfg ∧ ∃ g made own, Elections cfg g c ∧ Identity made c ∧
      Owners cfg made own c ∧ ∀ e k, Seen cfg as e k → ∃ i < k, own i e := by
  induction as using List.reverseRecOn generalizing c with
  | nil =>
      cases hexec
      refine ⟨threads_init, _, _, _, elections_init, identity_init, owners_init, ?_⟩
      rintro e k ⟨as₁, c₁, hpart, hexec₁, hpresent, -⟩
      obtain rfl := List.prefix_nil.mp hpart
      cases hexec₁
      exact (identity_init.present hpresent).elim fun _ h => h.elim
  | append_singleton as a ih =>
      obtain ⟨c₁, hexec₁, hstep⟩ := exec_concat.mp hexec
      obtain ⟨hbefore, hlast⟩ := along_append hterms
      obtain ⟨hthreads, g, made, own, hvotes, hidentity, howners, hseen⟩ := ih hbefore hexec₁
      obtain ⟨x, ls, T, hthreads'⟩ : c₁.Next cfg True a c :=
        step_next hthreads (fun _ => trivial) (hlast c₁ hexec₁).1 hstep
      have hvotes' := hvotes.step hthreads T
      have hidentity' := hidentity.step hvotes hvotes' T
      have howners' := howners.step hidentity T hstep
      refine ⟨hthreads', _, _, _, hvotes', hidentity', howners', ?_⟩
      rintro e k ⟨as₂, c₂, hpart, hexec₂, hpresent, rfl⟩
      rcases List.prefix_concat_iff.mp hpart with rfl | hpart
      · cases hexec.symm.trans hexec₂
        obtain ⟨p, hp⟩ := hidentity'.present hpresent
        obtain ⟨i, hi⟩ := howners'.owned e p hp
        exact ⟨i, howners'.lt_length hi, hi⟩
      · obtain ⟨i, hlt, hi⟩ := hseen e _ ⟨as₂, c₂, hpart, hexec₂, hpresent, rfl⟩
        exact ⟨i, hlt, Or.inl hi⟩

/-- In every run, with any failures of writes, every entry that is ever in a log or in a
request belongs to a client call that was invoked before and whose command it carries,
and no two of them belong to one call. -/
theorem entries_owned
    (hterms : Along cfg TermsLeft init as)
    (hexec : init.exec cfg as = some c) :
    ∃ owner : Entry → Nat,
      (∀ e k, Seen cfg as e k → owner e < k ∧ ∃ op cmd, c.ops[owner e]? = some op ∧
        op.request.command = some cmd ∧ e.command = cmd.encode cfg.json) ∧
      ∀ e e' k k', Seen cfg as e k → Seen cfg as e' k' → owner e = owner e' → e = e' := by
  classical
  obtain ⟨-, g, made, own, -, -, howners, hseen⟩ := exec_owners hterms hexec
  have howner : ∀ e, ∃ i, ∀ k, Seen cfg as e k → own i e ∧ i < k := by
    intro e
    by_cases h : ∃ i, own i e
    · obtain ⟨i, hi⟩ := h
      refine ⟨i, fun k hk => ⟨hi, ?_⟩⟩
      obtain ⟨j, hj, hown⟩ := hseen e k hk
      exact howners.owner i j e hi hown ▸ hj
    · exact ⟨0, fun k hk => absurd ((hseen e k hk).imp fun _ hi => hi.2) h⟩
  choose owner howner using howner
  refine ⟨owner, fun e k hk => ⟨(howner e k hk).2, ?_⟩, fun e e' k k' hk hk' heq => ?_⟩
  · obtain ⟨op, cmd, hop, -, hcmd, -, hencode⟩ := howners.past _ e (howner e k hk).1
    exact ⟨op, cmd, hop, hcmd, hencode⟩
  · exact howners.once (owner e) e e' (howner e k hk).1 (heq ▸ (howner e' k' hk').1)

/-- The entry in the logs of `a` and `b` belongs to call 0. -/
theorem entries_owned_firstEntry :
    ∃ c e, init.exec (trio fun _ => 0) firstEntry = some c ∧
      (c.node "b").store.entry 1 = some e ∧
      ∃ owner : Entry → Nat, owner e < 1 ∧
        ∀ e' k', Seen (trio fun _ => 0) firstEntry e' k' → owner e = owner e' → e = e' := by
  have hterms : Along (trio fun _ => 0) TermsLeft init firstEntry := by decide +kernel
  have hrun : ((init.exec (trio fun _ => 0) firstEntry).map fun c =>
      (((c.node "b").store.entry 1).map fun e => e.index, c.ops.length)) =
      some (some 1, 1) := by
    decide +kernel
  obtain ⟨c, hexec, hstate⟩ := Option.map_eq_some_iff.mp hrun
  obtain ⟨hentry, hlength⟩ := Prod.mk.inj hstate
  obtain ⟨e, he, hindex⟩ := Option.map_eq_some_iff.mp hentry
  obtain ⟨owner, howned, honce⟩ := entries_owned hterms hexec
  have hseen : Seen (trio fun _ => 0) firstEntry e 1 :=
    ⟨_, c, List.prefix_refl _, hexec, Or.inl ⟨"b", by rw [hindex]; exact he⟩, hlength⟩
  exact ⟨c, e, hexec, he, owner, (howned e 1 hseen).1,
    fun e' k' hk' heq => honce e e' 1 k' hseen hk' heq⟩

end Runs

end Cluster

end LogReplicator
