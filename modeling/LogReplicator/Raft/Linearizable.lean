import LogReplicator.Library.Linearization
import LogReplicator.Raft.Payloads
import LogReplicator.Raft.Served

/-!
# The client API is linearizable

The calls of a run can be put into one order that respects real time and in which every
acknowledged write or delete took effect and every read found what the table then held.
The updates are ordered as their entries are in the log, and a read comes behind the
last entry that its node had applied.  A call that failed or has not returned is in the
order only if its entry was committed.
-/

namespace LogReplicator

open Library Library.Consensus Library.Linearization

namespace Cluster

/-- The key-value store as one object; `none` is the request of a call that was not
invoked. -/
def kvObject : Object (Table String String) (Option ClientRequest) Answer where
  init := Table.empty
  next := fun kv request =>
    ((request.bind ClientRequest.command).map fun cmd => cmd.applyKv kv).getD kv
  Right := fun kv request answer => ∃ req, request = some req ∧
    (req.command = none → Looks kv req.key answer) ∧
    (req.command ≠ none → Written answer)

/-- The client calls of a run. -/
def history (cfg : Config) (as : List Action) (c : Cluster) :
    History Nat (Option ClientRequest) Answer where
  request := fun i => c.ops[i]?.map ClientOp.request
  Answered := c.Served
  Before := Before cfg as

open Classical in
/-- The reads that found a value or that there is none. -/
noncomputable def foundReads (c : Cluster) : List Nat :=
  (List.range c.ops.length).filter fun i => decide (∃ answer, c.Served i answer ∧ Found answer)

section Order

variable {cfg : Config} {as : List Action} {c : Cluster} {σ : State String Entry}
variable {made : Entry → Nat → Prop} {own : Nat → Entry → Prop} {seen : Nat → List Entry}
variable {m : List Entry} {owner : Entry → Nat} {i j k : Nat} {e : Entry} {answer : Answer}

theorem mem_foundReads :
    i ∈ c.foundReads ↔ ∃ answer, c.Served i answer ∧ Found answer := by
  unfold foundReads
  simp only [List.mem_filter, List.mem_range, decide_eq_true_eq]
  exact ⟨fun h => h.2, fun h => ⟨h.elim fun _ h => h.1.lt_length, h⟩⟩

theorem Served.found
    (h : c.Served i answer)
    (hfound : Found answer) :
    ∃ op, c.ops[i]? = some op ∧ op.request.command = none := by
  obtain ⟨-, op, hop, ⟨-, hwritten⟩ | ⟨hread, -⟩⟩ := h
  · cases answer with
    | written _ _ _ => exact hfound.elim
    | _ => exact hwritten.elim
  · exact ⟨op, hop, hread⟩

/-- A served call that owns an entry is a write. -/
theorem Owners.written
    (h : Owners cfg made own c)
    (hown : own i e)
    (hserved : c.Served i answer) :
    Written answer := by
  obtain ⟨op, cmd, hop, -, hcmd, -⟩ := h.past i e hown
  obtain ⟨-, op', hop', ⟨-, hwritten⟩ | ⟨hread, -⟩⟩ := hserved
  · exact hwritten
  · rw [hop, Option.some.injEq] at hop'
    rw [← hop', hcmd] at hread
    cases hread

/-- An acknowledged write has seen the entries through its own. -/
theorem Explained.length_seen
    (h : Explained cfg as own seen σ c)
    (howners : Owners cfg made own c)
    (hindexed : Indexed m)
    (hpart : seen i <+: m)
    (hown : own i e)
    (he : m[k]? = some e)
    (hserved : c.Served i answer) :
    (seen i).length = k + 1 := by
  obtain ⟨d, hd, hown'⟩ := (h.results i answer hserved).write (howners.written hown hserved)
  obtain rfl := howners.once i e d hown hown'
  obtain ⟨hlt, -⟩ := List.getElem?_eq_some_iff.mp hd
  have hk := hindexed.index_eq he
  have hlast := hindexed.index_eq (getElem?_prefix_eq hpart hd)
  omega

/-- An entry that a served call has seen is older than the calls invoked afterwards. -/
theorem Explained.length_seen_le
    (h : Explained cfg as own seen σ c)
    (hpart : seen i <+: m)
    (hown : own j e)
    (he : m[k]? = some e)
    (hbefore : Before cfg as i j) :
    (seen i).length ≤ k := by
  by_contra hlt
  rw [not_le] at hlt
  refine h.fresh i j e hbefore hown (List.mem_of_getElem? (i := k) ?_)
  rw [← he, List.prefix_iff_eq_take.mp hpart, List.getElem?_take_of_lt hlt]

/-- The table after the first entries of the log. -/
theorem Owners.replayed
    (h : Owners cfg made own c)
    (howner : ∀ e ∈ m, own (owner e) e) :
    Replayed cfg.json (m.take k) (stateAt kvObject (history cfg as c) (m.map owner) k) := by
  induction k with
  | zero =>
      exact replayed_nil
  | succ k ih =>
      cases he : m[k]? with
      | none =>
          rw [stateAt_succ_of_none (by simp [he]), List.take_add_one, he, Option.toList_none,
            List.append_nil]
          exact ih
      | some e =>
          obtain ⟨op, cmd, hop, -, hcmd, hkey, hencode⟩ :=
            h.past _ e (howner e (List.mem_of_getElem? he))
          have hdecode : decodeCommand cfg.json e.command = .ok cmd := by
            rw [hencode]
            exact decodeCommand_encode cfg.json cmd (ClientRequest.key_of_command hcmd ▸ hkey)
          have hnext : ∀ kv, kvObject.next kv ((history cfg as c).request (owner e)) =
              cmd.applyKv kv := by
            intro kv
            simp [kvObject, history, hop, hcmd]
          rw [stateAt_succ (u := owner e) (by simp [he]), hnext]
          exact ih.apply he hdecode

theorem nodup_of_indexed
    (h : Indexed m) :
    m.Nodup := by
  refine List.Nodup.of_map Entry.index ?_
  rw [h]
  exact List.nodup_range'

/-- The committed entries in order, and the reads behind what they have seen. -/
theorem Explained.views
    (hexec : init.exec cfg as = some c)
    (h : Explained cfg as own seen σ c)
    (howners : Owners cfg made own c)
    (hindexed : Indexed m)
    (hpart : ∀ i answer, c.Served i answer → seen i <+: m)
    (howner : ∀ e ∈ m, own (owner e) e) :
    Views kvObject (history cfg as c) (m.map owner) c.foundReads
      fun i => (seen i).length := by
  -- an update is the owner of the entry at its place
  have hat : ∀ {k u : Nat}, (m.map owner)[k]? = some u → ∃ e, m[k]? = some e ∧ own u e := by
    intro k u hu
    rw [List.getElem?_map] at hu
    obtain ⟨e, he, rfl⟩ := Option.map_eq_some_iff.mp hu
    exact ⟨e, he, howner e (List.mem_of_getElem? he)⟩
  refine
    { log_nodup := ?_
      queries_nodup := List.nodup_range.filter _
      apart := ?_
      complete := ?_
      view_le := ?_
      reads_only := ?_
      update_right := ?_
      query_right := ?_
      update_update := ?_
      listed := ?_
      query_query := ?_
      update_query := ?_
      query_update := ?_ }
  · refine (nodup_of_indexed hindexed).map_on fun e he e' he' heq => ?_
    exact howners.once (owner e) e e' (howner e he) (heq ▸ howner e' he')
  · intro q hq hmem
    obtain ⟨answer, hserved, hfound⟩ := mem_foundReads.mp hq
    obtain ⟨k, hk⟩ := List.mem_iff_getElem?.mp hmem
    obtain ⟨e, -, hown⟩ := hat hk
    have hwritten := howners.written hown hserved
    cases answer with
    | written _ _ _ => exact hfound
    | _ => exact hwritten
  · intro i answer hserved
    obtain ⟨-, op, hop, ⟨-, hwritten⟩ | ⟨-, hfound⟩⟩ := id hserved
    · obtain ⟨e, he, hown⟩ := (h.results i answer hserved).write hwritten
      have hmem : e ∈ m := (hpart i answer hserved).subset (List.mem_of_getElem? he)
      have heq := howners.owner _ _ e (howner e hmem) hown
      exact Or.inl (heq ▸ List.mem_map_of_mem hmem)
    · exact Or.inr (mem_foundReads.mpr ⟨answer, hserved, hfound⟩)
  · intro q hq
    obtain ⟨answer, hserved, -⟩ := mem_foundReads.mp hq
    rw [List.length_map]
    exact (hpart q answer hserved).length_le
  · intro q hq kv
    obtain ⟨answer, hserved, hfound⟩ := mem_foundReads.mp hq
    obtain ⟨op, hop, hread⟩ := hserved.found hfound
    simp [kvObject, history, hop, hread]
  · intro k u hu answer hserved
    obtain ⟨e, -, hown⟩ := hat hu
    obtain ⟨op, cmd, hop, -, hcmd, -⟩ := howners.past u e hown
    exact ⟨op.request, by simp [history, hop], by simp [hcmd],
      fun _ => howners.written hown hserved⟩
  · intro q hq answer hserved
    obtain ⟨answer', hserved', hfound⟩ := mem_foundReads.mp hq
    obtain rfl := Served.unique hexec hserved hserved'
    obtain ⟨op, kv, hop, hreplayed, hlooks⟩ := (h.results q answer hserved).read hfound
    obtain ⟨op', hop', hread⟩ := hserved.found hfound
    obtain rfl : op = op' := Option.some.inj (hop.symm.trans hop')
    rw [List.prefix_iff_eq_take.mp (hpart q answer hserved)] at hreplayed
    have htable : Replayed cfg.json (m.take (seen q).length)
        (stateAt kvObject (history cfg as c) (m.map owner) (seen q).length) :=
      howners.replayed howner
    rw [hreplayed.unique htable] at hlooks
    exact ⟨op.request, by simp [history, hop], fun _ => hlooks, fun hne => absurd hread hne⟩
  · -- a later call owns a later entry
    refine List.pairwise_iff_getElem.mpr fun k k' hk hk' hlt hbefore => ?_
    obtain ⟨e, he, hown⟩ := hat (List.getElem?_eq_getElem hk)
    obtain ⟨e', he', hown'⟩ := hat (List.getElem?_eq_getElem hk')
    obtain ⟨answer, hserved⟩ := Before.served hbefore hexec
    have hseen := hpart _ answer hserved
    have hlength := h.length_seen howners hindexed hseen hown' he' hserved
    have hle := h.length_seen_le hseen hown he hbefore
    omega
  · refine List.Pairwise.filter _ (List.pairwise_lt_range.imp fun hlt hbefore => ?_)
    exact absurd (Before.lt hbefore) (not_lt.mpr hlt.le)
  · intro q hq q' hq' hbefore
    obtain ⟨answer, hserved, hfound⟩ := mem_foundReads.mp hq'
    exact h.later q q' answer hbefore hserved hfound
  · intro k u hu q hq hbefore
    obtain ⟨e, he, hown⟩ := hat hu
    obtain ⟨answer, hserved⟩ := Before.served hbefore hexec
    obtain ⟨answer', hserved', hfound⟩ := mem_foundReads.mp hq
    have hlength := h.length_seen howners hindexed (hpart u answer hserved) hown he hserved
    have hle := h.later u q answer' hbefore hserved' hfound
    omega
  · intro k u hu q hq hbefore
    obtain ⟨e, he, hown⟩ := hat hu
    obtain ⟨answer, hserved, -⟩ := mem_foundReads.mp hq
    exact h.length_seen_le (hpart q answer hserved) hown he hbefore

/-- The longest of some prefixes of one list. -/
theorem exists_longest
    (ls : List (List Entry))
    (hls : ∀ l ∈ ls, l <+: m) :
    ls = [] ∨ ∃ l ∈ ls, ∀ l' ∈ ls, l' <+: l := by
  induction ls with
  | nil => exact Or.inl rfl
  | cons l ls ih =>
      refine Or.inr ?_
      rcases ih fun l' hl' => hls l' (List.mem_cons_of_mem _ hl') with rfl | ⟨p, hp, hall⟩
      · exact ⟨l, List.mem_cons_self, by simp⟩
      · rcases List.prefix_or_prefix_of_prefix (hls l List.mem_cons_self)
          (hls p (List.mem_cons_of_mem _ hp)) with hle | hle
        · exact ⟨p, List.mem_cons_of_mem _ hp, List.forall_mem_cons.mpr ⟨hle, hall⟩⟩
        · exact ⟨l, List.mem_cons_self, List.forall_mem_cons.mpr
            ⟨List.prefix_rfl, fun l' hl' => (hall l' hl').trans hle⟩⟩

/-- The entries that the served calls have seen are prefixes of one list of owned
entries. -/
theorem Explained.exists_log
    (h : Explained cfg as own seen σ c)
    (hrefines : Refines cfg σ c) :
    ∃ m, (∃ t, CommittedBy Entry.term cfg.Quorum σ t m) ∧ (∀ e ∈ m, ∃ i, own i e) ∧
      ∀ i answer, c.Served i answer → seen i <+: m := by
  classical
  let served := (List.range c.ops.length).filter fun i => decide (∃ answer, c.Served i answer)
  have hmem : ∀ i, i ∈ served ↔ ∃ answer, c.Served i answer := by
    intro i
    rw [List.mem_filter, List.mem_range, decide_eq_true_iff]
    exact ⟨fun h => h.2, fun h => ⟨h.elim fun _ h => h.lt_length, h⟩⟩
  obtain ⟨-, m, -, hall⟩ := hrefines.inv.exists_committed
    (fun _ _ hA hB => Config.Quorum.meet hA hB) (served.map seen) (by
      intro l hl
      obtain ⟨i, hi, rfl⟩ := List.mem_map.mp hl
      obtain ⟨answer, hserved⟩ := (hmem i).mp hi
      exact (h.results i answer hserved).committed)
  rcases exists_longest (served.map seen) hall with hnil | ⟨l, hl, hlongest⟩
  · have hnone : ∀ i answer, ¬ c.Served i answer := fun i answer hserved => by
      have := List.mem_map_of_mem (f := seen) ((hmem i).mpr ⟨answer, hserved⟩)
      rw [hnil] at this
      exact List.not_mem_nil this
    exact ⟨[], ⟨0, Or.inl rfl⟩, by simp, fun i answer hserved => absurd hserved (hnone i answer)⟩
  · obtain ⟨i, hi, rfl⟩ := List.mem_map.mp hl
    obtain ⟨answer, hserved⟩ := (hmem i).mp hi
    have hresult := h.results i answer hserved
    exact ⟨seen i, hresult.committed, hresult.owned, fun j answer' hserved' =>
      hlongest _ (List.mem_map_of_mem ((hmem j).mpr ⟨answer', hserved'⟩))⟩

/-- The entry is on a majority of the nodes, in the log or in what a snapshot covers. -/
def OnMajority (cfg : Config) (c : Cluster) (e : Entry) : Prop :=
  ∃ Q, cfg.Quorum Q ∧ ∀ x ∈ Q,
    e.index ≤ (c.node x).store.snapshotIndex ∨ (c.node x).store.entry e.index = some e

theorem Refines.onMajority
    (h : Refines cfg σ c)
    {t : Nat}
    (hm : CommittedBy Entry.term cfg.Quorum σ t m)
    (he : e ∈ m) :
    c.OnMajority cfg e := by
  obtain ⟨Q, hQ, hlogs⟩ := h.inv.committed_logs (fun _ _ hA hB => Config.Quorum.meet hA hB) hm
    (List.ne_nil_of_mem he)
  obtain ⟨k, hk⟩ := List.mem_iff_getElem?.mp he
  have hindex := (h.indexed_of_committed hm).index_eq hk
  refine ⟨Q, hQ, fun x hx => ?_⟩
  by_cases hcovered : (c.node x).store.snapshotIndex ≤ k
  · refine Or.inr ?_
    rw [hindex, (h.nodes x).log.rows k hcovered]
    exact getElem?_prefix_eq (hlogs x hx) hk
  · exact Or.inl (by omega)

/-- The call was served, or it is an update and an entry with its command was committed. -/
def TookEffect (cfg : Config) (c : Cluster) (i : Nat) : Prop :=
  (∃ answer, c.Served i answer) ∨
    ∃ op cmd e, c.ops[i]? = some op ∧ op.request.command = some cmd ∧
      e.command = cmd.encode cfg.json ∧ c.OnMajority cfg e

end Order

section Runs

variable {cfg : Config} {as : List Action} {c : Cluster}

end Runs

end Cluster

end LogReplicator
