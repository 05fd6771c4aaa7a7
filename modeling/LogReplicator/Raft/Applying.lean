import LogReplicator.Raft.Returns
import LogReplicator.Raft.Sections
import LogReplicator.Storage.FullLog

/-!
# The apply loop

`applyCommittedLocked` is called again and again with growing commit indexes, its
writes may fail, and it compacts the log it reads.  Whatever happens, the state
machine is the replay of the commands below `lastApplied`.
-/

namespace LogReplicator

open Library Library.Consensus

section Decodable

/-- The commands of a log up to the first payload that does not decode. -/
def decodable (json : Json) : List Entry → List Command
  | [] => []
  | e :: l =>
      match decodeCommand json e.command with
      | .error _ => []
      | .ok cmd => cmd :: decodable json l

variable {json : Json} {l : List Entry} {i : Nat} {e : Entry}

/-- An entry that decodes, behind entries that do, is in the list. -/
theorem getElem?_decodable
    {cmd : Command}
    (hi : i ≤ (decodable json l).length)
    (he : l[i]? = some e)
    (hcmd : decodeCommand json e.command = .ok cmd) :
    (decodable json l)[i]? = some cmd := by
  induction l generalizing i with
  | nil =>
      simp at he
  | cons d l ih =>
      cases i with
      | zero =>
          obtain rfl : d = e := by simpa using he
          simp [decodable, hcmd]
      | succ i =>
          unfold decodable at hi ⊢
          cases hd : decodeCommand json d.command with
          | error err =>
              simp [hd] at hi
          | ok first =>
              simp only [hd, List.length_cons] at hi
              simpa using ih (by omega) (by simpa using he)

/-- An entry that does not decode ends the list. -/
theorem length_decodable_le_of_error
    {err : DecodeError}
    (he : l[i]? = some e)
    (herr : decodeCommand json e.command = .error err) :
    (decodable json l).length ≤ i := by
  induction l generalizing i with
  | nil =>
      simp at he
  | cons d l ih =>
      cases i with
      | zero =>
          obtain rfl : d = e := by simpa using he
          simp [decodable, herr]
      | succ i =>
          unfold decodable
          split
          · exact Nat.zero_le _
          · exact Nat.succ_le_succ (ih (by simpa using he))

end Decodable

section Invariant

/-- The node has applied a decodable part of the log `l`, once and in order. -/
structure Node.Applied (json : Json) (l : List Entry) (n : Node) : Prop where
  log : n.store.Stores l
  kv : n.store.kv = replay ((decodable json l).take n.lastApplied)
  disk : n.store.lastApplied = n.lastApplied
  decodes : n.lastApplied ≤ (decodable json l).length
  committed : n.lastApplied ≤ n.commitIndex

variable {env : Env} {l : List Entry} {n n' : Node}

theorem Node.Applied.snapshotIndex_le
    (h : n.Applied env.json l) :
    n.store.snapshotIndex ≤ n.lastApplied :=
  h.disk ▸ h.log.ordered.applied

theorem Node.Applied.move
    {a : Label}
    (h : n.Applied env.json l)
    (hmove : Move env a n n')
    (ha : a.Applies) :
    n'.Applied env.json l := by
  have hsnapshot := h.snapshotIndex_le
  cases hmove with
  | @apply _ entry cmd _ hcommit hentry hcmd =>
      have he := (h.log.entry_iff.mp hentry).2
      have hat := getElem?_decodable h.decodes he hcmd
      have hlt := (List.getElem?_eq_some_iff.mp hat).1
      rw [Command.applyTo_eq]
      refine ⟨h.log.congr ?_ rfl rfl rfl, ?_, rfl, hlt, hcommit⟩
      · exact ⟨h.log.ordered.rows, h.log.ordered.snapshot, by
          show n.store.snapshotIndex ≤ n.lastApplied + 1
          omega⟩
      · show cmd.applyKv n.store.kv = _
        rw [h.kv, ← replay_append_singleton, List.take_add_one, hat]
        rfl
  | skip _ _ _ hskip =>
      omega
  | compact _ hold hterm =>
      exact ⟨h.log.createSnapshot env.json hold hterm, h.kv, rfl, h.decodes, h.committed⟩
  | _ =>
      exact ha.elim

end Invariant

section Calls

/-- The fates of transactions of which some fail. -/
def fates (fails : List Bool) : List Outcome :=
  fails.map fun failed => if failed then .fail else .commit

theorem crash_notMem_fates
    (fails : List Bool) :
    Outcome.crash ∉ fates fails := by
  intro h
  obtain ⟨failed, -, hf⟩ := List.mem_map.mp h
  cases failed <;> simp at hf

theorem fail_notMem_fates
    {fails : List Bool}
    (h : true ∉ fails) :
    Outcome.fail ∉ fates fails := by
  intro hmem
  obtain ⟨failed, hin, hf⟩ := List.mem_map.mp hmem
  cases failed with
  | false => simp at hf
  | true => exact h hin

/-- A call of `applyCommittedLocked`: the commit index it finds, and which of its
transactions fail. -/
structure ApplyCall where
  commitIndex : Nat
  fails : List Bool

/-- The node after a call. -/
def Node.applyCall (json : Json) (o : Options) (n : Node) (call : ApplyCall) : Node :=
  (Node.applyCommittedLocked json o (fates call.fails)
    { n with commitIndex := call.commitIndex }).2.1

/-- The node after some calls. -/
def Node.applyCalls (json : Json) (o : Options) (calls : List ApplyCall) (n : Node) :
    Node :=
  calls.foldl (Node.applyCall json o) n

variable {json : Json} {o : Options} {l : List Entry} {n : Node} {call : ApplyCall}

/-- Everything below the commit index that decodes is applied. -/
def Node.CaughtUp (json : Json) (l : List Entry) (n : Node) : Prop :=
  n.lastApplied = min n.commitIndex (decodable json l).length

theorem Path.commitIndex_eq
    {env : Env} {ls : List Label} {n n' : Node}
    (h : Path (Move env) ls n n')
    (hls : ∀ a ∈ ls, a.Applies) :
    n'.commitIndex = n.commitIndex := by
  refine h.invariant (P := fun m => m.commitIndex = n.commitIndex) rfl ?_
  intro a ha m m' hmove hm
  have happlies := hls a ha
  cases hmove <;> first | exact hm | exact happlies.elim

/-- A loop that cannot go on has applied all it could. -/
theorem Node.Applied.caughtUp
    {env : Env}
    (h : n.Applied env.json l)
    (hwithin : n.commitIndex ≤ l.length)
    (hsettled : n.Settled env) :
    n.CaughtUp env.json l := by
  have hsnapshot := h.snapshotIndex_le
  have hcommitted := h.committed
  have hdecodes := h.decodes
  unfold CaughtUp
  rcases hsettled with hdone | ⟨hmissing, -⟩ | ⟨entry, err, hentry, herr⟩
  · omega
  · rw [h.log.rows _ hsnapshot, List.getElem?_eq_none_iff] at hmissing
    omega
  · have := length_decodable_le_of_error (h.log.entry_iff.mp hentry).2 herr
    omega

theorem Node.Applied.applyCall
    (h : n.Applied json l)
    (hcommit : n.commitIndex ≤ call.commitIndex)
    (hwithin : call.commitIndex ≤ l.length) :
    (n.applyCall json o call).Applied json l ∧
      (n.applyCall json o call).commitIndex = call.commitIndex ∧
      (true ∉ call.fails → (n.applyCall json o call).CaughtUp json l) := by
  let env : Env := ⟨json, o, true ∈ call.fails, True⟩
  let n₀ : Node := { n with commitIndex := call.commitIndex }
  obtain ⟨a, n', os', hr, -⟩ := applyCommittedLocked_returns json o (fates call.fails) n₀
    (crash_notMem_fates _)
  obtain ⟨ls, hpath, hls, hsettled⟩ :=
    Txn.wp_some (applyCommittedLocked_spec (Or.inl trivial) : env.Spec _ _ _ n₀)
      (fun hfail => by
        by_contra hnone
        exact fail_notMem_fates hnone hfail) hr
  have hn' : n.applyCall json o call = n' := congrArg (fun r => r.2.1) hr
  have happlied : n'.Applied json l := by
    refine hpath.invariant (P := fun m => m.Applied json l)
      ⟨h.log, h.kv, h.disk, h.decodes, h.committed.trans hcommit⟩ ?_
    exact fun a ha m m' hmove hm => hm.move hmove (hls a ha)
  have hcommit' : n'.commitIndex = call.commitIndex := Path.commitIndex_eq hpath hls
  rw [hn']
  exact ⟨happlied, hcommit', fun hnone =>
    happlied.caughtUp (hcommit'.symm ▸ hwithin) (hsettled.resolve_left hnone)⟩

/-- Calls with growing commit indexes keep the state machine exact, and calls
without failures leave nothing behind. -/
theorem Node.Applied.applyCalls
    {calls : List ApplyCall}
    (h : n.Applied json l)
    (hsorted : (n.commitIndex :: calls.map ApplyCall.commitIndex).Pairwise (· ≤ ·))
    (hwithin : ∀ call ∈ calls, call.commitIndex ≤ l.length) :
    (n.applyCalls json o calls).Applied json l ∧
      ((∀ call ∈ calls, true ∉ call.fails) → n.CaughtUp json l →
        (n.applyCalls json o calls).CaughtUp json l) := by
  induction calls generalizing n with
  | nil =>
      exact ⟨h, fun _ hn => hn⟩
  | cons call calls ih =>
      obtain ⟨hfirst, hrest⟩ := List.pairwise_cons.mp hsorted
      obtain ⟨happlied, hcommit, hcaught⟩ := h.applyCall (o := o)
        (hfirst _ List.mem_cons_self) (hwithin call List.mem_cons_self)
      obtain ⟨hall, hcaughtAll⟩ := ih happlied (by rwa [hcommit])
        fun c hc => hwithin c (List.mem_cons_of_mem _ hc)
      exact ⟨hall, fun hnone _ =>
        hcaughtAll (fun c hc => hnone c (List.mem_cons_of_mem _ hc))
          (hcaught (hnone call List.mem_cons_self))⟩

/-- A node that has stored a log and applied nothing. -/
def Node.fresh (l : List Entry) : Node :=
  Node.new (Store.init.appendEntries l)

theorem Node.applied_fresh
    (json : Json)
    (hindexes : l.map Entry.index = List.range' 1 l.length) :
    (Node.fresh l).Applied json l where
  log := Store.stores_indexed hindexes
  kv := rfl
  disk := rfl
  decodes := Nat.zero_le _
  committed := le_rfl

/-- Every command below `lastApplied` is applied exactly once and in order, however
the calls are split, whatever is compacted and whichever writes fail. -/
theorem applied_exactly_once
    (json : Json) (o : Options) (l : List Entry)
    (hindexes : l.map Entry.index = List.range' 1 l.length)
    (calls : List ApplyCall)
    (hsorted : (calls.map ApplyCall.commitIndex).Pairwise (· ≤ ·))
    (hwithin : ∀ call ∈ calls, call.commitIndex ≤ l.length) :
    let n := (Node.fresh l).applyCalls json o calls
    n.store.kv = replay ((decodable json l).take n.lastApplied) ∧
    n.store.lastApplied = n.lastApplied ∧
    n.lastApplied ≤ (decodable json l).length ∧
    (∀ (o' : Options) (calls' : List ApplyCall),
      (calls'.map ApplyCall.commitIndex).Pairwise (· ≤ ·) →
      (∀ call ∈ calls', call.commitIndex ≤ l.length) →
      ((Node.fresh l).applyCalls json o' calls').lastApplied = n.lastApplied →
      ((Node.fresh l).applyCalls json o' calls').store.kv = n.store.kv) ∧
    ((∀ call ∈ calls, true ∉ call.fails) →
      n.lastApplied = min n.commitIndex (decodable json l).length) := by
  intro n
  have hstart : ∀ cs : List ApplyCall, (cs.map ApplyCall.commitIndex).Pairwise (· ≤ ·) →
      ((Node.fresh l).commitIndex :: cs.map ApplyCall.commitIndex).Pairwise (· ≤ ·) :=
    fun cs hcs => List.pairwise_cons.mpr ⟨fun _ _ => Nat.zero_le _, hcs⟩
  obtain ⟨happlied, hcaught⟩ :=
    (Node.applied_fresh json hindexes).applyCalls (o := o) (hstart calls hsorted)
      hwithin
  refine ⟨happlied.kv, happlied.disk, happlied.decodes, ?_, fun hnone =>
    hcaught hnone (Nat.zero_min _).symm⟩
  intro o' calls' hsorted' hwithin' hsame
  have happlied' := ((Node.applied_fresh json hindexes).applyCalls (o := o')
    (hstart calls' hsorted') hwithin').1
  rw [happlied'.kv, hsame, ← happlied.kv]

/-- Two writes, then a payload that is no command. -/
def brokenLog : List Entry :=
  [⟨1, 1, (Command.setCommand "k" "1").encode Json.compact⟩,
    ⟨2, 1, (Command.setCommand "k" "2").encode Json.compact⟩, ⟨3, 1, [0]⟩]

/-- The first write is applied and compacted, the second one fails once. -/
def brokenCalls : List ApplyCall :=
  [⟨1, []⟩, ⟨2, [true]⟩, ⟨3, []⟩]

theorem applied_exactly_once_broken :
    let n := (Node.fresh brokenLog).applyCalls Json.compact ⟨"a", [], 1⟩ brokenCalls
    n.lastApplied = 2 ∧ n.commitIndex = 3 ∧
      n.store.kv = replay ((decodable Json.compact brokenLog).take n.lastApplied) :=
  ⟨by decide +kernel, by decide +kernel,
    (applied_exactly_once Json.compact ⟨"a", [], 1⟩ brokenLog (by decide) brokenCalls
      (by decide) (by decide)).1⟩

end Calls

end LogReplicator
