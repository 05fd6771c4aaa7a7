import LogReplicator.Raft.Counters
import LogReplicator.Raft.Identity
import LogReplicator.Raft.Turns

/-!
# Every entry is a client's command

An entry enters a log as the encoding of a client's command and is then only copied,
so every payload decodes, to the command of the call that created the entry.
-/

namespace LogReplicator

open Library

section ApplyLoop

/-- The loop runs the same whatever it would do about a payload that does not
decode. -/
def Node.DecodesEntries (json : Json) (o : Options) (n : Node) : Prop :=
  ∀ undecodable fuel os,
    applyLoopWith skipCompactedLocked undecodable json o fuel os n =
      applyLoop json o fuel os n

/-- The payload of the entry decodes. -/
def Entry.Decodes (json : Json) (e : Entry) : Prop :=
  ∃ cmd, decodeCommand json e.command = .ok cmd

theorem Node.Rows.decodesEntries
    {n : Node} {json : Json}
    (h : n.Rows (Entry.Decodes json))
    (o : Options) :
    n.DecodesEntries json o := by
  intro undecodable fuel
  induction fuel generalizing n with
  | zero =>
      exact fun _ => rfl
  | succ fuel ih =>
      intro os
      show (if n.lastApplied < n.commitIndex then _ else _ : Txn Node Unit) os n =
        (if n.lastApplied < n.commitIndex then _ else _ : Txn Node Unit) os n
      split_ifs with hbehind
      swap
      · rfl
      cases hentry : n.store.entry (n.lastApplied + 1) with
      | none =>
          -- a skip leaves the rows alone
          show Txn.andThen _ _ os n = Txn.andThen _ _ os n
          unfold Txn.andThen
          rcases hr : skipCompactedLocked (n.lastApplied + 1) os n with ⟨_ | skipped, m, os'⟩
          · rfl
          cases skipped
          · rfl
          obtain ⟨ls, hpath, hls⟩ := Txn.wp_some
            (skipCompactedLocked_spec (Or.inl trivial) hbehind hentry :
              (Solo.env json o).Spec _ _ _ n) (fun _ => trivial) hr
          refine ih (hpath.invariant (P := fun m => m.Rows (Entry.Decodes json)) h
            fun l hl _ _ hmove hrows => ?_) os'
          rcases hls with ⟨-, rfl, -⟩ | ⟨-, rfl, -⟩
          · obtain rfl := List.mem_singleton.mp hl
            exact hmove.rows (by simp) (by simp) hrows
          · cases hl
      | some entry =>
          obtain ⟨row, hrow, rfl⟩ := Option.map_eq_some_iff.mp hentry
          obtain ⟨cmd, hcmd⟩ := h _ _ hrow
          simp only at hcmd ⊢
          rw [hcmd]
          have hnext : ∀ m : Node, m.store.logEntries = n.store.logEntries →
              m.Rows (Entry.Decodes json) := fun m hm i row hrow => h i row (hm ▸ hrow)
          have hkept := hnext { n with
            store := cmd.applyTo (n.lastApplied + 1) n.store
            lastApplied := n.lastApplied + 1 } (by rw [Command.applyTo_eq])
          rcases os with _ | ⟨_ | _ | _, os⟩
          · exact ih hkept []
          · exact ih hkept os
          · rfl
          · rfl

end ApplyLoop

namespace Cluster

/-- The run contains the call of a client that created the entry. -/
def Created (cfg : Config) (as : List Action) (e : Entry) (cmd : Command) : Prop :=
  ∃ before i os after c op, as = before ++ .propose i os :: after ∧
    init.exec cfg before = some c ∧ c.ops[i]? = some op ∧
    op.request.command = some cmd ∧ op.request.key ≠ "" ∧
    e = (c.node op.node).clientEntry (cmd.encode cfg.json)

theorem ClientRequest.key_of_command
    {request : ClientRequest} {cmd : Command}
    (h : request.command = some cmd) :
    cmd.key = request.key := by
  cases request <;> cases h <;> rfl

section Created

variable {cfg : Config} {as : List Action} {e : Entry} {cmd : Command}

theorem Created.mono
    (h : Created cfg as e cmd)
    (a : Action) :
    Created cfg (as ++ [a]) e cmd := by
  obtain ⟨before, i, os, after, c, op, rfl, hrest⟩ := h
  exact ⟨before, i, os, after ++ [a], c, op, by simp, hrest⟩

/-- What a client's command was encoded to decodes to it. -/
theorem Created.decode
    (h : Created cfg as e cmd) :
    decodeCommand cfg.json e.command = .ok cmd := by
  obtain ⟨before, i, os, after, c, op, -, -, -, hcmd, hkey, rfl⟩ := h
  exact decodeCommand_encode cfg.json cmd (by rwa [ClientRequest.key_of_command hcmd])

end Created

/-- Every entry there is was created by a client. -/
structure Clean (cfg : Config) (as : List Action) (c : Cluster) : Prop where
  keyed : c.Keyed
  rows : ∀ x, (c.node x).Rows fun e => ∃ cmd, Created cfg as e cmd
  calls : ∀ call ∈ c.calls, ∀ req, call.request = .append req →
    ∀ e ∈ req.entries, ∃ cmd, Created cfg as e cmd

section Step

variable {cfg : Config} {as : List Action} {c c' : Cluster} {a : Action}

theorem clean_init :
    init.Clean cfg [] where
  keyed := by simp [Keyed, init]
  rows := by
    intro x i row hrow
    simp [init, node, startProc, Node.new, Store.init] at hrow
  calls := by simp [init]

/-- An operation of a node adds entries of clients to its log only. -/
theorem Clean.move
    {x : String} {op : Operation} {os : List Outcome} {l : Label} {m m' : Node}
    (h : c.Clean cfg as)
    (hexec : init.exec cfg as = some c)
    (hsourced : c.Sourced cfg a x op)
    (hmove : Move (Solo.env cfg.json (cfg.options x)) l m m')
    (hl : l.From (c.node x) op os)
    (hm : m.Rows fun e => ∃ cmd, Created cfg (as ++ [a]) e cmd) :
    m'.Rows fun e => ∃ cmd, Created cfg (as ++ [a]) e cmd := by
  refine hmove.rows ?_ ?_ hm
  · rintro e p rfl
    obtain ⟨payload, rfl, rfl⟩ := hl
    obtain ⟨i, os, op, cmd, rfl, hop, rfl, hphase, hcmd, rfl⟩ := hsourced
    have hkey := h.keyed op (List.mem_of_getElem? hop) (by simp [hphase])
    exact ⟨cmd, as, i, os, [], c, op, rfl, hexec, hop, hcmd, hkey, rfl⟩
  · rintro req missing rfl e he
    obtain rfl := hl
    obtain ⟨src, id, os, -, hcall⟩ := hsourced
    obtain ⟨cmd, hcmd⟩ := h.calls _ (List.mem_of_getElem? hcall) req rfl e he
    exact ⟨cmd, hcmd.mono a⟩

theorem Clean.rows_mono
    (h : c.Clean cfg as) (x : String) :
    (c.node x).Rows fun e => ∃ cmd, Created cfg (as ++ [a]) e cmd :=
  fun i row hrow => (h.rows x i row hrow).imp fun _ hcmd => hcmd.mono a

theorem Clean.path
    {x : String} {op : Operation}
    (h : c.Clean cfg as)
    (hexec : init.exec cfg as = some c)
    (hsourced : c.Sourced cfg a x op)
    (os : List Outcome) :
    ∃ ls, Path (fun l m m' => Move (Solo.env cfg.json (cfg.options x)) l m m' ∧
        m.Rows (fun e => ∃ cmd, Created cfg (as ++ [a]) e cmd) ∧
        m'.Rows fun e => ∃ cmd, Created cfg (as ++ [a]) e cmd)
      ls (c.node x)
      (Solo.perform cfg.json (cfg.options x) ⟨c.node x, []⟩ op os).node := by
  obtain ⟨ls, hpath, hls⟩ :=
    Solo.perform_path cfg.json (cfg.options x) ⟨c.node x, []⟩ op os
  refine ⟨ls, hpath.refine
    (P := fun m => m.Rows fun e => ∃ cmd, Created cfg (as ++ [a]) e cmd) (h.rows_mono x)
    fun l hl m m' hmove hm => ?_⟩
  have hm' := h.move hexec hsourced hmove (hls l hl) hm
  exact ⟨hm', hmove, hm, hm'⟩

/-- The operation runs the same whatever the apply loop would do about a payload that does
not decode. -/
theorem Clean.performWith_eq
    {x : String} {op : Operation}
    (h : c.Clean cfg as)
    (hexec : init.exec cfg as = some c)
    (hsourced : c.Sourced cfg a x op)
    (os : List Outcome) (undecodable : DecodeError → Txn Node Unit) :
    Solo.performWith
        (Node.applyCommittedWith Node.skipCompactedLocked undecodable cfg.json (cfg.options x))
        cfg.json (cfg.options x) ⟨c.node x, []⟩ op os =
      Solo.perform cfg.json (cfg.options x) ⟨c.node x, []⟩ op os := by
  refine Solo.performWith_eq
    (P := fun m => m.Rows fun e => ∃ cmd, Created cfg (as ++ [a]) e cmd) ⟨?_, ?_⟩
    (h.rows_mono x)
  · intro m hm os'
    exact Node.Rows.decodesEntries
      (fun i row hrow => (hm i row hrow).imp fun _ hcmd => hcmd.decode) _ undecodable _ os'
  · exact fun l m m' hmove hl _ hm => h.move hexec hsourced hmove hl hm

theorem Clean.step
    (h : c.Clean cfg as)
    (hexec : init.exec cfg as = some c)
    (hstep : c.step cfg a = some c') :
    c'.Clean cfg (as ++ [a]) := by
  have T := step_turn hstep
  refine ⟨T.keyed h.keyed, fun y => ?_, fun call hcall req hreq e he => ?_⟩
  · have hkept : (c.node y).Rows fun e => ∃ cmd, Created cfg (as ++ [a]) e cmd :=
      h.rows_mono y
    rcases T.nodes with hsame | ⟨x, op, os, hsourced, hnodes⟩
    · rwa [hsame]
    · rw [hnodes]
      split_ifs with hy
      · subst hy
        obtain ⟨ls, hpath⟩ := h.path hexec hsourced os
        exact hpath.invariant
          (P := fun m => m.Rows fun e => ∃ cmd, Created cfg (as ++ [a]) e cmd) hkept
          fun _ _ _ _ hmove _ => hmove.2.2
      · exact hkept
  · obtain ⟨new, hcalls, hnew⟩ := T.calls
    rw [hcalls, List.mem_append] at hcall
    rcases hcall with hcall | hcall
    · exact (h.calls call hcall req hreq e he).imp fun _ hcmd => hcmd.mono a
    · -- a new call carries rows of its sender
      obtain ⟨p, prevLogTerm, -, -, rfl⟩ := hnew call hcall req hreq
      have hentry := Store.entry_of_mem_entriesFrom he
      obtain ⟨row, hrow, heq⟩ := Option.map_eq_some_iff.mp hentry
      rw [← heq]
      exact (h.rows call.src _ row hrow).imp fun _ hcmd => hcmd.mono a

theorem exec_clean
    (as : List Action) :
    ∀ c, init.exec cfg as = some c → c.Clean cfg as := by
  induction as using List.reverseRecOn with
  | nil =>
      rintro c ⟨⟩
      exact clean_init
  | append_singleton as a ih =>
      intro c hexec
      rw [exec_append] at hexec
      obtain ⟨c₁, hc₁, hstep⟩ := Option.bind_eq_some_iff.mp hexec
      have hstep' : c₁.step cfg a = some c := by
        simp only [exec] at hstep
        split at hstep
        · next c₂ hc₂ =>
            cases hstep
            exact hc₂
        · cases hstep
      exact (ih c₁ hc₁).step hc₁ hstep'

/-- In every reachable state every entry of every log and of every request decodes to
the command of the client call that created it, so no step of any node stops applying
at a payload that does not decode: whatever the apply loop would do about one, the step is
the same, and it would be in every state that the step goes through. -/
theorem entries_decode
    (cfg : Config) (as : List Action) (c : Cluster)
    (hexec : init.exec cfg as = some c) :
    (∀ x i e, (c.node x).store.entry i = some e →
      ∃ cmd, Created cfg as e cmd ∧ decodeCommand cfg.json e.command = .ok cmd) ∧
    (∀ call ∈ c.calls, ∀ req, call.request = .append req → ∀ e ∈ req.entries,
      ∃ cmd, Created cfg as e cmd ∧ decodeCommand cfg.json e.command = .ok cmd) ∧
    (∀ a c', c.step cfg a = some c' → (∀ y, c'.node y = c.node y) ∨
      ∃ x op os, c.Sourced cfg a x op ∧ ∀ undecodable y, c'.node y = if y = x then
        (Solo.performWith
          (Node.applyCommittedWith Node.skipCompactedLocked undecodable cfg.json
            (cfg.options x))
          cfg.json (cfg.options x) ⟨c.node x, []⟩ op os).node
      else c.node y) ∧
    ∀ a c', c.step cfg a = some c' → ∀ y, ∃ ls,
      Path (fun l m m' => Move (Solo.env cfg.json (cfg.options y)) l m m' ∧
          m.DecodesEntries cfg.json (cfg.options y) ∧
          m'.DecodesEntries cfg.json (cfg.options y))
        ls (c.node y) (c'.node y) := by
  have hclean := exec_clean as c hexec
  refine ⟨fun x i e he => ?_, fun call hcall req hreq e he => ?_, fun a c' hstep => ?_,
    fun a c' hstep y => ?_⟩
  · obtain ⟨row, hrow, rfl⟩ := Option.map_eq_some_iff.mp he
    obtain ⟨cmd, hcmd⟩ := hclean.rows x i row hrow
    exact ⟨cmd, hcmd, hcmd.decode⟩
  · obtain ⟨cmd, hcmd⟩ := hclean.calls call hcall req hreq e he
    exact ⟨cmd, hcmd, hcmd.decode⟩
  · refine (step_turn hstep).nodes.imp_right ?_
    rintro ⟨x, op, os, hsourced, hnodes⟩
    refine ⟨x, op, os, hsourced, fun undecodable y => ?_⟩
    rw [hclean.performWith_eq hexec hsourced os undecodable]
    exact hnodes y
  · have hdecodes : ∀ m : Node,
        (m.Rows fun e => ∃ cmd, Created cfg (as ++ [a]) e cmd) →
        m.DecodesEntries cfg.json (cfg.options y) := fun m hm =>
      Node.Rows.decodesEntries
        (fun i row hrow => (hm i row hrow).imp fun _ hcmd => hcmd.decode) _
    rcases (step_turn hstep).nodes with hsame | ⟨x, op, os, hsourced, hnodes⟩
    · rw [hsame]
      exact ⟨[], Path.nil _⟩
    · rw [hnodes]
      split_ifs with hy
      · subst hy
        obtain ⟨ls, hpath⟩ := hclean.path hexec hsourced os
        exact ⟨ls, hpath.refine (P := fun _ => True) trivial fun l _ m m' hmove _ =>
          ⟨trivial, hmove.1, hdecodes m hmove.2.1, hdecodes m' hmove.2.2⟩⟩
      · exact ⟨[], Path.nil _⟩

theorem entries_decode_firstEntry :
    ∃ c e, init.exec (trio fun _ => 0) firstEntry = some c ∧
      (c.node "b").store.entry 1 = some e ∧
      ∃ cmd, Created (trio fun _ => 0) firstEntry e cmd ∧
        decodeCommand (trio fun _ => 0).json e.command = .ok cmd := by
  have hrun : ((init.exec (trio fun _ => 0) firstEntry).bind fun c =>
      ((c.node "b").store.entry 1).map Entry.index) = some 1 := by
    decide +kernel
  obtain ⟨c, hexec, hentry⟩ := Option.bind_eq_some_iff.mp hrun
  obtain ⟨e, he, -⟩ := Option.map_eq_some_iff.mp hentry
  exact ⟨c, e, hexec, he, (entries_decode (trio fun _ => 0) firstEntry c hexec).1 "b" 1 e he⟩

end Step

end Cluster

end LogReplicator
