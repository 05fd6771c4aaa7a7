import LogReplicator.Raft.Refinement
import LogReplicator.Raft.Transfer

/-!
# State machine safety

What the nodes have committed is one sequence of entries, and the table of every
node is the replay of as many of them as it has applied.  The table follows the
commit index, whose part of the log never changes; a snapshot carries the table of
its position.  Only a snapshot that is installed below `lastApplied` breaks this:
it takes the table back and leaves `lastApplied` where it was.
-/

namespace LogReplicator

open Library Library.Consensus

section Replay

/-- The table is the replay of the entries. -/
def Replayed (json : Json) (l : List Entry) (kv : Table String String) : Prop :=
  ∃ cmds, l.map (fun e => decodeCommand json e.command) = cmds.map .ok ∧ kv = replay cmds

/-- The table and the snapshot of the node are replays of its log. -/
structure Node.Mirrors (json : Json) (l : List Entry) (n : Node) : Prop where
  kv : Replayed json (l.take n.lastApplied) n.store.kv
  disk : n.store.lastApplied = n.lastApplied
  snapshot : ∃ kv, Store.decodeSnapshot json n.store.loadSnapshot.data = some kv ∧
    Replayed json (l.take n.store.loadSnapshot.lastIncludedIndex) kv

/-- The data of the snapshot is the replay of the log of the leader of its term. -/
def InstallSnapshotRequest.Mirrors (json : Json) (σ : State String Entry)
    (req : InstallSnapshotRequest) : Prop :=
  ∃ kv, Store.decodeSnapshot json req.data = some kv ∧
    Replayed json ((σ.llog req.term).take req.lastIncludedIndex) kv

variable {json : Json} {l l' : List Entry} {kv kv' : Table String String}

theorem replayed_nil :
    Replayed json [] Table.empty :=
  ⟨[], rfl, rfl⟩

theorem Replayed.unique
    (h : Replayed json l kv)
    (h' : Replayed json l kv') :
    kv = kv' := by
  obtain ⟨cmds, hcmds, rfl⟩ := h
  obtain ⟨cmds', hcmds', rfl⟩ := h'
  have hinj : Function.Injective (Except.ok : Command → Except DecodeError Command) :=
    fun _ _ h => Except.ok.inj h
  rw [List.map_injective_iff.mpr hinj (hcmds.symm.trans hcmds')]

/-- The next entry. -/
theorem Replayed.apply
    {i : Nat} {e : Entry} {cmd : Command}
    (h : Replayed json (l.take i) kv)
    (he : l[i]? = some e)
    (hcmd : decodeCommand json e.command = .ok cmd) :
    Replayed json (l.take (i + 1)) (cmd.applyKv kv) := by
  obtain ⟨cmds, hcmds, rfl⟩ := h
  refine ⟨cmds ++ [cmd], ?_, (replay_append_singleton cmds cmd).symm⟩
  rw [List.take_add_one, he, List.map_append, hcmds, List.map_append]
  simp [hcmd]

theorem Store.Ordered.loadSnapshot_le
    {s : Store}
    (h : s.Ordered) :
    s.loadSnapshot.lastIncludedIndex ≤ s.snapshotIndex := by
  unfold Store.loadSnapshot
  rcases hs : s.snapshot with _ | snap
  · simp
  · simp [(h.snapshot snap hs).1]

theorem InstallSnapshotRequest.Mirrors.mono
    {σ σ' : State String Entry} {req : InstallSnapshotRequest}
    (h : req.Mirrors json σ)
    (hle : req.lastIncludedIndex ≤ (σ.llog req.term).length)
    (hg : Grows σ σ') :
    req.Mirrors json σ' := by
  obtain ⟨kv, hkv, hreplayed⟩ := h
  refine ⟨kv, hkv, ?_⟩
  rw [take_prefix_eq (hg.llog _) hle]
  exact hreplayed

theorem Node.Mirrors.congr
    {n n' : Node}
    (h : n.Mirrors json l)
    (hlog : ∀ k ≤ n.lastApplied, l'.take k = l.take k)
    (hsnapshot : n.store.loadSnapshot.lastIncludedIndex ≤ n.lastApplied)
    (hkv : n'.store.kv = n.store.kv)
    (happlied : n'.lastApplied = n.lastApplied)
    (hdisk : n'.store.lastApplied = n.store.lastApplied)
    (hsame : n'.store.snapshot = n.store.snapshot) :
    n'.Mirrors json l' := by
  have hload : n'.store.loadSnapshot = n.store.loadSnapshot := by
    unfold Store.loadSnapshot
    rw [hsame]
  refine ⟨?_, by rw [hdisk, happlied, h.disk], ?_⟩
  · rw [hkv, happlied, hlog _ le_rfl]
    exact h.kv
  · rw [hload, hlog _ hsnapshot]
    exact h.snapshot

end Replay

/-- What an event says was committed. -/
def Event.part (σ : State String Entry) : Event → List Entry
  | .committed _ t k _ => (σ.llog t).take k
  | _ => []

namespace Cluster

section Moves

variable {cfg : Config} {x : String} {l : Label} {n n' : Node}
variable {σ σ₁ σ₂ : State String Entry}

/-- A move does not change what is committed. -/
theorem Followed.take_eq
    (h : Followed cfg σ x l n n' σ₁ σ₂)
    {k : Nat}
    (hk : k ≤ n.commitIndex) (hk' : k ≤ n'.commitIndex) :
    (σ₂.log x).take k = (σ₁.log x).take k :=
  h.inv.take_eq_of_committed (fun _ _ hA hB => Config.Quorum.meet hA hB) h.after.committed
    (h.grows.committed le_rfl h.before.committed) hk' hk (hk'.trans h.after.commit_le)
    (hk.trans h.before.commit_le)

theorem Followed.replays
    (h : Followed cfg σ x l n n' σ₁ σ₂)
    (hinstall : ∀ req last known applied, l = .install req last known applied →
      applied ≤ req.lastIncludedIndex ∧ req.Backed cfg σ₁ ∧ req.Mirrors cfg.json σ₁)
    (hn : n.Mirrors cfg.json (σ₁.log x)) :
    n'.Mirrors cfg.json (σ₂.log x) := by
  have happlied : n.store.snapshotIndex ≤ n.lastApplied :=
    hn.disk ▸ h.before.log.ordered.applied
  have hload : n.store.loadSnapshot.lastIncludedIndex ≤ n.lastApplied :=
    h.before.log.ordered.loadSnapshot_le.trans happlied
  have hreached := h.after.reached
  have hsame : n'.lastApplied = n.lastApplied →
      ∀ k ≤ n.lastApplied, (σ₂.log x).take k = (σ₁.log x).take k := fun heq k hk =>
    h.take_eq (hk.trans h.before.reached) (by omega)
  have hframe : n'.store.kv = n.store.kv → n'.lastApplied = n.lastApplied →
      n'.store.lastApplied = n.store.lastApplied → n'.store.snapshot = n.store.snapshot →
      n'.Mirrors cfg.json (σ₂.log x) := fun hkv heq hdisk hsnapshot =>
    hn.congr (hsame heq) hload hkv heq hdisk hsnapshot
  have htake := fun k => h.take_eq (k := k)
  obtain ⟨hmove, hbefore, hafter, hinv, -, hgrows⟩ := h
  cases hmove with
  | @apply _ entry cmd _ hcommit hentry hcmd =>
      have he := (hbefore.log.entry_iff.mp hentry).2
      have hlog := htake (n.lastApplied + 1) hcommit hcommit
      rw [Command.applyTo_eq]
      refine ⟨?_, rfl, ?_⟩
      · show Replayed cfg.json ((σ₂.log x).take (n.lastApplied + 1)) (cmd.applyKv n.store.kv)
        rw [hlog]
        exact hn.kv.apply he hcmd
      · show ∃ kv, Store.decodeSnapshot cfg.json n.store.loadSnapshot.data = some kv ∧
          Replayed cfg.json ((σ₂.log x).take n.store.loadSnapshot.lastIncludedIndex) kv
        rw [htake _ (by omega) (show _ ≤ n.commitIndex by omega)]
        exact hn.snapshot
  | skip _ _ _ hskip => omega
  | @compact _ term _ _ _ =>
      have hlog := htake n.lastApplied hbefore.reached hbefore.reached
      refine ⟨?_, rfl, n.store.kv, Store.decodeSnapshot_createSnapshot _ _ _ term, ?_⟩
      · show Replayed cfg.json ((σ₂.log x).take n.lastApplied) n.store.kv
        rw [hlog]
        exact hn.kv
      · show Replayed cfg.json ((σ₂.log x).take n.lastApplied) n.store.kv
        rw [hlog]
        exact hn.kv
  | @install _ req state _ hnew hstate =>
      obtain ⟨hahead, hbacked, kv, hkv, hreplayed⟩ := hinstall _ _ _ _ rfl
      obtain rfl : kv = state := Option.some.inj (hkv.symm.trans hstate)
      have hle : req.lastIncludedIndex ≤ (σ₂.log x).length :=
        (le_max_right _ _).trans hafter.commit_le
      have hlog : (σ₂.log x).take req.lastIncludedIndex =
          (σ₁.llog req.term).take req.lastIncludedIndex :=
        hinv.take_eq_of_committed (fun _ _ hA hB => Config.Quorum.meet hA hB)
          hafter.committed (hgrows.committed le_rfl hbacked.committed) (le_max_right _ _)
          le_rfl hle hbacked.le
      have hmax : max n.lastApplied req.lastIncludedIndex = req.lastIncludedIndex :=
        max_eq_right hahead
      refine ⟨?_, hmax.symm, kv, hkv, ?_⟩
      · show Replayed cfg.json
          ((σ₂.log x).take (max n.lastApplied req.lastIncludedIndex)) kv
        rw [hmax, hlog]
        exact hreplayed
      · show Replayed cfg.json ((σ₂.log x).take req.lastIncludedIndex) kv
        rw [hlog]
        exact hreplayed
  | restart => exact hframe rfl hn.disk rfl rfl
  | progress _ =>
      unfold Node.recordPeerProgressLocked at hframe ⊢
      split_ifs at hframe ⊢ <;> exact hframe rfl rfl rfl rfl
  | _ => exact hframe rfl rfl rfl rfl

/-- A move takes back nothing that the node has applied. -/
theorem Followed.lastApplied_le
    (h : Followed cfg σ x l n n' σ₁ σ₂)
    (hn : n.Mirrors cfg.json (σ₁.log x)) :
    n.lastApplied ≤ n'.lastApplied := by
  cases h.move with
  | apply _ _ _ _ => exact Nat.le_succ _
  | skip _ _ _ hskip => exact (Nat.le_succ _).trans hskip
  | install _ _ _ => exact le_max_left _ _
  | restart => exact hn.disk.ge
  | progress _ =>
      unfold Node.recordPeerProgressLocked
      split_ifs <;> exact le_rfl
  | _ => exact le_rfl

end Moves

/-- A snapshot that is installed is not behind what the node has applied. -/
def SnapshotAhead (c : Cluster) (call : Call) : Prop :=
  match call.request with
  | .snapshot req =>
      req.term < (c.node call.dst).currentTerm ∨
        req.lastIncludedIndex ≤ (c.node call.dst).store.snapshotIndex ∨
        (c.node call.dst).lastApplied ≤ req.lastIncludedIndex
  | _ => True

/-- The step takes no table back. -/
def Forward (c : Cluster) : Action → Prop
  | .deliver id _ => ∀ call ∈ c.calls[id]?, c.SnapshotAhead call
  | _ => True

/-- The tables of the nodes and of the snapshots on their way are replays. -/
structure Replaying (cfg : Config) (σ : State String Entry) (c : Cluster) : Prop where
  nodes : ∀ x, (c.node x).Mirrors cfg.json (σ.log x)
  snapshots : ∀ call ∈ c.calls, ∀ req, call.request = .snapshot req →
    req.Mirrors cfg.json σ

/-- The entries that the cluster has committed: every node holds them up to its
commit index, and leaders have committed no others. -/
structure Commits (cfg : Config) (c : Cluster) (l : List Entry) : Prop where
  indexed : Indexed l
  reached : ∀ x ∈ cfg.members, (c.node x).commitIndex ≤ l.length
  held : ∀ x ∈ cfg.members, ∀ i, (c.node x).store.snapshotIndex ≤ i →
    i < (c.node x).commitIndex → (c.node x).store.entry (i + 1) = l[i]?
  recorded : ∀ x t k log, .committed x t k log ∈ c.events →
    k ≤ l.length ∧ ∀ e ∈ log, l[e.index - 1]? = some e

section Step

variable {cfg : Config} {c c' : Cluster} {a : Action} {x : String} {ls : List Label}
variable {σ σ' : State String Entry} {g : String → Nat → String → Prop}

theorem replaying_init :
    Replaying cfg Consensus.init init where
  nodes := fun _ => ⟨replayed_nil, rfl, Table.empty, rfl, replayed_nil⟩
  snapshots := by simp [init]

/-- A snapshot of a leader carries the table of its position. -/
theorem replays_buildSnapshotRequest
    {n : Node}
    (h : n.Tracks cfg σ x)
    (hn : n.Mirrors cfg.json (σ.log x))
    (hleader : n.role = .leader) :
    (n.buildSnapshotRequest (cfg.options x)).Mirrors cfg.json σ := by
  have hsnapshot := hn.snapshot
  rw [(h.leader hleader).log] at hsnapshot
  exact hsnapshot

/-- The tables after a step. -/
theorem Replaying.step
    (hreplaying : Replaying cfg σ c)
    (h : Refines cfg σ c)
    (hok : c.Followable a)
    (hforward : c.Forward a)
    (hthreads : c.Threads cfg)
    (hvotes : Elections cfg g c)
    (T : Transition cfg False c a c' x ls) :
    ∃ σ', RefinesAlong cfg σ c' x ls (c'.node x) σ' ∧ Replaying cfg σ' c' ∧
      ∀ y, (c.node y).lastApplied ≤ (c'.node y).lastApplied := by
  obtain ⟨σ', halong, hnode, happlied⟩ := h.path
    (Q := fun σ n => n.Mirrors cfg.json (σ.log x) ∧ (c.node x).lastApplied ≤ n.lastApplied) hok
    hthreads hvotes T ⟨hreplaying.nodes x, le_rfl⟩ fun l hl n n' σ₁ σ₂ hfollowed hn => by
      refine ⟨hfollowed.replays ?_ hn.1, hn.2.trans (hfollowed.lastApplied_le hn.1)⟩
      rintro req last known applied rfl
      obtain ⟨⟨src, id, os, rfl, hcall⟩, -, -, rfl, hterm, hnew⟩ := T.justified _ hl
      have hahead : c.SnapshotAhead ⟨src, x, .snapshot req⟩ := hforward _ hcall
      have hmem := List.mem_of_getElem? hcall
      have hbacked := h.snapshots _ hmem req rfl
      refine ⟨?_, hbacked.mono hfollowed.since,
        (hreplaying.snapshots _ hmem req rfl).mono hbacked.le hfollowed.since⟩
      rcases hahead with hstale | hold | hahead
      · exact absurd hterm (not_le.mpr hstale)
      · exact absurd hnew (not_lt.mpr hold)
      · exact hahead
  have hg := Steps.grows h.inv halong.steps
  refine ⟨σ', halong, ⟨fun y => ?_, fun call hcall req hreq => ?_⟩, fun y => ?_⟩
  · by_cases hy : y = x
    · exact hy ▸ hnode
    · rw [T.frame y hy, (Steps.frame halong.steps hy).2]
      exact hreplaying.nodes y
  · obtain ⟨new, hcalls, hbuilt⟩ := T.calls
    rw [hcalls, List.mem_append] at hcall
    rcases hcall with hcall | hcall
    · exact (hreplaying.snapshots call hcall req hreq).mono
        (h.snapshots call hcall req hreq).le hg
    · cases hbuilt call hcall with
      | vote _ _ _ _ => cases hreq
      | append _ _ _ _ _ => cases hreq
      | snapshot haction _ _ hsame =>
          subst haction
          cases hreq
          exact replays_buildSnapshotRequest halong.tracks hnode (hsame ▸ hok.sent)
  · by_cases hy : y = x
    · exact hy ▸ happlied
    · rw [T.frame y hy]

theorem Refines.committed_part
    (h : Refines cfg σ c)
    {event : Event}
    (hevent : event ∈ c.events) :
    ∃ t, CommittedBy Entry.term cfg.Quorum σ t (event.part σ) := by
  cases event with
  | committed x t k log =>
      obtain ⟨-, hchosen, -⟩ := h.history _ hevent
      exact ⟨t, Or.inr ⟨t, le_rfl, _, hchosen, List.prefix_rfl⟩⟩
  | _ => exact ⟨0, Or.inl rfl⟩

theorem Refines.indexed_of_committed
    (h : Refines cfg σ c)
    {t : Nat} {l : List Entry}
    (hl : CommittedBy Entry.term cfg.Quorum σ t l) :
    Indexed l := by
  rcases hl with rfl | ⟨u, -, k, ⟨⟨hk, -⟩, -⟩, hlk⟩
  · rfl
  · exact indexed_prefix_le (h.indexed u) (hlk.trans hk)

/-- What the nodes and the events have committed, and any other committed prefixes,
are prefixes of one sequence. -/
theorem Refines.commits
    (h : Refines cfg σ c)
    (ls : List (List Entry))
    (hls : ∀ l ∈ ls, ∃ t, CommittedBy Entry.term cfg.Quorum σ t l) :
    ∃ m, c.Commits cfg m ∧ (∀ x ∈ cfg.members,
      (σ.log x).take (c.node x).commitIndex <+: m) ∧ ∀ l ∈ ls, l <+: m := by
  obtain ⟨t, m, hm, hall⟩ := h.inv.exists_committed
    (fun _ _ hA hB => Config.Quorum.meet hA hB)
    (cfg.members.map (fun x => (σ.log x).take (c.node x).commitIndex) ++
      c.events.map (Event.part σ) ++ ls) (by
      intro l hl
      simp only [List.mem_append, List.mem_map] at hl
      rcases hl with (⟨x, -, rfl⟩ | ⟨event, hevent, rfl⟩) | hl
      · exact ⟨_, (h.nodes x).committed⟩
      · exact h.committed_part hevent
      · exact hls l hl)
  have hnodes : ∀ x ∈ cfg.members, (σ.log x).take (c.node x).commitIndex <+: m :=
    fun x hx => hall _ (List.mem_append_left _ (List.mem_append_left _ (List.mem_map_of_mem hx)))
  have hevents : ∀ event ∈ c.events, event.part σ <+: m :=
    fun event hevent => hall _ (List.mem_append_left _ (List.mem_append_right _ (List.mem_map_of_mem hevent)))
  refine ⟨m, ⟨h.indexed_of_committed hm, fun x hx => ?_, fun x hx i hi hlt => ?_,
    fun x t k log hevent => ⟨?_, fun e he => ?_⟩⟩, hnodes, fun l hl => hall l (by simp [hl])⟩
  · have hle := (hnodes x hx).length_le
    rwa [List.length_take, min_eq_left (h.nodes x).commit_le] at hle
  · have hlen := hlt.trans_le (h.nodes x).commit_le
    have hat : ((σ.log x).take (c.node x).commitIndex)[i]? = some (σ.log x)[i] := by
      rw [List.getElem?_take_of_lt hlt, List.getElem?_eq_getElem hlen]
    rw [(h.nodes x).log.rows i hi, List.getElem?_eq_getElem hlen,
      getElem?_prefix_eq (hnodes x hx) hat]
  · obtain ⟨hk, -, -⟩ := h.history _ hevent
    have hle := (hevents _ hevent).length_le
    rwa [Event.part, List.length_take, min_eq_left hk] at hle
  · exact getElem?_prefix_eq (hevents _ hevent) (h.committed_entry hevent he)

end Step

section Runs

variable {cfg : Config} {as : List Action} {c : Cluster}

/-- There is one sequence of committed entries, and the table of every node is the
replay of the first `lastApplied` of them. -/
theorem state_machine_safety
    (halong : Along cfg (fun c a => c.Followable a ∧ c.Forward a) init as)
    (hexec : init.exec cfg as = some c) :
    ∃ l, c.Commits cfg l ∧
      (∀ x ∈ cfg.members, (c.node x).store.lastApplied = (c.node x).lastApplied ∧
        (c.node x).lastApplied ≤ l.length ∧
        Replayed cfg.json (l.take (c.node x).lastApplied) (c.node x).store.kv) ∧
      ∀ x ∈ cfg.members, ∀ y ∈ cfg.members,
        (c.node x).lastApplied = (c.node y).lastApplied →
        (c.node x).store.kv = (c.node y).store.kv := by
  obtain ⟨σ, hrefines, hreplaying⟩ : ∃ σ, Refines cfg σ c ∧ Replaying cfg σ c := by
    refine exec_refines_with (fun _ _ h => h.1) replaying_init ?_ halong hexec
    intro g σ c a c' hthreads hvotes hrefines hok hc' hreplaying
    obtain ⟨x, ls, T, -⟩ : c.Next cfg False a c' :=
      step_next hthreads (fun hfail => hok.1.commits hfail) hok.1.terms hc'
    obtain ⟨σ', hpath, hreplaying', -⟩ :=
      hreplaying.step hrefines hok.1 hok.2 hthreads hvotes T
    exact ⟨x, ls, σ', T, hpath, hreplaying'⟩
  obtain ⟨l, hcommits, hextends, -⟩ := hrefines.commits [] (by simp)
  have hreplayed : ∀ x ∈ cfg.members, (c.node x).lastApplied ≤ l.length ∧
      Replayed cfg.json (l.take (c.node x).lastApplied) (c.node x).store.kv := by
    intro x hx
    have htracks := hrefines.nodes x
    refine ⟨htracks.reached.trans (hcommits.reached x hx), ?_⟩
    have htake := take_prefix_eq (hextends x hx) (i := (c.node x).lastApplied) (by
      rw [List.length_take, min_eq_left htracks.commit_le]
      exact htracks.reached)
    rw [htake, List.take_take, min_eq_left htracks.reached]
    exact (hreplaying.nodes x).kv
  refine ⟨l, hcommits, fun x hx => ⟨(hreplaying.nodes x).disk, hreplayed x hx⟩,
    fun x hx y hy heq => ?_⟩
  have hkv := (hreplayed x hx).2
  rw [heq] at hkv
  exact hkv.unique (hreplayed y hy).2

section Sample

open LogReplicator.Action

instance (c : Cluster) (call : Call) : Decidable (c.SnapshotAhead call) :=
  match call with
  | ⟨_, _, .vote _⟩ => inferInstanceAs (Decidable True)
  | ⟨_, _, .append _⟩ => inferInstanceAs (Decidable True)
  | ⟨_, _, .snapshot _⟩ => inferInstanceAs (Decidable (_ ∨ _ ∨ _))

instance (c : Cluster) (a : Action) : Decidable (c.Forward a) :=
  match a with
  | .deliver id _ =>
      inferInstanceAs (Decidable (∀ call ∈ c.calls[id]?, c.SnapshotAhead call))
  | .campaign .. | .countVote .. | .missVote .. | .loseElection .. | .winElection ..
  | .commitAlone .. | .replicate .. | .giveUp .. | .checkLeader .. | .checkSnapshot ..
  | .sendEntries .. | .sendSnapshot .. | .callFails .. | .appendReply .. | .appendDone ..
  | .snapshotReply .. | .snapshotDone .. | .invoke .. | .route .. | .propose .. | .poll ..
  | .expire .. | .confirm .. | .readKey .. | .crash .. => inferInstanceAs (Decidable True)

theorem state_machine_safety_failover :
    Along (trio fun _ => 0) (fun c a => c.Followable a ∧ c.Forward a) init failover ∧
      ∃ c l, init.exec (trio fun _ => 0) failover = some c ∧
        c.Commits (trio fun _ => 0) l ∧ (c.node "a").lastApplied = 1 ∧
        Replayed Json.compact (l.take 1) (c.node "a").store.kv := by
  have halong : Along (trio fun _ => 0) (fun c a => c.Followable a ∧ c.Forward a) init
      failover := by
    decide +kernel
  have hrun : ((init.exec (trio fun _ => 0) failover).map fun c =>
      (c.node "a").lastApplied) = some 1 := by
    decide +kernel
  obtain ⟨c, hexec, happlied⟩ := Option.map_eq_some_iff.mp hrun
  obtain ⟨l, hcommits, htables, -⟩ := state_machine_safety halong hexec
  obtain ⟨-, -, htable⟩ := htables "a" (by decide)
  rw [happlied] at htable
  exact ⟨halong, c, l, hexec, hcommits, happlied, htable⟩

/-- `a` commits and compacts an entry in term 1 and is about to send `c` the snapshot.
`b` leads term 2 with the vote of `a`, and `c` applies two entries.  The snapshot of
`a` goes out in term 2. -/
def lateSnapshot : List Action :=
  elect "a" "b" 0 1 ++ proposal "a" 0 "k1" "v1" ++ checks "a" "b" none ++
    appendCall "a" "b" 2 1 1 true ++ checks "a" "c" none ++
    elect "b" "a" 3 2 ++ proposal "b" 1 "k2" "v2" ++
    checks "b" "c" none ++ appendCall "b" "c" 5 2 0 false ++
    [checkLeader "b" "c", checkSnapshot "b" "c"] ++ appendCall "b" "c" 6 2 2 true ++
    checks "b" "c" none ++ appendCall "b" "c" 7 2 2 true ++
    [sendSnapshot "a" "c", deliver 8 []]

/-- `b` and `c` have both applied two entries, but the table of `c` is the one after
the first. -/
theorem tables_differ_of_lateSnapshot :
    Along (trio fun x => if x = "a" then 1 else 0)
        (fun c a => .fail ∉ a.outcomes ∧ c.TermsLeft a) init lateSnapshot ∧
      ∃ c, init.exec (trio fun x => if x = "a" then 1 else 0) lateSnapshot = some c ∧
        (c.node "b").lastApplied = 2 ∧ (c.node "c").lastApplied = 2 ∧
        (c.node "b").store.kv.rows = [("k1", "v1"), ("k2", "v2")] ∧
        (c.node "c").store.kv.rows = [("k1", "v1")] := by
  have halong : Along (trio fun x => if x = "a" then 1 else 0)
      (fun c a => .fail ∉ a.outcomes ∧ c.TermsLeft a) init lateSnapshot := by
    decide +kernel
  have hrun : ((init.exec (trio fun x => if x = "a" then 1 else 0) lateSnapshot).map
      fun c => ((c.node "b").lastApplied, (c.node "c").lastApplied,
        (c.node "b").store.kv.rows, (c.node "c").store.kv.rows)) =
      some (2, 2, [("k1", "v1"), ("k2", "v2")], [("k1", "v1")]) := by
    decide +kernel
  obtain ⟨c, hexec, htables⟩ := Option.map_eq_some_iff.mp hrun
  simp only [Prod.mk.injEq] at htables
  exact ⟨halong, c, hexec, htables⟩

end Sample

end Runs

end Cluster

end LogReplicator
