import LogReplicator.Library.Path
import LogReplicator.Raft.Cluster
import LogReplicator.Storage.Layout

/-!
# What a node can do

Every section of a node is a sequence of small changes.  A `Label` names a
change with the data it carries, and `Move` says when it can happen and what it
does to the node.  The specifications of the sections are in terms of these
changes, so a property of nodes is proved once per change and not once per
section.

A change that writes comes in one piece with the memory it belongs to: no
section dies between the write and the update that follows it.
-/

namespace LogReplicator

open Library

/-- The surroundings of a node.  `faulty` allows failing writes; `solo` gives up
everything that only the rest of the cluster can guarantee. -/
structure Env where
  json : Json
  options : Options
  faulty : Prop
  solo : Prop

/-- The entries are numbered from the position after the previous one. -/
def AppendEntriesRequest.Numbered (req : AppendEntriesRequest) : Prop :=
  req.entries.map Entry.index =
    List.range' (req.prevLogIndex + 1) req.entries.length

instance (req : AppendEntriesRequest) : Decidable req.Numbered :=
  inferInstanceAs (Decidable (_ = _))

namespace AppendEntriesRequest

variable {req : AppendEntriesRequest} {pre post : List Entry} {e : Entry}

theorem Numbered.split
    (h : req.Numbered)
    (hsplit : req.entries = pre ++ e :: post) :
    pre.map Entry.index = List.range' (req.prevLogIndex + 1) pre.length ∧
      e.index = req.prevLogIndex + 1 + pre.length ∧
      (e :: post).map Entry.index = List.range' e.index (e :: post).length := by
  unfold Numbered at h
  rw [hsplit, List.map_append, List.length_append,
    ← List.range'_append_1] at h
  obtain ⟨hpre, hpost⟩ := List.append_inj h (by simp)
  have he : e.index = req.prevLogIndex + 1 + pre.length := by
    simpa [List.range'_succ] using congrArg List.head? hpost
  exact ⟨hpre, he, by rw [hpost, he]⟩

theorem Numbered.nodup
    (h : req.Numbered) :
    (req.entries.map Entry.index).Nodup := by
  rw [h]
  exact List.nodup_range'

theorem Numbered.mem_bounds
    (h : req.Numbered)
    (he : e ∈ req.entries) :
    req.prevLogIndex < e.index ∧
      e.index ≤ req.prevLogIndex + req.entries.length := by
  have hmem : e.index ∈ req.entries.map Entry.index := List.mem_map_of_mem he
  rw [h, List.mem_range'_1] at hmem
  omega

theorem Numbered.lt_of_mem_pre
    (h : req.Numbered)
    (hsplit : req.entries = pre ++ e :: post)
    {d : Entry} (hd : d ∈ pre) :
    d.index < e.index := by
  obtain ⟨hpre, he, -⟩ := h.split hsplit
  have hmem : d.index ∈ pre.map Entry.index := List.mem_map_of_mem hd
  rw [hpre, List.mem_range'_1] at hmem
  omega

theorem Numbered.le_of_mem_post
    (h : req.Numbered)
    (hsplit : req.entries = pre ++ e :: post)
    {d : Entry} (hd : d ∈ e :: post) :
    e.index ≤ d.index := by
  obtain ⟨-, -, hpost⟩ := h.split hsplit
  have hmem : d.index ∈ (e :: post).map Entry.index := List.mem_map_of_mem hd
  rw [hpost, List.mem_range'_1] at hmem
  exact hmem.1

end AppendEntriesRequest

inductive Label where
  /-- Step down for a newer term, on disk too if `saved`. -/
  | raise (term : Nat) (saved : Bool)
  | follow (leaderID : String)
  | campaign (term : Nat) (saved : Bool)
  | vote (req : RequestVoteRequest) (saved : Bool)
  /-- Become leader with a log that ends at `last`. -/
  | lead (term : Nat) (last : Nat × Nat) (snapshotIndex : Nat) (log : List Entry)
  /-- Put an entry behind a log whose last entry has term `prevTerm`. -/
  | propose (entry : Entry) (prevTerm : Nat)
  /-- Drop the suffix that starts at the first conflict. -/
  | truncate (req : AppendEntriesRequest) (conflict : Entry)
  | store (req : AppendEntriesRequest) (missing : List Entry)
  /-- Everything in the request is stored up to `matchIndex`. -/
  | accept (req : AppendEntriesRequest) (matchIndex : Nat)
  /-- Adopt the commit index of the leader while the log ends at `last`. -/
  | learn (req : AppendEntriesRequest) (last : Nat)
  /-- Move the commit index as the leader. -/
  | advance (term commitIndex : Nat) (log : List Entry)
  | apply (cmd : Command)
  | skip
  | compact
  /-- Install a snapshot on a log that ends at `last`, knows the term `known` at
  the position of the snapshot and is applied up to `applied`. -/
  | install (req : InstallSnapshotRequest) (last : Nat) (known : Option Nat)
      (applied : Nat)
  /-- The snapshot is no news. -/
  | ignore (req : InstallSnapshotRequest)
  | setNext (peerID : String) (index : Nat)
  /-- Learn, as the leader of a term, what a peer stores. -/
  | progress (peerID : String) (term matchIndex : Nat)
  | restart

namespace Node

/-- The node follows the sender of an append whose previous entry it holds. -/
structure Attached (n : Node) (req : AppendEntriesRequest) : Prop where
  term : n.currentTerm = req.term
  role : n.role = .follower
  snapshot : n.store.snapshotIndex ≤ req.prevLogIndex
  prev : req.Numbered → n.store.term req.prevLogIndex = some req.prevLogTerm

/-- The node follows the sender of a snapshot. -/
structure Listens (n : Node) (req : InstallSnapshotRequest) : Prop where
  term : n.currentTerm = req.term
  role : n.role = .follower

/-- The node knows these entries by their terms. -/
def Holds (n : Node) (es : List Entry) : Prop :=
  ∀ e ∈ es, n.store.term e.index = some e.term

/-- The entry is the first of the request that the node lacks. -/
structure Lacks (n : Node) (req : AppendEntriesRequest) (pre : List Entry)
    (e : Entry) (post : List Entry) : Prop where
  split : req.entries = pre ++ e :: post
  fresh : n.store.snapshotIndex < e.index
  held : req.Numbered → n.Holds pre

end Node

/-- What a labelled change does. -/
inductive Move (env : Env) : Label → Node → Node → Prop
  | raise
      {n : Node} {term : Nat}
      (hterm : n.currentTerm < term) :
      Move env (.raise term true) n
        { n with
          role := .follower
          currentTerm := term
          votedFor := ""
          store := n.store.saveTermVote term "" }
  | raiseUnsaved
      {n : Node} {term : Nat}
      (hfaulty : env.faulty)
      (hterm : n.currentTerm < term) :
      Move env (.raise term false) n
        { n with role := .follower, currentTerm := term, votedFor := "" }
  | follow
      {n : Node} {leaderID : String} :
      Move env (.follow leaderID) n { n with role := .follower, leaderID := leaderID }
  | campaign
      {n : Node}
      (hrole : n.role ≠ .leader)
      (hterm : env.solo ∨ n.currentTerm + 1 < maxTerms) :
      Move env (.campaign (nextTerm n.currentTerm) true) n
        { n with
          role := .candidate
          currentTerm := nextTerm n.currentTerm
          votedFor := env.options.nodeID
          leaderID := ""
          store := n.store.saveTermVote (nextTerm n.currentTerm) env.options.nodeID }
  | campaignUnsaved
      {n : Node}
      (hfaulty : env.faulty)
      (hrole : n.role ≠ .leader)
      (hterm : env.solo ∨ n.currentTerm + 1 < maxTerms) :
      Move env (.campaign (nextTerm n.currentTerm) false) n
        { n with
          role := .candidate
          currentTerm := nextTerm n.currentTerm
          votedFor := env.options.nodeID
          leaderID := "" }
  | vote
      {n : Node} {req : RequestVoteRequest}
      (hterm : n.currentTerm = req.term)
      (hfree : n.votedFor = "" ∨ n.votedFor = req.candidateId)
      (hlog : Node.upToDate n.store req = true) :
      Move env (.vote req true) n
        { n with
          votedFor := req.candidateId
          store := n.store.saveTermVote n.currentTerm req.candidateId }
  | voteUnsaved
      {n : Node} {req : RequestVoteRequest}
      (hfaulty : env.faulty)
      (hterm : n.currentTerm = req.term)
      (hfree : n.votedFor = "" ∨ n.votedFor = req.candidateId) :
      Move env (.vote req false) n { n with votedFor := req.candidateId }
  | lead
      {n : Node}
      (hrole : n.role = .candidate)
      (hvote : env.solo ∨
        (n.store.currentTerm = n.currentTerm ∧
          n.store.votedFor = env.options.nodeID)) :
      Move env
        (.lead n.currentTerm n.store.lastIndexAndTerm n.store.snapshotIndex
          (n.store.entriesFrom 1 0)) n
        (Node.asLeader env.options n)
  | propose
      {n : Node} {payload : Bytes}
      (hrole : n.role = .leader) :
      Move env (.propose (n.clientEntry payload) n.store.lastIndexAndTerm.2) n
        { n with store := n.store.appendEntries [n.clientEntry payload] }
  | truncate
      {n : Node} {req : AppendEntriesRequest} {pre post : List Entry} {e : Entry}
      {term : Nat}
      (hreq : n.Attached req)
      (hlacks : n.Lacks req pre e post)
      (hlocal : n.store.term e.index = some term)
      (hconflict : term ≠ e.term) :
      Move env (.truncate req e) n { n with store := n.store.deleteFrom e.index }
  | store
      {n : Node} {req : AppendEntriesRequest} {pre post : List Entry} {e : Entry}
      (hreq : n.Attached req)
      (hlacks : n.Lacks req pre e post)
      (hlocal : n.store.term e.index = none) :
      Move env
        (.store req
          ((e :: post).filter fun d => decide (n.store.snapshotIndex < d.index))) n
        { n with
          store := n.store.appendEntries
            ((e :: post).filter fun d => decide (n.store.snapshotIndex < d.index)) }
  | accept
      {n : Node} {req : AppendEntriesRequest} {matchIndex : Nat}
      (hreq : n.Attached req)
      (hheld : req.Numbered → n.Holds req.entries)
      (hmatch : req.Numbered → matchIndex = req.prevLogIndex + req.entries.length) :
      Move env (.accept req matchIndex) n n
  | learn
      {n : Node} {req : AppendEntriesRequest}
      (hreq : n.Attached req)
      (hheld : req.Numbered → n.Holds req.entries)
      (hcommit : n.commitIndex < req.leaderCommit) :
      Move env (.learn req n.store.lastIndex) n
        { n with commitIndex := min req.leaderCommit n.store.lastIndex }
  | advance
      {n : Node}
      (hrole : env.solo ∨ n.role = .leader)
      (hcommit : n.committedIndex env.options ≠ n.commitIndex) :
      Move env
        (.advance n.currentTerm (n.committedIndex env.options)
          (Cluster.logThrough n (n.committedIndex env.options))) n
        { n with commitIndex := n.committedIndex env.options }
  | apply
      {n : Node} {entry : Entry} {cmd : Command}
      (hrole : env.solo ∨ n.role ≠ .candidate)
      (hcommit : n.lastApplied < n.commitIndex)
      (hentry : n.store.entry (n.lastApplied + 1) = some entry)
      (hcmd : decodeCommand env.json entry.command = .ok cmd) :
      Move env (.apply cmd) n
        { n with
          store := cmd.applyTo (n.lastApplied + 1) n.store
          lastApplied := n.lastApplied + 1 }
  | skip
      {n : Node}
      (hrole : env.solo ∨ n.role ≠ .candidate)
      (hcommit : n.lastApplied < n.commitIndex)
      (hentry : n.store.entry (n.lastApplied + 1) = none)
      (hsnapshot : n.lastApplied + 1 ≤ n.store.snapshotIndex) :
      Move env .skip n
        { n with
          store := n.store.skipTo n.store.snapshotIndex
          lastApplied := n.store.snapshotIndex }
  | compact
      {n : Node} {term : Nat}
      (hrole : env.solo ∨ n.role ≠ .candidate)
      (happlied : n.store.snapshotIndex < n.lastApplied)
      (hterm : n.store.term n.lastApplied = some term) :
      Move env .compact n
        { n with store := n.store.createSnapshot env.json n.lastApplied term }
  | install
      {n : Node} {req : InstallSnapshotRequest} {state : Table String String}
      (hreq : n.Listens req)
      (hnew : n.store.snapshotIndex < req.lastIncludedIndex)
      (hstate : Store.decodeSnapshot env.json req.data = some state) :
      Move env
        (.install req n.store.lastIndex (n.store.term req.lastIncludedIndex)
          n.lastApplied) n
        { n with
          store := n.store.installSnapshot
            ⟨req.lastIncludedIndex, req.lastIncludedTerm, req.data⟩ state
          commitIndex := max n.commitIndex req.lastIncludedIndex
          lastApplied := max n.lastApplied req.lastIncludedIndex }
  | ignore
      {n : Node} {req : InstallSnapshotRequest}
      (hreq : n.Listens req)
      (hold : req.lastIncludedIndex ≤ n.store.snapshotIndex) :
      Move env (.ignore req) n n
  | setNext
      {n : Node} {peerID : String} {index : Nat} :
      Move env (.setNext peerID index) n (n.setNextIndex peerID index)
  | progress
      {n : Node} {peerID : String} {matchIndex : Nat}
      (hrole : n.role = .leader) :
      Move env (.progress peerID n.currentTerm matchIndex) n
        (Node.recordPeerProgressLocked peerID matchIndex n)
  | restart
      {n : Node} :
      Move env .restart n (Node.new n.store)

section Frame

variable {env : Env} {l : Label} {n n' : Node}

/-- The changes that leave the term of the node alone. -/
def Label.KeepsTerm : Label → Prop
  | .raise _ _ => False
  | .campaign _ _ => False
  | .restart => False
  | _ => True

/-- The changes that leave the role of the node alone. -/
def Label.KeepsRole : Label → Prop
  | .raise _ _ => False
  | .follow _ => False
  | .campaign _ _ => False
  | .lead _ _ _ _ => False
  | .restart => False
  | _ => True

theorem Move.currentTerm_eq
    (h : Move env l n n')
    (hl : l.KeepsTerm) :
    n'.currentTerm = n.currentTerm := by
  cases h with
  | progress _ =>
      unfold Node.recordPeerProgressLocked
      split_ifs <;> rfl
  | raise _ => exact hl.elim
  | raiseUnsaved _ _ => exact hl.elim
  | campaign _ _ => exact hl.elim
  | campaignUnsaved _ _ _ => exact hl.elim
  | restart => exact hl.elim
  | _ => rfl

theorem Move.role_eq
    (h : Move env l n n')
    (hl : l.KeepsRole) :
    n'.role = n.role := by
  cases h with
  | progress _ =>
      unfold Node.recordPeerProgressLocked
      split_ifs <;> rfl
  | raise _ => exact hl.elim
  | raiseUnsaved _ _ => exact hl.elim
  | follow => exact hl.elim
  | campaign _ _ => exact hl.elim
  | campaignUnsaved _ _ _ => exact hl.elim
  | lead _ _ => exact hl.elim
  | restart => exact hl.elim
  | _ => rfl

theorem Path.currentTerm_eq
    {ls : List Label}
    (h : Path (Move env) ls n n')
    (hls : ∀ l ∈ ls, l.KeepsTerm) :
    n'.currentTerm = n.currentTerm :=
  h.invariant (P := fun m => m.currentTerm = n.currentTerm) rfl
    fun l hl _ _ hmove hm => (hmove.currentTerm_eq (hls l hl)).trans hm

theorem Path.role_eq
    {ls : List Label}
    (h : Path (Move env) ls n n')
    (hls : ∀ l ∈ ls, l.KeepsRole) :
    n'.role = n.role :=
  h.invariant (P := fun m => m.role = n.role) rfl
    fun l hl _ _ hmove hm => (hmove.role_eq (hls l hl)).trans hm

end Frame

/-- A section of the node is a path of moves; what survives is the store. -/
abbrev Env.Spec (env : Env) {α : Type} (m : Txn Node α)
    (Q : α → List Label → Node → Prop) (D : List Label → Prop) (n : Node) : Prop :=
  Txn.Spec env.faulty (Move env) Node.store m Q D n

/-- A run of a section returns at the end of its path, or dies and leaves the
store at the end of its path. -/
theorem Env.Spec.cases
    {env : Env} {α : Type} {m : Txn Node α}
    {Q : α → List Label → Node → Prop} {D : List Label → Prop} {n : Node}
    (h : env.Spec m Q D n)
    (os : List Outcome) (hos : Txn.Allowed env.faulty os) :
    (∃ a n' os' ls, m os n = (some a, n', os') ∧ Path (Move env) ls n n' ∧ Q a ls n') ∨
    (∃ n' os' ls n'', m os n = (none, n', os') ∧ n'.store = n''.store ∧
      Path (Move env) ls n n'' ∧ D ls) := by
  rcases hr : m os n with ⟨_ | a, n', os'⟩
  · obtain ⟨ls, n'', hpath, hstore, hD⟩ := Txn.wp_none h hos hr
    exact Or.inr ⟨n', os', ls, n'', rfl, hstore.symm, hpath, hD⟩
  · obtain ⟨ls, hpath, hQ⟩ := Txn.wp_some h hos hr
    exact Or.inl ⟨a, n', os', ls, rfl, hpath, hQ⟩

end LogReplicator
