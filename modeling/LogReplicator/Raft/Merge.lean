import LogReplicator.Library.TwoLogs
import LogReplicator.Raft.Solo
import LogReplicator.Storage.FullLog

/-!
# Merging pieces of a leader log

A follower with the log `f` receives pieces of a leader log `l`.  One move of the
append handler keeps log matching and every common prefix of the two, and an
accepted piece is part of the follower's log from then on.
-/

namespace LogReplicator

open Library Library.Consensus

/-- The request carries a piece of the log, with the term before it. -/
structure AppendEntriesRequest.Carries (l : List Entry) (req : AppendEntriesRequest) :
    Prop where
  prev_le : req.prevLogIndex ≤ l.length
  prev : req.prevLogTerm = termAt Entry.term l req.prevLogIndex
  entries : req.entries <+: l.drop req.prevLogIndex

instance (l : List Entry) (req : AppendEntriesRequest) : Decidable (req.Carries l) :=
  decidable_of_iff
    (req.prevLogIndex ≤ l.length ∧
      req.prevLogTerm = termAt Entry.term l req.prevLogIndex ∧
      req.entries <+: l.drop req.prevLogIndex)
    ⟨fun h => ⟨h.1, h.2.1, h.2.2⟩, fun h => ⟨h.prev_le, h.prev, h.entries⟩⟩

section Pieces

variable {l : List Entry} {req : AppendEntriesRequest}

theorem AppendEntriesRequest.Carries.append_le
    (h : req.Carries l) :
    l.take req.prevLogIndex ++ req.entries <+: l := by
  have := (List.prefix_append_right_inj (l.take req.prevLogIndex)).mpr h.entries
  rwa [List.take_append_drop] at this

theorem AppendEntriesRequest.Carries.length_le
    (h : req.Carries l) :
    req.prevLogIndex + req.entries.length ≤ l.length := by
  have hlen := h.append_le.length_le
  have hprev := h.prev_le
  rw [List.length_append, List.length_take] at hlen
  omega

theorem AppendEntriesRequest.Carries.numbered
    (h : req.Carries l)
    (hl : Indexed l) :
    req.Numbered := by
  obtain ⟨rest, hrest⟩ := h.entries
  have hlen := congrArg List.length hrest
  rw [List.length_append, List.length_drop] at hlen
  have hindexes := congrArg (List.drop req.prevLogIndex) hl
  rw [← List.map_drop, ← hrest, List.map_append, List.drop_range', ← hlen,
    ← List.range'_append_1, Nat.mul_one, Nat.add_comm 1] at hindexes
  exact (List.append_inj hindexes (by simp)).1

/-- The entry behind the first ones of a piece. -/
theorem AppendEntriesRequest.Carries.getElem?
    (h : req.Carries l)
    {pre post : List Entry} {e : Entry}
    (hsplit : req.entries = pre ++ e :: post) :
    l[req.prevLogIndex + pre.length]? = some e := by
  obtain ⟨rest, hrest⟩ := h.entries
  rw [← List.getElem?_drop, ← hrest, hsplit, List.append_assoc,
    List.getElem?_append_right le_rfl]
  simp

/-- A request reaches as far as it has entries. -/
theorem lastEntryIndex_of_numbered
    (h : req.Numbered) :
    lastEntryIndex req = req.prevLogIndex + req.entries.length := by
  unfold lastEntryIndex
  rcases List.eq_nil_or_concat req.entries with hnil | ⟨es, e, hes⟩
  · simp [hnil]
  · rw [List.concat_eq_append] at hes
    have hindex := (h.split hes).2.1
    rw [hes, List.getLast?_concat, List.length_append]
    simp only [hindex, List.length_singleton]
    omega

end Pieces

section Keeping

variable {env : Env} {n n' : Node} {a : Label} {l f : List Entry}

/-- The moves that leave the full log alone. -/
def Label.KeepsLog : Label → Prop
  | .propose _ _ => False
  | .truncate _ _ => False
  | .store _ _ => False
  | .install _ _ _ _ => False
  | _ => True

theorem Move.stores
    (h : Move env a n n')
    (ha : a.KeepsLog)
    (hf : n.store.Stores f) :
    n'.store.Stores f := by
  have hnumbered : a.Numbered := by
    cases a <;> trivial
  have hordered := h.ordered hnumbered hf.ordered
  cases h with
  | propose _ => exact ha.elim
  | truncate _ _ _ _ => exact ha.elim
  | store _ _ _ => exact ha.elim
  | install _ _ _ => exact ha.elim
  | compact _ hold hterm => exact hf.createSnapshot env.json hold hterm
  | apply _ _ _ _ =>
      rw [Command.applyTo_eq] at hordered ⊢
      exact hf.congr hordered rfl rfl rfl
  | progress _ =>
      unfold Node.recordPeerProgressLocked
      split_ifs <;> exact hf
  | _ => exact hf.congr hordered rfl rfl rfl

end Keeping

section Agreement

variable {n : Node} {l f : List Entry} {req : AppendEntriesRequest}

/-- A follower that knows the first entries of a piece has the log up to them. -/
theorem Node.Attached.agrees
    (hreq : n.Attached req)
    (hcarries : req.Carries l)
    (hl : Indexed l)
    (hf : n.store.Stores f)
    (hmatching : Matching Entry.term f l)
    {pre post : List Entry}
    (hsplit : req.entries = pre ++ post)
    (hheld : n.Holds pre) :
    req.prevLogIndex + pre.length ≤ f.length ∧
      f.take (req.prevLogIndex + pre.length) =
        l.take (req.prevLogIndex + pre.length) := by
  have hnum := hcarries.numbered hl
  have hlen := hcarries.length_le
  rw [hsplit, List.length_append] at hlen
  rcases List.eq_nil_or_concat' pre with rfl | ⟨p, d, rfl⟩
  · obtain ⟨hle, hterm⟩ := hf.of_term (hreq.prev hnum)
    rw [List.length_nil, Nat.add_zero]
    exact ⟨hle, hmatching _ hle hcarries.prev_le (by rw [hterm, hcarries.prev])⟩
  · have hsplit' : req.entries = p ++ d :: post := by simpa using hsplit
    have hindex := (hnum.split hsplit').2.1
    have hd := hheld d (by simp)
    have hat := termAt_succ (τ := Entry.term) (hcarries.getElem? hsplit')
    rw [hindex, show req.prevLogIndex + 1 + p.length =
      req.prevLogIndex + p.length + 1 by omega] at hd
    obtain ⟨hle, hterm⟩ := hf.of_term hd
    rw [List.length_append, List.length_singleton, ← Nat.add_assoc] at hlen ⊢
    exact ⟨hle, hmatching _ hle (by omega) (by rw [hterm, hat])⟩

end Agreement

section Step

variable {env : Env} {n n' : Node} {a : Label} {l f : List Entry}
variable {req : AppendEntriesRequest}

/-- The follower's log became `f'`: it still matches the leader's, and no common
prefix got lost. -/
structure Merges (l f f' : List Entry) : Prop where
  matching : Matching Entry.term f' l
  common : ∀ p, p <+: f → p <+: l → p <+: f'

theorem Merges.refl
    (h : Matching Entry.term f l) :
    Merges l f f :=
  ⟨h, fun _ hp _ => hp⟩

theorem Merges.trans
    {f' f'' : List Entry}
    (h : Merges l f f')
    (h' : Merges l f' f'') :
    Merges l f f'' :=
  ⟨h'.matching, fun p hf hl => h'.common p (h.common p hf hl) hl⟩

/-- Truncating at the first conflict cuts right behind the common part. -/
theorem Node.Lacks.merged_truncate
    {pre post : List Entry} {e : Entry} {term : Nat}
    (hlacks : n.Lacks req pre e post)
    (hreq : n.Attached req)
    (hcarries : req.Carries l)
    (hl : Indexed l)
    (hf : n.store.Stores f)
    (hmatching : Matching Entry.term f l)
    (hlocal : n.store.term e.index = some term)
    (hconflict : term ≠ e.term) :
    Merges l f (f.take (e.index - 1)) ∧ f.take (e.index - 1) <+: l ∧
      (f.take (e.index - 1)).length ≤ req.prevLogIndex + req.entries.length := by
  have hnum := hcarries.numbered hl
  obtain ⟨-, hindex, -⟩ := hnum.split hlacks.split
  obtain ⟨-, hagree⟩ := hreq.agrees hcarries hl hf hmatching hlacks.split (hlacks.held hnum)
  have hat := termAt_succ (τ := Entry.term) (hcarries.getElem? hlacks.split)
  have hterm := (hf.of_term hlocal).2
  have hpart : f.take (req.prevLogIndex + pre.length) <+: l :=
    hagree ▸ List.take_prefix _ _
  have hbound := (hnum.mem_bounds (hlacks.split ▸ by simp : e ∈ req.entries)).2
  rw [show e.index - 1 = req.prevLogIndex + pre.length by omega]
  refine ⟨⟨matching_of_le hpart, fun p hpf hpl => ?_⟩, hpart, by
    rw [List.length_take]
    omega⟩
  have hlt : p.length < e.index := by
    refine length_lt_of_termAt_ne (τ := Entry.term) hpf hpl ?_
    rw [hterm, show e.index = req.prevLogIndex + pre.length + 1 by omega, hat]
    exact hconflict
  exact List.prefix_take_iff.mpr ⟨hpf, by omega⟩

/-- Storing the missing entries makes the follower's log a prefix of the leader's. -/
theorem Node.Lacks.merged_store
    {pre post : List Entry} {e : Entry}
    (hlacks : n.Lacks req pre e post)
    (hreq : n.Attached req)
    (hcarries : req.Carries l)
    (hl : Indexed l)
    (hf : n.store.Stores f)
    (hmatching : Matching Entry.term f l)
    (hnone : n.store.term e.index = none) :
    (n.store.appendEntries (e :: post)).Stores (f ++ e :: post) ∧
      Merges l f (f ++ e :: post) ∧ f ++ e :: post <+: l ∧
      (f ++ e :: post).length ≤ req.prevLogIndex + req.entries.length := by
  have hnum := hcarries.numbered hl
  obtain ⟨-, hindex, hpost⟩ := hnum.split hlacks.split
  obtain ⟨-, hagree⟩ := hreq.agrees hcarries hl hf hmatching hlacks.split (hlacks.held hnum)
  have hlast := hlacks.index_eq hreq hnum hnone hf.ordered
  rw [hf.length] at hlast
  have hlen : f.length = req.prevLogIndex + pre.length := by omega
  have hf' : f = l.take f.length := by
    rw [hlen, ← hagree, ← hlen, List.take_length]
  have hrest : e :: post <+: l.drop f.length := by
    have hdrop := hcarries.entries.drop pre.length
    rwa [hlacks.split, List.drop_left, List.drop_drop, ← hlen] at hdrop
  have hle : f ++ e :: post <+: l := by
    have hall := List.take_append_drop f.length l
    rw [← hf'] at hall
    rw [← hall]
    exact (List.prefix_append_right_inj f).mpr hrest
  refine ⟨hf.appendEntries (by rw [hpost, hlast]),
    ⟨matching_of_le hle, fun p hp _ => hp.trans (List.prefix_append _ _)⟩, hle, ?_⟩
  rw [hlacks.split, List.length_append, List.length_append, hlen]
  omega

/-- The follower's log is the old one, or a part of the leader's no longer than the
request reaches. -/
def AppendEntriesRequest.Shapes (req : AppendEntriesRequest) (l f f' : List Entry) : Prop :=
  f' = f ∨ (f' <+: l ∧ f'.length ≤ req.prevLogIndex + req.entries.length)

theorem AppendEntriesRequest.Shapes.trans
    {f' f'' : List Entry}
    (h : req.Shapes l f f')
    (h' : req.Shapes l f' f'') :
    req.Shapes l f f'' := by
  rcases h' with rfl | h'
  · exact h
  · exact Or.inr h'

/-- One move of the append handler. -/
theorem Move.merges
    (h : Move env a n n')
    (ha : a.Appends req)
    (hcarries : req.Carries l)
    (hl : Indexed l)
    (hf : n.store.Stores f)
    (hmatching : Matching Entry.term f l) :
    ∃ f', n'.store.Stores f' ∧ Merges l f f' ∧ req.Shapes l f f' ∧
      ∀ m, a = .accept req m →
        m = req.prevLogIndex + req.entries.length ∧ l.take m <+: f' := by
  have hnum := hcarries.numbered hl
  have hself := h
  cases h with
  | @truncate _ req' _ _ _ _ hreq hlacks hlocal hconflict =>
      obtain rfl : req' = req := ha
      obtain ⟨hmerges, hshape⟩ :=
        hlacks.merged_truncate hreq hcarries hl hf hmatching hlocal hconflict
      exact ⟨_, hf.deleteFrom hlacks.fresh, hmerges, Or.inr hshape, by simp⟩
  | @store _ req' _ _ _ hreq hlacks hnone =>
      obtain rfl : req' = req := ha
      obtain ⟨hstores, hmerges, hshape⟩ :=
        hlacks.merged_store hreq hcarries hl hf hmatching hnone
      exact ⟨_, by rwa [hlacks.filter_eq hnum], hmerges, Or.inr hshape, by simp⟩
  | @accept _ req' _ hreq hheld hmatch =>
      obtain rfl : req' = req := ha
      refine ⟨f, hf, Merges.refl hmatching, Or.inl rfl, ?_⟩
      rintro m ⟨⟩
      obtain ⟨-, hagree⟩ := hreq.agrees hcarries hl hf hmatching
        (List.append_nil _).symm (hheld hnum)
      refine ⟨hmatch hnum, ?_⟩
      rw [hmatch hnum, ← hagree]
      exact List.take_prefix _ _
  | raise _ =>
      exact ⟨f, hself.stores trivial hf, Merges.refl hmatching, Or.inl rfl, by simp⟩
  | raiseUnsaved _ _ => exact ⟨f, hf, Merges.refl hmatching, Or.inl rfl, by simp⟩
  | follow => exact ⟨f, hf, Merges.refl hmatching, Or.inl rfl, by simp⟩
  | learn _ _ _ => exact ⟨f, hf, Merges.refl hmatching, Or.inl rfl, by simp⟩
  | apply _ _ _ _ =>
      exact ⟨f, hself.stores trivial hf, Merges.refl hmatching, Or.inl rfl, by simp⟩
  | skip _ _ _ _ =>
      exact ⟨f, hself.stores trivial hf, Merges.refl hmatching, Or.inl rfl, by simp⟩
  | compact _ _ _ =>
      exact ⟨f, hself.stores trivial hf, Merges.refl hmatching, Or.inl rfl, by simp⟩
  | _ => exact ha.elim

/-- The moves of an append handler, one after the other. -/
theorem Path.merges
    {ls : List Label}
    (h : Path (Move env) ls n n')
    (hls : ∀ a ∈ ls, a.Appends req)
    (hcarries : req.Carries l)
    (hl : Indexed l)
    (hf : n.store.Stores f)
    (hmatching : Matching Entry.term f l) :
    ∃ f', n'.store.Stores f' ∧ Merges l f f' ∧ req.Shapes l f f' ∧
      ∀ m, .accept req m ∈ ls →
        m = req.prevLogIndex + req.entries.length ∧ l.take m <+: f' := by
  refine h.accumulate
    (I := fun pre m => ∃ f', m.store.Stores f' ∧ Merges l f f' ∧ req.Shapes l f f' ∧
      ∀ k, .accept req k ∈ pre →
        k = req.prevLogIndex + req.entries.length ∧ l.take k <+: f')
    ⟨f, hf, Merges.refl hmatching, Or.inl rfl, by simp⟩ ?_
  rintro pre a m m' hpre hmove ⟨f₁, hf₁, hmerges₁, hshapes₁, haccepted⟩
  have ha : a ∈ ls := hpre.subset (by simp)
  obtain ⟨f₂, hf₂, hmerges₂, hshapes₂, hnew⟩ :=
    hmove.merges (hls a ha) hcarries hl hf₁ hmerges₁.matching
  refine ⟨f₂, hf₂, hmerges₁.trans hmerges₂, hshapes₁.trans hshapes₂, fun k hk => ?_⟩
  rcases List.mem_append.mp hk with hk | hk
  · obtain ⟨heq, hle⟩ := haccepted k hk
    exact ⟨heq, hmerges₂.common _ hle (List.take_prefix _ _)⟩
  · exact hnew k (List.mem_singleton.mp hk).symm

end Step

section Run

variable {json : Json} {o : Options} {l f : List Entry}

/-- A success the node has answered. -/
def Answered.Acknowledges (a : Answered) (matchIndex : Nat) : Prop :=
  ∃ req h r, a = .append req h ∧ h.reply = some r ∧ r.success = true ∧
    r.matchIndex = matchIndex

/-- The node has the log `f'`, which grew out of `f`, and holds everything it has
acknowledged. -/
structure Solo.Merging (l f f' : List Entry) (s : Solo) : Prop where
  log : s.node.store.Stores f'
  merges : Merges l f f'
  acknowledged : ∀ a ∈ s.answered, ∀ m, a.Acknowledges m →
    m ≤ l.length ∧ l.take m <+: f'

/-- One request, whatever becomes of its transactions. -/
theorem Solo.Merging.append
    {s : Solo} {f' : List Entry} {req : AppendEntriesRequest}
    (json : Json) (o : Options)
    (h : s.Merging l f f')
    (hcarries : req.Carries l)
    (hl : Indexed l)
    (os : List Outcome) :
    ∃ f'', (s.perform json o (.append req) os).Merging l f f'' := by
  have hkept : ∀ f'', Merges l f' f'' → ∀ a ∈ s.answered, ∀ m, a.Acknowledges m →
      m ≤ l.length ∧ l.take m <+: f'' := by
    intro f'' hmerges a ha m hm
    obtain ⟨hle, hheld⟩ := h.acknowledged a ha m hm
    exact ⟨hle, hmerges.common _ hheld (List.take_prefix _ _)⟩
  rcases (appendEntries_spec :
      (Solo.env json o).Spec (Node.appendEntries json o req) _ _ s.node).cases os
    (fun _ => trivial) with
    ⟨handled, n', os', ls, hr, hpath, happended⟩ | ⟨n', os', ls, n'', hr, hstore, hpath, hlabels⟩
  · obtain ⟨f'', hf'', hmerges, -, haccepted⟩ :=
      Path.merges hpath happended.labels hcarries hl h.log h.merges.matching
    have hs' : s.perform json o (.append req) os =
        ⟨n', s.answered ++ [.append req handled]⟩ := by
      simp only [Solo.perform, Solo.runSection]
      rw [show Node.appendEntries json o req os s.node = _ from hr]
    rw [hs']
    refine ⟨f'', hf'', h.merges.trans hmerges, fun a ha m hm => ?_⟩
    rcases List.mem_append.mp ha with ha | ha
    · exact hkept f'' hmerges a ha m hm
    · rw [List.mem_singleton.mp ha] at hm
      obtain ⟨_, _, r, ⟨⟩, hreply, hsuccess, rfl⟩ := hm
      obtain ⟨-, -, haccept⟩ := happended.success r hreply hsuccess
      obtain ⟨hm, hle⟩ := haccepted _ haccept
      exact ⟨hm ▸ hcarries.length_le, hle⟩
  · obtain ⟨f'', hf'', hmerges, -, -⟩ :=
      Path.merges hpath hlabels.labels hcarries hl h.log h.merges.matching
    have hs' : s.perform json o (.append req) os = ⟨Node.new n'.store, s.answered⟩ := by
      simp only [Solo.perform, Solo.runSection]
      rw [show Node.appendEntries json o req os s.node = _ from hr]
    rw [hs']
    refine ⟨f'', ?_, h.merges.trans hmerges, hkept f'' hmerges⟩
    show n'.store.Stores f''
    rwa [hstore]

/-- Pieces of a leader log in any order, any number of times: the follower's log
keeps matching the leader's, no common prefix gets lost, and whatever was
acknowledged stays. -/
theorem appends_merge
    (json : Json) (o : Options) (l f : List Entry)
    (hl : Indexed l)
    (n : Node)
    (hf : n.store.Stores f)
    (hmatching : Matching Entry.term f l)
    (reqs : List (AppendEntriesRequest × List Outcome))
    (hreqs : ∀ r ∈ reqs, r.1.Carries l) :
    let s := Solo.run json o ⟨n, []⟩ (reqs.map fun r => (.append r.1, r.2))
    ∃ f', s.node.store.Stores f' ∧ Matching Entry.term f' l ∧
      (∀ p, p <+: f → p <+: l → p <+: f') ∧
      ∀ a ∈ s.answered, ∀ m, a.Acknowledges m →
        m ≤ l.length ∧ m ≤ f'.length ∧ f'.take m = l.take m := by
  intro s
  have hrun : ∀ s₀ f₀, Solo.Merging l f f₀ s₀ →
      ∃ f', Solo.Merging l f f' (s₀.run json o (reqs.map fun r => (.append r.1, r.2))) := by
    clear s hf
    induction reqs with
    | nil =>
        exact fun s₀ f₀ h => ⟨f₀, h⟩
    | cons r reqs ih =>
        intro s₀ f₀ h
        obtain ⟨f₁, h₁⟩ := h.append json o
          (hreqs r List.mem_cons_self) hl r.2
        exact ih (fun q hq => hreqs q (List.mem_cons_of_mem _ hq)) _ f₁ h₁
  obtain ⟨f', h⟩ := hrun ⟨n, []⟩ f ⟨hf, Merges.refl hmatching, by simp⟩
  refine ⟨f', h.log, h.merges.matching, h.merges.common, fun a ha m hm => ?_⟩
  obtain ⟨hle, hheld⟩ := h.acknowledged a ha m hm
  have hlen := hheld.length_le
  rw [List.length_take, min_eq_left hle] at hlen
  refine ⟨hle, hlen, ?_⟩
  rw [List.prefix_iff_eq_take.mp hheld, List.length_take, min_eq_left hle]

/-- The text of a command. -/
def sampleCommand : Bytes :=
  (Command.setCommand "k" "v").encode Json.compact

/-- A log of a leader of term 2 that starts with an entry of term 1. -/
def leaderLog : List Entry :=
  [⟨1, 1, sampleCommand⟩, ⟨2, 2, sampleCommand⟩, ⟨3, 2, sampleCommand⟩]

/-- A log that left it after the first entry. -/
def divergedLog : List Entry :=
  [⟨1, 1, sampleCommand⟩, ⟨2, 1, sampleCommand⟩]

def divergedNode : Node :=
  Node.new (Store.init.appendEntries divergedLog)

theorem divergedNode_stores :
    divergedNode.store.Stores divergedLog :=
  Store.stores_indexed (by decide)

/-- Pieces of `leaderLog` out of order and twice, with a write that fails. -/
def scrambledRequests : List (AppendEntriesRequest × List Outcome) :=
  [(⟨2, "l", 2, 2, [⟨3, 2, sampleCommand⟩], 0⟩, []),
    (⟨2, "l", 1, 1, [⟨2, 2, sampleCommand⟩], 0⟩, [.fail]),
    (⟨2, "l", 1, 1, [⟨2, 2, sampleCommand⟩, ⟨3, 2, sampleCommand⟩], 0⟩, []),
    (⟨2, "l", 0, 0, [⟨1, 1, sampleCommand⟩], 0⟩, []),
    (⟨2, "l", 1, 1, [⟨2, 2, sampleCommand⟩], 0⟩, [])]

theorem appends_merge_scrambled :
    let s := Solo.run Json.compact ⟨"f", ["l"], 0⟩ ⟨divergedNode, []⟩
      (scrambledRequests.map fun r => (.append r.1, r.2))
    s.node.store.lastIndex = 3 ∧
      ∃ f', s.node.store.Stores f' ∧ Matching Entry.term f' leaderLog ∧
        (∀ p, p <+: divergedLog → p <+: leaderLog → p <+: f') ∧
        ∀ a ∈ s.answered, ∀ m, a.Acknowledges m →
          m ≤ leaderLog.length ∧ m ≤ f'.length ∧ f'.take m = leaderLog.take m :=
  ⟨by decide +kernel,
    appends_merge Json.compact ⟨"f", ["l"], 0⟩ leaderLog divergedLog (by decide) divergedNode
      divergedNode_stores (by decide) scrambledRequests (by decide)⟩

end Run

section Build

variable {o : Options} {l : List Entry} {leader leader' : Node} {req : AppendEntriesRequest}

theorem Node.buildAppendRequestLocked_of_term
    {n : Node} {p : String} {prevLogTerm : Nat}
    (hprev : n.store.term (n.nextIndexLocked p - 1) = some prevLogTerm) :
    n.buildAppendRequestLocked o p = (n, some (n.appendRequest o p prevLogTerm)) := by
  unfold buildAppendRequestLocked
  simp only [hprev]
  rfl

/-- A request built above the snapshot of the leader carries a piece of its log: as
many entries as fit in a batch, or all that are left. -/
theorem Node.carries_of_build
    {p : String}
    (hleader : leader.store.Stores l)
    (hnext : leader.store.snapshotIndex < leader.nextIndexLocked p)
    (hbuild : leader.buildAppendRequestLocked o p = (leader', some req)) :
    req.Carries l := by
  rcases buildAppendRequestLocked_cases leader o p with ⟨next, h⟩ | ⟨term, hterm, h⟩
  · rw [h] at hbuild
    simp at hbuild
  · rw [h, Prod.mk.injEq, Option.some.injEq] at hbuild
    obtain ⟨-, rfl⟩ := hbuild
    obtain ⟨hle, hat⟩ := hleader.of_term hterm
    refine ⟨hle, hat.symm, ?_⟩
    show leader.store.entriesFrom (leader.nextIndexLocked p) appendBatchSize <+: _
    have hstart : leader.store.snapshotIndex ≤ leader.nextIndexLocked p - 1 := by omega
    have hbatch : 0 < appendBatchSize := by decide
    have hslice := (hleader.entriesFrom_eq hstart hbatch).1
    rw [show leader.nextIndexLocked p - 1 + 1 = leader.nextIndexLocked p by omega] at hslice
    rw [hslice]
    exact List.take_prefix _ _

/-- A leader of term 2 that has committed its whole log and knows nothing about its
peers. -/
def leaderOf (l : List Entry) : Node :=
  { Node.new (Store.init.appendEntries l) with
    role := .leader
    currentTerm := 2
    commitIndex := l.length }

end Build

end LogReplicator
