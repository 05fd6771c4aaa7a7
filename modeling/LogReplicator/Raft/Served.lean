import LogReplicator.Raft.Proposals
import LogReplicator.Raft.Reading

/-!
# What a served call has seen

A call is served when it returns a result: a write that is acknowledged has seen the
committed entries through its own, a read those that its node has applied.  `Explained`
gives every served call of a run the entries it has seen, and says how they lie: no
call that is invoked afterwards owns one of them, and a read that is invoked afterwards
sees them all.
-/

namespace LogReplicator

open Library Library.Consensus

namespace Cluster

section Moves

variable {cfg : Config} {x : String} {l : Label} {n n' : Node}
variable {σ σ₁ σ₂ : State String Entry} {R : Entry → Prop}

/-- The entries under a snapshot were committed before, or it was received. -/
theorem Followed.covered
    (h : Followed cfg σ x l n n' σ₁ σ₂)
    (hinstall : ∀ req last known applied, l = .install req last known applied →
      req.Backed cfg σ₁ ∧ ∀ e ∈ (σ₁.llog req.term).take req.lastIncludedIndex, R e)
    (hn : ∀ e ∈ σ₁.log x, R e) :
    ∀ e ∈ (σ₂.log x).take n'.store.snapshotIndex, R e := by
  have hsnapshot : n.store.snapshotIndex ≤ n.commitIndex :=
    (h.before.log.ordered.applied.trans h.before.applied).trans h.before.reached
  have hsnapshot' : n'.store.snapshotIndex ≤ n'.commitIndex :=
    (h.after.log.ordered.applied.trans h.after.applied).trans h.after.reached
  have hold : n'.store.snapshotIndex ≤ n.commitIndex →
      ∀ e ∈ (σ₂.log x).take n'.store.snapshotIndex, R e := by
    intro hle e he
    rw [h.take_eq hle hsnapshot'] at he
    exact hn e (List.mem_of_mem_take he)
  obtain ⟨hmove, hbefore, hafter, hinv, -, hgrows⟩ := h
  cases hmove with
  | compact _ _ _ => exact hold hbefore.reached
  | @install _ req state _ hnew hstate =>
      obtain ⟨hbacked, hentries⟩ := hinstall _ _ _ _ rfl
      have hlog : (σ₂.log x).take req.lastIncludedIndex =
          (σ₁.llog req.term).take req.lastIncludedIndex :=
        hinv.take_eq_of_committed (fun _ _ hA hB => Config.Quorum.meet hA hB)
          hafter.committed (hgrows.committed le_rfl hbacked.committed) (le_max_right _ _)
          le_rfl ((le_max_right _ _).trans hafter.commit_le) hbacked.le
      intro e he
      exact hentries e (hlog ▸ he)
  | apply _ _ _ _ =>
      rw [Command.applyTo_eq] at hold ⊢
      exact hold hsnapshot
  | progress _ =>
      unfold Node.recordPeerProgressLocked at hold ⊢
      split_ifs at hold ⊢ <;> exact hold hsnapshot
  | _ => exact hold hsnapshot

/-- The entries of the full log are rows of the log or covered by the snapshot. -/
theorem Followed.logs
    (h : Followed cfg σ x l n n' σ₁ σ₂)
    (hinstall : ∀ req last known applied, l = .install req last known applied →
      req.Backed cfg σ₁ ∧ ∀ e ∈ (σ₁.llog req.term).take req.lastIncludedIndex, R e)
    (hrows : n'.Rows R)
    (hn : ∀ e ∈ σ₁.log x, R e) :
    ∀ e ∈ σ₂.log x, R e := by
  intro e he
  obtain ⟨k, hk⟩ := List.mem_iff_getElem?.mp he
  rcases lt_or_ge k n'.store.snapshotIndex with hlt | hge
  · exact h.covered hinstall hn e
      (List.mem_of_getElem? ((List.getElem?_take_of_lt hlt).trans hk))
  · have hentry := (h.after.log.rows k hge).trans hk
    obtain ⟨row, hrow, rfl⟩ := Option.map_eq_some_iff.mp hentry
    exact hrows _ row hrow

end Moves

/-- Every entry of a full log, and every entry that a snapshot on its way stands for,
belongs to a call. -/
structure Logged (own : Nat → Entry → Prop) (σ : State String Entry) (c : Cluster) : Prop where
  logs : ∀ x, ∀ e ∈ σ.log x, ∃ i, own i e
  snapshots : ∀ call ∈ c.calls, ∀ req, call.request = .snapshot req →
    ∀ e ∈ (σ.llog req.term).take req.lastIncludedIndex, ∃ i, own i e

section Logs

variable {cfg : Config} {c c' : Cluster} {a : Action} {x : String} {ls : List Label}
variable {σ σ' : State String Entry} {g : String → Nat → String → Prop}
variable {made : Entry → Nat → Prop} {own : Nat → Entry → Prop}

theorem logged_init :
    Logged (fun _ _ => False) Consensus.init init :=
  ⟨by simp [Consensus.init], by simp [init]⟩

/-- The snapshot that a step installs. -/
theorem Transition.installs
    (T : Transition cfg False c a c' x ls)
    (hforward : c.Forward a)
    {req : InstallSnapshotRequest} {last applied : Nat} {known : Option Nat}
    (hl : .install req last known applied ∈ ls) :
    applied ≤ req.lastIncludedIndex ∧ ∃ call ∈ c.calls, call.request = .snapshot req := by
  obtain ⟨⟨src, id, os, rfl, hcall⟩, -, -, rfl, hterm, hnew⟩ := T.justified _ hl
  refine ⟨?_, _, List.mem_of_getElem? hcall, rfl⟩
  have hahead : c.SnapshotAhead ⟨src, x, .snapshot req⟩ := hforward _ hcall
  rcases hahead with hstale | hold | hahead
  · exact absurd hterm (not_le.mpr hstale)
  · exact absurd hnew (not_lt.mpr hold)
  · exact hahead

/-- The rows of a node during a step. -/
theorem Owners.rows
    (howners : Owners cfg made own c)
    (hidentity : Identity made c)
    (T : Transition cfg False c a c' x ls)
    {l : Label} {n n' : Node} {env : Env}
    (hl : l ∈ ls)
    (hmove : Move env l n n')
    (hn : n.Rows fun e => ∃ i, addOwn own a ls i e) :
    n'.Rows fun e => ∃ i, addOwn own a ls i e := by
  refine hmove.rows ?_ ?_ hn
  · rintro e p rfl
    obtain ⟨-, -, i, os, -, -, ha, -⟩ := T.justified _ hl
    exact ⟨i, Or.inr ⟨os, p, ha, hl⟩⟩
  · rintro req missing rfl e he
    obtain ⟨src, id, os, -, hcall⟩ := T.justified _ hl
    obtain ⟨p, hp⟩ := hidentity.sent _ (List.mem_of_getElem? hcall) req rfl e he
    exact (howners.owned e p hp).imp fun i hi => Or.inl hi

/-- The snapshots on their way after a step. -/
theorem Logged.snapshots_step
    (hlogged : Logged own σ c)
    (h : Refines cfg σ c)
    (hok : c.Followable a)
    (T : Transition cfg False c a c' x ls)
    (halong : RefinesAlong cfg σ c' x ls (c'.node x) σ')
    (hlog : ∀ e ∈ σ'.log x, ∃ i, addOwn own a ls i e)
    {call : Call} {req : InstallSnapshotRequest}
    (hcall : call ∈ c'.calls)
    (hreq : call.request = .snapshot req) :
    ∀ e ∈ (σ'.llog req.term).take req.lastIncludedIndex, ∃ i, addOwn own a ls i e := by
  have hg := Steps.grows h.inv halong.steps
  obtain ⟨new, hcalls, hbuilt⟩ := T.calls
  rw [hcalls, List.mem_append] at hcall
  rcases hcall with hcall | hcall
  · rw [take_prefix_eq (hg.llog _) (h.snapshots call hcall req hreq).le]
    exact fun e he => (hlogged.snapshots call hcall req hreq e he).imp fun i hi => Or.inl hi
  · cases hbuilt call hcall with
    | vote _ _ _ _ => cases hreq
    | append _ _ _ _ _ => cases hreq
    | snapshot haction _ _ hsame =>
        subst haction
        cases hreq
        have hleader : (c'.node x).role = .leader := hsame ▸ hok.sent
        intro e he
        have hterm : ((c'.node x).buildSnapshotRequest (cfg.options x)).term =
            (c'.node x).currentTerm := rfl
        rw [hterm, ← (halong.tracks.leader hleader).log] at he
        exact hlog e (List.mem_of_mem_take he)

/-- The tables on their way after a step. -/
theorem Replaying.snapshots_step
    (hreplaying : Replaying cfg σ c)
    (h : Refines cfg σ c)
    (hok : c.Followable a)
    (T : Transition cfg False c a c' x ls)
    (halong : RefinesAlong cfg σ c' x ls (c'.node x) σ')
    (hnode : (c'.node x).Mirrors cfg.json (σ'.log x))
    {call : Call} {req : InstallSnapshotRequest}
    (hcall : call ∈ c'.calls)
    (hreq : call.request = .snapshot req) :
    req.Mirrors cfg.json σ' := by
  have hg := Steps.grows h.inv halong.steps
  obtain ⟨new, hcalls, hbuilt⟩ := T.calls
  rw [hcalls, List.mem_append] at hcall
  rcases hcall with hcall | hcall
  · exact (hreplaying.snapshots call hcall req hreq).mono
      (h.snapshots call hcall req hreq).le hg
  · cases hbuilt call hcall with
    | vote _ _ _ _ => cases hreq
    | append _ _ _ _ _ => cases hreq
    | snapshot haction _ _ hsame =>
        subst haction
        cases hreq
        exact replays_buildSnapshotRequest halong.tracks hnode (hsame ▸ hok.sent)

/-- Tables and owners after a step. -/
theorem Logged.step
    (hlogged : Logged own σ c)
    (hreplaying : Replaying cfg σ c)
    (h : Refines cfg σ c)
    (hidentity : Identity made c)
    (howners : Owners cfg made own c)
    (hok : c.Followable a)
    (hforward : c.Forward a)
    (hthreads : c.Threads cfg)
    (hvotes : Elections cfg g c)
    (T : Transition cfg False c a c' x ls) :
    ∃ σ', RefinesAlong cfg σ c' x ls (c'.node x) σ' ∧ Replaying cfg σ' c' ∧
      Logged (addOwn own a ls) σ' c' := by
  have hkept : ∀ {e}, (∃ i, own i e) → ∃ i, addOwn own a ls i e :=
    fun h => h.imp fun i hi => Or.inl hi
  obtain ⟨σ', halong, hnode, -, hlog⟩ := h.path
    (Q := fun σ n => n.Mirrors cfg.json (σ.log x) ∧
      (n.Rows fun e => ∃ i, addOwn own a ls i e) ∧ ∀ e ∈ σ.log x, ∃ i, addOwn own a ls i e)
    hok hthreads hvotes T
    ⟨hreplaying.nodes x,
      fun i row hrow => (hidentity.rows x i row hrow).elim fun p hp => hkept (howners.owned _ p hp),
      fun e he => hkept (hlogged.logs x e he)⟩
    fun l hl n n' σ₁ σ₂ hfollowed hn => by
      have hrows := howners.rows hidentity T hl hfollowed.move hn.2.1
      refine ⟨hfollowed.replays ?_ hn.1, hrows, hfollowed.logs ?_ hrows hn.2.2⟩
      all_goals
        rintro req last known applied rfl
        obtain ⟨hahead, call, hcall, hreq⟩ := T.installs hforward hl
        have hbacked := h.snapshots call hcall req hreq
      · exact ⟨hahead, hbacked.mono hfollowed.since,
          (hreplaying.snapshots call hcall req hreq).mono hbacked.le hfollowed.since⟩
      · refine ⟨hbacked.mono hfollowed.since, ?_⟩
        rw [take_prefix_eq (hfollowed.since.llog _) hbacked.le]
        exact fun e he => hkept (hlogged.snapshots call hcall req hreq e he)
  refine ⟨σ', halong, ⟨fun y => ?_, fun call hcall req hreq => ?_⟩, fun y e he => ?_,
    fun call hcall req hreq => ?_⟩
  · by_cases hy : y = x
    · exact hy ▸ hnode
    · rw [T.frame y hy, (Steps.frame halong.steps hy).2]
      exact hreplaying.nodes y
  · exact hreplaying.snapshots_step h hok T halong hnode hcall hreq
  · by_cases hy : y = x
    · exact hlog e (hy ▸ he)
    · rw [(Steps.frame halong.steps hy).2] at he
      exact hkept (hlogged.logs y e he)
  · exact hlogged.snapshots_step h hok T halong hlog hcall hreq

end Logs

/-- The reads from number `first` on start after `index` was committed; `fence` has the
terms of that time. -/
structure Fence (cfg : Config) (first index : Nat) (fence : String → Nat)
    (σ : State String Entry) (c : Cluster) : Prop where
  fenced : ∀ v, fence v ≤ (c.node v).currentTerm
  rounds : c.Rounds cfg first fence (fun y => (c.node y).currentTerm) c.replies
  after : index = 0 ∨ ∃ x t, Acked cfg σ c x index t ∧
    ∃ q, cfg.Quorum q ∧ ∀ v ∈ q, t ≤ fence v

section Fences

variable {cfg : Config} {c c' : Cluster} {a : Action} {x : String} {ls : List Label}
variable {σ σ' : State String Entry} {g : String → Nat → String → Prop}
variable {first index : Nat} {fence : String → Nat}

theorem fence_init :
    Fence cfg 0 0 (fun _ => 0) Consensus.init init where
  fenced := fun _ => Nat.zero_le _
  rounds := ⟨by simp [init, startProc, Sender.owner], by simp [init], by simp [init]⟩
  after := Or.inl rfl

theorem Fence.step
    (h : Fence cfg first index fence σ c)
    (hok : c.Followable a)
    (hthreads : c.Threads cfg)
    (hvotes : Elections cfg g c)
    (T : Transition cfg False c a c' x ls)
    (hstep : c.step cfg a = some c')
    (hterm : ∀ v, (c.node v).currentTerm ≤ (c'.node v).currentTerm)
    (hg : Grows σ σ') :
    Fence cfg first index fence σ' c' := by
  have hfenced := fun v => (h.fenced v).trans (hterm v)
  exact ⟨hfenced,
    h.rounds.step hthreads (fun hfail => hok.commits hfail) hterm hfenced T hstep,
    h.after.imp_right fun ⟨x, t, hacked, hq⟩ => ⟨x, t, hacked.step hg hthreads hvotes T, hq⟩⟩

/-- The fence of this moment, for the calls that are not invoked yet. -/
theorem Fence.now
    (h : Fence cfg 0 0 (fun _ => 0) σ c)
    (hrefines : Refines cfg σ c)
    (hacked : index = 0 ∨ ∃ x t, Acked cfg σ c x index t) :
    Fence cfg c.ops.length index (fun v => (c.node v).currentTerm) σ c := by
  have hnew : ∀ {i : Nat} {op : ClientOp}, c.ops.length ≤ i → c.ops[i]? ≠ some op :=
    fun hi hop => absurd (List.getElem?_eq_some_iff.mp hop).1 (by omega)
  refine ⟨fun _ => le_rfl, ⟨fun y p i howner hi => ?_,
    fun i op _ _ hi hop => absurd hop (hnew hi), fun i op hi hop => absurd hop (hnew hi)⟩,
    hacked.imp_right fun ⟨x, t, h⟩ => ⟨x, t, h, h.reached hrefines⟩⟩
  obtain ⟨-, op, hop, -⟩ := h.rounds.owners y p i howner (Nat.zero_le i)
  exact absurd hop (hnew hi)

/-- A confirmed read on a current leader is not behind the fence. -/
theorem Fence.applied
    {i : Nat} {op : ClientOp}
    (h : Fence cfg first index fence σ c)
    (hrefines : Refines cfg σ c)
    (hthreads : c.Threads cfg)
    (hvotes : Elections cfg g c)
    (hi : first ≤ i)
    (hop : c.ops[i]? = some op)
    (hphase : op.phase = .reading)
    (hcurrent : Current (c.node op.node)) :
    index ≤ (c.node op.node).lastApplied := by
  rcases h.after with rfl | ⟨x, t, hacked, q, hq, hlate⟩
  · exact Nat.zero_le _
  · refine hacked.applied hrefines hvotes hcurrent ?_
    -- a peer of the round has seen the term
    have hmember := (hthreads.ops op (List.mem_of_getElem? hop)).member
    obtain ⟨S, hmajority, hS⟩ := h.rounds.reading i op hi hop hphase
    obtain ⟨v, hv, hvq⟩ :=
      Config.Quorum.meet (quorum_insert hmember (fun p hp => (hS p hp).1) hmajority) hq
    refine (hlate v hvq).trans ?_
    rcases Finset.mem_insert.mp hv with rfl | hv
    · exact h.fenced op.node
    · exact (hS v hv).2

/-- What a current leader has applied was committed in its own term. -/
theorem Current.acked
    (h : Current (c.node x))
    (hrefines : Refines cfg σ c)
    (hvotes : Elections cfg g c) :
    (c.node x).lastApplied = 0 ∨
      Acked cfg σ c x (c.node x).lastApplied (c.node x).currentTerm := by
  have htracks := hrefines.nodes x
  have hlog := (htracks.leader h.role).log
  obtain ⟨hle, hat⟩ := htracks.log.of_term h.term
  rcases Nat.eq_zero_or_pos (c.node x).lastApplied with hzero | hpos
  · exact Or.inl hzero
  · obtain ⟨i, hi⟩ : ∃ i, (c.node x).lastApplied = i + 1 :=
      ⟨(c.node x).lastApplied - 1, by omega⟩
    rw [hlog, hi] at hat hle
    have hget := List.getElem?_eq_getElem
      (l := σ.llog (c.node x).currentTerm) (i := i) (by omega)
    rw [termAt_succ hget] at hat
    refine Or.inr ⟨⟨_, by rw [hi]; exact hget, ?_, hat⟩, ?_, (hvotes.leads x).leader h.role,
      fun _ _ => h.applied.le⟩
    · rw [hi]
      exact (hrefines.indexed _).index_eq hget
    · rw [← hlog]
      exact htracks.committed.mono le_rfl (List.take_prefix_take_left htracks.reached)

end Fences

/-- The answer is the acknowledgement of a write. -/
def Written : Answer → Prop
  | .written _ _ _ => True
  | _ => False

/-- Call `i` has returned a result: an acknowledgement for a write or delete, a value or
`NotFound` for a read. -/
def Served (c : Cluster) (i : Nat) (answer : Answer) : Prop :=
  .returned i answer ∈ c.events ∧ ∃ op, c.ops[i]? = some op ∧
    ((op.request.command ≠ none ∧ Written answer) ∨
      (op.request.command = none ∧ Found answer))

/-- Call `i` was served before call `j` was invoked. -/
def Before (cfg : Config) (as : List Action) (i j : Nat) : Prop :=
  ∃ as₁ c₁ answer, as₁ <+: as ∧ init.exec cfg as₁ = some c₁ ∧ c₁.Served i answer ∧
    c₁.ops.length ≤ j

section Served

variable {cfg : Config} {as : List Action} {c c' : Cluster} {a : Action} {i j : Nat}
variable {answer answer' : Answer}

theorem Served.lt_length
    (h : c.Served i answer) :
    i < c.ops.length := by
  obtain ⟨-, op, hop, -⟩ := h
  exact (List.getElem?_eq_some_iff.mp hop).1

theorem Served.step
    (h : c.Served i answer)
    (hstep : c.step cfg a = some c') :
    c'.Served i answer := by
  obtain ⟨hmem, op, hop, hkind⟩ := h
  obtain ⟨new, hcalls, hanswers⟩ := step_tends hstep
  obtain ⟨op', hop', honward⟩ := hcalls.onward hop
  refine ⟨mem_answers.mp ?_, op', hop', by rwa [honward.request]⟩
  rw [hanswers]
  exact List.mem_append_left _ (mem_answers.mpr hmem)

theorem Served.exec
    (h : c.Served i answer)
    (hexec : c.exec cfg as = some c') :
    c'.Served i answer := by
  induction as using List.reverseRecOn generalizing c' with
  | nil =>
      cases hexec
      exact h
  | append_singleton as a ih =>
      obtain ⟨c₁, hexec₁, hstep⟩ := exec_concat.mp hexec
      exact (ih hexec₁).step hstep

theorem Served.unique
    (hexec : init.exec cfg as = some c)
    (h : c.Served i answer)
    (h' : c.Served i answer') :
    answer = answer' :=
  congrArg Prod.snd (List.inj_on_of_nodup_map (exec_answering hexec).once
    (mem_answers.mpr h.1) (mem_answers.mpr h'.1) rfl)

theorem Before.served
    (h : Before cfg as i j)
    (hexec : init.exec cfg as = some c) :
    ∃ answer, c.Served i answer := by
  obtain ⟨as₁, c₁, answer, ⟨rest, rfl⟩, hexec₁, hserved, -⟩ := h
  rw [exec_append, hexec₁] at hexec
  exact ⟨answer, hserved.exec hexec⟩

theorem Before.lt
    (h : Before cfg as i j) :
    i < j := by
  obtain ⟨as₁, c₁, answer, -, -, hserved, hle⟩ := h
  exact hserved.lt_length.trans_le hle

theorem Before.cases
    (h : Before cfg (as ++ [a]) i j)
    (hexec : init.exec cfg (as ++ [a]) = some c') :
    Before cfg as i j ∨ (∃ answer, c'.Served i answer) ∧ c'.ops.length ≤ j := by
  obtain ⟨as₁, c₁, answer, hpart, hexec₁, hserved, hle⟩ := h
  rcases List.prefix_concat_iff.mp hpart with rfl | hpart
  · cases hexec.symm.trans hexec₁
    exact Or.inr ⟨⟨answer, hserved⟩, hle⟩
  · exact Or.inl ⟨as₁, c₁, answer, hpart, hexec₁, hserved, hle⟩

/-- Writes are served by the poll that finds their entry committed, reads by the look-up
of their key. -/
theorem Served.cases
    (hexec : init.exec cfg as = some c)
    (hstep : c.step cfg a = some c')
    (h : c'.Served i answer) :
    c.Served i answer ∨
      (a = .poll i ∧ ∃ op index term, c.ops[i]? = some op ∧
        op.phase = .waiting index term ∧ index ≤ (c.node op.node).commitIndex ∧
        answer = .written op.node index term) ∨
      (a = .readKey i ∧ ∃ op, c.ops[i]? = some op ∧ op.phase = .reading ∧
        answer = (c.node op.node).readKey (cfg.options op.node) op.request.key) := by
  obtain ⟨hmem, op', hop', hkind⟩ := h
  obtain ⟨new, hcalls, -⟩ := step_tends hstep
  have hrequest : ∀ op, c.ops[i]? = some op → op.request = op'.request := by
    intro op hop
    obtain ⟨d, hd, honward⟩ := hcalls.onward hop
    rw [hop', Option.some.injEq] at hd
    rw [hd, honward.request]
  have hold : .returned i answer ∈ c.events → c.Served i answer := by
    intro hmem
    obtain ⟨op, hop, -⟩ := (exec_answering hexec).done _ (mem_answers.mpr hmem)
    exact ⟨hmem, op, hop, by rwa [hrequest op hop]⟩
  rcases hkind with ⟨-, hwritten⟩ | ⟨hread, hfound⟩
  · cases answer with
    | written x index term =>
        rcases (step_serves hstep).written i x index term hmem with hmem |
          ⟨ha, op, hop, rfl, hphase, hcommit⟩
        · exact Or.inl (hold hmem)
        · exact Or.inr (Or.inl ⟨ha, op, index, term, hop, hphase, hcommit, rfl⟩)
    | value x value => exact hwritten.elim
    | failed status => exact hwritten.elim
  · rcases (step_readsFrom hstep).found i answer hmem hfound
      (fun op hop => by rw [hrequest op hop, hread]) with hmem | hnew
    · exact Or.inl (hold hmem)
    · exact Or.inr (Or.inr hnew)

end Served

/-- What the entries `l` that a served call has seen stand for. -/
structure Result (cfg : Config) (own : Nat → Entry → Prop) (σ : State String Entry)
    (c : Cluster) (i : Nat) (answer : Answer) (l : List Entry) : Prop where
  committed : ∃ t, CommittedBy Entry.term cfg.Quorum σ t l
  owned : ∀ e ∈ l, ∃ j, own j e
  acked : l.length = 0 ∨ ∃ x t, Acked cfg σ c x l.length t
  write : Written answer → ∃ e, l[l.length - 1]? = some e ∧ own i e
  read : Found answer → ∃ op kv, c.ops[i]? = some op ∧ Replayed cfg.json l kv ∧
    Looks kv op.request.key answer

/-- The served calls of a run, with the entries that they have seen. -/
structure Explained (cfg : Config) (as : List Action) (own : Nat → Entry → Prop)
    (seen : Nat → List Entry) (σ : State String Entry) (c : Cluster) : Prop where
  replaying : Replaying cfg σ c
  logged : Logged own σ c
  promised : Promised cfg σ c
  waiting : ∀ (i : Nat) (op : ClientOp) (index term : Nat), c.ops[i]? = some op →
    op.phase = .waiting index term →
    ∃ cmd, op.request.command = some cmd ∧ own i ⟨index, term, cmd.encode cfg.json⟩
  start : Fence cfg 0 0 (fun _ => 0) σ c
  results : ∀ i answer, c.Served i answer → Result cfg own σ c i answer (seen i)
  fresh : ∀ i j e, Before cfg as i j → own j e → e ∉ seen i
  later : ∀ i j answer, Before cfg as i j → c.Served j answer → Found answer →
    (seen i).length ≤ (seen j).length
  fences : ∀ i j, Before cfg as i j →
    ∃ first ≤ j, ∃ fence, Fence cfg first (seen i).length fence σ c

section Explained

variable {cfg : Config} {as : List Action} {c c' : Cluster} {a : Action} {x : String}
variable {ls : List Label} {σ σ' : State String Entry} {g : String → Nat → String → Prop}
variable {made : Entry → Nat → Prop} {own : Nat → Entry → Prop} {seen : Nat → List Entry}
variable {i j : Nat} {answer : Answer} {l : List Entry}

theorem explained_init :
    Explained cfg [] (fun _ _ => False) (fun _ => []) Consensus.init init := by
  have hnone : ∀ i j, ¬ Before cfg [] i j := by
    rintro i j ⟨as₁, c₁, answer, hpart, hexec, hserved, -⟩
    obtain rfl := List.prefix_nil.mp hpart
    cases hexec
    exact absurd hserved.lt_length (by simp [init])
  exact ⟨replaying_init, logged_init, promised_init, by simp [init], fence_init,
    fun i answer hserved => absurd hserved.lt_length (by simp [init]),
    fun i j e hbefore => absurd hbefore (hnone i j),
    fun i j answer hbefore => absurd hbefore (hnone i j),
    fun i j hbefore => absurd hbefore (hnone i j)⟩

theorem Result.step
    (h : Result cfg own σ c i answer l)
    (hg : Grows σ σ')
    (hthreads : c.Threads cfg)
    (hvotes : Elections cfg g c)
    (T : Transition cfg False c a c' x ls)
    (hstep : c.step cfg a = some c') :
    Result cfg (addOwn own a ls) σ' c' i answer l where
  committed := h.committed.imp fun t ht => hg.committed le_rfl ht
  owned := fun e he => (h.owned e he).imp fun j hj => Or.inl hj
  acked := h.acked.imp_right fun ⟨x, t, hacked⟩ => ⟨x, t, hacked.step hg hthreads hvotes T⟩
  write := fun hwritten => (h.write hwritten).imp fun e he => ⟨he.1, Or.inl he.2⟩
  read := fun hfound => by
    obtain ⟨op, kv, hop, hreplayed, hlooks⟩ := h.read hfound
    obtain ⟨new, hcalls, -⟩ := step_tends hstep
    obtain ⟨op', hop', honward⟩ := hcalls.onward hop
    exact ⟨op', kv, hop', hreplayed, by rwa [honward.request]⟩

/-- A write that its leader has committed has seen the log through its entry. -/
theorem Explained.acknowledges
    {op : ClientOp} {index term : Nat}
    (h : Explained cfg as own seen σ c)
    (hrefines : Refines cfg σ c)
    (hvotes : Elections cfg g c)
    (hop : c.ops[i]? = some op)
    (hphase : op.phase = .waiting index term)
    (hcommit : index ≤ (c.node op.node).commitIndex)
    (hled : LedBy (c.node op.node) op) :
    Result cfg own σ c i (.written op.node index term) ((σ.llog term).take index) := by
  have hacked := h.promised.acked hrefines hvotes hop hphase hcommit hled
  obtain ⟨cmd, hcmd, hat⟩ := h.promised.waiting i op index term hop hphase
  obtain ⟨cmd', hcmd', hown⟩ := h.waiting i op index term hop hphase
  obtain rfl : cmd = cmd' := Option.some.inj (hcmd.symm.trans hcmd')
  have hpos : index = index - 1 + 1 := (hrefines.indexed term).index_eq hat
  obtain ⟨hlt, -⟩ := List.getElem?_eq_some_iff.mp hat
  have hlength : ((σ.llog term).take index).length = index := by
    rw [List.length_take]
    omega
  rw [LedBy, hphase] at hled
  obtain ⟨hrole, rfl⟩ := hled hcommit
  have hlog := ((hrefines.nodes op.node).leader hrole).log
  refine ⟨⟨_, hacked.committed⟩, fun e he => ?_, Or.inr ⟨_, _, by rwa [hlength]⟩,
    fun _ => ⟨_, ?_, hown⟩, fun hfound => hfound.elim⟩
  · exact h.logged.logs op.node e (hlog ▸ List.mem_of_mem_take he)
  · rw [hlength, List.getElem?_take_of_lt (by omega), hat]

/-- A read has seen what its node has applied. -/
theorem Explained.looks
    {op : ClientOp}
    (h : Explained cfg as own seen σ c)
    (hrefines : Refines cfg σ c)
    (hvotes : Elections cfg g c)
    (hop : c.ops[i]? = some op)
    (hcurrent : Current (c.node op.node)) :
    ∃ l, l.length = (c.node op.node).lastApplied ∧ Result cfg own σ c i
      ((c.node op.node).readKey (cfg.options op.node) op.request.key) l := by
  have htracks := hrefines.nodes op.node
  have hlength : ((σ.log op.node).take (c.node op.node).lastApplied).length =
      (c.node op.node).lastApplied := by
    rw [List.length_take, min_eq_left (htracks.reached.trans htracks.commit_le)]
  refine ⟨_, hlength,
    ⟨_, htracks.committed.mono le_rfl (List.take_prefix_take_left htracks.reached)⟩,
    fun e he => h.logged.logs op.node e (List.mem_of_mem_take he), ?_, fun hwritten => ?_,
    fun _ => ⟨op, _, hop, (h.replaying.nodes op.node).kv, looks_readKey _ _ _⟩⟩
  · rw [hlength]
    exact (hcurrent.acked hrefines hvotes).imp_right fun hacked => ⟨_, _, hacked⟩
  · unfold Node.readKey at hwritten
    split at hwritten <;> exact hwritten.elim

/-- What each call has seen after a step, as far as it is served by then; a read that
the step serves has seen what its node has applied. -/
theorem Explained.next
    (hexec : init.exec cfg as = some c)
    (h : Explained cfg as own seen σ c)
    (hrefines : Refines cfg σ c)
    (hvotes : Elections cfg g c)
    (hserving : c.Serving a)
    (hstep : c.step cfg a = some c')
    (i : Nat) :
    ∃ l, (∀ answer, c.Served i answer → l = seen i) ∧
      ∀ answer, c'.Served i answer → Result cfg own σ c i answer l ∧
        (c.Served i answer ∨ (Found answer → ∃ op, c.ops[i]? = some op ∧
          op.phase = .reading ∧ Current (c.node op.node) ∧
          l.length = (c.node op.node).lastApplied)) := by
  have hexec' : init.exec cfg (as ++ [a]) = some c' := exec_concat.mpr ⟨c, hexec, hstep⟩
  by_cases hold : ∃ answer, c.Served i answer
  · obtain ⟨answer, hanswer⟩ := hold
    refine ⟨seen i, fun _ _ => rfl, fun answer' hanswer' => ?_⟩
    obtain rfl := Served.unique hexec' (hanswer.step hstep) hanswer'
    exact ⟨h.results i answer hanswer, Or.inl hanswer⟩
  · by_cases hnew : ∃ answer, c'.Served i answer
    · obtain ⟨answer, hanswer⟩ := hnew
      rcases Served.cases hexec hstep hanswer with hserved |
        ⟨rfl, op, index, term, hop, hphase, hcommit, rfl⟩ | ⟨rfl, op, hop, hphase, rfl⟩
      · exact absurd ⟨answer, hserved⟩ hold
      · refine ⟨(σ.llog term).take index, fun answer' h' => absurd ⟨answer', h'⟩ hold,
          fun answer' hanswer' => ?_⟩
        obtain rfl := Served.unique hexec' hanswer hanswer'
        exact ⟨h.acknowledges hrefines hvotes hop hphase hcommit (hserving op hop),
          Or.inr fun hfound => hfound.elim⟩
      · have hcurrent : Current (c.node op.node) := hserving op hop
        obtain ⟨l, hlength, hresult⟩ := h.looks hrefines hvotes hop hcurrent
        refine ⟨l, fun answer' h' => absurd ⟨answer', h'⟩ hold, fun answer' hanswer' => ?_⟩
        obtain rfl := Served.unique hexec' hanswer hanswer'
        exact ⟨hresult, Or.inr fun _ => ⟨op, hop, hphase, hcurrent, hlength⟩⟩
    · exact ⟨[], fun answer h' => absurd ⟨answer, h'⟩ hold,
        fun answer h' => absurd ⟨answer, h'⟩ hnew⟩

theorem Explained.step
    (hexec : init.exec cfg as = some c)
    (h : Explained cfg as own seen σ c)
    (hrefines : Refines cfg σ c)
    (hidentity : Identity made c)
    (howners : Owners cfg made own c)
    (hthreads : c.Threads cfg)
    (hvotes : Elections cfg g c)
    (hok : c.Linear a)
    (hstep : c.step cfg a = some c') :
    ∃ x ls σ' seen', Transition cfg False c a c' x ls ∧
      RefinesAlong cfg σ c' x ls (c'.node x) σ' ∧
      Explained cfg (as ++ [a]) (addOwn own a ls) seen' σ' c' := by
  obtain ⟨hfollow, hforward, hserving⟩ := hok
  obtain ⟨x, ls, T, hwaits⟩ := step_waits hthreads
    (show Usual False c a from ⟨fun hfail => hfollow.commits hfail, hfollow.terms⟩) hstep
  obtain ⟨σ', halong, hreplaying, hlogged⟩ := h.logged.step h.replaying hrefines hidentity
    howners hfollow hforward hthreads hvotes T
  have hexec' : init.exec cfg (as ++ [a]) = some c' := exec_concat.mpr ⟨c, hexec, hstep⟩
  have hg := Steps.grows hrefines.inv halong.steps
  have hafter := halong.refines hrefines hfollow hthreads hvotes T
  have howners' := howners.step hidentity T hstep
  have hterm : ∀ v, (c.node v).currentTerm ≤ (c'.node v).currentTerm := fun v => by
    rw [← (hrefines.nodes v).term, ← (hafter.nodes v).term]
    exact hg.term v
  have hfence : ∀ {first index : Nat} {fence : String → Nat},
      Fence cfg first index fence σ c → Fence cfg first index fence σ' c' :=
    fun h => h.step hfollow hthreads hvotes T hstep hterm hg
  choose seen' hsame hresult using
    h.next hexec hrefines hvotes hserving hstep
  have hresults : ∀ i answer, c'.Served i answer →
      Result cfg (addOwn own a ls) σ' c' i answer (seen' i) := fun i answer hserved =>
    (hresult i answer hserved).1.step hg hthreads hvotes T hstep
  have hkept : ∀ {i j}, Before cfg as i j → seen' i = seen i := fun hbefore =>
    (hbefore.served hexec).elim fun answer hserved => hsame _ answer hserved
  refine ⟨x, ls, σ', seen', T, halong, hreplaying, hlogged,
    h.promised.step hrefines hserving.answerable hstep hwaits halong,
    fun i op index term hop hphase => ?_, hfence h.start, hresults,
    fun i j e hbefore hown => ?_, fun i j answer hbefore hserved hfound => ?_,
    fun i j hbefore => ?_⟩
  · rcases (step_serves hstep).waiting i op index term hop hphase with hold | ⟨os, ha⟩
    · exact (h.waiting i op index term hold hphase).imp fun cmd hcmd =>
        ⟨hcmd.1, Or.inl hcmd.2⟩
    · obtain ⟨-, cmd, prevTerm, hcmd, hmem⟩ := hwaits i os ha op index term hop hphase
      exact ⟨cmd, hcmd, Or.inr ⟨os, prevTerm, ha, hmem⟩⟩
  · rcases hbefore.cases hexec' with hbefore | ⟨-, hle⟩
    · rw [hkept hbefore]
      rcases hown with hown | ⟨os, p, -, hmem⟩
      · exact h.fresh i j e hbefore hown
      · -- what was seen existed before
        intro he
        obtain ⟨answer, hserved⟩ := hbefore.served hexec
        obtain ⟨k, hk⟩ := (h.results i answer hserved).owned e he
        obtain ⟨q, hq⟩ := howners.made k e hk
        exact hidentity.not_proposes T hq hmem
    · exact absurd (howners'.lt_length hown) (not_lt.mpr hle)
  · rcases hbefore.cases hexec' with hbefore | ⟨-, hle⟩
    · rw [hkept hbefore]
      rcases (hresult j answer hserved).2 with hold | hnew
      · rw [hsame j answer hold]
        exact h.later i j answer hbefore hold hfound
      · obtain ⟨op, hop, hphase, hcurrent, hlength⟩ := hnew hfound
        obtain ⟨first, hle, fence, hfenced⟩ := h.fences i j hbefore
        rw [hlength]
        exact hfenced.applied hrefines hthreads hvotes hle hop hphase hcurrent
    · exact absurd hserved.lt_length (not_lt.mpr hle)
  · rcases hbefore.cases hexec' with hbefore | ⟨⟨answer, hserved⟩, hle⟩
    · obtain ⟨first, hle, fence, hfenced⟩ := h.fences i j hbefore
      rw [hkept hbefore]
      exact ⟨first, hle, fence, hfence hfenced⟩
    · exact ⟨_, hle, _, (hfence h.start).now hafter (hresults i answer hserved).acked⟩

/-- The served calls of a run of such steps. -/
theorem exec_explained
    (halong : Along cfg Linear init as)
    (hexec : init.exec cfg as = some c) :
    c.Threads cfg ∧ ∃ g made own seen σ, Elections cfg g c ∧ Identity made c ∧
      Owners cfg made own c ∧ Refines cfg σ c ∧ Explained cfg as own seen σ c := by
  induction as using List.reverseRecOn generalizing c with
  | nil =>
      cases hexec
      exact ⟨threads_init, _, _, _, _, _, elections_init, identity_init, owners_init,
        refines_init, explained_init⟩
  | append_singleton as a ih =>
      obtain ⟨c₁, hexec₁, hstep⟩ := exec_concat.mp hexec
      obtain ⟨hbefore, hlast⟩ := along_append halong
      obtain ⟨hthreads, g, made, own, seen, σ, hvotes, hidentity, howners, hrefines, h⟩ :=
        ih hbefore hexec₁
      have hok : c₁.Linear a := (hlast c₁ hexec₁).1
      obtain ⟨x, ls, σ', seen', T, hpath, h'⟩ :=
        h.step hexec₁ hrefines hidentity howners hthreads hvotes hok hstep
      obtain ⟨-, -, -, hthreads'⟩ : c₁.Next cfg False a c :=
        step_next hthreads (fun hfail => hok.1.commits hfail) hok.1.terms hstep
      have hvotes' := hvotes.step hthreads T
      exact ⟨hthreads', _, _, _, seen', σ', hvotes', hidentity.step hvotes hvotes' T,
        howners.step hidentity T hstep, hpath.refines hrefines hok.1 hthreads hvotes T, h'⟩

end Explained

end Cluster

end LogReplicator
