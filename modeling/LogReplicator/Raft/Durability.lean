import LogReplicator.Raft.Solo

/-!
# Terms and crashes

A node that answered with a term must not forget it.  It does when the write
that should make a newer term durable fails and the node dies afterwards: the
failure is only logged.  As long as these writes do not fail, the term in memory
and the term on disk agree between any two sections, and the node never goes
back.
-/

namespace LogReplicator

open Library

/-- Once the node answered `a` with a term, it does not consent to `b` if the
term of `b` is smaller. -/
def Answered.Binds (a b : Answered) : Prop :=
  ∀ t ∈ a.replyTerm, b.consents = true → t ≤ b.requestTerm

instance (a b : Answered) : Decidable (a.Binds b) :=
  inferInstanceAs (Decidable (∀ t ∈ a.replyTerm, _))

/-- The changes that cannot move a term at or above `term`. -/
def Label.Below (term : Nat) : Label → Prop
  | .raise t _ => t ≤ term
  | .campaign _ _ => False
  | .restart => False
  | _ => True

section Paths

variable {env : Env} {n n' : Node} {l : Label} {ls : List Label} {term : Nat}

theorem Move.terms_eq
    (h : Move env l n n')
    (hl : l.Below term)
    (hterm : term ≤ n.currentTerm)
    (hsaved : n.store.currentTerm = n.currentTerm) :
    n'.currentTerm = n.currentTerm ∧ n'.store.currentTerm = n.currentTerm := by
  cases h with
  | raise hlt =>
      exact absurd (lt_of_lt_of_le hlt hl) (not_lt.mpr hterm)
  | raiseUnsaved _ hlt =>
      exact absurd (lt_of_lt_of_le hlt hl) (not_lt.mpr hterm)
  | campaign _ _ =>
      exact hl.elim
  | campaignUnsaved _ _ _ =>
      exact hl.elim
  | restart =>
      exact hl.elim
  | vote _ _ _ =>
      exact ⟨rfl, rfl⟩
  | progress _ =>
      unfold Node.recordPeerProgressLocked
      split_ifs <;> exact ⟨rfl, hsaved⟩
  | apply _ _ _ _ =>
      exact ⟨rfl, by rw [Command.applyTo_eq]; exact hsaved⟩
  | _ =>
      exact ⟨rfl, hsaved⟩

theorem Path.terms_eq
    (h : Path (Move env) ls n n')
    (hls : ∀ l ∈ ls, l.Below term)
    (hterm : term ≤ n.currentTerm)
    (hsaved : n.store.currentTerm = n.currentTerm) :
    n'.currentTerm = n.currentTerm ∧ n'.store.currentTerm = n.currentTerm := by
  refine h.invariant
    (P := fun m => m.currentTerm = n.currentTerm ∧ m.store.currentTerm = n.currentTerm)
    ⟨rfl, hsaved⟩ ?_
  rintro l hl m m' hmove ⟨h1, h2⟩
  have := hmove.terms_eq (hls l hl) (by omega) (by omega)
  exact ⟨this.1.trans h1, this.2.trans h1⟩

end Paths

section Raising

variable {n : Node} {term : Nat} {os : List Outcome} {α : Type}

/-- The node after it stepped down for a newer term and saved it. -/
def Node.lowered (n : Node) (term : Nat) (leaderID : String) : Node :=
  { n with
    role := .follower
    leaderID := leaderID
    currentTerm := term
    votedFor := ""
    store := n.store.saveTermVote term "" }

/-- The first write of a section that steps down saves the newer term. -/
theorem stepDownLocked_first
    (hterm : n.currentTerm < term)
    (hos : os.head? ≠ some .fail)
    (leaderID : String) (m : Txn Node α) :
    (Node.stepDownLocked term leaderID >>= fun _ => m) os n =
        m os.tail (n.lowered term leaderID) ∨
      ∃ n' os', (Node.stepDownLocked term leaderID >>= fun _ => m) os n =
        (none, n', os') ∧ n'.store = n.store := by
  rcases os with _ | ⟨_ | _ | _, os⟩
  case cons.fail => simp at hos
  case cons.crash =>
    refine Or.inr ⟨{ n with currentTerm := term, votedFor := "" }, os, ?_, rfl⟩
    simp [bind, Txn.andThen, Node.stepDownLocked, Node.adoptTerm, Txn.read, hterm,
      Txn.update, Node.saveTermVote, Node.writeStore, Txn.write]
  all_goals
    refine Or.inl ?_
    simp [bind, Txn.andThen, Node.stepDownLocked, Node.adoptTerm, Txn.read, hterm,
      Txn.update, Node.saveTermVote, Node.writeStore, Txn.write, pure, Txn.ret,
      Node.lowered]

/-- The same for the part of a handler that accepts a leader. -/
theorem acceptLeader_first
    (hterm : n.currentTerm < term)
    (hos : os.head? ≠ some .fail)
    (leaderID : String) (m : Txn Node α) :
    (Node.acceptLeader term leaderID >>= fun _ => m) os n =
        m os.tail (n.lowered term leaderID) ∨
      ∃ n' os', (Node.acceptLeader term leaderID >>= fun _ => m) os n =
        (none, n', os') ∧ n'.store = n.store := by
  have haccept : (Node.acceptLeader term leaderID >>= fun _ => m) os n =
      (Node.stepDownLocked term leaderID >>= fun _ =>
        (Txn.update fun n => { n with leaderID := leaderID }) >>= fun _ => m) os n := by
    rw [← Txn.bind_assoc]
    simp [Node.acceptLeader, bind, Txn.andThen, Txn.read, hterm]
  rw [haccept]
  exact stepDownLocked_first hterm hos leaderID _

/-- The node after it started an election and saved it. -/
def Node.candidate (n : Node) (o : Options) : Node :=
  { n with
    role := .candidate
    currentTerm := nextTerm n.currentTerm
    votedFor := o.nodeID
    leaderID := ""
    store := n.store.saveTermVote (nextTerm n.currentTerm) o.nodeID }

/-- The only write of `becomeCandidate` saves the new term. -/
theorem becomeCandidate_first
    (o : Options)
    (hrole : n.role ≠ .leader)
    (hos : os.head? ≠ some .fail) :
    (∃ round, Node.becomeCandidate o os n = (some round, n.candidate o, os.tail)) ∨
      ∃ n' os', Node.becomeCandidate o os n = (none, n', os') ∧ n'.store = n.store := by
  rcases os with _ | ⟨_ | _ | _, os⟩
  · refine Or.inl ⟨some ⟨nextTerm n.currentTerm, n.store.lastIndexAndTerm.1,
      n.store.lastIndexAndTerm.2⟩, ?_⟩
    simp [Node.becomeCandidate, bind, Txn.andThen, Txn.read, hrole, Txn.update,
      Node.saveTermVote, Node.writeStore, Txn.write, pure, Txn.ret, Node.candidate]
  · refine Or.inl ⟨some ⟨nextTerm n.currentTerm, n.store.lastIndexAndTerm.1,
      n.store.lastIndexAndTerm.2⟩, ?_⟩
    simp [Node.becomeCandidate, bind, Txn.andThen, Txn.read, hrole, Txn.update,
      Node.saveTermVote, Node.writeStore, Txn.write, pure, Txn.ret, Node.candidate]
  · simp at hos
  · refine Or.inr ⟨{ n with
      role := .candidate
      currentTerm := nextTerm n.currentTerm
      votedFor := o.nodeID
      leaderID := "" }, os, ?_, rfl⟩
    simp [Node.becomeCandidate, bind, Txn.andThen, Txn.read, hrole, Txn.update,
      Node.saveTermVote, Node.writeStore, Txn.write]

end Raising

namespace Solo

variable {json : Json} {o : Options} {s : Solo}

/-- Memory and disk agree on the term, and the past binds. -/
structure Steady (s : Solo) : Prop where
  saved : s.node.store.currentTerm = s.node.currentTerm
  answered : ∀ a ∈ s.answered, ∀ t ∈ a.replyTerm, t ≤ s.node.currentTerm
  binds : s.answered.Pairwise Answered.Binds

theorem Steady.extend
    (h : s.Steady)
    {n : Node} (new : List Answered)
    (hsaved : n.store.currentTerm = n.currentTerm)
    (hterm : s.node.currentTerm ≤ n.currentTerm)
    (hone : new.length ≤ 1)
    (hnew : ∀ b ∈ new, (∀ t ∈ b.replyTerm, t ≤ n.currentTerm) ∧
      (b.consents = true → s.node.currentTerm ≤ b.requestTerm)) :
    Steady ⟨n, s.answered ++ new⟩ := by
  refine ⟨hsaved, ?_, ?_⟩
  · intro a ha t ht
    rcases List.mem_append.mp ha with ha | ha
    · exact (h.answered a ha t ht).trans hterm
    · exact (hnew a ha).1 t ht
  · refine List.pairwise_append.mpr ⟨h.binds, ?_, ?_⟩
    · rcases new with _ | ⟨b, _ | ⟨c, rest⟩⟩
      · exact List.Pairwise.nil
      · exact List.pairwise_singleton _ _
      · simp at hone
    · intro a ha b hb t ht hconsents
      exact (h.answered a ha t ht).trans ((hnew b hb).2 hconsents)

/-- A section that raises no term keeps a node steady. -/
theorem Steady.section
    (json : Json) (o : Options)
    (h : s.Steady)
    {α : Type} {m : Txn Node α} {os : List Outcome} {answer : α → List Answered}
    {Q : α → List Label → Node → Prop} {D : List Label → Prop} {term : Nat}
    (hspec : (env json o).Spec m Q D s.node)
    (hterm : term ≤ s.node.currentTerm)
    (hQ : ∀ a ls n', Q a ls n' → ∀ l ∈ ls, l.Below term)
    (hD : ∀ ls, D ls → ∀ l ∈ ls, l.Below term)
    (hone : ∀ a, (answer a).length ≤ 1)
    (hanswer : ∀ a ls n', Q a ls n' → n'.currentTerm = s.node.currentTerm →
      ∀ b ∈ answer a, (∀ t ∈ b.replyTerm, t ≤ n'.currentTerm) ∧
        (b.consents = true → s.node.currentTerm ≤ b.requestTerm)) :
    (s.runSection m os answer).Steady := by
  rcases hspec.cases os (fun _ => trivial) with
    ⟨a, n', os', ls, hr, hpath, hq⟩ | ⟨n', os', ls, n'', hr, hstore, hpath, hd⟩
  · obtain ⟨h1, h2⟩ := Path.terms_eq hpath (hQ a ls n' hq) hterm h.saved
    have := h.extend (n := n') (answer a) (by omega) (by omega) (hone a)
      (hanswer a ls n' hq h1)
    simpa [runSection, hr] using this
  · obtain ⟨-, h2⟩ := Path.terms_eq hpath (hD ls hd) hterm h.saved
    have := h.extend (n := Node.new n''.store) [] rfl h2.ge (by simp) (by simp)
    simpa [runSection, hr, hstore] using this

/-- The node after it stepped down for a newer term and saved it. -/
def lower (s : Solo) (term : Nat) (leaderID : String) : Solo :=
  ⟨s.node.lowered term leaderID, s.answered⟩

theorem Steady.lower
    (h : s.Steady)
    {term : Nat} (leaderID : String)
    (hterm : s.node.currentTerm < term) :
    (s.lower term leaderID).Steady := by
  have := h.extend (n := s.node.lowered term leaderID) [] rfl hterm.le (by simp) (by simp)
  simpa [Solo.lower] using this

/-- A section that first saves a newer term dies there or goes on from it. -/
theorem Steady.raising
    (h : s.Steady)
    {α : Type} {m rest : Txn Node α} {os : List Outcome} {answer : α → List Answered}
    {term : Nat} {leaderID : String}
    (hm : m os s.node = rest os.tail (s.node.lowered term leaderID) ∨
      ∃ n' os', m os s.node = (none, n', os') ∧ n'.store = s.node.store)
    (hrest : ((s.lower term leaderID).runSection rest os.tail answer).Steady) :
    (s.runSection m os answer).Steady := by
  rcases hm with hm | ⟨n', os', hm, hstore⟩
  · have : s.runSection m os answer =
        (s.lower term leaderID).runSection rest os.tail answer := by
      simp only [runSection, hm, Solo.lower]
    rwa [this]
  · have := h.extend (n := Node.new s.node.store) [] rfl h.saved.ge (by simp) (by simp)
    simpa [runSection, hm, hstore] using this

/-- The write that makes a newer term durable does not fail, and no election is
started in the last term there is. -/
def Persists (s : Solo) (op : Operation) (os : List Outcome) : Prop :=
  match op with
  | .timeout =>
      os.head? ≠ some .fail ∧ s.node.currentTerm + 1 < maxTerms
  | .vote req => s.node.currentTerm < req.term → os.head? ≠ some .fail
  | .append req => s.node.currentTerm < req.term → os.head? ≠ some .fail
  | .snapshot req => s.node.currentTerm < req.term → os.head? ≠ some .fail
  | .observe term => s.node.currentTerm < term → os.head? ≠ some .fail
  | _ => True

theorem Steady.vote
    (h : s.Steady)
    {req : RequestVoteRequest} {os : List Outcome}
    (hp : s.Persists (.vote req) os) :
    (s.perform json o (.vote req) os).Steady := by
  by_cases hlt : s.node.currentTerm < req.term
  · have hm := stepDownLocked_first hlt (hp hlt) "" (Node.voteLocked req)
    have hrun : Node.requestVote req os s.node =
        (Node.stepDownLocked req.term "" >>= fun _ => Node.voteLocked req) os s.node := by
      simp [Node.requestVote, bind, Txn.andThen, Txn.read, hlt, not_lt.mpr hlt.le]
    rw [← hrun] at hm
    refine h.raising hm ((h.lower "" hlt).section json o (voteLocked_spec rfl) le_rfl ?_
      (by simp) (fun _ => by simp) ?_)
    · rintro _ ls _ ⟨-, ⟨-, -, rfl⟩ | ⟨-, -, rfl⟩ | ⟨-, -, rfl⟩⟩ <;> simp [Label.Below]
    · rintro a ls n' ⟨hterm, hcases⟩ _ b hb
      rw [List.mem_singleton.mp hb]
      refine ⟨?_, fun _ => le_rfl⟩
      rcases hcases with ⟨hr, -⟩ | ⟨hr, -⟩ | ⟨hr, -⟩ <;>
        simp [Answered.replyTerm, hr, hterm]
  · have hbelow : ∀ l : Label, l.Votes req → l.Below req.term := by
      intro l hl
      cases l <;> simp_all [Label.Votes, Label.Below]
    refine h.section json o requestVote_spec (not_lt.mp hlt)
      (fun _ _ _ hv l hl => hbelow l (hv.labels l hl))
      (fun _ hv l hl => hbelow l (hv.1 l hl)) (fun _ => by simp) ?_
    intro a ls n' hv _ b hb
    rw [List.mem_singleton.mp hb]
    refine ⟨?_, ?_⟩
    · intro t ht
      obtain ⟨r, hr, rfl⟩ := Option.map_eq_some_iff.mp ht
      exact (hv.term r hr).1.le
    · intro hc
      obtain ⟨r, hr, hgranted⟩ := Option.map_eq_some_iff.mp (of_decide_eq_true hc)
      exact (hv.granted r hr hgranted).2.1

theorem Steady.append
    (h : s.Steady)
    {req : AppendEntriesRequest} {os : List Outcome}
    (hp : s.Persists (.append req) os) :
    (s.perform json o (.append req) os).Steady := by
  have hbelow : ∀ l : Label, l.Appends req → l.Below req.term := by
    intro l hl
    cases l <;> simp_all [Label.Appends, Label.Below, Label.Applies]
  -- the reply of the handler, or of its second half, speaks for the node
  have hanswer : ∀ {n : Node} a ls n', n.Appended (env json o) req a ls n' →
      ∀ b ∈ [Answered.append req a], (∀ t ∈ b.replyTerm, t ≤ n'.currentTerm) ∧
        (b.consents = true → n.currentTerm ≤ b.requestTerm) := by
    intro n a ls n' ha b hb
    rw [List.mem_singleton.mp hb]
    refine ⟨?_, ?_⟩
    · intro t ht
      obtain ⟨r, hr, rfl⟩ := Option.map_eq_some_iff.mp ht
      exact (ha.term r hr).1.le
    · intro hc
      obtain ⟨r, hr, hsuccess⟩ := Option.map_eq_some_iff.mp (of_decide_eq_true hc)
      exact (ha.success r hr hsuccess).2.1
  by_cases hlt : s.node.currentTerm < req.term
  · have hm := acceptLeader_first hlt (hp hlt) req.leaderId (Node.mergeLocked json o req)
    have hrun : Node.appendEntries json o req os s.node =
        (Node.acceptLeader req.term req.leaderId >>= fun _ =>
          Node.mergeLocked json o req) os s.node := by
      simp [Node.appendEntries, bind, Txn.andThen, Txn.read, not_lt.mpr hlt.le]
    rw [← hrun] at hm
    exact h.raising hm ((h.lower req.leaderId hlt).section json o
      (mergeLocked_spec rfl rfl) le_rfl
      (fun _ _ _ ha l hl => hbelow l (ha.labels l hl))
      (fun _ ha l hl => hbelow l (ha.labels l hl)) (fun _ => by simp)
      (fun a ls n' ha _ => hanswer a ls n' ha))
  · exact h.section json o appendEntries_spec (not_lt.mp hlt)
      (fun _ _ _ ha l hl => hbelow l (ha.labels l hl))
      (fun _ ha l hl => hbelow l (ha.labels l hl)) (fun _ => by simp)
      (fun a ls n' ha _ => hanswer a ls n' ha)

theorem Steady.snapshot
    (h : s.Steady)
    {req : InstallSnapshotRequest} {os : List Outcome}
    (hp : s.Persists (.snapshot req) os) :
    (s.perform json o (.snapshot req) os).Steady := by
  have hbelow : ∀ l : Label, l.Installs req → l.Below req.term := by
    intro l hl
    cases l <;> simp_all [Label.Installs, Label.Below]
  have hanswer : ∀ {n : Node} a ls n', n.Installed req a ls n' →
      ∀ b ∈ [Answered.snapshot req a], (∀ t ∈ b.replyTerm, t ≤ n'.currentTerm) ∧
        (b.consents = true → n.currentTerm ≤ b.requestTerm) := by
    intro n a ls n' ha b hb
    rw [List.mem_singleton.mp hb]
    refine ⟨?_, fun hc => ha.success (of_decide_eq_true hc)⟩
    intro t ht
    obtain ⟨r, hr, rfl⟩ := Option.map_eq_some_iff.mp ht
    exact (ha.term r hr).1.le
  by_cases hlt : s.node.currentTerm < req.term
  · have hm := acceptLeader_first hlt (hp hlt) req.leaderId (Node.installLocked json req)
    have hrun : Node.installSnapshot json req os s.node =
        (Node.acceptLeader req.term req.leaderId >>= fun _ =>
          Node.installLocked json req) os s.node := by
      simp [Node.installSnapshot, bind, Txn.andThen, Txn.read, not_lt.mpr hlt.le]
    rw [← hrun] at hm
    exact h.raising hm ((h.lower req.leaderId hlt).section json o
      (installLocked_spec rfl rfl) le_rfl
      (fun _ _ _ ha l hl => hbelow l (ha.labels l hl))
      (fun _ ha l hl => hbelow l (ha.labels l hl)) (fun _ => by simp)
      (fun a ls n' ha _ => hanswer a ls n' ha))
  · exact h.section json o installSnapshot_spec (not_lt.mp hlt)
      (fun _ _ _ ha l hl => hbelow l (ha.labels l hl))
      (fun _ ha l hl => hbelow l (ha.labels l hl)) (fun _ => by simp)
      (fun a ls n' ha _ => hanswer a ls n' ha)

theorem Steady.observe
    (h : s.Steady)
    {term : Nat} {os : List Outcome}
    (hp : s.Persists (.observe term) os) :
    (s.perform json o (.observe term) os).Steady := by
  by_cases hlt : s.node.currentTerm < term
  · have hm := stepDownLocked_first hlt (hp hlt) "" (pure true)
    have hrun : Node.observeHigherTerm term os s.node =
        (Node.stepDownLocked term "" >>= fun _ => pure true) os s.node := by
      simp [Node.observeHigherTerm, bind, Txn.andThen, Txn.read, not_le.mpr hlt]
    rw [← hrun] at hm
    exact h.raising hm ((h.lower "" hlt).section json o
      (Q := fun _ ls _ => ls = []) (D := fun ls => ls = []) (Txn.Spec.pure rfl)
      (Nat.zero_le _) (by simp) (by simp) (fun _ => by simp) (by simp))
  · refine h.section json o observeHigherTerm_spec (not_lt.mp hlt) ?_
      (by simp) (fun _ => by simp) (by simp)
    rintro _ ls _ (⟨-, -, rfl, -⟩ | ⟨-, -, saved, rfl⟩) <;> simp [Label.Below]

theorem Steady.timeout
    (h : s.Steady)
    {os : List Outcome}
    (hp : s.Persists .timeout os) :
    (s.perform json o .timeout os).Steady := by
  obtain ⟨hos, hterm⟩ := hp
  by_cases hrole : s.node.role = .leader
  · have hrun : Node.becomeCandidate o os s.node = (some none, s.node, os) := by
      simp only [Node.becomeCandidate, bind, Txn.andThen, Txn.read, hrole, if_true]
      rfl
    have := h.extend (n := s.node) [] h.saved le_rfl (by simp) (by simp)
    simpa [perform, runSection, hrun] using this
  · rcases becomeCandidate_first o hrole hos with ⟨round, hrun⟩ | ⟨n', os', hrun, hstore⟩
    · have hle : s.node.currentTerm ≤ (s.node.candidate o).currentTerm := by
        simp only [Node.candidate, nextTerm, Nat.mod_eq_of_lt hterm]
        omega
      have := h.extend (n := s.node.candidate o) [] rfl hle (by simp) (by simp)
      simpa [perform, runSection, hrun] using this
    · have := h.extend (n := Node.new s.node.store) [] rfl h.saved.ge (by simp) (by simp)
      simpa [perform, runSection, hrun, hstore] using this

theorem below_of_commits
    {env : Env} {n : Node} {ls : List Label}
    (h : env.Commits n ls) :
    ∀ l ∈ ls, l.Below 0 := by
  have happlies : ∀ l : Label, l.Applies → l.Below 0 := by
    intro l hl
    cases l <;> simp_all [Label.Applies, Label.Below]
  rcases h with ⟨-, rfl⟩ | ⟨-, ls', rfl, hls⟩
  · simp
  · intro l hl
    rcases List.mem_cons.mp hl with rfl | hl
    · trivial
    · exact happlies l (hls l hl)

theorem below_of_records
    {env : Env} {n : Node} {peerID : String} {matchIndex : Nat} {ls : List Label}
    (h : env.Records n peerID matchIndex ls) :
    ∀ l ∈ ls, l.Below 0 := by
  obtain ⟨ls', rfl, hcommits⟩ := h
  intro l hl
  rcases List.mem_cons.mp hl with rfl | hl
  · trivial
  · exact below_of_commits hcommits l hl

theorem below_of_proposes
    {env : Env} {n : Node} {payload : Bytes} {ls : List Label}
    (h : env.Proposes n payload ls) :
    ∀ l ∈ ls, l.Below 0 := by
  obtain ⟨-, ls', rfl, hrest⟩ := h
  intro l hl
  rcases List.mem_cons.mp hl with rfl | hl
  · trivial
  · split_ifs at hrest
    · exact below_of_commits hrest l hl
    · simp [hrest] at hl

theorem Steady.perform
    (h : s.Steady)
    {op : Operation} {os : List Outcome}
    (hp : s.Persists op os) :
    (s.perform json o op os).Steady := by
  have hsolo : (env json o).solo := trivial
  have hzero := Nat.zero_le s.node.currentTerm
  cases op with
  | timeout =>
      exact h.timeout hp
  | vote req =>
      exact h.vote hp
  | append req =>
      exact h.append hp
  | snapshot req =>
      exact h.snapshot hp
  | observe term =>
      exact h.observe hp
  | win term =>
      refine h.section json o (becomeLeader_spec fun _ _ => Or.inl hsolo) hzero ?_
        (by simp) (fun _ => by simp) (by simp)
      rintro _ ls _ (⟨-, rfl, -⟩ | ⟨-, -, -, rfl⟩) <;> simp [Label.Below, Node.leadLabel]
  | commitAlone =>
      exact h.section json o (advanceCommitLocked_spec (Or.inl hsolo)) hzero
        (fun _ _ _ hq => below_of_commits hq.1) (fun _ => below_of_commits)
        (fun _ => by simp) (by simp)
  | build peerID =>
      rcases buildAppendRequestLocked_cases s.node o peerID with ⟨next, hb⟩ | ⟨t, -, hb⟩
      · have := h.extend (n := s.node.setNextIndex peerID next) [] h.saved le_rfl
          (by simp) (by simp)
        simpa [Solo.perform, hb] using this
      · have := h.extend (n := s.node) [] h.saved le_rfl (by simp) (by simp)
        simpa [Solo.perform, hb] using this
  | appendReply peerID term req reply =>
      refine h.section json o appendReplied_spec hzero ?_
        (fun _ hd => below_of_records hd.2.2.2) (fun _ => by simp) (by simp)
      rintro _ ls _ (⟨-, -, rfl⟩ | ⟨-, -, ⟨-, -, rfl⟩ | ⟨-, -, hr, -⟩⟩)
      · simp
      · simp [Label.Below]
      · exact below_of_records hr
  | snapshotReply peerID term lastIncludedIndex =>
      refine h.section json o snapshotReplied_spec hzero ?_
        (fun _ hd => below_of_records hd.2.2) (fun _ => by simp) (by simp)
      rintro _ ls _ (⟨-, -, rfl⟩ | ⟨-, -, -, hr, -⟩)
      · simp
      · exact below_of_records hr
  | client payload =>
      refine h.section json o appendClientEntry_spec hzero ?_ ?_ (fun _ => by simp) (by simp)
      · rintro _ ls _ (⟨-, rfl⟩ | ⟨-, hr⟩)
        · simp
        · exact below_of_proposes hr
      · rintro ls (rfl | hr)
        · simp
        · exact below_of_proposes hr
  | crash =>
      have := h.extend (n := Node.new s.node.store) [] rfl h.saved.ge (by simp) (by simp)
      simpa [Solo.perform] using this

/-- Every operation of a run persists the terms it raises. -/
def PersistsAll (json : Json) (o : Options) :
    Solo → List (Operation × List Outcome) → Prop
  | _, [] => True
  | s, op :: ops =>
      s.Persists op.1 op.2 ∧ PersistsAll json o (s.perform json o op.1 op.2) ops

theorem Steady.run
    {ops : List (Operation × List Outcome)}
    (h : s.Steady)
    (hops : PersistsAll json o s ops) :
    (s.run json o ops).Steady := by
  induction ops generalizing s with
  | nil =>
      exact h
  | cons op ops ih =>
      exact ih (h.perform hops.1) hops.2

theorem steady_init :
    init.Steady :=
  ⟨rfl, by simp [init], List.Pairwise.nil⟩

/-- In a run in which no write of a newer term fails, an answered term binds all
later answers, across any number of crashes. -/
theorem answers_bind
    (ops : List (Operation × List Outcome))
    (hops : PersistsAll json o init ops) :
    (init.run json o ops).answered.Pairwise Answered.Binds :=
  (steady_init.run hops).binds

/-- An append of term 5, a crash, and an append of term 3; the fate of the write
that saves term 5 is open. -/
def forgetRun (fate : Outcome) : List (Operation × List Outcome) :=
  [(.append ⟨5, "b", 0, 0, [], 0⟩, [fate]), (.crash, []),
    (.append ⟨3, "c", 0, 0, [], 0⟩, [])]

/-- The term is forgotten when the write fails: both appends are accepted. -/
theorem answers_not_bind_of_failed_save :
    ¬ (init.run Json.compact ⟨"a", ["b", "c"], 0⟩ (forgetRun .fail)).answered.Pairwise
      Answered.Binds := by
  decide

theorem answers_bind_saved :
    PersistsAll Json.compact ⟨"a", ["b", "c"], 0⟩ init (forgetRun .commit) ∧
      (init.run Json.compact ⟨"a", ["b", "c"], 0⟩
        (forgetRun .commit)).answered.Pairwise Answered.Binds := by
  have hops : PersistsAll Json.compact ⟨"a", ["b", "c"], 0⟩ init (forgetRun .commit) :=
    ⟨fun _ => by decide, trivial, fun _ => by decide, trivial⟩
  exact ⟨hops, answers_bind _ hops⟩

end Solo

end LogReplicator
