import Mathlib.Tactic

/-!
# Sections of code over durable state

A section is a piece of code that holds a lock from its start to its end.  It
reads and updates a state and issues write transactions.  The environment
decides the fate of every transaction (`Outcome`):

* `commit`: the write takes effect and the code is told so;
* `fail`: the write leaves the state unchanged and the code is told so;
* `crash`: the process dies before the write takes effect.

`Txn σ α` is the type of such sections.  A section that dies returns no value,
and the state it leaves is the state at the last transaction boundary; what
survives of it is the business of the caller.

`wp faulty m Q C s` says that every run of `m` from `s` either returns a value
and a state related by `Q` or dies in a state satisfying the crash condition
`C`.  Failing transactions are considered only when `faulty` holds; crashes
always are.
-/

namespace LogReplicator
namespace Library

/-- The fate of one write transaction. -/
inductive Outcome where
  | commit
  | fail
  | crash
deriving DecidableEq, Repr

/-- A section of code: it consumes the fates of its transactions in order. -/
def Txn (σ α : Type) : Type :=
  List Outcome → σ → Option α × σ × List Outcome

namespace Txn

variable {σ α β : Type}

/-- Return a value without touching the state. -/
def ret (a : α) : Txn σ α :=
  fun os s => (some a, s, os)

/-- Run one section after the other; nothing runs after a crash. -/
def andThen (m : Txn σ α) (f : α → Txn σ β) : Txn σ β :=
  fun os s =>
    match m os s with
    | (some a, s', os') => f a os' s'
    | (none, s', os') => (none, s', os')

instance : Monad (Txn σ) where
  pure := ret
  bind := andThen

theorem bind_assoc
    {γ : Type} (m : Txn σ α) (f : α → Txn σ β) (g : β → Txn σ γ) :
    m >>= f >>= g = m >>= fun a => f a >>= g := by
  funext os s
  show andThen (andThen m f) g os s = andThen m (fun a => andThen (f a) g) os s
  unfold andThen
  rcases m os s with ⟨_ | a, s', os'⟩ <;> rfl

/-- A section whose first part returns goes on with the second. -/
theorem run_bind
    {m : Txn σ α} {f : α → Txn σ β} {os os' : List Outcome} {s s' : σ} {a : α}
    (h : m os s = (some a, s', os')) :
    (m >>= f) os s = f a os' s' := by
  show andThen m f os s = _
  simp only [andThen, h]

/-- A section whose first part dies ends there. -/
theorem run_bind_none
    {m : Txn σ α} {f : α → Txn σ β} {os os' : List Outcome} {s s' : σ}
    (h : m os s = (none, s', os')) :
    (m >>= f) os s = (none, s', os') := by
  show andThen m f os s = _
  simp only [andThen, h]

/-- Two sections that begin alike and go on alike. -/
theorem run_bind_congr
    {m : Txn σ α} {f g : α → Txn σ β} {os : List Outcome} {s : σ}
    (h : ∀ a s' os', m os s = (some a, s', os') → f a os' s' = g a os' s') :
    (m >>= f) os s = (m >>= g) os s := by
  rcases hrun : m os s with ⟨_ | a, s', os'⟩
  · rw [run_bind_none hrun, run_bind_none hrun]
  · rw [run_bind hrun, run_bind hrun]
    exact h a s' os' hrun

theorem run_bind_left
    {m m' : Txn σ α} {os : List Outcome} {s : σ}
    (h : m os s = m' os s) (f : α → Txn σ β) :
    (m >>= f) os s = (m' >>= f) os s := by
  show andThen m f os s = andThen m' f os s
  unfold andThen
  rw [h]

/-- A section that returns has parts that return. -/
theorem of_run_bind
    {m : Txn σ α} {f : α → Txn σ β} {os os' : List Outcome} {s s' : σ} {b : β}
    (h : (m >>= f) os s = (some b, s', os')) :
    ∃ a s₁ os₁, m os s = (some a, s₁, os₁) ∧ f a os₁ s₁ = (some b, s', os') := by
  rcases hm : m os s with ⟨_ | a, s₁, os₁⟩
  · rw [run_bind_none hm] at h
    cases h
  · rw [run_bind hm] at h
    exact ⟨a, s₁, os₁, rfl, h⟩

/-- The current state. -/
def read : Txn σ σ :=
  fun os s => (some s, s, os)

theorem run_read_bind
    (f : σ → Txn σ β) (os : List Outcome) (s : σ) :
    (read >>= f) os s = f s os s :=
  rfl

/-- Change the state without a transaction. -/
def update (f : σ → σ) : Txn σ Unit :=
  fun os s => (some (), f s, os)

/-- One write transaction; the result says whether it committed. -/
def write (f : σ → σ) : Txn σ Bool :=
  fun os s =>
    match os with
    | [] => (some true, f s, [])
    | .commit :: os => (some true, f s, os)
    | .fail :: os => (some false, s, os)
    | .crash :: os => (none, s, os)

/-- What becomes of one transaction. -/
theorem write_cases
    (f : σ → σ) (os : List Outcome) (s : σ) :
    write f os s = (some true, f s, os.tail) ∨
      (Outcome.fail ∈ os ∧ write f os s = (some false, s, os.tail)) ∨
      (Outcome.crash ∈ os ∧ write f os s = (none, s, os.tail)) := by
  cases os with
  | nil => exact Or.inl rfl
  | cons o os =>
      cases o with
      | commit => exact Or.inl rfl
      | fail => exact Or.inr (Or.inl ⟨List.mem_cons_self, rfl⟩)
      | crash => exact Or.inr (Or.inr ⟨List.mem_cons_self, rfl⟩)

/-- A transaction that is rolled back, unless the process dies first. -/
def refuse : Txn σ Bool :=
  fun os s =>
    match os with
    | [] => (some false, s, [])
    | .crash :: os => (none, s, os)
    | _ :: os => (some false, s, os)

/-- A write transaction that can commit only if it is `accepted`. -/
def writeIf (accepted : Bool) (f : σ → σ) : Txn σ Bool :=
  if accepted then write f else refuse

@[simp] theorem writeIf_true
    (f : σ → σ) :
    writeIf true f = write f :=
  rfl

@[simp] theorem writeIf_false
    (f : σ → σ) :
    writeIf false f = refuse :=
  rfl

theorem refuse_cases
    (os : List Outcome) (s : σ) :
    refuse os s = (some false, s, os.tail) ∨
      (Outcome.crash ∈ os ∧ refuse os s = (none, s, os.tail)) := by
  cases os with
  | nil => exact Or.inl rfl
  | cons o os =>
      cases o with
      | commit => exact Or.inl rfl
      | fail => exact Or.inl rfl
      | crash => exact Or.inr ⟨List.mem_cons_self, rfl⟩

/-- What becomes of one transaction that has to be accepted. -/
theorem writeIf_cases
    (accepted : Bool) (f : σ → σ) (os : List Outcome) (s : σ) :
    (accepted = true ∧ writeIf accepted f os s = (some true, f s, os.tail)) ∨
      ((accepted = false ∨ Outcome.fail ∈ os) ∧
        writeIf accepted f os s = (some false, s, os.tail)) ∨
      (Outcome.crash ∈ os ∧ writeIf accepted f os s = (none, s, os.tail)) := by
  cases accepted with
  | false =>
      exact Or.inr ((refuse_cases os s).imp_left fun h => ⟨Or.inl rfl, h⟩)
  | true =>
      rcases write_cases f os s with h | ⟨hfail, h⟩ | ⟨hcrash, h⟩
      · exact Or.inl ⟨rfl, h⟩
      · exact Or.inr (Or.inl ⟨Or.inr hfail, h⟩)
      · exact Or.inr (Or.inr ⟨hcrash, h⟩)

/-- Statements one after the other, each with the word whether it is accepted; the first
error ends them. -/
def execAll : List (Bool × (σ → σ)) → Txn σ Bool
  | [] => pure true
  | (accepted, f) :: fs => do
      let done ← writeIf accepted f
      if done then execAll fs else pure false

/-- A transaction that is made of statements.  They work on a copy of the state, which
replaces it when the transaction commits.  Beginning it, every statement and the commit
have a fate of their own. -/
def inTx (fn : Txn σ Bool) : Txn σ Bool :=
  fun os s =>
    match write id os s with
    | (some true, copy, os) =>
        match fn os copy with
        | (some true, copy, os) => write (fun _ => copy) os s
        -- the rollback
        | (r, _, os) => (r, s, os)
    | (r, _, os) => (r, s, os)

/-- What the statements do one after the other. -/
def effectAll (fs : List (Bool × (σ → σ))) (s : σ) : σ :=
  fs.foldl (fun s f => f.2 s) s

/-- Either all statements are accepted and executed, or one of them failed. -/
theorem execAll_cases
    (fs : List (Bool × (σ → σ))) (os : List Outcome) (s : σ) :
    ∃ r s' os', execAll fs os s = (r, s', os') ∧ os' <:+ os ∧
      (r = some true ∧ (fs.all Prod.fst = true) ∧ s' = effectAll fs s ∨
        r = some false ∧ (fs.all Prod.fst = false ∨ Outcome.fail ∈ os) ∨
        r = none ∧ Outcome.crash ∈ os) := by
  induction fs generalizing os s with
  | nil =>
      exact ⟨some true, s, os, rfl, List.suffix_rfl, Or.inl ⟨rfl, rfl, rfl⟩⟩
  | cons f fs ih =>
      obtain ⟨accepted, f⟩ := f
      unfold execAll
      rw [List.all_cons]
      rcases writeIf_cases accepted f os s with ⟨rfl, hrun⟩ | ⟨hfail, hrun⟩ | ⟨hcrash, hrun⟩
      · obtain ⟨r, s', os', hrest, hsuffix, hcases⟩ := ih os.tail (f s)
        refine ⟨r, s', os', (run_bind hrun).trans hrest, hsuffix.trans (List.tail_suffix os),
          ?_⟩
        rw [Bool.true_and]
        exact hcases.imp_right fun h =>
          h.imp (And.imp_right (Or.imp_right List.mem_of_mem_tail))
            (And.imp_right List.mem_of_mem_tail)
      · exact ⟨some false, s, os.tail, run_bind hrun, List.tail_suffix os,
          Or.inr (Or.inl ⟨rfl, hfail.imp_left fun h => by rw [h, Bool.false_and]⟩)⟩
      · exact ⟨none, s, os.tail, run_bind_none hrun, List.tail_suffix os,
          Or.inr (Or.inr ⟨rfl, hcrash⟩)⟩

/-- A transaction takes effect as a whole or not at all. -/
theorem inTx_cases
    (fs : List (Bool × (σ → σ))) (os : List Outcome) (s : σ) :
    ∃ r s' os', inTx (execAll fs) os s = (r, s', os') ∧ os' <:+ os ∧
      (r = some true ∧ (fs.all Prod.fst = true) ∧ s' = effectAll fs s ∨
        r = some false ∧ s' = s ∧ (fs.all Prod.fst = false ∨ Outcome.fail ∈ os) ∨
        r = none ∧ s' = s ∧ Outcome.crash ∈ os) := by
  have htail := List.tail_suffix os
  unfold inTx
  rcases write_cases id os s with hbegin | ⟨hfail, hbegin⟩ | ⟨hcrash, hbegin⟩
  · obtain ⟨r, copy, os₁, hexec, hsuffix, hcases⟩ := execAll_cases fs os.tail s
    have hsuffix₁ := hsuffix.trans htail
    simp only [hbegin, id_eq, hexec]
    rcases hcases with ⟨rfl, haccepted, rfl⟩ | ⟨rfl, hfail⟩ | ⟨rfl, hcrash⟩
    · have hsuffix₂ := (List.tail_suffix os₁).trans hsuffix₁
      rcases write_cases (fun _ => effectAll fs s) os₁ s with
        hcommit | ⟨hfail, hcommit⟩ | ⟨hcrash, hcommit⟩
      · exact ⟨_, _, _, hcommit, hsuffix₂, Or.inl ⟨rfl, haccepted, rfl⟩⟩
      · exact ⟨_, _, _, hcommit, hsuffix₂,
          Or.inr (Or.inl ⟨rfl, rfl, Or.inr (hsuffix₁.subset hfail)⟩)⟩
      · exact ⟨_, _, _, hcommit, hsuffix₂, Or.inr (Or.inr ⟨rfl, rfl, hsuffix₁.subset hcrash⟩)⟩
    · exact ⟨_, _, _, rfl, hsuffix₁,
        Or.inr (Or.inl ⟨rfl, rfl, hfail.imp_right fun h => htail.subset h⟩)⟩
    · exact ⟨_, _, _, rfl, hsuffix₁, Or.inr (Or.inr ⟨rfl, rfl, htail.subset hcrash⟩)⟩
  · simp only [hbegin]
    exact ⟨_, _, _, rfl, htail, Or.inr (Or.inl ⟨rfl, rfl, Or.inr hfail⟩)⟩
  · simp only [hbegin]
    exact ⟨_, _, _, rfl, htail, Or.inr (Or.inr ⟨rfl, rfl, hcrash⟩)⟩

/-- Whether the first transaction commits. -/
def commits : List Outcome → Bool
  | [] => true
  | o :: _ => decide (o = .commit)

/-- No transaction of the list fails, unless failures are allowed. -/
def Allowed (faulty : Prop) (os : List Outcome) : Prop :=
  Outcome.fail ∈ os → faulty

/-- Weakest precondition with a crash condition. -/
def wp (faulty : Prop) (m : Txn σ α) (Q : α → σ → Prop) (C : σ → Prop)
    (s : σ) : Prop :=
  ∀ os, Allowed faulty os →
    match m os s with
    | (some a, s', os') => Q a s' ∧ Allowed faulty os'
    | (none, s', _) => C s'

section Rules

variable {faulty : Prop} {Q : α → σ → Prop} {C : σ → Prop} {s : σ}

theorem Allowed.tail
    {o : Outcome} {os : List Outcome}
    (h : Allowed faulty (o :: os)) :
    Allowed faulty os :=
  fun hmem => h (List.mem_cons_of_mem _ hmem)

theorem wp_pure
    {a : α} (h : Q a s) :
    wp faulty (pure a) Q C s :=
  fun _ hos => ⟨h, hos⟩

theorem wp_bind
    {m : Txn σ α} {f : α → Txn σ β} {R : β → σ → Prop}
    (h : wp faulty m (fun a s' => wp faulty (f a) R C s') C s) :
    wp faulty (m >>= f) R C s := by
  intro os hos
  have hm := h os hos
  show match andThen m f os s with
    | (some a, s', os') => R a s' ∧ Allowed faulty os'
    | (none, s', _) => C s'
  unfold andThen
  rcases hr : m os s with ⟨_ | a, s', os'⟩
  · simpa [hr] using hm
  · simp only [hr] at hm ⊢
    exact hm.1 os' hm.2

theorem wp_read
    {R : σ → σ → Prop}
    (h : R s s) :
    wp faulty (read : Txn σ σ) R C s :=
  fun _ hos => ⟨h, hos⟩

theorem wp_update
    {f : σ → σ} {R : Unit → σ → Prop}
    (h : R () (f s)) :
    wp faulty (update f) R C s :=
  fun _ hos => ⟨h, hos⟩

/-- A transaction commits, fails, or is preceded by a crash. -/
theorem wp_write
    {f : σ → σ} {R : Bool → σ → Prop}
    (hcommit : R true (f s))
    (hfail : faulty → R false s)
    (hcrash : C s) :
    wp faulty (write f) R C s := by
  intro os hos
  cases os with
  | nil => exact ⟨hcommit, hos⟩
  | cons o os =>
      cases o with
      | commit => exact ⟨hcommit, hos.tail⟩
      | fail => exact ⟨hfail (hos List.mem_cons_self), hos.tail⟩
      | crash => exact hcrash

/-- A transaction that has to be accepted fails if it is not. -/
theorem wp_writeIf
    {accepted : Bool} {f : σ → σ} {R : Bool → σ → Prop}
    (hcommit : accepted = true → R true (f s))
    (hfail : accepted = false ∨ faulty → R false s)
    (hcrash : C s) :
    wp faulty (writeIf accepted f) R C s := by
  cases accepted with
  | true =>
      exact wp_write (hcommit rfl) (fun hf => hfail (Or.inr hf)) hcrash
  | false =>
      intro os hos
      cases os with
      | nil => exact ⟨hfail (Or.inl rfl), hos⟩
      | cons o os =>
          cases o with
          | commit => exact ⟨hfail (Or.inl rfl), hos.tail⟩
          | fail => exact ⟨hfail (Or.inl rfl), hos.tail⟩
          | crash => exact hcrash

theorem wp_mono
    {m : Txn σ α} {Q' : α → σ → Prop} {C' : σ → Prop}
    (h : wp faulty m Q C s)
    (hQ : ∀ a s', Q a s' → Q' a s')
    (hC : ∀ s', C s' → C' s') :
    wp faulty m Q' C' s := by
  intro os hos
  have hm := h os hos
  rcases hr : m os s with ⟨_ | a, s', os'⟩
  · simp only [hr] at hm ⊢
    exact hC s' hm
  · simp only [hr] at hm ⊢
    exact ⟨hQ a s' hm.1, hm.2⟩

/-- What a run that returns satisfies. -/
theorem wp_some
    {m : Txn σ α} {os os' : List Outcome} {a : α} {s' : σ}
    (h : wp faulty m Q C s)
    (hos : Allowed faulty os)
    (hr : m os s = (some a, s', os')) :
    Q a s' := by
  have := h os hos
  simp only [hr] at this
  exact this.1

/-- A run that returns leaves no failures behind that are not allowed. -/
theorem wp_allowed
    {m : Txn σ α} {os os' : List Outcome} {a : α} {s' : σ}
    (h : wp faulty m Q C s)
    (hos : Allowed faulty os)
    (hr : m os s = (some a, s', os')) :
    Allowed faulty os' := by
  have := h os hos
  simp only [hr] at this
  exact this.2

/-- What a run that dies satisfies. -/
theorem wp_none
    {m : Txn σ α} {os os' : List Outcome} {s' : σ}
    (h : wp faulty m Q C s)
    (hos : Allowed faulty os)
    (hr : m os s = (none, s', os')) :
    C s' := by
  have := h os hos
  simpa only [hr] using this

end Rules

/-- Without a crash the section returns. -/
def Returns (m : Txn σ α) : Prop :=
  ∀ os s, Outcome.crash ∉ os →
    ∃ a s' os', m os s = (some a, s', os') ∧ Outcome.crash ∉ os'

section Returns

theorem returns_pure
    (a : α) :
    Returns (pure a : Txn σ α) :=
  fun os s hos => ⟨a, s, os, rfl, hos⟩

theorem returns_read :
    Returns (read : Txn σ σ) :=
  fun os s hos => ⟨s, s, os, rfl, hos⟩

theorem returns_update
    (f : σ → σ) :
    Returns (update f) :=
  fun os s hos => ⟨(), f s, os, rfl, hos⟩

theorem returns_write
    (f : σ → σ) :
    Returns (write f) := by
  intro os s hos
  cases os with
  | nil => exact ⟨true, f s, [], rfl, hos⟩
  | cons o os =>
      cases o with
      | commit => exact ⟨true, f s, os, rfl, by simpa using hos⟩
      | fail => exact ⟨false, s, os, rfl, by simpa using hos⟩
      | crash => simp at hos

theorem returns_writeIf
    (accepted : Bool) (f : σ → σ) :
    Returns (writeIf accepted f) := by
  cases accepted with
  | true => exact returns_write f
  | false =>
      intro os s hos
      rcases refuse_cases os s with h | ⟨hcrash, -⟩
      · exact ⟨false, s, os.tail, h, fun hmem => hos (List.mem_of_mem_tail hmem)⟩
      · exact absurd hcrash hos

theorem Returns.bind
    {m : Txn σ α} {f : α → Txn σ β}
    (hm : Returns m)
    (hf : ∀ a, Returns (f a)) :
    Returns (m >>= f) := by
  intro os s hos
  obtain ⟨a, s', os', hr, hos'⟩ := hm os s hos
  obtain ⟨b, s'', os'', hr', hos''⟩ := hf a os' s' hos'
  exact ⟨b, s'', os'', (run_bind hr).trans hr', hos''⟩

end Returns

end Txn

end Library
end LogReplicator
