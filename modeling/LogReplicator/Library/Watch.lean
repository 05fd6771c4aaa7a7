import LogReplicator.Library.Txn

/-!
# Sections with instruments

A program is watched through instruments: gauges, counters, timers, log lines.  Its
sections then run on a pair, the state and the instruments, and what they do to the state
must not depend on the instruments.

* `onState` runs a section on the state and leaves the instruments alone;
* `onInstruments` sets the instruments, which may look at the state;
* `Erases w m` says that the watched section `w` is `m` when the instruments are
  forgotten; its rules follow the shape of a section;
* `LooksAt f w` says that of the instruments only the part `f` has an influence, and only
  on `f` itself.

`Keeps f m` is the frame rule: the section leaves the part `f` of the state as it was,
whether it returns or dies.  `Preserves I m` is the invariant rule: a section that returns
leads from states with `I` to states with `I`; where `Guards I m` holds, so does a section
that dies.
-/

namespace LogReplicator
namespace Library
namespace Txn

variable {σ τ α β γ : Type}

/-- A section of the state, with the instruments standing by. -/
def onState (m : Txn σ α) : Txn (σ × τ) α :=
  fun os w => ((m os w.1).1, ((m os w.1).2.1, w.2), (m os w.1).2.2)

/-- Set the instruments. -/
def onInstruments (f : σ → τ → τ) : Txn (σ × τ) Unit :=
  update fun w => (w.1, f w.1 w.2)

/-- Without its instruments, the section `w` is `m`. -/
def Erases (w : Txn (σ × τ) α) (m : Txn σ α) : Prop :=
  ∀ os s t, ∃ t', w os (s, t) = ((m os s).1, ((m os s).2.1, t'), (m os s).2.2)

section Erasure

variable {w : Txn (σ × τ) α} {m : Txn σ α}

theorem erases_pure
    (a : α) :
    Erases (pure a : Txn (σ × τ) α) (pure a) :=
  fun _ _ t => ⟨t, rfl⟩

theorem erases_onState
    (m : Txn σ α) :
    Erases (onState m : Txn (σ × τ) α) m :=
  fun _ _ t => ⟨t, rfl⟩

theorem Erases.bind
    {k : α → Txn (σ × τ) β} {f : α → Txn σ β}
    (h : Erases w m)
    (hk : ∀ a, Erases (k a) (f a)) :
    Erases (w >>= k) (m >>= f) := by
  intro os s t
  obtain ⟨t', hw⟩ := h os s t
  show ∃ t'', andThen w k os (s, t) =
    ((andThen m f os s).1, ((andThen m f os s).2.1, t''), (andThen m f os s).2.2)
  unfold andThen
  rw [hw]
  rcases m os s with ⟨_ | a, s', os'⟩
  · exact ⟨t', rfl⟩
  · exact hk a os' s' t'

/-- Both sections look at the state first. -/
theorem Erases.read
    {k : σ × τ → Txn (σ × τ) α} {f : σ → Txn σ α}
    (h : ∀ s t, Erases (k (s, t)) (f s)) :
    Erases (Txn.read >>= k) (Txn.read >>= f) :=
  fun os s t => h s t os s t

/-- What is done before with the instruments alone. -/
theorem Erases.instruments
    (h : Erases w m) (f : σ → τ → τ) :
    Erases (onInstruments f >>= fun _ => w) m :=
  fun os s t => h os s (f s t)

/-- What is done afterwards with the instruments alone. -/
theorem Erases.after
    {k : α → Txn (σ × τ) α}
    (h : Erases w m)
    (hk : ∀ a, Erases (k a) (pure a)) :
    Erases (w >>= k) m := by
  intro os s t
  obtain ⟨t', hw⟩ := h os s t
  show ∃ t'', andThen w k os (s, t) = _
  unfold andThen
  rw [hw]
  rcases m os s with ⟨_ | a, s', os'⟩
  · exact ⟨t', rfl⟩
  · exact hk a os' s' t'

theorem erases_onInstruments
    (f : σ → τ → τ) :
    Erases (onInstruments f : Txn (σ × τ) Unit) (pure ()) :=
  fun _ s t => ⟨f s t, rfl⟩

end Erasure

/-- The result of a section, with the part `f` of the instruments. -/
def seen (f : τ → γ) (r : Option α × (σ × τ) × List Outcome) :
    Option α × (σ × γ) × List Outcome :=
  (r.1, (r.2.1.1, f r.2.1.2), r.2.2)

/-- Of the instruments the section looks at no more than the part `f`. -/
def LooksAt (f : τ → γ) (w : Txn (σ × τ) α) : Prop :=
  ∀ os s t t', f t = f t' → seen f (w os (s, t)) = seen f (w os (s, t'))

section Looks

variable {f : τ → γ}

theorem looksAt_pure
    (a : α) :
    LooksAt f (pure a : Txn (σ × τ) α) := by
  intro os s t t' ht
  show (some a, (s, f t), os) = (some a, (s, f t'), os)
  rw [ht]

theorem looksAt_onState
    (m : Txn σ α) :
    LooksAt f (onState m : Txn (σ × τ) α) := by
  intro os s t t' ht
  show ((m os s).1, ((m os s).2.1, f t), (m os s).2.2) =
    ((m os s).1, ((m os s).2.1, f t'), (m os s).2.2)
  rw [ht]

theorem looksAt_onInstruments
    {g : σ → τ → τ} (h : ∀ s t t', f t = f t' → f (g s t) = f (g s t')) :
    LooksAt f (onInstruments g) := by
  intro os s t t' ht
  show (some (), (s, f (g s t)), os) = (some (), (s, f (g s t')), os)
  rw [h s t t' ht]

theorem LooksAt.bind
    {w : Txn (σ × τ) α} {k : α → Txn (σ × τ) β}
    (h : LooksAt f w)
    (hk : ∀ a, LooksAt f (k a)) :
    LooksAt f (w >>= k) := by
  intro os s t t' ht
  have hfirst := h os s t t' ht
  show seen f (andThen w k os (s, t)) = seen f (andThen w k os (s, t'))
  unfold andThen
  generalize w os (s, t) = r, w os (s, t') = r' at hfirst ⊢
  obtain ⟨a, ⟨s₁, t₁⟩, os₁⟩ := r
  obtain ⟨a', ⟨s₁', t₁'⟩, os₁'⟩ := r'
  simp only [seen, Prod.mk.injEq] at hfirst
  obtain ⟨rfl, ⟨rfl, ht₁⟩, rfl⟩ := hfirst
  cases a with
  | none =>
      show (none, (s₁, f t₁), os₁) = (none, (s₁, f t₁'), os₁)
      rw [ht₁]
  | some a => exact hk a os₁ s₁ t₁ t₁' ht₁

/-- The section looks at the state first. -/
theorem LooksAt.read
    {k : σ × τ → Txn (σ × τ) α}
    (hstate : ∀ s t t', k (s, t) = k (s, t'))
    (hk : ∀ w, LooksAt f (k w)) :
    LooksAt f (Txn.read >>= k) := by
  intro os s t t' ht
  show seen f (k (s, t) os (s, t)) = seen f (k (s, t') os (s, t'))
  rw [hstate s t t']
  exact hk (s, t') os s t t' ht

end Looks

section Rules

variable {faulty : Prop} {Q : α → σ × τ → Prop} {C : σ × τ → Prop} {s : σ} {t : τ}

theorem wp_onState
    {m : Txn σ α}
    (h : wp faulty m (fun a s' => Q a (s', t)) (fun s' => C (s', t)) s) :
    wp faulty (onState m) Q C (s, t) := by
  intro os hos
  have hm := h os hos
  unfold onState
  rcases hr : m os s with ⟨_ | a, s', os'⟩ <;> simpa [hr] using hm

theorem wp_onInstruments
    {f : σ → τ → τ} {R : Unit → σ × τ → Prop}
    (h : R () (s, f s t)) :
    wp faulty (onInstruments f) R C (s, t) :=
  wp_update h

theorem wp_read_bind
    {k : σ → Txn σ β} {R : β → σ → Prop} {D : σ → Prop}
    (h : wp faulty (k s) R D s) :
    wp faulty (read >>= k) R D s :=
  wp_bind (wp_read h)

end Rules

/-- The section leaves a part of the state as it was. -/
def Keeps (f : σ → γ) (m : Txn σ α) : Prop :=
  ∀ os s, f (m os s).2.1 = f s

section Frames

variable {f : σ → γ}

theorem keeps_pure
    (a : α) :
    Keeps f (pure a : Txn σ α) :=
  fun _ _ => rfl

theorem keeps_read :
    Keeps f (read : Txn σ σ) :=
  fun _ _ => rfl

theorem keeps_write
    {g : σ → σ} (h : ∀ s, f (g s) = f s) :
    Keeps f (write g) := by
  intro os s
  rcases write_cases g os s with hr | ⟨-, hr⟩ | ⟨-, hr⟩ <;> rw [hr]
  exact h s

theorem keeps_writeIf
    {g : σ → σ} (accepted : Bool) (h : ∀ s, f (g s) = f s) :
    Keeps f (writeIf accepted g) := by
  intro os s
  rcases writeIf_cases accepted g os s with ⟨-, hr⟩ | ⟨-, hr⟩ | ⟨-, hr⟩ <;> rw [hr]
  exact h s

theorem Keeps.bind
    {m : Txn σ α} {k : α → Txn σ β}
    (hm : Keeps f m)
    (hk : ∀ a, Keeps f (k a)) :
    Keeps f (m >>= k) := by
  intro os s
  have hfirst := hm os s
  show f (andThen m k os s).2.1 = f s
  unfold andThen
  rcases hr : m os s with ⟨_ | a, s', os'⟩
  · rwa [hr] at hfirst
  · rw [hr] at hfirst
    exact (hk a os' s').trans hfirst

theorem Keeps.update
    {g : σ → σ} {k : Unit → Txn σ α}
    (h : ∀ s, f (g s) = f s)
    (hk : Keeps f (k ())) :
    Keeps f (Txn.update g >>= k) :=
  fun os s => (hk os (g s)).trans (h s)

end Frames

/-- The section leads from good states to good states, unless it dies. -/
def Preserves (I : σ → Prop) (m : Txn σ α) : Prop :=
  ∀ s, I s → wp True m (fun _ s' => I s') (fun _ => True) s

section Invariants

variable {I : σ → Prop}

theorem preserves_pure
    (a : α) :
    Preserves I (pure a : Txn σ α) :=
  fun _ hs => wp_pure hs

theorem Preserves.bind
    {m : Txn σ α} {k : α → Txn σ β}
    (hm : Preserves I m)
    (hk : ∀ a, Preserves I (k a)) :
    Preserves I (m >>= k) :=
  fun s hs => wp_bind (wp_mono (hm s hs) (fun a s' hs' => hk a s' hs') fun _ h => h)

theorem Preserves.read
    {k : σ → Txn σ α}
    (hk : ∀ s, Preserves I (k s)) :
    Preserves I (Txn.read >>= k) :=
  fun s hs => wp_read_bind (hk s s hs)

end Invariants

/-- The section leads from good states to good states, also where it dies. -/
def Guards (I : σ → Prop) (m : Txn σ α) : Prop :=
  ∀ s, I s → wp True m (fun _ s' => I s') I s

section Guarded

variable {I : σ → Prop}

theorem Guards.preserves
    {m : Txn σ α} (h : Guards I m) :
    Preserves I m :=
  fun s hs => wp_mono (h s hs) (fun _ _ h => h) fun _ _ => trivial

theorem guards_pure
    (a : α) :
    Guards I (pure a : Txn σ α) :=
  fun _ hs => wp_pure hs

theorem Guards.bind
    {m : Txn σ α} {k : α → Txn σ β}
    (hm : Guards I m)
    (hk : ∀ a, Guards I (k a)) :
    Guards I (m >>= k) :=
  fun s hs => wp_bind (wp_mono (hm s hs) (fun a s' hs' => hk a s' hs') fun _ h => h)

theorem Guards.read
    {k : σ → Txn σ α}
    (hk : ∀ s, Guards I (k s)) :
    Guards I (Txn.read >>= k) :=
  fun s hs => wp_read_bind (hk s s hs)

/-- An invariant of the instruments does not notice what happens to the state. -/
theorem guards_onState
    {J : τ → Prop} (m : Txn σ α) :
    Guards (fun w : σ × τ => J w.2) (onState m) := by
  intro w hw os _
  unfold onState
  rcases m os w.1 with ⟨_ | a, s', os'⟩
  · exact hw
  · exact ⟨hw, fun _ => trivial⟩

theorem guards_onInstruments
    {J : τ → Prop} {f : σ → τ → τ}
    (h : ∀ s t, J t → J (f s t)) :
    Guards (fun w : σ × τ => J w.2) (onInstruments f) :=
  fun w hw => wp_onInstruments (h w.1 w.2 hw)

end Guarded

end Txn
end Library
end LogReplicator
