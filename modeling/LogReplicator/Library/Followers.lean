import LogReplicator.Library.Consensus

/-!
# What followers keep

As long as a node is in the term of a leader, it keeps what it acknowledged to that
leader, whatever else it adopts.  Once it has moved on, a later leader may overrule it.
-/

namespace LogReplicator
namespace Library
namespace Consensus

variable {V E : Type}

/-- In the term it is in, every node has what it acknowledged. -/
def Faithful (s : State V E) : Prop :=
  ∀ v m, s.acks v (s.term v) m → (s.llog (s.term v)).take m <+: s.log v

theorem faithful_init :
    Faithful (init : State V E) :=
  fun _ _ hack => hack.elim

section Steps

variable [DecidableEq V]
variable {τ : E → ℕ} {quorum : Finset V → Prop} {s s' : State V E} {v : V}

/-- A node that enters a term has acknowledged nothing in it. -/
theorem Faithful.raise
    (h : Faithful s)
    (hI : Inv τ quorum s)
    {t : ℕ}
    (hterm : s.term v ≤ t) :
    Faithful { s with term := Function.update s.term v t } := by
  intro u m hack
  by_cases hu : u = v
  · subst hu
    simp only [Function.update_self] at hack ⊢
    obtain rfl : t = s.term u := le_antisymm (hI.ack_term u t m hack).1 hterm
    exact h u m hack
  · simp only [Function.update_of_ne hu] at hack ⊢
    exact h u m hack

omit [DecidableEq V] in
/-- Nothing was acknowledged in a term before it had a leader. -/
theorem Faithful.elect
    (h : Faithful s)
    (hI : Inv τ quorum s)
    (hopen : s.base (s.term v) = none) :
    Faithful
      { s with
        base := Function.update s.base (s.term v) (some (s.log v))
        llog := Function.update s.llog (s.term v) (s.log v) } := by
  intro u m hack
  by_cases hu : s.term u = s.term v
  · have hbound := (hI.ack_term u (s.term u) m hack).2
    rw [hu, hI.llog_open _ hopen] at hbound
    obtain rfl : m = 0 := Nat.le_zero.mp hbound
    simp
  · simp only [Function.update_of_ne hu]
    exact h u m hack

theorem Faithful.propose
    (h : Faithful s)
    (hI : Inv τ quorum s)
    (hlog : s.log v = s.llog (s.term v))
    (e : E) :
    Faithful
      { s with
        log := Function.update s.log v (s.log v ++ [e])
        llog := Function.update s.llog (s.term v) (s.log v ++ [e])
        acks := fun u t m =>
          s.acks u t m ∨ (u = v ∧ t = s.term v ∧ m = (s.log v).length + 1) } := by
  intro u m hack
  by_cases hu : u = v
  · subst hu
    simp only [Function.update_self]
    exact List.take_prefix _ _
  · obtain hold | ⟨huv, -⟩ := hack
    · simp only [Function.update_of_ne hu]
      have hkept := h u m hold
      have hbound := (hI.ack_term u (s.term u) m hold).2
      by_cases ht : s.term u = s.term v
      · -- what was acknowledged before stands in front of the new entry
        rw [ht] at hkept hbound ⊢
        rw [Function.update_self, hlog, List.take_append_of_le_length hbound]
        exact hkept
      · rw [Function.update_of_ne ht]
        exact hkept
    · exact absurd huv hu

theorem Faithful.adopt
    (h : Faithful s)
    (hI : Inv τ quorum s)
    {j : ℕ}
    (hkeep : ∀ l, l <+: s.log v → l <+: s.llog (s.term v) → l.length ≤ j) :
    Faithful
      { s with log := Function.update s.log v ((s.llog (s.term v)).take j) } := by
  intro u m hack
  by_cases hu : u = v
  · subst hu
    simp only [Function.update_self]
    have hbound := (hI.ack_term u (s.term u) m hack).2
    have hj := hkeep _ (h u m hack) (List.take_prefix _ _)
    rw [List.length_take, min_eq_left hbound] at hj
    exact List.take_prefix_take_left hj
  · simp only [Function.update_of_ne hu]
    exact h u m hack

theorem Step.faithful
    (hstep : Step τ quorum v s s')
    (hI : Inv τ quorum s)
    (h : Faithful s) :
    Faithful s' := by
  cases hstep with
  | raise hterm =>
      exact h.raise hI hterm
  | ballot _ _ =>
      exact h
  | elect hopen _ _ =>
      exact h.elect hI hopen
  | propose _ hlog _ =>
      exact h.propose hI hlog _
  | adopt _ hkeep =>
      exact h.adopt hI hkeep
  | ack _ _ hheld =>
      rintro u m (hold | ⟨rfl, -, rfl⟩)
      · exact h u m hold
      · exact hheld

theorem Steps.faithful
    (hsteps : Steps τ quorum v s s')
    (hI : Inv τ quorum s)
    (h : Faithful s) :
    Faithful s' := by
  induction hsteps with
  | refl =>
      exact h
  | tail hbefore hstep ih =>
      exact hstep.faithful (Steps.inv hI hbefore) ih

end Steps

end Consensus
end Library
end LogReplicator
