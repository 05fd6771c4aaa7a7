import LogReplicator.Library.Consensus

/-!
# Two logs side by side

The log of a follower `f` against the log of a leader `l`.  `Matching` is the log
matching property between them: a common term at a position means a common log up
to it.
-/

namespace LogReplicator
namespace Library
namespace Consensus

variable {E : Type} {τ : E → ℕ} {f l p : List E} {i : ℕ}

/-- Logs with the same term at a position agree up to it. -/
def Matching (τ : E → ℕ) (f l : List E) : Prop :=
  ∀ i, i ≤ f.length → i ≤ l.length → termAt τ f i = termAt τ l i →
    f.take i = l.take i

instance [DecidableEq E] : Decidable (Matching τ f l) :=
  inferInstanceAs (Decidable (∀ i, i ≤ f.length → i ≤ l.length →
    termAt τ f i = termAt τ l i → f.take i = l.take i))

theorem matching_of_le
    (h : f <+: l) :
    Matching τ f l := by
  intro i hi _ _
  obtain ⟨r, rfl⟩ := h
  rw [List.take_append_of_le_length hi]

theorem take_eq_of_le
    {k m : ℕ} (h : f.take m = l.take m) (hk : k ≤ m) :
    f.take k = l.take k := by
  rw [← min_eq_left hk, ← List.take_take, ← List.take_take, h]

/-- A common prefix does not reach a position where the terms differ. -/
theorem length_lt_of_termAt_ne
    (hf : p <+: f)
    (hl : p <+: l)
    (hne : termAt τ f i ≠ termAt τ l i) :
    p.length < i := by
  by_contra hle
  exact hne ((termAt_mono hf (not_lt.mp hle)).symm.trans (termAt_mono hl (not_lt.mp hle)))

/-- The first position at which the two logs have entries of different terms. -/
structure FirstConflict (τ : E → ℕ) (f l : List E) (i : ℕ) : Prop where
  before : f.take i = l.take i
  conflict : ∃ e d, f[i]? = some e ∧ l[i]? = some d ∧ τ e ≠ τ d

/-- An entry that the two logs share stands before the first conflict. -/
theorem FirstConflict.lt_of_common
    (h : FirstConflict τ f l i)
    (hmatching : Matching τ f l)
    {j : ℕ} {e : E}
    (hf : f[j]? = some e)
    (hl : l[j]? = some e) :
    j < i := by
  obtain ⟨d, d', hd, hd', hne⟩ := h.conflict
  by_contra hle
  obtain ⟨hjf, -⟩ := List.getElem?_eq_some_iff.mp hf
  obtain ⟨hjl, -⟩ := List.getElem?_eq_some_iff.mp hl
  have htake := hmatching (j + 1) hjf hjl (by rw [termAt_succ hf, termAt_succ hl])
  have hat := congrArg (fun r => r[i]?) htake
  simp only [List.getElem?_take_of_lt (show i < j + 1 by omega), hd, hd',
    Option.some.injEq] at hat
  exact hne (congrArg τ hat)

/-- A log that conflicts with the other one has no longer part in common with it. -/
theorem FirstConflict.not_le
    (h : FirstConflict τ f l i)
    {k : ℕ} (hk : i < k) :
    ¬ l.take k <+: f := by
  obtain ⟨d, d', hd, hd', hne⟩ := h.conflict
  intro hle
  have hat : (l.take k)[i]? = some d' := by
    rw [List.getElem?_take_of_lt hk, hd']
  obtain ⟨rest, rfl⟩ := hle
  rw [List.getElem?_append_left (List.getElem?_eq_some_iff.mp hat).1, hat] at hd
  exact hne (congrArg τ (Option.some.inj hd).symm)

end Consensus
end Library
end LogReplicator
