import Mathlib.Tactic

/-!
# Natural numbers as double precision floats

A `float64` has 53 significant bits.  A natural number with more bits is rounded to the
nearest number with 53 of them, a tie to the even one.  The values are natural numbers
again, so the rounding is a function on them; the numbers here are far below the largest
`float64`, so nothing overflows.
-/

namespace LogReplicator
namespace Library

/-- `n` divided by `unit`, rounded to the nearest, a tie to the even quotient. -/
def divNearestEven (n unit : Nat) : Nat :=
  if 2 * (n % unit) < unit ∨ (2 * (n % unit) = unit ∧ n / unit % 2 = 0) then n / unit
  else n / unit + 1

/-- The value of the last of the 53 bits of `n`. -/
def lastPlace (n : Nat) : Nat :=
  2 ^ (Nat.log 2 n - 52)

/-- The natural number that a conversion to `float64` gives. -/
def float64 (n : Nat) : Nat :=
  divNearestEven n (lastPlace n) * lastPlace n

theorem divNearestEven_mul_of_dvd
    {n unit : Nat} (hunit : 0 < unit) (hdvd : unit ∣ n) :
    divNearestEven n unit * unit = n := by
  unfold divNearestEven
  rw [Nat.mod_eq_zero_of_dvd hdvd, if_pos (Or.inl (by omega))]
  exact Nat.div_mul_cancel hdvd

/-- Up to `2 ^ 53` every number is a `float64`. -/
theorem float64_eq_self
    {n : Nat} (hn : n ≤ 2 ^ 53) :
    float64 n = n := by
  refine divNearestEven_mul_of_dvd (Nat.pow_pos Nat.two_pos) ?_
  rcases hn.lt_or_eq with hlt | rfl
  · have hlog : Nat.log 2 n < 53 := Nat.log_lt_of_lt_pow' (by decide) hlt
    unfold lastPlace
    rw [Nat.sub_eq_zero_of_le (by omega), Nat.pow_zero]
    exact Nat.one_dvd n
  · exact Nat.pow_dvd_pow 2 (by rw [Nat.log_pow (by decide)]; omega)

example : float64 (2 ^ 53 + 1) = 2 ^ 53 := by decide +kernel

example : float64 (2 ^ 64 - 1) = 2 ^ 64 := by decide +kernel

end Library
end LogReplicator
