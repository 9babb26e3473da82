import Mathlib.Algebra.Order.Ring.Nat
import Mathlib.Tactic.Ring

/-!
# Long division in base two

Quotient and remainder by `m` from those by `2 * m`: `div_mod_of_fits` where `m` still fits
into the remainder, `div_mod_of_low` where it does not. `partial_quotient_or` puts the new
bit of the quotient in its place, and `div_of_mod_eq_zero` is the early end.
-/

namespace Theory

variable {n m d k : ℕ}

theorem div_mod_of_fits (hm : 0 < m) (h : m ≤ n % (2 * m)) :
    n % m = n % (2 * m) - m ∧ n / m = 2 * (n / (2 * m)) + 1 := by
  have hlt := Nat.mod_lt n (Nat.mul_pos two_pos hm)
  have hdm := Nat.div_add_mod n (2 * m)
  have hn : n = (n % (2 * m) - m) + m * (2 * (n / (2 * m)) + 1) := by
    have hmul : m * (2 * (n / (2 * m)) + 1) = 2 * m * (n / (2 * m)) + m := by ring
    omega
  constructor
  · conv_lhs => rw [hn]
    rw [Nat.add_mul_mod_self_left, Nat.mod_eq_of_lt (by omega)]
  · conv_lhs => rw [hn]
    rw [Nat.add_mul_div_left _ _ hm, Nat.div_eq_of_lt (by omega), Nat.zero_add]

theorem div_mod_of_low (h : n % (2 * m) < m) :
    n % m = n % (2 * m) ∧ n / m = 2 * (n / (2 * m)) := by
  have hm : 0 < m := by omega
  have hdm := Nat.div_add_mod n (2 * m)
  have hn : n = n % (2 * m) + m * (2 * (n / (2 * m))) := by
    have hmul : m * (2 * (n / (2 * m))) = 2 * m * (n / (2 * m)) := by ring
    omega
  constructor
  · conv_lhs => rw [hn]
    rw [Nat.add_mul_mod_self_left, Nat.mod_eq_of_lt h]
  · conv_lhs => rw [hn]
    rw [Nat.add_mul_div_left _ _ hm, Nat.div_eq_of_lt h, Nat.zero_add]

/-- The bit below the ones that are decided. -/
theorem partial_quotient_or (q k : ℕ) : q * 2 ^ (k + 1) ||| 2 ^ k = (2 * q + 1) * 2 ^ k := by
  have hlt : 2 ^ k < 2 ^ (k + 1) := Nat.pow_lt_pow_right (by omega) (by omega)
  rw [← Nat.shiftLeft_eq, ← Nat.shiftLeft_add_eq_or_of_lt hlt, Nat.shiftLeft_eq]
  ring

/-- No remainder is left, so the bits that are not decided are zero. -/
theorem div_of_mod_eq_zero (hd : 0 < d) (h : n % (d * 2 ^ k) = 0) :
    n / (d * 2 ^ k) * 2 ^ k = n / d := by
  obtain ⟨c, rfl⟩ := Nat.dvd_of_mod_eq_zero h
  have hpow := Nat.two_pow_pos k
  rw [Nat.mul_div_cancel_left _ (Nat.mul_pos hd hpow), Nat.mul_assoc,
    Nat.mul_div_cancel_left _ hd, Nat.mul_comm]

theorem mod_of_mod_eq_zero (h : n % (d * 2 ^ k) = 0) : n % d = 0 :=
  Nat.mod_eq_zero_of_dvd ((Nat.dvd_mul_right d _).trans (Nat.dvd_of_mod_eq_zero h))

end Theory
