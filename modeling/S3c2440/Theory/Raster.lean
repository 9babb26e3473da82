import Mathlib.Algebra.Order.Ring.Abs
import Mathlib.Algebra.Order.Ring.Int
import Mathlib.Tactic.Linarith
import Mathlib.Tactic.Ring

/-!
# Straight lines on a grid

A line that goes `d` cells up while it goes `D ≥ d` cells along, drawn with additions only: an
error is kept, `d` is added to it for a step along, and where it has become positive the
line goes up a cell and `D` is taken off.

## What is proved

* `err_eq` — what the error stands for.
* `lt_err`, `err_le` — it stays within one step.
* `near` — after every step the cell is within half a cell of the line.
* `up_end` — after `D` steps the line is `d` cells up.
-/

namespace Theory.Raster

variable (D d : ℕ)

/-- How many cells up the line is, and the error, after `k` steps along. -/
def walk : ℕ → ℕ × ℤ
  | 0 => (0, d - D / 2)
  | k + 1 =>
    if (walk k).2 > 0 then ((walk k).1 + 1, (walk k).2 - D + d) else ((walk k).1, (walk k).2 + d)

/-- How many cells up the line is after `k` steps along. -/
def up (k : ℕ) : ℕ := (walk D d k).1

/-- The error after `k` steps along. -/
def err (k : ℕ) : ℤ := (walk D d k).2

variable {D d}

@[simp] theorem up_zero : up D d 0 = 0 := rfl

@[simp] theorem err_zero : err D d 0 = d - D / 2 := rfl

theorem walk_of_pos {k : ℕ} (h : err D d k > 0) :
    up D d (k + 1) = up D d k + 1 ∧ err D d (k + 1) = err D d k - D + d := by
  unfold up err at *
  rw [walk, if_pos h]
  exact ⟨rfl, rfl⟩

theorem walk_of_not_pos {k : ℕ} (h : ¬ err D d k > 0) :
    up D d (k + 1) = up D d k ∧ err D d (k + 1) = err D d k + d := by
  unfold up err at *
  rw [walk, if_neg h]
  exact ⟨rfl, rfl⟩

/-- A step along goes up by one or not at all. -/
theorem up_succ (k : ℕ) : up D d (k + 1) = up D d k ∨ up D d (k + 1) = up D d k + 1 := by
  by_cases h : err D d k > 0
  · exact .inr (walk_of_pos h).1
  · exact .inl (walk_of_not_pos h).1

/-- What the error stands for. -/
theorem err_eq (k : ℕ) : err D d k = (k + 1) * d - D / 2 - up D d k * D := by
  induction k with
  | zero => simp
  | succ k ih =>
    by_cases h : err D d k > 0
    · obtain ⟨hup, herr⟩ := walk_of_pos h
      rw [hup, herr, ih]
      push_cast
      ring
    · obtain ⟨hup, herr⟩ := walk_of_not_pos h
      rw [hup, herr, ih]
      push_cast
      ring

/-- What the error is like at the start, and stays like with every step. -/
theorem err_invariant {P : ℤ → Prop} (h0 : P (d - D / 2))
    (hup : ∀ e, P e → e > 0 → P (e - D + d)) (hflat : ∀ e, P e → ¬ e > 0 → P (e + d)) (k : ℕ) :
    P (err D d k) := by
  induction k with
  | zero => exact h0
  | succ k ih =>
    by_cases hpos : err D d k > 0
    · rw [(walk_of_pos hpos).2]
      exact hup _ ih hpos
    · rw [(walk_of_not_pos hpos).2]
      exact hflat _ ih hpos

theorem err_le (h : d ≤ D) (k : ℕ) : err D d k ≤ d :=
  err_invariant (P := fun e => e ≤ (d : ℤ)) (by omega) (fun e _ _ => by omega)
    (fun e _ _ => by omega) k

theorem lt_err (hD : 0 < D) (k : ℕ) : (d : ℤ) - D < err D d k :=
  err_invariant (P := fun e => (d : ℤ) - D < e) (by omega) (fun e _ _ => by omega)
    (fun e _ _ => by omega) k

/-- After every step the cell is within half a cell of the line. -/
theorem near (h : d ≤ D) {k : ℕ} (hk : k ≤ D) : |2 * ((up D d k : ℤ) * D - k * d)| ≤ D := by
  rcases Nat.eq_zero_or_pos D with rfl | hD
  · obtain rfl := Nat.le_zero.mp hk
    simp
  have hle := err_le h k
  have hlt := lt_err (d := d) hD k
  have herr := err_eq (D := D) (d := d) k
  have hdist : (up D d k : ℤ) * D - k * d = d - D / 2 - err D d k := by
    rw [herr]
    ring
  rw [hdist, abs_le]
  omega

/-- After all the steps along the line has arrived. -/
theorem up_end (h : d ≤ D) : up D d D = d := by
  rcases Nat.eq_zero_or_pos D with rfl | hD
  · exact (Nat.le_zero.mp h).symm
  have hnear := near h (le_refl D)
  rw [show (up D d D : ℤ) * D - D * d = (up D d D - d) * D by ring, ← mul_assoc, abs_mul,
    abs_of_nonneg (Int.natCast_nonneg D)] at hnear
  have hle : |2 * ((up D d D : ℤ) - d)| ≤ 1 := by
    by_contra hgt
    have hmul : (2 : ℤ) * D ≤ |2 * ((up D d D : ℤ) - d)| * D :=
      mul_le_mul_of_nonneg_right (by omega) (Int.natCast_nonneg D)
    omega
  rw [abs_le] at hle
  omega

/-- A level line does not go up. -/
theorem up_level (k : ℕ) : up D 0 k = 0 := by
  induction k with
  | zero => rfl
  | succ k ih =>
    have hle := err_le (Nat.zero_le D) k
    rw [(walk_of_not_pos (by omega)).1, ih]

end Theory.Raster
