import Mathlib.Algebra.BigOperators.Group.List.Basic
import Mathlib.Algebra.Order.Group.Nat
import Mathlib.Data.BitVec
import Mathlib.Data.Nat.ModEq

/-!
# Sums in ones' complement

Words of `w` bits are added with the carry added in again at the lowest bit. Such a sum is the sum
of the numbers modulo `2 ^ w - 1`, where 0 stands for the sum of zeros only and all ones for the
other multiples. A check word is the complement of the sum of the words with 0 in its place, and the
sum with the check word is all ones.

## What is proved

* `toNat_sum` — the sum as a number.
* `sum_eq_allOnes` — when the sum is all ones.
* `sum_set_check` — the sum with the check word is.
-/

namespace Theory.OnesComplement

variable {w : ℕ}

/-- The sum of two words, with the carry added in again. -/
def add (a b : BitVec w) : BitVec w :=
  let s := a.toNat + b.toNat
  BitVec.ofNat w (s % 2 ^ w + s / 2 ^ w)

/-- The sum of the words of a list. -/
def sum (ws : List (BitVec w)) : BitVec w := ws.foldl add 0

/-- The complement of the sum with 0 at place `i`. -/
def check (ws : List (BitVec w)) (i : ℕ) : BitVec w := ~~~ sum (ws.set i 0)

/-- A number is folded to one of at most `m` that is as large modulo `m`, and is 0 only for 0. -/
def fold (m n : ℕ) : ℕ := if n = 0 then 0 else (n - 1) % m + 1

theorem fold_of_le {m n : ℕ} (h : n ≤ m) : fold m n = n := by
  unfold fold
  split
  case isTrue hn => exact hn.symm
  case isFalse hn =>
    rw [Nat.mod_eq_of_lt (by omega)]
    omega

theorem fold_add_self {m n : ℕ} (hn : n ≠ 0) : fold m (n + m) = fold m n := by
  unfold fold
  rw [if_neg hn, if_neg (by omega), show n + m - 1 = n - 1 + m by omega, Nat.add_mod_right]

/-- Folding a part of a sum first makes no difference. -/
theorem fold_fold_add (m n k : ℕ) : fold m (fold m n + k) = fold m (n + k) := by
  by_cases hn : n = 0
  · rw [hn]
    rfl
  · have hfold : fold m n = (n - 1) % m + 1 := if_neg hn
    rw [hfold]
    unfold fold
    rw [if_neg (by omega), if_neg (by omega), Nat.add_right_comm, Nat.add_sub_cancel,
      show n + k - 1 = n - 1 + k by omega, Nat.mod_add_mod]

theorem fold_eq_self_iff {m n : ℕ} (hm : 0 < m) : fold m n = m ↔ 0 < n ∧ m ∣ n := by
  unfold fold
  split
  case isTrue hn => omega
  case isFalse hn =>
    have hlt := Nat.mod_lt (n - 1) hm
    have hmod : n % m = ((n - 1) % m + 1) % m := by
      rw [Nat.mod_add_mod]
      exact congrArg (· % m) (by omega)
    rw [Nat.dvd_iff_mod_eq_zero, hmod]
    rcases Nat.lt_or_eq_of_le (Nat.succ_le_of_lt hlt) with hr | hr
    · rw [Nat.mod_eq_of_lt hr]
      omega
    · rw [← Nat.succ_eq_add_one, hr, Nat.mod_self]
      omega

/-- What is missing to a multiple is the complement of the folded number. -/
theorem dvd_add_sub_fold {m : ℕ} (hm : 0 < m) (n : ℕ) :
    0 < n + (m - fold m n) ∧ m ∣ n + (m - fold m n) := by
  unfold fold
  split
  case isTrue hn =>
    rw [hn, Nat.zero_add, Nat.sub_zero]
    exact ⟨hm, Nat.dvd_refl m⟩
  case isFalse hn =>
    have hlt := Nat.mod_lt (n - 1) hm
    have hdiv := Nat.div_add_mod (n - 1) m
    have hsum : n + (m - ((n - 1) % m + 1)) = m * ((n - 1) / m) + m := by omega
    rw [hsum]
    exact ⟨by omega, Nat.dvd_add (Nat.dvd_mul_right m _) (Nat.dvd_refl m)⟩

/-! ### Sums -/

/-- What a word counts. -/
def total (ws : List (BitVec w)) : ℕ := (ws.map BitVec.toNat).sum

theorem toNat_add (a b : BitVec w) : (add a b).toNat = fold (2 ^ w - 1) (a.toNat + b.toNat) := by
  have ha := a.isLt
  have hb := b.isLt
  have hpos := Nat.two_pow_pos w
  show ((a.toNat + b.toNat) % 2 ^ w + (a.toNat + b.toNat) / 2 ^ w) % 2 ^ w = _
  rcases Nat.lt_or_ge (a.toNat + b.toNat) (2 ^ w) with hlt | hge
  · rw [Nat.mod_eq_of_lt hlt, Nat.div_eq_of_lt hlt, Nat.add_zero, Nat.mod_eq_of_lt hlt,
      fold_of_le (by omega)]
  · have hmod : (a.toNat + b.toNat) % 2 ^ w = a.toNat + b.toNat - 2 ^ w := by
      rw [Nat.mod_eq_sub_mod hge, Nat.mod_eq_of_lt (by omega)]
    have hdiv : (a.toNat + b.toNat) / 2 ^ w = 1 := Nat.div_eq_of_lt_le (by omega) (by omega)
    have hsum : a.toNat + b.toNat = a.toNat + b.toNat - 2 ^ w + 1 + (2 ^ w - 1) := by omega
    rw [hmod, hdiv, hsum, fold_add_self (by omega), fold_of_le (by omega)]
    rw [← hsum]
    exact Nat.mod_eq_of_lt (by omega)

/-- The sum as a number. -/
theorem toNat_sum (ws : List (BitVec w)) : (sum ws).toNat = fold (2 ^ w - 1) (total ws) := by
  have hacc : ∀ (a : BitVec w) (n : ℕ), a.toNat = fold (2 ^ w - 1) n →
      (ws.foldl add a).toNat = fold (2 ^ w - 1) (n + total ws) := by
    induction ws with
    | nil => exact fun a n h => h
    | cons b ws ih =>
      intro a n h
      rw [List.foldl_cons, ih (add a b) (n + b.toNat)]
      · rw [total, total, List.map_cons, List.sum_cons, Nat.add_assoc]
      · rw [toNat_add, h, fold_fold_add]
  have hzero := hacc 0 0 BitVec.toNat_zero
  rwa [Nat.zero_add] at hzero

/-- A sum is all ones if and only if it is a positive multiple of `2 ^ w - 1`. -/
theorem sum_eq_allOnes (hw : 0 < w) (ws : List (BitVec w)) :
    sum ws = BitVec.allOnes w ↔ 0 < total ws ∧ 2 ^ w - 1 ∣ total ws := by
  have hpos : 1 < 2 ^ w := Nat.one_lt_two_pow hw.ne'
  rw [← fold_eq_self_iff (by omega), ← toNat_sum, ← BitVec.toNat_inj, BitVec.toNat_allOnes]

theorem total_set (ws : List (BitVec w)) {i : ℕ} (hi : i < ws.length) (a : BitVec w) :
    total (ws.set i a) = total (ws.set i 0) + a.toNat := by
  rw [total, total, List.map_set, List.map_set, List.sum_set, List.sum_set, List.length_map,
    if_pos hi, if_pos hi, show BitVec.toNat (0 : BitVec w) = 0 from BitVec.toNat_zero]
  omega

/-- With the check word in place the sum is all ones. -/
theorem sum_set_check (hw : 0 < w) (ws : List (BitVec w)) {i : ℕ} (hi : i < ws.length) :
    sum (ws.set i (check ws i)) = BitVec.allOnes w := by
  have hpos : 1 < 2 ^ w := Nat.one_lt_two_pow hw.ne'
  rw [sum_eq_allOnes hw, total_set ws hi, check, BitVec.toNat_not, toNat_sum]
  exact dvd_add_sub_fold (by omega) _

end Theory.OnesComplement
