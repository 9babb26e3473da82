import Mathlib.Data.BitVec

/-!
# Single bits of a register

What a program does to one bit of a register, or to a field of two, leaves the others as they
are; the lemmas say so bit by bit. `ofBits` is the word with given bits.
-/

namespace Theory

variable {w : ℕ} (x : BitVec w) (n : ℕ)

/-- `x | (1 << n)`. -/
def setBit : BitVec w := x ||| 1#w <<< n

/-- `x & ~(1 << n)`. -/
def clearBit : BitVec w := x &&& ~~~(1#w <<< n)

/-- One or the other. -/
def putBit (b : Bool) : BitVec w := if b then setBit x n else clearBit x n

/-- `x & ~(3 << n)`. -/
def clearField : BitVec w := x &&& ~~~(3#w <<< n)

/-- The word with the bits `f`. -/
def ofBits (w : ℕ) (f : ℕ → Bool) : BitVec w :=
  (BitVec.ofBoolListLE ((List.range w).map f)).setWidth w

variable {x n} {i : ℕ}

theorem getLsbD_setBit (hn : n < w) :
    (setBit x n).getLsbD i = if i = n then true else x.getLsbD i := by
  rw [setBit, ← BitVec.twoPow_eq, BitVec.getLsbD_or, BitVec.getLsbD_twoPow]
  by_cases hi : i = n
  · simp [hi, hn]
  · simp [hi, Ne.symm hi]

theorem getLsbD_clearBit :
    (clearBit x n).getLsbD i = if i = n then false else x.getLsbD i := by
  rw [clearBit, ← BitVec.twoPow_eq, BitVec.getLsbD_and, BitVec.getLsbD_not, BitVec.getLsbD_twoPow]
  by_cases hw : i < w
  · by_cases hi : i = n
    · subst hi
      simp [hw]
    · simp [hw, hi, Ne.symm hi]
  · simp [BitVec.getLsbD_of_ge x i (Nat.le_of_not_lt hw)]

theorem getLsbD_putBit (hn : n < w) (b : Bool) :
    (putBit x n b).getLsbD i = if i = n then b else x.getLsbD i := by
  cases b
  · exact getLsbD_clearBit
  · exact getLsbD_setBit hn

theorem getLsbD_putBit_self (hn : n < w) (b : Bool) : (putBit x n b).getLsbD n = b := by
  rw [getLsbD_putBit hn, if_pos rfl]

theorem getLsbD_putBit_of_ne (hn : n < w) (b : Bool) (hi : i ≠ n) :
    (putBit x n b).getLsbD i = x.getLsbD i := by
  rw [getLsbD_putBit hn, if_neg hi]

theorem getLsbD_three : (3#w).getLsbD i = (decide (i < w) && decide (i < 2)) := by
  rw [BitVec.getLsbD_ofNat]
  congr 1
  match i with
  | 0 => rfl
  | 1 => rfl
  | i + 2 => simp [Nat.testBit_succ]

theorem getLsbD_clearField :
    (clearField x n).getLsbD i = if i = n ∨ i = n + 1 then false else x.getLsbD i := by
  rw [clearField, BitVec.getLsbD_and, BitVec.getLsbD_not, BitVec.getLsbD_shiftLeft, getLsbD_three]
  by_cases hw : i < w
  · have hin : (decide (i < w) && !decide (i < n) && (decide (i - n < w) && decide (i - n < 2))) =
        decide (i = n ∨ i = n + 1) := by
      rw [Bool.eq_iff_iff]
      simp
      omega
    rw [hin]
    split
    case isTrue h => simp [h]
    case isFalse h => simp [h, hw]
  · simp [BitVec.getLsbD_of_ge x i (Nat.le_of_not_lt hw)]

theorem getLsbD_ofBits {f : ℕ → Bool} (hi : i < w) : (ofBits w f).getLsbD i = f i := by
  rw [ofBits, BitVec.getLsbD_setWidth, BitVec.getLsbD_ofBoolListLE]
  simp [hi]

/-- A bit is taken in from below. -/
theorem getLsbD_shiftIn (b : Bool) (hi : i < w) :
    (if b then x <<< 1 ||| 1#w else x <<< 1).getLsbD i =
      if i = 0 then b else x.getLsbD (i - 1) := by
  have hshift : (x <<< 1).getLsbD i = if i = 0 then false else x.getLsbD (i - 1) := by
    rw [BitVec.getLsbD_shiftLeft, decide_eq_true hi]
    by_cases h0 : i = 0
    · simp [h0]
    · rw [decide_eq_false (by omega), if_neg h0]
      rfl
  cases b
  · exact hshift
  · rw [if_pos rfl, BitVec.getLsbD_or, hshift, BitVec.getLsbD_one]
    by_cases h0 : i = 0
    · simp [h0, Nat.zero_lt_of_lt hi]
    · simp [h0]

theorem twoPow_ne_zero (hn : n < w) : BitVec.twoPow w n ≠ 0#w := by
  intro h
  have hget := BitVec.getLsbD_twoPow (w := w) n n
  simp [h, hn] at hget

/-- Asking for one bit. -/
theorem and_bit_ne_zero (hn : n < w) : x &&& 1#w <<< n ≠ 0 ↔ x.getLsbD n = true := by
  rw [← BitVec.twoPow_eq, BitVec.and_twoPow]
  split
  case isTrue hx => exact iff_of_true (twoPow_ne_zero hn) hx
  case isFalse hx => exact iff_of_false (fun h => h rfl) hx

/-- Comparing one bit. -/
theorem and_bit_ne_iff {y : BitVec w} (hn : n < w) :
    x &&& 1#w <<< n ≠ y &&& 1#w <<< n ↔ x.getLsbD n ≠ y.getLsbD n := by
  rw [← BitVec.twoPow_eq, BitVec.and_twoPow, BitVec.and_twoPow]
  cases x.getLsbD n <;> cases y.getLsbD n <;> simp [twoPow_ne_zero hn, (twoPow_ne_zero hn).symm]

/-- Looking at one bit. -/
theorem ushiftRight_and_one : x >>> n &&& 1#w = if x.getLsbD n then 1#w else 0#w := by
  apply BitVec.eq_of_getLsbD_eq
  intro i hi
  rw [BitVec.getLsbD_and, BitVec.getLsbD_ushiftRight, BitVec.getLsbD_one]
  by_cases h0 : i = 0
  · subst h0
    cases hx : x.getLsbD n <;> simp [hi]
  · cases hx : x.getLsbD n <;> simp [h0, hi]

end Theory
