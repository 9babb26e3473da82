import S3c2440.Touch.Input
import Mathlib.Algebra.Order.Group.Int
import Mathlib.Tactic.IntervalCases

/-!
# What the filter lets through

`s3c_filter_ts` of `linux_driver/code/Touch_driver/s3c_ts.c` compares the third sample with the
average of the first two, and the fourth with the average of the second and the third, and lets 10
counts pass. The first two are not compared with each other, and where they are far apart the others
have to lie between them.

## What is proved

* `apart_iff` — how far the samples that pass are apart: as far as the first two, or 60 counts.
* `scattered_passes` — samples that are far apart may pass.
* `scattered_rejected` — but not if they are far apart in a coordinate in which the first two are
  near each other.
-/

namespace S3c2440.S3cTs

open Touch (penUp sampleOf)

/-- Four samples of 10 bits. -/
structure Batch where
  /-- `x`. -/
  x : ℕ → ℤ
  /-- `y`. -/
  y : ℕ → ℤ
  /-- The values of `x`. -/
  x_mem : ∀ i < 4, 0 ≤ x i ∧ x i ≤ 0x3ff
  /-- And of `y`. -/
  y_mem : ∀ i < 4, 0 ≤ y i ∧ y i ≤ 0x3ff

/-- Two of the four values differ by more than `n`. -/
def Apart (v : ℕ → ℤ) (n : ℤ) : Prop := ∃ i < 4, ∃ j < 4, n < v i - v j

/-- Two of the values of a coordinate differ by more than ten times `ERR_LIMIT`. -/
def Batch.Scattered (b : Batch) : Prop := Apart b.x 100 ∨ Apart b.y 100

/-- And the first two values of that coordinate do not. -/
def Batch.ScatteredLater (b : Batch) : Prop :=
  (Apart b.x 100 ∧ |b.x 0 - b.x 1| ≤ 100) ∨ (Apart b.y 100 ∧ |b.y 0 - b.y 1| ≤ 100)

variable {v : ℕ → ℤ} {i : ℕ} {n : ℤ}

theorem det_le_iff (h : 0 ≤ v i) (h' : 0 ≤ v (i + 1)) : det v i ≤ 10 ↔
    v (i + 2) - (v i + v (i + 1)) / 2 ≤ 10 ∧ (v i + v (i + 1)) / 2 - v (i + 2) ≤ 10 := by
  rw [det, Int.tdiv_eq_ediv_of_nonneg (by omega)]
  split <;> omega

/-- Samples that pass are as far apart as the first two are, or at most 60 counts. -/
theorem apart_iff (hv : ∀ i < 4, 0 ≤ v i) (h0 : det v 0 ≤ 10) (h1 : det v 1 ≤ 10) (hn : 60 ≤ n) :
    Apart v n ↔ n < |v 0 - v 1| := by
  have hv0 := hv 0 (by omega)
  have hv1 := hv 1 (by omega)
  have hv2 := hv 2 (by omega)
  have hthird : v 2 - (v 0 + v 1) / 2 ≤ 10 ∧ (v 0 + v 1) / 2 - v 2 ≤ 10 :=
    (det_le_iff hv0 hv1).mp h0
  have hfourth : v 3 - (v 1 + v 2) / 2 ≤ 10 ∧ (v 1 + v 2) / 2 - v 3 ≤ 10 :=
    (det_le_iff hv1 hv2).mp h1
  rw [lt_abs]
  constructor
  · rintro ⟨i, hi, j, hj, h⟩
    interval_cases i <;> interval_cases j <;> omega
  · rintro (h | h)
    · exact ⟨0, by omega, 1, by omega, h⟩
    · exact ⟨1, by omega, 0, by omega, by omega⟩

theorem s3cFilterTs_iff (x y : ℕ → ℤ) : s3cFilterTs x y = true ↔
    (det x 0 ≤ 10 ∧ det y 0 ≤ 10) ∧ det x 1 ≤ 10 ∧ det y 1 ≤ 10 := by
  unfold s3cFilterTs
  split
  · exact iff_of_false Bool.false_ne_true (by omega)
  · split
    · exact iff_of_false Bool.false_ne_true (by omega)
    · exact iff_of_true rfl (by omega)

/-- Only the four samples matter. -/
theorem s3cFilterTs_congr {x y x' y' : ℕ → ℤ} (hx : ∀ i < 4, x i = x' i)
    (hy : ∀ i < 4, y i = y' i) : s3cFilterTs x y = s3cFilterTs x' y' := by
  have hdet : ∀ {v v' : ℕ → ℤ}, (∀ i < 4, v i = v' i) → ∀ i < 2, det v i = det v' i := by
    intro v v' hv i hi
    rw [det, det, hv i (by omega), hv (i + 1) (by omega), hv (i + 2) (by omega)]
  unfold s3cFilterTs
  rw [hdet hx 0 (by omega), hdet hx 1 (by omega), hdet hy 0 (by omega), hdet hy 1 (by omega)]

/-- In each coordinate, samples that pass are scattered if and only if the first two are. -/
theorem scattered_iff (b : Batch) (h : s3cFilterTs b.x b.y = true) :
    (Apart b.x 100 ↔ 100 < |b.x 0 - b.x 1|) ∧ (Apart b.y 100 ↔ 100 < |b.y 0 - b.y 1|) := by
  obtain ⟨⟨hx0, hy0⟩, hx1, hy1⟩ := (s3cFilterTs_iff _ _).mp h
  exact ⟨apart_iff (fun i hi => (b.x_mem i hi).1) hx0 hx1 (by omega),
    apart_iff (fun i hi => (b.y_mem i hi).1) hy0 hy1 (by omega)⟩

/-- What `adc_irq` does with a sample if the four do not pass: the sample is taken, and nothing is
reported but a release. -/
theorem adcIrq_rejected {s : Ts} {adcdat0 adcdat1 again : BitVec 32}
    (hpass : s3cFilterTs (store s (sampleOf adcdat0) (sampleOf adcdat1)).x
      (store s (sampleOf adcdat0) (sampleOf adcdat1)).y = false) :
    (adcIrq s adcdat0 adcdat1 again).log =
      (if penUp again then .release else .sample (sampleOf adcdat0) (sampleOf adcdat1)) ::
        s.log := by
  unfold adcIrq
  split
  case isTrue => rfl
  case isFalse =>
    dsimp only
    split
    · rw [if_neg]
      · rfl
      · exact fun hpass' => Bool.false_ne_true (hpass.symm.trans hpass')
    · rfl

/-- Four values, the last of which is stored behind the first three. -/
theorem update_eq {w : ℕ → ℤ} {a : ℤ} (hw : ∀ i < 3, w i = v i) (ha : a = v 3) :
    ∀ i < 4, Function.update w 3 a i = v i := by
  intro i hi
  rcases Nat.lt_or_eq_of_le (Nat.le_of_lt_succ hi) with hlt | rfl
  · rw [Function.update_of_ne hlt.ne, hw i hlt]
  · rw [Function.update_self, ha]

/-- Samples that are scattered in a coordinate whose first two are near each other do not pass, and
when `adc_irq` has the fourth, it reports no coordinates. -/
theorem scattered_rejected (b : Batch) (h : b.ScatteredLater) :
    s3cFilterTs b.x b.y = false ∧
      ∀ (s : Ts) (adcdat0 adcdat1 again : BitVec 32), s.cnt = 3 →
        (∀ i < 3, s.x i = b.x i) → (∀ i < 3, s.y i = b.y i) →
        sampleOf adcdat0 = b.x 3 → sampleOf adcdat1 = b.y 3 →
        (adcIrq s adcdat0 adcdat1 again).log =
          (if penUp again then .release else .sample (b.x 3) (b.y 3)) :: s.log := by
  have hreject : s3cFilterTs b.x b.y = false := by
    by_contra hpass
    obtain ⟨hx, hy⟩ := scattered_iff b (Bool.eq_true_of_not_eq_false hpass)
    rcases h with ⟨hapart, hnear⟩ | ⟨hapart, hnear⟩
    · exact absurd (hx.mp hapart) (not_lt.mpr hnear)
    · exact absurd (hy.mp hapart) (not_lt.mpr hnear)
  refine ⟨hreject, fun s adcdat0 adcdat1 again hcnt hx hy hlastX hlastY => ?_⟩
  have hpass : s3cFilterTs (store s (sampleOf adcdat0) (sampleOf adcdat1)).x
      (store s (sampleOf adcdat0) (sampleOf adcdat1)).y = false := by
    refine (s3cFilterTs_congr ?_ ?_).trans hreject
    · rw [store, hcnt]
      exact update_eq hx hlastX
    · rw [store, hcnt]
      exact update_eq hy hlastY
  rw [adcIrq_rejected hpass, hlastX, hlastY]

/-- The third sample jumps along `x`, and the first two are far apart along `y`. -/
def jump : Batch where
  x i := if i = 2 then 500 else 0
  y i := if i = 0 then 0 else if i = 1 then 200 else if i = 2 then 100 else 150
  x_mem := by decide
  y_mem := by decide

theorem scattered_rejected_jump : s3cFilterTs jump.x jump.y = false ∧
    (adcIrq { s3cTsInit with cnt := 3, x := jump.x, y := jump.y } 0 150 0).log =
      [.sample 0 150] := by
  have hjump := scattered_rejected jump
    (.inl ⟨⟨2, by decide, 0, by decide, by decide⟩, by decide⟩)
  exact ⟨hjump.1, hjump.2 { s3cTsInit with cnt := 3, x := jump.x, y := jump.y } 0 150 0 rfl
    (fun _ _ => rfl) (fun _ _ => rfl) (by decide) (by decide)⟩

/-- The first two samples at the two ends, each of the others in the middle of the two before. -/
def ends : Batch where
  x i := if i = 0 then 0 else if i = 1 then 1023 else if i = 2 then 511 else 767
  y _ := 0
  x_mem := by decide
  y_mem := by decide

/-- They pass. -/
theorem scattered_passes : ¬ ∀ b : Batch, b.Scattered → s3cFilterTs b.x b.y = false := by
  intro h
  have hreject := h ends (.inl ⟨1, by decide, 0, by decide, by decide⟩)
  exact absurd hreject (by decide)

end S3c2440.S3cTs
