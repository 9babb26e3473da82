import S3c2440.Lcd.Geometry
import S3c2440.Theory.Staircase
import Mathlib.Algebra.Order.Group.Unbundled.Abs
import Mathlib.Data.Nat.Sqrt

/-!
# Drawing circles

`bare_board/code/I2c/20200510_IIC/lcd/geometry.c`: `draw_circle` walks from the top of the circle
along the edge of the disc, as `Theory.Staircase` does, and plots every place it comes to
in eight directions. It stops well below the diagonal, where 22 times the square of the
height is less than the square of the radius.

An `int` is an integer; up to a radius of 9000 nothing overflows (`circle_fits`).

## What is proved

* `circleBody_circleAt` — a turn of the loop is a step of the walk, with its eight pixels.
* `go_or_go` — what the walk does not reach is the reflection of what it does.
* `drawCircle_exact` — from radius 2 on it plots the discrete circle.
* `drawCircle_ends_iff` — it ends if and only if the radius is not 0.
-/

namespace S3c2440.Lcd

open Theory

/-! ### The code -/

/-- The variables of `draw_circle`. -/
structure Circle where
  /-- `a`. -/
  a : ℤ
  /-- `b`. -/
  b : ℤ
  /-- The calls of `fb_put_pixel`. -/
  plotted : List Pixel

/-- The eight calls of `fb_put_pixel` of a turn. -/
def eightPixels (x y a b : ℤ) (color : BitVec 32) : List Pixel :=
  [⟨x + a, y - b, color⟩, -- 0~1
    ⟨x - a, y - b, color⟩, -- 0~7
    ⟨x - a, y + b, color⟩, -- 4~5
    ⟨x + a, y + b, color⟩, -- 4~3
    ⟨x + b, y + a, color⟩, -- 2~3
    ⟨x + b, y - a, color⟩, -- 2~1
    ⟨x - b, y - a, color⟩, -- 6~7
    ⟨x - b, y + a, color⟩] -- 6~5

/-- The body of the loop. -/
def circleBody (x y r : ℤ) (color : BitVec 32) (s : Circle) : Circle :=
  let s := { s with plotted := s.plotted ++ eightPixels x y s.a s.b color }
  let s := { s with a := s.a + 1 }
  let num := (s.a * s.a + s.b * s.b) - r * r
  if num > 0 then { s with b := s.b - 1, a := s.a - 1 } else s

/-- `draw_circle`: the calls of `fb_put_pixel`, if at most `fuel` turns make them. -/
def drawCircle (fuel : ℕ) (x y r : ℤ) (color : BitVec 32) : Option (List Pixel) :=
  (whileLoop (fun s => 22 * s.b * s.b ≥ r * r) (circleBody x y r color) fuel ⟨0, r, []⟩).map
    Circle.plotted

/-! ### The disc -/

/-- The points of a quarter of the disc. -/
def disc (r : ℤ) (hr : 0 ≤ r) : Staircase.Region where
  mem a b := a * a + b * b ≤ r * r
  dec _ _ := inferInstance
  size := r
  lower ha haa hb hbb h :=
    (add_le_add (mul_self_le_mul_self ha haa) (mul_self_le_mul_self hb hbb)).trans h
  bound := by
    intro a b ha hb h
    constructor <;> nlinarith
  top := by simp
  size_nonneg := hr

variable {x y r a b u v : ℤ} {color : BitVec 32} {ps : List Pixel}

/-- While `draw_circle` goes on, it is above the axis. -/
theorem one_le_of_go (hr : 1 ≤ r) (b : ℤ) (hb : 0 ≤ b) (h : r * r ≤ 22 * b * b) : 1 ≤ b := by
  rcases Int.lt_or_eq_of_le hb with hpos | rfl
  · exact hpos
  · nlinarith

theorem go_mono (b b' : ℤ) (hb : 0 ≤ b) (hbb : b ≤ b') (h : r * r ≤ 22 * b * b) :
    r * r ≤ 22 * b' * b' := by
  have hmul := mul_self_le_mul_self hb hbb
  linarith

/-- The test holds at one of the two coordinates of any place on the edge. -/
theorem go_or_go (hr : 2 ≤ r) (ha : 0 ≤ a) (hb : 0 ≤ b)
    (h : r * r < (a + 1) * (a + 1) + (b + 1) * (b + 1)) :
    r * r ≤ 22 * a * a ∨ r * r ≤ 22 * b * b := by
  by_contra hnot
  obtain ⟨ha', hb'⟩ := not_or.mp hnot
  -- both are less than a quarter of the radius
  have hafar : 4 * a < r := by nlinarith
  have hbfar : 4 * b < r := by nlinarith
  nlinarith

/-! ### The loop is a walk -/

/-- The pixels of `n` turns. -/
def pixelsAt (x y r : ℤ) (hr : 0 ≤ r) (color : BitVec 32) (n : ℕ) : List Pixel :=
  (List.range n).flatMap fun k =>
    eightPixels x y ((disc r hr).walk k).1 ((disc r hr).walk k).2 color

/-- The variables after `n` turns. -/
def circleAt (x y r : ℤ) (hr : 0 ≤ r) (color : BitVec 32) (n : ℕ) : Circle :=
  ⟨((disc r hr).walk n).1, ((disc r hr).walk n).2, pixelsAt x y r hr color n⟩

/-- A turn of the loop is a step of the walk. -/
theorem circleBody_circleAt (hr : 0 ≤ r) (n : ℕ) :
    circleBody x y r color (circleAt x y r hr color n) = circleAt x y r hr color (n + 1) := by
  have hpixels : pixelsAt x y r hr color (n + 1) = pixelsAt x y r hr color n ++
      eightPixels x y ((disc r hr).walk n).1 ((disc r hr).walk n).2 color := by
    simp only [pixelsAt, List.range_succ, List.flatMap_append, List.flatMap_singleton]
  rw [circleAt, circleAt, hpixels, Staircase.Region.walk_succ, Staircase.Region.step]
  simp only [circleBody]
  by_cases hright : (disc r hr).mem (((disc r hr).walk n).1 + 1) ((disc r hr).walk n).2
  · have hnum : ¬ ((((disc r hr).walk n).1 + 1) * (((disc r hr).walk n).1 + 1) +
        ((disc r hr).walk n).2 * ((disc r hr).walk n).2) - r * r > 0 :=
      not_lt.mpr (sub_nonpos.mpr hright)
    rw [if_neg hnum, if_pos hright]
  · have hnum : ((((disc r hr).walk n).1 + 1) * (((disc r hr).walk n).1 + 1) +
        ((disc r hr).walk n).2 * ((disc r hr).walk n).2) - r * r > 0 :=
      sub_pos.mpr (not_le.mp hright)
    rw [if_pos hnum, if_neg hright, Int.add_sub_cancel]

/-- From radius 1 on the loop ends, and what it plots comes from the cells of the edge at which
the test holds. -/
theorem drawCircle_walk (x y : ℤ) (color : BitVec 32) (hr : 1 ≤ r) : ∃ ps,
    (∀ fuel : ℕ, 2 * r + 1 ≤ fuel → drawCircle fuel x y r color = some ps) ∧
      ∀ p, p ∈ ps ↔ ∃ a b, (disc r (by omega)).Rim a b ∧ r * r ≤ 22 * b * b ∧
        p ∈ eightPixels x y a b color := by
  have hr0 : 0 ≤ r := by omega
  obtain ⟨n, hn, hgo, hend⟩ := Staircase.Region.exists_end (R := disc r hr0) (one_le_of_go hr)
  refine ⟨pixelsAt x y r hr0 color n, fun fuel hfuel => ?_, fun p => ?_⟩
  · rw [drawCircle, show (⟨0, r, []⟩ : Circle) = circleAt x y r hr0 color 0 from rfl,
      whileLoop_of_trajectory (circleAt x y r hr0 color) n
        (fun k hk => ⟨decide_eq_true (hgo k hk), circleBody_circleAt hr0 k⟩)
        (decide_eq_false hend) (by dsimp only [disc] at hn; omega)]
    rfl
  · have hvisited := fun u v : ℤ => Staircase.Region.visited_iff (u := u) (v := v)
      (one_le_of_go hr) go_mono hgo hend
    rw [pixelsAt, List.mem_flatMap]
    constructor
    · rintro ⟨k, hk, hp⟩
      rw [List.mem_range] at hk
      obtain ⟨hrim, hb⟩ := (hvisited _ _).mp ⟨k, hk, rfl⟩
      exact ⟨_, _, hrim, hb, hp⟩
    · rintro ⟨a, b, hrim, hb, hp⟩
      obtain ⟨k, hk, hwalk⟩ := (hvisited a b).mpr ⟨hrim, hb⟩
      refine ⟨k, List.mem_range.mpr hk, ?_⟩
      rwa [hwalk]

/-! ### The discrete circle -/

/-- The offsets of the discrete circle. -/
def OnCircle (r u v : ℤ) : Prop :=
  u ^ 2 + v ^ 2 ≤ r ^ 2 ∧ r ^ 2 < (|u| + 1) ^ 2 + (|v| + 1) ^ 2

/-- The pixel at this offset from the centre has been plotted. -/
def Plotted (ps : List Pixel) (x y u v : ℤ) : Prop := ∃ p ∈ ps, p.x = x + u ∧ p.y = y + v

/-- It is the edge of the disc in each quarter. -/
theorem rim_abs_iff (hr : 0 ≤ r) : (disc r hr).Rim |u| |v| ↔ OnCircle r u v := by
  have hmem : (disc r hr).mem |u| |v| ↔ u ^ 2 + v ^ 2 ≤ r ^ 2 := by
    show |u| * |u| + |v| * |v| ≤ r * r ↔ _
    rw [abs_mul_abs_self, abs_mul_abs_self, pow_two, pow_two, pow_two]
  have hnext : (disc r hr).mem (|u| + 1) (|v| + 1) ↔ ¬ r ^ 2 < (|u| + 1) ^ 2 + (|v| + 1) ^ 2 := by
    rw [not_lt, pow_two, pow_two, pow_two]
    rfl
  constructor
  · intro h
    exact ⟨hmem.mp h.mem, not_not.mp fun hnot => h.next (hnext.mpr hnot)⟩
  · rintro ⟨hin, hout⟩
    exact ⟨abs_nonneg u, abs_nonneg v, hmem.mpr hin, fun h => hnext.mp h hout⟩

theorem OnCircle.swap (h : OnCircle r u v) : OnCircle r v u := by
  unfold OnCircle at *
  rwa [Int.add_comm (v ^ 2), Int.add_comm ((|v| + 1) ^ 2)]

theorem OnCircle.neg_left (h : OnCircle r u v) : OnCircle r (-u) v := by
  unfold OnCircle at *
  rwa [neg_sq, abs_neg]

theorem OnCircle.neg_right (h : OnCircle r u v) : OnCircle r u (-v) := by
  unfold OnCircle at *
  rwa [neg_sq, abs_neg]

/-- In every column of the disc there is a point of the circle. -/
theorem exists_onCircle (h : |u| ≤ r) : ∃ v, OnCircle r u v := by
  have hu : u * u ≤ r * r := by
    have hmul := mul_self_le_mul_self (abs_nonneg u) h
    rwa [abs_mul_abs_self] at hmul
  obtain ⟨m, hm⟩ : ∃ m : ℕ, (m : ℤ) = r * r - u * u := ⟨(r * r - u * u).toNat, by omega⟩
  have hle : (m.sqrt : ℤ) * m.sqrt ≤ m := by exact_mod_cast Nat.sqrt_le m
  have hlt : (m : ℤ) < (m.sqrt + 1) * (m.sqrt + 1) := by exact_mod_cast Nat.lt_succ_sqrt m
  have habs : |u| * |u| = u * u := abs_mul_abs_self u
  have hnonneg := abs_nonneg u
  refine ⟨m.sqrt, by nlinarith, ?_⟩
  rw [abs_of_nonneg (Int.natCast_nonneg m.sqrt)]
  nlinarith

/-- The offsets of the eight pixels of a turn. -/
theorem mem_eightPixels (x y : ℤ) (color : BitVec 32) (ha : 0 ≤ a) (hb : 0 ≤ b) :
    (∃ p ∈ eightPixels x y a b color, p.x = x + u ∧ p.y = y + v) ↔
      |u| = a ∧ |v| = b ∨ |u| = b ∧ |v| = a := by
  have hplus : ∀ w c d : ℤ, w + c = w + d ↔ d = c := fun w c d => by omega
  have hminus : ∀ w c d : ℤ, w - c = w + d ↔ d = -c := fun w c d => by omega
  rw [abs_eq ha, abs_eq hb, abs_eq hb, abs_eq ha]
  simp only [eightPixels, List.mem_cons, List.not_mem_nil, or_false, exists_eq_or_imp,
    exists_eq_left, hplus, hminus]
  grind

/-- For every radius of at least 2, `draw_circle` ends and plots in its colour exactly the discrete
circle, which has all eight symmetries and a point in every column from `-r` to `r`. -/
theorem drawCircle_exact (x y r : ℤ) (color : BitVec 32) (hr : 2 ≤ r) : ∃ ps,
    (∀ fuel : ℕ, 2 * r + 1 ≤ fuel → drawCircle fuel x y r color = some ps) ∧
      (∀ p ∈ ps, p.color = color) ∧
      (∀ u v, Plotted ps x y u v ↔ OnCircle r u v) ∧
      (∀ u v, Plotted ps x y u v →
        Plotted ps x y (-u) v ∧ Plotted ps x y u (-v) ∧ Plotted ps x y v u) ∧
      ∀ u, |u| ≤ r → ∃ v, Plotted ps x y u v := by
  have hr0 : 0 ≤ r := by omega
  obtain ⟨ps, hps, hmem⟩ := drawCircle_walk x y color (show 1 ≤ r by omega)
  have hplotted : ∀ u v, Plotted ps x y u v ↔ OnCircle r u v := by
    intro u v
    constructor
    · rintro ⟨p, hp, hx, hy⟩
      obtain ⟨a, b, hrim, -, hp⟩ := (hmem p).mp hp
      rcases (mem_eightPixels x y color hrim.left hrim.below).mp ⟨p, hp, hx, hy⟩ with
        ⟨rfl, rfl⟩ | ⟨rfl, rfl⟩
      · exact (rim_abs_iff hr0).mp hrim
      · exact ((rim_abs_iff hr0).mp hrim).swap
    · intro h
      have hrim := (rim_abs_iff hr0).mpr h
      have hout : r * r < (|u| + 1) * (|u| + 1) + (|v| + 1) * (|v| + 1) := not_le.mp hrim.next
      rcases go_or_go hr hrim.left hrim.below hout with hgo | hgo
      · have hrim' := (rim_abs_iff hr0).mpr h.swap
        obtain ⟨p, hp, hxy⟩ := (mem_eightPixels x y color hrim'.left
          hrim'.below).mpr (.inr ⟨rfl, rfl⟩)
        exact ⟨p, (hmem p).mpr ⟨_, _, hrim', hgo, hp⟩, hxy⟩
      · obtain ⟨p, hp, hxy⟩ := (mem_eightPixels x y color hrim.left
          hrim.below).mpr (.inl ⟨rfl, rfl⟩)
        exact ⟨p, (hmem p).mpr ⟨_, _, hrim, hgo, hp⟩, hxy⟩
  refine ⟨ps, hps, fun p hp => ?_, hplotted, fun u v h => ?_, fun u hu => ?_⟩
  · obtain ⟨a, b, -, -, hp⟩ := (hmem p).mp hp
    simp only [eightPixels, List.mem_cons, List.not_mem_nil, or_false] at hp
    rcases hp with rfl | rfl | rfl | rfl | rfl | rfl | rfl | rfl <;> rfl
  · have hon := (hplotted u v).mp h
    exact ⟨(hplotted _ _).mpr hon.neg_left, (hplotted _ _).mpr hon.neg_right,
      (hplotted _ _).mpr hon.swap⟩
  · obtain ⟨v, hv⟩ := exists_onCircle hu
    exact ⟨v, (hplotted u v).mpr hv⟩

/-- The smallest of these circles. -/
theorem drawCircle_exact_two : ∃ ps,
    (∀ fuel : ℕ, 5 ≤ (fuel : ℤ) → drawCircle fuel 240 136 2 0xffffff = some ps) ∧
      (∀ p ∈ ps, p.color = 0xffffff) ∧
      (∀ u v, Plotted ps 240 136 u v ↔ OnCircle 2 u v) ∧
      (∀ u v, Plotted ps 240 136 u v →
        Plotted ps 240 136 (-u) v ∧ Plotted ps 240 136 u (-v) ∧ Plotted ps 240 136 v u) ∧
      ∀ u, |u| ≤ 2 → ∃ v, Plotted ps 240 136 u v :=
  drawCircle_exact 240 136 2 0xffffff (le_refl 2)

/-- For a radius of at most 9000, every product and sum of a turn on the edge of the disc fits in
an `int`. -/
theorem circle_fits {hr : 0 ≤ r} (hmax : r ≤ 9000) (h : (disc r hr).Rim a b) :
    22 * b * b < 2 ^ 31 ∧ r * r < 2 ^ 31 ∧ (a + 1) * (a + 1) + b * b < 2 ^ 31 ∧
      -(2 ^ 31) < (a + 1) * (a + 1) + b * b - r * r := by
  obtain ⟨hle, hle'⟩ := (disc r hr).bound h.left h.below h.mem
  have ha : a ≤ 9000 := le_trans hle hmax
  have hb : b ≤ 9000 := le_trans hle' hmax
  have hasq : (a + 1) * (a + 1) ≤ 9001 * 9001 :=
    mul_self_le_mul_self (Int.le_add_one h.left) (by omega)
  have hbsq : b * b ≤ 9000 * 9000 := mul_self_le_mul_self h.below hb
  have hrsq : r * r ≤ 9000 * 9000 := mul_self_le_mul_self hr hmax
  have hasq' := mul_self_nonneg (a + 1)
  have hbsq' := mul_self_nonneg b
  refine ⟨?_, ?_, ?_, ?_⟩ <;> linarith

/-! ### Radius 0 -/

/-- With radius 0 the loop goes down for ever. -/
theorem drawCircle_zero (fuel : ℕ) : drawCircle fuel x y 0 color = none := by
  have hturn : ∀ s : Circle, s.a = 0 →
      decide (22 * s.b * s.b ≥ 0 * 0) = true ∧ (circleBody x y 0 color s).a = 0 := by
    intro s hs
    have hsq := mul_self_nonneg s.b
    refine ⟨decide_eq_true (by linarith), ?_⟩
    have hnum : (s.a + 1) * (s.a + 1) + s.b * s.b - 0 * 0 > 0 := by
      rw [hs]
      linarith
    simp only [circleBody]
    rw [if_pos hnum, Int.add_sub_cancel, hs]
  rw [drawCircle, whileLoop_diverges hturn fuel rfl, Option.map_none]

/-- `draw_circle` ends if and only if the radius is not 0. -/
theorem drawCircle_ends_iff (x y r : ℤ) (color : BitVec 32) (hr : 0 ≤ r) :
    (∃ fuel ps, drawCircle fuel x y r color = some ps) ↔ r ≠ 0 := by
  constructor
  · rintro ⟨fuel, ps, hps⟩ rfl
    rw [drawCircle_zero] at hps
    cases hps
  · intro hne
    obtain ⟨ps, hps, -⟩ := drawCircle_walk x y color (show 1 ≤ r by omega)
    exact ⟨(2 * r + 1).toNat, ps, hps _ (by omega)⟩

/-- Of radius 1 it does. -/
theorem drawCircle_ends_one : (∃ fuel ps, drawCircle fuel 240 136 1 0xffffff = some ps) ↔
    (1 : ℤ) ≠ 0 :=
  drawCircle_ends_iff 240 136 1 0xffffff (by omega)

/-- Of radius 0 it does not. -/
theorem drawCircle_forever : ¬ ∀ (x y r : ℤ) (color : BitVec 32), 0 ≤ r → r ≤ 9000 →
    ∃ fuel ps, drawCircle fuel x y r color = some ps := by
  intro h
  obtain ⟨fuel, ps, hps⟩ := h 240 136 0 0xffffff (le_refl 0) (by omega)
  rw [drawCircle_zero] at hps
  cases hps

end S3c2440.Lcd
