import S3c2440.Theory.Loop
import S3c2440.Theory.Raster
import Mathlib.Data.List.Range

/-!
# Drawing lines

`bare_board/code/I2c/20200510_IIC/lcd/geometry.c`: `draw_line` has a loop for each of the eight
directions a line can go. All of them walk along one axis by ones, and go along the
other one as `Theory.Raster` does.

The calls of `fb_put_pixel` are listed in their order. An `int` is an integer.

## What is proved

* `octant_eq` — what one of the loops plots, whatever its direction.
* `drawLine_eq` — what `draw_line` plots.
* `drawLine_isLine` — it ends, and plots a line from the one point to the other that is
  everywhere within half a pixel of the ideal one.
-/

namespace S3c2440.Lcd

open Theory

/-! ### The code -/

/-- A call of `fb_put_pixel`. -/
structure Pixel where
  /-- `x`. -/
  x : ℤ
  /-- `y`. -/
  y : ℤ
  /-- `color`. -/
  color : BitVec 32
  deriving DecidableEq

/-- The variables of a loop of `draw_line`. -/
structure Line where
  /-- `x1`. -/
  x1 : ℤ
  /-- `y1`. -/
  y1 : ℤ
  /-- `e`. -/
  e : ℤ
  /-- The calls of `fb_put_pixel`. -/
  plotted : List Pixel

/-- `x1 += vx; y1 += vy;`. -/
def move (vx vy : ℤ) (s : Line) : Line := { s with x1 := s.x1 + vx, y1 := s.y1 + vy }

/-- One turn: `fb_put_pixel(x1,y1,color); if(e>0){minor; e-=dMajor;} major; e+=dMinor;`. -/
def turn (color : BitVec 32) (minor : Line → Line) (dMajor : ℤ) (major : Line → Line)
    (dMinor : ℤ) (s : Line) : Line :=
  let s := { s with plotted := s.plotted ++ [⟨s.x1, s.y1, color⟩] }
  let s := if s.e > 0 then { minor s with e := s.e - dMajor } else s
  { major s with e := s.e + dMinor }

/-- One of the loops. -/
def octant (fuel : ℕ) (color : BitVec 32) (s : Line) (cond : Line → Bool) (minor : Line → Line)
    (dMajor : ℤ) (major : Line → Line) (dMinor : ℤ) : Option (List Pixel) :=
  (whileLoop cond (turn color minor dMajor major dMinor) fuel s).map Line.plotted

/-- `draw_line`: the calls of `fb_put_pixel`, if a loop of at most `fuel` turns makes them. -/
def drawLine (fuel : ℕ) (x1 y1 x2 y2 : ℤ) (color : BitVec 32) : Option (List Pixel) :=
  let dx := x2 - x1
  let dy := y2 - y1
  if dx ≥ 0 then
    if dy ≥ 0 then
      if dx ≥ dy then -- 1/8 octant
        octant fuel color ⟨x1, y1, dy - dx.tdiv 2, []⟩ (fun s => s.x1 ≤ x2)
          (move 0 1) dx (move 1 0) dy
      else -- 2/8 octant
        octant fuel color ⟨x1, y1, dx - dy.tdiv 2, []⟩ (fun s => s.y1 ≤ y2)
          (move 1 0) dy (move 0 1) dx
    else
      let dy := -dy
      if dx ≥ dy then -- 8/8 octant
        octant fuel color ⟨x1, y1, dy - dx.tdiv 2, []⟩ (fun s => s.x1 ≤ x2)
          (move 0 (-1)) dx (move 1 0) dy
      else -- 7/8 octant
        octant fuel color ⟨x1, y1, dx - dy.tdiv 2, []⟩ (fun s => s.y1 ≥ y2)
          (move 1 0) dy (move 0 (-1)) dx
  else
    let dx := -dx
    if dy ≥ 0 then
      if dx ≥ dy then -- 4/8 octant
        octant fuel color ⟨x1, y1, dy - dx.tdiv 2, []⟩ (fun s => s.x1 ≥ x2)
          (move 0 1) dx (move (-1) 0) dy
      else -- 3/8 octant
        octant fuel color ⟨x1, y1, dx - dy.tdiv 2, []⟩ (fun s => s.y1 ≤ y2)
          (move (-1) 0) dy (move 0 1) dx
    else
      let dy := -dy
      if dx ≥ dy then -- 5/8 octant
        octant fuel color ⟨x1, y1, dy - dx.tdiv 2, []⟩ (fun s => s.x1 ≥ x2)
          (move 0 (-1)) dx (move (-1) 0) dy
      else -- 6/8 octant
        octant fuel color ⟨x1, y1, dx - dy.tdiv 2, []⟩ (fun s => s.y1 ≥ y2)
          (move (-1) 0) dy (move 0 (-1)) dx

/-! ### One loop -/

section Octant

variable {fuel D d : ℕ} {color : BitVec 32} {cond : Line → Bool} (x1 y1 vx vy wx wy : ℤ)

/-- Where the loop is after `k` turns. -/
def placeAt (D d k : ℕ) : ℤ × ℤ :=
  (x1 + k * wx + Raster.up D d k * vx, y1 + k * wy + Raster.up D d k * vy)

/-- What the loop has plotted after `k` turns. -/
def plottedAt (D d : ℕ) (color : BitVec 32) (k : ℕ) : List Pixel :=
  (List.range k).map fun j =>
    ⟨(placeAt x1 y1 vx vy wx wy D d j).1, (placeAt x1 y1 vx vy wx wy D d j).2, color⟩

/-- The variables after `k` turns. -/
def lineAt (D d : ℕ) (color : BitVec 32) (k : ℕ) : Line :=
  ⟨(placeAt x1 y1 vx vy wx wy D d k).1, (placeAt x1 y1 vx vy wx wy D d k).2, Raster.err D d k,
    plottedAt x1 y1 vx vy wx wy D d color k⟩

theorem turn_lineAt (k : ℕ) :
    turn color (move vx vy) D (move wx wy) d (lineAt x1 y1 vx vy wx wy D d color k) =
      lineAt x1 y1 vx vy wx wy D d color (k + 1) := by
  have hplotted : plottedAt x1 y1 vx vy wx wy D d color (k + 1) =
      plottedAt x1 y1 vx vy wx wy D d color k ++
        [⟨(placeAt x1 y1 vx vy wx wy D d k).1, (placeAt x1 y1 vx vy wx wy D d k).2, color⟩] := by
    simp only [plottedAt, List.range_succ, List.map_append, List.map_cons, List.map_nil]
  by_cases h : Raster.err D d k > 0
  · obtain ⟨hup, herr⟩ := Raster.walk_of_pos h
    simp only [turn, lineAt, h, if_true, move, hplotted, herr, placeAt, hup, Line.mk.injEq]
    push_cast
    refine ⟨?_, ?_, trivial, trivial⟩ <;> ring
  · obtain ⟨hup, herr⟩ := Raster.walk_of_not_pos h
    simp only [turn, lineAt, h, if_false, move, hplotted, herr, placeAt, hup, Line.mk.injEq]
    push_cast
    refine ⟨?_, ?_, trivial, trivial⟩ <;> ring

/-- The loop plots what it should if its test holds for the `D` turns after the first, and not
for another. -/
theorem octant_eq (hcond : ∀ k : ℕ, k ≤ D + 1 →
      cond (lineAt x1 y1 vx vy wx wy D d color k) = decide (k ≤ D)) (hfuel : D < fuel) :
    octant fuel color ⟨x1, y1, d - (D : ℤ).tdiv 2, []⟩ cond (move vx vy) D (move wx wy) d =
      some (plottedAt x1 y1 vx vy wx wy D d color (D + 1)) := by
  have hstart : (⟨x1, y1, d - (D : ℤ).tdiv 2, []⟩ : Line) =
      lineAt x1 y1 vx vy wx wy D d color 0 := by
    simp [lineAt, placeAt, plottedAt, Int.tdiv_eq_ediv_of_nonneg]
  have hrun : whileLoop cond (turn color (move vx vy) D (move wx wy) d) fuel _ = _ :=
    whileLoop_of_trajectory (lineAt x1 y1 vx vy wx wy D d color) (D + 1)
      (fun k hk => ⟨(hcond k (Nat.le_of_lt hk)).trans (decide_eq_true (Nat.le_of_lt_succ hk)),
        turn_lineAt x1 y1 vx vy wx wy k⟩)
      ((hcond _ le_rfl).trans (decide_eq_false (Nat.not_succ_le_self D))) hfuel
  rw [octant, hstart, hrun]
  rfl

end Octant

/-! ### All of them -/

section Line

variable {x1 y1 x2 y2 : ℤ} {fuel D d : ℕ} {color : BitVec 32}

/-- The direction of a step. -/
def dir (a : ℤ) : ℤ := if a ≥ 0 then 1 else -1

/-- The test of a loop that walks up an axis. -/
theorem test_up {a b : ℤ} (h : b - a = D) (k : ℕ) (m : ℤ) :
    decide (a + k * 1 + m * 0 ≤ b) = decide (k ≤ D) := by
  refine decide_eq_decide.mpr ?_
  omega

/-- And down. -/
theorem test_down {a b : ℤ} (h : -(b - a) = D) (k : ℕ) (m : ℤ) :
    decide (a + k * -1 + m * 0 ≥ b) = decide (k ≤ D) := by
  refine decide_eq_decide.mpr ?_
  omega

/-- The four octants that walk along the x axis. -/
theorem drawLine_along_x (hD : D = (x2 - x1).natAbs) (hd : d = (y2 - y1).natAbs) (hle : d ≤ D)
    (hfuel : D < fuel) :
    drawLine fuel x1 y1 x2 y2 color = some
      (plottedAt x1 y1 0 (dir (y2 - y1)) (dir (x2 - x1)) 0 D d color (D + 1)) := by
  by_cases hx : x2 - x1 ≥ 0
  · have hdx : x2 - x1 = D := by omega
    by_cases hy : y2 - y1 ≥ 0
    · have hdy : y2 - y1 = d := by omega
      have hlong : x2 - x1 ≥ y2 - y1 := by omega
      simp only [drawLine, dir, if_pos hx, if_pos hy, if_pos hlong]
      rw [hdx, hdy]
      exact octant_eq x1 y1 _ _ _ _ (fun k _ => test_up hdx k _) hfuel
    · have hdy : -(y2 - y1) = d := by omega
      have hlong : x2 - x1 ≥ -(y2 - y1) := by omega
      simp only [drawLine, dir, if_pos hx, if_neg hy, if_pos hlong]
      rw [hdx, hdy]
      exact octant_eq x1 y1 _ _ _ _ (fun k _ => test_up hdx k _) hfuel
  · have hdx : -(x2 - x1) = D := by omega
    by_cases hy : y2 - y1 ≥ 0
    · have hdy : y2 - y1 = d := by omega
      have hlong : -(x2 - x1) ≥ y2 - y1 := by omega
      simp only [drawLine, dir, if_neg hx, if_pos hy, if_pos hlong]
      rw [hdx, hdy]
      exact octant_eq x1 y1 _ _ _ _ (fun k _ => test_down hdx k _) hfuel
    · have hdy : -(y2 - y1) = d := by omega
      have hlong : -(x2 - x1) ≥ -(y2 - y1) := by omega
      simp only [drawLine, dir, if_neg hx, if_neg hy, if_pos hlong]
      rw [hdx, hdy]
      exact octant_eq x1 y1 _ _ _ _ (fun k _ => test_down hdx k _) hfuel

/-- And the four that walk along the y axis. -/
theorem drawLine_along_y (hD : D = (y2 - y1).natAbs) (hd : d = (x2 - x1).natAbs) (hlt : d < D)
    (hfuel : D < fuel) :
    drawLine fuel x1 y1 x2 y2 color = some
      (plottedAt x1 y1 (dir (x2 - x1)) 0 0 (dir (y2 - y1)) D d color (D + 1)) := by
  by_cases hy : y2 - y1 ≥ 0
  · have hdy : y2 - y1 = D := by omega
    by_cases hx : x2 - x1 ≥ 0
    · have hdx : x2 - x1 = d := by omega
      have hlong : ¬ x2 - x1 ≥ y2 - y1 := by omega
      simp only [drawLine, dir, if_pos hx, if_pos hy, if_neg hlong]
      rw [hdx, hdy]
      exact octant_eq x1 y1 _ _ _ _ (fun k _ => test_up hdy k _) hfuel
    · have hdx : -(x2 - x1) = d := by omega
      have hlong : ¬ -(x2 - x1) ≥ y2 - y1 := by omega
      simp only [drawLine, dir, if_neg hx, if_pos hy, if_neg hlong]
      rw [hdx, hdy]
      exact octant_eq x1 y1 _ _ _ _ (fun k _ => test_up hdy k _) hfuel
  · have hdy : -(y2 - y1) = D := by omega
    by_cases hx : x2 - x1 ≥ 0
    · have hdx : x2 - x1 = d := by omega
      have hlong : ¬ x2 - x1 ≥ -(y2 - y1) := by omega
      simp only [drawLine, dir, if_pos hx, if_neg hy, if_neg hlong]
      rw [hdx, hdy]
      exact octant_eq x1 y1 _ _ _ _ (fun k _ => test_down hdy k _) hfuel
    · have hdx : -(x2 - x1) = d := by omega
      have hlong : ¬ -(x2 - x1) ≥ -(y2 - y1) := by omega
      simp only [drawLine, dir, if_neg hx, if_neg hy, if_neg hlong]
      rw [hdx, hdy]
      exact octant_eq x1 y1 _ _ _ _ (fun k _ => test_down hdy k _) hfuel

/-- What `draw_line` plots, with `D` the longer and `d` the shorter of the two distances. -/
theorem drawLine_eq (hD : D = max (x2 - x1).natAbs (y2 - y1).natAbs)
    (hd : d = min (x2 - x1).natAbs (y2 - y1).natAbs) (hfuel : D < fuel) :
    drawLine fuel x1 y1 x2 y2 color = some
      (if (y2 - y1).natAbs ≤ (x2 - x1).natAbs then
        plottedAt x1 y1 0 (dir (y2 - y1)) (dir (x2 - x1)) 0 D d color (D + 1)
      else plottedAt x1 y1 (dir (x2 - x1)) 0 0 (dir (y2 - y1)) D d color (D + 1)) := by
  split
  case isTrue hle =>
    rw [max_eq_left hle] at hD
    rw [min_eq_right hle] at hd
    exact drawLine_along_x hD hd (hD ▸ hd ▸ hle) hfuel
  case isFalse hle =>
    have hlt := Nat.not_le.mp hle
    rw [max_eq_right hlt.le] at hD
    rw [min_eq_left hlt.le] at hd
    exact drawLine_along_y hD hd (hD ▸ hd ▸ hlt) hfuel

/-! ### A line -/

/-- The pixel after `k` steps along the longer distance, `m` of them with a step along the
shorter one. -/
def pixelAt (x1 y1 x2 y2 : ℤ) (color : BitVec 32) (k m : ℕ) : Pixel :=
  if (y2 - y1).natAbs ≤ (x2 - x1).natAbs then
    ⟨x1 + k * (x2 - x1).sign, y1 + m * (y2 - y1).sign, color⟩
  else ⟨x1 + m * (x2 - x1).sign, y1 + k * (y2 - y1).sign, color⟩

/-- Pixels that are a line from `(x1, y1)` to `(x2, y2)`. -/
structure IsLine (x1 y1 x2 y2 : ℤ) (color : BitVec 32) (D d : ℕ) (ps : List Pixel) : Prop where
  /-- As many as there are steps, and one. -/
  length : ps.length = D + 1
  /-- From the one point. -/
  first : ps.head? = some ⟨x1, y1, color⟩
  /-- To the other. -/
  last : ps.getLast? = some ⟨x2, y2, color⟩
  /-- Every step goes one pixel along the longer distance and one or none along the shorter one,
  both towards the end, and within half a pixel of the ideal line. -/
  steps : ∃ m : ℕ → ℕ, m 0 = 0 ∧ (∀ k, m (k + 1) = m k ∨ m (k + 1) = m k + 1) ∧
    ∀ k ≤ D, ps[k]? = some (pixelAt x1 y1 x2 y2 color k (m k)) ∧
      |2 * ((m k : ℤ) * D - k * d)| ≤ D

theorem mul_dir {n : ℕ} {a : ℤ} (h : a = 0 → n = 0) : (n : ℤ) * dir a = n * a.sign := by
  unfold dir
  rcases lt_trichotomy a 0 with ha | rfl | ha
  · rw [if_neg (by omega), Int.sign_eq_neg_one_of_neg ha]
  · rw [h rfl]
    rfl
  · rw [if_pos ha.le, Int.sign_eq_one_of_pos ha]

/-- The pixels that `draw_line` plots, one by one. -/
theorem drawLine_getElem? (hD : D = max (x2 - x1).natAbs (y2 - y1).natAbs)
    (hd : d = min (x2 - x1).natAbs (y2 - y1).natAbs) (hfuel : D < fuel) :
    ∃ ps, drawLine fuel x1 y1 x2 y2 color = some ps ∧ ps.length = D + 1 ∧
      ∀ k ≤ D, ps[k]? = some (pixelAt x1 y1 x2 y2 color k (Raster.up D d k)) := by
  refine ⟨_, drawLine_eq hD hd hfuel, ?_, fun k hk => ?_⟩
  · split <;> rw [plottedAt, List.length_map, List.length_range]
  · have hup : d = 0 → Raster.up D d k = 0 := by
      rintro rfl
      exact Raster.up_level k
    have hget : (List.range (D + 1))[k]? = some k := List.getElem?_range (by omega)
    unfold pixelAt
    split
    case isTrue hle =>
      have hx := mul_dir (n := k) (a := x2 - x1) (by omega)
      have hy := mul_dir (n := Raster.up D d k) (a := y2 - y1) fun h0 => hup (by omega)
      simp only [plottedAt, List.getElem?_map, hget, Option.map_some, placeAt, hx, hy, mul_zero,
        add_zero]
    case isFalse hle =>
      have hx := mul_dir (n := Raster.up D d k) (a := x2 - x1) fun h0 => hup (by omega)
      have hy := mul_dir (n := k) (a := y2 - y1) (by omega)
      simp only [plottedAt, List.getElem?_map, hget, Option.map_some, placeAt, hx, hy, mul_zero,
        add_zero]

/-- The first pixel is the one point. -/
theorem pixelAt_zero : pixelAt x1 y1 x2 y2 color 0 0 = ⟨x1, y1, color⟩ := by
  simp [pixelAt]

/-- And the last one is the other. -/
theorem pixelAt_end (hD : D = max (x2 - x1).natAbs (y2 - y1).natAbs)
    (hd : d = min (x2 - x1).natAbs (y2 - y1).natAbs) :
    pixelAt x1 y1 x2 y2 color D d = ⟨x2, y2, color⟩ := by
  have hx : ((x2 - x1).natAbs : ℤ) * (x2 - x1).sign = x2 - x1 :=
    (mul_comm _ _).trans (Int.sign_mul_natAbs _)
  have hy : ((y2 - y1).natAbs : ℤ) * (y2 - y1).sign = y2 - y1 :=
    (mul_comm _ _).trans (Int.sign_mul_natAbs _)
  unfold pixelAt
  split
  case isTrue hle =>
    rw [hD, hd, max_eq_left hle, min_eq_right hle, hx, hy, add_sub_cancel, add_sub_cancel]
  case isFalse hle =>
    have hle' := le_of_not_ge hle
    rw [hD, hd, max_eq_right hle', min_eq_left hle', hx, hy, add_sub_cancel, add_sub_cancel]

end Line

/-- `draw_line` ends, and plots a line from the one point to the other. -/
theorem drawLine_isLine (x1 y1 x2 y2 : ℤ) (color : BitVec 32) :
    ∃ ps, (∀ fuel, max (x2 - x1).natAbs (y2 - y1).natAbs < fuel →
        drawLine fuel x1 y1 x2 y2 color = some ps) ∧
      IsLine x1 y1 x2 y2 color (max (x2 - x1).natAbs (y2 - y1).natAbs)
        (min (x2 - x1).natAbs (y2 - y1).natAbs) ps := by
  obtain ⟨D, hD⟩ : ∃ D, D = max (x2 - x1).natAbs (y2 - y1).natAbs := ⟨_, rfl⟩
  obtain ⟨d, hd⟩ : ∃ d, d = min (x2 - x1).natAbs (y2 - y1).natAbs := ⟨_, rfl⟩
  rw [← hD, ← hd]
  obtain ⟨ps, hps, hlen, hget⟩ : ∃ ps, drawLine (D + 1) x1 y1 x2 y2 color = some ps ∧ _ :=
    drawLine_getElem? hD hd (Nat.lt_succ_self D)
  have hle : d ≤ D := by
    rw [hD, hd]
    exact min_le_max
  refine ⟨ps, fun fuel hfuel => ?_, hlen, ?_, ?_, Raster.up D d, Raster.up_zero, Raster.up_succ,
    fun k hk => ⟨hget k hk, Raster.near hle hk⟩⟩
  · rw [← hps, drawLine_eq hD hd hfuel, drawLine_eq hD hd (Nat.lt_succ_self D)]
  · rw [List.head?_eq_getElem?, hget 0 (Nat.zero_le D), Raster.up_zero, pixelAt_zero]
  · rw [List.getLast?_eq_getElem?, hlen, Nat.add_sub_cancel, hget D le_rfl, Raster.up_end hle,
      pixelAt_end hD hd]

end S3c2440.Lcd
