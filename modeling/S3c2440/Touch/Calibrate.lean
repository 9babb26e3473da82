import S3c2440.Touch.Driver
import Mathlib.Algebra.Order.Ring.Rat
import Mathlib.Algebra.Order.Group.Unbundled.Abs
import Mathlib.Algebra.Order.Ring.Abs
import Mathlib.Tactic.FieldSimp
import Mathlib.Tactic.Linarith
import Mathlib.Tactic.Ring

/-!
# Calibration

`bare_board/code/I2c/20200510_IIC/adc_touchscreen/tslib.c`: `ts_calibrate` asks for a touch at
five points of the screen and takes from the readings whether the two axes of the panel are
exchanged, a scale factor for each axis and the reading at the centre; `ts_read` converts a
raw reading to a point of the screen.

A `double` is a rational here and an `int` an integer, and only the conversion of the one to the
other rounds, towards zero. A scale factor is `none` where it is a quotient by zero, an infinity or
a NaN: what is computed with it is one of these again, and C does not define what `int` that
becomes, so `ts_read` has no result then. `get_calibrate_point_data` is a function from a
point of the screen to the reading there.

## What is proved

* `axis_scaled` — on one axis, the factor and the centre undo an affine reading.
* `isTsXySwap_iff` — the test finds out whether the axes are exchanged.
* `tsRead_of_calibrated` — after the calibration, the raw reading of any point of the
  screen is read as that point, whichever way round the panel is.
* `release_passed_iff` — a release comes with the coordinates (0, 0), and `ts_read` passes it on
  exactly where the scale factors are finite and those are on the screen.
-/

namespace S3c2440.Touch

/-! ### The code -/

/-- A point of the screen, or a reading of the panel. -/
structure Point where
  /-- `x`. -/
  x : ℤ
  /-- `y`. -/
  y : ℤ
  deriving DecidableEq

/-- The variables of `tslib.c`. -/
structure Calib where
  /-- `g_kx`, if it is finite. -/
  gKx : Option ℚ
  /-- `g_ky`, if it is finite. -/
  gKy : Option ℚ
  /-- `g_ts_xc`. -/
  gTsXc : ℤ
  /-- `g_ts_yc`. -/
  gTsYc : ℤ
  /-- `g_lcd_xc`. -/
  gLcdXc : ℤ
  /-- `g_lcd_yc`. -/
  gLcdYc : ℤ
  /-- `g_ts_xy_swap`. -/
  gTsXySwap : Bool
  /-- `xres`. -/
  xres : ℤ
  /-- `yres`. -/
  yres : ℤ

/-- A finite `double` that becomes an `int`. -/
def toInt (a : ℚ) : ℤ := a.num.tdiv a.den

/-- `((double)a) / b`, if it is finite. -/
def doubleDiv (a b : ℤ) : Option ℚ := if b = 0 then none else some (a / b)

/-- `is_ts_xy_swap`. -/
def isTsXySwap (a b : Point) : Bool :=
  let dx := b.x - a.x
  let dy := b.y - a.y
  let dx := if dx < 0 then 0 - dx else dx
  let dy := if dy < 0 then 0 - dy else dy
  if dx > dy then false else true

/-- `swap_xy`. -/
def swapXy (p : Point) : Point := ⟨p.y, p.x⟩

/-- A of `ts_calibrate`. -/
def pointA : Point := ⟨50, 50⟩

/-- B of `ts_calibrate`. -/
def pointB (xres : ℤ) : Point := ⟨xres - 50, 50⟩

/-- C of `ts_calibrate`. -/
def pointC (xres yres : ℤ) : Point := ⟨xres - 50, yres - 50⟩

/-- D of `ts_calibrate`. -/
def pointD (yres : ℤ) : Point := ⟨50, yres - 50⟩

/-- E of `ts_calibrate`. -/
def pointE (xres yres : ℤ) : Point := ⟨xres.tdiv 2, yres.tdiv 2⟩

/-- `ts_calibrate`. -/
def tsCalibrate (xres yres : ℤ) (getCalibratePointData : Point → Point) : Calib :=
  let a := getCalibratePointData pointA
  let b := getCalibratePointData (pointB xres)
  let c := getCalibratePointData (pointC xres yres)
  let d := getCalibratePointData (pointD yres)
  let e := getCalibratePointData (pointE xres yres)
  let swap := isTsXySwap a b
  let a := if swap then swapXy a else a
  let b := if swap then swapXy b else b
  let c := if swap then swapXy c else c
  let d := if swap then swapXy d else d
  let e := if swap then swapXy e else e
  let tsS1 := b.x - a.x
  let tsS2 := c.x - d.x
  let lcdS := xres - 50 - 50
  let tsD1 := d.y - a.y
  let tsD2 := c.y - b.y
  let lcdD := yres - 50 - 50
  { gKx := doubleDiv (2 * lcdS) (tsS1 + tsS2)
    gKy := doubleDiv (2 * lcdD) (tsD1 + tsD2)
    gTsXc := e.x
    gTsYc := e.y
    gLcdXc := xres.tdiv 2
    gLcdYc := yres.tdiv 2
    gTsXySwap := swap
    xres := xres
    yres := yres }

/-- `ts_read`: what it returns, and what it leaves at its three arguments, which were `out`. -/
def tsRead (cal : Calib) (raw out : Report) : Option (ℤ × Report) := do
  let ts := if cal.gTsXySwap then swapXy ⟨raw.x, raw.y⟩ else ⟨raw.x, raw.y⟩
  let kx ← cal.gKx
  let ky ← cal.gKy
  let tmpX := toInt (kx * (ts.x - cal.gTsXc : ℤ) + cal.gLcdXc)
  let tmpY := toInt (ky * (ts.y - cal.gTsYc : ℤ) + cal.gLcdYc)
  if tmpX < 0 ∨ tmpX ≥ cal.xres ∨ tmpY < 0 ∨ tmpY ≥ cal.yres then some (-1, out)
  else some (0, ⟨tmpX, tmpY, raw.pressure⟩)

/-! ### Panels -/

/-- A panel whose axes are those of the screen, or are exchanged, and that reads linearly. -/
structure Panel where
  /-- The scale of the reading along the screen's `x`. -/
  p : ℚ
  /-- Its offset. -/
  q : ℚ
  /-- The scale of the reading along the screen's `y`. -/
  s : ℚ
  /-- Its offset. -/
  t : ℚ
  /-- The readings come the other way round. -/
  swapped : Bool
  /-- The panel tells points apart along `x`. -/
  p_ne : p ≠ 0
  /-- And along `y`. -/
  s_ne : s ≠ 0

/-- A reading the right way round. -/
def turn (swapped : Bool) (r : Point) : Point := if swapped then swapXy r else r

/-- The panel reads `r` at the point `c` of the screen. -/
structure Panel.Reads (P : Panel) (c r : Point) : Prop where
  /-- Along the screen's `x`. -/
  x : ((turn P.swapped r).x : ℚ) = P.p * c.x + P.q
  /-- Along the screen's `y`. -/
  y : ((turn P.swapped r).y : ℚ) = P.s * c.y + P.t

/-! ### One axis -/

@[simp] theorem toInt_intCast (n : ℤ) : toInt (n : ℚ) = n := by
  rw [toInt, Rat.num_intCast, Rat.den_intCast]
  exact Int.tdiv_one n

/-- The factor and the centre undo an affine reading. -/
theorem scale_inverts {p q l u c : ℚ} (hp : p ≠ 0) (hl : l ≠ 0) :
    2 * l / (p * l + p * l) * ((p * u + q) - (p * c + q)) + c = u := by
  field_simp
  ring

theorem doubleDiv_eq {a b : ℤ} (hb : b ≠ 0) : doubleDiv a b = some (a / b : ℚ) := if_neg hb

/-- On an axis of `n` points with two readings near each end, and one at the point `c`, the scale
factor is finite, and the conversion of `ts_read` before it is rounded undoes the reading. -/
theorem axis_scaled {p q : ℚ} {n near near' far far' centre c : ℤ} (hp : p ≠ 0)
    (hn : n ≠ 100) (h₁ : (near : ℚ) = p * (50 : ℤ) + q) (h₂ : (near' : ℚ) = p * (50 : ℤ) + q)
    (h₃ : (far : ℚ) = p * (n - 50 : ℤ) + q) (h₄ : (far' : ℚ) = p * (n - 50 : ℤ) + q)
    (hc : (centre : ℚ) = p * c + q) :
    ∃ k, doubleDiv (2 * (n - 50 - 50)) ((far - near) + (far' - near')) = some k ∧
      ∀ r : ℤ, k * (r - centre : ℤ) + c = (r - q) / p := by
  have hl : (n : ℚ) - 100 ≠ 0 := by
    rw [sub_ne_zero]
    exact_mod_cast hn
  have hspan : (far : ℚ) - near = p * (n - 100) := by rw [h₃, h₁]; push_cast; ring
  have hspan' : (far' : ℚ) - near' = p * (n - 100) := by rw [h₄, h₂]; push_cast; ring
  have hlcd : (n : ℚ) - 50 - 50 = n - 100 := by ring
  have hne : (far - near) + (far' - near') ≠ 0 := by
    intro h0
    have hq : ((far : ℚ) - near) + (far' - near') = 0 := by exact_mod_cast h0
    rw [hspan, hspan'] at hq
    exact mul_ne_zero hp hl (by linarith)
  refine ⟨_, doubleDiv_eq hne, fun r => ?_⟩
  have hr : (r : ℚ) = p * ((r - q) / p) + q := by rw [mul_div_cancel₀ _ hp, sub_add_cancel]
  push_cast
  rw [hspan, hspan', hlcd, hc]
  nth_rewrite 1 [hr]
  exact scale_inverts hp hl

/-! ### The whole screen -/

variable {P : Panel} {xres yres : ℤ}

theorem ite_neg_eq_abs (d : ℤ) : (if d < 0 then 0 - d else d) = |d| := by
  split
  case isTrue h => rw [abs_of_neg h, Int.zero_sub]
  case isFalse h => rw [abs_of_nonneg (not_lt.mp h)]

/-- The axes are exchanged if the second reading is not farther along `x` than along `y`. -/
theorem isTsXySwap_iff (a b : Point) :
    isTsXySwap a b = true ↔ |b.x - a.x| ≤ |b.y - a.y| := by
  simp only [isTsXySwap, ite_neg_eq_abs]
  simp

/-- The test finds out. -/
theorem isTsXySwap_eq (hx : xres ≠ 100) {a b : Point} (ha : P.Reads pointA a)
    (hb : P.Reads (pointB xres) b) : isTsXySwap a b = P.swapped := by
  have hxne : (turn P.swapped b).x ≠ (turn P.swapped a).x := by
    intro he
    have hpx : P.p * ((xres : ℚ) - 100) = 0 := by
      have hq : ((turn P.swapped b).x : ℚ) = (turn P.swapped a).x := by rw [he]
      rw [hb.x, ha.x] at hq
      simp only [pointA, pointB] at hq
      push_cast at hq
      linarith
    rcases mul_eq_zero.mp hpx with h0 | h0
    · exact P.p_ne h0
    · exact hx (by exact_mod_cast sub_eq_zero.mp h0)
  have hyeq : (turn P.swapped b).y = (turn P.swapped a).y := by
    have hq : ((turn P.swapped b).y : ℚ) = (turn P.swapped a).y := by rw [hb.y, ha.y]; rfl
    exact_mod_cast hq
  have hne : (turn P.swapped b).x - (turn P.swapped a).x ≠ 0 := sub_ne_zero.mpr hxne
  have heq : (turn P.swapped b).y - (turn P.swapped a).y = 0 := sub_eq_zero.mpr hyeq
  rw [Bool.eq_iff_iff, isTsXySwap_iff]
  cases hs : P.swapped with
  | false =>
    rw [hs] at hne heq
    have hpos : 0 < |b.x - a.x| := abs_pos.mpr hne
    have hzero : |b.y - a.y| = 0 := abs_eq_zero.mpr heq
    rw [hzero]
    exact iff_of_false (not_le.mpr hpos) Bool.false_ne_true
  | true =>
    rw [hs] at hne heq
    have hzero : |b.x - a.x| = 0 := abs_eq_zero.mpr heq
    rw [hzero]
    exact iff_of_true (abs_nonneg _) rfl

/-- The five points at which the panel is read. -/
def calibratePoints (xres yres : ℤ) : List Point :=
  [pointA, pointB xres, pointC xres yres, pointD yres, pointE xres yres]

variable {get : Point → Point}

/-- The variables after the calibration of a panel, by the readings the right way round. -/
theorem tsCalibrate_eq (hx : xres ≠ 100)
    (hget : ∀ c ∈ calibratePoints xres yres, P.Reads c (get c)) :
    let a := turn P.swapped (get pointA)
    let b := turn P.swapped (get (pointB xres))
    let c := turn P.swapped (get (pointC xres yres))
    let d := turn P.swapped (get (pointD yres))
    let e := turn P.swapped (get (pointE xres yres))
    tsCalibrate xres yres get =
      { gKx := doubleDiv (2 * (xres - 50 - 50)) ((b.x - a.x) + (c.x - d.x))
        gKy := doubleDiv (2 * (yres - 50 - 50)) ((d.y - a.y) + (c.y - b.y))
        gTsXc := e.x
        gTsYc := e.y
        gLcdXc := xres.tdiv 2
        gLcdYc := yres.tdiv 2
        gTsXySwap := P.swapped
        xres := xres
        yres := yres } := by
  have hswap : isTsXySwap (get pointA) (get (pointB xres)) = P.swapped :=
    isTsXySwap_eq hx (hget _ (by simp [calibratePoints])) (hget _ (by simp [calibratePoints]))
  simp only [tsCalibrate, hswap, turn]

/-- After the calibration of a panel the scale factors are finite, and `ts_read` undoes the panel's
readings before it rounds. -/
theorem calibrated_scaled (hx : xres ≠ 100) (hy : yres ≠ 100)
    (hget : ∀ c ∈ calibratePoints xres yres, P.Reads c (get c)) {cal : Calib}
    (hcal : tsCalibrate xres yres get = cal) :
    ∃ kx ky, cal.gKx = some kx ∧ cal.gKy = some ky ∧ ∀ r : Point,
      kx * (r.x - cal.gTsXc : ℤ) + cal.gLcdXc = (r.x - P.q) / P.p ∧
        ky * (r.y - cal.gTsYc : ℤ) + cal.gLcdYc = (r.y - P.t) / P.s := by
  obtain ⟨ha, hb, hc, hd, he⟩ : P.Reads pointA (get pointA) ∧
      P.Reads (pointB xres) (get (pointB xres)) ∧
      P.Reads (pointC xres yres) (get (pointC xres yres)) ∧
      P.Reads (pointD yres) (get (pointD yres)) ∧
      P.Reads (pointE xres yres) (get (pointE xres yres)) := by
    simpa [calibratePoints] using hget
  rw [tsCalibrate_eq hx hget] at hcal
  subst hcal
  obtain ⟨kx, hkx, hscaledX⟩ :=
    axis_scaled (c := xres.tdiv 2) P.p_ne hx ha.x hd.x hb.x hc.x he.x
  obtain ⟨ky, hky, hscaledY⟩ :=
    axis_scaled (c := yres.tdiv 2) P.s_ne hy ha.y hb.y hd.y hc.y he.y
  exact ⟨kx, ky, hkx, hky, fun r => ⟨hscaledX r.x, hscaledY r.y⟩⟩

/-- `ts_read` with finite scale factors. -/
theorem tsRead_finite {cal : Calib} {kx ky : ℚ} (hkx : cal.gKx = some kx) (hky : cal.gKy = some ky)
    (raw out : Report) :
    tsRead cal raw out =
      let ts := if cal.gTsXySwap then swapXy ⟨raw.x, raw.y⟩ else ⟨raw.x, raw.y⟩
      let tmpX := toInt (kx * (ts.x - cal.gTsXc : ℤ) + cal.gLcdXc)
      let tmpY := toInt (ky * (ts.y - cal.gTsYc : ℤ) + cal.gLcdYc)
      if tmpX < 0 ∨ tmpX ≥ cal.xres ∨ tmpY < 0 ∨ tmpY ≥ cal.yres then some (-1, out)
      else some (0, ⟨tmpX, tmpY, raw.pressure⟩) := by
  rw [tsRead, hkx, hky]
  rfl

/-- After the calibration, the raw reading of a point of the screen is read as that point,
whichever way round the panel is. -/
theorem tsRead_of_calibrated (hx : xres ≠ 100) (hy : yres ≠ 100)
    (hget : ∀ c ∈ calibratePoints xres yres, P.Reads c (get c)) {u v : ℤ}
    (hu : 0 ≤ u ∧ u < xres) (hv : 0 ≤ v ∧ v < yres) {r : Point} (hr : P.Reads ⟨u, v⟩ r)
    (pressure : ℤ) (out : Report) :
    tsRead (tsCalibrate xres yres get) ⟨r.x, r.y, pressure⟩ out =
      some (0, ⟨u, v, pressure⟩) := by
  obtain ⟨kx, ky, hkx, hky, hscaled⟩ := calibrated_scaled hx hy hget rfl
  obtain ⟨hscaledX, hscaledY⟩ := hscaled (turn P.swapped r)
  rw [hr.x, add_sub_cancel_right, mul_div_cancel_left₀ _ P.p_ne] at hscaledX
  rw [hr.y, add_sub_cancel_right, mul_div_cancel_left₀ _ P.s_ne] at hscaledY
  have hturn : (if (tsCalibrate xres yres get).gTsXySwap then swapXy ⟨r.x, r.y⟩ else ⟨r.x, r.y⟩) =
      turn P.swapped r := by
    rw [tsCalibrate_eq hx hget]
    rfl
  rw [tsRead_finite hkx hky]
  simp only [hturn, hscaledX, hscaledY, toInt_intCast]
  rw [if_neg]
  show ¬ (u < 0 ∨ u ≥ xres ∨ v < 0 ∨ v ≥ yres)
  omega

/-- A panel that is turned round and mirrored. -/
def turnedPanel : Panel := ⟨-2, 1000, 3, 7, true, by norm_num, by norm_num⟩

/-- Its readings. -/
def turnedReading (c : Point) : Point := ⟨3 * c.y + 7, -2 * c.x + 1000⟩

theorem turnedPanel_reads (c : Point) : turnedPanel.Reads c (turnedReading c) := by
  constructor
  · show ((-2 * c.x + 1000 : ℤ) : ℚ) = -2 * c.x + 1000
    push_cast
    rfl
  · show ((3 * c.y + 7 : ℤ) : ℚ) = 3 * c.y + 7
    push_cast
    rfl

theorem tsRead_of_calibrated_turned :
    tsRead (tsCalibrate 480 272 turnedReading) ⟨106, 966, 1⟩ ⟨0, 0, 0⟩ =
      some (0, ⟨17, 33, 1⟩) :=
  tsRead_of_calibrated (P := turnedPanel) (by omega) (by omega)
    (fun c _ => turnedPanel_reads c) (by omega) (by omega) (turnedPanel_reads ⟨17, 33⟩) 1 _

/-! ### The pen goes up -/

variable {cal : Calib} {a : ℚ} {n : ℤ}

theorem lt_intCast_iff : a < n ↔ a.num < n * a.den := by
  have hden : (0 : ℚ) < a.den := by exact_mod_cast a.den_pos
  conv_lhs => rw [← Rat.num_div_den a, div_lt_iff₀ hden]
  exact_mod_cast Iff.rfl

/-- Rounded towards zero, a number does not get past a positive one. -/
theorem toInt_lt_iff (hn : 0 < n) : toInt a < n ↔ a < n := by
  have hden : (0 : ℤ) < a.den := by exact_mod_cast a.den_pos
  rw [lt_intCast_iff, toInt]
  rcases le_or_gt 0 a.num with hnum | hnum
  · rw [Int.tdiv_eq_ediv_of_nonneg hnum, Int.ediv_lt_iff_lt_mul hden]
  · have hneg : 0 ≤ (-a.num).tdiv a.den := Int.tdiv_nonneg (by omega) hden.le
    rw [Int.neg_tdiv] at hneg
    have hmul : 0 < n * a.den := mul_pos hn hden
    exact iff_of_true (by omega) (by omega)

theorem toInt_neg : toInt (-a) = -toInt a := by
  rw [toInt, toInt, Rat.num_neg_eq_neg_num, Rat.den_neg_eq_den, Int.neg_tdiv]

/-- What is above -1 does not become negative. -/
theorem toInt_nonneg_iff : 0 ≤ toInt a ↔ -1 < a := by
  have h := toInt_lt_iff (a := -a) Int.one_pos
  rw [toInt_neg, Int.cast_one] at h
  constructor
  · intro hnonneg
    linarith [h.mp (by omega)]
  · intro hlt
    have hneg := h.mpr (by linarith)
    omega

/-- Where the calibration takes the raw reading (0, 0), with the factors `kx` and `ky`, is on the
screen. -/
def Calib.OnScreen (cal : Calib) (kx ky : ℚ) : Prop :=
  (-1 < cal.gLcdXc - kx * cal.gTsXc ∧ cal.gLcdXc - kx * cal.gTsXc < cal.xres) ∧
    -1 < cal.gLcdYc - ky * cal.gTsYc ∧ cal.gLcdYc - ky * cal.gTsYc < cal.yres

/-- The factors are finite, and the point to which the calibration takes the raw reading (0, 0) is
on the screen. -/
def Calib.OriginOnScreen (cal : Calib) : Prop :=
  ∃ kx ky, cal.gKx = some kx ∧ cal.gKy = some ky ∧ cal.OnScreen kx ky

/-- The release is read as one. -/
def PassesRelease (cal : Calib) (out : Report) : Prop :=
  ∃ r, tsRead cal ⟨0, 0, 0⟩ out = some (0, r) ∧ r.pressure = 0

/-- Scaling a raw coordinate that is 0. -/
theorem scale_zero (k : ℚ) (m c : ℤ) : k * (0 - m : ℤ) + c = c - k * m := by
  push_cast
  ring

/-- With finite factors, the release is passed on if and only if (0, 0) is taken to a point of the
screen. -/
theorem passesRelease_iff_onScreen {kx ky : ℚ} (hkx : cal.gKx = some kx) (hky : cal.gKy = some ky)
    (hx : 0 < cal.xres) (hy : 0 < cal.yres) (out : Report) :
    PassesRelease cal out ↔ cal.OnScreen kx ky := by
  have hswap : (if cal.gTsXySwap then swapXy ⟨0, 0⟩ else ⟨0, 0⟩) = (⟨0, 0⟩ : Point) := by
    cases cal.gTsXySwap <;> rfl
  have honScreen : cal.OnScreen kx ky ↔
      ¬ (toInt (cal.gLcdXc - kx * cal.gTsXc) < 0 ∨
        toInt (cal.gLcdXc - kx * cal.gTsXc) ≥ cal.xres ∨
        toInt (cal.gLcdYc - ky * cal.gTsYc) < 0 ∨
        toInt (cal.gLcdYc - ky * cal.gTsYc) ≥ cal.yres) := by
    rw [Calib.OnScreen, ← toInt_nonneg_iff, ← toInt_nonneg_iff, ← toInt_lt_iff hx,
      ← toInt_lt_iff hy]
    omega
  rw [PassesRelease, honScreen, tsRead_finite hkx hky]
  simp only [hswap, scale_zero]
  split
  case isTrue hoff =>
    refine iff_of_false ?_ (not_not_intro hoff)
    rintro ⟨r, hret, -⟩
    have hminus : (-1 : ℤ) = 0 := congrArg Prod.fst (Option.some.inj hret)
    omega
  case isFalse hon => exact iff_of_true ⟨_, rfl, rfl⟩ hon

/-- The release is passed on if and only if the factors are finite and the raw reading (0, 0) is a
point of the screen. -/
theorem passesRelease_iff (hx : 0 < cal.xres) (hy : 0 < cal.yres) (out : Report) :
    PassesRelease cal out ↔ cal.OriginOnScreen := by
  constructor
  · rintro ⟨r, hread, hp⟩
    obtain ⟨kx, hkx, hrest⟩ := Option.bind_eq_some_iff.mp hread
    obtain ⟨ky, hky, -⟩ := Option.bind_eq_some_iff.mp hrest
    exact ⟨kx, ky, hkx, hky, (passesRelease_iff_onScreen hkx hky hx hy out).mp ⟨r, hread, hp⟩⟩
  · rintro ⟨kx, ky, hkx, hky, hon⟩
    exact (passesRelease_iff_onScreen hkx hky hx hy out).mpr hon

/-- The point at which a panel reads (0, 0) is on the screen. -/
def Panel.ZeroOnScreen (P : Panel) (xres yres : ℤ) : Prop :=
  (-1 < -P.q / P.p ∧ -P.q / P.p < xres) ∧ -1 < -P.t / P.s ∧ -P.t / P.s < yres

/-- After the calibration of a panel it is that point. -/
theorem originOnScreen_iff (hx : xres ≠ 100) (hy : yres ≠ 100)
    (hget : ∀ c ∈ calibratePoints xres yres, P.Reads c (get c)) :
    (tsCalibrate xres yres get).OriginOnScreen ↔ P.ZeroOnScreen xres yres := by
  obtain ⟨kx, ky, hkx, hky, hscaled⟩ := calibrated_scaled hx hy hget rfl
  obtain ⟨hzeroX, hzeroY⟩ := hscaled ⟨0, 0⟩
  rw [scale_zero, Int.cast_zero, zero_sub] at hzeroX hzeroY
  have hon : (tsCalibrate xres yres get).OnScreen kx ky ↔ P.ZeroOnScreen xres yres := by
    rw [Calib.OnScreen, hzeroX, hzeroY]
    rfl
  rw [← hon]
  constructor
  · rintro ⟨kx', ky', hkx', hky', h⟩
    obtain rfl := Option.some.inj (hkx.symm.trans hkx')
    obtain rfl := Option.some.inj (hky.symm.trans hky')
    exact h
  · exact fun h => ⟨kx, ky, hkx, hky, h⟩

/-- A release is passed on if and only if the scale factors are finite and the calibration takes the
raw reading (0, 0) to a point of the screen; for a calibrated panel, if and only if it reads
(0, 0) at one. -/
theorem release_passed_iff (out : Report) :
    (∀ cal : Calib, 0 < cal.xres → 0 < cal.yres →
      (PassesRelease cal out ↔ cal.OriginOnScreen)) ∧
    ∀ (P : Panel) (xres yres : ℤ) (get : Point → Point), 0 < xres → 0 < yres → xres ≠ 100 →
      yres ≠ 100 → (∀ c ∈ calibratePoints xres yres, P.Reads c (get c)) →
        (PassesRelease (tsCalibrate xres yres get) out ↔ P.ZeroOnScreen xres yres) :=
  ⟨fun _ hx hy => passesRelease_iff hx hy out, fun _ _ _ _ hx hy hx' hy' hget =>
    (passesRelease_iff hx hy out).trans (originOnScreen_iff hx' hy' hget)⟩

/-- The turned panel reads (0, 0) beside the screen, and its releases are dropped. -/
theorem release_passed_turned : ¬ ∀ (P : Panel) (xres yres : ℤ) (get : Point → Point),
    0 < xres → 0 < yres → xres ≠ 100 → yres ≠ 100 →
      (∀ c ∈ calibratePoints xres yres, P.Reads c (get c)) →
        ∀ out, PassesRelease (tsCalibrate xres yres get) out := by
  intro h
  have hpassed := h turnedPanel 480 272 turnedReading (by omega) (by omega) (by omega)
    (by omega) (fun c _ => turnedPanel_reads c) ⟨0, 0, 0⟩
  have hoff := (originOnScreen_iff (P := turnedPanel) (by omega) (by omega)
    fun c _ => turnedPanel_reads c).mp ((passesRelease_iff (by decide) (by decide) _).mp hpassed)
  exact absurd hoff.1.2 (by norm_num [turnedPanel])

end S3c2440.Touch
