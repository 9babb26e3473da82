import S3c2440.Theory.Runs
import Mathlib.Data.Int.Basic
import Mathlib.Logic.Function.Basic

/-!
# The touchscreen driver

`bare_board/code/I2c/20200510_IIC/adc_touchscreen/touchscreen.c`: three interrupts (pen down or
up, a conversion that is over, a timer) measure where the pen is and put the result into
a mailbox of one report (`report_ts_xy`), which the program empties (`ts_read_raw`).

## The model

An interrupt runs to its end in one step, and gets what the registers read as: the value of
ADCDAT0 each time it is read, and of ADCDAT1. The program's `ts_read_raw` takes one
assignment a step, so the interrupts may come between them; its waiting loop can be left
only when there is a report. `outstanding` counts the conversions that have been
started and whose interrupt has not come.

`log` (the newest event first) and `handed` are not in the code: they keep the samples,
the resets of the accumulators, the reports and the presses, and the reports the
program has been given. A store beyond the test arrays has no result.
-/

namespace S3c2440.Touch

open Theory

/-! ### Registers -/

/-- `WAIT_PEN_DOWN`. -/
def waitPenDown : BitVec 32 := 0#32 <<< 8

/-- `WAIT_PEN_UP`. -/
def waitPenUp : BitVec 32 := 1#32 <<< 8

/-- `YM_ENABLE`. -/
def ymEnable : BitVec 32 := 1#32 <<< 7

/-- `YP_DISABLE`. -/
def ypDisable : BitVec 32 := 1#32 <<< 6

/-- `XM_DISABLE`. -/
def xmDisable : BitVec 32 := 0#32 <<< 5

/-- `XP_DISABLE`. -/
def xpDisable : BitVec 32 := 1#32 <<< 4

/-- `PULLUP_ENABLE`. -/
def pullupEnable : BitVec 32 := 0#32 <<< 3

/-- `AUTO_PST`. -/
def autoPst : BitVec 32 := 1#32 <<< 2

/-- `WAIT_INT_MODE`. -/
def waitIntMode : BitVec 32 := 3

/-- `NO_OPR_MODE`. -/
def noOprMode : BitVec 32 := 0

/-- ADCTSC while waiting for the pen to come down. -/
def penDownMode : BitVec 32 :=
  waitPenDown ||| pullupEnable ||| ymEnable ||| ypDisable ||| xpDisable ||| xmDisable |||
    waitIntMode

/-- ADCTSC while waiting for the pen to go up. -/
def penUpMode : BitVec 32 :=
  waitPenUp ||| pullupEnable ||| ymEnable ||| ypDisable ||| xpDisable ||| xmDisable |||
    waitIntMode

/-- ADCTSC while measuring. -/
def autoMode : BitVec 32 := autoPst ||| noOprMode

/-- The pen is up, by a value of ADCDAT0. -/
def penUp (adcdat0 : BitVec 32) : Bool := adcdat0 &&& 1#32 <<< 15 ≠ 0

/-- `x & 0x3ff`. -/
def sampleOf (x : BitVec 32) : ℤ := (x &&& 0x3ff).toNat

/-! ### State -/

/-- A report. -/
structure Report where
  /-- `x`. -/
  x : ℤ
  /-- `y`. -/
  y : ℤ
  /-- 1 with the pen down, 0 for a release. -/
  pressure : ℤ
  deriving DecidableEq

/-- What has happened. -/
inductive Event where
  /-- The pen has come down on a driver at rest. -/
  | press
  /-- A sample has been added up. -/
  | sample (x y : ℤ)
  /-- The accumulators have been set back. -/
  | reset
  /-- `report_ts_xy` has been called. -/
  | report (r : Report)
  deriving DecidableEq

/-- Where the program is in `ts_read_raw`. -/
inductive ReaderPc where
  /-- `while (g_ts_data_valid == 0);`. -/
  | wait
  /-- `*px = g_ts_x;`. -/
  | readX
  /-- `*py = g_ts_y;`. -/
  | readY (x : ℤ)
  /-- `*ppressure = g_ts_pressure;`. -/
  | readPressure (x y : ℤ)
  /-- `g_ts_data_valid = 0;`. -/
  | clear (r : Report)

/-- The driver. -/
structure Ts where
  /-- ADCTSC. -/
  adctsc : BitVec 32
  /-- The conversions that are not over. -/
  outstanding : ℕ
  /-- `g_ts_timer_enable`. -/
  gTsTimerEnable : ℤ
  /-- `g_ts_x`. -/
  gTsX : ℤ
  /-- `g_ts_y`. -/
  gTsY : ℤ
  /-- `g_ts_pressure`. -/
  gTsPressure : ℤ
  /-- `g_ts_data_valid`. -/
  gTsDataValid : ℤ
  /-- `test_x_array`. -/
  testXArray : Fin 16 → ℤ
  /-- `test_y_array`. -/
  testYArray : Fin 16 → ℤ
  /-- `adc_cnt`. -/
  adcCnt : ℤ
  /-- `adc_x`. -/
  adcX : ℤ
  /-- `adc_y`. -/
  adcY : ℤ
  /-- Where the program is. -/
  reader : ReaderPc
  /-- What has happened, the newest first. -/
  log : List Event
  /-- What the program has been given, the newest first. -/
  handed : List Report

/-! ### The interrupts -/

variable (s : Ts)

/-- `enter_wait_pen_down_mode`. -/
def enterWaitPenDownMode : Ts := { s with adctsc := penDownMode }

/-- `enter_wait_pen_up_mode`. -/
def enterWaitPenUpMode : Ts := { s with adctsc := penUpMode }

/-- `enter_auto_measure_mode`. -/
def enterAutoMeasureMode : Ts := { s with adctsc := autoMode }

/-- `is_in_auto_mode`. -/
def isInAutoMode : Bool := s.adctsc &&& autoPst ≠ 0

/-- `ADCCON |= (1<<0);`. -/
def startAdc : Ts := { s with outstanding := s.outstanding + 1 }

/-- `ts_timer_enable`. -/
def tsTimerEnable : Ts := { s with gTsTimerEnable := 1 }

/-- `ts_timer_disable`. -/
def tsTimerDisable : Ts := { s with gTsTimerEnable := 0 }

/-- `report_ts_xy`. -/
def reportTsXy (x y pressure : ℤ) : Ts :=
  if s.gTsDataValid = 0 then
    { s with
      gTsX := x, gTsY := y, gTsPressure := pressure, gTsDataValid := 1
      log := .report ⟨x, y, pressure⟩ :: s.log }
  else { s with log := .report ⟨x, y, pressure⟩ :: s.log }

/-- `Isr_Tc`. -/
def isrTc (adcdat0 : BitVec 32) : Ts :=
  if penUp adcdat0 then reportTsXy (enterWaitPenDownMode s) 0 0 0
  else startAdc (enterAutoMeasureMode s)

/-- `touchscreen_timer_irq`. -/
def touchscreenTimerIrq (adcdat0 : BitVec 32) : Ts :=
  if s.gTsTimerEnable = 0 then s
  else if isInAutoMode s then s
  else if penUp adcdat0 then reportTsXy (enterWaitPenDownMode (tsTimerDisable s)) 0 0 0
  else startAdc (enterAutoMeasureMode s)

/-- `adc_cnt = 0; adc_x = 0; adc_y = 0;`. -/
def resetAdc : Ts := { s with adcCnt := 0, adcX := 0, adcY := 0, log := .reset :: s.log }

/-- `adc_x += x; adc_y += y;`. -/
def addSample (x y : ℤ) : Ts :=
  { s with adcX := s.adcX + x, adcY := s.adcY + y, log := .sample x y :: s.log }

/-- `test_x_array[adc_cnt] = x; test_y_array[adc_cnt] = y;`. -/
def storeTest (x y : ℤ) : Option Ts :=
  if h : 0 ≤ s.adcCnt ∧ s.adcCnt < 16 then
    let i : Fin 16 := ⟨s.adcCnt.toNat, by omega⟩
    some { s with
      testXArray := Function.update s.testXArray i x
      testYArray := Function.update s.testYArray i y }
  else none

/-- `Isr_Adc`; `pen` is the second read of ADCDAT0. -/
def isrAdc (adcdat0 adcdat1 pen : BitVec 32) : Option Ts :=
  let x := sampleOf adcdat0
  let y := sampleOf adcdat1
  let s := enterWaitPenUpMode s
  if penUp pen then
    let s := resetAdc s
    let s := enterWaitPenDownMode (tsTimerDisable s)
    some (reportTsXy s 0 0 0)
  else
    (storeTest (addSample s x y) x y).map fun s =>
      let s := { s with adcCnt := s.adcCnt + 1 }
      if s.adcCnt = 16 then
        let s := { s with adcX := s.adcX >>> (4 : ℕ), adcY := s.adcY >>> (4 : ℕ) }
        let s := reportTsXy s s.adcX s.adcY 1
        let s := resetAdc s
        tsTimerEnable (enterWaitPenUpMode s)
      else startAdc (enterAutoMeasureMode s)

/-! ### The program -/

/-- One step of `ts_read_raw`, which is called again when it has returned. -/
def tsReadRaw : Option Ts :=
  match s.reader with
  | .wait => if s.gTsDataValid = 0 then none else some { s with reader := .readX }
  | .readX => some { s with reader := .readY s.gTsX }
  | .readY x => some { s with reader := .readPressure x s.gTsY }
  | .readPressure x y => some { s with reader := .clear ⟨x, y, s.gTsPressure⟩ }
  | .clear r => some { s with reader := .wait, gTsDataValid := 0, handed := r :: s.handed }

/-! ### Steps -/

/-- The driver after `touchscreen_init`. -/
def touchscreenInit : Ts where
  adctsc := penDownMode
  outstanding := 0
  gTsTimerEnable := 0
  gTsX := 0
  gTsY := 0
  gTsPressure := 0
  gTsDataValid := 0
  testXArray := fun _ => 0
  testYArray := fun _ => 0
  adcCnt := 0
  adcX := 0
  adcY := 0
  reader := .wait
  log := []
  handed := []

/-- The driver is back to waiting for the pen to come down, and neither a conversion nor the
timer will report anything. -/
def Ts.AtRest (s : Ts) : Prop :=
  s.adctsc = penDownMode ∧ s.outstanding = 0 ∧ s.gTsTimerEnable = 0

instance : Decidable s.AtRest := inferInstanceAs (Decidable (_ ∧ _ ∧ _))

/-- What may happen next. -/
inductive Act where
  /-- `Isr_Tc`. -/
  | isrTc (adcdat0 : BitVec 32)
  /-- `Isr_Adc`. -/
  | isrAdc (adcdat0 adcdat1 pen : BitVec 32)
  /-- `touchscreen_timer_irq`. -/
  | tick (adcdat0 : BitVec 32)
  /-- The program's next assignment. -/
  | read

/-- A press is noted if the pen comes down on a driver at rest. -/
def notePress (adcdat0 : BitVec 32) : Ts :=
  if s.AtRest ∧ penUp adcdat0 = false then { s with log := .press :: s.log } else s

/-- One step. The pen interrupts only in wait-for-interrupt mode, a conversion once. -/
def step (s : Ts) : Act → Option Ts
  | .isrTc adcdat0 =>
    if s.adctsc &&& waitIntMode = waitIntMode then some (isrTc (notePress s adcdat0) adcdat0)
    else none
  | .isrAdc adcdat0 adcdat1 pen =>
    if s.outstanding = 0 then none
    else isrAdc { s with outstanding := s.outstanding - 1 } adcdat0 adcdat1 pen
  | .tick adcdat0 => some (touchscreenTimerIrq s adcdat0)
  | .read => tsReadRaw s

theorem autoMode_ne_penDownMode : autoMode ≠ penDownMode := by decide

theorem penUpMode_ne_penDownMode : penUpMode ≠ penDownMode := by decide

/-! ### What a report leaves alone -/

section Report

variable (x y pressure : ℤ)

@[simp] theorem reportTsXy_adctsc : (reportTsXy s x y pressure).adctsc = s.adctsc := by
  unfold reportTsXy; split <;> rfl

@[simp] theorem reportTsXy_outstanding :
    (reportTsXy s x y pressure).outstanding = s.outstanding := by
  unfold reportTsXy; split <;> rfl

@[simp] theorem reportTsXy_timer :
    (reportTsXy s x y pressure).gTsTimerEnable = s.gTsTimerEnable := by
  unfold reportTsXy; split <;> rfl

@[simp] theorem reportTsXy_adcCnt : (reportTsXy s x y pressure).adcCnt = s.adcCnt := by
  unfold reportTsXy; split <;> rfl

@[simp] theorem reportTsXy_adcX : (reportTsXy s x y pressure).adcX = s.adcX := by
  unfold reportTsXy; split <;> rfl

@[simp] theorem reportTsXy_adcY : (reportTsXy s x y pressure).adcY = s.adcY := by
  unfold reportTsXy; split <;> rfl

@[simp] theorem reportTsXy_reader : (reportTsXy s x y pressure).reader = s.reader := by
  unfold reportTsXy; split <;> rfl

@[simp] theorem reportTsXy_handed : (reportTsXy s x y pressure).handed = s.handed := by
  unfold reportTsXy; split <;> rfl

@[simp] theorem reportTsXy_log :
    (reportTsXy s x y pressure).log = .report ⟨x, y, pressure⟩ :: s.log := by
  unfold reportTsXy; split <;> rfl

/-- A report is accepted by an empty mailbox. -/
theorem reportTsXy_of_empty (h : s.gTsDataValid = 0) :
    (reportTsXy s x y pressure).gTsDataValid = 1 ∧
      (reportTsXy s x y pressure).gTsPressure = pressure := by
  unfold reportTsXy
  rw [if_pos h]
  exact ⟨rfl, rfl⟩

/-- And dropped by a full one. -/
theorem reportTsXy_of_full (h : s.gTsDataValid ≠ 0) :
    (reportTsXy s x y pressure).gTsDataValid = s.gTsDataValid ∧
      (reportTsXy s x y pressure).gTsPressure = s.gTsPressure := by
  unfold reportTsXy
  rw [if_neg h]
  exact ⟨rfl, rfl⟩

end Report

/-! ### What a step can do -/

/-- The driver with a sample added up and stored, in `Isr_Adc`. -/
def afterSample (x y : ℤ) (u : Ts) : Prop :=
  storeTest (addSample (enterWaitPenUpMode { s with outstanding := s.outstanding - 1 }) x y) x y =
    some u

/-- Every step. -/
inductive Moves (s : Ts) : Act → Ts → Prop where
  | tcUp {d : BitVec 32} (hwait : s.adctsc &&& waitIntMode = waitIntMode)
      (hpen : penUp d = true) :
      Moves s (.isrTc d) (reportTsXy (enterWaitPenDownMode s) 0 0 0)
  | tcDown {d : BitVec 32} (hwait : s.adctsc &&& waitIntMode = waitIntMode)
      (hpen : penUp d = false) :
      Moves s (.isrTc d) (startAdc (enterAutoMeasureMode (notePress s d)))
  | tickOff {d : BitVec 32} : Moves s (.tick d) s
  | tickUp {d : BitVec 32} (ht : s.gTsTimerEnable ≠ 0) (hauto : isInAutoMode s = false)
      (hpen : penUp d = true) :
      Moves s (.tick d) (reportTsXy (enterWaitPenDownMode (tsTimerDisable s)) 0 0 0)
  | tickDown {d : BitVec 32} (ht : s.gTsTimerEnable ≠ 0) (hauto : isInAutoMode s = false) :
      Moves s (.tick d) (startAdc (enterAutoMeasureMode s))
  | adcUp {d₀ d₁ pen : BitVec 32} (hpen : penUp pen = true) (ho : s.outstanding ≠ 0) :
      Moves s (.isrAdc d₀ d₁ pen) (reportTsXy (enterWaitPenDownMode (tsTimerDisable (resetAdc
        (enterWaitPenUpMode { s with outstanding := s.outstanding - 1 })))) 0 0 0)
  | adcMore {d₀ d₁ pen : BitVec 32} {u : Ts} (ho : s.outstanding ≠ 0)
      (hu : afterSample s (sampleOf d₀) (sampleOf d₁) u) (hcnt : u.adcCnt + 1 ≠ 16) :
      Moves s (.isrAdc d₀ d₁ pen)
        (startAdc (enterAutoMeasureMode { u with adcCnt := u.adcCnt + 1 }))
  | adcLast {d₀ d₁ pen : BitVec 32} {u : Ts} (ho : s.outstanding ≠ 0)
      (hu : afterSample s (sampleOf d₀) (sampleOf d₁) u) (hcnt : u.adcCnt + 1 = 16) :
      Moves s (.isrAdc d₀ d₁ pen) (tsTimerEnable (enterWaitPenUpMode (resetAdc
        (reportTsXy
          { u with
            adcCnt := u.adcCnt + 1, adcX := u.adcX >>> (4 : ℕ), adcY := u.adcY >>> (4 : ℕ) }
          (u.adcX >>> (4 : ℕ)) (u.adcY >>> (4 : ℕ)) 1))))
  | read {t : Ts} (h : tsReadRaw s = some t) : Moves s .read t

variable {s}

/-- The inversion lemma: a step is one of the moves. -/
theorem moves_of_step {a : Act} {t : Ts} (h : step s a = some t) : Moves s a t := by
  cases a with
  | isrTc d =>
    simp only [step] at h
    split at h
    case isTrue hwait =>
      cases h
      unfold isrTc
      split
      case isTrue hpen =>
        rw [notePress, if_neg fun hp => by simp [hpen] at hp]
        exact .tcUp hwait hpen
      case isFalse hpen => exact .tcDown hwait (Bool.not_eq_true _ ▸ hpen)
    case isFalse => cases h
  | isrAdc d₀ d₁ pen =>
    simp only [step] at h
    split at h
    case isTrue => cases h
    case isFalse ho =>
      simp only [isrAdc] at h
      split at h
      case isTrue hpen => cases h; exact .adcUp hpen ho
      case isFalse hpen =>
        obtain ⟨u, hu, rfl⟩ := Option.map_eq_some_iff.mp h
        split
        case isTrue hcnt => exact .adcLast ho hu hcnt
        case isFalse hcnt => exact .adcMore ho hu hcnt
  | tick d =>
    simp only [step, touchscreenTimerIrq] at h
    split at h
    case isTrue => cases h; exact .tickOff
    case isFalse ht =>
      split at h
      case isTrue => cases h; exact .tickOff
      case isFalse hauto =>
        split at h
        case isTrue hpen => cases h; exact .tickUp ht (Bool.not_eq_true _ ▸ hauto) hpen
        case isFalse => cases h; exact .tickDown ht (Bool.not_eq_true _ ▸ hauto)
  | read => exact .read h

/-- A sample is stored within the test arrays, and what is measured goes where it belongs. -/
theorem afterSample_iff {x y : ℤ} {u : Ts} : afterSample s x y u ↔
    ∃ h : 0 ≤ s.adcCnt ∧ s.adcCnt < 16, u = { s with
      adctsc := penUpMode
      outstanding := s.outstanding - 1
      adcX := s.adcX + x
      adcY := s.adcY + y
      testXArray := Function.update s.testXArray ⟨s.adcCnt.toNat, by omega⟩ x
      testYArray := Function.update s.testYArray ⟨s.adcCnt.toNat, by omega⟩ y
      log := .sample x y :: s.log } := by
  unfold afterSample storeTest
  split
  case isTrue h =>
    have hs : 0 ≤ s.adcCnt ∧ s.adcCnt < 16 := h
    constructor
    · exact fun hu => ⟨hs, (Option.some.inj hu).symm⟩
    · rintro ⟨-, rfl⟩
      rfl
  case isFalse h =>
    constructor
    · exact fun hu => nomatch hu
    · rintro ⟨hs, -⟩
      exact absurd hs h

/-- The program touches the mailbox's flag and what it has itself, and nothing else. -/
theorem tsReadRaw_frame {t : Ts} (h : tsReadRaw s = some t) :
    ∃ r v l, t = { s with reader := r, gTsDataValid := v, handed := l } := by
  unfold tsReadRaw at h
  split at h
  case h_1 hr =>
    split at h
    case isTrue => cases h
    case isFalse => exact ⟨_, _, _, (Option.some.inj h).symm⟩
  all_goals exact ⟨_, _, _, (Option.some.inj h).symm⟩

/-- The mailbox, the program and what it has been given are the same. -/
structure SameMailbox (s u : Ts) : Prop where
  /-- `g_ts_data_valid`. -/
  valid : u.gTsDataValid = s.gTsDataValid
  /-- `g_ts_pressure`. -/
  pressure : u.gTsPressure = s.gTsPressure
  /-- Where the program is. -/
  reader : u.reader = s.reader
  /-- What it has been given. -/
  handed : u.handed = s.handed

/-- A press is noted only on a driver at rest. -/
theorem notePress_eq (d : BitVec 32) : notePress s d = s ∨
    s.AtRest ∧ notePress s d = { s with log := .press :: s.log } := by
  unfold notePress
  split
  case isTrue h => exact .inr ⟨h.1, rfl⟩
  case isFalse => exact .inl rfl

section Sample

variable {x y : ℤ} {u : Ts}

theorem afterSample_adctsc (h : afterSample s x y u) : u.adctsc = penUpMode := by
  obtain ⟨-, rfl⟩ := afterSample_iff.mp h
  rfl

theorem afterSample_outstanding (h : afterSample s x y u) :
    u.outstanding = s.outstanding - 1 := by
  obtain ⟨-, rfl⟩ := afterSample_iff.mp h
  rfl

theorem afterSample_log (h : afterSample s x y u) : u.log = .sample x y :: s.log := by
  obtain ⟨-, rfl⟩ := afterSample_iff.mp h
  rfl

theorem afterSample_mailbox (h : afterSample s x y u) : SameMailbox s u := by
  obtain ⟨-, rfl⟩ := afterSample_iff.mp h
  exact ⟨rfl, rfl, rfl, rfl⟩

end Sample

end S3c2440.Touch
