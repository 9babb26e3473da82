import S3c2440.Touch.Driver

/-!
# The touchscreen as an input device

`linux_driver/code/Touch_driver/s3c_ts.c`: four conversions, each started by the interrupt of the
one before, make a report of the touch; then the driver waits for the pen to go up, and a timer of
10 ms starts over if it is still down. A pen that has gone up, which the pen interrupt, the timer
and the interrupt of a conversion all look for, is reported as a release.

An interrupt or the timer runs to its end in one step, and gets what the registers read as:
ADCDAT0, and ADCDAT1, as the converter leaves them, and in `adc_irq` ADCDAT0 when it is read again.
The pen interrupt comes only in a mode that waits for it, the interrupt of a conversion once for
each that has been started, and the timer whenever it is pending, at first because it has been
added when the driver was loaded. `overlap` and `log` (the newest event first) are not in the
code.

## What is proved

* `one_at_a_time_iff` — exactly when no conversion is started while another is outstanding, and the
  coordinates are those of one touch: the timer may not run while a conversion is outstanding.
-/

namespace S3c2440.S3cTs

open Theory
open Touch (penUp sampleOf)

/-! ### The driver -/

/-- What has happened. -/
inductive Event where
  /-- `adc_irq` has put a sample into `x` and `y`. -/
  | sample (x y : ℤ)
  /-- A pressure of 0 has been reported, and that nothing touches. -/
  | release
  /-- `ABS_X` and `ABS_Y` have been reported, with a pressure of 1 and a touch. -/
  | coords (x y : ℤ)
  deriving DecidableEq

/-- The driver. -/
structure Ts where
  /-- ADCTSC. -/
  adctsc : BitVec 32
  /-- `ts_timer` is pending. -/
  pending : Bool
  /-- `cnt`. -/
  cnt : ℕ
  /-- `x`. -/
  x : ℕ → ℤ
  /-- `y`. -/
  y : ℕ → ℤ
  /-- The conversions that have been started and whose interrupt has not come. -/
  outstanding : ℕ
  /-- `start_adc` has been called while there was one. -/
  overlap : Bool
  /-- What has happened, the newest first. -/
  log : List Event

variable (s : Ts)

/-- `start_adc`. -/
def startAdc : Ts :=
  { s with outstanding := s.outstanding + 1, overlap := s.overlap || decide (0 < s.outstanding) }

/-- ADCTSC while measuring. -/
def measureXyMode : BitVec 32 := 1#32 <<< 3 ||| 1#32 <<< 2

/-- `enter_measure_xy_mode`. -/
def enterMeasureXyMode : Ts := { s with adctsc := measureXyMode }

/-- `enter_wait_pen_down_mode`. -/
def enterWaitPenDownMode : Ts := { s with adctsc := 0xd3 }

/-- `enter_wait_pen_up_mode`. -/
def enterWaitPenUpMode : Ts := { s with adctsc := 0x1d3 }

/-- The controller waits for the pen. -/
def waiting : Bool := s.adctsc &&& 3 = 3

/-- The release is reported. -/
def reportRelease : Ts := { s with log := .release :: s.log }

/-- A release, or a first conversion. -/
def releaseOrMeasure (adcdat0 : BitVec 32) : Ts :=
  if penUp adcdat0 then enterWaitPenDownMode (reportRelease s)
  else startAdc (enterMeasureXyMode s)

/-- `pen_down_up_irq`. -/
def penDownUpIrq (adcdat0 : BitVec 32) : Ts := releaseOrMeasure s adcdat0

/-- `s3c_ts_tiemr_function`. -/
def s3cTsTiemrFunction (adcdat0 : BitVec 32) : Ts :=
  releaseOrMeasure { s with pending := false } adcdat0

/-- How far sample `i + 2` is from the two before. -/
def det (v : ℕ → ℤ) (i : ℕ) : ℤ :=
  let avr := (v i + v (i + 1)).tdiv 2
  if v (i + 2) > avr then v (i + 2) - avr else avr - v (i + 2)

/-- `s3c_filter_ts`, with `ERR_LIMIT`. -/
def s3cFilterTs (x y : ℕ → ℤ) : Bool :=
  if det x 0 > 10 ∨ det y 0 > 10 then false
  else if det x 1 > 10 ∨ det y 1 > 10 then false
  else true

/-- A quarter of the sum. -/
def average (v : ℕ → ℤ) : ℤ := (v 0 + v 1 + v 2 + v 3).tdiv 4

/-- The coordinates are reported. -/
def reportCoords : Ts := { s with log := .coords (average s.x) (average s.y) :: s.log }

/-- `x[cnt] = adcdat0 & 0x3ff; y[cnt] = adcdat1 & 0x3ff; ++cnt;`. -/
def store (a b : ℤ) : Ts :=
  { s with
    x := Function.update s.x s.cnt a
    y := Function.update s.y s.cnt b
    cnt := s.cnt + 1
    log := .sample a b :: s.log }

/-- `adc_irq`: it takes the conversion, and looks at ADCDAT0 twice. -/
def adcIrq (adcdat0 adcdat1 again : BitVec 32) : Ts :=
  let s := { s with outstanding := s.outstanding - 1 }
  if penUp again then enterWaitPenDownMode { reportRelease s with cnt := 0 }
  else
    let s := store s (sampleOf adcdat0) (sampleOf adcdat1)
    if s.cnt = 4 then
      let s := if s3cFilterTs s.x s.y then reportCoords s else s
      { enterWaitPenUpMode { s with cnt := 0 } with pending := true }
    else startAdc (enterMeasureXyMode s)

/-- `s3c_ts_init`. -/
def s3cTsInit : Ts := ⟨0xd3, true, 0, fun _ => 0, fun _ => 0, 0, false, []⟩

/-- What can happen, with what the registers read as. -/
inductive Act where
  /-- The pen interrupt. -/
  | pen (adcdat0 : BitVec 32)
  /-- The interrupt of a conversion. -/
  | adc (adcdat0 adcdat1 again : BitVec 32)
  /-- The timer runs. -/
  | timer (adcdat0 : BitVec 32)
  deriving DecidableEq

/-- One step. -/
def step (s : Ts) : Act → Option Ts
  | .pen adcdat0 => if waiting s then some (penDownUpIrq s adcdat0) else none
  | .adc adcdat0 adcdat1 again =>
    if 0 < s.outstanding then some (adcIrq s adcdat0 adcdat1 again) else none
  | .timer adcdat0 => if s.pending then some (s3cTsTiemrFunction s adcdat0) else none

/-! ### One conversion at a time -/

/-- The four newest events are samples, and the coordinates are their averages. -/
def Averaged (x y : ℤ) (log : List Event) : Prop :=
  ∃ (xs ys : ℕ → ℤ) (rest : List Event),
    log = .sample (xs 3) (ys 3) :: .sample (xs 2) (ys 2) :: .sample (xs 1) (ys 1) ::
      .sample (xs 0) (ys 0) :: rest ∧ x = average xs ∧ y = average ys

/-- All coordinates that have been reported are the averages of the four samples just before, with
no release among these. -/
def Genuine (log : List Event) : Prop :=
  ∀ later x y earlier, log = later ++ .coords x y :: earlier → Averaged x y earlier

/-- No conversion has been started while another was outstanding, and the coordinates are those
of one touch. -/
structure OneAtATime (s : Ts) : Prop where
  /-- The conversions. -/
  overlap : s.overlap = false
  /-- The coordinates. -/
  coords : Genuine s.log

/-- The timer does not run while a conversion is outstanding. -/
def TimerApart (s : Ts) (a : Act) : Prop :=
  ∀ adcdat0, a = .timer adcdat0 → s.pending = true → s.outstanding = 0

/-- A pen interrupt. -/
def PenMoves (_ : Ts) (a : Act) : Prop := ∃ adcdat0, a = .pen adcdat0

/-- The newest `n` events, if they are the samples in `x` and `y`. -/
def recent (x y : ℕ → ℤ) : ℕ → List Event
  | 0 => []
  | n + 1 => .sample (x n) (y n) :: recent x y n

/-- What a run keeps whose timer does not run there. -/
structure Inv (s : Ts) : Prop where
  /-- One conversion at most, and then the controller measures. -/
  one : s.outstanding = 0 ∧ s.cnt = 0 ∨ s.outstanding = 1 ∧ s.adctsc = measureXyMode
  /-- The fourth sample is taken out at once. -/
  cnt : s.cnt < 4
  /-- The samples there are have come one after another. -/
  samples : ∃ rest, s.log = recent s.x s.y s.cnt ++ rest
  /-- Nothing has gone wrong. -/
  sound : OneAtATime s

section Steps

variable {s t : Ts} {a : Act}

theorem genuine_cons_of_ne {e : Event} {log : List Event} (h : Genuine log)
    (he : ∀ x y, e ≠ .coords x y) : Genuine (e :: log) := by
  intro later x y earlier hlog
  cases later with
  | nil => exact absurd (List.cons.inj hlog).1 (he x y)
  | cons d later => exact h later x y earlier (List.cons.inj hlog).2

theorem genuine_cons {x y : ℤ} {log : List Event} (h : Genuine log) (ha : Averaged x y log) :
    Genuine (.coords x y :: log) := by
  intro later x' y' earlier hlog
  cases later with
  | nil =>
    obtain ⟨he, rfl⟩ := List.cons.inj hlog
    cases he
    exact ha
  | cons d later => exact h later x' y' earlier (List.cons.inj hlog).2

/-- A sample that is stored is the newest. -/
theorem recent_update {x y : ℕ → ℤ} {a b : ℤ} {m n : ℕ} (h : n ≤ m) :
    recent (Function.update x m a) (Function.update y m b) n = recent x y n := by
  induction n with
  | zero => rfl
  | succ n ih =>
    have hne : n ≠ m := Nat.ne_of_lt h
    simp [recent, hne, ih (Nat.le_of_lt h)]

theorem store_log {a b : ℤ} {rest : List Event} (h : s.log = recent s.x s.y s.cnt ++ rest) :
    (store s a b).log =
      recent (store s a b).x (store s a b).y (store s a b).cnt ++ rest := by
  simp [store, recent, recent_update, h]

/-- Four samples make coordinates. -/
theorem averaged_of_recent {x y : ℕ → ℤ} {log rest : List Event}
    (h : log = recent x y 4 ++ rest) : Averaged (average x) (average y) log :=
  ⟨x, y, rest, h, rfl, rfl⟩

theorem inv_init : Inv s3cTsInit where
  one := .inl ⟨rfl, rfl⟩
  cnt := by simp [s3cTsInit]
  samples := ⟨[], rfl⟩
  sound := ⟨rfl, fun later _ _ _ h => absurd h.symm (by simp [s3cTsInit])⟩

/-- With no conversion outstanding a first one may be started. -/
theorem Inv.releaseOrMeasure (h : Inv s) (hout : s.outstanding = 0) (adcdat0 : BitVec 32) :
    Inv (releaseOrMeasure s adcdat0) := by
  have hcnt : s.cnt = 0 := by
    rcases h.one with ⟨-, hcnt⟩ | ⟨hone, -⟩
    · exact hcnt
    · rw [hout] at hone
      cases hone
  unfold S3cTs.releaseOrMeasure
  split
  · refine ⟨.inl ⟨hout, hcnt⟩, h.cnt, ⟨.release :: s.log, ?_⟩, h.sound.overlap, ?_⟩
    · simp [enterWaitPenDownMode, reportRelease, hcnt, recent]
    · exact genuine_cons_of_ne h.sound.coords fun _ _ => by simp
  · refine ⟨.inr ⟨?_, rfl⟩, h.cnt, h.samples, ?_, h.sound.coords⟩
    · simp [startAdc, enterMeasureXyMode, hout]
    · simp [startAdc, enterMeasureXyMode, hout, h.sound.overlap]

/-- The interrupt of the only conversion. -/
theorem Inv.adcIrq (h : Inv s) (hout : 0 < s.outstanding) (adcdat0 adcdat1 again : BitVec 32) :
    Inv (adcIrq s adcdat0 adcdat1 again) := by
  have hone : s.outstanding - 1 = 0 := by
    rcases h.one with ⟨hzero, -⟩ | ⟨hone, -⟩ <;> omega
  unfold S3cTs.adcIrq
  split
  · exact ⟨.inl ⟨hone, rfl⟩, by simp [enterWaitPenDownMode], ⟨_, rfl⟩, h.sound.overlap,
      genuine_cons_of_ne h.sound.coords fun _ _ => by simp⟩
  · obtain ⟨rest, hrest⟩ := h.samples
    have hlog := store_log (s := { s with outstanding := s.outstanding - 1 })
      (a := sampleOf adcdat0) (b := sampleOf adcdat1) hrest
    have hgen : Genuine (store { s with outstanding := s.outstanding - 1 } (sampleOf adcdat0)
        (sampleOf adcdat1)).log := genuine_cons_of_ne h.sound.coords fun _ _ => by simp
    simp only
    split
    case isTrue hfour =>
      rw [hfour] at hlog
      split
      · exact ⟨.inl ⟨hone, rfl⟩, by simp [enterWaitPenUpMode], ⟨_, rfl⟩, h.sound.overlap,
          genuine_cons hgen (averaged_of_recent hlog)⟩
      · exact ⟨.inl ⟨hone, rfl⟩, by simp [enterWaitPenUpMode], ⟨_, rfl⟩, h.sound.overlap, hgen⟩
    case isFalse hfour =>
      refine ⟨.inr ⟨?_, rfl⟩, ?_, ⟨rest, hlog⟩, ?_, hgen⟩
      · simp [startAdc, enterMeasureXyMode, store, hone]
      · have hlt := h.cnt
        simp only [store] at hfour
        simp only [startAdc, enterMeasureXyMode, store]
        omega
      · simp [startAdc, enterMeasureXyMode, store, hone, h.sound.overlap]

theorem Inv.step (h : Inv s) (ha : TimerApart s a) (ht : step s a = some t) : Inv t := by
  cases a with
  | pen adcdat0 =>
    simp only [S3cTs.step, Option.ite_none_right_eq_some, Option.some.injEq] at ht
    obtain ⟨hwait, rfl⟩ := ht
    refine h.releaseOrMeasure ?_ adcdat0
    rcases h.one with ⟨hzero, -⟩ | ⟨-, hmode⟩
    · exact hzero
    · simp [waiting, hmode, measureXyMode] at hwait
  | adc adcdat0 adcdat1 again =>
    simp only [S3cTs.step, Option.ite_none_right_eq_some, Option.some.injEq] at ht
    obtain ⟨hout, rfl⟩ := ht
    exact h.adcIrq hout adcdat0 adcdat1 again
  | timer adcdat0 =>
    simp only [S3cTs.step, Option.ite_none_right_eq_some, Option.some.injEq] at ht
    obtain ⟨hpending, rfl⟩ := ht
    have hs : Inv { s with pending := false } := ⟨h.one, h.cnt, h.samples, h.sound.overlap, h.sound.coords⟩
    exact hs.releaseOrMeasure (ha adcdat0 rfl hpending) adcdat0

theorem overlap_startAdc (h : 0 < s.outstanding) : (startAdc s).overlap = true := by
  simp [startAdc, h]

/-- The timer runs while a conversion is outstanding: either it starts another one itself, or it
waits for the pen, and the next pen interrupt does. -/
theorem timer_lost (hout : s.outstanding ≠ 0) (adcdat0 : BitVec 32) :
    ∃ ds u, Along step PenMoves (s3cTsTiemrFunction s adcdat0) ds ∧
      run step (s3cTsTiemrFunction s adcdat0) ds = some u ∧ ¬ OneAtATime u := by
  have hpos : 0 < s.outstanding := Nat.pos_of_ne_zero hout
  by_cases hpen : penUp adcdat0 = true
  · have hstep : step (s3cTsTiemrFunction s adcdat0) (.pen 0) =
        some (penDownUpIrq (s3cTsTiemrFunction s adcdat0) 0) := by
      refine if_pos ?_
      simp [s3cTsTiemrFunction, releaseOrMeasure, hpen, waiting, enterWaitPenDownMode]
    refine ⟨[.pen 0], _, ⟨⟨0, rfl⟩, fun _ _ => trivial⟩, run_cons.mpr ⟨_, hstep, rfl⟩, fun h => ?_⟩
    have hover : (penDownUpIrq (s3cTsTiemrFunction s adcdat0) 0).overlap = true := by
      refine overlap_startAdc ?_
      simpa [s3cTsTiemrFunction, releaseOrMeasure, hpen, enterMeasureXyMode, enterWaitPenDownMode,
        reportRelease] using hpos
    rw [h.overlap] at hover
    cases hover
  · refine ⟨[], _, trivial, rfl, fun h => ?_⟩
    have hover : (s3cTsTiemrFunction s adcdat0).overlap = true := by
      simp [s3cTsTiemrFunction, releaseOrMeasure, hpen, startAdc, enterMeasureXyMode, hpos]
    rw [h.overlap] at hover
    cases hover

end Steps

/-- No conversion is started while another is outstanding, and the coordinates are those of one
touch, wherever a run, broken off at any point, may go on to by pen interrupts, exactly if the
timer does not run in it while a conversion is outstanding. -/
theorem one_at_a_time_iff (as : List Act) :
    Along step TimerApart s3cTsInit as ↔
      ∀ bs cs ds s t, as = bs ++ cs → run step s3cTsInit bs = some s →
        Along step PenMoves s ds → run step s ds = some t → OneAtATime t := by
  have hpen : ∀ s a, PenMoves s a → TimerApart s a := by
    intro s a ha adcdat0 htimer
    obtain ⟨d, rfl⟩ := ha
    cases htimer
  refine along_iff_of_breach inv_init (fun _ _ _ _ h ha ht => h.step ha ht) (fun _ h => h.sound)
    hpen (fun s a _ ha => ?_) as
  obtain ⟨adcdat0, rfl, hpending, hout⟩ : ∃ adcdat0, a = .timer adcdat0 ∧ s.pending = true ∧
      s.outstanding ≠ 0 := by
    simpa only [TimerApart, not_forall, exists_prop] using ha
  exact ⟨_, if_pos hpending, timer_lost hout adcdat0⟩

/-- The timer of a touch runs during the next one, with the pen just up: it reports a release after
the first sample, the pen comes down again, and the samples of both make coordinates. -/
theorem one_at_a_time_mixed :
    ∃ s, run step s3cTsInit [.timer 0x8000, .pen 0, .adc 0 0 0, .adc 0 0 0, .adc 0 0 0, .adc 0 0 0,
        .pen 0x8000, .pen 0, .adc 0 0 0, .timer 0x8000, .pen 0, .adc 0 0 0, .adc 0 0 0,
        .adc 0 0 0] = some s ∧ s.overlap = true ∧ ¬ Genuine s.log := by
  refine ⟨_, rfl, rfl, fun h => ?_⟩
  obtain ⟨xs, ys, rest, hlog, -, -⟩ := h [] 0 0 [.sample 0 0, .sample 0 0, .sample 0 0, .release,
    .sample 0 0, .release, .coords 0 0, .sample 0 0, .sample 0 0, .sample 0 0, .sample 0 0,
    .release] rfl
  simp at hlog

end S3c2440.S3cTs
