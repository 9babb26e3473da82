import S3c2440.Touch.Driver

/-!
# The timer of the touchscreen driver

The timer takes further samples while the pen is down, so it should be off when the driver
waits for the pen to come down. `touchscreen_timer_irq` and `Isr_Adc` turn it off before
they go back to that mode; `Isr_Tc` does not.

## What is proved

* `Disarmed.step` — a step after which the driver waits for the pen finds the timer off, or
  turns it off, unless it is an `Isr_Tc` with the pen up.
* `timer_off_iff` — exactly when the timer is off throughout a run: every `Isr_Tc` with the
  pen up must find it off. `timer_left_on` is a run in which one does not.
-/

namespace S3c2440.Touch

open Theory

variable {s t : Ts} {a : Act}

/-- While the driver waits for the pen to come down the timer is off, and a tick neither reports
anything nor starts a conversion. -/
def Disarmed (s : Ts) : Prop :=
  s.adctsc = penDownMode →
    s.gTsTimerEnable = 0 ∧ ∀ adcdat0, touchscreenTimerIrq s adcdat0 = s

/-- An `Isr_Tc` with the pen up finds the timer off. -/
def TimerOffAtTcUp (s : Ts) : Act → Prop
  | .isrTc adcdat0 =>
    s.adctsc &&& waitIntMode = waitIntMode → penUp adcdat0 = true → s.gTsTimerEnable = 0
  | _ => True

theorem disarmed_of_off (h : s.gTsTimerEnable = 0) : Disarmed s := fun _ => ⟨h, fun _ => if_pos h⟩

/-- The other modes claim nothing. -/
theorem disarmed_of_ne (h : s.adctsc ≠ penDownMode) : Disarmed s := fun hm => absurd hm h

theorem Disarmed.congr (h : Disarmed s) (hm : t.adctsc = s.adctsc)
    (ht : t.gTsTimerEnable = s.gTsTimerEnable) : Disarmed t := by
  by_cases hmode : t.adctsc = penDownMode
  · exact disarmed_of_off (ht.trans (h (hm.symm.trans hmode)).1)
  · exact disarmed_of_ne hmode

theorem Disarmed.step (h : Disarmed s) (hc : TimerOffAtTcUp s a) (ht : step s a = some t) :
    Disarmed t := by
  cases moves_of_step ht with
  | tcUp hwait hpen =>
    apply disarmed_of_off
    rw [reportTsXy_timer]
    exact hc hwait hpen
  | tcDown => exact disarmed_of_ne autoMode_ne_penDownMode
  | tickOff => exact h
  | tickUp =>
    apply disarmed_of_off
    rw [reportTsXy_timer]
    rfl
  | tickDown => exact disarmed_of_ne autoMode_ne_penDownMode
  | adcUp =>
    apply disarmed_of_off
    rw [reportTsXy_timer]
    rfl
  | adcMore => exact disarmed_of_ne autoMode_ne_penDownMode
  | adcLast => exact disarmed_of_ne penUpMode_ne_penDownMode
  | read hr =>
    obtain ⟨r, v, l, rfl⟩ := tsReadRaw_frame hr
    exact h.congr rfl rfl

/-- An `Isr_Tc` with the pen up leaves the timer as it is, in wait-pen-down mode. -/
theorem timerOffAtTcUp_of_disarmed (h : ∀ t, Touch.step s a = some t → Disarmed t) :
    TimerOffAtTcUp s a := by
  cases a with
  | isrTc d =>
    intro hwait hpen
    have hnote : notePress s d = s := if_neg fun hp => by simp [hpen] at hp
    have hstep : Touch.step s (.isrTc d) = some (reportTsXy (enterWaitPenDownMode s) 0 0 0) := by
      simp only [Touch.step, if_pos hwait, hnote, isrTc, hpen, if_true]
    have hoff := (h _ hstep (reportTsXy_adctsc _ _ _ _)).1
    rwa [reportTsXy_timer] at hoff
  | isrAdc | tick | read => trivial

/-- The timer is off throughout a run, whenever the driver waits for the pen to come down,
exactly if every `Isr_Tc` of the run with the pen up finds it off. -/
theorem timer_off_iff (as : List Act) :
    Throughout step Disarmed touchscreenInit as ↔ Along step TimerOffAtTcUp touchscreenInit as := by
  constructor
  · exact fun h => h.along fun s a hs => timerOffAtTcUp_of_disarmed hs
  · exact fun h => h.invariant (fun _ _ _ hs hc ht => hs.step hc ht) (disarmed_of_off rfl)

/-- A touch of 16 samples that ends before the next tick: the timer stays on, and the tick
would report a second release. -/
theorem timer_left_on : ¬ ∀ as t, run step touchscreenInit as = some t → Disarmed t := by
  intro h
  obtain ⟨t, ht, hmode, htimer⟩ : ∃ t,
      run step touchscreenInit (.isrTc 0 :: List.replicate 16 (.isrAdc 0 0 0) ++
        [.isrTc (1#32 <<< 15)]) = some t ∧ t.adctsc = penDownMode ∧ t.gTsTimerEnable = 1 :=
    ⟨_, rfl, rfl, rfl⟩
  exact absurd ((h _ t ht hmode).1.symm.trans htimer) (by omega)

end S3c2440.Touch
