import S3c2440.Theory.Bits
import S3c2440.Touch.Driver

/-!
# The handler of the touchscreen driver's interrupts

The pen and the converter share an interrupt. `AdcTsIntHandle` tests a bit of SUBSRCPND for
each, runs `Isr_Tc` and `Isr_Adc` for those it finds set, and then clears both bits by
one write, whichever it has found. A bit that the hardware sets between its test and the
write is cleared unseen; `key_eint_irq`, the handler of the keys, writes back only what it
has read.

## The model

The handler takes one step for each test, each service routine and the write, and the
hardware may set a bit between any two. The program and the timer's interrupt run between
two calls of the handler, which does not interrupt itself. `owedTc` and `owedAdc` are not in
the code: the hardware has set the bit and the service routine has not run since.

## What is proved

* `irqMoves_of_step` — what a step can do.
* `handler_runs` — the handler can always take its next step.
* `Kept.of_inTime` — what holds along a run in which no bit is set too late.
* `exists_swallowed` — a bit that is set too late is cleared unseen.
* `interrupt_kept_iff` — exactly when no interrupt is swallowed: neither bit may be set
  after its test found it clear and before the write.
* `interrupt_swallowed` — a run in which the conversion is over while the handler that started
  it is about to clear the bits: the driver waits for it for ever.
-/

namespace S3c2440.Touch

open Theory

/-! ### SUBSRCPND -/

/-- `1<<TC_INT_BIT`. -/
def tcIntBit : BitVec 32 := 1#32 <<< 9

/-- `1<<ADC_INT_BIT`. -/
def adcIntBit : BitVec 32 := 1#32 <<< 10

/-- Where `AdcTsIntHandle` is. -/
inductive HandlerPc where
  /-- It has not been called, or has returned. -/
  | idle
  /-- `if (SUBSRCPND & (1<<TC_INT_BIT))`. -/
  | testTc
  /-- `Isr_Tc();`. -/
  | isrTc
  /-- `if (SUBSRCPND & (1<<ADC_INT_BIT))`. -/
  | testAdc
  /-- `Isr_Adc();`. -/
  | isrAdc
  /-- `SUBSRCPND = (1<<TC_INT_BIT) | (1<<ADC_INT_BIT);`. -/
  | clear
  deriving DecidableEq

/-- The driver and its interrupts. -/
structure Irq where
  /-- The driver. -/
  ts : Ts
  /-- SUBSRCPND. -/
  subsrcpnd : BitVec 32
  /-- Where the handler is. -/
  pc : HandlerPc
  /-- The pen has interrupted, and `Isr_Tc` has not run since. -/
  owedTc : Bool
  /-- A conversion is over, and `Isr_Adc` has not run since. -/
  owedAdc : Bool

variable (s : Irq)

/-- `SUBSRCPND & (1<<TC_INT_BIT)`. -/
def tcPending : Bool := s.subsrcpnd &&& tcIntBit ≠ 0

/-- `SUBSRCPND & (1<<ADC_INT_BIT)`. -/
def adcPending : Bool := s.subsrcpnd &&& adcIntBit ≠ 0

/-! ### Steps -/

/-- The next step of `AdcTsIntHandle`, with what ADCDAT0, ADCDAT1 and again ADCDAT0 read as in a
service routine. -/
def adcTsIntHandle (adcdat0 adcdat1 pen : BitVec 32) : Option Irq :=
  match s.pc with
  | .idle => none
  | .testTc => some { s with pc := if tcPending s then .isrTc else .testAdc }
  | .isrTc => some { s with ts := isrTc s.ts adcdat0, pc := .testAdc, owedTc := false }
  | .testAdc => some { s with pc := if adcPending s then .isrAdc else .clear }
  | .isrAdc =>
    (isrAdc s.ts adcdat0 adcdat1 pen).map fun ts =>
      { s with ts := ts, pc := .clear, owedAdc := false }
  | .clear => some { s with subsrcpnd := s.subsrcpnd &&& ~~~(tcIntBit ||| adcIntBit), pc := .idle }

/-- What may happen next. -/
inductive IrqAct where
  /-- The pen sets its bit. -/
  | setTc
  /-- A conversion that is over sets its bit. -/
  | setAdc
  /-- The processor takes the interrupt. -/
  | enter
  /-- The handler's next step. -/
  | handler (adcdat0 adcdat1 pen : BitVec 32)
  /-- `touchscreen_timer_irq`. -/
  | tick (adcdat0 : BitVec 32)
  /-- The program's next assignment. -/
  | read

/-- One step. -/
def irqStep (s : Irq) : IrqAct → Option Irq
  | .setTc =>
    if s.ts.adctsc &&& waitIntMode = waitIntMode then
      some { s with subsrcpnd := s.subsrcpnd ||| tcIntBit, owedTc := true }
    else none
  | .setAdc =>
    if s.ts.outstanding = 0 then none
    else some { s with
      ts := { s.ts with outstanding := s.ts.outstanding - 1 }
      subsrcpnd := s.subsrcpnd ||| adcIntBit
      owedAdc := true }
  | .enter => if s.pc = .idle ∧ (tcPending s || adcPending s) then some { s with pc := .testTc }
    else none
  | .handler adcdat0 adcdat1 pen => adcTsIntHandle s adcdat0 adcdat1 pen
  | .tick adcdat0 =>
    if s.pc = .idle then some { s with ts := touchscreenTimerIrq s.ts adcdat0 } else none
  | .read => if s.pc = .idle then (tsReadRaw s.ts).map fun ts => { s with ts := ts } else none

/-- The driver after `touchscreen_init`. -/
def irqInit : Irq where
  ts := touchscreenInit
  subsrcpnd := 0
  pc := .idle
  owedTc := false
  owedAdc := false

/-! ### The property and the condition -/

/-- No interrupt has been swallowed. -/
structure Kept (s : Irq) : Prop where
  /-- What the pen has set is pending until `Isr_Tc` runs. -/
  tc : s.owedTc = true → tcPending s = true
  /-- What the converter has set is pending until `Isr_Adc` runs. -/
  adc : s.owedAdc = true → adcPending s = true
  /-- The handler does not leave a measurement that nothing will end. -/
  measured : s.pc = .idle → isInAutoMode s.ts = true →
    s.ts.outstanding ≠ 0 ∨ tcPending s = true ∨ adcPending s = true

/-- The bit of the pen is not set after its test has found it clear, nor after `Isr_Tc`. -/
def TcInTime (s : Irq) : Prop := s.pc = .idle ∨ s.pc = .testTc ∨ s.pc = .isrTc

/-- The hardware sets no bit between the handler's last look at it and the write. -/
def SetsInTime (s : Irq) : IrqAct → Prop
  | .setTc => s.ts.adctsc &&& waitIntMode = waitIntMode → TcInTime s
  | .setAdc => s.ts.outstanding ≠ 0 → s.pc ≠ .clear
  | _ => True

/-! ### Bits -/

variable {s : Irq}

theorem tcPending_iff : tcPending s = true ↔ s.subsrcpnd.getLsbD 9 = true :=
  decide_eq_true_iff.trans (and_bit_ne_zero (by omega))

theorem adcPending_iff : adcPending s = true ↔ s.subsrcpnd.getLsbD 10 = true :=
  decide_eq_true_iff.trans (and_bit_ne_zero (by omega))

/-- A bit that is set is pending, and so is what was. -/
theorem getLsbD_or_bit (x : BitVec 32) (j k : ℕ) (hk : k < 32) :
    (x ||| 1#32 <<< k).getLsbD j = true ↔ x.getLsbD j = true ∨ j = k := by
  rw [← BitVec.twoPow_eq, BitVec.getLsbD_or, BitVec.getLsbD_twoPow, Bool.or_eq_true]
  simp only [hk, decide_true, Bool.true_and, decide_eq_true_iff]
  exact or_congr_right eq_comm

/-- The write clears both bits. -/
theorem not_pending_of_clear {x : BitVec 32} (h : s.subsrcpnd = x &&& ~~~(tcIntBit ||| adcIntBit)) :
    tcPending s = false ∧ adcPending s = false := by
  constructor
  · rw [Bool.eq_false_iff, Ne, tcPending_iff, h]
    simp [tcIntBit, adcIntBit]
  · rw [Bool.eq_false_iff, Ne, adcPending_iff, h]
    simp [tcIntBit, adcIntBit]

/-! ### The driver's part -/

section Driver

variable {ts u : Ts} {d₀ d₁ pen : BitVec 32}

/-- The next sample has a place in the test arrays. -/
def InTests (ts : Ts) : Prop := 0 ≤ ts.adcCnt ∧ ts.adcCnt < 16

/-- A measurement will be ended, by a conversion or by one that is over already. -/
def Waited (owed : Bool) (ts : Ts) : Prop :=
  isInAutoMode ts = true → ts.outstanding ≠ 0 ∨ owed = true

theorem InTests.congr (h : InTests ts) (hu : u.adcCnt = ts.adcCnt) : InTests u := by
  unfold InTests
  rwa [hu]

theorem inTests_of_zero (h : ts.adcCnt = 0) : InTests ts := by
  unfold InTests
  rw [h]
  decide

theorem not_auto_of_waiting (h : ts.adctsc = penDownMode ∨ ts.adctsc = penUpMode) :
    isInAutoMode ts = false := by
  unfold isInAutoMode
  rcases h with h | h <;> rw [h] <;> decide

theorem waited_of_waiting {owed : Bool} (h : ts.adctsc = penDownMode ∨ ts.adctsc = penUpMode) :
    Waited owed ts := by
  intro hauto
  rw [not_auto_of_waiting h] at hauto
  cases hauto

/-- A conversion that has just been started. -/
theorem waited_startAdc {owed : Bool} : Waited owed (startAdc ts) :=
  fun _ => .inl (Nat.succ_ne_zero _)

theorem isrTc_waited (owed : Bool) (ts : Ts) (d : BitVec 32) : Waited owed (isrTc ts d) := by
  unfold isrTc
  split
  case isTrue => exact waited_of_waiting (.inl (reportTsXy_adctsc _ _ _ _))
  case isFalse => exact waited_startAdc

theorem isrTc_inTests (h : InTests ts) (d : BitVec 32) : InTests (isrTc ts d) := by
  unfold isrTc
  split
  case isTrue => exact h.congr (reportTsXy_adcCnt _ _ _ _)
  case isFalse => exact h

theorem tick_waited {owed : Bool} (h : Waited owed ts) (d : BitVec 32) :
    Waited owed (touchscreenTimerIrq ts d) := by
  unfold touchscreenTimerIrq
  split_ifs
  · exact h
  · exact h
  · exact waited_of_waiting (.inl (reportTsXy_adctsc _ _ _ _))
  · exact waited_startAdc

theorem tick_inTests (h : InTests ts) (d : BitVec 32) : InTests (touchscreenTimerIrq ts d) := by
  unfold touchscreenTimerIrq
  split_ifs
  · exact h
  · exact h
  · exact h.congr (reportTsXy_adcCnt _ _ _ _)
  · exact h

theorem tsReadRaw_waited {owed : Bool} (h : Waited owed ts) (hu : tsReadRaw ts = some u) :
    Waited owed u := by
  obtain ⟨r, v, l, rfl⟩ := tsReadRaw_frame hu
  exact h

theorem tsReadRaw_inTests (h : InTests ts) (hu : tsReadRaw ts = some u) : InTests u := by
  obtain ⟨r, v, l, rfl⟩ := tsReadRaw_frame hu
  exact h

/-- `Isr_Adc` starts the next conversion before it goes on measuring. -/
theorem isrAdc_waited (owed : Bool) (h : isrAdc ts d₀ d₁ pen = some u) : Waited owed u := by
  simp only [isrAdc] at h
  split at h
  case isTrue =>
    cases h
    exact waited_of_waiting (.inl (reportTsXy_adctsc _ _ _ _))
  case isFalse =>
    obtain ⟨v, hv, rfl⟩ := Option.map_eq_some_iff.mp h
    split
    case isTrue => exact waited_of_waiting (.inr rfl)
    case isFalse => exact waited_startAdc

/-- And counts within the test arrays. -/
theorem isrAdc_inTests (h : InTests ts) (d₀ d₁ pen : BitVec 32) :
    ∃ u, isrAdc ts d₀ d₁ pen = some u ∧ InTests u := by
  by_cases hpen : penUp pen = true
  · exact ⟨_, if_pos hpen, inTests_of_zero (reportTsXy_adcCnt _ _ _ _)⟩
  · obtain ⟨v, hv, hcnt⟩ : ∃ v, storeTest (addSample (enterWaitPenUpMode ts) (sampleOf d₀)
        (sampleOf d₁)) (sampleOf d₀) (sampleOf d₁) = some v ∧ v.adcCnt = ts.adcCnt :=
      ⟨_, dif_pos h, rfl⟩
    simp only [isrAdc, if_neg hpen, hv, Option.map_some, Option.some.injEq, exists_eq_left']
    split
    case isTrue => exact inTests_of_zero rfl
    case isFalse hne =>
      obtain ⟨h₀, h₁⟩ := h
      show 0 ≤ v.adcCnt + 1 ∧ v.adcCnt + 1 < 16
      omega

end Driver

/-! ### The moves -/

/-- What a step does, with what it has been guarded by. -/
inductive IrqMoves (s : Irq) : IrqAct → Irq → Prop where
  | setTc (hwait : s.ts.adctsc &&& waitIntMode = waitIntMode) :
      IrqMoves s .setTc { s with subsrcpnd := s.subsrcpnd ||| tcIntBit, owedTc := true }
  | setAdc (hout : s.ts.outstanding ≠ 0) :
      IrqMoves s .setAdc { s with
        ts := { s.ts with outstanding := s.ts.outstanding - 1 }
        subsrcpnd := s.subsrcpnd ||| adcIntBit
        owedAdc := true }
  | enter : IrqMoves s .enter { s with pc := .testTc }
  | testTc {d₀ d₁ pen : BitVec 32} (hpc : s.pc = .testTc) :
      IrqMoves s (.handler d₀ d₁ pen) { s with pc := if tcPending s then .isrTc else .testAdc }
  | isrTc {d₀ d₁ pen : BitVec 32} :
      IrqMoves s (.handler d₀ d₁ pen)
        { s with ts := isrTc s.ts d₀, pc := .testAdc, owedTc := false }
  | testAdc {d₀ d₁ pen : BitVec 32} (hpc : s.pc = .testAdc) :
      IrqMoves s (.handler d₀ d₁ pen) { s with pc := if adcPending s then .isrAdc else .clear }
  | isrAdc {d₀ d₁ pen : BitVec 32} {u : Ts} (hpc : s.pc = .isrAdc)
      (hu : isrAdc s.ts d₀ d₁ pen = some u) :
      IrqMoves s (.handler d₀ d₁ pen) { s with ts := u, pc := .clear, owedAdc := false }
  | clear {d₀ d₁ pen : BitVec 32} (hpc : s.pc = .clear) :
      IrqMoves s (.handler d₀ d₁ pen)
        { s with subsrcpnd := s.subsrcpnd &&& ~~~(tcIntBit ||| adcIntBit), pc := .idle }
  | tick {d : BitVec 32} : IrqMoves s (.tick d) { s with ts := touchscreenTimerIrq s.ts d }
  | read {u : Ts} (hu : tsReadRaw s.ts = some u) : IrqMoves s .read { s with ts := u }

variable {t : Irq}

/-- The inversion lemma: a step is one of the moves. -/
theorem irqMoves_of_step {a : IrqAct} (ht : irqStep s a = some t) : IrqMoves s a t := by
  cases a with
  | setTc =>
    obtain ⟨hwait, ht⟩ := Option.ite_none_right_eq_some.mp ht
    cases ht
    exact .setTc hwait
  | setAdc =>
    obtain ⟨hout, ht⟩ := Option.ite_none_left_eq_some.mp ht
    cases ht
    exact .setAdc hout
  | enter =>
    obtain ⟨-, ht⟩ := Option.ite_none_right_eq_some.mp ht
    cases ht
    exact .enter
  | handler d₀ d₁ pen =>
    simp only [irqStep, adcTsIntHandle] at ht
    split at ht
    case h_1 => cases ht
    case h_2 hpc => cases ht; exact .testTc hpc
    case h_3 => cases ht; exact .isrTc
    case h_4 hpc => cases ht; exact .testAdc hpc
    case h_5 hpc =>
      obtain ⟨u, hu, rfl⟩ := Option.map_eq_some_iff.mp ht
      exact .isrAdc hpc hu
    case h_6 hpc => cases ht; exact .clear hpc
  | tick d =>
    obtain ⟨-, ht⟩ := Option.ite_none_right_eq_some.mp ht
    cases ht
    exact .tick
  | read =>
    obtain ⟨-, ht⟩ := Option.ite_none_right_eq_some.mp ht
    obtain ⟨u, hu, rfl⟩ := Option.map_eq_some_iff.mp ht
    exact .read hu

/-! ### Runs in time -/

/-- What holds along a run in which the hardware sets no bit too late. -/
structure InTime (s : Irq) : Prop where
  /-- What the pen has set is pending, and the handler will see it. -/
  tc : s.owedTc = true → tcPending s = true ∧ TcInTime s
  /-- And what the converter has set. -/
  adc : s.owedAdc = true → adcPending s = true ∧ s.pc ≠ .clear
  /-- A measurement will be ended. -/
  waited : Waited s.owedAdc s.ts

theorem InTime.kept (h : InTime s) : Kept s where
  tc := fun ho => (h.tc ho).1
  adc := fun ho => (h.adc ho).1
  measured := fun _ hauto => (h.waited hauto).imp_right fun ho => .inr (h.adc ho).1

theorem inTime_irqInit : InTime irqInit where
  tc := fun h => nomatch h
  adc := fun h => nomatch h
  waited := waited_of_waiting (.inl rfl)

/-- Past its test, an interrupt of the pen is not owed. -/
theorem InTime.not_owedTc (h : InTime s) (hpc : s.pc = .testAdc ∨ s.pc = .isrAdc ∨ s.pc = .clear) :
    s.owedTc ≠ true := by
  intro ho
  obtain ⟨-, hin⟩ := h.tc ho
  rcases hpc with hpc | hpc | hpc <;> simp [TcInTime, hpc] at hin

theorem InTime.step {a : IrqAct} (h : InTime s) (hc : SetsInTime s a)
    (ht : irqStep s a = some t) : InTime t := by
  cases irqMoves_of_step ht with
  | setTc hwait =>
    refine ⟨fun _ => ⟨?_, hc hwait⟩, fun ho => ⟨?_, (h.adc ho).2⟩, h.waited⟩
    · exact tcPending_iff.mpr ((getLsbD_or_bit _ 9 9 (by omega)).mpr (.inr rfl))
    · have hp := adcPending_iff.mp (h.adc ho).1
      exact adcPending_iff.mpr ((getLsbD_or_bit _ 10 9 (by omega)).mpr (.inl hp))
  | setAdc hout =>
    refine ⟨fun ho => ⟨?_, (h.tc ho).2⟩, fun _ => ⟨?_, hc hout⟩, fun _ => .inr rfl⟩
    · have hp := tcPending_iff.mp (h.tc ho).1
      exact tcPending_iff.mpr ((getLsbD_or_bit _ 9 10 (by omega)).mpr (.inl hp))
    · exact adcPending_iff.mpr ((getLsbD_or_bit _ 10 10 (by omega)).mpr (.inr rfl))
  | enter =>
    exact ⟨fun ho => ⟨(h.tc ho).1, .inr (.inl rfl)⟩,
      fun ho => ⟨(h.adc ho).1, fun hpc => (nomatch hpc)⟩, h.waited⟩
  | testTc hpc =>
    refine ⟨fun ho => ⟨(h.tc ho).1, ?_⟩, fun ho => ⟨(h.adc ho).1, ?_⟩, h.waited⟩
    · rw [if_pos (h.tc ho).1]
      exact .inr (.inr rfl)
    · show (if _ then HandlerPc.isrTc else .testAdc) ≠ .clear
      split <;> simp
  | isrTc =>
    exact ⟨fun ho => (nomatch ho), fun ho => ⟨(h.adc ho).1, fun hpc => (nomatch hpc)⟩,
      isrTc_waited _ _ _⟩
  | testAdc hpc =>
    refine ⟨fun ho => absurd ho (h.not_owedTc (.inl hpc)), fun ho => ⟨(h.adc ho).1, ?_⟩, h.waited⟩
    rw [if_pos (h.adc ho).1]
    exact fun hpc => nomatch hpc
  | isrAdc hpc hu =>
    exact ⟨fun ho => absurd ho (h.not_owedTc (.inr (.inl hpc))), fun ho => (nomatch ho),
      isrAdc_waited _ hu⟩
  | clear hpc =>
    -- the write: the invariant says that neither bit is owed any more
    exact ⟨fun ho => absurd ho (h.not_owedTc (.inr (.inr hpc))),
      fun ho => absurd hpc (h.adc ho).2, h.waited⟩
  | tick => exact ⟨h.tc, h.adc, tick_waited h.waited _⟩
  | read hu => exact ⟨h.tc, h.adc, tsReadRaw_waited h.waited hu⟩

/-- Along a run in which no bit is set too late, none is swallowed. -/
theorem Kept.of_inTime {as : List IrqAct} (h : Along irqStep SetsInTime irqInit as) :
    Throughout irqStep Kept irqInit as :=
  (h.invariant (fun _ _ _ hs hc ht => hs.step hc ht) inTime_irqInit).mono fun _ => InTime.kept

/-! ### The handler runs to its end -/

/-- A step leaves the count of samples within the test arrays. -/
theorem inTests_step {a : IrqAct} (h : InTests s.ts) (ht : irqStep s a = some t) :
    InTests t.ts := by
  cases irqMoves_of_step ht with
  | setTc | setAdc | enter | testTc | testAdc | clear => exact h
  | isrTc => exact isrTc_inTests h _
  | isrAdc hpc hu =>
    obtain ⟨v, hv, hin⟩ := isrAdc_inTests h _ _ _
    cases hu.symm.trans hv
    exact hin
  | tick => exact tick_inTests h _
  | read hu => exact tsReadRaw_inTests h hu

/-- The handler can always take its next step, whatever the registers read as. -/
theorem handler_runs (h : Reach irqStep irqInit s) (hpc : s.pc ≠ .idle) (d₀ d₁ pen : BitVec 32) :
    ∃ t, adcTsIntHandle s d₀ d₁ pen = some t := by
  have hin : InTests s.ts := h.invariant (fun _ _ _ => inTests_step) (inTests_of_zero rfl)
  unfold adcTsIntHandle
  split
  case h_1 hidle => exact absurd hidle hpc
  case h_5 =>
    obtain ⟨u, hu, -⟩ := isrAdc_inTests hin d₀ d₁ pen
    exact ⟨_, by rw [hu]; rfl⟩
  all_goals exact ⟨_, rfl⟩

/-! ### A bit that is set too late -/

/-- The steps of the handler. -/
def HandlerOnly (ds : List IrqAct) : Prop := ∀ d ∈ ds, ∃ d₀ d₁ pen, d = .handler d₀ d₁ pen

theorem along_handlerOnly (ds : List IrqAct) (h : HandlerOnly ds) (s : Irq) :
    Along irqStep SetsInTime s ds := by
  induction ds generalizing s with
  | nil => trivial
  | cons d ds ih =>
    obtain ⟨d₀, d₁, pen, rfl⟩ := h d (List.mem_cons_self ..)
    exact ⟨trivial, fun t _ => ih (fun d hd => h d (List.mem_cons_of_mem _ hd)) t⟩

/-- The handler can go on to swallow an interrupt. -/
def Swallows (s : Irq) : Prop := ∃ ds u, HandlerOnly ds ∧ run irqStep s ds = some u ∧ ¬ Kept u

theorem swallows_of_step {d₀ d₁ pen : BitVec 32} (ht : adcTsIntHandle s d₀ d₁ pen = some t)
    (h : Swallows t) : Swallows s := by
  obtain ⟨ds, u, hds, hu, hnot⟩ := h
  refine ⟨.handler d₀ d₁ pen :: ds, u, ?_, run_cons.mpr ⟨t, ht, hu⟩, hnot⟩
  intro d hd
  rcases List.mem_cons.mp hd with rfl | hd
  · exact ⟨d₀, d₁, pen, rfl⟩
  · exact hds d hd

/-- The write swallows what is still owed. -/
theorem swallows_of_clear (hpc : s.pc = .clear) (howed : s.owedTc = true ∨ s.owedAdc = true) :
    Swallows s := by
  have hstep : adcTsIntHandle s 0 0 0 =
      some { s with subsrcpnd := s.subsrcpnd &&& ~~~(tcIntBit ||| adcIntBit), pc := .idle } := by
    simp only [adcTsIntHandle, hpc]
  refine swallows_of_step hstep ⟨[], _, fun d hd => (nomatch hd), rfl, fun hkept => ?_⟩
  obtain ⟨htc, hadc⟩ := not_pending_of_clear (s := { s with
    subsrcpnd := s.subsrcpnd &&& ~~~(tcIntBit ||| adcIntBit), pc := .idle }) rfl
  rcases howed with howed | howed
  · exact absurd (hkept.tc howed) (Bool.eq_false_iff.mp htc)
  · exact absurd (hkept.adc howed) (Bool.eq_false_iff.mp hadc)

/-- `Isr_Adc` does not look at the pen's bit; here it finds the pen up. -/
theorem swallows_of_isrAdc (hpc : s.pc = .isrAdc) (howed : s.owedTc = true) : Swallows s := by
  obtain ⟨u, hu⟩ : ∃ u, isrAdc s.ts 0 0 (1#32 <<< 15) = some u := ⟨_, rfl⟩
  have hstep : adcTsIntHandle s 0 0 (1#32 <<< 15) =
      some { s with ts := u, pc := .clear, owedAdc := false } := by
    simp only [adcTsIntHandle, hpc, hu, Option.map_some]
  exact swallows_of_step hstep (swallows_of_clear rfl (.inl howed))

/-- Past its test, an interrupt of the pen is swallowed. -/
theorem swallows_of_tc (hpc : ¬ TcInTime s) (howed : s.owedTc = true) : Swallows s := by
  match hs : s.pc with
  | .idle => exact absurd (.inl hs) hpc
  | .testTc => exact absurd (.inr (.inl hs)) hpc
  | .isrTc => exact absurd (.inr (.inr hs)) hpc
  | .isrAdc => exact swallows_of_isrAdc hs howed
  | .clear => exact swallows_of_clear hs (.inl howed)
  | .testAdc =>
    have hstep : adcTsIntHandle s 0 0 0 =
        some { s with pc := if adcPending s then .isrAdc else .clear } := by
      simp only [adcTsIntHandle, hs]
    refine swallows_of_step hstep ?_
    split
    case isTrue => exact swallows_of_isrAdc rfl howed
    case isFalse => exact swallows_of_clear rfl (.inl howed)

/-- The hardware sets a bit too late, and the handler goes on to clear it. -/
theorem exists_swallowed {a : IrqAct} (h : ¬ SetsInTime s a) :
    ∃ t, irqStep s a = some t ∧ Swallows t := by
  cases a with
  | setTc =>
    obtain ⟨hwait, hlate⟩ := Classical.not_imp.mp h
    exact ⟨_, if_pos hwait, swallows_of_tc hlate rfl⟩
  | setAdc =>
    obtain ⟨hout, hlate⟩ := Classical.not_imp.mp h
    exact ⟨_, if_neg hout, swallows_of_clear (not_not.mp hlate) (.inr rfl)⟩
  | enter | handler | tick | read => exact absurd trivial h

/-! ### Whole runs -/

/-- No interrupt of a run is swallowed, wherever in it the hardware comes to rest and the handler
runs on, exactly if every bit of the run is set in time. -/
theorem interrupt_kept_iff (as : List IrqAct) : Along irqStep SetsInTime irqInit as ↔
    ∀ bs cs ds t, as = bs ++ cs → HandlerOnly ds → run irqStep irqInit (bs ++ ds) = some t →
      Kept t :=
  along_iff_of_lost (fun _ _ h ht => (Kept.of_inTime h).last ht)
    (fun s ds hds => along_handlerOnly ds hds s)
    (fun _ _ _ _ _ hbreach => exists_swallowed hbreach) as

/-- The pen comes down, `Isr_Tc` starts a conversion, its bit is found clear, and then it is
over: the write clears its bit, and the driver measures for ever. -/
theorem interrupt_swallowed : ¬ ∀ as t, run irqStep irqInit as = some t → Kept t := by
  intro h
  obtain ⟨t, ht, hpc, hauto, hout, htc, hadc⟩ : ∃ t,
      run irqStep irqInit [.setTc, .enter, .handler 0 0 0, .handler 0 0 0, .handler 0 0 0, .setAdc,
        .handler 0 0 0] = some t ∧ t.pc = .idle ∧ isInAutoMode t.ts = true ∧
      t.ts.outstanding = 0 ∧ tcPending t = false ∧ adcPending t = false :=
    ⟨_, rfl, rfl, by decide, rfl, by decide, by decide⟩
  rcases (h _ t ht).measured hpc hauto with hne | hp | hp
  · exact hne hout
  · exact Bool.eq_false_iff.mp htc hp
  · exact Bool.eq_false_iff.mp hadc hp

end S3c2440.Touch
