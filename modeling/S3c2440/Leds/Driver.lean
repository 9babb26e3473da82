import S3c2440.Theory.Runs
import S3c2440.Theory.Bits

/-!
# The driver of the LEDs

`linux_driver/code/char_driver/进阶版led_driver/myleds.c`: minor 0 is the three LEDs D10, D11 and
D12 together, at GPF4, GPF5 and GPF6, and minors 1, 2 and 3 are one of them each. Opening a device
makes its pins outputs, at 0; writing puts its pins at what is written; and reading
gives back not the pins but `leds_status`, which is kept beside them.

Calls do not overlap, so that the semaphore `leds_lock` is always free. The kernel's
`s3c2410_gpio_setpin` clears the bit of the pin and then ORs in the value, shifted to it;
`s3c2410_gpio_cfgpin` with a pin's `OUTP` is the same for the two bits of the pin's function.

## What is proved

* `shown_writeLed_iff`, `shown_writeAll_iff` — exactly when a write leaves what is remembered and
  the pins the same.
* `shown_throughout_iff` — and exactly when they are the same throughout a run.
-/

namespace S3c2440.Leds

open Theory

/-! ### The driver -/

/-- The port and what is remembered of it. -/
structure Drv where
  /-- GPFCON. -/
  gpfcon : BitVec 32
  /-- GPFDAT. -/
  gpfdat : BitVec 32
  /-- `leds_status`. -/
  ledsStatus : BitVec 8

variable (s : Drv) (pin k : ℕ)

/-- `s3c2410_gpio_cfgpin`, with the `OUTP` of the pin. -/
def s3c2410GpioCfgpin : Drv :=
  { s with gpfcon := setBit (clearField s.gpfcon (2 * pin)) (2 * pin) }

/-- `s3c2410_gpio_setpin`. -/
def s3c2410GpioSetpin (value : BitVec 8) : Drv :=
  { s with gpfdat := clearBit s.gpfdat pin ||| value.setWidth 32 <<< pin }

/-- The pin is an output at 0. -/
def clearPin : Drv := { s with gpfdat := clearBit s.gpfdat pin }

/-- One LED is opened. -/
def openLed : Drv :=
  let s := s3c2410GpioSetpin (s3c2410GpioCfgpin s pin) pin 0
  { s with ledsStatus := clearBit s.ledsStatus k }

/-- `s3c24xx_leds_open`. -/
def s3c24xxLedsOpen : ℕ → Drv
  | 0 =>
    let s := s3c2410GpioCfgpin (s3c2410GpioCfgpin (s3c2410GpioCfgpin s 4) 5) 6
    { clearPin (clearPin (clearPin s 4) 5) 6 with ledsStatus := 0 }
  | 1 => openLed s 4 0
  | 2 => openLed s 5 1
  | 3 => openLed s 6 2
  | _ => s

/-- `s3c24xx_leds_read`: the byte that is copied. -/
def s3c24xxLedsRead : ℕ → Option (BitVec 8)
  | 0 => some s.ledsStatus
  | 1 => some (s.ledsStatus &&& 1)
  | 2 => some (s.ledsStatus >>> 1 &&& 1)
  | 3 => some (s.ledsStatus >>> 2 &&& 1)
  | _ => none

/-- One LED is written. -/
def writeLed (val : BitVec 8) : Drv :=
  let s := s3c2410GpioSetpin s pin val
  if val = 0 then { s with ledsStatus := clearBit s.ledsStatus k }
  else { s with ledsStatus := setBit s.ledsStatus k }

/-- All are. -/
def writeAll (val : BitVec 8) : Drv :=
  let s := s3c2410GpioSetpin s 4 (val &&& 1)
  let s := s3c2410GpioSetpin s 5 (val &&& 1)
  let s := s3c2410GpioSetpin s 6 (val &&& 1)
  { s with ledsStatus := val }

/-- `s3c24xx_leds_write`. -/
def s3c24xxLedsWrite (minor : ℕ) (val : BitVec 8) : Drv :=
  match minor with
  | 0 => writeAll s val
  | 1 => writeLed s 4 0 val
  | 2 => writeLed s 5 1 val
  | 3 => writeLed s 6 2 val
  | _ => s

/-- A call, with the minor. -/
inductive Act where
  /-- `open`. -/
  | openMinor (minor : ℕ)
  /-- `read`. -/
  | readMinor (minor : ℕ)
  /-- `write` of a byte. -/
  | writeMinor (minor : ℕ) (val : BitVec 8)
  deriving DecidableEq

/-- One call. -/
def step (s : Drv) : Act → Option Drv
  | .openMinor minor => some (s3c24xxLedsOpen s minor)
  | .readMinor _ => some s
  | .writeMinor minor val => some (s3c24xxLedsWrite s minor val)

/-! ### The pins and what is remembered -/

/-- The pin is an output. -/
def IsOutput : Prop :=
  s.gpfcon.getLsbD (2 * pin) = true ∧ s.gpfcon.getLsbD (2 * pin + 1) = false

/-- What is remembered, and what reads give, are the levels of the LEDs' pins; the others of the
port are as they were at `gpfdat`. -/
structure Shown (gpfdat : BitVec 32) (s : Drv) : Prop where
  /-- The pins are outputs, so that the data register has their levels. -/
  output : ∀ k < 3, IsOutput s (4 + k)
  /-- What is remembered. -/
  status : ∀ k < 3, s.ledsStatus.getLsbD k = s.gpfdat.getLsbD (4 + k)
  /-- A read of all. -/
  readAll : ∃ val, s3c24xxLedsRead s 0 = some val ∧
    ∀ k < 3, val.getLsbD k = s.gpfdat.getLsbD (4 + k)
  /-- A read of one. -/
  readLed : ∀ k < 3, s3c24xxLedsRead s (k + 1) = some (if s.gpfdat.getLsbD (4 + k) then 1 else 0)
  /-- The other pins. -/
  others : ∀ i < 8, i < 4 ∨ 6 < i → s.gpfdat.getLsbD i = gpfdat.getLsbD i

/-- What is written to the LED at `pin` leaves it at 1 if it is not 0, and changes no other pin:
bit 0 is set, and each further one is at a pin that is at 1 anyway, or beyond the port. -/
def Harmless (val : BitVec 8) : Prop :=
  val ≠ 0 → val.getLsbD 0 = true ∧
    ∀ i, 0 < i → pin + i < 8 → val.getLsbD i = true → s.gpfdat.getLsbD (pin + i) = true

/-- A write of all LEDs has the same for each; a write of one is harmless. -/
def WritesAgree (s : Drv) : Act → Prop
  | .writeMinor 0 val => val.getLsbD 1 = val.getLsbD 0 ∧ val.getLsbD 2 = val.getLsbD 0
  | .writeMinor 1 val => Harmless s 4 val
  | .writeMinor 2 val => Harmless s 5 val
  | .writeMinor 3 val => Harmless s 6 val
  | _ => True

section Lemmas

variable {s pin k} {gpfdat : BitVec 32} {val : BitVec 8} {i : ℕ}

theorem getLsbD_setpin (hi : i < 32) : (s3c2410GpioSetpin s pin val).gpfdat.getLsbD i =
    if i = pin then val.getLsbD 0
    else s.gpfdat.getLsbD i || (decide (pin < i) && val.getLsbD (i - pin)) := by
  rw [s3c2410GpioSetpin, BitVec.getLsbD_or, getLsbD_clearBit, BitVec.getLsbD_shiftLeft,
    BitVec.getLsbD_setWidth]
  rcases Nat.lt_trichotomy i pin with hlt | rfl | hgt
  · simp only [hlt, Nat.ne_of_lt hlt, Nat.not_lt_of_gt hlt, if_false, decide_true, decide_false,
      Bool.not_true, Bool.and_false, Bool.false_and]
  · simp only [hi, Nat.lt_irrefl, Nat.sub_self, if_true, decide_true, decide_false, Bool.not_false,
      Bool.and_true, Bool.true_and, Bool.false_or, Nat.zero_lt_succ]
  · have hsub : i - pin < 32 := Nat.lt_of_le_of_lt (Nat.sub_le i pin) hi
    simp only [hi, hgt, hsub, Nat.ne_of_gt hgt, Nat.not_lt_of_gt hgt, if_false, decide_true,
      decide_false, Bool.not_false, Bool.and_true, Bool.true_and]

theorem harmless_iff (hpin : pin < 8) : Harmless s pin val ↔
    ∀ i < 8, (s3c2410GpioSetpin s pin val).gpfdat.getLsbD i =
      if i = pin then decide (val ≠ 0) else s.gpfdat.getLsbD i := by
  constructor
  · intro h i hi
    rw [getLsbD_setpin (Nat.lt_trans hi (by omega))]
    by_cases hval : val = 0
    · simp [hval]
    · obtain ⟨hzero, hrest⟩ := h hval
      split
      · rw [hzero, decide_eq_true hval]
      · -- a pin above is touched where the byte has a further bit
        cases hbit : decide (pin < i) && val.getLsbD (i - pin) with
        | false => exact Bool.or_false _
        | true =>
          rw [Bool.and_eq_true, decide_eq_true_eq] at hbit
          obtain ⟨hlt, hbit⟩ := hbit
          have hpi : pin + (i - pin) = i := by omega
          have hone := hrest (i - pin) (by omega) (by omega) hbit
          rw [hpi] at hone
          rw [hone, Bool.or_true]
  · intro h hval
    refine ⟨?_, fun i hi hlt hbit => ?_⟩
    · have hself := h pin hpin
      rwa [getLsbD_setpin (by omega), if_pos rfl, if_pos rfl, decide_eq_true hval] at hself
    · have habove := h (pin + i) hlt
      rw [getLsbD_setpin (by omega), if_neg (by omega), if_neg (by omega),
        decide_eq_true (by omega), Bool.true_and, Nat.add_sub_cancel_left, hbit,
        Bool.or_true] at habove
      exact habove.symm

/-- Reads give what is remembered. -/
theorem shown_of (hout : ∀ k < 3, IsOutput s (4 + k))
    (hstatus : ∀ k < 3, s.ledsStatus.getLsbD k = s.gpfdat.getLsbD (4 + k))
    (hothers : ∀ i < 8, i < 4 ∨ 6 < i → s.gpfdat.getLsbD i = gpfdat.getLsbD i) :
    Shown gpfdat s := by
  refine ⟨hout, hstatus, ⟨_, rfl, hstatus⟩, fun k hk => ?_, hothers⟩
  have hbit : s3c24xxLedsRead s (k + 1) = some (s.ledsStatus >>> k &&& 1#8) := by
    match k with
    | 0 => simp [s3c24xxLedsRead]
    | 1 => rfl
    | 2 => rfl
  rw [hbit, ushiftRight_and_one, hstatus k hk]
  rfl

theorem status_writeLed (hk : k < 8) (j : ℕ) : (writeLed s pin k val).ledsStatus.getLsbD j =
    if j = k then decide (val ≠ 0) else s.ledsStatus.getLsbD j := by
  rw [writeLed]
  split
  · simp only [getLsbD_clearBit, s3c2410GpioSetpin, *, ne_eq, not_true_eq_false, decide_false]
  · simp only [getLsbD_setBit hk, s3c2410GpioSetpin, *, ne_eq, not_false_eq_true, decide_true]

theorem gpfdat_writeLed : (writeLed s pin k val).gpfdat = (s3c2410GpioSetpin s pin val).gpfdat := by
  rw [writeLed]
  split <;> rfl

theorem gpfcon_writeLed : (writeLed s pin k val).gpfcon = s.gpfcon := by
  rw [writeLed]
  split <;> rfl

/-- A write of one LED. -/
theorem shown_writeLed_iff (h : Shown gpfdat s) (hk : k < 3) :
    Shown gpfdat (writeLed s (4 + k) k val) ↔ Harmless s (4 + k) val := by
  rw [harmless_iff (by omega)]
  constructor
  · intro h' i hi
    rw [← gpfdat_writeLed (k := k)]
    by_cases hled : i < 4 ∨ 6 < i
    · rw [if_neg (by omega), h'.others i hi hled, h.others i hi hled]
    · obtain ⟨j, rfl⟩ : ∃ j, i = 4 + j := ⟨i - 4, by omega⟩
      rw [← h'.status j (by omega), status_writeLed (by omega), h.status j (by omega)]
      simp only [Nat.add_left_cancel_iff]
  · intro h'
    refine shown_of (fun j hj => ?_) (fun j hj => ?_) fun i hi hled => ?_
    · rw [IsOutput, gpfcon_writeLed]
      exact h.output j hj
    · rw [gpfdat_writeLed, h' (4 + j) (by omega), status_writeLed (by omega), h.status j hj]
      simp only [Nat.add_left_cancel_iff]
    · rw [gpfdat_writeLed, h' i hi, if_neg (by omega), h.others i hi hled]

theorem getLsbD_setpin_bit (hi : i < 32) :
    (s3c2410GpioSetpin s pin (val &&& 1)).gpfdat.getLsbD i =
      if i = pin then val.getLsbD 0 else s.gpfdat.getLsbD i := by
  have hbit : ∀ j, (val &&& 1#8).getLsbD j = if j = 0 then val.getLsbD 0 else false := by
    intro j
    rw [BitVec.getLsbD_and, BitVec.getLsbD_one]
    by_cases hj : j = 0 <;> simp [hj]
  rw [getLsbD_setpin hi]
  by_cases hpin : i = pin
  · rw [if_pos hpin, if_pos hpin]
    exact hbit 0
  · rw [if_neg hpin, if_neg hpin, show (val &&& 1).getLsbD (i - pin) = _ from hbit (i - pin)]
    by_cases hlt : pin < i
    · rw [if_neg (Nat.sub_ne_zero_of_lt hlt), Bool.and_false, Bool.or_false]
    · rw [decide_eq_false hlt, Bool.false_and, Bool.or_false]

theorem gpfdat_writeAll (hi : i < 32) : (writeAll s val).gpfdat.getLsbD i =
    if 4 ≤ i ∧ i ≤ 6 then val.getLsbD 0 else s.gpfdat.getLsbD i := by
  rw [show (writeAll s val).gpfdat = (s3c2410GpioSetpin (s3c2410GpioSetpin (s3c2410GpioSetpin s 4
    (val &&& 1)) 5 (val &&& 1)) 6 (val &&& 1)).gpfdat from rfl, getLsbD_setpin_bit hi,
    getLsbD_setpin_bit hi, getLsbD_setpin_bit hi]
  split_ifs <;> first | rfl | omega

/-- A write of all. -/
theorem shown_writeAll_iff (h : Shown gpfdat s) :
    Shown gpfdat (writeAll s val) ↔
      val.getLsbD 1 = val.getLsbD 0 ∧ val.getLsbD 2 = val.getLsbD 0 := by
  constructor
  · intro h'
    have hone := h'.status 1 (by omega)
    have htwo := h'.status 2 (by omega)
    rw [gpfdat_writeAll (by omega), if_pos (by omega)] at hone htwo
    exact ⟨hone, htwo⟩
  · rintro ⟨hone, htwo⟩
    refine shown_of h.output (fun k hk => ?_) fun i hi hled => ?_
    · rw [gpfdat_writeAll (by omega), if_pos (by omega)]
      match k with
      | 0 => rfl
      | 1 => exact hone
      | 2 => exact htwo
    · rw [gpfdat_writeAll (by omega), if_neg (by omega), h.others i hi hled]

/-- A pin that is made an output is one, and no other changes. -/
theorem isOutput_cfgpin {p q : ℕ} (hp : p < 16) (h : q = p ∨ IsOutput s q) :
    IsOutput (s3c2410GpioCfgpin s p) q := by
  have hbits : ∀ i, (s3c2410GpioCfgpin s p).gpfcon.getLsbD i =
      if i = 2 * p then true else if i = 2 * p + 1 then false else s.gpfcon.getLsbD i := by
    intro i
    rw [s3c2410GpioCfgpin, getLsbD_setBit (by omega), getLsbD_clearField]
    split_ifs <;> first | rfl | omega
  rw [IsOutput, hbits, hbits]
  by_cases hqp : q = p
  · subst hqp
    simp
  · obtain ⟨hone, hzero⟩ := h.resolve_left hqp
    rw [if_neg (by omega), if_neg (by omega), if_neg (by omega), if_neg (by omega)]
    exact ⟨hone, hzero⟩

theorem Shown.cfgpin (h : Shown gpfdat s) (hk : k < 16) :
    Shown gpfdat (s3c2410GpioCfgpin s k) :=
  shown_of (fun j hj => isOutput_cfgpin hk (.inr (h.output j hj))) h.status h.others

theorem Shown.openLed (h : Shown gpfdat s) (hk : k < 3) :
    Shown gpfdat (openLed s (4 + k) k) := by
  have hzero : Harmless (s3c2410GpioCfgpin s (4 + k)) (4 + k) 0 := fun hval => absurd rfl hval
  exact (shown_writeLed_iff (h.cfgpin (by omega)) hk).mpr hzero

/-- Opening minor 0, whatever there was. -/
theorem shown_openAll (h : ∀ i < 8, i < 4 ∨ 6 < i → s.gpfdat.getLsbD i = gpfdat.getLsbD i) :
    Shown gpfdat (s3c24xxLedsOpen s 0) := by
  have hbits : ∀ i, (s3c24xxLedsOpen s 0).gpfdat.getLsbD i =
      if 4 ≤ i ∧ i ≤ 6 then false else s.gpfdat.getLsbD i := by
    intro i
    rw [show (s3c24xxLedsOpen s 0).gpfdat =
      clearBit (clearBit (clearBit s.gpfdat 4) 5) 6 from rfl, getLsbD_clearBit, getLsbD_clearBit,
      getLsbD_clearBit]
    split_ifs <;> first | rfl | omega
  refine shown_of (fun k hk => ?_) (fun k hk => ?_) fun i hi hled => ?_
  · change IsOutput (s3c2410GpioCfgpin (s3c2410GpioCfgpin (s3c2410GpioCfgpin s 4) 5) 6) (4 + k)
    refine isOutput_cfgpin (by omega) ?_
    match k with
    | 0 => exact .inr (isOutput_cfgpin (by omega) (.inr (isOutput_cfgpin (by omega) (.inl rfl))))
    | 1 => exact .inr (isOutput_cfgpin (by omega) (.inl rfl))
    | 2 => exact .inl rfl
  · rw [hbits, if_pos (by omega)]
    exact BitVec.getLsbD_zero
  · rw [hbits, if_neg (by omega), h i hi hled]

theorem Shown.openMinor (h : Shown gpfdat s) (minor : ℕ) : Shown gpfdat (s3c24xxLedsOpen s minor) := by
  match minor with
  | 0 => exact shown_openAll h.others
  | 1 => exact h.openLed (k := 0) (by omega)
  | 2 => exact h.openLed (k := 1) (by omega)
  | 3 => exact h.openLed (k := 2) (by omega)
  | _ + 4 => exact h

/-- What is remembered and what the LEDs show stay the same in a call exactly if it writes nothing,
or agrees with itself. -/
theorem writesAgree_iff (h : Shown gpfdat s) (a : Act) :
    WritesAgree s a ↔ ∀ t, step s a = some t → Shown gpfdat t := by
  cases a with
  | openMinor minor =>
    refine iff_of_true trivial fun t ht => ?_
    cases ht
    exact h.openMinor minor
  | readMinor minor =>
    refine iff_of_true trivial fun t ht => ?_
    cases ht
    exact h
  | writeMinor minor val =>
    have hstep : (∀ t, step s (.writeMinor minor val) = some t → Shown gpfdat t) ↔
        Shown gpfdat (s3c24xxLedsWrite s minor val) := by
      simp [step]
    rw [hstep]
    match minor with
    | 0 => exact (shown_writeAll_iff h).symm
    | 1 => exact (shown_writeLed_iff h (k := 0) (by omega)).symm
    | 2 => exact (shown_writeLed_iff h (k := 1) (by omega)).symm
    | 3 => exact (shown_writeLed_iff h (k := 2) (by omega)).symm
    | _ + 4 => exact iff_of_true trivial h

end Lemmas

/-- After minor 0 has been opened, what is remembered and read is what the LEDs show throughout a
run, with the other pins as they were, exactly if each write of minor 0 in the run has the same
in bits 0, 1 and 2, and each of another minor is of 0 or of an odd value, with its further bits
at pins that are at 1. -/
theorem shown_throughout_iff (s : Drv) (as : List Act) :
    Throughout step (Shown s.gpfdat) (s3c24xxLedsOpen s 0) as ↔
      Along step WritesAgree (s3c24xxLedsOpen s 0) as :=
  throughout_iff_along (fun _ a h => writesAgree_iff h a) (shown_openAll fun _ _ _ => rfl) as

/-- Writing 1 to all LEDs puts all pins at 1, and only the first LED is remembered. -/
theorem shown_throughout_all :
    ¬ Throughout step (Shown 0) (s3c24xxLedsOpen ⟨0, 0, 0⟩ 0) [.writeMinor 0 1] := by
  intro h
  exact Bool.false_ne_true ((h.2 _ rfl).status 1 (by omega))

end S3c2440.Leds
