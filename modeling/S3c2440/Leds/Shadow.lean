import S3c2440.Theory.Mutex
import S3c2440.Leds.Driver

/-!
# The LEDs' driver with calls that overlap

The driver of `Leds.Driver` once more, now with any number of processes that open and write
`/dev/led1`, `/dev/led2` and `/dev/led3`, each one statement at a time, in any order. A
`leds_status &= m` or `leds_status |= m` is two steps: the byte is read, and it is written with the
one bit changed. They stand between `down(&leds_lock)` and `up(&leds_lock)` everywhere
but in the open of `/dev/led2`. What is done to the pins, inside the kernel, is one step.

## What is proved

* `call_alone` — a call that nobody disturbs does what `Leds.Driver` says.
* `updates_kept_iff` — exactly when no update is lost: no call may change its bit while
  another, for another LED, has read the byte and has not written it; one of the two is
  then an open of `/dev/led2`.
-/

namespace S3c2440.LedsShared

open Theory Leds

/-! ### The driver -/

/-- The LEDs of minors 1, 2 and 3. -/
inductive Led where
  /-- `/dev/led1`. -/
  | d10
  /-- `/dev/led2`. -/
  | d11
  /-- `/dev/led3`. -/
  | d12
  deriving DecidableEq

/-- The bit of `leds_status`; the pin is four further. -/
def Led.bit : Led → ℕ
  | .d10 => 0
  | .d11 => 1
  | .d12 => 2

/-- A call. -/
inductive Call where
  /-- `s3c24xx_leds_open`. -/
  | openLed (l : Led)
  /-- `s3c24xx_leds_write` of a byte. -/
  | writeLed (l : Led) (val : BitVec 8)
  deriving DecidableEq

/-- Its LED. -/
def Call.led : Call → Led
  | .openLed l | .writeLed l _ => l

/-- Whether it sets the bit, or clears it. -/
def Call.value : Call → Bool
  | .openLed _ => false
  | .writeLed _ val => decide (val ≠ 0)

/-- Whether it takes `leds_lock`. -/
def Call.locked : Call → Bool
  | .openLed .d11 => false
  | _ => true

/-- What it does to the pins. -/
def Call.pins (s : Leds.Drv) : Call → Leds.Drv
  | .openLed l => s3c2410GpioSetpin (s3c2410GpioCfgpin s (4 + l.bit)) (4 + l.bit) 0
  | .writeLed l val => s3c2410GpioSetpin s (4 + l.bit) val

/-- Where a process is. -/
inductive Pc where
  /-- In no call. -/
  | idle
  /-- `s3c2410_gpio_cfgpin`, `s3c2410_gpio_setpin`. -/
  | pins (c : Call)
  /-- `down(&leds_lock);`. -/
  | down (c : Call) (h : c.locked = true)
  /-- `leds_status` is to be read. -/
  | read (c : Call)
  /-- It has been, and is to be written. -/
  | write (c : Call) (byte : BitVec 8)
  /-- `up(&leds_lock);`. -/
  | up
  /-- The call returns. -/
  | ret
  deriving DecidableEq

variable {P : Type} [DecidableEq P]

/-- The driver and the processes. -/
structure Drv (P : Type) where
  /-- The port and `leds_status`. -/
  leds : Leds.Drv
  /-- The count of `leds_lock`. -/
  ledsLock : ℕ
  /-- Where the processes are. -/
  pc : P → Pc
  /-- What the last update of each bit has made of it. -/
  last : Led → Option Bool

/-- With no call in progress. -/
def Drv.init (leds : Leds.Drv) : Drv P := ⟨leds, 1, fun _ => .idle, fun _ => none⟩

/-- Process `p` goes on to `c`. -/
def Drv.goto (s : Drv P) (p : P) (c : Pc) : Drv P := { s with pc := Function.update s.pc p c }

/-- The byte that was read is written with the bit of the call. -/
def Drv.store (s : Drv P) (c : Call) (byte : BitVec 8) : Drv P :=
  { s with
    leds := { s.leds with ledsStatus := putBit byte c.led.bit c.value }
    last := Function.update s.last c.led (some c.value) }

/-- What can happen. -/
inductive Act (P : Type) where
  /-- Process `p` makes a call. -/
  | call (p : P) (c : Call)
  /-- Process `p` takes its next step. -/
  | next (p : P)

/-- One step. `down` has to wait where the count is zero. -/
def step (s : Drv P) : Act P → Option (Drv P)
  | .call p c => if s.pc p = .idle then some (s.goto p (.pins c)) else none
  | .next p =>
    match s.pc p with
    | .idle => none
    | .pins c =>
      some ({ s with leds := c.pins s.leds }.goto p
        (if h : c.locked = true then .down c h else .read c))
    | .down c _ =>
      if 0 < s.ledsLock then some ({ s with ledsLock := s.ledsLock - 1 }.goto p (.read c)) else none
    | .read c => some (s.goto p (.write c s.leds.ledsStatus))
    | .write c byte => some ((s.store c byte).goto p (if c.locked then .up else .ret))
    | .up => some ({ s with ledsLock := s.ledsLock + 1 }.goto p .ret)
    | .ret => some (s.goto p .idle)

section Steps

variable {s t : Drv P} {p q : P}

@[simp] theorem goto_self {c : Pc} : (s.goto p c).pc p = c := Function.update_self ..

theorem goto_of_ne {c : Pc} (h : q ≠ p) : (s.goto p c).pc q = s.pc q := Function.update_of_ne h ..

/-! ### A call by itself -/

/-- The call as a whole, as in `Leds.Driver`. -/
def Call.whole (s : Leds.Drv) : Call → Leds.Drv
  | .openLed l => s3c24xxLedsOpen s (l.bit + 1)
  | .writeLed l val => s3c24xxLedsWrite s (l.bit + 1) val

/-- One LED is written: the pin, and then the bit. -/
theorem writeLed_eq (leds : Leds.Drv) (pin k : ℕ) (val : BitVec 8) : writeLed leds pin k val =
    { s3c2410GpioSetpin leds pin val with
      ledsStatus := putBit leds.ledsStatus k (decide (val ≠ 0)) } := by
  by_cases hval : val = 0
  · rw [writeLed, if_pos hval, putBit, decide_eq_false (by simpa using hval)]
    rfl
  · rw [writeLed, if_neg hval, putBit, decide_eq_true hval]
    rfl

theorem whole_eq (leds : Leds.Drv) (c : Call) : c.whole leds =
    { c.pins leds with ledsStatus := putBit (c.pins leds).ledsStatus c.led.bit c.value } := by
  cases c with
  | openLed l => cases l <;> rfl
  | writeLed l val =>
    have hwhole : (Call.writeLed l val).whole leds = writeLed leds (4 + l.bit) l.bit val := by
      cases l <;> rfl
    rw [hwhole, writeLed_eq]
    rfl

/-- A call that nobody disturbs does what it does as a whole. -/
theorem call_alone (c : Call) (hp : s.pc p = .idle) (hlock : 0 < s.ledsLock) :
    ∃ n t, run step s (.call p c :: List.replicate n (.next p)) = some t ∧
      t.leds = c.whole s.leds ∧ t.ledsLock = s.ledsLock ∧ t.pc = s.pc := by
  have hpc : Function.update s.pc p .idle = s.pc := by
    rw [← hp]
    exact Function.update_eq_self p s.pc
  have hcount : s.ledsLock - 1 + 1 = s.ledsLock := Nat.sub_add_cancel hlock
  refine ⟨if c.locked then 6 else 4, { s with
    leds := c.whole s.leds
    last := Function.update s.last c.led (some c.value) }, ?_, rfl, rfl, rfl⟩
  rw [whole_eq]
  cases hc : c.locked <;>
    simp [run, step, hp, hc, hlock, hpc, hcount, Drv.goto, Drv.store, List.replicate]

/-! ### The lock -/

/-- The process has `leds_lock`. -/
def Pc.inside : Pc → Bool
  | .read c | .write c _ => c.locked
  | .up => true
  | _ => false

/-- `leds_lock` keeps all but one out. -/
def Locked (s : Drv P) : Prop :=
  ∃ owner, Excl owner (fun p => (s.pc p).inside = true) ∧
    s.ledsLock = if owner = none then 1 else 0

theorem Locked.move {c : Pc} (h : Locked s) (ht : t.pc = Function.update s.pc p c)
    (hc : c.inside = (s.pc p).inside) (hlock : t.ledsLock = s.ledsLock) : Locked t := by
  obtain ⟨owner, hexcl, hcount⟩ := h
  refine ⟨owner, hexcl.congr fun q => ?_, hlock.trans hcount⟩
  by_cases hq : q = p
  · simp [ht, hq, hc]
  · simp [ht, hq]

theorem Locked.take {c : Pc} (h : Locked s) (hlock : 0 < s.ledsLock)
    (ht : t.pc = Function.update s.pc p c) (hc : c.inside = true)
    (hcount : t.ledsLock = s.ledsLock - 1) : Locked t := by
  obtain ⟨owner, hexcl, hs⟩ := h
  have hnone : owner = none := by
    by_contra hne
    rw [hs, if_neg hne] at hlock
    exact Nat.lt_irrefl 0 hlock
  refine ⟨some p, hexcl.acquire hnone (by simp [ht, hc]) fun q hq => by simp [ht, hq], ?_⟩
  rw [hcount, hs, if_pos hnone, if_neg (Option.some_ne_none p)]

theorem Locked.leave {c : Pc} (h : Locked s) (hp : (s.pc p).inside = true)
    (ht : t.pc = Function.update s.pc p c) (hc : c.inside = false)
    (hcount : t.ledsLock = s.ledsLock + 1) : Locked t := by
  obtain ⟨owner, hexcl, hs⟩ := h
  refine ⟨none, hexcl.release hp (by simp [ht, hc]) fun q hq => by simp [ht, hq], ?_⟩
  rw [hcount, hs, (hexcl p).mp hp]
  rfl

/-! ### What is remembered -/

/-- Each bit is what its last update has made of it. -/
def UpdatesKept (s : Drv P) : Prop :=
  ∀ l v, s.last l = some v → s.leds.ledsStatus.getLsbD l.bit = v

/-- No call is about to change its bit while another one, for another LED, has read the byte and has
not written it, and one of the two is an open of `/dev/led2`. -/
def Apart (s : Drv P) (a : Act P) : Prop :=
  ∀ p q c c' byte byte', a = .next p → s.pc p = .write c byte → s.pc q = .write c' byte' →
    c'.led ≠ c.led → c = .openLed .d11 ∨ c' = .openLed .d11 →
    s.leds.ledsStatus.getLsbD c.led.bit = c.value

/-- The invariant: who has read the byte still knows all of it that is not its own. -/
structure Inv (s : Drv P) : Prop where
  /-- The lock. -/
  locked : Locked s
  /-- What has been read. -/
  fresh : ∀ p c byte, s.pc p = .write c byte →
    ∀ i, i ≠ c.led.bit → byte.getLsbD i = s.leds.ledsStatus.getLsbD i
  /-- What has been written. -/
  kept : UpdatesKept s

theorem Led.bit_lt (l : Led) : l.bit < 8 := by cases l <;> decide

theorem Led.bit_inj {l l' : Led} (h : l.bit = l'.bit) : l = l' := by
  cases l <;> cases l' <;> first | rfl | cases h

theorem Call.eq_of_not_locked {c : Call} (h : c.locked = false) : c = .openLed .d11 := by
  cases c with
  | openLed l => cases l <;> first | rfl | cases h
  | writeLed l val => cases h

/-- The pins are not what is remembered. -/
theorem Call.ledsStatus_pins (c : Call) (s : Leds.Drv) : (c.pins s).ledsStatus = s.ledsStatus := by
  cases c <;> rfl

omit [DecidableEq P] in
theorem inv_init (leds : Leds.Drv) : Inv (Drv.init leds : Drv P) :=
  ⟨⟨none, fun _ => by simp [Drv.init, Pc.inside], rfl⟩, fun _ _ _ h => (by cases h),
    fun _ _ h => (by cases h)⟩

/-- A step that writes nothing. -/
theorem Inv.other {c : Pc} (h : Inv s) (hlocked : Locked t) (ht : t.pc = Function.update s.pc p c)
    (hc : ∀ c' byte, c = .write c' byte → byte = s.leds.ledsStatus)
    (hstatus : t.leds.ledsStatus = s.leds.ledsStatus) (hlast : t.last = s.last) : Inv t := by
  refine ⟨hlocked, fun q c' byte hq i hi => ?_, fun l v hl => ?_⟩
  · rw [hstatus]
    by_cases hqp : q = p
    · subst hqp
      rw [ht, Function.update_self] at hq
      rw [hc c' byte hq]
    · rw [ht, Function.update_of_ne hqp] at hq
      exact h.fresh q c' byte hq i hi
  · rw [hstatus]
    exact h.kept l v (hlast ▸ hl)

omit [DecidableEq P] in
/-- The byte after an update, if nobody has changed it since it was read. -/
theorem Inv.status_store {c : Call} {byte : BitVec 8} (h : Inv s) (hp : s.pc p = .write c byte)
    (i : ℕ) : (s.store c byte).leds.ledsStatus.getLsbD i =
      if i = c.led.bit then c.value else s.leds.ledsStatus.getLsbD i := by
  rw [Drv.store, getLsbD_putBit c.led.bit_lt]
  split
  · rfl
  · next hi => exact h.fresh p c byte hp i hi

omit [DecidableEq P] in
/-- An update keeps all bits as they were last updated. -/
theorem Inv.kept_store {c : Call} {byte : BitVec 8} (h : Inv s) (hp : s.pc p = .write c byte) :
    UpdatesKept (s.store c byte) := by
  intro l v hl
  rw [h.status_store hp]
  simp only [Drv.store, Function.update_apply] at hl
  split at hl
  · next hled => simpa [hled] using hl
  · next hled => rw [if_neg fun hbit => hled (Led.bit_inj hbit), h.kept l v hl]

/-- An update that is apart from others leaves them what they have read. -/
theorem Inv.store {d : Pc} {call : Call} {byte : BitVec 8} (h : Inv s)
    (hp : s.pc p = .write call byte) (ha : Apart s (.next p))
    (hd : d.inside = call.locked) (hnot : ∀ c' byte', d ≠ .write c' byte') :
    Inv ((s.store call byte).goto p d) := by
  refine ⟨h.locked.move (p := p) (c := d) rfl (by rw [hd, hp]; rfl) rfl,
    fun q c' byte' hq i hi => ?_, h.kept_store hp⟩
  have hqp : q ≠ p := by
    rintro rfl
    rw [goto_self] at hq
    exact hnot _ _ hq
  rw [goto_of_ne hqp] at hq
  change s.pc q = _ at hq
  change byte'.getLsbD i = (s.store call byte).leds.ledsStatus.getLsbD i
  rw [h.status_store hp, h.fresh q c' byte' hq i hi]
  split
  case isFalse => rfl
  case isTrue hbit =>
    -- the bit that changes is not the other call's own, so that one of the two has no lock
    have hled : c'.led ≠ call.led := fun he => hi (by rw [hbit, he])
    rw [hbit]
    refine ha p q call c' byte byte' rfl hp hq hled ?_
    by_contra hboth
    obtain ⟨hcall, hc'⟩ := not_or.mp hboth
    obtain ⟨owner, hexcl, -⟩ := h.locked
    refine hqp (hexcl.unique ?_ ?_)
    · rw [hq]
      by_contra hno
      exact hc' (Call.eq_of_not_locked (Bool.eq_false_of_not_eq_true hno))
    · rw [hp]
      by_contra hno
      exact hcall (Call.eq_of_not_locked (Bool.eq_false_of_not_eq_true hno))

theorem inv_step {a : Act P} (h : Inv s) (ha : Apart s a) (ht : step s a = some t) : Inv t := by
  cases a with
  | call p c =>
    simp only [step, Option.ite_none_right_eq_some, Option.some.injEq] at ht
    obtain ⟨hpc, rfl⟩ := ht
    exact h.other (h.locked.move rfl (by rw [hpc]; rfl) rfl) rfl (fun _ _ he => by cases he) rfl rfl
  | next p =>
    cases hpc : s.pc p with
    | idle => simp [step, hpc] at ht
    | pins c =>
      simp only [step, hpc, Option.some.injEq] at ht
      subst ht
      refine h.other (h.locked.move rfl ?_ rfl) rfl ?_ (c.ledsStatus_pins s.leds) rfl
      · rw [hpc]
        split
        · rfl
        · next hc => exact Bool.eq_false_of_not_eq_true hc
      · intro c' byte he
        split at he <;> cases he
    | down c hc =>
      simp only [step, hpc, Option.ite_none_right_eq_some, Option.some.injEq] at ht
      obtain ⟨hlock, rfl⟩ := ht
      exact h.other (h.locked.take hlock rfl hc rfl) rfl (fun _ _ he => by cases he) rfl rfl
    | read c =>
      simp only [step, hpc, Option.some.injEq] at ht
      subst ht
      exact h.other (h.locked.move rfl (by rw [hpc]; rfl) rfl) rfl
        (fun _ _ he => by cases he; rfl) rfl rfl
    | write c byte =>
      simp only [step, hpc, Option.some.injEq] at ht
      subst ht
      refine h.store hpc ha ?_ fun c' byte' he => ?_
      · cases c.locked <;> rfl
      · split at he <;> cases he
    | up =>
      simp only [step, hpc, Option.some.injEq] at ht
      subst ht
      exact h.other (h.locked.leave (by rw [hpc]; rfl) rfl rfl rfl) rfl
        (fun _ _ he => by cases he) rfl rfl
    | ret =>
      simp only [step, hpc, Option.some.injEq] at ht
      subst ht
      exact h.other (h.locked.move rfl (by rw [hpc]; rfl) rfl) rfl (fun _ _ he => by cases he)
        rfl rfl

/-- Whatever is done next, the bits are as they were last updated. -/
theorem Inv.kept_step {a : Act P} (h : Inv s) (ht : step s a = some t) : UpdatesKept t := by
  cases a with
  | call p c =>
    simp only [step, Option.ite_none_right_eq_some, Option.some.injEq] at ht
    obtain ⟨-, rfl⟩ := ht
    exact h.kept
  | next p =>
    cases hpc : s.pc p with
    | write c byte =>
      simp only [step, hpc, Option.some.injEq] at ht
      subst ht
      exact h.kept_store hpc
    | down c hc =>
      simp only [step, hpc, Option.ite_none_right_eq_some, Option.some.injEq] at ht
      obtain ⟨-, rfl⟩ := ht
      exact h.kept
    | idle => simp [step, hpc] at ht
    | pins c =>
      simp only [step, hpc, Option.some.injEq] at ht
      subst ht
      intro l v hl
      exact (congrArg (fun x => x.getLsbD l.bit) (c.ledsStatus_pins s.leds)).trans (h.kept l v hl)
    | read c | up | ret =>
      simp only [step, hpc, Option.some.injEq] at ht
      subst ht
      exact h.kept

/-- A call changes its bit while another has an old byte: the other's update takes the change
back. -/
theorem Inv.lost {p q : P} {c c' : Call} {byte byte' : BitVec 8} (h : Inv s)
    (hp : s.pc p = .write c byte) (hq : s.pc q = .write c' byte') (hled : c'.led ≠ c.led)
    (hchange : s.leds.ledsStatus.getLsbD c.led.bit ≠ c.value) :
    ∃ t, step s (.next p) = some t ∧ ∃ b u, step t b = some u ∧ ¬ UpdatesKept u := by
  have hqp : q ≠ p := by
    rintro rfl
    cases hp.symm.trans hq
    exact hled rfl
  have hbit : c.led.bit ≠ c'.led.bit := fun he => hled (Led.bit_inj he).symm
  have hold : byte'.getLsbD c.led.bit = s.leds.ledsStatus.getLsbD c.led.bit :=
    h.fresh q c' byte' hq _ hbit
  obtain ⟨t, ht, htq, htlast⟩ : ∃ t, step s (.next p) = some t ∧ t.pc q = .write c' byte' ∧
      t.last c.led = some c.value := by
    refine ⟨_, by rw [step, hp], ?_, Function.update_self ..⟩
    rw [goto_of_ne hqp]
    exact hq
  refine ⟨t, ht, .next q, _, by rw [step, htq], fun hkept => hchange ?_⟩
  rw [← hold, ← hkept c.led c.value ((Function.update_of_ne (Ne.symm hled) ..).trans htlast)]
  exact (getLsbD_putBit_of_ne c'.led.bit_lt _ hbit).symm

end Steps

/-- After every step that can be taken at any point of a run, each bit is what its last update has
made of it, exactly if in the run no call changes its bit while another, for another LED, has
read the byte and not written it, and one of the two is an open of `/dev/led2`. -/
theorem updates_kept_iff (leds : Leds.Drv) (as : List (Act P)) :
    Along step Apart (Drv.init leds) as ↔
      ∀ bs cs s a t, as = bs ++ cs → run step (Drv.init leds) bs = some s → step s a = some t →
        UpdatesKept t := by
  refine along_iff_of_next (inv_init leds) (fun _ _ _ => inv_step)
    (fun _ _ _ h ht => h.kept_step ht) (fun s a h ha => ?_) as
  obtain ⟨p, q, c, c', byte, byte', rfl, hp, hq, hled, -, hchange⟩ : ∃ p q c c' byte byte',
      a = .next p ∧ s.pc p = .write c byte ∧ s.pc q = .write c' byte' ∧ c'.led ≠ c.led ∧
        (c = .openLed .d11 ∨ c' = .openLed .d11) ∧
        s.leds.ledsStatus.getLsbD c.led.bit ≠ c.value := by
    simpa only [Apart, not_forall, exists_prop] using ha
  exact h.lost hp hq hled hchange

/-- An open of `/dev/led2` has read the byte when `/dev/led1` is switched on: once both calls have
returned, that LED is remembered as it was before. -/
theorem updates_kept_lost :
    ∃ s : Drv Bool, run step (Drv.init ⟨0, 0, 0⟩) [.call true (.openLed .d11), .next true,
        .next true, .call false (.writeLed .d10 1), .next false, .next false, .next false,
        .next false, .next false, .next false, .next true, .next true] = some s ∧
      (∀ p, s.pc p = .idle) ∧ s.last .d10 = some true ∧ s.leds.ledsStatus.getLsbD 0 = false := by
  refine ⟨_, rfl, fun p => ?_, rfl, rfl⟩
  cases p <;> rfl

end S3c2440.LedsShared
