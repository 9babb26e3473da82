import S3c2440.Interrupt.Keys

/-!
# The dispatch of the keys' interrupts

`handle_irq_c` in `bare_board/code/I2c/20200510_IIC/interrupt.c`: it reads which interrupt is being
served from INTOFFSET, calls its handler, here `key_eint_irq` for lines 0 and 2, and then clears
the bit of the line in SRCPND and in INTPND.

Every change of the level of S2 or S3 sets the bit of its line in SRCPND. The controller puts a bit
of SRCPND into INTPND when there is none; the CPU is interrupted while there is one. All that can
come between any two statements of `handle_irq_c` and `key_eint_irq`.

## What is proved

* `shown_iff` — exactly when the LEDs of both keys show the levels of their pins whenever
  everything has been served: no key may change between the handler's reading of its pin and
  the clearing of its bit in SRCPND.
-/

namespace S3c2440.Interrupt.Dispatch

open Theory

/-! ### The controller and the CPU -/

/-- The keys with a line of their own. -/
inductive Key where
  /-- On line 0. -/
  | s2
  /-- On line 2. -/
  | s3
  deriving DecidableEq

/-- The line. -/
def Key.line : Key → ℕ
  | .s2 => 0
  | .s3 => 2

/-- The pin, in GPFDAT. -/
def Key.pin : Key → ℕ
  | .s2 => 0
  | .s3 => 2

/-- The LED, in GPFDAT. -/
def Key.led : Key → ℕ
  | .s2 => 6
  | .s3 => 5

/-- Where the CPU is. -/
inductive Pc where
  /-- In no handler. -/
  | idle
  /-- `int bit = INTOFFSET;`. -/
  | offset
  /-- `key_eint_irq` reads EINTPEND, GPFDAT and GPGDAT. -/
  | read (k : Key)
  /-- It sets the LEDs. -/
  | leds (k : Key) (val val1 val2 : BitVec 32)
  /-- `EINTPEND = val;`. -/
  | eintpend (k : Key) (val : BitVec 32)
  /-- `SRCPND = (1<<bit);`. -/
  | srcpnd (k : Key)
  /-- `INTPND = (1<<bit);`. -/
  | intpnd (k : Key)
  deriving DecidableEq

/-- The controller and the CPU. -/
structure Soc where
  /-- The pins and the LEDs. -/
  regs : Regs
  /-- The bits of the lines in SRCPND. -/
  srcpnd : Key → Bool
  /-- The bit in INTPND. -/
  intpnd : Option Key
  /-- The CPU. -/
  pc : Pc
  /-- Which keys have changed since the start. -/
  changed : Key → Bool

/-- With nothing pending. -/
def Soc.init (regs : Regs) : Soc := ⟨regs, fun _ => false, none, .idle, fun _ => false⟩

/-- The CPU's next statement. -/
def cpu (s : Soc) : Option Soc :=
  match s.pc with
  | .idle => if s.intpnd.isSome then some { s with pc := .offset } else none
  | .offset => s.intpnd.map fun k => { s with pc := .read k }
  | .read k => some { s with pc := .leds k s.regs.eintpend s.regs.gpfdat s.regs.gpgdat }
  | .leds k val val1 val2 =>
    some { s with regs := keyLeds s.regs k.line val val1 val2, pc := .eintpend k val }
  | .eintpend k val => some { s with regs := writeEintpend s.regs val, pc := .srcpnd k }
  | .srcpnd k => some { s with srcpnd := Function.update s.srcpnd k false, pc := .intpnd k }
  | .intpnd k =>
    some { s with intpnd := if s.intpnd = some k then none else s.intpnd, pc := .idle }

/-- A key changes: its pin, and the bit of its line. -/
def Soc.change (s : Soc) (k : Key) : Soc :=
  { s with
    regs := { s.regs with gpfdat := putBit s.regs.gpfdat k.pin (!s.regs.gpfdat.getLsbD k.pin) }
    srcpnd := Function.update s.srcpnd k true
    changed := Function.update s.changed k true }

/-- What can happen. -/
inductive Act where
  /-- A key is pressed or let go. -/
  | change (k : Key)
  /-- The controller puts a pending bit into INTPND. -/
  | latch (k : Key)
  /-- The CPU goes on. -/
  | cpu
  deriving DecidableEq

/-- One step. -/
def step (s : Soc) : Act → Option Soc
  | .change k => some (s.change k)
  | .latch k =>
    if s.intpnd = none ∧ s.srcpnd k = true then some { s with intpnd := some k } else none
  | .cpu => cpu s

/-! ### What the LEDs show -/

/-- The LED of the key shows the level of its pin. -/
def Shown (s : Soc) (k : Key) : Prop :=
  s.regs.gpfdat.getLsbD k.led = s.regs.gpfdat.getLsbD k.pin

/-- With nothing pending and no handler running, the LED of each key that has changed shows its
level. -/
def Settled (s : Soc) : Prop :=
  s.pc = .idle → s.intpnd = none → (∀ k, s.srcpnd k = false) → ∀ k, s.changed k = true → Shown s k

/-- The handler has read the pin of the key, and its bit in SRCPND has still to be cleared. -/
def Pc.past (k : Key) : Pc → Prop
  | .leds k' .. | .eintpend k' _ | .srcpnd k' => k' = k
  | _ => False

/-- It has set the LED of the key as well. -/
def Pc.done (k : Key) : Pc → Prop
  | .eintpend k' _ | .srcpnd k' => k' = k
  | _ => False

/-- No key changes between the two. -/
def InTime (s : Soc) (a : Act) : Prop := ∀ k, a = .change k → ¬ s.pc.past k

/-- The CPU is in a handler for the key. -/
def Pc.serving (k : Key) : Pc → Prop
  | .read k' | .leds k' .. | .eintpend k' _ | .srcpnd k' | .intpnd k' => k' = k
  | _ => False

/-- The invariant. -/
structure Inv (s : Soc) : Prop where
  /-- The bit of the line that is served. -/
  intpnd : ∀ k, s.pc.serving k → s.intpnd = some k
  /-- A key that does not show its level has its bit set. -/
  due : ∀ k, s.changed k = true → s.srcpnd k = false → Shown s k
  /-- The level that has been read is the present one. -/
  read : ∀ k val val1 val2, s.pc = .leds k val val1 val2 →
    val1.getLsbD k.pin = s.regs.gpfdat.getLsbD k.pin
  /-- And then it is shown. -/
  done : ∀ k, s.pc.done k → Shown s k

section Steps

variable {s t : Soc} {k k' : Key} {a : Act} {i : ℕ}

theorem Key.pin_lt (k : Key) : k.pin < 32 := by cases k <;> decide

theorem Key.led_ne_pin (k k' : Key) : k.led ≠ k'.pin := by cases k <;> cases k' <;> decide

theorem Key.pin_inj (h : k.pin = k'.pin) : k = k' := by
  cases k <;> cases k' <;> first | rfl | cases h

theorem Key.led_inj (h : k.led = k'.led) : k = k' := by
  cases k <;> cases k' <;> first | rfl | cases h

/-- What the handler for the key does to GPFDAT. -/
theorem getLsbD_keyLeds (regs : Regs) (val val1 val2 : BitVec 32) :
    (keyLeds regs k.line val val1 val2).gpfdat.getLsbD i =
      if i = k.led then val1.getLsbD k.pin else regs.gpfdat.getLsbD i := by
  have hleds : keyLeds regs k.line val val1 val2 =
      putLeds regs (1#32 <<< k.led) (val1.getLsbD k.pin) := by
    cases k <;> rfl
  have hbit : (1#32 <<< k.led).getLsbD i = decide (i = k.led) := by
    have hlt : k.led < 32 := by cases k <;> decide
    rw [← BitVec.twoPow_eq, BitVec.getLsbD_twoPow, decide_eq_true hlt, Bool.true_and]
    exact decide_eq_decide.mpr eq_comm
  rw [hleds, getLsbD_putLeds, hbit]
  simp only [decide_eq_true_eq]

theorem getLsbD_change : (s.change k).regs.gpfdat.getLsbD i =
    if i = k.pin then !s.regs.gpfdat.getLsbD k.pin else s.regs.gpfdat.getLsbD i :=
  getLsbD_putBit k.pin_lt _

/-- A change leaves what the other key shows. -/
theorem shown_change (hk : k' ≠ k) : Shown (s.change k) k' ↔ Shown s k' := by
  rw [Shown, getLsbD_change, getLsbD_change, if_neg (k'.led_ne_pin k),
    if_neg fun he => hk (Key.pin_inj he), Shown]

/-- And what its own key shows is wrong afterwards, if it was right. -/
theorem not_shown_change (h : Shown s k) : ¬ Shown (s.change k) k := by
  rw [Shown, getLsbD_change, getLsbD_change, if_neg (k.led_ne_pin k), if_pos rfl,
    show s.regs.gpfdat.getLsbD k.led = _ from h]
  exact (Bool.eq_not_self _).mp

theorem inv_init (regs : Regs) : Inv (Soc.init regs) :=
  ⟨fun _ h => h.elim, fun _ h => (by cases h), fun _ _ _ _ h => (by cases h),
    fun _ h => h.elim⟩

theorem Pc.past_of_done {pc : Pc} (h : pc.done k) : pc.past k := by
  cases pc <;> first | exact h.elim | exact h

theorem Inv.change (h : Inv s) (hk : ¬ s.pc.past k) : Inv (s.change k) := by
  refine ⟨h.intpnd, fun k' hc hs => ?_, fun k' val val1 val2 hpc => ?_, fun k' hpc => ?_⟩
  · have hne : k' ≠ k := by
      rintro rfl
      simp [Soc.change] at hs
    simp only [Soc.change, Function.update_of_ne hne] at hc hs
    exact (shown_change hne).mpr (h.due k' hc hs)
  · have hne : k' ≠ k := by
      rintro rfl
      exact hk (by rw [show s.pc = _ from hpc]; rfl)
    rw [getLsbD_change, if_neg fun he => hne (Key.pin_inj he)]
    exact h.read k' val val1 val2 hpc
  · have hne : k' ≠ k := by
      rintro rfl
      exact hk (Pc.past_of_done hpc)
    exact (shown_change hne).mpr (h.done k' hpc)

theorem Inv.latch (h : Inv s) (ht : step s (.latch k) = some t) : Inv t := by
  simp only [step, Option.ite_none_right_eq_some, Option.some.injEq] at ht
  obtain ⟨⟨hnone, -⟩, rfl⟩ := ht
  refine ⟨fun k' hk' => ?_, h.due, h.read, h.done⟩
  have hsome := h.intpnd k' hk'
  rw [hnone] at hsome
  cases hsome

theorem Inv.cpu (h : Inv s) (ht : step s .cpu = some t) : Inv t := by
  change Dispatch.cpu s = some t at ht
  unfold Dispatch.cpu at ht
  cases hpc : s.pc with
  | idle =>
    simp only [hpc, Option.ite_none_right_eq_some, Option.some.injEq] at ht
    obtain ⟨-, rfl⟩ := ht
    exact ⟨fun _ hk => hk.elim, h.due, fun _ _ _ _ he => (by cases he),
      fun _ he => he.elim⟩
  | offset =>
    simp only [hpc, Option.map_eq_some_iff] at ht
    obtain ⟨k, hk, rfl⟩ := ht
    exact ⟨fun k' hk' => (by cases hk'; exact hk), h.due, fun _ _ _ _ he => (by cases he),
      fun _ he => he.elim⟩
  | read k =>
    simp only [hpc, Option.some.injEq] at ht
    subst ht
    refine ⟨fun k' hk' => h.intpnd k' (by rw [hpc]; exact hk'), h.due,
      fun k' val val1 val2 he => ?_, fun _ he => he.elim⟩
    cases he
    rfl
  | leds k val val1 val2 =>
    simp only [hpc, Option.some.injEq] at ht
    subst ht
    have hpin : val1.getLsbD k.pin = s.regs.gpfdat.getLsbD k.pin := h.read k val val1 val2 hpc
    have hshown : ∀ k', k' ≠ k → (Shown { s with
        regs := keyLeds s.regs k.line val val1 val2, pc := .eintpend k val } k' ↔ Shown s k') := by
      intro k' hne
      simp only [Shown, getLsbD_keyLeds]
      rw [if_neg fun he => hne (Key.led_inj he), if_neg (k.led_ne_pin k').symm]
    have hself : Shown { s with
        regs := keyLeds s.regs k.line val val1 val2, pc := .eintpend k val } k := by
      simp only [Shown, getLsbD_keyLeds]
      rw [if_pos trivial, if_neg (k.led_ne_pin k).symm, hpin]
    refine ⟨fun k' hk' => h.intpnd k' (by rw [hpc]; exact hk'), fun k' hc hs => ?_,
      fun _ _ _ _ he => (by cases he), fun k' he => ?_⟩
    · by_cases hk : k' = k
      · exact hk ▸ hself
      · exact (hshown k' hk).mpr (h.due k' hc hs)
    · cases he
      exact hself
  | eintpend k val =>
    simp only [hpc, Option.some.injEq] at ht
    subst ht
    refine ⟨fun k' hk' => h.intpnd k' (by rw [hpc]; exact hk'), h.due,
      fun _ _ _ _ he => (by cases he), fun k' he => ?_⟩
    cases he
    exact h.done k (by rw [hpc]; rfl)
  | srcpnd k =>
    simp only [hpc, Option.some.injEq] at ht
    subst ht
    refine ⟨fun k' hk' => h.intpnd k' (by rw [hpc]; exact hk'), fun k' hc hs => ?_,
      fun _ _ _ _ he => (by cases he), fun _ he => he.elim⟩
    by_cases hk : k' = k
    · exact hk ▸ h.done k (by rw [hpc]; rfl)
    · exact h.due k' hc ((Function.update_of_ne hk ..).symm.trans hs)
  | intpnd k =>
    simp only [hpc, Option.some.injEq] at ht
    subst ht
    exact ⟨fun _ hk => hk.elim, h.due, fun _ _ _ _ he => (by cases he),
      fun _ he => he.elim⟩

theorem inv_step (h : Inv s) (ha : InTime s a) (ht : step s a = some t) : Inv t := by
  cases a with
  | change k =>
    cases ht
    exact h.change (ha k rfl)
  | latch k => exact h.latch ht
  | cpu => exact h.cpu ht

theorem Inv.settled (h : Inv s) : Settled s := fun _ _ hs k hc => h.due k hc (hs k)

/-! ### A key that is missed -/

/-- The CPU is idle, and a key that does not show its level will not be served. -/
structure Missed (s : Soc) (k : Key) : Prop where
  /-- The CPU is in no handler. -/
  idle : s.pc = .idle
  /-- Nor about to be. -/
  intpnd : s.intpnd = none
  /-- The bit of the line is not set. -/
  srcpnd : s.srcpnd k = false
  /-- The key has changed. -/
  changed : s.changed k = true
  /-- It does not show its level. -/
  shown : ¬ Shown s k

/-- The handler clears the bit of the key. -/
theorem missed_of_srcpnd (hpc : s.pc = .srcpnd k) (hint : s.intpnd = some k)
    (hc : s.changed k = true) (hnot : ¬ Shown s k) :
    ∃ t, run step s [.cpu, .cpu] = some t ∧ Missed t k := by
  refine ⟨{ s with srcpnd := Function.update s.srcpnd k false, intpnd := none, pc := .idle }, ?_,
    rfl, rfl, Function.update_self .., hc, hnot⟩
  simp [run, step, Dispatch.cpu, hpc, hint]

theorem missed_of_eintpend {val : BitVec 32} (hpc : s.pc = .eintpend k val)
    (hint : s.intpnd = some k) (hc : s.changed k = true) (hnot : ¬ Shown s k) :
    ∃ t, run step s [.cpu, .cpu, .cpu] = some t ∧ Missed t k := by
  have hstep : step s .cpu = some { s with regs := writeEintpend s.regs val, pc := .srcpnd k } := by
    simp [step, Dispatch.cpu, hpc]
  obtain ⟨t, ht, hmissed⟩ := missed_of_srcpnd (k := k)
    (s := { s with regs := writeEintpend s.regs val, pc := .srcpnd k }) rfl hint hc hnot
  exact ⟨t, run_cons.mpr ⟨_, hstep, ht⟩, hmissed⟩

theorem missed_of_leds {val val1 val2 : BitVec 32} (hpc : s.pc = .leds k val val1 val2)
    (hint : s.intpnd = some k) (hc : s.changed k = true)
    (hpin : val1.getLsbD k.pin ≠ s.regs.gpfdat.getLsbD k.pin) :
    ∃ t, run step s [.cpu, .cpu, .cpu, .cpu] = some t ∧ Missed t k := by
  have hstep : step s .cpu = some { s with
      regs := keyLeds s.regs k.line val val1 val2, pc := .eintpend k val } := by
    simp [step, Dispatch.cpu, hpc]
  have hnot : ¬ Shown { s with
      regs := keyLeds s.regs k.line val val1 val2, pc := .eintpend k val } k := by
    simp only [Shown, getLsbD_keyLeds]
    rwa [if_pos trivial, if_neg (k.led_ne_pin k).symm]
  obtain ⟨t, ht, hmissed⟩ := missed_of_eintpend (k := k) rfl (s := { s with
    regs := keyLeds s.regs k.line val val1 val2, pc := .eintpend k val }) hint hc hnot
  exact ⟨t, run_cons.mpr ⟨_, hstep, ht⟩, hmissed⟩

/-- The other key. -/
def Key.other : Key → Key
  | .s2 => .s3
  | .s3 => .s2

theorem Key.eq_other (h : k' ≠ k) : k' = k.other := by
  cases k <;> cases k' <;> first | rfl | exact absurd rfl h

/-- The other key is served, and this one stays missed. -/
theorem Missed.serve (h : Missed s k) (hne : k' ≠ k) (hs : s.srcpnd k' = true) :
    ∃ t, run step s [.latch k', .cpu, .cpu, .cpu, .cpu, .cpu, .cpu, .cpu] = some t ∧
      Missed t k ∧ t.srcpnd k' = false := by
  refine ⟨{ s with
    regs := writeEintpend (keyLeds s.regs k'.line s.regs.eintpend s.regs.gpfdat s.regs.gpgdat)
      s.regs.eintpend
    srcpnd := Function.update s.srcpnd k' false }, ?_, ⟨h.idle, h.intpnd, ?_, h.changed, ?_⟩,
    Function.update_self ..⟩
  · simp [run, step, Dispatch.cpu, h.idle, h.intpnd, hs]
  · exact (Function.update_of_ne hne.symm ..).trans h.srcpnd
  · have hshown := h.shown
    simp only [Shown, writeEintpend, getLsbD_keyLeds]
    rwa [if_neg fun he => hne (Key.led_inj he).symm, if_neg (k'.led_ne_pin k).symm]

/-- No key changes any more. -/
def Quiet (as : List Act) : Prop := ∀ k, Act.change k ∉ as

/-- Once everything is served, a missed key is wrong. -/
theorem Missed.lost (h : Missed s k) :
    ∃ ds t, Quiet ds ∧ run step s ds = some t ∧ ¬ Settled t := by
  have hwrong : ∀ t, Missed t k → t.srcpnd k.other = false → ¬ Settled t := by
    intro t ht hother hsettled
    refine ht.shown (hsettled ht.idle ht.intpnd (fun k' => ?_) k ht.changed)
    by_cases hk : k' = k
    · exact hk ▸ ht.srcpnd
    · exact Key.eq_other hk ▸ hother
  have hne : k.other ≠ k := by cases k <;> decide
  cases hs : s.srcpnd k.other with
  | false => exact ⟨[], s, by simp [Quiet], rfl, hwrong s h hs⟩
  | true =>
    obtain ⟨t, ht, hmissed, hother⟩ := h.serve hne hs
    exact ⟨_, t, by simp [Quiet], ht, hwrong t hmissed hother⟩

/-- The handler goes on with a level that is not the present one any more. -/
theorem Inv.missed (h : Inv s) (hk : s.pc.past k) :
    ∃ ds u, Quiet ds ∧ run step (s.change k) ds = some u ∧ Missed u k := by
  have hint : (s.change k).intpnd = some k := by
    refine h.intpnd k ?_
    cases hpc : s.pc <;> rw [hpc] at hk <;> first | exact hk.elim | exact hk
  have hchanged : (s.change k).changed k = true := Function.update_self ..
  replace hk : (s.change k).pc.past k := hk
  cases hpc : (s.change k).pc with
  | leds k₀ val val1 val2 =>
    obtain rfl : k₀ = k := by rw [hpc] at hk; exact hk
    have hpin : val1.getLsbD k₀.pin ≠ (s.change k₀).regs.gpfdat.getLsbD k₀.pin := by
      rw [getLsbD_change, if_pos rfl, h.read k₀ val val1 val2 hpc]
      exact (Bool.eq_not_self _).mp
    obtain ⟨u, hu, hmissed⟩ := missed_of_leds hpc hint hchanged hpin
    exact ⟨_, u, by simp [Quiet], hu, hmissed⟩
  | eintpend k₀ val =>
    obtain rfl : k₀ = k := by rw [hpc] at hk; exact hk
    have hnot := not_shown_change (h.done k₀ (by rw [show s.pc = _ from hpc]; rfl))
    obtain ⟨u, hu, hmissed⟩ := missed_of_eintpend hpc hint hchanged hnot
    exact ⟨_, u, by simp [Quiet], hu, hmissed⟩
  | srcpnd k₀ =>
    obtain rfl : k₀ = k := by rw [hpc] at hk; exact hk
    have hnot := not_shown_change (h.done k₀ (by rw [show s.pc = _ from hpc]; rfl))
    obtain ⟨u, hu, hmissed⟩ := missed_of_srcpnd hpc hint hchanged hnot
    exact ⟨_, u, by simp [Quiet], hu, hmissed⟩
  | idle | offset | read _ | intpnd _ =>
    rw [hpc] at hk
    exact hk.elim

/-- A key changes after the handler has read its pin, and is wrong in the end. -/
theorem Inv.lost (h : Inv s) (hk : s.pc.past k) :
    ∃ ds u, Quiet ds ∧ run step (s.change k) ds = some u ∧ ¬ Settled u := by
  obtain ⟨as, u, has, hu, hmissed⟩ := h.missed hk
  obtain ⟨bs, v, hbs, hv, hwrong⟩ := hmissed.lost
  refine ⟨as ++ bs, v, fun k' hk' => ?_, run_append.mpr ⟨u, hu, hv⟩, hwrong⟩
  rcases List.mem_append.mp hk' with hk' | hk'
  · exact has k' hk'
  · exact hbs k' hk'

end Steps

/-- Whenever everything has been served, the LED of each key that has changed shows the level of its
pin, wherever a run, broken off at any point, may go on to with no further change, exactly if in
the run no key changes after the handler has read its pin and before its bit is cleared. -/
theorem shown_iff (regs : Regs) (as : List Act) :
    Along step InTime (Soc.init regs) as ↔
      ∀ bs cs ds t, as = bs ++ cs → Quiet ds → run step (Soc.init regs) (bs ++ ds) = some t →
        Settled t := by
  have hinv : ∀ as s, Along step InTime (Soc.init regs) as →
      run step (Soc.init regs) as = some s → Inv s :=
    fun as s has hs => (has.invariant (fun _ _ _ => inv_step) (inv_init regs)).last hs
  have hquiet : ∀ s ds, Quiet ds → Along step InTime s ds := by
    intro s ds hds
    refine along_of_forall (fun _ a ha k hk => ?_) s
    subst hk
    exact absurd ha (hds k)
  refine along_iff_of_lost (fun as t has ht => (hinv as t has ht).settled) hquiet
    (fun as s a has hs ha => ?_) as
  obtain ⟨k, rfl, hk⟩ : ∃ k, a = .change k ∧ s.pc.past k := by
    simpa only [InTime, not_forall, exists_prop, not_not] using ha
  exact ⟨_, rfl, (hinv as s has hs).lost hk⟩

/-- Key S2 is let go while its handler, which has read it as pressed, is about to set the LED: the
LED stays as for a key that is pressed. -/
theorem shown_late :
    ∃ s, run step (Soc.init ⟨0, 0b1100101, 0, []⟩) [.change .s3, .latch .s3, .cpu, .cpu, .cpu, .cpu,
        .cpu, .cpu, .cpu, .change .s2, .latch .s2, .cpu, .cpu, .cpu, .change .s2, .cpu, .cpu, .cpu,
        .cpu] = some s ∧
      s.pc = .idle ∧ s.intpnd = none ∧ (∀ k, s.srcpnd k = false) ∧ (∀ k, s.changed k = true) ∧
      ¬ Shown s .s2 := by
  refine ⟨_, rfl, rfl, rfl, fun k => ?_, fun k => ?_, ?_⟩
  · cases k <;> rfl
  · cases k <;> rfl
  · exact fun h => by cases h

end S3c2440.Interrupt.Dispatch
