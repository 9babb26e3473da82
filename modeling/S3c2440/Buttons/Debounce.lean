import S3c2440.Theory.Runs
import S3c2440.Buttons.Irq

/-!
# The keys as an input device

`linux_driver/code/Input_Buttons_001_200808/Buttons.c`: at every change of a key's level
`buttons_irq` keeps which key it was in `irq_pd`, and arms the timer to run 10 ms later, or again if
it is pending already. `buttons_timer_function` reads the pin of that key and reports it with
`input_event`. All keys share the timer, and `irq_pd`.

The levels change at any time, each change asks for one run of `buttons_irq`, and the interrupt and
the timer run as a whole. The timer has been added without a time when the driver was loaded, and
runs once with no key.

## What is proved

* `settled_iff` — exactly when what has been reported is true once nothing is outstanding: no
  `buttons_irq` of a key may take the timer from another one that has still to be reported.
-/

namespace S3c2440.Debounce

open Theory Buttons

/-! ### The driver -/

/-- The `key_val` of the descriptor: `KEY_L`, `KEY_S`, `KEY_ENTER` and `KEY_LEFTSHIFT`. -/
def keyVal : Line → ℕ
  | .eint0 => 38
  | .eint2 => 31
  | .eint11 => 28
  | .eint19 => 42

/-- The keys and the driver. -/
structure Drv where
  /-- What `s3c2410_gpio_getpin` finds at the pin of each key: 0 if it is pressed. -/
  pin : Line → Bool
  /-- How many runs of `buttons_irq` each key has still to get. -/
  owed : Line → ℕ
  /-- `irq_pd`, if it has been set. -/
  irqPd : Option Line
  /-- `jiffies`. -/
  jiffies : ℕ
  /-- When `buttons_timer` is to run, if it is pending. -/
  expires : Option ℕ
  /-- The value last reported with each code, 0 if none has been. -/
  reported : ℕ → ℕ

/-- When the driver is loaded. -/
def Drv.init (pin : Line → Bool) : Drv := ⟨pin, fun _ => 0, none, 0, some 0, fun _ => 0⟩

/-- `input_event` of an `EV_KEY`. -/
def inputEvent (s : Drv) (code value : ℕ) : Drv :=
  { s with reported := Function.update s.reported code value }

/-- `buttons_timer_function`. -/
def buttonsTimerFunction (s : Drv) : Drv :=
  match s.irqPd with
  | none => s
  | some pindesc =>
    if s.pin pindesc then inputEvent s (keyVal pindesc) 0 else inputEvent s (keyVal pindesc) 1

/-- `buttons_irq`, with `HZ` at `hz`. -/
def buttonsIrq (hz : ℕ) (s : Drv) (l : Line) : Drv :=
  { s with irqPd := some l, expires := some (s.jiffies + hz / 100) }

/-- What can happen. -/
inductive Act where
  /-- A key is pressed or let go. -/
  | change (l : Line)
  /-- The interrupt of a key. -/
  | irq (l : Line)
  /-- Time passes. -/
  | tick
  /-- The timer runs. -/
  | expire
  deriving DecidableEq

/-- One step. -/
def step (hz : ℕ) (s : Drv) : Act → Option Drv
  | .change l =>
    some { s with
      pin := Function.update s.pin l (!s.pin l), owed := Function.update s.owed l (s.owed l + 1) }
  | .irq l =>
    if 0 < s.owed l then
      some (buttonsIrq hz { s with owed := Function.update s.owed l (s.owed l - 1) } l)
    else none
  | .tick => some { s with jiffies := s.jiffies + 1 }
  | .expire =>
    match s.expires with
    | none => none
    | some e => if e ≤ s.jiffies then some (buttonsTimerFunction { s with expires := none }) else none

/-! ### What has been reported -/

/-- What has been reported of the key is not what its pin says. -/
def Behind (s : Drv) (l : Line) : Prop := ¬ (s.reported (keyVal l) = 1 ↔ s.pin l = false)

/-- With the timer not pending and no interrupt outstanding, what has been reported is true. -/
def Settled (s : Drv) : Prop :=
  s.expires = none → (∀ l, s.owed l = 0) → ∀ l, s.reported (keyVal l) = 1 ↔ s.pin l = false

/-- No `buttons_irq` takes the timer from another key that has still to be reported, unless that
one has an interrupt of its own to come. -/
def OneAtATime (s : Drv) (a : Act) : Prop :=
  ∀ l l', a = .irq l → 0 < s.owed l → s.expires ≠ none → s.irqPd = some l' → l' ≠ l →
    Behind s l' → 0 < s.owed l'

/-- No level changes, and an interrupt waits for the timer. -/
def Quiet (s : Drv) (a : Act) : Prop :=
  a = .tick ∨ a = .expire ∨ ∃ l, a = .irq l ∧ s.expires = none

theorem keyVal_inj {l l' : Line} (h : keyVal l = keyVal l') : l = l' := by
  cases l <;> cases l' <;> first | rfl | cases h

section Steps

variable {hz : ℕ} {s t : Drv} {l l' : Line} {a : Act}

@[simp] theorem timer_pin : (buttonsTimerFunction s).pin = s.pin := by
  unfold buttonsTimerFunction
  split
  · rfl
  · split <;> rfl

@[simp] theorem timer_owed : (buttonsTimerFunction s).owed = s.owed := by
  unfold buttonsTimerFunction
  split
  · rfl
  · split <;> rfl

@[simp] theorem timer_expires : (buttonsTimerFunction s).expires = s.expires := by
  unfold buttonsTimerFunction
  split
  · rfl
  · split <;> rfl

/-- The key of the timer is reported as it is. -/
theorem not_behind_timer (h : s.irqPd = some l) : ¬ Behind (buttonsTimerFunction s) l := by
  rw [Behind, not_not, timer_pin, buttonsTimerFunction, h]
  cases hpin : s.pin l <;> simp [inputEvent, hpin]

/-- And no other. -/
theorem behind_timer (h : s.irqPd ≠ some l) : Behind (buttonsTimerFunction s) l ↔ Behind s l := by
  have hsame : (buttonsTimerFunction s).reported (keyVal l) = s.reported (keyVal l) := by
    unfold buttonsTimerFunction
    split
    · rfl
    · next pindesc hpd =>
      have hne : keyVal l ≠ keyVal pindesc := fun he => h (by rw [hpd, keyVal_inj he])
      split <;> simp [inputEvent, hne]
  rw [Behind, hsame, timer_pin]
  rfl

/-- A key that is behind has an interrupt to come, or the timer. -/
def Tracked (s : Drv) : Prop :=
  ∀ l, Behind s l → 0 < s.owed l ∨ s.expires ≠ none ∧ s.irqPd = some l

theorem Tracked.settled (h : Tracked s) : Settled s := by
  intro hexp howed l
  by_contra hbehind
  rcases h l hbehind with hl | ⟨hne, -⟩
  · exact Nat.ne_of_gt hl (howed l)
  · exact hne hexp

theorem tracked_init {pin : Line → Bool} (h : ∀ l, pin l = true) : Tracked (Drv.init pin) := by
  intro l hbehind
  simp [Behind, Drv.init, h l] at hbehind

theorem Tracked.step (h : Tracked s) (ha : OneAtATime s a) (ht : step hz s a = some t) :
    Tracked t := by
  cases a with
  | change l =>
    cases ht
    intro l' hbehind
    by_cases hl : l' = l
    · exact .inl (by simp [hl])
    · simp only [Behind, Function.update_of_ne hl] at hbehind ⊢
      exact h l' hbehind
  | irq l =>
    simp only [Debounce.step, Option.ite_none_right_eq_some, Option.some.injEq] at ht
    obtain ⟨howed, rfl⟩ := ht
    intro l' hbehind
    by_cases hl : l' = l
    · exact .inr ⟨Option.some_ne_none _, by rw [hl]; rfl⟩
    · refine .inl ?_
      simp only [buttonsIrq, Function.update_of_ne hl]
      rcases h l' hbehind with hl' | ⟨hexp, hpd⟩
      · exact hl'
      · exact ha l l' rfl howed hexp hpd hl hbehind
  | tick =>
    cases ht
    exact h
  | expire =>
    simp only [Debounce.step] at ht
    split at ht
    · cases ht
    · simp only [Option.ite_none_right_eq_some, Option.some.injEq] at ht
      obtain ⟨-, rfl⟩ := ht
      intro l hbehind
      have hpd : s.irqPd ≠ some l :=
        fun hpd => not_behind_timer (s := { s with expires := none }) hpd hbehind
      have hbefore : Behind s l := (behind_timer (s := { s with expires := none }) hpd).mp hbehind
      rcases h l hbefore with hl | ⟨-, hpd'⟩
      · exact .inl (by simpa using hl)
      · exact absurd hpd' hpd

/-! ### A key that is missed -/

/-- The key is behind, with neither an interrupt to come nor the timer. -/
structure Missed (s : Drv) (l : Line) : Prop where
  /-- It is behind. -/
  behind : Behind s l
  /-- No interrupt is to come. -/
  owed : s.owed l = 0
  /-- The timer is not its. -/
  timer : s.expires ≠ none → s.irqPd ≠ some l

/-- The pending timer runs, and the key is missed as before. -/
theorem Missed.fire {e : ℕ} (h : Missed s l) (he : s.expires = some e) :
    ∃ ds u, Along (step hz) Quiet s ds ∧ run (step hz) s ds = some u ∧
      Missed u l ∧ u.expires = none ∧ u.owed = s.owed := by
  induction hn : e - s.jiffies generalizing s with
  | zero =>
    have hstep : step hz s .expire =
        some (buttonsTimerFunction { s with expires := none }) := by
      simp [step, he, Nat.le_of_sub_eq_zero hn]
    have hpd : s.irqPd ≠ some l := h.timer (by rw [he]; exact Option.some_ne_none e)
    refine ⟨[.expire], _, ⟨.inr (.inl rfl), fun _ _ => trivial⟩,
      run_cons.mpr ⟨_, hstep, rfl⟩, ⟨?_, ?_, ?_⟩, ?_, ?_⟩
    · exact (behind_timer (s := { s with expires := none }) hpd).mpr h.behind
    · simpa using h.owed
    · simp
    · simp
    · simp
  | succ n ih =>
    obtain ⟨ds, u, hds, hu, hres⟩ :=
      ih (s := { s with jiffies := s.jiffies + 1 }) ⟨h.behind, h.owed, h.timer⟩ he
        (by simp only; omega)
    refine ⟨.tick :: ds, u, ⟨.inl rfl, fun t ht => ?_⟩, run_cons.mpr ⟨_, rfl, hu⟩, hres⟩
    cases ht
    exact hds

/-- The interrupts outstanding. -/
def outstanding (owed : Line → ℕ) : ℕ := owed .eint0 + owed .eint2 + owed .eint11 + owed .eint19

theorem outstanding_update {owed : Line → ℕ} (h : 0 < owed l) :
    outstanding (Function.update owed l (owed l - 1)) < outstanding owed := by
  cases l <;> simp [outstanding] <;> omega

/-- The interrupts that are outstanding come, each after the timer, and the key stays missed. -/
theorem Missed.lost (h : Missed s l) :
    ∃ ds u, Along (step hz) Quiet s ds ∧ run (step hz) s ds = some u ∧
      ¬ Settled u := by
  induction hn : outstanding s.owed using Nat.strong_induction_on generalizing s with
  | _ n ih =>
    -- the timer first
    obtain ⟨as, u, has, hu, hmissed, hexp, howed⟩ : ∃ ds u, Along (step hz) Quiet s ds ∧
        run (step hz) s ds = some u ∧ Missed u l ∧ u.expires = none ∧
        u.owed = s.owed := by
      cases he : s.expires with
      | some e => exact h.fire he
      | none => exact ⟨[], s, trivial, rfl, h, he, rfl⟩
    by_cases hall : ∀ k, u.owed k = 0
    · exact ⟨as, u, has, hu, fun hsettled => hmissed.behind (hsettled hexp hall l)⟩
    · obtain ⟨k, hk⟩ := not_forall.mp hall
      have hkl : k ≠ l := by
        rintro rfl
        exact hk hmissed.owed
      have hpos : 0 < u.owed k := Nat.pos_of_ne_zero hk
      have hmissed' : Missed (buttonsIrq hz
          { u with owed := Function.update u.owed k (u.owed k - 1) } k) l :=
        ⟨hmissed.behind, (Function.update_of_ne hkl.symm ..).trans hmissed.owed,
          fun _ he => hkl (Option.some.inj he)⟩
      have hlt : outstanding (Function.update u.owed k (u.owed k - 1)) < outstanding u.owed :=
        outstanding_update hpos
      obtain ⟨bs, v, hbs, hv, hnot⟩ := ih _ (by rw [← hn, ← howed]; exact hlt) hmissed' rfl
      have hstep : step hz u (.irq k) = some _ := if_pos hpos
      refine ⟨as ++ .irq k :: bs, v, along_append.mpr ⟨has, fun w hw => ?_⟩,
        run_append.mpr ⟨u, hu, run_cons.mpr ⟨_, hstep, hv⟩⟩, hnot⟩
      cases hu.symm.trans hw
      refine ⟨.inr (.inr ⟨k, rfl, hexp⟩), fun w hw => ?_⟩
      cases hstep.symm.trans hw
      exact hbs

end Steps

theorem oneAtATime_of_quiet {s : Drv} {a : Act} (h : Quiet s a) : OneAtATime s a := by
  intro l l' hirq _ hexp
  subst hirq
  rcases h with ha | ha | ⟨k, -, hnone⟩
  · cases ha
  · cases ha
  · exact absurd hnone hexp

theorem settled_iff_of_released {hz : ℕ} {pin : Line → Bool} (hpin : ∀ l, pin l = true)
    (as : List Act) :
    Along (step hz) OneAtATime (Drv.init pin) as ↔
      ∀ bs cs ds s t, as = bs ++ cs → run (step hz) (Drv.init pin) bs = some s →
        Along (step hz) Quiet s ds → run (step hz) s ds = some t → Settled t := by
  refine along_iff_of_breach (tracked_init hpin) (fun _ _ _ _ h ha ht => h.step ha ht)
    (fun _ h => h.settled) (fun _ _ => oneAtATime_of_quiet) (fun s a _ ha => ?_) as
  obtain ⟨l, l', rfl, howed, hexp, hpd, hne, hbehind, hzero⟩ : ∃ l l', a = .irq l ∧
      0 < s.owed l ∧ s.expires ≠ none ∧ s.irqPd = some l' ∧ l' ≠ l ∧ Behind s l' ∧
      s.owed l' = 0 := by
    simpa only [OneAtATime, not_forall, exists_prop, Nat.not_lt, Nat.le_zero] using ha
  have hmissed : Missed (buttonsIrq hz
      { s with owed := Function.update s.owed l (s.owed l - 1) } l) l' :=
    ⟨hbehind, (Function.update_of_ne hne ..).trans hzero,
      fun _ he => hne (Option.some.inj he).symm⟩
  exact ⟨_, if_pos howed, hmissed.lost⟩

/-- What has been reported is true once the timer is not pending and no interrupt is outstanding,
wherever a run, broken off at any point, may go on to with no further change, exactly if no key is
pressed when the driver is loaded, and no `buttons_irq` of the run takes the timer from another
key that has still to be reported and has no interrupt of its own to come. -/
theorem settled_iff (hz : ℕ) (pin : Line → Bool) (as : List Act) :
    ((∀ l, pin l = true) ∧ Along (step hz) OneAtATime (Drv.init pin) as) ↔
      ∀ bs cs ds s t, as = bs ++ cs → run (step hz) (Drv.init pin) bs = some s →
        Along (step hz) Quiet s ds → run (step hz) s ds = some t → Settled t := by
  constructor
  · rintro ⟨hpin, has⟩
    exact (settled_iff_of_released hpin as).mp has
  · intro h
    have hpin : ∀ l, pin l = true := by
      intro l
      by_contra hl
      -- a key that is pressed from the start is missed
      have hmissed : Missed (Drv.init pin) l :=
        ⟨by simp [Behind, Drv.init, hl], rfl, fun _ => by simp [Drv.init]⟩
      obtain ⟨ds, u, hds, hu, hnot⟩ : ∃ ds u, Along (step hz) Quiet (Drv.init pin) ds ∧
        run (step hz) (Drv.init pin) ds = some u ∧ ¬ Settled u := hmissed.lost
      exact hnot (h [] as ds _ u rfl rfl hds hu)
    exact ⟨hpin, (settled_iff_of_released hpin as).mpr h⟩

/-- Two keys are pressed within 10 ms: only the second is reported. -/
theorem settled_missed :
    ∃ s, run (step 100) (Drv.init fun _ => true) [.expire, .change .eint0, .irq .eint0,
        .change .eint2, .irq .eint2, .tick, .expire] = some s ∧ ¬ Settled s := by
  refine ⟨_, rfl, fun h => ?_⟩
  have hreported := (h rfl (fun l => by cases l <;> rfl) .eint0).mpr rfl
  exact absurd hreported Nat.zero_ne_one

end S3c2440.Debounce
