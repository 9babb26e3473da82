import S3c2440.Theory.Runs
import S3c2440.Buttons.Irq
import Mathlib.Data.BitVec

/-!
# The newest event of the key driver

`seventh_drv.c`: `buttons_irq` keeps which key it was in `irq_pd` and arms a timer;
`buttons_timer_function` reads the key's pin, leaves the event in `key_val` and sets `ev_press`.
`seventh_drv_read` waits for `ev_press` (with `O_NONBLOCK` it looks once), copies `key_val`, and
then clears `ev_press`. What `wait_event_interruptible` returns is not looked at, so that a signal
makes the read go on without an event.

The device is open, and any number of readers take one statement at a time, in any order; the
interrupt and the timer run as a whole between two statements. `last`, `took` and `returned` are not
in the driver: they keep which event is the newest, who has copied `key_val` since, and whether one
of those has returned.

## What is proved

* `newest_kept_iff` — exactly when the newest event is not lost: the timer must not run while a
  reader has copied `key_val` and not cleared `ev_press` yet.
-/

namespace S3c2440.Event

open Theory Buttons

/-! ### The driver -/

/-- The `key_val` of the descriptor. -/
def keyVal : Line → BitVec 8
  | .eint0 => 0x01
  | .eint2 => 0x02
  | .eint11 => 0x03
  | .eint19 => 0x04

/-- Where a reader is. -/
inductive Pc where
  /-- In no call. -/
  | idle
  /-- `if(size != 1)`. -/
  | size (size : ℕ) (nonblock : Bool)
  /-- `if(!ev_press)`, with `O_NONBLOCK`. -/
  | look
  /-- `wait_event_interruptible(button_waitq,ev_press);`. -/
  | wait
  /-- `copy_to_user(buff,&key_val,1);`. -/
  | copy
  /-- `ev_press = 0;`. -/
  | clear
  /-- `return 1;`. -/
  | ret
  deriving DecidableEq

variable {R : Type} [DecidableEq R]

/-- The driver and its readers. -/
structure Drv (R : Type) where
  /-- `key_val`. -/
  keyVal : BitVec 8
  /-- `ev_press`. -/
  evPress : Bool
  /-- `irq_pd`, if it has been set. -/
  irqPd : Option Line
  /-- `buttons_timer` is pending. -/
  pending : Bool
  /-- Where the readers are. -/
  pc : R → Pc
  /-- What each has in its `buff`. -/
  buff : R → BitVec 8
  /-- What the last call of each has returned. -/
  result : R → ℤ
  /-- The newest event. -/
  last : Option (BitVec 8)
  /-- The reader has copied `key_val` since. -/
  took : R → Bool
  /-- One that has copied the newest event has returned 1 with it. -/
  returned : Bool

/-- The driver when it is loaded: the timer has been added, and nothing has happened. -/
def Drv.init : Drv R :=
  ⟨0, false, none, true, fun _ => .idle, fun _ => 0, fun _ => 0, none, fun _ => false, false⟩

/-- Reader `r` goes on to `c`. -/
def Drv.goto (s : Drv R) (r : R) (c : Pc) : Drv R := { s with pc := Function.update s.pc r c }

/-- Reader `r` returns. -/
def Drv.ret (s : Drv R) (r : R) (value : ℤ) : Drv R :=
  { s with result := Function.update s.result r value }.goto r .idle

/-- `EINVAL`. -/
def einval : ℤ := 22

/-- `EAGAIN`. -/
def eagain : ℤ := 11

/-- `buttons_irq`. -/
def buttonsIrq (s : Drv R) (l : Line) : Drv R := { s with irqPd := some l, pending := true }

/-- `buttons_timer_function`, where the pin of the key reads `pinval`. -/
def buttonsTimerFunction (s : Drv R) (pinval : Bool) : Drv R :=
  match s.irqPd with
  | none => { s with pending := false }
  | some pindesc =>
    let keyVal := if pinval then 0x80 ||| keyVal pindesc else keyVal pindesc
    { s with
      pending := false
      keyVal := keyVal
      evPress := true
      last := some keyVal
      took := fun _ => false
      returned := false }

/-- The next statement of a reader that is in a call. -/
def next (s : Drv R) (r : R) : Option (Drv R) :=
  match s.pc r with
  | .idle => none
  | .size size nonblock =>
    some (if size ≠ 1 then s.ret r (-einval) else s.goto r (if nonblock then .look else .wait))
  | .look => some (if s.evPress then s.goto r .copy else s.ret r (-eagain))
  | .wait => if s.evPress then some (s.goto r .copy) else none
  | .copy =>
    some ({ s with
      buff := Function.update s.buff r s.keyVal
      took := Function.update s.took r true }.goto r .clear)
  | .clear => some ({ s with evPress := false }.goto r .ret)
  | .ret =>
    some ({ s with returned := s.returned || (s.took r && s.last == some (s.buff r)) }.ret r 1)

/-- What can happen. -/
inductive Act (R : Type) where
  /-- Reader `r` calls `seventh_drv_read`. -/
  | call (r : R) (size : ℕ) (nonblock : Bool)
  /-- It takes its next statement. -/
  | next (r : R)
  /-- It gets a signal while it waits. -/
  | signal (r : R)
  /-- The level of a key changes. -/
  | irq (l : Line)
  /-- The timer runs, and finds the pin of its key at `pinval`. -/
  | timer (pinval : Bool)

/-- One step. -/
def step (s : Drv R) : Act R → Option (Drv R)
  | .call r size nonblock =>
    if s.pc r = .idle then some (s.goto r (.size size nonblock)) else none
  | .next r => next s r
  | .signal r => if s.pc r = .wait then some (s.goto r .copy) else none
  | .irq l => some (buttonsIrq s l)
  | .timer pinval => if s.pending then some (buttonsTimerFunction s pinval) else none

/-- What the next statement of a reader is, and does. -/
inductive Takes (s : Drv R) (r : R) : Drv R → Prop where
  /-- The size is not 1. -/
  | refuse {size : ℕ} {nonblock : Bool} :
      s.pc r = .size size nonblock → size ≠ 1 → Takes s r (s.ret r (-einval))
  /-- It is 1. -/
  | accept {nonblock : Bool} :
      s.pc r = .size 1 nonblock → Takes s r (s.goto r (if nonblock then .look else .wait))
  /-- There is no event, and the reader does not wait. -/
  | again : s.pc r = .look → s.evPress = false → Takes s r (s.ret r (-eagain))
  /-- There is one. -/
  | goOn : s.pc r = .look ∨ s.pc r = .wait → s.evPress = true → Takes s r (s.goto r .copy)
  /-- The reader copies `key_val`. -/
  | copy : s.pc r = .copy → Takes s r ({ s with
      buff := Function.update s.buff r s.keyVal
      took := Function.update s.took r true }.goto r .clear)
  /-- It clears `ev_press`. -/
  | clear : s.pc r = .clear → Takes s r ({ s with evPress := false }.goto r .ret)
  /-- It returns. -/
  | ret : s.pc r = .ret → Takes s r ({ s with
      returned := s.returned || (s.took r && s.last == some (s.buff r)) }.ret r 1)

theorem takes_of_next {s t : Drv R} {r : R} (h : next s r = some t) : Takes s r t := by
  cases hpc : s.pc r with
  | idle => simp [next, hpc] at h
  | size size nonblock =>
    simp only [next, hpc, Option.some.injEq] at h
    split at h <;> subst h
    case isTrue hsize => exact .refuse hpc hsize
    case isFalse hsize =>
      obtain rfl := not_not.mp hsize
      exact .accept hpc
  | look =>
    simp only [next, hpc, Option.some.injEq] at h
    split at h <;> subst h
    case isTrue hev => exact .goOn (.inl hpc) hev
    case isFalse hev => exact .again hpc (Bool.eq_false_of_not_eq_true hev)
  | wait =>
    simp only [next, hpc, Option.ite_none_right_eq_some, Option.some.injEq] at h
    obtain ⟨hev, rfl⟩ := h
    exact .goOn (.inr hpc) hev
  | copy =>
    simp only [next, hpc, Option.some.injEq] at h
    subst h
    exact .copy hpc
  | clear =>
    simp only [next, hpc, Option.some.injEq] at h
    subst h
    exact .clear hpc
  | ret =>
    simp only [next, hpc, Option.some.injEq] at h
    subst h
    exact .ret hpc

/-! ### The newest event -/

/-- The newest event has been returned by a read that has copied it, will be, or is there for the
next read. -/
def NewestKept (s : Drv R) : Prop :=
  ∀ v, s.last = some v →
    s.returned = true ∨
      (∃ r, s.took r = true ∧ (s.pc r = .clear ∨ s.pc r = .ret) ∧ s.buff r = v) ∨
      s.evPress = true ∧ s.keyVal = v

/-- The timer does not leave an event while a reader has copied `key_val` and not cleared
`ev_press` yet. -/
def TimerApart (s : Drv R) (a : Act R) : Prop :=
  ∀ pinval l, a = .timer pinval → s.pending = true → s.irqPd = some l → ∀ r, s.pc r ≠ .clear

/-- A reader clears `ev_press`. -/
def Clearing (s : Drv R) (a : Act R) : Prop := ∃ r, a = .next r ∧ s.pc r = .clear

/-- It has copied `key_val`, and not returned yet. -/
def Pc.copied : Pc → Bool
  | .clear | .ret => true
  | _ => false

/-- What a run keeps whose timer does not run there. -/
structure Kept (s : Drv R) : Prop where
  /-- The newest event is in `key_val`. -/
  keyVal : ∀ v, s.last = some v → s.keyVal = v
  /-- Whoever has copied it and not returned has it. -/
  buff : ∀ r v, s.took r = true → (s.pc r).copied = true → s.last = some v → s.buff r = v
  /-- Whoever is going to clear `ev_press` has copied it. -/
  took : ∀ r v, s.pc r = .clear → s.last = some v → s.took r = true
  /-- It is not lost. -/
  kept : NewestKept s

section Steps

variable {s t : Drv R} {r : R} {c : Pc} {a : Act R}

@[simp] theorem goto_self : (s.goto r c).pc r = c := Function.update_self ..

theorem goto_of_ne {q : R} (h : q ≠ r) : (s.goto r c).pc q = s.pc q := Function.update_of_ne h ..

omit [DecidableEq R] in
theorem kept_init : Kept (Drv.init : Drv R) where
  keyVal _ h := by cases h
  buff _ _ h := by cases h
  took _ _ h := by cases h
  kept _ h := by cases h

/-- A reader that has copied nothing goes on, and does not copy. -/
theorem Kept.goto (h : Kept s) (hr : (s.pc r).copied = false) (hc : c.copied = false) :
    Kept (s.goto r c) where
  keyVal := h.keyVal
  buff q v hq hpc hv := by
    by_cases hqr : q = r
    · rw [hqr, goto_self, hc] at hpc
      cases hpc
    · rw [goto_of_ne hqr] at hpc
      exact h.buff q v hq hpc hv
  took q v hpc hv := by
    by_cases hqr : q = r
    · rw [hqr, goto_self] at hpc
      rw [hpc] at hc
      cases hc
    · rw [goto_of_ne hqr] at hpc
      exact h.took q v hpc hv
  kept v hv := by
    rcases h.kept v hv with hret | ⟨q, hq, hpc, hbuff⟩ | hev
    · exact .inl hret
    · have hqr : q ≠ r := by
        rintro rfl
        rcases hpc with hpc | hpc <;> rw [hpc] at hr <;> cases hr
      exact .inr (.inl ⟨q, hq, by rwa [goto_of_ne hqr], hbuff⟩)
    · exact .inr (.inr hev)

omit [DecidableEq R] in
/-- What calls return is not looked at. -/
theorem Kept.result (h : Kept s) (f : R → ℤ) : Kept { s with result := f } :=
  ⟨h.keyVal, h.buff, h.took, h.kept⟩

/-- A reader copies `key_val`. -/
theorem Kept.copy (h : Kept s) :
    Kept ({ s with
      buff := Function.update s.buff r s.keyVal
      took := Function.update s.took r true }.goto r .clear) where
  keyVal := h.keyVal
  buff q v hq hpc hv := by
    by_cases hqr : q = r
    · subst hqr
      exact (Function.update_self ..).trans (h.keyVal v hv)
    · simp only [Drv.goto, Function.update_of_ne hqr] at hq hpc ⊢
      exact h.buff q v hq hpc hv
  took q v hpc hv := by
    by_cases hqr : q = r
    · subst hqr
      exact Function.update_self ..
    · simp only [Drv.goto, Function.update_of_ne hqr] at hpc ⊢
      exact h.took q v hpc hv
  kept v hv := .inr (.inl ⟨r, Function.update_self .., .inl goto_self,
    (Function.update_self ..).trans (h.keyVal v hv)⟩)

/-- It clears `ev_press`: it has the newest event itself. -/
theorem Kept.clear (h : Kept s) (hr : s.pc r = .clear) :
    Kept ({ s with evPress := false }.goto r .ret) := by
  have hcopied : ∀ q, ((s.goto r .ret).pc q).copied = true → (s.pc q).copied = true := by
    intro q hq
    by_cases hqr : q = r
    · rw [hqr, hr]
      rfl
    · rwa [goto_of_ne hqr] at hq
  refine ⟨h.keyVal, fun q v hq hpc hv => h.buff q v hq (hcopied q hpc) hv, fun q v hpc hv => ?_,
    fun v hv => ?_⟩
  · have hqr : q ≠ r := by
      rintro rfl
      simp [Drv.goto] at hpc
    exact h.took q v ((goto_of_ne (s := s) hqr).symm.trans hpc) hv
  · have htook := h.took r v hr hv
    exact .inr (.inl ⟨r, htook, .inr goto_self, h.buff r v htook (by rw [hr]; rfl) hv⟩)

/-- It returns. -/
theorem Kept.ret (h : Kept s) (hr : s.pc r = .ret) :
    Kept ({ s with returned := s.returned || (s.took r && s.last == some (s.buff r)) }.goto
      r .idle) := by
  have hne : ∀ q, ((s.goto r .idle).pc q).copied = true → q ≠ r := by
    rintro q hq rfl
    simp [Pc.copied] at hq
  refine ⟨h.keyVal, fun q v hq hpc hv => ?_, fun q v hpc hv => ?_, fun v hv => ?_⟩
  · exact h.buff q v hq ((congrArg Pc.copied (goto_of_ne (s := s) (hne q hpc))).symm.trans hpc) hv
  · have hqr := hne q (by rw [show (s.goto r .idle).pc q = _ from hpc]; rfl)
    exact h.took q v ((goto_of_ne (s := s) hqr).symm.trans hpc) hv
  · rcases h.kept v hv with hret | ⟨q, hq, hpc, hbuff⟩ | hev
    · exact .inl (by simp [Drv.goto, hret])
    · by_cases hqr : q = r
      · subst hqr
        have hlast : s.last = some (s.buff q) := by
          rw [hbuff]
          exact hv
        exact .inl (by simp [Drv.goto, hq, hlast])
      · refine .inr (.inl ⟨q, hq, ?_, hbuff⟩)
        simpa only [Drv.goto, Function.update_of_ne hqr] using hpc
    · exact .inr (.inr hev)

omit [DecidableEq R] in
/-- The timer runs with no reader about to clear `ev_press`. -/
theorem Kept.timer (h : Kept s) (pinval : Bool) (hr : ∀ l, s.irqPd = some l → ∀ r, s.pc r ≠ .clear) :
    Kept (buttonsTimerFunction s pinval) := by
  unfold buttonsTimerFunction
  cases hpd : s.irqPd with
  | none => exact ⟨h.keyVal, h.buff, h.took, h.kept⟩
  | some l =>
    exact {
      keyVal := fun v hv => Option.some.inj hv
      buff := fun _ _ hq => by cases hq
      took := fun q _ hpc => absurd hpc (hr l hpd q)
      kept := fun v hv => .inr (.inr ⟨rfl, Option.some.inj hv⟩) }

theorem Kept.next (h : Kept s) (ht : next s r = some t) : Kept t := by
  cases takes_of_next ht with
  | refuse hpc _ => exact (h.goto (by simp [hpc, Pc.copied]) rfl).result _
  | @accept nonblock hpc => exact h.goto (by simp [hpc, Pc.copied]) (by cases nonblock <;> rfl)
  | again hpc _ => exact (h.goto (by simp [hpc, Pc.copied]) rfl).result _
  | goOn hpc _ => exact h.goto (by rcases hpc with hpc | hpc <;> simp [hpc, Pc.copied]) rfl
  | copy _ => exact h.copy
  | clear hpc => exact h.clear hpc
  | ret hpc => exact (h.ret hpc).result _

theorem Kept.step (h : Kept s) (ha : TimerApart s a) (ht : step s a = some t) : Kept t := by
  cases a with
  | next r => exact h.next ht
  | call r size nonblock =>
    simp only [Event.step, Option.ite_none_right_eq_some, Option.some.injEq] at ht
    obtain ⟨hpc, rfl⟩ := ht
    exact h.goto (by simp [hpc, Pc.copied]) rfl
  | signal r =>
    simp only [Event.step, Option.ite_none_right_eq_some, Option.some.injEq] at ht
    obtain ⟨hpc, rfl⟩ := ht
    exact h.goto (by simp [hpc, Pc.copied]) rfl
  | irq l =>
    cases ht
    exact ⟨h.keyVal, h.buff, h.took, h.kept⟩
  | timer pinval =>
    simp only [Event.step, Option.ite_none_right_eq_some, Option.some.injEq] at ht
    obtain ⟨hpending, rfl⟩ := ht
    exact h.timer pinval fun l hl => ha pinval l rfl hpending hl

/-- The timer leaves an event, and a reader that has copied the one before clears `ev_press`. -/
theorem clear_lost {l : Line} (pinval : Bool) (hpd : s.irqPd = some l) (hr : s.pc r = .clear) :
    ∃ t, step (buttonsTimerFunction s pinval) (.next r) = some t ∧ ¬ NewestKept t := by
  refine ⟨_, by simp [Event.step, Event.next, buttonsTimerFunction, hpd, hr]; rfl, fun h => ?_⟩
  rcases h _ rfl with hret | ⟨q, hq, -⟩ | ⟨hev, -⟩
  · cases hret
  · cases hq
  · cases hev

end Steps

/-- The newest event is not lost, wherever a run, broken off at any point, may go on to by readers
that clear `ev_press`, exactly if in the run the timer leaves no event while a reader has copied
`key_val` and not cleared `ev_press` yet. -/
theorem newest_kept_iff (as : List (Act R)) :
    Along step TimerApart Drv.init as ↔
      ∀ bs cs ds s t, as = bs ++ cs → run step Drv.init bs = some s → Along step Clearing s ds →
        run step s ds = some t → NewestKept t := by
  have hclearing : ∀ (s : Drv R) a, Clearing s a → TimerApart s a := by
    -- a reader is not the timer
    intro s a ha pinval l htimer
    obtain ⟨r, rfl, -⟩ := ha
    cases htimer
  refine along_iff_of_breach kept_init (fun _ _ _ _ h ha ht => h.step ha ht) (fun _ h => h.kept)
    hclearing (fun s a _ ha => ?_) as
  obtain ⟨pinval, l, rfl, hpending, hpd, r, hr⟩ : ∃ pinval l, a = .timer pinval ∧
      s.pending = true ∧ s.irqPd = some l ∧ ∃ r, s.pc r = .clear := by
    simpa only [TimerApart, not_forall, exists_prop, not_not, Ne] using ha
  have hclear : (buttonsTimerFunction s pinval).pc r = .clear := by
    simp [buttonsTimerFunction, hpd, hr]
  obtain ⟨t, ht, hlost⟩ := clear_lost pinval hpd hr
  refine ⟨_, if_pos hpending, [.next r], t, ⟨⟨r, rfl, hclear⟩, fun _ _ => trivial⟩, ?_, hlost⟩
  exact run_cons.mpr ⟨t, ht, rfl⟩

/-- The first event is being read when the second comes: the flag is cleared, and nobody has copied
the second. -/
theorem newest_kept_lost :
    ∃ s : Drv Unit, run step Drv.init [.irq .eint0, .timer false, .call () 1 false, .next (),
        .next (), .next (), .irq .eint0, .timer true, .next ()] = some s ∧ ¬ NewestKept s := by
  refine ⟨_, rfl, fun h => ?_⟩
  rcases h 0x81 rfl with hret | ⟨r, hr, -⟩ | ⟨hev, -⟩
  · exact Bool.false_ne_true hret
  · exact Bool.false_ne_true hr
  · exact Bool.false_ne_true hev

end S3c2440.Event
