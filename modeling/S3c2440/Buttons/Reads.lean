import S3c2440.Buttons.Event
import Mathlib.Data.Finset.Card

/-!
# Reads and events of the key driver

`seventh_drv.c` once more: `buttons_timer_function` sets `ev_press` for each event, and a call of
`seventh_drv_read` that returns 1 is to have one of its own. The events and these calls are counted
beside the driver, with whether a read has gone on from its test since the last event, and which
reads a signal has sent on with `ev_press` at 0.

Two things can go wrong. The result of `wait_event_interruptible` is not looked at, so that a signal
makes a read return 1 without an event; and between its test and `ev_press = 0` another read can
pass the test for the same event.

## What is proved

* `reads_le_events` — as long as neither happens no more reads have returned 1 than there have been
  events; `read_interrupted` is a run with a signal where one more has.
-/

namespace S3c2440.Event

open Theory Buttons

variable {R : Type} [DecidableEq R]

/-- The driver with what is counted. -/
structure Counted (R : Type) where
  /-- The driver. -/
  drv : Drv R
  /-- The runs of `buttons_timer_function` that have set `ev_press`. -/
  events : ℕ
  /-- The reads that have returned 1. -/
  ones : ℕ
  /-- No read has gone on from its test since the last of these runs. -/
  fresh : Bool
  /-- A signal has sent the read on with `ev_press` at 0. -/
  interrupted : R → Bool
  /-- Such a read has returned 1. -/
  wrong : Bool

/-- When the driver is loaded. -/
def Counted.init : Counted R := ⟨Drv.init, 0, 0, false, fun _ => false, false⟩

/-- A read goes on from its test, or from its wait. -/
def goesOn (s : Drv R) : Act R → Bool
  | .next r => (s.pc r = .look ∨ s.pc r = .wait) ∧ s.evPress = true
  | .signal r => s.pc r = .wait
  | _ => false

/-- What a step of the driver counts. -/
def Counted.after (s : Counted R) (a : Act R) (drv : Drv R) : Counted R :=
  match a with
  | .call r _ _ => { s with drv := drv, interrupted := Function.update s.interrupted r false }
  | .next r =>
    if s.drv.pc r = .ret then
      { s with drv := drv, ones := s.ones + 1, wrong := s.wrong || s.interrupted r }
    else { s with drv := drv, fresh := s.fresh && !goesOn s.drv a }
  | .signal r =>
    { s with
      drv := drv
      fresh := s.fresh && !goesOn s.drv a
      interrupted := Function.update s.interrupted r (!s.drv.evPress) }
  | .irq _ => { s with drv := drv }
  | .timer _ =>
    if s.drv.irqPd.isSome then { s with drv := drv, events := s.events + 1, fresh := true }
    else { s with drv := drv }

/-- One step. -/
def countedStep (s : Counted R) (a : Act R) : Option (Counted R) :=
  (step s.drv a).map (s.after a)

/-- A read goes on only while `ev_press` is set, for an event for which no other read has. -/
def OwnEvent (s : Counted R) (a : Act R) : Prop :=
  goesOn s.drv a = true → s.drv.evPress = true ∧ s.fresh = true

instance (s : Counted R) (a : Act R) : Decidable (OwnEvent s a) :=
  inferInstanceAs (Decidable (_ → _))

/-- No more reads have returned 1 than there have been events, and none that a signal has sent on
with no event pending. -/
def Sound (s : Counted R) : Prop := s.ones ≤ s.events ∧ s.wrong = false

/-- The read has gone on from its test, and not returned yet. -/
def Pc.gone : Pc → Bool
  | .copy | .clear | .ret => true
  | _ => false

/-- What a run keeps in which each read that goes on has an event of its own. -/
structure Paired (s : Counted R) : Prop where
  /-- The reads that have gone on, returned or not, have an event each, and a fresh one is left. -/
  count : ∃ gone : Finset R, (∀ r, r ∈ gone ↔ (s.drv.pc r).gone = true) ∧
    s.ones + gone.card + (if s.fresh then 1 else 0) ≤ s.events
  /-- No read has been sent on without an event. -/
  interrupted : ∀ r, s.interrupted r = false
  /-- None has returned 1. -/
  wrong : s.wrong = false

section Steps

variable {s t : Counted R} {a : Act R} {r : R} {d : Drv R} {c : Pc}

omit [DecidableEq R] in
theorem Paired.sound (h : Paired s) : Sound s := by
  obtain ⟨gone, -, hle⟩ := h.count
  exact ⟨by omega, h.wrong⟩

omit [DecidableEq R] in
theorem paired_init : Paired (Counted.init : Counted R) where
  count := ⟨∅, fun r => by simp [Counted.init, Drv.init, Pc.gone], by simp [Counted.init]⟩
  interrupted _ := rfl
  wrong := rfl

/-- A read moves, but does not go on from its test nor return. -/
theorem Paired.move (h : Paired s) (hpc : d.pc = Function.update s.drv.pc r c)
    (hc : c.gone = (s.drv.pc r).gone) : Paired { s with drv := d } := by
  obtain ⟨gone, hmem, hle⟩ := h.count
  refine ⟨⟨gone, fun q => ?_, hle⟩, h.interrupted, h.wrong⟩
  rw [hmem]
  by_cases hq : q = r
  · rw [hq, hpc, Function.update_self, hc]
  · rw [hpc, Function.update_of_ne hq]

/-- A read goes on with a fresh event. -/
theorem Paired.goOn (h : Paired s) (hfresh : s.fresh = true) (hr : (s.drv.pc r).gone = false)
    (hpc : d.pc = Function.update s.drv.pc r .copy) :
    Paired { s with drv := d, fresh := false } := by
  obtain ⟨gone, hmem, hle⟩ := h.count
  have hnot : r ∉ gone := fun hin => Bool.false_ne_true (hr.symm.trans ((hmem r).mp hin))
  rw [hfresh, if_pos rfl] at hle
  refine ⟨⟨insert r gone, fun q => ?_, ?_⟩, h.interrupted, h.wrong⟩
  · rw [Finset.mem_insert, hmem, hpc]
    by_cases hq : q = r
    · rw [hq, Function.update_self]
      exact iff_of_true (.inl rfl) rfl
    · rw [Function.update_of_ne hq]
      exact or_iff_right hq
  · rw [Finset.card_insert_of_notMem hnot, if_neg Bool.false_ne_true]
    show s.ones + (gone.card + 1) + 0 ≤ s.events
    omega

/-- A read returns. -/
theorem Paired.ret (h : Paired s) (hr : s.drv.pc r = .ret)
    (hpc : d.pc = Function.update s.drv.pc r .idle) :
    Paired { s with drv := d, ones := s.ones + 1, wrong := s.wrong || s.interrupted r } := by
  obtain ⟨gone, hmem, hle⟩ := h.count
  have hin : r ∈ gone := (hmem r).mpr (by rw [hr]; rfl)
  have hcard := Finset.card_erase_add_one hin
  refine ⟨⟨gone.erase r, fun q => ?_, ?_⟩, h.interrupted, ?_⟩
  · rw [Finset.mem_erase, hmem, hpc]
    by_cases hq : q = r
    · rw [hq, Function.update_self]
      exact iff_of_false (fun h => h.1 rfl) Bool.false_ne_true
    · rw [Function.update_of_ne hq]
      exact and_iff_right hq
  · show s.ones + 1 + (gone.erase r).card + (if s.fresh then 1 else 0) ≤ s.events
    omega
  · show (s.wrong || s.interrupted r) = false
    rw [h.wrong, h.interrupted]
    rfl

omit [DecidableEq R] in
/-- An event comes. -/
theorem Paired.event (h : Paired s) (hpc : d.pc = s.drv.pc) :
    Paired { s with drv := d, events := s.events + 1, fresh := true } := by
  obtain ⟨gone, hmem, hle⟩ := h.count
  refine ⟨⟨gone, fun q => by rw [hmem, hpc], ?_⟩, h.interrupted, h.wrong⟩
  show s.ones + gone.card + 1 ≤ s.events + 1
  omega

omit [DecidableEq R] in
theorem goesOn_next : goesOn s.drv (.next r) = true ↔
    (s.drv.pc r = .look ∨ s.drv.pc r = .wait) ∧ s.drv.evPress = true := decide_eq_true_iff

omit [DecidableEq R] in
theorem goesOn_signal : goesOn s.drv (.signal r) = true ↔ s.drv.pc r = .wait := decide_eq_true_iff

/-- What is counted where a read takes a statement with which it does not return. -/
theorem after_next (hret : s.drv.pc r ≠ .ret) :
    s.after (.next r) d = { s with drv := d, fresh := s.fresh && !goesOn s.drv (.next r) } :=
  if_neg hret

/-- It does not go on from its test. -/
theorem after_next_stays (hret : s.drv.pc r ≠ .ret)
    (hgo : ¬ ((s.drv.pc r = .look ∨ s.drv.pc r = .wait) ∧ s.drv.evPress = true)) :
    s.after (.next r) d = { s with drv := d } := by
  rw [after_next hret, Bool.eq_false_iff.mpr fun h => hgo (goesOn_next.mp h)]
  simp

/-- It does. -/
theorem after_next_goes (hpc : s.drv.pc r = .look ∨ s.drv.pc r = .wait)
    (hev : s.drv.evPress = true) : s.after (.next r) d = { s with drv := d, fresh := false } := by
  have hret : s.drv.pc r ≠ .ret := by
    rcases hpc with hpc | hpc <;> rw [hpc] <;> nofun
  rw [after_next hret, goesOn_next.mpr ⟨hpc, hev⟩]
  simp

theorem Paired.next (h : Paired s) (ha : OwnEvent s (.next r)) (ht : next s.drv r = some d) :
    Paired (s.after (.next r) d) := by
  cases takes_of_next ht with
  | refuse hpc _ =>
    rw [after_next_stays (by simp [hpc]) (by simp [hpc])]
    exact h.move rfl (by rw [hpc]; rfl)
  | @accept nonblock hpc =>
    rw [after_next_stays (by simp [hpc]) (by simp [hpc])]
    exact h.move rfl (by rw [hpc]; cases nonblock <;> rfl)
  | again hpc hev =>
    rw [after_next_stays (by simp [hpc]) (by simp [hev])]
    exact h.move rfl (by rw [hpc]; rfl)
  | goOn hpc hev =>
    rw [after_next_goes hpc hev]
    exact h.goOn (ha (goesOn_next.mpr ⟨hpc, hev⟩)).2
      (by rcases hpc with hpc | hpc <;> rw [hpc] <;> rfl) rfl
  | copy hpc =>
    rw [after_next_stays (by simp [hpc]) (by simp [hpc])]
    exact h.move rfl (by rw [hpc]; rfl)
  | clear hpc =>
    rw [after_next_stays (by simp [hpc]) (by simp [hpc])]
    exact h.move rfl (by rw [hpc]; rfl)
  | ret hpc =>
    rw [Counted.after, if_pos hpc]
    exact h.ret hpc rfl

/-- Nothing is put down for a read that a signal has not sent on. -/
theorem Paired.update (h : Paired s) : Function.update s.interrupted r false = s.interrupted := by
  rw [Function.update_eq_self_iff, h.interrupted]

theorem Paired.step (h : Paired s) (ha : OwnEvent s a) (ht : countedStep s a = some t) :
    Paired t := by
  obtain ⟨d, hd, rfl⟩ := Option.map_eq_some_iff.mp ht
  cases a with
  | next r => exact h.next ha hd
  | call r size nonblock =>
    simp only [Event.step, Option.ite_none_right_eq_some, Option.some.injEq] at hd
    obtain ⟨hpc, rfl⟩ := hd
    rw [Counted.after, h.update]
    exact h.move rfl (by rw [hpc]; rfl)
  | signal r =>
    simp only [Event.step, Option.ite_none_right_eq_some, Option.some.injEq] at hd
    obtain ⟨hpc, rfl⟩ := hd
    have hgo : goesOn s.drv (.signal r) = true := goesOn_signal.mpr hpc
    obtain ⟨hev, hfresh⟩ := ha hgo
    rw [Counted.after, hgo, hev, Bool.not_true, Bool.and_false, h.update]
    exact h.goOn hfresh (by rw [hpc]; rfl) rfl
  | irq l =>
    cases hd
    exact ⟨h.count, h.interrupted, h.wrong⟩
  | timer pinval =>
    simp only [Event.step, Option.ite_none_right_eq_some, Option.some.injEq] at hd
    obtain ⟨-, rfl⟩ := hd
    cases hpd : s.drv.irqPd with
    | none =>
      rw [Counted.after, hpd, buttonsTimerFunction, hpd]
      exact ⟨h.count, h.interrupted, h.wrong⟩
    | some l =>
      rw [Counted.after, hpd, buttonsTimerFunction, hpd]
      exact h.event rfl

end Steps

/-- In every run in which each read that goes on from its test, or that a signal sends on, has an
event of its own, no more reads have returned 1 at any point than there have been events, and none
that a signal has sent on with no event pending. -/
theorem reads_le_events (as : List (Act R)) (h : Along countedStep OwnEvent Counted.init as) :
    Throughout countedStep Sound Counted.init as :=
  (h.invariant (fun _ _ _ hs ha ht => hs.step ha ht) paired_init).mono fun _ hs => hs.sound

/-- Two keys are pressed, and each is read, the second after a signal. -/
theorem reads_le_events_two :
    Throughout (countedStep (R := Unit)) Sound Counted.init
      [.irq .eint0, .timer false, .call () 1 true, .next (), .next (), .next (), .next (), .next (),
        .call () 1 false, .next (), .irq .eint2, .timer false, .signal ()] :=
  reads_le_events _ (by decide)

/-- A read waits, and a signal comes. -/
theorem read_interrupted :
    ¬ ∀ as : List (Act Unit), Throughout countedStep Sound Counted.init as := by
  intro h
  have hlast := (h [.call () 1 false, .next (), .signal (), .next (), .next (), .next ()]).last rfl
  exact absurd hlast.1 (by decide)

end S3c2440.Event
