import S3c2440.Touch.Sampling

/-!
# What happens to a release

A release is reported once more when the driver goes back to rest, and `report_ts_xy` drops
what it is given while the program has not emptied the mailbox. `Mail` is what holds of
the mailbox as long as no such release is dropped.

## What is proved

* `Mail.step` — a step that drops no last release keeps the invariant.
* `exists_drain` — the program can always empty the mailbox, and is given what is in it.
* `release_kept_iff` — exactly when the releases of a run reach the program: a last
  release must find the mailbox empty, or with a release in it.
* `release_lost` — a run in which the program is too slow, and then waits for ever.
-/

namespace S3c2440.Touch

open Theory

/-! ### The property -/

/-- A report since the pen has come down had the pen down. -/
def Touched : List Event → Prop
  | [] => False
  | .press :: _ => False
  | .sample _ _ :: log => Touched log
  | .reset :: log => Touched log
  | .report r :: log => r.pressure = 1 ∨ Touched log

/-- The last report the program has been given is a release. -/
def ReleaseHanded (s : Ts) : Prop := ∃ r, s.handed.head? = some r ∧ r.pressure = 0

/-- A release waits in the mailbox. -/
def ReleaseWaits (s : Ts) : Prop := s.gTsDataValid = 1 ∧ s.gTsPressure = 0

/-- At rest after a touch that was reported, the program has been given a release, or will
be next. -/
def Released (s : Ts) : Prop :=
  s.AtRest → Touched s.log → ReleaseHanded s ∨ ReleaseWaits s

/-! ### The condition -/

/-- The action reports a release and leaves the driver at rest. -/
def LastRelease (s : Ts) : Act → Prop
  | .isrTc adcdat0 =>
    s.adctsc &&& waitIntMode = waitIntMode ∧ penUp adcdat0 = true ∧ s.gTsTimerEnable = 0
  | .isrAdc _ _ pen => s.outstanding ≠ 0 ∧ penUp pen = true
  | .tick adcdat0 => s.gTsTimerEnable ≠ 0 ∧ isInAutoMode s = false ∧ penUp adcdat0 = true
  | .read => False

/-- The mailbox is empty, or a release is in it already. -/
def Room (s : Ts) : Prop := s.gTsDataValid = 0 ∨ s.gTsPressure = 0

/-- A last release finds room. -/
def KeepsRelease (s : Ts) (a : Act) : Prop := LastRelease s a → Room s

/-! ### The invariant -/

/-- The mailbox, the program and the touch. -/
structure Mail (s : Ts) : Prop where
  /-- `g_ts_data_valid` is a flag. -/
  flag : s.gTsDataValid = 0 ∨ s.gTsDataValid = 1
  /-- The program reads a full mailbox. -/
  busy : s.reader ≠ .wait → s.gTsDataValid = 1
  /-- And what it has read is still in it. -/
  copied : ∀ r, s.reader = .clear r → r.pressure = s.gTsPressure
  /-- What is in the mailbox with the pen down is of this touch. -/
  pressed : s.gTsDataValid = 1 → s.gTsPressure ≠ 0 → Touched s.log
  /-- At rest the release of this touch is in the mailbox or has been given to the program. -/
  rest : s.AtRest → Touched s.log → ReleaseWaits s ∨ s.gTsDataValid = 0 ∧ ReleaseHanded s

variable {s t u : Ts} {a : Act}

theorem Mail.released (h : Mail s) : Released s := by
  intro hrest htouch
  rcases h.rest hrest htouch with hw | ⟨-, hh⟩
  · exact .inr hw
  · exact .inl hh

/-- At rest nothing is left in the mailbox but a release. -/
theorem Mail.room (h : Mail s) (hrest : s.AtRest) : Room s := by
  by_contra hroom
  obtain ⟨hv, hp⟩ := not_or.mp hroom
  have hv₁ := h.flag.resolve_left hv
  rcases h.rest hrest (h.pressed hv₁ hp) with hw | ⟨h₀, -⟩
  · exact hp hw.2
  · exact hv h₀

theorem mail_touchscreenInit : Mail touchscreenInit :=
  ⟨.inl rfl, fun h => absurd rfl h, fun _ h => (nomatch h), fun h => (nomatch h), fun _ h => h.elim⟩

/-- A sample does not end a touch. -/
theorem touched_afterSample {x y : ℤ} (hu : afterSample s x y u) (h : Touched s.log) :
    Touched u.log := by
  rw [afterSample_log hu]
  exact h

/-- A step that leaves the mailbox alone, and the driver measuring. -/
theorem Mail.of_same (h : Mail s) (hu : SameMailbox s u) (hlog : Touched s.log → Touched u.log)
    (hrest : ¬ u.AtRest) : Mail u := by
  refine ⟨?_, ?_, ?_, ?_, fun hr => absurd hr hrest⟩
  · rw [hu.valid]; exact h.flag
  · rw [hu.valid, hu.reader]; exact h.busy
  · rw [hu.pressure, hu.reader]; exact h.copied
  · rw [hu.valid, hu.pressure]
    exact fun hv hp => hlog (h.pressed hv hp)

/-- The end of a measurement, after its report. -/
theorem Mail.measured (h : Mail s) : Mail (tsTimerEnable (enterWaitPenUpMode (resetAdc s))) :=
  h.of_same ⟨rfl, rfl, rfl, rfl⟩ (fun htouch => htouch) fun hr => penUpMode_ne_penDownMode hr.1

/-- A report. One that leaves the driver at rest must be a release that finds room. -/
theorem Mail.report {x y pressure : ℤ} (h : Mail s) (hu : SameMailbox s u)
    (hlog : Touched s.log → Touched u.log) (hp : pressure = 0 ∨ pressure = 1)
    (hrest : u.AtRest → pressure = 0 ∧ Room s) : Mail (reportTsXy u x y pressure) := by
  rcases h.flag with hv | hv
  -- accepted, so the program is not in the middle of reading
  · obtain ⟨hv', hp'⟩ := reportTsXy_of_empty u x y pressure (hu.valid.trans hv)
    have hwait : (reportTsXy u x y pressure).reader = .wait := by
      rw [reportTsXy_reader, hu.reader]
      by_contra hne
      exact zero_ne_one (hv.symm.trans (h.busy hne))
    refine ⟨.inr hv', fun _ => hv', fun r hr => ?_, fun _ hne => ?_, fun hr _ => ?_⟩
    · rw [hwait] at hr
      cases hr
    · rw [reportTsXy_log]
      exact .inl (hp.resolve_left (hp' ▸ hne))
    · exact .inl ⟨hv', hp'.trans (hrest (by simpa [Ts.AtRest] using hr)).1⟩
  -- dropped
  · have hne : u.gTsDataValid ≠ 0 := by
      rw [hu.valid, hv]
      exact one_ne_zero
    obtain ⟨hv', hp'⟩ := reportTsXy_of_full u x y pressure hne
    rw [hu.valid] at hv'
    rw [hu.pressure] at hp'
    refine ⟨.inr (hv'.trans hv), fun _ => hv'.trans hv, fun r hr => ?_, fun _ hne => ?_,
      fun hr _ => ?_⟩
    · rw [reportTsXy_reader, hu.reader] at hr
      exact (h.copied r hr).trans hp'.symm
    · rw [reportTsXy_log]
      exact .inr (hlog (h.pressed hv (hp' ▸ hne)))
    · have hroom := (hrest (by simpa [Ts.AtRest] using hr)).2
      exact .inl ⟨hv'.trans hv, hp'.trans (hroom.resolve_left (hv ▸ one_ne_zero))⟩

/-- The program's assignments: the last one hands over what was in the mailbox. -/
theorem Mail.read (h : Mail s) (ht : tsReadRaw s = some t) : Mail t := by
  unfold tsReadRaw at ht
  split at ht
  case h_1 =>
    split at ht
    case isTrue => cases ht
    case isFalse hv =>
      cases ht
      exact ⟨h.flag, fun _ => h.flag.resolve_left hv, fun _ hr => (nomatch hr), h.pressed, h.rest⟩
  case h_5 r hr =>
    have hv := h.busy (hr ▸ nofun)
    cases ht
    refine ⟨.inl rfl, fun hne => absurd rfl hne, fun _ hr => (nomatch hr), fun h₀ => (nomatch h₀),
      fun hrest htouch => .inr ⟨rfl, r, rfl, ?_⟩⟩
    rcases h.rest hrest htouch with hw | ⟨h₀, -⟩
    · exact (h.copied r hr).trans hw.2
    · exact absurd (h₀.symm.trans hv) zero_ne_one
  case h_4 hr =>
    have hv := h.busy (hr ▸ nofun)
    cases ht
    exact ⟨h.flag, fun _ => hv, fun _ hr => by cases hr; rfl, h.pressed, h.rest⟩
  all_goals
    rename_i hr
    have hv := h.busy (hr ▸ nofun)
    cases ht
    exact ⟨h.flag, fun _ => hv, fun _ hr => (nomatch hr), h.pressed, h.rest⟩

/-- A step that drops no last release keeps the invariant. -/
theorem Mail.step (h : Mail s) (hk : KeepsRelease s a) (ht : step s a = some t) : Mail t := by
  cases moves_of_step ht with
  | tcUp hwait hpen =>
    exact h.report ⟨rfl, rfl, rfl, rfl⟩ id (.inl rfl) fun hr => ⟨rfl, hk ⟨hwait, hpen, hr.2.2⟩⟩
  | tcDown _ _ =>
    rcases notePress_eq (s := s) _ with heq | ⟨hrest, heq⟩
    · rw [heq]
      exact h.of_same ⟨rfl, rfl, rfl, rfl⟩ id fun hr => autoMode_ne_penDownMode hr.1
    -- a new touch, with no report of the last one left but a release
    · rw [heq]
      refine ⟨h.flag, h.busy, h.copied, fun hv hp => ?_,
        fun hr => absurd hr.1 autoMode_ne_penDownMode⟩
      rcases h.room hrest with h₀ | h₀
      · exact absurd (h₀.symm.trans hv) zero_ne_one
      · exact absurd h₀ hp
  | tickOff => exact h
  | tickUp htimer hauto hpen =>
    exact h.report ⟨rfl, rfl, rfl, rfl⟩ id (.inl rfl) fun _ => ⟨rfl, hk ⟨htimer, hauto, hpen⟩⟩
  | tickDown _ _ =>
    exact h.of_same ⟨rfl, rfl, rfl, rfl⟩ id fun hr => autoMode_ne_penDownMode hr.1
  | adcUp hpen ho =>
    exact h.report ⟨rfl, rfl, rfl, rfl⟩ id (.inl rfl) fun _ => ⟨rfl, hk ⟨ho, hpen⟩⟩
  | adcMore _ hu _ =>
    have hmail := afterSample_mailbox hu
    have htouched := touched_afterSample hu
    exact h.of_same ⟨hmail.valid, hmail.pressure, hmail.reader, hmail.handed⟩
      htouched fun hr => autoMode_ne_penDownMode hr.1
  | adcLast _ hu _ =>
    have hmail := afterSample_mailbox hu
    have htouched := touched_afterSample hu
    refine (h.report ?_ ?_ (.inr rfl) fun hr => ?_).measured
    · exact ⟨hmail.valid, hmail.pressure, hmail.reader, hmail.handed⟩
    · exact htouched
    · exact absurd ((afterSample_adctsc hu).symm.trans hr.1) penUpMode_ne_penDownMode
  | read hr => exact h.read hr

/-! ### Emptying the mailbox -/

/-- From `s` to `u` the mailbox has been emptied: the program has been given what was in it. -/
structure Drained (s u : Ts) : Prop where
  /-- It is empty. -/
  empty : u.gTsDataValid = 0
  /-- The driver has done nothing. -/
  atRest : s.AtRest → u.AtRest
  /-- Nor has the pen. -/
  log : u.log = s.log
  /-- What the program has been given. -/
  handed : ∃ r, u.handed.head? = some r ∧ r.pressure = s.gTsPressure

/-- The program can read on until the mailbox is empty. -/
def Drains (s : Ts) : Prop :=
  ∃ k u, run step s (List.replicate k .read) = some u ∧ Drained s u

/-- All assignments but the last change only where the program is. -/
theorem drains_of_reader {r : ReaderPc} (h : tsReadRaw s = some { s with reader := r })
    (hd : Drains { s with reader := r }) : Drains s := by
  obtain ⟨k, u, hu, hd⟩ := hd
  exact ⟨k + 1, u, run_cons.mpr ⟨_, h, hu⟩, hd.empty, hd.atRest, hd.log, hd.handed⟩

theorem drains_clear {r : Report} (h : s.reader = .clear r) (hp : r.pressure = s.gTsPressure) :
    Drains s :=
  ⟨1, { s with reader := .wait, gTsDataValid := 0, handed := r :: s.handed },
    run_cons.mpr ⟨_, by rw [step, tsReadRaw, h], rfl⟩, rfl, id, rfl, r, rfl, hp⟩

theorem drains_readPressure {x y : ℤ} (h : s.reader = .readPressure x y) : Drains s :=
  drains_of_reader (by rw [tsReadRaw, h]) (drains_clear rfl rfl)

theorem drains_readY {x : ℤ} (h : s.reader = .readY x) : Drains s :=
  drains_of_reader (by rw [tsReadRaw, h]) (drains_readPressure rfl)

theorem drains_readX (h : s.reader = .readX) : Drains s :=
  drains_of_reader (by rw [tsReadRaw, h]) (drains_readY rfl)

/-- Wherever the program is, it can empty a full mailbox. -/
theorem drains_of_full (hv : s.gTsDataValid ≠ 0)
    (hcopied : ∀ r, s.reader = .clear r → r.pressure = s.gTsPressure) : Drains s := by
  cases hr : s.reader with
  | wait =>
    refine drains_of_reader ?_ (drains_readX rfl)
    simp only [tsReadRaw, hr, if_neg hv]
  | readX => exact drains_readX hr
  | readY x => exact drains_readY hr
  | readPressure x y => exact drains_readPressure hr
  | clear r => exact drains_clear hr (hcopied r hr)

/-! ### A release that is dropped -/

/-- A last release is a report that leaves the driver at rest. -/
theorem lastRelease_step (hm : Measuring s) (h : LastRelease s a) :
    ∃ u, step s a = some (reportTsXy u 0 0 0) ∧ SameMailbox s u ∧ u.AtRest ∧
      (Touched s.log → Touched u.log) := by
  cases a with
  | isrTc d =>
    obtain ⟨hwait, hpen, htimer⟩ := h
    refine ⟨enterWaitPenDownMode s, ?_, ⟨rfl, rfl, rfl, rfl⟩,
      ⟨rfl, (hm.idle_of_waiting hwait).1, htimer⟩, id⟩
    have hnote : notePress s d = s := if_neg fun hp => by simp [hpen] at hp
    simp only [step, if_pos hwait, hnote, isrTc, hpen, if_true]
  | isrAdc d₀ d₁ pen =>
    obtain ⟨ho, hpen⟩ := h
    refine ⟨enterWaitPenDownMode (tsTimerDisable (resetAdc
      (enterWaitPenUpMode { s with outstanding := s.outstanding - 1 }))), ?_,
      ⟨rfl, rfl, rfl, rfl⟩, ⟨rfl, ?_, rfl⟩, fun htouch => htouch⟩
    · simp only [step, if_neg ho, isrAdc, hpen, if_true]
    · exact congrArg (· - 1) (hm.busy ho).2
  | tick d =>
    obtain ⟨htimer, hauto, hpen⟩ := h
    refine ⟨enterWaitPenDownMode (tsTimerDisable s), ?_, ⟨rfl, rfl, rfl, rfl⟩,
      ⟨rfl, (hm.idle_of_not_auto hauto).1, rfl⟩, id⟩
    simp only [step, touchscreenTimerIrq, if_neg htimer, hauto, hpen, if_true, if_false,
      Bool.false_eq_true]
  | read => exact h.elim

/-- A last release that finds no room is lost: the program is given a report with the pen
down, and then waits. -/
theorem exists_not_released (h : Mail s) (hm : Measuring s) (hlast : LastRelease s a)
    (hroom : ¬ Room s) : ∃ t, step s a = some t ∧
      ∃ k u, run step t (List.replicate k .read) = some u ∧ ¬ Released u := by
  obtain ⟨hv, hp⟩ := not_or.mp hroom
  obtain ⟨w, hw, hsame, hrest, htouch⟩ := lastRelease_step hm hlast
  obtain ⟨hv', hp'⟩ := reportTsXy_of_full w 0 0 0 (by rw [hsame.valid]; exact hv)
  rw [hsame.valid] at hv'
  rw [hsame.pressure] at hp'
  have hcopied : ∀ r, (reportTsXy w 0 0 0).reader = .clear r →
      r.pressure = (reportTsXy w 0 0 0).gTsPressure := by
    rw [reportTsXy_reader, hsame.reader, hp']
    exact h.copied
  obtain ⟨k, u, hu, hd⟩ := drains_of_full (by rw [hv']; exact hv) hcopied
  refine ⟨_, hw, k, u, hu, fun hreleased => ?_⟩
  have hrest' : u.AtRest := hd.atRest (by simpa [Ts.AtRest] using hrest)
  have htouch' : Touched u.log := by
    rw [hd.log, reportTsXy_log]
    exact .inr (htouch (h.pressed (h.flag.resolve_left hv) hp))
  rcases hreleased hrest' htouch' with ⟨r, hr, h₀⟩ | ⟨h₁, -⟩
  · obtain ⟨r', hr', hpr⟩ := hd.handed
    obtain rfl : r = r' := Option.some.inj (hr.symm.trans hr')
    exact hp (hp'.symm.trans (hpr.symm.trans h₀))
  · exact zero_ne_one (hd.empty.symm.trans h₁)

/-! ### Whole runs -/

theorem along_replicate_read (s : Ts) (k : ℕ) :
    Along step KeepsRelease s (List.replicate k .read) := by
  induction k generalizing s with
  | zero => trivial
  | succ k ih => exact ⟨fun h => h.elim, fun t _ => ih t⟩

theorem mail_throughout {as : List Act} (h : Along step KeepsRelease touchscreenInit as) :
    Throughout step Mail touchscreenInit as :=
  h.invariant (fun _ _ _ hm hk ht => hm.step hk ht) mail_touchscreenInit

/-- The releases of a run reach the program, whatever it goes on to read at any point of the
run, exactly if every last release of it finds room. -/
theorem release_kept_iff (as : List Act) : Along step KeepsRelease touchscreenInit as ↔
    ∀ bs cs k t, as = bs ++ cs →
      run step touchscreenInit (bs ++ List.replicate k .read) = some t → Released t := by
  have hiff := along_iff_of_lost (C := KeepsRelease) (P := Released)
    (E := fun ds => ∃ k, ds = List.replicate k .read)
    (fun as t hk ht => ((mail_throughout hk).last ht).released)
    (fun s ds hds => by
      obtain ⟨k, rfl⟩ := hds
      exact along_replicate_read s k)
    (fun bs s a hbs hs hbreach => by
      obtain ⟨hlast, hroom⟩ := Classical.not_imp.mp hbreach
      have hm := Reach.invariant (fun _ _ _ hm => Measuring.step hm) measuring_touchscreenInit
        ⟨bs, hs⟩
      obtain ⟨t, ht, k, u, hu, hnot⟩ :=
        exists_not_released ((mail_throughout hbs).last hs) hm hlast hroom
      exact ⟨t, ht, _, u, ⟨k, rfl⟩, hu, hnot⟩)
    as
  constructor
  · exact fun h bs cs k t hcs ht => hiff.mp h bs cs _ t hcs ⟨k, rfl⟩ ht
  · intro h
    apply hiff.mpr
    rintro bs cs _ t hcs ⟨k, rfl⟩ ht
    exact h bs cs k t hcs ht

/-- A touch of 16 samples whose report the program has not read when the pen goes up: the
release is dropped, and the program, given the touch, waits for it for ever. -/
theorem release_lost :
    ¬ ∀ as t, run step touchscreenInit as = some t → Released t := by
  intro h
  obtain ⟨t, ht, hrest, htouch, hhanded, hempty⟩ : ∃ t,
      run step touchscreenInit (.isrTc 0 :: List.replicate 16 (.isrAdc 0 0 0) ++
        .tick (1#32 <<< 15) :: List.replicate 5 .read) = some t ∧
      t.AtRest ∧ Touched t.log ∧ t.handed.head? = some ⟨0, 0, 1⟩ ∧ t.gTsDataValid = 0 := by
    refine ⟨_, rfl, by decide, ?_, rfl, rfl⟩
    exact Or.inr (Or.inl rfl)
  rcases h _ t ht hrest htouch with ⟨r, hr, h₀⟩ | ⟨h₁, -⟩
  · obtain rfl : ⟨0, 0, 1⟩ = r := Option.some.inj (hhanded.symm.trans hr)
    cases h₀
  · exact zero_ne_one (hempty.symm.trans h₁)

end S3c2440.Touch
