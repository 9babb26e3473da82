import S3c2440.Touch.Driver

/-!
# The mailbox of the touchscreen driver

`report_ts_xy` fills the mailbox in one go, from an interrupt; `ts_read_raw` empties it in five
assignments, and a report may come between any two of them. Here the reports are
arbitrary, and `accepted` notes those that `report_ts_xy` has stored, the oldest first.

## What is proved

* `Whole.step` — the invariant: what has been accepted is what has been returned and what is in
  the mailbox, and the program has copied from the report that is in it.
* `reports_cross_whole` — the triples that are returned are the accepted reports, whole, in
  order, each once; a report is accepted exactly if all accepted before have been returned.
-/

namespace S3c2440.Touch

open Theory

/-! ### The machine -/

/-- The driver's variables, and the reports that have been accepted. -/
structure Mailbox where
  /-- The variables. -/
  ts : Ts
  /-- The accepted reports, the oldest first. -/
  accepted : List Report

/-- What may happen next. -/
inductive MailAct where
  /-- An interrupt calls `report_ts_xy`. -/
  | report (r : Report)
  /-- The program's next assignment. -/
  | read

/-- One step. -/
def mailStep (m : Mailbox) : MailAct → Option Mailbox
  | .report r => some {
      ts := reportTsXy m.ts r.x r.y r.pressure
      accepted := if m.ts.gTsDataValid = 0 then m.accepted ++ [r] else m.accepted }
  | .read => (tsReadRaw m.ts).map fun ts => { m with ts := ts }

/-- The mailbox after `touchscreen_init`. -/
def mailInit : Mailbox := ⟨touchscreenInit, []⟩

/-- What `g_ts_x`, `g_ts_y` and `g_ts_pressure` hold. -/
def Ts.slot (s : Ts) : Report := ⟨s.gTsX, s.gTsY, s.gTsPressure⟩

/-- The report that waits in the mailbox. -/
def Ts.waiting (s : Ts) : Option Report := if s.gTsDataValid = 0 then none else some s.slot

variable {s : Ts} {m m' : Mailbox} {r : Report} {a : MailAct}

theorem waiting_of_empty (h : s.gTsDataValid = 0) : s.waiting = none := if_pos h

theorem waiting_of_full (h : s.gTsDataValid ≠ 0) : s.waiting = some s.slot := if_neg h

theorem waiting_eq_none : s.waiting = none ↔ s.gTsDataValid = 0 := by
  simp [Ts.waiting]

theorem slot_report_of_empty (h : s.gTsDataValid = 0) :
    (reportTsXy s r.x r.y r.pressure).slot = r := by
  rw [reportTsXy, if_pos h]
  rfl

theorem slot_report_of_full (h : s.gTsDataValid ≠ 0) :
    (reportTsXy s r.x r.y r.pressure).slot = s.slot := by
  rw [reportTsXy, if_neg h]
  rfl

/-! ### The invariant -/

/-- In the middle of reading the mailbox is full, and what has been copied is in it. -/
def Copying (s : Ts) : Prop :=
  match s.reader with
  | .wait => True
  | .readX => s.gTsDataValid ≠ 0
  | .readY x => s.gTsDataValid ≠ 0 ∧ x = s.gTsX
  | .readPressure x y => s.gTsDataValid ≠ 0 ∧ x = s.gTsX ∧ y = s.gTsY
  | .clear r => s.gTsDataValid ≠ 0 ∧ r = s.slot

/-- The accepted reports are those that were returned and the one that waits. -/
structure Whole (m : Mailbox) : Prop where
  /-- Nothing is lost, repeated or out of order. -/
  flow : m.accepted = m.ts.handed.reverse ++ m.ts.waiting.toList
  /-- Nor torn. -/
  copying : Copying m.ts

/-- The program does not read an empty mailbox. -/
theorem Copying.wait_of_empty (h : Copying s) (hv : s.gTsDataValid = 0) : s.reader = .wait := by
  unfold Copying at h
  split at h
  case h_1 hr => exact hr
  case h_2 => exact absurd hv h
  all_goals exact absurd hv h.1

/-- A report that is dropped changes nothing the program looks at. -/
theorem Copying.report_of_full (h : Copying s) (hv : s.gTsDataValid ≠ 0) :
    Copying (reportTsXy s r.x r.y r.pressure) := by
  rw [reportTsXy, if_neg hv]
  exact h

theorem Whole.report (h : Whole m) : ∃ m', mailStep m (.report r) = some m' ∧ Whole m' := by
  refine ⟨_, rfl, ?_⟩
  by_cases hv : m.ts.gTsDataValid = 0
  · obtain ⟨hv', -⟩ := reportTsXy_of_empty m.ts r.x r.y r.pressure hv
    refine ⟨?_, ?_⟩
    · have hwait := waiting_of_full (s := reportTsXy m.ts r.x r.y r.pressure) (by rw [hv']; decide)
      simp only [if_pos hv, hwait, slot_report_of_empty hv, reportTsXy_handed, h.flow,
        waiting_of_empty hv, Option.toList_none, Option.toList_some, List.append_nil]
    · have hr := h.copying.wait_of_empty hv
      rw [← reportTsXy_reader m.ts r.x r.y r.pressure] at hr
      simp only [Copying, hr]
  · refine ⟨?_, h.copying.report_of_full hv⟩
    obtain ⟨hv', -⟩ := reportTsXy_of_full m.ts r.x r.y r.pressure hv
    have hwait := waiting_of_full (s := reportTsXy m.ts r.x r.y r.pressure) (by rw [hv']; exact hv)
    simp only [if_neg hv, hwait, slot_report_of_full hv, reportTsXy_handed, h.flow,
      waiting_of_full hv]

/-- The assignments of `ts_read_raw`: the last one takes the report out of the mailbox. -/
theorem Whole.read {t : Ts} (h : Whole m) (ht : tsReadRaw m.ts = some t) :
    Whole { m with ts := t } := by
  obtain ⟨hflow, hcopying⟩ := h
  unfold Copying at hcopying
  unfold tsReadRaw at ht
  split at ht <;> rename_i hr <;> rw [hr] at hcopying
  case h_1 =>
    split at ht
    case isTrue => cases ht
    case isFalse hv =>
      cases ht
      exact ⟨hflow, hv⟩
  case h_2 =>
    cases ht
    exact ⟨hflow, hcopying, rfl⟩
  case h_3 =>
    cases ht
    exact ⟨hflow, hcopying.1, hcopying.2, rfl⟩
  case h_4 =>
    cases ht
    obtain ⟨hv, rfl, rfl⟩ := hcopying
    exact ⟨hflow, hv, rfl⟩
  case h_5 =>
    cases ht
    obtain ⟨hv, rfl⟩ := hcopying
    refine ⟨?_, trivial⟩
    rw [hflow, waiting_of_full hv]
    simp [Ts.waiting]

theorem Whole.step (h : Whole m) (hs : mailStep m a = some m') : Whole m' := by
  cases a with
  | report r =>
    obtain ⟨m'', hm, hw⟩ := h.report (r := r)
    exact Option.some.inj (hm.symm.trans hs) ▸ hw
  | read =>
    obtain ⟨t, ht, rfl⟩ := Option.map_eq_some_iff.mp hs
    exact h.read ht

/-! ### Whole runs -/

/-- What the program has been given, and what happens to the next report. -/
structure Crossed (m : Mailbox) : Prop where
  /-- The triples that were returned are the first of the accepted reports, in order. -/
  returned : m.ts.handed.reverse <+: m.accepted
  /-- At most one accepted report has not been returned, and it is in the mailbox. -/
  waiting : m.accepted.length ≤ m.ts.handed.length + 1
  /-- The mailbox is empty when all have been returned. -/
  empty : m.ts.gTsDataValid = 0 ↔ m.accepted = m.ts.handed.reverse
  /-- Then the next report is accepted, and stored. -/
  accepts : m.accepted = m.ts.handed.reverse → ∀ r m', mailStep m (.report r) = some m' →
    m'.accepted = m.accepted ++ [r] ∧ m'.ts.slot = r
  /-- Otherwise it is not, and the one that waits stays as it is. -/
  drops : m.accepted ≠ m.ts.handed.reverse → ∀ r m', mailStep m (.report r) = some m' →
    m'.accepted = m.accepted ∧ m'.ts.slot = m.ts.slot

theorem Whole.empty_iff (h : Whole m) :
    m.ts.gTsDataValid = 0 ↔ m.accepted = m.ts.handed.reverse := by
  rw [← waiting_eq_none, h.flow]
  cases m.ts.waiting <;> simp

/-- **Reports cross the mailbox whole**, in order and once each. -/
theorem reports_cross_whole (h : Reach mailStep mailInit m) : Crossed m := by
  have hinit : Whole mailInit := ⟨rfl, trivial⟩
  have hw := h.invariant (fun _ _ _ hm hs => hm.step hs) hinit
  refine ⟨?_, ?_, hw.empty_iff, fun hall r m' hm => ?_, fun hne r m' hm => ?_⟩
  · rw [hw.flow]
    exact List.prefix_append ..
  · rw [hw.flow, List.length_append, List.length_reverse]
    cases m.ts.waiting <;> simp
  · have hv := hw.empty_iff.mpr hall
    cases hm
    exact ⟨if_pos hv, slot_report_of_empty hv⟩
  · have hv : m.ts.gTsDataValid ≠ 0 := fun hv => hne (hw.empty_iff.mp hv)
    cases hm
    exact ⟨if_neg hv, slot_report_of_full hv⟩

/-- A report between the two coordinates of the one being read is dropped; the one after that
read is accepted. -/
theorem reports_cross_whole_busy :
    ∃ m, run mailStep mailInit [.report ⟨1, 2, 1⟩, .read, .read, .report ⟨3, 4, 1⟩, .read, .read,
        .read, .report ⟨5, 6, 0⟩] = some m ∧
      m.accepted = [⟨1, 2, 1⟩, ⟨5, 6, 0⟩] ∧ m.ts.handed = [⟨1, 2, 1⟩] ∧ Crossed m := by
  obtain ⟨m, hm, ha, hh⟩ : ∃ m, run mailStep mailInit [.report ⟨1, 2, 1⟩, .read, .read,
      .report ⟨3, 4, 1⟩, .read, .read, .read, .report ⟨5, 6, 0⟩] = some m ∧
      m.accepted = [⟨1, 2, 1⟩, ⟨5, 6, 0⟩] ∧ m.ts.handed = [⟨1, 2, 1⟩] := ⟨_, rfl, rfl, rfl⟩
  exact ⟨m, hm, ha, hh, reports_cross_whole ⟨_, hm⟩⟩

end S3c2440.Touch
