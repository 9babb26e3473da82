import S3c2440.Touch.Driver
import Mathlib.Algebra.Order.BigOperators.Group.List
import Mathlib.Tactic.Linarith

/-!
# What the touchscreen driver reports with the pen down

`Isr_Adc` adds up samples in three static variables that it alone sets back, and three
interrupts start the conversions it takes them from. `Holds` says what is in these
variables: the samples at the head of the log, with nothing sampled between them and the
last time they were set back.

## What is proved

* `Measuring.step` — every step keeps the invariant of the mode, the accumulators and the
  reports.
* `sampling_invariant` — in every reachable state fewer than 16 samples are held, their
  sums are in the accumulators, a conversion is never started while another is
  outstanding, and every report with the pen down is the mean of 16 samples in a row.
-/

namespace S3c2440.Touch

open Theory

/-! ### The samples of a log -/

/-- The samples taken since the last reset, the newest first. -/
def sinceReset : List Event → List (ℤ × ℤ)
  | [] => []
  | .reset :: _ => []
  | .sample x y :: log => (x, y) :: sinceReset log
  | .press :: log => sinceReset log
  | .report _ :: log => sinceReset log

/-- The event of a sample. -/
def sampled (p : ℤ × ℤ) : Event := .sample p.1 p.2

/-- A sample is ten bits wide. -/
def TenBits (v : ℤ) : Prop := 0 ≤ v ∧ v ≤ 1023

theorem sampleOf_tenBits (d : BitVec 32) : TenBits (sampleOf d) := by
  have h : (d &&& 0x3ff).toNat ≤ 1023 := by
    rw [BitVec.toNat_and]
    exact Nat.and_le_right
  exact ⟨Int.natCast_nonneg _, Int.ofNat_le.mpr h⟩

/-- A sum of ten-bit values is at most 1023 times their number. -/
theorem sum_bounds {l : List ℤ} (h : ∀ v ∈ l, TenBits v) :
    0 ≤ l.sum ∧ l.sum ≤ 1023 * l.length := by
  refine ⟨List.sum_nonneg fun v hv => (h v hv).1, ?_⟩
  calc l.sum ≤ l.length • (1023 : ℤ) := List.sum_le_card_nsmul l 1023 fun v hv => (h v hv).2
    _ = 1023 * l.length := by rw [nsmul_eq_mul, mul_comm]

theorem sinceReset_append {samples : List (ℤ × ℤ)} {rest : List Event}
    (h : sinceReset rest = []) : sinceReset (samples.map sampled ++ rest) = samples := by
  induction samples with
  | nil => exact h
  | cons p samples ih => exact congrArg (p :: ·) ih

/-- `x` and `y` are the means, rounded down, of the last 16 events, which are samples, and the
only ones since the last reset. -/
def MeanOf (x y : ℤ) (log : List Event) : Prop :=
  ∃ samples rest, log = samples.map sampled ++ rest ∧ sinceReset log = samples ∧
    samples.length = 16 ∧ x = (samples.map Prod.fst).sum / 16 ∧
    y = (samples.map Prod.snd).sum / 16

/-- Every report of the log with the pen down is the mean of the 16 samples before it. -/
def Averaged (log : List Event) : Prop :=
  ∀ later earlier x y, log = later ++ .report ⟨x, y, 1⟩ :: earlier → MeanOf x y earlier

variable {log : List Event}

theorem averaged_nil : Averaged [] := by
  intro later earlier x y h
  exact absurd h.symm (List.append_ne_nil_of_right_ne_nil later (List.cons_ne_nil _ _))

theorem Averaged.cons {e : Event} (h : Averaged log)
    (he : ∀ x y, e = .report ⟨x, y, 1⟩ → MeanOf x y log) : Averaged (e :: log) := by
  intro later earlier x y hl
  cases later with
  | nil =>
    obtain ⟨rfl, rfl⟩ := List.cons.inj hl
    exact he x y rfl
  | cons e' later => exact h later earlier x y (List.cons.inj hl).2

theorem averaged_afterSample {s u : Ts} {x y : ℤ} (h : Averaged s.log)
    (hu : afterSample s x y u) : Averaged u.log := by
  rw [afterSample_log hu]
  exact h.cons fun _ _ hx => nomatch hx

/-! ### The accumulators -/

/-- The accumulators hold the samples at the head of the log, the only ones since the last
reset. -/
structure Holds (s : Ts) (samples : List (ℤ × ℤ)) : Prop where
  /-- They are the last things that happened. -/
  log : ∃ rest, s.log = samples.map sampled ++ rest ∧ sinceReset rest = []
  /-- `adc_cnt`. -/
  cnt : s.adcCnt = samples.length
  /-- `adc_x`. -/
  sumX : s.adcX = (samples.map Prod.fst).sum
  /-- `adc_y`. -/
  sumY : s.adcY = (samples.map Prod.snd).sum
  /-- A sample has ten bits. -/
  ten : ∀ p ∈ samples, TenBits p.1 ∧ TenBits p.2

variable {s t u : Ts} {samples : List (ℤ × ℤ)}

theorem Holds.sinceReset_eq (h : Holds s samples) : sinceReset s.log = samples := by
  obtain ⟨rest, hlog, hrest⟩ := h.log
  rw [hlog, sinceReset_append hrest]

/-- The accumulators of a driver that is not measuring hold nothing. -/
theorem holds_nil (hlog : sinceReset s.log = []) (hcnt : s.adcCnt = 0) (hx : s.adcX = 0)
    (hy : s.adcY = 0) : Holds s [] :=
  ⟨⟨s.log, rfl, hlog⟩, hcnt, hx, hy, fun _ hp => nomatch hp⟩

/-- `Isr_Adc` adds its sample to those that are held. -/
theorem Holds.push {x y : ℤ} (h : Holds s samples) (hx : TenBits x) (hy : TenBits y)
    (hu : afterSample s x y u) : Holds { u with adcCnt := u.adcCnt + 1 } ((x, y) :: samples) := by
  obtain ⟨-, rfl⟩ := afterSample_iff.mp hu
  obtain ⟨rest, hlog, hrest⟩ := h.log
  refine ⟨⟨rest, congrArg (Event.sample x y :: ·) hlog, hrest⟩, ?_, ?_, ?_, ?_⟩
  · simp [h.cnt]
  · simp [h.sumX, add_comm]
  · simp [h.sumY, add_comm]
  · exact List.forall_mem_cons.mpr ⟨⟨hx, hy⟩, h.ten⟩

/-- The 16 samples that are held have the mean `Isr_Adc` reports. -/
theorem Holds.meanOf (h : Holds s samples) (h16 : s.adcCnt = 16) :
    MeanOf (s.adcX >>> (4 : ℕ)) (s.adcY >>> (4 : ℕ)) s.log := by
  obtain ⟨rest, hlog, -⟩ := h.log
  have hlen : samples.length = 16 := by exact_mod_cast h.cnt.symm.trans h16
  refine ⟨samples, rest, hlog, h.sinceReset_eq, hlen, ?_, ?_⟩
  · rw [h.sumX, Int.shiftRight_eq_div_pow]; rfl
  · rw [h.sumY, Int.shiftRight_eq_div_pow]; rfl

/-- What is in the accumulators is bounded by the number of samples. -/
theorem Holds.bounds (h : Holds s samples) :
    (0 ≤ s.adcX ∧ s.adcX ≤ 1023 * s.adcCnt) ∧ 0 ≤ s.adcY ∧ s.adcY ≤ 1023 * s.adcCnt := by
  have hx := sum_bounds (List.forall_mem_map.mpr fun p hp => (h.ten p hp).1)
  have hy := sum_bounds (List.forall_mem_map.mpr fun p hp => (h.ten p hp).2)
  rw [List.length_map] at hx hy
  rw [h.sumX, h.sumY, h.cnt]
  exact ⟨hx, hy⟩

/-! ### The invariant -/

/-- One conversion is outstanding in auto-measure mode; in the other modes there is none, and
no sample is held. -/
structure Measuring (s : Ts) : Prop where
  /-- The samples that are held. -/
  held : ∃ samples, Holds s samples ∧ samples.length < 16
  /-- The mode. -/
  mode : s.adctsc = autoMode ∧ s.outstanding = 1 ∨
    (s.adctsc = penDownMode ∨ s.adctsc = penUpMode) ∧ s.outstanding = 0 ∧ s.adcCnt = 0
  /-- The reports. -/
  mean : Averaged s.log

theorem isInAutoMode_of_eq (h : s.adctsc = autoMode) : isInAutoMode s = true := by
  unfold isInAutoMode
  rw [h]
  decide

theorem autoMode_not_waiting : autoMode &&& waitIntMode ≠ waitIntMode := by decide

/-- Outside auto-measure mode nothing is outstanding and nothing is held. -/
theorem Measuring.idle (h : Measuring s) (hmode : s.adctsc ≠ autoMode) :
    s.outstanding = 0 ∧ Holds s [] := by
  rcases h.mode with ⟨hauto, -⟩ | ⟨-, ho, hcnt⟩
  · exact absurd hauto hmode
  · obtain ⟨samples, hs, -⟩ := h.held
    have hlen : samples.length = 0 := by exact_mod_cast hs.cnt.symm.trans hcnt
    exact ⟨ho, List.length_eq_zero_iff.mp hlen ▸ hs⟩

theorem Measuring.idle_of_waiting (h : Measuring s) (hw : s.adctsc &&& waitIntMode = waitIntMode) :
    s.outstanding = 0 ∧ Holds s [] :=
  h.idle fun heq => autoMode_not_waiting (heq ▸ hw)

theorem Measuring.idle_of_not_auto (h : Measuring s) (ha : isInAutoMode s = false) :
    s.outstanding = 0 ∧ Holds s [] :=
  h.idle fun heq => Bool.false_ne_true (ha.symm.trans (isInAutoMode_of_eq heq))

/-- While a conversion is outstanding there is no other, in auto-measure mode. -/
theorem Measuring.busy (h : Measuring s) (ho : s.outstanding ≠ 0) :
    s.adctsc = autoMode ∧ s.outstanding = 1 := by
  rcases h.mode with hauto | ⟨-, h₀, -⟩
  · exact hauto
  · exact absurd h₀ ho

/-- A release is reported with nothing held. -/
theorem measuring_release (hmean : Averaged s.log) (hs : Holds s []) (ho : s.outstanding = 0) :
    Measuring (reportTsXy (enterWaitPenDownMode s) 0 0 0) := by
  obtain ⟨rest, hlog, hrest⟩ := hs.log
  rw [List.map_nil, List.nil_append] at hlog
  refine ⟨⟨[], holds_nil ?_ ?_ ?_ ?_, by decide⟩, .inr ⟨.inl ?_, ?_, ?_⟩, ?_⟩
  · rw [reportTsXy_log]
    exact hlog ▸ hrest
  · rw [reportTsXy_adcCnt]; exact hs.cnt
  · rw [reportTsXy_adcX]; exact hs.sumX
  · rw [reportTsXy_adcY]; exact hs.sumY
  · rw [reportTsXy_adctsc]; rfl
  · rw [reportTsXy_outstanding]; exact ho
  · rw [reportTsXy_adcCnt]; exact hs.cnt
  · rw [reportTsXy_log]
    exact hmean.cons fun x y h => by cases h

/-- A conversion is started with no other outstanding. -/
theorem measuring_start (hmean : Averaged s.log) (hs : Holds s samples) (hlt : samples.length < 16)
    (ho : s.outstanding = 0) : Measuring (startAdc (enterAutoMeasureMode s)) :=
  ⟨⟨samples, ⟨hs.log, hs.cnt, hs.sumX, hs.sumY, hs.ten⟩, hlt⟩,
    .inl ⟨rfl, congrArg (· + 1) ho⟩, hmean⟩

/-- Every step keeps the invariant. -/
theorem Measuring.step {a : Act} (h : Measuring s) (ht : step s a = some t) : Measuring t := by
  cases moves_of_step ht with
  | tcUp hwait _ =>
    obtain ⟨ho, hs⟩ := h.idle_of_waiting hwait
    exact measuring_release h.mean hs ho
  | tcDown hwait _ =>
    obtain ⟨ho, hs⟩ := h.idle_of_waiting hwait
    rcases notePress_eq (s := s) _ with heq | ⟨-, heq⟩
    · rw [heq]
      exact measuring_start h.mean hs (by decide) ho
    · rw [heq]
      refine measuring_start (h.mean.cons fun _ _ hx => nomatch hx)
        (holds_nil hs.sinceReset_eq hs.cnt hs.sumX hs.sumY) (by decide) ho
  | tickOff => exact h
  | tickUp _ hauto _ =>
    obtain ⟨ho, hs⟩ := h.idle_of_not_auto hauto
    exact measuring_release h.mean ⟨hs.log, hs.cnt, hs.sumX, hs.sumY, hs.ten⟩ ho
  | tickDown _ hauto =>
    obtain ⟨ho, hs⟩ := h.idle_of_not_auto hauto
    exact measuring_start h.mean hs (by decide) ho
  | adcUp _ ho =>
    obtain ⟨-, h₁⟩ := h.busy ho
    refine measuring_release (h.mean.cons fun _ _ hx => nomatch hx) (holds_nil rfl rfl rfl rfl) ?_
    exact congrArg (· - 1) h₁
  | adcMore ho hu hcnt =>
    obtain ⟨samples, hs, hlt⟩ := h.held
    have hpush := hs.push (sampleOf_tenBits _) (sampleOf_tenBits _) hu
    have hmean := averaged_afterSample h.mean hu
    have hlen : _ + 1 = ((samples.length + 1 : ℕ) : ℤ) := hpush.cnt
    refine measuring_start hmean hpush ?_ ((afterSample_outstanding hu).trans ?_)
    -- the sixteenth sample would have ended the measurement
    · rw [List.length_cons]
      omega
    · rw [(h.busy ho).2]
  | adcLast ho hu hcnt =>
    obtain ⟨samples, hs, hlt⟩ := h.held
    have hpush := hs.push (sampleOf_tenBits _) (sampleOf_tenBits _) hu
    have hmean := averaged_afterSample h.mean hu
    refine ⟨⟨[], holds_nil rfl rfl rfl rfl, by decide⟩, .inr ⟨.inr rfl, ?_, rfl⟩, ?_⟩
    · have hzero : s.outstanding - 1 = 0 := by rw [(h.busy ho).2]
      exact (reportTsXy_outstanding _ _ _ _).trans ((afterSample_outstanding hu).trans hzero)
    · refine Averaged.cons ?_ fun _ _ hx => nomatch hx
      rw [reportTsXy_log]
      refine Averaged.cons hmean fun x y hx => ?_
      obtain ⟨rfl, rfl⟩ : _ ∧ _ := by simpa using hx
      exact hpush.meanOf hcnt
  | read hr =>
    obtain ⟨r, v, l, rfl⟩ := tsReadRaw_frame hr
    obtain ⟨samples, hs, hlt⟩ := h.held
    exact ⟨⟨samples, ⟨hs.log, hs.cnt, hs.sumX, hs.sumY, hs.ten⟩, hlt⟩, h.mode, h.mean⟩

/-! ### Every reachable state -/

theorem measuring_touchscreenInit : Measuring touchscreenInit :=
  ⟨⟨[], holds_nil rfl rfl rfl rfl, by decide⟩, .inr ⟨.inl rfl, rfl, rfl⟩, averaged_nil⟩

/-- What the driver's variables say about the samples, and the reports about both. -/
structure Sampled (s : Ts) : Prop where
  /-- Fewer than 16 samples are held: those taken since the last reset. -/
  cnt : s.adcCnt = (sinceReset s.log).length ∧ s.adcCnt < 16
  /-- `adc_x` is the sum of their first coordinates, of ten bits each. -/
  sumX : s.adcX = ((sinceReset s.log).map Prod.fst).sum ∧ 0 ≤ s.adcX ∧ s.adcX ≤ 1023 * s.adcCnt
  /-- `adc_y` is the sum of their second coordinates. -/
  sumY : s.adcY = ((sinceReset s.log).map Prod.snd).sum ∧ 0 ≤ s.adcY ∧ s.adcY ≤ 1023 * s.adcCnt
  /-- While some are held, one conversion is outstanding, in auto-measure mode. -/
  measuring : s.adcCnt ≠ 0 → isInAutoMode s = true ∧ s.outstanding = 1
  /-- No conversion is started while another is outstanding: it would count two. -/
  outstanding : s.outstanding ≤ 1
  /-- The next sample has a place in the test arrays. -/
  stored : ∀ adcdat0 adcdat1 pen, s.outstanding ≠ 0 →
    ∃ t, step s (.isrAdc adcdat0 adcdat1 pen) = some t
  /-- A report with the pen down is the mean of the 16 samples since the last reset, with
  nothing reported between them. -/
  mean : Averaged s.log

theorem Measuring.stored (h : Measuring s) (adcdat0 adcdat1 pen : BitVec 32)
    (ho : s.outstanding ≠ 0) : ∃ t, Touch.step s (.isrAdc adcdat0 adcdat1 pen) = some t := by
  obtain ⟨samples, hs, hlt⟩ := h.held
  have hrange : 0 ≤ s.adcCnt ∧ s.adcCnt < 16 := by
    rw [hs.cnt]
    omega
  simp only [Touch.step, if_neg ho, isrAdc]
  split
  · exact ⟨_, rfl⟩
  · have hu : ∃ u, afterSample s (sampleOf adcdat0) (sampleOf adcdat1) u :=
      ⟨_, afterSample_iff.mpr ⟨hrange, rfl⟩⟩
    obtain ⟨u, hu⟩ := hu
    exact ⟨_, congrArg (Option.map _) hu⟩

/-- The sampling invariant. -/
theorem sampling_invariant (h : Reach step touchscreenInit s) : Sampled s := by
  have hs := h.invariant (fun _ _ _ hm => hm.step) measuring_touchscreenInit
  obtain ⟨samples, hheld, hlt⟩ := hs.held
  obtain ⟨hx, hy⟩ := hheld.bounds
  have hsince := hheld.sinceReset_eq
  refine ⟨⟨?_, ?_⟩, ⟨?_, hx⟩, ⟨?_, hy⟩, fun hcnt => ?_, ?_, hs.stored, hs.mean⟩
  · rw [hsince, hheld.cnt]
  · rw [hheld.cnt]
    exact_mod_cast hlt
  · rw [hsince, hheld.sumX]
  · rw [hsince, hheld.sumY]
  · rcases hs.mode with ⟨hauto, ho⟩ | ⟨-, -, h₀⟩
    · exact ⟨isInAutoMode_of_eq hauto, ho⟩
    · exact absurd h₀ hcnt
  · rcases hs.mode with ⟨-, ho⟩ | ⟨-, ho, -⟩
    · exact ho.le
    · exact ho.le.trans (Nat.zero_le 1)

/-- A pen held down for 16 samples, of which two differ: the means are rounded down. -/
theorem sampling_invariant_reported :
    ∃ s, run step touchscreenInit (.isrTc 0 :: .isrAdc 7 1 0 :: .isrAdc 6 0 0 ::
        List.replicate 14 (.isrAdc 5 0 0)) = some s ∧
      (s.gTsX, s.gTsY, s.gTsPressure) = (5, 0, 1) ∧ Sampled s := by
  obtain ⟨s, hs, hreport⟩ : ∃ s, run step touchscreenInit (.isrTc 0 :: .isrAdc 7 1 0 ::
      .isrAdc 6 0 0 :: List.replicate 14 (.isrAdc 5 0 0)) = some s ∧
      (s.gTsX, s.gTsY, s.gTsPressure) = (5, 0, 1) := ⟨_, rfl, rfl⟩
  exact ⟨s, hs, hreport, sampling_invariant ⟨_, hs⟩⟩

end S3c2440.Touch
