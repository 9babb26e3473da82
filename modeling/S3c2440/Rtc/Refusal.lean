import S3c2440.Rtc.M41t11

/-!
# Dates that the clock refuses

`m41t11_set_datetime` leaves through four exits before it writes to the chip. The last of them is
taken by a test that also assigns: `if ((dt->tm_year -= epoch) > 255)`. Here its calls of
`i2c_write` are kept beside what it returns and what it leaves in `dt`
(`m41t11SetDatetime_eq`).

## What is proved

* `refused_unchanged_iff` — exactly when a refusal leaves `dt` alone; `refused_unchanged_year` is
  a date that is refused and changed.
-/

namespace S3c2440.Rtc

/-- A call of `i2c_write`. -/
structure Transfer where
  /-- The slave's address. -/
  slave : BitVec 8
  /-- The bytes. -/
  bytes : List (BitVec 8)
  deriving DecidableEq

/-- `m41t11_set_datetime`: what it returns, what it leaves in `dt`, and its transfers. -/
def m41t11SetDatetimeTraced (dt : RtcTime) : ℤ × RtcTime × List Transfer :=
  if dt.tmMon.slt 1 || (12#32).slt dt.tmMon || dt.tmMday == 0 then (-1, dt, [])
  else if (lastDay dt).slt dt.tmMday then (-2, dt, [])
  else if (24#32).sle dt.tmHour || (60#32).sle dt.tmMin || (60#32).sle dt.tmSec then (-3, dt, [])
  else
    let dt := { dt with tmYear := dt.tmYear - epoch }
    if (255#32).slt dt.tmYear then (-4, dt, [])
    else
      let dt :=
        if (100#32).sle dt.tmYear then { dt with tmYear := dt.tmYear - 100 } else dt
      (0, dt, [⟨0xD0, 0 :: registers dt⟩])

/-- The chip sees the transfers, and nothing else. -/
theorem m41t11SetDatetime_eq (c : M41t11) (dt : RtcTime) :
    m41t11SetDatetime c dt = ((m41t11SetDatetimeTraced dt).1, (m41t11SetDatetimeTraced dt).2.1,
      (m41t11SetDatetimeTraced dt).2.2.foldl (fun c t => i2cWrite c t.bytes) c) := by
  unfold m41t11SetDatetime m41t11SetDatetimeTraced
  split
  · rfl
  split
  · rfl
  split
  · rfl
  dsimp only
  split <;> rfl

variable {dt : RtcTime}

/-- A refusal transfers nothing and leaves every field as it was. -/
def RefusalUnchanged (dt : RtcTime) : Prop :=
  (m41t11SetDatetimeTraced dt).1 < 0 →
    (m41t11SetDatetimeTraced dt).2.2 = [] ∧ (m41t11SetDatetimeTraced dt).2.1 = dt

/-- The month, the day or the time is not one that there is. -/
def NoSuchDay (dt : RtcTime) : Prop :=
  (dt.tmMon.toInt < 1 ∨ 12 < dt.tmMon.toInt ∨ dt.tmMday = 0) ∨
    (lastDay dt).toInt < dt.tmMday.toInt ∨
    24 ≤ dt.tmHour.toInt ∨ 60 ≤ dt.tmMin.toInt ∨ 60 ≤ dt.tmSec.toInt

/-- The year is at most 255 after `epoch`, and not so far before it that the difference is no
`int`. -/
def YearInRange (dt : RtcTime) : Prop :=
  -2 ^ 31 + 2000 ≤ dt.tmYear.toInt ∧ dt.tmYear.toInt ≤ 2255

/-- The test that assigns. -/
theorem slt_sub_epoch (y : BitVec 32) :
    (255#32).slt (y - epoch) = true ↔ ¬ (-2 ^ 31 + 2000 ≤ y.toInt ∧ y.toInt ≤ 2255) := by
  have hlow := BitVec.le_toInt y
  have hhigh := BitVec.toInt_lt (x := y)
  have hsub : (y - epoch).toInt = (y.toInt - 2000).bmod (2 ^ 32) := BitVec.toInt_sub
  rw [BitVec.slt_iff_toInt_lt, show (255#32).toInt = 255 from rfl]
  by_cases hge : -2 ^ 31 + 2000 ≤ y.toInt
  · rw [Int.bmod_eq_of_le (by omega) (by omega)] at hsub
    omega
  · -- the difference goes round
    have hround : (y.toInt - 2000 : ℤ).bmod (2 ^ 32) = y.toInt - 2000 + 2 ^ 32 := by
      rw [← Int.add_bmod_right]
      exact Int.bmod_eq_of_le (by omega) (by omega)
    rw [hround] at hsub
    omega

theorem checks_iff (dt : RtcTime) :
    NoSuchDay dt ↔ (dt.tmMon.slt 1 || (12#32).slt dt.tmMon || dt.tmMday == 0) = true ∨
      (lastDay dt).slt dt.tmMday = true ∨
      ((24#32).sle dt.tmHour || (60#32).sle dt.tmMin || (60#32).sle dt.tmSec) = true := by
  simp only [NoSuchDay, Bool.or_eq_true, BitVec.slt_iff_toInt_lt, BitVec.sle_iff_toInt_le,
    beq_iff_eq, or_assoc]
  rfl

/-- A refusal transfers nothing and leaves the date as it was if and only if there is no such day or
time, or the year is in range. -/
theorem refused_unchanged_iff (dt : RtcTime) :
    RefusalUnchanged dt ↔ NoSuchDay dt ∨ YearInRange dt := by
  rw [RefusalUnchanged, checks_iff, m41t11SetDatetimeTraced]
  split
  case isTrue hdate => exact iff_of_true (fun _ => ⟨rfl, rfl⟩) (.inl (.inl hdate))
  case isFalse hdate =>
    split
    case isTrue hday => exact iff_of_true (fun _ => ⟨rfl, rfl⟩) (.inl (.inr (.inl hday)))
    case isFalse hday =>
      split
      case isTrue htime => exact iff_of_true (fun _ => ⟨rfl, rfl⟩) (.inl (.inr (.inr htime)))
      case isFalse htime =>
        have hchecks : ¬ (_ ∨ _ ∨ _) := not_or.mpr ⟨hdate, not_or.mpr ⟨hday, htime⟩⟩
        rw [or_iff_right hchecks]
        dsimp only
        split
        case isTrue hyear =>
          -- the year has been changed by then
          refine iff_of_false (fun h => ?_) ((slt_sub_epoch _).mp hyear)
          have hsame : dt.tmYear - epoch = dt.tmYear :=
            congrArg RtcTime.tmYear (h (by omega)).2
          exact absurd (sub_eq_self.mp hsame) (by decide)
        case isFalse hyear =>
          refine iff_of_true (fun h => absurd h (by omega)) ?_
          exact not_not.mp fun hrange => hyear ((slt_sub_epoch _).mpr hrange)

/-- New Year's Day of 2300. -/
def newYear2300 : RtcTime := ⟨0, 0, 0, 1, 1, 1, 2300⟩

/-- It is refused, and the year is 300 then. -/
theorem refused_unchanged_year : ¬ ∀ dt : RtcTime, RefusalUnchanged dt := by
  intro h
  exact absurd (h newYear2300 (by decide)).2 (by decide)

end S3c2440.Rtc
