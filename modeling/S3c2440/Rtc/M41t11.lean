import S3c2440.Theory.Memory
import Mathlib.Data.BitVec

/-!
# The clock chip

`m41t11.c`, in `bare_board/code/SPI/code/01th_spi_i2c_adc_jz2440_oled_020_002` (and the same in
`linux_driver/code/IIC_at24cxx`): `m41t11_set_datetime` checks a date and a time and writes them
to the registers of the chip as two decimal digits each; `m41t11_get_datetime` reads the
registers, masks them and puts the digits together again.

The fields of an `rtc_time` are of type `int`; the chip's year is counted from `epoch`, an
`unsigned long`. The chip does not count: its registers are a memory that gives back what is
written to it.

## What is proved

* `survives_iff` — which values of a field survive being written as digits and read back.
* `datetime_round_trip_iff` — exactly which of the dates that are accepted are read back as they
  were.
-/

namespace S3c2440.Rtc

open Theory

/-! ### The chip -/

/-- The memory of the chip, and the address at which the next byte is read or written. -/
structure M41t11 where
  /-- The bytes. -/
  mem : BitVec 6 → BitVec 8
  /-- The address. -/
  addr : BitVec 6

/-- `i2c_write` to the chip: an address, and what is written from there on. -/
def i2cWrite (c : M41t11) : List (BitVec 8) → M41t11
  | [] => c
  | a :: bs =>
    ⟨Memory.store c.mem (a.setWidth 6) bs, a.setWidth 6 + BitVec.ofNat 6 bs.length⟩

/-- `i2c_read` of `n` bytes: they, and the chip. -/
def i2cRead (c : M41t11) (n : ℕ) : List (BitVec 8) × M41t11 :=
  ((List.range n).map fun i => c.mem (c.addr + BitVec.ofNat 6 i),
    { c with addr := c.addr + BitVec.ofNat 6 n })

/-! ### The two functions -/

/-- `struct rtc_time`. -/
@[ext]
structure RtcTime where
  /-- `tm_sec`. -/
  tmSec : BitVec 32
  /-- `tm_min`. -/
  tmMin : BitVec 32
  /-- `tm_hour`. -/
  tmHour : BitVec 32
  /-- `tm_wday`. -/
  tmWday : BitVec 32
  /-- `tm_mday`. -/
  tmMday : BitVec 32
  /-- `tm_mon`. -/
  tmMon : BitVec 32
  /-- `tm_year`. -/
  tmYear : BitVec 32
  deriving DecidableEq

/-- `BCD_TO_BIN` of an `unsigned char`. -/
def bcdToBin (val : BitVec 8) : BitVec 32 :=
  (val.setWidth 32 &&& 15) + (val.setWidth 32 >>> 4) * 10

/-- `BIN_TO_BCD` of an `int`, put into an `unsigned char`. -/
def binToBcd (val : BitVec 32) : BitVec 8 := ((val.sdiv 10 <<< 4) + val.srem 10).setWidth 8

/-- `epoch`. -/
def epoch : BitVec 32 := 2000

/-- `days_in_mo`. -/
def daysInMo : List (BitVec 32) := [0, 31, 28, 31, 30, 31, 30, 31, 31, 30, 31, 30, 31]

/-- `leap_yr`. -/
def leapYr (tmYear : BitVec 32) : Bool :=
  (tmYear.srem 4 == 0 && tmYear.srem 100 != 0) || tmYear.srem 400 == 0

/-- The last day of the month. -/
def lastDay (dt : RtcTime) : BitVec 32 :=
  daysInMo.getD dt.tmMon.toNat 0 + if dt.tmMon == 2 && leapYr dt.tmYear then 1 else 0

/-- The registers. -/
def registers (dt : RtcTime) : List (BitVec 8) :=
  [binToBcd dt.tmSec, binToBcd dt.tmMin, binToBcd dt.tmHour, binToBcd dt.tmWday,
    binToBcd dt.tmMday, binToBcd dt.tmMon, binToBcd dt.tmYear, 0]

/-- `m41t11_set_datetime`: what it returns, what it leaves in `dt`, and the chip. -/
def m41t11SetDatetime (c : M41t11) (dt : RtcTime) : ℤ × RtcTime × M41t11 :=
  if dt.tmMon.slt 1 || (12#32).slt dt.tmMon || dt.tmMday == 0 then (-1, dt, c)
  else if (lastDay dt).slt dt.tmMday then (-2, dt, c)
  else if (24#32).sle dt.tmHour || (60#32).sle dt.tmMin || (60#32).sle dt.tmSec then (-3, dt, c)
  else
    let dt := { dt with tmYear := dt.tmYear - epoch }
    -- the comparison is of an `int`
    if (255#32).slt dt.tmYear then (-4, dt, c)
    else
      let dt :=
        if (100#32).sle dt.tmYear then { dt with tmYear := dt.tmYear - 100 } else dt
      (0, dt, i2cWrite c (0 :: registers dt))

/-- `m41t11_get_datetime`: what is in `dt` after it, and the chip. -/
def m41t11GetDatetime (c : M41t11) : RtcTime × M41t11 :=
  let (rtc, c) := i2cRead (i2cWrite c [0]) 8
  (⟨bcdToBin (rtc.getD 0 0 &&& 0x7f), bcdToBin (rtc.getD 1 0 &&& 0x7f),
    bcdToBin (rtc.getD 2 0 &&& 0x3f), bcdToBin (rtc.getD 3 0 &&& 0x07),
    bcdToBin (rtc.getD 4 0 &&& 0x3f), bcdToBin (rtc.getD 5 0 &&& 0x1f),
    epoch + bcdToBin (rtc.getD 6 0 &&& 0xff)⟩, c)

/-! ### Digits -/

/-- What is read from two digits is not negative. -/
theorem bcdToBin_le (b : BitVec 8) : (bcdToBin b).toNat ≤ 165 := by
  revert b
  decide

theorem toInt_bcdToBin (b : BitVec 8) : (bcdToBin b).toInt = (bcdToBin b).toNat := by
  have h := bcdToBin_le b
  exact BitVec.toInt_eq_toNat_of_lt (by omega)

/-- A value below a bound up to which the digits fit the mask survives if it is not negative. -/
theorem survives_iff (mask : BitVec 8) (bound : ℕ) {v : BitVec 32}
    (hfit : ∀ n < bound, bcdToBin (binToBcd (BitVec.ofNat 32 n) &&& mask) = BitVec.ofNat 32 n)
    (hv : v.toInt < bound) : bcdToBin (binToBcd v &&& mask) = v ↔ 0 ≤ v.toInt := by
  constructor
  · intro h
    rw [← h, toInt_bcdToBin]
    exact Int.natCast_nonneg _
  · intro h
    have hn : v.toNat < bound := by
      rw [BitVec.toInt_eq_toNat_of_lt (BitVec.toInt_pos_iff.mp h)] at hv
      exact_mod_cast hv
    have hfit' := hfit v.toNat hn
    rwa [BitVec.ofNat_toNat, BitVec.setWidth_eq] at hfit'

/-- The day of the week is not looked at before, and has three bits. -/
theorem wday_survives_iff {v : BitVec 32} :
    bcdToBin (binToBcd v &&& 0x07) = v ↔ 0 ≤ v.toInt ∧ v.toInt ≤ 7 := by
  have hle : ∀ b : BitVec 8, (bcdToBin (b &&& 0x07)).toNat ≤ 7 := by decide
  constructor
  · intro h
    have hv := hle (binToBcd v)
    rw [← h, toInt_bcdToBin]
    exact ⟨Int.natCast_nonneg _, by exact_mod_cast hv⟩
  · rintro ⟨hnn, hv⟩
    have hlt : v.toInt < 8 := Int.lt_add_one_of_le hv
    exact (survives_iff 0x07 8 (by decide) hlt).mpr hnn

/-- The year of the chip. -/
def chipYear (y : BitVec 32) : BitVec 32 :=
  if (100#32).sle (y - epoch) then y - epoch - 100 else y - epoch

/-- The year comes back if it is one of the hundred from `epoch` on. -/
theorem year_survives_iff {y : BitVec 32} (hy : (y - epoch).toInt ≤ 255) :
    epoch + bcdToBin (binToBcd (chipYear y) &&& 0xff) = y ↔ 2000 ≤ y.toInt ∧ y.toInt ≤ 2099 := by
  have hfit : ∀ n < 160,
      bcdToBin (binToBcd (BitVec.ofNat 32 n) &&& 0xff) = BitVec.ofNat 32 n := by decide +kernel
  rw [BitVec.add_comm, ← BitVec.eq_sub_iff_add_eq]
  have hint : y.toInt = (y - epoch).toInt + 2000 := by
    have hlow := BitVec.le_toInt (y - epoch)
    have hadd := BitVec.toInt_add (y - epoch) epoch
    rw [BitVec.sub_add_cancel, show epoch.toInt = 2000 from rfl] at hadd
    rw [hadd]
    exact Int.bmod_eq_of_le (by omega) (by omega)
  rw [hint]
  by_cases hge : (100#32).sle (y - epoch)
  · -- a year of the hundred after is stored as one of the first, and read as that
    have hle : 100 ≤ (y - epoch).toInt := BitVec.sle_iff_toInt_le.mp hge
    have hsub : (y - epoch - 100).toInt = (y - epoch).toInt - 100 := by
      rw [BitVec.toInt_sub, show BitVec.toInt (100 : BitVec 32) = 100 from rfl]
      exact Int.bmod_eq_of_le (by omega) (by omega)
    have hback : bcdToBin (binToBcd (y - epoch - 100) &&& 0xff) = y - epoch - 100 :=
      (survives_iff 0xff 160 hfit (by rw [hsub]; omega)).mpr (by omega)
    rw [chipYear, if_pos hge, hback]
    refine iff_of_false (fun heq => ?_) (by omega)
    rw [heq] at hsub
    omega
  · have hlt : (y - epoch).toInt < 100 := by
      rw [BitVec.sle_iff_toInt_le] at hge
      exact Int.not_le.mp hge
    rw [chipYear, if_neg hge, survives_iff 0xff 160 hfit (by omega)]
    omega

/-! ### There and back -/

variable (c : M41t11) (dt : RtcTime)

/-- What is read after the registers have been written. -/
theorem getDatetime_registers : (m41t11GetDatetime (i2cWrite c (0 :: registers dt))).1 =
    ⟨bcdToBin (binToBcd dt.tmSec &&& 0x7f), bcdToBin (binToBcd dt.tmMin &&& 0x7f),
      bcdToBin (binToBcd dt.tmHour &&& 0x3f), bcdToBin (binToBcd dt.tmWday &&& 0x07),
      bcdToBin (binToBcd dt.tmMday &&& 0x3f), bcdToBin (binToBcd dt.tmMon &&& 0x1f),
      epoch + bcdToBin (binToBcd dt.tmYear &&& 0xff)⟩ := rfl

/-- What the checks leave of the fields. -/
structure Accepted : Prop where
  /-- The month. -/
  mon : 1 ≤ dt.tmMon.toInt ∧ dt.tmMon.toInt ≤ 12
  /-- The day: no month has more. -/
  mday : dt.tmMday.toInt ≤ 32
  /-- The hour. -/
  hour : dt.tmHour.toInt < 24
  /-- The minute. -/
  min : dt.tmMin.toInt < 60
  /-- The second. -/
  sec : dt.tmSec.toInt < 60
  /-- The year. -/
  year : (dt.tmYear - epoch).toInt ≤ 255

theorem lastDay_le (hmon : dt.tmMon.toNat < 13) : (lastDay dt).toInt ≤ 32 := by
  have htable : ∀ i < 13, ∀ b : Bool,
      (daysInMo.getD i 0 + if b then 1 else 0).toInt ≤ 32 := by decide
  exact htable dt.tmMon.toNat hmon (dt.tmMon == 2 && leapYr dt.tmYear)

/-- What `m41t11_set_datetime` has done if it returns 0. -/
theorem accepted_of_set (h : (m41t11SetDatetime c dt).1 = 0) : Accepted dt ∧
    (m41t11SetDatetime c dt).2.2 =
      i2cWrite c (0 :: registers { dt with tmYear := chipYear dt.tmYear }) := by
  unfold m41t11SetDatetime at h ⊢
  split at h
  · cases h
  next hmon =>
  split at h
  · cases h
  next hmday =>
  split at h
  · cases h
  next htime =>
  rw [if_neg hmon, if_neg hmday, if_neg htime]
  by_cases hyear : (255#32).slt (dt.tmYear - epoch) = true
  · dsimp only at h
    rw [if_pos hyear] at h
    cases h
  dsimp only
  rw [if_neg hyear]
  simp only [Bool.or_eq_true, BitVec.slt_iff_toInt_lt, BitVec.sle_iff_toInt_le, beq_iff_eq,
    not_or, Int.not_lt, Int.not_le] at hmon hmday htime hyear
  obtain ⟨⟨hmon, hmon'⟩, -⟩ := hmon
  obtain ⟨⟨hhour, hmin⟩, hsec⟩ := htime
  have hmonth : dt.tmMon.toNat < 13 := by
    have hint := BitVec.toInt_eq_toNat_of_lt (BitVec.toInt_pos_iff.mp (Int.le_of_lt hmon))
    change 1 ≤ _ at hmon
    change _ ≤ 12 at hmon'
    omega
  refine ⟨⟨⟨hmon, hmon'⟩, hmday.trans (lastDay_le dt hmonth), hhour, hmin, hsec, hyear⟩, ?_⟩
  simp only [chipYear]
  split <;> rfl

/-- The fields that survive. -/
structure Storable : Prop where
  /-- The year. -/
  year : 2000 ≤ dt.tmYear.toInt ∧ dt.tmYear.toInt ≤ 2099
  /-- The day of the week. -/
  wday : 0 ≤ dt.tmWday.toInt ∧ dt.tmWday.toInt ≤ 7
  /-- The day. -/
  mday : 0 ≤ dt.tmMday.toInt
  /-- The hour. -/
  hour : 0 ≤ dt.tmHour.toInt
  /-- The minute. -/
  min : 0 ≤ dt.tmMin.toInt
  /-- The second. -/
  sec : 0 ≤ dt.tmSec.toInt

/-- A date that `m41t11_set_datetime` accepts is read back by `m41t11_get_datetime` exactly if its
year is one of 2000 to 2099, its day of the week one of 0 to 7, and nothing in it is negative. -/
theorem datetime_round_trip_iff (h : (m41t11SetDatetime c dt).1 = 0) :
    (m41t11GetDatetime (m41t11SetDatetime c dt).2.2).1 = dt ↔ Storable dt := by
  obtain ⟨ha, hset⟩ := accepted_of_set c dt h
  have hsec := survives_iff 0x7f 60 (by decide) ha.sec
  have hmin := survives_iff 0x7f 60 (by decide) ha.min
  have hhour := survives_iff 0x3f 24 (by decide) ha.hour
  have hmday := survives_iff 0x3f 33 (by decide) (Int.lt_add_one_of_le ha.mday)
  have hmon := survives_iff 0x1f 13 (by decide) (Int.lt_add_one_of_le ha.mon.2)
  have hyear := year_survives_iff ha.year
  rw [hset, getDatetime_registers, RtcTime.ext_iff]
  simp only [hsec, hmin, hhour, hmday, hmon, wday_survives_iff, hyear]
  constructor
  · rintro ⟨hs, hm, hh, hw, hd, -, hy⟩
    exact ⟨hy, hw, hd, hh, hm, hs⟩
  · intro hdt
    exact ⟨hdt.sec, hdt.min, hdt.hour, hdt.wday, hdt.mday, Int.le_trans (by omega) ha.mon.1,
      hdt.year⟩

/-- The last day of 2099 is read back. -/
theorem datetime_round_trip_last : (m41t11GetDatetime (m41t11SetDatetime ⟨fun _ => 0, 0⟩
    ⟨59, 59, 23, 4, 31, 12, 2099⟩).2.2).1 = ⟨59, 59, 23, 4, 31, 12, 2099⟩ :=
  (datetime_round_trip_iff _ _ (by decide)).mpr (by constructor <;> decide)

/-- The last day of 1999 is accepted, and not read back: the year is 2165 then. -/
theorem datetime_round_trip_early :
    (m41t11SetDatetime ⟨fun _ => 0, 0⟩ ⟨59, 59, 23, 5, 31, 12, 1999⟩).1 = 0 ∧
      (m41t11GetDatetime (m41t11SetDatetime ⟨fun _ => 0, 0⟩
        ⟨59, 59, 23, 5, 31, 12, 1999⟩).2.2).1 ≠ ⟨59, 59, 23, 5, 31, 12, 1999⟩ := by
  decide

end S3c2440.Rtc
