import S3c2440.Theory.Bits
import Mathlib.Logic.Function.Basic

/-!
# The NOR flash

A 16-bit NOR flash on bank 0 of the S3C2440, and the functions of
`bare_board/code/I2c/20200510_IIC/nor_flash.c` that talk to it.

## The chip

The word at the CPU's address `a` is the one at the chip's address `a >> 1`. A word is programmed
by four writes: AAh to 555h, 55h to 2AAh, A0h to 555h, then the word itself; a write out of this
order makes the chip forget it. Programming only clears bits. It takes a while, in which the chip
refuses every write and a read of any address gives the status, whose bit 6 is the other
way round each time; how many reads that are is up to the chip (`polls`, by the number of
words programmed so far), as are the other bits of the status. After them a read gives the word at
the address again. `log` is not in the hardware; it keeps what the chip has accepted, finished
and refused.

## What is proved

* `waitReady_spec` — `wait_ready` ends when the chip has finished, and changes nothing.
* `programWord_spec` — the four writes and the wait program one word, and no other.
-/

namespace S3c2440.Nor

open Theory

/-! ### The chip -/

/-- What is up to the chip. -/
structure Chip where
  /-- How often the `k`-th word reads as busy. -/
  polls : ℕ → ℕ
  /-- The other bits of the status, with so many reads left. -/
  status : ℕ → BitVec 16

/-- What the chip is doing. -/
inductive Phase where
  /-- It gives out its words. -/
  | array
  /-- It has got AAh. -/
  | unlocking
  /-- It has got 55h. -/
  | unlocked
  /-- It has got A0h. -/
  | program
  /-- It is programming, for one read more than `left`. -/
  | busy (left : ℕ)
  deriving DecidableEq

/-- What the chip has done. -/
inductive Event where
  /-- It has begun to program a word. -/
  | programmed (offset : BitVec 32) (val : BitVec 16)
  /-- It has finished. -/
  | finished
  /-- It has refused a write. -/
  | refused
  deriving DecidableEq

/-- The state of the chip. -/
structure Flash where
  /-- The words. -/
  mem : BitVec 32 → BitVec 16
  /-- What it is doing. -/
  phase : Phase
  /-- Bit 6 of the next status. -/
  toggle : Bool
  /-- How many words have been programmed. -/
  count : ℕ
  /-- What it has done. -/
  log : List Event

variable (chip : Chip) (s : Flash)

/-- A word is to be programmed. -/
def Flash.start (offset : BitVec 32) (val : BitVec 16) : Flash :=
  let mem := Function.update s.mem offset (s.mem offset &&& val)
  let log := s.log ++ [Event.programmed offset val]
  match chip.polls s.count with
  | 0 => ⟨mem, .array, s.toggle, s.count + 1, log ++ [Event.finished]⟩
  | left + 1 => ⟨mem, .busy left, s.toggle, s.count + 1, log⟩

/-- A write to the chip's address `offset`. -/
def Flash.write (offset : BitVec 32) (val : BitVec 16) : Flash :=
  match s.phase with
  | .array => if offset = 0x555 ∧ val = 0xaa then { s with phase := .unlocking } else s
  | .unlocking =>
    if offset = 0x2aa ∧ val = 0x55 then { s with phase := .unlocked }
    else { s with phase := .array }
  | .unlocked =>
    if offset = 0x555 ∧ val = 0xa0 then { s with phase := .program }
    else { s with phase := .array }
  | .program => s.start chip offset val
  | .busy _ => { s with log := s.log ++ [Event.refused] }

/-- A read of the chip's address `offset`. -/
def Flash.read (offset : BitVec 32) : BitVec 16 × Flash :=
  match s.phase with
  | .busy 0 =>
    (putBit (chip.status 0) 6 s.toggle,
      { s with toggle := !s.toggle, phase := .array, log := s.log ++ [Event.finished] })
  | .busy (left + 1) =>
    (putBit (chip.status (left + 1)) 6 s.toggle,
      { s with toggle := !s.toggle, phase := .busy left })
  | _ => (s.mem offset, s)

/-! ### The functions -/

/-- The chip's address for an address of the CPU. -/
def wordOffset (a : BitVec 32) : BitVec 32 := a >>> 1

/-- `NOR_FLASH_BASE`. -/
def norFlashBase : BitVec 32 := 0

/-- `nor_write_word`. -/
def norWriteWord (base offset val : BitVec 32) : Flash :=
  s.write chip (wordOffset (base + offset <<< 1)) (val.setWidth 16)

/-- `nor_cmd`. -/
def norCmd (offset cmd : BitVec 32) : Flash := norWriteWord chip s norFlashBase offset cmd

/-- `nor_read_word`. -/
def norReadWord (base offset : BitVec 32) : BitVec 32 × Flash :=
  let (val, s) := s.read chip (wordOffset (base + offset <<< 1))
  (val.setWidth 32, s)

/-- `nor_dat`. -/
def norDat (offset : BitVec 32) : BitVec 32 × Flash := norReadWord chip s norFlashBase offset

/-- How many reads are left in which the chip is busy. -/
def Flash.left : ℕ :=
  match s.phase with
  | .busy left => left + 1
  | _ => 0

/-- How often the loop of `wait_ready` can still go round, at most. -/
def waitMeasure (addr pre val : BitVec 32) : ℕ :=
  4 * s.left + 2 * (if val = (norDat chip s (addr >>> 1)).1 then 0 else 1) +
    if pre = val then 0 else 1

variable {s} in
/-- A read while the chip is not busy gives the word, and changes nothing. -/
theorem norDat_of_left (h : s.left = 0) (offset : BitVec 32) :
    norDat chip s offset =
      ((s.mem (wordOffset (norFlashBase + offset <<< 1))).setWidth 32, s) := by
  unfold Flash.left at h
  cases hphase : s.phase with
  | busy left =>
    rw [hphase] at h
    cases h
  | _ => simp only [norDat, norReadWord, Flash.read, hphase]

variable {s} in
/-- Otherwise there is one read less left. -/
theorem left_norDat (h : s.left ≠ 0) (offset : BitVec 32) :
    (norDat chip s offset).2.left + 1 = s.left := by
  unfold Flash.left at h
  unfold norDat norReadWord Flash.read
  split at h
  case h_1 left hphase =>
    cases left <;> simp only [hphase, Flash.left]
  case h_2 => exact absurd rfl h

theorem waitMeasure_lt (addr : BitVec 32) {pre val : BitVec 32}
    (h : val &&& 1#32 <<< 6 ≠ pre &&& 1#32 <<< 6) :
    waitMeasure chip (norDat chip s (addr >>> 1)).2 addr val (norDat chip s (addr >>> 1)).1 <
      waitMeasure chip s addr pre val := by
  have hne : pre ≠ val := fun heq => h (by rw [heq])
  have hite : ∀ p : Prop, [Decidable p] → (if p then 0 else 1) ≤ 1 := by
    intro p _
    split <;> omega
  unfold waitMeasure
  rw [if_neg hne]
  by_cases hleft : s.left = 0
  · rw [norDat_of_left chip hleft, norDat_of_left chip hleft, if_pos rfl]
    dsimp only
    split <;> omega
  · have hless := left_norDat chip hleft (addr >>> 1)
    generalize (norDat chip s (addr >>> 1)).2 = s' at hless ⊢
    have h₁ := hite (val = (norDat chip s (addr >>> 1)).1)
    have h₂ := hite ((norDat chip s (addr >>> 1)).1 = (norDat chip s' (addr >>> 1)).1)
    omega

/-- The loop of `wait_ready`. -/
def waitLoop (addr : BitVec 32) (s : Flash) (pre val : BitVec 32) : Flash :=
  if h : val &&& 1#32 <<< 6 ≠ pre &&& 1#32 <<< 6 then
    have := waitMeasure_lt chip s addr h
    waitLoop addr (norDat chip s (addr >>> 1)).2 val (norDat chip s (addr >>> 1)).1
  else s
  termination_by waitMeasure chip s addr pre val

/-- `wait_ready`. -/
def waitReady (addr : BitVec 32) : Flash :=
  let (pre, s) := norDat chip s (addr >>> 1)
  let (val, s) := norDat chip s (addr >>> 1)
  waitLoop chip addr s pre val

/-- The five statements of `do_write_nor_flash` that program a word. -/
def programWord (addr val : BitVec 32) : Flash :=
  let s := norCmd chip s 0x555 0xaa
  let s := norCmd chip s 0x2aa 0x55
  let s := norCmd chip s 0x555 0xa0
  let s := norCmd chip s (addr >>> 1) val
  waitReady chip s addr

/-! ### The wait -/

variable {s} {addr pre val : BitVec 32}

theorem waitLoop_again (h : val.getLsbD 6 ≠ pre.getLsbD 6) :
    waitLoop chip addr s pre val =
      waitLoop chip addr (norDat chip s (addr >>> 1)).2 val (norDat chip s (addr >>> 1)).1 := by
  rw [waitLoop, dif_pos ((and_bit_ne_iff (by omega)).mpr h)]

theorem waitLoop_end (h : val.getLsbD 6 = pre.getLsbD 6) : waitLoop chip addr s pre val = s := by
  rw [waitLoop, dif_neg fun hne => (and_bit_ne_iff (by omega)).mp hne h]

/-- Once the chip has finished, the loop ends. -/
theorem waitLoop_ready (h : s.left = 0) : waitLoop chip addr s pre val = s := by
  by_cases h₁ : val.getLsbD 6 = pre.getLsbD 6
  · exact waitLoop_end chip h₁
  · rw [waitLoop_again chip h₁, norDat_of_left chip h]
    generalize (s.mem (wordOffset (norFlashBase + addr >>> 1 <<< 1))).setWidth 32 = word
    by_cases h₂ : word.getLsbD 6 = val.getLsbD 6
    · exact waitLoop_end chip h₂
    · -- two reads of the same word
      rw [waitLoop_again chip h₂, norDat_of_left chip h]
      dsimp only
      by_cases h₃ : ((s.mem (wordOffset (norFlashBase + addr >>> 1 <<< 1))).setWidth 32).getLsbD 6 =
          word.getLsbD 6
      · exact waitLoop_end chip h₃
      · rw [waitLoop_again chip h₃, norDat_of_left chip h]
        exact waitLoop_end chip rfl

/-! ### While the chip is busy -/

/-- The chip once it has finished. -/
def Flash.finish (s : Flash) (toggle : Bool) : Flash :=
  { s with phase := .array, toggle := toggle, log := s.log ++ [Event.finished] }

/-- A read of a busy chip gives the toggle bit, and turns it round. -/
theorem norDat_busy {left : ℕ} (hphase : s.phase = .busy left) (offset : BitVec 32) :
    ∃ val, val.getLsbD 6 = s.toggle ∧
      norDat chip s offset = (val,
        match left with
        | 0 => s.finish !s.toggle
        | left + 1 => { s with toggle := !s.toggle, phase := .busy left }) := by
  have hbit : ∀ x : BitVec 16, ((putBit x 6 s.toggle).setWidth 32).getLsbD 6 = s.toggle := by
    intro x
    rw [BitVec.getLsbD_setWidth, getLsbD_putBit_self (by omega)]
    simp
  cases left with
  | zero =>
    refine ⟨_, hbit (chip.status 0), ?_⟩
    simp only [norDat, norReadWord, Flash.read, hphase]
    rfl
  | succ left =>
    refine ⟨_, hbit (chip.status (left + 1)), ?_⟩
    simp only [norDat, norReadWord, Flash.read, hphase]

/-- As long as it is busy, two reads in a row differ, and the loop goes on. -/
theorem waitLoop_busy {left : ℕ} (hphase : s.phase = .busy left)
    (hval : val.getLsbD 6 = !s.toggle) (hpre : val.getLsbD 6 ≠ pre.getLsbD 6) :
    ∃ toggle, waitLoop chip addr s pre val = s.finish toggle := by
  induction left generalizing s pre val with
  | zero =>
    obtain ⟨next, -, hread⟩ := norDat_busy chip hphase (addr >>> 1)
    rw [waitLoop_again chip hpre, hread]
    exact ⟨!s.toggle, waitLoop_ready chip rfl⟩
  | succ left ih =>
    obtain ⟨next, hnext, hread⟩ := norDat_busy chip hphase (addr >>> 1)
    rw [waitLoop_again chip hpre, hread]
    refine ih (s := { s with toggle := !s.toggle, phase := .busy left }) rfl ?_ ?_
    · rw [hnext, Bool.not_not]
    · rw [hnext, hval]
      exact Bool.self_ne_not _

/-- `wait_ready` ends when the chip has finished. -/
theorem waitReady_spec (addr : BitVec 32) {left : ℕ} (hphase : s.phase = .busy left) :
    ∃ toggle, waitReady chip s addr = s.finish toggle := by
  obtain ⟨pre, hpre, hread⟩ := norDat_busy chip hphase (addr >>> 1)
  rw [waitReady, hread]
  cases left with
  | zero =>
    dsimp only
    rw [norDat_of_left chip rfl]
    exact ⟨!s.toggle, waitLoop_ready chip rfl⟩
  | succ left =>
    obtain ⟨val, hval, hread⟩ := norDat_busy chip
      (s := { s with toggle := !s.toggle, phase := .busy left }) rfl (addr >>> 1)
    dsimp only
    rw [hread]
    cases left with
    | zero => exact ⟨!!s.toggle, waitLoop_ready chip rfl⟩
    | succ left =>
      refine waitLoop_busy chip (s := { s with toggle := !!s.toggle, phase := .busy left })
        rfl ?_ ?_
      · rw [hval, Bool.not_not]
      · rw [hval, hpre]
        exact Bool.not_ne_self _

/-! ### One word -/

/-- A chip that waits for a command gives its words, and has nothing to wait for. -/
theorem waitReady_array (hphase : s.phase = .array) : waitReady chip s addr = s := by
  have hleft : s.left = 0 := by simp only [Flash.left, hphase]
  simp only [waitReady, norDat_of_left chip hleft]
  exact waitLoop_ready chip hleft

theorem wordOffset_shiftLeft (a : BitVec 32) :
    wordOffset (norFlashBase + (a >>> 1) <<< 1) = a >>> 1 := by
  rw [wordOffset, norFlashBase, show ∀ x : BitVec 32, 0 + x = x from BitVec.zero_add]
  apply BitVec.eq_of_getLsbD_eq
  intro i hi
  simp only [BitVec.getLsbD_ushiftRight, BitVec.getLsbD_shiftLeft]
  by_cases htop : i + 1 < 32
  · simp [htop, Nat.add_comm 1]
  · rw [BitVec.getLsbD_of_ge a (1 + i) (by omega)]
    simp
    omega

/-- The three commands prepare a chip for the word. -/
theorem norCmd_program (hphase : s.phase = .array) :
    norCmd chip (norCmd chip (norCmd chip s 0x555 0xaa) 0x2aa 0x55) 0x555 0xa0 =
      { s with phase := .program } := by
  have h555 : wordOffset (norFlashBase + 0x555#32 <<< 1) = 0x555 := by decide
  have h2aa : wordOffset (norFlashBase + 0x2aa#32 <<< 1) = 0x2aa := by decide
  have hunlocking : norCmd chip s 0x555 0xaa = { s with phase := .unlocking } := by
    simp only [norCmd, norWriteWord, Flash.write, hphase]
    exact if_pos ⟨h555, by decide⟩
  have hunlocked : norCmd chip { s with phase := .unlocking } 0x2aa 0x55 =
      { s with phase := .unlocked } := by
    simp only [norCmd, norWriteWord, Flash.write]
    exact if_pos ⟨h2aa, by decide⟩
  rw [hunlocking, hunlocked]
  simp only [norCmd, norWriteWord, Flash.write]
  exact if_pos ⟨h555, by decide⟩

/-- The five statements program one word, to the end, and no other. -/
theorem programWord_spec (hphase : s.phase = .array) (addr val : BitVec 32) :
    (programWord chip s addr val).phase = .array ∧
      (programWord chip s addr val).mem =
        Function.update s.mem (addr >>> 1) (s.mem (addr >>> 1) &&& val.setWidth 16) ∧
      (programWord chip s addr val).log =
        s.log ++ [.programmed (addr >>> 1) (val.setWidth 16), .finished] := by
  have hstart : programWord chip s addr val = waitReady chip
      (Flash.start chip { s with phase := .program } (addr >>> 1) (val.setWidth 16)) addr := by
    simp only [programWord, norCmd_program chip hphase]
    rw [norCmd, norWriteWord, wordOffset_shiftLeft, Flash.write]
  rw [hstart, Flash.start]
  dsimp only
  split
  · rw [waitReady_array chip rfl]
    exact ⟨rfl, rfl, List.append_assoc _ _ _⟩
  · obtain ⟨toggle, hdone⟩ := waitReady_spec chip addr
      (s := ⟨_, .busy _, _, _, _⟩) rfl
    rw [hdone]
    exact ⟨rfl, rfl, List.append_assoc _ _ _⟩

end S3c2440.Nor
