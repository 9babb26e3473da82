import S3c2440.Theory.Runs
import S3c2440.Theory.Bits

/-!
# The handler of the keys' interrupts

`key_eint_irq` in `bare_board/code/I2c/20200510_IIC/interrupt.c`: keys S2 and S3 have interrupt
lines of their own, 0 and 2; S4 and S5 are bits 11 and 19 of EINTPEND, and share line 5. The
handler reads EINTPEND and the pins, puts the LEDs of the key of the line at the level of its pin,
and then writes what it has read back to EINTPEND, which clears the bits that are set in it.

## What is proved

* `acted_iff` — exactly when a call has acted on what it clears.
* `acted_along_iff` — and exactly when all calls of a run have: line 5 must be called with one of
  the two bits pending at most, and lines 0 and 2 with none.
-/

namespace S3c2440.Interrupt

open Theory

/-! ### The handler -/

/-- The registers. -/
structure Regs where
  /-- EINTPEND. -/
  eintpend : BitVec 32
  /-- GPFDAT: the pins of S2 and S3 are bits 0 and 2, the LEDs bits 4, 5 and 6. -/
  gpfdat : BitVec 32
  /-- GPGDAT: the pins of S4 and S5 are bits 3 and 11. -/
  gpgdat : BitVec 32
  /-- What has been done to GPFDAT so far: which bits were set, or cleared. -/
  writes : List (BitVec 32 × Bool)

variable (s : Regs)

/-- `GPFDAT |= m;`, or `GPFDAT &= ~m;`. -/
def putLeds (m : BitVec 32) (level : Bool) : Regs :=
  { s with
    gpfdat := if level then s.gpfdat ||| m else s.gpfdat &&& ~~~m
    writes := s.writes ++ [(m, level)] }

/-- What `key_eint_irq` does to the LEDs, with `val`, `val1` and `val2` as it has read them. -/
def keyLeds (irq : ℕ) (val val1 val2 : BitVec 32) : Regs :=
  if irq = 0 then putLeds s (1#32 <<< 6) (val1.getLsbD 0)
  else if irq = 2 then putLeds s (1#32 <<< 5) (val1.getLsbD 2)
  else if irq = 5 then
    if val.getLsbD 11 then putLeds s (1#32 <<< 4) (val2.getLsbD 3)
    else if val.getLsbD 19 then
      putLeds s (1#32 <<< 4 ||| 1#32 <<< 5 ||| 1#32 <<< 6) (val2.getLsbD 11)
    else s
  else s

/-- A write to EINTPEND clears the bits that are set in what is written. -/
def writeEintpend (val : BitVec 32) : Regs := { s with eintpend := s.eintpend &&& ~~~val }

/-- `key_eint_irq`. -/
def keyEintIrq (irq : ℕ) : Regs :=
  writeEintpend (keyLeds s irq s.eintpend s.gpfdat s.gpgdat) s.eintpend

/-- What can happen. -/
inductive Act where
  /-- Pins change, and bits become pending. -/
  | inputs (eintpend gpfdat gpgdat : BitVec 32)
  /-- The handler is called. -/
  | call (irq : ℕ)

/-- One step. -/
def step (s : Regs) : Act → Option Regs
  | .inputs eintpend gpfdat gpgdat =>
    some { s with eintpend := eintpend, gpfdat := gpfdat, gpgdat := gpgdat }
  | .call irq => some (keyEintIrq s irq)

/-! ### What is cleared and what is done -/

/-- The keys that share line 5. -/
inductive SharedKey where
  /-- EINT11. -/
  | s4
  /-- EINT19. -/
  | s5

/-- The bit of EINTPEND. -/
def SharedKey.bit : SharedKey → ℕ
  | .s4 => 11
  | .s5 => 19

/-- The pin, in GPGDAT. -/
def SharedKey.pin : SharedKey → ℕ
  | .s4 => 3
  | .s5 => 11

/-- The LEDs, in GPFDAT. -/
def SharedKey.leds : SharedKey → BitVec 32
  | .s4 => 1#32 <<< 4
  | .s5 => 1#32 <<< 4 ||| 1#32 <<< 5 ||| 1#32 <<< 6

/-- Of each key whose bit is cleared by the call from `s` to `t`, the LEDs have been put at the
level of the pin in that call. -/
def Acted (s t : Regs) : Prop :=
  ∀ k : SharedKey, s.eintpend.getLsbD k.bit = true → t.eintpend.getLsbD k.bit = false →
    (k.leds, s.gpgdat.getLsbD k.pin) ∈ t.writes.drop s.writes.length

/-- A pending key of line 5 is the only one, and the call is for it. -/
def OneKey (s : Regs) (irq : ℕ) : Prop :=
  (s.eintpend.getLsbD 11 = true → irq = 5) ∧
    (s.eintpend.getLsbD 19 = true → irq = 5 ∧ s.eintpend.getLsbD 11 = false)

section Lemmas

variable {s} {irq i : ℕ} {m val val1 val2 : BitVec 32} {level : Bool}

theorem getLsbD_putLeds : (putLeds s m level).gpfdat.getLsbD i =
    if m.getLsbD i then level else s.gpfdat.getLsbD i := by
  by_cases hi : i < 32
  · cases level
    · rw [putLeds, if_neg Bool.false_ne_true, BitVec.getLsbD_and, BitVec.getLsbD_not]
      cases m.getLsbD i <;> simp [hi]
    · rw [putLeds, if_pos rfl, BitVec.getLsbD_or]
      cases m.getLsbD i <;> simp
  · have hge : 32 ≤ i := Nat.le_of_not_lt hi
    simp [BitVec.getLsbD_of_ge _ i hge]

@[simp] theorem eintpend_keyLeds : (keyLeds s irq val val1 val2).eintpend = s.eintpend := by
  unfold keyLeds
  split_ifs <;> rfl

/-- A call clears whatever is pending. -/
theorem eintpend_keyEintIrq : (keyEintIrq s irq).eintpend = 0 := by
  simp [keyEintIrq, writeEintpend]

/-- The LEDs of a key are seen to if its bit is pending and the call is for line 5; those of S5 only
if S4 is not pending as well. -/
theorem mem_writes (k : SharedKey) : (k.leds, s.gpgdat.getLsbD k.pin) ∈
      (keyEintIrq s irq).writes.drop s.writes.length ↔
    irq = 5 ∧ s.eintpend.getLsbD k.bit = true ∧ (k = .s5 → s.eintpend.getLsbD 11 = false) := by
  simp only [keyEintIrq, writeEintpend, keyLeds, putLeds]
  cases k <;> split_ifs <;> simp_all [SharedKey.leds, SharedKey.pin, SharedKey.bit]

/-- A call has acted on what it clears exactly if at most one key of line 5 is pending, and the call
is for that line then. -/
theorem acted_iff : Acted s (keyEintIrq s irq) ↔ OneKey s irq := by
  have hcleared : ∀ k : SharedKey, (keyEintIrq s irq).eintpend.getLsbD k.bit = false := by
    intro k
    rw [eintpend_keyEintIrq]
    exact BitVec.getLsbD_zero
  constructor
  · intro h
    refine ⟨fun h11 => ?_, fun h19 => ?_⟩
    · exact ((mem_writes .s4).mp (h .s4 h11 (hcleared .s4))).1
    · obtain ⟨hirq, -, h11⟩ := (mem_writes .s5).mp (h .s5 h19 (hcleared .s5))
      exact ⟨hirq, h11 rfl⟩
  · intro h k hk _
    refine (mem_writes k).mpr ?_
    cases k with
    | s4 => exact ⟨h.1 hk, hk, nofun⟩
    | s5 => exact ⟨(h.2 hk).1, hk, fun _ => (h.2 hk).2⟩

end Lemmas

/-- Every call of a run has acted on what it has cleared exactly if each is made with at most one
key of line 5 pending, and with none unless it is for that line. -/
theorem acted_along_iff (s : Regs) (as : List Act) :
    Along step (fun s a => ∀ irq t, a = .call irq → step s a = some t → Acted s t) s as ↔
      Along step (fun s a => ∀ irq, a = .call irq → OneKey s irq) s as := by
  refine along_congr (fun u a => ⟨fun ha irq hirq => ?_, fun ha irq t hirq ht => ?_⟩) s as
  · subst hirq
    exact acted_iff.mp (ha irq _ rfl rfl)
  · subst hirq
    cases ht
    exact acted_iff.mpr (ha irq rfl)

/-- Both keys of line 5 are pending: the bit of S5 is cleared, and its LEDs are left alone. -/
theorem acted_along_both : ¬ Along step
    (fun s a => ∀ irq t, a = .call irq → step s a = some t → Acted s t) ⟨0, 0, 0, []⟩
    [.inputs (1#32 <<< 11 ||| 1#32 <<< 19) 0 0, .call 5] := by
  intro h
  have hacted := (h.2 _ rfl).1 5 _ rfl rfl .s5 rfl rfl
  revert hacted
  decide

end S3c2440.Interrupt
