import Mathlib.Data.Int.Basic
import Mathlib.Logic.Function.Basic

/-!
# The interrupt lines of the keys

The key drivers register `buttons_irq` for four interrupt lines, one a key, when the device is
opened, and give them back when it is closed, always with the same four descriptions
(`pins_desc`). A line that is not shared has one registration or none; `request_irq` fails on
a line that is taken, without effect, and `free_irq` with the description it was
registered with takes it away.
-/

namespace S3c2440.Buttons

/-- The lines, in the order in which the drivers go through them. -/
inductive Line where
  /-- `IRQ_EINT0`, of S2. -/
  | eint0
  /-- `IRQ_EINT2`, of S3. -/
  | eint2
  /-- `IRQ_EINT11`, of S4. -/
  | eint11
  /-- `IRQ_EINT19`, of S5. -/
  | eint19
  deriving DecidableEq

/-- The next one. -/
def Line.next : Line → Option Line
  | .eint0 => some .eint2
  | .eint2 => some .eint11
  | .eint11 => some .eint19
  | .eint19 => none

/-- How many come before. -/
def Line.index : Line → ℕ
  | .eint0 => 0
  | .eint2 => 1
  | .eint11 => 2
  | .eint19 => 3

/-- `EBUSY`. -/
def ebusy : ℤ := 16

/-- The lines that `buttons_irq` is registered for. -/
abbrev Lines : Type := Line → Bool

variable (lines : Lines) (l : Line)

/-- `request_irq`: the lines after it, and what it returns. -/
def requestIrq : Lines × ℤ :=
  if lines l then (lines, -ebusy) else (Function.update lines l true, 0)

/-- `free_irq`. -/
def freeIrq : Lines := Function.update lines l false

/-- The line is registered afterwards, by whomever. -/
@[simp] theorem requestIrq_lines : (requestIrq lines l).1 = Function.update lines l true := by
  unfold requestIrq
  split
  case isTrue h =>
    rw [← h]
    exact (Function.update_eq_self l lines).symm
  case isFalse => rfl

/-- The call succeeds if the line was free. -/
theorem requestIrq_of_free (h : lines l = false) : (requestIrq lines l).2 = 0 := by
  simp [requestIrq, h]

variable {l} {l' : Line}

theorem Line.index_next (h : l.next = some l') : l'.index = l.index + 1 := by
  cases l <;> cases h <;> rfl

theorem Line.index_lt_of_last (h : l.next = none) (hne : l' ≠ l) : l'.index < l.index := by
  cases l <;> cases h
  cases l' <;> simp_all [Line.index]

theorem Line.index_inj (h : l.index = l'.index) : l = l' := by
  cases l <;> cases l' <;> first | rfl | cases h

end S3c2440.Buttons
