import Mathlib.Tactic.Ring
import S3c2440.Theory.Arm

/-!
# Division in software

The processor has no divide instruction: the compiler turns `/` and `%` of the C sources
into calls of `lib1funcs.S`, whose four routines divide by shifting and subtracting. The
file is one program here, with an entry position for each routine. The architecture is 1,
so the parts that would use `clz` are not assembled.
-/

namespace S3c2440.Arith

open Theory.Arm Theory.Arm.Instr

/-- The registers of the division routines. -/
inductive Reg
  | r0 | r1 | r2 | r3 | r4 | ip
  deriving DecidableEq, Repr

open Reg

abbrev Code := List (Instr Reg)

/-! ### The macros -/

section Macros

variable (dividend divisor result curbit order : Reg)

/-- Shift the divisor left while it is below the limit and the dividend, and note it. -/
def scale (limit : Word) (k : ℕ) (note : Instr Reg) : Code :=
  [.cmp .al divisor (.imm limit),
   .cmp .lo divisor (.reg dividend),
   .mov .lo divisor (.lsl divisor k),
   note]

/-- Subtract the shifted divisor if it fits, and set the bit of the quotient. -/
def divide (o o' : Operand Reg) : Code :=
  [.cmp .al dividend o,
   .sub .hs dividend dividend o,
   .orr .hs result result o']

/-- Subtract the shifted divisor if it fits. -/
def reduce (o : Operand Reg) : Code :=
  [.cmp .al dividend o,
   .sub .hs dividend dividend o]

/-- `ARM_DIV_BODY`, at position `base` -/
def armDivBody (base : ℕ) : Code := List.flatten
  [[.tst .al divisor (.imm 0xe0000000),
    .mov .eq divisor (.lsl divisor 3),
    .mov .eq curbit (.imm 8),
    .mov .ne curbit (.imm 1)],
   -- 1:
   scale dividend divisor 0x10000000 4 (.mov .lo curbit (.lsl curbit 4)),
   [.b .lo (base + 4)],
   -- 1:
   scale dividend divisor 0x80000000 1 (.mov .lo curbit (.lsl curbit 1)),
   [.b .lo (base + 9)],
   [.mov .al result (.imm 0)],
   -- 1:
   divide dividend result (.reg divisor) (.reg curbit),
   divide dividend result (.lsr divisor 1) (.lsr curbit 1),
   divide dividend result (.lsr divisor 2) (.lsr curbit 2),
   divide dividend result (.lsr divisor 3) (.lsr curbit 3),
   [.cmp .al dividend (.imm 0),
    .movs .ne curbit (.lsr curbit 4),
    .mov .ne divisor (.lsr divisor 4)],
   [.b .ne (base + 15)]]

/-- `ARM_DIV2_ORDER` -/
def armDiv2Order : Code := List.flatten
  [[.cmp .al divisor (.imm 0x10000),
    .mov .hs divisor (.lsr divisor 16),
    .mov .hs order (.imm 16),
    .mov .lo order (.imm 0)],
   [.cmp .al divisor (.imm 0x100),
    .mov .hs divisor (.lsr divisor 8),
    .add .hs order order (.imm 8)],
   [.cmp .al divisor (.imm 0x10),
    .mov .hs divisor (.lsr divisor 4),
    .add .hs order order (.imm 4)],
   [.cmp .al divisor (.imm 4),
    .add .hi order order (.imm 3),
    .add .ls order order (.lsr divisor 1)]]

/-- `ARM_MOD_BODY`, at position `base` -/
def armModBody (base : ℕ) : Code := List.flatten
  [[.mov .al order (.imm 0)],
   -- 1:
   scale dividend divisor 0x10000000 4 (.add .lo order order (.imm 4)),
   [.b .lo (base + 1)],
   -- 1:
   scale dividend divisor 0x80000000 1 (.add .lo order order (.imm 1)),
   [.b .lo (base + 6)],
   [.subs .al order order (.imm 3)],
   [.b .lt (base + 28)],
   -- 1:
   reduce dividend (.reg divisor),
   reduce dividend (.lsr divisor 1),
   reduce dividend (.lsr divisor 2),
   reduce dividend (.lsr divisor 3),
   [.cmp .al dividend (.imm 1),
    .mov .al divisor (.lsr divisor 4),
    .subs .ge order order (.imm 4)],
   [.b .ge (base + 13)],
   [.tst .al order (.imm 3),
    .teq .ne dividend (.imm 0)],
   [.b .eq (base + 39)],
   -- 2:
   [.cmn .al order (.imm 2)],
   [.b .lt (base + 37)],
   [.b .eq (base + 34)],
   reduce dividend (.reg divisor),
   [.mov .al divisor (.lsr divisor 1)],
   -- 3:
   reduce dividend (.reg divisor),
   [.mov .al divisor (.lsr divisor 1)],
   -- 4:
   reduce dividend (.reg divisor)
   -- 5:
  ]

end Macros

/-! ### The routines -/

/-- The position of `Ldiv0`, to which every routine goes when the divisor is zero. -/
def ldiv0At : ℕ := 228

/-- `__udivsi3` -/
def udivsi3At : ℕ := 0

def udivsi3 : Code := List.flatten
  [[.subs .al r2 r1 (.imm 1)],
   [.ret .eq],
   [.b .cc ldiv0At],
   [.cmp .al r0 (.reg r1)],
   [.b .ls 40],
   [.tst .al r1 (.reg r2)],
   [.b .eq 43],
   armDivBody r0 r1 r2 r3 7,
   [.mov .al r0 (.reg r2)],
   [.ret .al],
   -- 11:
   [.mov .eq r0 (.imm 1),
    .mov .ne r0 (.imm 0)],
   [.ret .al],
   -- 12:
   armDiv2Order r1 r2,
   [.mov .al r0 (.lsrBy r0 r2)],
   [.ret .al]]

/-- `__umodsi3` -/
def umodsi3At : ℕ := 58

def umodsi3 : Code := List.flatten
  [[.subs .al r2 r1 (.imm 1)],
   [.b .cc ldiv0At],
   [.cmp .ne r0 (.reg r1),
    .mov .eq r0 (.imm 0),
    .tst .hi r1 (.reg r2),
    .and .eq r0 r0 (.reg r2)],
   [.ret .ls],
   armModBody r0 r1 r2 65,
   [.ret .al]]

/-- `__divsi3` -/
def divsi3At : ℕ := 105

def divsi3 : Code := List.flatten
  [[.cmp .al r1 (.imm 0),
    .eor .al ip r0 (.reg r1)],
   [.b .eq ldiv0At],
   [.rsb .mi r1 r1 (.imm 0),
    .subs .al r2 r1 (.imm 1)],
   [.b .eq 151],
   [.movs .al r3 (.reg r0),
    .rsb .mi r3 r0 (.imm 0),
    .cmp .al r3 (.reg r1)],
   [.b .ls 154],
   [.tst .al r1 (.reg r2)],
   [.b .eq 158],
   armDivBody r3 r1 r0 r2 117,
   [.cmp .al ip (.imm 0),
    .rsb .mi r0 r0 (.imm 0)],
   [.ret .al],
   -- 10:
   [.teq .al ip (.reg r0),
    .rsb .mi r0 r0 (.imm 0)],
   [.ret .al],
   -- 11:
   [.mov .lo r0 (.imm 0),
    .mov .eq r0 (.asr ip 31),
    .orr .eq r0 r0 (.imm 1)],
   [.ret .al],
   -- 12:
   armDiv2Order r1 r2,
   [.cmp .al ip (.imm 0),
    .mov .al r0 (.lsrBy r3 r2),
    .rsb .mi r0 r0 (.imm 0)],
   [.ret .al]]

/-- `__modsi3` -/
def modsi3At : ℕ := 175

def modsi3 : Code := List.flatten
  [[.cmp .al r1 (.imm 0)],
   [.b .eq ldiv0At],
   [.rsb .mi r1 r1 (.imm 0),
    .movs .al ip (.reg r0),
    .rsb .mi r0 r0 (.imm 0),
    .subs .al r2 r1 (.imm 1),
    .cmp .ne r0 (.reg r1),
    .mov .eq r0 (.imm 0),
    .tst .hi r1 (.reg r2),
    .and .eq r0 r0 (.reg r2)],
   [.b .ls 225],
   armModBody r0 r1 r2 186,
   -- 10:
   [.cmp .al ip (.imm 0),
    .rsb .mi r0 r0 (.imm 0)],
   [.ret .al]]

/-- `Ldiv0`; `lr` is pushed before and popped after, and is not changed in between. -/
def ldiv0 : Code := [.mov .al r0 (.imm 0), .ret .al]

/-- The whole file. -/
def lib1funcs : Code := List.flatten [udivsi3, umodsi3, divsi3, modsi3, ldiv0]

example : (udivsi3.length, umodsi3At, divsi3At, modsi3At, ldiv0At) =
    (umodsi3At, udivsi3.length, umodsi3At + umodsi3.length, divsi3At + divsi3.length,
      modsi3At + modsi3.length) := by decide

end S3c2440.Arith
