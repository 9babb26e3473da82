import Mathlib.Data.BitVec
import Mathlib.Logic.Function.Basic
import Mathlib.Logic.Relation

/-!
# ARM data processing

The part of the 32-bit ARM instruction set that a routine without memory accesses is
written in: data processing with the barrel shifter, the four flags, conditional
execution, branches and the return to the caller. The names of the registers are a
parameter. A program is the list of its instructions, and a branch names the position
it goes to.

## What is proved

* `At.append` — code that stands in a program stands there part by part.
* `Gets` — from a position and a precondition the program gets to a postcondition, which
  says where it is then as well (`atPc`, `inCaller`). Its rules go backwards over a
  program: `Gets.straight` for code without branches, `Gets.branch`, `Gets.ret`,
  `Gets.trans` for code that has a specification of its own, and `Gets.loop`, where a
  measure goes down from one visit of a position to the next.
* `Steps.unique` — a program returns to its caller with one result only.
-/

namespace Theory.Arm

abbrev Word := BitVec 32

/-- The condition field. `cs` is also written `hs`, and `cc` is also written `lo`. -/
inductive Cond
  | al | eq | ne | cs | cc | mi | pl | hi | ls | ge | lt
  deriving DecidableEq, Repr

@[match_pattern] abbrev Cond.hs : Cond := .cs
@[match_pattern] abbrev Cond.lo : Cond := .cc

/-- The registers and the flags. -/
structure Cpu (ρ : Type) where
  reg : ρ → Word
  n : Bool
  z : Bool
  c : Bool
  v : Bool

variable {ρ : Type}

def Cond.holds (s : Cpu ρ) : Cond → Bool
  | al => true
  | eq => s.z
  | ne => !s.z
  | cs => s.c
  | cc => !s.c
  | mi => s.n
  | pl => !s.n
  | hi => s.c && !s.z
  | ls => !s.c || s.z
  | ge => s.n == s.v
  | lt => s.n != s.v

/-- The second operand: a constant, or a register, perhaps shifted by a constant between
1 and 31 or by the low byte of another register. -/
inductive Operand (ρ : Type)
  | imm (w : Word)
  | reg (r : ρ)
  | lsl (r : ρ) (k : ℕ)
  | lsr (r : ρ) (k : ℕ)
  | asr (r : ρ) (k : ℕ)
  | lslBy (r k : ρ)
  | lsrBy (r k : ρ)

/-- The low byte of a register that shifts another one. -/
def amount (w : Word) : ℕ := w.toNat % 256

/-- The value of the second operand. -/
def Operand.val (s : Cpu ρ) : Operand ρ → Word
  | imm w => w
  | reg r => s.reg r
  | lsl r k => s.reg r <<< k
  | lsr r k => s.reg r >>> k
  | asr r k => (s.reg r).sshiftRight k
  | lslBy r k => s.reg r <<< amount (s.reg k)
  | lsrBy r k => s.reg r >>> amount (s.reg k)

/-- The carry out of the shifter. A constant above 255 is a byte that has been rotated. -/
def Operand.carry (s : Cpu ρ) : Operand ρ → Bool
  | imm w => if w < 256 then s.c else w.msb
  | reg _ => s.c
  | lsl r k => (s.reg r).getLsbD (32 - k)
  | lsr r k => (s.reg r).getLsbD (k - 1)
  | asr r k => (s.reg r).getLsbD (k - 1)
  | lslBy r k =>
    let m := amount (s.reg k)
    if m = 0 then s.c else if m ≤ 32 then (s.reg r).getLsbD (32 - m) else false
  | lsrBy r k =>
    let m := amount (s.reg k)
    if m = 0 then s.c else (s.reg r).getLsbD (m - 1)

/-- What is computed of the first operand and the second. -/
inductive Op
  | and | eor | sub | rsb | add | adc | orr | mov | bic
  deriving DecidableEq, Repr

inductive Instr (ρ : Type)
  /-- Compute and store; the flag says whether the suffix `s` is there. -/
  | alu (op : Op) (c : Cond) (s : Bool) (rd rn : ρ) (o : Operand ρ)
  /-- Compute for the flags only. -/
  | test (op : Op) (c : Cond) (rn : ρ) (o : Operand ρ)
  /-- The low word of the product. -/
  | mul (rd rm rs : ρ)
  | b (c : Cond) (target : ℕ)
  /-- `mov pc, lr` -/
  | ret (c : Cond)

namespace Instr

/-! Instructions as the assembler writes them, each with its condition. -/

abbrev mov (c : Cond) (rd : ρ) (o : Operand ρ) : Instr ρ := .alu .mov c false rd rd o
abbrev movs (c : Cond) (rd : ρ) (o : Operand ρ) : Instr ρ := .alu .mov c true rd rd o
abbrev and (c : Cond) (rd rn : ρ) (o : Operand ρ) : Instr ρ := .alu .and c false rd rn o
abbrev orr (c : Cond) (rd rn : ρ) (o : Operand ρ) : Instr ρ := .alu .orr c false rd rn o
abbrev eor (c : Cond) (rd rn : ρ) (o : Operand ρ) : Instr ρ := .alu .eor c false rd rn o
abbrev bic (c : Cond) (rd rn : ρ) (o : Operand ρ) : Instr ρ := .alu .bic c false rd rn o
abbrev add (c : Cond) (rd rn : ρ) (o : Operand ρ) : Instr ρ := .alu .add c false rd rn o
abbrev adds (c : Cond) (rd rn : ρ) (o : Operand ρ) : Instr ρ := .alu .add c true rd rn o
abbrev adc (c : Cond) (rd rn : ρ) (o : Operand ρ) : Instr ρ := .alu .adc c false rd rn o
abbrev adcs (c : Cond) (rd rn : ρ) (o : Operand ρ) : Instr ρ := .alu .adc c true rd rn o
abbrev sub (c : Cond) (rd rn : ρ) (o : Operand ρ) : Instr ρ := .alu .sub c false rd rn o
abbrev subs (c : Cond) (rd rn : ρ) (o : Operand ρ) : Instr ρ := .alu .sub c true rd rn o
abbrev rsb (c : Cond) (rd rn : ρ) (o : Operand ρ) : Instr ρ := .alu .rsb c false rd rn o
abbrev cmp (c : Cond) (rn : ρ) (o : Operand ρ) : Instr ρ := .test .sub c rn o
abbrev cmn (c : Cond) (rn : ρ) (o : Operand ρ) : Instr ρ := .test .add c rn o
abbrev tst (c : Cond) (rn : ρ) (o : Operand ρ) : Instr ρ := .test .and c rn o
abbrev teq (c : Cond) (rn : ρ) (o : Operand ρ) : Instr ρ := .test .eor c rn o

end Instr

section Exec

variable [DecidableEq ρ]

def Cpu.set (s : Cpu ρ) (r : ρ) (w : Word) : Cpu ρ :=
  { s with reg := Function.update s.reg r w }

def Op.result (carry : Bool) (a b : Word) : Op → Word
  | and => a &&& b
  | eor => a ^^^ b
  | sub => a - b
  | rsb => b - a
  | add => a + b
  | adc => a + b + (BitVec.ofBool carry).setWidth 32
  | orr => a ||| b
  | mov => b
  | bic => a &&& ~~~b

/-- The carry: out of an addition, the complement of a borrow, or that of the shifter. -/
def Op.carry (carry shifter : Bool) (a b : Word) : Op → Bool
  | sub => b ≤ a
  | rsb => a ≤ b
  | add => 2 ^ 32 ≤ a.toNat + b.toNat
  | adc => 2 ^ 32 ≤ a.toNat + b.toNat + carry.toNat
  | _ => shifter

/-- The signed overflow, which the logical operations leave alone. -/
def Op.overflow (old carry : Bool) (a b : Word) : Op → Bool
  | sub => a.ssubOverflow b
  | rsb => b.ssubOverflow a
  | add => a.saddOverflow b
  | adc => (a.toInt + b.toInt + carry.toNat).bmod (2 ^ 32) != a.toInt + b.toInt + carry.toNat
  | _ => old

def Op.flags (op : Op) (s : Cpu ρ) (a : Word) (o : Operand ρ) : Cpu ρ :=
  let r := op.result s.c a (o.val s)
  { s with
    n := r.msb
    z := r == 0
    c := op.carry s.c (o.carry s) a (o.val s)
    v := op.overflow s.v s.c a (o.val s) }

/-- An instruction that is not a branch. -/
def Instr.exec (s : Cpu ρ) : Instr ρ → Cpu ρ
  | alu op c f rd rn o =>
    if c.holds s then
      (if f then op.flags s (s.reg rn) o else s).set rd (op.result s.c (s.reg rn) (o.val s))
    else s
  | test op c rn o => if c.holds s then op.flags s (s.reg rn) o else s
  | mul rd rm rs => s.set rd (s.reg rm * s.reg rs)
  | b _ _ => s
  | ret _ => s

def Instr.isStraight : Instr ρ → Bool
  | b _ _ => false
  | ret _ => false
  | _ => true

def execAll : List (Instr ρ) → Cpu ρ → Cpu ρ
  | [], s => s
  | i :: is, s => execAll is (i.exec s)

/-- Where the machine is: before the instruction at a position, or back in the caller. -/
inductive Config (ρ : Type)
  | before (pc : ℕ) (s : Cpu ρ)
  | returned (s : Cpu ρ)

/-- One instruction; `none` in the caller, and past the end of the program. -/
def next (p : List (Instr ρ)) : Config ρ → Option (Config ρ)
  | .before pc s =>
    p[pc]?.map fun i =>
      match i with
      | .b c target => .before (if c.holds s then target else pc + 1) s
      | .ret c => if c.holds s then .returned s else .before (pc + 1) s
      | i => .before (pc + 1) (i.exec s)
  | .returned _ => none

/-- Some number of instructions. -/
def Steps (p : List (Instr ρ)) : Config ρ → Config ρ → Prop :=
  Relation.ReflTransGen fun a b => next p a = some b

end Exec

/-! ### Registers and flags after an instruction -/

@[simp] theorem isStraight_alu (op : Op) (c : Cond) (f : Bool) (rd rn : ρ) (o : Operand ρ) :
    (Instr.alu op c f rd rn o).isStraight = true := rfl

@[simp] theorem isStraight_test (op : Op) (c : Cond) (rn : ρ) (o : Operand ρ) :
    (Instr.test op c rn o).isStraight = true := rfl

@[simp] theorem isStraight_mul (rd rm rs : ρ) : (Instr.mul rd rm rs).isStraight = true := rfl

section Set

variable [DecidableEq ρ] (s : Cpu ρ) {r r' : ρ} (w : Word)

@[simp] theorem Cpu.reg_set_self : (s.set r w).reg r = w := Function.update_self ..

@[simp] theorem Cpu.reg_set_of_ne (h : r' ≠ r) : (s.set r w).reg r' = s.reg r' :=
  Function.update_of_ne h ..

@[simp] theorem Cpu.reg_set_of_ne' (h : r ≠ r') : (s.set r w).reg r' = s.reg r' :=
  Function.update_of_ne h.symm ..

theorem Cpu.reg_set_eq : (s.set r w).reg = Function.update s.reg r w := rfl

@[simp] theorem Cpu.n_set : (s.set r w).n = s.n := rfl
@[simp] theorem Cpu.z_set : (s.set r w).z = s.z := rfl
@[simp] theorem Cpu.c_set : (s.set r w).c = s.c := rfl
@[simp] theorem Cpu.v_set : (s.set r w).v = s.v := rfl

omit [DecidableEq ρ] in
@[simp] theorem Op.reg_flags (op : Op) (a : Word) (o : Operand ρ) :
    (op.flags s a o).reg = s.reg := rfl

omit [DecidableEq ρ] in
@[simp] theorem Op.n_flags (op : Op) (a : Word) (o : Operand ρ) :
    (op.flags s a o).n = (op.result s.c a (o.val s)).msb := rfl

omit [DecidableEq ρ] in
@[simp] theorem Op.z_flags (op : Op) (a : Word) (o : Operand ρ) :
    (op.flags s a o).z = (op.result s.c a (o.val s) == 0) := rfl

omit [DecidableEq ρ] in
@[simp] theorem Op.c_flags (op : Op) (a : Word) (o : Operand ρ) :
    (op.flags s a o).c = op.carry s.c (o.carry s) a (o.val s) := rfl

omit [DecidableEq ρ] in
@[simp] theorem Op.v_flags (op : Op) (a : Word) (o : Operand ρ) :
    (op.flags s a o).v = op.overflow s.v s.c a (o.val s) := rfl

@[simp] theorem execAll_nil : execAll [] s = s := rfl

@[simp] theorem execAll_cons (i : Instr ρ) (is : List (Instr ρ)) :
    execAll (i :: is) s = execAll is (i.exec s) := rfl

@[simp] theorem exec_alu (op : Op) (c : Cond) (f : Bool) (rd rn : ρ) (o : Operand ρ) :
    (Instr.alu op c f rd rn o).exec s =
      if c.holds s then
        (if f then op.flags s (s.reg rn) o else s).set rd (op.result s.c (s.reg rn) (o.val s))
      else s := rfl

@[simp] theorem exec_test (op : Op) (c : Cond) (rn : ρ) (o : Operand ρ) :
    (Instr.test op c rn o).exec s = if c.holds s then op.flags s (s.reg rn) o else s := rfl

theorem execAll_append (is js : List (Instr ρ)) :
    execAll (is ++ js) s = execAll js (execAll is s) := by
  induction is generalizing s with
  | nil => rfl
  | cons i is ih => exact ih _

end Set

/-! ### Signed comparisons -/

/-- The sign of a sum or of a difference that has lost its overflow. -/
theorem sign_overflow {x : ℤ} (hlo : -2 ^ 32 ≤ x) (hhi : x < 2 ^ 32) :
    (decide (x.bmod (2 ^ 32) < 0) != (decide (x ≥ 2 ^ 31) || decide (x < -2 ^ 31))) =
      decide (x < 0) := by
  by_cases h₁ : x ≥ 2 ^ 31
  · have hmod : x.bmod (2 ^ 32) = x - 2 ^ 32 := by
      rw [Int.bmod_def]
      split <;> omega
    rw [hmod, decide_eq_true (show x - 2 ^ 32 < 0 by omega), decide_eq_true h₁,
      decide_eq_false (show ¬ x < 0 by omega)]
    rfl
  by_cases h₂ : x < -2 ^ 31
  · have hmod : x.bmod (2 ^ 32) = x + 2 ^ 32 := by
      rw [Int.bmod_def]
      split <;> omega
    rw [hmod, decide_eq_false (show ¬ x + 2 ^ 32 < 0 by omega), decide_eq_false h₁,
      decide_eq_true h₂, decide_eq_true (show x < 0 by omega)]
    rfl
  · have hmod : x.bmod (2 ^ 32) = x := Int.bmod_eq_of_le (by omega) (by omega)
    rw [hmod, decide_eq_false h₁, decide_eq_false h₂, Bool.or_self, Bool.bne_false]

/-- The condition `lt` after a subtraction. -/
theorem sub_lt (a b : Word) :
    ((a - b).msb != a.ssubOverflow b) = decide (a.toInt < b.toInt) := by
  have ha := BitVec.toInt_lt (x := a)
  have ha' := BitVec.le_toInt (x := a)
  have hb := BitVec.toInt_lt (x := b)
  have hb' := BitVec.le_toInt (x := b)
  have h := sign_overflow (x := a.toInt - b.toInt) (by omega) (by omega)
  rw [BitVec.msb_eq_toInt, BitVec.toInt_sub, BitVec.ssubOverflow]
  refine h.trans ?_
  rw [decide_eq_decide]
  omega

theorem lt_of_sub {ρ : Type} {s : Cpu ρ} {a b : Word} (hn : s.n = (a - b).msb)
    (hv : s.v = a.ssubOverflow b) : Cond.lt.holds s = decide (a.toInt < b.toInt) := by
  rw [Cond.holds, hn, hv, sub_lt]

theorem ge_of_sub {ρ : Type} {s : Cpu ρ} {a b : Word} (hn : s.n = (a - b).msb)
    (hv : s.v = a.ssubOverflow b) : Cond.ge.holds s = !decide (a.toInt < b.toInt) := by
  rw [← lt_of_sub hn hv, Cond.holds, Cond.holds, bne, Bool.not_not]

/-- The condition `eq` after a subtraction. -/
theorem beq_sub_zero (a b : Word) : (a - b == 0#32) = decide (a = b) := by
  rw [Bool.eq_iff_iff, beq_iff_eq, decide_eq_true_eq]
  bv_omega

theorem one_le_iff (a : Word) : 1#32 ≤ a ↔ a ≠ 0#32 := by bv_omega

/-! ### Code in a program -/

/-- `code` stands in the program `p` from position `pc` on. -/
def At (p : List (Instr ρ)) (pc : ℕ) (code : List (Instr ρ)) : Prop :=
  code <+: p.drop pc

theorem At.append {p a b : List (Instr ρ)} {pc : ℕ} :
    At p pc (a ++ b) ↔ At p pc a ∧ At p (pc + a.length) b := by
  unfold At
  rw [← List.drop_drop]
  constructor
  · rintro ⟨rest, h⟩
    rw [← h, List.append_assoc]
    refine ⟨List.prefix_append _ _, ?_⟩
    rw [List.drop_left]
    exact List.prefix_append _ _
  · rintro ⟨⟨rest, h⟩, h'⟩
    rw [← h, List.drop_left] at h'
    obtain ⟨rest', rfl⟩ := h'
    exact ⟨rest', by rw [← h, List.append_assoc]⟩

theorem At.flatten_cons {p a : List (Instr ρ)} {L : List (List (Instr ρ))} {pc : ℕ} :
    At p pc (List.flatten (a :: L)) ↔ At p pc a ∧ At p (pc + a.length) L.flatten := by
  rw [List.flatten_cons, At.append]

theorem At.flatten_append {p : List (Instr ρ)} {L L' : List (List (Instr ρ))} {pc : ℕ} :
    At p pc (List.flatten (L ++ L')) ↔
      At p pc L.flatten ∧ At p (pc + L.flatten.length) L'.flatten := by
  rw [List.flatten_append, At.append]

theorem At.get {p code : List (Instr ρ)} {pc : ℕ} {i : Instr ρ} (h : At p pc (i :: code)) :
    p[pc]? = some i := by
  obtain ⟨rest, h⟩ := h
  have hget : (p.drop pc)[0]? = some i := by rw [← h]; rfl
  simpa using hget

theorem At.tail {p code : List (Instr ρ)} {pc : ℕ} {i : Instr ρ} (h : At p pc (i :: code)) :
    At p (pc + 1) code :=
  (At.append (a := [i]).mp h).2

theorem At.whole (p : List (Instr ρ)) : At p 0 p := List.prefix_rfl

/-! ### What a program gets to -/

section Gets

variable [DecidableEq ρ] {p code : List (Instr ρ)} {pc pc' : ℕ} {P R : Cpu ρ → Prop}
  {Q Q' : Config ρ → Prop} {c : Cond} {target : ℕ}

/-- At a position, with a property. -/
def atPc (pc : ℕ) (P : Cpu ρ → Prop) : Config ρ → Prop
  | .before pc' s => pc' = pc ∧ P s
  | .returned _ => False

/-- Back in the caller, with a property. -/
def inCaller (P : Cpu ρ → Prop) : Config ρ → Prop
  | .before _ _ => False
  | .returned s => P s

/-- From position `pc` and a state with `P`, the program gets to `Q`. -/
def Gets (p : List (Instr ρ)) (pc : ℕ) (P : Cpu ρ → Prop) (Q : Config ρ → Prop) : Prop :=
  ∀ s, P s → ∃ t, Steps p (.before pc s) t ∧ Q t

theorem Gets.here (h : ∀ s, P s → Q (.before pc s)) : Gets p pc P Q :=
  fun s hs => ⟨_, .refl, h s hs⟩

theorem Gets.strengthen (h : Gets p pc R Q) (hP : ∀ s, P s → R s) : Gets p pc P Q :=
  fun s hs => h s (hP s hs)

/-- One instruction, and on from there. -/
theorem Gets.step (hnext : ∀ s, P s → ∃ t, next p (.before pc s) = some t ∧
    ∃ u, Steps p t u ∧ Q u) : Gets p pc P Q := by
  intro s hs
  obtain ⟨t, ht, u, hu, hQ⟩ := hnext s hs
  exact ⟨u, .head ht hu, hQ⟩

theorem Gets.trans (h : Gets p pc P (atPc pc' R)) (h' : Gets p pc' R Q) : Gets p pc P Q := by
  intro s hs
  obtain ⟨t, ht, hP'⟩ := h s hs
  match t, hP' with
  | .before _ t, ⟨rfl, hP'⟩ =>
    obtain ⟨u, hu, hQ⟩ := h' t hP'
    exact ⟨u, ht.trans hu, hQ⟩

theorem next_straight {i : Instr ρ} (hget : p[pc]? = some i) (hi : i.isStraight = true)
    (s : Cpu ρ) : next p (.before pc s) = some (.before (pc + 1) (i.exec s)) := by
  rw [next, hget]
  cases i <;> first | rfl | cases hi

/-- Code without branches. -/
theorem Gets.straight (hat : At p pc code) (hcode : code.all Instr.isStraight = true)
    (hP : ∀ s, P s → R (execAll code s)) (h : Gets p (pc + code.length) R Q) :
    Gets p pc P Q := by
  induction code generalizing pc P with
  | nil => exact h.strengthen hP
  | cons i code ih =>
    rw [List.all_cons, Bool.and_eq_true] at hcode
    have htail : Gets p (pc + 1) (fun t => R (execAll code t)) Q :=
      ih hat.tail hcode.2 (fun _ ht => ht) (by rwa [Nat.add_assoc, Nat.add_comm 1])
    exact .step fun s hs =>
      ⟨_, next_straight hat.get hcode.1 s, htail (i.exec s) (hP s hs)⟩

theorem Gets.branch (hget : p[pc]? = some (.b c target))
    (htaken : Gets p target (fun s => P s ∧ c.holds s = true) Q)
    (hpassed : Gets p (pc + 1) (fun s => P s ∧ c.holds s = false) Q) : Gets p pc P Q := by
  refine .step fun s hs => ?_
  cases hc : c.holds s with
  | true => exact ⟨.before target s, by simp [next, hget, hc], htaken s ⟨hs, hc⟩⟩
  | false => exact ⟨.before (pc + 1) s, by simp [next, hget, hc], hpassed s ⟨hs, hc⟩⟩

theorem Gets.ret (hget : p[pc]? = some (.ret c))
    (htaken : ∀ s, P s → c.holds s = true → Q (.returned s))
    (hpassed : Gets p (pc + 1) (fun s => P s ∧ c.holds s = false) Q) : Gets p pc P Q := by
  refine .step fun s hs => ?_
  cases hc : c.holds s with
  | true => exact ⟨.returned s, by simp [next, hget, hc], _, .refl, htaken s hs hc⟩
  | false => exact ⟨.before (pc + 1) s, by simp [next, hget, hc], hpassed s ⟨hs, hc⟩⟩

/-- The return at the end of a routine. -/
theorem Gets.done (hget : p[pc]? = some (.ret .al)) (hQ : ∀ s, P s → Q (.returned s)) :
    Gets p pc P Q :=
  .ret hget (fun s hs _ => hQ s hs) fun _ hs => nomatch hs.2

/-- A position the program comes back to, with a smaller measure each time. -/
theorem Gets.loop {l : ℕ} {I : ℕ → Cpu ρ → Prop}
    (hturn : ∀ m, (∀ k < m, Gets p l (I k) Q) → Gets p l (I m) Q) (m : ℕ) :
    Gets p l (I m) Q := by
  induction m using Nat.strong_induction_on with
  | _ m ih => exact hturn m ih

end Gets

theorem Steps.unique [DecidableEq ρ] {p : List (Instr ρ)} {a : Config ρ} {s t : Cpu ρ}
    (hs : Steps p a (.returned s)) (ht : Steps p a (.returned t)) : s = t := by
  induction hs using Relation.ReflTransGen.head_induction_on with
  | refl =>
    obtain h | ⟨b, hb, -⟩ := ht.cases_head
    · exact Config.returned.inj h
    · cases hb
  | head hab _ ih =>
    obtain rfl | ⟨b, hb, hbt⟩ := ht.cases_head
    · cases hab
    · obtain rfl := Option.some.inj (hab.symm.trans hb)
      exact ih hbt

end Theory.Arm
