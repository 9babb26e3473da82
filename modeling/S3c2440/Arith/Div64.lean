import S3c2440.Arith.Division

/-!
# Dividing a double word

`__do_div64` of `div64.S`, which `do_div` calls and with it every conversion of a number
to text: the dividend is in `xh` and `xl`, the divisor in `r4`, the quotient comes back in
`yh` and `yl` and the remainder in `xh`. The upper word is divided first, by shifting the
divisor; then the remainder is shifted to the left, a bit of the lower word at a time, with the
carry as its bit 32. Where the remainder becomes zero the bits that are zero as well are skipped.

## What is proved

* `upper_gets` — the upper word of the quotient, and the remainder of the upper word.
* `lower_gets` — the lower word, however the loop skips.
* `do_div64` — the routine returns with quotient and remainder.
-/

namespace S3c2440.Arith

open Theory Theory.Arm Theory.Arm.Instr Reg

/-! ### The routine -/

abbrev xl : Reg := r0
abbrev xh : Reg := r1
abbrev yl : Reg := r2
abbrev yh : Reg := r3

/-- `__do_div64`; `lr` is pushed and popped around the division by zero. -/
def doDiv64 : Code := List.flatten
  [[.subs .al ip r4 (.imm 1)],
   [.b .ls 66],
   [.tst .al ip (.reg r4)],
   [.b .eq 45],
   [.cmp .al xh (.reg r4),
    .mov .al yh (.imm 0)],
   [.b .lo 20],
   [.mov .al yl (.reg r4),
    .mov .al ip (.imm 1)],
   -- 1:
   [.cmp .al yl (.imm 0x80000000),
    .cmp .cc yl (.reg xh),
    .mov .cc yl (.lsl yl 1),
    .mov .cc ip (.lsl ip 1)],
   [.b .cc 9],
   -- 2:
   [.cmp .al xh (.reg yl),
    .orr .cs yh yh (.reg ip),
    .subs .cs xh xh (.reg yl),
    .movs .ne ip (.lsr ip 1),
    .mov .al yl (.lsr yl 1)],
   [.b .ne 14],
   -- 3:
   [.cmp .al xh (.imm 0),
    .mov .al yl (.imm 0),
    .cmp .eq xl (.reg r4),
    .mov .lo xh (.reg xl)],
   [.ret .lo],
   [.mov .al ip (.imm 0x80000000)],
   -- 4:
   [.movs .al xl (.lsl xl 1),
    .adcs .al xh xh (.reg xh)],
   [.b .eq 35],
   [.cmp .cc xh (.reg r4)],
   -- 5:
   [.orr .cs yl yl (.reg ip),
    .sub .cs xh xh (.reg r4),
    .movs .al ip (.lsr ip 1)],
   [.b .ne 26],
   [.ret .al],
   -- 6:
   [.b .cs 30],
   [.cmp .al xl (.imm 0)],
   [.ret .eq],
   -- 7:
   [.movs .al xl (.lsl xl 1),
    .mov .al ip (.lsr ip 1)],
   [.b .cc 38],
   [.movs .al ip (.lsr ip 1),
    .mov .al xh (.imm 1)],
   [.b .ne 26],
   [.ret .al],
   -- 8:
   [.mov .al yl (.reg r4),
    .cmp .al r4 (.imm 0x10000),
    .mov .al ip (.imm 0),
    .mov .hs yl (.lsr yl 16),
    .mov .hs ip (.imm 16)],
   [.cmp .al yl (.imm 0x100),
    .mov .hs yl (.lsr yl 8),
    .add .hs ip ip (.imm 8)],
   [.cmp .al yl (.imm 0x10),
    .mov .hs yl (.lsr yl 4),
    .add .hs ip ip (.imm 4)],
   [.cmp .al yl (.imm 4),
    .add .hi ip ip (.imm 3),
    .add .ls ip ip (.lsr yl 1)],
   [.mov .al yh (.lsrBy xh ip),
    .mov .al yl (.lsrBy xl ip),
    .rsb .al ip ip (.imm 32),
    .orr .al yl yl (.lslBy xh ip),
    .mov .al xh (.lslBy xl ip),
    .mov .al xh (.lsrBy xh ip)],
   [.ret .al],
   -- 9:
   [.mov .eq yl (.reg xl),
    .mov .eq yh (.reg xh),
    .mov .eq xh (.imm 0)],
   [.ret .eq],
   [.mov .al yl (.imm 0),
    .mov .al yh (.imm 0),
    .mov .al xh (.imm 0)],
   [.ret .al]]

variable {p : Code} {s : Cpu Reg} {X L R d k : ℕ} {w : Word}

/-! ### The upper word -/

/-- The upper word in the loop at label 2: the divisor is shifted by `k`. -/
structure Upper (X L d k : ℕ) (s : Cpu Reg) : Prop where
  eq_yl : (s.reg yl).toNat = d * 2 ^ k
  eq_ip : (s.reg ip).toNat = 2 ^ k
  eq_xh : (s.reg xh).toNat = X % (d * 2 ^ (k + 1))
  eq_yh : (s.reg yh).toNat = X / (d * 2 ^ (k + 1)) * 2 ^ (k + 1)
  eq_xl : (s.reg xl).toNat = L
  eq_r4 : (s.reg r4).toNat = d

/-- At label 3: the upper word is divided. -/
structure UpperDone (X L d : ℕ) (s : Cpu Reg) : Prop where
  eq_xh : (s.reg xh).toNat = X % d
  eq_yh : (s.reg yh).toNat = X / d
  eq_xl : (s.reg xl).toNat = L
  eq_r4 : (s.reg r4).toNat = d

/-- One turn of the loop at label 2. -/
def upperTurn : Code :=
  [.cmp .al xh (.reg yl),
   .orr .cs yh yh (.reg ip),
   .subs .cs xh xh (.reg yl),
   .movs .ne ip (.lsr ip 1),
   .mov .al yl (.lsr yl 1)]

/-- The registers and the zero flag after a turn. -/
theorem upperTurn_spec (s : Cpu Reg) :
    let t := execAll upperTurn s
    let X := if s.reg yl ≤ s.reg xh then s.reg xh - s.reg yl else s.reg xh
    t.reg xh = X ∧
    t.reg yh = (if s.reg yl ≤ s.reg xh then s.reg yh ||| s.reg ip else s.reg yh) ∧
    t.reg yl = s.reg yl >>> 1 ∧ t.reg xl = s.reg xl ∧ t.reg r4 = s.reg r4 ∧
    (s.reg yl ≤ s.reg xh ∧ X = 0#32 → t.z = true) ∧
    (¬ (s.reg yl ≤ s.reg xh ∧ X = 0#32) →
      t.reg ip = s.reg ip >>> 1 ∧ t.z = decide (s.reg ip >>> 1 = 0#32)) := by
  have hc : (Op.sub.flags s (s.reg xh) (.reg yl)).c = decide (s.reg yl ≤ s.reg xh) := rfl
  have hz : (Op.sub.flags s (s.reg xh) (.reg yl)).z = decide (s.reg xh = s.reg yl) := by
    rw [← beq_sub_zero]; rfl
  have hreg : (Op.sub.flags s (s.reg xh) (.reg yl)).reg = s.reg := rfl
  intro t X
  have ht : t = execAll [.orr .cs yh yh (.reg ip), .subs .cs xh xh (.reg yl),
      .movs .ne ip (.lsr ip 1), .mov .al yl (.lsr yl 1)]
      (Op.sub.flags s (s.reg xh) (.reg yl)) := rfl
  generalize Op.sub.flags s (s.reg xh) (.reg yl) = x at hc hz hreg ht
  by_cases hle : s.reg yl ≤ s.reg xh
  · have hX : X = s.reg xh - s.reg yl := if_pos hle
    rw [decide_eq_true hle] at hc
    by_cases hzero : s.reg xh - s.reg yl = 0#32
    · simp [ht, Cond.holds, hc, hreg, Op.result, Operand.val, hle, hX, hzero]
    · simp [ht, Cond.holds, hc, hreg, Op.result, Operand.val, hle, hX, hzero, beq_eq_decide]
  · have hX : X = s.reg xh := if_neg hle
    have hne : s.reg xh ≠ s.reg yl := fun h => hle (h ▸ BitVec.le_refl _)
    rw [decide_eq_false hle] at hc
    rw [decide_eq_false hne] at hz
    simp [ht, Cond.holds, hc, hz, hreg, Op.result, Operand.val, hle, hX, beq_eq_decide]

/-- A turn: either the upper word is done, or the divisor is one place further right. -/
theorem Upper.turn (hs : Upper X L d k s) (hd : 0 < d) :
    let t := execAll upperTurn s
    (t.z = true ∧ UpperDone X L d t) ∨ (t.z = false ∧ ∃ m < k, Upper X L d m t) := by
  obtain ⟨hxh, hyh, hyl, hxl, hr4, hstop, hgo⟩ := upperTurn_spec s
  intro t
  have hm : d * 2 ^ (k + 1) = 2 * (d * 2 ^ k) := by ring
  have hpos := Nat.mul_pos hd (Nat.two_pow_pos k)
  have hX := hs.eq_xh
  have hY := hs.eq_yh
  rw [hm] at hX
  -- Remainder and quotient by `d * 2 ^ k`.
  have hrem : (t.reg xh).toNat = X % (d * 2 ^ k) ∧
      (t.reg yh).toNat = X / (d * 2 ^ k) * 2 ^ k := by
    rw [hxh, hyh]
    by_cases hle : s.reg yl ≤ s.reg xh
    · have hle' := hle
      rw [BitVec.le_def, hs.eq_yl, hX] at hle'
      obtain ⟨h₁, h₂⟩ := div_mod_of_fits hpos hle'
      rw [if_pos hle, if_pos hle, BitVec.toNat_sub_of_le hle, hX, hs.eq_yl, BitVec.toNat_or, hY,
        hs.eq_ip, hm, partial_quotient_or, h₁, h₂]
      exact ⟨rfl, rfl⟩
    · have hlt := hle
      rw [BitVec.le_def, hs.eq_yl, hX, not_le] at hlt
      obtain ⟨h₁, h₂⟩ := div_mod_of_low hlt
      rw [if_neg hle, if_neg hle, hX, hY, hm, h₁, h₂, Nat.pow_succ]
      exact ⟨rfl, by ring⟩
  have hxl' : (t.reg xl).toNat = L := by rw [hxl, hs.eq_xl]
  have hr4' : (t.reg r4).toNat = d := by rw [hr4, hs.eq_r4]
  have hdone : t.reg xh = 0#32 → UpperDone X L d t := by
    intro h
    have hzero := hrem.1
    rw [h] at hzero
    exact ⟨by rw [h, mod_of_mod_eq_zero hzero.symm]; rfl,
      by rw [hrem.2, div_of_mod_eq_zero hd hzero.symm], hxl', hr4'⟩
  by_cases hzero : s.reg yl ≤ s.reg xh ∧
      (if s.reg yl ≤ s.reg xh then s.reg xh - s.reg yl else s.reg xh) = 0#32
  · exact .inl ⟨hstop hzero, hdone (hxh.trans hzero.2)⟩
  obtain ⟨hip, hz⟩ := hgo hzero
  have hshift : (s.reg ip >>> 1).toNat = 2 ^ k / 2 := by
    rw [BitVec.toNat_ushiftRight, hs.eq_ip, Nat.shiftRight_eq_div_pow, Nat.pow_one]
  cases k with
  | zero =>
    refine .inl ⟨?_, ?_, ?_, hxl', hr4'⟩
    · rw [hz, decide_eq_true_eq]
      exact BitVec.eq_of_toNat_eq hshift
    · simpa using hrem.1
    · simpa using hrem.2
  | succ m =>
    rw [Nat.pow_succ, Nat.mul_div_cancel _ two_pos] at hshift
    refine .inr ⟨?_, m, Nat.lt_succ_self m, ?_, ?_, hrem.1, hrem.2, hxl', hr4'⟩
    · rw [hz, decide_eq_false_iff_not]
      intro h
      have hpow := Nat.two_pow_pos m
      rw [h] at hshift
      simp only [BitVec.toNat_ofNat, Nat.zero_mod] at hshift
      omega
    · rw [hyl, BitVec.toNat_ushiftRight, hs.eq_yl, Nat.shiftRight_eq_div_pow, Nat.pow_one,
        Nat.pow_succ, ← Nat.mul_assoc, Nat.mul_div_cancel _ two_pos]
    · rw [hip, hshift]

/-- The divisor and the bit, shifted by `k` in the loop at label 1. -/
structure Raised (X L d k : ℕ) (s : Cpu Reg) : Prop where
  eq_yl : (s.reg yl).toNat = d * 2 ^ k
  eq_ip : (s.reg ip).toNat = 2 ^ k
  eq_xh : (s.reg xh).toNat = X
  eq_yh : s.reg yh = 0#32
  eq_xl : (s.reg xl).toNat = L
  eq_r4 : (s.reg r4).toNat = d

/-- One turn of the loop at label 1. -/
def raiseTurn : Code :=
  [.cmp .al yl (.imm 0x80000000),
   .cmp .cc yl (.reg xh),
   .mov .cc yl (.lsl yl 1),
   .mov .cc ip (.lsl ip 1)]

theorem Raised.turn (hs : Raised X L d k s) (hd : 0 < d) :
    let t := execAll raiseTurn s
    (t.c = true ∧ X < d * 2 ^ (k + 1) ∧ Raised X L d k t) ∨
      (t.c = false ∧ Raised X L d (k + 1) t ∧ k < 32) := by
  have hc : (Op.sub.flags s (s.reg yl) (.imm 0x80000000)).c =
      decide (0x80000000#32 ≤ s.reg yl) := rfl
  have hreg : (Op.sub.flags s (s.reg yl) (.imm 0x80000000)).reg = s.reg := rfl
  have hk : k < 32 := by
    have hlt := (s.reg yl).isLt
    rw [hs.eq_yl] at hlt
    exact (Nat.pow_lt_pow_iff_right (by omega)).mp
      (lt_of_le_of_lt (Nat.le_mul_of_pos_left _ hd) hlt)
  have hdouble : d * 2 ^ (k + 1) = 2 * (d * 2 ^ k) := by ring
  have hpos := Nat.mul_pos hd (Nat.two_pow_pos k)
  intro t
  have ht : t = execAll [.cmp .cc yl (.reg xh), .mov .cc yl (.lsl yl 1), .mov .cc ip (.lsl ip 1)]
      (Op.sub.flags s (s.reg yl) (.imm 0x80000000)) := rfl
  generalize Op.sub.flags s (s.reg yl) (.imm 0x80000000) = x at hc hreg ht
  by_cases htop : 0x80000000#32 ≤ s.reg yl
  · rw [decide_eq_true htop] at hc
    have htop' : 2 ^ 31 ≤ d * 2 ^ k := by rw [← hs.eq_yl]; exact htop
    have hX := (s.reg xh).isLt
    rw [hs.eq_xh] at hX
    refine .inl ⟨by simp [ht, Cond.holds, hc], by omega, ?_⟩
    have htreg : t.reg = s.reg := by simp [ht, Cond.holds, hc, hreg]
    exact ⟨htreg ▸ hs.eq_yl, htreg ▸ hs.eq_ip, htreg ▸ hs.eq_xh, htreg ▸ hs.eq_yh, htreg ▸ hs.eq_xl,
      htreg ▸ hs.eq_r4⟩
  rw [decide_eq_false htop] at hc
  have htop' : d * 2 ^ k < 2 ^ 31 := by
    rw [← hs.eq_yl]
    exact not_le.mp htop
  have hc' : (Op.sub.flags x (x.reg yl) (.reg xh)).c = decide (s.reg xh ≤ s.reg yl) := by
    simp [Op.carry, Operand.val, hreg]
  have hreg' : (Op.sub.flags x (x.reg yl) (.reg xh)).reg = s.reg := hreg
  rw [execAll_cons, exec_test, if_pos (show Cond.cc.holds x = true by simp [Cond.holds, hc])] at ht
  generalize Op.sub.flags x (x.reg yl) (.reg xh) = y at hc' hreg' ht
  by_cases hle : s.reg xh ≤ s.reg yl
  · rw [decide_eq_true hle] at hc'
    rw [BitVec.le_def, hs.eq_xh, hs.eq_yl] at hle
    refine .inl ⟨by simp [ht, Cond.holds, hc'], by omega, ?_⟩
    have htreg : t.reg = s.reg := by simp [ht, Cond.holds, hc', hreg']
    exact ⟨htreg ▸ hs.eq_yl, htreg ▸ hs.eq_ip, htreg ▸ hs.eq_xh, htreg ▸ hs.eq_yh, htreg ▸ hs.eq_xl,
      htreg ▸ hs.eq_r4⟩
  · rw [decide_eq_false hle] at hc'
    have hipow : 2 ^ k ≤ d * 2 ^ k := Nat.le_mul_of_pos_left _ hd
    refine .inr ⟨by simp [ht, Cond.holds, hc'], ⟨?_, ?_, ?_, ?_, ?_, ?_⟩, hk⟩
    · simp only [ht, execAll_cons, execAll_nil, exec_alu, Cond.holds, hc', Bool.not_false, if_true,
        Bool.false_eq_true, if_false, Op.result, Operand.val, hreg', Cpu.c_set]
      rw [Cpu.reg_set_of_ne _ _ (by decide), Cpu.reg_set_self, BitVec.toNat_shiftLeft,
        Nat.shiftLeft_eq, hs.eq_yl, Nat.mod_eq_of_lt (by omega), hdouble]
      omega
    · simp only [ht, execAll_cons, execAll_nil, exec_alu, Cond.holds, hc', Bool.not_false, if_true,
        Bool.false_eq_true, if_false, Op.result, Operand.val, hreg', Cpu.c_set]
      rw [Cpu.reg_set_self, Cpu.reg_set_of_ne _ _ (by decide), hreg', BitVec.toNat_shiftLeft,
        Nat.shiftLeft_eq, hs.eq_ip, Nat.mod_eq_of_lt (by omega), ← Nat.pow_add]
    · simp [ht, Cond.holds, hc', hreg', hs.eq_xh]
    · simp [ht, Cond.holds, hc', hreg', hs.eq_yh]
    · simp [ht, Cond.holds, hc', hreg', hs.eq_xl]
    · simp [ht, Cond.holds, hc', hreg', hs.eq_r4]

/-- The loops at labels 1 and 2: from the divisor as it is to the upper word of the quotient. -/
theorem upper_gets {Q : Config Reg → Prop} (hd : 0 < d)
    (hat : At p 9 (List.flatten [raiseTurn, [.b .cc 9], upperTurn, [.b .ne 14]]))
    (hdone : Gets p 20 (UpperDone X L d) Q) : Gets p 9 (Raised X L d 0) Q := by
  obtain ⟨hraise, hat⟩ := At.flatten_cons.mp hat
  obtain ⟨hbcc, hat⟩ := At.flatten_cons.mp hat
  obtain ⟨hturn, hat⟩ := At.flatten_cons.mp hat
  obtain ⟨hbne, -⟩ := At.flatten_cons.mp hat
  have hdown : ∀ k, Gets p 14 (Upper X L d k) Q := by
    refine .loop fun k ih => ?_
    refine .straight hturn rfl (R := fun t => (t.z = true ∧ UpperDone X L d t) ∨
      (t.z = false ∧ ∃ m < k, Upper X L d m t)) (fun s hs => hs.turn hd) (.branch hbne.get ?_ ?_)
    · rintro s ⟨⟨hz, -⟩ | ⟨-, m, hm, hs⟩, hne⟩
      · simp [Cond.holds, hz] at hne
      · exact ih m hm s hs
    · rintro s ⟨⟨-, hs⟩ | ⟨hz, -⟩, hne⟩
      · exact hdone s hs
      · simp [Cond.holds, hz] at hne
  have hup := Gets.loop (p := p) (l := 9) (Q := Q)
    (I := fun m s => ∃ k, m = 32 - k ∧ Raised X L d k s) ?_
  · exact fun s hs => hup 32 s ⟨0, rfl, hs⟩
  intro m ih
  refine .straight hraise rfl (R := fun t => ∃ k, m = 32 - k ∧
    ((t.c = true ∧ X < d * 2 ^ (k + 1) ∧ Raised X L d k t) ∨
      (t.c = false ∧ Raised X L d (k + 1) t ∧ k < 32))) ?_ (.branch hbcc.get ?_ ?_)
  · rintro s ⟨k, hk, hs⟩
    exact ⟨k, hk, hs.turn hd⟩
  · rintro s ⟨⟨k, hk, ⟨hc, -⟩ | ⟨-, hs, hlt⟩⟩, hcc⟩
    · simp [Cond.holds, hc] at hcc
    · exact ih (32 - (k + 1)) (by omega) s ⟨k + 1, rfl, hs⟩
  · rintro s ⟨⟨k, hk, ⟨-, hX, hs⟩ | ⟨hc, -⟩⟩, hcc⟩
    · refine hdown k s ⟨hs.eq_yl, hs.eq_ip, ?_, ?_, hs.eq_xl, hs.eq_r4⟩
      · rw [hs.eq_xh, Nat.mod_eq_of_lt hX]
      · rw [hs.eq_yh, Nat.div_eq_of_lt hX, Nat.zero_mul]
        rfl
    · simp [Cond.holds, hc] at hcc

/-! ### The lower word -/

variable {N Y i j : ℕ}

/-- The bit that is shifted out of the lower word is the next one of the dividend. -/
theorem next_bit (hj : j ≤ 31) :
    N / 2 ^ (31 - j) = 2 * (N / 2 ^ (32 - j)) + N * 2 ^ j % 2 ^ 32 / 2 ^ 31 := by
  obtain ⟨i, hi⟩ : ∃ i, 31 = i + j := ⟨31 - j, by omega⟩
  have hbit : N * 2 ^ j % 2 ^ 32 / 2 ^ 31 = N / 2 ^ i % 2 := by
    rw [show (32 : ℕ) = i + 1 + j by omega, hi, Nat.pow_add 2 (i + 1), Nat.mul_mod_mul_right,
      Nat.pow_add 2 i j, Nat.mul_div_mul_right _ _ (Nat.two_pow_pos j), Nat.pow_succ,
      Nat.mod_mul_right_div_self]
  rw [hbit, show 31 - j = i by omega, show 32 - j = i + 1 by omega, Nat.pow_succ,
    ← Nat.div_div_eq_div_mul, Nat.div_add_mod]

theorem shifted_low : 2 * (N * 2 ^ j % 2 ^ 32) % 2 ^ 32 = N * 2 ^ (j + 1) % 2 ^ 32 := by
  rw [Nat.mul_mod_mod, Nat.pow_succ 2 j, Nat.mul_comm 2, Nat.mul_assoc]

/-- The loop at label 4, with `j` bits of the lower word consumed. -/
structure Lower (N d Y j : ℕ) (s : Cpu Reg) : Prop where
  eq_ip : (s.reg ip).toNat = 2 ^ (31 - j)
  eq_xl : (s.reg xl).toNat = N * 2 ^ j % 2 ^ 32
  eq_xh : (s.reg xh).toNat = N / 2 ^ (32 - j) % d
  eq_yl : (s.reg yl).toNat = N / 2 ^ (32 - j) / d * 2 ^ (32 - j)
  eq_yh : (s.reg yh).toNat = Y
  eq_r4 : (s.reg r4).toNat = d

/-- The end of the routine. -/
structure LowerDone (N d Y : ℕ) (s : Cpu Reg) : Prop where
  eq_xh : (s.reg xh).toNat = N % d
  eq_yl : (s.reg yl).toNat = N / d
  eq_yh : (s.reg yh).toNat = Y
  eq_r4 : (s.reg r4).toNat = d

/-- The remainder with the next bit below it, which has 33 bits. -/
def extended (N d j : ℕ) : ℕ := 2 * (N / 2 ^ (32 - j) % d) + N * 2 ^ j % 2 ^ 32 / 2 ^ 31

theorem extended_lt (hd : 0 < d) : extended N d j < 2 * d := by
  have h₁ := Nat.mod_lt (N / 2 ^ (32 - j)) hd
  have h₂ := Nat.mod_lt (N * 2 ^ j) (Nat.two_pow_pos 32)
  rw [extended]
  omega

/-- What the bit does to quotient and remainder. -/
theorem extended_spec (hd : 0 < d) (hj : j ≤ 31) :
    N / 2 ^ (31 - j) % d =
      (if d ≤ extended N d j then extended N d j - d else extended N d j) ∧
    N / 2 ^ (31 - j) / d =
      2 * (N / 2 ^ (32 - j) / d) + (if d ≤ extended N d j then 1 else 0) := by
  have hlt := extended_lt (N := N) (j := j) hd
  have hsplit : N / 2 ^ (31 - j) =
      extended N d j + d * (2 * (N / 2 ^ (32 - j) / d)) := by
    have hdm := Nat.div_add_mod (N / 2 ^ (32 - j)) d
    have hmul : d * (2 * (N / 2 ^ (32 - j) / d)) = 2 * (d * (N / 2 ^ (32 - j) / d)) := by ring
    rw [next_bit hj, extended]
    omega
  rw [hsplit, Nat.add_mul_mod_self_left, Nat.add_mul_div_left _ _ hd]
  by_cases h : d ≤ extended N d j
  · rw [if_pos h, if_pos h, Nat.mod_eq_sub_mod h, Nat.mod_eq_of_lt (by omega),
      Nat.div_eq_sub_div hd h, Nat.div_eq_of_lt (by omega)]
    exact ⟨rfl, by omega⟩
  · rw [if_neg h, if_neg h, Nat.mod_eq_of_lt (not_le.mp h), Nat.div_eq_of_lt (not_le.mp h)]
    exact ⟨rfl, by omega⟩

/-- After the shift at label 4. -/
structure Shifted (N d Y j : ℕ) (s : Cpu Reg) : Prop where
  eq_ip : (s.reg ip).toNat = 2 ^ (31 - j)
  eq_xl : (s.reg xl).toNat = N * 2 ^ (j + 1) % 2 ^ 32
  eq_xh : (s.reg xh).toNat = extended N d j % 2 ^ 32
  eq_yl : (s.reg yl).toNat = N / 2 ^ (32 - j) / d * 2 ^ (32 - j)
  eq_yh : (s.reg yh).toNat = Y
  eq_r4 : (s.reg r4).toNat = d

/-- The shift of one register to the left, and the bit that goes out of it. -/
theorem toNat_shiftLeft_one (w : Word) : (w <<< 1).toNat = 2 * w.toNat % 2 ^ 32 := by
  rw [BitVec.toNat_shiftLeft, Nat.shiftLeft_eq, Nat.mul_comm, Nat.pow_one]

theorem top_bit (w : Word) : (w.getLsbD (32 - 1)).toNat = w.toNat / 2 ^ 31 := by
  have hlt := w.isLt
  rw [BitVec.getLsbD, Nat.testBit_eq_decide_div_mod_eq, Nat.mod_eq_of_lt (by omega)]
  by_cases h : w.toNat / 2 ^ 31 = 1
  · rw [h]; rfl
  · rw [decide_eq_false h]
    change 0 = _
    omega

theorem Lower.shift (hs : Lower N d Y j s) :
    let t := execAll [.movs .al xl (.lsl xl 1), .adcs .al xh xh (.reg xh)] s
    Shifted N d Y j t ∧ t.c = decide (2 ^ 32 ≤ extended N d j) ∧
      t.z = decide (extended N d j % 2 ^ 32 = 0) := by
  have hc : (Instr.exec s (.movs .al xl (.lsl xl 1))).c = (s.reg xl).getLsbD (32 - 1) := rfl
  have hreg : (Instr.exec s (.movs .al xl (.lsl xl 1))).reg =
      Function.update s.reg xl (s.reg xl <<< 1) := rfl
  intro t
  have ht : t = execAll [.adcs .al xh xh (.reg xh)] (Instr.exec s (.movs .al xl (.lsl xl 1))) := rfl
  generalize Instr.exec s (.movs .al xl (.lsl xl 1)) = w at hc hreg ht
  have hxh : w.reg xh = s.reg xh := by simp [hreg]
  have hcarry : w.c.toNat = N * 2 ^ j % 2 ^ 32 / 2 ^ 31 := by rw [hc, top_bit, hs.eq_xl]
  have hext : (s.reg xh).toNat + (s.reg xh).toNat + w.c.toNat = extended N d j := by
    rw [hcarry, hs.eq_xh, extended]
    omega
  have hsum : (s.reg xh + s.reg xh + (BitVec.ofBool w.c).setWidth 32).toNat =
      extended N d j % 2 ^ 32 := by
    rw [BitVec.toNat_add, BitVec.toNat_add, Nat.mod_add_mod, BitVec.toNat_setWidth,
      BitVec.toNat_ofBool, Nat.add_mod_mod, hext]
  have hres : t.reg xh = s.reg xh + s.reg xh + (BitVec.ofBool w.c).setWidth 32 := by
    simp [ht, Cond.holds, Op.result, Operand.val, hxh]
  refine ⟨⟨?_, ?_, ?_, ?_, ?_, ?_⟩, ?_, ?_⟩
  · simp [ht, Cond.holds, hreg, hs.eq_ip]
  · rw [show t.reg xl = s.reg xl <<< 1 by simp [ht, Cond.holds, hreg], toNat_shiftLeft_one,
      hs.eq_xl, shifted_low]
  · rw [hres, hsum]
  · simp [ht, Cond.holds, hreg, hs.eq_yl]
  · simp [ht, Cond.holds, hreg, hs.eq_yh]
  · simp [ht, Cond.holds, hreg, hs.eq_r4]
  · have : t.c = decide (2 ^ 32 ≤ (s.reg xh).toNat + (s.reg xh).toNat + w.c.toNat) := by
      simp [ht, Cond.holds, Op.carry, Operand.val, hxh]
    rw [this, hext]
  · have : t.z = (s.reg xh + s.reg xh + (BitVec.ofBool w.c).setWidth 32 == 0#32) := by
      simp [ht, Cond.holds, Op.result, Operand.val, hxh]
    rw [this, beq_eq_decide, decide_eq_decide, ← BitVec.toNat_inj, hsum]
    rfl

/-- What one more bit consumed leaves: the loop goes on, or the routine is over. -/
structure Consumed (N d Y j : ℕ) (s : Cpu Reg) : Prop where
  z : s.z = decide (j = 31)
  next : j < 31 → Lower N d Y (j + 1) s
  done : j = 31 → LowerDone N d Y s

theorem consumed_of (hz : s.z = decide (j = 31))
    (hip : j < 31 → (s.reg ip).toNat = 2 ^ (31 - (j + 1)))
    (hxl : (s.reg xl).toNat = N * 2 ^ (j + 1) % 2 ^ 32)
    (hxh : (s.reg xh).toNat = N / 2 ^ (31 - j) % d)
    (hyl : (s.reg yl).toNat = N / 2 ^ (31 - j) / d * 2 ^ (31 - j))
    (hyh : (s.reg yh).toNat = Y) (hr4 : (s.reg r4).toNat = d) : Consumed N d Y j s := by
  refine ⟨hz, fun hlt => ⟨hip hlt, hxl, ?_, ?_, hyh, hr4⟩, fun h => ⟨?_, ?_, hyh, hr4⟩⟩
  · rw [hxh, show 32 - (j + 1) = 31 - j by omega]
  · rw [hyl, show 32 - (j + 1) = 31 - j by omega]
  · rw [hxh, h, Nat.sub_self, Nat.pow_zero, Nat.div_one]
  · rw [hyl, h, Nat.sub_self, Nat.pow_zero, Nat.div_one, Nat.mul_one]

/-- The bit of the quotient moves, and is out after the last one. -/
theorem bit_moved (hw : w.toNat = 2 ^ (31 - j)) (hj : j ≤ 31) :
    (w >>> 1 == 0#32) = decide (j = 31) ∧
      (j < 31 → (w >>> 1).toNat = 2 ^ (31 - (j + 1))) := by
  have hhalf : (w >>> 1).toNat = 2 ^ (31 - j) / 2 := by
    rw [BitVec.toNat_ushiftRight, hw, Nat.shiftRight_eq_div_pow, Nat.pow_one]
  have hnext : j < 31 → (w >>> 1).toNat = 2 ^ (31 - (j + 1)) := by
    intro hlt
    rw [hhalf, show 31 - j = 31 - (j + 1) + 1 by omega, Nat.pow_succ, Nat.mul_div_cancel _ two_pos]
  refine ⟨?_, hnext⟩
  rw [beq_eq_decide, decide_eq_decide, ← BitVec.toNat_inj]
  constructor
  · intro h
    by_contra hne
    rw [hnext (lt_of_le_of_ne hj hne)] at h
    exact absurd h (Nat.two_pow_pos _).ne'
  · rintro rfl
    exact hhalf

/-- After label 5, with the bit of the quotient decided. -/
theorem Shifted.subtract (hs : Shifted N d Y j s) (hd : 0 < d) (hj : j ≤ 31)
    (hc : s.c = decide (d ≤ extended N d j)) :
    Consumed N d Y j (execAll [.orr .cs yl yl (.reg ip), .sub .cs xh xh (.reg r4),
      .movs .al ip (.lsr ip 1)] s) := by
  have hext := extended_lt (N := N) (j := j) hd
  have hdlt := (s.reg r4).isLt
  rw [hs.eq_r4] at hdlt
  obtain ⟨hrem, hquot⟩ := extended_spec (N := N) hd hj
  obtain ⟨hzero, hmoved⟩ := bit_moved hs.eq_ip hj
  have hj' : 32 - j = 31 - j + 1 := by omega
  generalize ht : execAll [.orr .cs yl yl (.reg ip), .sub .cs xh xh (.reg r4),
    .movs .al ip (.lsr ip 1)] s = t
  have hip : t.reg ip = s.reg ip >>> 1 := by
    cases h : s.c <;> simp [← ht, Cond.holds, h, Op.result, Operand.val]
  have hz : t.z = (s.reg ip >>> 1 == 0#32) := by
    cases h : s.c <;> simp [← ht, Cond.holds, h, Op.result, Operand.val]
  have hxl : t.reg xl = s.reg xl := by cases h : s.c <;> simp [← ht, Cond.holds, h]
  have hyh : t.reg yh = s.reg yh := by cases h : s.c <;> simp [← ht, Cond.holds, h]
  have hr4 : t.reg r4 = s.reg r4 := by cases h : s.c <;> simp [← ht, Cond.holds, h]
  have hres : (t.reg xh).toNat = N / 2 ^ (31 - j) % d ∧
      (t.reg yl).toNat = N / 2 ^ (31 - j) / d * 2 ^ (31 - j) := by
    rw [hrem, hquot]
    by_cases h : d ≤ extended N d j
    · rw [decide_eq_true h] at hc
      rw [if_pos h, if_pos h]
      constructor
      · rw [show t.reg xh = s.reg xh - s.reg r4 by
            simp [← ht, Cond.holds, hc, Op.result, Operand.val],
          BitVec.toNat_sub, hs.eq_xh, hs.eq_r4]
        omega
      · rw [show t.reg yl = s.reg yl ||| s.reg ip by
            simp [← ht, Cond.holds, hc, Op.result, Operand.val],
          BitVec.toNat_or, hs.eq_yl, hs.eq_ip, hj', partial_quotient_or]
    · rw [decide_eq_false h] at hc
      rw [if_neg h, if_neg h]
      constructor
      · rw [show t.reg xh = s.reg xh by simp [← ht, Cond.holds, hc], hs.eq_xh,
          Nat.mod_eq_of_lt (by omega)]
      · rw [show t.reg yl = s.reg yl by simp [← ht, Cond.holds, hc], hs.eq_yl, hj', Nat.pow_succ,
          Nat.add_zero]
        ring
  refine consumed_of (hz.trans hzero) (fun hlt => ?_) ?_ hres.1 hres.2 ?_ ?_
  · rw [hip, hmoved hlt]
  · rw [hxl, hs.eq_xl]
  · rw [hyh, hs.eq_yh]
  · rw [hr4, hs.eq_r4]

/-- The comparison before label 5, where the remainder with the next bit may have 33 bits. -/
theorem Shifted.compare (hs : Shifted N d Y j s) (hd : 0 < d)
    (hc : s.c = decide (2 ^ 32 ≤ extended N d j)) :
    let t := execAll [.cmp .cc xh (.reg r4)] s
    Shifted N d Y j t ∧ t.c = decide (d ≤ extended N d j) := by
  have hreg : (execAll [.cmp .cc xh (.reg r4)] s).reg = s.reg := by
    cases h : s.c <;> simp [Cond.holds, h]
  intro t
  refine ⟨⟨?_, ?_, ?_, ?_, ?_, ?_⟩, ?_⟩
  · rw [hreg, hs.eq_ip]
  · rw [hreg, hs.eq_xl]
  · rw [hreg, hs.eq_xh]
  · rw [hreg, hs.eq_yl]
  · rw [hreg, hs.eq_yh]
  · rw [hreg, hs.eq_r4]
  by_cases hbig : 2 ^ 32 ≤ extended N d j
  · have hdlt := (s.reg r4).isLt
    rw [hs.eq_r4] at hdlt
    rw [decide_eq_true hbig] at hc
    rw [decide_eq_true (by omega)]
    simp [t, Cond.holds, hc]
  · rw [decide_eq_false hbig] at hc
    simp only [t, execAll_cons, execAll_nil, exec_test, Cond.holds, hc, Bool.not_false, if_true,
      Op.c_flags, Op.carry, Operand.val, BitVec.le_def, hs.eq_xh, hs.eq_r4]
    rw [Nat.mod_eq_of_lt (not_le.mp hbig)]

/-- The remainder is zero, and so is the rest of the dividend. -/
theorem Shifted.done (hs : Shifted N d Y j s) (hd : 0 < d) (hj : j ≤ 31)
    (hext : extended N d j = 0) (hxl : s.reg xl = 0#32) : LowerDone N d Y s := by
  obtain ⟨hrem, hquot⟩ := extended_spec (N := N) hd hj
  rw [hext, if_neg (by omega)] at hrem hquot
  have hlow := hs.eq_xl
  rw [hxl] at hlow
  have hN : N % 2 ^ (31 - j) = 0 := by
    have hpow : 2 ^ 32 = 2 ^ (31 - j) * 2 ^ (j + 1) := by
      rw [← Nat.pow_add, show 31 - j + (j + 1) = 32 by omega]
    rw [hpow, Nat.mul_mod_mul_right] at hlow
    exact (Nat.mul_eq_zero.mp hlow.symm).resolve_right (Nat.two_pow_pos _).ne'
  obtain ⟨q, hq⟩ := Nat.dvd_of_mod_eq_zero hrem
  have hNq : N = d * (q * 2 ^ (31 - j)) := by
    have hdm := Nat.div_add_mod N (2 ^ (31 - j))
    rw [hN, hq, Nat.add_zero] at hdm
    rw [← hdm]
    ring
  have hq' : N / 2 ^ (31 - j) / d = q := by rw [hq, Nat.mul_div_cancel_left _ hd]
  refine ⟨?_, ?_, hs.eq_yh, hs.eq_r4⟩
  · rw [hs.eq_xh, hext, hNq, Nat.mul_mod_right]
    rfl
  · rw [hq'] at hquot
    rw [hs.eq_yl, hNq, Nat.mul_div_cancel_left _ hd, ← hNq, hquot,
      show 32 - j = 31 - j + 1 by omega, Nat.pow_succ]
    ring

/-- The remainder is zero, and so are the bits up to `i` that have been skipped. -/
structure Skip (N d Y i : ℕ) (s : Cpu Reg) : Prop where
  eq_ip : (s.reg ip).toNat = 2 ^ (32 - i)
  eq_xl : (s.reg xl).toNat = N * 2 ^ i % 2 ^ 32
  eq_mod : N / 2 ^ (32 - i) % d = 0
  eq_yl : (s.reg yl).toNat = N / 2 ^ (32 - i) / d * 2 ^ (32 - i)
  eq_yh : (s.reg yh).toNat = Y
  eq_r4 : (s.reg r4).toNat = d
  nonzero : s.reg xl ≠ 0#32

/-- Where the remainder is zero and the dividend is not at its end, bits are skipped. -/
theorem Shifted.skip (hs : Shifted N d Y j s) (hd : 0 < d) (hj : j ≤ 31)
    (hext : extended N d j = 0) (hxl : s.reg xl ≠ 0#32) : Skip N d Y (j + 1) s := by
  obtain ⟨hrem, hquot⟩ := extended_spec (N := N) hd hj
  rw [hext, if_neg (by omega)] at hrem hquot
  have hj' : 32 - (j + 1) = 31 - j := by omega
  refine ⟨?_, hs.eq_xl, ?_, ?_, hs.eq_yh, hs.eq_r4, hxl⟩
  · rw [hs.eq_ip, hj']
  · rw [hj', hrem]
  · rw [hj', hquot, hs.eq_yl, show 32 - j = 31 - j + 1 by omega, Nat.pow_succ, Nat.add_zero]
    ring

theorem Skip.lt (hs : Skip N d Y i s) : i < 32 := by
  by_contra h
  refine hs.nonzero (BitVec.eq_of_toNat_eq ?_)
  rw [hs.eq_xl, show i = i - 32 + 32 by omega, Nat.pow_add, ← Nat.mul_assoc, Nat.mul_mod_left]
  rfl

/-- A bit that is set ends the skipping: the remainder is 1. -/
structure One (N d Y i : ℕ) (s : Cpu Reg) : Prop where
  eq_ip : (s.reg ip).toNat = 2 ^ (31 - i)
  eq_xl : (s.reg xl).toNat = N * 2 ^ (i + 1) % 2 ^ 32
  eq_mod : N / 2 ^ (31 - i) % d = 1
  eq_yl : (s.reg yl).toNat = N / 2 ^ (31 - i) / d * 2 ^ (31 - i)
  eq_yh : (s.reg yh).toNat = Y
  eq_r4 : (s.reg r4).toNat = d

theorem One.consume (hs : One N d Y i s) (hi : i ≤ 31) :
    Consumed N d Y i (execAll [.movs .al ip (.lsr ip 1), .mov .al xh (.imm 1)] s) := by
  obtain ⟨hzero, hmoved⟩ := bit_moved hs.eq_ip hi
  generalize ht : execAll [.movs .al ip (.lsr ip 1), .mov .al xh (.imm 1)] s = t
  have hz : t.z = (s.reg ip >>> 1 == 0#32) := by simp [← ht, Cond.holds, Op.result, Operand.val]
  have hip : t.reg ip = s.reg ip >>> 1 := by simp [← ht, Cond.holds, Op.result, Operand.val]
  refine consumed_of (hz.trans hzero) (fun hlt => ?_) ?_ ?_ ?_ ?_ ?_
  · rw [hip, hmoved hlt]
  · simp [← ht, Cond.holds, hs.eq_xl]
  · rw [hs.eq_mod]
    simp [← ht, Cond.holds, Op.result, Operand.val]
  · simp [← ht, Cond.holds, hs.eq_yl]
  · simp [← ht, Cond.holds, hs.eq_yh]
  · simp [← ht, Cond.holds, hs.eq_r4]

/-- One turn of the loop at label 7: the bit that comes out is the carry. -/
theorem Skip.turn (hs : Skip N d Y i s) (hd : 1 < d) :
    let t := execAll [.movs .al xl (.lsl xl 1), .mov .al ip (.lsr ip 1)] s
    (t.c = false ∧ Skip N d Y (i + 1) t) ∨ (t.c = true ∧ One N d Y i t) := by
  have hpos : 0 < d := by omega
  have hi := hs.lt
  obtain ⟨m, hm⟩ : ∃ m, 31 - i = m := ⟨_, rfl⟩
  have hm' : 32 - i = m + 1 := by omega
  intro t
  have hc : t.c = (s.reg xl).getLsbD (32 - 1) := rfl
  have hip : (t.reg ip).toNat = 2 ^ m := by
    rw [show t.reg ip = s.reg ip >>> 1 by simp [t, Cond.holds, Op.result, Operand.val],
      BitVec.toNat_ushiftRight, hs.eq_ip, hm', Nat.shiftRight_eq_div_pow, Nat.pow_one, Nat.pow_succ,
      Nat.mul_div_cancel _ two_pos]
  have hdouble : (t.reg xl).toNat = 2 * (s.reg xl).toNat % 2 ^ 32 := by
    rw [show t.reg xl = s.reg xl <<< 1 by simp [t, Cond.holds, Op.result, Operand.val],
      toNat_shiftLeft_one]
  have hxl : (t.reg xl).toNat = N * 2 ^ (i + 1) % 2 ^ 32 := by
    rw [hdouble, hs.eq_xl, shifted_low]
  have hyl : t.reg yl = s.reg yl := by simp [t, Cond.holds]
  have hyh : (t.reg yh).toNat = Y := by simp [t, Cond.holds, hs.eq_yh]
  have hr4 : (t.reg r4).toNat = d := by simp [t, Cond.holds, hs.eq_r4]
  have hbit := top_bit (s.reg xl)
  rw [← hc, hs.eq_xl] at hbit
  -- The quotient and the remainder with the bit.
  have hzero := hs.eq_mod
  rw [hm'] at hzero
  obtain ⟨q, hq⟩ := Nat.dvd_of_mod_eq_zero hzero
  have hnext := next_bit (N := N) (j := i) (by omega)
  rw [← hbit, hm, hm', hq] at hnext
  have hyl' : (t.reg yl).toNat = 2 * q * 2 ^ m := by
    rw [hyl, hs.eq_yl, hm', hq, Nat.mul_div_cancel_left _ hpos, Nat.pow_succ]
    ring
  cases hcarry : t.c
  · rw [hcarry] at hnext hbit
    have hnext' : N / 2 ^ m = d * (2 * q) := by
      rw [hnext]
      simp only [Bool.toNat_false]
      ring
    refine .inl ⟨rfl, ?_, hxl, ?_, ?_, hyh, hr4, ?_⟩
    · rw [hip, show 32 - (i + 1) = m by omega]
    · rw [show 32 - (i + 1) = m by omega, hnext', Nat.mul_mod_right]
    · rw [show 32 - (i + 1) = m by omega, hnext', Nat.mul_div_cancel_left _ hpos, hyl']
    · intro h
      refine hs.nonzero (BitVec.eq_of_toNat_eq ?_)
      rw [← hs.eq_xl] at hbit
      simp only [Bool.toNat_false] at hbit
      rw [h] at hdouble
      simp only [BitVec.toNat_ofNat, Nat.zero_mod] at hdouble ⊢
      omega
  · rw [hcarry] at hnext
    have hnext' : N / 2 ^ m = 1 + d * (2 * q) := by
      rw [hnext]
      simp only [Bool.toNat_true]
      ring
    refine .inr ⟨rfl, ?_, hxl, ?_, ?_, hyh, hr4⟩
    · rw [hm, hip]
    · rw [hm, hnext', Nat.add_mul_mod_self_left, Nat.mod_eq_of_lt hd]
    · rw [hm, hnext', Nat.add_mul_div_left _ _ hpos, Nat.div_eq_of_lt hd, Nat.zero_add, hyl']

/-- At label 4, with `m` bits to come after the next one. -/
def AtFour (N d Y m : ℕ) (s : Cpu Reg) : Prop := ∃ j ≤ 31, m = 31 - j ∧ Lower N d Y j s

variable {m pc : ℕ}

/-- Where a bit has been consumed, the routine returns or goes back to label 4. -/
theorem consumed_gets
    (ih : ∀ k < m, Gets p 26 (AtFour N d Y k) (inCaller (LowerDone N d Y)))
    (hbne : At p pc [.b .ne 26]) (hret : At p (pc + 1) [.ret .al]) :
    Gets p pc (fun s => ∃ j ≤ 31, 31 - j ≤ m ∧ Consumed N d Y j s)
      (inCaller (LowerDone N d Y)) := by
  refine .branch hbne.get ?_ (.done hret.get ?_)
  · rintro s ⟨⟨j, hj, hm, hs⟩, hne⟩
    have hlt : j < 31 := lt_of_le_of_ne hj (by simpa [Cond.holds, hs.z] using hne)
    exact ih (31 - (j + 1)) (by omega) s ⟨j + 1, hlt, rfl, hs.next hlt⟩
  · rintro s ⟨⟨j, hj, -, hs⟩, hne⟩
    exact hs.done (by simpa [Cond.holds, hs.z] using hne)

/-- From label 7 on, where bits are skipped until one is set. -/
theorem skip_gets (hd : 1 < d)
    (ih : ∀ k < m, Gets p 26 (AtFour N d Y k) (inCaller (LowerDone N d Y)))
    (hat : At p 38 (List.flatten
      [[.movs .al xl (.lsl xl 1), .mov .al ip (.lsr ip 1)],
       [.b .cc 38],
       [.movs .al ip (.lsr ip 1), .mov .al xh (.imm 1)],
       [.b .ne 26],
       [.ret .al]])) :
    ∀ k, Gets p 38 (fun s => ∃ i, 31 - i ≤ m ∧ k = 32 - i ∧ Skip N d Y i s)
      (inCaller (LowerDone N d Y)) := by
  obtain ⟨h7, hat⟩ := At.flatten_cons.mp hat
  obtain ⟨hbcc, hat⟩ := At.flatten_cons.mp hat
  obtain ⟨hone, hat⟩ := At.flatten_cons.mp hat
  obtain ⟨hbne, hat⟩ := At.flatten_cons.mp hat
  obtain ⟨hret, -⟩ := At.flatten_cons.mp hat
  refine .loop fun k ihk => ?_
  refine .straight h7 rfl (R := fun t => ∃ i, i < 32 ∧ 31 - i ≤ m ∧ k = 32 - i ∧
    ((t.c = false ∧ Skip N d Y (i + 1) t) ∨ (t.c = true ∧ One N d Y i t))) ?_
    (.branch hbcc.get ?_ (.straight hone rfl ?_ (consumed_gets ih hbne hret)))
  · rintro s ⟨i, hm, hk, hs⟩
    exact ⟨i, hs.lt, hm, hk, hs.turn hd⟩
  · rintro s ⟨⟨i, hi, hm, hk, ⟨-, hs⟩ | ⟨hc, -⟩⟩, hcc⟩
    · exact ihk (32 - (i + 1)) (by omega) s ⟨i + 1, by omega, rfl, hs⟩
    · simp [Cond.holds, hc] at hcc
  · rintro s ⟨⟨i, hi, hm, -, ⟨hc, -⟩ | ⟨-, hs⟩⟩, hcc⟩
    · simp [Cond.holds, hc] at hcc
    · exact ⟨i, by omega, hm, hs.consume (by omega)⟩

/-- The loops at labels 4 and 7 end with the lower word of the quotient. -/
theorem lower_gets (hd : 1 < d)
    (hat : At p 26 (List.flatten
      [[.movs .al xl (.lsl xl 1), .adcs .al xh xh (.reg xh)],
       [.b .eq 35],
       [.cmp .cc xh (.reg r4)],
       [.orr .cs yl yl (.reg ip), .sub .cs xh xh (.reg r4), .movs .al ip (.lsr ip 1)],
       [.b .ne 26],
       [.ret .al],
       [.b .cs 30],
       [.cmp .al xl (.imm 0)],
       [.ret .eq],
       [.movs .al xl (.lsl xl 1), .mov .al ip (.lsr ip 1)],
       [.b .cc 38],
       [.movs .al ip (.lsr ip 1), .mov .al xh (.imm 1)],
       [.b .ne 26],
       [.ret .al]])) :
    Gets p 26 (Lower N d Y 0) (inCaller (LowerDone N d Y)) := by
  have hpos : 0 < d := by omega
  obtain ⟨h4, hat⟩ := At.flatten_cons.mp hat
  obtain ⟨hbeq, hat⟩ := At.flatten_cons.mp hat
  obtain ⟨hcmp, hat⟩ := At.flatten_cons.mp hat
  obtain ⟨h5, hat⟩ := At.flatten_cons.mp hat
  obtain ⟨hbne, hat⟩ := At.flatten_cons.mp hat
  obtain ⟨hret, hat⟩ := At.flatten_cons.mp hat
  obtain ⟨hbcs, hat⟩ := At.flatten_cons.mp hat
  obtain ⟨hcmp', hat⟩ := At.flatten_cons.mp hat
  obtain ⟨hret', h7⟩ := At.flatten_cons.mp hat
  have hloop : ∀ m, Gets p 26 (AtFour N d Y m) (inCaller (LowerDone N d Y)) := by
    refine Gets.loop fun m ih => ?_
    -- From label 5 on, where the carry says whether the divisor fits.
    have hfive : Gets p 30 (fun t => ∃ j ≤ 31, 31 - j ≤ m ∧ Shifted N d Y j t ∧
        t.c = decide (d ≤ extended N d j)) (inCaller (LowerDone N d Y)) := by
      refine .straight h5 rfl ?_ (consumed_gets ih hbne hret)
      rintro s ⟨j, hj, hm, hs, hc⟩
      exact ⟨j, hj, hm, hs.subtract hpos hj hc⟩
    refine .straight h4 rfl (R := fun t => ∃ j ≤ 31, m = 31 - j ∧ Shifted N d Y j t ∧
      t.c = decide (2 ^ 32 ≤ extended N d j) ∧ t.z = decide (extended N d j % 2 ^ 32 = 0)) ?_
      (.branch hbeq.get (.branch hbcs.get ?_ ?_) (.straight hcmp rfl ?_ hfive))
    · rintro s ⟨j, hj, hm, hs⟩
      exact ⟨j, hj, hm, hs.shift⟩
    · -- 6: the lower 32 bits are zero because the remainder has 33.
      refine hfive.strengthen ?_
      rintro s ⟨⟨⟨j, hj, hm, hs, hc, -⟩, -⟩, hcs⟩
      have hbig : 2 ^ 32 ≤ extended N d j := by simpa [Cond.holds, hc] using hcs
      have hdlt := (s.reg r4).isLt
      rw [hs.eq_r4] at hdlt
      exact ⟨j, hj, hm.ge, hs, by rw [hc, decide_eq_true hbig, decide_eq_true (by omega)]⟩
    · -- 6: the remainder is zero.
      refine .straight hcmp' rfl (R := fun t => ∃ j ≤ 31, m = 31 - j ∧ Shifted N d Y j t ∧
        extended N d j = 0 ∧ t.z = decide (t.reg xl = 0#32)) ?_ (.ret hret'.get ?_ ?_)
      · rintro s ⟨⟨⟨j, hj, hm, hs, hc, hz⟩, heq⟩, hcs⟩
        have h₁ : extended N d j < 2 ^ 32 := by simpa [Cond.holds, hc] using hcs
        have h₂ : extended N d j % 2 ^ 32 = 0 := by simpa [Cond.holds, hz] using heq
        rw [Nat.mod_eq_of_lt h₁] at h₂
        refine ⟨j, hj, hm, ⟨hs.eq_ip, hs.eq_xl, hs.eq_xh, hs.eq_yl, hs.eq_yh, hs.eq_r4⟩, h₂, ?_⟩
        simp [Cond.holds, Op.result, Operand.val, beq_eq_decide]
      · rintro s ⟨j, hj, hm, hs, hext, hz⟩ heq
        exact hs.done hpos hj hext (by simpa [Cond.holds, hz] using heq)
      · rintro s ⟨⟨j, hj, hm, hs, hext, hz⟩, hne⟩
        have hskip := hs.skip hpos hj hext (by simpa [Cond.holds, hz] using hne)
        exact skip_gets hd ih h7 (32 - (j + 1)) s ⟨j + 1, by omega, rfl, hskip⟩
    · rintro s ⟨⟨j, hj, hm, hs, hc, -⟩, -⟩
      exact ⟨j, hj, hm.ge, hs.compare hpos hc⟩
  exact fun s hs => hloop 31 s ⟨0, by omega, rfl, hs⟩

/-! ### A power of two -/

/-- The operands: the dividend is `X * 2 ^ 32 + L`. -/
structure Args64 (X L d : ℕ) (s : Cpu Reg) : Prop where
  eq_xh : (s.reg xh).toNat = X
  eq_xl : (s.reg xl).toNat = L
  eq_r4 : (s.reg r4).toNat = d

/-- What the routine leaves. The divisor is as it was. -/
structure Divided64 (N d : ℕ) (s : Cpu Reg) : Prop where
  quotient : (s.reg yh).toNat * 2 ^ 32 + (s.reg yl).toNat = N / d
  remainder : (s.reg xh).toNat = if d = 0 then 0 else N % d
  divisor : (s.reg r4).toNat = d

/-- The first step at label 8, which keeps the divisor in `r4`. -/
theorem order_start64 {e : ℕ} (h : (s.reg r4).toNat = 2 ^ e) (he : e < 32) :
    ∃ a < 16, Ordered yl ip e s.reg a
      (execAll [.mov .al yl (.reg r4), .cmp .al r4 (.imm 0x10000), .mov .al ip (.imm 0),
        .mov .hs yl (.lsr yl 16), .mov .hs ip (.imm 16)] s) := by
  have hc : (Op.sub.flags (s.set yl (s.reg r4)) (s.reg r4) (.imm 0x10000)).c =
      decide (2 ^ 16 ≤ 2 ^ e) := by
    rw [← h]; rfl
  have hreg : (Op.sub.flags (s.set yl (s.reg r4)) (s.reg r4) (.imm 0x10000)).reg =
      Function.update s.reg yl (s.reg r4) := rfl
  rw [show execAll [.mov .al yl (.reg r4), .cmp .al r4 (.imm 0x10000), .mov .al ip (.imm 0),
      .mov .hs yl (.lsr yl 16), .mov .hs ip (.imm 16)] s =
    execAll [.mov .al ip (.imm 0), .mov .hs yl (.lsr yl 16), .mov .hs ip (.imm 16)]
      (Op.sub.flags (s.set yl (s.reg r4)) (s.reg r4) (.imm 0x10000)) from rfl]
  generalize Op.sub.flags (s.set yl (s.reg r4)) (s.reg r4) (.imm 0x10000) = t at hc hreg
  by_cases hle : 16 ≤ e
  · rw [decide_eq_true (Nat.pow_le_pow_right (by omega) hle)] at hc
    refine ⟨e - 16, by omega, ?_, ?_, fun q h₁ h₂ => ?_⟩
    · obtain ⟨a, rfl⟩ : ∃ a, e = a + 16 := ⟨e - 16, by omega⟩
      simp [Cond.holds, hc, hreg, Op.result, Operand.val, h, Nat.shiftRight_eq_div_pow, Nat.pow_add]
    · simp [Cond.holds, hc, Op.result, Operand.val]
      omega
    · simp [Cond.holds, hc, hreg, h₁, h₂]
  · rw [decide_eq_false (not_le.mpr (Nat.pow_lt_pow_right (by omega) (not_le.mp hle)))] at hc
    refine ⟨e, by omega, ?_, ?_, fun q h₁ h₂ => ?_⟩
    · simp [Cond.holds, hc, hreg, h]
    · simp [Cond.holds, hc, Op.result, Operand.val]
    · simp [Cond.holds, hc, hreg, h₁, h₂]

/-- A double word divided by a power of two, in words. -/
theorem shift_double {e : ℕ} (he : e ≤ 32) (hL : L < 2 ^ 32) :
    X / 2 ^ e * 2 ^ 32 + (L / 2 ^ e ||| X * 2 ^ (32 - e) % 2 ^ 32) = (X * 2 ^ 32 + L) / 2 ^ e ∧
      L * 2 ^ (32 - e) % 2 ^ 32 / 2 ^ (32 - e) = (X * 2 ^ 32 + L) % 2 ^ e := by
  obtain ⟨f, hf⟩ : ∃ f, 32 - e = f := ⟨_, rfl⟩
  have hpow : 2 ^ 32 = 2 ^ e * 2 ^ f := by rw [← Nat.pow_add, ← hf, Nat.add_sub_cancel' he]
  have hN : X * 2 ^ 32 + L = L + 2 ^ e * (X * 2 ^ f) := by rw [hpow]; ring
  have hlow : L / 2 ^ e < 2 ^ f := Nat.div_lt_of_lt_mul (by rwa [← hpow])
  rw [hf, hN, Nat.add_mul_div_left _ _ (Nat.two_pow_pos e), Nat.add_mul_mod_self_left]
  constructor
  · have hX := Nat.div_add_mod X (2 ^ e)
    rw [hpow, Nat.mul_mod_mul_right, Nat.or_comm, ← Nat.shiftLeft_eq (X % 2 ^ e),
      ← Nat.shiftLeft_add_eq_or_of_lt hlow, Nat.shiftLeft_eq]
    calc X / 2 ^ e * (2 ^ e * 2 ^ f) + (X % 2 ^ e * 2 ^ f + L / 2 ^ e)
        = (2 ^ e * (X / 2 ^ e) + X % 2 ^ e) * 2 ^ f + L / 2 ^ e := by ring
      _ = L / 2 ^ e + X * 2 ^ f := by rw [hX, Nat.add_comm]
  · rw [hpow, Nat.mul_mod_mul_right, Nat.mul_div_cancel _ (Nat.two_pow_pos f)]

/-- The shifts at the end of label 8. -/
theorem shift_values {e : ℕ} (hs : Args64 X L (2 ^ e) s) (hip : (s.reg ip).toNat = e)
    (he : e < 32) :
    Divided64 (X * 2 ^ 32 + L) (2 ^ e)
      (execAll [.mov .al yh (.lsrBy xh ip), .mov .al yl (.lsrBy xl ip), .rsb .al ip ip (.imm 32),
        .orr .al yl yl (.lslBy xh ip), .mov .al xh (.lslBy xl ip), .mov .al xh (.lsrBy xh ip)] s) := by
  have hL := (s.reg xl).isLt
  rw [hs.eq_xl] at hL
  obtain ⟨hquot, hrem⟩ := shift_double (X := X) he.le hL
  have hby : amount (s.reg ip) = e := by rw [amount, hip, Nat.mod_eq_of_lt (by omega)]
  have hback : amount (32#32 - s.reg ip) = 32 - e := by
    rw [amount, BitVec.toNat_sub_of_le (by rw [BitVec.le_def, hip]; exact he.le), hip]
    exact Nat.mod_eq_of_lt (lt_of_le_of_lt (Nat.sub_le _ _) (by decide))
  refine ⟨?_, ?_, ?_⟩
  · rw [← hquot]
    simp [Cond.holds, Op.result, Operand.val, hby, hback, hs.eq_xh, hs.eq_xl,
      Nat.shiftRight_eq_div_pow, Nat.shiftLeft_eq]
  · rw [if_neg (Nat.two_pow_pos e).ne', ← hrem]
    simp [Cond.holds, Op.result, Operand.val, hback, hs.eq_xl, Nat.shiftRight_eq_div_pow,
      Nat.shiftLeft_eq]
  · simp [Cond.holds, hs.eq_r4]

/-! ### The whole routine -/

/-- The first two instructions: the cases of label 9, and the test for a power of two. -/
theorem first_gets (h9 : Gets doDiv64 66 (fun t => Args64 X L d t ∧ d < 2 ∧ t.z = decide (d = 1))
      (inCaller (Divided64 (X * 2 ^ 32 + L) d)))
    (h8 : ∀ e, 0 < e → d = 2 ^ e →
      Gets doDiv64 45 (Args64 X L d) (inCaller (Divided64 (X * 2 ^ 32 + L) d)))
    (hloop : 1 < d → Gets doDiv64 4 (Args64 X L d) (inCaller (Divided64 (X * 2 ^ 32 + L) d))) :
    Gets doDiv64 0 (Args64 X L d) (inCaller (Divided64 (X * 2 ^ 32 + L) d)) := by
  have hsubs : At doDiv64 0 [.subs .al ip r4 (.imm 1)] := ⟨doDiv64.drop 1, rfl⟩
  have htst : At doDiv64 2 [.tst .al ip (.reg r4)] := ⟨doDiv64.drop 3, rfl⟩
  refine .straight hsubs rfl (R := fun t => Args64 X L d t ∧ t.reg ip = t.reg r4 - 1#32 ∧
    t.z = decide (d = 1) ∧ t.c = decide (d ≠ 0)) ?_
    (.branch (show doDiv64[1]? = some (.b .ls 66) from rfl) ?_ ?_)
  · intro s hs
    refine ⟨⟨?_, ?_, ?_⟩, ?_, ?_, ?_⟩
    · simp [Cond.holds, hs.eq_xh]
    · simp [Cond.holds, hs.eq_xl]
    · simp [Cond.holds, hs.eq_r4]
    · simp [Cond.holds, Op.result, Operand.val]
    · simp [Cond.holds, Op.result, Operand.val, beq_sub_zero, ← BitVec.toNat_inj, hs.eq_r4]
    · simp [Cond.holds, Op.carry, Operand.val, one_le_iff, ← BitVec.toNat_inj, hs.eq_r4]
  · refine h9.strengthen ?_
    rintro s ⟨⟨hs, -, hz, hc⟩, hls⟩
    refine ⟨hs, ?_, hz⟩
    simp only [Cond.holds, hz, hc, Bool.or_eq_true, Bool.not_eq_true', decide_eq_false_iff_not,
      decide_eq_true_eq, not_not] at hls
    omega
  refine .straight htst rfl (R := fun t => Args64 X L d t ∧ 1 < d ∧
    (t.z = true → ∃ e, 0 < e ∧ d = 2 ^ e)) ?_
    (.branch (show doDiv64[3]? = some (.b .eq 45) from rfl) ?_ ?_)
  · rintro s ⟨⟨hs, hip, hz, hc⟩, hls⟩
    simp only [Cond.holds, hz, hc, Bool.or_eq_false_iff, Bool.not_eq_false', decide_eq_true_eq,
      decide_eq_false_iff_not] at hls
    have hd : 1 < d := by omega
    refine ⟨⟨?_, ?_, ?_⟩, hd, fun h => ?_⟩
    · simp [Cond.holds, hs.eq_xh]
    · simp [Cond.holds, hs.eq_xl]
    · simp [Cond.holds, hs.eq_r4]
    · have hand : s.reg r4 &&& (s.reg r4 - 1#32) = 0#32 := by
        rw [BitVec.and_comm]
        simpa [Cond.holds, Op.result, Operand.val, hip] using h
      obtain ⟨e, he⟩ := exists_two_pow (fun h0 => by
        rw [← hs.eq_r4, h0] at hd
        exact absurd hd (by decide)) hand
      rw [hs.eq_r4] at he
      refine ⟨e, Nat.pos_of_ne_zero ?_, he⟩
      rintro rfl
      omega
  · rintro s ⟨⟨hs, hd, hpow⟩, heq⟩
    obtain ⟨e, he, h⟩ := hpow heq
    exact h8 e he h s hs
  · rintro s ⟨⟨hs, hd, -⟩, -⟩
    exact hloop hd s hs

/-- The quotient in two parts. -/
theorem div_mod_double (hd : 0 < d) :
    X / d * 2 ^ 32 + (X % d * 2 ^ 32 + L) / d = (X * 2 ^ 32 + L) / d ∧
      (X % d * 2 ^ 32 + L) % d = (X * 2 ^ 32 + L) % d := by
  have hN : X * 2 ^ 32 + L = X % d * 2 ^ 32 + L + d * (X / d * 2 ^ 32) := by
    have hX := Nat.div_add_mod X d
    calc X * 2 ^ 32 + L = (d * (X / d) + X % d) * 2 ^ 32 + L := by rw [hX]
      _ = X % d * 2 ^ 32 + L + d * (X / d * 2 ^ 32) := by ring
  rw [hN, Nat.add_mul_div_left _ _ hd, Nat.add_mul_mod_self_left]
  exact ⟨Nat.add_comm .., rfl⟩

/-- The remainder is below the divisor already, or the lower word is divided as well. -/
theorem UpperDone.compare (hs : UpperDone X L d s) :
    let t := execAll [.cmp .al xh (.imm 0), .mov .al yl (.imm 0), .cmp .eq xl (.reg r4),
      .mov .lo xh (.reg xl)] s
    t.c = decide (¬ (X % d = 0 ∧ L < d)) ∧ t.reg yl = 0#32 ∧ (t.reg yh).toNat = X / d ∧
      (t.reg xl).toNat = L ∧ (t.reg r4).toNat = d ∧
      (t.reg xh).toNat = if X % d = 0 ∧ L < d then L else X % d := by
  have hz : (Op.sub.flags s (s.reg xh) (.imm 0)).z = decide (X % d = 0) := by
    rw [← hs.eq_xh, Op.z_flags, Op.result, Operand.val]
    simp [beq_eq_decide, ← BitVec.toNat_inj]
  have hc : (Op.sub.flags s (s.reg xh) (.imm 0)).c = true :=
    decide_eq_true (Nat.zero_le (s.reg xh).toNat)
  have hreg : (Op.sub.flags s (s.reg xh) (.imm 0)).reg = s.reg := rfl
  intro t
  have ht : t = execAll [.mov .al yl (.imm 0), .cmp .eq xl (.reg r4), .mov .lo xh (.reg xl)]
      (Op.sub.flags s (s.reg xh) (.imm 0)) := rfl
  generalize Op.sub.flags s (s.reg xh) (.imm 0) = w at hz hc hreg ht
  by_cases hmod : X % d = 0
  · rw [decide_eq_true hmod] at hz
    have hle : decide (s.reg r4 ≤ s.reg xl) = decide (¬ L < d) := by
      rw [decide_eq_decide, BitVec.le_def, hs.eq_r4, hs.eq_xl, not_lt]
    by_cases hlt : L < d
    · rw [decide_eq_false (not_not.mpr hlt)] at hle
      simp [ht, Cond.holds, hz, hreg, Op.carry, Op.result, Operand.val, hle, hmod, hlt,
        hs.eq_xl, hs.eq_yh, hs.eq_r4]
    · rw [decide_eq_true hlt] at hle
      simp [ht, Cond.holds, hz, hreg, Op.carry, Op.result, Operand.val, hle, hmod, hlt,
        hs.eq_xl, hs.eq_yh, hs.eq_r4, hs.eq_xh]
  · rw [decide_eq_false hmod] at hz
    simp [ht, Cond.holds, hz, hc, hreg, Op.result, Operand.val, hmod, hs.eq_xl, hs.eq_yh,
      hs.eq_r4, hs.eq_xh]

/-- From label 3 on. -/
theorem three_gets (hd : 1 < d) :
    Gets doDiv64 20 (UpperDone X L d) (inCaller (Divided64 (X * 2 ^ 32 + L) d)) := by
  obtain ⟨hquot, hrem⟩ := div_mod_double (X := X) (L := L) (d := d) (by omega)
  have hcmp : At doDiv64 20 [.cmp .al xh (.imm 0), .mov .al yl (.imm 0), .cmp .eq xl (.reg r4),
    .mov .lo xh (.reg xl)] := ⟨doDiv64.drop 24, rfl⟩
  have hmov : At doDiv64 25 [.mov .al ip (.imm 0x80000000)] := ⟨doDiv64.drop 26, rfl⟩
  have hlower := lower_gets (p := doDiv64) (N := X % d * 2 ^ 32 + L) (Y := X / d) hd
    ⟨doDiv64.drop 45, rfl⟩
  refine .straight hcmp rfl (R := fun t => L < 2 ^ 32 ∧
    t.c = decide (¬ (X % d = 0 ∧ L < d)) ∧ t.reg yl = 0#32 ∧ (t.reg yh).toNat = X / d ∧
    (t.reg xl).toNat = L ∧ (t.reg r4).toNat = d ∧
    (t.reg xh).toNat = if X % d = 0 ∧ L < d then L else X % d) ?_ (.ret (c := .lo) rfl ?_
    (.straight hmov rfl (R := Lower (X % d * 2 ^ 32 + L) d (X / d) 0) ?_ ?_))
  · intro s hs
    exact ⟨hs.eq_xl ▸ (s.reg xl).isLt, hs.compare⟩
  · rintro s ⟨-, hc, hyl, hyh, hxl, hr4, hxh⟩ hlo
    have hlt : X % d = 0 ∧ L < d := by simpa [Cond.holds, hc] using hlo
    rw [if_pos hlt] at hxh
    rw [hlt.1, Nat.zero_mul, Nat.zero_add, Nat.div_eq_of_lt hlt.2] at hquot
    rw [hlt.1, Nat.zero_mul, Nat.zero_add, Nat.mod_eq_of_lt hlt.2] at hrem
    refine ⟨?_, ?_, hr4⟩
    · rw [hyh, hyl, ← hquot]
      rfl
    · exact hxh.trans (hrem.trans (if_neg (by omega)).symm)
  · rintro s ⟨⟨hL, hc, hyl, hyh, hxl, hr4, hxh⟩, hlo⟩
    have hge : ¬ (X % d = 0 ∧ L < d) := by simpa [Cond.holds, hc] using hlo
    rw [if_neg hge] at hxh
    have hX := Nat.mod_lt X (show 0 < d by omega)
    have hhigh : (X % d * 2 ^ 32 + L) / 2 ^ 32 = X % d := by omega
    refine ⟨?_, ?_, ?_, ?_, ?_, ?_⟩
    · simp [Cond.holds, Op.result, Operand.val]
    · simp only [execAll_cons, execAll_nil, exec_alu, Cond.holds, if_true, Bool.false_eq_true,
        if_false, Cpu.reg_set_of_ne _ _ (show xl ≠ ip by decide), hxl]
      omega
    · rw [Nat.sub_zero, hhigh, Nat.mod_eq_of_lt hX, ← hxh]
      simp [Cond.holds]
    · rw [Nat.sub_zero, hhigh, Nat.div_eq_of_lt hX]
      simp [Cond.holds, hyl]
    · simp [Cond.holds, hyh]
    · simp [Cond.holds, hr4]
  · intro s hs
    obtain ⟨_ | t, ht, hdone⟩ := hlower s hs
    · exact hdone.elim
    · refine ⟨.returned t, ht, ?_, ?_, hdone.eq_r4⟩
      · rw [hdone.eq_yh, hdone.eq_yl, hquot]
      · rw [hdone.eq_xh, if_neg (by omega), hrem]

/-- 9: by one, which is the dividend, and by zero. -/
theorem nine_gets : Gets doDiv64 66 (fun t => Args64 X L d t ∧ d < 2 ∧ t.z = decide (d = 1))
    (inCaller (Divided64 (X * 2 ^ 32 + L) d)) := by
  have hone : At doDiv64 66 [.mov .eq yl (.reg xl), .mov .eq yh (.reg xh), .mov .eq xh (.imm 0)] :=
    ⟨doDiv64.drop 69, rfl⟩
  have hzero : At doDiv64 70 [.mov .al yl (.imm 0), .mov .al yh (.imm 0), .mov .al xh (.imm 0)] :=
    ⟨doDiv64.drop 73, rfl⟩
  refine .straight hone rfl (R := fun t => t.z = decide (d = 1) ∧ d < 2 ∧
    (t.reg r4).toNat = d ∧ (d = 1 → Divided64 (X * 2 ^ 32 + L) d t)) ?_
    (.ret (c := .eq) rfl ?_ (.straight hzero rfl (R := Divided64 (X * 2 ^ 32 + L) d) ?_
      (.done rfl fun _ hs => hs)))
  · rintro s ⟨hs, hd, hz⟩
    refine ⟨?_, hd, ?_, ?_⟩
    · cases h : s.z <;> simp [Cond.holds, h, ← hz]
    · cases h : s.z <;> simp [Cond.holds, h, hs.eq_r4]
    · rintro rfl
      refine ⟨?_, ?_, ?_⟩
      · simp [Cond.holds, hz, Op.result, Operand.val, hs.eq_xl, hs.eq_xh]
      · simp [Cond.holds, hz, Op.result, Operand.val, Nat.mod_one]
      · simp [Cond.holds, hz, hs.eq_r4]
  · rintro s ⟨hz, -, -, hs⟩ heq
    exact hs (by simpa [Cond.holds, hz] using heq)
  · rintro s ⟨⟨hz, hd, hr4, -⟩, hne⟩
    have hd' : d ≠ 1 := by simpa [Cond.holds, hz] using hne
    obtain rfl : d = 0 := by omega
    refine ⟨?_, ?_, ?_⟩
    · simp [Cond.holds, Op.result, Operand.val]
    · simp [Cond.holds, Op.result, Operand.val]
    · simpa [Cond.holds] using hr4

/-- 8: a shift. -/
theorem eight_gets (e : ℕ) : Gets doDiv64 45 (Args64 X L (2 ^ e))
    (inCaller (Divided64 (X * 2 ^ 32 + L) (2 ^ e))) := by
  have hat : At doDiv64 45 (List.flatten
      [[.mov .al yl (.reg r4), .cmp .al r4 (.imm 0x10000), .mov .al ip (.imm 0),
        .mov .hs yl (.lsr yl 16), .mov .hs ip (.imm 16)],
       [.cmp .al yl (.imm 0x100), .mov .hs yl (.lsr yl 8), .add .hs ip ip (.imm 8)],
       [.cmp .al yl (.imm 0x10), .mov .hs yl (.lsr yl 4), .add .hs ip ip (.imm 4)],
       [.cmp .al yl (.imm 4), .add .hi ip ip (.imm 3), .add .ls ip ip (.lsr yl 1)],
       [.mov .al yh (.lsrBy xh ip), .mov .al yl (.lsrBy xl ip), .rsb .al ip ip (.imm 32),
        .orr .al yl yl (.lslBy xh ip), .mov .al xh (.lslBy xl ip), .mov .al xh (.lsrBy xh ip)]]) :=
    ⟨doDiv64.drop 65, rfl⟩
  refine .straight hat rfl (R := Divided64 (X * 2 ^ 32 + L) (2 ^ e)) ?_ (.done rfl fun _ hs => hs)
  intro s hs
  have hlt : e < 32 := (Nat.pow_lt_pow_iff_right (by omega)).mp (hs.eq_r4 ▸ (s.reg r4).isLt)
  simp only [List.flatten_cons, List.flatten_nil, List.append_nil, execAll_append]
  obtain ⟨a, ha, h₁⟩ := order_start64 hs.eq_r4 hlt
  obtain ⟨b, hb, h₂⟩ := h₁.halve (m := 8) (w := 0x100) (v := 8) (by decide) (by omega) hlt
    (by decide) (by decide)
  obtain ⟨c, hc, h₃⟩ := h₂.halve (m := 4) (w := 0x10) (v := 4) (by decide) (by omega) hlt
    (by decide) (by decide)
  obtain ⟨hip, hframe⟩ := h₃.finish hc hlt
  refine shift_values ⟨?_, ?_, ?_⟩ hip hlt
  · rw [hframe xh (by decide) (by decide), hs.eq_xh]
  · rw [hframe xl (by decide) (by decide), hs.eq_xl]
  · rw [hframe r4 (by decide) (by decide), hs.eq_r4]

/-- The loops, the first of which is left out where the upper word is less than the divisor. -/
theorem loops_gets (hd : 1 < d) :
    Gets doDiv64 4 (Args64 X L d) (inCaller (Divided64 (X * 2 ^ 32 + L) d)) := by
  have hcmp : At doDiv64 4 [.cmp .al xh (.reg r4), .mov .al yh (.imm 0)] :=
    ⟨doDiv64.drop 6, rfl⟩
  have hmov : At doDiv64 7 [.mov .al yl (.reg r4), .mov .al ip (.imm 1)] :=
    ⟨doDiv64.drop 9, rfl⟩
  refine .straight hcmp rfl (R := fun t => Args64 X L d t ∧ t.reg yh = 0#32 ∧
    t.c = decide (d ≤ X)) ?_ (.branch (show doDiv64[6]? = some (.b .lo 20) from rfl) ?_
    (.straight hmov rfl (R := Raised X L d 0) ?_
      (upper_gets (by omega) ⟨doDiv64.drop 20, rfl⟩ (three_gets hd))))
  · intro s hs
    refine ⟨⟨?_, ?_, ?_⟩, ?_, ?_⟩
    · simp [Cond.holds, hs.eq_xh]
    · simp [Cond.holds, hs.eq_xl]
    · simp [Cond.holds, hs.eq_r4]
    · simp [Cond.holds, Op.result, Operand.val]
    · simp [Cond.holds, Op.carry, Operand.val, BitVec.le_def, hs.eq_xh, hs.eq_r4]
  · refine (three_gets hd).strengthen ?_
    rintro s ⟨⟨hs, hyh, hc⟩, hlo⟩
    have hlt : X < d := by simpa [Cond.holds, hc] using hlo
    refine ⟨?_, ?_, hs.eq_xl, hs.eq_r4⟩
    · rw [hs.eq_xh, Nat.mod_eq_of_lt hlt]
    · rw [hyh, Nat.div_eq_of_lt hlt]
      rfl
  · rintro s ⟨⟨hs, hyh, -⟩, -⟩
    refine ⟨?_, ?_, ?_, ?_, ?_, ?_⟩
    · simp [Cond.holds, Op.result, Operand.val, hs.eq_r4]
    · simp [Cond.holds, Op.result, Operand.val]
    · simp [Cond.holds, hs.eq_xh]
    · simp [Cond.holds, hyh]
    · simp [Cond.holds, hs.eq_xl]
    · simp [Cond.holds, hs.eq_r4]

theorem doDiv64_gets : Gets doDiv64 0 (Args64 X L d) (inCaller (Divided64 (X * 2 ^ 32 + L) d)) := by
  refine first_gets nine_gets ?_ loops_gets
  rintro e - rfl
  exact eight_gets e

/-- `__do_div64` returns for every dividend and every divisor, with the quotient in two words
and the remainder, and with the divisor still in `r4`. Division by zero gives zero for both. -/
theorem do_div64 (s : Cpu Reg) :
    let N := (s.reg xh).toNat * 2 ^ 32 + (s.reg xl).toNat
    ∃ t, Steps doDiv64 (.before 0 s) (.returned t) ∧
      (t.reg yh).toNat * 2 ^ 32 + (t.reg yl).toNat = N / (s.reg r4).toNat ∧
      (t.reg xh).toNat = (if s.reg r4 = 0#32 then 0 else N % (s.reg r4).toNat) ∧
      t.reg r4 = s.reg r4 := by
  obtain ⟨_ | t, ht, hres⟩ := doDiv64_gets s ⟨rfl, rfl, rfl⟩
  · exact hres.elim
  · refine ⟨t, ht, hres.quotient, ?_, BitVec.eq_of_toNat_eq hres.divisor⟩
    rw [hres.remainder]
    exact if_congr (BitVec.toNat_inj (y := 0#32)) rfl rfl

end S3c2440.Arith
