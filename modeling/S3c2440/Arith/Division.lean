import S3c2440.Arith.ModBody

/-!
# The division routines

The four routines of `lib1funcs.S`, from their entry to their return. Each treats apart a
divisor that is zero or one, a dividend that is not larger than the divisor, and a divisor that
is a power of two; `ARM_DIV_BODY` and `ARM_MOD_BODY` do the rest. The signed ones
divide the absolute values, and the absolute value of the least integer is right as an unsigned
word.

## What is proved

* `udivsi3_umodsi3` — the unsigned quotient and remainder.
* `divsi3_modsi3` — the signed ones, rounded towards zero, with the sign of the dividend on
  the remainder.
-/

namespace S3c2440.Arith

open Theory Theory.Arm Theory.Arm.Instr Reg

variable {n d f w : Word} {s : Cpu Reg}

/-! ### Where the routines are -/

theorem at_udivsi3 : At lib1funcs 0 udivsi3 := (At.flatten_cons.mp (At.whole _)).1

theorem at_umodsi3 : At lib1funcs 58 umodsi3 :=
  (At.flatten_cons.mp (At.flatten_cons.mp (At.whole _)).2).1

theorem at_divsi3 : At lib1funcs 105 divsi3 :=
  (At.flatten_cons.mp (At.flatten_cons.mp (At.flatten_cons.mp (At.whole _)).2).2).1

theorem at_modsi3 : At lib1funcs 175 modsi3 :=
  (At.flatten_cons.mp (At.flatten_cons.mp (At.flatten_cons.mp
    (At.flatten_cons.mp (At.whole _)).2).2).2).1

theorem at_ldiv0 : At lib1funcs 228 ldiv0 :=
  (At.flatten_cons.mp (At.flatten_cons.mp (At.flatten_cons.mp
    (At.flatten_cons.mp (At.flatten_cons.mp (At.whole _)).2).2).2).2).1

/-- What a routine leaves: its result in `r0`, and `r4` as the caller had it. -/
def Result (w f : Word) (t : Cpu Reg) : Prop := t.reg r0 = w ∧ t.reg r4 = f

theorem ldiv0_gets : Gets lib1funcs 228 (fun s => s.reg r4 = f) (inCaller (Result 0#32 f)) := by
  obtain ⟨hmov, hret⟩ := (At.append (a := [.mov .al r0 (.imm 0)])).mp at_ldiv0
  exact .straight hmov rfl (R := Result 0#32 f)
    (fun s hs => ⟨by simp [Cond.holds, Op.result, Operand.val], by simpa [Cond.holds] using hs⟩)
    (.done hret.get fun _ hs => hs)

/-! ### A power of two -/

/-- The test for a power of two. -/
theorem exists_two_pow (hd : d ≠ 0#32) (h : d &&& (d - 1#32) = 0#32) : ∃ e, d.toNat = 2 ^ e := by
  have hd' : d.toNat ≠ 0 := fun h => hd (BitVec.eq_of_toNat_eq h)
  refine (Nat.and_sub_one_eq_zero_iff_isPowerOfTwo hd').mp ?_
  have hnat := congrArg BitVec.toNat h
  rwa [BitVec.toNat_and, BitVec.toNat_sub_of_le (by rw [BitVec.le_def]; exact Nat.pos_of_ne_zero hd')]
    at hnat

theorem ushiftRight_eq_udiv {e : ℕ} (h : d.toNat = 2 ^ e) (hw : w.toNat = e) :
    n >>> amount w = n / d := by
  have he : e < 32 := (Nat.pow_lt_pow_iff_right (by omega)).mp (h ▸ d.isLt)
  apply BitVec.eq_of_toNat_eq
  rw [BitVec.toNat_ushiftRight, Nat.shiftRight_eq_div_pow, BitVec.toNat_udiv, h, amount, hw,
    Nat.mod_eq_of_lt (by omega)]

theorem and_eq_umod {e : ℕ} (h : d.toNat = 2 ^ e) : n &&& (d - 1#32) = n % d := by
  have hpos := Nat.two_pow_pos e
  apply BitVec.eq_of_toNat_eq
  rw [BitVec.toNat_and, BitVec.toNat_sub_of_le (by rw [BitVec.le_def, h]; exact hpos), h,
    BitVec.toNat_umod, h]
  exact Nat.and_two_pow_sub_one_eq_mod n.toNat e

/-! ### The unsigned routines -/

/-- The operands in their registers, and what the caller has in `r4`. -/
structure Args (n d f : Word) (s : Cpu Reg) : Prop where
  eq_dividend : s.reg r0 = n
  eq_divisor : s.reg r1 = d
  eq_frame : s.reg r4 = f

/-- The first instruction of both. -/
theorem Args.subs (hs : Args n d f s) :
    let t := execAll [.subs .al r2 r1 (.imm 1)] s
    Args n d f t ∧ t.reg r2 = d - 1#32 ∧ t.z = decide (d = 1#32) ∧ t.c = decide (d ≠ 0#32) := by
  intro t
  refine ⟨⟨?_, ?_, ?_⟩, ?_, ?_, ?_⟩
  · simp [t, Cond.holds, hs.eq_dividend]
  · simp [t, Cond.holds, hs.eq_divisor]
  · simp [t, Cond.holds, hs.eq_frame]
  · simp [t, Cond.holds, Op.result, Operand.val, hs.eq_divisor]
  · simp [t, Cond.holds, Op.result, Operand.val, hs.eq_divisor, beq_sub_zero]
  · simp [t, Cond.holds, Op.carry, Operand.val, hs.eq_divisor, one_le_iff]

theorem Args.compare (hs : Args n d f s) :
    let t := execAll [.cmp .al r0 (.reg r1)] s
    Args n d f t ∧ t.reg r2 = s.reg r2 ∧ t.z = decide (n = d) ∧ t.c = decide (d ≤ n) := by
  intro t
  refine ⟨⟨hs.eq_dividend, hs.eq_divisor, hs.eq_frame⟩, rfl, ?_, ?_⟩
  · simp [t, Cond.holds, Op.result, Operand.val, hs.eq_dividend, hs.eq_divisor, beq_sub_zero]
  · simp [t, Cond.holds, Op.carry, Operand.val, hs.eq_dividend, hs.eq_divisor]

/-- 11: the quotient is one or zero. -/
theorem Args.small (hs : Args n d f s) (hd : d ≠ 0#32) (hz : s.z = decide (n = d))
    (hcarry : s.c = decide (d ≤ n)) (hc : Cond.ls.holds s = true) :
    Result (n / d) f (execAll [.mov .eq r0 (.imm 1), .mov .ne r0 (.imm 0)] s) := by
  by_cases h : n = d
  · subst h
    refine ⟨?_, ?_⟩
    · simp [Cond.holds, hz, Op.result, Operand.val, BitVec.udiv_self, hd]
    · simp [Cond.holds, hz, hs.eq_frame]
  · have hlt : n < d := by
      simp only [Cond.holds, hz, hcarry, h, decide_false, Bool.or_false, Bool.not_eq_true',
        decide_eq_false_iff_not] at hc
      exact BitVec.not_le.mp hc
    refine ⟨?_, ?_⟩
    · simp [Cond.holds, hz, h, Op.result, Operand.val]
      exact (BitVec.udiv_eq_zero_iff_eq_zero_or_lt.mpr (.inr hlt)).symm
    · simp [Cond.holds, hz, h, hs.eq_frame]

theorem udivsi3_gets : Gets lib1funcs udivsi3At (Args n d f) (inCaller (Result (n / d) f)) := by
  obtain ⟨hsubs, hat⟩ := At.flatten_cons.mp at_udivsi3
  obtain ⟨hret, hat⟩ := At.flatten_cons.mp hat
  obtain ⟨hbcc, hat⟩ := At.flatten_cons.mp hat
  obtain ⟨hcmp, hat⟩ := At.flatten_cons.mp hat
  obtain ⟨hbls, hat⟩ := At.flatten_cons.mp hat
  obtain ⟨htst, hat⟩ := At.flatten_cons.mp hat
  obtain ⟨hbeq, hat⟩ := At.flatten_cons.mp hat
  obtain ⟨hbody, hat⟩ := At.flatten_cons.mp hat
  obtain ⟨hmov, hat⟩ := At.flatten_cons.mp hat
  obtain ⟨hret', hat⟩ := At.flatten_cons.mp hat
  obtain ⟨h11, hat⟩ := At.flatten_cons.mp hat
  obtain ⟨hret11, hat⟩ := At.flatten_cons.mp hat
  obtain ⟨h12, hat⟩ := At.flatten_cons.mp hat
  obtain ⟨hlsr, hat⟩ := At.flatten_cons.mp hat
  obtain ⟨hret12, -⟩ := At.flatten_cons.mp hat
  refine .straight hsubs rfl (R := fun t => Args n d f t ∧ t.reg r2 = d - 1#32 ∧
    t.z = decide (d = 1#32) ∧ t.c = decide (d ≠ 0#32)) (fun s hs => hs.subs) ?_
  refine .ret hret.get ?_ ?_
  · rintro s ⟨hs, -, hz, -⟩ hc
    obtain rfl : d = 1#32 := by simpa [Cond.holds, hz] using hc
    exact ⟨by rw [hs.eq_dividend, BitVec.udiv_one], hs.eq_frame⟩
  refine .branch hbcc.get ?_ ?_
  · rintro s ⟨⟨⟨hs, -, -, hcarry⟩, -⟩, hc⟩
    obtain rfl : d = 0#32 := by simpa [Cond.holds, hcarry] using hc
    rw [BitVec.udiv_zero]
    exact ldiv0_gets s hs.eq_frame
  refine .straight hcmp rfl (R := fun t => Args n d f t ∧ t.reg r2 = d - 1#32 ∧ d ≠ 0#32 ∧
    t.z = decide (n = d) ∧ t.c = decide (d ≤ n)) ?_ ?_
  · rintro s ⟨⟨⟨hs, h2, -, hcarry⟩, -⟩, hc⟩
    obtain ⟨hs', h2', hflags⟩ := hs.compare
    exact ⟨hs', h2'.trans h2, by simpa [Cond.holds, hcarry] using hc, hflags⟩
  refine .branch hbls.get ?_ ?_
  · refine .straight h11 rfl (R := Result (n / d) f) ?_ (.done hret11.get fun _ hs => hs)
    rintro s ⟨⟨hs, -, hd, hz, hcarry⟩, hc⟩
    exact hs.small hd hz hcarry hc
  refine .straight htst rfl (R := fun t => Args n d f t ∧ d ≠ 0#32 ∧
    t.z = decide (d &&& (d - 1#32) = 0#32)) ?_ ?_
  · rintro s ⟨⟨hs, h2, hd, -⟩, -⟩
    refine ⟨⟨hs.eq_dividend, hs.eq_divisor, hs.eq_frame⟩, hd, ?_⟩
    simp only [execAll_cons, execAll_nil, exec_test, Cond.holds, if_true, Op.z_flags, Op.result,
      Operand.val, hs.eq_divisor, h2]
    rfl
  refine .branch hbeq.get ?_ ?_
  · -- 12: a shift.
    refine .straight h12 rfl (R := fun t => t.reg r0 = n ∧ t.reg r4 = f ∧
      ∃ e, d.toNat = 2 ^ e ∧ (t.reg r2).toNat = e) ?_ ?_
    · rintro s ⟨⟨hs, hd, hz⟩, hc⟩
      obtain ⟨e, he⟩ := exists_two_pow hd (by simpa [Cond.holds, hz] using hc)
      obtain ⟨hord, hframe⟩ := armDiv2Order_spec (s := s) (show r1 ≠ r2 by decide)
        (by rw [hs.eq_divisor, he])
      exact ⟨(hframe r0 (by decide) (by decide)).trans hs.eq_dividend,
        (hframe r4 (by decide) (by decide)).trans hs.eq_frame, e, he, hord⟩
    refine .straight hlsr rfl (R := Result (n / d) f) ?_ (.done hret12.get fun _ hs => hs)
    rintro s ⟨h0, h4, e, he, hord⟩
    exact ⟨by simp [Cond.holds, Op.result, Operand.val, h0, ushiftRight_eq_udiv he hord],
      by simp [Cond.holds, h4]⟩
  · rintro s ⟨⟨hs, hd, -⟩, -⟩
    have hpos : 0 < (s.reg r1).toNat := by
      rw [hs.eq_divisor]
      exact Nat.pos_of_ne_zero fun h => hd (BitVec.eq_of_toNat_eq h)
    have hquot := armDivBody_gets (u := s.reg) hpos (by decide) hbody
    refine (hquot.trans (.straight hmov rfl (R := Result (n / d) f) ?_
      (.done hret'.get fun _ ht => ht))) s rfl
    intro t ht
    refine ⟨?_, ?_⟩
    · simp only [execAll_cons, execAll_nil, exec_alu, Cond.holds, if_true, Bool.false_eq_true,
        if_false, Op.result, Operand.val, Cpu.reg_set_self]
      apply BitVec.eq_of_toNat_eq
      rw [ht.quotient, hs.eq_dividend, hs.eq_divisor, BitVec.toNat_udiv]
    · simp [Cond.holds, ht.frame r4 (by decide) (by decide) (by decide) (by decide), hs.eq_frame]

/-- The cases that need no loop, with the flags of `d - 1` before them: where `ls` holds
afterwards, the remainder is there. -/
theorem easy_spec (h0 : s.reg r0 = n) (h1 : s.reg r1 = d) (h2 : s.reg r2 = d - 1#32)
    (hd : d ≠ 0#32) (hz : s.z = decide (d = 1#32)) :
    let t := execAll [.cmp .ne r0 (.reg r1), .mov .eq r0 (.imm 0), .tst .hi r1 (.reg r2),
      .and .eq r0 r0 (.reg r2)] s
    (∀ q, q ≠ r0 → t.reg q = s.reg q) ∧
      (Cond.ls.holds t = true ∧ t.reg r0 = n % d ∨ Cond.ls.holds t = false ∧ t.reg r0 = n) := by
  intro t
  by_cases hone : d = 1#32
  · rw [decide_eq_true hone] at hz
    subst hone
    exact ⟨fun q hq => by simp [t, Cond.holds, hz, hq],
      .inl ⟨by simp [t, Cond.holds, hz], by simp [t, Cond.holds, hz, Op.result, Operand.val]⟩⟩
  rw [decide_eq_false hone] at hz
  have hz' : (Op.sub.flags s (s.reg r0) (.reg r1)).z = decide (n = d) := by
    simp [Op.result, Operand.val, h0, h1, beq_sub_zero]
  have hc' : (Op.sub.flags s (s.reg r0) (.reg r1)).c = decide (d ≤ n) := by
    simp [Op.carry, Operand.val, h0, h1]
  have hreg : (Op.sub.flags s (s.reg r0) (.reg r1)).reg = s.reg := rfl
  have ht : t = execAll [.mov .eq r0 (.imm 0), .tst .hi r1 (.reg r2), .and .eq r0 r0 (.reg r2)]
      (Op.sub.flags s (s.reg r0) (.reg r1)) := by
    simp [t, Cond.holds, hz]
  generalize Op.sub.flags s (s.reg r0) (.reg r1) = w at hz' hc' hreg ht
  by_cases heq : n = d
  · subst heq
    simp only [decide_true] at hz'
    exact ⟨fun q hq => by simp [ht, Cond.holds, hz', hreg, hq],
      .inl ⟨by simp [ht, Cond.holds, hz'],
        by simp [ht, Cond.holds, hz', Op.result, Operand.val, BitVec.umod_self]⟩⟩
  rw [decide_eq_false heq] at hz'
  by_cases hle : d ≤ n
  · rw [decide_eq_true hle] at hc'
    have hz'' : (Op.and.flags w (s.reg r1) (.reg r2)).z = decide (d &&& (d - 1#32) = 0#32) := by
      simp only [Op.z_flags, Op.result, Operand.val, hreg, h1, h2]
      rfl
    have hc'' : (Op.and.flags w (s.reg r1) (.reg r2)).c = true := by
      simp [Op.carry, Operand.carry, hc']
    have hreg'' : (Op.and.flags w (s.reg r1) (.reg r2)).reg = s.reg := hreg
    have ht' : t = execAll [.and .eq r0 r0 (.reg r2)] (Op.and.flags w (s.reg r1) (.reg r2)) := by
      simp [ht, Cond.holds, hz', hc', hreg]
    generalize Op.and.flags w (s.reg r1) (.reg r2) = x at hz'' hc'' hreg'' ht'
    by_cases hpow : d &&& (d - 1#32) = 0#32
    · obtain ⟨e, he⟩ := exists_two_pow hd hpow
      rw [decide_eq_true hpow] at hz''
      exact ⟨fun q hq => by simp [ht', Cond.holds, hz'', hreg'', hq],
        .inl ⟨by simp [ht', Cond.holds, hz''],
          by simp [ht', Cond.holds, hz'', hreg'', Op.result, Operand.val, h0, h2, and_eq_umod he]⟩⟩
    · rw [decide_eq_false hpow] at hz''
      exact ⟨fun q _ => by simp [ht', Cond.holds, hz'', hreg''],
        .inr ⟨by simp [ht', Cond.holds, hz'', hc''], by simp [ht', Cond.holds, hz'', hreg'', h0]⟩⟩
  · rw [decide_eq_false hle] at hc'
    exact ⟨fun q _ => by simp [ht, Cond.holds, hz', hc', hreg],
      .inl ⟨by simp [ht, Cond.holds, hz', hc'],
        by simp [ht, Cond.holds, hz', hc', hreg, h0, BitVec.umod_eq_of_lt (BitVec.not_le.mp hle)]⟩⟩

/-- `%`, but zero for a divisor that is zero. -/
def umod (n d : Word) : Word := if d = 0#32 then 0#32 else n % d

theorem umodsi3_gets : Gets lib1funcs umodsi3At (Args n d f) (inCaller (Result (umod n d) f)) := by
  obtain ⟨hsubs, hat⟩ := At.flatten_cons.mp at_umodsi3
  obtain ⟨hbcc, hat⟩ := At.flatten_cons.mp hat
  obtain ⟨heasy, hat⟩ := At.flatten_cons.mp hat
  obtain ⟨hret, hat⟩ := At.flatten_cons.mp hat
  obtain ⟨hbody, hat⟩ := At.flatten_cons.mp hat
  obtain ⟨hret', -⟩ := At.flatten_cons.mp hat
  refine .straight hsubs rfl (R := fun t => Args n d f t ∧ t.reg r2 = d - 1#32 ∧
    t.z = decide (d = 1#32) ∧ t.c = decide (d ≠ 0#32)) (fun s hs => hs.subs) ?_
  refine .branch hbcc.get ?_ ?_
  · rintro s ⟨⟨hs, -, -, hcarry⟩, hc⟩
    obtain rfl : d = 0#32 := by simpa [Cond.holds, hcarry] using hc
    rw [umod, if_pos rfl]
    exact ldiv0_gets s hs.eq_frame
  refine .straight heasy rfl (R := fun t => d ≠ 0#32 ∧ t.reg r1 = d ∧ t.reg r4 = f ∧
    (Cond.ls.holds t = true ∧ t.reg r0 = n % d ∨ Cond.ls.holds t = false ∧ t.reg r0 = n)) ?_ ?_
  · rintro s ⟨⟨hs, h2, hz, hcarry⟩, hc⟩
    have hd : d ≠ 0#32 := by simpa [Cond.holds, hcarry] using hc
    obtain ⟨hframe, hres⟩ := easy_spec hs.eq_dividend hs.eq_divisor h2 hd hz
    exact ⟨hd, (hframe r1 (by decide)).trans hs.eq_divisor,
      (hframe r4 (by decide)).trans hs.eq_frame, hres⟩
  refine .ret hret.get ?_ ?_
  · rintro s ⟨hd, -, h4, ⟨-, h0⟩ | ⟨hls, -⟩⟩ hc
    · exact ⟨by rw [h0, umod, if_neg hd], h4⟩
    · rw [hls] at hc; cases hc
  rintro s ⟨⟨hd, h1, h4, ⟨hls, -⟩ | ⟨-, h0⟩⟩, hc⟩
  · rw [hls] at hc; cases hc
  have hpos : 0 < (s.reg r1).toNat := by
    rw [h1]
    exact Nat.pos_of_ne_zero fun h => hd (BitVec.eq_of_toNat_eq h)
  have hrem := armModBody_gets (u := s.reg) hpos (by decide) hbody
  refine (hrem.trans (.done hret'.get ?_)) s rfl
  intro t ht
  refine ⟨?_, ?_⟩
  · apply BitVec.eq_of_toNat_eq
    rw [ht.remainder, h0, h1, umod, if_neg hd, BitVec.toNat_umod]
  · rw [ht.frame r4 (by decide) (by decide) (by decide), h4]

/-- Both unsigned routines return, for every dividend and every divisor, with the quotient and
the remainder, which are zero if the divisor is, and give `r4` back to the caller. -/
theorem udivsi3_umodsi3 (s : Cpu Reg) :
    (∃ t, Steps lib1funcs (.before udivsi3At s) (.returned t) ∧
      t.reg r0 = s.reg r0 / s.reg r1 ∧ t.reg r4 = s.reg r4) ∧
    ∃ t, Steps lib1funcs (.before umodsi3At s) (.returned t) ∧
      t.reg r0 = (if s.reg r1 = 0#32 then 0#32 else s.reg r0 % s.reg r1) ∧
      t.reg r4 = s.reg r4 := by
  constructor
  · obtain ⟨_ | t, ht, hres⟩ := udivsi3_gets s ⟨rfl, rfl, rfl⟩
    · exact hres.elim
    · exact ⟨t, ht, hres⟩
  · obtain ⟨_ | t, ht, hres⟩ := umodsi3_gets s ⟨rfl, rfl, rfl⟩
    · exact hres.elim
    · exact ⟨t, ht, hres⟩

/-! ### The signed routines -/

/-- `rsbmi` of a quotient or a remainder: the sign `w` is given back. -/
def signed (w q : Word) : Word := if w.msb then -q else q

theorem sdiv_eq_abs (n d : Word) : n.sdiv d = signed (n ^^^ d) (n.abs / d.abs) := by
  rw [BitVec.sdiv_eq, signed, BitVec.msb_xor, BitVec.abs_eq, BitVec.abs_eq]
  cases n.msb <;> cases d.msb <;> simp

theorem srem_eq_abs (n d : Word) : n.srem d = signed n (n.abs % d.abs) := by
  rw [BitVec.srem_eq, signed, BitVec.abs_eq, BitVec.abs_eq]
  cases n.msb <;> cases d.msb <;> simp

theorem abs_eq_zero_iff (d : Word) : d.abs = 0#32 ↔ d = 0#32 := by
  rw [BitVec.abs_eq]
  split
  · constructor
    · intro h
      rw [← BitVec.neg_neg (x := d), h]
      rfl
    · rintro rfl
      rfl
  · rfl

/-- The operands of a signed routine: `r1` is the absolute value of the divisor by now. -/
structure SArgs (n d f : Word) (s : Cpu Reg) : Prop where
  eq_dividend : s.reg r0 = n
  eq_divisor : s.reg r1 = d.abs
  eq_frame : s.reg r4 = f
  nonzero : d.abs ≠ 0#32

/-- The end of the signed division: the sign of the quotient is in `ip`. -/
theorem sign_spec (w q : Word) (hip : s.reg ip = w) (h0 : s.reg r0 = q) :
    let t := execAll [.cmp .al ip (.imm 0), .rsb .mi r0 r0 (.imm 0)] s
    t.reg r0 = signed w q ∧ t.reg r4 = s.reg r4 := by
  intro t
  have hn : (Op.sub.flags s (s.reg ip) (.imm 0)).n = w.msb := by
    simp [Op.result, Operand.val, hip]
  have hreg : (Op.sub.flags s (s.reg ip) (.imm 0)).reg = s.reg := rfl
  have ht : t = execAll [.rsb .mi r0 r0 (.imm 0)] (Op.sub.flags s (s.reg ip) (.imm 0)) := rfl
  generalize Op.sub.flags s (s.reg ip) (.imm 0) = x at hn hreg ht
  cases h : w.msb <;> rw [h] at hn <;>
    simp [ht, Cond.holds, hn, hreg, signed, h, h0, Op.result, Operand.val]

/-- `rsbmi` after an instruction that has left the sign of the register in the flags. -/
theorem abs_spec {r q : Reg} {v : Word} (hn : s.n = v.msb) (hv : s.reg q = v) (hr : s.reg r = v) :
    (Instr.exec s (.rsb .mi r q (.imm 0))).reg = Function.update s.reg r v.abs := by
  rw [BitVec.abs_eq]
  cases h : v.msb <;> rw [h] at hn
  · simp [Cond.holds, hn, ← hr]
  · simp [Cond.holds, hn, hv, Op.result, Operand.val, Cpu.reg_set_eq]

/-- `asr #31` and `orr #1`: one, with a sign. -/
theorem sign_or_one (w : Word) : w.sshiftRight 31 ||| 1#32 = signed w 1#32 := by
  have small : ∀ v : Word, v.msb = false → v >>> 31 = 0#32 := by
    intro v hv
    apply BitVec.eq_of_toNat_eq
    have hlt : v.toNat < 2 ^ 31 := by
      have := BitVec.msb_eq_false_iff_two_mul_lt.mp hv
      omega
    rw [BitVec.toNat_ushiftRight, Nat.shiftRight_eq_div_pow, Nat.div_eq_of_lt hlt]
    rfl
  rw [signed]
  cases h : w.msb
  · rw [BitVec.sshiftRight_eq_of_msb_false h, small w h]
    rfl
  · rw [BitVec.sshiftRight_eq_of_msb_true h, small (~~~w) (by simp [h])]
    rfl

/-- The sign of the quotient. -/
theorem Args.sign (hs : Args n d f s) :
    let t := execAll [.cmp .al r1 (.imm 0), .eor .al ip r0 (.reg r1)] s
    Args n d f t ∧ t.reg ip = n ^^^ d ∧ t.z = decide (d = 0#32) ∧ t.n = d.msb := by
  intro t
  refine ⟨⟨?_, ?_, ?_⟩, ?_, ?_, ?_⟩
  · simp [t, Cond.holds, hs.eq_dividend]
  · simp [t, Cond.holds, hs.eq_divisor]
  · simp [t, Cond.holds, hs.eq_frame]
  · simp [t, Cond.holds, Op.result, Operand.val, hs.eq_dividend, hs.eq_divisor]
  · simp [t, Cond.holds, Op.result, Operand.val, hs.eq_divisor, beq_eq_decide]
  · simp [t, Cond.holds, Op.result, Operand.val, hs.eq_divisor]

/-- The absolute value of the divisor, and whether it is one. -/
theorem Args.abs (hs : Args n d f s) (hn : s.n = d.msb) (hd : d ≠ 0#32) :
    let t := execAll [.rsb .mi r1 r1 (.imm 0), .subs .al r2 r1 (.imm 1)] s
    SArgs n d f t ∧ t.reg ip = s.reg ip ∧ t.reg r2 = d.abs - 1#32 ∧
      t.z = decide (d.abs = 1#32) := by
  have hreg := abs_spec hn hs.eq_divisor hs.eq_divisor
  dsimp only
  rw [execAll_cons]
  generalize Instr.exec s _ = w at hreg
  refine ⟨⟨?_, ?_, ?_, fun h => hd ((abs_eq_zero_iff d).mp h)⟩, ?_, ?_, ?_⟩
  · simp [Cond.holds, hreg, hs.eq_dividend]
  · simp [Cond.holds, hreg]
  · simp [Cond.holds, hreg, hs.eq_frame]
  · simp [Cond.holds, hreg]
  · simp [Cond.holds, hreg, Op.result, Operand.val]
  · simp [Cond.holds, hreg, Op.result, Operand.val, beq_sub_zero]

/-- 10: the divisor is one or minus one. -/
theorem SArgs.by_one (hs : SArgs n d f s) (hip : s.reg ip = n ^^^ d) (hone : d.abs = 1#32) :
    Result (n.sdiv d) f (execAll [.teq .al ip (.reg r0), .rsb .mi r0 r0 (.imm 0)] s) := by
  have hn : (Op.eor.flags s (s.reg ip) (.reg r0)).n = d.msb := by
    simp only [Op.n_flags, Op.result, Operand.val, hip, hs.eq_dividend, BitVec.msb_xor]
    cases n.msb <;> cases d.msb <;> rfl
  have hreg : (Op.eor.flags s (s.reg ip) (.reg r0)).reg = s.reg := rfl
  rw [execAll_cons, exec_test, if_pos (show Cond.al.holds s = true from rfl)]
  generalize Op.eor.flags s (s.reg ip) (.reg r0) = x at hn hreg
  rw [sdiv_eq_abs, hone, BitVec.udiv_one, signed, BitVec.msb_xor, BitVec.abs_eq]
  constructor
  · cases h : d.msb <;> cases h' : n.msb <;> rw [h] at hn <;>
      simp [Cond.holds, hn, hreg, Op.result, Operand.val, hs.eq_dividend]
  · cases h : d.msb <;> rw [h] at hn <;> simp [Cond.holds, hn, hreg, hs.eq_frame]

/-- The absolute value of the dividend, compared with that of the divisor. -/
theorem SArgs.compare (hs : SArgs n d f s) :
    let t := execAll [.movs .al r3 (.reg r0), .rsb .mi r3 r0 (.imm 0), .cmp .al r3 (.reg r1)] s
    SArgs n d f t ∧ t.reg ip = s.reg ip ∧ t.reg r2 = s.reg r2 ∧ t.reg r3 = n.abs ∧
      t.z = decide (n.abs = d.abs) ∧ t.c = decide (d.abs ≤ n.abs) := by
  dsimp only
  rw [execAll_cons]
  have hn : (Instr.exec s (.movs .al r3 (.reg r0))).n = n.msb := by
    simp [Cond.holds, Op.result, Operand.val, hs.eq_dividend]
  have hmov : (Instr.exec s (.movs .al r3 (.reg r0))).reg = Function.update s.reg r3 n := by
    simp [Cond.holds, Op.result, Operand.val, hs.eq_dividend, Cpu.reg_set_eq]
  generalize Instr.exec s _ = w at hn hmov
  have hreg := abs_spec (r := r3) (q := r0) hn (by simp [hmov, hs.eq_dividend]) (by simp [hmov])
  rw [hmov] at hreg
  rw [execAll_cons]
  generalize Instr.exec w _ = x at hreg
  refine ⟨⟨?_, ?_, ?_, hs.nonzero⟩, ?_, ?_, ?_, ?_, ?_⟩
  · simp [Cond.holds, hreg, hs.eq_dividend]
  · simp [Cond.holds, hreg, hs.eq_divisor]
  · simp [Cond.holds, hreg, hs.eq_frame]
  · simp [Cond.holds, hreg]
  · simp [Cond.holds, hreg]
  · simp [Cond.holds, hreg]
  · simp [Cond.holds, hreg, Op.result, Operand.val, hs.eq_divisor, beq_sub_zero]
  · simp [Cond.holds, hreg, Op.carry, Operand.val, hs.eq_divisor]

/-- 11: the quotient is one, minus one or zero. -/
theorem SArgs.small (hs : SArgs n d f s) (hip : s.reg ip = n ^^^ d)
    (hz : s.z = decide (n.abs = d.abs)) (hcarry : s.c = decide (d.abs ≤ n.abs))
    (hc : Cond.ls.holds s = true) :
    Result (n.sdiv d) f (execAll [.mov .lo r0 (.imm 0), .mov .eq r0 (.asr ip 31),
      .orr .eq r0 r0 (.imm 1)] s) := by
  rw [sdiv_eq_abs]
  by_cases h : n.abs = d.abs
  · rw [decide_eq_true h] at hz
    rw [decide_eq_true (h ▸ BitVec.le_refl _)] at hcarry
    rw [h, BitVec.udiv_self, if_neg (by simpa using hs.nonzero), ← sign_or_one]
    exact ⟨by simp [Cond.holds, hz, hcarry, Op.result, Operand.val, hip],
      by simp [Cond.holds, hz, hcarry, hs.eq_frame]⟩
  · have hlt : n.abs < d.abs := by
      simp only [Cond.holds, hz, hcarry, h, decide_false, Bool.or_false, Bool.not_eq_true',
        decide_eq_false_iff_not] at hc
      exact BitVec.not_le.mp hc
    rw [decide_eq_false h] at hz
    rw [decide_eq_false (BitVec.not_le.mpr hlt)] at hcarry
    rw [BitVec.udiv_eq_zero_iff_eq_zero_or_lt.mpr (.inr hlt), signed]
    exact ⟨by simp [Cond.holds, hz, hcarry, Op.result, Operand.val],
      by simp [Cond.holds, hz, hcarry, hs.eq_frame]⟩

/-- 12: a shift, and the sign. -/
theorem shift_spec {e : ℕ} (hip : s.reg ip = n ^^^ d) (h3 : s.reg r3 = n.abs)
    (h4 : s.reg r4 = f) (he : d.abs.toNat = 2 ^ e) (hord : (s.reg r2).toNat = e) :
    Result (n.sdiv d) f (execAll [.cmp .al ip (.imm 0), .mov .al r0 (.lsrBy r3 r2),
      .rsb .mi r0 r0 (.imm 0)] s) := by
  have hn : (Op.sub.flags s (s.reg ip) (.imm 0)).n = (n ^^^ d).msb := by
    simp [Op.result, Operand.val, hip]
  have hreg : (Op.sub.flags s (s.reg ip) (.imm 0)).reg = s.reg := rfl
  rw [execAll_cons, exec_test, if_pos (show Cond.al.holds s = true from rfl), sdiv_eq_abs, signed]
  generalize Op.sub.flags s (s.reg ip) (.imm 0) = x at hn hreg
  constructor
  · cases h : (n ^^^ d).msb <;> rw [h] at hn <;>
      simp [Cond.holds, hn, hreg, Op.result, Operand.val, h3, ushiftRight_eq_udiv he hord]
  · cases h : (n ^^^ d).msb <;> rw [h] at hn <;> simp [Cond.holds, hn, hreg, h4]

theorem divsi3_gets :
    Gets lib1funcs divsi3At (Args n d f) (inCaller (Result (n.sdiv d) f)) := by
  obtain ⟨hsign, hat⟩ := At.flatten_cons.mp at_divsi3
  obtain ⟨hbeq, hat⟩ := At.flatten_cons.mp hat
  obtain ⟨habs, hat⟩ := At.flatten_cons.mp hat
  obtain ⟨hbone, hat⟩ := At.flatten_cons.mp hat
  obtain ⟨hcmp, hat⟩ := At.flatten_cons.mp hat
  obtain ⟨hbls, hat⟩ := At.flatten_cons.mp hat
  obtain ⟨htst, hat⟩ := At.flatten_cons.mp hat
  obtain ⟨hbpow, hat⟩ := At.flatten_cons.mp hat
  obtain ⟨hbody, hat⟩ := At.flatten_cons.mp hat
  obtain ⟨hsign', hat⟩ := At.flatten_cons.mp hat
  obtain ⟨hret, hat⟩ := At.flatten_cons.mp hat
  obtain ⟨h10, hat⟩ := At.flatten_cons.mp hat
  obtain ⟨hret10, hat⟩ := At.flatten_cons.mp hat
  obtain ⟨h11, hat⟩ := At.flatten_cons.mp hat
  obtain ⟨hret11, hat⟩ := At.flatten_cons.mp hat
  obtain ⟨h12, hat⟩ := At.flatten_cons.mp hat
  obtain ⟨hlsr, hat⟩ := At.flatten_cons.mp hat
  obtain ⟨hret12, -⟩ := At.flatten_cons.mp hat
  refine .straight hsign rfl (R := fun t => Args n d f t ∧ t.reg ip = n ^^^ d ∧
    t.z = decide (d = 0#32) ∧ t.n = d.msb) (fun s hs => hs.sign) ?_
  refine .branch hbeq.get ?_ ?_
  · rintro s ⟨⟨hs, -, hz, -⟩, hc⟩
    obtain rfl : d = 0#32 := by simpa [Cond.holds, hz] using hc
    rw [BitVec.sdiv_zero]
    exact ldiv0_gets s hs.eq_frame
  refine .straight habs rfl (R := fun t => SArgs n d f t ∧ t.reg ip = n ^^^ d ∧
    t.reg r2 = d.abs - 1#32 ∧ t.z = decide (d.abs = 1#32)) ?_ ?_
  · rintro s ⟨⟨hs, hip, hz, hn⟩, hc⟩
    obtain ⟨hs', hip', h2, hz'⟩ := hs.abs hn (by simpa [Cond.holds, hz] using hc)
    exact ⟨hs', hip'.trans hip, h2, hz'⟩
  refine .branch hbone.get ?_ ?_
  · refine .straight h10 rfl (R := Result (n.sdiv d) f) ?_ (.done hret10.get fun _ hs => hs)
    rintro s ⟨⟨hs, hip, -, hz⟩, hc⟩
    exact hs.by_one hip (by simpa [Cond.holds, hz] using hc)
  refine .straight hcmp rfl (R := fun t => SArgs n d f t ∧ t.reg ip = n ^^^ d ∧
    t.reg r2 = d.abs - 1#32 ∧ t.reg r3 = n.abs ∧ t.z = decide (n.abs = d.abs) ∧
    t.c = decide (d.abs ≤ n.abs)) ?_ ?_
  · rintro s ⟨⟨hs, hip, h2, -⟩, -⟩
    obtain ⟨hs', hip', h2', hflags⟩ := hs.compare
    exact ⟨hs', hip'.trans hip, h2'.trans h2, hflags⟩
  refine .branch hbls.get ?_ ?_
  · refine .straight h11 rfl (R := Result (n.sdiv d) f) ?_ (.done hret11.get fun _ hs => hs)
    rintro s ⟨⟨hs, hip, -, -, hz, hcarry⟩, hc⟩
    exact hs.small hip hz hcarry hc
  refine .straight htst rfl (R := fun t => SArgs n d f t ∧ t.reg ip = n ^^^ d ∧ t.reg r3 = n.abs ∧
    t.z = decide (d.abs &&& (d.abs - 1#32) = 0#32)) ?_ ?_
  · rintro s ⟨⟨hs, hip, h2, h3, -⟩, -⟩
    refine ⟨⟨hs.eq_dividend, hs.eq_divisor, hs.eq_frame, hs.nonzero⟩, hip, h3, ?_⟩
    simp only [execAll_cons, execAll_nil, exec_test, Cond.holds, if_true, Op.z_flags, Op.result,
      Operand.val, hs.eq_divisor, h2]
    rfl
  refine .branch hbpow.get ?_ ?_
  · refine .straight h12 rfl (R := fun t => t.reg ip = n ^^^ d ∧ t.reg r3 = n.abs ∧
      t.reg r4 = f ∧ ∃ e, d.abs.toNat = 2 ^ e ∧ (t.reg r2).toNat = e) ?_
      (.straight hlsr rfl (R := Result (n.sdiv d) f) ?_ (.done hret12.get fun _ hs => hs))
    · rintro s ⟨⟨hs, hip, h3, hz⟩, hc⟩
      obtain ⟨e, he⟩ := exists_two_pow hs.nonzero (by simpa [Cond.holds, hz] using hc)
      obtain ⟨hord, hframe⟩ := armDiv2Order_spec (s := s) (show r1 ≠ r2 by decide)
        (by rw [hs.eq_divisor, he])
      exact ⟨(hframe ip (by decide) (by decide)).trans hip,
        (hframe r3 (by decide) (by decide)).trans h3,
        (hframe r4 (by decide) (by decide)).trans hs.eq_frame, e, he, hord⟩
    · rintro s ⟨hip, h3, h4, e, he, hord⟩
      exact shift_spec hip h3 h4 he hord
  rintro s ⟨⟨hs, hip, h3, -⟩, -⟩
  have hpos : 0 < (s.reg r1).toNat := by
    rw [hs.eq_divisor]
    exact Nat.pos_of_ne_zero fun h => hs.nonzero (BitVec.eq_of_toNat_eq h)
  have hquot := armDivBody_gets (u := s.reg) hpos (by decide) hbody
  refine (hquot.trans (.straight hsign' rfl (R := Result (n.sdiv d) f) ?_
    (.done hret.get fun _ ht => ht))) s rfl
  intro t ht
  have h0 : t.reg r0 = n.abs / d.abs := by
    apply BitVec.eq_of_toNat_eq
    rw [ht.quotient, h3, hs.eq_divisor, BitVec.toNat_udiv]
  have hip' : t.reg ip = n ^^^ d :=
    (ht.frame ip (by decide) (by decide) (by decide) (by decide)).trans hip
  obtain ⟨h₁, h₂⟩ := sign_spec _ _ hip' h0
  rw [sdiv_eq_abs]
  exact ⟨h₁, h₂.trans ((ht.frame r4 (by decide) (by decide) (by decide) (by decide)).trans
    hs.eq_frame)⟩

/-- `%` with the sign of the dividend, but zero for a divisor that is zero. -/
def smod (n d : Word) : Word := if d = 0#32 then 0#32 else n.srem d

/-- The absolute values, one after the other, and the remainder where it is easy. -/
theorem Args.abs_easy (hs : Args n d f s) (hn : s.n = d.msb) (hd : d ≠ 0#32) :
    let t := execAll [.rsb .mi r1 r1 (.imm 0), .movs .al ip (.reg r0), .rsb .mi r0 r0 (.imm 0),
      .subs .al r2 r1 (.imm 1), .cmp .ne r0 (.reg r1), .mov .eq r0 (.imm 0), .tst .hi r1 (.reg r2),
      .and .eq r0 r0 (.reg r2)] s
    t.reg r1 = d.abs ∧ t.reg ip = n ∧ t.reg r4 = f ∧
      (Cond.ls.holds t = true ∧ t.reg r0 = n.abs % d.abs ∨
        Cond.ls.holds t = false ∧ t.reg r0 = n.abs) := by
  have hd' : d.abs ≠ 0#32 := fun h => hd ((abs_eq_zero_iff d).mp h)
  have hreg := abs_spec hn hs.eq_divisor hs.eq_divisor
  dsimp only
  rw [execAll_cons]
  generalize Instr.exec s _ = w at hreg
  have hn' : (Instr.exec w (.movs .al ip (.reg r0))).n = n.msb := by
    simp [Cond.holds, Op.result, Operand.val, hreg, hs.eq_dividend]
  have hmov : (Instr.exec w (.movs .al ip (.reg r0))).reg = Function.update w.reg ip n := by
    simp [Cond.holds, Op.result, Operand.val, hreg, hs.eq_dividend, Cpu.reg_set_eq]
  rw [execAll_cons]
  generalize Instr.exec w _ = x at hn' hmov
  have hreg' := abs_spec (r := r0) (q := r0) hn' (by simp [hmov, hreg, hs.eq_dividend])
    (by simp [hmov, hreg, hs.eq_dividend])
  rw [hmov, hreg] at hreg'
  rw [execAll_cons]
  generalize Instr.exec x _ = y at hreg'
  rw [execAll_cons]
  have h2 : (Instr.exec y (.subs .al r2 r1 (.imm 1))).reg =
      Function.update y.reg r2 (d.abs - 1#32) := by
    simp [Cond.holds, Op.result, Operand.val, hreg', Cpu.reg_set_eq]
  have hz' : (Instr.exec y (.subs .al r2 r1 (.imm 1))).z = decide (d.abs = 1#32) := by
    simp [Cond.holds, Op.result, Operand.val, hreg', beq_sub_zero]
  generalize Instr.exec y _ = v at h2 hz'
  rw [hreg'] at h2
  obtain ⟨hframe, hres⟩ := easy_spec (s := v) (n := n.abs) (d := d.abs) (by simp [h2])
    (by simp [h2]) (by simp [h2]) hd' hz'
  refine ⟨?_, ?_, ?_, hres⟩
  · rw [hframe r1 (by decide)]; simp [h2]
  · rw [hframe ip (by decide)]; simp [h2]
  · rw [hframe r4 (by decide)]; simp [h2, hs.eq_frame]

theorem modsi3_gets : Gets lib1funcs modsi3At (Args n d f) (inCaller (Result (smod n d) f)) := by
  obtain ⟨hcmp, hat⟩ := At.flatten_cons.mp at_modsi3
  obtain ⟨hbeq, hat⟩ := At.flatten_cons.mp hat
  obtain ⟨heasy, hat⟩ := At.flatten_cons.mp hat
  obtain ⟨hbls, hat⟩ := At.flatten_cons.mp hat
  obtain ⟨hbody, hat⟩ := At.flatten_cons.mp hat
  obtain ⟨hsign, hat⟩ := At.flatten_cons.mp hat
  obtain ⟨hret, -⟩ := At.flatten_cons.mp hat
  refine .straight hcmp rfl (R := fun t => Args n d f t ∧ t.z = decide (d = 0#32) ∧
    t.n = d.msb) ?_ ?_
  · intro s hs
    refine ⟨⟨?_, ?_, ?_⟩, ?_, ?_⟩
    · simp [Cond.holds, hs.eq_dividend]
    · simp [Cond.holds, hs.eq_divisor]
    · simp [Cond.holds, hs.eq_frame]
    · simp [Cond.holds, Op.result, Operand.val, hs.eq_divisor, beq_eq_decide]
    · simp [Cond.holds, Op.result, Operand.val, hs.eq_divisor]
  refine .branch hbeq.get ?_ ?_
  · rintro s ⟨⟨hs, hz, -⟩, hc⟩
    obtain rfl : d = 0#32 := by simpa [Cond.holds, hz] using hc
    rw [smod, if_pos rfl]
    exact ldiv0_gets s hs.eq_frame
  -- 10: what is in `r0` gets the sign of the dividend.
  have h10 : Gets lib1funcs 225 (fun t => d ≠ 0#32 ∧ t.reg ip = n ∧ t.reg r4 = f ∧
      t.reg r0 = n.abs % d.abs) (inCaller (Result (smod n d) f)) := by
    refine .straight hsign rfl (R := Result (smod n d) f) ?_ (.done hret.get fun _ ht => ht)
    rintro t ⟨hd, hip, h4, h0⟩
    obtain ⟨h₁, h₂⟩ := sign_spec _ _ hip h0
    exact ⟨by rw [h₁, smod, if_neg hd, srem_eq_abs], h₂.trans h4⟩
  refine .straight heasy rfl (R := fun t => d ≠ 0#32 ∧ t.reg r1 = d.abs ∧ t.reg ip = n ∧
    t.reg r4 = f ∧ (Cond.ls.holds t = true ∧ t.reg r0 = n.abs % d.abs ∨
      Cond.ls.holds t = false ∧ t.reg r0 = n.abs)) ?_ ?_
  · rintro s ⟨⟨hs, hz, hn⟩, hc⟩
    have hd : d ≠ 0#32 := by simpa [Cond.holds, hz] using hc
    exact ⟨hd, hs.abs_easy hn hd⟩
  refine .branch hbls.get (h10.strengthen ?_) ?_
  · rintro s ⟨⟨hd, -, hip, h4, ⟨-, h0⟩ | ⟨hls, -⟩⟩, hc⟩
    · exact ⟨hd, hip, h4, h0⟩
    · rw [hls] at hc; cases hc
  rintro s ⟨⟨hd, h1, hip, h4, ⟨hls, -⟩ | ⟨-, h0⟩⟩, hc⟩
  · rw [hls] at hc; cases hc
  have hpos : 0 < (s.reg r1).toNat := by
    rw [h1]
    exact Nat.pos_of_ne_zero fun h => hd ((abs_eq_zero_iff d).mp (BitVec.eq_of_toNat_eq h))
  have hrem := armModBody_gets (u := s.reg) hpos (by decide) hbody
  refine (hrem.trans (h10.strengthen ?_)) s rfl
  intro t ht
  refine ⟨hd, ?_, ?_, ?_⟩
  · rw [ht.frame ip (by decide) (by decide) (by decide), hip]
  · rw [ht.frame r4 (by decide) (by decide) (by decide), h4]
  · apply BitVec.eq_of_toNat_eq
    rw [ht.remainder, h0, h1, BitVec.toNat_umod]

/-- Both signed routines return, for every dividend and every divisor, with the quotient rounded
towards zero and the remainder with the sign of the dividend, which are zero if the divisor
is, and give `r4` back to the caller. -/
theorem divsi3_modsi3 (s : Cpu Reg) :
    (∃ t, Steps lib1funcs (.before divsi3At s) (.returned t) ∧
      t.reg r0 = (s.reg r0).sdiv (s.reg r1) ∧ t.reg r4 = s.reg r4) ∧
    ∃ t, Steps lib1funcs (.before modsi3At s) (.returned t) ∧
      t.reg r0 = (if s.reg r1 = 0#32 then 0#32 else (s.reg r0).srem (s.reg r1)) ∧
      t.reg r4 = s.reg r4 := by
  constructor
  · obtain ⟨_ | t, ht, hres⟩ := divsi3_gets s ⟨rfl, rfl, rfl⟩
    · exact hres.elim
    · exact ⟨t, ht, hres⟩
  · obtain ⟨_ | t, ht, hres⟩ := modsi3_gets s ⟨rfl, rfl, rfl⟩
    · exact hres.elim
    · exact ⟨t, ht, hres⟩

end S3c2440.Arith
