import S3c2440.Arith.DivBody

/-!
# The body of the remainder

`ARM_MOD_BODY` is `ARM_DIV_BODY` without a quotient: `order` counts the places the divisor
has been shifted, and the subtractions are done four at a time while at least four
are left. What remains, up to three of them, is done by jumping into a row of three.

## What is proved

* `Reducing.next` — one subtraction goes from the remainder by `d * 2 ^ (K + 1)` to that by
  `d * 2 ^ K`.
* `tail_gets` — the row of three, entered at the place that `order` asks for.
* `armModBody_gets` — the body ends with the remainder in `dividend`.
-/

namespace S3c2440.Arith

open Theory Theory.Arm Theory.Arm.Instr Reg

variable {dividend divisor order : Reg} {p : Code} {pc n d k K : ℕ}
  {s : Cpu Reg} {u : Reg → Word} {o : Operand Reg} {x : Word}

theorem reg_reduce (dividend : Reg)
    (ho : ∀ t : Cpu Reg, t.reg divisor = s.reg divisor → o.val t = x) :
    (execAll (reduce dividend o) s).reg =
      if x ≤ s.reg dividend then Function.update s.reg dividend (s.reg dividend - x)
      else s.reg := by
  have hc : (Op.sub.flags s (s.reg dividend) o).c = decide (x ≤ s.reg dividend) := by
    rw [Op.c_flags, ho s rfl, Op.carry]
  have hreg : (Op.sub.flags s (s.reg dividend) o).reg = s.reg := rfl
  rw [reduce, execAll_cons, exec_test, if_pos (show Cond.al.holds s = true from rfl)]
  generalize Op.sub.flags s (s.reg dividend) o = t at hc hreg
  split
  next h =>
    rw [decide_eq_true h] at hc
    simp [Cond.holds, hc, hreg, Op.result, ho, Cpu.reg_set_eq]
  next h =>
    rw [decide_eq_false h] at hc
    simp [Cond.holds, hc, hreg]

/-- The dividend is down to its remainder by `d * 2 ^ K`; `D` and `ord` are in the other two
registers of the macro. -/
structure Reducing (dividend divisor order : Reg) (n d : ℕ) (u : Reg → Word) (D : ℕ) (ord : Word)
    (K : ℕ) (s : Cpu Reg) : Prop where
  eq_dividend : (s.reg dividend).toNat = n % (d * 2 ^ K)
  eq_divisor : (s.reg divisor).toNat = D
  eq_order : s.reg order = ord
  frame : ∀ q, q ≠ dividend → q ≠ divisor → q ≠ order → s.reg q = u q

theorem Reducing.next {D : ℕ} {ord : Word}
    (hs : Reducing dividend divisor order n d u D ord (K + 1) s) (hd : 0 < d)
    (ho : ∀ t : Cpu Reg, t.reg divisor = s.reg divisor → o.val t = x) (hx : x.toNat = d * 2 ^ K)
    (hne : [dividend, divisor, order].Nodup) :
    Reducing dividend divisor order n d u D ord K (execAll (reduce dividend o) s) := by
  simp only [List.nodup_cons, List.mem_cons, List.not_mem_nil, or_false, not_or] at hne
  obtain ⟨⟨hdd, hdo⟩, -⟩ := hne
  have hreg := reg_reduce dividend ho
  have hframe : ∀ q, q ≠ dividend → (execAll (reduce dividend o) s).reg q = s.reg q := by
    intro q h
    rw [hreg]
    split
    · rw [Function.update_of_ne h]
    · rfl
  refine ⟨?_, ?_, ?_, fun q h₁ h₂ h₃ => ?_⟩
  · have hrem := hs.eq_dividend
    rw [show d * 2 ^ (K + 1) = 2 * (d * 2 ^ K) by ring] at hrem
    by_cases hle : x ≤ s.reg dividend
    · rw [if_pos hle] at hreg
      have hle' := hle
      rw [BitVec.le_def, hx, hrem] at hle'
      obtain ⟨h, -⟩ := div_mod_of_fits (Nat.mul_pos hd (Nat.two_pow_pos K)) hle'
      rw [hreg, Function.update_self, BitVec.toNat_sub_of_le hle, hx, hrem, h]
    · rw [if_neg hle] at hreg
      rw [BitVec.le_def, hx, hrem, not_le] at hle
      rw [hreg, hrem, (div_mod_of_low hle).1]
  · rw [hframe divisor (Ne.symm hdd), hs.eq_divisor]
  · rw [hframe order (Ne.symm hdo), hs.eq_order]
  · rw [hframe q h₁, hs.frame q h₁ h₂ h₃]

/-- Nothing is left of the dividend, so nothing will be. -/
theorem Reducing.mod_of_zero {D : ℕ} {ord : Word}
    (hs : Reducing dividend divisor order n d u D ord K s) (h : s.reg dividend = 0#32) :
    n % d = 0 := by
  have hrem := hs.eq_dividend
  rw [h] at hrem
  exact mod_of_mod_eq_zero hrem.symm

/-- What the body leaves: the remainder, and the other registers as they were. -/
structure Reduced (dividend divisor order : Reg) (q : ℕ) (u : Reg → Word) (s : Cpu Reg) : Prop where
  remainder : (s.reg dividend).toNat = q
  frame : ∀ q, q ≠ dividend → q ≠ divisor → q ≠ order → s.reg q = u q

theorem Reducing.done {D : ℕ} {ord : Word}
    (hs : Reducing dividend divisor order n d u D ord 0 s) :
    Reduced dividend divisor order (n % d) u s :=
  ⟨by simpa using hs.eq_dividend, hs.frame⟩

/-- The divisor one place back. -/
theorem Reducing.back {ord : Word}
    (hs : Reducing dividend divisor order n d u (d * 2 ^ (k + 1)) ord K s)
    (hne : [dividend, divisor, order].Nodup) :
    Reducing dividend divisor order n d u (d * 2 ^ k) ord K
      (execAll [.mov .al divisor (.lsr divisor 1)] s) := by
  simp only [List.nodup_cons, List.mem_cons, List.not_mem_nil, or_false, not_or] at hne
  obtain ⟨⟨hdd, -⟩, hio, -⟩ := hne
  refine ⟨?_, ?_, ?_, fun q h₁ h₂ h₃ => ?_⟩
  · simp [Cond.holds, hdd, hs.eq_dividend]
  · simp only [execAll_cons, execAll_nil, exec_alu, Cond.holds, if_true, Bool.false_eq_true, if_false,
      Op.result, Operand.val, Cpu.reg_set_self, BitVec.toNat_ushiftRight, hs.eq_divisor,
      Nat.shiftRight_eq_div_pow]
    rw [Nat.pow_succ, ← Nat.mul_assoc, Nat.pow_one, Nat.mul_div_cancel _ two_pos]
  · simp [Cond.holds, Ne.symm hio, hs.eq_order]
  · simp [Cond.holds, h₂, hs.frame q h₁ h₂ h₃]

/-! ### The row of three -/

/-- `order` when `i + 1` subtractions are left. -/
def rest (i : ℕ) : Word := BitVec.ofNat 32 i - 3#32

/-- The code from label 2 on: up to three subtractions. -/
def tail (dividend divisor order : Reg) (base : ℕ) : Code := List.flatten
  [[.cmn .al order (.imm 2)],
   [.b .lt (base + 37)],
   [.b .eq (base + 34)],
   reduce dividend (.reg divisor),
   [.mov .al divisor (.lsr divisor 1)],
   reduce dividend (.reg divisor),
   [.mov .al divisor (.lsr divisor 1)],
   reduce dividend (.reg divisor)]

theorem reduce_gets {D : ℕ} {ord : Word} {Q : Config Reg → Prop} (hd : 0 < d)
    (hne : [dividend, divisor, order].Nodup) (hD : D = d * 2 ^ K)
    (hat : At p pc (reduce dividend (.reg divisor)))
    (h : Gets p (pc + 2) (Reducing dividend divisor order n d u D ord K) Q) :
    Gets p pc (Reducing dividend divisor order n d u D ord (K + 1)) Q :=
  .straight hat rfl (fun s hs => hs.next (x := s.reg divisor) hd
    (fun t ht => by simp [Operand.val, ht]) (by rw [hs.eq_divisor, hD]) hne) h

theorem tail_gets {base : ℕ} (hd : 0 < d) (hne : [dividend, divisor, order].Nodup)
    (hat : At p (base + 28) (tail dividend divisor order base)) :
    Gets p (base + 28)
      (fun s => ∃ i < 3, Reducing dividend divisor order n d u (d * 2 ^ i) (rest i) (i + 1) s)
      (atPc (base + 39) (Reduced dividend divisor order (n % d) u)) := by
  obtain ⟨hcmn, hat⟩ := At.flatten_cons.mp hat
  obtain ⟨hblt, hat⟩ := At.flatten_cons.mp hat
  obtain ⟨hbeq, hat⟩ := At.flatten_cons.mp hat
  obtain ⟨hred, hat⟩ := At.flatten_cons.mp hat
  obtain ⟨hmov, hat⟩ := At.flatten_cons.mp hat
  obtain ⟨hred', hat⟩ := At.flatten_cons.mp hat
  obtain ⟨hmov', hat⟩ := At.flatten_cons.mp hat
  obtain ⟨hred'', -⟩ := At.flatten_cons.mp hat
  -- From the last label to the first.
  have h₄ (ord : Word) : Gets p (base + 37)
      (Reducing dividend divisor order n d u (d * 2 ^ 0) ord 1)
      (atPc (base + 39) (Reduced dividend divisor order (n % d) u)) :=
    reduce_gets hd hne rfl hred'' (.here fun s hs => ⟨rfl, hs.done⟩)
  have h₃ (ord : Word) : Gets p (base + 34)
      (Reducing dividend divisor order n d u (d * 2 ^ 1) ord 2)
      (atPc (base + 39) (Reduced dividend divisor order (n % d) u)) :=
    reduce_gets hd hne rfl hred' (.straight hmov' rfl (fun s hs => hs.back hne) (h₄ ord))
  have h₂ (ord : Word) : Gets p (base + 31)
      (Reducing dividend divisor order n d u (d * 2 ^ 2) ord 3)
      (atPc (base + 39) (Reduced dividend divisor order (n % d) u)) :=
    reduce_gets hd hne rfl hred (.straight hmov rfl (fun s hs => hs.back hne) (h₃ ord))
  refine .straight hcmn rfl (R := fun t => ∃ i < 3,
    Reducing dividend divisor order n d u (d * 2 ^ i) (rest i) (i + 1) t ∧
      Cond.lt.holds t = decide (i = 0) ∧ t.z = decide (i = 1)) ?_ ?_
  · rintro s ⟨i, hi, hs⟩
    refine ⟨i, hi, ⟨hs.eq_dividend, hs.eq_divisor, hs.eq_order, hs.frame⟩, ?_, ?_⟩
    · simp only [execAll_cons, execAll_nil, exec_test, Cond.holds, if_true, Op.n_flags, Op.v_flags,
        Op.result, Op.overflow, Operand.val, hs.eq_order]
      interval_cases i <;> decide
    · simp only [execAll_cons, execAll_nil, exec_test, Cond.holds, if_true, Op.z_flags, Op.result,
        Operand.val, hs.eq_order]
      interval_cases i <;> decide
  refine .branch hblt.get ?_ (.branch hbeq.get ?_ ?_)
  · rintro s ⟨⟨i, hi, hs, hlt, -⟩, hc⟩
    obtain rfl : i = 0 := by simpa [hlt] using hc
    exact h₄ _ s hs
  · rintro s ⟨⟨⟨i, hi, hs, -, hz⟩, -⟩, hc⟩
    obtain rfl : i = 1 := by simpa [Cond.holds, hz] using hc
    exact h₃ _ s hs
  · rintro s ⟨⟨⟨i, hi, hs, hlt, hz⟩, hc⟩, hc'⟩
    have h₀ : i ≠ 0 := by simpa [hlt] using hc
    have h₁ : i ≠ 1 := by simpa [Cond.holds, hz] using hc'
    obtain rfl : i = 2 := by omega
    exact h₂ _ s hs

/-! ### Four at a time -/

/-- The end of a turn: the divisor moves four places, and four less are to be done, if
anything is left of the dividend. -/
def turnEnd (dividend divisor order : Reg) : Code :=
  [.cmp .al dividend (.imm 1),
   .mov .al divisor (.lsr divisor 4),
   .subs .ge order order (.imm 4)]

/-- After the turn's subtractions, and after the test that ends it. -/
theorem turnEnd_spec (hne : [dividend, divisor, order].Nodup) (s : Cpu Reg)
    (hlt : (s.reg dividend).toNat < 2 ^ 31) :
    let t := execAll (turnEnd dividend divisor order) s
    (s.reg dividend = 0#32 → Cond.ge.holds t = false ∧
      t.reg = Function.update s.reg divisor (s.reg divisor >>> 4)) ∧
    (s.reg dividend ≠ 0#32 →
      Cond.ge.holds t = !decide ((s.reg order).toInt < (4#32).toInt) ∧
      t.reg = Function.update (Function.update s.reg divisor (s.reg divisor >>> 4)) order
        (s.reg order - 4#32)) := by
  simp only [List.nodup_cons, List.mem_cons, List.not_mem_nil, or_false, not_or] at hne
  obtain ⟨-, hio, -⟩ := hne
  have hn : (Op.sub.flags s (s.reg dividend) (.imm 1)).n = (s.reg dividend - 1#32).msb := rfl
  have hv : (Op.sub.flags s (s.reg dividend) (.imm 1)).v = (s.reg dividend).ssubOverflow 1#32 := rfl
  have hreg : (Op.sub.flags s (s.reg dividend) (.imm 1)).reg = s.reg := rfl
  have hge : Cond.ge.holds (Op.sub.flags s (s.reg dividend) (.imm 1)) =
      decide (s.reg dividend ≠ 0#32) := by
    rw [ge_of_sub hn hv, BitVec.toInt_eq_toNat_of_lt (by omega), Bool.eq_iff_iff, Bool.not_eq_true',
      decide_eq_false_iff_not, decide_eq_true_eq, ne_eq, ← BitVec.toNat_inj]
    change ¬ (_ : ℤ) < 1 ↔ ¬ (s.reg dividend).toNat = 0
    omega
  intro t
  have ht : t = execAll [.mov .al divisor (.lsr divisor 4), .subs .ge order order (.imm 4)]
      (Op.sub.flags s (s.reg dividend) (.imm 1)) := rfl
  generalize Op.sub.flags s (s.reg dividend) (.imm 1) = w at hn hv hreg hge ht
  have hmov : ∀ v, Cond.ge.holds (w.set divisor v) = Cond.ge.holds w := fun _ => rfl
  constructor
  · intro h
    have hfalse : Cond.ge.holds w = false := by simp [hge, h]
    simp only [ht, execAll_cons, execAll_nil, exec_alu, hmov, hfalse,
      show Cond.al.holds w = true from rfl, if_true, Bool.false_eq_true, if_false, Op.result,
      Operand.val, hreg, Cpu.reg_set_eq]
    exact ⟨trivial, trivial⟩
  · intro h
    have htrue : Cond.ge.holds w = true := by simp [hge, h]
    have hord : (w.set divisor (s.reg divisor >>> 4)).reg order = s.reg order := by
      rw [Cpu.reg_set_of_ne _ _ (Ne.symm hio), hreg]
    simp only [ht, execAll_cons, execAll_nil, exec_alu, hmov, htrue,
      show Cond.al.holds w = true from rfl, if_true, Bool.false_eq_true, if_false, Op.result,
      Operand.val, hreg, hord]
    refine ⟨ge_of_sub (a := s.reg order) (b := 4#32) ?_ ?_, ?_⟩
    · simp [Op.result, Operand.val]
    · simp [Op.overflow, Operand.val]
    · simp [Cpu.reg_set_eq, hreg]

/-- The remainder is known already: nothing is left of the dividend. -/
structure Finished (dividend divisor order : Reg) (q : ℕ) (u : Reg → Word) (s : Cpu Reg) :
    Prop where
  reduced : Reduced dividend divisor order q u s
  skip : s.reg order &&& 3#32 = 0#32 ∨ s.reg dividend = 0#32

/-- Up to three subtractions are left, and something of the dividend. -/
structure Unfinished (dividend divisor order : Reg) (n d : ℕ) (u : Reg → Word) (i : ℕ)
    (s : Cpu Reg) : Prop where
  reducing : Reducing dividend divisor order n d u (d * 2 ^ i) (rest i) (i + 1) s
  left : s.reg dividend ≠ 0#32

theorem rest_sub_four (k : ℕ) : rest (k + 4) - 4#32 = rest k := by
  simp only [rest, BitVec.ofNat_add]
  bv_omega

theorem toInt_rest {k : ℕ} (hk : 3 ≤ k) (hk' : k < 32) : (rest k).toInt = k - 3 := by
  have hnat : (rest k).toNat = k - 3 := by
    simp only [rest]
    bv_omega
  rw [BitVec.toInt_eq_toNat_of_lt (by omega), hnat]
  omega

/-- The code of a turn. -/
def turn (dividend divisor order : Reg) : Code := List.flatten
  [reduce dividend (.reg divisor),
   reduce dividend (.lsr divisor 1),
   reduce dividend (.lsr divisor 2),
   reduce dividend (.lsr divisor 3),
   turnEnd dividend divisor order]

/-- The four subtractions of a turn. -/
theorem Reducing.four {ord : Word} {m : ℕ} (hd : 0 < d) (hne : [dividend, divisor, order].Nodup)
    (hs : Reducing dividend divisor order n d u (d * 2 ^ (m + 3)) ord (m + 4) s) :
    Reducing dividend divisor order n d u (d * 2 ^ (m + 3)) ord m
      (execAll (reduce dividend (.lsr divisor 3)) (execAll (reduce dividend (.lsr divisor 2))
        (execAll (reduce dividend (.lsr divisor 1))
          (execAll (reduce dividend (.reg divisor)) s)))) := by
  have hshift : ∀ j ≤ m + 3, (s.reg divisor >>> j).toNat = d * 2 ^ (m + 3 - j) := by
    intro j hj
    obtain ⟨i, hi⟩ : ∃ i, m + 3 = i + j := ⟨m + 3 - j, by omega⟩
    rw [BitVec.toNat_ushiftRight, hs.eq_divisor, Nat.shiftRight_eq_div_pow, hi, Nat.pow_add,
      ← Nat.mul_assoc, Nat.mul_div_cancel _ (Nat.two_pow_pos j), Nat.add_sub_cancel]
  have h₁ := hs.next (o := .reg divisor) (x := s.reg divisor >>> 0) hd
    (fun t ht => by simp [Operand.val, ht]) (hshift 0 (by omega)) hne
  have h₂ := h₁.next (o := .lsr divisor 1) (x := s.reg divisor >>> 1) hd
    (fun t ht => by
      rw [Operand.val, ht, ← BitVec.toNat_inj, BitVec.toNat_ushiftRight, BitVec.toNat_ushiftRight,
        h₁.eq_divisor, hs.eq_divisor]) (hshift 1 (by omega)) hne
  have h₃ := h₂.next (o := .lsr divisor 2) (x := s.reg divisor >>> 2) hd
    (fun t ht => by
      rw [Operand.val, ht, ← BitVec.toNat_inj, BitVec.toNat_ushiftRight, BitVec.toNat_ushiftRight,
        h₂.eq_divisor, hs.eq_divisor]) (hshift 2 (by omega)) hne
  exact h₃.next (o := .lsr divisor 3) (x := s.reg divisor >>> 3) hd
    (fun t ht => by
      rw [Operand.val, ht, ← BitVec.toNat_inj, BitVec.toNat_ushiftRight, BitVec.toNat_ushiftRight,
        h₃.eq_divisor, hs.eq_divisor]) (hshift 3 (by omega)) hne

/-- The end of a turn: the loop is left, or goes on with the divisor four places further right. -/
theorem Reducing.turn_end {m : ℕ} (hd : 0 < d) (hne : [dividend, divisor, order].Nodup)
    (hk : m + 3 < 32)
    (hs : Reducing dividend divisor order n d u (d * 2 ^ (m + 3)) (rest (m + 3)) m s) :
    let t := execAll (turnEnd dividend divisor order) s
    (Cond.ge.holds t = false ∧ (Finished dividend divisor order (n % d) u t ∨
        ∃ i < 3, Unfinished dividend divisor order n d u i t)) ∨
      (Cond.ge.holds t = true ∧ ∃ i < m + 3, 3 ≤ i ∧ i < 32 ∧
        Reducing dividend divisor order n d u (d * 2 ^ i) (rest i) (i + 1) t) := by
  have hne' := hne
  simp only [List.nodup_cons, List.mem_cons, List.not_mem_nil, or_false, not_or] at hne'
  obtain ⟨⟨hdd, hdo⟩, hio, -⟩ := hne'
  have hDlt := (s.reg divisor).isLt
  have hsmall : (s.reg dividend).toNat < 2 ^ 31 := by
    have hlt := Nat.mod_lt n (Nat.mul_pos hd (Nat.two_pow_pos m))
    rw [hs.eq_divisor, Nat.pow_add, ← Nat.mul_assoc] at hDlt
    rw [hs.eq_dividend]
    omega
  obtain ⟨hzero, hmore⟩ := turnEnd_spec hne s hsmall
  intro t
  by_cases h : s.reg dividend = 0#32
  · obtain ⟨hge, hreg⟩ := hzero h
    refine .inl ⟨hge, .inl ⟨⟨?_, fun q h₁ h₂ h₃ => ?_⟩, .inr ?_⟩⟩
    · rw [hreg, Function.update_of_ne hdd, h, hs.mod_of_zero h]
      rfl
    · rw [hreg, Function.update_of_ne h₂, hs.frame q h₁ h₂ h₃]
    · rw [hreg, Function.update_of_ne hdd, h]
  obtain ⟨hge, hreg⟩ := hmore h
  have hdvd : t.reg dividend = s.reg dividend := by
    rw [hreg, Function.update_of_ne hdo, Function.update_of_ne hdd]
  have hord : t.reg order = rest (m + 3) - 4#32 := by
    rw [hreg, Function.update_self, hs.eq_order]
  have hframe : ∀ q, q ≠ dividend → q ≠ divisor → q ≠ order → t.reg q = u q := by
    intro q h₁ h₂ h₃
    rw [hreg, Function.update_of_ne h₃, Function.update_of_ne h₂, hs.frame q h₁ h₂ h₃]
  rw [hs.eq_order, toInt_rest (by omega) hk] at hge
  obtain rfl | hm := Nat.eq_zero_or_pos m
  · -- All the subtractions are done.
    refine .inl ⟨?_, .inl ⟨⟨?_, hframe⟩, .inl ?_⟩⟩
    · rw [hge]; decide
    · rw [hdvd]
      simpa using hs.eq_dividend
    · rw [hord]; decide
  obtain ⟨i, rfl⟩ : ∃ i, m = i + 1 := ⟨m - 1, by omega⟩
  have hnext : Reducing dividend divisor order n d u (d * 2 ^ i) (rest i) (i + 1) t := by
    refine ⟨?_, ?_, ?_, hframe⟩
    · rw [hdvd, hs.eq_dividend]
    · rw [hreg, Function.update_of_ne hio, Function.update_self, BitVec.toNat_ushiftRight,
        hs.eq_divisor, Nat.shiftRight_eq_div_pow, show i + 1 + 3 = i + 4 by omega, Nat.pow_add,
        ← Nat.mul_assoc, Nat.mul_div_cancel _ (Nat.two_pow_pos 4)]
    · rw [hord, show i + 1 + 3 = i + 4 by omega, rest_sub_four]
  by_cases hi : i < 3
  · refine .inl ⟨?_, .inr ⟨i, hi, hnext, by rwa [hdvd]⟩⟩
    rw [hge]
    interval_cases i <;> decide
  · refine .inr ⟨?_, i, by omega, by omega, by omega, hnext⟩
    rw [hge, Bool.not_eq_true', decide_eq_false_iff_not]
    change ¬ _ < (4 : ℤ)
    omega

theorem turn_gets (hd : 0 < d) (hne : [dividend, divisor, order].Nodup)
    (hat : At p pc (turn dividend divisor order)) (hb : At p (pc + 11) [.b .ge pc]) :
    Gets p pc (fun s => ∃ k, 3 ≤ k ∧ k < 32 ∧
        Reducing dividend divisor order n d u (d * 2 ^ k) (rest k) (k + 1) s)
      (atPc (pc + 12) fun t => Finished dividend divisor order (n % d) u t ∨
        ∃ i < 3, Unfinished dividend divisor order n d u i t) := by
  have hturn := Gets.loop (p := p) (l := pc)
    (I := fun k s => 3 ≤ k ∧ k < 32 ∧
      Reducing dividend divisor order n d u (d * 2 ^ k) (rest k) (k + 1) s)
    (Q := atPc (pc + 12) fun t => Finished dividend divisor order (n % d) u t ∨
        ∃ i < 3, Unfinished dividend divisor order n d u i t) ?_
  · intro s hs
    obtain ⟨k, hk⟩ := hs
    exact hturn k s hk
  intro k ih
  refine .straight hat rfl
    (R := fun t => (Cond.ge.holds t = false ∧ (Finished dividend divisor order (n % d) u t ∨
        ∃ i < 3, Unfinished dividend divisor order n d u i t)) ∨
      (Cond.ge.holds t = true ∧ ∃ m < k, 3 ≤ m ∧ m < 32 ∧
        Reducing dividend divisor order n d u (d * 2 ^ m) (rest m) (m + 1) t)) ?_
    (.branch hb.get ?_ (.here ?_))
  · rintro s ⟨hk, hk', hs⟩
    obtain ⟨m, rfl⟩ : ∃ m, k = m + 3 := ⟨k - 3, by omega⟩
    simp only [turn, List.flatten_cons, List.flatten_nil, List.append_nil, execAll_append]
    exact (hs.four hd hne).turn_end hd hne hk'
  · rintro s ⟨⟨hc, -⟩ | ⟨-, m, hm, hs⟩, hge⟩
    · rw [hc] at hge; cases hge
    · exact ih m hm s hs
  · rintro s ⟨⟨-, hs⟩ | ⟨hc, -⟩, hge⟩
    · exact ⟨rfl, hs⟩
    · rw [hc] at hge; cases hge

/-! ### The whole body -/

/-- The test after the loop. -/
theorem test_spec (dividend order : Reg) (s : Cpu Reg) :
    let t := execAll [.tst .al order (.imm 3), .teq .ne dividend (.imm 0)] s
    t.reg = s.reg ∧
      t.z = decide (s.reg order &&& 3#32 = 0#32 ∨ s.reg dividend = 0#32) := by
  intro t
  have hz : (Op.and.flags s (s.reg order) (.imm 3)).z = decide (s.reg order &&& 3#32 = 0#32) := rfl
  have hreg : (Op.and.flags s (s.reg order) (.imm 3)).reg = s.reg := rfl
  have ht : t = execAll [.teq .ne dividend (.imm 0)] (Op.and.flags s (s.reg order) (.imm 3)) := rfl
  generalize Op.and.flags s (s.reg order) (.imm 3) = w at hz hreg ht
  by_cases h : s.reg order &&& 3#32 = 0#32
  · rw [decide_eq_true h] at hz
    simp [ht, Cond.holds, hz, hreg, h]
  · rw [decide_eq_false h] at hz
    simp [ht, Cond.holds, hz, hreg, h, Op.result, Operand.val, beq_eq_decide]

theorem ofNat_add (k j : ℕ) (w : Word) (hw : w.toNat = j) :
    BitVec.ofNat 32 k + w = BitVec.ofNat 32 (k + j) := by
  rw [BitVec.ofNat_add, ← hw, BitVec.ofNat_toNat, BitVec.setWidth_eq]

/-- What has been noted while the divisor was shifted, less three, and whether a turn fits. -/
theorem Scaled.reducing {k : ℕ} (hd : 0 < d) (hne : [dividend, divisor, order].Nodup)
    (hs : Scaled dividend divisor order (BitVec.ofNat 32) n d u k s)
    (hstop : 0x80000000#32 ≤ s.reg divisor ∨ s.reg dividend ≤ s.reg divisor) :
    let t := execAll [.subs .al order order (.imm 3)] s
    Cond.lt.holds t = decide (k < 3) ∧
      Reducing dividend divisor order n d u (d * 2 ^ k) (rest k) (k + 1) t := by
  simp only [List.nodup_cons, List.mem_cons, List.not_mem_nil, or_false, not_or] at hne
  obtain ⟨⟨hdd, hdo⟩, hio, -⟩ := hne
  have hlt := lt_of_stop hstop hd hs.eq_divisor
  have hk := lt_of_scaled hd hs.eq_divisor
  rw [hs.eq_dividend] at hlt
  intro t
  refine ⟨?_, ?_, ?_, ?_, fun q h₁ h₂ h₃ => ?_⟩
  · refine (lt_of_sub (a := s.reg order) (b := 3#32) ?_ ?_).trans ?_
    · simp [t, Cond.holds, Op.result, Operand.val]
    · simp [t, Cond.holds, Op.overflow, Operand.val]
    · rw [hs.eq_note]
      interval_cases k <;> decide
  · simp [t, Cond.holds, hdo, hs.eq_dividend, Nat.mod_eq_of_lt hlt]
  · simp [t, Cond.holds, hio, hs.eq_divisor]
  · simp [t, Cond.holds, Op.result, Operand.val, hs.eq_note, rest]
  · simp [t, Cond.holds, h₃, hs.frame q h₂ h₃]

/-- The test behind the loop tells the two ways in which it is left apart. -/
theorem Finished.test {q : ℕ} (hs : Finished dividend divisor order q u s) :
    let t := execAll [.tst .al order (.imm 3), .teq .ne dividend (.imm 0)] s
    t.z = true ∧ Reduced dividend divisor order q u t := by
  obtain ⟨hreg, hz⟩ := test_spec dividend order s
  refine ⟨hz.trans (decide_eq_true hs.skip), ?_, fun q h₁ h₂ h₃ => ?_⟩
  · rw [hreg, hs.reduced.remainder]
  · rw [hreg, hs.reduced.frame q h₁ h₂ h₃]

theorem Unfinished.test {i : ℕ} (hi : i < 3) (hs : Unfinished dividend divisor order n d u i s) :
    let t := execAll [.tst .al order (.imm 3), .teq .ne dividend (.imm 0)] s
    t.z = false ∧ Reducing dividend divisor order n d u (d * 2 ^ i) (rest i) (i + 1) t := by
  obtain ⟨hreg, hz⟩ := test_spec dividend order s
  refine ⟨hz.trans (decide_eq_false (not_or.mpr ⟨?_, hs.left⟩)), ?_, ?_, ?_, ?_⟩
  · rw [hs.reducing.eq_order]
    interval_cases i <;> decide
  · rw [hreg, hs.reducing.eq_dividend]
  · rw [hreg, hs.reducing.eq_divisor]
  · rw [hreg, hs.reducing.eq_order]
  · intro q h₁ h₂ h₃
    rw [hreg, hs.reducing.frame q h₁ h₂ h₃]

/-- `ARM_MOD_BODY` leaves the remainder. -/
theorem armModBody_gets {base : ℕ} (hd : 0 < (u divisor).toNat)
    (hne : [dividend, divisor, order].Nodup)
    (hat : At p base (armModBody dividend divisor order base)) :
    Gets p base (fun s => s.reg = u)
      (atPc (base + 39) (Reduced dividend divisor order
        ((u dividend).toNat % (u divisor).toNat) u)) := by
  have hne' := hne
  simp only [List.nodup_cons, List.mem_cons, List.not_mem_nil, or_false, not_or] at hne'
  obtain ⟨⟨hdd, hdo⟩, hio, -⟩ := hne'
  obtain ⟨hmov, hat⟩ := At.flatten_cons.mp hat
  obtain ⟨hscale, hat⟩ := At.flatten_cons.mp hat
  obtain ⟨hb, hat⟩ := At.flatten_cons.mp hat
  obtain ⟨hscale', hat⟩ := At.flatten_cons.mp hat
  obtain ⟨hb', hat⟩ := At.flatten_cons.mp hat
  obtain ⟨hsubs, hat⟩ := At.flatten_cons.mp hat
  obtain ⟨hblt, hat⟩ := At.flatten_cons.mp hat
  obtain ⟨hturn, hat⟩ := (At.flatten_append (L := [reduce dividend (.reg divisor),
    reduce dividend (.lsr divisor 1), reduce dividend (.lsr divisor 2),
    reduce dividend (.lsr divisor 3), turnEnd dividend divisor order])).mp hat
  obtain ⟨hbge, hat⟩ := At.flatten_cons.mp hat
  obtain ⟨htest, hat⟩ := At.flatten_cons.mp hat
  obtain ⟨hbeq, htail⟩ := At.flatten_cons.mp hat
  refine .straight hmov rfl (R := fun t => ∃ k, Scaled dividend divisor order (BitVec.ofNat 32)
    (u dividend).toNat (u divisor).toNat u k t) ?_ ?_
  · rintro s rfl
    refine ⟨0, ?_, ?_, ?_, fun q _ h₂ => ?_⟩
    · simp [Cond.holds, hdo]
    · simp [Cond.holds, hio]
    · simp [Cond.holds, Op.result, Operand.val]
    · simp [Cond.holds, h₂]
  refine .trans (scale_gets (f := fun w => w + 4) ?_ ?_ (Ne.symm hio) hdd hdo (by omega) (by decide)
    hd rfl (At.append.mpr ⟨hscale, hb⟩)) ?_
  · intro t
    cases h : t.c <;> simp [Cond.holds, h, Op.result, Operand.val]
  · exact fun k _ => ofNat_add k 4 4 rfl
  refine .trans ((scale_gets (f := fun w => w + 1) (g := BitVec.ofNat 32)
    (n := (u dividend).toNat) (u := u) ?_ ?_ (Ne.symm hio) hdd hdo (by omega) (by decide)
    hd rfl (At.append.mpr ⟨hscale', hb'⟩)).strengthen ?_) ?_
  · intro t
    cases h : t.c <;> simp [Cond.holds, h, Op.result, Operand.val]
  · exact fun k _ => ofNat_add k 1 1 rfl
  · rintro s ⟨k, hs, -⟩
    exact ⟨k, hs⟩
  refine .straight hsubs rfl (R := fun t => ∃ k < 32, Cond.lt.holds t = decide (k < 3) ∧
    Reducing dividend divisor order (u dividend).toNat (u divisor).toNat u
      ((u divisor).toNat * 2 ^ k) (rest k) (k + 1) t) ?_ ?_
  · rintro s ⟨k, hs, hstop⟩
    exact ⟨k, lt_of_scaled hd hs.eq_divisor, hs.reducing hd hne hstop⟩
  have hrow := tail_gets (n := (u dividend).toNat) (u := u) hd hne htail
  refine .branch hblt.get ?_ ?_
  · refine hrow.strengthen ?_
    rintro s ⟨⟨k, -, hlt, hs⟩, hc⟩
    exact ⟨k, by simpa [hlt] using hc, hs⟩
  refine .trans ((turn_gets (n := (u dividend).toNat) (u := u) hd hne hturn hbge).strengthen ?_) ?_
  · rintro s ⟨⟨k, hk, hlt, hs⟩, hc⟩
    exact ⟨k, by simpa [hlt] using hc, hk, hs⟩
  refine .straight htest rfl
    (R := fun t => (t.z = true ∧ Reduced dividend divisor order
        ((u dividend).toNat % (u divisor).toNat) u t) ∨
      (t.z = false ∧ ∃ i < 3, Reducing dividend divisor order (u dividend).toNat
        (u divisor).toNat u ((u divisor).toNat * 2 ^ i) (rest i) (i + 1) t)) ?_ ?_
  · rintro s (hs | ⟨i, hi, hs⟩)
    · exact .inl hs.test
    · obtain ⟨hz, hs'⟩ := hs.test hi
      exact .inr ⟨hz, i, hi, hs'⟩
  refine .branch hbeq.get (.here ?_) ?_
  · rintro s ⟨⟨-, hs⟩ | ⟨hz, -⟩, hc⟩
    · exact ⟨rfl, hs⟩
    · simp [Cond.holds, hz] at hc
  · refine hrow.strengthen ?_
    rintro s ⟨⟨hz, -⟩ | ⟨-, hs⟩, hc⟩
    · simp [Cond.holds, hz] at hc
    · exact hs

end S3c2440.Arith
