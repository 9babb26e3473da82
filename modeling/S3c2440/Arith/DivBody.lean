import Mathlib.Tactic.IntervalCases
import S3c2440.Arith.Lib1funcs
import S3c2440.Theory.LongDivision

/-!
# The body of the division

`ARM_DIV_BODY` shifts the divisor left until it is at least the dividend, and then subtracts
it shifted right again, four bits of the quotient in each turn of its main loop. The
last turn may shift the divisor further right than it has been shifted left; what is
subtracted then is no multiple of the divisor any more, but the bit of the quotient is
shifted out with it.

## What is proved

* `scale_gets` — a shifting loop ends with the divisor times a power of two, which the other
  register tells.
* `armDivBody_gets` — the body ends with the quotient in `result`.
* `armDiv2Order_spec` — for a power of two, its exponent in `order`.
-/

namespace S3c2440.Arith

open Theory Theory.Arm Theory.Arm.Instr Reg

variable {dividend divisor result curbit order r : Reg} {p : Code} {pc n d k j : ℕ}
  {s : Cpu Reg} {u : Reg → Word} {o b : Operand Reg} {x y : Word}

/-! ### Shifting the divisor left -/

/-- The divisor has been shifted left by `k`, and the register `r` tells so. -/
structure Scaled (dividend divisor r : Reg) (g : ℕ → Word) (n d : ℕ) (u : Reg → Word) (k : ℕ)
    (s : Cpu Reg) : Prop where
  eq_dividend : (s.reg dividend).toNat = n
  eq_divisor : (s.reg divisor).toNat = d * 2 ^ k
  eq_note : s.reg r = g k
  frame : ∀ q, q ≠ divisor → q ≠ r → s.reg q = u q

theorem scale_spec (dividend : Reg) (k : ℕ) (limit : Word) {note : Instr Reg} {f : Word → Word}
    (hnote : ∀ t : Cpu Reg, note.exec t = if t.c then t else t.set r (f (t.reg r)))
    (hr : r ≠ divisor) (s : Cpu Reg) :
    (execAll (scale dividend divisor limit k note) s).c =
        (decide (limit ≤ s.reg divisor) || decide (s.reg dividend ≤ s.reg divisor)) ∧
      (execAll (scale dividend divisor limit k note) s).reg =
        if limit ≤ s.reg divisor ∨ s.reg dividend ≤ s.reg divisor then s.reg
        else Function.update (Function.update s.reg divisor (s.reg divisor <<< k)) r
          (f (s.reg r)) := by
  have hc : (Op.sub.flags s (s.reg divisor) (.imm limit)).c = decide (limit ≤ s.reg divisor) := rfl
  have hreg : (Op.sub.flags s (s.reg divisor) (.imm limit)).reg = s.reg := rfl
  rw [scale, execAll_cons, exec_test, if_pos (show Cond.al.holds s = true from rfl)]
  generalize Op.sub.flags s (s.reg divisor) (.imm limit) = t at hc hreg
  by_cases hlimit : limit ≤ s.reg divisor
  · rw [decide_eq_true hlimit] at hc
    simp [Cond.holds, hc, hreg, hlimit, hnote]
  · rw [decide_eq_false hlimit] at hc
    have hc' : (Op.sub.flags t (t.reg divisor) (.reg dividend)).c =
        decide (s.reg dividend ≤ s.reg divisor) := by
      simp [Op.carry, Operand.val, hreg]
    have hreg' : (Op.sub.flags t (t.reg divisor) (.reg dividend)).reg = s.reg := hreg
    rw [execAll_cons, exec_test, if_pos (show Cond.lo.holds t = true by simp [Cond.holds, hc])]
    generalize Op.sub.flags t (t.reg divisor) (.reg dividend) = t' at hc' hreg'
    by_cases hle : s.reg dividend ≤ s.reg divisor
    · rw [decide_eq_true hle] at hc'
      simp [Cond.holds, hc', hreg', hle, hnote]
    · rw [decide_eq_false hle] at hc'
      simp [Cond.holds, hc', hreg', hle, hlimit, hnote, Op.result, Operand.val, hr,
        Cpu.reg_set_eq]

/-- A shifting loop: it stops at a divisor that has reached the limit or the dividend. -/
theorem scale_gets {limit : Word} {note : Instr Reg} {f : Word → Word} {g : ℕ → Word}
    (hnote : ∀ t : Cpu Reg, note.exec t = if t.c then t else t.set r (f (t.reg r)))
    (hg : ∀ k < 32, f (g k) = g (k + j)) (hr : r ≠ divisor) (hdd : dividend ≠ divisor)
    (hdr : dividend ≠ r) (hj : 0 < j) (hlimit : limit.toNat * 2 ^ j ≤ 2 ^ 32) (hd : 0 < d)
    (hstraight : note.isStraight = true)
    (hat : At p pc (scale dividend divisor limit j note ++ [.b .lo pc])) :
    Gets p pc (fun s => ∃ k, Scaled dividend divisor r g n d u k s)
      (atPc (pc + 5) fun s => ∃ k, Scaled dividend divisor r g n d u k s ∧
        (limit ≤ s.reg divisor ∨ s.reg dividend ≤ s.reg divisor)) := by
  obtain ⟨hcode, hb⟩ := At.append.mp hat
  have hturn := Gets.loop (p := p) (l := pc)
    (I := fun m s => ∃ k, Scaled dividend divisor r g n d u k s ∧ m = 32 - k)
    (Q := atPc (pc + 5) fun s => ∃ k, Scaled dividend divisor r g n d u k s ∧
        (limit ≤ s.reg divisor ∨ s.reg dividend ≤ s.reg divisor)) ?_
  · intro s hs
    obtain ⟨k, hk⟩ := hs
    exact hturn (32 - k) s ⟨k, hk, rfl⟩
  intro m ih
  refine .straight hcode (by simp [scale, hstraight])
    (R := fun t => (t.c = true ∧ ∃ k, Scaled dividend divisor r g n d u k t ∧
        (limit ≤ t.reg divisor ∨ t.reg dividend ≤ t.reg divisor)) ∨
      (t.c = false ∧ ∃ k, Scaled dividend divisor r g n d u k t ∧ 32 - k < m)) ?_ ?_
  · rintro s ⟨k, hs, rfl⟩
    obtain ⟨hc, hreg⟩ := scale_spec dividend j limit hnote hr s
    by_cases hstop : limit ≤ s.reg divisor ∨ s.reg dividend ≤ s.reg divisor
    · rw [if_pos hstop] at hreg
      refine .inl ⟨?_, k, ⟨?_, ?_, ?_, ?_⟩, ?_⟩
      · rw [hc, Bool.or_eq_true, decide_eq_true_eq, decide_eq_true_eq]
        exact hstop
      · rw [hreg, hs.eq_dividend]
      · rw [hreg, hs.eq_divisor]
      · rw [hreg, hs.eq_note]
      · intro q h₁ h₂
        rw [hreg, hs.frame q h₁ h₂]
      · rwa [hreg]
    · rw [if_neg hstop] at hreg
      rw [not_or] at hstop
      -- Below the limit the divisor can be shifted without losing a bit.
      have hlt : (s.reg divisor).toNat < limit.toNat := by
        have := hstop.1
        rwa [BitVec.not_le, BitVec.lt_def] at this
      have hfit : d * 2 ^ k * 2 ^ j < 2 ^ 32 := by
        rw [← hs.eq_divisor]
        exact lt_of_lt_of_le (Nat.mul_lt_mul_of_pos_right hlt (Nat.two_pow_pos j)) hlimit
      have hk : k < 32 := by
        by_contra hge
        have h₁ : 2 ^ 32 ≤ 2 ^ k := Nat.pow_le_pow_right (by omega) (by omega)
        have h₂ : 2 ^ k ≤ d * 2 ^ k := Nat.le_mul_of_pos_left _ hd
        have h₃ : d * 2 ^ k ≤ d * 2 ^ k * 2 ^ j := Nat.le_mul_of_pos_right _ (Nat.two_pow_pos j)
        omega
      refine .inr ⟨?_, k + j, ⟨?_, ?_, ?_, ?_⟩, by omega⟩
      · simp [hc, hstop]
      · simp [hreg, hdr, hdd, hs.eq_dividend]
      · rw [hreg, Function.update_of_ne hr.symm, Function.update_self, BitVec.toNat_shiftLeft,
          hs.eq_divisor, Nat.shiftLeft_eq, Nat.mod_eq_of_lt hfit, Nat.pow_add, Nat.mul_assoc]
      · simp [hreg, hs.eq_note, hg k hk]
      · intro q h₁ h₂
        simp [hreg, h₁, h₂, hs.frame q h₁ h₂]
  · refine .branch hb.get ?_ (.here ?_)
    · intro s hs
      obtain ⟨⟨hc, -⟩ | ⟨-, k, hk, hlt⟩, hlo⟩ := hs
      · simp [Cond.holds, hc] at hlo
      · exact ih (32 - k) hlt s ⟨k, hk, rfl⟩
    · rintro s ⟨⟨-, hstop⟩ | ⟨hc, -⟩, hlo⟩
      · exact ⟨rfl, hstop⟩
      · simp [Cond.holds, hc] at hlo

/-! ### Subtracting it on the way back -/

theorem reg_divide (ho : ∀ t : Cpu Reg, t.reg divisor = s.reg divisor → o.val t = x)
    (ho' : ∀ t : Cpu Reg, t.reg curbit = s.reg curbit → b.val t = y)
    (hdr : dividend ≠ result) (hdc : dividend ≠ curbit) :
    (execAll (divide dividend result o b) s).reg =
      if x ≤ s.reg dividend then
        Function.update (Function.update s.reg dividend (s.reg dividend - x)) result
          (s.reg result ||| y)
      else s.reg := by
  have hc : (Op.sub.flags s (s.reg dividend) o).c = decide (x ≤ s.reg dividend) := by
    rw [Op.c_flags, ho s rfl, Op.carry]
  have hreg : (Op.sub.flags s (s.reg dividend) o).reg = s.reg := rfl
  rw [divide, execAll_cons, exec_test, if_pos (show Cond.al.holds s = true from rfl)]
  generalize Op.sub.flags s (s.reg dividend) o = t at hc hreg
  split
  next h =>
    rw [decide_eq_true h] at hc
    simp [Cond.holds, hc, hreg, Op.result, ho, ho', hdc, hdr.symm, Cpu.reg_set_eq]
  next h =>
    rw [decide_eq_false h] at hc
    simp [Cond.holds, hc, hreg]

/-- In a turn of the main loop, after `j` of its four subtractions: the divisor is shifted by
`k`, and the bits of the quotient above bit `k - j` are there. -/
structure Dividing (dividend divisor result curbit : Reg) (n d : ℕ) (u : Reg → Word) (k j : ℕ)
    (s : Cpu Reg) : Prop where
  eq_divisor : (s.reg divisor).toNat = d * 2 ^ k
  eq_curbit : (s.reg curbit).toNat = 2 ^ k
  undecided : j ≤ k + 1 → (s.reg dividend).toNat = n % (d * 2 ^ (k + 1 - j)) ∧
    (s.reg result).toNat = n / (d * 2 ^ (k + 1 - j)) * 2 ^ (k + 1 - j)
  decided : k + 1 ≤ j → (s.reg result).toNat = n / d
  frame : ∀ q, q ≠ dividend → q ≠ divisor → q ≠ result → q ≠ curbit → s.reg q = u q

theorem Dividing.next (hs : Dividing dividend divisor result curbit n d u k j s) (hd : 0 < d)
    (ho : ∀ t : Cpu Reg, t.reg divisor = s.reg divisor → o.val t = s.reg divisor >>> j)
    (ho' : ∀ t : Cpu Reg, t.reg curbit = s.reg curbit → b.val t = s.reg curbit >>> j)
    (hne : [dividend, divisor, result, curbit].Nodup) :
    Dividing dividend divisor result curbit n d u k (j + 1)
      (execAll (divide dividend result o b) s) := by
  simp only [List.nodup_cons, List.mem_cons, List.not_mem_nil, or_false, not_or] at hne
  obtain ⟨⟨hdd, hdr, hdc⟩, ⟨hir, hic⟩, hrc, -⟩ := hne
  have hreg := reg_divide ho ho' hdr hdc
  have hx : (s.reg divisor >>> j).toNat = d * 2 ^ k / 2 ^ j := by
    rw [BitVec.toNat_ushiftRight, hs.eq_divisor, Nat.shiftRight_eq_div_pow]
  have hy : (s.reg curbit >>> j).toNat = 2 ^ k / 2 ^ j := by
    rw [BitVec.toNat_ushiftRight, hs.eq_curbit, Nat.shiftRight_eq_div_pow]
  have hframe : ∀ q, q ≠ dividend → q ≠ result →
      (execAll (divide dividend result o b) s).reg q = s.reg q := by
    intro q h₁ h₂
    rw [hreg]
    split
    · rw [Function.update_of_ne h₂, Function.update_of_ne h₁]
    · rfl
  have hund : j + 1 ≤ k + 1 →
      ((execAll (divide dividend result o b) s).reg dividend).toNat =
        n % (d * 2 ^ (k + 1 - (j + 1))) ∧
      ((execAll (divide dividend result o b) s).reg result).toNat =
        n / (d * 2 ^ (k + 1 - (j + 1))) * 2 ^ (k + 1 - (j + 1)) := by
    intro hj
    obtain ⟨K, rfl⟩ : ∃ K, k = K + j := ⟨k - j, by omega⟩
    obtain ⟨hrem, hquot⟩ := hs.undecided (by omega)
    rw [show K + j + 1 - j = K + 1 by omega] at hrem hquot
    rw [show K + j + 1 - (j + 1) = K by omega]
    rw [Nat.pow_add, ← Nat.mul_assoc, Nat.mul_div_cancel _ (Nat.two_pow_pos j)] at hx
    rw [Nat.pow_add, Nat.mul_div_cancel _ (Nat.two_pow_pos j)] at hy
    have hm : d * 2 ^ (K + 1) = 2 * (d * 2 ^ K) := by ring
    rw [hm] at hrem
    by_cases hle : s.reg divisor >>> j ≤ s.reg dividend
    · rw [if_pos hle] at hreg
      rw [BitVec.le_def, hx, hrem] at hle
      obtain ⟨h₁, h₂⟩ := div_mod_of_fits (Nat.mul_pos hd (Nat.two_pow_pos K)) hle
      constructor
      · rw [hreg, Function.update_of_ne hdr, Function.update_self,
          BitVec.toNat_sub_of_le (by rwa [BitVec.le_def, hx, hrem]), hx, hrem, h₁]
      · rw [hreg, Function.update_self, BitVec.toNat_or, hquot, hy, hm, partial_quotient_or, h₂]
    · rw [if_neg hle] at hreg
      rw [BitVec.le_def, hx, hrem, not_le] at hle
      obtain ⟨h₁, h₂⟩ := div_mod_of_low hle
      constructor
      · rw [hreg, hrem, h₁]
      · rw [hreg, hquot, hm, h₂, Nat.pow_succ]
        ring
  refine ⟨?_, ?_, hund, ?_, ?_⟩
  · rw [hframe divisor (Ne.symm hdd) hir, hs.eq_divisor]
  · rw [hframe curbit (Ne.symm hdc) (Ne.symm hrc), hs.eq_curbit]
  · intro hj
    by_cases hjk : k + 1 ≤ j
    · -- The bit has been shifted out.
      have hzero : s.reg curbit >>> j = 0#32 := by
        apply BitVec.eq_of_toNat_eq
        rw [hy, Nat.div_eq_of_lt (Nat.pow_lt_pow_right (by omega) hjk)]
        rfl
      rw [hreg, hzero, BitVec.or_zero]
      split
      · rw [Function.update_self, hs.decided hjk]
      · exact hs.decided hjk
    · obtain rfl : j = k := by omega
      simpa using (hund le_rfl).2
  · intro q h₁ h₂ h₃ h₄
    rw [hframe q h₁ h₃, hs.frame q h₁ h₂ h₃ h₄]

/-- The end of a turn: the divisor and the bit move four places, if anything is left to do. -/
def shiftBack (dividend divisor curbit : Reg) : Code :=
  [.cmp .al dividend (.imm 0),
   .movs .ne curbit (.lsr curbit 4),
   .mov .ne divisor (.lsr divisor 4)]

theorem shiftBack_of_zero (h : s.reg dividend = 0#32) :
    (execAll (shiftBack dividend divisor curbit) s).z = true ∧
      (execAll (shiftBack dividend divisor curbit) s).reg = s.reg := by
  simp [shiftBack, Cond.holds, Op.result, Operand.val, h]

theorem shiftBack_of_out (h : s.reg dividend ≠ 0#32) (hout : s.reg curbit >>> 4 = 0#32) :
    (execAll (shiftBack dividend divisor curbit) s).z = true ∧
      (execAll (shiftBack dividend divisor curbit) s).reg =
        Function.update s.reg curbit 0#32 := by
  simp [shiftBack, Cond.holds, Op.result, Operand.val, h, hout, Cpu.reg_set_eq]

theorem shiftBack_of_more (h : s.reg dividend ≠ 0#32) (hmore : s.reg curbit >>> 4 ≠ 0#32)
    (hic : divisor ≠ curbit) :
    (execAll (shiftBack dividend divisor curbit) s).z = false ∧
      (execAll (shiftBack dividend divisor curbit) s).reg =
        Function.update (Function.update s.reg curbit (s.reg curbit >>> 4)) divisor
          (s.reg divisor >>> 4) := by
  simp [shiftBack, Cond.holds, Op.result, Operand.val, h, hmore, hic, Cpu.reg_set_eq]

/-- What the body leaves: the quotient, and the other registers as they were. -/
structure Divided (dividend divisor result curbit : Reg) (q : ℕ) (u : Reg → Word)
    (s : Cpu Reg) : Prop where
  quotient : (s.reg result).toNat = q
  frame : ∀ q, q ≠ dividend → q ≠ divisor → q ≠ result → q ≠ curbit → s.reg q = u q

/-- The four subtractions of a turn. -/
theorem Dividing.four (hd : 0 < d) (hne : [dividend, divisor, result, curbit].Nodup)
    (hs : Dividing dividend divisor result curbit n d u k 0 s) :
    Dividing dividend divisor result curbit n d u k 4
      (execAll (divide dividend result (.lsr divisor 3) (.lsr curbit 3))
        (execAll (divide dividend result (.lsr divisor 2) (.lsr curbit 2))
          (execAll (divide dividend result (.lsr divisor 1) (.lsr curbit 1))
            (execAll (divide dividend result (.reg divisor) (.reg curbit)) s)))) := by
  have h₁ := hs.next (o := .reg divisor) (b := .reg curbit) hd
    (fun t ht => by simp [Operand.val, ht]) (fun t ht => by simp [Operand.val, ht]) hne
  have h₂ := h₁.next (o := .lsr divisor 1) (b := .lsr curbit 1) hd
    (fun t ht => by simp [Operand.val, ht]) (fun t ht => by simp [Operand.val, ht]) hne
  have h₃ := h₂.next (o := .lsr divisor 2) (b := .lsr curbit 2) hd
    (fun t ht => by simp [Operand.val, ht]) (fun t ht => by simp [Operand.val, ht]) hne
  exact h₃.next (o := .lsr divisor 3) (b := .lsr curbit 3) hd
    (fun t ht => by simp [Operand.val, ht]) (fun t ht => by simp [Operand.val, ht]) hne

/-- The end of a turn: the quotient is there, or the divisor is four places further right. -/
theorem Dividing.turn_end (hd : 0 < d) (hne : [dividend, divisor, result, curbit].Nodup)
    (hs : Dividing dividend divisor result curbit n d u k 4 s) :
    let t := execAll (shiftBack dividend divisor curbit) s
    (t.z = true ∧ Divided dividend divisor result curbit (n / d) u t) ∨
      (t.z = false ∧ ∃ m < k, Dividing dividend divisor result curbit n d u m 0 t) := by
  simp only [List.nodup_cons, List.mem_cons, List.not_mem_nil, or_false, not_or] at hne
  obtain ⟨⟨hdd, hdr, hdc⟩, ⟨hir, hic⟩, hrc, -⟩ := hne
  intro t
  have hshift : (s.reg curbit >>> 4).toNat = 2 ^ k / 2 ^ 4 := by
    rw [BitVec.toNat_ushiftRight, hs.eq_curbit, Nat.shiftRight_eq_div_pow]
  by_cases hzero : s.reg dividend = 0#32
  · obtain ⟨hz, hreg⟩ : t.z = true ∧ t.reg = s.reg := shiftBack_of_zero hzero
    refine .inl ⟨hz, ?_, fun q a b c e => by rw [hreg, hs.frame q a b c e]⟩
    rw [hreg]
    by_cases hk : 4 ≤ k + 1
    · obtain ⟨hrem, hquot⟩ := hs.undecided hk
      rw [hzero] at hrem
      rw [hquot, div_of_mod_eq_zero hd hrem.symm]
    · exact hs.decided (by omega)
  by_cases hout : s.reg curbit >>> 4 = 0#32
  · obtain ⟨hz, hreg⟩ : t.z = true ∧ t.reg = Function.update s.reg curbit 0#32 :=
      shiftBack_of_out hzero hout
    refine .inl ⟨hz, ?_, fun q a b c e => ?_⟩
    · rw [hreg, Function.update_of_ne hrc]
      refine hs.decided ?_
      rw [hout] at hshift
      by_contra hk
      have hle : 2 ^ 4 ≤ 2 ^ k := Nat.pow_le_pow_right (by omega) (by omega)
      have := Nat.div_pos hle (Nat.two_pow_pos 4)
      simp only [BitVec.toNat_ofNat, Nat.zero_mod] at hshift
      omega
    · rw [hreg, Function.update_of_ne e, hs.frame q a b c e]
  · obtain ⟨hz, hreg⟩ := shiftBack_of_more hzero hout hic
    have hk : 4 ≤ k := by
      by_contra hk
      refine hout (BitVec.eq_of_toNat_eq ?_)
      rw [hshift, Nat.div_eq_of_lt (Nat.pow_lt_pow_right (by omega) (by omega))]
      rfl
    obtain ⟨m, rfl⟩ : ∃ m, k = m + 4 := ⟨k - 4, by omega⟩
    obtain ⟨hrem, hquot⟩ := hs.undecided (by omega)
    rw [show m + 4 + 1 - 4 = m + 1 - 0 by omega] at hrem hquot
    refine .inr ⟨hz, m, by omega, ?_, ?_, fun _ => ⟨?_, ?_⟩, fun h => absurd h (by omega), ?_⟩
    · rw [hreg, Function.update_self, BitVec.toNat_ushiftRight, hs.eq_divisor,
        Nat.shiftRight_eq_div_pow, Nat.pow_add, ← Nat.mul_assoc,
        Nat.mul_div_cancel _ (Nat.two_pow_pos 4)]
    · rw [hreg, Function.update_of_ne (Ne.symm hic), Function.update_self, hshift, Nat.pow_add,
        Nat.mul_div_cancel _ (Nat.two_pow_pos 4)]
    · rw [hreg, Function.update_of_ne hdd, Function.update_of_ne hdc, hrem]
    · rw [hreg, Function.update_of_ne (Ne.symm hir), Function.update_of_ne hrc, hquot]
    · intro q a b c e
      rw [hreg, Function.update_of_ne b, Function.update_of_ne e, hs.frame q a b c e]

/-- The main loop. -/
theorem divide_gets (hd : 0 < d) (hne : [dividend, divisor, result, curbit].Nodup)
    (hat : At p pc (List.flatten
      ([divide dividend result (.reg divisor) (.reg curbit),
        divide dividend result (.lsr divisor 1) (.lsr curbit 1),
        divide dividend result (.lsr divisor 2) (.lsr curbit 2),
        divide dividend result (.lsr divisor 3) (.lsr curbit 3),
        shiftBack dividend divisor curbit] ++ [[.b .ne pc]]))) :
    Gets p pc (fun s => ∃ k, Dividing dividend divisor result curbit n d u k 0 s)
      (atPc (pc + 16) (Divided dividend divisor result curbit (n / d) u)) := by
  obtain ⟨hcode, hb⟩ := At.flatten_append.mp hat
  have hturn := Gets.loop (p := p) (l := pc)
    (I := fun m s => Dividing dividend divisor result curbit n d u m 0 s)
    (Q := atPc (pc + 16) (Divided dividend divisor result curbit (n / d) u)) ?_
  · intro s hs
    obtain ⟨k, hk⟩ := hs
    exact hturn k s hk
  intro k ih
  refine .straight hcode (by simp [divide, shiftBack])
    (R := fun t => (t.z = true ∧ Divided dividend divisor result curbit (n / d) u t) ∨
      (t.z = false ∧ ∃ m < k, Dividing dividend divisor result curbit n d u m 0 t)) ?_
    (.branch hb.get ?_ (.here ?_))
  · intro s hs
    simp only [List.flatten_cons, List.flatten_nil, List.append_nil, execAll_append]
    exact (hs.four hd hne).turn_end hd hne
  · rintro s ⟨⟨hz, -⟩ | ⟨-, m, hm, hs⟩, hne⟩
    · simp [Cond.holds, hz] at hne
    · exact ih m hm s hs
  · rintro s ⟨⟨-, hs⟩ | ⟨hz, -⟩, hne⟩
    · exact ⟨rfl, hs⟩
    · simp [Cond.holds, hz] at hne

/-! ### The whole body -/

theorem lt_of_tst (w : Word) (h : w &&& 0xe0000000#32 = 0#32) : w.toNat < 2 ^ 29 := by
  have hshift := congrArg (fun v : Word => v >>> 29) h
  simp only [BitVec.ushiftRight_and_distrib] at hshift
  have hnat := congrArg BitVec.toNat hshift
  rw [BitVec.toNat_and, BitVec.toNat_ushiftRight, Nat.shiftRight_eq_div_pow] at hnat
  have hmask : (0xe0000000#32 >>> 29).toNat = 2 ^ 3 - 1 := by decide
  have hw := w.isLt
  rw [hmask, Nat.and_two_pow_sub_one_eq_mod, Nat.mod_eq_of_lt (by omega)] at hnat
  simp only [BitVec.zero_ushiftRight, BitVec.toNat_ofNat, Nat.zero_mod] at hnat
  omega

/-- The first shift: three places at once, where nothing is lost. -/
theorem start_spec (hdd : dividend ≠ divisor) (hdc : dividend ≠ curbit) (hic : divisor ≠ curbit)
    (s : Cpu Reg) :
    ∃ k, Scaled dividend divisor curbit (fun k => 1#32 <<< k) (s.reg dividend).toNat
      (s.reg divisor).toNat s.reg k
      (execAll [.tst .al divisor (.imm 0xe0000000), .mov .eq divisor (.lsl divisor 3),
        .mov .eq curbit (.imm 8), .mov .ne curbit (.imm 1)] s) := by
  have hz : (Op.and.flags s (s.reg divisor) (.imm 0xe0000000)).z =
      (s.reg divisor &&& 0xe0000000#32 == 0#32) := rfl
  have hreg : (Op.and.flags s (s.reg divisor) (.imm 0xe0000000)).reg = s.reg := rfl
  rw [execAll_cons, exec_test, if_pos (show Cond.al.holds s = true from rfl)]
  generalize Op.and.flags s (s.reg divisor) (.imm 0xe0000000) = t at hz hreg
  by_cases h : s.reg divisor &&& 0xe0000000#32 = 0#32
  · have hz : t.z = true := by rw [hz, h]; rfl
    have hlt := lt_of_tst _ h
    refine ⟨3, ?_, ?_, ?_, fun q h₁ h₂ => ?_⟩
    · simp [Cond.holds, hz, hreg, hdd, hdc]
    · simp only [execAll_cons, execAll_nil, exec_alu, Cond.holds, hz, hreg, Op.result, Operand.val,
        if_true, Bool.not_true, Bool.false_eq_true, if_false, Cpu.z_set]
      rw [Cpu.reg_set_of_ne _ _ hic, Cpu.reg_set_self, BitVec.toNat_shiftLeft, Nat.shiftLeft_eq,
        Nat.mod_eq_of_lt (by omega)]
    · simp [Cond.holds, hz, Op.result, Operand.val]
    · simp [Cond.holds, hz, hreg, h₁, h₂]
  · have hz : t.z = false := by rw [hz]; exact beq_eq_false_iff_ne.mpr h
    refine ⟨0, ?_, ?_, ?_, fun q h₁ h₂ => ?_⟩
    · simp [Cond.holds, hz, hreg, hdc]
    · simp [Cond.holds, hz, hreg, hic]
    · simp [Cond.holds, hz, Op.result, Operand.val]
    · simp [Cond.holds, hz, hreg, h₂]

theorem lt_of_scaled (hd : 0 < d) (h : (s.reg divisor).toNat = d * 2 ^ k) : k < 32 := by
  have hlt := (s.reg divisor).isLt
  rw [h] at hlt
  have hle : 2 ^ k ≤ d * 2 ^ k := Nat.le_mul_of_pos_left _ hd
  exact (Nat.pow_lt_pow_iff_right (by omega)).mp (lt_of_le_of_lt hle hlt)

/-- Where the shifting loops stop, at most one bit of the dividend is to the left. -/
theorem lt_of_stop (h : 0x80000000#32 ≤ s.reg divisor ∨ s.reg dividend ≤ s.reg divisor) (hd : 0 < d)
    (hdiv : (s.reg divisor).toNat = d * 2 ^ k) : (s.reg dividend).toNat < d * 2 ^ (k + 1) := by
  have hlt := (s.reg dividend).isLt
  have hpos := Nat.mul_pos hd (Nat.two_pow_pos k)
  rw [Nat.pow_succ, ← Nat.mul_assoc]
  obtain h | h := h
  · rw [BitVec.le_def, hdiv] at h
    change 2 ^ 31 ≤ _ at h
    omega
  · rw [BitVec.le_def, hdiv] at h
    omega

/-- `ARM_DIV_BODY` divides. -/
theorem armDivBody_gets {base : ℕ} (hd : 0 < (u divisor).toNat)
    (hne : [dividend, divisor, result, curbit].Nodup)
    (hat : At p base (armDivBody dividend divisor result curbit base)) :
    Gets p base (fun s => s.reg = u)
      (atPc (base + 31) (Divided dividend divisor result curbit
        ((u dividend).toNat / (u divisor).toNat) u)) := by
  have hne' := hne
  simp only [List.nodup_cons, List.mem_cons, List.not_mem_nil, or_false, not_or] at hne'
  obtain ⟨⟨hdd, hdr, hdc⟩, ⟨hir, hic⟩, hrc, -⟩ := hne'
  obtain ⟨hstart, hat⟩ := At.flatten_cons.mp hat
  obtain ⟨hscale, hat⟩ := At.flatten_cons.mp hat
  obtain ⟨hb, hat⟩ := At.flatten_cons.mp hat
  obtain ⟨hscale', hat⟩ := At.flatten_cons.mp hat
  obtain ⟨hb', hat⟩ := At.flatten_cons.mp hat
  obtain ⟨hmov, hat⟩ := At.flatten_cons.mp hat
  refine .straight hstart rfl (R := fun t => ∃ k, Scaled dividend divisor curbit
    (fun k => 1#32 <<< k) (u dividend).toNat (u divisor).toNat u k t) ?_ ?_
  · rintro s rfl
    exact start_spec hdd hdc hic s
  refine .trans (scale_gets (f := fun w => w <<< 4) ?_ ?_ (Ne.symm hic) hdd hdc (by omega) (by decide)
    hd rfl (At.append.mpr ⟨hscale, hb⟩)) ?_
  · intro t
    cases h : t.c <;> simp [Cond.holds, h, Op.result, Operand.val]
  · intro k _
    rw [← BitVec.shiftLeft_add]
  refine .trans ((scale_gets (f := fun w => w <<< 1) (g := fun k => 1#32 <<< k)
    (n := (u dividend).toNat) (u := u) ?_ ?_ (Ne.symm hic) hdd hdc (by omega) (by decide)
    hd rfl (At.append.mpr ⟨hscale', hb'⟩)).strengthen ?_) ?_
  · intro t
    cases h : t.c <;> simp [Cond.holds, h, Op.result, Operand.val]
  · intro k _
    rw [← BitVec.shiftLeft_add]
  · rintro s ⟨k, hs, -⟩
    exact ⟨k, hs⟩
  refine .straight hmov rfl (R := fun t => ∃ k, Dividing dividend divisor result curbit
    (u dividend).toNat (u divisor).toNat u k 0 t) ?_ (divide_gets hd hne hat)
  rintro s ⟨k, hs, hstop⟩
  have hlt := lt_of_stop hstop hd hs.eq_divisor
  have hk := lt_of_scaled hd hs.eq_divisor
  rw [hs.eq_dividend] at hlt
  refine ⟨k, ?_, ?_, fun _ => ⟨?_, ?_⟩, fun h => absurd h (by omega), fun q _ h₂ h₃ h₄ => ?_⟩
  · simp [Cond.holds, hir, hs.eq_divisor]
  · simp [Cond.holds, Ne.symm hrc, hs.eq_note, Nat.shiftLeft_eq,
      Nat.mod_eq_of_lt (Nat.pow_lt_pow_right (by omega : 1 < 2) hk)]
  · simp [Cond.holds, hdr, hs.eq_dividend, Nat.mod_eq_of_lt hlt]
  · simp [Cond.holds, Op.result, Operand.val, Nat.div_eq_of_lt hlt]
  · simp [Cond.holds, h₃, hs.frame q h₂ h₄]

/-! ### The exponent of a power of two -/

/-- The divisor is down to the `a`-th power of two, and `order` counts the rest. -/
structure Ordered (divisor order : Reg) (e : ℕ) (u : Reg → Word) (a : ℕ) (s : Cpu Reg) : Prop where
  eq_divisor : (s.reg divisor).toNat = 2 ^ a
  eq_order : (s.reg order).toNat + a = e
  frame : ∀ q, q ≠ divisor → q ≠ order → s.reg q = u q

/-- The first step, which sets `order`. -/
theorem order_start {e : ℕ} (hdo : divisor ≠ order) (h : (s.reg divisor).toNat = 2 ^ e)
    (he : e < 32) :
    ∃ a < 16, Ordered divisor order e s.reg a
      (execAll [.cmp .al divisor (.imm 0x10000), .mov .hs divisor (.lsr divisor 16),
        .mov .hs order (.imm 16), .mov .lo order (.imm 0)] s) := by
  have hc : (Op.sub.flags s (s.reg divisor) (.imm 0x10000)).c = decide (2 ^ 16 ≤ 2 ^ e) := by
    rw [← h]; rfl
  have hreg : (Op.sub.flags s (s.reg divisor) (.imm 0x10000)).reg = s.reg := rfl
  rw [execAll_cons, exec_test, if_pos (show Cond.al.holds s = true from rfl)]
  generalize Op.sub.flags s (s.reg divisor) (.imm 0x10000) = t at hc hreg
  by_cases hle : 16 ≤ e
  · rw [decide_eq_true (Nat.pow_le_pow_right (by omega) hle)] at hc
    refine ⟨e - 16, by omega, ?_, ?_, fun q h₁ h₂ => ?_⟩
    · obtain ⟨a, rfl⟩ : ∃ a, e = a + 16 := ⟨e - 16, by omega⟩
      simp [Cond.holds, hc, hreg, hdo, Op.result, Operand.val, h, Nat.shiftRight_eq_div_pow,
        Nat.pow_add]
    · simp [Cond.holds, hc, Op.result, Operand.val]
      omega
    · simp [Cond.holds, hc, hreg, h₁, h₂]
  · rw [decide_eq_false (not_le.mpr (Nat.pow_lt_pow_right (by omega) (by omega)))] at hc
    refine ⟨e, by omega, ?_, ?_, fun q _ h₂ => ?_⟩
    · simp [Cond.holds, hc, hreg, hdo, h]
    · simp [Cond.holds, hc, Op.result, Operand.val]
    · simp [Cond.holds, hc, hreg, h₂]

/-- One more halving of the range. -/
theorem Ordered.halve {e a m : ℕ} {w v : Word} (hs : Ordered divisor order e u a s)
    (hdo : divisor ≠ order) (ha : a < 2 * m) (he : e < 32) (hw : w.toNat = 2 ^ m)
    (hv : v.toNat = m) :
    ∃ a < m, Ordered divisor order e u a
      (execAll [.cmp .al divisor (.imm w), .mov .hs divisor (.lsr divisor m),
        .add .hs order order (.imm v)] s) := by
  have hc : (Op.sub.flags s (s.reg divisor) (.imm w)).c = decide (2 ^ m ≤ 2 ^ a) := by
    rw [← hs.eq_divisor, ← hw]; rfl
  have hreg : (Op.sub.flags s (s.reg divisor) (.imm w)).reg = s.reg := rfl
  rw [execAll_cons, exec_test, if_pos (show Cond.al.holds s = true from rfl)]
  generalize Op.sub.flags s (s.reg divisor) (.imm w) = t at hc hreg
  have heq := hs.eq_order
  by_cases hle : m ≤ a
  · rw [decide_eq_true (Nat.pow_le_pow_right (by omega) hle)] at hc
    refine ⟨a - m, by omega, ?_, ?_, fun q h₁ h₂ => ?_⟩
    · obtain ⟨b, rfl⟩ : ∃ b, a = b + m := ⟨a - m, by omega⟩
      simp [Cond.holds, hc, hreg, hdo, Op.result, Operand.val, hs.eq_divisor,
        Nat.shiftRight_eq_div_pow, Nat.pow_add]
    · simp only [execAll_cons, execAll_nil, exec_alu, Cond.holds, hc, hreg, Op.result, Operand.val,
        if_true, Bool.false_eq_true, if_false, Cpu.c_set, Cpu.reg_set_self, BitVec.toNat_add]
      rw [Cpu.reg_set_of_ne _ _ (Ne.symm hdo), hreg, hv, Nat.mod_eq_of_lt (by omega)]
      omega
    · simp [Cond.holds, hc, hreg, h₁, h₂, hs.frame q h₁ h₂]
  · rw [decide_eq_false (not_le.mpr (Nat.pow_lt_pow_right (by omega) (by omega)))] at hc
    refine ⟨a, by omega, ?_, ?_, fun q h₁ h₂ => ?_⟩
    · simp [Cond.holds, hc, hreg, hs.eq_divisor]
    · simp [Cond.holds, hc, hreg, heq]
    · simp [Cond.holds, hc, hreg, hs.frame q h₁ h₂]

/-- The last two bits at once. -/
theorem Ordered.finish {e a : ℕ} (hs : Ordered divisor order e u a s) (ha : a < 4) (he : e < 32) :
    let t := execAll [.cmp .al divisor (.imm 4), .add .hi order order (.imm 3),
      .add .ls order order (.lsr divisor 1)] s
    (t.reg order).toNat = e ∧ ∀ q, q ≠ divisor → q ≠ order → t.reg q = u q := by
  have hdiv : s.reg divisor = BitVec.ofNat 32 (2 ^ a) := by
    apply BitVec.eq_of_toNat_eq
    rw [hs.eq_divisor, BitVec.toNat_ofNat,
      Nat.mod_eq_of_lt (Nat.pow_lt_pow_right (by omega) (by omega))]
  have hc : (Op.sub.flags s (s.reg divisor) (.imm 4)).c = decide (4#32 ≤ s.reg divisor) := rfl
  have hz : (Op.sub.flags s (s.reg divisor) (.imm 4)).z = (s.reg divisor - 4#32 == 0#32) := rfl
  have hreg : (Op.sub.flags s (s.reg divisor) (.imm 4)).reg = s.reg := rfl
  intro t
  have ht : t = execAll [.add .hi order order (.imm 3), .add .ls order order (.lsr divisor 1)]
      (Op.sub.flags s (s.reg divisor) (.imm 4)) := rfl
  generalize Op.sub.flags s (s.reg divisor) (.imm 4) = w at hc hz hreg ht
  have heq := hs.eq_order
  rw [hdiv] at hc hz
  constructor
  · interval_cases a <;>
      simp [ht, Cond.holds, hc, hz, hreg, hdiv, Op.result, Operand.val, BitVec.toNat_add] <;>
      omega
  · intro q h₁ h₂
    rw [ht]
    interval_cases a <;>
      simp [Cond.holds, hc, hz, hreg, h₂, hs.frame q h₁ h₂]

/-- `ARM_DIV2_ORDER` finds the exponent. -/
theorem armDiv2Order_spec {e : ℕ} (hdo : divisor ≠ order) (h : (s.reg divisor).toNat = 2 ^ e) :
    ((execAll (armDiv2Order divisor order) s).reg order).toNat = e ∧
      ∀ q, q ≠ divisor → q ≠ order →
        (execAll (armDiv2Order divisor order) s).reg q = s.reg q := by
  have he : e < 32 := (Nat.pow_lt_pow_iff_right (by omega)).mp (h ▸ (s.reg divisor).isLt)
  simp only [armDiv2Order, List.flatten_cons, List.flatten_nil, List.append_nil, execAll_append]
  obtain ⟨a, ha, h₁⟩ := order_start hdo h he
  obtain ⟨b, hb, h₂⟩ := h₁.halve (m := 8) (w := 0x100) (v := 8) hdo (by omega) he (by decide)
    (by decide)
  obtain ⟨c, hc, h₃⟩ := h₂.halve (m := 4) (w := 0x10) (v := 4) hdo (by omega) he (by decide)
    (by decide)
  exact h₃.finish hc he

end S3c2440.Arith
