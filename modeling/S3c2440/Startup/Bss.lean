import S3c2440.Theory.Loop
import S3c2440.Theory.Memory

/-!
# Clearing the bss

`clean_bss` of `bare_board/code/I2c/20200510_IIC/init.c` and the one of
`bare_board/code/SPI/code/01th_spi_i2c_adc_jz2440_oled_020_002/init.c`. Each clears word after word
from `__bss_start` on, the first while the address is at most the end, the second while it is
below it. Memory is bytes, and the end is wherever the linker script puts it: the scripts align
the beginning only.

## What is proved

* `whileLoop_clearWord` — what has been cleared after so many words.
* `i2cCleanBss_run`, `oledCleanBss_run` — how many words that is; `i2cCleanBss_last` — in the last
  word of the address space the first of them has no end.
* `cleanBss_exact_iff` — it clears the bss and nothing else just when the rest of the word at the
  end is zero before.
-/

namespace S3c2440.Startup

open Theory Theory.Memory

/-! ### The code -/

/-- The memory. -/
abbrev Mem := BitVec 32 → BitVec 8

/-- The pointer, and the memory. -/
structure Clearing where
  /-- `start`. -/
  start : BitVec 32
  /-- The memory. -/
  mem : Mem

/-- The bytes of a cleared word. -/
def zeroWord : List (BitVec 8) := [0, 0, 0, 0]

/-- `*start++ = 0`. -/
def clearWord (s : Clearing) : Clearing :=
  { start := s.start + 4, mem := store s.mem s.start zeroWord }

/-- `clean_bss` of the I2C project, for at most `fuel` turns. -/
def i2cCleanBss (fuel : ℕ) (bssStart bssEnd : BitVec 32) (mem : Mem) : Option Mem :=
  (whileLoop (fun s => s.start ≤ bssEnd) clearWord fuel ⟨bssStart, mem⟩).map Clearing.mem

/-- `clean_bss` of the OLED project. -/
def oledCleanBss (fuel : ℕ) (bssStart bssEnd : BitVec 32) (mem : Mem) : Option Mem :=
  (whileLoop (fun s => s.start < bssEnd) clearWord fuel ⟨bssStart, mem⟩).map Clearing.mem

/-! ### The bss -/

/-- What the linker gives. -/
structure Layout where
  /-- `__bss_start`. -/
  bssStart : BitVec 32
  /-- `_end`. -/
  bssEnd : BitVec 32
  /-- The beginning is that of a word. -/
  aligned : bssStart.toNat % 4 = 0
  /-- It is not behind the end. -/
  le : bssStart.toNat ≤ bssEnd.toNat

/-- The address of a byte of the bss. -/
def Layout.Bss (l : Layout) (a : BitVec 32) : Prop := l.bssStart ≤ a ∧ a < l.bssEnd

/-- `clean_bss` of the I2C project ends with the bss cleared and nothing else changed, as the other
one does. -/
def ClearsExactly (l : Layout) (mem : Mem) : Prop :=
  ∃ fuel m, i2cCleanBss fuel l.bssStart l.bssEnd mem = some m ∧ (∀ a, l.Bss a → m a = 0) ∧
    (∀ a, ¬ l.Bss a → m a = mem a) ∧ ∃ fuel', oledCleanBss fuel' l.bssStart l.bssEnd mem = some m

/-! ### Word after word -/

variable {l : Layout} {mem : Mem}

/-- The memory with `n` words cleared. -/
def cleared (start : BitVec 32) (n : ℕ) (mem : Mem) : Mem := fun a =>
  if (a - start).toNat / 4 < n then 0 else mem a

theorem storeBlocks_zeroWord (start : BitVec 32) {n : ℕ} (h : 4 * n ≤ 2 ^ 32) (mem : Mem) :
    storeBlocks start zeroWord (List.range n) mem = cleared start n mem := by
  funext a
  have hlt : (a - start).toNat % 4 < 4 := Nat.mod_lt _ (by omega)
  have hzero : ∀ k < 4, zeroWord[k]?.getD (mem a) = 0 := by
    intro k hk
    rcases k with _ | _ | _ | _ | k
    all_goals first | rfl | omega
  have hlen : zeroWord.length = 4 := rfl
  rw [storeBlocks_apply mem (by rw [hlen]; omega) (by rw [hlen]; omega), hlen, cleared]
  · simp only [List.mem_range, hzero _ hlt]
  · intro k hk
    have hk' := List.mem_range.mp hk
    rw [hlen]
    omega

/-- After `k` words. -/
def afterWords (start : BitVec 32) (mem : Mem) (k : ℕ) : Clearing where
  start := start + BitVec.ofNat 32 (4 * k)
  mem := storeBlocks start zeroWord (List.range k) mem

theorem clearWord_afterWords (start : BitVec 32) (mem : Mem) (k : ℕ) :
    clearWord (afterWords start mem k) = afterWords start mem (k + 1) := by
  rw [clearWord, afterWords, afterWords, List.range_succ, storeBlocks, storeBlocks,
    List.foldl_append, Nat.mul_succ, BitVec.ofNat_add, ← BitVec.add_assoc]
  rfl

/-- The loop clears `n` words, if the test holds before each of them and not after the last. -/
theorem whileLoop_clearWord {cond : Clearing → Bool} (start : BitVec 32) (mem : Mem) {n : ℕ}
    (hn : 4 * n ≤ 2 ^ 32) (hturn : ∀ k < n, cond (afterWords start mem k) = true)
    (hend : cond (afterWords start mem n) = false) :
    (whileLoop cond clearWord n ⟨start, mem⟩).map Clearing.mem = some (cleared start n mem) := by
  have hbegin : afterWords start mem 0 = ⟨start, mem⟩ :=
    congrArg (Clearing.mk · mem) (BitVec.add_zero start)
  have hrun := whileLoop_of_trajectory (afterWords start mem) n
    (fun k hk => ⟨hturn k hk, clearWord_afterWords start mem k⟩) hend (le_refl n)
  rw [← hbegin, hrun, Option.map_some, afterWords, storeBlocks_zeroWord start hn]

/-- Where the pointer is, as long as it does not go round. -/
theorem toNat_afterWords (start : BitVec 32) (mem : Mem) {k : ℕ}
    (h : start.toNat + 4 * k < 2 ^ 32) :
    (afterWords start mem k).start.toNat = start.toNat + 4 * k := by
  rw [afterWords, BitVec.toNat_add, BitVec.toNat_ofNat]
  omega

/-! ### How many words -/

/-- The I2C project clears the word at the end too. -/
def Layout.wordsTo (l : Layout) : ℕ := (l.bssEnd.toNat - l.bssStart.toNat) / 4 + 1

/-- The OLED project clears the words that begin before the end. -/
def Layout.wordsBelow (l : Layout) : ℕ := (l.bssEnd.toNat - l.bssStart.toNat + 3) / 4

theorem Layout.end_wordsTo (l : Layout) :
    l.bssStart.toNat + 4 * l.wordsTo = 4 * (l.bssEnd.toNat / 4) + 4 := by
  have haligned := l.aligned
  have hle := l.le
  rw [Layout.wordsTo]
  omega

theorem Layout.end_wordsBelow (l : Layout) :
    l.bssStart.toNat + 4 * l.wordsBelow = 4 * ((l.bssEnd.toNat + 3) / 4) := by
  have haligned := l.aligned
  have hle := l.le
  rw [Layout.wordsBelow]
  omega

theorem i2cCleanBss_run (hend : l.bssEnd.toNat < 2 ^ 32 - 4) (mem : Mem) :
    i2cCleanBss l.wordsTo l.bssStart l.bssEnd mem = some (cleared l.bssStart l.wordsTo mem) := by
  have hwords := l.end_wordsTo
  refine whileLoop_clearWord l.bssStart mem (by omega) (fun k hk => decide_eq_true ?_)
    (decide_eq_false ?_)
  · rw [BitVec.le_def, toNat_afterWords _ _ (by omega)]
    omega
  · rw [BitVec.le_def, toNat_afterWords _ _ (by omega)]
    omega

theorem oledCleanBss_run (hend : l.bssEnd.toNat < 2 ^ 32 - 4) (mem : Mem) :
    oledCleanBss l.wordsBelow l.bssStart l.bssEnd mem =
      some (cleared l.bssStart l.wordsBelow mem) := by
  have hwords := l.end_wordsBelow
  have haligned := l.aligned
  refine whileLoop_clearWord l.bssStart mem (by omega) (fun k hk => decide_eq_true ?_)
    (decide_eq_false ?_)
  · rw [BitVec.lt_def, toNat_afterWords _ _ (by omega)]
    omega
  · rw [BitVec.lt_def, toNat_afterWords _ _ (by omega)]
    omega

/-- With the end in the last word of the address space the pointer goes round. -/
theorem i2cCleanBss_last (hend : 2 ^ 32 - 4 ≤ l.bssEnd.toNat) (mem : Mem) (fuel : ℕ) :
    i2cCleanBss fuel l.bssStart l.bssEnd mem = none := by
  have hnone : whileLoop (fun s : Clearing => decide (s.start ≤ l.bssEnd)) clearWord fuel
      ⟨l.bssStart, mem⟩ = none := by
    refine whileLoop_diverges (fun s (hs : s.start.toNat % 4 = 0) => ?_) fuel l.aligned
    have hlt := s.start.isLt
    refine ⟨decide_eq_true (BitVec.le_def.mpr (by omega)), ?_⟩
    have hnext : (clearWord s).start.toNat = (s.start.toNat + 4) % 2 ^ 32 :=
      BitVec.toNat_add s.start 4
    omega
  rw [i2cCleanBss, hnone]
  rfl

/-! ### What has been cleared -/

/-- The words from the beginning on, as long as they do not go round. -/
theorem cleared_apply {n : ℕ} (hn : l.bssStart.toNat + 4 * n ≤ 2 ^ 32) (a : BitVec 32) :
    cleared l.bssStart n mem a =
      if l.bssStart.toNat ≤ a.toNat ∧ a.toNat < l.bssStart.toNat + 4 * n then 0 else mem a := by
  have ha := a.isLt
  rw [cleared, BitVec.toNat_sub]
  exact if_congr (by omega) rfl rfl

/-- The rest of the word at the end is zero, and it is not the last word. -/
def Layout.RestZero (l : Layout) (mem : Mem) : Prop :=
  l.bssEnd.toNat < 2 ^ 32 - 4 ∧
    ∀ a : BitVec 32, l.bssEnd ≤ a → a.toNat / 4 = l.bssEnd.toNat / 4 → mem a = 0

/-- The rest of the word at the end is cleared, so it was zero before if it is unchanged. -/
theorem ClearsExactly.restZero (h : ClearsExactly l mem) : l.RestZero mem := by
  obtain ⟨fuel, m, hrun, -, hout, -⟩ := h
  have hend : l.bssEnd.toNat < 2 ^ 32 - 4 := by
    by_contra hlast
    rw [i2cCleanBss_last (by omega)] at hrun
    cases hrun
  refine ⟨hend, fun a ha hword => ?_⟩
  have hm : m = cleared l.bssStart l.wordsTo mem := by
    obtain ⟨s, hs, rfl⟩ := Option.map_eq_some_iff.mp hrun
    obtain ⟨s', hs', hcleared⟩ := Option.map_eq_some_iff.mp (i2cCleanBss_run hend mem)
    rw [whileLoop_unique hs hs', hcleared]
  have hle := l.le
  have hwords := l.end_wordsTo
  rw [BitVec.le_def] at ha
  rw [← hout a fun hbss => absurd (BitVec.lt_def.mp hbss.2) (by omega), hm,
    cleared_apply (by omega), if_pos (by omega)]

/-- `clean_bss` of the I2C project clears the bss and nothing else, as the other one does, just when
the rest of the word at the end is zero before. -/
theorem cleanBss_exact_iff (l : Layout) (mem : Mem) : ClearsExactly l mem ↔ l.RestZero mem := by
  refine ⟨ClearsExactly.restZero, fun h => ?_⟩
  obtain ⟨hend, hzero⟩ := h
  have hle := l.le
  have hwords := l.end_wordsTo
  have hbelow := l.end_wordsBelow
  have hcleared : ∀ a, cleared l.bssStart l.wordsTo mem a = _ := cleared_apply (by omega)
  refine ⟨_, _, i2cCleanBss_run hend mem, fun a ha => ?_, fun a ha => ?_, _,
    (oledCleanBss_run hend mem).trans (congrArg some (funext fun a => ?_))⟩
  · have hstart := BitVec.le_def.mp ha.1
    have hlt := BitVec.lt_def.mp ha.2
    rw [hcleared, if_pos (by omega)]
  · rw [hcleared]
    split
    case isTrue hin =>
      rw [Layout.Bss, BitVec.le_def, BitVec.lt_def] at ha
      exact (hzero a (BitVec.le_def.mpr (by omega)) (by omega)).symm
    case isFalse => rfl
  · rw [hcleared, cleared_apply (by omega)]
    by_cases hin : l.bssEnd ≤ a ∧ a.toNat / 4 = l.bssEnd.toNat / 4
    · rw [hzero a hin.1 hin.2, ite_self, ite_self]
    · rw [BitVec.le_def] at hin
      exact if_congr (by omega) rfl rfl

/-- Four words, behind 12 KiB of text and data in the SDRAM. -/
def fourWords : Layout := ⟨0x30003000, 0x30003010, rfl, by decide⟩

/-- The word behind them is cleared. -/
theorem cleanBss_fourWords : ¬ ClearsExactly fourWords fun _ => 0xff := fun h => by
  have hzero : (0xff : BitVec 8) = 0 := h.restZero.2 0x30003010 (BitVec.le_refl _) rfl
  exact absurd hzero (by decide)

end S3c2440.Startup
