import Mathlib.Algebra.Ring.Nat
import Mathlib.Data.List.Basic
import Mathlib.Logic.Function.Iterate

/-!
# Memory

A memory gives a value for every address of `w` bits. Values are stored one after another
from an address on, which goes round at the end of the address space.

## What is proved

* `store_apply` — what is at an address after a store.
* `storeBlocks_apply` — after stores of the same values at multiples of their number from a
  base on: their order does not matter, nor whether one is made twice.
* `iterate_store` — a pointer that walks on with every store makes the first of them.
-/

namespace Theory.Memory

universe u

variable {w : ℕ} {β : Type u}

/-- The values `bs` are stored from `a` on. -/
def store (m : BitVec w → β) (a : BitVec w) : List β → BitVec w → β
  | [] => m
  | b :: bs => store (Function.update m a b) (a + 1) bs

/-- The values `bs` are stored from each of the addresses `base`, `base + bs.length`, … whose
number is in `is`. -/
def storeBlocks (base : BitVec w) (bs : List β) (is : List ℕ) (m : BitVec w → β) : BitVec w → β :=
  is.foldl (fun m i => store m (base + BitVec.ofNat w (bs.length * i)) bs) m

/-- How far `b` is after the address `k` after `a`. -/
theorem toNat_sub_add (a b : BitVec w) {k : ℕ} (hk : k < 2 ^ w) :
    (b - (a + BitVec.ofNat w k)).toNat =
      if k ≤ (b - a).toNat then (b - a).toNat - k else (b - a).toNat + (2 ^ w - k) := by
  have hlt := (b - a).isLt
  rw [← BitVec.sub_sub, BitVec.toNat_sub', BitVec.toNat_ofNat, Nat.mod_eq_of_lt hk]
  split
  case isTrue h =>
    rw [show (b - a).toNat + (2 ^ w - k) = (b - a).toNat - k + 2 ^ w by omega, Nat.add_mod_right,
      Nat.mod_eq_of_lt (by omega)]
  case isFalse h => exact Nat.mod_eq_of_lt (by omega)

/-! ### One store -/

theorem store_apply (m : BitVec w → β) (a b : BitVec w) {bs : List β} (hbs : bs.length < 2 ^ w) :
    store m a bs b = bs[(b - a).toNat]?.getD (m b) := by
  induction bs generalizing m a with
  | nil => rfl
  | cons c bs ih =>
    rw [List.length_cons] at hbs
    have hnext := toNat_sub_add a b (k := 1) (by omega)
    rw [store, ih _ _ (by omega)]
    by_cases h : b = a
    · -- the address just before the rest of the values: it is written first, and not again
      subst h
      have h0 : (b - b).toNat = 0 := by rw [BitVec.sub_self]; rfl
      rw [h0, if_neg (by omega)] at hnext
      rw [show b + 1 = b + BitVec.ofNat w 1 from rfl, hnext, h0, Function.update_self,
        List.getElem?_eq_none (by omega)]
      rfl
    · have hpos : 1 ≤ (b - a).toNat := by
        by_contra h0
        have hzero : b - a = 0 := BitVec.eq_of_toNat_eq (by
          rw [Nat.lt_one_iff.mp (Nat.not_le.mp h0)]
          rfl)
        exact h ((BitVec.sub_eq_iff_eq_add.mp hzero).trans (BitVec.zero_add a))
      rw [if_pos hpos] at hnext
      rw [show a + 1 = a + BitVec.ofNat w 1 from rfl, hnext, Function.update_of_ne h]
      obtain ⟨k, hk⟩ := Nat.exists_eq_add_of_le' hpos
      rw [hk, Nat.add_sub_cancel, List.getElem?_cons_succ]

theorem store_append (m : BitVec w → β) (a : BitVec w) (bs cs : List β) :
    store m a (bs ++ cs) = store (store m a bs) (a + BitVec.ofNat w bs.length) cs := by
  induction bs generalizing m a with
  | nil => rw [List.nil_append, List.length_nil, BitVec.add_zero]; rfl
  | cons b bs ih =>
    rw [List.cons_append, store, ih, store, List.length_cons, Nat.add_comm, BitVec.ofNat_add,
      ← BitVec.add_assoc]
    rfl

/-! ### Blocks -/

variable {base : BitVec w} {bs : List β}

/-- One block. -/
theorem store_block_apply (m : BitVec w → β) {i : ℕ} (hpos : 0 < bs.length)
    (hbs : bs.length < 2 ^ w) (hi : bs.length * (i + 1) ≤ 2 ^ w) (a : BitVec w) :
    store m (base + BitVec.ofNat w (bs.length * i)) bs a =
      if (a - base).toNat / bs.length = i then
        bs[(a - base).toNat % bs.length]?.getD (m a)
      else m a := by
  rw [Nat.mul_succ] at hi
  rw [store_apply _ _ _ hbs, toNat_sub_add _ _ (by omega)]
  by_cases h : (a - base).toNat / bs.length = i
  · obtain ⟨hle, hlt⟩ := (Nat.div_eq_iff hpos).mp h
    rw [if_pos h, if_pos (by rw [Nat.mul_comm]; exact hle), Nat.mod_eq_sub, h]
  · rw [if_neg h]
    have hout : ¬ (bs.length * i ≤ (a - base).toNat ∧
        (a - base).toNat < bs.length * i + bs.length) :=
      fun hin => h ((Nat.div_eq_iff hpos).mpr (by rw [Nat.mul_comm i]; omega))
    rw [List.getElem?_eq_none (by split <;> omega)]
    rfl

/-- The order of the stores does not matter, nor whether one is made twice. -/
theorem storeBlocks_apply (m : BitVec w → β) {is : List ℕ} (hpos : 0 < bs.length)
    (hbs : bs.length < 2 ^ w) (his : ∀ i ∈ is, bs.length * (i + 1) ≤ 2 ^ w) (a : BitVec w) :
    storeBlocks base bs is m a =
      if (a - base).toNat / bs.length ∈ is then
        bs[(a - base).toNat % bs.length]?.getD (m a)
      else m a := by
  induction is generalizing m with
  | nil => rfl
  | cons i is ih =>
    have hmod := Nat.mod_lt (a - base).toNat hpos
    rw [storeBlocks, List.foldl_cons, ← storeBlocks,
      ih _ fun i hi => his i (List.mem_cons_of_mem _ hi),
      store_block_apply _ hpos hbs (his i (List.mem_cons_self ..)), List.getElem?_eq_getElem hmod]
    generalize (a - base).toNat / bs.length = q
    rw [Option.getD_some, Option.getD_some]
    by_cases h' : q ∈ is
    · rw [if_pos h', if_pos (List.mem_cons_of_mem _ h')]
    · by_cases h : q = i
      · rw [if_neg h', if_pos h, if_pos (List.mem_cons.mpr (.inl h))]
      · rw [if_neg h', if_neg h, if_neg fun hm => (List.mem_cons.mp hm).elim h h']

/-- A pointer that walks on by one block with every store. -/
theorem iterate_store (m : BitVec w → β) (n : ℕ) :
    (fun s : BitVec w × (BitVec w → β) => (s.1 + BitVec.ofNat w bs.length, store s.2 s.1 bs))^[n]
        (base, m) =
      (base + BitVec.ofNat w (bs.length * n), storeBlocks base bs (List.range n) m) := by
  induction n with
  | zero => simp [storeBlocks]
  | succ n ih =>
    rw [Function.iterate_succ_apply', ih, List.range_succ, storeBlocks, storeBlocks,
      List.foldl_append, Nat.mul_succ, BitVec.ofNat_add, BitVec.add_assoc]
    rfl

end Theory.Memory
