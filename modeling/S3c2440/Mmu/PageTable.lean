import S3c2440.Theory.Loop
import Mathlib.Algebra.Ring.Nat
import Mathlib.Logic.Function.Iterate

/-!
# The page table

`bare_board/code/cacheAndmmu/001_icache_021_002/mmu.c`: `create_page_table` writes section
descriptors to the first-level table at `0x32000000`, one for each MiB of the addresses it maps.
`start.S` calls it before it enables the MMU.

The MMU takes the descriptor of an address from the table at the address's upper 12 bits. The low
two bits of a descriptor say what it is: `00` is a fault, `10` a section. That of a section
has the upper 12 bits of the physical address, the domain, the access permissions, and the
bits C and B.

## What is proved

* `descriptor_createPageTable` — the descriptor of every address, whatever memory held before.
* `page_table_realises_map` — what each address that is mapped is translated to.
* `unlisted_kept` — of all others, the descriptor is what memory held there.
-/

namespace S3c2440.Mmu

open Theory

/-! ### The MMU -/

/-- Memory, a word at each address that is a multiple of four. -/
abbrev Mem : Type := BitVec 32 → BitVec 32

/-- What an address is translated to. -/
structure Mapping where
  /-- The physical address. -/
  pa : BitVec 32
  /-- The domain. -/
  domain : BitVec 4
  /-- The access permissions. -/
  ap : BitVec 2
  /-- C. -/
  cacheable : Bool
  /-- B. -/
  bufferable : Bool
  deriving DecidableEq

/-- Where the descriptor of an address is, with the table at `ttb`. -/
def firstLevel (ttb va : BitVec 32) : BitVec 32 := (ttb &&& 0xffffc000) ||| (va >>> 20) <<< 2

/-- The descriptor of an address. -/
def descriptor (ttb : BitVec 32) (m : Mem) (va : BitVec 32) : BitVec 32 := m (firstLevel ttb va)

/-- A descriptor of a fault. -/
def IsFault (desc : BitVec 32) : Prop := desc.extractLsb' 0 2 = 0

/-- The translation by the descriptor of a section. -/
def sectionMapping (desc va : BitVec 32) : Option Mapping :=
  if desc.extractLsb' 0 2 = 2 then
    some
      { pa := (desc &&& 0xfff00000) ||| (va &&& 0x000fffff)
        domain := desc.extractLsb' 5 4
        ap := desc.extractLsb' 10 2
        cacheable := desc.getLsbD 3
        bufferable := desc.getLsbD 2 }
  else none

/-- The translation of an address. -/
def translate (ttb : BitVec 32) (m : Mem) (va : BitVec 32) : Option Mapping :=
  sectionMapping (descriptor ttb m va) va

/-! ### `mmu.c` -/

/-- `MMU_SECDESC_AP`. -/
def mmuSecdescAp : BitVec 32 := 3 <<< 10

/-- `MMU_SECDESC_DOMAIN`. -/
def mmuSecdescDomain : BitVec 32 := 0 <<< 5

/-- `MMU_SECDESC_NCNB`. -/
def mmuSecdescNcnb : BitVec 32 := 0 <<< 2

/-- `MMU_SECDESC_WB`. -/
def mmuSecdescWb : BitVec 32 := 3 <<< 2

/-- `MMU_SECDESC_TYPE`. -/
def mmuSecdescType : BitVec 32 := 1 <<< 4 ||| 1 <<< 1

/-- `MMU_SECDESC_FOR_IO`. -/
def mmuSecdescForIo : BitVec 32 :=
  mmuSecdescAp ||| mmuSecdescDomain ||| mmuSecdescNcnb ||| mmuSecdescType

/-- `MMU_SECDESC_FOR_MEM`. -/
def mmuSecdescForMem : BitVec 32 :=
  mmuSecdescAp ||| mmuSecdescDomain ||| mmuSecdescWb ||| mmuSecdescType

/-- What a section is for. -/
inductive Kind where
  /-- `IO`. -/
  | io
  /-- `MEM`. -/
  | mem
  deriving DecidableEq

/-- The low bits of its descriptor. -/
def Kind.bits : Kind → BitVec 32
  | .io => mmuSecdescForIo
  | .mem => mmuSecdescForMem

/-- `create_secdesc`. -/
def createSecdesc (m : Mem) (ttb va pa : BitVec 32) (kind : Kind) : Mem :=
  let index := va / 0x100000
  Function.update m (ttb + 4 * index) ((pa &&& 0xfff00000) ||| kind.bits)

/-- The table. -/
def ttb : BitVec 32 := 0x32000000

/-- `va`, `pa` and memory. -/
structure Cursor where
  /-- `va`. -/
  va : BitVec 32
  /-- `pa`. -/
  pa : BitVec 32
  /-- Memory. -/
  mem : Mem

/-- The body of the loops. -/
def mapNext (kind : Kind) (s : Cursor) : Cursor :=
  { va := s.va + 0x100000, pa := s.pa + 0x100000, mem := createSecdesc s.mem ttb s.va s.pa kind }

/-- `for(;va < last; )`. -/
def mapBelow (last : BitVec 32) (kind : Kind) (s : Cursor) : Option Cursor :=
  whileLoop (fun s => decide (s.va < last)) (mapNext kind) 4096 s

/-- `for(;va <= last; )`. -/
def mapUpTo (last : BitVec 32) (kind : Kind) (s : Cursor) : Option Cursor :=
  whileLoop (fun s => decide (s.va ≤ last)) (mapNext kind) 4096 s

/-- `create_page_table`; `none` if a loop has not ended after as many turns as the table has
entries. -/
def createPageTable (m : Mem) : Option Mem := do
  let m := createSecdesc m ttb 0 0 .io
  let m := createSecdesc m ttb 0x40000000 0x40000000 .mem
  let s ← mapBelow 0x34000000 .mem ⟨0x30000000, 0x30000000, m⟩
  let s ← mapUpTo 0x5b000000 .io ⟨0x48000000, 0x48000000, s.mem⟩
  let m := createSecdesc s.mem ttb 0x33c00000 0x33c00000 .io
  return createSecdesc m ttb 0xb0000000 0x30000000 .mem

/-! ### What is in the table -/

/-- The number of the section of an address. -/
def sectionOf (va : BitVec 32) : ℕ := va.toNat / 2 ^ 20

/-- The descriptor that maps an address to itself. -/
def flat (kind : Kind) (va : BitVec 32) : BitVec 32 := (va &&& 0xfff00000) ||| kind.bits

section Table

variable (m : Mem) (va : BitVec 32) {kind : Kind}

theorem toNat_index : (va / 0x100000).toNat = sectionOf va := BitVec.toNat_udiv

theorem sectionOf_lt : sectionOf va < 4096 := by
  have hlt := va.isLt
  rw [sectionOf]
  omega

/-- The entry that the MMU looks at is the one that `create_secdesc` writes. -/
theorem firstLevel_ttb : firstLevel ttb va = ttb + 4 * (va / 0x100000) := by
  have hindex : (va >>> 20) <<< 2 = 4 * (va / 0x100000) := by
    apply BitVec.eq_of_toNat_eq
    rw [BitVec.toNat_shiftLeft, BitVec.toNat_ushiftRight, BitVec.toNat_mul, toNat_index,
      Nat.shiftRight_eq_div_pow, Nat.shiftLeft_eq, Nat.mul_comm]
    rfl
  have hdisjoint : ttb &&& (va >>> 20) <<< 2 = 0#32 := by
    apply BitVec.eq_of_getLsbD_eq
    intro i hi
    rw [BitVec.getLsbD_and, BitVec.getLsbD_zero]
    by_cases h : i < 14
    · have hlow : ∀ i < 14, ttb.getLsbD i = false := by decide
      rw [hlow i h, Bool.false_and]
    · rw [BitVec.getLsbD_shiftLeft, BitVec.getLsbD_ushiftRight,
        BitVec.getLsbD_of_ge va _ (by omega), Bool.and_false, Bool.and_false]
  rw [← hindex, BitVec.add_eq_or_of_and_eq_zero _ _ hdisjoint]
  rfl

/-- The number of its section says where the descriptor of an address is. -/
theorem entry_inj {va' : BitVec 32} :
    ttb + 4 * (va' / 0x100000) = ttb + 4 * (va / 0x100000) ↔ sectionOf va' = sectionOf va := by
  have hlt := sectionOf_lt va
  have hlt' := sectionOf_lt va'
  rw [BitVec.add_right_inj, ← BitVec.toNat_inj, BitVec.toNat_mul, BitVec.toNat_mul, toNat_index,
    toNat_index]
  change 4 * _ % 2 ^ 32 = 4 * _ % 2 ^ 32 ↔ _
  omega

/-- What `create_secdesc` does to the table. -/
theorem descriptor_createSecdesc (va' pa : BitVec 32) (kind : Kind) :
    descriptor ttb (createSecdesc m ttb va' pa kind) va =
      if sectionOf va = sectionOf va' then flat kind pa else descriptor ttb m va := by
  rw [descriptor, descriptor, createSecdesc, firstLevel_ttb, Function.update_apply]
  exact if_congr (entry_inj va') rfl rfl

/-- The upper 12 bits of an address. -/
theorem and_section : va &&& (0xfff00000 : BitVec 32) = (va >>> 20) <<< 20 := by
  have hmask : ∀ i < 32, (0xfff00000#32).getLsbD i = decide (20 ≤ i) := by decide
  apply BitVec.eq_of_getLsbD_eq
  intro i hi
  rw [BitVec.getLsbD_and, BitVec.getLsbD_shiftLeft, BitVec.getLsbD_ushiftRight]
  by_cases h : 20 ≤ i
  · simp [hmask i hi, h, hi, Nat.not_lt_of_le h, Nat.add_sub_cancel' h]
  · simp [hmask i hi, h]

/-- They are those of any address in its section. -/
theorem and_section_congr {va' : BitVec 32} (h : sectionOf va' = sectionOf va) :
    va' &&& (0xfff00000 : BitVec 32) = va &&& (0xfff00000 : BitVec 32) := by
  have hshift : va' >>> 20 = va >>> 20 := by
    apply BitVec.eq_of_toNat_eq
    rw [BitVec.toNat_ushiftRight, BitVec.toNat_ushiftRight, Nat.shiftRight_eq_div_pow,
      Nat.shiftRight_eq_div_pow]
    exact h
  rw [and_section, and_section, hshift]

theorem flat_congr {va' : BitVec 32} (h : sectionOf va' = sectionOf va) :
    flat kind va' = flat kind va := by
  rw [flat, flat, and_section_congr va h]

/-! ### The loops -/

section Loops

variable (kind)

/-- The first address of section `i`. -/
def sectionAddr (i : ℕ) : BitVec 32 := BitVec.ofNat 32 (i * 2 ^ 20)

theorem toNat_sectionAddr {i : ℕ} (hi : i < 4096) : (sectionAddr i).toNat = i * 2 ^ 20 := by
  rw [sectionAddr, BitVec.toNat_ofNat]
  omega

theorem sectionOf_sectionAddr {i : ℕ} (hi : i < 4096) : sectionOf (sectionAddr i) = i := by
  rw [sectionOf, toNat_sectionAddr hi]
  omega

theorem sectionAddr_succ (i : ℕ) : sectionAddr i + 0x100000 = sectionAddr (i + 1) := by
  rw [sectionAddr, sectionAddr, Nat.succ_mul, BitVec.ofNat_add]
  rfl

/-- `k` turns, from section `b` on. -/
theorem mapNext_iterate {b k : ℕ} (hk : b + k ≤ 4096) :
    ∃ m', (mapNext kind)^[k] ⟨sectionAddr b, sectionAddr b, m⟩ =
        ⟨sectionAddr (b + k), sectionAddr (b + k), m'⟩ ∧
      ∀ va, descriptor ttb m' va =
        if b ≤ sectionOf va ∧ sectionOf va < b + k then flat kind va else descriptor ttb m va := by
  induction k with
  | zero => exact ⟨m, rfl, fun va => (if_neg (by omega)).symm⟩
  | succ k ih =>
    obtain ⟨m', hm', hdesc⟩ := ih (by omega)
    refine ⟨createSecdesc m' ttb (sectionAddr (b + k)) (sectionAddr (b + k)) kind, ?_, fun va => ?_⟩
    · rw [Function.iterate_succ_apply', hm', mapNext, sectionAddr_succ]
      rfl
    · -- the last turn writes the descriptor of section `b + k`, and no other
      have hsection := sectionOf_sectionAddr (i := b + k) (by omega)
      rw [descriptor_createSecdesc, hsection, hdesc]
      by_cases h : sectionOf va = b + k
      · rw [if_pos h, if_pos (by omega)]
        exact flat_congr va (hsection.trans h.symm)
      · rw [if_neg h]
        exact if_congr (by omega) rfl rfl

/-- A loop that ends after `n` turns. -/
theorem mapLoop (cond : BitVec 32 → Bool) {b n : ℕ} (hn : b + n ≤ 4096)
    (hcond : ∀ k < n, cond (sectionAddr (b + k)) = true)
    (hend : cond (sectionAddr (b + n)) = false) :
    ∃ t, whileLoop (fun s => cond s.va) (mapNext kind) 4096 ⟨sectionAddr b, sectionAddr b, m⟩ =
        some t ∧
      ∀ va, descriptor ttb t.mem va =
        if b ≤ sectionOf va ∧ sectionOf va < b + n then flat kind va else descriptor ttb m va := by
  have hva : ∀ k ≤ n, ((mapNext kind)^[k] ⟨sectionAddr b, sectionAddr b, m⟩).va =
      sectionAddr (b + k) := by
    intro k hk
    obtain ⟨m', hm', -⟩ := mapNext_iterate m kind (b := b) (k := k) (by omega)
    rw [hm']
  obtain ⟨m', hm', hdesc⟩ := mapNext_iterate m kind hn
  refine ⟨_, whileLoop_of_trajectory
    (fun k => (mapNext kind)^[k] ⟨sectionAddr b, sectionAddr b, m⟩) n (fun k hk => ⟨?_, ?_⟩) ?_
    (by omega), ?_⟩
  · rw [hva k (Nat.le_of_lt hk)]
    exact hcond k hk
  · exact (Function.iterate_succ_apply' ..).symm
  · rw [hva n le_rfl]
    exact hend
  · rw [hm']
    exact hdesc

theorem mapBelow_sections {b n : ℕ} (hn : b + n < 4096) :
    ∃ t, mapBelow (sectionAddr (b + n)) kind ⟨sectionAddr b, sectionAddr b, m⟩ = some t ∧
      ∀ va, descriptor ttb t.mem va =
        if b ≤ sectionOf va ∧ sectionOf va < b + n then flat kind va else descriptor ttb m va := by
  refine mapLoop m kind (fun va => decide (va < sectionAddr (b + n))) (by omega)
    (fun k hk => ?_) (decide_eq_false (BitVec.lt_irrefl _))
  rw [decide_eq_true_eq, BitVec.lt_def, toNat_sectionAddr (by omega), toNat_sectionAddr hn]
  omega

theorem mapUpTo_sections {b n : ℕ} (hn : b + n + 1 < 4096) :
    ∃ t, mapUpTo (sectionAddr (b + n)) kind ⟨sectionAddr b, sectionAddr b, m⟩ = some t ∧
      ∀ va, descriptor ttb t.mem va =
        if b ≤ sectionOf va ∧ sectionOf va < b + (n + 1) then flat kind va
        else descriptor ttb m va := by
  refine mapLoop m kind (fun va => decide (va ≤ sectionAddr (b + n))) (by omega)
    (fun k hk => ?_) (decide_eq_false ?_)
  · rw [decide_eq_true_eq, BitVec.le_def, toNat_sectionAddr (by omega),
      toNat_sectionAddr (by omega)]
    omega
  · rw [BitVec.le_def, toNat_sectionAddr (by omega), toNat_sectionAddr (by omega)]
    omega

end Loops

/-! ### The whole table -/

/-- What `create_page_table` writes for an address; nothing for one that it does not map. -/
def written : Option (BitVec 32) :=
  if sectionOf va = 0xb00 then some (flat .mem 0x30000000)
  else if sectionOf va = 0x33c then some (flat .io va)
  else if 0x480 ≤ sectionOf va ∧ sectionOf va < 0x5b1 then some (flat .io va)
  else if 0x300 ≤ sectionOf va ∧ sectionOf va < 0x340 then some (flat .mem va)
  else if sectionOf va = 0x400 then some (flat .mem va)
  else if sectionOf va = 0 then some (flat .io va)
  else none

/-- The descriptor of every address. -/
theorem descriptor_createPageTable :
    ∃ t, createPageTable m = some t ∧
      ∀ va, descriptor ttb t va = (written va).getD (descriptor ttb m va) := by
  obtain ⟨s, hs, hdescs⟩ := mapBelow_sections
    (createSecdesc (createSecdesc m ttb 0 0 .io) ttb 0x40000000 0x40000000 .mem) .mem
    (b := 0x300) (n := 0x40) (by omega)
  rw [show sectionAddr (0x300 + 0x40) = 0x34000000 from rfl,
    show sectionAddr 0x300 = 0x30000000 from rfl] at hs
  obtain ⟨u, hu, hdescu⟩ := mapUpTo_sections s.mem .io (b := 0x480) (n := 0x130)
    (by omega)
  rw [show sectionAddr (0x480 + 0x130) = 0x5b000000 from rfl,
    show sectionAddr 0x480 = 0x48000000 from rfl] at hu
  refine ⟨createSecdesc (createSecdesc u.mem ttb 0x33c00000 0x33c00000 .io) ttb 0xb0000000
    0x30000000 .mem, ?_, fun va => ?_⟩
  · simp only [createPageTable, hs, Option.bind_eq_bind, Option.bind_some, hu]
    rfl
  · have hlink : sectionOf 0xb0000000 = 0xb00 := rfl
    have hframe : sectionOf 0x33c00000 = 0x33c := rfl
    have hsram : sectionOf 0x40000000 = 0x400 := rfl
    have hzero : sectionOf 0 = 0 := rfl
    rw [descriptor_createSecdesc, descriptor_createSecdesc, hdescu, hdescs,
      descriptor_createSecdesc, descriptor_createSecdesc, hlink, hframe, hsram, hzero, written]
    split
    case isTrue => rfl
    split
    case isTrue h => exact flat_congr va (hframe.trans h.symm)
    split
    case isTrue => rfl
    split
    case isTrue => rfl
    split
    case isTrue h => exact flat_congr va (hsram.trans h.symm)
    split
    case isTrue h => exact flat_congr va (hzero.trans h.symm)
    case isFalse => rfl

/-- The low bits of a descriptor are those of what its section is for. -/
theorem getLsbD_flat {i : ℕ} (hi : i < 20) : (flat kind va).getLsbD i = kind.bits.getLsbD i := by
  have hmask : ∀ i < 20, (0xfff00000 : BitVec 32).getLsbD i = false := by decide
  rw [flat, BitVec.getLsbD_or, BitVec.getLsbD_and, hmask i hi, Bool.and_false, Bool.false_or]

theorem extractLsb_flat {n k : ℕ} (hk : n + k ≤ 20) :
    (flat kind va).extractLsb' n k = kind.bits.extractLsb' n k := by
  apply BitVec.eq_of_getLsbD_eq
  intro i hi
  rw [BitVec.getLsbD_extractLsb', BitVec.getLsbD_extractLsb', getLsbD_flat va (by omega)]

theorem flat_and : flat kind va &&& 0xfff00000 = va &&& 0xfff00000 := by
  have hbits : kind.bits &&& 0xfff00000 = 0#32 := by cases kind <;> decide
  rw [flat, BitVec.and_or_distrib_right, hbits, BitVec.or_zero, BitVec.and_assoc, BitVec.and_self]

/-- The address in the section that begins at `pa`. -/
def inSection (pa va : BitVec 32) : BitVec 32 := (pa &&& 0xfff00000) ||| (va &&& 0x000fffff)

/-- What is mapped for devices: neither cached nor buffered. -/
def uncached (pa : BitVec 32) : Mapping := ⟨pa, 0, 3, false, false⟩

/-- What is mapped as memory: cached and buffered. -/
def cached (pa : BitVec 32) : Mapping := ⟨pa, 0, 3, true, true⟩

/-- What is mapped for each. -/
def Kind.mapping : Kind → BitVec 32 → Mapping
  | .io => uncached
  | .mem => cached

/-- The translation by a descriptor of the table. -/
theorem sectionMapping_flat (pa : BitVec 32) :
    sectionMapping (flat kind pa) va = some (kind.mapping (inSection pa va)) := by
  rw [sectionMapping, flat_and, extractLsb_flat _ (by omega), extractLsb_flat _ (by omega),
    extractLsb_flat _ (by omega), getLsbD_flat _ (by omega), getLsbD_flat _ (by omega)]
  cases kind <;> rfl

theorem translate_of_written {m t : Mem} {va pa : BitVec 32}
    (hdesc : ∀ va, descriptor ttb t va = (written va).getD (descriptor ttb m va))
    (hw : written va = some (flat kind pa)) :
    translate ttb t va = some (kind.mapping (inSection pa va)) := by
  rw [translate, hdesc, hw, Option.getD_some, sectionMapping_flat]

theorem inSection_eq_add (pa : BitVec 32) :
    inSection pa va = (pa &&& 0xfff00000) + (va &&& 0x000fffff) := by
  have hdisjoint : (pa &&& 0xfff00000) &&& (va &&& 0x000fffff) = 0#32 := by
    have hmask : (0xfff00000 : BitVec 32) &&& 0x000fffff = 0#32 := rfl
    rw [BitVec.and_comm va, BitVec.and_assoc, ← BitVec.and_assoc _ _ va, hmask, BitVec.zero_and,
      BitVec.and_zero]
  rw [inSection, BitVec.add_eq_or_of_and_eq_zero _ _ hdisjoint]

theorem inSection_self : inSection va va = va := by
  have hmask : (0xfff00000 : BitVec 32) ||| 0x000fffff = BitVec.allOnes 32 := rfl
  rw [inSection, ← BitVec.and_or_distrib_left, hmask, BitVec.and_allOnes]

/-- The section that the program is linked for is the first one of the SDRAM. -/
theorem inSection_link (h : sectionOf va = 0xb00) : inSection 0x30000000 va = va - 0x80000000 := by
  have hlink : va &&& 0xfff00000 = (0xb0000000 : BitVec 32) :=
    (and_section_congr (0xb0000000 : BitVec 32) h).trans rfl
  have hva : va = 0xb0000000 + (va &&& 0x000fffff) := by
    rw [← hlink, ← inSection_eq_add, inSection_self]
  have hbase : (0x30000000 : BitVec 32) &&& 0xfff00000 = 0x30000000 := rfl
  rw [inSection_eq_add, hbase]
  generalize va &&& 0x000fffff = offset at hva
  rw [hva]
  bv_omega

end Table

/-- The frame buffer. -/
def InFrameBuffer (va : BitVec 32) : Prop := 0x33c00000 ≤ va ∧ va < 0x33d00000

/-- The addresses that are mapped. -/
inductive Listed (va : BitVec 32) : Prop where
  /-- The start of memory. -/
  | start : va < 0x00100000 → Listed va
  /-- The SDRAM. -/
  | sdram : 0x30000000 ≤ va → va < 0x34000000 → Listed va
  /-- The internal memory, if the program has come from NOR flash. -/
  | sram : 0x40000000 ≤ va → va < 0x40100000 → Listed va
  /-- The registers. -/
  | registers : 0x48000000 ≤ va → va < 0x5b100000 → Listed va
  /-- Where the program is linked for. -/
  | link : 0xb0000000 ≤ va → va < 0xb0100000 → Listed va

theorem written_of_not_listed {va : BitVec 32} (h : ¬ Listed va) : written va = none := by
  unfold written sectionOf
  rw [if_neg fun hs => h (.link (by bv_omega) (by bv_omega)),
    if_neg fun hs => h (.sdram (by bv_omega) (by bv_omega)),
    if_neg fun hs => h (.registers (by bv_omega) (by bv_omega)),
    if_neg fun hs => h (.sdram (by bv_omega) (by bv_omega)),
    if_neg fun hs => h (.sram (by bv_omega) (by bv_omega)),
    if_neg fun hs => h (.start (by bv_omega))]

/-- Whatever memory held before, `create_page_table` maps the addresses from 0 and of the registers
to themselves, uncached; those of the internal memory and the SDRAM to themselves, cached and
buffered but for the frame buffer; and those that the program is linked for to the SDRAM. -/
theorem page_table_realises_map (m : Mem) :
    ∃ t, createPageTable m = some t ∧ ∀ va,
      (va < 0x00100000 → translate ttb t va = some (uncached va)) ∧
      (0x40000000 ≤ va → va < 0x40100000 → translate ttb t va = some (cached va)) ∧
      (0x30000000 ≤ va → va < 0x34000000 → InFrameBuffer va →
        translate ttb t va = some (uncached va)) ∧
      (0x30000000 ≤ va → va < 0x34000000 → ¬ InFrameBuffer va →
        translate ttb t va = some (cached va)) ∧
      (0x48000000 ≤ va → va < 0x5b100000 → translate ttb t va = some (uncached va)) ∧
      (0xb0000000 ≤ va → va < 0xb0100000 →
        translate ttb t va = some (cached (va - 0x80000000))) := by
  obtain ⟨t, ht, hdesc⟩ := descriptor_createPageTable m
  have hio : ∀ va, written va = some (flat .io va) → translate ttb t va = some (uncached va) := by
    intro va hw
    rw [translate_of_written hdesc hw, inSection_self]
    rfl
  have hmem : ∀ va, written va = some (flat .mem va) → translate ttb t va = some (cached va) := by
    intro va hw
    rw [translate_of_written hdesc hw, inSection_self]
    rfl
  refine ⟨t, ht, fun va => ⟨fun hlast => ?_, fun hfirst hlast => ?_, fun hfirst hlast hframe => ?_,
    fun hfirst hlast hframe => ?_, fun hfirst hlast => ?_, fun hfirst hlast => ?_⟩⟩
  · have hsection : sectionOf va = 0 := by unfold sectionOf; bv_omega
    exact hio va (by rw [written, hsection]; rfl)
  · have hsection : sectionOf va = 0x400 := by unfold sectionOf; bv_omega
    exact hmem va (by rw [written, hsection]; rfl)
  · have hsection : sectionOf va = 0x33c := by unfold sectionOf InFrameBuffer at *; bv_omega
    exact hio va (by rw [written, hsection]; rfl)
  · have hsection : 0x300 ≤ sectionOf va ∧ sectionOf va < 0x340 ∧ sectionOf va ≠ 0x33c := by
      unfold sectionOf InFrameBuffer at *
      bv_omega
    refine hmem va ?_
    rw [written, if_neg (by omega), if_neg (by omega), if_neg (by omega), if_pos (by omega)]
  · have hsection : 0x480 ≤ sectionOf va ∧ sectionOf va < 0x5b1 := by unfold sectionOf; bv_omega
    refine hio va ?_
    rw [written, if_neg (by omega), if_neg (by omega), if_pos (by omega)]
  · have hsection : sectionOf va = 0xb00 := by unfold sectionOf; bv_omega
    have hw : written va = some (flat .mem 0x30000000) := by rw [written, hsection]; rfl
    rw [translate_of_written hdesc hw, inSection_link va hsection]
    rfl

/-- Of an address that is not mapped, the descriptor is what memory held there before: a fault only
if that was one. -/
theorem unlisted_kept (m : Mem) :
    ∃ t, createPageTable m = some t ∧ ∀ va, ¬ Listed va →
      descriptor ttb t va = descriptor ttb m va ∧
        (IsFault (descriptor ttb t va) ↔ IsFault (descriptor ttb m va)) := by
  obtain ⟨t, ht, hdesc⟩ := descriptor_createPageTable m
  refine ⟨t, ht, fun va hva => ?_⟩
  rw [hdesc, written_of_not_listed hva]
  exact ⟨rfl, Iff.rfl⟩

/-- Memory that holds nothing but `0xc1e`: an address that is not mapped is translated to the start
of memory. -/
theorem unlisted_kept_leftover :
    ∃ t, createPageTable (fun _ => 0xc1e) = some t ∧ ¬ Listed 0x60000000 ∧
      ¬ IsFault (descriptor ttb t 0x60000000) ∧
      translate ttb t 0x60000000 = some (cached 0) := by
  obtain ⟨t, ht, hdesc⟩ := descriptor_createPageTable fun _ => 0xc1e
  have hleft : descriptor ttb t 0x60000000 = 0xc1e := by
    rw [hdesc]
    rfl
  refine ⟨t, ht, fun hlisted => ?_, ?_, ?_⟩
  · cases hlisted with
    | link hfirst _ => exact absurd hfirst (by decide)
    | start hlast | sdram _ hlast | sram _ hlast | registers _ hlast =>
      exact absurd hlast (by decide)
  · rw [hleft, IsFault]
    decide
  · rw [translate, hleft]
    rfl

end S3c2440.Mmu
