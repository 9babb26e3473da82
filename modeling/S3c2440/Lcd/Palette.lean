import Mathlib.Data.BitVec
import Mathlib.Logic.Function.Basic

/-!
# The pseudo palette

`s3c_lcdfb_setcolreg` of `linux_driver/code/LCD_/lcd.c` packs the three components of a colour into
a word, as the bit fields of the screen say, and stores it in `pseudo_palette`, which has 16
entries. Its test is `regno > 16`. The memory is one of words, so that an entry has an address of 30
bits; `transp` is not used.

## What is proved

* `getLsbD_chanToField` — the bits of a component in its field.
* `setcolreg_safe_iff` — a register is refused, or its entry alone is set, to the colour, exactly if
  it is not 16; `setcolreg_behind` is a store behind the last entry.
-/

namespace S3c2440.Lcd

/-! ### The code -/

/-- `struct fb_bitfield`. -/
structure FbBitfield where
  /-- `offset`. -/
  offset : BitVec 32
  /-- `length`. -/
  length : BitVec 32

/-- The bit is one of the field. -/
def FbBitfield.Has (bf : FbBitfield) (i : ℕ) : Prop :=
  bf.offset.toNat ≤ i ∧ i < bf.offset.toNat + bf.length.toNat

/-- A field of at most 16 bits within a word. -/
structure FbBitfield.Fits (bf : FbBitfield) : Prop where
  /-- It is not longer than a component. -/
  length_le : bf.length.toNat ≤ 16
  /-- It ends within the word. -/
  end_le : bf.offset.toNat + bf.length.toNat ≤ 32

/-- The fields of a screen, none of which has a bit of another. -/
structure VarScreeninfo where
  /-- `red`. -/
  red : FbBitfield
  /-- `green`. -/
  green : FbBitfield
  /-- `blue`. -/
  blue : FbBitfield
  /-- The red field fits. -/
  red_fits : red.Fits
  /-- The green one does. -/
  green_fits : green.Fits
  /-- The blue one does. -/
  blue_fits : blue.Fits
  /-- Red and green are apart. -/
  red_green : ∀ i, red.Has i → ¬ green.Has i
  /-- Red and blue are. -/
  red_blue : ∀ i, red.Has i → ¬ blue.Has i
  /-- Green and blue are. -/
  green_blue : ∀ i, green.Has i → ¬ blue.Has i

/-- `chan_to_field`. -/
def chanToField (chan : BitVec 32) (bf : FbBitfield) : BitVec 32 :=
  let chan := chan &&& 0xffff
  let chan := chan >>> (16 - bf.length)
  chan <<< bf.offset

/-- The words of the memory. -/
abbrev Words : Type := BitVec 30 → BitVec 32

/-- `s3c_lcdfb_setcolreg`: what it returns, and the memory, with `pseudo_palette` at
`pseudoPalette`. -/
def s3cLcdfbSetcolreg (pseudoPalette : BitVec 30) (var : VarScreeninfo) (mem : Words)
    (regno red green blue : BitVec 32) : ℤ × Words :=
  if 16 < regno then (1, mem)
  else
    let val := chanToField red var.red
    let val := val ||| chanToField green var.green
    let val := val ||| chanToField blue var.blue
    (0, Function.update mem (pseudoPalette + regno.setWidth 30) val)

/-! ### A component in its field -/

/-- The field of `val` has the highest bits of the component. -/
def FbBitfield.Holds (bf : FbBitfield) (val : BitVec 32) (chan : BitVec 16) : Prop :=
  val.extractLsb' bf.offset.toNat bf.length.toNat =
    chan.extractLsb' (16 - bf.length.toNat) bf.length.toNat

variable {bf f g : FbBitfield} {i j : ℕ} {chan red green blue : BitVec 16}

/-- A component has no more than 16 bits already. -/
theorem and_ffff (chan : BitVec 16) : chan.setWidth 32 &&& 0xffff = chan.setWidth 32 := by
  have hchan := chan.isLt
  apply BitVec.eq_of_toNat_eq
  rw [BitVec.toNat_and, BitVec.toNat_setWidth, Nat.mod_eq_of_lt (by omega)]
  exact (Nat.and_two_pow_sub_one_eq_mod chan.toNat 16).trans (Nat.mod_eq_of_lt hchan)

/-- The bits of a component that has been put into its field. -/
theorem getLsbD_chanToField (h : bf.Fits) (chan : BitVec 16) (hi : i < 32) :
    (chanToField (chan.setWidth 32) bf).getLsbD i = true ↔ bf.offset.toNat ≤ i ∧
      chan.getLsbD (16 - bf.length.toNat + (i - bf.offset.toNat)) = true := by
  have hlen : (16 - bf.length).toNat = 16 - bf.length.toNat :=
    BitVec.toNat_sub_of_le (BitVec.le_def.mpr h.length_le)
  rw [chanToField, and_ffff, BitVec.ushiftRight_eq', hlen, BitVec.shiftLeft_eq',
    BitVec.getLsbD_shiftLeft, BitVec.getLsbD_ushiftRight, BitVec.getLsbD_setWidth]
  simp only [Bool.and_eq_true, decide_eq_true_eq, Bool.not_eq_true', decide_eq_false_iff_not]
  constructor
  · rintro ⟨⟨-, hge⟩, -, hbit⟩
    exact ⟨not_lt.mp hge, hbit⟩
  · rintro ⟨hge, hbit⟩
    have hlt := BitVec.lt_of_getLsbD hbit
    exact ⟨⟨hi, not_lt.mpr hge⟩, by omega, hbit⟩

/-- Only bits of the field are set. -/
theorem has_of_chanToField (h : bf.Fits) (chan : BitVec 16)
    (hbit : (chanToField (chan.setWidth 32) bf).getLsbD i = true) : bf.Has i := by
  have hi := BitVec.lt_of_getLsbD hbit
  obtain ⟨hge, hchan⟩ := (getLsbD_chanToField h chan hi).mp hbit
  have hlt := BitVec.lt_of_getLsbD hchan
  have hle := h.length_le
  exact ⟨hge, by omega⟩

/-- A field holds its component if its bits are those that have been put into it. -/
theorem holds_of_bits {val : BitVec 32} (h : bf.Fits)
    (hval : ∀ i, bf.Has i →
      (val.getLsbD i = true ↔ (chanToField (chan.setWidth 32) bf).getLsbD i = true)) :
    bf.Holds val chan := by
  have hend := h.end_le
  apply BitVec.eq_of_getLsbD_eq
  intro j hj
  have hbit := (hval (bf.offset.toNat + j) ⟨Nat.le_add_right _ _, Nat.add_lt_add_left hj _⟩).trans
    (getLsbD_chanToField h chan (by omega))
  rw [Nat.add_sub_cancel_left, and_iff_right (Nat.le_add_right _ _)] at hbit
  rw [BitVec.getLsbD_extractLsb', BitVec.getLsbD_extractLsb', Bool.eq_iff_iff.mpr hbit]

/-! ### The entry -/

/-- The register is one of the 16, its entry alone is changed, and the fields of the entry hold the
colour. -/
structure SetsEntry (pseudoPalette : BitVec 30) (var : VarScreeninfo) (mem : Words)
    (regno : BitVec 32) (red green blue : BitVec 16) (mem' : Words) : Prop where
  /-- It is one of the 16. -/
  regno_lt : regno.toNat < 16
  /-- All other memory is as it was. -/
  others : ∀ a ≠ pseudoPalette + regno.setWidth 30, mem' a = mem a
  /-- The red component. -/
  red : var.red.Holds (mem' (pseudoPalette + regno.setWidth 30)) red
  /-- The green one. -/
  green : var.green.Holds (mem' (pseudoPalette + regno.setWidth 30)) green
  /-- The blue one. -/
  blue : var.blue.Holds (mem' (pseudoPalette + regno.setWidth 30)) blue

/-- A register is refused and the memory left as it is, or its entry is set. -/
def Safe (pseudoPalette : BitVec 30) (var : VarScreeninfo) (mem : Words) (regno : BitVec 32)
    (red green blue : BitVec 16) : Prop :=
  let result := s3cLcdfbSetcolreg pseudoPalette var mem regno (red.setWidth 32)
    (green.setWidth 32) (blue.setWidth 32)
  result.1 ≠ 0 ∧ result.2 = mem ∨
    result.1 = 0 ∧ SetsEntry pseudoPalette var mem regno red green blue result.2

/-- The word of a colour. -/
def VarScreeninfo.pack (var : VarScreeninfo) (red green blue : BitVec 16) : BitVec 32 :=
  chanToField (red.setWidth 32) var.red ||| chanToField (green.setWidth 32) var.green |||
    chanToField (blue.setWidth 32) var.blue

/-- Its fields hold its components. -/
theorem holds_pack (var : VarScreeninfo) (red green blue : BitVec 16) :
    var.red.Holds (var.pack red green blue) red ∧ var.green.Holds (var.pack red green blue) green ∧
      var.blue.Holds (var.pack red green blue) blue := by
  have hbit : ∀ i, (var.pack red green blue).getLsbD i = true ↔
      ((chanToField (red.setWidth 32) var.red).getLsbD i = true ∨
        (chanToField (green.setWidth 32) var.green).getLsbD i = true) ∨
        (chanToField (blue.setWidth 32) var.blue).getLsbD i = true := by
    intro i
    rw [VarScreeninfo.pack, BitVec.getLsbD_or, BitVec.getLsbD_or, Bool.or_eq_true, Bool.or_eq_true]
  -- a field has no bits of the others
  refine ⟨holds_of_bits var.red_fits fun i hi => ?_, holds_of_bits var.green_fits fun i hi => ?_,
    holds_of_bits var.blue_fits fun i hi => ?_⟩
  · have hgreen := mt (has_of_chanToField var.green_fits green) (var.red_green i hi)
    have hblue := mt (has_of_chanToField var.blue_fits blue) (var.red_blue i hi)
    rw [hbit, or_iff_left hblue, or_iff_left hgreen]
  · have hred := mt (has_of_chanToField var.red_fits red) (fun h => var.red_green i h hi)
    have hblue := mt (has_of_chanToField var.blue_fits blue) (var.green_blue i hi)
    rw [hbit, or_iff_left hblue, or_iff_right hred]
  · have hred := mt (has_of_chanToField var.red_fits red) (fun h => var.red_blue i h hi)
    have hgreen := mt (has_of_chanToField var.green_fits green)
      (fun h => var.green_blue i h hi)
    rw [hbit, or_iff_right (not_or.mpr ⟨hred, hgreen⟩)]

/-- A register is refused, or set to its colour and no other, if and only if it is not 16. -/
theorem setcolreg_safe_iff (pseudoPalette : BitVec 30) (var : VarScreeninfo) (mem : Words)
    (regno : BitVec 32) (red green blue : BitVec 16) :
    Safe pseudoPalette var mem regno red green blue ↔ regno ≠ 16 := by
  obtain ⟨hred, hgreen, hblue⟩ := holds_pack var red green blue
  have hgt : 16 < regno ↔ 16 < regno.toNat := BitVec.lt_def
  rw [Safe, s3cLcdfbSetcolreg]
  by_cases h : 16 < regno
  · rw [if_pos h]
    refine iff_of_true (.inl ⟨one_ne_zero, rfl⟩) ?_
    rintro rfl
    exact absurd h (by decide)
  · rw [if_neg h]
    constructor
    · rintro (⟨hcode, -⟩ | ⟨-, hset⟩) rfl
      · exact hcode rfl
      · exact absurd hset.regno_lt (by decide)
    · intro hne
      have hle := mt hgt.mpr h
      have hlt : regno.toNat ≠ 16 := fun heq => hne (BitVec.eq_of_toNat_eq heq)
      have hself : Function.update mem (pseudoPalette + regno.setWidth 30)
          (var.pack red green blue) (pseudoPalette + regno.setWidth 30) =
            var.pack red green blue := Function.update_self ..
      rw [← hself] at hred hgreen hblue
      exact .inr ⟨rfl, by omega, fun a ha => Function.update_of_ne ha _ _, hred, hgreen, hblue⟩

/-- The fields of a screen with 5, 6 and 5 bits to a component. -/
def rgb565 : VarScreeninfo where
  red := ⟨11, 5⟩
  green := ⟨5, 6⟩
  blue := ⟨0, 5⟩
  red_fits := by constructor <;> decide
  green_fits := by constructor <;> decide
  blue_fits := by constructor <;> decide
  red_green i hred hgreen := absurd (hgreen.2.trans_le hred.1) (lt_irrefl i)
  red_blue i hred hblue := absurd (hblue.2.trans_le (le_trans (by decide) hred.1)) (lt_irrefl i)
  green_blue i hgreen hblue := absurd (hblue.2.trans_le hgreen.1) (lt_irrefl i)

/-- Register 16 is stored behind the last entry. -/
theorem setcolreg_behind : ¬ ∀ (pseudoPalette : BitVec 30) (var : VarScreeninfo) (mem : Words)
    (regno : BitVec 32) (red green blue : BitVec 16),
    Safe pseudoPalette var mem regno red green blue := by
  intro h
  rcases h 0 rgb565 (fun _ => 0) 16 0xffff 0xffff 0xffff with ⟨hcode, -⟩ | ⟨-, hset⟩
  · exact hcode rfl
  · exact absurd hset.regno_lt (by decide)

end S3c2440.Lcd
