import S3c2440.Arith.Div64
import S3c2440.Stdio.Strtoul
import Mathlib.Data.Nat.Digits.Lemmas

/-!
# Printing a number

`number` of `lib/vsprintf.c`, which writes a number with its sign, its base and its padding
at `str`, but nothing behind `end`: a character that does not fit any more only moves `str` on.
The digits come from `do_div`, which is `__do_div64`, and are in `tmp` from the last to the first.
Loops like `while (size-- > 0)` leave `size` negative. `size` and `precision` are integers of the
range of an `int`, and what is taken off `size` goes round at its end.

## What is proved

* `doDiv_routine` — `__do_div64` computes `do_div`.
* `tmp_length_le` — the digits fit into `tmp`.
* `number_eq` — what `number` prints, laid out: padding, sign, base and digits. It needs a width
  that is not negative, or the -1 that stands for none, and a text no longer than an `int` can count:
  `size` does not go round then.
-/

namespace S3c2440.Stdio

open Console

/-! ### Output into a buffer -/

/-- The memory, and the pointer `str` into it. -/
structure Out where
  mem : BitVec 32 → Byte
  str : BitVec 32

/-- `if (str <= end) *str = c; ++str;` -/
def put (lim : BitVec 32) (o : Out) (c : Byte) : Out where
  mem := if o.str ≤ lim then Function.update o.mem o.str c else o.mem
  str := o.str + 1

/-- `put` in a loop over a string. -/
def puts (lim : BitVec 32) : List Byte → Out → Out
  | [], o => o
  | c :: s, o => puts lim s (put lim o c)

/-- `put` of one character in a loop of `n` turns. -/
def fill (lim : BitVec 32) (c : Byte) : ℕ → Out → Out
  | 0, o => o
  | n + 1, o => fill lim c n (put lim o c)

/-- What becomes of a number in an `int`. -/
def asInt (a : ℤ) : ℤ := a.bmod (2 ^ 32)

/-- What `while (size-- > 0)` leaves of `size`. -/
def spent (size : ℤ) : ℤ := asInt (min size 0 - 1)

/-! ### The code -/

/-- The flags of a conversion. -/
structure Flags where
  zeropad : Bool
  sign : Bool
  plus : Bool
  space : Bool
  left : Bool
  special : Bool
  large : Bool
  deriving DecidableEq

def smallDigits : List Byte := text "0123456789abcdefghijklmnopqrstuvwxyz"

def largeDigits : List Byte := text "0123456789ABCDEFGHIJKLMNOPQRSTUVWXYZ"

/-- `do_div`: the quotient, which it stores, and the remainder, which it returns. -/
def doDiv (n : BitVec 64) (base : BitVec 32) : BitVec 64 × BitVec 32 :=
  (n / base.setWidth 64, (n % base.setWidth 64).setWidth 32)

/-- A base that `number` accepts. -/
structure Radix where
  val : ℕ
  two_le : 2 ≤ val
  le : val ≤ 36

theorem doDiv_toNat (n : BitVec 64) (b : Radix) :
    (doDiv n (BitVec.ofNat 32 b.val)).1.toNat = n.toNat / b.val ∧
      (doDiv n (BitVec.ofNat 32 b.val)).2.toNat = n.toNat % b.val := by
  have hle := b.le
  have hpos := b.two_le
  have hval : ((BitVec.ofNat 32 b.val).setWidth 64).toNat = b.val := by
    rw [BitVec.toNat_setWidth, BitVec.toNat_ofNat, Nat.mod_eq_of_lt (by omega),
      Nat.mod_eq_of_lt (by omega)]
  refine ⟨by rw [doDiv, BitVec.toNat_udiv, hval], ?_⟩
  have hlt := Nat.mod_lt n.toNat (show 0 < b.val by omega)
  rw [doDiv, BitVec.toNat_setWidth, BitVec.toNat_umod, hval, Nat.mod_eq_of_lt (by omega)]

/-- `while (num != 0) tmp[i++] = digits[do_div(num,base)]` -/
def tmpFrom (digits : List Byte) (b : Radix) (num : BitVec 64) : List Byte :=
  if h : num = 0 then []
  else
    have : (doDiv num (BitVec.ofNat 32 b.val)).1.toNat < num.toNat := by
      rw [(doDiv_toNat num b).1]
      exact Nat.div_lt_self (Nat.pos_of_ne_zero fun h' => h (BitVec.eq_of_toNat_eq h')) b.two_le
    let r := doDiv num (BitVec.ofNat 32 b.val)
    digits.getD r.2.toNat 0 :: tmpFrom digits b r.1
  termination_by num.toNat

/-- The digits, the last one first. -/
def tmp (digits : List Byte) (b : Radix) (num : BitVec 64) : List Byte :=
  if num = 0 then [ch '0'] else tmpFrom digits b num

/-- The sign, or 0, then the number without it, and what is left of the width. -/
def takeSign (type : Flags) (num : BitVec 64) (size : ℤ) : Byte × BitVec 64 × ℤ :=
  if type.sign then
    if num.toInt < 0 then (ch '-', -num, asInt (size - 1))
    else if type.plus then (ch '+', num, asInt (size - 1))
    else if type.space then (ch ' ', num, asInt (size - 1))
    else (0, num, size)
  else (0, num, size)

/-- `number` after the digits, the flags and the padding character `c` are settled. -/
def printField (lim : BitVec 32) (o : Out) (digits : List Byte) (type : Flags) (c : Byte)
    (num : BitVec 64) (b : Radix) (size precision : ℤ) : Out :=
  let (sign, num, size) := takeSign type num size
  let size :=
    if type.special then
      if b.val = 16 then asInt (size - 2) else if b.val = 8 then asInt (size - 1) else size
    else size
  let tmp := tmp digits b num
  let i : ℤ := tmp.length
  let precision := if i > precision then i else precision
  let size := asInt (size - precision)
  let (o, size) :=
    if !(type.zeropad || type.left) then (fill lim (ch ' ') size.toNat o, spent size) else (o, size)
  let o := if sign ≠ 0 then put lim o sign else o
  let o :=
    if type.special then
      if b.val = 8 then put lim o (ch '0')
      else if b.val = 16 then put lim (put lim o (ch '0')) (digits.getD 33 0)
      else o
    else o
  let (o, size) := if !type.left then (fill lim c size.toNat o, spent size) else (o, size)
  -- `while (i < precision--)`
  let o := fill lim (ch '0') (precision - i).toNat o
  let o := puts lim tmp.reverse o
  fill lim (ch ' ') size.toNat o

/-- `number`, once the base is known to be one that it accepts. -/
def numberIn (lim : BitVec 32) (o : Out) (num : BitVec 64) (b : Radix) (size precision : ℤ)
    (type : Flags) : Out :=
  let digits := if type.large then largeDigits else smallDigits
  let type := if type.left then { type with zeropad := false } else type
  let c := if type.zeropad then ch '0' else ch ' '
  printField lim o digits type c num b size precision

/-- `number`; `none` is its null pointer. -/
def number (lim : BitVec 32) (o : Out) (num : BitVec 64) (base : ℕ) (size precision : ℤ)
    (type : Flags) : Option Out :=
  if h : base < 2 ∨ base > 36 then none
  else some (numberIn lim o num ⟨base, by omega, by omega⟩ size precision type)

/-! ### The division -/

section Routine

open Theory.Arm Arith

/-- `do_div` in registers: `__do_div64` returns, and leaves the quotient in `yh` and `yl` and the
remainder in `xh`. -/
theorem doDiv_routine (s : Cpu Reg) (h : s.reg .r4 ≠ 0#32) :
    ∃ t, Steps doDiv64 (.before 0 s) (.returned t) ∧
      doDiv (s.reg xh ++ s.reg xl) (s.reg .r4) = (t.reg yh ++ t.reg yl, t.reg xh) ∧
      t.reg .r4 = s.reg .r4 := by
  obtain ⟨t, ht, hquot, hrem, h4⟩ := do_div64 s
  have happend : ∀ a b : BitVec 32, (a ++ b).toNat = a.toNat * 2 ^ 32 + b.toNat := by
    intro a b
    rw [BitVec.toNat_append, ← Nat.shiftLeft_add_eq_or_of_lt b.isLt, Nat.shiftLeft_eq]
  have hwide : ((s.reg .r4).setWidth 64).toNat = (s.reg .r4).toNat :=
    (BitVec.toNat_setWidth ..).trans (Nat.mod_eq_of_lt ((s.reg .r4).isLt.trans (by decide)))
  refine ⟨t, ht, Prod.ext ?_ ?_, h4⟩
  · apply BitVec.eq_of_toNat_eq
    rw [doDiv, BitVec.toNat_udiv, hwide, happend, happend, hquot]
  · apply BitVec.eq_of_toNat_eq
    have hlt := (t.reg xh).isLt
    rw [if_neg h] at hrem
    rw [doDiv, BitVec.toNat_setWidth, BitVec.toNat_umod, hwide, happend, ← hrem,
      Nat.mod_eq_of_lt hlt]

end Routine

/-! ### What is printed -/

section Text

variable (lim : BitVec 32) (o : Out)

theorem puts_append (s t : List Byte) : puts lim (s ++ t) o = puts lim t (puts lim s o) := by
  induction s generalizing o with
  | nil => rfl
  | cons c s ih => exact ih _

theorem fill_eq (c : Byte) (n : ℕ) : fill lim c n o = puts lim (List.replicate n c) o := by
  induction n generalizing o with
  | zero => rfl
  | succ n ih => exact ih _

theorem put_eq (c : Byte) : put lim o c = puts lim [c] o := rfl

theorem asInt_eq {a : ℤ} (h : -2 ^ 31 ≤ a) (h' : a < 2 ^ 31) : asInt a = a :=
  Int.bmod_eq_of_le (by norm_num; omega) (by norm_num; omega)

theorem spent_eq {size : ℤ} (h : -2 ^ 31 < size) : spent size = min size 0 - 1 :=
  asInt_eq (by omega) (by omega)

theorem spent_toNat {size : ℤ} (h : -2 ^ 31 < size) : (spent size).toNat = 0 := by
  rw [spent_eq h]
  omega

/-- A number in a base, without leading zeros. -/
def numeralIn (digits : List Byte) (b : Radix) (m : ℕ) : List Byte :=
  if m = 0 then [ch '0'] else (Nat.digits b.val m).reverse.map fun d => digits.getD d 0

theorem tmpFrom_eq (digits : List Byte) (b : Radix) (num : BitVec 64) :
    tmpFrom digits b num = (Nat.digits b.val num.toNat).map fun d => digits.getD d 0 := by
  induction h : num.toNat using Nat.strong_induction_on generalizing num with
  | _ m ih =>
    subst h
    rw [tmpFrom]
    by_cases hz : num = 0
    · rw [dif_pos hz, hz]
      simp
    · have hpos : 0 < num.toNat := Nat.pos_of_ne_zero fun h => hz (BitVec.eq_of_toNat_eq h)
      obtain ⟨hquot, hrem⟩ := doDiv_toNat num b
      rw [dif_neg hz, Nat.digits_def' b.two_le hpos, List.map_cons]
      dsimp only
      rw [ih _ (by rw [hquot]; exact Nat.div_lt_self hpos b.two_le) _ rfl, hquot, hrem]

/-- The digits are written from the last place of `tmp` to the first. -/
theorem tmp_reverse (digits : List Byte) (b : Radix) (num : BitVec 64) :
    (tmp digits b num).reverse = numeralIn digits b num.toNat := by
  unfold tmp numeralIn
  by_cases h : num = 0
  · rw [if_pos h, if_pos (by rw [h]; rfl)]
    rfl
  · have hne : num.toNat ≠ 0 := fun h' => h (BitVec.eq_of_toNat_eq h')
    rw [if_neg h, if_neg hne, tmpFrom_eq, List.map_reverse]

/-- `char tmp[66]` is large enough. -/
theorem tmp_length_le (digits : List Byte) (b : Radix) (num : BitVec 64) :
    (tmp digits b num).length ≤ 64 := by
  unfold tmp
  split
  · decide
  · rename_i h
    rw [tmpFrom_eq, List.length_map]
    refine (Nat.digits_length_le_iff b.two_le _).mpr (num.isLt.trans_le ?_)
    exact Nat.pow_le_pow_left b.two_le 64

/-- The sign of a number that is printed. -/
def signText (type : Flags) (num : BitVec 64) : List Byte :=
  if type.sign then
    if num.toInt < 0 then [ch '-']
    else if type.plus then [ch '+']
    else if type.space then [ch ' ']
    else []
  else []

/-- The number without its sign. -/
def magnitude (type : Flags) (num : BitVec 64) : ℕ :=
  if type.sign then num.toInt.natAbs else num.toNat

/-- What tells the base. -/
def baseText (digits : List Byte) (type : Flags) (b : Radix) : List Byte :=
  if type.special then
    if b.val = 8 then [ch '0']
    else if b.val = 16 then [ch '0', digits.getD 33 0]
    else []
  else []

/-- The digits of a number, with as many zeros before them as the precision asks for. -/
def digitsText (digits : List Byte) (b : Radix) (precision : ℤ) (m : ℕ) : List Byte :=
  List.replicate (precision - (numeralIn digits b m).length).toNat (ch '0') ++ numeralIn digits b m

/-- A number in its field. -/
def numberText (num : BitVec 64) (b : Radix) (size precision : ℤ) (type : Flags) : List Byte :=
  let digits := if type.large then largeDigits else smallDigits
  let front := signText type num ++ baseText digits type b
  let body := digitsText digits b precision (magnitude type num)
  let room := (size - (front.length + body.length)).toNat
  if type.left then front ++ body ++ List.replicate room (ch ' ')
  else if type.zeropad then front ++ List.replicate room (ch '0') ++ body
  else List.replicate room (ch ' ') ++ front ++ body

/-- `number` takes the sign off, and what it takes off the width is its length. -/
theorem takeSign_spec (type : Flags) (num : BitVec 64) (size : ℤ) (hlow : -2 ^ 31 < size)
    (hhigh : size < 2 ^ 31) :
    (takeSign type num size).2.1.toNat = magnitude type num ∧
      (takeSign type num size).2.2 = size - (signText type num).length ∧
      (if (takeSign type num size).1 ≠ 0 then put lim o (takeSign type num size).1 else o) =
        puts lim (signText type num) o := by
  have hne : ch '-' ≠ 0#8 ∧ ch '+' ≠ 0#8 ∧ ch ' ' ≠ 0#8 := by decide
  have habs : num.toInt.natAbs = if num.toInt < 0 then (-num).toNat else num.toNat := by
    have hlt := num.isLt
    have hint := BitVec.toInt_eq_toNat_cond num
    rw [BitVec.toNat_neg]
    split at hint <;> split <;> omega
  have hless : asInt (size - 1) = size - 1 := asInt_eq (by omega) (by omega)
  unfold takeSign signText magnitude
  by_cases hsign : type.sign
  · by_cases hneg : num.toInt < 0
    · rw [if_pos hneg] at habs
      simp [hsign, hneg, habs, hne, puts, hless]
    · rw [if_neg hneg] at habs
      cases hplus : type.plus <;> cases hspace : type.space <;>
        simp [hsign, hneg, habs, hne, puts, hless]
  · simp [hsign, puts]

/-- The sign of the base, and what it takes off the width. -/
theorem baseText_spec (digits : List Byte) (type : Flags) (b : Radix) (size : ℤ)
    (hlow : -2 ^ 31 + 2 ≤ size) (hhigh : size < 2 ^ 31) :
    (if type.special then
        if b.val = 16 then asInt (size - 2) else if b.val = 8 then asInt (size - 1) else size
      else size) = size - (baseText digits type b).length ∧
    (if type.special then
        if b.val = 8 then put lim o (ch '0')
        else if b.val = 16 then put lim (put lim o (ch '0')) (digits.getD 33 0)
        else o
      else o) = puts lim (baseText digits type b) o := by
  have hless : asInt (size - 1) = size - 1 := asInt_eq (by omega) (by omega)
  have hless' : asInt (size - 2) = size - 2 := asInt_eq (by omega) (by omega)
  unfold baseText
  cases type.special
  · simp [puts]
  · by_cases h8 : b.val = 8
    · simp [h8, puts, hless]
    · by_cases h16 : b.val = 16 <;> simp [h8, h16, puts, hless']

/-- The loops after the padding on the left: zeros for the precision, then `tmp`. -/
theorem digits_spec (digits : List Byte) (b : Radix) (num : BitVec 64) (precision : ℤ) :
    let i : ℤ := (tmp digits b num).length
    let wide := if i > precision then i else precision
    wide = (digitsText digits b precision num.toNat).length ∧
      puts lim (tmp digits b num).reverse (fill lim (ch '0') (wide - i).toNat o) =
        puts lim (digitsText digits b precision num.toNat) o := by
  intro i wide
  have hi : i = (numeralIn digits b num.toNat).length := by
    rw [← tmp_reverse, List.length_reverse]
  have hwide : (wide - i).toNat = (precision - i).toNat := by
    by_cases h : i > precision
    · rw [show wide = i from if_pos h]
      omega
    · rw [show wide = precision from if_neg h]
  constructor
  · rw [digitsText, List.length_append, List.length_replicate, ← hi]
    by_cases h : i > precision
    · rw [show wide = i from if_pos h]
      omega
    · rw [show wide = precision from if_neg h]
      omega
  · rw [hwide, fill_eq, tmp_reverse, digitsText, puts_append, ← hi]

/-- The three places where the field is filled up. -/
theorem printField_eq (digits : List Byte) (type : Flags) (c : Byte) (num : BitVec 64) (b : Radix)
    {size precision : ℤ} (hhigh : size < 2 ^ 31)
    (hlow : -2 ^ 31 + 2 ≤ size - (((signText type num ++ baseText digits type b).length : ℤ) +
      (digitsText digits b precision (magnitude type num)).length)) :
    let front := signText type num ++ baseText digits type b
    let body := digitsText digits b precision (magnitude type num)
    let room := (size - (front.length + body.length)).toNat
    printField lim o digits type c num b size precision =
      puts lim
        (if !(type.zeropad || type.left) then List.replicate room (ch ' ') ++ front ++ body
         else if !type.left then front ++ List.replicate room c ++ body
         else front ++ body ++ List.replicate room (ch ' ')) o := by
  intro front body room
  have hlow' : -2 ^ 31 + 2 ≤ size - (front.length + body.length : ℤ) := hlow
  have hfl : front.length = (signText type num).length + (baseText digits type b).length :=
    List.length_append
  have hsign := fun o => takeSign_spec lim o type num size (by omega) hhigh
  have hbase := fun o =>
    baseText_spec lim o digits type b (size - (signText type num).length) (by omega) (by omega)
  have hdig := fun o => digits_spec lim o digits b (takeSign type num size).2.1 precision
  unfold printField
  generalize takeSign type num size = r at hsign hdig
  obtain ⟨sign, num', size'⟩ := r
  dsimp only at hsign hdig ⊢
  rw [(hsign o).1] at hdig
  obtain ⟨-, rfl, -⟩ := hsign o
  have hwide := (hdig o).1
  have hprint := fun o => (hdig o).2
  have hfront : ∀ o, (if type.special then
        if b.val = 8 then put lim (if sign ≠ 0 then put lim o sign else o) (ch '0')
        else if b.val = 16 then
          put lim (put lim (if sign ≠ 0 then put lim o sign else o) (ch '0')) (digits.getD 33 0)
        else (if sign ≠ 0 then put lim o sign else o)
      else (if sign ≠ 0 then put lim o sign else o)) = puts lim front o := by
    intro o
    rw [(hbase _).2, (hsign o).2.2, ← puts_append]
  rw [hwide] at hprint
  have hrest : size - (signText type num).length - (baseText digits type b).length -
      (digitsText digits b precision (magnitude type num)).length =
      size - (front.length + body.length) := by
    rw [hfl]
    push_cast
    ring
  -- what is left of `size` for the padding
  have hleft : asInt (size - (signText type num).length - (baseText digits type b).length -
      (digitsText digits b precision (magnitude type num)).length) =
      size - (front.length + body.length) := by
    rw [hrest]
    exact asInt_eq (by omega) (by omega)
  have hspent : (spent (size - (front.length + body.length))).toNat = 0 :=
    spent_toNat (by omega)
  have hspent' : (spent (spent (size - (front.length + body.length)))).toNat = 0 := by
    refine spent_toNat ?_
    rw [spent_eq (by omega)]
    omega
  simp only [hwide, (hbase o).1, hleft, hfront, hprint]
  cases type.left
  · cases type.zeropad
    · simp only [Bool.or_false, Bool.not_false, if_true, hspent, hspent', fill_eq, ← puts_append,
        List.append_assoc, List.replicate_zero, List.append_nil, body, room]
    · simp only [Bool.true_or, Bool.not_true, Bool.not_false, Bool.false_eq_true, if_true, if_false,
        hspent, fill_eq, ← puts_append, List.append_assoc, List.replicate_zero, List.append_nil,
        body, room]
  · simp only [Bool.or_true, Bool.not_true, Bool.false_eq_true, if_false, fill_eq, ← puts_append,
      body, room]

/-- A number in its field is at least as long as its sign, its base and its digits. -/
theorem le_length_numberText (num : BitVec 64) (b : Radix) (size precision : ℤ) (type : Flags) :
    let digits := if type.large then largeDigits else smallDigits
    (signText type num ++ baseText digits type b).length +
      (digitsText digits b precision (magnitude type num)).length ≤
        (numberText num b size precision type).length := by
  unfold numberText
  dsimp only
  generalize (if type.large = true then largeDigits else smallDigits) = digits
  split_ifs <;> simp only [List.length_append, List.length_replicate] <;> omega

/-- `number` prints the number in its field, if `size` stays an `int`. -/
theorem numberIn_eq (num : BitVec 64) (b : Radix) {size precision : ℤ} {type : Flags}
    (hlow : -1 ≤ size) (hhigh : size < 2 ^ 31)
    (hlen : (numberText num b size precision type).length + 2 < 2 ^ 31) :
    numberIn lim o num b size precision type =
      puts lim (numberText num b size precision type) o := by
  have hle := le_length_numberText num b size precision type
  unfold numberIn numberText
  dsimp only at hle ⊢
  cases hleft : type.left
  · rw [if_neg Bool.false_ne_true, printField_eq _ _ _ _ _ _ _ hhigh (by omega)]
    cases type.zeropad <;> simp [hleft]
  · rw [if_pos rfl, printField_eq _ _ _ { type with zeropad := false, left := true } _ _ _ hhigh]
    · rfl
    · change -2 ^ 31 + 2 ≤ size - (((signText type num ++ baseText _ type b).length : ℤ) +
        ((digitsText _ b precision (magnitude type num)).length : ℤ))
      omega

/-- `number` prints the number in its field, if the base is one that it accepts. -/
theorem number_eq (num : BitVec 64) (b : Radix) {size precision : ℤ} {type : Flags}
    (hlow : -1 ≤ size) (hhigh : size < 2 ^ 31)
    (hlen : (numberText num b size precision type).length + 2 < 2 ^ 31) :
    number lim o num b.val size precision type =
      some (puts lim (numberText num b size precision type) o) := by
  have hb : ¬ (b.val < 2 ∨ b.val > 36) := by
    have h₁ := b.two_le
    have h₂ := b.le
    omega
  rw [number, dif_neg hb, ← numberIn_eq lim o num b hlow hhigh hlen]

end Text

end S3c2440.Stdio
