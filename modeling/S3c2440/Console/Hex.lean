import S3c2440.Console.StringUtils

/-!
# Hexadecimal output

`printHex` of `bare_board/code/I2c/20200510_IIC/uart.c` takes a word apart into eight digits, the
lowest first, and sends `0x` and the digits, the highest first, with capital letters.

## What is proved

* `printHex_eq` — what is sent.
* `simpleStrtoul_printHex` — `simple_strtoul` with base 0 makes of it the word again.
-/

namespace S3c2440.Console

/-! ### The code -/

/-- `puts`, of the characters before the NUL. -/
def puts (u : Uart) (s : List (BitVec 8)) : Uart := s.foldl putchar u

/-- `arr` after `n` turns of the first loop of `printHex`. -/
def nibbles : ℕ → BitVec 32 → List (BitVec 32)
  | 0, _ => []
  | n + 1, val => (val &&& 0xf) :: nibbles n (val >>> 4)

/-- The body of the second loop. -/
def putNibble (u : Uart) (d : BitVec 32) : Uart :=
  if 0 ≤ d ∧ d ≤ 9 then putchar u ((d + (ch '0').setWidth 32).setWidth 8)
  else if 0xA ≤ d ∧ d ≤ 0xF then putchar u ((d - 0xA + (ch 'A').setWidth 32).setWidth 8)
  else u

/-- `printHex`. -/
def printHex (u : Uart) (val : BitVec 32) : Uart :=
  (nibbles 8 val).reverse.foldl putNibble (puts u (text "0x"))

/-! ### What is sent -/

/-- The text of a word: its eight digits in base 16, the highest first, with capital letters. -/
def hexText (val : BitVec 32) : List (BitVec 8) :=
  text "0x" ++ (List.range 8).reverse.map fun k =>
    (text "0123456789ABCDEF").getD (val.toNat / 16 ^ k % 16) 0

/-- What is sent for a digit. -/
def hexDigit (d : BitVec 32) : BitVec 8 :=
  if d ≤ 9 then (d + (ch '0').setWidth 32).setWidth 8
  else (d - 0xA + (ch 'A').setWidth 32).setWidth 8

variable {d : BitVec 32} {ds : List (BitVec 32)}

theorem puts_eq (u : Uart) (s : List (BitVec 8)) :
    puts u s = { u with output := u.output ++ s } := by
  unfold puts
  induction s generalizing u with
  | nil => rw [List.append_nil]; rfl
  | cons c s ih =>
    rw [List.foldl_cons, ih]
    simp only [putchar, List.append_assoc, List.singleton_append]

theorem putNibble_eq (u : Uart) (h : d.toNat < 16) : putNibble u d = putchar u (hexDigit d) := by
  have hzero : 0 ≤ d := BitVec.le_def.mpr (Nat.zero_le _)
  rw [putNibble, hexDigit]
  by_cases hnine : d ≤ 9
  · rw [if_pos ⟨hzero, hnine⟩, if_pos hnine]
  · have hten : 0xA ≤ d ∧ d ≤ 0xF := by
      rw [BitVec.le_def] at hnine
      exact ⟨BitVec.le_def.mpr (Nat.lt_of_not_le hnine), BitVec.le_def.mpr (Nat.le_of_lt_succ h)⟩
    rw [if_neg fun hd => hnine hd.2, if_pos hten, if_neg hnine]

theorem toNat_nibble (val : BitVec 32) : (val &&& 0xf).toNat = val.toNat % 16 :=
  (BitVec.toNat_and ..).trans (Nat.and_two_pow_sub_one_eq_mod val.toNat 4)

theorem lt_of_mem_nibbles {n : ℕ} {val : BitVec 32} (h : d ∈ nibbles n val) : d.toNat < 16 := by
  induction n generalizing val with
  | zero => cases h
  | succ n ih =>
    rcases List.mem_cons.mp h with rfl | h
    · rw [toNat_nibble]
      exact Nat.mod_lt _ (by omega)
    · exact ih h

theorem foldl_putNibble (u : Uart) (h : ∀ d ∈ ds, d.toNat < 16) :
    ds.foldl putNibble u = puts u (ds.map hexDigit) := by
  induction ds generalizing u with
  | nil => rfl
  | cons d ds ih =>
    obtain ⟨hd, hds⟩ := List.forall_mem_cons.mp h
    rw [List.foldl_cons, putNibble_eq u hd, ih _ hds]
    rfl

/-- `arr` has the digits in base 16. -/
theorem nibbles_eq (n : ℕ) (val : BitVec 32) :
    nibbles n val = (List.range n).map fun k => BitVec.ofNat 32 (val.toNat / 16 ^ k % 16) := by
  induction n generalizing val with
  | zero => rfl
  | succ n ih =>
    have hnibble : val &&& 0xf = BitVec.ofNat 32 (val.toNat / 16 ^ 0 % 16) := by
      apply BitVec.eq_of_toNat_eq
      rw [toNat_nibble, BitVec.toNat_ofNat, Nat.pow_zero, Nat.div_one]
      omega
    have hshift : ∀ k, (val >>> 4).toNat / 16 ^ k = val.toNat / 16 ^ (k + 1) := by
      intro k
      have hpow : 16 ^ (k + 1) = 2 ^ 4 * 16 ^ k := Nat.pow_succ'
      rw [BitVec.toNat_ushiftRight, Nat.shiftRight_eq_div_pow, Nat.div_div_eq_div_mul, hpow]
    rw [nibbles, ih, List.range_succ_eq_map, List.map_cons, List.map_map, hnibble]
    simp only [hshift]
    rfl

/-- What is sent for a digit is the digit. -/
theorem hexText_eq (val : BitVec 32) :
    hexText val = text "0x" ++ (nibbles 8 val).reverse.map hexDigit := by
  have hall : ∀ m < 16, (text "0123456789ABCDEF").getD m 0 = hexDigit (BitVec.ofNat 32 m) := by
    decide
  rw [hexText, nibbles_eq, ← List.map_reverse, List.map_map]
  refine congrArg _ (List.map_congr_left fun k _ => ?_)
  exact hall _ (Nat.mod_lt _ (by omega))

/-- `printHex` sends the text of the word. -/
theorem printHex_eq (u : Uart) (val : BitVec 32) :
    printHex u val = { u with output := u.output ++ hexText val } := by
  rw [printHex, foldl_putNibble _ fun d hd => lt_of_mem_nibbles (List.mem_reverse.mp hd), puts_eq,
    puts_eq, hexText_eq, List.append_assoc]

/-! ### What is read -/

/-- A digit is read as itself. -/
theorem digitValue_hexDigit (h : d.toNat < 16) :
    isxdigit (hexDigit d) = true ∧ BitVec.ofNat 32 (digitValue (hexDigit d)) = d ∧
      digitValue (hexDigit d) < 16 := by
  have hall : ∀ m < 16, isxdigit (hexDigit (BitVec.ofNat 32 m)) = true ∧
      BitVec.ofNat 32 (digitValue (hexDigit (BitVec.ofNat 32 m))) = BitVec.ofNat 32 m ∧
      digitValue (hexDigit (BitVec.ofNat 32 m)) < 16 := by decide
  have hd := hall d.toNat h
  rwa [BitVec.ofNat_toNat, BitVec.setWidth_eq] at hd

/-- The loop takes up one digit after another. -/
theorem strtoulLoop_hexDigits (h : ∀ d ∈ ds, d.toNat < 16) (rest : List (BitVec 8))
    (result : BitVec 32) : strtoulLoop 16 (ds.map hexDigit ++ rest) result =
      strtoulLoop 16 rest (ds.foldl (fun result d => result * 16 + d) result) := by
  induction ds generalizing result with
  | nil => rfl
  | cons d ds ih =>
    obtain ⟨hd, hds⟩ := List.forall_mem_cons.mp h
    obtain ⟨hdigit, hvalue, hlt⟩ := digitValue_hexDigit hd
    rw [List.map_cons, List.cons_append, strtoulLoop, if_pos ⟨hdigit, hlt⟩, hvalue, ih hds]
    rfl

/-- The digits of a word, put together again. -/
theorem foldr_nibbles (n : ℕ) (val : BitVec 32) :
    ((nibbles n val).foldr (fun d result => result * 16 + d) 0).toNat = val.toNat % 16 ^ n := by
  induction n generalizing val with
  | zero => exact (Nat.mod_one _).symm
  | succ n ih =>
    have hval := val.isLt
    have hle := Nat.mod_le val.toNat (16 ^ (n + 1))
    rw [Nat.pow_succ', Nat.mod_mul] at hle ⊢
    rw [nibbles, List.foldr_cons, BitVec.toNat_add, BitVec.toNat_mul, ih, toNat_nibble,
      BitVec.toNat_ushiftRight, Nat.shiftRight_eq_div_pow]
    change val.toNat % 16 + 16 * (val.toNat / 2 ^ 4 % 16 ^ n) ≤ _ at hle
    change (val.toNat / 2 ^ 4 % 16 ^ n * 16 % 2 ^ 32 + val.toNat % 16) % 2 ^ 32 =
      val.toNat % 16 + 16 * (val.toNat / 2 ^ 4 % 16 ^ n)
    omega

/-- A prefix with a digit behind it says that the base is 16. -/
theorem simpleStrtoul_hex (cp : List (BitVec 8)) (h : isxdigit (peek cp) = true) :
    simpleStrtoul (text "0x" ++ cp) 0 = strtoulLoop 16 cp 0 := by
  have htext : text "0x" ++ cp = ch '0' :: ch 'x' :: cp := rfl
  have hhex : (peek (ch 'x' :: cp) = ch 'x' ∨ peek (ch 'x' :: cp) = ch 'X') ∧
      isxdigit (peek cp) = true := ⟨.inl rfl, h⟩
  have hzero : peek (ch '0' :: ch 'x' :: cp) = ch '0' := rfl
  rw [htext, simpleStrtoul, if_pos hzero]
  simp only [List.tail_cons, hhex, and_self, if_true]
  rfl

/-- The loop stops at a NUL. -/
theorem strtoulLoop_nul (base : ℕ) (rest : List (BitVec 8)) (result : BitVec 32) :
    strtoulLoop base (0 :: rest) result = (result, 0 :: rest) := by
  have hnul : isxdigit 0 = false := by decide
  rw [strtoulLoop, hnul, if_neg fun h => Bool.false_ne_true h.1]

/-- `simple_strtoul` makes of digits with the prefix their number. -/
theorem simpleStrtoul_hexDigits (hne : ds ≠ []) (h : ∀ d ∈ ds, d.toNat < 16)
    (rest : List (BitVec 8)) : simpleStrtoul (text "0x" ++ (ds.map hexDigit ++ 0 :: rest)) 0 =
      (ds.foldl (fun result d => result * 16 + d) 0, 0 :: rest) := by
  -- there is a digit behind the `x`
  have hdigit : isxdigit (peek (ds.map hexDigit ++ 0 :: rest)) = true := by
    obtain ⟨d, ds, rfl⟩ := List.exists_cons_of_ne_nil hne
    exact (digitValue_hexDigit (h d List.mem_cons_self)).1
  rw [simpleStrtoul_hex _ hdigit, strtoulLoop_hexDigits h, strtoulLoop_nul]

/-- `simple_strtoul` makes of the text of a word the word, and stops at the NUL behind it. -/
theorem simpleStrtoul_hexText (val : BitVec 32) (rest : List (BitVec 8)) :
    simpleStrtoul (hexText val ++ 0 :: rest) 0 = (val, 0 :: rest) := by
  have hval : (nibbles 8 val).reverse.foldl (fun result d => result * 16 + d) 0 = val := by
    have hlt : val.toNat < 16 ^ 8 := val.isLt.trans_eq (by norm_num)
    rw [List.foldl_reverse]
    exact BitVec.eq_of_toNat_eq ((foldr_nibbles 8 val).trans (Nat.mod_eq_of_lt hlt))
  have hne : (nibbles 8 val).reverse ≠ [] := List.reverse_ne_nil_iff.mpr (List.cons_ne_nil _ _)
  rw [hexText_eq, List.append_assoc, simpleStrtoul_hexDigits hne
    (fun d hd => lt_of_mem_nibbles (List.mem_reverse.mp hd)), hval]

/-- `simple_strtoul` with base 0 reads back what `printHex` sends, and stops at its end. -/
theorem simpleStrtoul_printHex (val : BitVec 32) : ∃ s, (∀ u : Uart, printHex u val =
    { u with output := u.output ++ s }) ∧
      ∀ rest, simpleStrtoul (s ++ 0 :: rest) 0 = (val, 0 :: rest) :=
  ⟨hexText val, fun u => printHex_eq u val, simpleStrtoul_hexText val⟩

end S3c2440.Console
