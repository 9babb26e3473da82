import S3c2440.Console.Printf

/-!
# The serial line and strings

The UART of `bare_board/code/I2c/20200510_IIC/uart.c` as what has come in and what has been sent,
and the functions of `string_utils.c` that the menus use: `gets` reads a line and echoes it,
`get_int` and `get_uint` read a number, and `strlen` is to say how long a string is. A string is
given by its bytes from the pointer on; behind those it is known to hold, a NUL is read.

The body of the loop in `strlen` is its `return` (there is no semicolon between them), so a string
that is not empty has length 0, and for an empty one the end of the function is reached
without a value, which `none` stands for.

## What is proved

* `gets_line` — `gets` takes a line and stores it with a NUL.
* `getUint_line` — `get_uint` takes a line and returns what `simple_strtoul` makes of it.
* `simpleStrtoul_ten` — of a decimal number, it makes that number.
* `simpleStrtol_outNum` — `simple_strtol` makes of what is printed of a number the number itself.
-/

namespace S3c2440.Console

/-! ### The UART -/

/-- The serial line. -/
structure Uart where
  /-- What will be received, the next byte first. -/
  input : List (BitVec 8)
  /-- What has been sent, the last byte last. -/
  output : List (BitVec 8)
  deriving DecidableEq

/-- `putchar`. -/
def putchar (u : Uart) (c : BitVec 8) : Uart := { u with output := u.output ++ [c] }

/-- `getchar`; it waits for ever when nothing comes. -/
def getchar (u : Uart) : Option (BitVec 8 × Uart) :=
  match u.input with
  | [] => none
  | c :: input => some (c, { u with input := input })

/-- `printf` on the serial line. -/
def Uart.printf (u : Uart) (fmt : String) (ap : List Arg) : Option Uart :=
  match Console.printf fmt ap with
  | .ok s => some { u with output := u.output ++ s }
  | .error _ => none

/-! ### The code -/

/-- The end of a line. -/
def isNewline (c : BitVec 8) : Bool := c = ch '\n' ∨ c = ch '\r'

/-- The echo of a character. -/
def echo (u : Uart) (c : BitVec 8) : Uart :=
  let u := putchar u c
  if c = ch '\n' then putchar u (ch '\r')
  else if c = ch '\r' then putchar u (ch '\n')
  else u

theorem getchar_length {u u' : Uart} {c : BitVec 8} (h : getchar u = some (c, u')) :
    u'.input.length < u.input.length := by
  unfold getchar at h
  split at h
  · cases h
  · rename_i hinput
    cases h
    rw [hinput]
    exact Nat.lt_succ_self _

theorem echo_input (u : Uart) (c : BitVec 8) : (echo u c).input = u.input := by
  unfold echo
  dsimp only
  split
  · rfl
  · split <;> rfl

/-- `gets`, with `s` stored so far: what it has stored at the end. -/
def getsFrom (s : List (BitVec 8)) (u : Uart) : Option (List (BitVec 8) × Uart) :=
  match h : getchar u with
  | none => none
  | some (c, u') =>
    if isNewline c then some (s ++ [0], echo u' c)
    else
      have : (echo u' c).input.length < u.input.length := by
        rw [echo_input]
        exact getchar_length h
      getsFrom (s ++ [c]) (echo u' c)
  termination_by u.input.length

/-- `gets`. -/
def gets (u : Uart) : Option (List (BitVec 8) × Uart) := getsFrom [] u

/-- `strlen`. -/
def strlen (s : List (BitVec 8)) : Option ℕ := if peek s ≠ 0 then some 0 else none

/-- `_U`. -/
def ctU : BitVec 8 := 0x01

/-- `_L`. -/
def ctL : BitVec 8 := 0x02

/-- `_D`. -/
def ctD : BitVec 8 := 0x04

/-- `_C`. -/
def ctC : BitVec 8 := 0x08

/-- `_P`. -/
def ctP : BitVec 8 := 0x10

/-- `_S`. -/
def ctS : BitVec 8 := 0x20

/-- `_X`. -/
def ctX : BitVec 8 := 0x40

/-- `_SP`. -/
def ctSP : BitVec 8 := 0x80

/-- `_ctype`. -/
def ctype : List (BitVec 8) := List.flatten [
  [ctC, ctC, ctC, ctC, ctC, ctC, ctC, ctC],
  [ctC, ctC ||| ctS, ctC ||| ctS, ctC ||| ctS, ctC ||| ctS, ctC ||| ctS, ctC, ctC],
  [ctC, ctC, ctC, ctC, ctC, ctC, ctC, ctC],
  [ctC, ctC, ctC, ctC, ctC, ctC, ctC, ctC],
  [ctS ||| ctSP, ctP, ctP, ctP, ctP, ctP, ctP, ctP],
  [ctP, ctP, ctP, ctP, ctP, ctP, ctP, ctP],
  [ctD, ctD, ctD, ctD, ctD, ctD, ctD, ctD],
  [ctD, ctD, ctP, ctP, ctP, ctP, ctP, ctP],
  [ctP, ctU ||| ctX, ctU ||| ctX, ctU ||| ctX, ctU ||| ctX, ctU ||| ctX, ctU ||| ctX, ctU],
  [ctU, ctU, ctU, ctU, ctU, ctU, ctU, ctU],
  [ctU, ctU, ctU, ctU, ctU, ctU, ctU, ctU],
  [ctU, ctU, ctU, ctP, ctP, ctP, ctP, ctP],
  [ctP, ctL ||| ctX, ctL ||| ctX, ctL ||| ctX, ctL ||| ctX, ctL ||| ctX, ctL ||| ctX, ctL],
  [ctL, ctL, ctL, ctL, ctL, ctL, ctL, ctL],
  [ctL, ctL, ctL, ctL, ctL, ctL, ctL, ctL],
  [ctL, ctL, ctL, ctP, ctP, ctP, ctP, ctC],
  List.replicate 16 0,
  List.replicate 16 0,
  [ctS ||| ctSP, ctP, ctP, ctP, ctP, ctP, ctP, ctP, ctP, ctP, ctP, ctP, ctP, ctP, ctP, ctP],
  List.replicate 16 ctP,
  List.replicate 16 ctU,
  [ctU, ctU, ctU, ctU, ctU, ctU, ctU, ctP, ctU, ctU, ctU, ctU, ctU, ctU, ctU, ctL],
  List.replicate 16 ctL,
  [ctL, ctL, ctL, ctL, ctL, ctL, ctL, ctP, ctL, ctL, ctL, ctL, ctL, ctL, ctL, ctL]]

/-- `__ismask(c)&(mask)`. -/
def isMask (c mask : BitVec 8) : Bool := ctype.getD c.toNat 0 &&& mask ≠ 0

/-- `isdigit`. -/
def isdigit (c : BitVec 8) : Bool := isMask c ctD

/-- `islower`. -/
def islower (c : BitVec 8) : Bool := isMask c ctL

/-- `isxdigit`. -/
def isxdigit (c : BitVec 8) : Bool := isMask c (ctD ||| ctX)

/-- `toupper`. -/
def toupper (c : BitVec 8) : BitVec 8 := if islower c then c - (ch 'a' - ch 'A') else c

/-- `isdigit(*cp) ? *cp-'0' : (islower(*cp) ? toupper(*cp) : *cp)-'A'+10`. -/
def digitValue (c : BitVec 8) : ℕ :=
  if isdigit c then (c - ch '0').toNat
  else ((if islower c then toupper c else c) - ch 'A').toNat + 10

/-- The loop of `simple_strtoul`: the result, and where `cp` is at the end. -/
def strtoulLoop (base : ℕ) : List (BitVec 8) → BitVec 32 → BitVec 32 × List (BitVec 8)
  | [], result => (result, [])
  | c :: cp, result =>
    if isxdigit c ∧ digitValue c < base then
      strtoulLoop base cp (result * BitVec.ofNat 32 base + BitVec.ofNat 32 (digitValue c))
    else (result, c :: cp)

/-- `simple_strtoul`: what it returns, and `*endp`. -/
def simpleStrtoul (cp : List (BitVec 8)) (base : ℕ) : BitVec 32 × List (BitVec 8) :=
  if peek cp = ch '0' then
    let cp := cp.tail
    let hex := (peek cp = ch 'x' ∨ peek cp = ch 'X') ∧ isxdigit (peek cp.tail) = true
    let base := if hex then 16 else base
    let cp := if hex then cp.tail else cp
    let base := if base = 0 then 8 else base
    strtoulLoop base cp 0
  else
    let base := if base = 0 then 10 else base
    strtoulLoop base cp 0

/-- `simple_strtol`. -/
def simpleStrtol (cp : List (BitVec 8)) (base : ℕ) : BitVec 32 × List (BitVec 8) :=
  if peek cp = ch '-' then
    let (result, endp) := simpleStrtoul cp.tail base
    (-result, endp)
  else simpleStrtoul cp base

/-- `get_int`. -/
def getInt (u : Uart) : Option (BitVec 32 × Uart) :=
  (gets u).map fun (str, u) => ((simpleStrtol str 0).1, u)

/-- `get_uint`. -/
def getUint (u : Uart) : Option (BitVec 32 × Uart) :=
  (gets u).map fun (str, u) => ((simpleStrtoul str 0).1, u)

/-- The array `str` after `gets`, with `stack` in it before. -/
def strArray (stack : ℕ → BitVec 8) (str : List (BitVec 8)) (i : ℕ) : BitVec 8 :=
  str.getD i (stack i)

/-! ### A line -/

/-- A line that is typed into an array of 100 bytes. -/
structure Line where
  /-- Its characters. -/
  chars : List (BitVec 8)
  /-- The newline or carriage return after them. -/
  nl : BitVec 8
  /-- There is no other one among them. -/
  isLine : ∀ c ∈ chars, isNewline c = false
  /-- It is one of the two. -/
  isNl : isNewline nl = true
  /-- There is room for them and a NUL. -/
  fits : chars.length < 100

theorem isNewline_cr : isNewline (ch '\r') = true := by decide

/-- The bytes that are received. -/
def Line.bytes (l : Line) : List (BitVec 8) := l.chars ++ [l.nl]

/-- What `gets` stores. -/
def Line.stored (l : Line) : List (BitVec 8) := l.chars ++ [0]

variable {line rest output s : List (BitVec 8)} {nl c : BitVec 8}

/-- Text without percent signs is sent as it is. -/
theorem Uart.printf_plain (u : Uart) (fmt : String) (h : ∀ c ∈ text fmt, c ≠ ch '%') :
    u.printf fmt [] = some { u with output := u.output ++ text fmt } := by
  rw [Uart.printf, Console.printf_plain [] h]

/-- `gets` echoes each character. -/
def echoed (line : List (BitVec 8)) (nl : BitVec 8) : List (BitVec 8) :=
  line ++ [nl, if nl = ch '\n' then ch '\r' else ch '\n']

theorem echo_of_char (h : isNewline c = false) (u : Uart) : echo u c = putchar u c := by
  have hne : ¬(c = ch '\n' ∨ c = ch '\r') := of_decide_eq_false h
  rw [not_or] at hne
  simp only [echo, if_neg hne.1, if_neg hne.2]

theorem echo_of_newline (h : isNewline nl = true) (u : Uart) :
    echo u nl = { u with output := u.output ++ echoed [] nl } := by
  have hne : ch '\r' ≠ ch '\n' := by decide
  rcases (of_decide_eq_true h : nl = ch '\n' ∨ nl = ch '\r') with rfl | rfl
  · simp only [echo, echoed, if_pos, putchar, List.append_assoc]
    rfl
  · simp only [echo, echoed, if_neg hne, if_pos, putchar, List.append_assoc]
    rfl

theorem getsFrom_line (hline : ∀ c ∈ line, isNewline c = false) (hnl : isNewline nl = true) :
    getsFrom s ⟨line ++ nl :: rest, output⟩ =
      some (s ++ line ++ [0], ⟨rest, output ++ echoed line nl⟩) := by
  induction line generalizing s output with
  | nil =>
    rw [getsFrom]
    simp only [List.nil_append, getchar, hnl, if_true, echo_of_newline hnl, List.append_nil]
  | cons c line ih =>
    have hc : isNewline c = false := hline c List.mem_cons_self
    rw [getsFrom]
    simp only [List.cons_append, getchar, hc, Bool.false_eq_true, if_false, echo_of_char hc,
      putchar]
    rw [ih fun d hd => hline d (List.mem_cons_of_mem c hd)]
    simp only [echoed, List.append_assoc, List.cons_append, List.nil_append]

/-- `gets` takes a line, and stores it with a NUL. -/
theorem gets_line (l : Line) :
    gets ⟨l.bytes ++ rest, output⟩ = some (l.stored, ⟨rest, output ++ echoed l.chars l.nl⟩) := by
  rw [gets, Line.bytes, List.append_assoc]
  exact getsFrom_line l.isLine l.isNl

/-- `get_uint` takes a line. -/
theorem getUint_line (l : Line) :
    getUint ⟨l.bytes ++ rest, output⟩ =
      some ((simpleStrtoul l.stored 0).1, ⟨rest, output ++ echoed l.chars l.nl⟩) := by
  rw [getUint, gets_line]
  rfl

/-! ### A number -/

/-- The value of a digit, small letters included. -/
theorem digitValue_digitChar {d : ℕ} (h : d < 16) :
    isxdigit (ch (Nat.digitChar d)) = true ∧ digitValue (ch (Nat.digitChar d)) = d := by
  have hall : ∀ d < 16, isxdigit (ch (Nat.digitChar d)) = true ∧
      digitValue (ch (Nat.digitChar d)) = d := by decide
  exact hall d h

/-- The loop takes up a numeral of its base. -/
theorem strtoulLoop_numeral (base : Base) (m : ℕ) (rest : List (BitVec 8)) :
    strtoulLoop base.val (numeral base.val m ++ rest) 0 =
      strtoulLoop base.val rest (BitVec.ofNat 32 m) := by
  have hb := base.two_le
  have hstep : ∀ d < base.val, ∀ result rest,
      strtoulLoop base.val (ch (Nat.digitChar d) :: rest) result =
        strtoulLoop base.val rest (result * BitVec.ofNat 32 base.val + BitVec.ofNat 32 d) := by
    intro d hd result rest
    obtain ⟨hdigit, hvalue⟩ := digitValue_digitChar (hd.trans_le base.le)
    rw [strtoulLoop, hvalue, if_pos ⟨hdigit, hd⟩]
  induction m using Nat.strong_induction_on generalizing rest with
  | _ m ih =>
    rw [numeral_eq hb]
    split
    case isTrue hlt =>
      rw [List.singleton_append, hstep m hlt]
      exact congrArg (strtoulLoop base.val rest) (by simp)
    case isFalse hge =>
      have hpos : 0 < m := by omega
      rw [List.append_assoc, ih (m / base.val) (Nat.div_lt_self hpos hb), List.singleton_append,
        hstep (m % base.val) (Nat.mod_lt m (by omega)), ← BitVec.ofNat_mul, ← BitVec.ofNat_add,
        Nat.div_add_mod']

/-! ### A number that has been printed -/

/-- A decimal number is read as itself up to what is behind it. -/
theorem simpleStrtoul_ten (m : ℕ) (rest : List (BitVec 8)) :
    simpleStrtoul (numeral 10 m ++ 0 :: rest) 10 = (BitVec.ofNat 32 m, 0 :: rest) := by
  rcases Nat.eq_zero_or_pos m with rfl | hpos
  · rfl
  · rw [simpleStrtoul, if_neg (peek_numeral hpos (0 :: rest))]
    exact strtoulLoop_numeral .ten m (0 :: rest)

theorem peek_numeral_ne_minus (m : ℕ) (rest : List (BitVec 8)) :
    peek (numeral 10 m ++ rest) ≠ ch '-' := by
  cases hnumeral : numeral 10 m with
  | nil =>
    have hpos := length_numeral_pos 10 m
    rw [hnumeral] at hpos
    exact absurd hpos (lt_irrefl 0)
  | cons c s =>
    rintro rfl
    exact cons_minus_ne_numeral .ten s hnumeral.symm

/-- The word of a number that is not negative. -/
theorem ofNat_natAbs {n : BitVec 32} (h : 0 ≤ n.toInt) : BitVec.ofNat 32 n.toInt.natAbs = n := by
  rw [← magnitude_eq, if_neg (not_lt.mpr h), BitVec.ofNat_toNat, BitVec.setWidth_eq]

/-- And of one that is, negated: the smallest one is its own negation. -/
theorem neg_ofNat_natAbs {n : BitVec 32} (h : n.toInt < 0) :
    -BitVec.ofNat 32 n.toInt.natAbs = n := by
  rw [← magnitude_eq, if_pos h, BitVec.ofNat_toNat, BitVec.setWidth_eq, BitVec.neg_neg]

/-- A minus sign negates what is behind it. -/
theorem simpleStrtol_minus (cp : List (BitVec 8)) (base : ℕ) : simpleStrtol (ch '-' :: cp) base =
    (-(simpleStrtoul cp base).1, (simpleStrtoul cp base).2) := rfl

/-- `simple_strtol` reads back what `out_num` sends of a number in base 10 without a width, and
stops at the NUL. -/
theorem simpleStrtol_outNum (n : BitVec 32) (lead : BitVec 8) (rest : List (BitVec 8)) :
    ∃ s, outNum n .ten lead 0 = .ok s ∧ simpleStrtol (s ++ 0 :: rest) 10 = (n, 0 :: rest) := by
  -- nothing is filled up
  have hlead : outNum n .ten lead 0 = outNum n .ten (ch ' ') 0 := rfl
  refine ⟨_, hlead.trans (outNum_unpadded n .ten), ?_⟩
  rw [numberText, Nat.zero_sub, List.replicate_zero, List.nil_append]
  have hdigits := simpleStrtoul_ten n.toInt.natAbs rest
  by_cases hneg : n.toInt < 0
  · rw [if_pos hneg, List.append_assoc, List.singleton_append]
    refine (simpleStrtol_minus _ 10).trans ?_
    rw [show Base.ten.val = 10 from rfl, hdigits, neg_ofNat_natAbs hneg]
  · rw [ofNat_natAbs (not_lt.mp hneg)] at hdigits
    rw [if_neg hneg, List.nil_append, simpleStrtol]
    exact (if_neg (peek_numeral_ne_minus _ _)).trans hdigits

end S3c2440.Console
