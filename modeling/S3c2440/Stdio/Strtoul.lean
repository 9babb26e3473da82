import S3c2440.Console.StringUtils

/-!
# Reading a number

The first part of `lib/vsprintf.c` in `bare_board/code/SPI/code`: `simple_strtoul` and
`simple_strtoull` with their signed companions, and `skip_atoi`. The two unsigned ones have one
body, for words of 32 and of 64 bits. A string is the rest of it from a pointer on, and behind
its last byte a NUL is read. The table `_ctype` is that of `string_utils.c`, byte for byte.

## What is proved

* `strtouLoop_run` — a run of digits is taken up into the result, and the loop goes on behind it.
* `strtouLoop_stop` — the loop ends at a byte that is not a digit of the base.
* `strtouBase_of_ne` — only a text that begins with a zero can change the base, or be shortened.
* `skipAtoi_value` — decimal digits are read as their number.
-/

namespace S3c2440.Stdio

open Console

abbrev Byte := BitVec 8

/-- `isspace`. -/
def isspace (c : Byte) : Bool := isMask c ctS

/-! ### The code -/

/-- The loop of `simple_strtoul` and `simple_strtoull`: the result, and where `cp` is at the end. -/
def strtouLoop (w base : ℕ) : List Byte → BitVec w → BitVec w × List Byte
  | [], result => (result, [])
  | c :: cp, result =>
    if isxdigit c ∧ digitValue c < base then
      strtouLoop w base cp (result * BitVec.ofNat w base + BitVec.ofNat w (digitValue c))
    else (result, c :: cp)

/-- What is before the loop: where the digits begin, and the base. -/
def strtouBase (cp : List Byte) (base : ℕ) : List Byte × ℕ :=
  if base = 0 then
    if peek cp = ch '0' then
      let cp := cp.tail
      if toupper (peek cp) = ch 'X' ∧ isxdigit (peek cp.tail) then (cp.tail, 16) else (cp, 8)
    else (cp, 10)
  else if base = 16 then
    if peek cp = ch '0' ∧ toupper (peek cp.tail) = ch 'X' then (cp.tail.tail, base) else (cp, base)
  else (cp, base)

/-- The unsigned number that a string begins with, and `*endp`. -/
def simpleStrtou (w : ℕ) (cp : List Byte) (base : ℕ) : BitVec w × List Byte :=
  let (cp, base) := strtouBase cp base
  strtouLoop w base cp 0

/-- `simple_strtoul`. -/
def simpleStrtoul (cp : List Byte) (base : ℕ) : BitVec 32 × List Byte := simpleStrtou 32 cp base

/-- `simple_strtoull`. -/
def simpleStrtoull (cp : List Byte) (base : ℕ) : BitVec 64 × List Byte := simpleStrtou 64 cp base

/-- The signed number that a string begins with, and `*endp`. -/
def simpleStrto (w : ℕ) (cp : List Byte) (base : ℕ) : BitVec w × List Byte :=
  if peek cp = ch '-' then
    let (result, endp) := simpleStrtou w cp.tail base
    (-result, endp)
  else simpleStrtou w cp base

/-- `simple_strtol`. -/
def simpleStrtol (cp : List Byte) (base : ℕ) : BitVec 32 × List Byte := simpleStrto 32 cp base

/-- `simple_strtoll`. -/
def simpleStrtoll (cp : List Byte) (base : ℕ) : BitVec 64 × List Byte := simpleStrto 64 cp base

/-- `skip_atoi`, with `i` so far: its value, and where `*s` is at the end. -/
def skipAtoi (i : BitVec 32) : List Byte → BitVec 32 × List Byte
  | [] => (i, [])
  | c :: s =>
    if isdigit c then skipAtoi (i * 10 + (c.setWidth 32 - (ch '0').setWidth 32)) s else (i, c :: s)

variable {w base m : ℕ} {c : Byte} {s rest : List Byte} {result : BitVec w}

/-! ### Runs of digits -/

/-- A byte that is a digit of a base. -/
def IsDigit (base : ℕ) (c : Byte) : Prop := isxdigit c = true ∧ digitValue c < base

instance (base : ℕ) (c : Byte) : Decidable (IsDigit base c) := inferInstanceAs (Decidable (_ ∧ _))

/-- A run of digits that comes after the number `m`. -/
def valueFrom (base : ℕ) (m : ℕ) (s : List Byte) : ℕ :=
  s.foldl (fun m c => m * base + digitValue c) m

@[simp] theorem valueFrom_nil : valueFrom base m [] = m := rfl

@[simp] theorem valueFrom_cons :
    valueFrom base m (c :: s) = valueFrom base (m * base + digitValue c) s := rfl

@[simp] theorem valueFrom_append (s t : List Byte) :
    valueFrom base m (s ++ t) = valueFrom base (valueFrom base m s) t := List.foldl_append ..

theorem strtouLoop_run (h : ∀ c ∈ s, IsDigit base c) (rest : List Byte) :
    strtouLoop w base (s ++ rest) (BitVec.ofNat w m) =
      strtouLoop w base rest (BitVec.ofNat w (valueFrom base m s)) := by
  induction s generalizing m with
  | nil => rfl
  | cons c s ih =>
    have hc : isxdigit c = true ∧ digitValue c < base := h c List.mem_cons_self
    rw [List.cons_append, strtouLoop, if_pos hc, ← BitVec.ofNat_mul, ← BitVec.ofNat_add,
      ih fun d hd => h d (List.mem_cons_of_mem c hd)]
    rfl

theorem strtouLoop_stop (h : ¬ IsDigit base (peek rest)) :
    strtouLoop w base rest result = (result, rest) := by
  cases rest with
  | nil => rfl
  | cons c rest =>
    have hc : ¬ (isxdigit c = true ∧ digitValue c < base) := h
    rw [strtouLoop, if_neg hc]

/-- Zeros in front of a number do not count. -/
theorem valueFrom_zeros {zs : List Byte} (h : ∀ c ∈ zs, c = ch '0') :
    valueFrom base 0 zs = 0 := by
  induction zs with
  | nil => rfl
  | cons c zs ih =>
    obtain rfl := h c List.mem_cons_self
    rw [valueFrom_cons, Nat.zero_mul, Nat.zero_add, show digitValue (ch '0') = 0 by decide]
    exact ih fun d hd => h d (List.mem_cons_of_mem _ hd)

/-! ### The base -/

/-- A text that does not begin with a zero is taken as it is. -/
theorem strtouBase_of_ne (h : peek s ≠ ch '0') :
    strtouBase s base = (s, if base = 0 then 10 else base) := by
  have h' : ¬ (peek s = ch '0' ∧ toupper (peek s.tail) = ch 'X') := fun h' => h h'.1
  unfold strtouBase
  by_cases hbase : base = 0
  · rw [if_pos hbase, if_neg h, if_pos hbase]
  · rw [if_neg hbase, if_neg h', if_neg hbase, ite_self]

/-- Nor is one changed whose second byte is not an `x`, if the base is given. -/
theorem strtouBase_of_second (hbase : base ≠ 0) (h : toupper (peek s.tail) ≠ ch 'X') :
    strtouBase s base = (s, base) := by
  have h' : ¬ (peek s = ch '0' ∧ toupper (peek s.tail) = ch 'X') := fun h' => h h'.2
  rw [strtouBase, if_neg hbase, if_neg h', ite_self]

/-- The characters that `isxdigit` takes. -/
def xdigits : List Byte := "0123456789ABCDEFabcdef".toList.map ch

theorem mem_xdigits (h : isxdigit c = true) : c ∈ xdigits := by
  have hall : ∀ n < 256, isxdigit (BitVec.ofNat 8 n) = true → BitVec.ofNat 8 n ∈ xdigits := by
    decide +kernel
  simpa using hall c.toNat c.isLt (by simpa using h)

/-- A digit is no `x`. -/
theorem toupper_ne_of_isxdigit (h : isxdigit c = true) : toupper c ≠ ch 'X' := by
  have hall : ∀ e ∈ xdigits, toupper e ≠ ch 'X' := by decide
  exact hall c (mem_xdigits h)

/-- White space is no digit and no sign. -/
theorem not_isspace_of_isxdigit (h : isxdigit c = true) : isspace c = false := by
  have hall : ∀ e ∈ xdigits, isspace e = false := by decide
  exact hall c (mem_xdigits h)

/-- The characters that `isdigit` takes. -/
def decimals : List Byte := "0123456789".toList.map ch

theorem mem_decimals (h : isdigit c = true) : c ∈ decimals := by
  have hall : ∀ n < 256, isdigit (BitVec.ofNat 8 n) = true → BitVec.ofNat 8 n ∈ decimals := by
    decide +kernel
  simpa using hall c.toNat c.isLt (by simpa using h)

/-- `skip_atoi` reads decimal digits as a number. -/
theorem skipAtoi_value (h : ∀ c ∈ s, isdigit c = true) :
    (skipAtoi (BitVec.ofNat 32 m) s).1 = BitVec.ofNat 32 (valueFrom 10 m s) := by
  induction s generalizing m with
  | nil => rfl
  | cons c s ih =>
    have hall : ∀ e ∈ decimals,
        e.setWidth 32 - (ch '0').setWidth 32 = BitVec.ofNat 32 (digitValue e) := by decide
    have hc := h c List.mem_cons_self
    rw [skipAtoi, if_pos hc, hall c (mem_decimals hc), valueFrom_cons,
      ← ih fun d hd => h d (List.mem_cons_of_mem c hd), BitVec.ofNat_add, BitVec.ofNat_mul]
    rfl

/-- `skip_atoi` goes to the end of the decimal digits. -/
theorem skipAtoi_append (i : BitVec 32) (h : ∀ c ∈ s, isdigit c = true)
    (hrest : isdigit (peek rest) = false) : skipAtoi i (s ++ rest) = ((skipAtoi i s).1, rest) := by
  induction s generalizing i with
  | nil =>
    cases rest with
    | nil => rfl
    | cons c rest =>
      have hc : ¬ isdigit c = true := by rw [show isdigit c = false from hrest]; decide
      exact if_neg hc
  | cons c s ih =>
    rw [List.cons_append, skipAtoi, if_pos (h c List.mem_cons_self), skipAtoi,
      if_pos (h c List.mem_cons_self)]
    exact ih _ fun d hd => h d (List.mem_cons_of_mem c hd)

end S3c2440.Stdio
