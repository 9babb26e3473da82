import S3c2440.Stdio.Vsscanf

/-!
# What is printed can be read back

A format of integer conversions and other characters between them, given to `vsnprintf` and
then, with the text that comes out, to `vsscanf`. The two do not read a format alike: a width
pads what is printed and is no limit for a number that is read, a `0` before it is a flag for
the one and belongs to the width for the other, and white space in the format skips any. `%i` is
decimal in the output and reads the prefixes of C, so that it cannot have leading zeros. What
`%Z` and `%z` print is never negative.

## What is proved

* `simpleStrtou_numeral` — a numeral is read as its number, up to a separator behind it.
* `formatText_items` — what is printed of a format.
* `vsscanf_vsnprintf` — reading what `vsnprintf` prints gives back every argument.
-/

namespace S3c2440.Stdio

open Console

variable {w : ℕ} {b : Radix} {m : ℕ} {rest : List Byte}

/-! ### A numeral -/

/-- The two tables of digits. -/
def IsTable (digits : List Byte) : Prop := digits = smallDigits ∨ digits = largeDigits

/-- The digits up to `f` are read with their values. -/
theorem IsTable.digit {digits : List Byte} (h : IsTable digits) {d : ℕ} (hd : d < 16) :
    isxdigit (digits.getD d 0) = true ∧ digitValue (digits.getD d 0) = d := by
  have hall : ∀ d < 16, (isxdigit (smallDigits.getD d 0) = true ∧
      digitValue (smallDigits.getD d 0) = d) ∧ isxdigit (largeDigits.getD d 0) = true ∧
      digitValue (largeDigits.getD d 0) = d := by decide
  rcases h with rfl | rfl
  · exact (hall d hd).1
  · exact (hall d hd).2

/-- A byte that ends a number: it is neither a digit nor the `x` of a prefix. -/
def EndsNumber (c : Byte) : Prop := isxdigit c = false ∧ toupper c ≠ ch 'X'

theorem EndsNumber.stop {c : Byte} {base : ℕ} (h : EndsNumber c) : ¬ IsDigit base c := by
  intro hd
  rw [IsDigit, h.1] at hd
  exact absurd hd.1 (by decide)

/-- The bytes of a numeral are digits of its base. -/
theorem numeralIn_digits {digits : List Byte} (hdigits : IsTable digits) (hb : b.val ≤ 16) :
    ∀ c ∈ numeralIn digits b m, IsDigit b.val c := by
  intro c hc
  have hread : ∀ d < b.val, IsDigit b.val (digits.getD d 0) := by
    intro d hd
    obtain ⟨hx, hv⟩ := hdigits.digit (hd.trans_le hb)
    exact ⟨hx, by rw [hv]; exact hd⟩
  unfold numeralIn at hc
  split at hc
  · obtain rfl := List.mem_singleton.mp hc
    have hpos := b.two_le
    rcases hdigits with rfl | rfl
    · exact hread 0 (by omega)
    · exact hread 0 (by omega)
  · obtain ⟨d, hd, rfl⟩ := List.mem_map.mp hc
    exact hread d (Nat.digits_lt_base b.two_le (List.mem_reverse.mp hd))

/-- The value of a numeral is its number. -/
theorem valueFrom_numeralIn {digits : List Byte} (hdigits : IsTable digits) (hb : b.val ≤ 16) :
    valueFrom b.val 0 (numeralIn digits b m) = m := by
  unfold numeralIn
  split
  case isTrue h =>
    rw [h, valueFrom_cons, valueFrom_nil, Nat.zero_mul, Nat.zero_add]
    decide
  case isFalse h =>
    have hfold : ∀ ds : List ℕ, (∀ d ∈ ds, d < b.val) →
        valueFrom b.val 0 (ds.reverse.map fun d => digits.getD d 0) = Nat.ofDigits b.val ds := by
      intro ds hds
      induction ds with
      | nil => rfl
      | cons d ds ih =>
        rw [List.reverse_cons, List.map_append, valueFrom_append,
          ih fun e he => hds e (List.mem_cons_of_mem d he), List.map_singleton, valueFrom_cons,
          valueFrom_nil, (hdigits.digit ((hds d List.mem_cons_self).trans_le hb)).2,
          Nat.ofDigits_cons, Nat.mul_comm, Nat.add_comm]
    rw [hfold _ fun d hd => Nat.digits_lt_base b.two_le hd, Nat.ofDigits_digits]

theorem numeralIn_ne_nil (digits : List Byte) : numeralIn digits b m ≠ [] := by
  unfold numeralIn
  split
  case isTrue h => exact List.cons_ne_nil _ _
  case isFalse h =>
    intro hnil
    exact Nat.digits_ne_nil_iff_ne_zero.mpr h
      (List.reverse_eq_nil_iff.mp (List.map_eq_nil_iff.mp hnil))

/-- Behind a text of digits and a separator there is no `x` that would belong to a prefix. -/
theorem second_ne {s : List Byte} (hs : s ≠ []) (hdig : ∀ c ∈ s, isxdigit c = true)
    (hrest : toupper (peek rest) ≠ ch 'X') : toupper (peek (s ++ rest).tail) ≠ ch 'X' := by
  match s, hs with
  | [c], _ => exact hrest
  | c :: d :: s, _ =>
    exact toupper_ne_of_isxdigit (hdig d (List.mem_cons_of_mem c List.mem_cons_self))

/-- A numeral with zeros before it is read as its number. -/
theorem simpleStrtou_numeral {digits zs : List Byte} (hdigits : IsTable digits) (hb : b.val ≤ 16)
    (hzs : ∀ c ∈ zs, c = ch '0') (hrest : EndsNumber (peek rest)) :
    simpleStrtou w (zs ++ numeralIn digits b m ++ rest) b.val = (BitVec.ofNat w m, rest) := by
  have hpos := b.two_le
  have hzero : ∀ c ∈ zs, IsDigit b.val c := by
    intro c hc
    rw [hzs c hc, IsDigit, show digitValue (ch '0') = 0 by decide]
    exact ⟨by decide, by omega⟩
  have hall : ∀ c ∈ zs ++ numeralIn digits b m, IsDigit b.val c := by
    intro c hc
    rcases List.mem_append.mp hc with hc | hc
    · exact hzero c hc
    · exact numeralIn_digits hdigits hb c hc
  rw [simpleStrtou, strtouBase_of_second (by omega)
    (second_ne (by simp [numeralIn_ne_nil]) (fun c hc => (hall c hc).1) hrest.2)]
  have hrun := strtouLoop_run (w := w) (m := 0) hall rest
  rw [valueFrom_append, valueFrom_zeros hzs, valueFrom_numeralIn hdigits hb] at hrun
  exact hrun.trans (strtouLoop_stop hrest.stop)

/-- A decimal numeral is read as its number without a base, too. -/
theorem simpleStrtou_zero {digits : List Byte} (hdigits : IsTable digits)
    (hrest : EndsNumber (peek rest)) :
    simpleStrtou w (numeralIn digits ten m ++ rest) 0 = (BitVec.ofNat w m, rest) := by
  by_cases h : m = 0
  · rw [h, numeralIn, if_pos rfl, simpleStrtou, strtouBase, if_pos rfl,
      if_pos (show peek ([ch '0'] ++ rest) = ch '0' from rfl)]
    dsimp only [List.singleton_append, List.tail_cons]
    rw [if_neg fun h => hrest.2 h.1]
    exact strtouLoop_stop hrest.stop
  · have hpeek : peek (numeralIn digits ten m ++ rest) ≠ ch '0' := by
      have hne : Nat.digits 10 m ≠ [] := Nat.digits_ne_nil_iff_ne_zero.mpr h
      have hlast : (Nat.digits 10 m).getLast hne < 10 :=
        Nat.digits_lt_base (by decide) (List.getLast_mem hne)
      have hfirst : peek (numeralIn digits ten m ++ rest) =
          digits.getD ((Nat.digits 10 m).getLast hne) 0 := by
        rw [numeralIn, if_neg h, show ten.val = 10 from rfl]
        conv_lhs => rw [← List.dropLast_append_getLast hne]
        rw [List.reverse_append]
        rfl
      intro hzero
      have hv := (hdigits.digit (hlast.trans (by decide))).2
      rw [← hfirst, hzero, show digitValue (ch '0') = 0 by decide] at hv
      exact Nat.getLast_digit_ne_zero 10 h hv.symm
    rw [simpleStrtou, strtouBase_of_ne hpeek, if_pos rfl]
    have hrun := strtouLoop_run (w := w) (m := 0)
      (numeralIn_digits (b := ten) (m := m) hdigits (by decide)) rest
    rw [valueFrom_numeralIn hdigits (by decide)] at hrun
    exact hrun.trans (strtouLoop_stop hrest.stop)

/-! ### Formats -/

/-- The character of an integer conversion. -/
inductive Kind where
  | d | i | u | o | x | X
  deriving DecidableEq

def Kind.char : Kind → Byte
  | d => ch 'd'
  | i => ch 'i'
  | u => ch 'u'
  | o => ch 'o'
  | x => ch 'x'
  | X => ch 'X'

def Kind.radix : Kind → Radix
  | d | i | u => ten
  | o => eight
  | x | X => sixteen

def Kind.sign : Kind → Bool
  | d | i => true
  | _ => false

/-- The base that `vsscanf` reads with. -/
def Kind.base : Kind → ℕ
  | i => 0
  | k => k.radix.val

/-- The qualifier of an integer conversion. -/
inductive Qual where
  | none | h | l | ll | L | Z | z
  deriving DecidableEq

def Qual.text : Qual → List Byte
  | none => []
  | h => [ch 'h']
  | l => [ch 'l']
  | ll => [ch 'l', ch 'l']
  | L => [ch 'L']
  | Z => [ch 'Z']
  | z => [ch 'z']

/-- As both functions note it. -/
def Qual.letter : Qual → Option Byte
  | none => Option.none
  | h => some (ch 'h')
  | l => some (ch 'l')
  | ll | L => some (ch 'L')
  | Z => some (ch 'Z')
  | z => some (ch 'z')

/-- An integer conversion: zeros, a width that does not begin with one, qualifier and character. -/
structure IntConv where
  zeros : ℕ
  width : List Byte
  qual : Qual
  kind : Kind
  isWidth : ∀ c ∈ width, isdigit c = true
  noZero : peek width ≠ ch '0'
  isInt : valueFrom 10 0 width < 2 ^ 31
  plain : kind = .i → zeros = 0

namespace IntConv

variable (c : IntConv) (v : BitVec 64)

/-- What stands behind the percent sign. -/
def spec : List Byte :=
  List.replicate c.zeros (ch '0') ++ (c.width ++ (c.qual.text ++ [c.kind.char]))

/-- The flags that `vsnprintf` finds. -/
def flags : Flags :=
  ⟨decide (0 < c.zeros), c.kind.sign, false, false, false, false, decide (c.kind = .X)⟩

/-- The width that `vsnprintf` finds. -/
def widthValue : ℤ := if c.width = [] then -1 else (skipAtoi 0 c.width).1.toInt

/-- The argument. -/
def arg : VaArg :=
  match c.qual with
  | .ll | .L => .dword v
  | _ => .word (v.setWidth 32)

/-- The number that is printed. -/
def num : BitVec 64 :=
  match c.qual with
  | .ll | .L => v
  | .h => if c.kind.sign then (v.setWidth 16).signExtend 64 else (v.setWidth 16).setWidth 64
  | .Z | .z => (v.setWidth 32).setWidth 64
  | _ => if c.kind.sign then (v.setWidth 32).signExtend 64 else (v.setWidth 32).setWidth 64

/-- What reading stores. -/
def stored : Stored :=
  match c.qual with
  | .ll | .L => .dword v
  | .h => .half (v.setWidth 16)
  | _ => .word (v.setWidth 32)

/-- What is printed. -/
def text : List Byte := numberText (c.num v) c.kind.radix c.widthValue (-1) c.flags

end IntConv

/-- A part of a format, with its argument. -/
inductive Item where
  | chr (c : Byte)
  | int (c : IntConv) (v : BitVec 64)

def Item.format : Item → List Byte
  | chr c => [c]
  | int c _ => ch '%' :: c.spec

def Item.args : Item → List VaArg
  | chr _ => []
  | int c v => [c.arg v]

def Item.text : Item → List Byte
  | chr c => [c]
  | int c v => c.text v

def Item.stored : Item → List Stored
  | chr _ => []
  | int c v => [c.stored v]

/-- A format that can be read back: its other characters are no percent signs, and what comes
behind a number ends it. -/
inductive Readable : List Item → Prop where
  | nil : Readable []
  | chr {c : Byte} {items : List Item} (hzero : c ≠ 0) (hpercent : c ≠ ch '%')
      (h : Readable items) : Readable (.chr c :: items)
  | last (c : IntConv) (v : BitVec 64) : Readable [.int c v]
  | int (c : IntConv) (v : BitVec 64) {e : Byte} {items : List Item} (he : EndsNumber e)
      (h : Readable (.chr e :: items)) : Readable (.int c v :: .chr e :: items)

/-! ### What both functions find behind a percent sign -/

/-- The characters that `flagsLoop` takes. -/
def IsFlag (c : Byte) : Prop :=
  c = ch '-' ∨ c = ch '+' ∨ c = ch ' ' ∨ c = ch '#' ∨ c = ch '0'

theorem flagsLoop_stop {f : Flags} {s : List Byte} (h : ¬ IsFlag (peek s)) :
    flagsLoop f s = (f, s) := by
  cases s with
  | nil => rfl
  | cons c s =>
    obtain ⟨h₁, h₂, h₃, h₄, h₅⟩ : c ≠ ch '-' ∧ c ≠ ch '+' ∧ c ≠ ch ' ' ∧ c ≠ ch '#' ∧ c ≠ ch '0' := by
      simpa only [IsFlag, not_or, peek, List.headD_cons] using h
    rw [flagsLoop, if_neg h₁, if_neg h₂, if_neg h₃, if_neg h₄, if_neg h₅]

theorem flagsLoop_zeros {s : List Byte} (n : ℕ) (h : ¬ IsFlag (peek s)) :
    flagsLoop noFlags (List.replicate n (ch '0') ++ s) =
      ({ noFlags with zeropad := decide (0 < n) }, s) := by
  have hset : ∀ n (f : Flags), f.zeropad = true →
      flagsLoop f (List.replicate n (ch '0') ++ s) = (f, s) := by
    intro n
    induction n with
    | zero => exact fun f _ => flagsLoop_stop h
    | succ n ih =>
      intro f hf
      rw [List.replicate_succ, List.cons_append, flagsLoop]
      simp only [show ch '0' ≠ ch '-' by decide, show ch '0' ≠ ch '+' by decide,
        show ch '0' ≠ ch ' ' by decide, show ch '0' ≠ ch '#' by decide, if_false, if_true]
      rw [ih _ rfl, ← hf]
  cases n with
  | zero => exact flagsLoop_stop h
  | succ n => exact hset n { noFlags with zeropad := true } rfl

namespace IntConv

variable (c : IntConv) (rest : List Byte)

/-- Qualifier and character begin with no digit, and with nothing else that would be taken. -/
theorem tail_first : ¬ IsFlag (peek (c.qual.text ++ [c.kind.char] ++ rest)) ∧
    isdigit (peek (c.qual.text ++ [c.kind.char] ++ rest)) = false ∧
    peek (c.qual.text ++ [c.kind.char] ++ rest) ≠ ch '*' ∧
    peek (c.qual.text ++ [c.kind.char] ++ rest) ≠ ch '.' := by
  have hall : ∀ e ∈ [ch 'h', ch 'l', ch 'L', ch 'Z', ch 'z', ch 'd', ch 'i', ch 'u', ch 'o', ch 'x', ch 'X'],
      (e ≠ ch '-' ∧ e ≠ ch '+' ∧ e ≠ ch ' ' ∧ e ≠ ch '#' ∧ e ≠ ch '0') ∧ isdigit e = false ∧
        e ≠ ch '*' ∧ e ≠ ch '.' := by decide
  have hmem : peek (c.qual.text ++ [c.kind.char] ++ rest) ∈
      [ch 'h', ch 'l', ch 'L', ch 'Z', ch 'z', ch 'd', ch 'i', ch 'u', ch 'o', ch 'x', ch 'X'] := by
    cases c.qual <;> cases c.kind <;> simp [Qual.text, Kind.char, peek]
  obtain ⟨hflag, hrest⟩ := hall _ hmem
  exact ⟨by simpa only [IsFlag, not_or] using hflag, hrest⟩

/-- Nor does the width. -/
theorem width_first : ¬ IsFlag (peek (c.width ++ (c.qual.text ++ [c.kind.char] ++ rest))) := by
  obtain ⟨hflag, -⟩ := c.tail_first rest
  have hzero := c.noZero
  have hdigits := c.isWidth
  cases hw : c.width with
  | nil => exact hflag
  | cons e s =>
    rw [hw] at hzero hdigits
    have he := hdigits e List.mem_cons_self
    rintro (h | h | h | h | h)
    iterate 4
      rw [show e = _ from h] at he
      exact absurd he (by decide)
    exact hzero h

theorem getQualifier_spec : getQualifier (c.qual.text ++ [c.kind.char] ++ rest) =
    (c.qual.letter, c.kind.char :: rest) := by
  cases c.qual <;> cases c.kind <;> rfl

theorem fieldWidth_spec (f : Flags) (ap : List VaArg) :
    fieldWidth f (c.width ++ (c.qual.text ++ [c.kind.char] ++ rest)) ap =
      some (c.widthValue, f, c.qual.text ++ [c.kind.char] ++ rest, ap) := by
  obtain ⟨-, hdigit, hstar, -⟩ := c.tail_first rest
  have hskip := skipAtoi_append 0 c.isWidth hdigit
  unfold fieldWidth widthValue
  cases hw : c.width with
  | nil =>
    rw [List.nil_append, if_neg (by rw [hdigit]; decide), if_neg hstar, if_pos rfl]
  | cons e s =>
    have he : isdigit e = true := c.isWidth e (by rw [hw]; exact List.mem_cons_self)
    rw [hw] at hskip
    rw [if_pos (show isdigit (peek (e :: s ++ _)) = true from he), hskip,
      if_neg (List.cons_ne_nil e s)]

/-- What `vsnprintf` finds. -/
theorem getConversion_spec (ap : List VaArg) :
    getConversion (c.spec ++ rest) ap =
      some (⟨{ noFlags with zeropad := decide (0 < c.zeros) }, c.widthValue, -1, c.qual.letter,
        c.kind.char⟩, rest, ap) := by
  obtain ⟨-, -, -, hpoint⟩ := c.tail_first rest
  have hspec : c.spec ++ rest = List.replicate c.zeros (ch '0') ++
      (c.width ++ (c.qual.text ++ [c.kind.char] ++ rest)) := by
    simp only [spec, List.append_assoc]
  have hprec : getPrecision (c.qual.text ++ [c.kind.char] ++ rest) ap =
      some (-1, c.qual.text ++ [c.kind.char] ++ rest, ap) := by
    rw [getPrecision, if_neg hpoint]
  rw [hspec, getConversion, flagsLoop_zeros c.zeros (c.width_first rest)]
  dsimp only
  rw [c.fieldWidth_spec, Option.bind_eq_bind, Option.bind_some]
  dsimp only
  rw [hprec, Option.bind_eq_bind, Option.bind_some]
  dsimp only
  rw [c.getQualifier_spec]
  rfl

/-- The width is no negative number, or the -1 that stands for none. -/
theorem neg_one_le_widthValue : -1 ≤ c.widthValue := by
  have hvalue := skipAtoi_value (m := 0) c.isWidth
  have hint := c.isInt
  unfold widthValue
  split
  · exact le_rfl
  · have hsmall : 2 * (BitVec.ofNat 32 (valueFrom 10 0 c.width)).toNat < 2 ^ 32 := by
      rw [BitVec.toNat_ofNat, Nat.mod_eq_of_lt (by omega)]
      omega
    rw [show (0 : BitVec 32) = BitVec.ofNat 32 0 from rfl, hvalue, BitVec.toInt_eq_toNat_of_lt hsmall]
    omega

/-- The text that `vsnprintf` prints. -/
theorem conversionText_spec (done : BitVec 32) (v : BitVec 64) (ap : List VaArg) :
    conversionText done ⟨{ noFlags with zeropad := decide (0 < c.zeros) }, c.widthValue, -1,
      c.qual.letter, c.kind.char⟩ (c.arg v :: ap) = some ⟨c.text v, ap, []⟩ := by
  have hformat : integerFormat { noFlags with zeropad := decide (0 < c.zeros) } c.kind.char =
      some (c.kind.radix, c.flags) := by
    unfold flags
    cases c.kind <;> rfl
  have harg : integerArg c.qual.letter c.kind.sign (c.arg v :: ap) = some (c.num v, ap) := by
    have hhalf : (v.setWidth 32).setWidth 16 = v.setWidth 16 :=
      BitVec.setWidth_setWidth_of_le v (by decide)
    unfold arg num
    cases c.qual
    case h => rw [← hhalf]; rfl
    all_goals rfl
  have hchar : c.kind.char ≠ ch 'c' ∧ c.kind.char ≠ ch 's' ∧ c.kind.char ≠ ch 'p' ∧
      c.kind.char ≠ ch 'n' ∧ c.kind.char ≠ ch '%' := by
    cases c.kind <;> decide
  obtain ⟨h₁, h₂, h₃, h₄, h₅⟩ := hchar
  unfold conversionText
  rw [if_neg (not_lt.mpr c.neg_one_le_widthValue), if_neg h₁, if_neg h₂, if_neg h₃, if_neg h₄, if_neg h₅, hformat]
  dsimp only
  rw [show c.flags.sign = c.kind.sign from rfl, harg]
  rfl

/-! ### A conversion is read back -/

/-- The digits that a conversion prints with. -/
def table : List Byte := if c.flags.large then largeDigits else smallDigits

theorem isTable : IsTable c.table := by
  unfold table
  split
  · exact .inr rfl
  · exact .inl rfl

/-- The sign and the numeral of what is printed. -/
def body (v : BitVec 64) (zs : List Byte) : List Byte :=
  signText c.flags (c.num v) ++
    (zs ++ numeralIn c.table c.kind.radix (magnitude c.flags (c.num v)))

/-- What is printed is a number behind spaces, with zeros before it only for the flag. -/
theorem text_shape (v : BitVec 64) : ∃ sp zs, (∀ e ∈ sp, e = ch ' ') ∧ (∀ e ∈ zs, e = ch '0') ∧
    (c.zeros = 0 → zs = []) ∧ c.text v = sp ++ c.body v zs := by
  have hdigits : ∀ digits b m, digitsText digits b (-1) m = numeralIn digits b m := by
    intro digits b m
    rw [digitsText, show (-1 - ((numeralIn digits b m).length : ℤ)).toNat = 0 by omega,
      List.replicate_zero, List.nil_append]
  have hbase : baseText c.table c.flags c.kind.radix = [] := rfl
  unfold text numberText
  rw [show (if c.flags.large then largeDigits else smallDigits) = c.table from rfl]
  dsimp only
  rw [hbase, List.append_nil, hdigits, show c.flags.left = false from rfl, if_neg Bool.false_ne_true]
  generalize (c.widthValue - _).toNat = room
  by_cases hz : c.flags.zeropad = true
  · refine ⟨[], List.replicate room (ch '0'), by simp, fun e he => List.eq_of_mem_replicate he,
      fun h => ?_, ?_⟩
    · have : decide (0 < c.zeros) = true := hz
      rw [h] at this
      cases this
    · rw [if_pos hz, List.nil_append, body, List.append_assoc]
  · refine ⟨List.replicate room (ch ' '), [], fun e he => List.eq_of_mem_replicate he, by simp,
      fun _ => rfl, ?_⟩
    rw [if_neg hz, body, List.nil_append, List.append_assoc]

/-- The number that is read, in `w` bits. -/
def value (w : ℕ) (v : BitVec 64) : BitVec w :=
  if c.kind.sign then BitVec.ofInt w (c.num v).toInt else BitVec.ofNat w (c.num v).toNat

/-- The unsigned functions read the numeral. -/
theorem strtou_spec {w m : ℕ} {zs : List Byte} (hzs : ∀ e ∈ zs, e = ch '0')
    (hplain : c.zeros = 0 → zs = []) (hrest : EndsNumber (peek rest)) :
    simpleStrtou w (zs ++ numeralIn c.table c.kind.radix m ++ rest) c.kind.base =
      (BitVec.ofNat w m, rest) := by
  have hle : c.kind.radix.val ≤ 16 := by cases c.kind <;> decide
  by_cases hi : c.kind = .i
  · rw [hplain (c.plain hi), hi, List.nil_append]
    exact simpleStrtou_zero c.isTable hrest
  · have hbase : c.kind.base = c.kind.radix.val := by
      cases hk : c.kind <;> first | rfl | exact absurd hk hi
    rw [hbase]
    exact simpleStrtou_numeral c.isTable hle hzs hrest

theorem digits_first {m : ℕ} {zs : List Byte} (hzs : ∀ e ∈ zs, e = ch '0') :
    IsDigit c.kind.radix.val (peek (zs ++ numeralIn c.table c.kind.radix m ++ rest)) := by
  have hle : c.kind.radix.val ≤ 16 := by cases c.kind <;> decide
  cases zs with
  | nil =>
    cases hn : numeralIn c.table c.kind.radix m with
    | nil => exact absurd hn (numeralIn_ne_nil _)
    | cons e s =>
      exact numeralIn_digits (m := m) c.isTable hle e (by rw [hn]; exact List.mem_cons_self)
  | cons e s =>
    have he : e = ch '0' := hzs e List.mem_cons_self
    have hpos := c.kind.radix.two_le
    rw [List.cons_append, List.cons_append]
    change IsDigit _ e
    rw [he, IsDigit, show digitValue (ch '0') = 0 by decide]
    exact ⟨by decide, by omega⟩

/-- The number is read as it was printed. -/
theorem scanNumber_spec (w : ℕ) (v : BitVec 64) {zs : List Byte} (hzs : ∀ e ∈ zs, e = ch '0')
    (hplain : c.zeros = 0 → zs = []) (hrest : EndsNumber (peek rest)) :
    scanNumber w c.kind.sign (c.body v zs ++ rest) c.kind.base = (c.value w v, rest) := by
  have hsign : c.flags.sign = c.kind.sign := rfl
  unfold scanNumber value body signText magnitude
  rw [hsign]
  cases hk : c.kind.sign
  · simp only [Bool.false_eq_true, if_false, List.nil_append]
    exact c.strtou_spec rest hzs hplain hrest
  · simp only [if_true]
    by_cases hneg : (c.num v).toInt < 0
    · have hvalue : BitVec.ofInt w (c.num v).toInt = -BitVec.ofNat w (c.num v).toInt.natAbs := by
        rw [← BitVec.ofInt_natCast, ← BitVec.ofInt_neg, Int.natCast_natAbs, abs_of_neg hneg, neg_neg]
      rw [if_pos hneg, simpleStrto, List.append_assoc, List.singleton_append]
      rw [if_pos (show peek (ch '-' :: _) = ch '-' from rfl), List.tail_cons,
        c.strtou_spec rest hzs hplain hrest, hvalue]
    · have hminus : peek (zs ++ numeralIn c.table c.kind.radix (c.num v).toInt.natAbs ++ rest) ≠
          ch '-' := by
        intro h
        have hdig := (c.digits_first rest (m := (c.num v).toInt.natAbs) hzs).1
        rw [h] at hdig
        exact absurd hdig (by decide)
      rw [if_neg hneg, show c.flags.plus = false from rfl, show c.flags.space = false from rfl]
      simp only [Bool.false_eq_true, if_false, List.nil_append]
      rw [simpleStrto, if_neg hminus, c.strtou_spec rest hzs hplain hrest, ← BitVec.ofInt_natCast,
        Int.natCast_natAbs, abs_of_nonneg (not_lt.mp hneg)]

/-- Of a number that has been extended, the low bits are the number. -/
theorem low_of_extended {n w : ℕ} (x : BitVec n) (hn : n ≤ w) (hw : w ≤ 64) (sign : Bool) :
    (if sign then BitVec.ofInt w (x.signExtend 64).toInt
      else BitVec.ofNat w (x.setWidth 64).toNat).setWidth n = x := by
  cases sign
  · rw [if_neg Bool.false_ne_true, BitVec.ofNat_toNat, BitVec.setWidth_setWidth_of_le x hw,
      BitVec.setWidth_setWidth_of_le x hn, BitVec.setWidth_eq]
  · rw [if_pos rfl, BitVec.toInt_signExtend_of_le (hn.trans hw)]
    change (x.signExtend w).setWidth n = x
    rw [← BitVec.signExtend_eq_setWidth_of_le _ hn]
    apply BitVec.eq_of_toInt_eq
    rw [BitVec.toInt_signExtend_eq_toInt_bmod_of_le _ hn, BitVec.toInt_signExtend_of_le hn,
      BitVec.toInt_bmod_cancel]

/-- The number that is read has the argument in its low bits. -/
theorem value_of_extended {n w : ℕ} {v : BitVec 64} {x : BitVec n} (hn : n ≤ w) (hw : w ≤ 64)
    (h : c.num v = if c.kind.sign then x.signExtend 64 else x.setWidth 64) :
    (c.value w v).setWidth n = x := by
  have hlow := low_of_extended x hn hw c.kind.sign
  rw [value, h]
  cases hs : c.kind.sign
  · simpa only [hs, Bool.false_eq_true, if_false] using hlow
  · simpa only [hs, if_true] using hlow

theorem value_of_dword {v : BitVec 64} (h : c.num v = v) : c.value 64 v = v := by
  rw [value, h, BitVec.ofInt_toInt, BitVec.ofNat_toNat, BitVec.setWidth_eq, ite_self]

theorem value_of_word {v : BitVec 64} {x : BitVec 32}
    (h : c.num v = if c.kind.sign then x.signExtend 64 else x.setWidth 64) : c.value 32 v = x := by
  rw [← c.value_of_extended (n := 32) (w := 32) (by decide) (by decide) h, BitVec.setWidth_eq]

/-- What is stored is what the argument has in its type. -/
theorem storeNumber_spec (v : BitVec 64) {zs : List Byte} (hzs : ∀ e ∈ zs, e = ch '0')
    (hplain : c.zeros = 0 → zs = []) (hrest : EndsNumber (peek rest)) :
    storeNumber c.qual.letter c.kind.sign (c.body v zs ++ rest) c.kind.base =
      (c.stored v, rest) := by
  have hscan := fun w => c.scanNumber_spec rest w v hzs hplain hrest
  have hne : ch 'h' ≠ ch 'H' ∧ ch 'l' ≠ ch 'H' ∧ ch 'L' ≠ ch 'H' ∧ ch 'l' ≠ ch 'h' ∧
      ch 'L' ≠ ch 'h' ∧ ch 'L' ≠ ch 'l' := by decide
  have hneZ : ∀ e ∈ [ch 'H', ch 'h', ch 'l', ch 'L'], ch 'Z' ≠ e ∧ ch 'z' ≠ e := by decide
  -- `%Z` and `%z` print and read a number without a sign
  have hword : (c.num v = (v.setWidth 32).setWidth 64) →
      simpleStrtou 32 (c.body v zs ++ rest) c.kind.base = (v.setWidth 32, rest) := by
    intro hnum
    have hnat : (c.num v).toNat = (v.setWidth 32).toNat := by
      rw [hnum, BitVec.toNat_setWidth_of_le (by decide)]
    have hlt := (v.setWidth 32).isLt
    have hint : (c.num v).toInt = (v.setWidth 32).toNat := by
      rw [BitVec.toInt_eq_toNat_of_lt (by omega), hnat]
    have hmagnitude : magnitude c.flags (c.num v) = (v.setWidth 32).toNat := by
      rw [magnitude, hnat, hint, Int.natAbs_natCast, ite_self]
    have hsign : signText c.flags (c.num v) = [] := by
      rw [signText, if_neg (show ¬ (c.num v).toInt < 0 by omega)]
      simp [flags]
    rw [body, hsign, List.nil_append, c.strtou_spec rest hzs hplain hrest, hmagnitude,
      BitVec.ofNat_toNat, BitVec.setWidth_eq]
  unfold storeNumber stored
  simp only [hscan]
  cases hq : c.qual
  case none =>
    have hvalue := c.value_of_word (v := v) (x := v.setWidth 32) (by rw [num, hq])
    simp [Qual.letter, hvalue]
  case l =>
    have hvalue := c.value_of_word (v := v) (x := v.setWidth 32) (by rw [num, hq])
    simp [Qual.letter, hne, hvalue]
  case h =>
    have hvalue := c.value_of_extended (v := v) (x := v.setWidth 16) (w := 32) (by decide)
      (by decide) (by rw [num, hq])
    simp [Qual.letter, hne, hvalue]
  case ll =>
    have hvalue := c.value_of_dword (v := v) (by rw [num, hq])
    simp [Qual.letter, hne, hvalue]
  case L =>
    have hvalue := c.value_of_dword (v := v) (by rw [num, hq])
    simp [Qual.letter, hne, hvalue]
  case Z =>
    rw [hword (by rw [num, hq])]
    simp [Qual.letter, hneZ]
  case z =>
    rw [hword (by rw [num, hq])]
    simp [Qual.letter, hneZ]

/-- A digit of the base is what `vsscanf` wants to see. -/
theorem badDigit_eq_false {e : Byte} (h : IsDigit c.kind.radix.val e) :
    e ≠ 0 ∧ badDigit c.kind.base e = false := by
  have hall : ∀ e ∈ xdigits, e ≠ 0 ∧ badDigit 16 e = false ∧ (digitValue e < 8 →
      badDigit 8 e = false) ∧ (digitValue e < 10 → badDigit 10 e = false ∧ badDigit 0 e = false) := by
    decide
  obtain ⟨hne, h16, h8, h10⟩ := hall e (mem_xdigits h.1)
  refine ⟨hne, ?_⟩
  cases hk : c.kind <;> rw [hk] at h
  case d => exact (h10 h.2).1
  case i => exact (h10 h.2).2
  case u => exact (h10 h.2).1
  case o => exact h8 h.2
  case x => exact h16
  case X => exact h16

/-- The character that decides whether there is a number. -/
theorem digit_spec (v : BitVec 64) {zs : List Byte} (hzs : ∀ e ∈ zs, e = ch '0') :
    IsDigit c.kind.radix.val
      (if c.kind.sign ∧ peek (c.body v zs ++ rest) = ch '-' then peek (c.body v zs ++ rest).tail
        else peek (c.body v zs ++ rest)) := by
  have hdig := fun m => c.digits_first rest (m := m) hzs
  have hminus : ∀ {base : ℕ} {e : Byte}, IsDigit base e → e ≠ ch '-' := by
    rintro base e h rfl
    exact absurd h.1 (by decide)
  have hsign : c.flags.sign = c.kind.sign := rfl
  unfold body signText
  rw [hsign]
  by_cases hneg : c.kind.sign = true ∧ (c.num v).toInt < 0
  · rw [if_pos hneg.1, if_pos hneg.2, List.append_assoc, List.singleton_append,
      if_pos ⟨hneg.1, rfl⟩]
    exact hdig _
  · have hempty : (if c.kind.sign then if (c.num v).toInt < 0 then [ch '-'] else
        if c.flags.plus then [ch '+'] else if c.flags.space then [ch ' '] else [] else []) = [] := by
      by_cases hs : c.kind.sign = true
      · rw [if_pos hs, if_neg fun h => hneg ⟨hs, h⟩]
        rfl
      · rw [if_neg hs]
    rw [hempty, List.nil_append, if_neg fun h => hminus (hdig _) h.2]
    exact hdig _

/-- The body is not empty. -/
theorem peek_body (v : BitVec 64) {zs : List Byte} (hzs : ∀ e ∈ zs, e = ch '0') :
    peek (c.body v zs ++ rest) ≠ 0 := by
  intro hzero
  have hdig := c.digit_spec rest v hzs
  rw [hzero, if_neg fun h => absurd h.2 (by decide)] at hdig
  exact absurd hdig.1 (by decide)

/-- The body begins with no white space. -/
theorem dropWhile_body (v : BitVec 64) {sp zs : List Byte} (hsp : ∀ e ∈ sp, e = ch ' ')
    (hzs : ∀ e ∈ zs, e = ch '0') :
    (sp ++ (c.body v zs ++ rest)).dropWhile isspace = c.body v zs ++ rest := by
  have hspace : ∀ e ∈ sp, isspace e = true := fun e he => by rw [hsp e he]; decide
  rw [List.dropWhile_append_of_pos hspace]
  have hdig := c.digit_spec rest v hzs
  cases hbody : c.body v zs ++ rest with
  | nil =>
    rw [hbody] at hdig
    have hzero : IsDigit c.kind.radix.val 0 := by simpa [peek] using hdig
    exact absurd hzero.1 (by decide)
  | cons e s =>
    rw [hbody] at hdig
    have hne : isspace e = false := by
      by_cases hminus : c.kind.sign = true ∧ e = ch '-'
      · rw [hminus.2]
        decide
      · exact not_isspace_of_isxdigit (by simpa [peek, hminus] using hdig.1)
    rw [List.dropWhile_cons_of_neg (by rw [hne]; decide)]

/-- A conversion reads what was printed for it. -/
theorem scanInteger_spec (v : BitVec 64) {zs fmt : List Byte} {st : Scan}
    (hzs : ∀ e ∈ zs, e = ch '0') (hplain : c.zeros = 0 → zs = []) (hrest : EndsNumber (peek rest))
    (hstr : st.str.dropWhile isspace = c.body v zs ++ rest) :
    scanInteger c.qual.letter c.kind.base c.kind.sign fmt st =
      .go fmt ⟨rest, st.num + 1, st.stored ++ [c.stored v]⟩ := by
  obtain ⟨hne, hgood⟩ := c.badDigit_eq_false (c.digit_spec rest v hzs)
  unfold scanInteger
  dsimp only
  rw [hstr, if_neg (by rw [hgood]; simpa using hne), c.storeNumber_spec rest v hzs hplain hrest]

/-- What `vsscanf` finds, and does. -/
theorem scanConversion_spec (buf : List Byte) (v : BitVec 64) {zs fmt : List Byte} {st : Scan}
    (hzs : ∀ e ∈ zs, e = ch '0') (hplain : c.zeros = 0 → zs = []) (hrest : EndsNumber (peek rest))
    (hpeek : peek st.str ≠ 0) (hstr : st.str.dropWhile isspace = c.body v zs ++ rest) :
    scanConversion buf (c.spec ++ fmt) st =
      .go fmt ⟨rest, st.num + 1, st.stored ++ [c.stored v]⟩ := by
  obtain ⟨-, hdigit, hstar, -⟩ := c.tail_first fmt
  have hspec : c.spec ++ fmt = (List.replicate c.zeros (ch '0') ++ c.width) ++
      (c.qual.text ++ [c.kind.char] ++ fmt) := by
    simp only [spec, List.append_assoc]
  have hdigits : ∀ e ∈ List.replicate c.zeros (ch '0') ++ c.width, isdigit e = true := by
    intro e he
    rcases List.mem_append.mp he with he | he
    · rw [List.eq_of_mem_replicate he]
      decide
    · exact c.isWidth e he
  have hnostar : peek (c.spec ++ fmt) ≠ ch '*' := by
    rw [hspec]
    cases hs : List.replicate c.zeros (ch '0') ++ c.width with
    | nil => exact hstar
    | cons e s =>
      have he := hdigits e (by rw [hs]; exact List.mem_cons_self)
      rintro h
      rw [show e = ch '*' from h] at he
      exact absurd he (by decide)
  have hwidth : (scanWidth (c.spec ++ fmt)).2 = c.qual.text ++ [c.kind.char] ++ fmt := by
    rw [hspec, scanWidth]
    cases hs : List.replicate c.zeros (ch '0') ++ c.width with
    | nil => rw [List.nil_append, if_neg (by rw [hdigit]; decide)]
    | cons e s =>
      rw [hs] at hdigits
      have he : isdigit (peek (e :: s ++ (c.qual.text ++ [c.kind.char] ++ fmt))) = true :=
        hdigits e List.mem_cons_self
      rw [if_pos he, skipAtoi_append 0 hdigits hdigit]
  have hqual : scanQualifier (c.qual.text ++ [c.kind.char] ++ fmt) =
      (c.qual.letter, c.kind.char :: fmt) := by
    cases c.qual <;> cases c.kind <;> rfl
  have hchar : c.kind.char ≠ 0 ∧ c.kind.char ≠ ch 'c' ∧ c.kind.char ≠ ch 's' ∧
      c.kind.char ≠ ch 'n' ∧ c.kind.char ≠ ch '%' := by
    cases c.kind <;> decide
  have hformat : scanFormat c.kind.char = some (c.kind.base, c.kind.sign) := by
    cases c.kind <;> rfl
  obtain ⟨h₀, h₁, h₂, h₃, h₄⟩ := hchar
  unfold scanConversion
  rw [if_neg hnostar]
  dsimp only
  rw [hwidth, hqual]
  dsimp only
  rw [show peek (c.kind.char :: fmt) = c.kind.char from rfl, if_neg (not_or.mpr ⟨h₀, hpeek⟩)]
  change scanSwitch buf _ c.qual.letter c.kind.char fmt st = _
  rw [scanSwitch, if_neg h₁, if_neg h₂, if_neg h₃, if_neg h₄, hformat]
  exact c.scanInteger_spec rest v hzs hplain hrest hstr

end IntConv

/-! ### A whole format -/

variable {items : List Item}

/-- What `vsnprintf` prints of a format. -/
theorem formatText_items (h : Readable items) (done : List Byte) (ap : List VaArg)
    (counts : List (BitVec 32 × BitVec 32)) :
    formatText (items.flatMap Item.format) ⟨done, items.flatMap Item.args ++ ap, counts⟩ =
      some ⟨done ++ items.flatMap Item.text, ap, counts⟩ := by
  have hint : ∀ (c : IntConv) (v : BitVec 64) (tail : List Item) (done : List Byte),
      formatText (Item.format (.int c v) ++ tail.flatMap Item.format)
        ⟨done, c.arg v :: (tail.flatMap Item.args ++ ap), counts⟩ =
      formatText (tail.flatMap Item.format)
        ⟨done ++ c.text v, tail.flatMap Item.args ++ ap, counts⟩ := by
    intro c v tail done
    rw [Item.format, List.cons_append, formatText_percent, c.getConversion_spec, Option.bind_some]
    dsimp only
    rw [c.conversionText_spec, Option.bind_some, List.append_nil]
  induction h generalizing done with
  | nil => rw [List.flatMap_nil, formatText, List.flatMap_nil, List.flatMap_nil, List.append_nil]; rfl
  | chr hzero hpercent h ih =>
    simp only [List.flatMap_cons, Item.format, Item.args, Item.text, List.nil_append,
      List.singleton_append]
    rw [formatText_char hpercent, ih, List.append_assoc]
    rfl
  | last c v =>
    have h := hint c v [] done
    simp only [List.flatMap_nil, List.append_nil] at h
    simp only [List.flatMap_cons, List.flatMap_nil, List.append_nil, Item.args,
      List.singleton_append]
    exact h.trans (by rw [formatText]; rfl)
  | @int c v e tail he h ih =>
    have h := hint c v (.chr e :: tail) done
    have hrest := ih (done ++ c.text v)
    rw [List.append_assoc] at hrest
    exact h.trans hrest

/-- White space in a format. -/
def Item.isWhite : Item → Bool
  | chr c => isspace c
  | int _ _ => false

theorem isspace_percent : isspace (ch '%') = false := by decide

/-- `while (isspace(*fmt)) ++fmt;` -/
theorem format_dropWhile (items : List Item) :
    (items.flatMap Item.format).dropWhile isspace =
      (items.dropWhile Item.isWhite).flatMap Item.format := by
  induction items with
  | nil => rfl
  | cons item items ih =>
    cases item with
    | chr c =>
      rw [List.flatMap_cons, Item.format, List.singleton_append]
      by_cases hc : isspace c = true
      · have hw : (Item.chr c).isWhite = true := hc
        rw [List.dropWhile_cons_of_pos hc, List.dropWhile_cons_of_pos hw, ih]
      · have hw : ¬ (Item.chr c).isWhite = true := hc
        rw [List.dropWhile_cons_of_neg hc, List.dropWhile_cons_of_neg hw]
        rfl
    | int c v =>
      rw [List.flatMap_cons, Item.format, List.cons_append,
        List.dropWhile_cons_of_neg (by rw [isspace_percent]; decide),
        List.dropWhile_cons_of_neg (by simp [Item.isWhite])]
      rfl

/-- `while (isspace(*str)) ++str;` -/
theorem text_dropWhile (items : List Item) :
    (items.flatMap Item.text).dropWhile isspace =
      ((items.dropWhile Item.isWhite).flatMap Item.text).dropWhile isspace := by
  induction items with
  | nil => rfl
  | cons item items ih =>
    cases item with
    | chr c =>
      by_cases hc : isspace c = true
      · have hw : (Item.chr c).isWhite = true := hc
        rw [List.dropWhile_cons_of_pos hw, List.flatMap_cons, Item.text, List.singleton_append,
          List.dropWhile_cons_of_pos hc, ih]
      · have hw : ¬ (Item.chr c).isWhite = true := hc
        rw [List.dropWhile_cons_of_neg hw]
    | int c v => rw [List.dropWhile_cons_of_neg (by simp [Item.isWhite])]

theorem stored_dropWhile (items : List Item) :
    items.flatMap Item.stored = (items.dropWhile Item.isWhite).flatMap Item.stored := by
  induction items with
  | nil => rfl
  | cons item items ih =>
    by_cases hw : item.isWhite = true
    · rw [List.dropWhile_cons_of_pos hw, List.flatMap_cons, ih]
      cases item with
      | chr c => rfl
      | int c v => cases hw
    · rw [List.dropWhile_cons_of_neg hw]

theorem Readable.tail {item : Item} (h : Readable (item :: items)) : Readable items := by
  cases h with
  | chr _ _ h => exact h
  | last => exact .nil
  | int _ _ _ h => exact h

theorem Readable.dropWhile (h : Readable items) : Readable (items.dropWhile Item.isWhite) := by
  induction items with
  | nil => exact h
  | cons item items ih =>
    by_cases hw : item.isWhite = true
    · rw [List.dropWhile_cons_of_pos hw]
      exact ih h.tail
    · rw [List.dropWhile_cons_of_neg hw]
      exact h

/-- What comes behind a number ends it. -/
theorem Readable.ends {c : IntConv} {v : BitVec 64} (h : Readable (.int c v :: items)) :
    EndsNumber (peek (items.flatMap Item.text)) := by
  cases h with
  | last => exact ⟨by decide, by decide⟩
  | int _ _ he _ => exact he

/-- A part of the format that is not white space is read behind any white space. -/
theorem scanItem_spec (buf : List Byte) (st : Scan) {item : Item}
    (h : Readable (item :: items)) (hw : item.isWhite = false)
    (hstr : st.str = (item :: items).flatMap Item.text ∨
      st.str = ((item :: items).flatMap Item.text).dropWhile isspace) :
    ∃ num, scanItem buf ((item :: items).flatMap Item.format) st =
      .go (items.flatMap Item.format)
        ⟨items.flatMap Item.text, st.num + num, st.stored ++ item.stored⟩ ∧
      num = item.stored.length := by
  cases item with
  | chr c =>
    have hc : isspace c = false := hw
    have hpercent : c ≠ ch '%' := by
      cases h with
      | chr _ hpercent _ => exact hpercent
    have htext : st.str = c :: items.flatMap Item.text := by
      rcases hstr with hstr | hstr
      · exact hstr
      · rw [hstr, List.flatMap_cons]
        exact List.dropWhile_cons_of_neg (by rw [hc]; decide)
    refine ⟨0, ?_, rfl⟩
    rw [List.flatMap_cons, Item.format, List.singleton_append]
    have hpeek : c = peek (c :: items.flatMap Item.text) := rfl
    rw [scanItem, if_pos hpercent, htext, if_neg (not_not.mpr hpeek)]
    simp [Item.stored]
  | int c v =>
    obtain ⟨sp, zs, hsp, hzs, hplain, htext⟩ := c.text_shape v
    have hends := h.ends
    have hall : (Item.int c v :: items).flatMap Item.text =
        sp ++ (c.body v zs ++ items.flatMap Item.text) := by
      rw [List.flatMap_cons, Item.text, htext, List.append_assoc]
    have hdrop := c.dropWhile_body (items.flatMap Item.text) v hsp hzs
    have hbody := c.dropWhile_body (items.flatMap Item.text) v
      (show ∀ e ∈ ([] : List Byte), e = ch ' ' by simp) hzs
    rw [List.nil_append] at hbody
    have hpeek := c.peek_body (items.flatMap Item.text) v hzs
    have hread : peek st.str ≠ 0 ∧
        st.str.dropWhile isspace = c.body v zs ++ items.flatMap Item.text := by
      rcases hstr with hstr | hstr
      · rw [hstr, hall]
        refine ⟨?_, hdrop⟩
        cases sp with
        | nil => exact hpeek
        | cons e sp =>
          rw [List.cons_append]
          change e ≠ 0
          rw [hsp e List.mem_cons_self]
          decide
      · rw [hstr, hall, hdrop]
        exact ⟨hpeek, hbody⟩
    refine ⟨1, ?_, rfl⟩
    rw [List.flatMap_cons, Item.format, List.cons_append]
    rw [scanItem, if_neg (not_not.mpr rfl)]
    exact c.scanConversion_spec (items.flatMap Item.text) buf v hzs hplain hends hread.1 hread.2

theorem Item.format_ne_nil (item : Item) : item.format ≠ [] := by
  cases item <;> exact List.cons_ne_nil _ _

theorem Item.text_ne_nil (item : Item) : item.text ≠ [] := by
  cases item with
  | chr c => exact List.cons_ne_nil _ _
  | int c v =>
    obtain ⟨sp, zs, -, hzs, -, htext⟩ := c.text_shape v
    have hpeek := c.peek_body [] v hzs
    rw [List.append_nil] at hpeek
    intro h
    rw [Item.text, htext] at h
    rw [(List.append_eq_nil_iff.mp h).2] at hpeek
    exact hpeek rfl

/-- White space in the format skips all that there is in both, and the next item is read in the
same turn. -/
theorem scanTurn_of_white {item : Item} (hw : item.isWhite = true) (tail : List Item)
    (buf : List Byte) (num : ℕ) (stored : List Stored) :
    scanTurn buf ((item :: tail).flatMap Item.format)
        ⟨(item :: tail).flatMap Item.text, num, stored⟩ =
      scanItem buf ((tail.dropWhile Item.isWhite).flatMap Item.format)
        ⟨((tail.dropWhile Item.isWhite).flatMap Item.text).dropWhile isspace, num, stored⟩ := by
  have hspace : isspace (peek ((item :: tail).flatMap Item.format)) = true := by
    cases item with
    | chr c => exact hw
    | int c v => cases hw
  have hdrop := List.dropWhile_cons_of_pos (l := tail) hw
  have htext := text_dropWhile (item :: tail)
  have hskip := format_dropWhile (item :: tail)
  rw [hdrop] at htext hskip
  rw [scanTurn, if_pos hspace, hskip, htext]

theorem scanTurn_of_not_white {item : Item} (hw : item.isWhite = false) (tail : List Item)
    (buf : List Byte) (sc : Scan) :
    scanTurn buf ((item :: tail).flatMap Item.format) sc =
      scanItem buf ((item :: tail).flatMap Item.format) sc := by
  have hspace : isspace (peek ((item :: tail).flatMap Item.format)) = false := by
    cases item with
    | chr c => exact hw
    | int c v => exact isspace_percent
  rw [scanTurn, if_neg (Bool.eq_false_iff.mp hspace)]

/-- The loop reads everything. -/
theorem vsscanfLoop_items (buf : List Byte) (n : ℕ) (hn : items.length ≤ n) (h : Readable items)
    (num : ℕ) (stored : List Stored) :
    ∃ str, vsscanfLoop buf (items.flatMap Item.format) ⟨items.flatMap Item.text, num, stored⟩ =
      ⟨str, num + (items.flatMap Item.stored).length, stored ++ items.flatMap Item.stored⟩ := by
  induction n generalizing items num stored with
  | zero =>
    obtain rfl := List.eq_nil_of_length_eq_zero (Nat.le_zero.mp hn)
    exact ⟨[], by simp [vsscanfLoop_end]⟩
  | succ n ih =>
    match items, hn, h with
    | [], _, _ => exact ⟨[], by simp [vsscanfLoop_end]⟩
    | item :: tail, hn, h =>
      have hlen : tail.length ≤ n := Nat.le_of_succ_le_succ hn
      have hfmt : (item :: tail).flatMap Item.format ≠ [] := by simp [item.format_ne_nil]
      have hstr : (item :: tail).flatMap Item.text ≠ [] := by simp [item.text_ne_nil]
      cases hw : item.isWhite with
      | false =>
        have hturn := scanTurn_of_not_white hw tail buf
          ⟨(item :: tail).flatMap Item.text, num, stored⟩
        obtain ⟨k, hgo, hk⟩ := scanItem_spec buf
          ⟨(item :: tail).flatMap Item.text, num, stored⟩ h hw (.inl rfl)
        obtain ⟨str, hloop⟩ := ih hlen h.tail (num + k) (stored ++ item.stored)
        refine ⟨str, (vsscanfLoop_go hfmt hstr (hturn.trans hgo)).trans (hloop.trans ?_)⟩
        rw [List.flatMap_cons (f := Item.stored), List.length_append, ← hk, Nat.add_assoc,
          List.append_assoc]
      | true =>
        have hturn := scanTurn_of_white hw tail buf num stored
        have hread := h.dropWhile
        have hst := stored_dropWhile (item :: tail)
        rw [List.dropWhile_cons_of_pos hw] at hread hst
        have hle := (List.dropWhile_sublist Item.isWhite (l := tail)).length_le
        cases hrest : tail.dropWhile Item.isWhite with
        | nil =>
          rw [hrest] at hturn hst
          exact ⟨[], (vsscanfLoop_stop hfmt hstr hturn).trans (by simp [hst])⟩
        | cons next items =>
          rw [hrest] at hturn hst hread hle
          have hnext : next.isWhite = false := by
            have hhead := List.head?_dropWhile_not Item.isWhite tail
            rw [hrest] at hhead
            simpa using hhead
          obtain ⟨k, hgo, hk⟩ := scanItem_spec buf
            ⟨((next :: items).flatMap Item.text).dropWhile isspace, num, stored⟩ hread hnext
            (.inr rfl)
          obtain ⟨str, hloop⟩ := @ih items (by rw [List.length_cons] at hle; omega)
            hread.tail (num + k) (stored ++ next.stored)
          refine ⟨str, (vsscanfLoop_go hfmt hstr (hturn.trans hgo)).trans (hloop.trans ?_)⟩
          rw [hst, List.flatMap_cons, List.length_append, ← hk, Nat.add_assoc, List.append_assoc]

/-- Reading the text of a format gives back every argument, and the number of them. -/
theorem vsscanf_text (h : Readable items) :
    vsscanf (items.flatMap Item.text) (items.flatMap Item.format) =
      ((items.flatMap Item.stored).length, items.flatMap Item.stored) := by
  obtain ⟨str, hloop⟩ := vsscanfLoop_items (items.flatMap Item.text) _ (Nat.le_refl _) h 0 []
  rw [vsscanf, hloop, Nat.zero_add, List.nil_append]

open Theory.Memory

/-- What `vsnprintf` prints of a format of integer conversions into a buffer that is large enough,
`vsscanf` reads back by the same format: every argument as it was, and the result is how many
there are. -/
theorem vsscanf_vsnprintf (h : Readable items) (mem : BitVec 32 → Byte) {buf size : BitVec 32}
    (hbuf : buf ≠ 0) (hsize : 0 ≤ size.toInt)
    (hfits : (items.flatMap Item.text).length < size.toNat)
    (hlen : (items.flatMap Item.text).length + 2 < 2 ^ 31)
    (hroom : buf.toNat + (items.flatMap Item.text).length < 2 ^ 32) :
    ∃ t : List Byte, vsnprintf mem buf size (items.flatMap Item.format) (items.flatMap Item.args) =
        some ⟨store mem buf (t ++ [0]), BitVec.ofNat 32 t.length, []⟩ ∧
      vsscanf t (items.flatMap Item.format) =
        ((items.flatMap Item.stored).length, items.flatMap Item.stored) := by
  refine ⟨items.flatMap Item.text, ?_, vsscanf_text h⟩
  have hprint := formatText_items h [] [] []
  rw [List.append_nil, List.nil_append] at hprint
  have hne : size ≠ 0 := by
    rintro rfl
    exact absurd hfits (Nat.not_lt_zero _)
  have hwhole : printedInto mem buf size (items.flatMap Item.text) =
      store mem buf (items.flatMap Item.text ++ [0]) := by
    rw [printedInto, if_neg hne, List.take_of_length_le (by omega)]
  rw [vsnprintf_eq mem hbuf hsize hprint hlen hroom, hwhole]

/-- A negative number, and one with leading zeros, by `%d,%04x`. -/
theorem vsscanf_vsnprintf_two :
    ∃ t, vsnprintf (fun _ => 0xff) 0x30000000 16 (text "%d,%04x") [.word (-7), .word 0x2a] =
        some ⟨store (fun _ => 0xff) 0x30000000 (t ++ [0]), BitVec.ofNat 32 t.length, []⟩ ∧
      vsscanf t (text "%d,%04x") = (2, [.word (-7), .word 0x2a]) := by
  have hread : Readable
      [.int ⟨0, [], .none, .d, by simp, by decide, by decide, fun _ => rfl⟩ (-7), .chr (ch ','),
        .int ⟨1, [ch '4'], .none, .x, by decide, by decide, by decide, nofun⟩ 0x2a] :=
    .int _ _ ⟨by decide, by decide⟩ (.chr (by decide) (by decide) (.last _ _))
  have hlength : (([.int ⟨0, [], .none, .d, by simp, by decide, by decide, fun _ => rfl⟩ (-7),
      .chr (ch ','),
      .int ⟨1, [ch '4'], .none, .x, by decide, by decide, by decide, nofun⟩ 0x2a] :
        List Item).flatMap Item.text).length = 7 := by
    decide
  exact vsscanf_vsnprintf hread (fun _ => 0xff) (by decide) (by decide) (by rw [hlength]; decide)
    (by rw [hlength]; decide) (by rw [hlength]; decide)

end S3c2440.Stdio
