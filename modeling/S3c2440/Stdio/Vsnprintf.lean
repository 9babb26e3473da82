import S3c2440.Stdio.Number
import S3c2440.Theory.Memory

/-!
# Formatted output into a buffer

`vsnprintf` of `lib/vsprintf.c` and the functions that call it. It goes once through the format;
a conversion is its flags, a width, a precision, a qualifier and a character, and `*` takes
a width or a precision from the arguments. What is printed goes to `str`, which moves on
even where nothing is written any more, so that it tells the length of the whole text.

A string argument is its address and its bytes before the NUL. An argument that is missing
or of another kind is undefined in C; the result is `none` then. The addresses wrap round at
32 bits, and the result of `vsnprintf` has 32 bits as well. So do widths and lengths, which are
of type `int`: the text of a conversion is said only for a width that is not negative, or the
-1 that stands for none, and an `int` has to be able to count what is printed.

## What is proved

* `convert_eq` — a conversion prints a text that does not depend on the buffer.
* `vsnprintf_eq` — what is in memory afterwards: the text as far as it fits, and a NUL. The buffer is
  not at address 0, and an `int` counts the text, with two to spare for the loops that leave
  `size` below what is printed.
-/

namespace S3c2440.Stdio

open Console

/-! ### The code -/

/-- An argument. -/
inductive VaArg where
  /-- A word, for the integers and the pointers. -/
  | word (v : BitVec 32)
  /-- A double word, for `long long`. -/
  | dword (v : BitVec 64)
  /-- A string at an address. -/
  | str (p : BitVec 32) (s : List Byte)
  deriving DecidableEq

/-- `va_arg(args, int)` -/
def vaWord : List VaArg → Option (BitVec 32 × List VaArg)
  | .word v :: ap => some (v, ap)
  | _ => none

/-- From `repeat` on: the flags, and the format behind them. -/
def flagsLoop (flags : Flags) : List Byte → Flags × List Byte
  | [] => (flags, [])
  | c :: fmt =>
    if c = ch '-' then flagsLoop { flags with left := true } fmt
    else if c = ch '+' then flagsLoop { flags with plus := true } fmt
    else if c = ch ' ' then flagsLoop { flags with space := true } fmt
    else if c = ch '#' then flagsLoop { flags with special := true } fmt
    else if c = ch '0' then flagsLoop { flags with zeropad := true } fmt
    else (flags, c :: fmt)

def noFlags : Flags := ⟨false, false, false, false, false, false, false⟩

/-- `get field width` -/
def fieldWidth (flags : Flags) (fmt : List Byte) (ap : List VaArg) :
    Option (ℤ × Flags × List Byte × List VaArg) :=
  if isdigit (peek fmt) then
    let (i, fmt) := skipAtoi 0 fmt
    some (i.toInt, flags, fmt, ap)
  else if peek fmt = ch '*' then do
    let (v, ap) ← vaWord ap
    if v.toInt < 0 then some ((-v).toInt, { flags with left := true }, fmt.tail, ap)
    else some (v.toInt, flags, fmt.tail, ap)
  else some (-1, flags, fmt, ap)

/-- The precision behind its point. -/
def precisionValue (fmt : List Byte) (ap : List VaArg) : Option (ℤ × List Byte × List VaArg) :=
  if isdigit (peek fmt) then
    let (i, fmt) := skipAtoi 0 fmt
    some (i.toInt, fmt, ap)
  else if peek fmt = ch '*' then (vaWord ap).map fun (v, ap) => (v.toInt, fmt.tail, ap)
  else some (-1, fmt, ap)

/-- `get the precision` -/
def getPrecision (fmt : List Byte) (ap : List VaArg) : Option (ℤ × List Byte × List VaArg) :=
  if peek fmt = ch '.' then
    (precisionValue fmt.tail ap).map fun (precision, fmt, ap) =>
      (if precision < 0 then 0 else precision, fmt, ap)
  else some (-1, fmt, ap)

/-- `get the conversion qualifier` -/
def getQualifier (fmt : List Byte) : Option Byte × List Byte :=
  let q := peek fmt
  if q = ch 'h' ∨ q = ch 'l' ∨ q = ch 'L' ∨ q = ch 'Z' ∨ q = ch 'z' then
    if q = ch 'l' ∧ peek fmt.tail = ch 'l' then (some (ch 'L'), fmt.tail.tail)
    else (some q, fmt.tail)
  else (none, fmt)

/-- What stands behind a percent sign. -/
structure Conversion where
  flags : Flags
  width : ℤ
  precision : ℤ
  qualifier : Option Byte
  /-- The character, or 0 at the end of the format. -/
  char : Byte

/-- The conversion behind a percent sign, the format behind it, and the other arguments. -/
def getConversion (fmt : List Byte) (ap : List VaArg) :
    Option (Conversion × List Byte × List VaArg) := do
  let (flags, fmt) := flagsLoop noFlags fmt
  let (width, flags, fmt, ap) ← fieldWidth flags fmt ap
  let (precision, fmt, ap) ← getPrecision fmt ap
  let (qualifier, fmt) := getQualifier fmt
  some (⟨flags, width, precision, qualifier, peek fmt⟩, fmt.tail, ap)

def eight : Radix := ⟨8, Nat.le_add_left 2 6, Nat.le_add_left 8 28⟩
def ten : Radix := ⟨10, Nat.le_add_left 2 8, Nat.le_add_left 10 26⟩
def sixteen : Radix := ⟨16, Nat.le_add_left 2 14, Nat.le_add_left 16 20⟩

/-- The base and the flags of an integer conversion; `none` for the other conversions. -/
def integerFormat (flags : Flags) (c : Byte) : Option (Radix × Flags) :=
  if c = ch 'o' then some (eight, flags)
  else if c = ch 'X' then some (sixteen, { flags with large := true })
  else if c = ch 'x' then some (sixteen, flags)
  else if c = ch 'd' ∨ c = ch 'i' then some (ten, { flags with sign := true })
  else if c = ch 'u' then some (ten, flags)
  else none

/-- The argument of an integer conversion. -/
def integerArg (qualifier : Option Byte) (sign : Bool) :
    List VaArg → Option (BitVec 64 × List VaArg)
  | .dword v :: ap => if qualifier = some (ch 'L') then some (v, ap) else none
  | .word v :: ap =>
    if qualifier = some (ch 'L') then none
    else if qualifier = some (ch 'Z') ∨ qualifier = some (ch 'z') then some (v.setWidth 64, ap)
    else if qualifier = some (ch 'h') then
      let h := v.setWidth 16
      some (if sign then h.signExtend 64 else h.setWidth 64, ap)
    else some (if sign then v.signExtend 64 else v.setWidth 64, ap)
  | _ => none

/-- `strnlen` -/
def strnlen : List Byte → ℕ → ℕ
  | [], _ => 0
  | _, 0 => 0
  | c :: s, n + 1 => if c = 0 then 0 else strnlen s n + 1

/-- What `while (--field_width > 0)` leaves of `field_width`. -/
def spentBefore (width : ℤ) : ℤ := min (asInt (width - 1)) 0

/-- The buffer, the arguments, and what `%n` has stored. -/
structure Printer where
  out : Out
  ap : List VaArg
  counts : List (BitVec 32 × BitVec 32)

/-- The `switch` over the conversion character, and the integers after it. -/
def convert (buf lim : BitVec 32) (cv : Conversion) (st : Printer) : Option Printer :=
  if cv.char = ch 'c' then
    match st.ap with
    | .word v :: ap =>
      let (o, width) :=
        if cv.flags.left then (st.out, cv.width)
        else (fill lim (ch ' ') (asInt (cv.width - 1)).toNat st.out, spentBefore cv.width)
      let o := put lim o (v.setWidth 8)
      some { st with out := fill lim (ch ' ') (asInt (width - 1)).toNat o, ap := ap }
    | _ => none
  else if cv.char = ch 's' then
    match st.ap with
    | .str p s :: ap =>
      let s := if p < 1024 then text "<NULL>" else s
      let len := asInt (strnlen s (BitVec.ofInt 32 cv.precision).toNat)
      -- `while (len < field_width--)`
      let (o, width) :=
        if cv.flags.left then (st.out, cv.width)
        else (fill lim (ch ' ') (cv.width - len).toNat st.out, asInt (min cv.width len - 1))
      let o := puts lim (s.take len.toNat) o
      some { st with out := fill lim (ch ' ') (width - len).toNat o, ap := ap }
    | _ => none
  else if cv.char = ch 'p' then do
    let (v, ap) ← vaWord st.ap
    let (width, flags) :=
      if cv.width = -1 then (8, { cv.flags with zeropad := true }) else (cv.width, cv.flags)
    let o ← number lim st.out (v.setWidth 64) sixteen.val width cv.precision flags
    some { st with out := o, ap := ap }
  else if cv.char = ch 'n' then do
    let (p, ap) ← vaWord st.ap
    some { st with ap := ap, counts := st.counts ++ [(p, st.out.str - buf)] }
  else if cv.char = ch '%' then some { st with out := put lim st.out (ch '%') }
  else
    match integerFormat cv.flags cv.char with
    | some (base, flags) => do
      let (num, ap) ← integerArg cv.qualifier flags.sign st.ap
      let o ← number lim st.out num base.val cv.width cv.precision flags
      some { st with out := o, ap := ap }
    | none =>
      let o := put lim st.out (ch '%')
      some { st with out := if cv.char ≠ 0 then put lim o cv.char else o }

/-! ### The loop over the format -/

theorem flagsLoop_length (flags : Flags) (fmt : List Byte) :
    (flagsLoop flags fmt).2.length ≤ fmt.length := by
  induction fmt generalizing flags with
  | nil => exact Nat.le_refl 0
  | cons c fmt ih =>
    unfold flagsLoop
    split_ifs
    iterate 5 exact (ih _).trans (Nat.le_succ _)
    exact Nat.le_refl _

theorem skipAtoi_length (i : BitVec 32) (s : List Byte) :
    (skipAtoi i s).2.length ≤ s.length := by
  induction s generalizing i with
  | nil => exact Nat.le_refl 0
  | cons c s ih =>
    unfold skipAtoi
    split_ifs
    · exact (ih _).trans (Nat.le_succ _)
    · exact Nat.le_refl _

theorem fieldWidth_length {flags flags' : Flags} {fmt fmt' : List Byte} {ap ap' : List VaArg}
    {width : ℤ} (h : fieldWidth flags fmt ap = some (width, flags', fmt', ap')) :
    fmt'.length ≤ fmt.length := by
  have htail := (List.tail_sublist fmt).length_le
  unfold fieldWidth at h
  split_ifs at h
  · cases h
    exact skipAtoi_length 0 fmt
  · obtain ⟨⟨v, ap⟩, -, h⟩ := Option.bind_eq_some_iff.mp h
    dsimp only at h
    split_ifs at h <;> cases h <;> exact htail
  · cases h
    exact Nat.le_refl _

theorem getPrecision_length {fmt fmt' : List Byte} {ap ap' : List VaArg} {precision : ℤ}
    (h : getPrecision fmt ap = some (precision, fmt', ap')) : fmt'.length ≤ fmt.length := by
  have htail := (List.tail_sublist fmt).length_le
  have htail' := (List.tail_sublist fmt.tail).length_le
  unfold getPrecision at h
  split_ifs at h
  · obtain ⟨⟨v, fmt, ap⟩, h₁, h₂⟩ := Option.map_eq_some_iff.mp h
    cases h₂
    unfold precisionValue at h₁
    split_ifs at h₁
    · cases h₁
      exact (skipAtoi_length 0 _).trans htail
    · obtain ⟨⟨v, ap⟩, -, h⟩ := Option.map_eq_some_iff.mp h₁
      cases h
      exact htail'.trans htail
    · cases h₁
      exact htail
  · cases h
    exact Nat.le_refl _

theorem getQualifier_length (fmt : List Byte) : (getQualifier fmt).2.length ≤ fmt.length := by
  have htail := (List.tail_sublist fmt).length_le
  have htail' := (List.tail_sublist fmt.tail).length_le
  unfold getQualifier
  dsimp only
  split_ifs
  · exact htail'.trans htail
  · exact htail
  · exact Nat.le_refl _

/-- The format gets no longer. -/
theorem getConversion_length {fmt fmt' : List Byte} {ap ap' : List VaArg} {cv : Conversion}
    (h : getConversion fmt ap = some (cv, fmt', ap')) : fmt'.length ≤ fmt.length := by
  obtain ⟨⟨width, flags, fmt₁, ap₁⟩, h₁, h⟩ := Option.bind_eq_some_iff.mp h
  obtain ⟨⟨precision, fmt₂, ap₂⟩, h₂, h⟩ := Option.bind_eq_some_iff.mp h
  cases h
  calc (getQualifier fmt₂).2.tail.length
      ≤ (getQualifier fmt₂).2.length := (List.tail_sublist _).length_le
    _ ≤ fmt₂.length := getQualifier_length fmt₂
    _ ≤ fmt₁.length := getPrecision_length h₂
    _ ≤ (flagsLoop noFlags fmt).2.length := fieldWidth_length h₁
    _ ≤ fmt.length := flagsLoop_length noFlags fmt

/-- The width that is found is an `int`. -/
theorem getConversion_width {fmt fmt' : List Byte} {ap ap' : List VaArg} {cv : Conversion}
    (h : getConversion fmt ap = some (cv, fmt', ap')) : cv.width < 2 ^ 31 := by
  obtain ⟨⟨width, flags, fmt₁, ap₁⟩, h₁, h⟩ := Option.bind_eq_some_iff.mp h
  obtain ⟨⟨precision, fmt₂, ap₂⟩, -, h⟩ := Option.bind_eq_some_iff.mp h
  cases h
  change width < 2 ^ 31
  unfold fieldWidth at h₁
  split_ifs at h₁
  · cases h₁
    exact BitVec.toInt_lt
  · obtain ⟨⟨v, ap⟩, -, h⟩ := Option.bind_eq_some_iff.mp h₁
    dsimp only at h
    split_ifs at h <;> cases h <;> exact BitVec.toInt_lt
  · cases h₁
    decide

/-- The `for` loop over the format. -/
def vsnprintfLoop (buf lim : BitVec 32) (fmt : List Byte) (st : Printer) : Option Printer :=
  match fmt with
  | [] => some st
  | c :: fmt =>
    if c ≠ ch '%' then vsnprintfLoop buf lim fmt { st with out := put lim st.out c }
    else
      match h : getConversion fmt st.ap with
      | none => none
      | some (cv, fmt', ap) =>
        have := getConversion_length h
        match convert buf lim cv { st with ap := ap } with
        | none => none
        | some st => vsnprintfLoop buf lim fmt' st
  termination_by fmt.length

/-- What `vsnprintf` leaves: the memory, its result, and what `%n` has stored. -/
structure Printed where
  mem : BitVec 32 → Byte
  result : BitVec 32
  counts : List (BitVec 32 × BitVec 32)

/-- `vsnprintf`. -/
def vsnprintf (mem : BitVec 32 → Byte) (buf size : BitVec 32) (fmt : List Byte) (ap : List VaArg) :
    Option Printed :=
  if size.toInt < 0 then some ⟨mem, 0, []⟩
  else do
    let lim := buf + size - 1
    let (lim, size) :=
      if lim < buf - 1 then (BitVec.allOnes 32, BitVec.allOnes 32 - buf + 1) else (lim, size)
    let st ← vsnprintfLoop buf lim fmt ⟨⟨mem, buf⟩, ap, []⟩
    let str := st.out.str
    let mem :=
      if str ≤ lim then Function.update st.out.mem str 0
      else if 0 < size then Function.update st.out.mem lim 0
      else st.out.mem
    some ⟨mem, str - buf, st.counts⟩

/-- `vscnprintf`; the comparison is one of unsigned words. -/
def vscnprintf (mem : BitVec 32 → Byte) (buf size : BitVec 32) (fmt : List Byte)
    (ap : List VaArg) : Option Printed :=
  (vsnprintf mem buf size fmt ap).map fun r =>
    { r with result := if size ≤ r.result then size - 1 else r.result }

/-- `vsprintf`, which assumes room for `INT_MAX` bytes. -/
def vsprintf (mem : BitVec 32 → Byte) (buf : BitVec 32) (fmt : List Byte) (ap : List VaArg) :
    Option Printed :=
  vsnprintf mem buf (BitVec.allOnes 32 >>> 1) fmt ap

/-! ### What is printed -/

/-- What a conversion prints, whatever the buffer: its text, the arguments it leaves, and what `%n`
stores after `done` characters. -/
structure Text where
  chars : List Byte
  ap : List VaArg
  counts : List (BitVec 32 × BitVec 32)

/-- A text in a field. -/
def inField (left : Bool) (width : ℤ) (s : List Byte) : List Byte :=
  let pad := List.replicate (width - s.length).toNat (ch ' ')
  if left then s ++ pad else pad ++ s

/-- The text of a conversion. There is none for a width that has gone round. -/
def conversionText (done : BitVec 32) (cv : Conversion) (ap : List VaArg) : Option Text :=
  if cv.width < -1 then none
  else if cv.char = ch 'c' then
    (vaWord ap).map fun (v, ap) => ⟨inField cv.flags.left cv.width [v.setWidth 8], ap, []⟩
  else if cv.char = ch 's' then
    match ap with
    | .str p s :: ap =>
      let s := if p < 1024 then text "<NULL>" else s
      let s := s.take (strnlen s (BitVec.ofInt 32 cv.precision).toNat)
      some ⟨inField cv.flags.left cv.width s, ap, []⟩
    | _ => none
  else if cv.char = ch 'p' then
    (vaWord ap).map fun (v, ap) =>
      let width := if cv.width = -1 then 8 else cv.width
      let flags := if cv.width = -1 then { cv.flags with zeropad := true } else cv.flags
      ⟨numberText (v.setWidth 64) sixteen width cv.precision flags, ap, []⟩
  else if cv.char = ch 'n' then (vaWord ap).map fun (p, ap) => ⟨[], ap, [(p, done)]⟩
  else if cv.char = ch '%' then some ⟨[ch '%'], ap, []⟩
  else
    match integerFormat cv.flags cv.char with
    | some (base, flags) =>
      (integerArg cv.qualifier flags.sign ap).map fun (num, ap) =>
        ⟨numberText num base cv.width cv.precision flags, ap, []⟩
    | none => some ⟨if cv.char ≠ 0 then [ch '%', cv.char] else [ch '%'], ap, []⟩

/-- The text of a format from a place on where `t` has been printed. -/
def formatText (fmt : List Byte) (t : Text) : Option Text :=
  match fmt with
  | [] => some t
  | c :: fmt =>
    if c ≠ ch '%' then formatText fmt { t with chars := t.chars ++ [c] }
    else
      match h : getConversion fmt t.ap with
      | none => none
      | some (cv, fmt', ap) =>
        have := getConversion_length h
        match conversionText (BitVec.ofNat 32 t.chars.length) cv ap with
        | none => none
        | some u => formatText fmt' ⟨t.chars ++ u.chars, u.ap, t.counts ++ u.counts⟩
  termination_by fmt.length

section Proofs

variable (lim : BitVec 32) (o : Out)

theorem strnlen_le (s : List Byte) (n : ℕ) : strnlen s n ≤ s.length := by
  induction s generalizing n with
  | nil => simp [strnlen]
  | cons c s ih =>
    cases n with
    | zero => exact Nat.zero_le _
    | succ n =>
      rw [strnlen]
      split
      · exact Nat.zero_le _
      · exact Nat.succ_le_succ (ih n)

/-- `%c`: the loops that pad it. -/
theorem char_spec (left : Bool) {width : ℤ} (c : Byte) (hlow : -1 ≤ width)
    (hhigh : width < 2 ^ 31) :
    (let (o, width) :=
      if left then (o, width)
      else (fill lim (ch ' ') (asInt (width - 1)).toNat o, spentBefore width)
    fill lim (ch ' ') (asInt (width - 1)).toNat (put lim o c)) =
      puts lim (inField left width [c]) o := by
  have hless : asInt (width - 1) = width - 1 := asInt_eq (by omega) (by omega)
  have hspent : (asInt (spentBefore width - 1)).toNat = 0 := by
    rw [spentBefore, hless, asInt_eq (by omega) (by omega)]
    omega
  cases left
  · simp only [Bool.false_eq_true, if_false, hless, hspent, fill_eq, put_eq, ← puts_append, inField,
      List.length_singleton, Nat.cast_one, List.replicate_zero, List.append_nil]
  · simp only [if_true, hless, fill_eq, put_eq, ← puts_append, inField, List.length_singleton,
      Nat.cast_one]

/-- `%s`: the loops that pad it. -/
theorem string_spec (left : Bool) {width : ℤ} (s : List Byte) {len : ℕ} (hlen : len ≤ s.length)
    (hint : len < 2 ^ 31) (hlow : -1 ≤ width) (hhigh : width < 2 ^ 31) :
    (let (o, width) :=
      if left then (o, width)
      else (fill lim (ch ' ') (width - asInt len).toNat o, asInt (min width (asInt len) - 1))
    fill lim (ch ' ') (width - asInt len).toNat (puts lim (s.take (asInt len).toNat) o)) =
      puts lim (inField left width (s.take len)) o := by
  have hcount : asInt len = len := asInt_eq (by omega) (by omega)
  have hspent : (asInt (min width len - 1) - (len : ℤ)).toNat = 0 := by
    rw [asInt_eq (by omega) (by omega)]
    omega
  have htake : (s.take len).length = len := by rw [List.length_take, Nat.min_eq_left hlen]
  simp only [hcount, Int.toNat_natCast]
  cases left
  · simp only [Bool.false_eq_true, if_false, hspent, fill_eq, ← puts_append, inField, htake,
      List.replicate_zero, List.append_nil]
  · simp only [if_true, fill_eq, ← puts_append, inField, htake]

/-- A field is as long as what is in it. -/
theorem le_length_inField (left : Bool) (width : ℤ) (s : List Byte) :
    s.length ≤ (inField left width s).length := by
  unfold inField
  dsimp only
  split <;> rw [List.length_append] <;> omega

/-- A conversion prints its text. -/
theorem convert_eq (buf : BitVec 32) {cv : Conversion} {st : Printer} {t : Text}
    (h : conversionText (st.out.str - buf) cv st.ap = some t) (hwidth : cv.width < 2 ^ 31)
    (hlen : t.chars.length + 2 < 2 ^ 31) :
    convert buf lim cv st = some ⟨puts lim t.chars st.out, t.ap, st.counts ++ t.counts⟩ := by
  obtain ⟨o, ap, counts⟩ := st
  unfold conversionText at h
  unfold convert
  by_cases hlow : cv.width < -1
  · rw [if_pos hlow] at h
    cases h
  rw [if_neg hlow] at h
  replace hlow : -1 ≤ cv.width := not_lt.mp hlow
  by_cases hc : cv.char = ch 'c'
  · rw [if_pos hc] at h ⊢
    obtain ⟨⟨v, ap'⟩, harg, rfl⟩ := Option.map_eq_some_iff.mp h
    rcases ap with _ | ⟨v | v | ⟨p, s⟩, ap⟩ <;> cases harg
    simp only [List.append_nil, ← char_spec lim o cv.flags.left _ hlow hwidth]
  rw [if_neg hc] at h ⊢
  by_cases hs : cv.char = ch 's'
  · rw [if_pos hs] at h ⊢
    rcases ap with _ | ⟨v | v | ⟨p, s⟩, ap⟩ <;> cases h
    dsimp only at hlen ⊢
    generalize (if p < 1024 then Console.text "<NULL>" else s) = s at hlen ⊢
    have hcount := strnlen_le s (BitVec.ofInt 32 cv.precision).toNat
    have hle := le_length_inField cv.flags.left cv.width
      (s.take (strnlen s (BitVec.ofInt 32 cv.precision).toNat))
    rw [List.length_take, Nat.min_eq_left hcount] at hle
    simp only [List.append_nil,
      ← string_spec lim o cv.flags.left _ hcount (by omega) hlow hwidth]
  rw [if_neg hs] at h ⊢
  by_cases hp : cv.char = ch 'p'
  · rw [if_pos hp] at h ⊢
    obtain ⟨⟨v, ap'⟩, harg, rfl⟩ := Option.map_eq_some_iff.mp h
    dsimp only at harg hlen ⊢
    rw [harg]
    by_cases hnone : cv.width = -1
    · simp only [hnone, if_true] at hlen ⊢
      simp [number_eq lim o _ sixteen (by omega) (by omega) hlen]
    · simp only [hnone, if_false] at hlen ⊢
      simp [number_eq lim o _ sixteen hlow hwidth hlen]
  rw [if_neg hp] at h ⊢
  by_cases hn : cv.char = ch 'n'
  · rw [if_pos hn] at h ⊢
    obtain ⟨⟨v, ap'⟩, harg, rfl⟩ := Option.map_eq_some_iff.mp h
    dsimp only at harg ⊢
    rw [harg]
    rfl
  rw [if_neg hn] at h ⊢
  by_cases hpercent : cv.char = ch '%'
  · rw [if_pos hpercent] at h ⊢
    cases h
    simp only [List.append_nil, put_eq]
  rw [if_neg hpercent] at h ⊢
  cases hformat : integerFormat cv.flags cv.char with
  | some f =>
    rw [hformat] at h
    obtain ⟨⟨num, ap'⟩, harg, rfl⟩ := Option.map_eq_some_iff.mp h
    dsimp only at harg hlen ⊢
    rw [harg]
    simp [number_eq lim o num f.1 hlow hwidth hlen]
  | none =>
    rw [hformat] at h
    cases h
    by_cases hzero : cv.char = 0#8 <;> simp [hzero, puts]

theorem puts_str (s : List Byte) : (puts lim s o).str = o.str + BitVec.ofNat 32 s.length := by
  induction s generalizing o with
  | nil => exact (BitVec.add_zero _).symm
  | cons c s ih =>
    rw [puts, ih, put, List.length_cons, BitVec.ofNat_add, BitVec.add_assoc,
      BitVec.add_comm (BitVec.ofNat 32 s.length)]
    rfl

/-- The printer after the text `t`. -/
def Text.printer (t : Text) (lim : BitVec 32) (o : Out) : Printer :=
  ⟨puts lim t.chars o, t.ap, t.counts⟩

theorem Text.convert_printer (t : Text) {u : Text} {cv : Conversion} {ap : List VaArg}
    (h : conversionText (BitVec.ofNat 32 t.chars.length) cv ap = some u) (hwidth : cv.width < 2 ^ 31)
    (hlen : u.chars.length + 2 < 2 ^ 31) :
    convert o.str lim cv { t.printer lim o with ap := ap } =
      some (Text.printer ⟨t.chars ++ u.chars, u.ap, t.counts ++ u.counts⟩ lim o) := by
  have hdone : (puts lim t.chars o).str - o.str = BitVec.ofNat 32 t.chars.length := by
    rw [puts_str, BitVec.add_comm, BitVec.add_sub_cancel]
  rw [← hdone] at h
  rw [convert_eq lim o.str h hwidth hlen]
  simp only [Text.printer, puts_append]

theorem formatText_char {c : Byte} (hc : c ≠ ch '%') (fmt : List Byte) (t : Text) :
    formatText (c :: fmt) t = formatText fmt { t with chars := t.chars ++ [c] } := by
  rw [formatText, if_pos hc]

theorem formatText_percent (fmt : List Byte) (t : Text) :
    formatText (ch '%' :: fmt) t = (getConversion fmt t.ap).bind fun r =>
      (conversionText (BitVec.ofNat 32 t.chars.length) r.1 r.2.2).bind fun u =>
        formatText r.2.1 ⟨t.chars ++ u.chars, u.ap, t.counts ++ u.counts⟩ := by
  rw [formatText, if_neg (not_not.mpr rfl)]
  split
  · rename_i h
    rw [h]
    rfl
  · rename_i cv fmt' ap h
    dsimp only
    rw [h, Option.bind_some]
    cases conversionText (BitVec.ofNat 32 t.chars.length) cv ap <;> rfl

theorem vsnprintfLoop_percent (buf : BitVec 32) (fmt : List Byte) (st : Printer) :
    vsnprintfLoop buf lim (ch '%' :: fmt) st = (getConversion fmt st.ap).bind fun r =>
      (convert buf lim r.1 { st with ap := r.2.2 }).bind fun st =>
        vsnprintfLoop buf lim r.2.1 st := by
  rw [vsnprintfLoop, if_neg (not_not.mpr rfl)]
  split
  · rename_i h
    rw [h]
    rfl
  · rename_i cv fmt' ap h
    dsimp only
    rw [h, Option.bind_some]
    cases convert buf lim cv { st with ap := ap } <;> rfl

/-- The text of a format begins with what has been printed. -/
theorem formatText_length {fmt : List Byte} {t u : Text} (h : formatText fmt t = some u) :
    t.chars.length ≤ u.chars.length := by
  induction fmt, t using formatText.induct with
  | case1 t =>
    rw [formatText] at h
    cases h
    exact Nat.le_refl _
  | case2 t c fmt hc ih =>
    rw [formatText_char hc] at h
    have hle := ih h
    rw [List.length_append] at hle
    omega
  | case3 t c fmt hc hnone =>
    obtain rfl := not_not.mp hc
    rw [formatText_percent, hnone] at h
    cases h
  | case4 t c fmt hc cv fmt' ap hget _ hnone =>
    obtain rfl := not_not.mp hc
    rw [formatText_percent, hget, Option.bind_some, hnone] at h
    cases h
  | case5 t c fmt hc cv fmt' ap hget _ u' hsome ih =>
    obtain rfl := not_not.mp hc
    rw [formatText_percent, hget, Option.bind_some, hsome, Option.bind_some] at h
    have hle := ih h
    rw [List.length_append] at hle
    omega

/-- The loop prints the text of the format. -/
theorem vsnprintfLoop_eq {fmt : List Byte} {t u : Text} (h : formatText fmt t = some u)
    (hlen : u.chars.length + 2 < 2 ^ 31) :
    vsnprintfLoop o.str lim fmt (t.printer lim o) = some (u.printer lim o) := by
  induction fmt, t using formatText.induct with
  | case1 t =>
    rw [formatText] at h
    cases h
    rw [vsnprintfLoop]
  | case2 t c fmt hc ih =>
    rw [formatText_char hc] at h
    rw [vsnprintfLoop, if_pos hc, ← ih h]
    congr 1
    simp only [Text.printer, puts_append]
    rfl
  | case3 t c fmt hc hnone =>
    obtain rfl := not_not.mp hc
    rw [formatText_percent, hnone] at h
    cases h
  | case4 t c fmt hc cv fmt' ap hget _ hnone =>
    obtain rfl := not_not.mp hc
    rw [formatText_percent, hget, Option.bind_some, hnone] at h
    cases h
  | case5 t c fmt hc cv fmt' ap hget _ u' hsome ih =>
    obtain rfl := not_not.mp hc
    rw [formatText_percent, hget, Option.bind_some, hsome, Option.bind_some] at h
    have hle := formatText_length h
    rw [List.length_append] at hle
    have hconv := t.convert_printer lim o hsome (getConversion_width hget) (by omega)
    rw [vsnprintfLoop_percent, show (t.printer lim o).ap = t.ap from rfl, hget, Option.bind_some,
      hconv, Option.bind_some, ← ih h]

/-! ### The memory -/

open Theory.Memory

/-- What is written of a text is what is not behind `end`. -/
theorem puts_mem (s : List Byte) (h : o.str.toNat + s.length < 2 ^ 32) :
    (puts lim s o).mem = store o.mem o.str (s.take (lim.toNat + 1 - o.str.toNat)) := by
  induction s generalizing o with
  | nil => rw [List.take_nil]; rfl
  | cons c s ih =>
    rw [List.length_cons] at h
    have hnext : (o.str + 1).toNat = o.str.toNat + 1 := by
      rw [BitVec.toNat_add]
      exact Nat.mod_eq_of_lt (by change o.str.toNat + 1 < 2 ^ 32; omega)
    rw [puts, ih _ (by change (o.str + 1).toNat + _ < _; omega)]
    change store (if o.str ≤ lim then Function.update o.mem o.str c else o.mem) (o.str + 1)
      (s.take (lim.toNat + 1 - (o.str + 1).toNat)) = _
    rw [hnext]
    by_cases hle : o.str ≤ lim
    · have hle' : o.str.toNat ≤ lim.toNat := hle
      obtain ⟨k, hk⟩ : ∃ k, lim.toNat + 1 - o.str.toNat = k + 1 :=
        ⟨lim.toNat - o.str.toNat, by omega⟩
      rw [if_pos hle, hk, show lim.toNat + 1 - (o.str.toNat + 1) = k by omega, List.take_succ_cons,
        store]
    · have hlt : lim.toNat < o.str.toNat := not_le.mp hle
      rw [if_neg hle, show lim.toNat + 1 - o.str.toNat = 0 by omega,
        show lim.toNat + 1 - (o.str.toNat + 1) = 0 by omega, List.take_zero, List.take_zero]
      rfl

/-- What is in memory after a text has been printed into a buffer of `size` bytes. -/
def printedInto (mem : BitVec 32 → Byte) (buf size : BitVec 32) (s : List Byte) :
    BitVec 32 → Byte :=
  if size = 0 then mem else store mem buf (s.take (size.toNat - 1) ++ [0])

/-- The end of `vsnprintf`: the text has been written as far as `end`. -/
theorem terminate_eq (mem : BitVec 32 → Byte) {buf size lim : BitVec 32} (s : List Byte)
    (hroom : buf.toNat + s.length < 2 ^ 32) (hsize : 0 < size.toNat)
    (hlim : lim.toNat = min (buf.toNat + size.toNat) (2 ^ 32) - 1) :
    let o := puts lim s ⟨mem, buf⟩
    (if o.str ≤ lim then Function.update o.mem o.str 0 else Function.update o.mem lim 0) =
      store mem buf (s.take (size.toNat - 1) ++ [0]) := by
  intro o
  have hstr : o.str = buf + BitVec.ofNat 32 s.length := puts_str lim ⟨mem, buf⟩ s
  have hnat : o.str.toNat = buf.toNat + s.length := by
    rw [hstr, BitVec.toNat_add, BitVec.toNat_ofNat, Nat.add_mod_mod, Nat.mod_eq_of_lt hroom]
  have hmem : o.mem = store mem buf (s.take (lim.toNat + 1 - buf.toNat)) :=
    puts_mem lim ⟨mem, buf⟩ s hroom
  by_cases hle : o.str ≤ lim
  · have hle' : o.str.toNat ≤ lim.toNat := hle
    rw [if_pos hle, hmem, List.take_of_length_le (by omega), List.take_of_length_le (by omega),
      store_append, hstr]
    rfl
  · have hlt : lim.toNat < o.str.toNat := not_le.mp hle
    have hlimit : lim = buf + BitVec.ofNat 32 (size.toNat - 1) := by
      apply BitVec.eq_of_toNat_eq
      rw [BitVec.toNat_add, BitVec.toNat_ofNat, Nat.add_mod_mod, Nat.mod_eq_of_lt (by omega)]
      omega
    have hlast : size.toNat - 1 < s.length := by omega
    rw [if_neg hle, hmem, show lim.toNat + 1 - buf.toNat = size.toNat - 1 + 1 by omega,
      List.take_succ_eq_append_getElem hlast, store_append, store_append, List.length_take,
      Nat.min_eq_left (by omega), ← hlimit]
    exact Function.update_idem _ _ _

/-- `end`, and the size again where the buffer would go round the end of the address space. -/
theorem limit_spec {buf size : BitVec 32} (hbuf : buf ≠ 0) (hsize : 0 ≤ size.toInt) :
    let lim := buf + size - 1
    let r := if lim < buf - 1 then (BitVec.allOnes 32, BitVec.allOnes 32 - buf + 1) else (lim, size)
    r.1.toNat = min (buf.toNat + size.toNat) (2 ^ 32) - 1 ∧ (0 < r.2 ↔ 0 < size.toNat) := by
  have hpos : 0 < buf.toNat := Nat.pos_of_ne_zero fun h => hbuf (BitVec.eq_of_toNat_eq h)
  have hlt := buf.isLt
  have hsmall : size.toNat < 2 ^ 31 := by
    have hint := BitVec.toInt_eq_toNat_cond size
    split at hint <;> omega
  have hbefore : (buf - 1).toNat = buf.toNat - 1 := by
    change (buf - 1#32).toNat = _
    rw [BitVec.toNat_sub_of_le (show 1#32 ≤ buf from hpos)]
    rfl
  intro lim r
  have hlim : lim.toNat = (buf.toNat - 1 + size.toNat) % 2 ^ 32 := by
    change (buf + size - 1#32).toNat = _
    rw [BitVec.toNat_sub, BitVec.toNat_add, show (1#32).toNat = 1 from rfl]
    omega
  have hcond : lim < buf - 1 ↔ 2 ^ 32 ≤ buf.toNat - 1 + size.toNat := by
    rw [BitVec.lt_def, hlim, hbefore]
    omega
  by_cases hwrap : 2 ^ 32 ≤ buf.toNat - 1 + size.toNat
  · have hr : r = (BitVec.allOnes 32, BitVec.allOnes 32 - buf + 1) := if_pos (hcond.mpr hwrap)
    rw [hr]
    refine ⟨?_, ⟨fun _ => by omega, fun _ => ?_⟩⟩
    · rw [BitVec.toNat_allOnes]
      omega
    · have hnat : (BitVec.allOnes 32 - buf + 1#32).toNat = 2 ^ 32 - buf.toNat := by
        rw [BitVec.toNat_add, BitVec.toNat_sub, BitVec.toNat_allOnes, show (1#32).toNat = 1 from rfl]
        omega
      change (0#32).toNat < (BitVec.allOnes 32 - buf + 1#32).toNat
      rw [hnat]
      change 0 < 2 ^ 32 - buf.toNat
      omega
  · have hr : r = (lim, size) := if_neg fun h => hwrap (hcond.mp h)
    rw [hr]
    refine ⟨?_, Iff.rfl⟩
    change lim.toNat = _
    rw [hlim]
    omega

/-- `vsnprintf` prints the text of its format as far as it fits, with a NUL behind it, and changes
nothing else, whatever the format says; its result is the length of the whole text. -/
theorem vsnprintf_eq (mem : BitVec 32 → Byte) {buf size : BitVec 32} {fmt : List Byte}
    {ap : List VaArg} {t : Text} (hbuf : buf ≠ 0) (hsize : 0 ≤ size.toInt)
    (ht : formatText fmt ⟨[], ap, []⟩ = some t) (hlen : t.chars.length + 2 < 2 ^ 31)
    (hroom : buf.toNat + t.chars.length < 2 ^ 32) :
    vsnprintf mem buf size fmt ap =
      some ⟨printedInto mem buf size t.chars, BitVec.ofNat 32 t.chars.length, t.counts⟩ := by
  obtain ⟨hlim, hpos⟩ := limit_spec hbuf hsize
  rw [vsnprintf, if_neg (not_lt.mpr hsize)]
  dsimp only at hlim hpos ⊢
  generalize (if buf + size - 1 < buf - 1 then (BitVec.allOnes 32, BitVec.allOnes 32 - buf + 1)
    else (buf + size - 1, size)) = r at hlim hpos
  obtain ⟨lim, size'⟩ := r
  dsimp only at hlim hpos ⊢
  have hloop := vsnprintfLoop_eq lim ⟨mem, buf⟩ ht hlen
  rw [show (⟨⟨mem, buf⟩, ap, []⟩ : Printer) = Text.printer ⟨[], ap, []⟩ lim ⟨mem, buf⟩ from rfl, hloop]
  simp only [Text.printer, Option.bind_eq_bind, Option.bind_some,
    Option.some.injEq, Printed.mk.injEq, and_true]
  refine ⟨?_, by rw [puts_str, BitVec.add_comm, BitVec.add_sub_cancel]⟩
  rw [printedInto]
  by_cases hzero : size = 0
  · -- `end` is before the buffer, and nothing is written.
    have hbufpos : 0 < buf.toNat := Nat.pos_of_ne_zero fun h => hbuf (BitVec.eq_of_toNat_eq h)
    have hz : size.toNat = 0 := by rw [hzero]; rfl
    have hbefore : lim.toNat + 1 - buf.toNat = 0 := by omega
    have hstr : ¬ (puts lim t.chars ⟨mem, buf⟩).str ≤ lim := by
      rw [puts_str, BitVec.le_def, BitVec.toNat_add, BitVec.toNat_ofNat, Nat.add_mod_mod,
        Nat.mod_eq_of_lt hroom]
      omega
    rw [if_pos hzero, if_neg hstr, if_neg fun h => by have := hpos.mp h; omega,
      puts_mem lim ⟨mem, buf⟩ t.chars hroom, hbefore, List.take_zero]
    rfl
  · have hsizepos : 0 < size.toNat :=
      Nat.pos_of_ne_zero fun h => hzero (BitVec.eq_of_toNat_eq h)
    rw [if_neg hzero, if_pos (hpos.mpr hsizepos)]
    exact terminate_eq mem t.chars hroom hsizepos hlim

/-- Three characters into a buffer for three: the last one gives way to the NUL. -/
theorem vsnprintf_eq_three :
    vsnprintf (fun _ => 0xff) 0x30000000 3 (text "a%c!") [.word 0x62] =
      some ⟨printedInto (fun _ => 0xff) 0x30000000 3 (text "ab!"), 3, []⟩ := by
  have hlast : formatText [ch '!'] ⟨text "ab", [], []⟩ = some ⟨text "ab!", [], []⟩ := by
    rw [formatText_char (by decide), formatText]
    rfl
  have ht : formatText (text "a%c!") ⟨[], [.word 0x62], []⟩ = some ⟨text "ab!", [], []⟩ :=
    (formatText_char (by decide) _ _).trans ((formatText_percent _ _).trans hlast)
  exact vsnprintf_eq _ (by decide) (by decide) ht (by decide) (by decide)

/-- `vscnprintf` returns how many characters have been written, if the size is not zero. -/
theorem vscnprintf_eq (mem : BitVec 32 → Byte) {buf size : BitVec 32} {fmt : List Byte}
    {ap : List VaArg} {t : Text} (hbuf : buf ≠ 0) (hsize : 0 < size.toInt)
    (ht : formatText fmt ⟨[], ap, []⟩ = some t) (hlen : t.chars.length + 2 < 2 ^ 31)
    (hroom : buf.toNat + t.chars.length < 2 ^ 32) :
    vscnprintf mem buf size fmt ap =
      some ⟨printedInto mem buf size t.chars,
        BitVec.ofNat 32 (min t.chars.length (size.toNat - 1)), t.counts⟩ := by
  rw [vscnprintf, vsnprintf_eq mem hbuf hsize.le ht hlen hroom]
  simp only [Option.map_some, Option.some.injEq, Printed.mk.injEq, true_and, and_true]
  have hpos : 1 ≤ size.toNat := by
    by_contra h
    obtain rfl : size = 0 := BitVec.eq_of_toNat_eq (by change size.toNat = 0; omega)
    exact absurd hsize (by decide)
  have hlt := size.isLt
  have hle : size ≤ BitVec.ofNat 32 t.chars.length ↔ size.toNat ≤ t.chars.length := by
    rw [BitVec.le_def, BitVec.toNat_ofNat, Nat.mod_eq_of_lt (by omega)]
  by_cases h : size.toNat ≤ t.chars.length
  · rw [if_pos (hle.mpr h), Nat.min_eq_right (by omega)]
    apply BitVec.eq_of_toNat_eq
    rw [BitVec.toNat_ofNat, Nat.mod_eq_of_lt (by omega)]
    change (size - 1#32).toNat = _
    rw [BitVec.toNat_sub_of_le (show 1#32 ≤ size from hpos)]
    rfl
  · rw [if_neg fun h' => h (hle.mp h'), Nat.min_eq_left (by omega)]

end Proofs

end S3c2440.Stdio
