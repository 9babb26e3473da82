import S3c2440.Stdio.Vsnprintf

/-!
# Formatted input

`vsscanf` of `lib/vsprintf.c`. White space in the format skips any white space of the input,
a conversion stores through the next pointer, and anything else has to be there as
it is. The loop ends with the format or with the input, at a character that is not what the
format says, at a number that does not begin with a digit of its base, and at an unknown conversion.

The pointers that the arguments are do not appear: the result lists what is stored through
the first, the second and so on.

## What is proved

* `vsscanfLoop_go`, `vsscanfLoop_stop` — one turn of the loop.
-/

namespace S3c2440.Stdio

open Console

/-- What is stored through a pointer. -/
inductive Stored where
  /-- `%c`: characters without a NUL. -/
  | chars (s : List Byte)
  /-- `%s`: characters, and a NUL behind them. -/
  | str (s : List Byte)
  /-- `%n`: how much has been read. -/
  | count (n : BitVec 32)
  | byte (v : BitVec 8)
  | half (v : BitVec 16)
  | word (v : BitVec 32)
  | dword (v : BitVec 64)
  deriving DecidableEq

/-- The rest of the input, the result so far, and what has been stored. -/
structure Scan where
  str : List Byte
  num : ℕ
  stored : List Stored

/-- The loop goes on with the rest of the format, or it is over. -/
inductive Next where
  | go (fmt : List Byte) (st : Scan)
  | stop (st : Scan)

/-- `get field width` -/
def scanWidth (fmt : List Byte) : ℤ × List Byte :=
  if isdigit (peek fmt) then
    let (i, fmt) := skipAtoi 0 fmt
    (i.toInt, fmt)
  else (-1, fmt)

/-- `get conversion qualifier` -/
def scanQualifier (fmt : List Byte) : Option Byte × List Byte :=
  let q := peek fmt
  if q = ch 'h' ∨ q = ch 'l' ∨ q = ch 'L' ∨ q = ch 'Z' ∨ q = ch 'z' then
    let fmt := fmt.tail
    if q = peek fmt then
      if q = ch 'h' then (some (ch 'H'), fmt.tail)
      else if q = ch 'l' then (some (ch 'L'), fmt.tail)
      else (some q, fmt)
    else (some q, fmt)
  else (none, fmt)

/-- The base of an integer conversion, and whether it is signed; `none` for the others. -/
def scanFormat (c : Byte) : Option (ℕ × Bool) :=
  if c = ch 'o' then some (8, false)
  else if c = ch 'x' ∨ c = ch 'X' then some (16, false)
  else if c = ch 'i' then some (0, true)
  else if c = ch 'd' then some (10, true)
  else if c = ch 'u' then some (10, false)
  else none

/-- `(base == 16 && !isxdigit(digit)) || …` -/
def badDigit (base : ℕ) (digit : Byte) : Bool :=
  (base = 16 && !isxdigit digit) || (base = 10 && !isdigit digit) ||
    (base = 8 && (!isdigit digit || ch '7' < digit)) || (base = 0 && !isdigit digit)

/-- `simple_strtol` or `simple_strtoul`. -/
def scanNumber (w : ℕ) (sign : Bool) (str : List Byte) (base : ℕ) : BitVec w × List Byte :=
  if sign then simpleStrto w str base else simpleStrtou w str base

/-- The `switch` over the qualifier: what is stored, and the input behind it. -/
def storeNumber (qualifier : Option Byte) (sign : Bool) (str : List Byte) (base : ℕ) :
    Stored × List Byte :=
  if qualifier = some (ch 'H') then
    let (v, next) := scanNumber 32 sign str base
    (.byte (v.setWidth 8), next)
  else if qualifier = some (ch 'h') then
    let (v, next) := scanNumber 32 sign str base
    (.half (v.setWidth 16), next)
  else if qualifier = some (ch 'l') then
    let (v, next) := scanNumber 32 sign str base
    (.word v, next)
  else if qualifier = some (ch 'L') then
    let (v, next) := scanNumber 64 sign str base
    (.dword v, next)
  else if qualifier = some (ch 'Z') ∨ qualifier = some (ch 'z') then
    let (v, next) := simpleStrtou 32 str base
    (.word v, next)
  else
    let (v, next) := scanNumber 32 sign str base
    (.word v, next)

/-- An integer conversion, with the format behind it. -/
def scanInteger (qualifier : Option Byte) (base : ℕ) (sign : Bool) (fmt : List Byte) (st : Scan) :
    Next :=
  let str := st.str.dropWhile isspace
  let digit := if sign ∧ peek str = ch '-' then peek str.tail else peek str
  if digit = 0 ∨ badDigit base digit then .stop { st with str := str }
  else
    let (v, next) := storeNumber qualifier sign str base
    .go fmt ⟨next, st.num + 1, st.stored ++ [v]⟩

/-- The `switch` over the conversion character, with the format behind it. -/
def scanSwitch (buf : List Byte) (width : ℤ) (qualifier : Option Byte) (c : Byte) (fmt : List Byte)
    (st : Scan) : Next :=
  if c = ch 'c' then
    let width := if width = -1 then 1 else width
    -- `do … while (--field_width > 0 && *str)`
    let s := st.str.take (1 + (asInt (width - 1)).toNat)
    .go fmt ⟨st.str.drop s.length, st.num + 1, st.stored ++ [.chars s]⟩
  else if c = ch 's' then
    let width := if width = -1 then 0x7fffffff else BitVec.ofInt 32 width
    let str := st.str.dropWhile isspace
    let s := (str.takeWhile (!isspace ·)).take width.toNat
    .go fmt ⟨str.drop s.length, st.num + 1, st.stored ++ [.str s]⟩
  else if c = ch 'n' then
    .go fmt { st with
      stored := st.stored ++ [.count (BitVec.ofNat 32 (buf.length - st.str.length))] }
  else if c = ch '%' then
    if peek st.str ≠ ch '%' then .stop st else .go fmt { st with str := st.str.tail }
  else
    match scanFormat c with
    | some (base, sign) => scanInteger qualifier base sign fmt st
    | none => .stop st

/-- What comes behind a percent sign. -/
def scanConversion (buf fmt : List Byte) (st : Scan) : Next :=
  if peek fmt = ch '*' then
    .go (fmt.dropWhile (!isspace ·)) { st with str := st.str.dropWhile (!isspace ·) }
  else
    let (width, fmt) := scanWidth fmt
    let (qualifier, fmt) := scanQualifier fmt
    if peek fmt = 0 ∨ peek st.str = 0 then .stop st
    else scanSwitch buf width qualifier (peek fmt) fmt.tail st

/-- The body of the loop behind the white space. -/
def scanItem (buf fmt : List Byte) (st : Scan) : Next :=
  match fmt with
  | [] => .stop st
  | c :: fmt =>
    if c ≠ ch '%' then
      if c ≠ peek st.str then .stop st else .go fmt { st with str := st.str.tail }
    else scanConversion buf fmt st

/-- The body of the loop. -/
def scanTurn (buf fmt : List Byte) (st : Scan) : Next :=
  if isspace (peek fmt) then
    scanItem buf (fmt.dropWhile isspace) { st with str := st.str.dropWhile isspace }
  else scanItem buf fmt st

/-! ### The loop -/

theorem scanSwitch_fmt {buf fmt fmt' : List Byte} {width : ℤ} {qualifier : Option Byte} {c : Byte}
    {st st' : Scan} (h : scanSwitch buf width qualifier c fmt st = .go fmt' st') : fmt' = fmt := by
  unfold scanSwitch at h
  split_ifs at h <;> try (cases h; rfl)
  split at h
  · unfold scanInteger at h
    dsimp only at h
    split_ifs at h <;> cases h <;> rfl
  · cases h

theorem scanWidth_length (fmt : List Byte) : (scanWidth fmt).2.length ≤ fmt.length := by
  unfold scanWidth
  split_ifs
  · exact skipAtoi_length 0 fmt
  · exact Nat.le_refl _

theorem scanQualifier_length (fmt : List Byte) : (scanQualifier fmt).2.length ≤ fmt.length := by
  have htail := (List.tail_sublist fmt).length_le
  have htail' := (List.tail_sublist fmt.tail).length_le
  unfold scanQualifier
  dsimp only
  split_ifs
  iterate 2 exact htail'.trans htail
  iterate 2 exact htail
  exact Nat.le_refl _

theorem scanConversion_length {buf fmt fmt' : List Byte} {st st' : Scan}
    (h : scanConversion buf fmt st = .go fmt' st') : fmt'.length ≤ fmt.length := by
  unfold scanConversion at h
  by_cases hstar : peek fmt = ch '*'
  · rw [if_pos hstar] at h
    cases h
    exact (List.dropWhile_sublist _).length_le
  rw [if_neg hstar] at h
  dsimp only at h
  split_ifs at h
  rw [scanSwitch_fmt h]
  calc (scanQualifier (scanWidth fmt).2).2.tail.length
      ≤ (scanQualifier (scanWidth fmt).2).2.length := (List.tail_sublist _).length_le
    _ ≤ (scanWidth fmt).2.length := scanQualifier_length _
    _ ≤ fmt.length := scanWidth_length fmt

theorem scanTurn_length {buf fmt fmt' : List Byte} {st st' : Scan}
    (h : scanTurn buf fmt st = .go fmt' st') : fmt'.length < fmt.length := by
  have hitem : ∀ {fmt fmt' : List Byte} {st st' : Scan}, scanItem buf fmt st = .go fmt' st' →
      fmt'.length < fmt.length := by
    intro fmt fmt' st st' h
    unfold scanItem at h
    split at h
    · cases h
    · split_ifs at h
      · cases h
        exact Nat.lt_succ_self _
      · exact Nat.lt_succ_of_le (scanConversion_length h)
  unfold scanTurn at h
  split_ifs at h
  · exact (hitem h).trans_le (List.dropWhile_sublist _).length_le
  · exact hitem h

/-- The loop of `vsscanf`. -/
def vsscanfLoop (buf fmt : List Byte) (st : Scan) : Scan :=
  if fmt = [] ∨ st.str = [] then st
  else
    match h : scanTurn buf fmt st with
    | .stop st => st
    | .go fmt' st =>
      have := scanTurn_length h
      vsscanfLoop buf fmt' st
  termination_by fmt.length

/-- `vsscanf`: its result, and what has been stored. -/
def vsscanf (buf fmt : List Byte) : ℕ × List Stored :=
  let st := vsscanfLoop buf fmt ⟨buf, 0, []⟩
  (st.num, st.stored)

variable {buf fmt fmt' : List Byte} {st st' : Scan}

theorem vsscanfLoop_go (hfmt : fmt ≠ []) (hstr : st.str ≠ [])
    (h : scanTurn buf fmt st = .go fmt' st') :
    vsscanfLoop buf fmt st = vsscanfLoop buf fmt' st' := by
  rw [vsscanfLoop, if_neg (not_or.mpr ⟨hfmt, hstr⟩)]
  split
  · rename_i h'
    rw [h] at h'
    cases h'
  · rename_i h'
    rw [h] at h'
    cases h'
    rfl

theorem vsscanfLoop_stop (hfmt : fmt ≠ []) (hstr : st.str ≠ [])
    (h : scanTurn buf fmt st = .stop st') :
    vsscanfLoop buf fmt st = st' := by
  rw [vsscanfLoop, if_neg (not_or.mpr ⟨hfmt, hstr⟩)]
  split
  · rename_i h'
    rw [h] at h'
    cases h'
    rfl
  · rename_i h'
    rw [h] at h'
    cases h'

theorem vsscanfLoop_end (h : fmt = [] ∨ st.str = []) : vsscanfLoop buf fmt st = st := by
  rw [vsscanfLoop, if_pos h]

end S3c2440.Stdio
