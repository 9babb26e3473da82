import Mathlib.Data.Nat.Digits.Defs
import Mathlib.Data.BitVec

/-!
# Formatted output

`bare_board/code/I2c/20200510_IIC/my_printf.c`: `printf` goes through its format once and sends
each character to the UART, and for a percent sequence a number, a character or a string.
Numbers are made by `out_num`, from the right to the left, in a buffer of 64 bytes.

A string is the list of the characters before its NUL, and what is printed is the list of the
characters that are sent. A pointer into a string is the rest of it. What C leaves undefined
ends a call with a `Fault`: a character that would go below the buffer, a pointer that runs
past the NUL of the format, a width that does not fit in an `int`, an argument that is missing
or is of another kind. `long` is 32 bits, and `-n` goes round.

## What is proved

* `outNum_eq` — what `out_num` makes of a number where its buffer is large enough.
* `unsigned_iff` — the unsigned conversions print the number itself if and only if it is
  below `2 ^ 31`; `unsigned_negative` is one that is not.
* `padded_iff` — a width is what C says if and only if the number is not negative or there is
  nothing to pad; `padded_negative` is a number that is padded wrongly.
-/

namespace S3c2440.Console

/-! ### Text -/

/-- The code of an ASCII character. -/
def ch (c : Char) : BitVec 8 := BitVec.ofNat 8 c.toNat

/-- A string of ASCII characters. -/
def text (s : String) : List (BitVec 8) := s.toList.map ch

/-- A number in a base, as it is usually written: without leading zeros, with small letters. -/
def numeral (base m : ℕ) : List (BitVec 8) := (Nat.toDigits base m).map ch

/-! ### The code -/

/-- What C leaves undefined. -/
inductive Fault where
  /-- A write below a buffer. -/
  | buffer
  /-- A read past the end of the format. -/
  | format
  /-- A width that does not fit in an `int`. -/
  | width
  /-- A missing argument, or one of another kind. -/
  | argument
  deriving DecidableEq

/-- An argument of `printf`. -/
inductive Arg where
  /-- A word. -/
  | word (v : BitVec 32)
  /-- A string. -/
  | str (s : List (BitVec 8))
  deriving DecidableEq

/-- `MAX_NUMBER_BYTES`. -/
def maxNumberBytes : ℕ := 64

/-- `hex_tab`. -/
def hexTab : List (BitVec 8) :=
  ['0', '1', '2', '3', '4', '5', '6', '7', '8', '9', 'a', 'b', 'c', 'd', 'e', 'f'].map ch

/-- `outs`: the characters that are sent. -/
def outs (s : List (BitVec 8)) : List (BitVec 8) := s.takeWhile (· ≠ 0)

/-- `*--s = c`, with what has been written to the end of `buf`. -/
def push (c : BitVec 8) (s : List (BitVec 8)) : Except Fault (List (BitVec 8)) :=
  if s.length < maxNumberBytes then .ok (c :: s) else .error .buffer

/-- A base that `out_num` can print in. -/
structure Base where
  /-- The base. -/
  val : ℕ
  /-- There are at least two digits. -/
  two_le : 2 ≤ val
  /-- And no more than in `hex_tab`. -/
  le : val ≤ 16

/-- Base 10. -/
def Base.ten : Base := ⟨10, by decide, by decide⟩

/-- Base 8. -/
def Base.eight : Base := ⟨8, by decide, by decide⟩

/-- Base 16. -/
def Base.sixteen : Base := ⟨16, by decide, by decide⟩

/-- `do { *--s = hex_tab[m%base]; count++; } while ((m /= base) != 0);`. -/
def digitLoop (base : Base) (m : ℕ) (s : List (BitVec 8)) (count : ℕ) :
    Except Fault (List (BitVec 8) × ℕ) :=
  match push (hexTab.getD (m % base.val) 0) s with
  | .error e => .error e
  | .ok s =>
    if h : m / base.val ≠ 0 then
      have : m / base.val < m := Nat.div_lt_self
        (Nat.pos_of_ne_zero fun h0 => h (by rw [h0, Nat.zero_div])) base.two_le
      digitLoop base (m / base.val) s (count + 1)
    else .ok (s, count + 1)
  termination_by m

/-- `for (i=...; i; i--) *--s = lead;`. -/
def padLoop (lead : BitVec 8) : ℕ → List (BitVec 8) → Except Fault (List (BitVec 8))
  | 0, s => .ok s
  | i + 1, s =>
    match push lead s with
    | .error e => .error e
    | .ok s => padLoop lead i s

/-- `if( maxwidth && count < maxwidth)` with its loop. -/
def pad (lead : BitVec 8) (maxwidth count : ℕ) (s : List (BitVec 8)) :
    Except Fault (List (BitVec 8)) :=
  if maxwidth ≠ 0 ∧ count < maxwidth then padLoop lead (maxwidth - count) s else .ok s

/-- `if (n < 0) *--s = '-';`. -/
def putSign (n : BitVec 32) (s : List (BitVec 8)) : Except Fault (List (BitVec 8)) :=
  if n.toInt < 0 then push (ch '-') s else .ok s

/-- `out_num`: the characters that are sent. -/
def outNum (n : BitVec 32) (base : Base) (lead : BitVec 8) (maxwidth : ℕ) :
    Except Fault (List (BitVec 8)) := do
  let s ← push 0 []
  let m := if n.toInt < 0 then (-n).toNat else n.toNat
  let (s, count) ← digitLoop base m s 0
  let s ← pad lead maxwidth count s
  let s ← putSign n s
  return outs s

/-- `while(*fmt >= '0' && *fmt <= '9')` with its body: `maxwidth`, and `fmt` behind it. -/
def scanWidth : List (BitVec 8) → ℕ → Except Fault (ℕ × List (BitVec 8))
  | [], maxwidth => .ok (maxwidth, [])
  | c :: fmt, maxwidth =>
    if ch '0' ≤ c ∧ c ≤ ch '9' then
      let maxwidth := maxwidth * 10 + (c - ch '0').toNat
      if maxwidth < 2 ^ 31 then scanWidth fmt maxwidth else .error .width
    else .ok (maxwidth, c :: fmt)

/-- Scanning goes forward. -/
theorem scanWidth_length {fmt rest : List (BitVec 8)} {w maxwidth : ℕ}
    (h : scanWidth fmt w = .ok (maxwidth, rest)) : rest.length ≤ fmt.length := by
  induction fmt generalizing w with
  | nil =>
    rw [scanWidth, Except.ok.injEq, Prod.mk.injEq] at h
    rw [← h.2]
  | cons c fmt ih =>
    unfold scanWidth at h
    split at h
    · dsimp only at h
      split at h
      · exact (ih h).trans (Nat.le_succ _)
      · cases h
    · rw [Except.ok.injEq, Prod.mk.injEq] at h
      rw [← h.2]

/-- `va_arg(ap, int)` and `va_arg(ap, unsigned int)`. -/
def vaWord : List Arg → Except Fault (BitVec 32 × List Arg)
  | .word v :: ap => .ok (v, ap)
  | _ => .error .argument

/-- `va_arg(ap, char *)`. -/
def vaStr : List Arg → Except Fault (List (BitVec 8) × List Arg)
  | .str s :: ap => .ok (s, ap)
  | _ => .error .argument

/-- `out_num(va_arg(ap, ...), base, lead, maxwidth)`. -/
def outArg (base : Base) (lead : BitVec 8) (maxwidth : ℕ) (ap : List Arg) :
    Except Fault (List (BitVec 8) × List Arg) := do
  let (v, ap) ← vaWord ap
  let s ← outNum v base lead maxwidth
  return (s, ap)

/-- `switch (*fmt)`: the characters that are sent, and the arguments that are left. -/
def convert (c lead : BitVec 8) (maxwidth : ℕ) (ap : List Arg) :
    Except Fault (List (BitVec 8) × List Arg) :=
  if c = ch 'd' then outArg .ten lead maxwidth ap
  else if c = ch 'o' then outArg .eight lead maxwidth ap
  else if c = ch 'u' then outArg .ten lead maxwidth ap
  else if c = ch 'x' then outArg .sixteen lead maxwidth ap
  else if c = ch 'c' then do
    let (v, ap) ← vaWord ap
    return ([v.setWidth 8], ap)
  else if c = ch 's' then do
    let (s, ap) ← vaStr ap
    return (outs s, ap)
  else .ok ([c], ap)

/-- What is read at `fmt`. -/
def peek (fmt : List (BitVec 8)) : BitVec 8 := fmt.headD 0

/-- `my_vprintf`: the characters that are sent. -/
def myVprintf (fmt : List (BitVec 8)) (ap : List Arg) : Except Fault (List (BitVec 8)) :=
  match fmt with
  | [] => .ok []
  | c :: fmt =>
    if c ≠ ch '%' then (myVprintf fmt ap).map (c :: ·)
    else
      let lead := if peek fmt = ch '0' then ch '0' else ch ' '
      match _hscan : scanWidth (if peek fmt = ch '0' then fmt.tail else fmt) 0 with
      | .error e => .error e
      | .ok (maxwidth, fmt') =>
        match convert (peek fmt') lead maxwidth ap with
        | .error e => .error e
        | .ok (s, ap) =>
          -- the `fmt++` of the loop
          match fmt' with
          | [] => .error .format
          | _ :: fmt'' => (myVprintf fmt'' ap).map (s ++ ·)
  termination_by fmt.length
  decreasing_by
    · exact Nat.lt_succ_self _
    · have hle := scanWidth_length _hscan
      rw [List.length_cons] at hle ⊢
      split at hle
      · rw [List.length_tail] at hle
        omega
      · omega

/-- `printf`. -/
def printf (fmt : String) (ap : List Arg) : Except Fault (List (BitVec 8)) :=
  myVprintf (text fmt) ap

/-! ### Numerals -/

variable {base m n : ℕ}

theorem numeral_eq (hb : 2 ≤ base) : numeral base m =
    if m < base then [ch (Nat.digitChar m)]
    else numeral base (m / base) ++ [ch (Nat.digitChar (m % base))] := by
  rw [numeral, Nat.toDigits_eq_if hb]
  split
  · rfl
  · rw [List.map_append, List.map_singleton, numeral]

theorem length_numeral_pos (base m : ℕ) : 0 < (numeral base m).length := by
  rw [numeral, List.length_map]
  exact Nat.length_toDigits_pos

theorem length_numeral_le_iff (hb : 2 ≤ base) (hn : 0 < n) :
    (numeral base m).length ≤ n ↔ m < base ^ n := by
  rw [numeral, List.length_map, Nat.length_toDigits_le_iff hb hn]

/-- A word has at most 32 digits. -/
theorem length_numeral_le (base : ℕ) (hb : 2 ≤ base) (hm : m < 2 ^ 32) :
    (numeral base m).length ≤ 32 :=
  (length_numeral_le_iff hb (by omega)).mpr (hm.trans_le (Nat.pow_le_pow_left hb 32))

/-- `hex_tab` has the digits. -/
theorem hexTab_getD {d : ℕ} (h : d < 16) : hexTab.getD d 0 = ch (Nat.digitChar d) := by
  have hall : ∀ d < 16, hexTab.getD d 0 = ch (Nat.digitChar d) := by decide
  exact hall d h

/-- All characters of a numeral are digits. -/
theorem exists_of_mem_numeral (hb : 2 ≤ base) {c : BitVec 8} (h : c ∈ numeral base m) :
    ∃ d < base, c = ch (Nat.digitChar d) := by
  induction m using Nat.strong_induction_on with
  | _ m ih =>
    rw [numeral_eq hb] at h
    split at h
    case isTrue hlt => exact ⟨m, hlt, List.mem_singleton.mp h⟩
    case isFalse hge =>
      rcases List.mem_append.mp h with h | h
      · exact ih _ (Nat.div_lt_self (by omega) hb) h
      · exact ⟨m % base, Nat.mod_lt _ (by omega), List.mem_singleton.mp h⟩

/-- A digit is neither a NUL nor a minus sign. -/
theorem digit_ne {d : ℕ} (h : d < 16) :
    ch (Nat.digitChar d) ≠ 0 ∧ ch (Nat.digitChar d) ≠ ch '-' := by
  have hall : ∀ d < 16, ch (Nat.digitChar d) ≠ 0 ∧ ch (Nat.digitChar d) ≠ ch '-' := by decide
  exact hall d h

/-! ### One number -/

/-- A number with its sign, and between sign and digits what fills up to the width. -/
def numberText (base : ℕ) (lead : BitVec 8) (maxwidth : ℕ) (n : ℤ) : List (BitVec 8) :=
  (if n < 0 then [ch '-'] else []) ++
    (List.replicate (maxwidth - (numeral base n.natAbs).length) lead ++ numeral base n.natAbs)

variable {s : List (BitVec 8)} {c lead : BitVec 8}

theorem ok_bind {α β : Type} (a : α) (f : α → Except Fault β) : (Except.ok a >>= f) = f a := rfl

theorem push_ok (h : s.length < maxNumberBytes) : push c s = .ok (c :: s) := if_pos h

theorem digitLoop_eq (base : Base) {count : ℕ}
    (h : s.length + (numeral base.val m).length ≤ maxNumberBytes) :
    digitLoop base m s count =
      .ok (numeral base.val m ++ s, count + (numeral base.val m).length) := by
  have hb := base.two_le
  induction m using Nat.strong_induction_on generalizing s count with
  | _ m ih =>
    have hdigit := hexTab_getD ((Nat.mod_lt m (by omega)).trans_le base.le)
    have hpos := length_numeral_pos base.val m
    rw [digitLoop, push_ok (by omega), hdigit]
    dsimp only
    rw [numeral_eq hb] at h ⊢
    by_cases hlt : m < base.val
    · rw [dif_neg (not_not_intro (Nat.div_eq_of_lt hlt)), if_pos hlt, Nat.mod_eq_of_lt hlt]
      rfl
    · have hdiv : m / base.val ≠ 0 := (Nat.div_pos (Nat.le_of_not_lt hlt) (by omega)).ne'
      rw [if_neg hlt, List.length_append, List.length_singleton] at h
      rw [dif_pos hdiv, if_neg hlt, ih _ (Nat.div_lt_self (by omega) hb)
        (by rw [List.length_cons]; omega), List.length_append, List.length_singleton,
        List.append_assoc, Nat.add_assoc, Nat.add_comm 1]
      rfl

theorem padLoop_eq {i : ℕ} (h : s.length + i ≤ maxNumberBytes) :
    padLoop lead i s = .ok (List.replicate i lead ++ s) := by
  induction i generalizing s with
  | zero => rfl
  | succ i ih =>
    rw [padLoop, push_ok (by omega)]
    dsimp only
    rw [ih (by rw [List.length_cons]; omega), List.replicate_succ', List.append_assoc]
    rfl

/-- The magnitude that `out_num` takes the digits of. -/
theorem magnitude_eq (n : BitVec 32) :
    (if n.toInt < 0 then (-n).toNat else n.toNat) = n.toInt.natAbs := by
  rw [BitVec.toNat_neg]
  have hlt := n.isLt
  split
  case isTrue hneg =>
    rw [BitVec.toInt_eq_toNat_cond] at hneg ⊢
    split at hneg <;> omega
  case isFalse hpos =>
    rw [BitVec.toInt_eq_toNat_cond] at hpos ⊢
    split at hpos <;> omega

/-- No character of it is a NUL, and `outs` sends them all. -/
theorem outs_numberText (base : Base) (hlead : lead ≠ 0) (maxwidth : ℕ) (n : ℤ) :
    outs (numberText base.val lead maxwidth n ++ [0]) = numberText base.val lead maxwidth n := by
  have hne : ∀ c ∈ numberText base.val lead maxwidth n, decide (c ≠ 0) = true := by
    intro c hc
    rw [decide_eq_true_iff]
    rw [numberText, List.mem_append, List.mem_append] at hc
    rcases hc with hc | hc | hc
    · split at hc
      · rw [List.mem_singleton.mp hc]
        decide
      · cases hc
    · rwa [(List.mem_replicate.mp hc).2]
    · obtain ⟨d, hd, rfl⟩ := exists_of_mem_numeral base.two_le hc
      exact (digit_ne (hd.trans_le base.le)).1
  rw [outs, List.takeWhile_append_of_pos hne]
  simp

/-- How long a number is with its sign and what fills it up. -/
theorem length_numberText (base : ℕ) (lead : BitVec 8) (maxwidth : ℕ) (n : ℤ) :
    (numberText base lead maxwidth n).length = (if n < 0 then 1 else 0) +
      (maxwidth - (numeral base n.natAbs).length + (numeral base n.natAbs).length) := by
  rw [numberText, List.length_append, List.length_append, List.length_replicate]
  split <;> rfl

/-- What `out_num` sends of what it makes, where that fits in the buffer with a NUL after it. -/
theorem outNum_outs (n : BitVec 32) (base : Base) (lead : BitVec 8) (maxwidth : ℕ)
    (hfit : (numberText base.val lead maxwidth n.toInt).length < maxNumberBytes) :
    outNum n base lead maxwidth =
      .ok (outs (numberText base.val lead maxwidth n.toInt ++ [0])) := by
  have hlength := length_numberText base.val lead maxwidth n.toInt
  have hpad : pad lead maxwidth (numeral base.val n.toInt.natAbs).length
      (numeral base.val n.toInt.natAbs ++ [0]) =
      .ok (List.replicate (maxwidth - (numeral base.val n.toInt.natAbs).length) lead ++
        (numeral base.val n.toInt.natAbs ++ [0])) := by
    unfold pad
    split
    case isTrue h => exact padLoop_eq (by rw [List.length_append, List.length_singleton]; omega)
    case isFalse h =>
      rw [Nat.sub_eq_zero_of_le (by omega)]
      rfl
  have hsign : putSign n
      (List.replicate (maxwidth - (numeral base.val n.toInt.natAbs).length) lead ++
        (numeral base.val n.toInt.natAbs ++ [0])) =
      .ok (numberText base.val lead maxwidth n.toInt ++ [0]) := by
    unfold putSign
    by_cases hneg : n.toInt < 0
    · rw [if_pos hneg] at hlength
      rw [if_pos hneg, push_ok]
      · simp only [numberText, if_pos hneg, List.append_assoc]
        rfl
      · simp only [List.length_append, List.length_replicate, List.length_singleton]
        omega
    · simp only [numberText, if_neg hneg, List.append_assoc]
      rfl
  rw [outNum, push_ok (by decide), magnitude_eq]
  simp only [ok_bind]
  rw [digitLoop_eq base (by rw [List.length_singleton]; omega), Nat.zero_add]
  simp only [ok_bind, hpad, hsign]
  rfl

/-- What `out_num` sends, where it fits in the buffer with a NUL after it. -/
theorem outNum_eq (n : BitVec 32) (base : Base) (hlead : lead ≠ 0) (maxwidth : ℕ)
    (hfit : (numberText base.val lead maxwidth n.toInt).length < maxNumberBytes) :
    outNum n base lead maxwidth = .ok (numberText base.val lead maxwidth n.toInt) := by
  rw [outNum_outs n base lead maxwidth hfit, outs_numberText base hlead]

theorem natAbs_toInt_lt (v : BitVec 32) : v.toInt.natAbs < 2 ^ 32 := by
  have hle := BitVec.toInt_lt (x := v)
  have hge := BitVec.le_toInt v
  omega

/-- Without a width every number fits. -/
theorem outNum_unpadded (v : BitVec 32) (base : Base) :
    outNum v base (ch ' ') 0 = .ok (numberText base.val (ch ' ') 0 v.toInt) := by
  have hlen := length_numeral_le base.val base.two_le (natAbs_toInt_lt v)
  refine outNum_eq v base (by decide) 0 ?_
  rw [numberText, Nat.zero_sub, List.replicate_zero, List.nil_append, List.length_append,
    maxNumberBytes]
  split <;> simp only [List.length_singleton, List.length_nil] <;> omega

/-! ### A format -/

/-- A character that is not a percent sign is printed. -/
theorem myVprintf_cons {fmt : List (BitVec 8)} {ap : List Arg} (h : c ≠ ch '%') :
    myVprintf (c :: fmt) ap = (myVprintf fmt ap).map (c :: ·) := by
  rw [myVprintf, if_pos h]

/-- Text before the first percent sign is printed as it is. -/
theorem myVprintf_append (fmt : List (BitVec 8)) (ap : List Arg) (h : ∀ c ∈ s, c ≠ ch '%') :
    myVprintf (s ++ fmt) ap = (myVprintf fmt ap).map (s ++ ·) := by
  induction s with
  | nil =>
    rw [List.nil_append]
    cases myVprintf fmt ap <;> rfl
  | cons c s ih =>
    rw [List.cons_append, myVprintf_cons (h c List.mem_cons_self),
      ih fun d hd => h d (List.mem_cons_of_mem c hd)]
    cases myVprintf fmt ap <;> rfl

theorem text_ofList (l : List Char) : text (String.ofList l) = l.map ch := by
  rw [text, String.toList_ofList]

/-- What holds of the characters of a literal, one by one. -/
theorem forall_text {P : BitVec 8 → Prop} [DecidablePred P] {l : List Char}
    (h : l.all (fun c => P (ch c)) = true) : ∀ c ∈ text (String.ofList l), P c := by
  intro c hc
  rw [text_ofList, List.mem_map] at hc
  obtain ⟨d, hd, rfl⟩ := hc
  exact of_decide_eq_true (List.all_eq_true.mp h d hd)

/-- Without percent signs a format is printed as it is. -/
theorem printf_plain {fmt : String} (ap : List Arg) (h : ∀ c ∈ text fmt, c ≠ ch '%') :
    printf fmt ap = .ok (text fmt) := by
  have hend := myVprintf_append [] ap h
  rw [List.append_nil, myVprintf] at hend
  exact hend.trans (congrArg Except.ok (List.append_nil _))

/-- A percent sequence. -/
theorem myVprintf_percent (fmt : List (BitVec 8)) {rest s : List (BitVec 8)} {ap ap' : List Arg}
    {w : ℕ}
    (hscan : scanWidth (if peek fmt = ch '0' then fmt.tail else fmt) 0 = .ok (w, c :: rest))
    (hconv : convert c (if peek fmt = ch '0' then ch '0' else ch ' ') w ap = .ok (s, ap')) :
    myVprintf (ch '%' :: fmt) ap = (myVprintf rest ap').map (s ++ ·) := by
  rw [myVprintf, if_neg (not_not_intro rfl)]
  dsimp only
  split
  case h_1 e he => rw [hscan] at he; cases he
  case h_2 w' fmt' he =>
    rw [hscan] at he
    cases he
    have hpeek : peek (c :: rest) = c := rfl
    rw [hpeek, hconv]

/-- A format that is one conversion of a number. -/
theorem myVprintf_number (fmt : List (BitVec 8)) (base : Base) {s : List (BitVec 8)} {v : BitVec 32}
    {w : ℕ}
    (hconv : ∀ lead w ap, convert c lead w ap = outArg base lead w ap)
    (hscan : scanWidth (if peek fmt = ch '0' then fmt.tail else fmt) 0 = .ok (w, [c]))
    (hout : outNum v base (if peek fmt = ch '0' then ch '0' else ch ' ') w = .ok s) :
    myVprintf (ch '%' :: fmt) [.word v] = .ok s := by
  have harg : convert c (if peek fmt = ch '0' then ch '0' else ch ' ') w [.word v] =
      .ok (s, []) := by
    rw [hconv, outArg]
    simp only [vaWord, ok_bind, hout]
    rfl
  rw [myVprintf_percent fmt hscan harg, myVprintf]
  exact congrArg Except.ok (List.append_nil s)

/-- A conversion of a number without a width, and the text before it. -/
theorem myVprintf_word (base : Base) {pre post : List (BitVec 8)} (hpre : ∀ c ∈ pre, c ≠ ch '%')
    (hconv : ∀ lead w ap, convert c lead w ap = outArg base lead w ap) (hzero : c ≠ ch '0')
    (hscan : scanWidth (c :: post) 0 = .ok (0, c :: post)) (v : BitVec 32) (ap : List Arg) :
    myVprintf (pre ++ ch '%' :: c :: post) (.word v :: ap) =
      (myVprintf post ap).map (pre ++ numberText base.val (ch ' ') 0 v.toInt ++ ·) := by
  have hpeek : ¬ peek (c :: post) = ch '0' := hzero
  have hword : convert c (ch ' ') 0 (.word v :: ap) =
      .ok (numberText base.val (ch ' ') 0 v.toInt, ap) := by
    rw [hconv, outArg]
    simp only [vaWord, ok_bind, outNum_unpadded]
    rfl
  rw [myVprintf_append _ _ hpre, myVprintf_percent (c :: post) (by rw [if_neg hpeek, hscan])
    (by rw [if_neg hpeek, hword])]
  cases myVprintf post ap with
  | error e => rfl
  | ok s => exact congrArg Except.ok (List.append_assoc pre _ s).symm

/-- Text with one `%d` in it. -/
theorem printf_decimal (fmt : String) (pre post : List (BitVec 8))
    (hfmt : text fmt = pre ++ ch '%' :: ch 'd' :: post) (hpre : ∀ c ∈ pre, c ≠ ch '%')
    (hpost : ∀ c ∈ post, c ≠ ch '%') (v : BitVec 32) :
    printf fmt [.word v] = .ok (pre ++ (numberText 10 (ch ' ') 0 v.toInt ++ post)) := by
  have hend := myVprintf_append [] [] hpost
  rw [List.append_nil, myVprintf] at hend
  have hword := myVprintf_word (c := ch 'd') .ten hpre (fun _ _ _ => rfl) (by decide)
    (show scanWidth (ch 'd' :: post) 0 = .ok (0, ch 'd' :: post) from rfl) v []
  rw [printf, hfmt, hword, hend]
  refine congrArg Except.ok ?_
  show pre ++ _ ++ (post ++ []) = _
  rw [List.append_nil, List.append_assoc]
  rfl

/-! ### Unsigned conversions -/

/-- The unsigned conversions. -/
inductive Unsigned where
  /-- `%u`. -/
  | u
  /-- `%o`. -/
  | o
  /-- `%x`. -/
  | x

/-- As a format, without a width. -/
def Unsigned.fmt : Unsigned → String
  | u => "%u"
  | o => "%o"
  | x => "%x"

/-- The base it stands for. -/
def Unsigned.radix : Unsigned → Base
  | u => .ten
  | o => .eight
  | x => .sixteen

/-- What they print is a signed number. -/
theorem printf_unsigned (c : Unsigned) (v : BitVec 32) :
    printf c.fmt [.word v] = .ok (numberText c.radix.val (ch ' ') 0 v.toInt) := by
  have hout := outNum_unpadded v c.radix
  cases c with
  | u => exact myVprintf_number [ch 'u'] .ten (fun _ _ _ => rfl) rfl hout
  | o => exact myVprintf_number [ch 'o'] .eight (fun _ _ _ => rfl) rfl hout
  | x => exact myVprintf_number [ch 'x'] .sixteen (fun _ _ _ => rfl) rfl hout

/-- A minus sign is not the beginning of a numeral. -/
theorem cons_minus_ne_numeral (base : Base) (s : List (BitVec 8)) :
    ch '-' :: s ≠ numeral base.val m := by
  intro h
  obtain ⟨d, hd, heq⟩ := exists_of_mem_numeral base.two_le (h ▸ List.mem_cons_self)
  exact (digit_ne (hd.trans_le base.le)).2 heq.symm

/-- An unsigned conversion prints the number if and only if it is below `2 ^ 31`. -/
theorem unsigned_iff (c : Unsigned) (v : BitVec 32) :
    printf c.fmt [.word v] = .ok (numeral c.radix.val v.toNat) ↔ v.toNat < 2 ^ 31 := by
  rw [printf_unsigned, Except.ok.injEq, numberText, Nat.zero_sub, List.replicate_zero,
    List.nil_append]
  have hlt := v.isLt
  by_cases hsmall : v.toNat < 2 ^ 31
  · have hint : v.toInt = v.toNat := by
      rw [BitVec.toInt_eq_toNat_cond]
      split <;> omega
    rw [hint, if_neg (by omega), Int.natAbs_natCast]
    exact iff_of_true rfl hsmall
  · have hneg : v.toInt < 0 := by
      rw [BitVec.toInt_eq_toNat_cond]
      split <;> omega
    rw [if_pos hneg]
    exact iff_of_false (cons_minus_ne_numeral c.radix _) hsmall

/-- The largest word is printed as minus one. -/
theorem unsigned_negative : ¬ ∀ (c : Unsigned) (v : BitVec 32),
    printf c.fmt [.word v] = .ok (numeral c.radix.val v.toNat) := by
  intro h
  have hu := (printf_unsigned .u 0xffffffff).symm.trans (h .u 0xffffffff)
  exact cons_minus_ne_numeral _ _ (Except.ok.inj hu)

/-! ### Widths -/

/-- `%wd`, or `%0wd`. -/
def widthFmt (zero : Bool) (w : ℕ) : List (BitVec 8) :=
  ch '%' :: ((if zero then [ch '0'] else []) ++ (numeral 10 w ++ [ch 'd']))

/-- What C prints for it: at least `w` characters, filled up with zeros behind the sign or with
spaces before it. -/
def decimal (zero : Bool) (w : ℕ) (n : ℤ) : List (BitVec 8) :=
  let sign := if n < 0 then [ch '-'] else []
  let digits := numeral 10 n.natAbs
  let fill := w - (sign.length + digits.length)
  if zero then sign ++ List.replicate fill (ch '0') ++ digits
  else List.replicate fill (ch ' ') ++ sign ++ digits

/-- The value of a digit. -/
theorem digit_value {d : ℕ} (h : d < 10) : (ch '0' ≤ ch (Nat.digitChar d) ∧
    ch (Nat.digitChar d) ≤ ch '9') ∧ (ch (Nat.digitChar d) - ch '0').toNat = d := by
  have hall : ∀ d < 10, (ch '0' ≤ ch (Nat.digitChar d) ∧ ch (Nat.digitChar d) ≤ ch '9') ∧
      (ch (Nat.digitChar d) - ch '0').toNat = d := by decide
  exact hall d h

/-- A width is read as the number it is. -/
theorem scanWidth_numeral (hm : m < 2 ^ 31) (rest : List (BitVec 8)) :
    scanWidth (numeral 10 m ++ rest) 0 = scanWidth rest m := by
  have hstep : ∀ d < 10, ∀ w, w * 10 + d < 2 ^ 31 → ∀ rest,
      scanWidth (ch (Nat.digitChar d) :: rest) w = scanWidth rest (w * 10 + d) := by
    intro d hd w hw rest
    obtain ⟨hdigit, hvalue⟩ := digit_value hd
    rw [scanWidth, if_pos hdigit, hvalue]
    exact if_pos hw
  induction m using Nat.strong_induction_on generalizing rest with
  | _ m ih =>
    rw [numeral_eq (by omega)]
    split
    case isTrue hlt =>
      rw [List.singleton_append, hstep m hlt 0 (by omega), Nat.zero_mul, Nat.zero_add]
    case isFalse hge =>
      rw [List.append_assoc, ih (m / 10) (by omega) (by omega), List.singleton_append,
        hstep (m % 10) (by omega) (m / 10) (by omega), Nat.div_add_mod']

/-- And does not begin with a zero. -/
theorem peek_numeral (hm : 1 ≤ m) (rest : List (BitVec 8)) :
    peek (numeral 10 m ++ rest) ≠ ch '0' := by
  induction m using Nat.strong_induction_on generalizing rest with
  | _ m ih =>
    rw [numeral_eq (by omega)]
    split
    case isTrue hlt =>
      have hall : ∀ d < 10, 1 ≤ d → ch (Nat.digitChar d) ≠ ch '0' := by decide
      exact hall m hlt hm
    case isFalse hge =>
      rw [List.append_assoc]
      exact ih (m / 10) (by omega) (by omega) _

/-- What a width makes of a number. -/
theorem myVprintf_width (zero : Bool) {w : ℕ} (hw : 1 ≤ w ∧ w ≤ 60) (n : BitVec 32) :
    myVprintf (widthFmt zero w) [.word n] =
      .ok (numberText 10 (if zero then ch '0' else ch ' ') w n.toInt) := by
  have hlen := length_numeral_le 10 (by omega) (natAbs_toInt_lt n)
  have hout : ∀ lead : BitVec 8, lead ≠ 0 → outNum n .ten lead w =
      .ok (numberText 10 lead w n.toInt) := fun lead hlead =>
    outNum_eq n .ten hlead w (by
      simp only [numberText, Base.ten, List.length_append, List.length_replicate, maxNumberBytes]
      split <;> simp only [List.length_singleton, List.length_nil] <;> omega)
  have hscan : scanWidth (numeral 10 w ++ [ch 'd']) 0 = .ok (w, [ch 'd']) :=
    scanWidth_numeral (by omega) _
  cases zero with
  | true =>
    exact myVprintf_number (c := ch 'd') (ch '0' :: (numeral 10 w ++ [ch 'd'])) .ten
      (fun _ _ _ => rfl) hscan (hout (ch '0') (by decide))
  | false =>
    have hpeek := peek_numeral hw.1 [ch 'd']
    refine myVprintf_number (c := ch 'd') (w := w) (numeral 10 w ++ [ch 'd']) .ten
      (fun _ _ _ => rfl) ?_ ?_
    · rwa [if_neg hpeek]
    · rw [if_neg hpeek]
      exact hout (ch ' ') (by decide)

/-- A sign in front of the padding is one character too many, unless there is no padding. -/
theorem numberText_eq_decimal_iff (zero : Bool) (w : ℕ) (n : ℤ) :
    numberText 10 (if zero then ch '0' else ch ' ') w n = decimal zero w n ↔
      0 ≤ n ∨ w ≤ (numeral 10 n.natAbs).length := by
  by_cases hneg : n < 0
  · rw [numberText, decimal, if_pos hneg]
    by_cases hle : w ≤ (numeral 10 n.natAbs).length
    · have hfill : w - ([ch '-'].length + (numeral 10 n.natAbs).length) = 0 := by
        rw [List.length_singleton]
        omega
      refine iff_of_true ?_ (.inr hle)
      simp only [hfill, Nat.sub_eq_zero_of_le hle, List.replicate_zero, List.nil_append,
        List.append_nil, ite_self]
    · refine iff_of_false (fun heq => ?_) (by omega)
      have hlen := congrArg List.length heq
      cases zero <;>
        simp only [List.length_append, List.length_singleton, List.length_replicate,
          Bool.false_eq_true, if_false, if_true] at hlen <;> omega
  · refine iff_of_true ?_ (.inl (not_lt.mp hneg))
    simp only [numberText, decimal, if_neg hneg, List.length_nil, Nat.zero_add, List.nil_append,
      List.append_nil]
    cases zero <;> rfl

/-- A width pads as C says if and only if the number is not negative, or has as many digits as the
width. -/
theorem padded_iff (zero : Bool) (w : ℕ) (hw : 1 ≤ w ∧ w ≤ 60) (n : BitVec 32) :
    myVprintf (widthFmt zero w) [.word n] = .ok (decimal zero w n.toInt) ↔
      0 ≤ n.toInt ∨ 10 ^ (w - 1) ≤ n.toInt.natAbs := by
  rw [myVprintf_width zero hw, Except.ok.injEq, numberText_eq_decimal_iff]
  by_cases hneg : 0 ≤ n.toInt
  · exact iff_of_true (.inl hneg) (.inl hneg)
  · refine or_congr_right ?_
    rcases Nat.lt_or_eq_of_le hw.1 with hlt | rfl
    · have hle := length_numeral_le_iff (m := n.toInt.natAbs) (show 2 ≤ 10 by omega)
        (show 0 < w - 1 by omega)
      omega
    · have hpos := length_numeral_pos 10 n.toInt.natAbs
      exact iff_of_true hpos (by show 1 ≤ _; omega)

/-- A number of six digits in five characters. -/
theorem padded_long : myVprintf (widthFmt true 5) [.word (-123456)] =
    .ok (decimal true 5 (-123456)) ↔ 0 ≤ (-123456 : ℤ) ∨ 10 ^ 4 ≤ 123456 :=
  padded_iff true 5 (by omega) (-123456)

/-- Minus five in four characters takes five. -/
theorem padded_negative : ¬ ∀ (zero : Bool) (w : ℕ), 1 ≤ w ∧ w ≤ 60 → ∀ n : BitVec 32,
    myVprintf (widthFmt zero w) [.word n] = .ok (decimal zero w n.toInt) := by
  intro h
  have hfour := (myVprintf_width false (w := 4) (by omega) (-5)).symm.trans
    (h false 4 (by omega) (-5))
  exact absurd (Except.ok.inj hfour) (by decide)

end S3c2440.Console
