import S3c2440.Console.Printf
import Mathlib.Data.List.DropRight
import Mathlib.Algebra.Group.Even
import Mathlib.Algebra.Ring.Parity

/-!
# The format of `printf`

`my_vprintf` goes through its format the same way whatever it prints: what it finds there is a list
of pieces, and the arguments and the buffer of `out_num` matter only to what becomes of these. Here
the two are taken apart, for two of the ways in which a call can go wrong.

The buffer of `out_num` holds 64 characters, and the width of a number is what the format says. A
call comes to its end only if C also says what it does: if each width is an `int`, each conversion
has its argument, and no percent sequence is cut short.

A percent sequence may be cut short by the NUL, and `default` then prints the NUL, and the `fmt++`
of the loop goes past it.

## What is proved

* `myVprintf_eq` — `my_vprintf` prints the pieces that it finds.
* `buffer_iff` — exactly when a call comes to its end with every number in the buffer;
  `buffer_below` is one that goes below it.
* `terminator_iff` — exactly when nothing is read behind the NUL: percent signs and digits at the
  very end of the format decide it; `terminator_passed` is a format where something is.
-/

namespace S3c2440.Console

/-! ### The pieces of a format -/

/-- What `my_vprintf` finds in a format. -/
inductive Piece where
  /-- A character that is no percent sign. -/
  | plain (c : BitVec 8)
  /-- A percent sequence, with the character that decides what it prints. -/
  | percent (lead : BitVec 8) (maxwidth : ℕ) (c : BitVec 8)
  /-- What is behind the NUL. -/
  | past
  deriving DecidableEq

/-- `*fmt >= '0' && *fmt <= '9'`. -/
def widthDigit (c : BitVec 8) : Bool := ch '0' ≤ c ∧ c ≤ ch '9'

/-- The digits as a number, with `w` before them. -/
def widthFrom (w : ℕ) (digits : List (BitVec 8)) : ℕ :=
  digits.foldl (fun w c => w * 10 + (c - ch '0').toNat) w

/-- `lead`, with `fmt` behind the percent sign. -/
def leadOf (fmt : List (BitVec 8)) : BitVec 8 := if peek fmt = ch '0' then ch '0' else ch ' '

/-- `fmt` behind the zero that says so. -/
def skipLead (fmt : List (BitVec 8)) : List (BitVec 8) :=
  if peek fmt = ch '0' then fmt.tail else fmt

theorem length_skipLead_le (fmt : List (BitVec 8)) : (skipLead fmt).length ≤ fmt.length := by
  unfold skipLead
  split
  · rw [List.length_tail]
    exact Nat.sub_le _ _
  · exact le_rfl

/-- The scan of `my_vprintf`. -/
def scan (fmt : List (BitVec 8)) : List Piece :=
  match fmt with
  | [] => []
  | c :: fmt =>
    if c ≠ ch '%' then .plain c :: scan fmt
    else
      let maxwidth := widthFrom 0 ((skipLead fmt).takeWhile widthDigit)
      match _hrest : (skipLead fmt).dropWhile widthDigit with
      -- the NUL, and what the `fmt++` of the loop goes to
      | [] => [.percent (leadOf fmt) maxwidth 0, .past]
      | c :: fmt' => .percent (leadOf fmt) maxwidth c :: scan fmt'
  termination_by fmt.length
  decreasing_by
    · exact Nat.lt_succ_self _
    · have hle := List.length_dropWhile_le widthDigit (skipLead fmt)
      have hskip := length_skipLead_le fmt
      rw [_hrest, List.length_cons] at hle
      rw [List.length_cons]
      omega

/-- What the pieces print, until something goes wrong. -/
def print : List Piece → List Arg → Except Fault (List (BitVec 8))
  | [], _ => .ok []
  | .plain c :: ps, ap => (print ps ap).map (c :: ·)
  | .percent lead maxwidth c :: ps, ap =>
    if maxwidth < 2 ^ 31 then
      match convert c lead maxwidth ap with
      | .error e => .error e
      | .ok (s, ap) => (print ps ap).map (s ++ ·)
    else .error .width
  | .past :: _, _ => .error .format

variable {fmt digits rest : List (BitVec 8)} {c lead : BitVec 8} {w maxwidth : ℕ} {ap : List Arg}

theorem le_widthFrom (w : ℕ) (digits : List (BitVec 8)) : w ≤ widthFrom w digits := by
  induction digits generalizing w with
  | nil => exact le_rfl
  | cons c digits ih =>
    have hw := ih (w * 10 + (c - ch '0').toNat)
    rw [widthFrom, List.foldl_cons]
    exact le_trans (by omega) hw

/-- The width is read as a number, if that is an `int`. -/
theorem scanWidth_eq (hw : w < 2 ^ 31) : scanWidth fmt w =
    if widthFrom w (fmt.takeWhile widthDigit) < 2 ^ 31 then
      .ok (widthFrom w (fmt.takeWhile widthDigit), fmt.dropWhile widthDigit)
    else .error .width := by
  induction fmt generalizing w with
  | nil => exact (if_pos hw).symm
  | cons c fmt ih =>
    rw [scanWidth]
    by_cases hc : ch '0' ≤ c ∧ c ≤ ch '9'
    · have hdigit : widthDigit c = true := decide_eq_true hc
      rw [if_pos hc, List.takeWhile_cons_of_pos hdigit, List.dropWhile_cons_of_pos hdigit]
      dsimp only
      split
      case isTrue hlt => exact ih hlt
      case isFalse hge =>
        have hle := le_widthFrom (w * 10 + (c - ch '0').toNat) (fmt.takeWhile widthDigit)
        exact (if_neg (by
          show ¬ widthFrom (w * 10 + (c - ch '0').toNat) _ < 2 ^ 31
          omega)).symm
    · have hdigit : ¬ widthDigit c = true := by rwa [widthDigit, decide_eq_true_iff]
      rw [if_neg hc, List.takeWhile_cons_of_neg hdigit, List.dropWhile_cons_of_neg hdigit]
      exact (if_pos hw).symm

theorem scan_cut (fmt : List (BitVec 8)) (h : (skipLead fmt).dropWhile widthDigit = []) :
    scan (ch '%' :: fmt) =
      [.percent (leadOf fmt) (widthFrom 0 ((skipLead fmt).takeWhile widthDigit)) 0, .past] := by
  rw [scan, if_neg (not_not_intro rfl)]
  dsimp only
  split
  case h_1 => rfl
  case h_2 he => cases h.symm.trans he

theorem scan_percent (fmt : List (BitVec 8))
    (h : (skipLead fmt).dropWhile widthDigit = c :: rest) :
    scan (ch '%' :: fmt) =
      .percent (leadOf fmt) (widthFrom 0 ((skipLead fmt).takeWhile widthDigit)) c :: scan rest := by
  rw [scan, if_neg (not_not_intro rfl)]
  dsimp only
  split
  case h_1 he => cases h.symm.trans he
  case h_2 he =>
    cases h.symm.trans he
    rfl

/-- What `my_vprintf` does at a percent sign. -/
theorem myVprintf_sequence (fmt : List (BitVec 8)) (ap : List Arg) :
    myVprintf (ch '%' :: fmt) ap =
      match scanWidth (skipLead fmt) 0 with
      | .error e => .error e
      | .ok (maxwidth, fmt') =>
        match convert (peek fmt') (leadOf fmt) maxwidth ap with
        | .error e => .error e
        | .ok (s, ap) =>
          match fmt' with
          | [] => .error .format
          | _ :: fmt'' => (myVprintf fmt'' ap).map (s ++ ·) := by
  rw [myVprintf, if_neg (not_not_intro rfl)]
  dsimp only
  split
  case h_1 e he =>
    rw [skipLead, he]
  case h_2 w fmt' he =>
    have hscan : scanWidth (skipLead fmt) 0 = .ok (w, fmt') := he
    simp only [hscan]
    cases fmt' <;> rfl

/-- `my_vprintf` prints the pieces of its format. -/
theorem myVprintf_eq (fmt : List (BitVec 8)) (ap : List Arg) :
    myVprintf fmt ap = print (scan fmt) ap := by
  induction fmt using scan.induct generalizing ap with
  | case1 => rw [myVprintf, scan, print]
  | case2 c fmt hc ih => rw [myVprintf_cons hc, scan, if_pos hc, print, ih]
  | case3 c fmt hc hrest =>
    rw [not_not.mp hc, scan_cut fmt hrest, myVprintf_sequence, scanWidth_eq (by omega), print,
      hrest]
    by_cases hlt : widthFrom 0 ((skipLead fmt).takeWhile widthDigit) < 2 ^ 31
    · rw [if_pos hlt, if_pos hlt]
      rfl
    · rw [if_neg hlt, if_neg hlt]
  | case4 c fmt hc c' fmt' hrest ih =>
    rw [not_not.mp hc, scan_percent fmt hrest, myVprintf_sequence, scanWidth_eq (by omega), print,
      hrest]
    by_cases hlt : widthFrom 0 ((skipLead fmt).takeWhile widthDigit) < 2 ^ 31
    · rw [if_pos hlt, if_pos hlt]
      simp only [ih]
      rfl
    · rw [if_neg hlt, if_neg hlt]

/-! ### The buffer of a number -/

/-- The conversions that call `out_num`, with the base. -/
def numberBase (c : BitVec 8) : Option Base :=
  if c = ch 'd' then some .ten
  else if c = ch 'o' then some .eight
  else if c = ch 'u' then some .ten
  else if c = ch 'x' then some .sixteen
  else none

/-- The arguments that are left after a conversion of another kind. -/
def argsLeft (c : BitVec 8) (ap : List Arg) : Except Fault (List Arg) :=
  if c = ch 'c' then (vaWord ap).map (·.2)
  else if c = ch 's' then (vaStr ap).map (·.2)
  else .ok ap

/-- A number that is to be printed, and the width for it. -/
structure Number where
  /-- The number. -/
  n : BitVec 32
  /-- The width. -/
  maxwidth : ℕ
  deriving DecidableEq

/-- The numbers among the pieces of a format, until something is wrong with the arguments. -/
def numbers : List Piece → List Arg → List Number
  | [], _ => []
  | .plain _ :: ps, ap => numbers ps ap
  | .percent _ maxwidth c :: ps, ap =>
    if maxwidth < 2 ^ 31 then
      if (numberBase c).isSome then
        match vaWord ap with
        | .error _ => []
        | .ok (n, ap) => ⟨n, maxwidth⟩ :: numbers ps ap
      else
        match argsLeft c ap with
        | .error _ => []
        | .ok ap => numbers ps ap
    else []
  | .past :: _, _ => []

/-- The arguments that are left after a conversion. -/
def takeArg (c : BitVec 8) (ap : List Arg) : Except Fault (List Arg) :=
  if (numberBase c).isSome then (vaWord ap).map (·.2) else argsLeft c ap

/-- C says what the pieces print: each width is an `int`, each conversion has an argument of its
kind, and no percent sequence is cut short by the NUL. -/
def Defined : List Piece → List Arg → Prop
  | [], _ => True
  | .plain _ :: ps, ap => Defined ps ap
  | .percent _ maxwidth c :: ps, ap =>
    maxwidth < 2 ^ 31 ∧
      match takeArg c ap with
      | .error _ => False
      | .ok ap => Defined ps ap
  | .past :: _, _ => False

/-- There is room for the width, a sign and the NUL. -/
def Number.Fits (k : Number) : Prop :=
  k.maxwidth + (if k.n.toInt < 0 then 1 else 0) < maxNumberBytes

instance (k : Number) : Decidable k.Fits := inferInstanceAs (Decidable (_ < _))

section Buffer

variable {s : List (BitVec 8)} {n : BitVec 32} {i : ℕ} {e : Fault}

theorem fits_iff : Number.Fits ⟨n, maxwidth⟩ ↔ maxwidth + (if n.toInt < 0 then 1 else 0) < 64 :=
  Iff.rfl

theorem padLoop_full (hs : s.length ≤ maxNumberBytes) (h : maxNumberBytes < s.length + i) :
    padLoop lead i s = .error .buffer := by
  induction i generalizing s with
  | zero => omega
  | succ i ih =>
    unfold padLoop push
    split
    case h_1 e he =>
      split at he <;> cases he
      rfl
    case h_2 t ht =>
      split at ht <;> cases ht
      exact ih (by rw [List.length_cons]; omega) (by rw [List.length_cons]; omega)

/-- A number has at most 32 digits. -/
theorem length_digits_le (base : Base) (n : BitVec 32) :
    (numeral base.val n.toInt.natAbs).length ≤ 32 :=
  length_numeral_le base.val base.two_le (natAbs_toInt_lt n)

/-- A number without room goes below the buffer. -/
theorem outNum_full (base : Base) (lead : BitVec 8) (h : ¬ Number.Fits ⟨n, maxwidth⟩) :
    outNum n base lead maxwidth = .error .buffer := by
  have hlen := length_digits_le base n
  rw [fits_iff] at h
  have hcount : (if n.toInt < 0 then 1 else 0) ≤ 1 := by split <;> decide
  have hlt : (numeral base.val n.toInt.natAbs).length < maxwidth := by omega
  have hstart : push 0 [] = .ok [0] := push_ok (by decide)
  have hdigits : digitLoop base n.toInt.natAbs [0] 0 =
      .ok (numeral base.val n.toInt.natAbs ++ [0], 0 + (numeral base.val n.toInt.natAbs).length) :=
    digitLoop_eq base (by rw [List.length_singleton, maxNumberBytes]; omega)
  rw [outNum, hstart, magnitude_eq]
  simp only [ok_bind, hdigits, Nat.zero_add]
  rw [pad, if_pos ⟨by omega, hlt⟩]
  by_cases hroom : maxwidth < maxNumberBytes
  · have hpad : padLoop lead (maxwidth - (numeral base.val n.toInt.natAbs).length)
        (numeral base.val n.toInt.natAbs ++ [0]) =
        .ok (List.replicate (maxwidth - (numeral base.val n.toInt.natAbs).length) lead ++
          (numeral base.val n.toInt.natAbs ++ [0])) :=
      padLoop_eq (by rw [List.length_append, List.length_singleton]; omega)
    -- the sign is the character too many
    have hneg : n.toInt < 0 := by
      by_contra hpos
      rw [if_neg hpos] at h
      exact h hroom
    have hfull : ¬ (List.replicate (maxwidth - (numeral base.val n.toInt.natAbs).length) lead ++
        (numeral base.val n.toInt.natAbs ++ [0])).length < maxNumberBytes := by
      simp only [List.length_append, List.length_replicate, List.length_singleton, maxNumberBytes]
      rw [if_pos hneg] at h
      omega
    rw [hpad]
    simp only [ok_bind, putSign, if_pos hneg, push, if_neg hfull]
    rfl
  · rw [padLoop_full]
    · rfl
    · rw [List.length_append, List.length_singleton, maxNumberBytes]
      omega
    · rw [List.length_append, List.length_singleton]
      omega

/-- A number with room stays in it. -/
theorem outNum_fits (base : Base) (lead : BitVec 8) (h : Number.Fits ⟨n, maxwidth⟩) :
    outNum n base lead maxwidth =
      .ok (outs (numberText base.val lead maxwidth n.toInt ++ [0])) := by
  have hlen := length_digits_le base n
  refine outNum_outs n base lead maxwidth ?_
  rw [fits_iff] at h
  rw [length_numberText, maxNumberBytes]
  by_cases hneg : n.toInt < 0
  · rw [if_pos hneg] at h ⊢
    omega
  · rw [if_neg hneg] at h ⊢
    omega

theorem map_eq_error {α β : Type} {x : Except Fault α} {f : α → β} :
    x.map f = .error e ↔ x = .error e := by
  cases x with
  | error d => rw [Except.map, Except.error.injEq, Except.error.injEq]
  | ok a => exact iff_of_false (fun h => nomatch h) (fun h => nomatch h)

/-- What a conversion of a number does. -/
theorem convert_number {base : Base} (h : numberBase c = some base) (lead : BitVec 8) (maxwidth : ℕ)
    (ap : List Arg) : convert c lead maxwidth ap = outArg base lead maxwidth ap := by
  unfold numberBase at h
  unfold convert
  split_ifs at h ⊢ <;> cases h <;> rfl

/-- And what one of another kind leaves of the arguments. -/
theorem convert_other (h : numberBase c = none) (lead : BitVec 8) (maxwidth : ℕ) (ap : List Arg) :
    (convert c lead maxwidth ap).map (·.2) = argsLeft c ap := by
  unfold numberBase at h
  unfold convert argsLeft
  split_ifs at h ⊢
  · cases vaWord ap <;> rfl
  · cases vaStr ap <;> rfl
  · rfl

/-- A missing argument is not a write below the buffer. -/
theorem vaWord_error (h : vaWord ap = .error e) : e = .argument := by
  unfold vaWord at h
  split at h
  · cases h
  · cases h
    rfl

theorem convert_other_error (hb : numberBase c = none)
    (h : convert c lead maxwidth ap = .error e) : e = .argument := by
  have hleft := convert_other hb lead maxwidth ap
  rw [h] at hleft
  unfold argsLeft at hleft
  split_ifs at hleft
  · exact vaWord_error (map_eq_error.mp hleft.symm)
  · unfold vaStr at hleft
    split at hleft <;> cases hleft
    rfl
  · cases hleft

/-- Where no number is printed, nothing is written below the buffer. -/
theorem no_numbers {α : Type} {x : Except Fault α} (h : x ≠ .error .buffer) :
    x ≠ .error .buffer ↔ ∀ k ∈ ([] : List Number), k.Fits :=
  iff_of_true h (List.forall_mem_nil _)

/-- The pieces that are printed keep every number in the buffer if and only if there is room for
each. -/
theorem print_iff (ps : List Piece) (ap : List Arg) :
    print ps ap ≠ .error .buffer ↔ ∀ k ∈ numbers ps ap, k.Fits := by
  induction ps generalizing ap with
  | nil => exact no_numbers (by simp [print])
  | cons p ps ih =>
    cases p with
    | plain c =>
      rw [print, numbers, Ne, map_eq_error]
      exact ih ap
    | past => exact no_numbers (by simp [print])
    | percent lead maxwidth c =>
      rw [print, numbers]
      by_cases hw : maxwidth < 2 ^ 31
      · rw [if_pos hw, if_pos hw]
        cases hb : numberBase c with
        | some base =>
          rw [convert_number hb, outArg, Option.isSome_some, if_pos rfl]
          cases hv : vaWord ap with
          | error e =>
            cases vaWord_error hv
            exact no_numbers (x := .error .argument) (by simp)
          | ok v =>
            obtain ⟨n, ap'⟩ := v
            simp only [ok_bind, List.forall_mem_cons]
            by_cases hfit : Number.Fits ⟨n, maxwidth⟩
            · rw [outNum_fits base lead hfit, and_iff_right hfit, ← ih ap']
              exact not_congr map_eq_error
            · rw [outNum_full base lead hfit]
              exact iff_of_false (not_not_intro rfl) (fun h => hfit h.1)
        | none =>
          have hleft := convert_other hb lead maxwidth ap
          rw [Option.isSome_none, if_neg Bool.false_ne_true, ← hleft]
          cases hconv : convert c lead maxwidth ap with
          | error e =>
            cases convert_other_error hb hconv
            exact no_numbers (by simp)
          | ok v => exact (not_congr map_eq_error).trans (ih v.2)
      · rw [if_neg hw, if_neg hw]
        exact no_numbers (by simp)

/-- A run that goes wrong does not come to its end. -/
theorem not_ok {α : Type} (e : Fault) : ¬ ∃ a : α, Except.error e = .ok a := by
  rintro ⟨a, h⟩
  cases h

theorem map_eq_ok {α β : Type} {x : Except Fault α} {f : α → β} :
    (∃ b, x.map f = .ok b) ↔ ∃ a, x = .ok a := by
  cases x with
  | error e => exact iff_of_false (not_ok e) (not_ok e)
  | ok a => exact iff_of_true ⟨f a, rfl⟩ ⟨a, rfl⟩

/-- The pieces are printed to the end if and only if C says what they print, and there is room for
each number. -/
theorem print_ok_iff (ps : List Piece) (ap : List Arg) :
    (∃ s, print ps ap = .ok s) ↔ Defined ps ap ∧ ∀ k ∈ numbers ps ap, k.Fits := by
  induction ps generalizing ap with
  | nil => exact iff_of_true ⟨[], rfl⟩ ⟨trivial, List.forall_mem_nil _⟩
  | cons p ps ih =>
    cases p with
    | plain c =>
      rw [print, map_eq_ok, ih ap]
      rfl
    | past => exact iff_of_false (not_ok _) (fun h => h.1)
    | percent lead maxwidth c =>
      rw [print, numbers, Defined, takeArg]
      by_cases hw : maxwidth < 2 ^ 31
      · rw [if_pos hw, if_pos hw, and_iff_right hw]
        cases hb : numberBase c with
        | some base =>
          rw [convert_number hb, outArg, Option.isSome_some, if_pos rfl, if_pos rfl]
          cases hv : vaWord ap with
          | error e => exact iff_of_false (not_ok _) (fun h => h.1)
          | ok v =>
            obtain ⟨n, ap'⟩ := v
            simp only [ok_bind, Except.map, List.forall_mem_cons]
            by_cases hfit : Number.Fits ⟨n, maxwidth⟩
            · rw [outNum_fits base lead hfit, and_iff_right hfit, ← ih ap']
              exact map_eq_ok
            · rw [outNum_full base lead hfit]
              exact iff_of_false (not_ok _) (fun h => hfit h.2.1)
        | none =>
          have hleft := convert_other hb lead maxwidth ap
          rw [Option.isSome_none, if_neg Bool.false_ne_true, if_neg Bool.false_ne_true, ← hleft]
          cases convert c lead maxwidth ap with
          | error e => exact iff_of_false (not_ok _) (fun h => h.1)
          | ok v => exact map_eq_ok.trans (ih v.2)
      · rw [if_neg hw]
        exact iff_of_false (not_ok _) (fun h => hw h.1.1)

end Buffer

/-- A call of `my_vprintf` comes to its end if and only if C says what it prints and there is room
in the buffer of `out_num` for the width and the sign of each number; and where C says it, a
write below the buffer is what goes wrong otherwise. -/
theorem buffer_iff (fmt : List (BitVec 8)) (ap : List Arg) :
    ((∃ s, myVprintf fmt ap = .ok s) ↔ Defined (scan fmt) ap ∧
      ∀ k ∈ numbers (scan fmt) ap, k.maxwidth + (if k.n.toInt < 0 then 1 else 0) ≤ 63) ∧
    (Defined (scan fmt) ap → (myVprintf fmt ap ≠ .error .buffer ↔
      ∀ k ∈ numbers (scan fmt) ap, k.maxwidth + (if k.n.toInt < 0 then 1 else 0) ≤ 63)) := by
  have hfits : (∀ k ∈ numbers (scan fmt) ap, k.Fits) ↔
      ∀ k ∈ numbers (scan fmt) ap, k.maxwidth + (if k.n.toInt < 0 then 1 else 0) ≤ 63 :=
    forall₂_congr fun k _ => Nat.lt_succ_iff
  rw [myVprintf_eq, ← hfits]
  exact ⟨print_ok_iff _ _, fun _ => print_iff _ _⟩

/-- A zero in 64 characters takes 65 bytes. -/
theorem buffer_below : ¬ ∀ (fmt : List (BitVec 8)) (ap : List Arg),
    myVprintf fmt ap ≠ .error .buffer := by
  intro h
  have hprint := h (text "%64d") [.word 0]
  rw [myVprintf_eq, print_iff] at hprint
  have hscan : scan (text "%64d") = [.percent (ch ' ') 64 (ch 'd')] := by
    refine (scan_percent [ch '6', ch '4', ch 'd'] rfl).trans ?_
    rw [scan]
    rfl
  rw [hscan] at hprint
  exact absurd (hprint ⟨0, 64⟩ (List.mem_singleton.mpr rfl)) (by decide)

/-! ### The end of the format -/

/-- A percent sign or a digit. -/
def percentOrDigit (c : BitVec 8) : Bool := c = ch '%' ∨ widthDigit c

/-- Whether a percent sequence is open after `c`, if one is or is not open before. -/
def opened (inside : Bool) (c : BitVec 8) : Bool :=
  if c = ch '%' then !inside else inside && widthDigit c

/-- Digits leave a percent sequence open, the next character ends it. -/
theorem foldl_opened_true (fmt : List (BitVec 8)) : fmt.foldl opened true =
    match fmt.dropWhile widthDigit with
    | [] => true
    | _ :: rest => rest.foldl opened false := by
  induction fmt with
  | nil => rfl
  | cons c fmt ih =>
    by_cases hc : widthDigit c = true
    · have hpercent : c ≠ ch '%' := by
        rintro rfl
        exact absurd hc (by decide)
      rw [List.dropWhile_cons_of_pos hc, ← ih, List.foldl_cons, opened, if_neg hpercent, hc]
      rfl
    · rw [List.dropWhile_cons_of_neg hc, List.foldl_cons]
      have hclose : opened true c = false := by
        unfold opened
        split
        · rfl
        · exact Bool.eq_false_of_not_eq_true hc
      rw [hclose]

/-- A zero is a digit. -/
theorem dropWhile_skipLead (fmt : List (BitVec 8)) :
    (skipLead fmt).dropWhile widthDigit = fmt.dropWhile widthDigit := by
  unfold skipLead
  split
  case isTrue h =>
    cases fmt with
    | nil => rfl
    | cons c fmt =>
      have hc : widthDigit c = true := by
        rw [show c = ch '0' from h]
        decide
      rw [List.dropWhile_cons_of_pos hc, List.tail_cons]
  case isFalse => rfl

/-- Something is read behind the NUL if and only if a percent sequence is open there. -/
theorem past_mem_scan (fmt : List (BitVec 8)) :
    Piece.past ∈ scan fmt ↔ fmt.foldl opened false = true := by
  induction fmt using scan.induct with
  | case1 =>
    rw [scan]
    exact iff_of_false (List.not_mem_nil) (by decide)
  | case2 c fmt hc ih =>
    have hplain : opened false c = false := by rw [opened, if_neg hc, Bool.false_and]
    rw [scan, if_pos hc, List.mem_cons, List.foldl_cons, hplain, ← ih]
    exact or_iff_right (fun h => nomatch h)
  | case3 c fmt hc hrest =>
    rw [not_not.mp hc, scan_cut fmt hrest, List.foldl_cons]
    rw [dropWhile_skipLead] at hrest
    have hopen : opened false (ch '%') = true := by decide
    rw [hopen, foldl_opened_true, hrest]
    exact iff_of_true (by simp) rfl
  | case4 c fmt hc c' fmt' hrest ih =>
    rw [not_not.mp hc, scan_percent fmt hrest, List.mem_cons, List.foldl_cons]
    rw [dropWhile_skipLead] at hrest
    have hopen : opened false (ch '%') = true := by decide
    rw [hopen, foldl_opened_true, hrest, ← ih]
    exact or_iff_right (fun h => nomatch h)

/-- And one is open there if and only if percent signs and digits at the end have an odd number of
percent signs. -/
theorem foldl_opened (fmt : List (BitVec 8)) : fmt.foldl opened false = true ↔
    Odd ((fmt.rtakeWhile percentOrDigit).count (ch '%')) := by
  induction fmt using List.reverseRecOn with
  | nil => exact iff_of_false (by decide) (by decide)
  | append_singleton fmt c ih =>
    rw [List.foldl_append, List.foldl_cons, List.foldl_nil, List.rtakeWhile_concat]
    by_cases hpercent : c = ch '%'
    · have htail : percentOrDigit c = true := decide_eq_true (.inl hpercent)
      rw [opened, if_pos hpercent, if_pos htail, hpercent, List.count_append,
        List.count_singleton_self, Nat.odd_add_one, ← ih, Bool.not_eq_true', Bool.not_eq_true]
    · by_cases hdigit : widthDigit c = true
      · have htail : percentOrDigit c = true := decide_eq_true (.inr hdigit)
        have hcount : [c].count (ch '%') = 0 := List.count_eq_zero_of_not_mem fun h =>
          hpercent (List.mem_singleton.mp h).symm
        rw [opened, if_neg hpercent, hdigit, Bool.and_true, ih, if_pos htail, List.count_append,
          hcount, Nat.add_zero]
      · have htail : percentOrDigit c = false :=
          decide_eq_false (not_or.mpr ⟨hpercent, hdigit⟩)
        rw [opened, if_neg hpercent, Bool.eq_false_of_not_eq_true hdigit, Bool.and_false, htail,
          if_neg Bool.false_ne_true]
        exact iff_of_false Bool.false_ne_true (by decide)

/-- Nothing is read behind the NUL of a format if and only if the percent signs and digits that it
ends in have an even number of percent signs. -/
theorem terminator_iff (fmt : List (BitVec 8)) :
    Piece.past ∉ scan fmt ↔ Even ((fmt.rtakeWhile percentOrDigit).count (ch '%')) := by
  rw [past_mem_scan, foldl_opened, Nat.not_odd_iff_even]

/-- A percent sign before the NUL: it is printed, and then what is behind it is read. -/
theorem terminator_passed : ¬ ∀ fmt : List (BitVec 8), Piece.past ∉ scan fmt := by
  intro h
  refine h (text "100%") ?_
  rw [past_mem_scan]
  decide

end S3c2440.Console
