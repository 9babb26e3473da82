import S3c2440.Console.Printf
import S3c2440.Lcd.Geometry
import Mathlib.Algebra.BigOperators.Group.List.Basic

/-!
# Text on the screen

`bare_board/code/I2c/20200510_IIC/lcd/font.c`: `fb_print_char` puts the pixels of a character, of
which the font has 16 rows of 8, and `fb_print_string` goes from left to right over the screen. A
newline goes down by 16, a carriage return goes back to column 0, and where a character has ended
on or behind the last column the next one is at the beginning of the next line. Whether there is
room for a character, or for a line, is not looked at.

A coordinate is an integer. On a screen of fewer than 2^31 - 8 columns, and with fewer than
2^31 rows of it and of the lines of the string together, it is an `int` of the code
(`text_isInt`). A character is one of those below 0x80, which the font has been taken over for,
other than the NUL.

## What is proved

* `mem_fbPrintString` — the pixels of a string are the dots of its characters, each from a place on
  that follows from how many characters there are between the carriage returns before it.
* `text_isInt` — the columns and rows that are gone through do not leave the range of an `int`.
* `text_onScreen_iff` — exactly when these are on the screen; `text_onScreen_right` is a string with
  pixels that are not.
-/

namespace S3c2440.Lcd

open Console (ch)

/-! ### The code -/

/-- `fontdata_8x16`: a row for each character below 0x80, its 16 bytes from left to right. -/
def fontdata8x16 : List (BitVec 128) :=
  [
    0x00000000000000000000000000000000, 0x00007e81a58181bd9981817e00000000,
    0x00007effdbffffc3e7ffff7e00000000, 0x000000006cfefefefe7c381000000000,
    0x0000000010387cfe7c38100000000000, 0x000000183c3ce7e7e718183c00000000,
    0x000000183c7effff7e18183c00000000, 0x000000000000183c3c18000000000000,
    0xffffffffffffe7c3c3e7ffffffffffff, 0x00000000003c664242663c0000000000,
    0xffffffffffc399bdbd99c3ffffffffff, 0x00001e0e1a3278cccccccc7800000000,
    0x00003c666666663c187e181800000000, 0x00003f333f3030303070f0e000000000,
    0x00007f637f6363636367e7e6c0000000, 0x0000001818db3ce73cdb181800000000,
    0x0080c0e0f0f8fef8f0e0c08000000000, 0x0002060e1e3efe3e1e0e060200000000,
    0x0000183c7e1818187e3c180000000000, 0x00006666666666666600666600000000,
    0x00007fdbdbdb7b1b1b1b1b1b00000000, 0x007cc660386cc6c66c380cc67c000000,
    0x0000000000000000fefefefe00000000, 0x0000183c7e1818187e3c187e00000000,
    0x0000183c7e1818181818181800000000, 0x0000181818181818187e3c1800000000,
    0x0000000000180cfe0c18000000000000, 0x00000000003060fe6030000000000000,
    0x000000000000c0c0c0fe000000000000, 0x0000000000286cfe6c28000000000000,
    0x000000001038387c7cfefe0000000000, 0x00000000fefe7c7c3838100000000000,
    0x00000000000000000000000000000000, 0x0000183c3c3c18181800181800000000,
    0x00666666240000000000000000000000, 0x0000006c6cfe6c6c6cfe6c6c00000000,
    0x18187cc6c2c07c060686c67c18180000, 0x00000000c2c60c183060c68600000000,
    0x0000386c6c3876dccccccc7600000000, 0x00303030600000000000000000000000,
    0x00000c18303030303030180c00000000, 0x000030180c0c0c0c0c0c183000000000,
    0x0000000000663cff3c66000000000000, 0x000000000018187e1818000000000000,
    0x00000000000000000018181830000000, 0x00000000000000fe0000000000000000,
    0x00000000000000000000181800000000, 0x0000000002060c183060c08000000000,
    0x0000386cc6c6d6d6c6c66c3800000000, 0x00001838781818181818187e00000000,
    0x00007cc6060c183060c0c6fe00000000, 0x00007cc606063c060606c67c00000000,
    0x00000c1c3c6cccfe0c0c0c1e00000000, 0x0000fec0c0c0fc060606c67c00000000,
    0x00003860c0c0fcc6c6c6c67c00000000, 0x0000fec606060c183030303000000000,
    0x00007cc6c6c67cc6c6c6c67c00000000, 0x00007cc6c6c67e0606060c7800000000,
    0x00000000181800000018180000000000, 0x00000000181800000018183000000000,
    0x000000060c18306030180c0600000000, 0x00000000007e00007e00000000000000,
    0x0000006030180c060c18306000000000, 0x00007cc6c60c18181800181800000000,
    0x0000007cc6c6dedededcc07c00000000, 0x000010386cc6c6fec6c6c6c600000000,
    0x0000fc6666667c66666666fc00000000, 0x00003c66c2c0c0c0c0c2663c00000000,
    0x0000f86c6666666666666cf800000000, 0x0000fe6662687868606266fe00000000,
    0x0000fe6662687868606060f000000000, 0x00003c66c2c0c0dec6c6663a00000000,
    0x0000c6c6c6c6fec6c6c6c6c600000000, 0x00003c18181818181818183c00000000,
    0x00001e0c0c0c0c0ccccccc7800000000, 0x0000e666666c78786c6666e600000000,
    0x0000f06060606060606266fe00000000, 0x0000c6eefefed6c6c6c6c6c600000000,
    0x0000c6e6f6fedecec6c6c6c600000000, 0x00007cc6c6c6c6c6c6c6c67c00000000,
    0x0000fc6666667c60606060f000000000, 0x00007cc6c6c6c6c6c6d6de7c0c0e0000,
    0x0000fc6666667c6c666666e600000000, 0x00007cc6c660380c06c6c67c00000000,
    0x00007e7e5a1818181818183c00000000, 0x0000c6c6c6c6c6c6c6c6c67c00000000,
    0x0000c6c6c6c6c6c6c66c381000000000, 0x0000c6c6c6c6d6d6d6feee6c00000000,
    0x0000c6c66c7c38387c6cc6c600000000, 0x0000666666663c181818183c00000000,
    0x0000fec6860c183060c2c6fe00000000, 0x00003c30303030303030303c00000000,
    0x00000080c0e070381c0e060200000000, 0x00003c0c0c0c0c0c0c0c0c3c00000000,
    0x10386cc6000000000000000000000000, 0x00000000000000000000000000ff0000,
    0x0030180c000000000000000000000000, 0x0000000000780c7ccccccc7600000000,
    0x0000e06060786c666666667c00000000, 0x00000000007cc6c0c0c0c67c00000000,
    0x00001c0c0c3c6ccccccccc7600000000, 0x00000000007cc6fec0c0c67c00000000,
    0x00001c36323078303030307800000000, 0x000000000076cccccccccc7c0ccc7800,
    0x0000e060606c7666666666e600000000, 0x00001818003818181818183c00000000,
    0x00000606000e06060606060666663c00, 0x0000e06060666c78786c66e600000000,
    0x00003818181818181818183c00000000, 0x0000000000ecfed6d6d6d6c600000000,
    0x0000000000dc66666666666600000000, 0x00000000007cc6c6c6c6c67c00000000,
    0x0000000000dc66666666667c6060f000, 0x000000000076cccccccccc7c0c0c1e00,
    0x0000000000dc7666606060f000000000, 0x00000000007cc660380cc67c00000000,
    0x0000103030fc30303030361c00000000, 0x0000000000cccccccccccc7600000000,
    0x0000000000c6c6c6c6c66c3800000000, 0x0000000000c6c6d6d6d6fe6c00000000,
    0x0000000000c66c3838386cc600000000, 0x0000000000c6c6c6c6c6c67e060cf800,
    0x0000000000fecc183060c6fe00000000, 0x00000e18181870181818180e00000000,
    0x00001818181818181818181800000000, 0x0000701818180e181818187000000000,
    0x0076dc00000000000000000000000000, 0x0000000010386cc6c6c6fe0000000000
  ]

/-- A character of a string. -/
structure Ascii where
  /-- Its code. -/
  code : BitVec 8
  /-- It is not the NUL. -/
  pos : 0 < code.toNat
  /-- It is an ASCII character. -/
  lt : code.toNat < 0x80

/-- `dots[j]`, with `dots = &fontdata_8x16[c * 16]`. -/
def dots (c : Ascii) (j : ℕ) : BitVec 8 :=
  ((fontdata8x16.getD c.code.toNat 0) >>> (8 * (15 - j))).setWidth 8

/-- `data & (1<<bit)`, with `data` in row `j` and `bit` in column `i`. -/
def isDot (c : Ascii) (i j : ℕ) : Bool := (dots c j).getLsbD (7 - i)

/-- `fb_print_char`: the calls of `fb_put_pixel`. -/
def fbPrintChar (x y : ℤ) (c : Ascii) (color : BitVec 32) : List Pixel :=
  (List.range 16).flatMap fun j =>
    ((List.range 8).filter fun i => isDot c i j).map fun (i : ℕ) => ⟨x + i, y + j, color⟩

/-- `fb_print_string`, on a screen of `xres` columns. -/
def fbPrintString (xres : ℤ) (x y : ℤ) (str : List Ascii) (color : BitVec 32) : List Pixel :=
  match str with
  | [] => []
  | c :: str =>
    if c.code = ch '\n' then fbPrintString xres x (y + 16) str color
    else if c.code = ch '\r' then fbPrintString xres 0 y str color
    else
      fbPrintChar x y c color ++
        if x + 8 ≥ xres then fbPrintString xres 0 (y + 16) str color
        else fbPrintString xres (x + 8) y str color

/-! ### Where a character is -/

/-- The character is drawn. -/
def drawn (c : Ascii) : Bool := c.code ≠ ch '\n' ∧ c.code ≠ ch '\r'

/-- How many characters are drawn before the first carriage return, between two, and after the last
one. -/
def runs (p : List Ascii) : List ℕ := (p.splitOnP fun c => c.code = ch '\r').map (·.countP drawn)

/-- The newlines. -/
def newlines (p : List Ascii) : ℕ := p.countP fun c => c.code = ch '\n'

/-- How many characters begin in `w` columns. -/
def perLine (w : ℤ) : ℕ := ((w + 7) / 8).toNat

/-- How many fewer begin from column `x` on. -/
def lacking (xres x : ℤ) : ℕ := perLine xres - perLine (xres - x)

/-- The column of the character behind `p`: on the first line the characters go on from `x`, on the
others from 0. -/
def column (xres x : ℤ) (p : List Ascii) : ℤ :=
  match runs p with
  | [] => x
  | [n] =>
    if n + lacking xres x < perLine xres then x + 8 * n
    else 8 * ((n + lacking xres x) % perLine xres : ℕ)
  | _ :: ns => 8 * (ns.getLastD 0 % perLine xres : ℕ)

/-- Its row: below one line for each newline, and for each time that the characters between two
carriage returns have filled a line. -/
def row (xres x y : ℤ) (p : List Ascii) : ℤ :=
  match runs p with
  | [] => y
  | n :: ns =>
    y + 16 * (newlines p + ((n + lacking xres x) / perLine xres +
      (ns.map (· / perLine xres)).sum) : ℕ)

variable {xres x y : ℤ} {p : List Ascii} {c : Ascii} {n : ℕ} {ns : List ℕ}

theorem return_ne_newline : ch '\r' ≠ ch '\n' := by decide

theorem newlines_cons (c : Ascii) (p : List Ascii) :
    newlines (c :: p) = newlines p + if c.code = ch '\n' then 1 else 0 := by
  simp [newlines, List.countP_cons]

theorem exists_runs (p : List Ascii) : ∃ n ns, runs p = n :: ns := by
  obtain ⟨s, ss, hs⟩ := List.exists_cons_of_ne_nil
    (List.splitOnP_ne_nil (fun c : Ascii => decide (c.code = ch '\r')) p)
  exact ⟨s.countP drawn, ss.map (·.countP drawn), by rw [runs, hs, List.map_cons]⟩

theorem runs_return (hc : c.code = ch '\r') (h : runs p = n :: ns) :
    runs (c :: p) = 0 :: n :: ns := by
  rw [runs, List.splitOnP_cons_eq_if_modifyHead, if_pos (decide_eq_true hc), List.map_cons, ← h]
  rfl

theorem runs_cons (hc : c.code ≠ ch '\r') (h : runs p = n :: ns) :
    runs (c :: p) = (n + if drawn c then 1 else 0) :: ns := by
  obtain ⟨s, ss, hs⟩ := List.exists_cons_of_ne_nil
    (List.splitOnP_ne_nil (fun c : Ascii => decide (c.code = ch '\r')) p)
  rw [runs, hs, List.map_cons, List.cons.injEq] at h
  rw [runs, List.splitOnP_cons_eq_if_modifyHead, if_neg (by simpa using hc), hs,
    List.modifyHead_cons, List.map_cons, List.countP_cons, h.1, h.2]

theorem column_single (h : runs p = [n]) : column xres x p =
    if n + lacking xres x < perLine xres then x + 8 * n
    else 8 * ((n + lacking xres x) % perLine xres : ℕ) := by
  rw [column, h]

theorem column_return {m : ℕ} (h : runs p = n :: m :: ns) :
    column xres x p = 8 * ((m :: ns).getLastD 0 % perLine xres : ℕ) := by
  rw [column, h]

/-- From column 0 on all lines have as many characters. -/
theorem column_zero (h : runs p = n :: ns) :
    column xres 0 p = 8 * ((n :: ns).getLastD 0 % perLine xres : ℕ) := by
  cases ns with
  | nil =>
    have hzero : lacking xres 0 = 0 := by rw [lacking, sub_zero, Nat.sub_self]
    rw [column_single h, hzero, Nat.add_zero, zero_add]
    split
    case isTrue hlt => rw [List.getLastD_cons, List.getLastD_nil, Nat.mod_eq_of_lt hlt]
    case isFalse => rfl
  | cons m ms => rw [column_return h, List.getLastD_cons, List.getLastD_cons, List.getLastD_cons]

theorem row_runs (h : runs p = n :: ns) : row xres x y p =
    y + 16 * (newlines p + ((n + lacking xres x) / perLine xres +
      (ns.map (· / perLine xres)).sum) : ℕ) := by
  rw [row, h]

/-- Where the next character is after `c` at column `x` in row `y`. -/
def next (xres x y : ℤ) (c : Ascii) : ℤ × ℤ :=
  if c.code = ch '\n' then (x, y + 16)
  else if c.code = ch '\r' then (0, y)
  else if x + 8 ≥ xres then (0, y + 16) else (x + 8, y)

theorem fbPrintString_cons (c : Ascii) (str : List Ascii) (color : BitVec 32) :
    fbPrintString xres x y (c :: str) color =
      (if drawn c then fbPrintChar x y c color else []) ++
        fbPrintString xres (next xres x y c).1 (next xres x y c).2 str color := by
  rw [fbPrintString, next, drawn]
  by_cases hn : c.code = ch '\n'
  · simp only [hn, if_pos, ne_eq, not_true_eq_false, false_and, decide_false, Bool.false_eq_true,
      if_false, List.nil_append]
  · by_cases hr : c.code = ch '\r'
    · simp [hr, return_ne_newline]
    · simp only [hn, hr, if_false, ne_eq, not_false_eq_true, and_self, decide_true, if_true]
      split <;> rfl

theorem next_mem (hx : 0 ≤ x ∧ x < xres) (y : ℤ) (c : Ascii) :
    0 ≤ (next xres x y c).1 ∧ (next xres x y c).1 < xres := by
  unfold next
  split
  · exact hx
  · split
    · exact ⟨le_rfl, by show 0 < xres; omega⟩
    · split
      · exact ⟨le_rfl, by show 0 < xres; omega⟩
      · exact ⟨by show 0 ≤ x + 8; omega, by show x + 8 < xres; omega⟩

/-- The characters that are lacking are counted on with each one that is drawn. -/
theorem lacking_next (hx : 0 ≤ x ∧ x < xres) : lacking xres 0 = 0 ∧
    if x + 8 ≥ xres then lacking xres x + 1 = perLine xres
    else lacking xres x + 1 = lacking xres (x + 8) := by
  unfold lacking perLine
  refine ⟨by omega, ?_⟩
  split <;> omega

theorem lacking_lt (hx : 0 ≤ x ∧ x < xres) : lacking xres x < perLine xres := by
  unfold lacking perLine
  omega

/-- The first character is where the string begins. -/
theorem place_nil (hx : 0 ≤ x ∧ x < xres) (y : ℤ) :
    column xres x [] = x ∧ row xres x y [] = y := by
  have hruns : runs [] = [0] := rfl
  have hlt := lacking_lt hx
  rw [column_single hruns, row_runs hruns, Nat.zero_add, if_pos hlt, Nat.div_eq_of_lt hlt]
  exact ⟨add_zero x, add_zero y⟩

/-- The place of a character behind `c` is what it is from the next place on. -/
theorem place_cons (hx : 0 ≤ x ∧ x < xres) (y : ℤ) (c : Ascii) (p : List Ascii) :
    column xres x (c :: p) = column xres (next xres x y c).1 p ∧
      row xres x y (c :: p) = row xres (next xres x y c).1 (next xres x y c).2 p := by
  obtain ⟨n, ns, hruns⟩ := exists_runs p
  obtain ⟨hzero, hlack⟩ := lacking_next hx
  have hlt := lacking_lt hx
  have hpos := Nat.zero_lt_of_lt hlt
  unfold next
  by_cases hn : c.code = ch '\n'
  · have hr : c.code ≠ ch '\r' := hn ▸ return_ne_newline.symm
    have hcons : runs (c :: p) = n :: ns := by
      rw [runs_cons hr hruns, drawn, hn]
      rfl
    rw [if_pos hn]
    refine ⟨by rw [column, hcons, column, hruns], ?_⟩
    rw [row_runs hcons, row_runs hruns, newlines_cons, if_pos hn]
    push_cast
    ring
  · rw [if_neg hn]
    by_cases hr : c.code = ch '\r'
    · have hcons := runs_return hr hruns
      rw [if_pos hr, row_runs hcons, row_runs hruns, newlines_cons, if_neg hn, column_return hcons,
        column_zero hruns, hzero, Nat.zero_add, Nat.div_eq_of_lt hlt, List.map_cons, List.sum_cons,
        Nat.zero_add]
      exact ⟨rfl, rfl⟩
    · have hdrawn : drawn c = true := decide_eq_true ⟨hn, hr⟩
      have hcons := runs_cons hr hruns
      rw [hdrawn, if_pos rfl] at hcons
      rw [if_neg hr, row_runs hcons, newlines_cons, if_neg hn]
      split at hlack
      case isTrue hend =>
        have hsum : n + 1 + lacking xres x = n + perLine xres := by omega
        rw [if_pos hend, row_runs hruns, column_zero hruns, hzero, hsum, Nat.add_div_right _ hpos]
        simp only [Nat.add_zero]
        refine ⟨?_, ?_⟩
        · cases ns with
          | nil =>
            rw [column_single hcons, hsum, if_neg (by omega), Nat.add_mod_right]
            rfl
          | cons m ms => rw [column_return hcons, List.getLastD_cons, List.getLastD_cons,
              List.getLastD_cons]
        · push_cast
          ring
      case isFalse hroom =>
        have hsum : n + 1 + lacking xres x = n + lacking xres (x + 8) := by omega
        rw [if_neg hroom, row_runs hruns, hsum]
        refine ⟨?_, rfl⟩
        cases ns with
        | nil =>
          rw [column_single hcons, column_single hruns, hsum]
          push_cast
          split
          · ring
          · rfl
        | cons m ms => rw [column_return hcons, column_return hruns]

/-! ### The pixels -/

variable {str : List Ascii} {color : BitVec 32} {q : Pixel}

theorem mem_fbPrintChar : q ∈ fbPrintChar x y c color ↔
    ∃ i < 8, ∃ j < 16, isDot c i j = true ∧ q = ⟨x + i, y + j, color⟩ := by
  simp only [fbPrintChar, List.mem_flatMap, List.mem_map, List.mem_filter, List.mem_range]
  constructor
  · rintro ⟨j, hj, i, ⟨hi, hdot⟩, rfl⟩
    exact ⟨i, hi, j, hj, hdot, rfl⟩
  · rintro ⟨i, hi, j, hj, hdot, rfl⟩
    exact ⟨j, hj, i, ⟨hi, hdot⟩, rfl⟩

/-- The pixels of a string are the dots of its characters, each at its place. -/
theorem mem_fbPrintString (hx : 0 ≤ x ∧ x < xres) : q ∈ fbPrintString xres x y str color ↔
    ∃ p c rest, str = p ++ c :: rest ∧ drawn c = true ∧
      q ∈ fbPrintChar (column xres x p) (row xres x y p) c color := by
  induction str generalizing x y with
  | nil => simp [fbPrintString]
  | cons c str ih =>
    rw [fbPrintString_cons, List.mem_append, ih (next_mem hx y c)]
    obtain ⟨hcol, hrow⟩ := place_nil hx y
    constructor
    · rintro (hq | ⟨p, d, rest, rfl, hd, hq⟩)
      · split at hq
        case isTrue hc => exact ⟨[], c, str, rfl, hc, by rwa [hcol, hrow]⟩
        case isFalse => cases hq
      · obtain ⟨hcol', hrow'⟩ := place_cons hx y c p
        exact ⟨c :: p, d, rest, rfl, hd, by rwa [hcol', hrow']⟩
    · rintro ⟨p, d, rest, hstr, hd, hq⟩
      cases p with
      | nil =>
        cases hstr
        rw [hcol, hrow] at hq
        exact .inl (by rwa [if_pos hd])
      | cons c' p =>
        cases hstr
        obtain ⟨hcol', hrow'⟩ := place_cons hx y c p
        exact .inr ⟨p, d, rest, rfl, hd, by rwa [hcol', hrow'] at hq⟩

theorem column_mem (hx : 0 ≤ x ∧ x < xres) (p : List Ascii) :
    0 ≤ column xres x p ∧ column xres x p < xres := by
  induction p generalizing x with
  | nil => rwa [(place_nil hx 0).1]
  | cons c p ih =>
    rw [(place_cons hx 0 c p).1]
    exact ih (next_mem hx 0 c)

theorem le_row (xres x y : ℤ) (p : List Ascii) : y ≤ row xres x y p := by
  unfold row
  split
  · exact le_rfl
  · exact le_add_of_nonneg_right (mul_nonneg (by omega) (Int.natCast_nonneg _))

/-- A character goes down by one line at most. -/
theorem row_le (hx : 0 ≤ x ∧ x < xres) (y : ℤ) (p : List Ascii) :
    row xres x y p ≤ y + 16 * p.length := by
  induction p generalizing x y with
  | nil =>
    rw [(place_nil hx y).2]
    exact le_add_of_nonneg_right (by omega)
  | cons c p ih =>
    have hdown : (next xres x y c).2 ≤ y + 16 := by
      unfold next
      (repeat' split) <;> dsimp only <;> omega
    rw [(place_cons hx y c p).2, List.length_cons]
    refine (ih (next_mem hx y c) _).trans ?_
    omega

/-- A screen of at least 8 by 16 pixels, and where a string begins on it. -/
structure Place where
  /-- The columns. -/
  xres : ℤ
  /-- The rows. -/
  yres : ℤ
  /-- The column it begins in. -/
  x : ℤ
  /-- The row. -/
  y : ℤ
  /-- The screen has room for a character. -/
  size : 8 ≤ xres ∧ 16 ≤ yres
  /-- The column is on the screen. -/
  x_mem : 0 ≤ x ∧ x < xres
  /-- There is room for a line from the row on. -/
  y_mem : 0 ≤ y ∧ y ≤ yres - 16

/-- A pixel is on the screen. -/
def Place.Has (s : Place) (q : Pixel) : Prop := (0 ≤ q.x ∧ q.x < s.xres) ∧ 0 ≤ q.y ∧ q.y < s.yres

/-- On the way through a string the column, the one that is compared with `xres`, and the rows of
the character are never beyond an `int`, if the screen and the lines that the string can have are
together no higher than one. -/
theorem text_isInt (s : Place) {str : List Ascii} (hxres : s.xres + 8 ≤ 2 ^ 31)
    (hyres : s.yres + 16 * str.length ≤ 2 ^ 31) (hp : p <+: str) :
    (0 ≤ column s.xres s.x p ∧ column s.xres s.x p + 8 < 2 ^ 31) ∧
      0 ≤ row s.xres s.x s.y p ∧ row s.xres s.x s.y p + 15 < 2 ^ 31 := by
  have hcol := column_mem s.x_mem p
  have hlow := le_row s.xres s.x s.y p
  have hhigh := row_le s.x_mem s.y p
  have hlength := hp.length_le
  have hy := s.y_mem
  omega

/-- The pixels of a string are on the screen if and only if each character that is drawn has its
dots left of the right edge and above the lower edge at its place. -/
theorem text_onScreen_iff (s : Place) (str : List Ascii) (color : BitVec 32) :
    (∀ q ∈ fbPrintString s.xres s.x s.y str color, s.Has q) ↔
      ∀ p c rest, str = p ++ c :: rest → drawn c = true → ∀ i < 8, ∀ j < 16, isDot c i j = true →
        column s.xres s.x p + i < s.xres ∧ row s.xres s.x s.y p + j < s.yres := by
  constructor
  · intro h p c rest hstr hc i hi j hj hdot
    have hq := h _ ((mem_fbPrintString s.x_mem).mpr ⟨p, c, rest, hstr, hc,
      mem_fbPrintChar.mpr ⟨i, hi, j, hj, hdot, rfl⟩⟩)
    exact ⟨hq.1.2, hq.2.2⟩
  · intro h q hq
    obtain ⟨p, c, rest, hstr, hc, hchar⟩ := (mem_fbPrintString s.x_mem).mp hq
    obtain ⟨i, hi, j, hj, hdot, rfl⟩ := mem_fbPrintChar.mp hchar
    obtain ⟨hright, hbelow⟩ := h p c rest hstr hc i hi j hj hdot
    have hcol : 0 ≤ column s.xres s.x p := (column_mem s.x_mem p).1
    have hrow : s.y ≤ row s.xres s.x s.y p := le_row ..
    have hy := s.y_mem.1
    exact ⟨⟨by show 0 ≤ column s.xres s.x p + i; omega, hright⟩,
      by show 0 ≤ row s.xres s.x s.y p + j; omega, hbelow⟩

/-- A letter in the last column: only its first column is on the screen. -/
theorem text_onScreen_right : ¬ ∀ (s : Place) (str : List Ascii) (color : BitVec 32),
    ∀ q ∈ fbPrintString s.xres s.x s.y str color, s.Has q := by
  intro h
  let s : Place := ⟨480, 272, 479, 0, by omega, by omega, by omega⟩
  let c : Ascii := ⟨ch 'W', by decide, by decide⟩
  obtain ⟨hcol, hrow⟩ := place_nil s.x_mem s.y
  have hq : (⟨480, 2, 0⟩ : Pixel) ∈ fbPrintString s.xres s.x s.y [c] 0 := by
    refine (mem_fbPrintString s.x_mem).mpr ⟨[], c, [], rfl, by decide, ?_⟩
    rw [hcol, hrow]
    exact mem_fbPrintChar.mpr ⟨1, by decide, 2, by decide, by decide, rfl⟩
  exact absurd (h s [c] 0 _ hq).1.2 (by decide)

end S3c2440.Lcd
