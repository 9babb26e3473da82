import S3c2440.Spi.Display

/-!
# Text on the display

`oled.c`: `OLEDPrint` gives each character of a string a place of 8 columns in two pages, and goes
on to the next place, 8 columns on, or where that is behind the last column, at column 0 two pages
below. Whether the place is on the display is not looked at.

The controller of the display, in page addressing mode, is a pointer to a column of a page: commands
set its page and the two halves of its column, and each byte goes to where it points, and moves it
to the next column of the same page, from the last one to the first. Other commands leave it as it
is.

## What is proved

* `oledPrint_eq` — a string is written character by character, each at its place.
* `ownCells_iff` — exactly when all of its bytes go to the places of their own characters;
  `ownCells_below` is a string for which this is not so.
-/

namespace S3c2440.Spi

/-! ### The controller -/

/-- Where the next byte goes. -/
structure Pointer where
  /-- The page. -/
  page : Fin 8
  /-- The column. -/
  col : Fin 128

/-- A command. -/
def Pointer.cmd (p : Pointer) (b : BitVec 8) : Pointer :=
  if b.toNat < 0x10 then { p with col := Fin.ofNat 128 (p.col.val / 16 * 16 + b.toNat) }
  else if b.toNat < 0x20 then
    { p with col := Fin.ofNat 128 ((b.toNat - 0x10) * 16 + p.col.val % 16) }
  else if 0xB0 ≤ b.toNat ∧ b.toNat ≤ 0xB7 then { p with page := Fin.ofNat 8 (b.toNat - 0xB0) }
  else p

/-- The next column. -/
def Pointer.advance (p : Pointer) : Pointer := { p with col := p.col + 1 }

/-- The page and the column each byte goes to. -/
def landed : Pointer → List Write → List (ℕ × ℕ)
  | _, [] => []
  | p, .cmd b :: ws => landed (p.cmd b) ws
  | p, .dat _ :: ws => (p.page.val, p.col.val) :: landed p.advance ws

/-! ### The places of the characters -/

/-- A character with the arguments of its `OLEDPutChar`. -/
structure Placed where
  /-- `page`. -/
  page : ℕ
  /-- `col`. -/
  col : ℕ
  /-- `c`. -/
  c : Printable

/-- The places of a string. -/
def places (page col : ℕ) : List Printable → List Placed
  | [] => []
  | c :: str =>
    ⟨page, col, c⟩ :: if col + 8 > 127 then places (page + 2) 0 str else places page (col + 8) str

/-- What is written for a character. -/
def Placed.writes (k : Placed) : List Write :=
  oledPutChar (BitVec.ofNat 32 k.page) (BitVec.ofNat 32 k.col) k.c

/-- Its 16 cells: 8 columns in two pages, in the order of its bytes. -/
def Placed.cells (k : Placed) : List (ℕ × ℕ) :=
  (List.range' k.col 8).map (Prod.mk k.page) ++ (List.range' k.col 8).map (Prod.mk (k.page + 1))

/-- Where a string begins. -/
structure Start where
  /-- The page. -/
  page : ℕ
  /-- The column. -/
  col : ℕ
  /-- There is a page below. -/
  page_le : page ≤ 6
  /-- There are 8 columns. -/
  col_le : col ≤ 120

/-- What `OLEDPrint` writes there. -/
def Start.print (s : Start) (str : List Printable) : List Write :=
  oledPrint (BitVec.ofNat 32 s.page) (BitVec.ofNat 32 s.col) str

/-- A command sets a half of the column, or a page of the display. -/
def Fine (b : BitVec 8) : Prop := b.toNat < 0x20 ∨ 0xB0 ≤ b.toNat ∧ b.toNat ≤ 0xB7

/-- The bytes of a string go to the cells of their characters. -/
structure OwnCells (s : Start) (str : List Printable) : Prop where
  /-- Every page that is set is one of the display. -/
  pages : ∀ b, .cmd b ∈ s.print str → Fine b
  /-- Each byte goes to a cell of its own character. -/
  cells : ∀ p, landed p (s.print str) = (places s.page s.col str).flatMap Placed.cells
  /-- No two characters share a cell. -/
  apart : (places s.page s.col str).Pairwise fun k l => ∀ a ∈ k.cells, a ∉ l.cells

/-- How many characters there is room for. -/
def capacity (page col : ℕ) : ℕ :=
  if page ≤ 6 then (128 - col) / 8 + if col % 8 = 0 then 16 * ((6 - page) / 2) else 0 else 0

variable {p : Pointer} {page col : ℕ} {str : List Printable} {ws vs : List Write}

theorem slt_ofNat (h : col ≤ 127) :
    BitVec.slt 127 (BitVec.ofNat 32 col + 8) = decide (col + 8 > 127) := by
  have hall : ∀ col < 128, BitVec.slt 127 (BitVec.ofNat 32 col + 8) = decide (col + 8 > 127) := by
    decide
  exact hall col (Nat.lt_succ_of_le h)

/-- A string is written character by character. -/
theorem oledPrint_eq (page : ℕ) (hcol : col ≤ 127) (str : List Printable) :
    oledPrint (BitVec.ofNat 32 page) (BitVec.ofNat 32 col) str =
      (places page col str).flatMap Placed.writes := by
  induction str generalizing page col with
  | nil => rfl
  | cons c str ih =>
    rw [oledPrint, places, List.flatMap_cons, slt_ofNat hcol]
    refine congrArg (oledPutChar _ _ c ++ ·) ?_
    by_cases hend : col + 8 > 127
    · have hpage : BitVec.ofNat 32 page + 2 = BitVec.ofNat 32 (page + 2) :=
        (BitVec.ofNat_add ..).symm
      rw [if_pos (decide_eq_true hend), if_pos hend, hpage]
      exact ih (page + 2) (Nat.zero_le _)
    · have hnext : BitVec.ofNat 32 col + 8 = BitVec.ofNat 32 (col + 8) := (BitVec.ofNat_add ..).symm
      rw [if_neg (by rwa [decide_eq_true_iff]), if_neg hend, hnext]
      exact ih page (by omega)

/-- The room behind the last place of a line. -/
theorem lt_capacity_wrap {n : ℕ} (hend : 127 < col + 8) (hcol : col ≤ 127) :
    n + 1 ≤ capacity page col ↔ (page ≤ 6 ∧ col ≤ 120) ∧ n ≤ capacity (page + 2) 0 := by
  unfold capacity
  by_cases hpage : page ≤ 6
  · rw [if_pos hpage]
    by_cases hplace : col ≤ 120
    · obtain rfl : col = 120 := by omega
      split_ifs <;> omega
    · -- no place begins there
      rw [Nat.div_eq_of_lt (by omega)]
      split <;> omega
  · rw [if_neg hpage]
    omega

/-- The room behind another place. -/
theorem lt_capacity_next {n : ℕ} (hcol : col + 8 ≤ 127) :
    n + 1 ≤ capacity page col ↔ (page ≤ 6 ∧ col ≤ 120) ∧ n ≤ capacity page (col + 8) := by
  have hdiv : (128 - col) / 8 = (128 - (col + 8)) / 8 + 1 := by omega
  unfold capacity
  rw [Nat.add_mod_right, hdiv]
  split <;> omega

/-- Each place is on the display if and only if there is room for all of them. -/
theorem forall_places_iff (page : ℕ) (hcol : col ≤ 127) (str : List Printable) :
    (∀ k ∈ places page col str, k.page ≤ 6 ∧ k.col ≤ 120) ↔ str.length ≤ capacity page col := by
  induction str generalizing page col with
  | nil => exact iff_of_true (fun k hk => nomatch hk) (Nat.zero_le _)
  | cons c str ih =>
    rw [places, List.forall_mem_cons, List.length_cons]
    by_cases hend : col + 8 > 127
    · rw [if_pos hend, ih (page + 2) (Nat.zero_le _), lt_capacity_wrap hend hcol]
    · rw [if_neg hend, ih page (by omega), lt_capacity_next (Nat.le_of_not_lt hend)]

theorem mem_cells {k : Placed} {a : ℕ × ℕ} : a ∈ k.cells ↔
    (a.1 = k.page ∨ a.1 = k.page + 1) ∧ k.col ≤ a.2 ∧ a.2 < k.col + 8 := by
  obtain ⟨i, j⟩ := a
  simp only [Placed.cells, List.mem_append, List.mem_map, List.mem_range'_1, Prod.mk.injEq,
    exists_eq_right_right]
  omega

/-- The characters after one are 8 columns on, or two pages below. -/
theorem le_places {k : Placed} (hk : k ∈ places page col str) :
    k.page = page ∧ col ≤ k.col ∨ page + 2 ≤ k.page := by
  induction str generalizing page col with
  | nil => cases hk
  | cons c str ih =>
    rw [places] at hk
    rcases List.mem_cons.mp hk with rfl | hk
    · exact .inl ⟨rfl, le_rfl⟩
    · split at hk
      · have hle := ih hk
        omega
      · have hle := ih hk
        omega

/-- No two characters share a cell. -/
theorem pairwise_places (page col : ℕ) (str : List Printable) :
    (places page col str).Pairwise fun k l => ∀ a ∈ k.cells, a ∉ l.cells := by
  induction str generalizing page col with
  | nil => exact .nil
  | cons c str ih =>
    rw [places, List.pairwise_cons]
    constructor
    · intro l hl a hk hl'
      rw [mem_cells] at hk hl'
      dsimp only at hk
      split at hl
      · have hle := le_places hl
        omega
      · have hle := le_places hl
        omega
    · split
      · exact ih (page + 2) 0
      · exact ih page (col + 8)

/-! ### The cells -/

theorem advance_col (h : p.col.val + 1 < 128) : p.advance.col.val = p.col.val + 1 := by
  show (p.col.val + 1) % 128 = p.col.val + 1
  exact Nat.mod_eq_of_lt h

/-- Bytes for which there is room go to one column after the other. -/
theorem landed_dat (bs : List (BitVec 8)) (h : p.col.val + bs.length ≤ 128) (ws : List Write) :
    ∃ q, landed p (bs.map .dat ++ ws) =
      (List.range' p.col.val bs.length).map (Prod.mk p.page.val) ++ landed q ws := by
  induction bs generalizing p with
  | nil => exact ⟨p, rfl⟩
  | cons b bs ih =>
    rw [List.length_cons] at h
    rw [List.map_cons, List.cons_append, landed, List.length_cons, List.range'_succ, List.map_cons]
    cases bs with
    | nil => exact ⟨p.advance, rfl⟩
    | cons b' bs =>
      rw [List.length_cons] at h
      have hcol := advance_col (p := p) (by omega)
      obtain ⟨q, hq⟩ := ih (p := p.advance) (by rw [hcol, List.length_cons]; omega)
      rw [hcol] at hq
      exact ⟨q, by rw [hq]; rfl⟩

/-- The commands of a position. -/
theorem oledSetPos_toNat (hpage : page ≤ 9) (hcol : col < 128) :
    ((0xB0 + BitVec.ofNat 32 page).setWidth 8).toNat = 0xB0 + page ∧
      ((BitVec.ofNat 32 col &&& 0xf).setWidth 8).toNat = col % 16 ∧
      ((0x10 + (BitVec.ofNat 32 col).sshiftRight 4).setWidth 8).toNat = 0x10 + col / 16 := by
  have hpages : ∀ page < 10, ((0xB0 + BitVec.ofNat 32 page).setWidth 8).toNat = 0xB0 + page := by
    decide
  have hcols : ∀ col < 128, ((BitVec.ofNat 32 col &&& 0xf).setWidth 8).toNat = col % 16 ∧
      ((0x10 + (BitVec.ofNat 32 col).sshiftRight 4).setWidth 8).toNat = 0x10 + col / 16 := by
    decide
  exact ⟨hpages page (Nat.lt_succ_of_le hpage), hcols col hcol⟩

section Commands

variable {b : BitVec 8} {n : ℕ}

theorem cmd_low (h : b.toNat = n) (hn : n < 0x10) (p : Pointer) :
    p.cmd b = { p with col := Fin.ofNat 128 (p.col.val / 16 * 16 + n) } := by
  rw [Pointer.cmd, h, if_pos hn]

theorem cmd_high (h : b.toNat = 0x10 + n) (hn : n < 0x10) (p : Pointer) :
    p.cmd b = { p with col := Fin.ofNat 128 (n * 16 + p.col.val % 16) } := by
  rw [Pointer.cmd, h, if_neg (by omega), if_pos (by omega), Nat.add_sub_cancel_left]

theorem cmd_page (h : b.toNat = 0xB0 + n) (hn : n < 8) (p : Pointer) :
    p.cmd b = { p with page := ⟨n, hn⟩ } := by
  have hval : Fin.ofNat 8 n = ⟨n, hn⟩ := Fin.ext (Nat.mod_eq_of_lt hn)
  rw [Pointer.cmd, h, if_neg (by omega), if_neg (by omega), if_pos (by omega),
    Nat.add_sub_cancel_left, hval]

end Commands

/-- `OLEDSetPos` sets the page and the column. -/
theorem landed_oledSetPos (hpage : page < 8) (hcol : col < 128) (p : Pointer) (ws : List Write) :
    landed p (oledSetPos (BitVec.ofNat 32 page) (BitVec.ofNat 32 col) ++ ws) =
      landed ⟨⟨page, hpage⟩, ⟨col, hcol⟩⟩ ws := by
  obtain ⟨hp, hlow, hhigh⟩ := oledSetPos_toNat (show page ≤ 9 by omega) hcol
  have hval : ∀ m : ℕ, Fin.ofNat 128 (col / 16 * 16 +
      (Fin.ofNat 128 (m / 16 * 16 + col % 16)).val % 16) = (⟨col, hcol⟩ : Fin 128) := by
    intro m
    refine Fin.ext ?_
    show (col / 16 * 16 + (m / 16 * 16 + col % 16) % 128 % 16) % 128 = col
    omega
  simp only [oledSetPos, List.cons_append, List.nil_append, landed, cmd_page hp hpage,
    cmd_low hlow (Nat.mod_lt _ (by omega)), cmd_high hhigh (by omega), hval]

/-- Eight bytes behind a position go to the eight columns from it on. -/
theorem landed_row (hpage : page < 8) (hcol : col ≤ 120) (f : ℕ → BitVec 8) (p : Pointer)
    (ws : List Write) :
    ∃ q, landed p (oledSetPos (BitVec.ofNat 32 page) (BitVec.ofNat 32 col) ++
        ((List.range 8).map (fun i => Write.dat (f i)) ++ ws)) =
      (List.range' col 8).map (Prod.mk page) ++ landed q ws := by
  have hlt : col < 128 := by omega
  have hmap : (List.range 8).map (fun i => Write.dat (f i)) = ((List.range 8).map f).map .dat :=
    List.map_map.symm
  have hlen : ((List.range 8).map f).length = 8 := by rw [List.length_map, List.length_range]
  obtain ⟨q, hq⟩ := landed_dat ((List.range 8).map f) (p := ⟨⟨page, hpage⟩, ⟨col, hlt⟩⟩)
    (by rw [hlen]; exact Nat.add_le_add_right hcol 8) ws
  rw [hlen] at hq
  rw [landed_oledSetPos hpage hlt, hmap]
  exact ⟨q, hq⟩

/-- The bytes of a character go to its cells. -/
theorem landed_writes {k : Placed} (hpage : k.page ≤ 6) (hcol : k.col ≤ 120) (p : Pointer)
    (ws : List Write) : ∃ q, landed p (k.writes ++ ws) = k.cells ++ landed q ws := by
  have hnext : BitVec.ofNat 32 k.page + 1 = BitVec.ofNat 32 (k.page + 1) :=
    (BitVec.ofNat_add ..).symm
  rw [Placed.writes, oledPutChar, hnext, List.append_assoc, List.append_assoc, List.append_assoc]
  obtain ⟨q, hq⟩ := landed_row (show k.page < 8 by omega) hcol (dot k.c) p
    (oledSetPos (BitVec.ofNat 32 (k.page + 1)) (BitVec.ofNat 32 k.col) ++
      ((List.range 8).map (fun i => Write.dat (dot k.c (i + 8))) ++ ws))
  obtain ⟨r, hr⟩ := landed_row (show k.page + 1 < 8 by omega) hcol (fun i => dot k.c (i + 8)) q ws
  exact ⟨r, by rw [hq, hr, Placed.cells, List.append_assoc]⟩

/-- Where there is room for them, all bytes go to the cells of their characters. -/
theorem landed_places {ks : List Placed} (h : ∀ k ∈ ks, k.page ≤ 6 ∧ k.col ≤ 120) (p : Pointer) :
    landed p (ks.flatMap Placed.writes) = ks.flatMap Placed.cells := by
  induction ks generalizing p with
  | nil => rfl
  | cons k ks ih =>
    obtain ⟨⟨hpage, hcol⟩, hks⟩ := List.forall_mem_cons.mp h
    obtain ⟨q, hq⟩ := landed_writes hpage hcol p (ks.flatMap Placed.writes)
    rw [List.flatMap_cons, List.flatMap_cons, hq, ih hks]

/-- No byte goes behind the last column. -/
theorem landed_lt (p : Pointer) (ws : List Write) : ∀ a ∈ landed p ws, a.2 < 128 := by
  induction ws generalizing p with
  | nil => exact fun a ha => nomatch ha
  | cons w ws ih =>
    cases w with
    | cmd b => exact ih (p.cmd b)
    | dat b => exact List.forall_mem_cons.mpr ⟨p.col.isLt, ih p.advance⟩

/-- The commands of a character. -/
theorem cmd_mem_writes {k : Placed} {b : BitVec 8} : .cmd b ∈ k.writes ↔
    .cmd b ∈ oledSetPos (BitVec.ofNat 32 k.page) (BitVec.ofNat 32 k.col) ∨
      .cmd b ∈ oledSetPos (BitVec.ofNat 32 (k.page + 1)) (BitVec.ofNat 32 k.col) := by
  have hnext : BitVec.ofNat 32 k.page + 1 = BitVec.ofNat 32 (k.page + 1) :=
    (BitVec.ofNat_add ..).symm
  rw [Placed.writes, oledPutChar, hnext]
  simp only [List.mem_append, List.mem_map, reduceCtorEq, and_false, exists_false, or_false]

/-- The commands of a position are fine if and only if the page is one of the display. -/
theorem fine_oledSetPos (hpage : page ≤ 9) (hcol : col < 128) :
    (∀ b, .cmd b ∈ oledSetPos (BitVec.ofNat 32 page) (BitVec.ofNat 32 col) → Fine b) ↔
      page ≤ 7 := by
  obtain ⟨hp, hlow, hhigh⟩ := oledSetPos_toNat hpage hcol
  simp only [oledSetPos, List.mem_cons, Write.cmd.injEq, List.not_mem_nil, or_false,
    forall_eq_or_imp, forall_eq, Fine, hp, hlow, hhigh]
  omega

/-- If all pages that are set are on the display, both pages of each character are. -/
theorem page_le_of_fine (hpage : page ≤ 8) (hcol : col ≤ 127)
    (h : ∀ k ∈ places page col str, ∀ b, .cmd b ∈ k.writes → Fine b) :
    ∀ k ∈ places page col str, k.page ≤ 6 := by
  induction str generalizing page col with
  | nil => exact fun k hk => nomatch hk
  | cons c str ih =>
    rw [places] at h ⊢
    obtain ⟨hk, hks⟩ := List.forall_mem_cons.mp h
    have hle : page + 1 ≤ 7 := (fine_oledSetPos (by omega) (Nat.lt_succ_of_le hcol)).mp
      fun b hb => hk b (cmd_mem_writes.mpr (.inr hb))
    refine List.forall_mem_cons.mpr ⟨Nat.le_of_succ_le_succ hle, ?_⟩
    by_cases hend : col + 8 > 127
    · rw [if_pos hend] at hks ⊢
      exact ih (by omega) (Nat.zero_le _) hks
    · rw [if_neg hend] at hks ⊢
      exact ih (by omega) (by omega) hks

/-- All bytes go to the cells of their characters if and only if there is room for each one. -/
theorem ownCells_places (s : Start) (str : List Printable) : OwnCells s str ↔
    ∀ k ∈ places s.page s.col str, k.page ≤ 6 ∧ k.col ≤ 120 := by
  have hpage := s.page_le
  have hcol := s.col_le
  have hprint : s.print str = (places s.page s.col str).flatMap Placed.writes :=
    oledPrint_eq s.page (by omega) str
  constructor
  · intro h k hk
    constructor
    · refine page_le_of_fine (by omega) (by omega) (fun l hl b hb => h.pages b ?_) k hk
      rw [hprint]
      exact List.mem_flatMap.mpr ⟨l, hl, hb⟩
    · -- the last column of the character
      have hlast : (k.page, k.col + 7) ∈ k.cells :=
        mem_cells.mpr ⟨.inl rfl, Nat.le_add_right _ _, Nat.lt_succ_self _⟩
      have hlt := landed_lt ⟨0, 0⟩ (s.print str) (k.page, k.col + 7) (by
        rw [h.cells]
        exact List.mem_flatMap.mpr ⟨k, hk, hlast⟩)
      exact Nat.le_of_lt_succ (Nat.lt_of_add_lt_add_right hlt)
  · intro h
    refine ⟨fun b hb => ?_, fun p => by rw [hprint]; exact landed_places h p, pairwise_places ..⟩
    rw [hprint] at hb
    obtain ⟨k, hk, hb⟩ := List.mem_flatMap.mp hb
    obtain ⟨hp, hc⟩ := h k hk
    rcases cmd_mem_writes.mp hb with hb | hb
    · exact (fine_oledSetPos (by omega) (by omega)).mpr (by omega) b hb
    · exact (fine_oledSetPos (by omega) (by omega)).mpr (by omega) b hb

/-- The bytes of a string go to the cells of their characters if and only if it ends in the line it
begins in, or begins in a column that is a multiple of 8, and ends on the display. -/
theorem ownCells_iff (s : Start) (str : List Printable) : OwnCells s str ↔
    str.length ≤ (128 - s.col) / 8 ∨
      8 ∣ s.col ∧ str.length ≤ (128 - s.col) / 8 + 16 * ((6 - s.page) / 2) := by
  have hcol := s.col_le
  rw [ownCells_places, forall_places_iff s.page (by omega), capacity, if_pos s.page_le]
  split <;> omega

/-- Seventeen characters do not fit into the last two pages. -/
theorem ownCells_below : ¬ ∀ (s : Start) (str : List Printable), OwnCells s str := by
  intro h
  have hplaces := (ownCells_places _ _).mp
    (h ⟨6, 0, by decide, by decide⟩ (List.replicate 17 ⟨0x41, by decide⟩))
  rw [forall_places_iff 6 (by decide)] at hplaces
  exact absurd hplaces (by decide)

end S3c2440.Spi
