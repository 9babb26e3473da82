import S3c2440.Nand.Chip
import S3c2440.Theory.Loop
import Mathlib.Data.List.Range

/-!
# Reading the NAND flash

`nand_read` copies `len` bytes from an address on, block after block, and leaves out the
blocks whose first page is marked bad. Its three cursors (`addr`, the column, and the
index into the buffer) are `unsigned int` and `int`; `addr` is kept modulo `2 ^ 32`, the
other two stay small. A chip without good blocks would keep it running for ever, so
its loop is run with a number of turns to spare.

## What is proved

* `goodFrom` lists the addresses in good blocks from an address on; `image_eq` — read one
  after the other they are the good blocks, one after the other.
* `readBody_keeps` — a turn of the loop preserves that the buffer holds as much of that
  list as there are bytes in it, and that the rest of the list is what is ahead of `addr`.
* `nand_read_image` — the loop ends, and the buffer holds the beginning of the image.
-/

namespace S3c2440.Nand

open Theory

/-! ### The function -/

/-- The variables of `nand_read`, the caller's buffer, and the chip. -/
structure Reading where
  /-- `addr`. -/
  addr : ℕ
  /-- `col`. -/
  col : ℕ
  /-- `i`. -/
  i : ℕ
  /-- `buf`. -/
  buf : ℕ → BitVec 8
  /-- The chip. -/
  nfc : Nfc

variable (f : Flash) (len : ℕ)

/-- `for (; (col < 2048) && (i < len); col++)`, with its body. -/
def copyBytes (s : Reading) : Reading :=
  if s.col < 2048 ∧ s.i < len then
    let (val, nfc) := nandData f s.nfc
    copyBytes
      { addr := (s.addr + 1) % 2 ^ 32
        col := s.col + 1
        i := s.i + 1
        buf := Function.update s.buf s.i val
        nfc := nfc }
  else s
  termination_by 2048 - s.col

/-- The body of the `while` loop from `nand_select` on. -/
def readPage (s : Reading) : Reading :=
  let nfc := nandSelect s.nfc
  let nfc := nandCmd f nfc 0x00
  let nfc := nandAddr nfc s.addr
  let nfc := nandCmd f nfc 0x30
  let nfc := nandWaitReady nfc
  let s := copyBytes f len { s with nfc := nfc }
  { s with col := 0, nfc := nandDeselect s.nfc }

/-- The body of the `while` loop; a bad block is asked for only at its beginning, and skipped
by `continue`. -/
def readBody (s : Reading) : Reading :=
  if s.addr &&& 0x1FFFF = 0 then
    let (bad, nfc) := nandBad f s.nfc s.addr
    if bad ≠ 0 then { s with addr := (s.addr + 128 * 1024) % 2 ^ 32, nfc := nfc }
    else readPage f len { s with nfc := nfc }
  else readPage f len s

/-- `nand_read`, for at most `fuel` turns. -/
def nandRead (fuel : ℕ) (nfc : Nfc) (addr : ℕ) (buf : ℕ → BitVec 8) : Option Reading :=
  whileLoop (fun s => s.i < len) (readBody f len) fuel
    { addr := addr, col := addr % 2048, i := 0, buf := buf, nfc := nfc }

/-! ### What is on the chip -/

/-- The byte at an address. -/
def Flash.byteAt (a : ℕ) : BitVec 8 := f.page (a / 2048) (a % 2048)

/-- The block is not marked bad. -/
def Flash.good (block : ℕ) : Bool := f.page (block * 64) 2048 = 0xff

/-- The addresses below `2 ^ 31` in good blocks, from `a` on. -/
def Flash.goodFrom (a : ℕ) : List ℕ :=
  (List.range' a (2 ^ 31 - a)).filter fun b => f.good (b / 2 ^ 17)

/-- The good blocks at or after an address, one after the other. -/
def Flash.image (a : ℕ) : List (BitVec 8) :=
  ((List.range' (a / 2 ^ 17) (2 ^ 14 - a / 2 ^ 17)).filter f.good).flatMap fun block =>
    (List.range' (block * 2 ^ 17) (2 ^ 17)).map f.byteAt

variable {f len}

/-- In a good block the next `n` addresses are the next on the list. -/
theorem goodFrom_run {a n : ℕ} (hn : a + n ≤ 2 ^ 31)
    (hgood : ∀ b, a ≤ b → b < a + n → f.good (b / 2 ^ 17) = true) :
    f.goodFrom a = List.range' a n ++ f.goodFrom (a + n) := by
  have hsplit : List.range' a (2 ^ 31 - a) =
      List.range' a n ++ List.range' (a + n) (2 ^ 31 - (a + n)) := by
    rw [List.range'_append_1]
    congr 1
    omega
  rw [Flash.goodFrom, hsplit, List.filter_append, List.filter_eq_self.mpr, Flash.goodFrom]
  intro b hb
  rw [List.mem_range'_1] at hb
  exact hgood b hb.1 hb.2

/-- A bad block has none of them. -/
theorem goodFrom_skip {a n : ℕ} (hn : a + n ≤ 2 ^ 31)
    (hbad : ∀ b, a ≤ b → b < a + n → f.good (b / 2 ^ 17) = false) :
    f.goodFrom a = f.goodFrom (a + n) := by
  have hsplit : List.range' a (2 ^ 31 - a) =
      List.range' a n ++ List.range' (a + n) (2 ^ 31 - (a + n)) := by
    rw [List.range'_append_1]
    congr 1
    omega
  rw [Flash.goodFrom, hsplit, List.filter_append, List.filter_eq_nil_iff.mpr, List.nil_append,
    Flash.goodFrom]
  intro b hb
  rw [List.mem_range'_1] at hb
  rw [hbad b hb.1 hb.2]
  decide

theorem goodFrom_end {a : ℕ} (h : 2 ^ 31 ≤ a) : f.goodFrom a = [] := by
  rw [Flash.goodFrom, Nat.sub_eq_zero_of_le h]
  rfl

/-- Address by address or block by block, it is the same image. -/
theorem image_eq {a : ℕ} (ha : a % 2 ^ 17 = 0) (hle : a ≤ 2 ^ 31) :
    f.image a = (f.goodFrom a).map f.byteAt := by
  obtain ⟨k, rfl⟩ : ∃ k, a = k * 2 ^ 17 := ⟨a / 2 ^ 17, by omega⟩
  rw [Flash.image, Nat.mul_div_cancel k (by omega)]
  have hk : k ≤ 2 ^ 14 := by omega
  obtain ⟨n, hn⟩ : ∃ n, 2 ^ 14 - k = n := ⟨_, rfl⟩
  rw [hn]
  clear ha hle
  induction n generalizing k with
  | zero => rw [goodFrom_end (by omega)]; rfl
  | succ n ih =>
    have hblock : ∀ b, k * 2 ^ 17 ≤ b → b < k * 2 ^ 17 + 2 ^ 17 → b / 2 ^ 17 = k :=
      fun b _ _ => by omega
    rw [List.range'_succ, List.filter_cons]
    cases hg : f.good k with
    | true =>
      rw [if_pos rfl, List.flatMap_cons, ih (k + 1) (by omega) (by omega),
        goodFrom_run (a := k * 2 ^ 17) (n := 2 ^ 17) (by omega) fun b h₁ h₂ => by
          rw [hblock b h₁ h₂, hg],
        List.map_append, Nat.succ_mul]
    | false =>
      rw [if_neg (by decide), ih (k + 1) (by omega) (by omega),
        goodFrom_skip (a := k * 2 ^ 17) (n := 2 ^ 17) (by omega) fun b h₁ h₂ => by
          rw [hblock b h₁ h₂, hg],
        Nat.succ_mul]

/-- What is known of the list of good addresses bounds the image. -/
theorem le_length_image {a : ℕ} {l r : List ℕ} (ha : a % 2 ^ 17 = 0) (hle : a ≤ 2 ^ 31)
    (h : f.goodFrom a = l ++ r) : l.length ≤ (f.image a).length := by
  rw [image_eq ha hle, List.length_map, h, List.length_append]
  exact Nat.le_add_right _ _

/-! ### A turn of the loop -/

/-- The copying of a page: `n` bytes, up to the end of the page or of the buffer. -/
theorem copyBytes_run {row : ℕ} (n : ℕ) {s : Reading} (hn : min (2048 - s.col) (len - s.i) = n)
    (hs : s.nfc.Streams row s.col) (haddr : s.addr < 2 ^ 32) :
    (copyBytes f len s).addr = (s.addr + n) % 2 ^ 32 ∧ (copyBytes f len s).i = s.i + n ∧
      ∀ k, (copyBytes f len s).buf k =
        if s.i ≤ k ∧ k < s.i + n then f.page row (s.col + (k - s.i)) else s.buf k := by
  induction n generalizing s with
  | zero =>
    rw [copyBytes, if_neg (by omega)]
    exact ⟨(Nat.mod_eq_of_lt haddr).symm, rfl, fun k => (if_neg (by omega)).symm⟩
  | succ n ih =>
    obtain ⟨hval, hstreams⟩ := data_of_streams (f := f) hs
    rw [copyBytes, if_pos (by omega)]
    obtain ⟨ha, hi, hbuf⟩ := ih (s := ⟨(s.addr + 1) % 2 ^ 32, s.col + 1, s.i + 1,
      Function.update s.buf s.i (nandData f s.nfc).1, (nandData f s.nfc).2⟩)
      (by show min (2048 - (s.col + 1)) (len - (s.i + 1)) = n; omega) hstreams
      (by show (s.addr + 1) % 2 ^ 32 < 2 ^ 32; omega)
    refine ⟨?_, ?_, fun k => ?_⟩
    · rw [ha]
      show ((s.addr + 1) % 2 ^ 32 + n) % 2 ^ 32 = _
      omega
    · rw [hi]
      show s.i + 1 + n = _
      omega
    · rw [hbuf k]
      show (if s.i + 1 ≤ k ∧ k < s.i + 1 + n then f.page row (s.col + 1 + (k - (s.i + 1)))
        else Function.update s.buf s.i (nandData f s.nfc).1 k) = _
      by_cases hk : k = s.i
      · subst hk
        rw [if_neg (by omega), Function.update_self, if_pos (by omega), hval, Nat.sub_self,
          Nat.add_zero]
      · rw [Function.update_of_ne hk]
        by_cases hin : s.i + 1 ≤ k ∧ k < s.i + 1 + n
        · rw [if_pos hin, if_pos (by omega)]
          congr 1
          omega
        · rw [if_neg hin, if_neg (by omega)]

/-- A turn that reads: `n` bytes from `addr` on, whatever the chip was doing. -/
theorem readPage_run (n : ℕ) {s : Reading} (hn : min (2048 - s.col) (len - s.i) = n)
    (hcol : s.col = s.addr % 2048) (haddr : s.addr < 2 ^ 32) :
    (readPage f len s).addr = (s.addr + n) % 2 ^ 32 ∧ (readPage f len s).i = s.i + n ∧
      ∀ k, (readPage f len s).buf k =
        if s.i ≤ k ∧ k < s.i + n then f.byteAt (s.addr + (k - s.i)) else s.buf k := by
  have hstreams : (nandOpen f s.nfc s.addr).Streams (s.addr / 2048) s.col := by
    rw [hcol]
    exact streams_open haddr
  obtain ⟨ha, hi, hbuf⟩ := copyBytes_run (f := f) n
    (s := { s with nfc := nandOpen f s.nfc s.addr }) hn hstreams haddr
  refine ⟨ha, hi, fun k => (hbuf k).trans ?_⟩
  by_cases hk : s.i ≤ k ∧ k < s.i + n
  · rw [if_pos hk, if_pos (by exact hk), Flash.byteAt]
    show f.page _ (s.col + (k - s.i)) = _
    congr 1 <;> omega
  · rw [if_neg hk, if_neg (by exact hk)]

/-- The same where `addr` does not go round. -/
theorem readPage_eq (n : ℕ) {s : Reading} (hn : min (2048 - s.col) (len - s.i) = n)
    (hcol : s.col = s.addr % 2048) (haddr : s.addr + n < 2 ^ 32) :
    (readPage f len s).addr = s.addr + n ∧ (readPage f len s).i = s.i + n ∧
      ∀ k, (readPage f len s).buf k =
        if s.i ≤ k ∧ k < s.i + n then f.byteAt (s.addr + (k - s.i)) else s.buf k := by
  obtain ⟨ha, hrest⟩ := readPage_run (f := f) n hn hcol (Nat.lt_of_le_of_lt (s.addr.le_add_right n)
    haddr)
  exact ⟨ha.trans (Nat.mod_eq_of_lt haddr), hrest⟩

/-- What holds before every turn: the buffer has the first `i` bytes of the image from `start`
on, the others are ahead of `addr`, and a block that has been entered is good. -/
structure Copied (f : Flash) (len start : ℕ) (buf : ℕ → BitVec 8) (s : Reading) : Prop where
  /-- No byte too many. -/
  le : s.i ≤ len
  /-- What is still to come. -/
  rest : (f.goodFrom start).drop s.i = f.goodFrom s.addr
  /-- Where the next page is read from. -/
  col : s.i < len → s.col = s.addr % 2048
  /-- A block is entered at its beginning, and only if it is good. -/
  block : s.i < len → s.addr % 2 ^ 17 ≠ 0 → f.good (s.addr / 2 ^ 17) = true
  /-- What has been copied. -/
  copied : ∀ k < s.i, ((f.goodFrom start)[k]?).map f.byteAt = some (s.buf k)
  /-- The rest of memory is untouched. -/
  kept : ∀ k, s.i ≤ k → s.buf k = buf k

variable {start : ℕ} {buf : ℕ → BitVec 8} {s : Reading}

/-- While bytes are missing, there are good blocks ahead. -/
theorem Copied.addr_lt (h : Copied f len start buf s) (hlen : len ≤ (f.goodFrom start).length)
    (hi : s.i < len) : s.addr < 2 ^ 31 := by
  by_contra hge
  have hrest := congrArg List.length (h.rest.trans (goodFrom_end (by omega)))
  rw [List.length_drop, List.length_nil] at hrest
  omega

/-- After `n` bytes of a good block. -/
theorem Copied.forward {t : Reading} {n : ℕ} (h : Copied f len start buf s) (hi : s.i + n ≤ len)
    (hend : s.addr + n ≤ 2 ^ 31)
    (hgood : ∀ b, s.addr ≤ b → b < s.addr + n → f.good (b / 2 ^ 17) = true)
    (haddr : t.addr = s.addr + n) (hti : t.i = s.i + n)
    (hbuf : ∀ k, t.buf k =
      if s.i ≤ k ∧ k < s.i + n then f.byteAt (s.addr + (k - s.i)) else s.buf k)
    (hcol : s.i + n < len → t.col = (s.addr + n) % 2048)
    (hblock : s.i + n < len → (s.addr + n) % 2 ^ 17 ≠ 0 →
      f.good ((s.addr + n) / 2 ^ 17) = true) : Copied f len start buf t where
  le := by omega
  rest := by
    rw [hti, haddr, ← List.drop_drop, h.rest, goodFrom_run hend hgood]
    exact List.drop_left' List.length_range'
  col := by rw [hti, haddr]; exact hcol
  block := by rw [hti, haddr]; exact hblock
  copied := by
    intro k hk
    rw [hbuf k]
    by_cases hin : s.i ≤ k ∧ k < s.i + n
    · have hget : (f.goodFrom start)[k]? = some (s.addr + (k - s.i)) := by
        have hd : ((f.goodFrom start).drop s.i)[k - s.i]? = some (s.addr + (k - s.i)) := by
          rw [h.rest, goodFrom_run hend hgood, List.getElem?_append_left (by simp; omega),
            List.getElem?_range' (by omega)]
          simp
        rwa [List.getElem?_drop, Nat.add_sub_cancel' hin.1] at hd
      rw [if_pos hin, hget, Option.map_some]
    · rw [if_neg hin]
      exact h.copied k (by omega)
  kept := by
    intro k hk
    rw [hbuf k, if_neg (by omega)]
    exact h.kept k (by omega)

/-- A page of a good block. -/
theorem readPage_keeps (h : Copied f len start buf s) (hlen : len ≤ (f.goodFrom start).length)
    (hi : s.i < len) (hgood : f.good (s.addr / 2 ^ 17) = true) :
    Copied f len start buf (readPage f len s) ∧ s.addr < (readPage f len s).addr := by
  have hlt := h.addr_lt hlen hi
  have hcol := h.col hi
  obtain ⟨n, hn⟩ : ∃ n, min (2048 - s.col) (len - s.i) = n := ⟨_, rfl⟩
  have hsame : ∀ b, s.addr ≤ b → b / 2048 = s.addr / 2048 → f.good (b / 2 ^ 17) = true := by
    intro b _ hb
    rwa [show b / 2 ^ 17 = s.addr / 2 ^ 17 by omega]
  obtain ⟨ha, hti, hbuf⟩ := readPage_eq (f := f) n hn hcol (by omega)
  refine ⟨h.forward (by omega) (by omega) (fun b h₁ h₂ => hsame b h₁ (by omega)) ha hti hbuf
    (fun hlt' => ?_) fun hlt' hne => ?_, by omega⟩
  · show 0 = _
    omega
  · rw [show (s.addr + n) / 2 ^ 17 = s.addr / 2 ^ 17 by omega]
    exact hgood

/-- The test for the beginning of a block. -/
theorem and_block (a : ℕ) : a &&& 0x1FFFF = a % 2 ^ 17 := Nat.and_two_pow_sub_one_eq_mod a 17

/-- At the beginning of a block `nand_bad` says what is marked. -/
theorem nandBad_of_start {nfc : Nfc} {a : ℕ} (ha : a < 2 ^ 32) (hstart : a % 2 ^ 17 = 0) :
    (nandBad f nfc a).1 = if f.good (a / 2 ^ 17) = true then 0 else 1 := by
  rw [nandBad_eq ha, Flash.good, show a / 2 ^ 17 * 64 = a / 2048 by omega]
  simp only [decide_eq_true_eq, ne_eq, ite_not]

theorem readBody_of_good (hstart : s.addr % 2 ^ 17 = 0) (hbad : (nandBad f s.nfc s.addr).1 = 0) :
    readBody f len s = readPage f len { s with nfc := (nandBad f s.nfc s.addr).2 } := by
  rw [readBody, and_block, if_pos hstart]
  exact if_neg (not_not_intro hbad)

theorem readBody_of_bad (hstart : s.addr % 2 ^ 17 = 0) (hbad : (nandBad f s.nfc s.addr).1 = 1) :
    readBody f len s = { s with
      addr := (s.addr + 128 * 1024) % 2 ^ 32, nfc := (nandBad f s.nfc s.addr).2 } := by
  have hne : (nandBad f s.nfc s.addr).1 ≠ 0 := by
    rw [hbad]
    decide
  rw [readBody, and_block, if_pos hstart]
  exact if_pos hne

/-- A turn of the loop keeps the invariant and moves `addr` on. -/
theorem readBody_keeps (h : Copied f len start buf s) (hlen : len ≤ (f.goodFrom start).length)
    (hi : s.i < len) :
    Copied f len start buf (readBody f len s) ∧ s.addr < (readBody f len s).addr := by
  have hlt := h.addr_lt hlen hi
  by_cases hstart : s.addr % 2 ^ 17 = 0
  · have hbad : (nandBad f s.nfc s.addr).1 = _ := nandBad_of_start (by omega) hstart
    cases hgood : f.good (s.addr / 2 ^ 17) with
    | true =>
      rw [hgood, if_pos rfl] at hbad
      rw [readBody_of_good hstart hbad]
      exact readPage_keeps (s := { s with nfc := (nandBad f s.nfc s.addr).2 })
        ⟨h.le, h.rest, h.col, h.block, h.copied, h.kept⟩ hlen hi hgood
    | false =>
      rw [hgood, if_neg (by decide)] at hbad
      have haddr : (s.addr + 128 * 1024) % 2 ^ 32 = s.addr + 2 ^ 17 := by omega
      have hskip := goodFrom_skip (f := f) (a := s.addr) (n := 2 ^ 17) (by omega)
        fun b h₁ h₂ => (congrArg f.good (show b / 2 ^ 17 = s.addr / 2 ^ 17 by omega)).trans hgood
      rw [readBody_of_bad hstart hbad, haddr]
      exact ⟨{
        le := h.le
        rest := h.rest.trans hskip
        col := fun hi' => (h.col hi').trans (by show _ = (s.addr + 2 ^ 17) % 2048; omega)
        block := fun _ hne => absurd (show (s.addr + 2 ^ 17) % 2 ^ 17 = 0 by omega) hne
        copied := h.copied
        kept := h.kept }, Nat.lt_add_of_pos_right (by omega)⟩
  · rw [readBody, and_block, if_neg hstart]
    exact readPage_keeps h hlen hi (h.block hi hstart)

/-! ### The whole copy -/

/-- What has been copied, as a list. -/
theorem Copied.map_range (h : Copied f len start buf s) :
    (List.range s.i).map s.buf = ((f.goodFrom start).map f.byteAt).take s.i := by
  apply List.ext_getElem?
  intro k
  by_cases hk : k < s.i
  · rw [List.getElem?_take_of_lt hk, List.getElem?_map, List.getElem?_map, List.getElem?_range hk,
      h.copied k hk, Option.map_some]
  · rw [List.getElem?_eq_none (by simpa using hk), List.getElem?_eq_none (by simp; omega)]

/-- From the beginning of a block, `nand_read` ends with the first `len` bytes of the good blocks
in the buffer and the memory behind them as it was. -/
theorem nand_read_image (f : Flash) (nfc : Nfc) (start : ℕ) (buf : ℕ → BitVec 8) (len : ℕ)
    (hstart : start % (128 * 1024) = 0) (hlt : start < 2 ^ 31)
    (hlen : len ≤ (f.image start).length) :
    ∀ fuel ≥ 2 ^ 31, ∃ t, nandRead f len fuel nfc start buf = some t ∧
      (List.range len).map t.buf = (f.image start).take len ∧ ∀ k ≥ len, t.buf k = buf k := by
  intro fuel hfuel
  rw [image_eq (by omega) (by omega), List.length_map] at hlen
  have hbegin : Copied f len start buf ⟨start, start % 2048, 0, buf, nfc⟩ :=
    ⟨Nat.zero_le _, rfl, fun _ => rfl, fun _ hne => absurd hstart hne,
      fun _ hk => absurd hk (Nat.not_lt_zero _), fun _ _ => rfl⟩
  obtain ⟨t, ht, hend, hcond⟩ := whileLoop_total (fun s : Reading => decide (s.i < len))
    (readBody f len) (fun s => 2 ^ 31 - s.addr) fuel
    (fun s hs hi => by
      have hi' : s.i < len := of_decide_eq_true hi
      obtain ⟨hs', hmore⟩ := readBody_keeps hs hlen hi'
      have haddr := hs.addr_lt hlen hi'
      exact ⟨hs', by omega⟩) hbegin (by show 2 ^ 31 - start ≤ fuel; omega)
  have hi : t.i = len := by
    have hge := of_decide_eq_false hcond
    have hle := hend.le
    omega
  refine ⟨t, ht, ?_, fun k hk => hend.kept k (by omega)⟩
  rw [image_eq (by omega) (by omega), ← hi]
  exact hend.map_range

/-- A chip with its first block marked bad. -/
def firstBad : Flash where
  page := fun row col =>
    if col = 2048 then if row = 0 then 0 else 0xff else BitVec.ofNat 8 (row + col)
  latency := fun k => k

theorem goodFrom_firstBad :
    firstBad.goodFrom 0 = [2 ^ 17, 2 ^ 17 + 1, 2 ^ 17 + 2] ++ firstBad.goodFrom (2 ^ 17 + 3) := by
  have hskip := goodFrom_skip (f := firstBad) (a := 0) (n := 2 ^ 17) (by omega)
    fun b _ h => (congrArg firstBad.good (show b / 2 ^ 17 = 0 by omega)).trans (by decide)
  have hrun := goodFrom_run (f := firstBad) (a := 2 ^ 17) (n := 3) (by omega)
    fun b _ h => (congrArg firstBad.good (show b / 2 ^ 17 = 1 by omega)).trans (by decide)
  rw [hskip, Nat.zero_add]
  exact hrun

/-- Three bytes of it from address 0: they come from the second block. -/
theorem nand_read_image_firstBad :
    ∃ t, nandRead firstBad 3 (2 ^ 31) ⟨0, .idle, 0⟩ 0 (fun _ => 0) = some t ∧
      (List.range 3).map t.buf = (firstBad.image 0).take 3 ∧ ∀ k ≥ 3, t.buf k = 0 :=
  nand_read_image firstBad ⟨0, .idle, 0⟩ 0 (fun _ => 0) 3 rfl (by omega)
    (le_length_image rfl (Nat.zero_le _) goodFrom_firstBad) (2 ^ 31) (le_refl _)

end S3c2440.Nand
