import S3c2440.Nand.Read

/-!
# Reading the NAND flash in the OLED project

`bare_board/code/SPI/code/01th_spi_i2c_adc_jz2440_oled_020_002/nand.c`: `nand_read`, to which
`CopyCode2SDRAM` hands on its arguments, with the functions for the S3C2440 behind it, which
GSTATUS1 chooses on this board, and `LARGER_NAND_PAGE` defined. The controller and the chip are
those of `S3c2440.Nand.Chip`. The chip has 18 row bits, so there are `2 ^ 29` bytes on it.

The copy has no test inside a page, so it goes on to the end of the last one.

## What is proved

* `write_addr_same` — the address cycles are those of the other driver, and give the column and
  the row.
* `readBody_keeps` — a turn of the loop copies a page.
* `nand_read_pages` — the loop ends, and what has been stored then.
* `nand_read_exact_iff` — that is what was asked for just when it is a number of whole pages.
-/

namespace S3c2440.Oled

open Theory S3c2440.Nand

/-! ### The code -/

/-- `NAND_SECTOR_SIZE_LP`. -/
def nandSectorSizeLp : ℕ := 2048

/-- `NAND_BLOCK_MASK_LP`. -/
def nandBlockMaskLp : ℕ := nandSectorSizeLp - 1

/-- `s3c2440_nand_select_chip`. -/
def s3c2440NandSelectChip (s : Nfc) : Nfc := { s with nfcont := s.nfcont &&& ~~~(1#32 <<< 1) }

/-- `s3c2440_nand_deselect_chip`. -/
def s3c2440NandDeselectChip (s : Nfc) : Nfc := { s with nfcont := s.nfcont ||| 1#32 <<< 1 }

/-- `s3c2440_write_cmd`. -/
def s3c2440WriteCmd (f : Flash) (s : Nfc) (cmd : ℕ) : Nfc := s.writeNfcmd f cmd

/-- `s3c2440_write_addr_lp`. -/
def s3c2440WriteAddrLp (s : Nfc) (addr : ℕ) : Nfc :=
  let col := addr &&& nandBlockMaskLp
  let page := addr / nandSectorSizeLp
  let s := s.writeNfaddr (col &&& 0xff)
  let s := s.writeNfaddr (col >>> 8 &&& 0x0f)
  let s := s.writeNfaddr (page &&& 0xff)
  let s := s.writeNfaddr (page >>> 8 &&& 0xff)
  s.writeNfaddr (page >>> 16 &&& 0x03)

/-- `s3c2440_wait_idle`; `BUSY` is the bit that `nand_wait_ready` tests. -/
def s3c2440WaitIdle (s : Nfc) : Nfc := nandWaitReady s

/-- `s3c2440_read_data`. -/
def s3c2440ReadData (f : Flash) (s : Nfc) : BitVec 8 × Nfc := s.readNfdata f

/-- The variables of `nand_read`, the memory, and the chip. -/
structure Copying where
  /-- `i`, the address on the chip. -/
  i : BitVec 32
  /-- How far `buf` has moved. -/
  buf : ℕ
  /-- The memory from the caller's `buf` on. -/
  mem : ℕ → BitVec 8
  /-- Where in it bytes have been stored. -/
  stored : List ℕ
  /-- The chip. -/
  nfc : Nfc

variable (f : Flash)

/-- The body of the inner loop, with `i++`. -/
def copyByte (s : Copying) : Copying :=
  let (val, nfc) := s3c2440ReadData f s.nfc
  { i := s.i + 1
    buf := s.buf + 1
    mem := Function.update s.mem s.buf val
    stored := s.stored ++ [s.buf]
    nfc := nfc }

/-- The body of the outer loop. -/
def readBody (s : Copying) : Copying :=
  let nfc := s3c2440WriteCmd f s.nfc 0
  let nfc := s3c2440WriteAddrLp nfc s.i.toNat
  let nfc := s3c2440WriteCmd f nfc 0x30
  let nfc := s3c2440WaitIdle nfc
  (copyByte f)^[nandSectorSizeLp] { s with nfc := nfc }

/-- `nand_read`, for at most `fuel` turns of the outer loop. -/
def nandRead (fuel : ℕ) (nfc : Nfc) (mem : ℕ → BitVec 8) (startAddr size : BitVec 32) :
    Option Copying :=
  (whileLoop (fun s => s.i < startAddr + size) (readBody f) fuel
    { i := startAddr, buf := 0, mem := mem, stored := [], nfc := s3c2440NandSelectChip nfc }).map
      fun s => { s with nfc := s3c2440NandDeselectChip s.nfc }

/-! ### The address cycles -/

variable {f}

/-- The column in five address cycles, 12 bits. -/
def columnOf : List ℕ → ℕ
  | col₀ :: col₁ :: _ => (col₀ + 2 ^ 8 * col₁) % 2 ^ 12
  | _ => 0

/-- The row, 18 bits. -/
def rowOf : List ℕ → ℕ
  | _ :: _ :: row₀ :: row₁ :: row₂ :: _ => (row₀ + 2 ^ 8 * row₁ + 2 ^ 16 * row₂) % 2 ^ 18
  | _ => 0

/-- What both drivers write to NFADDR, in this order. -/
def addrCycles (addr : ℕ) : List ℕ := cyclesOf (addr % 2048) (addr / 2048)

theorem nandAddr_eq (s : Nfc) (addr : ℕ) :
    nandAddr s addr = (addrCycles addr).foldl Nfc.writeNfaddr s := by
  simp only [nandAddr, addrCycles, cyclesOf, List.foldl_cons, List.foldl_nil,
    Nat.shiftRight_eq_div_pow, show 0xff = 2 ^ 8 - 1 from rfl, Nat.and_two_pow_sub_one_eq_mod]

/-- The masks of the other driver leave out nothing that is on the chip. -/
theorem writeAddrLp_eq (s : Nfc) {addr : ℕ} (h : addr < 2 ^ 29) :
    s3c2440WriteAddrLp s addr = (addrCycles addr).foldl Nfc.writeNfaddr s := by
  have hcol : addr % 2048 / 2 ^ 8 % 2 ^ 4 = addr % 2048 / 2 ^ 8 % 2 ^ 8 := by omega
  have hrow : addr / 2048 / 2 ^ 16 % 2 ^ 2 = addr / 2048 / 2 ^ 16 % 2 ^ 8 := by omega
  simp only [s3c2440WriteAddrLp, nandBlockMaskLp, nandSectorSizeLp, addrCycles, cyclesOf,
    List.foldl_cons, List.foldl_nil, Nat.shiftRight_eq_div_pow, show 2048 - 1 = 2 ^ 11 - 1 from rfl,
    show 0xff = 2 ^ 8 - 1 from rfl, show 0x0f = 2 ^ 4 - 1 from rfl, show 0x03 = 2 ^ 2 - 1 from rfl,
    Nat.and_two_pow_sub_one_eq_mod, hrow]
  rw [show (2 : ℕ) ^ 11 = 2048 from rfl, hcol]

/-- The two drivers write the same five address cycles, which are the column and the row. -/
theorem write_addr_same {addr : ℕ} (h : addr < 2 ^ 29) :
    (∀ s, nandAddr s addr = (addrCycles addr).foldl Nfc.writeNfaddr s) ∧
      (∀ s, s3c2440WriteAddrLp s addr = (addrCycles addr).foldl Nfc.writeNfaddr s) ∧
      (addrCycles addr).length = 5 ∧ columnOf (addrCycles addr) = addr % 2048 ∧
      rowOf (addrCycles addr) = addr / 2048 := by
  refine ⟨fun s => nandAddr_eq s addr, fun s => writeAddrLp_eq s h, rfl, ?_, ?_⟩
  · rw [addrCycles, cyclesOf, columnOf]
    omega
  · rw [addrCycles, cyclesOf, rowOf]
    omega

/-- The last byte of the chip. -/
theorem write_addr_same_last : addrCycles (2 ^ 29 - 1) = [0xff, 0x07, 0xff, 0xff, 0x03] ∧
    (∀ s, nandAddr s (2 ^ 29 - 1) = s3c2440WriteAddrLp s (2 ^ 29 - 1)) := by
  obtain ⟨hnand, hlp, _⟩ := write_addr_same (show 2 ^ 29 - 1 < 2 ^ 29 by omega)
  exact ⟨rfl, fun s => (hnand s).trans (hlp s).symm⟩

/-! ### The copy -/

/-- What is asked for: bytes that are on the chip, from the beginning of a page on. -/
structure Request where
  /-- `start_addr`. -/
  startAddr : BitVec 32
  /-- `size`. -/
  size : BitVec 32
  /-- The beginning of a page. -/
  aligned : startAddr.toNat % nandSectorSizeLp = 0
  /-- The bytes are on the chip. -/
  fits : startAddr.toNat + size.toNat ≤ 2 ^ 29

variable {s : Copying} {startAddr : BitVec 32} {mem : ℕ → BitVec 8}

/-- After `n` bytes from `startAddr` on. -/
structure Copied (f : Flash) (startAddr : BitVec 32) (mem : ℕ → BitVec 8) (n : ℕ) (s : Copying) :
    Prop where
  /-- The address on the chip. -/
  i : s.i = startAddr + BitVec.ofNat 32 n
  /-- The place in memory. -/
  buf : s.buf = n
  /-- The bytes are stored, and no others. -/
  mem : s.mem = fun k => if k < n then f.byteAt (startAddr.toNat + k) else mem k
  /-- One after the other. -/
  stored : s.stored = List.range n
  /-- The chip is selected. -/
  selected : s.nfc.selected = true

/-- A turn of the loop before the bytes. -/
def openPage (f : Flash) (nfc : Nfc) (addr : ℕ) : Nfc :=
  s3c2440WaitIdle (s3c2440WriteCmd f (s3c2440WriteAddrLp (s3c2440WriteCmd f nfc 0) addr) 0x30)

theorem readBody_eq : readBody f s =
    (copyByte f)^[nandSectorSizeLp] { s with nfc := openPage f s.nfc s.i.toNat } := rfl

/-- The chip is ready with the page of the address. -/
theorem streams_openPage {nfc : Nfc} (hsel : nfc.selected = true) {addr : ℕ}
    (haddr : addr < 2 ^ 29) : (openPage f nfc addr).Streams (addr / 2048) (addr % 2048) := by
  have htakes := takes_addr addr (takes_cmd (f := f) hsel)
  rw [nandAddr_eq, ← writeAddrLp_eq _ haddr] at htakes
  obtain ⟨hbusy, polls, hphase⟩ := busy_cmd (f := f) (by omega) (by omega) htakes
  exact streams_waitReady hbusy hphase

/-- A byte of a page. -/
theorem copyByte_keeps {n row col : ℕ} (h : Copied f startAddr mem n s)
    (hstreams : s.nfc.Streams row col) (hrow : (startAddr.toNat + n) / 2048 = row)
    (hcol : (startAddr.toNat + n) % 2048 = col) :
    Copied f startAddr mem (n + 1) (copyByte f s) ∧ (copyByte f s).nfc.Streams row (col + 1) := by
  obtain ⟨hval, hnext⟩ := data_of_streams (f := f) hstreams
  refine ⟨⟨?_, congrArg (· + 1) h.buf, ?_, ?_, hnext.1⟩, hnext⟩
  · show s.i + 1 = _
    rw [h.i, BitVec.ofNat_add, BitVec.add_assoc]
    rfl
  · funext k
    show Function.update s.mem s.buf (nandData f s.nfc).1 k = _
    rw [h.buf, h.mem, hval]
    by_cases hk : k = n
    · subst hk
      rw [Function.update_self, if_pos (Nat.lt_succ_self k), Flash.byteAt, hrow, hcol]
    · rw [Function.update_of_ne hk]
      exact if_congr (by omega) rfl rfl
  · show s.stored ++ [s.buf] = _
    rw [h.stored, h.buf, List.range_succ]

/-- The bytes of a page. -/
theorem copyBytes_keeps {n row k : ℕ} (h : Copied f startAddr mem n s)
    (hstreams : s.nfc.Streams row 0) (hrow : startAddr.toNat + n = 2048 * row)
    (hk : k ≤ nandSectorSizeLp) :
    Copied f startAddr mem (n + k) ((copyByte f)^[k] s) ∧
      ((copyByte f)^[k] s).nfc.Streams row k := by
  induction k with
  | zero => exact ⟨h, hstreams⟩
  | succ k ih =>
    obtain ⟨hcopied, hnext⟩ := ih (Nat.le_of_succ_le hk)
    have hlt : k < 2048 := hk
    have hdiv : (startAddr.toNat + (n + k)) / 2048 = row := by omega
    have hmod : (startAddr.toNat + (n + k)) % 2048 = k := by omega
    rw [Function.iterate_succ_apply']
    exact copyByte_keeps hcopied hnext hdiv hmod

/-- A turn of the loop copies a page. -/
theorem readBody_keeps {n : ℕ} (h : Copied f startAddr mem n s)
    (hrow : (startAddr.toNat + n) % 2048 = 0) (hlt : startAddr.toNat + n < 2 ^ 29) :
    Copied f startAddr mem (n + nandSectorSizeLp) (readBody f s) := by
  have hi : s.i.toNat = startAddr.toNat + n := by
    rw [h.i, BitVec.toNat_add, BitVec.toNat_ofNat]
    omega
  have hstreams := streams_openPage (f := f) h.selected hlt
  rw [hrow, ← hi] at hstreams
  have hopen : Copied f startAddr mem n { s with nfc := openPage f s.nfc s.i.toNat } :=
    ⟨h.i, h.buf, h.mem, h.stored, hstreams.1⟩
  rw [readBody_eq]
  exact (copyBytes_keeps hopen hstreams (by omega) (le_refl _)).1

/-! ### The whole of it -/

/-- `nand_read` ends with the bytes where they are asked for, and has stored nothing behind
them. -/
def CopiesExactly (f : Flash) (nfc : Nfc) (mem : ℕ → BitVec 8) (q : Request) : Prop :=
  ∃ fuel t, nandRead f fuel nfc mem q.startAddr q.size = some t ∧
    (∀ k < q.size.toNat, t.mem k = f.byteAt (q.startAddr.toNat + k)) ∧
      ∀ k ∈ t.stored, k < q.size.toNat

variable {nfc : Nfc} {q : Request}

/-- The test, of an address that many bytes after the beginning. -/
theorem test_iff {n : ℕ} (h : Copied f q.startAddr mem n s) (hn : n < q.size.toNat + 2048) :
    s.i < q.startAddr + q.size ↔ n < q.size.toNat := by
  have hfits := q.fits
  rw [BitVec.lt_def, h.i, BitVec.toNat_add, BitVec.toNat_add, BitVec.toNat_ofNat]
  omega

/-- What holds before every turn of the loop: whole pages are stored, and none of them is behind
the last byte that is asked for. -/
def PagesCopied (f : Flash) (mem : ℕ → BitVec 8) (q : Request) (s : Copying) : Prop :=
  ∃ n, Copied f q.startAddr mem n s ∧ n % 2048 = 0 ∧ n < q.size.toNat + 2048

/-- A turn keeps it, and moves the address on. -/
theorem readBody_pagesCopied (h : PagesCopied f mem q s) (hi : s.i < q.startAddr + q.size) :
    PagesCopied f mem q (readBody f s) ∧ 2 ^ 30 - (readBody f s).i.toNat < 2 ^ 30 - s.i.toNat := by
  obtain ⟨n, hcopied, hmod, hlt⟩ := h
  have hn := (test_iff hcopied hlt).mp hi
  have hfits := q.fits
  have haligned : q.startAddr.toNat % 2048 = 0 := q.aligned
  have hnext : Copied f q.startAddr mem (n + 2048) (readBody f s) :=
    readBody_keeps hcopied (by omega) (by omega)
  refine ⟨⟨n + 2048, hnext, by omega, by omega⟩, ?_⟩
  rw [hcopied.i, hnext.i, BitVec.toNat_add, BitVec.toNat_add, BitVec.toNat_ofNat,
    BitVec.toNat_ofNat]
  omega

/-- `nand_read` ends with whole pages stored, the last of which has the last byte that is asked
for. -/
theorem nand_read_pages (f : Flash) (nfc : Nfc) (mem : ℕ → BitVec 8) (q : Request) :
    ∃ fuel t n, nandRead f fuel nfc mem q.startAddr q.size = some t ∧ 2048 ∣ n ∧
      q.size.toNat ≤ n ∧ n < q.size.toNat + 2048 ∧
      (∀ k, t.mem k = if k < n then f.byteAt (q.startAddr.toNat + k) else mem k) ∧
      t.stored = List.range n := by
  have hbegin : PagesCopied f mem q ⟨q.startAddr, 0, mem, [], s3c2440NandSelectChip nfc⟩ :=
    ⟨0, ⟨(BitVec.add_zero _).symm, rfl, rfl, rfl, selected_select⟩, rfl, by omega⟩
  obtain ⟨t, hrun, ⟨n, hcopied, hmod, hlt⟩, hend⟩ := whileLoop_total
    (fun s : Copying => decide (s.i < q.startAddr + q.size)) (readBody f)
    (fun s => 2 ^ 30 - s.i.toNat) (2 ^ 30)
    (fun s hs hi => readBody_pagesCopied hs (of_decide_eq_true hi)) hbegin (Nat.sub_le _ _)
  have hge : ¬ n < q.size.toNat := fun hn => of_decide_eq_false hend ((test_iff hcopied hlt).mpr hn)
  exact ⟨2 ^ 30, _, n, congrArg (Option.map _) hrun, Nat.dvd_of_mod_eq_zero hmod, Nat.not_lt.mp hge,
    hlt, fun k => congrFun hcopied.mem k, hcopied.stored⟩

theorem nandRead_unique {m n : ℕ} {t t' : Copying}
    (h : nandRead f m nfc mem q.startAddr q.size = some t)
    (h' : nandRead f n nfc mem q.startAddr q.size = some t') : t = t' := by
  obtain ⟨u, hu, rfl⟩ := Option.map_eq_some_iff.mp h
  obtain ⟨u', hu', rfl⟩ := Option.map_eq_some_iff.mp h'
  rw [whileLoop_unique hu hu']

/-- Nothing is stored behind what is asked for only if that is the end of a page. -/
theorem CopiesExactly.dvd (h : CopiesExactly f nfc mem q) : 2048 ∣ q.size.toNat := by
  obtain ⟨m, t, hrun, -, hstored⟩ := h
  obtain ⟨m', t', n, hrun', hdvd, hle, -, -, hrange⟩ := nand_read_pages f nfc mem q
  rw [nandRead_unique hrun hrun', hrange] at hstored
  by_contra hsize
  have hne : n ≠ q.size.toNat := fun h => hsize (h ▸ hdvd)
  exact lt_irrefl _ (hstored q.size.toNat (List.mem_range.mpr (by omega)))

/-- `nand_read` does what it is asked for just when that is a number of whole pages. -/
theorem nand_read_exact_iff (f : Flash) (nfc : Nfc) (mem : ℕ → BitVec 8) (q : Request) :
    CopiesExactly f nfc mem q ↔ 2048 ∣ q.size.toNat := by
  refine ⟨CopiesExactly.dvd, fun hsize => ?_⟩
  obtain ⟨m, t, n, hrun, hdvd, hle, hlt, hmem, hrange⟩ := nand_read_pages f nfc mem q
  have hn : n = q.size.toNat := by omega
  refine ⟨m, t, hrun, fun k hk => ?_, fun k hk => ?_⟩
  · rw [hmem, if_pos (hn ▸ hk)]
  · rwa [hrange, List.mem_range, hn] at hk

/-- One byte. -/
def oneByte : Request := ⟨0, 1, rfl, by decide⟩

/-- A whole page is stored. -/
theorem nand_read_oneByte :
    ¬ CopiesExactly firstBad ⟨0, .idle, 0⟩ (fun _ => 0) oneByte := fun h => by
  have hdvd : 2048 ∣ 1 := h.dvd
  omega

end S3c2440.Oled
