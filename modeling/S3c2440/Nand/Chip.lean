import Mathlib.Data.Nat.Bitwise
import Mathlib.Data.List.Basic
import Mathlib.Logic.Function.Basic

/-!
# The NAND flash

The large-page chip behind the S3C2440's NAND controller, and the functions of
`bare_board/code/I2c/20200510_IIC/nand_flash.c` that talk to it.

## The chip

A chip is a page for each row address: 2048 bytes of data and the out-of-band area after
them. It is selected by bit 1 of NFCONT being clear. Command 00h makes it take address
cycles, two for the column and three for the row, and 30h after five of them starts
loading the page. While it does NFSTAT reads as busy, as often as the chip likes
(`latency`, by the number of loads there have been); after that every read of NFDATA
gives the byte at the column and moves one on. The delays between the writes have no
effect here.
-/

namespace S3c2440.Nand

/-! ### The chip -/

/-- A chip: what is on it, and how long it takes. -/
structure Flash where
  /-- The byte at a row and a column. -/
  page : ℕ → ℕ → BitVec 8
  /-- How often NFSTAT reads as busy after the `k`-th load. -/
  latency : ℕ → ℕ

/-- What the chip is doing. -/
inductive Phase where
  /-- Nothing. -/
  | idle
  /-- Taking address cycles; these it has. -/
  | address (cycles : List ℕ)
  /-- Loading a page. -/
  | busy (polls row col : ℕ)
  /-- Giving out the page, at this column. -/
  | stream (row col : ℕ)

/-- The controller and the chip. -/
structure Nfc where
  /-- NFCONT. -/
  nfcont : BitVec 32
  /-- What the chip is doing. -/
  phase : Phase
  /-- How many loads there have been. -/
  loads : ℕ

/-- The chip is selected. -/
def Nfc.selected (s : Nfc) : Bool := !s.nfcont.getLsbD 1

/-- `NFCMD = cmd`. -/
def Nfc.writeNfcmd (f : Flash) (s : Nfc) (cmd : ℕ) : Nfc :=
  if s.selected then
    if cmd = 0x00 then { s with phase := .address [] }
    else if cmd = 0x30 then
      match s.phase with
      | .address [col₀, col₁, row₀, row₁, row₂] =>
        { s with
          phase := .busy (f.latency s.loads) (row₀ + 2 ^ 8 * row₁ + 2 ^ 16 * row₂)
            (col₀ + 2 ^ 8 * col₁)
          loads := s.loads + 1 }
      | _ => { s with phase := .idle }
    else { s with phase := .idle }
  else s

/-- `NFADDR = v`; the register has eight bits. -/
def Nfc.writeNfaddr (s : Nfc) (v : ℕ) : Nfc :=
  match s.selected, s.phase with
  | true, .address cycles => { s with phase := .address (cycles ++ [v % 2 ^ 8]) }
  | _, _ => s

/-- NFSTAT, and the state after it has been read. -/
def Nfc.readNfstat (s : Nfc) : ℕ × Nfc :=
  match s.phase with
  | .busy (polls + 1) row col => (0, { s with phase := .busy polls row col })
  | .busy 0 row col => (1, { s with phase := .stream row col })
  | _ => (1, s)

/-- NFDATA, and the state after it has been read. -/
def Nfc.readNfdata (f : Flash) (s : Nfc) : BitVec 8 × Nfc :=
  match s.selected, s.phase with
  | true, .stream row col => (f.page row col, { s with phase := .stream row (col + 1) })
  | _, _ => (0, s)

/-! ### The functions -/

variable (f : Flash) (s : Nfc)

/-- `nand_select`. -/
def nandSelect : Nfc := { s with nfcont := s.nfcont &&& ~~~(1#32 <<< 1) }

/-- `nand_deselect`. -/
def nandDeselect : Nfc := { s with nfcont := s.nfcont ||| 1#32 <<< 1 }

/-- `nand_cmd`. -/
def nandCmd (cmd : ℕ) : Nfc := s.writeNfcmd f cmd

/-- `nand_col`. -/
def nandCol (col : ℕ) : Nfc :=
  let s := s.writeNfaddr (col &&& 0xff)
  s.writeNfaddr (col >>> 8 &&& 0xff)

/-- `nand_page`. -/
def nandPage (page : ℕ) : Nfc :=
  let s := s.writeNfaddr (page &&& 0xff)
  let s := s.writeNfaddr (page >>> 8 &&& 0xff)
  s.writeNfaddr (page >>> 16 &&& 0xff)

/-- `nand_addr`. -/
def nandAddr (addr : ℕ) : Nfc :=
  let col := addr % 2048
  let page := addr / 2048
  let s := s.writeNfaddr (col &&& 0xff)
  let s := s.writeNfaddr (col >>> 8 &&& 0xff)
  let s := s.writeNfaddr (page &&& 0xff)
  let s := s.writeNfaddr (page >>> 8 &&& 0xff)
  s.writeNfaddr (page >>> 16 &&& 0xff)

/-- How often NFSTAT will still read as busy. -/
def Nfc.polls : ℕ :=
  match s.phase with
  | .busy polls _ _ => polls
  | _ => 0

theorem polls_readNfstat (h : s.readNfstat.1 &&& 1 = 0) : s.readNfstat.2.polls < s.polls := by
  unfold Nfc.readNfstat Nfc.polls at *
  split at h <;> simp_all

/-- `nand_wait_ready`. -/
def nandWaitReady (s : Nfc) : Nfc :=
  if h : s.readNfstat.1 &&& 1 = 0 then
    have := polls_readNfstat s h
    nandWaitReady s.readNfstat.2
  else s.readNfstat.2
  termination_by s.polls

/-- `nand_data`. -/
def nandData : BitVec 8 × Nfc := s.readNfdata f

/-- `nand_bad`: 1 for a bad block, and the state after it. -/
def nandBad (addr : ℕ) : ℕ × Nfc :=
  let col := 2048
  let page := addr / 2048
  let s := nandSelect s
  let s := nandCmd f s 0x00
  let s := nandCol s col
  let s := nandPage s page
  let s := nandCmd f s 0x30
  let s := nandWaitReady s
  let (val, s) := nandData f s
  let s := nandDeselect s
  if val ≠ 0xff then (1, s) else (0, s)

/-! ### What the chip makes of them -/

/-- The chip is selected and gives out row `row` from column `col` on. -/
def Nfc.Streams (row col : ℕ) : Prop := s.selected = true ∧ s.phase = .stream row col

/-- The chip is selected and has taken these address cycles. -/
def Nfc.Takes (cycles : List ℕ) : Prop := s.selected = true ∧ s.phase = .address cycles

variable {f s}

theorem selected_select : (nandSelect s).selected = true := by
  simp [Nfc.selected, nandSelect]

/-- A read command opens an address. -/
theorem takes_cmd (h : s.selected = true) : (nandCmd f s 0x00).Takes [] := by
  rw [nandCmd, Nfc.writeNfcmd, if_pos h, if_pos rfl]
  exact ⟨h, rfl⟩

theorem takes_writeNfaddr {cycles : List ℕ} (v : ℕ) (h : s.Takes cycles) :
    (s.writeNfaddr v).Takes (cycles ++ [v % 2 ^ 8]) := by
  unfold Nfc.writeNfaddr
  rw [h.1, h.2]
  exact ⟨h.1, rfl⟩

/-- The byte a cycle carries, as the register keeps it. -/
theorem cycle_eq (v k : ℕ) : (v >>> k &&& 0xff) % 2 ^ 8 = v / 2 ^ k % 2 ^ 8 := by
  rw [show 0xff = 2 ^ 8 - 1 from rfl, Nat.and_two_pow_sub_one_eq_mod, Nat.mod_mod,
    Nat.shiftRight_eq_div_pow]

/-- The five cycles of a column and a row. -/
def cyclesOf (col row : ℕ) : List ℕ :=
  [col % 2 ^ 8, col / 2 ^ 8 % 2 ^ 8, row % 2 ^ 8, row / 2 ^ 8 % 2 ^ 8, row / 2 ^ 16 % 2 ^ 8]

theorem cycle_zero_eq (v : ℕ) : (v &&& 0xff) % 2 ^ 8 = v % 2 ^ 8 := by
  rw [show 0xff = 2 ^ 8 - 1 from rfl, Nat.and_two_pow_sub_one_eq_mod, Nat.mod_mod]

theorem takes_col_page (col page : ℕ) (h : s.Takes []) :
    (nandPage (nandCol s col) page).Takes (cyclesOf col page) := by
  have h5 := takes_writeNfaddr (page >>> 16 &&& 0xff) <|
    takes_writeNfaddr (page >>> 8 &&& 0xff) <| takes_writeNfaddr (page &&& 0xff) <|
    takes_writeNfaddr (col >>> 8 &&& 0xff) <| takes_writeNfaddr (col &&& 0xff) h
  rw [cycle_eq, cycle_eq, cycle_eq, cycle_zero_eq, cycle_zero_eq] at h5
  exact h5

theorem takes_addr (addr : ℕ) (h : s.Takes []) :
    (nandAddr s addr).Takes (cyclesOf (addr % 2048) (addr / 2048)) :=
  takes_col_page (addr % 2048) (addr / 2048) h

/-- The load command puts the cycles together again. -/
theorem busy_cmd {col row : ℕ} (hcol : col < 2 ^ 16) (hrow : row < 2 ^ 24)
    (h : s.Takes (cyclesOf col row)) :
    (nandCmd f s 0x30).selected = true ∧
      ∃ polls, (nandCmd f s 0x30).phase = .busy polls row col := by
  rw [nandCmd, Nfc.writeNfcmd, if_pos h.1, if_neg (by omega), if_pos rfl, h.2, cyclesOf]
  refine ⟨h.1, f.latency s.loads, ?_⟩
  show Phase.busy _ _ _ = _
  congr 1 <;> omega

theorem nandWaitReady_busy (h : s.readNfstat.1 &&& 1 = 0) :
    nandWaitReady s = nandWaitReady s.readNfstat.2 := by
  rw [nandWaitReady, dif_pos h]

theorem nandWaitReady_ready (h : ¬ s.readNfstat.1 &&& 1 = 0) :
    nandWaitReady s = s.readNfstat.2 := by
  rw [nandWaitReady, dif_neg h]

/-- Waiting ends with the chip giving out the page. -/
theorem streams_waitReady {polls row col : ℕ} (hsel : s.selected = true)
    (h : s.phase = .busy polls row col) : (nandWaitReady s).Streams row col := by
  induction polls generalizing s with
  | zero =>
    have hstat : s.readNfstat = (1, { s with phase := .stream row col }) := by
      rw [Nfc.readNfstat, h]
    rw [nandWaitReady_ready (by rw [hstat]; show ¬1 &&& 1 = 0; decide), hstat]
    exact ⟨hsel, rfl⟩
  | succ polls ih =>
    have hstat : s.readNfstat = (0, { s with phase := .busy polls row col }) := by
      rw [Nfc.readNfstat, h]
    rw [nandWaitReady_busy (by rw [hstat]; exact Nat.zero_and 1), hstat]
    exact ih hsel rfl

/-- A read of NFDATA. -/
theorem data_of_streams {row col : ℕ} (h : s.Streams row col) :
    (nandData f s).1 = f.page row col ∧ (nandData f s).2.Streams row (col + 1) := by
  unfold nandData Nfc.readNfdata
  rw [h.1, h.2]
  exact ⟨rfl, h.1, rfl⟩

/-- The steps of `nand_read` before it reads the data. -/
def nandOpen (f : Flash) (s : Nfc) (addr : ℕ) : Nfc :=
  nandWaitReady (nandCmd f (nandAddr (nandCmd f (nandSelect s) 0x00) addr) 0x30)

/-- They lead to the byte at `addr`, whatever the chip was doing. -/
theorem streams_open {addr : ℕ} (h : addr < 2 ^ 32) :
    (nandOpen f s addr).Streams (addr / 2048) (addr % 2048) := by
  obtain ⟨hsel, polls, hbusy⟩ := busy_cmd (f := f) (by omega) (by omega)
    (takes_addr addr (takes_cmd (f := f) (selected_select (s := s))))
  exact streams_waitReady hsel hbusy

/-- The mark is the first out-of-band byte of the page. -/
theorem nandBad_eq {addr : ℕ} (h : addr < 2 ^ 32) :
    (nandBad f s addr).1 = if f.page (addr / 2048) 2048 ≠ 0xff then 1 else 0 := by
  obtain ⟨hsel, polls, hbusy⟩ := busy_cmd (f := f) (by omega : 2048 < 2 ^ 16)
    (by omega : addr / 2048 < 2 ^ 24)
    (takes_col_page 2048 (addr / 2048) (takes_cmd (f := f) (selected_select (s := s))))
  have hdata := (data_of_streams (f := f) (streams_waitReady hsel hbusy)).1
  simp only [nandBad]
  rw [hdata]
  split <;> rfl

end S3c2440.Nand
