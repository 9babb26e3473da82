import S3c2440.I2c.Transfer

/-!
# Writing to the EEPROM

`bare_board/code/I2c/20200510_IIC/i2c/at24cxx.c`: `at24cxx_write` sends a message of two bytes,
an address and a byte, for each byte of its data, by `i2c_transfer`, and returns at the first
that is not acknowledged.

The EEPROM is the other side of the bus (`Rom`): it sees what the controller does there, and
takes a transaction of two bytes, from a START that it acknowledges to the STOP, as an
address and what is to be at that address. Whether it acknowledges its own address is
open, transaction by transaction.

## What is proved

* `observe_acked`, `observe_nacked` — what a transaction does to the EEPROM.
* `xfer_write` — what `i2c_transfer` does with one message of two bytes.
* `at24cxxWrite_exact` — the call returns, 0 if every transaction was acknowledged, and the
  EEPROM holds what was written up to the first that was not.
-/

namespace S3c2440.I2c

open Theory

variable {slave : ℕ → Slave}

/-! ### The EEPROM -/

/-- An EEPROM of 256 bytes. -/
structure Rom where
  /-- Its contents. -/
  cells : BitVec 8 → BitVec 8
  /-- How many STARTs it has seen. -/
  starts : ℕ
  /-- The byte that a START would send. -/
  shift : BitVec 8
  /-- The bytes of the transaction it takes part in. -/
  got : Option (List (BitVec 8))

/-- A transaction is over: two bytes are an address and what is to be there. -/
def Rom.commit (r : Rom) : Rom :=
  match r.got with
  | some [a, b] => { r with cells := Function.update r.cells a b, got := none }
  | _ => { r with got := none }

/-- What the EEPROM makes of what is done on the bus. It answers to the device address 0x50, for a
write, if `slave` says so. -/
def Rom.observe (slave : ℕ → Slave) (r : Rom) : Event → Rom
  | .iicds v =>
    { r with shift := v.setWidth 8, got := r.got.map fun bytes => bytes ++ [v.setWidth 8] }
  | .iicstat v =>
    if v.getLsbD 5 then
      { r with
        starts := r.starts + 1
        got := if r.shift = 0xa0 ∧ (slave (r.starts + 1)).ack then some [] else none }
    else r.commit
  | .received _ => r

/-- The EEPROM after what has been done on the bus since `s`, when it held `cells`. -/
def romAfter (slave : ℕ → Slave) (cells : BitVec 8 → BitVec 8) (s t : Sys) : Rom :=
  (t.hw.log.drop s.hw.log.length).foldl (Rom.observe slave) ⟨cells, s.hw.starts, 0, none⟩

/-! ### The code -/

/-- `AT24CXX_ADDR`. -/
def at24cxxAddr : BitVec 32 := 0x50

/-- Where a call of `at24cxx_write` is. -/
inductive WritePc where
  /-- At the loop test. -/
  | loop (i : ℕ)
  /-- In `i2c_transfer`. -/
  | transfer (i : ℕ) (pc : XferPc)
  /-- Returned. -/
  | done (err : ℤ)

/-- A call in progress. -/
structure Write where
  /-- Where it is. -/
  pc : WritePc
  /-- `addr`. -/
  addr : BitVec 32
  /-- The rest of the state; `msg` is message 0. -/
  sys : Sys

/-- `msg` as `at24cxx_write` fills it in, with `buf[0] = addr` and `buf[1] = b`. -/
def writeMsg (buf : ℤ → BitVec 8) (addr : BitVec 32) (b : BitVec 8) : I2cMsg where
  addr := at24cxxAddr
  flags := 0
  len := 2
  cntTransferred := -1
  err := 0
  buf := Function.update (Function.update buf 0 (addr.setWidth 8)) 1 b

/-- One statement of `at24cxx_write(addr, data, len)`; filling in `msg` is one. -/
def at24cxxWrite (data : ℕ → BitVec 8) (len : ℕ) (w : Write) : Option Write :=
  match w.pc with
  | .loop i =>
    if i < len then
      some ⟨.transfer i (.loop 0), w.addr + 1,
        w.sys.setMsg 0 (writeMsg (w.sys.msgs 0).buf w.addr (data i))⟩
    else some { w with pc := .done 0 }
  | .transfer i (.done err) =>
    if err ≠ 0 then some { w with pc := .done err } else some { w with pc := .loop (i + 1) }
  | .transfer i pc =>
    (s3c2440MasterXfer 1 ⟨pc, w.sys⟩).map fun x => ⟨.transfer i x.pc, w.addr, x.sys⟩
  | .done _ => none

/-- A call with the interrupts it causes. -/
def writeStep (slave : ℕ → Slave) (data : ℕ → BitVec 8) (len : ℕ) (w : Write) : Act → Option Write
  | .cpu => at24cxxWrite data len w
  | .byte => (interrupt slave w.sys).map fun s => { w with sys := s }

/-! ### The property -/

/-- The cell that the `i`-th byte goes to. -/
def cellOf (addr : BitVec 32) (i : ℕ) : BitVec 8 := (addr + BitVec.ofNat 32 i).setWidth 8

/-- `cells'` is `cells` with the first `n` bytes of the data written: a cell holds the last one
that was written to it, and the others are as they were. -/
structure PrefixWritten (addr : BitVec 32) (data : ℕ → BitVec 8) (n : ℕ)
    (cells cells' : BitVec 8 → BitVec 8) : Prop where
  /-- The last byte written to a cell is there. -/
  written : ∀ i < n, (∀ j, i < j → j < n → cellOf addr j ≠ cellOf addr i) →
    cells' (cellOf addr i) = data i
  /-- The other cells are as they were. -/
  unchanged : ∀ a, (∀ i < n, cellOf addr i ≠ a) → cells' a = cells a

/-- One byte more. -/
theorem PrefixWritten.succ {addr : BitVec 32} {data : ℕ → BitVec 8} {n : ℕ}
    {cells cells' : BitVec 8 → BitVec 8} (h : PrefixWritten addr data n cells cells') :
    PrefixWritten addr data (n + 1) cells (Function.update cells' (cellOf addr n) (data n)) where
  written := by
    intro i hi hlast
    rcases Nat.lt_or_eq_of_le (Nat.le_of_lt_succ hi) with hlt | rfl
    · rw [Function.update_of_ne (hlast n hlt (Nat.lt_succ_self n)).symm]
      exact h.written i hlt fun j hij hj => hlast j hij (Nat.lt_succ_of_lt hj)
    · rw [Function.update_self]
  unchanged := by
    intro a ha
    rw [Function.update_of_ne (ha n (Nat.lt_succ_self n)).symm]
    exact h.unchanged a fun i hi => ha i (Nat.lt_succ_of_lt hi)

theorem PrefixWritten.zero (addr : BitVec 32) (data : ℕ → BitVec 8)
    (cells : BitVec 8 → BitVec 8) : PrefixWritten addr data 0 cells cells :=
  ⟨fun _ hi => absurd hi (Nat.not_lt_zero _), fun _ _ => rfl⟩

/-! ### One transaction -/

/-- What is done on the bus for two bytes. -/
def transaction (ack : Bool) (a b : BitVec 8) : List Event :=
  startEvents (at24cxxAddr <<< 1) 0xf0 ++
    (if ack then [.iicds (a.setWidth 32), .iicds (b.setWidth 32)] else []) ++ [.iicstat 0xD0]

variable (slave) in
/-- What a transaction does to the EEPROM. -/
theorem observe_transaction (r : Rom) (hgot : r.got = none) (a b : BitVec 8) :
    let ack := (slave (r.starts + 1)).ack
    let r' := (transaction ack a b).foldl (Rom.observe slave) r
    r'.cells = (if ack then Function.update r.cells a b else r.cells) ∧
      r'.starts = r.starts + 1 ∧ r'.got = none := by
  intro ack r'
  cases hack : (slave (r.starts + 1)).ack with
  | true =>
    have hr' : r' = ⟨Function.update r.cells a b, r.starts + 1, b, none⟩ := by
      simp [r', ack, hack, transaction, startEvents, Rom.observe, Rom.commit, hgot, at24cxxAddr]
    simp [hr', ack, hack]
  | false =>
    have hr' : r' = ⟨r.cells, r.starts + 1, 0xa0, none⟩ := by
      simp [r', ack, hack, transaction, startEvents, Rom.observe, Rom.commit, hgot, at24cxxAddr]
    simp [hr', ack, hack]

/-- A transaction has been made since `s`, and the bus is idle again. -/
structure Transacted (slave : ℕ → Slave) (a b : BitVec 8) (s t : Sys) : Prop where
  /-- No interrupt will come. -/
  idle : t.hw.wire = .idle
  /-- One START. -/
  starts : t.hw.starts = s.hw.starts + 1
  /-- What has been done on the bus. -/
  log : t.hw.log = s.hw.log ++ transaction (s.device slave).ack a b

variable {s t : Sys} {a b : BitVec 8} {addr : BitVec 32} {buf : ℤ → BitVec 8}

/-- `do_master_tx` with two bytes. -/
theorem call_write (hmsg : s.msgs 0 = writeMsg buf addr b) (hidle : s.hw.wire = .idle) :
    Inevitable (masterStep slave (doMasterFor true 0))
      (fun c => c.pc = .ret (if (s.device slave).ack then 0 else -1) ∧ c.sys.hw.wire = .idle ∧
        Transacted slave (addr.setWidth 8) b s c.sys) ⟨.cur, s⟩ := by
  have hf : (s.msgs 0).flags = 0 := by rw [hmsg]; rfl
  have hlen : (s.msgs 0).len = 2 := by rw [hmsg]; rfl
  have haddr : (s.msgs 0).addr = at24cxxAddr := by rw [hmsg]; rfl
  cases hack : (s.device slave).ack with
  | true =>
    refine (inevitable_started hidle (wait_tx_acked hf (by omega) hack)).mono fun c hc => ?_
    refine ⟨hc.1, hc.2.wire, hc.2.wire, hc.2.starts, ?_⟩
    rw [hc.2.log, hack, haddr, hlen, hmsg]
    rfl
  | false =>
    show Inevitable (masterStep slave (doMasterTx 0)) _ _
    refine (inevitable_started hidle (wait_nacked true rfl rfl (decide_eq_true hf).symm (by omega)
      hack)).mono fun c hc => ?_
    refine ⟨hc.1, hc.2.wire, hc.2.wire, hc.2.starts, ?_⟩
    rw [hc.2.log, hack, haddr]
    rfl

/-- `i2c_transfer` with this one message. -/
theorem xfer_write (hmsg : s.msgs 0 = writeMsg buf addr b) (hidle : s.hw.wire = .idle) :
    Until (xferStep slave 1) UnderWay
      (fun x => x.pc = .done (if (s.device slave).ack then 0 else -1) ∧
        Transacted slave (addr.setWidth 8) b s x.sys) ⟨.loop 0, s⟩ := by
  have hdir : true = decide ((s.msgs 0).flags = 0) := by rw [hmsg]; rfl
  refine (loop_of_call Nat.one_pos hidle hdir (call_write hmsg hidle)).trans ?_
  rintro ⟨pc, t⟩ ⟨rfl, htrans⟩
  cases (s.device slave).ack with
  | true => exact xfer_cpu (fun _ => nofun) htrans.idle rfl (.now ⟨rfl, htrans⟩)
  | false => exact .now ⟨rfl, htrans⟩

/-! ### The loop -/

section Loop

variable {data : ℕ → BitVec 8} {len i : ℕ} {P : Write → Prop}

/-- The transfer for byte `i` as part of the call. -/
def Xfer.inWrite (i : ℕ) (addr : BitVec 32) (x : Xfer) : Write := ⟨.transfer i x.pc, addr, x.sys⟩

/-- Until it returns, a transfer in a call does what it does by itself. -/
theorem writeStep_inWrite {x : Xfer} (hx : UnderWay x) (c : Act) :
    writeStep slave data len (x.inWrite i addr) c =
      (xferStep slave 1 x c).map (Xfer.inWrite i addr) := by
  cases c with
  | cpu =>
    obtain ⟨pc, s⟩ := x
    cases pc with
    | loop j => rfl
    | call write j pc => rfl
    | done err => exact absurd rfl (hx err)
  | byte => simp only [writeStep, xferStep, Xfer.inWrite, Option.map_map, Function.comp_def]

/-- The call has not returned. -/
def Writing (w : Write) : Prop := ∀ err, w.pc ≠ .done err

/-- On an idle wire only the program moves. -/
theorem write_cpu {w u : Write} (hw : Writing w) (hidle : w.sys.hw.wire = .idle)
    (hu : at24cxxWrite data len w = some u) (h : Until (writeStep slave data len) Writing P u) :
    Until (writeStep slave data len) Writing P w := by
  refine until_of_cpu hw hu ?_ h
  simp only [writeStep, interrupt_idle hidle, Option.map_none]

/-- Where the call goes on after the transfer for byte `i`. -/
def afterTransfer (i : ℕ) (ack : Bool) : WritePc := if ack then .loop (i + 1) else .done (-1)

theorem at24cxxWrite_return (ack : Bool) :
    at24cxxWrite data len ⟨.transfer i (.done (if ack then 0 else -1)), addr, t⟩ =
      some ⟨afterTransfer i ack, addr, t⟩ := by
  cases ack <;> rfl

/-- One turn of the loop. -/
theorem turn_write (hi : i < len) (hidle : s.hw.wire = .idle)
    (h : ∀ t, Transacted slave (addr.setWidth 8) (data i) s t →
      Until (writeStep slave data len) Writing P
        ⟨afterTransfer i (s.device slave).ack, addr + 1, t⟩) :
    Until (writeStep slave data len) Writing P ⟨.loop i, addr, s⟩ := by
  have hmsg : (s.setMsg 0 (writeMsg (s.msgs 0).buf addr (data i))).msgs 0 =
      writeMsg (s.msgs 0).buf addr (data i) := Function.update_self 0 _ s.msgs
  refine write_cpu nofun hidle (if_pos hi) ?_
  refine ((xfer_write hmsg hidle).lift (f := Xfer.inWrite i (addr + 1))
    (fun x a y hx _ b => writeStep_inWrite hx b) fun _ _ => nofun).trans ?_
  rintro _ ⟨⟨pc, t⟩, ⟨rfl, htrans⟩, rfl⟩
  exact write_cpu nofun htrans.idle (at24cxxWrite_return _)
    (h t ⟨htrans.idle, htrans.starts, htrans.log⟩)

end Loop

/-! ### The whole call -/

section Call

variable {data : ℕ → BitVec 8} {len n : ℕ} {cells : BitVec 8 → BitVec 8}

/-- The first `n` transactions of a call from `s` are acknowledged. -/
def Acked (slave : ℕ → Slave) (s : Sys) (n : ℕ) : Prop :=
  ∀ j < n, (slave (s.hw.starts + j + 1)).ack = true

/-- Between two transactions of a call from `s`: there have been `m`, and the EEPROM has got the
first `n` bytes. -/
structure Progress (slave : ℕ → Slave) (cells : BitVec 8 → BitVec 8) (s : Sys) (addr : BitVec 32)
    (data : ℕ → BitVec 8) (n m : ℕ) (t : Sys) : Prop where
  /-- The bus is idle. -/
  idle : t.hw.wire = .idle
  /-- The STARTs. -/
  starts : t.hw.starts = s.hw.starts + m
  /-- The call has added to what has been done on the bus. -/
  log : ∃ new, t.hw.log = s.hw.log ++ new
  /-- The EEPROM has seen the STARTs. -/
  seen : (romAfter slave cells s t).starts = s.hw.starts + m
  /-- And takes part in no transaction. -/
  got : (romAfter slave cells s t).got = none
  /-- Its contents. -/
  rom : PrefixWritten addr data n cells (romAfter slave cells s t).cells

theorem progress_zero (hidle : s.hw.wire = .idle) : Progress slave cells s addr data 0 0 s := by
  have hrom : romAfter slave cells s s = ⟨cells, s.hw.starts, 0, none⟩ := by
    rw [romAfter, List.drop_length]
    rfl
  exact {
    idle := hidle
    starts := rfl
    log := ⟨[], (List.append_nil _).symm⟩
    seen := by rw [hrom]; rfl
    got := by rw [hrom]
    rom := by rw [hrom]; exact .zero addr data cells }

theorem romAfter_append {u : Sys} {new more : List Event} (ht : t.hw.log = s.hw.log ++ new)
    (hu : u.hw.log = t.hw.log ++ more) : romAfter slave cells s u =
      more.foldl (Rom.observe slave) (romAfter slave cells s t) := by
  rw [romAfter, romAfter, hu, ht, List.append_assoc, List.drop_left, List.drop_left,
    List.foldl_append]

/-- One transaction more. -/
theorem Progress.next {u : Sys} (h : Progress slave cells s addr data n n t)
    (htrans : Transacted slave (cellOf addr n) (data n) t u) :
    Progress slave cells s addr data (if (t.device slave).ack then n + 1 else n) (n + 1) u := by
  obtain ⟨new, hnew⟩ := h.log
  have hdev : slave ((romAfter slave cells s t).starts + 1) = t.device slave := by
    rw [h.seen, Sys.device, h.starts]
  obtain ⟨hcells, hstarts, hgot⟩ :=
    observe_transaction slave (romAfter slave cells s t) h.got (cellOf addr n) (data n)
  rw [hdev, ← romAfter_append hnew htrans.log] at hcells hstarts hgot
  refine ⟨htrans.idle, ?_, ⟨new ++ transaction (t.device slave).ack (cellOf addr n) (data n), ?_⟩,
    ?_, hgot, ?_⟩
  · rw [htrans.starts, h.starts, Nat.add_assoc]
  · rw [htrans.log, hnew, List.append_assoc]
  · rw [hstarts, h.seen, Nat.add_assoc]
  · rw [hcells]
    cases (t.device slave).ack with
    | true => exact h.rom.succ
    | false => exact h.rom

/-- What a call from `s` comes to: `k` transactions are acknowledged, and they are all there are,
or the next one is not. -/
structure Outcome (slave : ℕ → Slave) (cells : BitVec 8 → BitVec 8) (s : Sys) (addr : BitVec 32)
    (data : ℕ → BitVec 8) (len k : ℕ) (w : Write) : Prop where
  /-- The first `k`. -/
  acked : Acked slave s k
  /-- All, or not the next. -/
  ended : k = len ∧ w.pc = .done 0 ∧ Progress slave cells s addr data k k w.sys ∨
    k < len ∧ (slave (s.hw.starts + k + 1)).ack = false ∧ w.pc = .done (-1) ∧
      Progress slave cells s addr data k (k + 1) w.sys

/-- From any turn of the loop on. -/
theorem write_from (m : ℕ) (hm : n + m = len) (h : Progress slave cells s addr data n n t)
    (hacked : Acked slave s n) :
    Until (writeStep slave data len) Writing
      (fun w => ∃ k, Outcome slave cells s addr data len k w)
      ⟨.loop n, addr + BitVec.ofNat 32 n, t⟩ := by
  induction m generalizing n t with
  | zero =>
    exact write_cpu nofun h.idle (if_neg (by omega)) (.now ⟨n, hacked, .inl ⟨by omega, rfl, h⟩⟩)
  | succ m ih =>
    have hdev : (t.device slave).ack = (slave (s.hw.starts + n + 1)).ack := by
      rw [Sys.device, h.starts]
    refine turn_write (by omega) h.idle fun u htrans => ?_
    have hnext := h.next htrans
    cases hack : (t.device slave).ack with
    | false =>
      rw [hack] at hnext
      exact .now ⟨n, hacked, .inr ⟨by omega, hdev.symm.trans hack, rfl, hnext⟩⟩
    | true =>
      rw [hack] at hnext
      have haddr : addr + BitVec.ofNat 32 n + 1 = addr + BitVec.ofNat 32 (n + 1) := by
        rw [BitVec.ofNat_add, ← BitVec.add_assoc]
        rfl
      rw [haddr]
      refine ih (n := n + 1) (by omega) hnext fun j hj => ?_
      rcases Nat.lt_or_eq_of_le (Nat.le_of_lt_succ hj) with hlt | rfl
      · exact hacked j hlt
      · exact hdev.symm.trans hack

end Call

/-- `at24cxx_write` returns: 0 exactly if every transaction is acknowledged, with the data in the
EEPROM; -1 at the first that is not, with the data up to it, and no START after it. -/
theorem at24cxxWrite_exact (slave : ℕ → Slave) (s : Sys) (hidle : s.hw.wire = .idle)
    (cells : BitVec 8 → BitVec 8) (addr : BitVec 32) (data : ℕ → BitVec 8) (len : ℕ) :
    Inevitable (writeStep slave data len)
      (fun w =>
        (w.pc = .done 0 ↔ Acked slave s len) ∧
          (Acked slave s len →
            w.sys.hw.starts = s.hw.starts + len ∧
              PrefixWritten addr data len cells (romAfter slave cells s w.sys).cells) ∧
          ∀ k < len, Acked slave s k → (slave (s.hw.starts + k + 1)).ack = false →
            w.pc = .done (-1) ∧ w.sys.hw.starts = s.hw.starts + (k + 1) ∧
              PrefixWritten addr data k cells (romAfter slave cells s w.sys).cells)
      ⟨.loop 0, addr, s⟩ := by
  have hzero : Progress slave cells s addr data 0 0 s := progress_zero hidle
  have hfrom := write_from len (Nat.zero_add len) hzero fun j hj => absurd hj (Nat.not_lt_zero j)
  rw [show addr + BitVec.ofNat 32 0 = addr from BitVec.add_zero addr] at hfrom
  refine hfrom.inevitable.mono fun w ⟨k, hacked, hended⟩ => ?_
  rcases hended with ⟨rfl, hpc, hprog⟩ | ⟨hk, hnack, hpc, hprog⟩
  · refine ⟨iff_of_true hpc hacked, fun _ => ⟨hprog.starts, hprog.rom⟩, fun j hj _ hnack => ?_⟩
    rw [hacked j hj] at hnack
    cases hnack
  · have hnot : ¬ Acked slave s len := fun hall => by
      rw [hall k hk] at hnack
      cases hnack
    refine ⟨iff_of_false (fun h0 => ?_) hnot, fun hall => absurd hall hnot,
      fun j hj hj' hnack' => ?_⟩
    · rw [hpc] at h0
      cases h0
    · -- there is only one first transaction that is not acknowledged
      obtain rfl : j = k := by
        rcases Nat.lt_trichotomy j k with hlt | rfl | hlt
        · rw [hacked j hlt] at hnack'
          cases hnack'
        · rfl
        · rw [hj' k hlt] at hnack
          cases hnack
      exact ⟨hpc, hprog.starts, hprog.rom⟩

/-- An EEPROM that does not answer the third START. -/
def busyAtThird (m : ℕ) : Slave := ⟨m ≠ 3, fun _ => true, fun _ => 0⟩

/-- Three bytes to it from the last cell on: the last cell and the first hold the first two. -/
theorem at24cxxWrite_exact_nacked :
    Inevitable (writeStep busyAtThird (fun i => BitVec.ofNat 8 (i + 7)) 3)
      (fun w => w.pc = .done (-1) ∧ w.sys.hw.starts = 3 ∧
        PrefixWritten 0xff (fun i => BitVec.ofNat 8 (i + 7)) 2 (fun _ => 0)
          (romAfter busyAtThird (fun _ => 0) (s3c2440I2cConInit writeRead) w.sys).cells)
      ⟨.loop 0, 0xff, s3c2440I2cConInit writeRead⟩ :=
  (at24cxxWrite_exact busyAtThird (s3c2440I2cConInit writeRead) rfl (fun _ => 0) 0xff
    (fun i => BitVec.ofNat 8 (i + 7)) 3).mono fun w hw =>
      hw.2.2 2 (by decide) (by unfold Acked; decide) (by decide)

end S3c2440.I2c
