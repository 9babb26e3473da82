import S3c2440.I2c.Controller

/-!
# The I2C engine of the OLED project

`bare_board/code/SPI/code/01th_spi_i2c_adc_jz2440_oled_020_002/i2c.c`: `i2c_write` and `i2c_read`
start a transfer and wait for its counter, and `I2CIntHandle` runs after every byte. The
controller is the one of `S3c2440.I2c.Controller`, and so are the devices.

The buffer is the list of its `len` bytes: an access through `pData` anywhere else is a fault, and a
call that makes one stays there. A byte that is over is one step with the interrupt it causes.
The handler's message about a lost arbitration and its delays have no effect here, and the
interrupt controller's registers and `Status`, which nothing reads, are left out. `DataCount`
and `Pt` stay between -1 and `len`, so `int` is `ℤ`.

## What is proved

* `Sending.next`, `Sending.last`, `Receiving.first`, `Receiving.next`, `Receiving.last` — what an
  interrupt does to a transfer.
* `i2c_exact` — a write sends the buffer, a read fills it, each with one STOP, after which and not
  before the waiting loop ends.
-/

namespace S3c2440.Oled

open Theory S3c2440.I2c

/-! ### The code -/

/-- The controller, and `g_tS3C24xx_I2C`. -/
structure Engine where
  /-- The hardware. -/
  hw : Iic
  /-- `pData`: what is in the buffer. -/
  pData : List (BitVec 8)
  /-- `DataCount`. -/
  dataCount : ℤ
  /-- `Mode`. -/
  mode : ℤ
  /-- `Pt`. -/
  pt : ℤ

/-- `WRDATA`. -/
def wrdata : ℤ := 1

/-- `RDDATA`. -/
def rddata : ℤ := 2

/-- `pData[i]`, `none` outside the buffer. -/
def getByte (pData : List (BitVec 8)) (i : ℤ) : Option (BitVec 8) :=
  if 0 ≤ i then pData[i.toNat]? else none

/-- `pData[i] = v`, `none` outside the buffer. -/
def setByte (pData : List (BitVec 8)) (i : ℤ) (v : BitVec 8) : Option (List (BitVec 8)) :=
  if 0 ≤ i ∧ i < pData.length then some (pData.set i.toNat v) else none

/-- What IICCON is set to for a byte to come: no acknowledge if it is the only one left. -/
def receiveCon (dataCount : ℤ) : BitVec 32 := if dataCount = 1 then 0x2f else 0xaf

/-- `I2CIntHandle`; `none` if it uses `pData` outside the buffer. -/
def i2cIntHandle (e : Engine) : Option Engine :=
  if e.mode = wrdata then
    if e.dataCount = 0 then
      some { e with
        dataCount := e.dataCount - 1
        hw := (e.hw.writeIicstat 0xd0).writeIiccon 0xaf }
    else
      (getByte e.pData e.pt).map fun b => { e with
        dataCount := e.dataCount - 1
        pt := e.pt + 1
        hw := (e.hw.writeIicds (b.setWidth 32)).writeIiccon 0xaf }
  else if e.mode = rddata then
    if e.pt = -1 then
      some { e with pt := 0, hw := e.hw.writeIiccon (receiveCon e.dataCount) }
    else
      (setByte e.pData e.pt (e.hw.iicds.setWidth 8)).map fun pData =>
        let e := { e with pData := pData, pt := e.pt + 1, dataCount := e.dataCount - 1 }
        if e.dataCount = 0 then { e with hw := (e.hw.writeIicstat 0x90).writeIiccon 0xaf }
        else { e with hw := e.hw.writeIiccon (receiveCon e.dataCount) }
  else some e

/-- Where a call of `i2c_write` or `i2c_read` is. -/
inductive TransferPc where
  /-- `g_tS3C24xx_I2C.Mode` is set. -/
  | mode
  /-- `g_tS3C24xx_I2C.Pt` is set. -/
  | pt
  /-- `g_tS3C24xx_I2C.pData = buf;`. -/
  | pData
  /-- `g_tS3C24xx_I2C.DataCount = len;`. -/
  | dataCount
  /-- `IICDS = slvAddr;`. -/
  | ds
  /-- IICSTAT is written to start the transfer. -/
  | start
  /-- The waiting loop. -/
  | wait
  /-- Returned. -/
  | ret
  /-- The handler has used `pData` outside the buffer. -/
  | fault
  deriving DecidableEq

/-- A call in progress. -/
structure Transfer where
  /-- Where it is. -/
  pc : TransferPc
  /-- The rest of the state. -/
  engine : Engine

/-- One statement of a call; the two functions differ in `Mode`, in the first `Pt`, in what is
written to IICSTAT to `start`, and in the `DataCount` at which the waiting loop ends. -/
def transfer (mode pt : ℤ) (start : BitVec 32) (exit : ℤ) (slvAddr : BitVec 32)
    (buf : List (BitVec 8)) (len : ℤ) (c : Transfer) : Option Transfer :=
  let e := c.engine
  match c.pc with
  | .mode => some ⟨.pt, { e with mode := mode }⟩
  | .pt => some ⟨.pData, { e with pt := pt }⟩
  | .pData => some ⟨.dataCount, { e with pData := buf }⟩
  | .dataCount => some ⟨.ds, { e with dataCount := len }⟩
  | .ds => some ⟨.start, { e with hw := e.hw.writeIicds slvAddr }⟩
  | .start => some ⟨.wait, { e with hw := e.hw.writeIicstat start }⟩
  | .wait => if e.dataCount = exit then some ⟨.ret, e⟩ else none
  | .ret => none
  | .fault => none

/-- `i2c_write`. -/
def i2cWrite : BitVec 32 → List (BitVec 8) → ℤ → Transfer → Option Transfer :=
  transfer wrdata 0 0xf0 (-1)

/-- `i2c_read`. -/
def i2cRead : BitVec 32 → List (BitVec 8) → ℤ → Transfer → Option Transfer :=
  transfer rddata (-1) 0xb0 0

/-- A call of `cpu` with the interrupts it causes. -/
def transferStep (slave : ℕ → Slave) (cpu : Transfer → Option Transfer) (c : Transfer) :
    Act → Option Transfer
  | .cpu => cpu c
  | .byte => (c.engine.hw.clock slave).map fun hw =>
      match i2cIntHandle { c.engine with hw := hw } with
      | some e => { c with engine := e }
      | none => ⟨.fault, { c.engine with hw := hw }⟩

/-! ### The property -/

/-- There has been no fault; and the waiting loop of a call that found `log` done on the bus
would end, at the count `exit`, exactly if the call has issued its `stop`. -/
def ExitsAtStop (log : List Event) (stop : BitVec 32) (exit : ℤ) (c : Transfer) : Prop :=
  c.pc ≠ .fault ∧ (c.pc = .wait → ∃ new, c.engine.hw.log = log ++ new ∧
    (c.engine.dataCount = exit ↔ .iicstat stop ∈ new))

/-- A call that found the controller at `hw` has returned: there has been one START with as many
bytes after it as are in the buffer, which holds `buf`, and `new` has been done on the bus. -/
structure Returned (hw : Iic) (buf : List (BitVec 8)) (new : List Event) (c : Transfer) : Prop where
  /-- It has returned. -/
  pc : c.pc = .ret
  /-- No interrupt will come. -/
  idle : c.engine.hw.wire = .idle
  /-- One START. -/
  starts : c.engine.hw.starts = hw.starts + 1
  /-- The data bytes that have gone over the wire. -/
  clocked : c.engine.hw.clocked = buf.length
  /-- What is in the buffer. -/
  pData : c.engine.pData = buf
  /-- What has been done on the bus. -/
  log : c.engine.hw.log = hw.log ++ new

/-! ### The buffer -/

variable {got rest buf : List (BitVec 8)} {b v : BitVec 8}

@[simp] theorem getByte_append : getByte (got ++ b :: rest) got.length = some b := by
  rw [getByte, if_pos (Int.natCast_nonneg _), Int.toNat_natCast, List.getElem?_append_right le_rfl,
    Nat.sub_self, List.getElem?_cons_zero]

@[simp] theorem setByte_append :
    setByte (got ++ b :: rest) got.length v = some (got ++ v :: rest) := by
  have hlen : (got.length : ℤ) < (got ++ b :: rest).length := by
    rw [List.length_append, List.length_cons]
    omega
  rw [setByte, if_pos ⟨Int.natCast_nonneg _, hlen⟩, Int.toNat_natCast,
    List.set_append_right _ _ le_rfl, Nat.sub_self, List.set_cons_zero]

/-! ### The handler's branches -/

variable {e e' : Engine} {pData : List (BitVec 8)} {n : ℕ}

/-- A write with bytes left. -/
theorem handle_send (hmode : e.mode = wrdata) (hcount : e.dataCount ≠ 0)
    (hb : getByte e.pData e.pt = some b) :
    i2cIntHandle e = some { e with
      dataCount := e.dataCount - 1
      pt := e.pt + 1
      hw := (e.hw.writeIicds (b.setWidth 32)).writeIiccon 0xaf } := by
  rw [i2cIntHandle, if_pos hmode, if_neg hcount, hb, Option.map_some]

/-- A write with none. -/
theorem handle_sent (hmode : e.mode = wrdata) (hcount : e.dataCount = 0) :
    i2cIntHandle e = some { e with
      dataCount := e.dataCount - 1
      hw := (e.hw.writeIicstat 0xd0).writeIiccon 0xaf } := by
  rw [i2cIntHandle, if_pos hmode, if_pos hcount]

theorem mode_ne (hmode : e.mode = rddata) : e.mode ≠ wrdata := by
  simp [hmode, wrdata, rddata]

/-- The first interrupt of a read. -/
theorem handle_address (hmode : e.mode = rddata) (hpt : e.pt = -1) :
    i2cIntHandle e = some { e with
      pt := 0
      hw := e.hw.writeIiccon (receiveCon e.dataCount) } := by
  rw [i2cIntHandle, if_neg (mode_ne hmode), if_pos hmode, if_pos hpt]

/-- The others, with `n` bytes left after the one that is stored. -/
theorem handle_store (hmode : e.mode = rddata) (hpt : e.pt ≠ -1)
    (hset : setByte e.pData e.pt (e.hw.iicds.setWidth 8) = some pData)
    (hcount : e.dataCount - 1 = n) :
    i2cIntHandle e = some { e with
      pData := pData
      pt := e.pt + 1
      dataCount := n
      hw := if n = 0 then (e.hw.writeIicstat 0x90).writeIiccon 0xaf
        else e.hw.writeIiccon (receiveCon n) } := by
  rw [i2cIntHandle, if_neg (mode_ne hmode), if_pos hmode, if_neg hpt, hset, Option.map_some]
  simp only [hcount]
  cases n with
  | zero => rfl
  | succ n => rw [if_neg (Nat.succ_ne_zero n), if_neg (by omega)]

/-! ### During a transfer -/

variable {slave : ℕ → Slave} {hw₀ hw : Iic} {tx : Bool} {k : ℕ} {log : List Event}

/-- The bus is held by a transfer (`tx` for out) that found the controller at `hw₀`; `k` bytes have
gone over the wire, and `log` has been done on the bus. -/
structure Held (hw₀ : Iic) (tx : Bool) (k : ℕ) (log : List Event) (hw : Iic) : Prop where
  /-- The bus is held. -/
  busy : hw.iicstat.getLsbD 5 = true
  /-- The direction. -/
  mode : hw.iicstat.getLsbD 6 = tx
  /-- One START. -/
  starts : hw.starts = hw₀.starts + 1
  /-- The bytes of this transfer. -/
  clocked : hw.clocked = k
  /-- What has been done on the bus. -/
  log : hw.log = hw₀.log ++ log

variable (hw₀) in
/-- The transfer has just been started. -/
theorem held_start (slvAddr : BitVec 32) {start : BitVec 32} (hs : start.getLsbD 5 = true)
    (hm : start.getLsbD 6 = tx) :
    Held hw₀ tx 0 [.iicds slvAddr, .iicstat start] ((hw₀.writeIicds slvAddr).writeIicstat start) ∧
      ((hw₀.writeIicds slvAddr).writeIicstat start).wire = .address := by
  rw [writeIicstat_of_start _ _ hs]
  refine ⟨⟨hs, hm, rfl, rfl, ?_⟩, rfl⟩
  show (hw₀.log ++ _) ++ _ = _
  rw [List.append_assoc]
  rfl

variable (slave) in
/-- The address byte is over. -/
theorem Held.clock_address (h : Held hw₀ tx 0 log hw) (hwire : hw.wire = .address) :
    ∃ hw', hw.clock slave = some hw' ∧ Held hw₀ tx 0 log hw' ∧ hw'.iiccon.getLsbD 4 = true := by
  refine ⟨_, clock_of_address _ hwire, ?_, byteOver_pending hw _⟩
  exact {
    busy := (ackBit_busy _ _).trans h.busy
    mode := (ackBit_mode _ _).trans h.mode
    starts := h.starts
    clocked := h.clocked
    log := h.log }

variable (slave) in
/-- A byte that was sent is over. -/
theorem Held.clock_sent (h : Held hw₀ true k log hw) (hwire : hw.wire = .data) :
    ∃ hw', hw.clock slave = some hw' ∧ Held hw₀ true (k + 1) log hw' ∧
      hw'.iiccon.getLsbD 4 = true := by
  refine ⟨_, clock_of_sent _ hwire h.mode, ?_, byteOver_pending hw hw.iicstat⟩
  exact {
    busy := (ackBit_busy _ _).trans h.busy
    mode := (ackBit_mode _ _).trans h.mode
    starts := h.starts
    clocked := congrArg (· + 1) h.clocked
    log := h.log }

variable (slave) in
/-- A byte that was received is over. -/
theorem Held.clock_received (h : Held hw₀ false k log hw) (hwire : hw.wire = .data) :
    ∃ hw', hw.clock slave = some hw' ∧
      Held hw₀ false (k + 1) (log ++ [.received (hw.iiccon.getLsbD 7)]) hw' ∧
      hw'.iiccon.getLsbD 4 = true ∧
      hw'.iicds.setWidth 8 = (slave (hw₀.starts + 1)).bytes k := by
  refine ⟨_, clock_of_received _ hwire h.mode, ?_, byteOver_pending hw hw.iicstat, ?_⟩
  · exact {
      busy := h.busy
      mode := h.mode
      starts := h.starts
      clocked := congrArg (· + 1) h.clocked
      log := by
        show hw.log ++ _ = _
        rw [h.log, List.append_assoc] }
  · show (BitVec.setWidth 32 ((slave hw.starts).bytes hw.clocked)).setWidth 8 = _
    rw [h.starts, h.clocked, BitVec.setWidth_setWidth_of_le _ (by omega), BitVec.setWidth_eq]

/-- The handler goes on with the next byte. -/
theorem Held.resume (h : Held hw₀ tx k log hw) (hpending : hw.iiccon.getLsbD 4 = true)
    (con : BitVec 32) (hcon : con.getLsbD 4 = false) :
    Held hw₀ tx k log (hw.writeIiccon con) ∧ (hw.writeIiccon con).wire = .data :=
  ⟨⟨h.busy, h.mode, h.starts, h.clocked, h.log⟩,
    (writeIiccon_wire hw con hpending hcon).trans (if_pos h.busy)⟩

/-- The handler puts a byte into IICDS. -/
theorem Held.put (h : Held hw₀ tx k log hw) (d : BitVec 32) :
    Held hw₀ tx k (log ++ [.iicds d]) (hw.writeIicds d) where
  busy := h.busy
  mode := h.mode
  starts := h.starts
  clocked := h.clocked
  log := by
    show hw.log ++ _ = _
    rw [h.log, List.append_assoc]

/-- The bus has been given back after `k` bytes. -/
structure Released (hw₀ : Iic) (k : ℕ) (log : List Event) (hw : Iic) : Prop where
  /-- No interrupt will come. -/
  idle : hw.wire = .idle
  /-- One START. -/
  starts : hw.starts = hw₀.starts + 1
  /-- The bytes of this transfer. -/
  clocked : hw.clocked = k
  /-- What has been done on the bus. -/
  log : hw.log = hw₀.log ++ log

/-- The handler issues a STOP. -/
theorem Held.stop (h : Held hw₀ tx k log hw) (hpending : hw.iiccon.getLsbD 4 = true)
    (stop : BitVec 32) (hstop : stop.getLsbD 5 = false) :
    Released hw₀ k (log ++ [.iicstat stop]) ((hw.writeIicstat stop).writeIiccon 0xaf) := by
  rw [writeIicstat_of_not_start hw stop hstop]
  refine ⟨?_, h.starts, h.clocked, ?_⟩
  · rw [writeIiccon_wire _ 0xaf (by exact hpending) rfl]
    exact if_neg (by simp only [hstop, Bool.false_eq_true, not_false_eq_true])
  · show hw.log ++ _ = _
    rw [h.log, List.append_assoc]

/-- The byte on the wire is over, and the handler leads from `e` to `e'` without a fault. -/
def Served (slave : ℕ → Slave) (e e' : Engine) : Prop :=
  ∃ hw, e.hw.clock slave = some hw ∧ i2cIntHandle { e with hw := hw } = some e'

/-! ### Sending -/

/-- The log of a write that has put `sent` into IICDS. -/
def sentLog (slvAddr : BitVec 32) (sent : List (BitVec 8)) : List Event :=
  [.iicds slvAddr, .iicstat 0xf0] ++ sent.map fun b => .iicds (b.setWidth 32)

theorem sentLog_append (slvAddr : BitVec 32) (sent : List (BitVec 8)) (b : BitVec 8) :
    sentLog slvAddr (sent ++ [b]) = sentLog slvAddr sent ++ [.iicds (b.setWidth 32)] := by
  simp [sentLog]

@[simp] theorem stop_not_mem_sentLog (slvAddr : BitVec 32) (sent : List (BitVec 8)) :
    Event.iicstat 0xd0 ∉ sentLog slvAddr sent := by
  simp [sentLog]

/-- A write waits for an interrupt, with `sent` put into IICDS and `rest` still to be; the byte on
the wire is the last one put there. -/
structure Sending (hw₀ : Iic) (slvAddr : BitVec 32) (sent rest : List (BitVec 8)) (e : Engine) :
    Prop where
  /-- It is a write. -/
  mode : e.mode = wrdata
  /-- The buffer is as it was. -/
  pData : e.pData = sent ++ rest
  /-- The next byte. -/
  pt : e.pt = sent.length
  /-- The number of bytes left. -/
  dataCount : e.dataCount = rest.length
  /-- The byte on the wire. -/
  bus : Held hw₀ true 0 (sentLog slvAddr sent) e.hw ∧ e.hw.wire = .address ∧ sent = [] ∨
    ∃ k, Held hw₀ true k (sentLog slvAddr sent) e.hw ∧ e.hw.wire = .data ∧ k + 1 = sent.length

variable {slvAddr : BitVec 32} {sent : List (BitVec 8)}

variable (slave) in
/-- The byte on the wire is over. -/
theorem Sending.clock (h : Sending hw₀ slvAddr sent rest e) :
    ∃ hw, e.hw.clock slave = some hw ∧ Held hw₀ true sent.length (sentLog slvAddr sent) hw ∧
      hw.iiccon.getLsbD 4 = true := by
  rcases h.bus with ⟨hheld, hwire, rfl⟩ | ⟨k, hheld, hwire, hk⟩
  · exact hheld.clock_address slave hwire
  · rw [← hk]
    exact hheld.clock_sent slave hwire

variable (slave) in
/-- An interrupt with bytes left. -/
theorem Sending.next (h : Sending hw₀ slvAddr sent (b :: rest) e) :
    ∃ e', Served slave e e' ∧ Sending hw₀ slvAddr (sent ++ [b]) rest e' := by
  obtain ⟨hw, hclock, hheld, hpending⟩ := h.clock slave
  have hlen : (sent ++ [b]).length = sent.length + 1 := by simp
  have hcount : e.dataCount = rest.length + 1 := h.dataCount
  have hne : e.dataCount ≠ 0 := by omega
  have hget : getByte e.pData e.pt = some b := by simp [h.pData, h.pt]
  obtain ⟨hheld', hwire⟩ := (hheld.put (b.setWidth 32)).resume hpending 0xaf rfl
  refine ⟨_, ⟨hw, hclock, handle_send h.mode hne hget⟩, ?_⟩
  exact {
    mode := h.mode
    pData := h.pData.trans (List.append_cons sent b rest)
    pt := by
      show e.pt + 1 = _
      rw [h.pt, hlen]
      rfl
    dataCount := by
      show e.dataCount - 1 = _
      rw [hcount, Int.add_sub_cancel]
    bus := by
      rw [sentLog_append]
      exact .inr ⟨sent.length, hheld', hwire, hlen.symm⟩ }

variable (slave) in
/-- The interrupt after the last byte. -/
theorem Sending.last (h : Sending hw₀ slvAddr sent [] e) :
    ∃ e', Served slave e e' ∧ e'.pData = sent ∧ e'.dataCount = -1 ∧
      Released hw₀ sent.length (sentLog slvAddr sent ++ [.iicstat 0xd0]) e'.hw := by
  obtain ⟨hw, hclock, hheld, hpending⟩ := h.clock slave
  have hcount : e.dataCount = 0 := h.dataCount
  refine ⟨_, ⟨hw, hclock, handle_sent h.mode hcount⟩, ?_, ?_, hheld.stop hpending 0xd0 rfl⟩
  · exact h.pData.trans (List.append_nil sent)
  · show e.dataCount - 1 = -1
    rw [hcount]
    rfl

/-! ### Receiving -/

/-- The log of a read that has received `k` bytes, each acknowledged. -/
def receivedLog (slvAddr : BitVec 32) (k : ℕ) : List Event :=
  [.iicds slvAddr, .iicstat 0xb0] ++ List.replicate k (.received true)

theorem receivedLog_succ (slvAddr : BitVec 32) (k : ℕ) :
    receivedLog slvAddr (k + 1) = receivedLog slvAddr k ++ [.received true] := by
  simp [receivedLog, List.replicate_succ']

@[simp] theorem stop_not_mem_receivedLog (slvAddr : BitVec 32) (k : ℕ) :
    Event.iicstat 0x90 ∉ receivedLog slvAddr k := by
  simp [receivedLog]

/-- The first `k` bytes that the device shifts out in this transfer. -/
def bytesFrom (slave : ℕ → Slave) (hw₀ : Iic) (k : ℕ) : List (BitVec 8) :=
  (List.range k).map (slave (hw₀.starts + 1)).bytes

theorem bytesFrom_succ (slave : ℕ → Slave) (hw₀ : Iic) (k : ℕ) :
    bytesFrom slave hw₀ (k + 1) =
      bytesFrom slave hw₀ k ++ [(slave (hw₀.starts + 1)).bytes k] := by
  simp [bytesFrom, List.range_succ]

@[simp] theorem length_bytesFrom (slave : ℕ → Slave) (hw₀ : Iic) (k : ℕ) :
    (bytesFrom slave hw₀ k).length = k := by
  simp [bytesFrom]

/-- A read waits for a data byte, with `k` stored and `rest` still as it was. The acknowledge is off
only for the last byte. -/
structure Receiving (slave : ℕ → Slave) (hw₀ : Iic) (slvAddr : BitVec 32) (k : ℕ)
    (rest : List (BitVec 8)) (e : Engine) : Prop where
  /-- It is a read. -/
  mode : e.mode = rddata
  /-- What is in the buffer. -/
  pData : e.pData = bytesFrom slave hw₀ k ++ rest
  /-- The next byte. -/
  pt : e.pt = k
  /-- The number of bytes left. -/
  dataCount : e.dataCount = rest.length
  /-- A data byte is on the wire. -/
  wire : e.hw.wire = .data
  /-- The bus. -/
  held : Held hw₀ false k (receivedLog slvAddr k) e.hw
  /-- The acknowledge for the byte on the wire. -/
  ack : e.hw.iiccon.getLsbD 7 = decide (rest.length ≠ 1)

@[simp] theorem receiveCon_pending (dataCount : ℤ) : (receiveCon dataCount).getLsbD 4 = false := by
  rw [receiveCon]
  split <;> rfl

@[simp] theorem receiveCon_ack (n : ℕ) : (receiveCon n).getLsbD 7 = decide (n ≠ 1) := by
  rcases eq_or_ne n 1 with rfl | hn
  · rfl
  · rw [receiveCon, if_neg (by omega), decide_eq_true hn]
    rfl

variable (slave) in
/-- The interrupt after the address byte: nothing is stored. -/
theorem Receiving.first (hmode : e.mode = rddata) (hpt : e.pt = -1) (hdata : e.pData = buf)
    (hcount : e.dataCount = buf.length) (hwire : e.hw.wire = .address)
    (hheld : Held hw₀ false 0 (receivedLog slvAddr 0) e.hw) :
    ∃ e', Served slave e e' ∧ Receiving slave hw₀ slvAddr 0 buf e' := by
  obtain ⟨hw, hclock, hheld, hpending⟩ := hheld.clock_address slave hwire
  obtain ⟨hheld', hwire'⟩ := hheld.resume hpending _ (receiveCon_pending e.dataCount)
  refine ⟨_, ⟨hw, hclock, handle_address hmode hpt⟩, ?_⟩
  exact {
    mode := hmode
    pData := hdata
    pt := rfl
    dataCount := hcount
    wire := hwire'
    held := hheld'
    ack := by
      show (receiveCon e.dataCount).getLsbD 7 = _
      rw [hcount, receiveCon_ack] }

/-- What the interrupt after a data byte stores. -/
theorem Receiving.store (h : Receiving slave hw₀ slvAddr k (b :: rest) e)
    (hx : hw.iicds.setWidth 8 = (slave (hw₀.starts + 1)).bytes k) :
    i2cIntHandle { e with hw := hw } = some { e with
      pData := bytesFrom slave hw₀ (k + 1) ++ rest
      pt := e.pt + 1
      dataCount := rest.length
      hw := if rest.length = 0 then (hw.writeIicstat 0x90).writeIiccon 0xaf
        else hw.writeIiccon (receiveCon rest.length) } := by
  have hpt : e.pt ≠ -1 := by
    rw [h.pt]
    omega
  have hcount : e.dataCount - 1 = rest.length := by
    rw [h.dataCount, List.length_cons]
    omega
  have hat : e.pt = (bytesFrom slave hw₀ k).length := by simp [h.pt]
  have hset : setByte e.pData e.pt (hw.iicds.setWidth 8) =
      some (bytesFrom slave hw₀ (k + 1) ++ rest) := by
    rw [h.pData, hat, setByte_append, hx, bytesFrom_succ, ← List.append_cons]
  exact handle_store h.mode hpt hset hcount

/-- The interrupt after a byte that is not the last. -/
theorem Receiving.next (h : Receiving slave hw₀ slvAddr k (b :: rest) e) (hrest : rest ≠ []) :
    ∃ e', Served slave e e' ∧ Receiving slave hw₀ slvAddr (k + 1) rest e' := by
  obtain ⟨hw, hclock, hheld, hpending, hx⟩ := h.held.clock_received slave h.wire
  have hlen : rest.length ≠ 0 := fun h0 => hrest (List.eq_nil_of_length_eq_zero h0)
  have hack : e.hw.iiccon.getLsbD 7 = true := by
    rw [h.ack, List.length_cons]
    exact decide_eq_true (by omega)
  rw [hack, ← receivedLog_succ] at hheld
  obtain ⟨hheld', hwire'⟩ := hheld.resume hpending _ (receiveCon_pending rest.length)
  have hstore := h.store hx
  rw [if_neg hlen] at hstore
  refine ⟨_, ⟨hw, hclock, hstore⟩, ?_⟩
  exact {
    mode := h.mode
    pData := rfl
    pt := by
      show e.pt + 1 = _
      rw [h.pt]
      rfl
    dataCount := rfl
    wire := hwire'
    held := hheld'
    ack := receiveCon_ack rest.length }

/-- The interrupt after the last byte. -/
theorem Receiving.last (h : Receiving slave hw₀ slvAddr k [b] e) :
    ∃ e', Served slave e e' ∧ e'.pData = bytesFrom slave hw₀ (k + 1) ∧ e'.dataCount = 0 ∧
      Released hw₀ (k + 1) (receivedLog slvAddr k ++ [.received false, .iicstat 0x90]) e'.hw := by
  obtain ⟨hw, hclock, hheld, hpending, hx⟩ := h.held.clock_received slave h.wire
  have hack : e.hw.iiccon.getLsbD 7 = false := h.ack
  rw [hack] at hheld
  refine ⟨_, ⟨hw, hclock, h.store hx⟩, List.append_nil _, rfl, ?_⟩
  have hstop := hheld.stop hpending 0x90 rfl
  rwa [List.append_assoc] at hstop

/-! ### The whole call -/

section Call

variable {cpu : Transfer → Option Transfer} {c u : Transfer} {P Q : Transfer → Prop}

/-- On an idle wire only the program moves. -/
theorem transfer_cpu (hidle : c.engine.hw.wire = .idle) (hq : Q c) (hu : cpu c = some u)
    (h : Until (transferStep slave cpu) Q P u) : Until (transferStep slave cpu) Q P c := by
  refine until_of_cpu hq hu ?_ h
  simp only [transferStep, Iic.clock, hidle, Option.map_none]

/-- In the waiting loop only the interrupt moves. -/
theorem transfer_byte (hq : Q ⟨.wait, e⟩) (hserved : Served slave e e')
    (hcpu : cpu ⟨.wait, e⟩ = none) (h : Until (transferStep slave cpu) Q P ⟨.wait, e'⟩) :
    Until (transferStep slave cpu) Q P ⟨.wait, e⟩ := by
  obtain ⟨hw, hclock, hhandle⟩ := hserved
  have hbyte : transferStep slave cpu ⟨.wait, e⟩ .byte = some ⟨.wait, e'⟩ := by
    simp only [transferStep, hclock, Option.map_some, hhandle]
  exact until_of_byte hq hbyte hcpu h

variable {mode pt exit len : ℤ} {start stop : BitVec 32}

/-- From the call to the waiting loop. -/
theorem until_started (hidle : e.hw.wire = .idle)
    (h : Until (transferStep slave (transfer mode pt start exit slvAddr buf len))
      (ExitsAtStop e.hw.log stop exit) P
      ⟨.wait, (e.hw.writeIicds slvAddr).writeIicstat start, buf, len, mode, pt⟩) :
    Until (transferStep slave (transfer mode pt start exit slvAddr buf len))
      (ExitsAtStop e.hw.log stop exit) P ⟨.mode, e⟩ :=
  have hq {pc : TransferPc} {e' : Engine} (hf : pc ≠ .fault) (hw : pc ≠ .wait) :
      ExitsAtStop e.hw.log stop exit ⟨pc, e'⟩ := ⟨hf, fun h => absurd h hw⟩
  transfer_cpu hidle (hq nofun nofun) rfl <| transfer_cpu hidle (hq nofun nofun) rfl <|
    transfer_cpu hidle (hq nofun nofun) rfl <| transfer_cpu hidle (hq nofun nofun) rfl <|
    transfer_cpu hidle (hq nofun nofun) rfl <| transfer_cpu hidle (hq nofun nofun) rfl h

/-- In the waiting loop before the STOP. -/
theorem until_waiting (hlog : e.hw.log = hw₀.log ++ log) (hstop : Event.iicstat stop ∉ log)
    (hcount : e.dataCount ≠ exit) (hserved : Served slave e e')
    (h : Until (transferStep slave (transfer mode pt start exit slvAddr buf len))
      (ExitsAtStop hw₀.log stop exit) P ⟨.wait, e'⟩) :
    Until (transferStep slave (transfer mode pt start exit slvAddr buf len))
      (ExitsAtStop hw₀.log stop exit) P ⟨.wait, e⟩ := by
  refine transfer_byte ⟨nofun, fun _ => ⟨log, hlog, ?_⟩⟩ hserved (if_neg hcount) h
  exact iff_of_false hcount hstop

/-- And after it. -/
theorem until_returned {sent : List (BitVec 8)} (hcount : e.dataCount = exit)
    (hdata : e.pData = sent) (hstop : Event.iicstat stop ∈ log)
    (hrel : Released hw₀ sent.length log e.hw) :
    Until (transferStep slave (transfer mode pt start exit slvAddr buf len))
      (ExitsAtStop hw₀.log stop exit) (Returned hw₀ sent log) ⟨.wait, e⟩ := by
  refine transfer_cpu hrel.idle ⟨nofun, fun _ => ⟨log, hrel.log, ?_⟩⟩ (if_pos hcount) (.now ?_)
  · exact iff_of_true hcount hstop
  · exact ⟨rfl, hrel.idle, hrel.starts, hrel.clocked, hdata, hrel.log⟩

end Call

theorem Sending.log_eq (h : Sending hw₀ slvAddr sent rest e) :
    e.hw.log = hw₀.log ++ sentLog slvAddr sent := by
  rcases h.bus with ⟨hheld, -⟩ | ⟨k, hheld, -⟩
  · exact hheld.log
  · exact hheld.log

/-- The waiting loop of a write. -/
theorem Sending.returns {len : ℤ} (h : Sending hw₀ slvAddr sent rest e) :
    Until (transferStep slave (i2cWrite slvAddr buf len)) (ExitsAtStop hw₀.log 0xd0 (-1))
      (Returned hw₀ (sent ++ rest) (sentLog slvAddr (sent ++ rest) ++ [.iicstat 0xd0]))
      ⟨.wait, e⟩ := by
  induction rest generalizing sent e with
  | nil =>
    have hcount : e.dataCount ≠ -1 := by
      rw [h.dataCount]
      decide
    obtain ⟨e', hserved, hdata, hexit, hrel⟩ := h.last slave
    rw [List.append_nil]
    refine until_waiting h.log_eq (stop_not_mem_sentLog slvAddr sent) hcount hserved ?_
    exact until_returned hexit hdata (by simp) hrel
  | cons b rest ih =>
    have hcount : e.dataCount ≠ -1 := by
      rw [h.dataCount]
      omega
    obtain ⟨e', hserved, hnext⟩ := h.next slave
    rw [List.append_cons]
    exact until_waiting h.log_eq (stop_not_mem_sentLog slvAddr sent) hcount hserved (ih hnext)

/-- The waiting loop of a read, from the first data byte on. -/
theorem Receiving.returns {len : ℤ} (h : Receiving slave hw₀ slvAddr k (b :: rest) e) :
    Until (transferStep slave (i2cRead slvAddr buf len)) (ExitsAtStop hw₀.log 0x90 0)
      (Returned hw₀ (bytesFrom slave hw₀ (k + rest.length + 1))
        (receivedLog slvAddr (k + rest.length) ++ [.received false, .iicstat 0x90]))
      ⟨.wait, e⟩ := by
  have hcount : e.dataCount ≠ 0 := by
    simp only [h.dataCount, List.length_cons]
    omega
  have hstop := stop_not_mem_receivedLog slvAddr k
  induction rest generalizing b k e with
  | nil =>
    obtain ⟨e', hserved, hdata, hexit, hrel⟩ := h.last
    refine until_waiting h.held.log hstop hcount hserved ?_
    refine until_returned hexit hdata (by simp) ?_
    rwa [length_bytesFrom]
  | cons d rest ih =>
    obtain ⟨e', hserved, hnext⟩ := h.next (List.cons_ne_nil d rest)
    refine until_waiting h.held.log hstop hcount hserved ?_
    have hlen : k + (d :: rest).length = k + 1 + rest.length := by
      simp only [List.length_cons]
      omega
    have hcount' : e'.dataCount ≠ 0 := by
      simp only [hnext.dataCount, List.length_cons]
      omega
    rw [hlen]
    exact ih hnext hcount' (stop_not_mem_receivedLog slvAddr (k + 1))

/-- `i2c_write` and `i2c_read` with a buffer that is not empty: each returns, without a fault, after
one START, the bytes and one STOP, and its waiting loop ends exactly after the STOP. The write
puts the address and the buffer into IICDS; the read fills the buffer with the device's bytes, with
the acknowledge on for each but the last. -/
theorem i2c_exact (slave : ℕ → Slave) (e : Engine) (hidle : e.hw.wire = .idle) (slvAddr : BitVec 32)
    (buf : List (BitVec 8)) (hbuf : buf ≠ []) :
    Until (transferStep slave (i2cWrite slvAddr buf buf.length)) (ExitsAtStop e.hw.log 0xd0 (-1))
        (Returned e.hw buf
          ([.iicds slvAddr, .iicstat 0xf0] ++ buf.map (fun b => .iicds (b.setWidth 32)) ++
            [.iicstat 0xd0]))
        ⟨.mode, e⟩ ∧
      Until (transferStep slave (i2cRead slvAddr buf buf.length)) (ExitsAtStop e.hw.log 0x90 0)
        (Returned e.hw ((List.range buf.length).map (slave (e.hw.starts + 1)).bytes)
          ([.iicds slvAddr, .iicstat 0xb0] ++ List.replicate (buf.length - 1) (.received true) ++
            [.received false, .iicstat 0x90]))
        ⟨.mode, e⟩ := by
  constructor
  · obtain ⟨hheld, hwire⟩ : Held e.hw true 0 (sentLog slvAddr []) _ ∧ _ :=
      held_start e.hw slvAddr rfl rfl
    exact until_started hidle
      (Sending.returns ⟨rfl, rfl, rfl, rfl, .inl ⟨hheld, hwire, rfl⟩⟩)
  · obtain ⟨hheld, hwire⟩ : Held e.hw false 0 (receivedLog slvAddr 0) _ ∧ _ :=
      held_start e.hw slvAddr rfl rfl
    obtain ⟨b, rest, rfl⟩ := List.exists_cons_of_ne_nil hbuf
    have hcount : ((b :: rest).length : ℤ) ≠ 0 := by
      rw [List.length_cons]
      omega
    obtain ⟨e', hserved, hfirst⟩ := Receiving.first slave
      (e := ⟨_, b :: rest, (b :: rest).length, rddata, -1⟩) rfl rfl rfl rfl hwire hheld
    refine until_started hidle ?_
    refine until_waiting hheld.log (stop_not_mem_receivedLog slvAddr 0) hcount hserved ?_
    have hret : Until (transferStep slave (i2cRead slvAddr (b :: rest) (b :: rest).length)) _ _ _ :=
      hfirst.returns
    rw [Nat.zero_add] at hret
    exact hret

/-- A device that shifts out 5, 6, 7, and so on. -/
def fiveSlave (_ : ℕ) : Slave := ⟨true, fun _ => true, fun k => BitVec.ofNat 8 (k + 5)⟩

/-- The engine before the first transfer. -/
def restEngine : Engine := ⟨⟨0xaf, 0x10, 0, .idle, 0, 0, []⟩, [], 0, 0, 0⟩

theorem i2c_exact_two :
    Until (transferStep fiveSlave (i2cWrite 0xa0 [1, 2] 2)) (ExitsAtStop [] 0xd0 (-1))
        (Returned restEngine.hw [1, 2]
          [.iicds 0xa0, .iicstat 0xf0, .iicds 1, .iicds 2, .iicstat 0xd0])
        ⟨.mode, restEngine⟩ ∧
      Until (transferStep fiveSlave (i2cRead 0xa0 [1, 2] 2)) (ExitsAtStop [] 0x90 0)
        (Returned restEngine.hw [5, 6]
          [.iicds 0xa0, .iicstat 0xb0, .received true, .received false, .iicstat 0x90])
        ⟨.mode, restEngine⟩ :=
  i2c_exact fiveSlave restEngine rfl 0xa0 [1, 2] (List.cons_ne_nil 1 [2])

end S3c2440.Oled
