import S3c2440.Theory.Runs
import Mathlib.Data.Int.Basic
import Mathlib.Logic.Function.Basic

/-!
# The I2C controller

`bare_board/code/I2c/20200510_IIC/i2c/s3c2440_i2c_controller.c`: one message is sent or
received by `do_master_tx` or `do_master_rx`, which start the transfer and then wait on
the message's counter and error, while `i2c_interrupt_func` runs after every byte and
decides what happens next.

## The hardware

`Iic` has the registers the code uses and what is on the wire. Writing IICSTAT with
bit 5 set issues a START and sends the byte in IICDS; a byte that is over sets the
interrupt-pending bit of IICCON (bit 4), and clearing that bit goes on with the next byte
while bit 5 of IICSTAT is set, and leaves the wire idle after a STOP has been asked for
(bit 5 written as zero). Bit 0 of IICSTAT says that a byte was not acknowledged.
The other side is given: `slave m` is the device that answers the `m`-th START.
`log` is not in the hardware; it keeps what the code writes to IICSTAT and IICDS and
the acknowledge bit (bit 7 of IICCON) in force for each byte received.

## The program

`do_master_tx` and `do_master_rx` take one statement a step (`doMaster`), their waiting loop
a step that can be taken only when the loop would end. A byte that is over is one step with
the interrupt it causes (`interrupt`): the handler runs with interrupts off, and the
code it interrupts does not look at the registers. The handler's `delay(1000)` has no effect
here. The counters stay between -1 and `len`, so `int` is `ℤ`; a buffer is memory
around a pointer, so it is read and written at any index.
-/

namespace S3c2440.I2c

open Theory

/-! ### The hardware -/

/-- What the code does on the bus. -/
inductive Event where
  /-- IICSTAT is written. -/
  | iicstat (v : BitVec 32)
  /-- IICDS is written. -/
  | iicds (v : BitVec 32)
  /-- A data byte has been received, with the acknowledge bit at `ack`. -/
  | received (ack : Bool)
  deriving DecidableEq

/-- What is under way on the wire. -/
inductive Wire where
  /-- Nothing: no interrupt will come. -/
  | idle
  /-- The address byte. -/
  | address
  /-- A data byte. -/
  | data
  deriving DecidableEq

/-- A device, for one transfer. -/
structure Slave where
  /-- It acknowledges its address. -/
  ack : Bool
  /-- It acknowledges the `k`-th byte sent to it. -/
  dataAck : ℕ → Bool
  /-- The bytes it shifts out. -/
  bytes : ℕ → BitVec 8

/-- The controller. -/
structure Iic where
  /-- IICCON. -/
  iiccon : BitVec 32
  /-- IICSTAT. -/
  iicstat : BitVec 32
  /-- IICDS. -/
  iicds : BitVec 32
  /-- What is under way. -/
  wire : Wire
  /-- How many STARTs there have been. -/
  starts : ℕ
  /-- How many data bytes there have been since the last START. -/
  clocked : ℕ
  /-- What the code has done on the bus, in order. -/
  log : List Event

/-- `IICCON = v`. -/
def Iic.writeIiccon (hw : Iic) (v : BitVec 32) : Iic :=
  { hw with
    iiccon := v
    wire :=
      if hw.iiccon.getLsbD 4 && !v.getLsbD 4 then
        if hw.iicstat.getLsbD 5 then .data else .idle
      else hw.wire }

/-- `IICSTAT = v`. -/
def Iic.writeIicstat (hw : Iic) (v : BitVec 32) : Iic :=
  if v.getLsbD 5 then
    { hw with
      iicstat := v
      wire := .address
      starts := hw.starts + 1
      clocked := 0
      log := hw.log ++ [.iicstat v] }
  else { hw with iicstat := v, log := hw.log ++ [.iicstat v] }

/-- `IICDS = v`. -/
def Iic.writeIicds (hw : Iic) (v : BitVec 32) : Iic :=
  { hw with iicds := v, log := hw.log ++ [.iicds v] }

/-- The acknowledge of a byte in bit 0 of IICSTAT, a one for none. -/
def ackBit (iicstat : BitVec 32) (ack : Bool) : BitVec 32 :=
  if ack then iicstat &&& ~~~1#32 else iicstat ||| 1#32

/-- A byte is over: the pending bit is set, and nothing moves until it is cleared. -/
def Iic.byteOver (hw : Iic) (iicstat : BitVec 32) : Iic :=
  { hw with iiccon := hw.iiccon ||| 1#32 <<< 4, iicstat := iicstat, wire := .idle }

/-- The byte under way goes over the wire. -/
def Iic.clock (slave : ℕ → Slave) (hw : Iic) : Option Iic :=
  match hw.wire with
  | .idle => none
  | .address => some (hw.byteOver (ackBit hw.iicstat (slave hw.starts).ack))
  | .data =>
    if hw.iicstat.getLsbD 6 then
      some { hw.byteOver (ackBit hw.iicstat ((slave hw.starts).dataAck hw.clocked)) with
        clocked := hw.clocked + 1 }
    else
      some { hw.byteOver hw.iicstat with
        iicds := ((slave hw.starts).bytes hw.clocked).setWidth 32
        clocked := hw.clocked + 1
        log := hw.log ++ [.received (hw.iiccon.getLsbD 7)] }

/-! ### The interrupt -/

/-- `struct i2c_msg`. -/
structure I2cMsg where
  /-- The device. -/
  addr : BitVec 32
  /-- 0 to write, 1 to read. -/
  flags : ℤ
  /-- The number of bytes. -/
  len : ℤ
  /-- The number of bytes so far, -1 before the address. -/
  cntTransferred : ℤ
  /-- -1 if the device did not answer. -/
  err : ℤ
  /-- The bytes. -/
  buf : ℤ → BitVec 8

/-- `isLastData`. -/
def isLastData (msg : I2cMsg) : Bool := msg.cntTransferred = msg.len - 1

/-- `resume_iic_with_ack`. -/
def resumeIicWithAck (hw : Iic) : Iic :=
  hw.writeIiccon ((hw.iiccon ||| 1#32 <<< 7) &&& ~~~(1#32 <<< 4))

/-- `resume_iic_without_ack`. -/
def resumeIicWithoutAck (hw : Iic) : Iic :=
  hw.writeIiccon (hw.iiccon &&& ~~~(1#32 <<< 7 ||| 1#32 <<< 4))

/-- `IICCON &= ~(1 << 4);`. -/
def clearPending (hw : Iic) : Iic := hw.writeIiccon (hw.iiccon &&& ~~~(1#32 <<< 4))

/-- `i2c_interrupt_func`, with `p_cur_msg` at `msg`. -/
def i2cInterruptFunc (hw : Iic) (msg : I2cMsg) : Iic × I2cMsg :=
  let iicstat := hw.iicstat
  let msg := { msg with cntTransferred := msg.cntTransferred + 1 }
  if msg.flags = 0 then
    if msg.cntTransferred = 0 ∧ iicstat &&& 1#32 <<< 0 ≠ 0 then
      (clearPending (hw.writeIicstat 0xD0), { msg with err := -1 })
    else if msg.cntTransferred < msg.len then
      (clearPending (hw.writeIicds ((msg.buf msg.cntTransferred).setWidth 32)), msg)
    else (clearPending (hw.writeIicstat 0xD0), msg)
  else if msg.cntTransferred = 0 then
    if iicstat &&& 1#32 <<< 0 ≠ 0 then
      (clearPending (hw.writeIicstat 0x90), { msg with err := -1 })
    else (if isLastData msg then resumeIicWithoutAck hw else resumeIicWithAck hw, msg)
  else if msg.cntTransferred < msg.len then
    let index := msg.cntTransferred - 1
    let msg := { msg with buf := Function.update msg.buf index (hw.iicds.setWidth 8) }
    (if isLastData msg then resumeIicWithoutAck hw else resumeIicWithAck hw, msg)
  else (clearPending (hw.writeIicstat 0x90), msg)

/-! ### Sending and receiving a message -/

/-- The controller, the messages in memory, and `p_cur_msg`. -/
structure Sys where
  /-- The hardware. -/
  hw : Iic
  /-- The messages. -/
  msgs : ℕ → I2cMsg
  /-- `p_cur_msg`, NULL before the first message. -/
  pCurMsg : Option ℕ

/-- `s3c2440_i2c_con_init` on a bus at rest, with the messages in memory; the pins and the
registration of the handler are left out. -/
def s3c2440I2cConInit (msgs : ℕ → I2cMsg) : Sys where
  hw :=
    { iiccon := 1#32 <<< 7 ||| 0#32 <<< 6 ||| 1#32 <<< 5 ||| 30#32 <<< 0
      iicstat := 0
      iicds := 0
      wire := .idle
      starts := 0
      clocked := 0
      log := [] }
  msgs := msgs
  pCurMsg := none

/-- A store into message `i`. -/
def Sys.setMsg (s : Sys) (i : ℕ) (msg : I2cMsg) : Sys :=
  { s with msgs := Function.update s.msgs i msg }

/-- A byte is over, and its interrupt is served. -/
def interrupt (slave : ℕ → Slave) (s : Sys) : Option Sys :=
  match s.hw.clock slave, s.pCurMsg with
  | some hw, some i =>
    let (hw, msg) := i2cInterruptFunc hw (s.msgs i)
    some { s.setMsg i msg with hw := hw }
  | _, _ => none

/-- On an idle wire no interrupt comes. -/
theorem interrupt_idle {slave : ℕ → Slave} {s : Sys} (h : s.hw.wire = .idle) :
    interrupt slave s = none := by
  simp only [interrupt, Iic.clock, h]

/-- Where a call of `do_master_tx` or `do_master_rx` is. -/
inductive MasterPc where
  /-- `p_cur_msg = msg;`. -/
  | cur
  /-- `msg->cnt_transferred = -1;`. -/
  | cnt
  /-- `msg->err = 0;`. -/
  | err
  /-- `IICCON |= (1<<7);`. -/
  | con
  /-- `IICSTAT = (1<<4);`. -/
  | stat
  /-- The address byte is put into IICDS. -/
  | ds
  /-- IICSTAT is written to start the transfer. -/
  | start
  /-- `while (!msg->err && msg->cnt_transferred != msg->len);`. -/
  | wait
  /-- `if (msg->err)`. -/
  | test
  /-- Returned. -/
  | ret (err : ℤ)
  deriving DecidableEq

/-- A call in progress. -/
structure Call where
  /-- Where it is. -/
  pc : MasterPc
  /-- The rest of the state. -/
  sys : Sys

/-- One statement of a call for message `i`; the two functions differ in the `address` byte
and in what is written to IICSTAT to `start`. -/
def doMaster (address : BitVec 32 → BitVec 32) (start : BitVec 32) (i : ℕ) (c : Call) :
    Option Call :=
  let s := c.sys
  let msg := s.msgs i
  match c.pc with
  | .cur => some ⟨.cnt, { s with pCurMsg := some i }⟩
  | .cnt => some ⟨.err, s.setMsg i { msg with cntTransferred := -1 }⟩
  | .err => some ⟨.con, s.setMsg i { msg with err := 0 }⟩
  | .con => some ⟨.stat, { s with hw := s.hw.writeIiccon (s.hw.iiccon ||| 1#32 <<< 7) }⟩
  | .stat => some ⟨.ds, { s with hw := s.hw.writeIicstat (1#32 <<< 4) }⟩
  | .ds => some ⟨.start, { s with hw := s.hw.writeIicds (address msg.addr) }⟩
  | .start => some ⟨.wait, { s with hw := s.hw.writeIicstat start }⟩
  | .wait => if msg.err ≠ 0 ∨ msg.cntTransferred = msg.len then some ⟨.test, s⟩ else none
  | .test => some ⟨.ret (if msg.err ≠ 0 then -1 else 0), s⟩
  | .ret _ => none

/-- `do_master_tx`. -/
def doMasterTx : ℕ → Call → Option Call := doMaster (fun addr => addr <<< 1) 0xf0

/-- `do_master_rx`. -/
def doMasterRx : ℕ → Call → Option Call := doMaster (fun addr => addr <<< 1 ||| 1#32 <<< 0) 0xb0

/-- Who moves. -/
inductive Act where
  /-- The program. -/
  | cpu
  /-- The byte on the wire is over. -/
  | byte
  deriving DecidableEq

/-- The call has returned. -/
def MasterPc.returned : MasterPc → Bool
  | .ret _ => true
  | _ => false

/-- A call of `cpu` with the interrupts it causes, until it returns. -/
def masterStep (slave : ℕ → Slave) (cpu : Call → Option Call) (c : Call) (a : Act) : Option Call :=
  if c.pc.returned then none
  else match a with
    | .cpu => cpu c
    | .byte => (interrupt slave c.sys).map fun s => { c with sys := s }

/-! ### Who can move -/

section Moves

variable {σ : Type*} {step : Step σ Act} {P Q : σ → Prop} {s t : σ}

/-- Where no byte is on the wire, it is enough to look at what the program does. -/
theorem until_of_cpu (hq : Q s) (hcpu : step s .cpu = some t) (hbyte : step s .byte = none)
    (h : Until step Q P t) : Until step Q P s := by
  refine .of_only hq hcpu (fun b hb => ?_) h
  cases b with
  | cpu => exact absurd rfl hb
  | byte => exact hbyte

/-- Where the program waits, at what the byte on the wire does. -/
theorem until_of_byte (hq : Q s) (hbyte : step s .byte = some t) (hcpu : step s .cpu = none)
    (h : Until step Q P t) : Until step Q P s := by
  refine .of_only hq hbyte (fun b hb => ?_) h
  cases b with
  | cpu => exact hcpu
  | byte => exact absurd rfl hb

end Moves

/-! ### The registers after a write -/

section Registers

variable (hw : Iic) (v : BitVec 32)

@[simp] theorem writeIiccon_iiccon : (hw.writeIiccon v).iiccon = v := rfl

@[simp] theorem writeIiccon_iicstat : (hw.writeIiccon v).iicstat = hw.iicstat := rfl

@[simp] theorem writeIiccon_starts : (hw.writeIiccon v).starts = hw.starts := rfl

@[simp] theorem writeIiccon_clocked : (hw.writeIiccon v).clocked = hw.clocked := rfl

@[simp] theorem writeIiccon_log : (hw.writeIiccon v).log = hw.log := rfl

/-- Clearing the pending bit lets the wire go on, or leaves it idle after a STOP. -/
theorem writeIiccon_wire (h : hw.iiccon.getLsbD 4 = true) (hv : v.getLsbD 4 = false) :
    (hw.writeIiccon v).wire = if hw.iicstat.getLsbD 5 then .data else .idle := by
  simp only [Iic.writeIiccon, h, hv, Bool.not_false, Bool.and_self, if_true]

/-- A write that leaves the pending bit as it is leaves the wire as it is. -/
theorem writeIiccon_wire_of_eq (h : v.getLsbD 4 = hw.iiccon.getLsbD 4) :
    (hw.writeIiccon v).wire = hw.wire := by
  simp only [Iic.writeIiccon, h, Bool.and_not_self, Bool.false_eq_true, if_false]

/-- Writing IICSTAT with bit 5 clear starts nothing. -/
theorem writeIicstat_of_not_start (h : v.getLsbD 5 = false) :
    hw.writeIicstat v = { hw with iicstat := v, log := hw.log ++ [.iicstat v] } := by
  simp only [Iic.writeIicstat, h, Bool.false_eq_true, if_false]

/-- Writing it with bit 5 set is a START. -/
theorem writeIicstat_of_start (h : v.getLsbD 5 = true) :
    hw.writeIicstat v = { hw with
      iicstat := v, wire := .address, starts := hw.starts + 1, clocked := 0,
      log := hw.log ++ [.iicstat v] } := by
  simp only [Iic.writeIicstat, h, if_true]

theorem clearPending_wire (h : hw.iiccon.getLsbD 4 = true) :
    (clearPending hw).wire = if hw.iicstat.getLsbD 5 then .data else .idle :=
  writeIiccon_wire hw _ h (by simp)

@[simp] theorem clearPending_ack :
    (clearPending hw).iiccon.getLsbD 7 = hw.iiccon.getLsbD 7 := by
  simp [clearPending]

/-- A STOP, which clearing the pending bit sends. -/
theorem stop_wire (h : hw.iiccon.getLsbD 4 = true) (hv : v.getLsbD 5 = false) :
    (clearPending (hw.writeIicstat v)).wire = .idle := by
  rw [writeIicstat_of_not_start hw v hv, clearPending_wire _ (by exact h)]
  simp only [hv, Bool.false_eq_true, if_false]

theorem stop_frame (hv : v.getLsbD 5 = false) :
    (clearPending (hw.writeIicstat v)).starts = hw.starts ∧
      (clearPending (hw.writeIicstat v)).log = hw.log ++ [.iicstat v] := by
  rw [writeIicstat_of_not_start hw v hv]
  exact ⟨rfl, rfl⟩

/-- Either way to resume lets the wire go on. -/
theorem resume_wire (last : Bool) (h : hw.iiccon.getLsbD 4 = true) :
    (if last then resumeIicWithoutAck hw else resumeIicWithAck hw).wire =
      if hw.iicstat.getLsbD 5 then .data else .idle := by
  cases last
  · exact writeIiccon_wire hw _ h (by simp)
  · exact writeIiccon_wire hw _ h (by simp)

/-- They differ in the acknowledge for the next byte. -/
theorem resume_ack (last : Bool) :
    (if last then resumeIicWithoutAck hw else resumeIicWithAck hw).iiccon.getLsbD 7 = !last := by
  cases last <;> simp [resumeIicWithoutAck, resumeIicWithAck]

/-- And in nothing else. -/
theorem resume_frame (last : Bool) :
    let hw' := if last then resumeIicWithoutAck hw else resumeIicWithAck hw
    hw'.iicstat = hw.iicstat ∧ hw'.starts = hw.starts ∧ hw'.clocked = hw.clocked ∧
      hw'.log = hw.log := by
  cases last <;> exact ⟨rfl, rfl, rfl, rfl⟩

@[simp] theorem byteOver_pending : (hw.byteOver v).iiccon.getLsbD 4 = true := by
  simp [Iic.byteOver]

@[simp] theorem byteOver_ack : (hw.byteOver v).iiccon.getLsbD 7 = hw.iiccon.getLsbD 7 := by
  simp [Iic.byteOver]

theorem clock_of_address {slave : ℕ → Slave} (h : hw.wire = .address) :
    hw.clock slave = some (hw.byteOver (ackBit hw.iicstat (slave hw.starts).ack)) := by
  simp only [Iic.clock, h]

theorem clock_of_sent {slave : ℕ → Slave} (h : hw.wire = .data) (hm : hw.iicstat.getLsbD 6 = true) :
    hw.clock slave =
      some { hw.byteOver (ackBit hw.iicstat ((slave hw.starts).dataAck hw.clocked)) with
        clocked := hw.clocked + 1 } := by
  simp only [Iic.clock, h, hm, if_true]

theorem clock_of_received {slave : ℕ → Slave} (h : hw.wire = .data)
    (hm : hw.iicstat.getLsbD 6 = false) :
    hw.clock slave =
      some { hw.byteOver hw.iicstat with
        iicds := ((slave hw.starts).bytes hw.clocked).setWidth 32
        clocked := hw.clocked + 1
        log := hw.log ++ [.received (hw.iiccon.getLsbD 7)] } := by
  simp only [Iic.clock, h, hm, Bool.false_eq_true, if_false]

/-- The acknowledge is bit 0, and no other. -/
theorem ackBit_getLsbD (ack : Bool) {k : ℕ} (hk : k ∈ [5, 6]) :
    (ackBit v ack).getLsbD k = v.getLsbD k := by
  simp only [List.mem_cons, List.not_mem_nil, or_false] at hk
  rcases hk with rfl | rfl <;> cases ack <;> simp [ackBit]

@[simp] theorem ackBit_busy (ack : Bool) : (ackBit v ack).getLsbD 5 = v.getLsbD 5 :=
  ackBit_getLsbD v ack (by simp)

@[simp] theorem ackBit_mode (ack : Bool) : (ackBit v ack).getLsbD 6 = v.getLsbD 6 :=
  ackBit_getLsbD v ack (by simp)

theorem ackBit_and_one (ack : Bool) : ackBit v ack &&& 1#32 <<< 0 = 0 ↔ ack = true := by
  cases ack
  · simp only [ackBit, Bool.false_eq_true, if_false, iff_false]
    intro h
    have h0 := congrArg (fun x : BitVec 32 => x.getLsbD 0) h
    simp at h0
  · simp only [ackBit, if_true, iff_true]
    rw [BitVec.and_assoc]
    simp

end Registers

end S3c2440.I2c
