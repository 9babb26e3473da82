import S3c2440.I2c.Controller

/-!
# One message

What `do_master_tx` and `do_master_rx` do with the interrupts they cause, from the call to
the return. The state between START and STOP is described by `Busy`: which byte is on the
wire, how far the message has got, and what has been done on the bus; one lemma for each
branch of the handler leads from one such state to the next, or to the state after the
STOP (`Over`).
-/

namespace S3c2440.I2c

open Theory

variable {slave : ℕ → Slave} {s₀ s : Sys} {i : ℕ} {tx : Bool} {w : Wire} {msg : I2cMsg}
  {log : List Event}

/-! ### During a transfer -/

/-- Message `i` is on its way (`tx` for out) in a call that found the state at `s₀`: `msg` is
the message now, and `log` is what the call has done on the bus. -/
structure Busy (s₀ : Sys) (i : ℕ) (tx : Bool) (w : Wire) (msg : I2cMsg) (log : List Event)
    (s : Sys) : Prop where
  /-- The message is the current one. -/
  cur : s.pCurMsg = some i
  /-- The other messages are as they were. -/
  msgs : s.msgs = Function.update s₀.msgs i msg
  /-- What is on the wire. -/
  wire : s.hw.wire = w
  /-- The bus is held. -/
  busy : s.hw.iicstat.getLsbD 5 = true
  /-- The direction. -/
  mode : s.hw.iicstat.getLsbD 6 = tx
  /-- The acknowledge is off only for the last byte received. -/
  ack : s.hw.iiccon.getLsbD 7 = (tx || w = .address || !isLastData msg)
  /-- One START. -/
  starts : s.hw.starts = s₀.hw.starts + 1
  /-- The bytes of this transfer. -/
  clocked : s.hw.clocked = msg.cntTransferred.toNat
  /-- What has been done on the bus. -/
  log : s.hw.log = s₀.hw.log ++ log

/-- The bus has been given back. -/
structure Over (s₀ : Sys) (i : ℕ) (msg : I2cMsg) (log : List Event) (s : Sys) : Prop where
  /-- The message is the current one. -/
  cur : s.pCurMsg = some i
  /-- The other messages are as they were. -/
  msgs : s.msgs = Function.update s₀.msgs i msg
  /-- No interrupt will come. -/
  wire : s.hw.wire = .idle
  /-- One START. -/
  starts : s.hw.starts = s₀.hw.starts + 1
  /-- What has been done on the bus. -/
  log : s.hw.log = s₀.hw.log ++ log

/-- The device that is being talked to. -/
abbrev Sys.device (slave : ℕ → Slave) (s₀ : Sys) : Slave := slave (s₀.hw.starts + 1)

theorem Busy.msg_eq (h : Busy s₀ i tx w msg log s) : s.msgs i = msg := by
  rw [h.msgs, Function.update_self]

/-- The controller when the handler is entered, `k` bytes into the transfer. -/
structure Entry (s₀ : Sys) (tx : Bool) (k : ℕ) (log : List Event) (hw : Iic) : Prop where
  /-- Nothing moves. -/
  pending : hw.iiccon.getLsbD 4 = true
  /-- The bus is held. -/
  busy : hw.iicstat.getLsbD 5 = true
  /-- The direction. -/
  mode : hw.iicstat.getLsbD 6 = tx
  /-- One START. -/
  starts : hw.starts = s₀.hw.starts + 1
  /-- The bytes of this transfer. -/
  clocked : hw.clocked = k
  /-- What has been done on the bus. -/
  log : hw.log = s₀.hw.log ++ log

variable (slave) in
/-- The address has been sent; the acknowledge is in bit 0. -/
theorem Busy.clock_address (h : Busy s₀ i tx .address msg log s) (hcnt : msg.cntTransferred = -1) :
    ∃ hw, s.hw.clock slave = some hw ∧ Entry s₀ tx 0 log hw ∧
      hw.iiccon.getLsbD 7 = true ∧
      (hw.iicstat &&& 1#32 <<< 0 = 0 ↔ (s₀.device slave).ack = true) := by
  refine ⟨_, clock_of_address _ h.wire, ?_, ?_, ?_⟩
  · exact {
      pending := byteOver_pending s.hw s.hw.iicstat
      busy := (ackBit_busy _ _).trans h.busy
      mode := (ackBit_mode _ _).trans h.mode
      starts := h.starts
      clocked := h.clocked.trans (by rw [hcnt]; rfl)
      log := h.log }
  · rw [byteOver_ack, h.ack]
    cases tx <;> rfl
  · rw [h.starts]
    exact ackBit_and_one _ _

variable (slave) in
/-- A byte has been sent. -/
theorem Busy.clock_sent (h : Busy s₀ i true .data msg log s) {k : ℕ}
    (hcnt : msg.cntTransferred = k) :
    ∃ hw, s.hw.clock slave = some hw ∧ Entry s₀ true (k + 1) log hw ∧
      hw.iiccon.getLsbD 7 = true := by
  refine ⟨_, clock_of_sent _ h.wire h.mode, ?_, ?_⟩
  · exact {
      pending := byteOver_pending s.hw s.hw.iicstat
      busy := (ackBit_busy _ _).trans h.busy
      mode := (ackBit_mode _ _).trans h.mode
      starts := h.starts
      clocked := congrArg (· + 1) (h.clocked.trans (by rw [hcnt]; rfl))
      log := h.log }
  · exact (byteOver_ack s.hw s.hw.iicstat).trans h.ack

variable (slave) in
/-- A byte has been received. -/
theorem Busy.clock_received (h : Busy s₀ i false .data msg log s) {k : ℕ}
    (hcnt : msg.cntTransferred = k) :
    ∃ hw, s.hw.clock slave = some hw ∧
      Entry s₀ false (k + 1) (log ++ [.received (!isLastData msg)]) hw ∧
      hw.iicds = ((s₀.device slave).bytes k).setWidth 32 := by
  have hk : s.hw.clocked = k := h.clocked.trans (by rw [hcnt]; rfl)
  refine ⟨_, clock_of_received _ h.wire h.mode, ?_, ?_⟩
  · exact {
      pending := byteOver_pending s.hw s.hw.iicstat
      busy := h.busy
      mode := h.mode
      starts := h.starts
      clocked := congrArg (· + 1) hk
      log := by
        show s.hw.log ++ _ = _
        rw [h.log, h.ack, List.append_assoc]
        rfl }
  · show BitVec.setWidth 32 ((slave s.hw.starts).bytes s.hw.clocked) = _
    rw [h.starts, hk]

/-! ### The handler's branches -/

/-- What the handler does, with the controller as the byte has left it. -/
theorem interrupt_eq {hw : Iic} (h : Busy s₀ i tx w msg log s) (hw' : s.hw.clock slave = some hw) :
    interrupt slave s = some ⟨(i2cInterruptFunc hw msg).1,
      Function.update s₀.msgs i (i2cInterruptFunc hw msg).2, some i⟩ := by
  simp only [interrupt, hw', h.cur, h.msg_eq, Sys.setMsg, h.msgs, Function.update_idem]

/-- The branches that stop: the STOP is written, and clearing the pending bit sends it. -/
theorem Entry.stop {hw : Iic} {k : ℕ} {msg' : I2cMsg} {v : BitVec 32} (h : Entry s₀ tx k log hw)
    (hv : v.getLsbD 5 = false) :
    Over s₀ i msg' (log ++ [.iicstat v])
      ⟨clearPending (hw.writeIicstat v), Function.update s₀.msgs i msg', some i⟩ where
  cur := rfl
  msgs := rfl
  wire := stop_wire hw v h.pending hv
  starts := (stop_frame hw v hv).1.trans h.starts
  log := by rw [(stop_frame hw v hv).2, h.log, List.append_assoc]

/-- The branches that go on to send another byte. -/
theorem Entry.send {hw : Iic} {k : ℕ} {msg' : I2cMsg} {v : BitVec 32} (h : Entry s₀ true k log hw)
    (hack : hw.iiccon.getLsbD 7 = true) (hcnt : msg'.cntTransferred = k) :
    Busy s₀ i true .data msg' (log ++ [.iicds v])
      ⟨clearPending (hw.writeIicds v), Function.update s₀.msgs i msg', some i⟩ where
  cur := rfl
  msgs := rfl
  wire := (clearPending_wire (hw.writeIicds v) h.pending).trans (if_pos h.busy)
  busy := h.busy
  mode := h.mode
  ack := (clearPending_ack (hw.writeIicds v)).trans hack
  starts := h.starts
  clocked := h.clocked.trans (by rw [hcnt]; rfl)
  log := by
    show hw.log ++ _ = _
    rw [h.log, List.append_assoc]

/-- The branches that go on to receive another byte. -/
theorem Entry.receive {hw : Iic} {k : ℕ} {msg' : I2cMsg} (h : Entry s₀ false k log hw)
    (hcnt : msg'.cntTransferred = k) :
    Busy s₀ i false .data msg' log
      ⟨if isLastData msg' then resumeIicWithoutAck hw else resumeIicWithAck hw,
        Function.update s₀.msgs i msg', some i⟩ := by
  obtain ⟨hstat, hst, hc, hl⟩ := resume_frame hw (isLastData msg')
  exact {
    cur := rfl
    msgs := rfl
    wire := (resume_wire hw _ h.pending).trans (if_pos h.busy)
    busy := (congrArg (·.getLsbD 5) hstat).trans h.busy
    mode := (congrArg (·.getLsbD 6) hstat).trans h.mode
    ack := by
      show BitVec.getLsbD _ 7 = _
      rw [resume_ack]
      rfl
    starts := hst.trans h.starts
    clocked := hc.trans (h.clocked.trans (by rw [hcnt]; rfl))
    log := hl.trans h.log }

/-- The address is not acknowledged: STOP, and an error. -/
theorem Busy.nack (h : Busy s₀ i tx .address msg log s) (hcnt : msg.cntTransferred = -1)
    (hdir : tx = decide (msg.flags = 0)) (hack : (s₀.device slave).ack = false) :
    ∃ s', interrupt slave s = some s' ∧
      Over s₀ i { msg with cntTransferred := 0, err := -1 }
        (log ++ [.iicstat (if tx then 0xD0 else 0x90)]) s' := by
  obtain ⟨hw, hc, hentry, -, hbit⟩ := h.clock_address slave hcnt
  have hnack : hw.iicstat &&& 1#32 <<< 0 ≠ 0 := fun h0 => by simp [hbit.mp h0] at hack
  have hzero : msg.cntTransferred + 1 = 0 := by rw [hcnt]; rfl
  refine ⟨_, interrupt_eq h hc, ?_⟩
  by_cases hf : msg.flags = 0
  · rw [i2cInterruptFunc, if_pos hf, if_pos (And.intro hzero hnack), hzero, hdir, decide_eq_true hf]
    exact hentry.stop rfl
  · rw [i2cInterruptFunc, if_neg hf, if_pos hzero, if_pos hnack, hzero, hdir, decide_eq_false hf]
    exact hentry.stop rfl

/-- The controller as a byte that was sent leaves it: the address byte, acknowledged, or a
data byte. -/
theorem Busy.entry_sent {k : ℕ} (h : Busy s₀ i true w msg log s)
    (hcnt : msg.cntTransferred + 1 = k)
    (hw : w = .address ∧ k = 0 ∧ (s₀.device slave).ack = true ∨ w = .data ∧ 0 < k) :
    ∃ hw, s.hw.clock slave = some hw ∧ Entry s₀ true k log hw ∧ hw.iiccon.getLsbD 7 = true ∧
      ¬(msg.cntTransferred + 1 = 0 ∧ hw.iicstat &&& 1#32 <<< 0 ≠ 0) := by
  rcases hw with ⟨rfl, rfl, hack⟩ | ⟨rfl, hk⟩
  · obtain ⟨hw, hc, hentry, h7, hbit⟩ := h.clock_address slave (by omega)
    exact ⟨hw, hc, hentry, h7, fun hn => hn.2 (hbit.mpr hack)⟩
  · obtain ⟨k, rfl⟩ : ∃ j, k = j + 1 := ⟨k - 1, by omega⟩
    obtain ⟨hw, hc, hentry, h7⟩ := h.clock_sent slave (k := k) (by omega)
    exact ⟨hw, hc, hentry, h7, fun hn => by omega⟩

/-- A byte has been sent, and there is another. -/
theorem Busy.sent {k : ℕ} (h : Busy s₀ i true w msg log s) (hf : msg.flags = 0)
    (hcnt : msg.cntTransferred + 1 = k)
    (hw : w = .address ∧ k = 0 ∧ (s₀.device slave).ack = true ∨ w = .data ∧ 0 < k)
    (hk : (k : ℤ) < msg.len) :
    ∃ s', interrupt slave s = some s' ∧
      Busy s₀ i true .data { msg with cntTransferred := k }
        (log ++ [.iicds ((msg.buf k).setWidth 32)]) s' := by
  obtain ⟨hw, hc, hentry, h7, hnack⟩ := h.entry_sent hcnt hw
  refine ⟨_, interrupt_eq h hc, ?_⟩
  rw [i2cInterruptFunc, if_pos hf, if_neg hnack, hcnt, if_pos hk]
  exact hentry.send h7 rfl

/-- The last byte has been sent: STOP. -/
theorem Busy.sent_last {k : ℕ} (h : Busy s₀ i true w msg log s) (hf : msg.flags = 0)
    (hcnt : msg.cntTransferred + 1 = k)
    (hw : w = .address ∧ k = 0 ∧ (s₀.device slave).ack = true ∨ w = .data ∧ 0 < k)
    (hk : (k : ℤ) = msg.len) :
    ∃ s', interrupt slave s = some s' ∧
      Over s₀ i { msg with cntTransferred := msg.len } (log ++ [.iicstat 0xD0]) s' := by
  obtain ⟨hw, hc, hentry, -, hnack⟩ := h.entry_sent hcnt hw
  refine ⟨_, interrupt_eq h hc, ?_⟩
  rw [i2cInterruptFunc, if_pos hf, if_neg hnack, hcnt, hk, if_neg (Int.lt_irrefl msg.len)]
  exact hentry.stop rfl

/-- The address of a read is acknowledged: nothing is stored, and a byte is clocked in,
whatever the length. -/
theorem Busy.addressed (h : Busy s₀ i false .address msg log s) (hf : msg.flags ≠ 0)
    (hcnt : msg.cntTransferred = -1) (hack : (s₀.device slave).ack = true) :
    ∃ s', interrupt slave s = some s' ∧
      Busy s₀ i false .data { msg with cntTransferred := 0 } log s' := by
  obtain ⟨hw, hc, hentry, -, hbit⟩ := h.clock_address slave hcnt
  have hzero : msg.cntTransferred + 1 = 0 := by rw [hcnt]; rfl
  refine ⟨_, interrupt_eq h hc, ?_⟩
  rw [i2cInterruptFunc, if_neg hf, if_pos hzero, if_neg (not_not_intro (hbit.mpr hack)), hzero]
  exact hentry.receive rfl

/-- A byte has been received that is not the last: it is stored. -/
theorem Busy.received {k : ℕ} (h : Busy s₀ i false .data msg log s) (hf : msg.flags ≠ 0)
    (hcnt : msg.cntTransferred = k) (hk : (k : ℤ) + 1 < msg.len) :
    ∃ s', interrupt slave s = some s' ∧
      Busy s₀ i false .data
        { msg with
          cntTransferred := k + 1
          buf := Function.update msg.buf k ((s₀.device slave).bytes k) }
        (log ++ [.received true]) s' := by
  obtain ⟨hw, hc, hentry, hds⟩ := h.clock_received slave hcnt
  have hne : (k : ℤ) + 1 ≠ 0 := by omega
  have hlast : isLastData msg = false := by
    simp only [isLastData, hcnt]
    exact decide_eq_false (by omega)
  rw [hlast] at hentry
  refine ⟨_, interrupt_eq h hc, ?_⟩
  rw [i2cInterruptFunc, if_neg hf, hcnt, if_neg hne, if_pos hk, hds,
    BitVec.setWidth_setWidth_of_le _ (by omega), BitVec.setWidth_eq, Int.add_sub_cancel]
  exact hentry.receive rfl

/-- The last byte has been received: STOP, and it is not stored. -/
theorem Busy.received_last {k : ℕ} (h : Busy s₀ i false .data msg log s) (hf : msg.flags ≠ 0)
    (hcnt : msg.cntTransferred = k) (hk : (k : ℤ) + 1 = msg.len) :
    ∃ s', interrupt slave s = some s' ∧
      Over s₀ i { msg with cntTransferred := msg.len } (log ++ [.received false, .iicstat 0x90])
        s' := by
  obtain ⟨hw, hc, hentry, -⟩ := h.clock_received slave hcnt
  have hne : (k : ℤ) + 1 ≠ 0 := by omega
  have hlast : isLastData msg = true := by
    simp only [isLastData, hcnt]
    exact decide_eq_true (by omega)
  rw [hlast] at hentry
  refine ⟨_, interrupt_eq h hc, ?_⟩
  rw [i2cInterruptFunc, if_neg hf, hcnt, if_neg hne, hk, if_neg (Int.lt_irrefl msg.len)]
  have hover : Over s₀ i { msg with cntTransferred := msg.len } _ _ :=
    hentry.stop (v := 0x90) rfl
  rwa [List.append_assoc] at hover

end S3c2440.I2c
