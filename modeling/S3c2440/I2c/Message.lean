import S3c2440.I2c.Master
import Mathlib.Data.List.Range

/-!
# From call to return

The two functions as a whole, each from a call on an idle wire. Only one thing can happen
at a time: up to the START nothing is on the wire, then the loop waits while a byte is, and
after the STOP nothing is again. So the runs are followed step by step, with an induction
over the bytes that are still to come.

## What is proved

* `inevitable_started`, `wait_nacked`, `wait_tx_acked`, `wait_rx_acked` — each call returns,
  with the message, the buffer and everything done on the bus as stated; `wait_rx_empty` — a
  read of nothing can return with a byte on the wire.
* `do_master_tx_exact` — a write puts its address and its bytes on the bus, in order, then
  one STOP; without an acknowledge only the address and the STOP.
* `do_master_rx_delivers_iff` — a read stores every byte but the last, so it delivers what
  was sent if and only if the last cell happened to hold the last byte already;
  `do_master_rx_loses_last` is a run where it did not.
* `do_master_rx_acks` — it acknowledges every byte but the last, and then sends the STOP.
-/

namespace S3c2440.I2c

open Theory

variable {slave : ℕ → Slave} {cpu : Call → Option Call} {P : Call → Prop} {s₀ s s' : Sys} {i : ℕ}
  {tx : Bool} {w : Wire} {msg : I2cMsg} {log : List Event} {address : BitVec 32 → BitVec 32}
  {v : BitVec 32}

/-! ### One thing at a time -/

theorem masterStep_eq {c : Call} (h : c.pc.returned = false) (a : Act) :
    masterStep slave cpu c a = match a with
      | .cpu => cpu c
      | .byte => (interrupt slave c.sys).map fun s => { c with sys := s } :=
  if_neg (by rw [h]; decide)

theorem masterStep_returned {c : Call} (h : c.pc.returned = true) (a : Act) :
    masterStep slave cpu c a = none := if_pos h

/-- On an idle wire only the program moves. -/
theorem inevitable_cpu {c d : Call} (hpc : c.pc.returned = false) (hidle : c.sys.hw.wire = .idle)
    (hd : cpu c = some d) (h : Inevitable (masterStep slave cpu) P d) :
    Inevitable (masterStep slave cpu) P c := by
  refine until_of_cpu trivial ((masterStep_eq hpc _).trans hd) ?_ h
  simp only [masterStep_eq hpc, interrupt_idle hidle, Option.map_none]

/-- While the loop waits only the wire does. -/
theorem inevitable_byte (hmsg : s.msgs i = msg) (herr : msg.err = 0)
    (hlen : msg.cntTransferred ≠ msg.len) (hs : interrupt slave s = some s')
    (h : Inevitable (masterStep slave (doMaster address v i)) P ⟨.wait, s'⟩) :
    Inevitable (masterStep slave (doMaster address v i)) P ⟨.wait, s⟩ := by
  have hwait : ¬(msg.err ≠ 0 ∨ msg.cntTransferred = msg.len) := by simp [herr, hlen]
  have hbyte : (interrupt slave s).map (fun s => (⟨.wait, s⟩ : Call)) = some ⟨.wait, s'⟩ := by
    rw [hs, Option.map_some]
  refine until_of_byte trivial ((masterStep_eq rfl _).trans hbyte) ?_ h
  rw [masterStep_eq rfl]
  simp only [doMaster, hmsg, if_neg hwait]

/-- After the STOP the loop ends and the error decides what is returned. -/
theorem inevitable_return (h : Over s₀ i msg log s)
    (hend : msg.err ≠ 0 ∨ msg.cntTransferred = msg.len) :
    Inevitable (masterStep slave (doMaster address v i))
      (fun c => c.pc = .ret (if msg.err ≠ 0 then -1 else 0) ∧ Over s₀ i msg log c.sys)
      ⟨.wait, s⟩ := by
  have hmsg : s.msgs i = msg := by rw [h.msgs, Function.update_self]
  refine inevitable_cpu rfl h.wire (d := ⟨.test, s⟩) ?_ (inevitable_cpu rfl h.wire
    (d := ⟨.ret (if msg.err ≠ 0 then -1 else 0), s⟩) ?_ (.now ⟨rfl, h⟩))
  · simp only [doMaster, hmsg, if_pos hend]
  · simp only [doMaster, hmsg]

/-! ### Up to the START -/

/-- What starts a transfer on the bus. -/
def startEvents (address v : BitVec 32) : List Event :=
  [.iicstat (1#32 <<< 4), .iicds address, .iicstat v]

/-- The state with the message made the current one, and its counter and error reset. -/
def prepared (i : ℕ) (s : Sys) : Sys :=
  let s := { s with pCurMsg := some i }
  let s := s.setMsg i { s.msgs i with cntTransferred := -1 }
  s.setMsg i { s.msgs i with err := 0 }

/-- The controller with everything written but the START. -/
def configured (address : BitVec 32 → BitVec 32) (i : ℕ) (s : Sys) : Iic :=
  ((s.hw.writeIiccon (s.hw.iiccon ||| 1#32 <<< 7)).writeIicstat (1#32 <<< 4)).writeIicds
    (address ((prepared i s).msgs i).addr)

/-- The state when the loop begins to wait. -/
def started (address : BitVec 32 → BitVec 32) (v : BitVec 32) (i : ℕ) (s : Sys) : Sys :=
  { prepared i s with hw := (configured address i s).writeIicstat v }

theorem prepared_msgs :
    (prepared i s).msgs =
      Function.update s.msgs i { s.msgs i with cntTransferred := -1, err := 0 } := by
  simp [prepared, Sys.setMsg]

theorem configured_eq : configured address i s =
    { s.hw.writeIiccon (s.hw.iiccon ||| 1#32 <<< 7) with
      iicstat := 1#32 <<< 4
      iicds := address (s.msgs i).addr
      log := s.hw.log ++ [.iicstat (1#32 <<< 4), .iicds (address (s.msgs i).addr)] } := by
  rw [configured, writeIicstat_of_not_start _ _ (by decide), prepared_msgs, Function.update_self]
  simp only [Iic.writeIicds, writeIiccon_log, List.append_assoc, List.cons_append, List.nil_append]

/-- The program can start the transfer whatever is on the wire. -/
theorem run_started (address : BitVec 32 → BitVec 32) (v : BitVec 32) (i : ℕ) (s : Sys) :
    run (masterStep slave (doMaster address v i)) ⟨.cur, s⟩ (List.replicate 7 .cpu) =
      some ⟨.wait, started address v i s⟩ := rfl

theorem busy_started (address : BitVec 32 → BitVec 32) (v : BitVec 32) (tx : Bool) (s : Sys)
    (i : ℕ) (h5 : v.getLsbD 5 = true) (h6 : v.getLsbD 6 = tx) :
    Busy s i tx .address { s.msgs i with cntTransferred := -1, err := 0 }
      (startEvents (address (s.msgs i).addr) v) (started address v i s) := by
  rw [started, writeIicstat_of_start _ _ h5, configured_eq]
  exact {
    cur := rfl
    msgs := prepared_msgs
    wire := rfl
    busy := h5
    mode := h6
    ack := by
      show BitVec.getLsbD (s.hw.iiccon ||| 1#32 <<< 7) 7 = _
      cases tx <;> simp
    starts := rfl
    clocked := rfl
    log := List.append_assoc s.hw.log _ _ }

/-- On an idle wire it does. -/
theorem inevitable_started (hidle : s.hw.wire = .idle)
    (h : Inevitable (masterStep slave (doMaster address v i)) P ⟨.wait, started address v i s⟩) :
    Inevitable (masterStep slave (doMaster address v i)) P ⟨.cur, s⟩ := by
  have hcon : (s.hw.writeIiccon (s.hw.iiccon ||| 1#32 <<< 7)).wire = .idle :=
    (writeIiccon_wire_of_eq _ _ (by simp)).trans hidle
  have hstat : ((s.hw.writeIiccon (s.hw.iiccon ||| 1#32 <<< 7)).writeIicstat
      (1#32 <<< 4)).wire = .idle := by
    rw [writeIicstat_of_not_start _ _ (by decide)]
    exact hcon
  exact inevitable_cpu rfl hidle rfl <| inevitable_cpu rfl hidle rfl <|
    inevitable_cpu rfl hidle rfl <| inevitable_cpu rfl hidle rfl <|
    inevitable_cpu rfl hcon rfl <| inevitable_cpu rfl hstat rfl <|
    inevitable_cpu rfl hstat rfl h

/-! ### The bytes -/

/-- The acknowledged address and the bytes after it, up to the STOP: `n` bytes are still to be
sent after the one on the wire. -/
theorem inevitable_sent (n : ℕ) {k : ℕ} (h : Busy s₀ i true w msg log s) (hf : msg.flags = 0)
    (herr : msg.err = 0) (hcnt : msg.cntTransferred + 1 = k)
    (hw : w = .address ∧ k = 0 ∧ (s₀.device slave).ack = true ∨ w = .data ∧ 0 < k)
    (hn : (k : ℤ) + n = msg.len) :
    Inevitable (masterStep slave (doMasterTx i))
      (fun c => c.pc = .ret 0 ∧ Over s₀ i { msg with cntTransferred := msg.len }
        (log ++ (List.range' k n).map (fun j : ℕ => .iicds ((msg.buf j).setWidth 32)) ++
          [.iicstat 0xD0]) c.sys)
      ⟨.wait, s⟩ := by
  induction n generalizing k w msg log s with
  | zero =>
    obtain ⟨s', hs, hover⟩ := h.sent_last hf hcnt hw (by omega)
    apply inevitable_byte h.msg_eq herr (by omega) hs
    refine (inevitable_return hover (.inr rfl)).mono fun c hc => ?_
    rw [if_neg (not_not_intro herr)] at hc
    simpa using hc
  | succ n ih =>
    obtain ⟨s', hs, hbusy⟩ := h.sent hf hcnt hw (by omega)
    apply inevitable_byte h.msg_eq herr (by omega) hs
    refine (ih (k := k + 1) hbusy hf herr rfl (.inr ⟨rfl, k.succ_pos⟩) (by push_cast; omega)).mono
      fun c hc => ?_
    simpa [List.range'_succ] using hc

/-- A buffer with the bytes `k` to `k + n` stored. -/
def stored (buf : ℤ → BitVec 8) (bytes : ℕ → BitVec 8) (k n : ℕ) (j : ℤ) : BitVec 8 :=
  if (k : ℤ) ≤ j ∧ j < k + n then bytes j.toNat else buf j

theorem stored_succ (buf : ℤ → BitVec 8) (bytes : ℕ → BitVec 8) (k n : ℕ) :
    stored (Function.update buf k (bytes k)) bytes (k + 1) n = stored buf bytes k (n + 1) := by
  funext j
  by_cases hj : j = k
  · subst hj
    rw [stored, if_neg (by omega), Function.update_self, stored, if_pos (by omega),
      Int.toNat_natCast]
  · rw [stored, Function.update_of_ne hj, stored]
    refine if_congr ?_ rfl rfl
    push_cast
    omega

/-- The bytes of a read after its address, up to the STOP: `n` bytes are still to be received
after the one on the wire. -/
theorem inevitable_received (n : ℕ) {k : ℕ} (h : Busy s₀ i false .data msg log s)
    (hf : msg.flags ≠ 0) (herr : msg.err = 0) (hcnt : msg.cntTransferred = k)
    (hn : (k : ℤ) + 1 + n = msg.len) :
    Inevitable (masterStep slave (doMasterRx i))
      (fun c => c.pc = .ret 0 ∧
        Over s₀ i
          { msg with
            cntTransferred := msg.len
            buf := stored msg.buf (s₀.device slave).bytes k n }
          (log ++ List.replicate n (.received true) ++ [.received false, .iicstat 0x90]) c.sys)
      ⟨.wait, s⟩ := by
  induction n generalizing k msg log s with
  | zero =>
    obtain ⟨s', hs, hover⟩ := h.received_last hf hcnt (by omega)
    apply inevitable_byte h.msg_eq herr (by omega) hs
    refine (inevitable_return hover (.inr rfl)).mono fun c hc => ?_
    rw [if_neg (not_not_intro herr)] at hc
    have hbuf : stored msg.buf (s₀.device slave).bytes k 0 = msg.buf :=
      funext fun j => if_neg (by omega)
    rw [hbuf]
    simpa using hc
  | succ n ih =>
    obtain ⟨s', hs, hbusy⟩ := h.received hf hcnt (by omega)
    apply inevitable_byte h.msg_eq herr (by omega) hs
    refine (ih (k := k + 1) hbusy hf herr rfl (by push_cast; omega)).mono fun c hc => ?_
    rw [← stored_succ]
    simpa [List.replicate_succ] using hc

/-! ### After the START -/

/-- Neither call gets anywhere without an acknowledge: a STOP, and -1. -/
theorem wait_nacked (tx : Bool) (h5 : v.getLsbD 5 = true) (h6 : v.getLsbD 6 = tx)
    (hdir : tx = decide ((s.msgs i).flags = 0)) (hlen : 0 ≤ (s.msgs i).len)
    (hack : (s.device slave).ack = false) :
    Inevitable (masterStep slave (doMaster address v i))
      (fun c => c.pc = .ret (-1) ∧ Over s i { s.msgs i with cntTransferred := 0, err := -1 }
        (startEvents (address (s.msgs i).addr) v ++ [.iicstat (if tx then 0xD0 else 0x90)]) c.sys)
      ⟨.wait, started address v i s⟩ := by
  have hb := busy_started address v tx s i h5 h6
  obtain ⟨s', hs, hover⟩ := hb.nack rfl hdir hack
  apply inevitable_byte hb.msg_eq rfl (by show (-1 : ℤ) ≠ (s.msgs i).len; omega) hs
  exact inevitable_return hover (.inl (show (-1 : ℤ) ≠ 0 by omega))

/-- A write that is acknowledged sends all its bytes. -/
theorem wait_tx_acked (hf : (s.msgs i).flags = 0) (hlen : 0 ≤ (s.msgs i).len)
    (hack : (s.device slave).ack = true) :
    Inevitable (masterStep slave (doMasterTx i))
      (fun c => c.pc = .ret 0 ∧
        Over s i { s.msgs i with cntTransferred := (s.msgs i).len, err := 0 }
          (startEvents ((s.msgs i).addr <<< 1) 0xf0 ++
            (List.range (s.msgs i).len.toNat).map
              (fun j : ℕ => .iicds (((s.msgs i).buf j).setWidth 32)) ++
            [.iicstat 0xD0]) c.sys)
      ⟨.wait, started (fun addr => addr <<< 1) 0xf0 i s⟩ := by
  have hb := busy_started (fun addr => addr <<< 1) 0xf0 true s i rfl rfl
  rw [List.range_eq_range']
  exact inevitable_sent (s.msgs i).len.toNat hb hf rfl (k := 0) rfl (.inl ⟨rfl, rfl, hack⟩)
    (by show (0 : ℤ) + _ = (s.msgs i).len; omega)

/-- A read of at least one byte that is acknowledged receives all its bytes and stores all but
the last. -/
theorem wait_rx_acked (hf : (s.msgs i).flags ≠ 0) (hlen : 1 ≤ (s.msgs i).len)
    (hack : (s.device slave).ack = true) :
    Inevitable (masterStep slave (doMasterRx i))
      (fun c => c.pc = .ret 0 ∧
        Over s i
          { s.msgs i with
            cntTransferred := (s.msgs i).len
            err := 0
            buf := stored (s.msgs i).buf (s.device slave).bytes 0 ((s.msgs i).len.toNat - 1) }
          (startEvents ((s.msgs i).addr <<< 1 ||| 1#32 <<< 0) 0xb0 ++
            List.replicate ((s.msgs i).len.toNat - 1) (.received true) ++
            [.received false, .iicstat 0x90]) c.sys)
      ⟨.wait, started (fun addr => addr <<< 1 ||| 1#32 <<< 0) 0xb0 i s⟩ := by
  have hb := busy_started (fun addr => addr <<< 1 ||| 1#32 <<< 0) 0xb0 false s i rfl rfl
  obtain ⟨s', hs, hbusy⟩ := hb.addressed hf rfl hack
  apply inevitable_byte hb.msg_eq rfl (by show (-1 : ℤ) ≠ (s.msgs i).len; omega) hs
  exact inevitable_received ((s.msgs i).len.toNat - 1) hbusy hf rfl (k := 0) rfl
    (by show (0 : ℤ) + 1 + _ = (s.msgs i).len; omega)

/-- A read of no bytes that is acknowledged can return at once, with a byte on the wire. -/
theorem wait_rx_empty (hf : (s.msgs i).flags ≠ 0) (hlen : (s.msgs i).len = 0)
    (hack : (s.device slave).ack = true) :
    ∃ t, Reach (masterStep slave (doMasterRx i))
        ⟨.wait, started (fun addr => addr <<< 1 ||| 1#32 <<< 0) 0xb0 i s⟩ ⟨.ret 0, t⟩ ∧
      Busy s i false .data { s.msgs i with cntTransferred := 0, err := 0 }
        (startEvents ((s.msgs i).addr <<< 1 ||| 1#32 <<< 0) 0xb0) t := by
  have hb := busy_started (fun addr => addr <<< 1 ||| 1#32 <<< 0) 0xb0 false s i rfl rfl
  obtain ⟨t, hs, hbusy⟩ := hb.addressed hf rfl hack
  refine ⟨t, .head (a := .byte) (t := ⟨.wait, t⟩) ?_ (.head (a := .cpu) (t := ⟨.test, t⟩) ?_
    (.one (a := .cpu) ?_)), hbusy⟩
  · exact (masterStep_eq rfl _).trans (by rw [hs, Option.map_some])
  · refine (masterStep_eq rfl _).trans (if_pos ?_)
    rw [hbusy.msg_eq]
    exact .inr hlen.symm
  · refine (masterStep_eq rfl _).trans ?_
    simp only [doMasterRx, doMaster, hbusy.msg_eq]
    rfl

/-! ### A write -/

/-- A write puts its address, its bytes and one STOP on the bus and returns 0, or, without an
acknowledge, its address and one STOP, and returns -1. -/
theorem do_master_tx_exact (slave : ℕ → Slave) (s : Sys) (i : ℕ) (hf : (s.msgs i).flags = 0)
    (hlen : 0 ≤ (s.msgs i).len) (hidle : s.hw.wire = .idle) :
    Inevitable (masterStep slave (doMasterTx i))
      (fun c =>
        if (s.device slave).ack then
          c.pc = .ret 0 ∧
            c.sys.hw.log = s.hw.log ++
              ([.iicstat 0x10, .iicds ((s.msgs i).addr <<< 1), .iicstat 0xf0] ++
                (List.range (s.msgs i).len.toNat).map
                  (fun k : ℕ => .iicds (((s.msgs i).buf k).setWidth 32)) ++
                [.iicstat 0xD0])
        else
          c.pc = .ret (-1) ∧ (c.sys.msgs i).err = -1 ∧
            c.sys.hw.log = s.hw.log ++
              [.iicstat 0x10, .iicds ((s.msgs i).addr <<< 1), .iicstat 0xf0, .iicstat 0xD0])
      ⟨.cur, s⟩ := by
  cases hack : (s.device slave).ack with
  | true =>
    refine (inevitable_started hidle (wait_tx_acked hf hlen hack)).mono fun c hc => ?_
    exact ⟨hc.1, hc.2.log⟩
  | false =>
    refine (inevitable_started hidle (wait_nacked true rfl rfl
      (decide_eq_true hf).symm hlen hack)).mono fun c hc => ?_
    refine ⟨hc.1, ?_, hc.2.log⟩
    rw [hc.2.msgs, Function.update_self]

/-- Two bytes to the device at 0x50. -/
theorem do_master_tx_exact_two :
    let msg : I2cMsg := ⟨0x50, 0, 2, 0, 0, fun k => if k = 0 then 0x07 else 0x2a⟩
    Inevitable (masterStep (fun _ => ⟨true, fun _ => true, fun _ => 0⟩) (doMasterTx 0))
      (fun c => c.pc = .ret 0 ∧ c.sys.hw.log =
        [.iicstat 0x10, .iicds 0xa0, .iicstat 0xf0, .iicds 0x07, .iicds 0x2a, .iicstat 0xD0])
      ⟨.cur, s3c2440I2cConInit fun _ => msg⟩ :=
  (do_master_tx_exact (fun _ => ⟨true, fun _ => true, fun _ => 0⟩)
    (s3c2440I2cConInit fun _ => ⟨0x50, 0, 2, 0, 0, fun k => if k = 0 then 0x07 else 0x2a⟩) 0
    rfl (by decide) rfl).mono fun _ hc => hc

/-! ### A read -/

/-- The message has been received, with nothing missing. -/
def Delivered (slave : ℕ → Slave) (s : Sys) (i : ℕ) (c : Call) : Prop :=
  c.pc = .ret 0 ∧ ∀ k : ℕ, k < (s.msgs i).len → (c.sys.msgs i).buf k = (s.device slave).bytes k

/-- The last cell of the buffer is not written. -/
theorem last_of_delivered (hf : (s.msgs i).flags = 1) (hlen : 1 ≤ (s.msgs i).len)
    (hidle : s.hw.wire = .idle) (hack : (s.device slave).ack = true)
    (h : Inevitable (masterStep slave (doMasterRx i)) (Delivered slave s i) ⟨.cur, s⟩) :
    (s.msgs i).buf ((s.msgs i).len - 1) = (s.device slave).bytes ((s.msgs i).len - 1).toNat := by
  have hfinal : ∀ c r, c.pc = .ret r → ∀ a, masterStep slave (doMasterRx i) c a = none :=
    fun c r hc a => masterStep_returned (by rw [hc]; rfl) a
  obtain ⟨c, -, hd, -, hover⟩ := (h.and_of_final
    (inevitable_started hidle (wait_rx_acked (by rw [hf]; decide) hlen hack))
    (fun c hc => hfinal c 0 hc.1) (fun c hc => hfinal c 0 hc.1)).exists_reach
  have hlast := hd.2 ((s.msgs i).len - 1).toNat (by omega)
  rw [hover.msgs, Function.update_self, Int.toNat_of_nonneg (by omega)] at hlast
  rw [← hlast]
  exact (if_neg (by omega)).symm

/-- A read delivers every byte if and only if the last cell of the buffer already held the
last byte. -/
theorem do_master_rx_delivers_iff (slave : ℕ → Slave) (s : Sys) (i : ℕ)
    (hf : (s.msgs i).flags = 1) (hlen : 1 ≤ (s.msgs i).len) (hidle : s.hw.wire = .idle)
    (hack : (s.device slave).ack = true) :
    Inevitable (masterStep slave (doMasterRx i)) (Delivered slave s i) ⟨.cur, s⟩ ↔
      (s.msgs i).buf ((s.msgs i).len - 1) =
        (s.device slave).bytes ((s.msgs i).len - 1).toNat := by
  constructor
  · exact last_of_delivered hf hlen hidle hack
  · intro hlast
    refine (inevitable_started hidle (wait_rx_acked (by rw [hf]; decide) hlen hack)).mono
      fun c hc => ⟨hc.1, ?_⟩
    intro k hk
    rw [hc.2.msgs, Function.update_self]
    show stored _ _ 0 _ (k : ℤ) = _
    by_cases hl : (k : ℤ) = (s.msgs i).len - 1
    · rw [stored, if_neg (by omega), hl, hlast, ← hl, Int.toNat_natCast]
    · rw [stored, if_pos (by omega), Int.toNat_natCast]

/-- Five, six and seven, into a buffer that ends in a seven. -/
theorem do_master_rx_delivers_three :
    let slave : ℕ → Slave := fun _ => ⟨true, fun _ => true, fun k => BitVec.ofNat 8 (k + 5)⟩
    let s := s3c2440I2cConInit fun _ => ⟨0x50, 1, 3, 0, 0, fun k => if k = 2 then 7 else 0⟩
    Inevitable (masterStep slave (doMasterRx 0)) (Delivered slave s 0) ⟨.cur, s⟩ :=
  (do_master_rx_delivers_iff (fun _ => ⟨true, fun _ => true, fun k => BitVec.ofNat 8 (k + 5)⟩)
    (s3c2440I2cConInit fun _ => ⟨0x50, 1, 3, 0, 0, fun k => if k = 2 then 7 else 0⟩) 0 rfl
    (by decide) rfl rfl).mpr rfl

/-- One byte, a seven, into a buffer of zeros: the call returns 0, and the zero stays. -/
theorem do_master_rx_loses_last : ¬ ∀ (slave : ℕ → Slave) (s : Sys) (i : ℕ),
    (s.msgs i).flags = 1 → 1 ≤ (s.msgs i).len → s.hw.wire = .idle → (s.device slave).ack = true →
      Inevitable (masterStep slave (doMasterRx i)) (Delivered slave s i) ⟨.cur, s⟩ := by
  intro h
  have hd := h (fun _ => ⟨true, fun _ => true, fun _ => 7⟩)
    (s3c2440I2cConInit fun _ => ⟨0x50, 1, 1, 0, 0, fun _ => 0⟩) 0 rfl (by decide) rfl rfl
  exact absurd (last_of_delivered rfl (by decide) rfl rfl hd) (by decide)

/-- The acknowledge bits of `n` bytes of which the last has none. -/
theorem received_range {n : ℕ} {len : ℤ} (h : (n : ℤ) + 1 = len) :
    (List.range (n + 1)).map (fun k : ℕ => Event.received ((k : ℤ) + 1 < len)) =
      List.replicate n (.received true) ++ [.received false] := by
  rw [List.range_succ, List.map_append, List.map_singleton, decide_eq_false (by omega)]
  congr 1
  refine List.eq_replicate_of_mem (a := .received true) (fun e he => ?_) |>.trans (by simp)
  obtain ⟨k, hk, rfl⟩ := List.mem_map.mp he
  rw [List.mem_range] at hk
  rw [decide_eq_true (by omega)]

/-- While byte `k` of an acknowledged read is received the acknowledge bit is set exactly if it
is not the last one, and after the last one comes the STOP: no further byte is on the wire. -/
theorem do_master_rx_acks (slave : ℕ → Slave) (s : Sys) (i : ℕ) (hf : (s.msgs i).flags ≠ 0)
    (hlen : 1 ≤ (s.msgs i).len) (hidle : s.hw.wire = .idle) (hack : (s.device slave).ack = true) :
    Inevitable (masterStep slave (doMasterRx i))
      (fun c =>
        c.pc = .ret 0 ∧ c.sys.hw.wire = .idle ∧
          c.sys.hw.log = s.hw.log ++
            ([.iicstat 0x10, .iicds ((s.msgs i).addr <<< 1 ||| 1#32 <<< 0), .iicstat 0xb0] ++
              (List.range (s.msgs i).len.toNat).map
                (fun k : ℕ => .received ((k : ℤ) + 1 < (s.msgs i).len)) ++
              [.iicstat 0x90]))
      ⟨.cur, s⟩ := by
  refine (inevitable_started hidle (wait_rx_acked hf hlen hack)).mono fun c hc =>
    ⟨hc.1, hc.2.wire, hc.2.log.trans ?_⟩
  obtain ⟨n, hn⟩ : ∃ n : ℕ, (n : ℤ) + 1 = (s.msgs i).len := ⟨((s.msgs i).len - 1).toNat, by omega⟩
  rw [show (s.msgs i).len.toNat = n + 1 by omega, received_range hn, Nat.add_sub_cancel]
  simp only [startEvents, List.append_assoc, List.cons_append, List.nil_append]
  rfl

/-- Two bytes from the device at 0x50. -/
theorem do_master_rx_acks_two :
    let msg : I2cMsg := ⟨0x50, 1, 2, 0, 0, fun _ => 0⟩
    Inevitable (masterStep (fun _ => ⟨true, fun _ => true, fun _ => 7⟩) (doMasterRx 0))
      (fun c => c.pc = .ret 0 ∧ c.sys.hw.wire = .idle ∧ c.sys.hw.log =
        [.iicstat 0x10, .iicds 0xa1, .iicstat 0xb0, .received true, .received false,
          .iicstat 0x90])
      ⟨.cur, s3c2440I2cConInit fun _ => msg⟩ :=
  (do_master_rx_acks (fun _ => ⟨true, fun _ => true, fun _ => 7⟩)
    (s3c2440I2cConInit fun _ => ⟨0x50, 1, 2, 0, 0, fun _ => 0⟩) 0 (by decide) (by decide) rfl
    rfl).mono fun _ hc => hc

end S3c2440.I2c
