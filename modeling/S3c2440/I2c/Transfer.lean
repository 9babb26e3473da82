import S3c2440.I2c.Message

/-!
# Transfers

`s3c2440_master_xfer` sends and receives the messages of a list one after the other and
stops at the first that is not acknowledged. `Released` says that the bus has been given
back: every START in the log is followed by its STOP (`bus`), and nothing is on the wire,
so no interrupt will come that would go through `p_cur_msg`.

## What is proved

* `xfer_done` — if no read of nothing is acknowledged on the way, the call returns, with the
  bus released.
* `bus_released_iff` — the bus is released whenever the call returns, in every run, if and only
  if no read of nothing is acknowledged on the way. A read of nothing has `cnt_transferred`
  equal to `len` once its address is acknowledged, so the waiting loop ends while the
  handler has set the first byte going and has still to stop.
-/

namespace S3c2440.I2c

open Theory

variable {slave : ℕ → Slave} {s t : Sys} {i num : ℕ} {write : Bool}

/-! ### The transfer -/

/-- Where a call of `s3c2440_master_xfer` is. -/
inductive XferPc where
  /-- At the loop test, and then at `if(msgs[i].flags == 0)`. -/
  | loop (i : ℕ)
  /-- In `do_master_tx` (`write`) or `do_master_rx`. -/
  | call (write : Bool) (i : ℕ) (pc : MasterPc)
  /-- Returned. -/
  | done (err : ℤ)

/-- A transfer in progress. -/
structure Xfer where
  /-- Where it is. -/
  pc : XferPc
  /-- The rest of the state. -/
  sys : Sys

/-- The function called for a message. -/
def doMasterFor (write : Bool) : ℕ → Call → Option Call := if write then doMasterTx else doMasterRx

/-- The address byte it puts into IICDS. -/
def addressFor (write : Bool) (addr : BitVec 32) : BitVec 32 :=
  if write then addr <<< 1 else addr <<< 1 ||| 1#32 <<< 0

/-- What it writes to IICSTAT to start. -/
def startFor (write : Bool) : BitVec 32 := if write then 0xf0 else 0xb0

/-- The call for message `i` as part of the transfer. -/
def Call.inXfer (write : Bool) (i : ℕ) (c : Call) : Xfer := ⟨.call write i c.pc, c.sys⟩

/-- One statement of `s3c2440_master_xfer(msgs, num)`. -/
def s3c2440MasterXfer (num : ℕ) (x : Xfer) : Option Xfer :=
  match x.pc with
  | .loop i =>
    if i < num then some ⟨.call ((x.sys.msgs i).flags = 0) i .cur, x.sys⟩
    else some ⟨.done 0, x.sys⟩
  | .call _ i (.ret err) => if err ≠ 0 then some ⟨.done err, x.sys⟩ else some ⟨.loop (i + 1), x.sys⟩
  | .call write i pc => (doMasterFor write i ⟨pc, x.sys⟩).map (Call.inXfer write i)
  | .done _ => none

/-- A transfer with the interrupts it causes, also those that come after it has returned. -/
def xferStep (slave : ℕ → Slave) (num : ℕ) (x : Xfer) : Act → Option Xfer
  | .cpu => s3c2440MasterXfer num x
  | .byte => (interrupt slave x.sys).map fun s => { x with sys := s }

/-- Until it returns, a call in a transfer does what it does by itself. -/
theorem xferStep_inXfer {c d : Call} {a : Act}
    (h : masterStep slave (doMasterFor write i) c a = some d) (b : Act) :
    xferStep slave num (c.inXfer write i) b =
      (masterStep slave (doMasterFor write i) c b).map (Call.inXfer write i) := by
  have hpc : c.pc.returned = false := by
    rw [← Bool.not_eq_true]
    intro hr
    rw [masterStep_returned hr] at h
    cases h
  rw [masterStep_eq hpc]
  cases b with
  | cpu =>
    obtain ⟨pc, s⟩ := c
    cases pc <;> first | rfl | cases hpc
  | byte => simp only [xferStep, Call.inXfer, Option.map_map, Function.comp_def]

/-! ### The bus -/

/-- The bus as the log leaves it. -/
inductive Bus where
  /-- Every START has been ended by its STOP. -/
  | free
  /-- The last START has not. -/
  | held
  /-- A message's START came before the STOP of the one before it. -/
  | lost
  deriving DecidableEq

/-- A START is a write of IICSTAT with bit 5 set, a STOP a write of `0xD0` or `0x90`. -/
def Bus.next (b : Bus) : Event → Bus
  | .iicstat v =>
    if v.getLsbD 5 then if b = .free then .held else .lost
    else if v = 0xD0 ∨ v = 0x90 then if b = .lost then .lost else .free
    else b
  | _ => b

/-- The bus after the events of a log. -/
def bus (log : List Event) : Bus := log.foldl Bus.next .free

/-- The bus has been given back, and no interrupt will come. -/
structure Released (s : Sys) : Prop where
  /-- Every START has its STOP. -/
  free : bus s.hw.log = .free
  /-- Nothing is on the wire. -/
  idle : s.hw.wire = .idle

theorem foldl_lost (log : List Event) : log.foldl Bus.next .lost = .lost := by
  induction log with
  | nil => rfl
  | cons e log ih =>
    have he : Bus.next .lost e = .lost := by
      cases e with
      | iicstat v => simp only [Bus.next]; split <;> simp
      | _ => rfl
    rw [List.foldl_cons, he, ih]

/-- Bytes do not change who has the bus. -/
theorem foldl_bytes {b : Bus} {log : List Event} (h : ∀ v, .iicstat v ∉ log) :
    log.foldl Bus.next b = b := by
  induction log with
  | nil => rfl
  | cons e log ih =>
    have he : b.next e = b := by
      cases e with
      | iicstat v => exact absurd (List.mem_cons_self ..) (h v)
      | _ => rfl
    rw [List.foldl_cons, he, ih fun v hv => h v (List.mem_cons_of_mem _ hv)]

theorem foldl_start {b : Bus} {address v : BitVec 32} (hv : v.getLsbD 5 = true) :
    (startEvents address v).foldl Bus.next b = if b = .free then .held else .lost := by
  cases b <;> simp only [startEvents, List.foldl_cons, List.foldl_nil, Bus.next, hv] <;> rfl

/-- A START, bytes, and a STOP. -/
theorem bus_message {log bytes : List Event} {address v stop : BitVec 32}
    (hlog : bus log = .free) (hv : v.getLsbD 5 = true) (hb : ∀ v, .iicstat v ∉ bytes)
    (hs : stop = 0xD0 ∨ stop = 0x90) :
    bus (log ++ (startEvents address v ++ bytes ++ [.iicstat stop])) = .free := by
  have hend : Bus.next .held (.iicstat stop) = .free := by rcases hs with rfl | rfl <;> rfl
  rw [bus, List.foldl_append, List.foldl_append, List.foldl_append, foldl_start hv, foldl_bytes hb]
  rw [bus] at hlog
  rw [hlog]
  exact hend

/-- A START on a bus that has not been given back. -/
theorem bus_lost {log rest : List Event} {address v : BitVec 32} (hlog : bus log ≠ .free)
    (hv : v.getLsbD 5 = true) : bus (log ++ (startEvents address v ++ rest)) = .lost := by
  rw [bus] at hlog ⊢
  rw [List.foldl_append, List.foldl_append, foldl_start hv, if_neg hlog, foldl_lost]

/-! ### One message of a transfer -/

theorem doMasterFor_eq (write : Bool) (i : ℕ) :
    doMasterFor write i = doMaster (addressFor write) (startFor write) i := by
  cases write <;> rfl

theorem startFor_busy (write : Bool) : (startFor write).getLsbD 5 = true := by
  cases write <;> rfl

/-- The call for message `i` from `s` has returned, with a whole message on the bus. -/
def Completed (slave : ℕ → Slave) (write : Bool) (i : ℕ) (s : Sys) (c : Call) : Prop :=
  c.pc = .ret (if (s.device slave).ack then 0 else -1) ∧
    ∃ msg bytes stop, (∀ v, .iicstat v ∉ bytes) ∧ (stop = 0xD0 ∨ stop = 0x90) ∧
      Over s i msg (startEvents (addressFor write (s.msgs i).addr) (startFor write) ++ bytes ++
        [.iicstat stop]) c.sys

/-- A message sent or received comes to a STOP, unless it is a read of nothing that is
acknowledged. -/
theorem wait_over (hdir : write = decide ((s.msgs i).flags = 0)) (hlen : 0 ≤ (s.msgs i).len)
    (hok : write = false → (s.msgs i).len = 0 → (s.device slave).ack = false) :
    Inevitable (masterStep slave (doMasterFor write i))
      (Completed slave write i s)
      ⟨.wait, started (addressFor write) (startFor write) i s⟩ := by
  unfold Completed
  cases hack : (s.device slave).ack with
  | false =>
    rw [doMasterFor_eq]
    refine (wait_nacked write (startFor_busy write) (by cases write <;> rfl) hdir hlen
      hack).mono fun c hc => ⟨hc.1, _, [], _, by simp, ?_, by simpa using hc.2⟩
    cases write
    · exact .inr rfl
    · exact .inl rfl
  | true =>
    cases write with
    | true =>
      refine (wait_tx_acked (of_decide_eq_true hdir.symm) hlen hack).mono fun c hc => ?_
      exact ⟨hc.1, _, _, _, by simp, .inl rfl, hc.2⟩
    | false =>
      have hpos : 1 ≤ (s.msgs i).len := by
        by_contra h
        rw [hok rfl (by omega)] at hack
        cases hack
      refine (wait_rx_acked (of_decide_eq_false hdir.symm) hpos hack).mono fun c ⟨hpc, hover⟩ => ?_
      have hsplit : [Event.received false, .iicstat 0x90] =
        [.received false] ++ [.iicstat 0x90] := rfl
      rw [hsplit, ← List.append_assoc, List.append_assoc (startEvents _ _)] at hover
      exact ⟨hpc, _, _, _, by simp, .inr rfl, hover⟩

/-- The transfer has not returned. -/
def UnderWay (x : Xfer) : Prop := ∀ err, x.pc ≠ .done err

/-- On an idle wire only the program moves. -/
theorem xfer_cpu {P : Xfer → Prop} {x y : Xfer} (hx : UnderWay x) (hidle : x.sys.hw.wire = .idle)
    (hy : s3c2440MasterXfer num x = some y) (h : Until (xferStep slave num) UnderWay P y) :
    Until (xferStep slave num) UnderWay P x := by
  refine until_of_cpu hx hy ?_ h
  simp only [xferStep, interrupt_idle hidle, Option.map_none]

/-- Where the transfer goes on after a message. -/
def afterMessage (i : ℕ) (ack : Bool) : XferPc := if ack then .loop (i + 1) else .done (-1)

/-- One turn of the loop, by what the call for its message comes to. -/
theorem loop_of_call {P : Sys → Prop} {ack : Bool} (hi : i < num) (hidle : s.hw.wire = .idle)
    (hdir : write = decide ((s.msgs i).flags = 0))
    (hcall : Inevitable (masterStep slave (doMasterFor write i))
      (fun c => c.pc = .ret (if ack then 0 else -1) ∧ c.sys.hw.wire = .idle ∧ P c.sys) ⟨.cur, s⟩) :
    Until (xferStep slave num) UnderWay (fun x => x.pc = afterMessage i ack ∧ P x.sys)
      ⟨.loop i, s⟩ := by
  refine xfer_cpu (fun _ => nofun) hidle (y := Call.inXfer write i ⟨.cur, s⟩) ?_ ?_
  · rw [hdir]
    exact if_pos hi
  refine (hcall.lift (f := Call.inXfer write i)
    (fun c a d _ h => xferStep_inXfer h) fun _ _ _ => nofun).trans ?_
  rintro _ ⟨⟨pc, t⟩, ⟨rfl, hidle', hP⟩, rfl⟩
  refine xfer_cpu (fun _ => nofun) hidle' (y := ⟨afterMessage i ack, t⟩) ?_ (.now ⟨rfl, hP⟩)
  cases ack <;> rfl

variable (slave) in
/-- One turn of the loop, from a released bus to a released bus. -/
theorem loop_released (hi : i < num) (hrel : Released s) (hlen : 0 ≤ (s.msgs i).len)
    (hok : (s.msgs i).flags ≠ 0 → (s.msgs i).len = 0 → (s.device slave).ack = false) :
    Until (xferStep slave num) UnderWay
      (fun x => x.pc = afterMessage i (s.device slave).ack ∧ Released x.sys ∧
        x.sys.hw.starts = s.hw.starts + 1 ∧ ∀ j, j ≠ i → x.sys.msgs j = s.msgs j)
      ⟨.loop i, s⟩ := by
  obtain ⟨write, hdir⟩ : ∃ write, write = decide ((s.msgs i).flags = 0) := ⟨_, rfl⟩
  have hcall : Inevitable (masterStep slave (doMasterFor write i)) (Completed slave write i s)
      ⟨.cur, s⟩ := by
    have hwait := wait_over hdir hlen
      fun hw => hok (of_decide_eq_false (hdir.symm.trans hw))
    rw [doMasterFor_eq] at hwait ⊢
    exact inevitable_started hrel.idle hwait
  refine loop_of_call (P := fun t => Released t ∧ t.hw.starts = s.hw.starts + 1 ∧
    ∀ j, j ≠ i → t.msgs j = s.msgs j) hi hrel.idle hdir (hcall.mono ?_)
  rintro c ⟨hpc, msg, bytes, stop, hb, hs, hover⟩
  refine ⟨hpc, hover.wire, ⟨?_, hover.wire⟩, hover.starts, fun j hj => ?_⟩
  · rw [hover.log]
    exact bus_message hrel.free (startFor_busy write) hb hs
  · rw [hover.msgs, Function.update_of_ne hj]

/-! ### Every message -/

/-- Among the messages of a transfer from `s`, from message `i` on, no read of nothing is
acknowledged before the transfer ends; `b` is the number of STARTs before message 0. -/
def NoEmptyRead (slave : ℕ → Slave) (num b i : ℕ) (s : Sys) : Prop :=
  ∀ k < num, i ≤ k → (∀ j, i ≤ j → j < k → (slave (b + j + 1)).ack = true) →
    (s.msgs k).flags ≠ 0 → (s.msgs k).len = 0 → (slave (b + k + 1)).ack = false

/-- A transfer without an acknowledged read of nothing returns, with the bus released. -/
theorem xfer_done {b : ℕ} (n : ℕ) (hn : i + n = num) (hrel : Released s)
    (hb : s.hw.starts = b + i) (hlen : ∀ j < num, i ≤ j → 0 ≤ (s.msgs j).len)
    (hno : NoEmptyRead slave num b i s) :
    Until (xferStep slave num) UnderWay (fun x => (∃ err, x.pc = .done err) ∧ Released x.sys)
      ⟨.loop i, s⟩ := by
  induction n generalizing i s with
  | zero => exact xfer_cpu (fun _ => nofun) hrel.idle (if_neg (by omega)) (.now ⟨⟨0, rfl⟩, hrel⟩)
  | succ n ih =>
    have hi : i < num := by omega
    have hdev : s.device slave = slave (b + i + 1) := by rw [Sys.device, hb]
    have hok := hno i hi (le_refl i) (by omega)
    rw [← hdev] at hok
    apply (loop_released slave hi hrel (hlen i hi (le_refl i)) hok).trans
    rintro ⟨pc, t⟩ ⟨rfl, hrel', hst, hmsgs⟩
    cases hack : (s.device slave).ack with
    | false => exact .now ⟨⟨-1, rfl⟩, hrel'⟩
    | true =>
      refine ih (by omega) hrel' (by show t.hw.starts = _; rw [hst, hb]; omega) ?_ ?_
      · intro j hj hij
        rw [hmsgs j (by omega)]
        exact hlen j hj (by omega)
      · intro k hk hik hacks
        rw [hmsgs k (by omega)]
        apply hno k hk (by omega)
        intro j hij hjk
        by_cases hj : j = i
        · rw [hj, ← hdev, hack]
        · exact hacks j (by omega) hjk

/-- Acknowledged messages lead through the loop. -/
theorem reach_loop (hrel : Released s) (k : ℕ) (hk : k ≤ num)
    (hlen : ∀ j < k, 0 ≤ (s.msgs j).len)
    (hack : ∀ j < k, (slave (s.hw.starts + j + 1)).ack = true)
    (hok : ∀ j < k, (s.msgs j).flags ≠ 0 → (s.msgs j).len ≠ 0) :
    ∃ t, Reach (xferStep slave num) ⟨.loop 0, s⟩ ⟨.loop k, t⟩ ∧ Released t ∧
      t.hw.starts = s.hw.starts + k ∧ ∀ j, k ≤ j → t.msgs j = s.msgs j := by
  induction k with
  | zero => exact ⟨s, .refl _, hrel, rfl, fun _ _ => rfl⟩
  | succ k ih =>
    obtain ⟨t, hr, hrel', hst, hmsgs⟩ := ih (by omega) (fun j hj => hlen j (by omega))
      (fun j hj => hack j (by omega)) (fun j hj => hok j (by omega))
    have hk' := hmsgs k (le_refl k)
    have hdev : (t.device slave).ack = true := by
      rw [Sys.device, hst]
      exact hack k (by omega)
    have hturn := loop_released slave (show k < num by omega) hrel'
      (by rw [hk']; exact hlen k (by omega))
      (by rw [hk']; exact fun hf h0 => absurd h0 (hok k (by omega) hf))
    obtain ⟨⟨pc, u⟩, hu, rfl, hrelu, hstu, hmsgsu⟩ := hturn.exists_reach
    rw [hdev] at hu
    refine ⟨u, hr.trans hu, hrelu, by rw [hstu, hst]; omega, fun j hj => ?_⟩
    rw [hmsgsu j (by omega), hmsgs j (by omega)]

/-- Any message can be taken to the return of its call, whatever is on the wire before. -/
theorem reach_return (write : Bool) (hdir : write = decide ((s.msgs i).flags = 0))
    (hlen : 0 ≤ (s.msgs i).len) :
    ∃ t err rest msg, Reach (masterStep slave (doMasterFor write i)) ⟨.cur, s⟩ ⟨.ret err, t⟩ ∧
      t.hw.log = s.hw.log ++
        (startEvents (addressFor write (s.msgs i).addr) (startFor write) ++ rest) ∧
      t.msgs = Function.update s.msgs i msg := by
  have hstart : Reach (masterStep slave (doMasterFor write i)) ⟨.cur, s⟩
      ⟨.wait, started (addressFor write) (startFor write) i s⟩ := by
    rw [doMasterFor_eq]
    exact ⟨_, run_started _ _ i s⟩
  by_cases hok : write = false → (s.msgs i).len = 0 → (s.device slave).ack = false
  · obtain ⟨⟨pc, t⟩, hr, rfl, msg, bytes, stop, -, -, hover⟩ :=
      (wait_over hdir hlen hok).exists_reach
    refine ⟨t, _, bytes ++ [.iicstat stop], msg, hstart.trans hr, ?_, hover.msgs⟩
    rw [hover.log]
    simp only [List.append_assoc]
  · simp only [Classical.not_imp, Bool.not_eq_false] at hok
    obtain ⟨rfl, h0, hack⟩ := hok
    obtain ⟨t, hr, hbusy⟩ := wait_rx_empty (of_decide_eq_false hdir.symm) h0 hack
    refine ⟨t, 0, [], _, hstart.trans hr, ?_, hbusy.msgs⟩
    rw [hbusy.log, List.append_nil]
    rfl

/-- The call, as part of the transfer, from the loop test on. -/
theorem reach_of_call {err : ℤ} (hi : i < num) (hdir : write = decide ((s.msgs i).flags = 0))
    (h : Reach (masterStep slave (doMasterFor write i)) ⟨.cur, s⟩ ⟨.ret err, t⟩) :
    Reach (xferStep slave num) ⟨.loop i, s⟩
      ⟨if err ≠ 0 then .done err else .loop (i + 1), t⟩ := by
  have hcall : Reach (xferStep slave num) (Call.inXfer write i ⟨.cur, s⟩)
      (Call.inXfer write i ⟨.ret err, t⟩) :=
    h.lift fun c a d hd => by rw [xferStep_inXfer hd, hd, Option.map_some]
  refine .head (a := .cpu) (t := Call.inXfer write i ⟨.cur, s⟩) ?_
    (hcall.trans (.one (a := .cpu) ?_))
  · rw [hdir]
    exact if_pos hi
  · show (if err ≠ 0 then _ else _) = _
    split <;> rfl

/-- A bus that has been lost track of is never released again: whatever is left of the
transfer, it can be run to its end. -/
theorem reach_unreleased (n : ℕ) (hn : i + n = num)
    (hlen : ∀ j < num, i ≤ j → 0 ≤ (s.msgs j).len)
    (hbad : bus s.hw.log ≠ .free) :
    ∃ t err, Reach (xferStep slave num) ⟨.loop i, s⟩ ⟨.done err, t⟩ ∧ ¬ Released t := by
  induction n generalizing i s with
  | zero => exact ⟨s, 0, .one (a := .cpu) (if_neg (by omega)), fun hr => hbad hr.free⟩
  | succ n ih =>
    have hi : i < num := by omega
    obtain ⟨t, err, rest, msg, hr, hlog, hmsgs⟩ :=
      reach_return _ rfl (hlen i hi (le_refl i))
    have hloop := reach_of_call hi rfl hr
    have hbad' : bus t.hw.log ≠ .free := by
      rw [hlog, bus_lost hbad (startFor_busy _)]
      decide
    by_cases herr : err = 0
    · rw [if_neg (not_not_intro herr)] at hloop
      obtain ⟨u, e, hu, hrel⟩ := ih (by omega) (s := t) (i := i + 1) (fun j hj hij => by
        rw [hmsgs, Function.update_of_ne (by omega)]
        exact hlen j hj (by omega)) hbad'
      exact ⟨u, e, hloop.trans hu, hrel⟩
    · rw [if_pos herr] at hloop
      exact ⟨t, err, hloop, fun hrel => hbad' hrel.free⟩

/-- An acknowledged read of nothing, on the way, leaves the bus held in some run. -/
theorem reach_of_emptyRead {k : ℕ} (hrel : Released s) (hk : k < num)
    (hlen : ∀ j < num, 0 ≤ (s.msgs j).len)
    (hacks : ∀ j < k, (slave (s.hw.starts + j + 1)).ack = true)
    (hok : ∀ j < k, (s.msgs j).flags ≠ 0 → (s.msgs j).len ≠ 0)
    (hf : (s.msgs k).flags ≠ 0) (h0 : (s.msgs k).len = 0)
    (hack : (slave (s.hw.starts + k + 1)).ack = true) :
    ∃ t err, Reach (xferStep slave num) ⟨.loop 0, s⟩ ⟨.done err, t⟩ ∧ ¬ Released t := by
  obtain ⟨t, hr, hrel', hst, hmsgs⟩ := reach_loop hrel k hk.le
    (fun j hj => hlen j (by omega)) hacks hok
  have hk' := hmsgs k (le_refl k)
  rw [← hk'] at hf h0
  have hdev : (t.device slave).ack = true := by rw [Sys.device, hst]; exact hack
  obtain ⟨u, hu, hbusy⟩ := wait_rx_empty (i := k) hf h0 hdev
  have hloop := reach_of_call hk (decide_eq_false hf).symm
    (Reach.trans ⟨_, run_started (fun addr => addr <<< 1 ||| 1#32 <<< 0) 0xb0 k t⟩ hu)
  have hheld : bus u.hw.log ≠ .free := by
    rw [hbusy.log, bus, List.foldl_append, foldl_start rfl]
    split <;> decide
  obtain ⟨w, err, hw, hunrel⟩ := reach_unreleased (num - (k + 1))
    (show k + 1 + (num - (k + 1)) = num by omega)
    (fun j hj hkj => by
      rw [hbusy.msgs, Function.update_of_ne (by omega), hmsgs j (by omega)]
      exact hlen j hj) hheld
  exact ⟨w, err, (hr.trans hloop).trans hw, hunrel⟩

/-! ### When the bus is released -/

/-- The bus is released whenever the transfer returns, in every run, if and only if no read of
nothing is acknowledged before the transfer ends. -/
theorem bus_released_iff (slave : ℕ → Slave) (num : ℕ) (s : Sys) (hrel : Released s)
    (hlen : ∀ j < num, 0 ≤ (s.msgs j).len) :
    (∀ t err, Reach (xferStep slave num) ⟨.loop 0, s⟩ ⟨.done err, t⟩ → Released t) ↔
      ∀ k < num, (∀ j < k, (slave (s.hw.starts + j + 1)).ack = true) →
        (s.msgs k).flags ≠ 0 → (s.msgs k).len = 0 →
          (slave (s.hw.starts + k + 1)).ack = false := by
  constructor
  · intro h k
    induction k using Nat.strong_induction_on with
    | _ k ih =>
      intro hk hacks hf h0
      by_contra hack
      obtain ⟨t, err, hr, hunrel⟩ := reach_of_emptyRead hrel hk hlen hacks
        (fun j hj hfj h0j => by
          have hj' := ih j hj (by omega) (fun l hl => hacks l (by omega)) hfj h0j
          rw [hacks j hj] at hj'
          cases hj') hf h0 (Bool.not_eq_false _ ▸ hack)
      exact hunrel (h t err hr)
  · intro h t err hr
    have hdone := xfer_done (b := s.hw.starts) num (Nat.zero_add num) hrel rfl
      (fun j hj _ => hlen j hj) fun k hk _ hacks => h k hk fun j hj => hacks j (Nat.zero_le j) hj
    have hstop : ∀ x : Xfer, ((∃ err, x.pc = .done err) ∧ Released x.sys) →
        ∀ a, xferStep slave num x a = none := by
      rintro ⟨pc, u⟩ ⟨⟨e, rfl⟩, hu⟩ a
      cases a with
      | cpu => rfl
      | byte => simp only [xferStep, interrupt_idle hu.idle, Option.map_none]
    rcases hdone.of_reach hstop hr with hunder | ⟨-, hrel'⟩
    · exact absurd rfl (hunder err)
    · exact hrel'

/-- A device that answers. -/
def answering : Slave := ⟨true, fun _ => true, fun _ => 7⟩

/-- A write of two bytes, and a read of one. -/
def writeRead (i : ℕ) : I2cMsg :=
  if i = 0 then ⟨0x50, 0, 2, 0, 0, fun _ => 7⟩ else ⟨0x50, 1, 1, 0, 0, fun _ => 0⟩

/-- The write and the read, each byte over as soon as it can be: the bus is released. -/
theorem bus_released_write_read :
    ∃ t, run (xferStep (fun _ => answering) 2) ⟨.loop 0, s3c2440I2cConInit writeRead⟩
        (List.replicate 8 .cpu ++ List.replicate 3 .byte ++ List.replicate 11 .cpu ++
          List.replicate 2 .byte ++ List.replicate 4 .cpu) = some ⟨.done 0, t⟩ ∧ Released t := by
  have hok := (bus_released_iff (fun _ => answering) 2 (s3c2440I2cConInit writeRead) ⟨rfl, rfl⟩
    (by decide)).mpr (by decide)
  suffices hrun : ∀ as t, run (xferStep (fun _ => answering) 2)
      ⟨.loop 0, s3c2440I2cConInit writeRead⟩ as = some ⟨.done 0, t⟩ →
        ∃ t, run (xferStep (fun _ => answering) 2) ⟨.loop 0, s3c2440I2cConInit writeRead⟩ as =
          some ⟨.done 0, t⟩ ∧ Released t from hrun _ _ rfl
  exact fun as t ht => ⟨t, ht, hok t 0 ⟨as, ht⟩⟩

/-- One read of nothing from a device that answers: in some run the call returns with the bus
held. -/
theorem bus_kept_by_empty_read : ¬ ∀ (slave : ℕ → Slave) (num : ℕ) (s : Sys), Released s →
    (∀ j < num, 0 ≤ (s.msgs j).len) →
      ∀ t err, Reach (xferStep slave num) ⟨.loop 0, s⟩ ⟨.done err, t⟩ → Released t := by
  intro h
  have hrel : Released (s3c2440I2cConInit fun _ => ⟨0x50, 1, 0, 0, 0, fun _ => 0⟩) := ⟨rfl, rfl⟩
  have hheld : ∃ t err, Reach (xferStep (fun _ => answering) 1)
      ⟨.loop 0, s3c2440I2cConInit fun _ => ⟨0x50, 1, 0, 0, 0, fun _ => 0⟩⟩ ⟨.done err, t⟩ ∧
      ¬ Released t :=
    reach_of_emptyRead (k := 0) hrel (by decide) (by decide) (by decide) (by decide) (by decide)
      rfl rfl
  obtain ⟨t, err, hr, hunrel⟩ := hheld
  exact hunrel (h _ 1 _ hrel (by decide) t err hr)

end S3c2440.I2c
