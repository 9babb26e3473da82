import S3c2440.I2c.At24cxx
import S3c2440.Console.StringUtils

/-!
# The EEPROM menu

`bare_board/code/I2c/20200510_IIC/i2c/i2c_test.c`: `do_write_at24cxx` asks for an address and for a
string, and writes the string to the EEPROM with `at24cxx_write`. It says that `strlen(str)+1`
bytes are to be written, and `strlen` returns 0 for every string that is not empty.

Behind what `gets` has stored, `str` has what was there before (`stack`). Where `strlen` returns
without a value the machine has no next step.

## What is proved

* `menu_first` — for a string that is not empty one byte is written, its first.
* `menu_stuck` — for an empty one nothing is known.
* `write_stores_iff` — so the string is stored if and only if it is not empty and everything but
  its first byte has been there before; `write_stores_two` is one that is not.
-/

namespace S3c2440.I2c

open Theory Console

/-! ### The code -/

/-- Where a call of `do_write_at24cxx` is. -/
inductive MenuPc where
  /-- It asks for the address. -/
  | address
  /-- It asks for the string. -/
  | string (addr : BitVec 32)
  /-- In `at24cxx_write`, with `gets` having stored `str`. -/
  | write (str : List (BitVec 8)) (len : ℕ) (pc : WritePc) (addr : BitVec 32)
  /-- Returned. -/
  | done

/-- A call in progress. -/
structure Menu where
  /-- Where it is. -/
  pc : MenuPc
  /-- The serial line. -/
  uart : Uart
  /-- The rest of the state. -/
  sys : Sys

/-- `do_write_at24cxx`: up to the next question, or the next statement of `at24cxx_write`. -/
def doWriteAt24cxx (stack : ℕ → BitVec 8) (m : Menu) : Option Menu :=
  match m.pc with
  | .address => do
    let u ← m.uart.printf "Enter the address of sector to write: " []
    let (addr, u) ← getUint u
    if addr > 256 then
      let u ← u.printf "address > 256, error!\n\r" []
      return { m with pc := .done, uart := u }
    else return { m with pc := .string addr, uart := u }
  | .string addr => do
    let u ← m.uart.printf "Enter the string to write: " []
    let (str, u) ← gets u
    let u ← u.printf "writing ...\n\r" []
    let n ← strlen str
    return { m with pc := .write str (n + 1) (.loop 0) addr, uart := u }
  | .write _ _ (.done err) _ => do
    let u ← m.uart.printf "at24cxx_write ret = %d\n\r" [.word (BitVec.ofInt 32 err)]
    return { m with pc := .done, uart := u }
  | .write str len pc addr => do
    let w ← at24cxxWrite (strArray stack str) len ⟨pc, addr, m.sys⟩
    return { m with pc := .write str len w.pc w.addr, sys := w.sys }
  | .done => none

/-- A call with the interrupts it causes, until it returns. -/
def menuStep (slave : ℕ → Slave) (stack : ℕ → BitVec 8) (m : Menu) (a : Act) : Option Menu :=
  match m.pc, a with
  | .done, _ => none
  | _, .cpu => doWriteAt24cxx stack m
  | _, .byte => (interrupt slave m.sys).map fun s => { m with sys := s }

/-! ### The property -/

/-- The cells with a string and its NUL stored from `addr` on. -/
def storedString (addr : BitVec 8) (line : List (BitVec 8)) (cells : BitVec 8 → BitVec 8)
    (a : BitVec 8) : BitVec 8 :=
  if (a - addr).toNat ≤ line.length then (line ++ [0]).getD (a - addr).toNat 0 else cells a

/-- The call has returned, and the string is in the EEPROM. -/
def StringStored (slave : ℕ → Slave) (cells : BitVec 8 → BitVec 8) (s : Sys) (addr : BitVec 8)
    (line : List (BitVec 8)) (m : Menu) : Prop :=
  m.pc = .done ∧ (romAfter slave cells s m.sys).cells = storedString addr line cells

variable {slave : ℕ → Slave} {stack : ℕ → BitVec 8} {s : Sys} {cells : BitVec 8 → BitVec 8}
  {P : Menu → Prop} {addr : BitVec 8} {number line : Line} {rest output : List (BitVec 8)}

/-! ### The questions -/

theorem menuStep_cpu (m : Menu) : menuStep slave stack m .cpu = doWriteAt24cxx stack m := by
  unfold menuStep
  split
  case h_1 hpc => simp only [doWriteAt24cxx, hpc]
  case h_2 => rfl
  case h_3 hact _ => cases hact

theorem menuStep_idle {m : Menu} (hidle : m.sys.hw.wire = .idle) :
    menuStep slave stack m .byte = none := by
  unfold menuStep
  split
  case h_1 => rfl
  case h_2 hact _ => cases hact
  case h_3 => rw [interrupt_idle hidle, Option.map_none]

theorem menuStep_done {m : Menu} (h : m.pc = .done) (a : Act) :
    menuStep slave stack m a = none := by
  simp only [menuStep, h]

/-- On an idle wire only the program moves. -/
theorem menu_cpu {m n : Menu} (hidle : m.sys.hw.wire = .idle)
    (hn : doWriteAt24cxx stack m = some n) (h : Inevitable (menuStep slave stack) P n) :
    Inevitable (menuStep slave stack) P m :=
  until_of_cpu trivial ((menuStep_cpu m).trans hn) (menuStep_idle hidle) h

/-- The serial line after the first question. -/
def asked (number : Line) (output input : List (BitVec 8)) : Uart :=
  ⟨input, output ++ text "Enter the address of sector to write: " ++
    echoed number.chars number.nl⟩

/-- The first question, answered with an address below 256. -/
theorem doWrite_address {input : List (BitVec 8)}
    (haddr : (simpleStrtoul number.stored 0).1 = addr.setWidth 32) :
    doWriteAt24cxx stack ⟨.address, ⟨number.bytes ++ input, output⟩, s⟩ =
      some ⟨.string (addr.setWidth 32), asked number output input, s⟩ := by
  have hle : ¬ addr.setWidth 32 > 256 := by
    rw [gt_iff_lt, BitVec.lt_def, BitVec.toNat_setWidth]
    have hlt := addr.isLt
    show ¬ 256 < _
    omega
  simp only [doWriteAt24cxx,
    Uart.printf_plain ⟨_, _⟩ "Enter the address of sector to write: " (forall_text (by decide)),
    Option.bind_eq_bind, Option.bind_some, getUint_line, haddr, if_neg hle]
  rfl

/-- The serial line after the second question. -/
def answered (line : Line) (output rest : List (BitVec 8)) : Uart :=
  ⟨rest, output ++ text "Enter the string to write: " ++ echoed line.chars line.nl ++
    text "writing ...\n\r"⟩

/-- The second question. -/
theorem doWrite_string (line : Line) (rest : List (BitVec 8)) {a : BitVec 32} :
    doWriteAt24cxx stack
    ⟨.string a, ⟨line.bytes ++ rest, output⟩, s⟩ = (strlen line.stored).map fun n =>
      ⟨.write line.stored (n + 1) (.loop 0) a, answered line output rest, s⟩ := by
  simp only [doWriteAt24cxx,
    Uart.printf_plain ⟨_, _⟩ "Enter the string to write: " (forall_text (by decide)),
    Uart.printf_plain ⟨_, _⟩ "writing ...\n\r" (forall_text (by decide)),
    Option.bind_eq_bind, Option.bind_some, gets_line]
  cases strlen line.stored <;> rfl

/-! ### The write -/

/-- A call of `at24cxx_write` as part of the call. -/
def Write.inMenu (str : List (BitVec 8)) (len : ℕ) (u : Uart) (w : Write) : Menu :=
  ⟨.write str len w.pc w.addr, u, w.sys⟩

theorem doWrite_inMenu {w : Write} (hw : Writing w) (str : List (BitVec 8)) (len : ℕ) (u : Uart) :
    doWriteAt24cxx stack (w.inMenu str len u) =
      (at24cxxWrite (strArray stack str) len w).map (Write.inMenu str len u) := by
  obtain ⟨pc, addr, t⟩ := w
  rw [Option.map_eq_bind]
  cases pc with
  | loop i => rfl
  | transfer i pc => rfl
  | done err => exact absurd rfl (hw err)

/-- Until it returns, the write does what it does by itself. -/
theorem menuStep_inMenu {w : Write} (hw : Writing w) (str : List (BitVec 8)) (len : ℕ) (u : Uart)
    (a : Act) : menuStep slave stack (w.inMenu str len u) a =
      (writeStep slave (strArray stack str) len w a).map (Write.inMenu str len u) := by
  cases a with
  | cpu => exact (menuStep_cpu _).trans (doWrite_inMenu hw str len u)
  | byte =>
    simp only [menuStep, Write.inMenu, writeStep, Option.map_map, Function.comp_def]

/-- The write has returned 0, which is printed. -/
theorem doWrite_return (stack : ℕ → BitVec 8) (str : List (BitVec 8)) (len : ℕ) (u : Uart)
    (a : BitVec 32) (t : Sys) :
    ∃ u', doWriteAt24cxx stack (Write.inMenu str len u ⟨.done 0, a, t⟩) = some ⟨.done, u', t⟩ := by
  have hret := printf_decimal "at24cxx_write ret = %d\n\r"
    (text "at24cxx_write ret = ") (text "\n\r") ((text_ofList _).trans rfl)
    (forall_text (by decide)) (forall_text (by decide)) (BitVec.ofInt 32 0)
  have hprint : ∃ u', u.printf "at24cxx_write ret = %d\n\r" [.word (BitVec.ofInt 32 0)] =
      some u' := by
    rw [Uart.printf, hret]
    exact ⟨_, rfl⟩
  obtain ⟨u', hu⟩ := hprint
  refine ⟨u', ?_⟩
  simp only [doWriteAt24cxx, Write.inMenu, hu, Option.bind_eq_bind, Option.bind_some]
  rfl

/-- With every transaction acknowledged, one byte is written. -/
theorem write_one (cells : BitVec 8 → BitVec 8) (hack : ∀ k, (slave k).ack = true)
    (hidle : s.hw.wire = .idle) (data : ℕ → BitVec 8) (a : BitVec 32) :
    Until (writeStep slave data 1) Writing
      (fun w => w.pc = .done 0 ∧ w.sys.hw.wire = .idle ∧
        (romAfter slave cells s w.sys).cells =
          Function.update cells (a.setWidth 8) (data 0)) ⟨.loop 0, a, s⟩ := by
  have hfrom : Until (writeStep slave data 1) Writing
      (fun w => ∃ k, Outcome slave cells s a data 1 k w) ⟨.loop 0, a + BitVec.ofNat 32 0, s⟩ :=
    write_from 1 (Nat.zero_add 1) (progress_zero hidle) fun j hj => absurd hj (Nat.not_lt_zero j)
  rw [show a + BitVec.ofNat 32 0 = a from BitVec.add_zero a] at hfrom
  refine hfrom.mono fun w ⟨k, hacked, hended⟩ => ?_
  rcases hended with ⟨rfl, hpc, hprog⟩ | ⟨-, hnack, -⟩
  · refine ⟨hpc, hprog.idle, funext fun b => ?_⟩
    have hcell : cellOf a 0 = a.setWidth 8 := congrArg (BitVec.setWidth 8) (BitVec.add_zero a)
    by_cases hb : b = a.setWidth 8
    · rw [hb, Function.update_self, ← hcell]
      exact hprog.rom.written 0 Nat.one_pos fun j h₁ h₂ => by omega
    · rw [Function.update_of_ne hb]
      refine hprog.rom.unchanged b fun i hi => ?_
      obtain rfl : i = 0 := by omega
      rw [hcell]
      exact Ne.symm hb
  · rw [hack] at hnack
    cases hnack

/-! ### The whole call -/

/-- The call before its first question. -/
def menuInit (number line : Line) (rest output : List (BitVec 8)) (s : Sys) : Menu :=
  ⟨.address, ⟨number.bytes ++ (line.bytes ++ rest), output⟩, s⟩

/-- Of a string that is not empty the first byte is written. -/
theorem menu_first (stack : ℕ → BitVec 8) (cells : BitVec 8 → BitVec 8) (number line : Line)
    (rest output : List (BitVec 8)) (hack : ∀ k, (slave k).ack = true) (hidle : s.hw.wire = .idle)
    (haddr : (simpleStrtoul number.stored 0).1 = addr.setWidth 32) (hne : peek line.stored ≠ 0) :
    Inevitable (menuStep slave stack)
      (fun m => m.pc = .done ∧ (romAfter slave cells s m.sys).cells =
        Function.update cells addr (peek line.stored))
      (menuInit number line rest output s) := by
  have hlen : strlen line.stored = some 0 := if_pos hne
  have hdata : strArray stack line.stored 0 = peek line.stored := by
    obtain ⟨c, str, hstr⟩ : ∃ c str, line.stored = c :: str :=
      List.exists_cons_of_ne_nil (List.append_ne_nil_of_right_ne_nil _ (List.cons_ne_nil 0 []))
    rw [hstr]
    rfl
  refine menu_cpu hidle (doWrite_address haddr) (menu_cpu hidle
    ((doWrite_string line rest).trans (by rw [hlen]; rfl)) ?_)
  refine ((write_one cells hack hidle (strArray stack line.stored)
    (addr.setWidth 32)).lift (f := Write.inMenu line.stored 1 _)
    (fun w _ _ hw _ b => menuStep_inMenu hw _ _ _ b) fun _ _ => trivial).trans ?_
  rintro _ ⟨⟨pc, a, t⟩, ⟨rfl, hwire, hcells⟩, rfl⟩
  obtain ⟨u, hdone⟩ := doWrite_return stack line.stored 1 _ a t
  refine menu_cpu hwire hdone (.now ⟨rfl, ?_⟩)
  rw [hcells, hdata, BitVec.setWidth_setWidth_of_le _ (by omega), BitVec.setWidth_eq]

/-- After an empty one the call does not come to its end. -/
theorem menu_stuck (hidle : s.hw.wire = .idle)
    (haddr : (simpleStrtoul number.stored 0).1 = addr.setWidth 32) (hzero : peek line.stored = 0)
    (hP : ∀ m, P m → m.pc = .done) :
    ¬ Inevitable (menuStep slave stack) P (menuInit number line rest output s) := by
  intro h
  have hlen : strlen line.stored = none := if_neg (not_not_intro hzero)
  cases h with
  | now hp => cases hP _ hp
  | later _ _ hnext =>
    cases hnext .cpu _ ((menuStep_cpu _).trans (doWrite_address haddr)) with
    | now hp => cases hP _ hp
    | later _ hex _ =>
      obtain ⟨a, t, ha⟩ := hex
      cases a with
      | cpu =>
        rw [menuStep_cpu, asked, doWrite_string, hlen] at ha
        cases ha
      | byte =>
        rw [menuStep_idle (by exact hidle)] at ha
        cases ha

/-- The string begins with its first byte, if it has one. -/
theorem peek_stored (l : Line) : peek l.stored = peek l.chars := by
  unfold Line.stored
  cases l.chars <;> rfl

/-- One byte makes the whole string exactly if the others and the NUL are there. -/
theorem update_eq_storedString_iff {chars : List (BitVec 8)} (hlen : chars.length < 100)
    (hne : peek chars ≠ 0) :
    Function.update cells addr (peek chars) = storedString addr chars cells ↔
      ∀ k, 1 ≤ k → k ≤ chars.length →
        cells (addr + BitVec.ofNat 8 k) = (chars ++ [0]).getD k 0 := by
  have hoffset : ∀ k ≤ chars.length, (addr + BitVec.ofNat 8 k - addr).toNat = k := by
    intro k hk
    rw [add_sub_cancel_left, BitVec.toNat_ofNat]
    omega
  constructor
  · intro heq k hpos hk
    have hk' := congrFun heq (addr + BitVec.ofNat 8 k)
    have hother : addr + BitVec.ofNat 8 k ≠ addr := by
      intro h
      have h0 := hoffset k hk
      rw [h, BitVec.sub_self] at h0
      exact absurd h0 (by show 0 ≠ k; omega)
    rwa [Function.update_of_ne hother, storedString, hoffset k hk, if_pos hk] at hk'
  · intro hrest
    funext a
    by_cases ha : a = addr
    · subst ha
      rw [Function.update_self, storedString, BitVec.sub_self]
      cases chars with
      | nil => exact absurd rfl hne
      | cons c cs => rfl
    · rw [Function.update_of_ne ha, storedString]
      split
      case isTrue hle =>
        have hpos : 1 ≤ (a - addr).toNat := by
          rw [Nat.one_le_iff_ne_zero]
          intro h0
          exact ha (sub_eq_zero.mp (BitVec.eq_of_toNat_eq h0))
        rw [← hrest _ hpos hle, BitVec.ofNat_toNat, BitVec.setWidth_eq, add_sub_cancel]
      case isFalse => rfl

/-- With an EEPROM that acknowledges everything, and an address below 256, the typed string is
stored with its NUL if and only if it does not begin with its end and all but its first byte
have been in the EEPROM before. -/
theorem write_stores_iff (slave : ℕ → Slave) (hack : ∀ k, (slave k).ack = true)
    (stack : ℕ → BitVec 8) (s : Sys) (hidle : s.hw.wire = .idle) (cells : BitVec 8 → BitVec 8)
    (number line : Line) (rest output : List (BitVec 8)) (addr : BitVec 8)
    (haddr : (simpleStrtoul number.stored 0).1 = addr.setWidth 32) :
    Inevitable (menuStep slave stack) (StringStored slave cells s addr line.chars)
        (menuInit number line rest output s) ↔
      peek line.chars ≠ 0 ∧ ∀ k, 1 ≤ k → k ≤ line.chars.length →
        cells (addr + BitVec.ofNat 8 k) = (line.chars ++ [0]).getD k 0 := by
  by_cases hzero : peek line.chars = 0
  · refine iff_of_false ?_ fun h => h.1 hzero
    exact menu_stuck hidle haddr ((peek_stored line).trans hzero) fun m hm => hm.1
  · have hfirst := menu_first stack cells number line rest output hack hidle haddr
      (ne_of_eq_of_ne (peek_stored line) hzero)
    rw [peek_stored] at hfirst
    rw [← update_eq_storedString_iff line.fits hzero, and_iff_right hzero]
    constructor
    · intro h
      obtain ⟨m, -, ⟨-, hstored⟩, -, hone⟩ := (h.and_of_final hfirst
        (fun m hm => menuStep_done hm.1) fun m hm => menuStep_done hm.1).exists_reach
      exact hone.symm.trans hstored
    · intro heq
      exact hfirst.mono fun m hm => ⟨hm.1, hm.2.trans heq⟩

/-- The address 0, and its end of line. -/
def lineZero : Line := ⟨text "0", ch '\r', forall_text (by decide), isNewline_cr, by decide⟩

/-- Two letters, and their end of line. -/
def lineTwo : Line := ⟨text "hi", ch '\r', forall_text (by decide), isNewline_cr, by decide⟩

/-- An EEPROM that acknowledges everything. -/
def willing : ℕ → Slave := fun _ => ⟨true, fun _ => true, fun _ => 0⟩

/-- The two letters to an EEPROM that holds an `i` in cell 1, and zeros. -/
theorem write_stores_rest :
    Inevitable (menuStep willing fun _ => 0)
        (StringStored willing (fun a => if a = 1 then ch 'i' else 0)
          (s3c2440I2cConInit writeRead) 0 (text "hi"))
        (menuInit lineZero lineTwo [] [] (s3c2440I2cConInit writeRead)) ↔
      peek (text "hi") ≠ 0 ∧ ∀ k, 1 ≤ k → k ≤ 2 →
        (if (0 : BitVec 8) + BitVec.ofNat 8 k = 1 then ch 'i' else 0) =
          (text "hi" ++ [0]).getD k 0 :=
  write_stores_iff willing (fun _ => rfl) (fun _ => 0) (s3c2440I2cConInit writeRead) rfl
    (fun a => if a = 1 then ch 'i' else 0) lineZero lineTwo [] [] 0 (by decide)

/-- The two letters to an empty EEPROM: the second one is not stored. -/
theorem write_stores_two : ¬ ∀ (slave : ℕ → Slave), (∀ k, (slave k).ack = true) →
    ∀ (stack : ℕ → BitVec 8) (s : Sys), s.hw.wire = .idle → ∀ (cells : BitVec 8 → BitVec 8)
      (number line : Line) (rest output : List (BitVec 8)) (addr : BitVec 8),
      (simpleStrtoul number.stored 0).1 = addr.setWidth 32 →
        Inevitable (menuStep slave stack) (StringStored slave cells s addr line.chars)
          (menuInit number line rest output s) := by
  intro h
  have hstored := h willing (fun _ => rfl) (fun _ => 0) (s3c2440I2cConInit writeRead) rfl
    (fun _ => 0xff) lineZero lineTwo [] [] 0 (by decide)
  have hfirst := menu_first (s := s3c2440I2cConInit writeRead) (fun _ => 0) (fun _ => 0xff) lineZero
    lineTwo [] [] (fun k => (rfl : (willing k).ack = true)) rfl
    (show _ = BitVec.setWidth 32 0 by decide) (by decide)
  obtain ⟨m, -, ⟨-, hall⟩, -, hone⟩ := (hstored.and_of_final hfirst
    (fun m hm => menuStep_done hm.1) fun m hm => menuStep_done hm.1).exists_reach
  exact absurd (congrFun (hone.symm.trans hall) 1) (by decide)

end S3c2440.I2c
