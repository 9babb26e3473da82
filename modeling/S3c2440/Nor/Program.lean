import S3c2440.Nor.Chip
import S3c2440.Console.StringUtils
import S3c2440.Theory.Loop
import Mathlib.Data.List.GetD

/-!
# Programming a string

`do_write_nor_flash` of `bare_board/code/I2c/20200510_IIC/nor_flash.c` asks for an address and a
string, and programs the string two characters at a time. The loop ends at the NUL, which for a
string of even length is `str[i]`, and for one of odd length `str[j]`; one more word is
programmed then, with the NUL or with the last character and the NUL.

## What is proved

* `Stored.next` — programming the next word of a string to an erased one.
* `nor_write_stores` — the string and its NUL are programmed, each word once and after the one
  before has been finished, and nothing else is.
-/

namespace S3c2440.Nor

open Theory Console

/-! ### The code -/

/-- The loop of `do_write_nor_flash`. -/
structure Writing where
  /-- `i`. -/
  i : ℕ
  /-- `j`. -/
  j : ℕ
  /-- `addr`. -/
  addr : BitVec 32
  /-- The chip. -/
  flash : Flash

/-- The test of the loop. -/
def writePending (str : ℕ → BitVec 8) (p : Writing) : Bool := str p.i ≠ 0 ∧ str p.j ≠ 0

/-- The body of the loop. -/
def writePair (chip : Chip) (str : ℕ → BitVec 8) (p : Writing) : Writing :=
  let val := (str p.i).setWidth 32 + (str p.j).setWidth 32 <<< 8
  ⟨p.i + 2, p.j + 2, p.addr + 2, programWord chip p.flash p.addr val⟩

/-- `do_write_nor_flash`, with at most `fuel` turns of its loop. -/
def doWriteNorFlash (chip : Chip) (stack : ℕ → BitVec 8) (fuel : ℕ) (u : Uart) (s : Flash) :
    Option (Uart × Flash) := do
  let u ← u.printf "Enter the address of sector to write: " []
  let (addr, u) ← getUint u
  let u ← u.printf "Enter the string to write: " []
  let (stored, u) ← gets u
  let u ← u.printf "writing ...\n\r" []
  let str := strArray stack stored
  let p ← whileLoop (writePending str) (writePair chip str) fuel ⟨0, 1, addr, s⟩
  return (u, programWord chip p.flash p.addr ((str p.i).setWidth 32))

/-! ### The words of a string -/

/-- The chip's address of the `k`-th word from `addr` on. -/
def wordAt (addr : BitVec 32) (k : ℕ) : BitVec 32 := (addr + BitVec.ofNat 32 (2 * k)) >>> 1

/-- Its bytes, as the CPU sees them. -/
def Flash.byteAt (s : Flash) (a : BitVec 32) : BitVec 8 :=
  if a.getLsbD 0 then (s.mem (wordOffset a)).extractLsb' 8 8 else (s.mem (wordOffset a)).setWidth 8

/-- A byte of a string and its NUL. -/
def byteOf (str : List (BitVec 8)) (i : ℕ) : BitVec 8 := (str ++ [0]).getD i 0

/-- The `k`-th word of a string and its NUL, the first byte below the second. -/
def wordOf (str : List (BitVec 8)) (k : ℕ) : BitVec 16 :=
  byteOf str (2 * k + 1) ++ byteOf str (2 * k)

variable (chip : Chip) {stack : ℕ → BitVec 8} {s t : Flash} {addr : BitVec 32}
  {str rest output : List (BitVec 8)} {k : ℕ}

theorem pack (c d : BitVec 8) :
    (c.setWidth 32 + d.setWidth 32 <<< 8).setWidth 16 = (d ++ c : BitVec 16) := by
  have hc := c.isLt
  have hd := d.isLt
  apply BitVec.eq_of_toNat_eq
  rw [BitVec.toNat_append, ← Nat.shiftLeft_add_eq_or_of_lt hc, BitVec.toNat_setWidth,
    BitVec.toNat_add, BitVec.toNat_shiftLeft, BitVec.toNat_setWidth, BitVec.toNat_setWidth,
    Nat.shiftLeft_eq, Nat.shiftLeft_eq]
  omega

theorem pack_zero (c : BitVec 8) : (c.setWidth 32).setWidth 16 = (0#8 ++ c : BitVec 16) := by
  rw [← pack, BitVec.setWidth_zero, BitVec.zero_shiftLeft, BitVec.add_zero]

theorem even_toNat (heven : addr.getLsbD 0 = false) : addr.toNat % 2 = 0 := by
  rw [← BitVec.testBit_toNat] at heven
  simpa [Nat.testBit_zero] using heven

/-- From an even address on, different words have different addresses. -/
theorem wordAt_inj (heven : addr.getLsbD 0 = false) {j k : ℕ} (hj : j < 2 ^ 31) (hk : k < 2 ^ 31)
    (h : wordAt addr j = wordAt addr k) : j = k := by
  have hmod := even_toNat heven
  have hlt := addr.isLt
  have h' := congrArg BitVec.toNat h
  simp only [wordAt, BitVec.toNat_ushiftRight, BitVec.toNat_add, BitVec.toNat_ofNat,
    Nat.shiftRight_eq_div_pow] at h'
  omega

/-- The bytes of the word at `wordAt`. -/
theorem byteAt_of_word (heven : addr.getLsbD 0 = false) {i : ℕ}
    (hword : t.mem (wordAt addr (i / 2)) = wordOf str (i / 2)) :
    t.byteAt (addr + BitVec.ofNat 32 i) = byteOf str i := by
  have hmod := even_toNat heven
  have hlt := addr.isLt
  have hoffset : wordOffset (addr + BitVec.ofNat 32 i) = wordAt addr (i / 2) := by
    apply BitVec.eq_of_toNat_eq
    simp only [wordOffset, wordAt, BitVec.toNat_ushiftRight, BitVec.toNat_add, BitVec.toNat_ofNat,
      Nat.shiftRight_eq_div_pow]
    omega
  have hbit : (addr + BitVec.ofNat 32 i).getLsbD 0 = decide (i % 2 = 1) := by
    rw [← BitVec.testBit_toNat, Nat.testBit_zero, BitVec.toNat_add, BitVec.toNat_ofNat]
    congr 1
    rw [eq_iff_iff]
    omega
  rw [Flash.byteAt, hoffset, hword, hbit, wordOf]
  rcases Nat.mod_two_eq_zero_or_one i with hi | hi
  · rw [hi, decide_eq_false (by omega), if_neg Bool.false_ne_true, show 2 * (i / 2) = i by omega]
    exact BitVec.setWidth_append_eq_right
  · rw [hi, decide_eq_true rfl, if_pos rfl, show 2 * (i / 2) + 1 = i by omega]
    exact BitVec.extractLsb'_append_eq_left

/-! ### What has been stored -/

/-- The first `k` words of a string are stored from `addr` on, beginning with the chip as `s`. -/
structure Stored (s : Flash) (addr : BitVec 32) (str : List (BitVec 8)) (k : ℕ) (t : Flash) :
    Prop where
  /-- The chip waits for a command. -/
  ready : t.phase = .array
  /-- Each of them has been programmed, and finished. -/
  log : t.log = s.log ++
    (List.range k).flatMap fun j => [.programmed (wordAt addr j) (wordOf str j), .finished]
  /-- They can be read. -/
  words : ∀ j < k, t.mem (wordAt addr j) = wordOf str j
  /-- No other word has changed. -/
  others : ∀ a, (∀ j < k, a ≠ wordAt addr j) → t.mem a = s.mem a

theorem stored_zero (hready : s.phase = .array) : Stored s addr str 0 s where
  ready := hready
  log := (List.append_nil _).symm
  words _ hj := absurd hj (Nat.not_lt_zero _)
  others _ _ := rfl

/-- The next word. -/
theorem Stored.next (h : Stored s addr str k t) (heven : addr.getLsbD 0 = false)
    (hk : k < 2 ^ 31) (herased : s.mem (wordAt addr k) = 0xffff) {val : BitVec 32}
    (hval : val.setWidth 16 = wordOf str k) :
    Stored s addr str (k + 1)
      (programWord chip t (addr + BitVec.ofNat 32 (2 * k)) val) := by
  obtain ⟨hphase, hmem, hlog⟩ := programWord_spec chip h.ready
    (addr + BitVec.ofNat 32 (2 * k)) val
  have hfresh : ∀ j < k, wordAt addr k ≠ wordAt addr j := fun j hj heq =>
    absurd (wordAt_inj heven hk (hj.trans hk) heq) (Nat.ne_of_gt hj)
  have hold : t.mem (wordAt addr k) = 0xffff := (h.others _ hfresh).trans herased
  have hones : ∀ x : BitVec 16, 0xffff &&& x = x := fun _ => BitVec.allOnes_and
  rw [← wordAt, hval, hold, hones] at hmem
  rw [← wordAt, hval] at hlog
  refine ⟨hphase, ?_, fun j hj => ?_, fun a ha => ?_⟩
  · rw [hlog, h.log, List.range_succ, List.flatMap_append, List.append_assoc]
    rfl
  · rw [hmem]
    rcases Nat.lt_succ_iff_lt_or_eq.mp hj with hlt | rfl
    · rw [Function.update_of_ne (hfresh j hlt).symm, h.words j hlt]
    · rw [Function.update_self]
  · rw [hmem, Function.update_of_ne (ha k (Nat.lt_succ_self k))]
    exact h.others a fun j hj => ha j (hj.trans (Nat.lt_succ_self k))

/-! ### The loop -/

/-- What `gets` has left in `str`. -/
theorem strArray_stored (l : Line) {i : ℕ} (hi : i ≤ l.chars.length) :
    strArray stack l.stored i = byteOf l.chars i := by
  have hlt : i < l.stored.length := by
    rw [Line.stored, List.length_append]
    exact Nat.lt_succ_of_le hi
  rw [strArray, byteOf, ← Line.stored, List.getD_eq_getElem _ _ hlt, List.getD_eq_getElem _ _ hlt]

/-- The NUL is behind the characters. -/
theorem byteOf_of_ge {i : ℕ} (hi : str.length ≤ i) : byteOf str i = 0 := by
  rw [byteOf, List.getD_append_right _ _ _ _ hi]
  cases i - str.length <;> rfl

theorem byteOf_ne_zero_iff (hchars : ∀ c ∈ str, c ≠ 0) {i : ℕ} :
    byteOf str i ≠ 0 ↔ i < str.length := by
  constructor
  · intro hne
    by_contra hge
    exact hne (byteOf_of_ge (Nat.le_of_not_lt hge))
  · intro hlt
    rw [byteOf, List.getD_append _ _ _ _ hlt, List.getD_eq_getElem _ _ hlt]
    exact hchars _ (List.getElem_mem hlt)

/-- The loop after `k` turns. -/
def AfterTurns (s : Flash) (addr : BitVec 32) (str : List (BitVec 8)) (p : Writing) (k : ℕ) :
    Prop :=
  2 * k ≤ str.length ∧ p.i = 2 * k ∧ p.j = 2 * k + 1 ∧
    p.addr = addr + BitVec.ofNat 32 (2 * k) ∧ Stored s addr str k p.flash

/-- The loop goes on while there are two characters left. -/
theorem writePending_iff {line : Line} (hchars : ∀ c ∈ line.chars, c ≠ 0) {p : Writing}
    (hp : AfterTurns s addr line.chars p k) :
    writePending (strArray stack line.stored) p = true ↔ 2 * k + 1 < line.chars.length := by
  obtain ⟨hle, hi, hj, -, -⟩ := hp
  rw [writePending, decide_eq_true_iff, hi, hj, strArray_stored line hle,
    byteOf_ne_zero_iff hchars]
  constructor
  · rintro ⟨hlt, hne⟩
    rwa [strArray_stored line hlt, byteOf_ne_zero_iff hchars] at hne
  · intro hlt
    refine ⟨by omega, ?_⟩
    rwa [strArray_stored line hlt.le, byteOf_ne_zero_iff hchars]

/-- A turn stores a word. -/
theorem writePair_next (stack : ℕ → BitVec 8) {line : Line} (heven : addr.getLsbD 0 = false)
    (herased : ∀ k ≤ line.chars.length / 2, s.mem (wordAt addr k) = 0xffff) {p : Writing}
    (hp : AfterTurns s addr line.chars p k) (hlt : 2 * k + 1 < line.chars.length) :
    AfterTurns s addr line.chars (writePair chip (strArray stack line.stored) p) (k + 1) := by
  obtain ⟨hle, hi, hj, haddr, hstored⟩ := hp
  have hfits := line.fits
  refine ⟨by omega, by rw [writePair, hi]; ring, by rw [writePair, hj]; ring, ?_, ?_⟩
  · rw [writePair, haddr, show 2 * (k + 1) = 2 * k + 2 by ring, BitVec.ofNat_add, BitVec.add_assoc]
    rfl
  · rw [writePair, haddr, hi, hj, strArray_stored line hle, strArray_stored line hlt.le]
    exact hstored.next chip heven (by omega) (herased k (by omega)) (pack _ _)

/-- The whole loop, and the word after it. -/
theorem write_words (stack : ℕ → BitVec 8) (line : Line) (heven : addr.getLsbD 0 = false)
    (hready : s.phase = .array) (hchars : ∀ c ∈ line.chars, c ≠ 0)
    (herased : ∀ k ≤ line.chars.length / 2, s.mem (wordAt addr k) = 0xffff) {fuel : ℕ}
    (hfuel : line.chars.length / 2 ≤ fuel) :
    ∃ p, whileLoop (writePending (strArray stack line.stored))
        (writePair chip (strArray stack line.stored)) fuel ⟨0, 1, addr, s⟩ = some p ∧
      Stored s addr line.chars (line.chars.length / 2 + 1)
        (programWord chip p.flash p.addr
          ((strArray stack line.stored p.i).setWidth 32)) := by
  have hfits := line.fits
  have hturn : ∀ p, (∃ k, AfterTurns s addr line.chars p k) →
      writePending (strArray stack line.stored) p = true →
        (∃ k, AfterTurns s addr line.chars (writePair chip (strArray stack line.stored) p) k) ∧
          line.chars.length / 2 - (writePair chip (strArray stack line.stored) p).i / 2 <
            line.chars.length / 2 - p.i / 2 := by
    rintro p ⟨k, hp⟩ hcond
    have hlt := (writePending_iff hchars hp).mp hcond
    have hnext := writePair_next chip stack heven herased hp hlt
    have hi := hp.2.1
    have hi' := hnext.2.1
    exact ⟨⟨k + 1, hnext⟩, by omega⟩
  have hstart : ∃ k, AfterTurns s addr line.chars ⟨0, 1, addr, s⟩ k :=
    ⟨0, Nat.zero_le _, rfl, rfl, (BitVec.add_zero addr).symm, stored_zero hready⟩
  obtain ⟨p, hrun, ⟨k, hk⟩, hend⟩ := whileLoop_total _ _
    (fun p : Writing => line.chars.length / 2 - p.i / 2) fuel hturn hstart
    ((Nat.sub_le _ _).trans hfuel)
  have hge : line.chars.length ≤ 2 * k + 1 := by
    by_contra hlt
    rw [(writePending_iff hchars hk).mpr (Nat.lt_of_not_le hlt)] at hend
    cases hend
  obtain ⟨hle, hi, -, haddr, hstored⟩ := hk
  obtain rfl : k = line.chars.length / 2 := by omega
  refine ⟨p, hrun, ?_⟩
  rw [hi, haddr, strArray_stored line hle]
  refine hstored.next chip heven (by omega) (herased _ le_rfl) ?_
  rw [pack_zero, wordOf, byteOf_of_ge hge]
  rfl

/-- Typed at the prompts, an even address with erased words and a string are programmed: the string
and its NUL can be read from there, and each of their words has been programmed once,
after the one before. -/
theorem nor_write_stores (chip : Chip) (stack : ℕ → BitVec 8) (s : Flash)
    (hready : s.phase = .array) (number line : Line) (rest output : List (BitVec 8))
    (addr : BitVec 32) (haddr : (simpleStrtoul number.stored 0).1 = addr)
    (heven : addr.getLsbD 0 = false) (hchars : ∀ c ∈ line.chars, c ≠ 0)
    (herased : ∀ k ≤ line.chars.length / 2, s.mem (wordAt addr k) = 0xffff) (fuel : ℕ)
    (hfuel : line.chars.length / 2 ≤ fuel) :
    ∃ u t, doWriteNorFlash chip stack fuel ⟨number.bytes ++ (line.bytes ++ rest), output⟩ s =
        some (u, t) ∧
      t.phase = .array ∧
      t.log = s.log ++ (List.range (line.chars.length / 2 + 1)).flatMap (fun k =>
        [.programmed (wordAt addr k) (wordOf line.chars k), .finished]) ∧
      ((List.range (line.chars.length / 2 + 1)).map (wordAt addr)).Nodup ∧
      (∀ i ≤ line.chars.length,
        t.byteAt (addr + BitVec.ofNat 32 i) = (line.chars ++ [0]).getD i 0) ∧
      ∀ a, (∀ k ≤ line.chars.length / 2, a ≠ wordAt addr k) → t.mem a = s.mem a := by
  obtain ⟨p, hrun, hstored⟩ := write_words chip stack line heven hready hchars herased hfuel
  have hcall : ∃ u, doWriteNorFlash chip stack fuel
      ⟨number.bytes ++ (line.bytes ++ rest), output⟩ s =
        some (u, programWord chip p.flash p.addr
          ((strArray stack line.stored p.i).setWidth 32)) := by
    simp only [doWriteNorFlash,
      Uart.printf_plain ⟨_, _⟩ "Enter the address of sector to write: "
        (forall_text (by decide)),
      Uart.printf_plain ⟨_, _⟩ "Enter the string to write: " (forall_text (by decide)),
      Uart.printf_plain ⟨_, _⟩ "writing ...\n\r" (forall_text (by decide)),
      Option.bind_eq_bind, Option.bind_some, getUint_line, gets_line, haddr, hrun]
    exact ⟨_, rfl⟩
  obtain ⟨u, hcall⟩ := hcall
  have hfits := line.fits
  refine ⟨u, _, hcall, hstored.ready, hstored.log, ?_, fun i hi => ?_, fun a ha => ?_⟩
  · refine List.Nodup.map_on (fun j hj k hk heq => ?_) List.nodup_range
    rw [List.mem_range] at hj hk
    exact wordAt_inj heven (by omega) (by omega) heq
  · exact byteAt_of_word heven (hstored.words _ (by omega))
  · exact hstored.others a fun j hj => ha j (Nat.le_of_lt_succ hj)

/-- The address 256, and its end of line. -/
def lineAddress : Line := ⟨text "0x100", ch '\r', forall_text (by decide), isNewline_cr, by decide⟩

/-- Three letters, and their end of line. -/
def lineThree : Line := ⟨text "nor", ch '\r', forall_text (by decide), isNewline_cr, by decide⟩

/-- The three letters to an erased chip that needs as many reads for a word as it has programmed. -/
theorem nor_write_stores_three : ∃ u t, doWriteNorFlash ⟨id, fun _ => 0⟩ (fun _ => 0) 1
      ⟨lineAddress.bytes ++ (lineThree.bytes ++ []), []⟩ ⟨fun _ => 0xffff, .array, false, 0, []⟩ =
        some (u, t) ∧
      t.phase = .array ∧
      t.log = [] ++ (List.range 2).flatMap (fun k =>
        [.programmed (wordAt 256 k) (wordOf (text "nor") k), .finished]) ∧
      ((List.range 2).map (wordAt 256)).Nodup ∧
      (∀ i ≤ 3, t.byteAt (256 + BitVec.ofNat 32 i) = (text "nor" ++ [0]).getD i 0) ∧
      ∀ a, (∀ k ≤ 1, a ≠ wordAt 256 k) → t.mem a = 0xffff :=
  nor_write_stores ⟨id, fun _ => 0⟩ (fun _ => 0) ⟨fun _ => 0xffff, .array, false, 0, []⟩ rfl
    lineAddress lineThree [] [] 256 (by decide) (by decide) (forall_text (by decide))
    (fun _ _ => rfl) 1 (by decide)

end S3c2440.Nor
