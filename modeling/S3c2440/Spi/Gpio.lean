import S3c2440.Theory.Bits
import Mathlib.Data.List.Forall2
import Mathlib.Logic.Function.Basic

/-!
# A bus of pins

`bare_board/code/SPI/code/01th_spi_i2c_adc_jz2440_oled_020_002/gpio_spi.c`: an SPI bus with two
devices, a display (`oled.c`) and a flash (`spi_flash.c`), made of six pins of the ports F and G:
GPF1 and GPG2 select the display and the flash, GPG4 tells the display commands from data, GPG5
comes from the flash, GPG6 goes to both, and GPG7 is the clock.

A data register reads as what was written to it where a pin is an output, and as what comes from
outside elsewhere; a pin is changed by reading the register of its port and writing it back with
one bit changed.

## The model

`Env` is what comes from outside: at GPG5, while the clock is low, a bit that a device presents,
which depends on how many rising edges it has seen; anything at each other read of an input.
`trace` and `edges` are not in the code: they keep the data registers after each write, and those
at which the clock has risen.

## What is proved

* `level_setPin`, `steps_setPin` — writing one pin changes that pin only.
* `steps_spiSendByte`, `steps_spiReceByte` — what the selected device sees of a byte that is sent
  and of one that is received.
* `spiReceByte_bit` — the byte that is received is what the device presents.
-/

namespace S3c2440.Spi

open Theory

/-! ### The ports -/

/-- The pins of the bus that the program sets. -/
inductive Line where
  /-- GPF1, `OLED_CSn`. -/
  | oledCs
  /-- GPG2, `FLASH_CSn`. -/
  | flashCs
  /-- GPG4, `OLED_DC`. -/
  | dc
  /-- GPG6, `SPIMOSI`. -/
  | mosi
  /-- GPG7, `SPICLK`. -/
  | clk
  deriving DecidableEq

/-- Its bit in the register of its port. -/
def Line.bit : Line → ℕ
  | .oledCs => 1
  | .flashCs => 2
  | .dc => 4
  | .mosi => 6
  | .clk => 7

/-- What has been written to the data registers. -/
structure Pins where
  /-- GPFDAT. -/
  gpfdat : BitVec 32
  /-- GPGDAT. -/
  gpgdat : BitVec 32
  deriving DecidableEq

/-- The level of a line. -/
def Pins.level (p : Pins) (l : Line) : Bool :=
  match l with
  | .oledCs => p.gpfdat.getLsbD Line.oledCs.bit
  | l => p.gpgdat.getLsbD l.bit

/-- The register of its port, with the line put at `val`. -/
def Pins.put (p : Pins) (gpfdat gpgdat : BitVec 32) (l : Line) (val : Bool) : Pins :=
  match l with
  | .oledCs => { p with gpfdat := putBit gpfdat Line.oledCs.bit val }
  | l => { p with gpgdat := putBit gpgdat l.bit val }

/-- What comes from outside. -/
structure Env where
  /-- What the device presents at GPG5 while the clock is low, after so many rising edges. -/
  miso : ℕ → Bool
  /-- The inputs at the reads of a data register, one after another. -/
  noise : ℕ → BitVec 32

/-- The ports, and what has been seen at their pins. -/
structure Bus where
  /-- GPFCON. -/
  gpfcon : BitVec 32
  /-- GPGCON. -/
  gpgcon : BitVec 32
  /-- GPFDAT and GPGDAT. -/
  pins : Pins
  /-- How often a data register has been read. -/
  reads : ℕ
  /-- The data registers after each write. -/
  trace : List Pins
  /-- Those at the rising edges of the clock. -/
  edges : List Pins

/-- The pin is an output. -/
def isOutput (con : BitVec 32) (i : ℕ) : Bool := con.getLsbD (2 * i) && !con.getLsbD (2 * i + 1)

/-- What a data register reads as. -/
def levels (con dat : BitVec 32) (input : ℕ → Bool) : BitVec 32 :=
  ofBits 32 fun i => if isOutput con i then dat.getLsbD i else input i

variable (env : Env) (s : Bus)

/-- `GPFDAT`. -/
def readGpfdat : BitVec 32 := levels s.gpfcon s.pins.gpfdat (env.noise s.reads).getLsbD

/-- `GPGDAT`. -/
def readGpgdat : BitVec 32 :=
  levels s.gpgcon s.pins.gpgdat fun i =>
    if i = 5 ∧ s.pins.level .clk = false then env.miso s.edges.length
    else (env.noise s.reads).getLsbD i

/-- A data register has been read and is written. -/
def drive (p : Pins) : Bus :=
  { s with
    pins := p
    reads := s.reads + 1
    trace := s.trace ++ [p]
    edges := if s.pins.level .clk = false ∧ p.level .clk = true then s.edges ++ [p] else s.edges }

/-- A line is set to 1 or 0. -/
def setPin (l : Line) (val : Bool) : Bus :=
  drive s (s.pins.put (readGpfdat env s) (readGpgdat env s) l val)

/-! ### The driver -/

/-- `SPI_GPIO_Init`. -/
def spiGpioInit : Bus :=
  let s := { s with gpfcon := setBit (clearField s.gpfcon 2) 2 }
  let s := setPin env s .oledCs true
  let s := { s with
    gpgcon :=
      s.gpgcon &&& ~~~(3#32 <<< 4 ||| 3#32 <<< 8 ||| 3#32 <<< 10 ||| 3#32 <<< 12 ||| 3#32 <<< 14) |||
        (1#32 <<< 4 ||| 1#32 <<< 8 ||| 1#32 <<< 12 ||| 1#32 <<< 14) }
  setPin env s .flashCs true

/-- `SPIInit`. -/
def spiInit : Bus := spiGpioInit env s

/-- `SPI_Set_CLK`. -/
def spiSetClk (val : Bool) : Bus := setPin env s .clk val

/-- `SPI_Set_DO`. -/
def spiSetDo (val : Bool) : Bus := setPin env s .mosi val

/-- `SPI_Get_DI`. -/
def spiGetDi : Bool × Bus := ((readGpgdat env s).getLsbD 5, { s with reads := s.reads + 1 })

/-- The loop of `SPISendByte`, with `n` bits to go. -/
def sendBits : ℕ → Bus → BitVec 8 → Bus
  | 0, s, _ => s
  | n + 1, s, val =>
    let s := spiSetClk env s false
    let s := spiSetDo env s (val &&& 0x80 ≠ 0)
    let s := spiSetClk env s true
    sendBits n s (val <<< 1)

/-- `SPISendByte`. -/
def spiSendByte (val : BitVec 8) : Bus := sendBits env 8 s val

/-- The loop of `SPIReceByte`, with `n` bits to go. -/
def receBits : ℕ → Bus → BitVec 8 → BitVec 8 × Bus
  | 0, s, val => (val, s)
  | n + 1, s, val =>
    let val := val <<< 1
    let s := spiSetClk env s false
    let (di, s) := spiGetDi env s
    let val := if di then val ||| 1 else val
    let s := spiSetClk env s true
    receBits n s val

/-- `SPIReceByte`. -/
def spiReceByte : BitVec 8 × Bus := receBits env 8 s 0

/-! ### One line -/

/-- The lines of the bus are outputs, and GPG5 is not. -/
structure Configured (s : Bus) : Prop where
  /-- GPF1. -/
  gpf : isOutput s.gpfcon 1 = true
  /-- The others. -/
  gpg : ∀ l : Line, l ≠ .oledCs → isOutput s.gpgcon l.bit = true
  /-- GPG5. -/
  gpg5 : isOutput s.gpgcon 5 = false

/-- The outputs that are not lines of the bus are as in `q`. -/
structure Others (gpfcon gpgcon : BitVec 32) (q p : Pins) : Prop where
  /-- Those of port F. -/
  gpf : ∀ i, i ≠ 1 → isOutput gpfcon i = true → p.gpfdat.getLsbD i = q.gpfdat.getLsbD i
  /-- Those of port G. -/
  gpg : ∀ i, i ≠ 2 → i ≠ 4 → i ≠ 6 → i ≠ 7 → isOutput gpgcon i = true →
    p.gpgdat.getLsbD i = q.gpgdat.getLsbD i

section Lines

variable {s} {t u : Bus} {p q r : Pins} {l : Line} {val : Bool} {i : ℕ}

theorem Others.refl {f g : BitVec 32} : Others f g p p :=
  ⟨fun _ _ _ => rfl, fun _ _ _ _ _ _ => rfl⟩

theorem Others.trans {f g : BitVec 32} (h : Others f g p q) (h' : Others f g q r) :
    Others f g p r :=
  ⟨fun i hi hout => (h'.gpf i hi hout).trans (h.gpf i hi hout),
    fun i h2 h4 h6 h7 hout => (h'.gpg i h2 h4 h6 h7 hout).trans (h.gpg i h2 h4 h6 h7 hout)⟩

/-- An output reads as it was written. -/
theorem getLsbD_levels {con dat : BitVec 32} {input : ℕ → Bool} (h : isOutput con i = true) :
    (levels con dat input).getLsbD i = dat.getLsbD i := by
  by_cases hi : i < 32
  · rw [levels, getLsbD_ofBits hi, if_pos h]
  · rw [BitVec.getLsbD_of_ge _ i (Nat.le_of_not_lt hi), BitVec.getLsbD_of_ge _ i (Nat.le_of_not_lt hi)]

theorem Line.bit_lt (l : Line) : l.bit < 32 := by
  cases l <;> simp [Line.bit]

theorem Line.bit_inj {l l' : Line} (h : l.bit = l'.bit) : l = l' := by
  cases l <;> cases l' <;> first | rfl | cases h

theorem level_of_ne (h : l ≠ .oledCs) : p.level l = p.gpgdat.getLsbD l.bit := by
  cases l <;> first | rfl | exact absurd rfl h

theorem put_of_ne {f g : BitVec 32} (h : l ≠ .oledCs) :
    p.put f g l val = { p with gpgdat := putBit g l.bit val } := by
  cases l <;> first | rfl | exact absurd rfl h

/-- Setting a line sets that line, and no other. -/
theorem level_setPin (hs : Configured s) :
    (setPin env s l val).pins.level = Function.update s.pins.level l val := by
  funext l'
  change (s.pins.put _ _ l val).level l' = _
  by_cases hl : l = .oledCs
  · subst hl
    by_cases hl' : l' = .oledCs
    · subst hl'
      rw [Function.update_self]
      exact getLsbD_putBit_self (Line.bit_lt _) val
    · rw [Function.update_of_ne hl', level_of_ne hl', level_of_ne hl']
      rfl
  · rw [put_of_ne hl]
    by_cases hl' : l' = .oledCs
    · subst hl'
      rw [Function.update_of_ne (Ne.symm hl)]
      rfl
    · rw [level_of_ne hl', getLsbD_putBit l.bit_lt]
      by_cases heq : l' = l
      · subst heq
        rw [if_pos rfl, Function.update_self]
      · rw [if_neg fun hbit => heq (Line.bit_inj hbit), Function.update_of_ne heq, readGpgdat,
          getLsbD_levels (hs.gpg l' hl'), level_of_ne hl']

theorem others_setPin : Others s.gpfcon s.gpgcon s.pins (setPin env s l val).pins := by
  change Others s.gpfcon s.gpgcon s.pins (s.pins.put _ _ l val)
  by_cases hl : l = .oledCs
  · subst hl
    refine ⟨fun i hi hout => ?_, fun _ _ _ _ _ _ => rfl⟩
    exact (getLsbD_putBit_of_ne (Line.bit_lt _) val hi).trans (getLsbD_levels hout)
  · rw [put_of_ne hl]
    refine ⟨fun _ _ _ => rfl, fun i h2 h4 h6 h7 hout => ?_⟩
    have hi : i ≠ l.bit := by
      cases l <;> simp_all [Line.bit]
    exact (getLsbD_putBit_of_ne l.bit_lt val hi).trans (getLsbD_levels hout)

/-! ### What is seen -/

/-- Some device is not selected. -/
def Apart (f : Line → Bool) : Prop := f .oledCs = true ∨ f .flashCs = true

/-- What is seen at a rising edge. -/
inductive Sample where
  /-- The display takes a bit of a command. -/
  | command (bit : Bool)
  /-- The display takes a bit of data. -/
  | data (bit : Bool)
  /-- The flash takes a bit. -/
  | flash (bit : Bool)
  /-- The flash has presented a bit. -/
  | read
  deriving DecidableEq

/-- The lines are so. -/
def Sample.Fits (x : Sample) (f : Line → Bool) : Prop :=
  match x with
  | .command bit => f .oledCs = false ∧ f .flashCs = true ∧ f .dc = false ∧ f .mosi = bit
  | .data bit => f .oledCs = false ∧ f .flashCs = true ∧ f .dc = true ∧ f .mosi = bit
  | .flash bit => f .oledCs = true ∧ f .flashCs = false ∧ f .mosi = bit
  | .read => f .oledCs = true ∧ f .flashCs = false

/-- What can be seen from `s` to `t`: the devices are not both selected at any time, the outputs
that are not lines of the bus do not change, and `xs` is what is seen at the rising edges. -/
structure Steps (s t : Bus) (xs : List Sample) : Prop where
  /-- GPFCON is left alone. -/
  gpfcon : t.gpfcon = s.gpfcon
  /-- And GPGCON. -/
  gpgcon : t.gpgcon = s.gpgcon
  /-- The outputs at the end. -/
  others : Others s.gpfcon s.gpgcon s.pins t.pins
  /-- At any time. -/
  trace : ∃ ps, t.trace = s.trace ++ ps ∧
    ∀ p ∈ ps, Apart p.level ∧ Others s.gpfcon s.gpgcon s.pins p
  /-- At the rising edges. -/
  edges : ∃ ps, t.edges = s.edges ++ ps ∧ List.Forall₂ (fun x p => x.Fits p.level) xs ps

variable {xs ys : List Sample} {x : Sample}

theorem Steps.refl (s : Bus) : Steps s s [] :=
  ⟨rfl, rfl, .refl, ⟨[], (List.append_nil _).symm, fun _ h => by cases h⟩,
    ⟨[], (List.append_nil _).symm, .nil⟩⟩

theorem Steps.trans (h : Steps s t xs) (h' : Steps t u ys) : Steps s u (xs ++ ys) := by
  have hothers := h'.others
  obtain ⟨ps, hps, hall⟩ := h.trace
  obtain ⟨ps', hps', hall'⟩ := h'.trace
  obtain ⟨es, hes, hfits⟩ := h.edges
  obtain ⟨es', hes', hfits'⟩ := h'.edges
  rw [h.gpfcon, h.gpgcon] at hothers hall'
  refine ⟨h'.gpfcon.trans h.gpfcon, h'.gpgcon.trans h.gpgcon, h.others.trans hothers,
    ⟨ps ++ ps', by rw [hps', hps, List.append_assoc], fun p hp => ?_⟩,
    ⟨es ++ es', by rw [hes', hes, List.append_assoc], List.rel_append hfits hfits'⟩⟩
  rcases List.mem_append.mp hp with hp | hp
  · exact hall p hp
  · exact ⟨(hall' p hp).1, h.others.trans (hall' p hp).2⟩

theorem Configured.steps (hs : Configured s) (h : Steps s t xs) : Configured t := by
  obtain ⟨hgpf, hgpg, hgpg5⟩ := hs
  exact ⟨by rwa [h.gpfcon], by rwa [h.gpgcon], by rwa [h.gpgcon]⟩

theorem Steps.length_edges (h : Steps s t xs) : t.edges.length = s.edges.length + xs.length := by
  obtain ⟨ps, hps, hfits⟩ := h.edges
  rw [hps, List.length_append, hfits.length_eq]

/-- A line is set, and the clock does not rise. -/
theorem steps_setPin (hs : Configured s) (hl : l ≠ .clk ∨ val = false)
    (hapart : Apart (Function.update s.pins.level l val)) : Steps s (setPin env s l val) [] := by
  have hlevel : (setPin env s l val).pins.level = _ := level_setPin env hs
  have hno : ¬ (s.pins.level .clk = false ∧ (setPin env s l val).pins.level .clk = true) := by
    rintro ⟨hlow, hhigh⟩
    rw [hlevel] at hhigh
    by_cases hclk : l = .clk
    · subst hclk
      rw [Function.update_self, hl.resolve_left fun hne => hne rfl] at hhigh
      cases hhigh
    · rw [Function.update_of_ne (Ne.symm hclk), hlow] at hhigh
      cases hhigh
  refine ⟨rfl, rfl, others_setPin env, ⟨[(setPin env s l val).pins], rfl, fun p hp => ?_⟩,
    ⟨[], (if_neg hno).trans (List.append_nil _).symm, .nil⟩⟩
  rw [List.mem_singleton] at hp
  subst hp
  exact ⟨by rwa [hlevel], others_setPin env⟩

/-- The same, with what the lines are afterwards. -/
theorem steps_line (hs : Configured s) (hl : l ≠ .clk) (val : Bool)
    (hapart : Apart (Function.update s.pins.level l val)) :
    Steps s (setPin env s l val) [] ∧ Configured (setPin env s l val) ∧
      (setPin env s l val).pins.level = Function.update s.pins.level l val := by
  have h := steps_setPin env hs (.inl hl) hapart
  exact ⟨h, hs.steps h, level_setPin env hs⟩

theorem fits_clk {f : Line → Bool} :
    x.Fits (Function.update f .clk val) ↔ x.Fits f := by
  cases x <;> simp [Sample.Fits]

/-- The clock rises. -/
theorem steps_rise (hs : Configured s) (hlow : s.pins.level .clk = false)
    (hapart : Apart s.pins.level) (hx : x.Fits s.pins.level) :
    Steps s (spiSetClk env s true) [x] := by
  have hlevel : (setPin env s .clk true).pins.level = _ := level_setPin env hs
  have hhigh : (setPin env s .clk true).pins.level .clk = true := by
    rw [hlevel, Function.update_self]
  refine ⟨rfl, rfl, others_setPin env, ⟨[(setPin env s .clk true).pins], rfl, fun p hp => ?_⟩,
    ⟨[(setPin env s .clk true).pins], if_pos ⟨hlow, hhigh⟩, .cons ?_ .nil⟩⟩
  · rw [List.mem_singleton] at hp
    subst hp
    exact ⟨by rw [hlevel]; simpa [Apart] using hapart, others_setPin env⟩
  · rw [hlevel]
    exact fits_clk.mpr hx

/-- An input is read. -/
theorem steps_getDi : Steps s (spiGetDi env s).2 [] :=
  ⟨rfl, rfl, .refl, ⟨[], (List.append_nil _).symm, fun _ h => by cases h⟩,
    ⟨[], (List.append_nil _).symm, .nil⟩⟩

/-! ### A byte -/

/-- But for the clock and what is sent, the lines are as in `f`. -/
def Held (f g : Line → Bool) : Prop := ∀ l, l ≠ .mosi → l ≠ .clk → g l = f l

variable {f g : Line → Bool} {b : BitVec 8} {n : ℕ}

theorem Held.clk (h : Held f g) (val : Bool) : Held f (Function.update g .clk val) :=
  fun l hmosi hclk => (Function.update_of_ne hclk _ _).trans (h l hmosi hclk)

theorem Held.mosi (h : Held f g) (val : Bool) : Held f (Function.update g .mosi val) :=
  fun l hmosi hclk => (Function.update_of_ne hmosi _ _).trans (h l hmosi hclk)

theorem Held.apart (h : Held f g) (hf : Apart f) : Apart g := by
  rw [Apart, h .oledCs (by simp) (by simp), h .flashCs (by simp) (by simp)]
  exact hf

theorem Held.read (h : Held f g) (hf : Sample.read.Fits f) : Sample.read.Fits g :=
  ⟨(h .oledCs (by simp) (by simp)).trans hf.1, (h .flashCs (by simp) (by simp)).trans hf.2⟩

/-- The clock goes down, and the lines are held. -/
theorem steps_fall (hs : Configured s) (hf : Held f s.pins.level) (hapart : Apart f) :
    Steps s (spiSetClk env s false) [] ∧ Held f (spiSetClk env s false).pins.level ∧
      (spiSetClk env s false).pins.level .clk = false := by
  have hlevel : (spiSetClk env s false).pins.level = _ := level_setPin env hs
  have hheld := hf.clk false
  exact ⟨steps_setPin env hs (.inr rfl) (hheld.apart hapart), by rwa [hlevel],
    by rw [hlevel, Function.update_self]⟩

/-- It goes up, and `x` is seen. -/
theorem steps_up (hs : Configured s) (hf : Held f s.pins.level) (hapart : Apart f)
    (hlow : s.pins.level .clk = false) (hx : x.Fits s.pins.level) :
    Steps s (spiSetClk env s true) [x] ∧ Held f (spiSetClk env s true).pins.level := by
  have hlevel : (spiSetClk env s true).pins.level = _ := level_setPin env hs
  exact ⟨steps_rise env hs hlow (hf.apart hapart) hx, by rw [hlevel]; exact hf.clk true⟩

/-- The data line is set, and the lines are held. -/
theorem steps_setDo (hs : Configured s) (hf : Held f s.pins.level) (hapart : Apart f)
    (val : Bool) : Steps s (spiSetDo env s val) [] ∧ Held f (spiSetDo env s val).pins.level ∧
      (spiSetDo env s val).pins.level .clk = s.pins.level .clk ∧
      (spiSetDo env s val).pins.level .mosi = val := by
  have hlevel : (spiSetDo env s val).pins.level = _ := level_setPin env hs
  have hheld := hf.mosi val
  refine ⟨steps_setPin env hs (.inl (by simp)) (hheld.apart hapart), by rwa [hlevel], ?_, ?_⟩
  · rw [hlevel, Function.update_of_ne (by simp)]
  · rw [hlevel, Function.update_self]

/-- The next bit to be sent is the highest. -/
theorem highest_bit (b : BitVec 8) : decide (b &&& 0x80 ≠ 0) = b.getLsbD 7 := by
  rw [show (0x80 : BitVec 8) = BitVec.twoPow 8 7 from rfl, BitVec.and_twoPow]
  cases b.getLsbD 7 <;> rfl

/-- What is seen of `n` bits that are sent, of the byte or what is left of it. -/
theorem steps_sendBits {w : Bool → Sample} (hs : Configured s) (hf : Held f s.pins.level)
    (hapart : Apart f) (hw : ∀ g, Held f g → (w (g .mosi)).Fits g) (hn : n ≤ 8) :
    Steps s (sendBits env n s b) ((List.range n).map fun i => w (b.getLsbD (7 - i))) ∧
      Held f (sendBits env n s b).pins.level := by
  induction n generalizing s b with
  | zero => exact ⟨.refl s, hf⟩
  | succ n ih =>
    obtain ⟨h1, hf1, hlow1⟩ := steps_fall env hs hf hapart
    have hs1 := hs.steps h1
    obtain ⟨h2, hf2, hclk2, hmosi2⟩ := steps_setDo env hs1 hf1 hapart (b &&& 0x80 ≠ 0)
    have hs2 := hs1.steps h2
    have hfits := hw _ hf2
    rw [hmosi2] at hfits
    obtain ⟨h3, hf3⟩ := steps_up env hs2 hf2 hapart (hclk2.trans hlow1) hfits
    obtain ⟨hrest, hfr⟩ := ih (b := b <<< 1) (hs2.steps h3) hf3 (by omega)
    have hfirst : w (decide (b &&& 0x80 ≠ 0)) = w (b.getLsbD 7) := by rw [highest_bit]
    rw [hfirst] at h3
    refine ⟨?_, hfr⟩
    have hall := ((h1.trans h2).trans h3).trans hrest
    -- the bits that are left have moved up by one
    have hbits : (List.range n).map (fun i => w ((b <<< 1).getLsbD (7 - i))) =
        (List.range n).map fun i => w (b.getLsbD (7 - (i + 1))) := by
      refine List.map_congr_left fun i hi => ?_
      have hlt : i < n := List.mem_range.mp hi
      rw [BitVec.getLsbD_shiftLeft, decide_eq_true (by omega), decide_eq_false (by omega),
        show 7 - i - 1 = 7 - (i + 1) by omega]
      rfl
    rw [hbits] at hall
    rw [List.range_succ_eq_map, List.map_cons, List.map_map]
    exact hall

/-- With the clock low GPG5 reads as what the device presents. -/
theorem getDi_eq (hs : Configured s) (hlow : s.pins.level .clk = false) :
    (spiGetDi env s).1 = env.miso s.edges.length := by
  change (levels _ _ _).getLsbD 5 = _
  rw [levels, getLsbD_ofBits (by omega), hs.gpg5, if_neg Bool.false_ne_true, if_pos ⟨rfl, hlow⟩]

/-- A bit that is received: what is seen of it, and what it is. -/
theorem steps_receBit (hs : Configured s) (hf : Held f s.pins.level) (hapart : Apart f)
    (hread : ∀ g, Held f g → Sample.read.Fits g) :
    Steps s (spiSetClk env (spiGetDi env (spiSetClk env s false)).2 true) [.read] ∧
      Held f (spiSetClk env (spiGetDi env (spiSetClk env s false)).2 true).pins.level ∧
      (spiGetDi env (spiSetClk env s false)).1 = env.miso s.edges.length := by
  obtain ⟨h1, hf1, hlow1⟩ := steps_fall env hs hf hapart
  have h2 := h1.trans (steps_getDi env)
  obtain ⟨h3, hf3⟩ := steps_up env (hs.steps h2) hf1 hapart hlow1 (hread _ hf1)
  have hdi := getDi_eq env (hs.steps h1) hlow1
  rw [h1.length_edges, List.length_nil, Nat.add_zero] at hdi
  exact ⟨h2.trans h3, hf3, hdi⟩

/-- What is seen of `n` bits that are received. -/
theorem steps_receBits (hs : Configured s) (hf : Held f s.pins.level) (hapart : Apart f)
    (hread : ∀ g, Held f g → Sample.read.Fits g) :
    Steps s (receBits env n s b).2 (List.replicate n .read) ∧
      Held f (receBits env n s b).2.pins.level := by
  induction n generalizing s b with
  | zero => exact ⟨.refl s, hf⟩
  | succ n ih =>
    obtain ⟨h1, hf1, -⟩ := steps_receBit env hs hf hapart hread
    obtain ⟨hrest, hfr⟩ := ih (hs.steps h1) hf1
    exact ⟨h1.trans hrest, hfr⟩

theorem receBits_bit (hs : Configured s) (hf : Held f s.pins.level) (hapart : Apart f)
    (hread : ∀ g, Held f g → Sample.read.Fits g) {j : ℕ} (hj : j < 8) :
    (receBits env n s b).1.getLsbD j =
      if j < n then env.miso (s.edges.length + (n - 1 - j)) else b.getLsbD (j - n) := by
  induction n generalizing s b with
  | zero => rfl
  | succ n ih =>
    obtain ⟨h1, hf1, hdi⟩ := steps_receBit env hs hf hapart hread
    have hlen : (spiSetClk env (spiGetDi env (spiSetClk env s false)).2 true).edges.length =
        s.edges.length + 1 := h1.length_edges
    have hrest := ih
      (b := if (spiGetDi env (spiSetClk env s false)).1 then b <<< 1 ||| 1 else b <<< 1)
      (hs.steps h1) hf1
    refine hrest.trans ?_
    rw [hlen]
    by_cases hlt : j < n
    · rw [if_pos hlt, if_pos (by omega)]
      congr 1
      omega
    · rw [if_neg hlt, hdi]
      refine (getLsbD_shiftIn _ (by omega)).trans ?_
      by_cases heq : j = n
      · subst heq
        rw [if_pos (Nat.sub_self j), if_pos (by omega)]
        congr 1
        omega
      · rw [if_neg (by omega), if_neg (by omega), Nat.sub_sub]

/-- A byte, the highest bit first. -/
def byteSamples (w : Bool → Sample) (b : BitVec 8) : List Sample :=
  (List.range 8).map fun i => w (b.getLsbD (7 - i))

/-- What is seen of a byte that is sent to the display or to the flash. -/
theorem steps_spiSendByte {w : Bool → Sample} (hs : Configured s) (hapart : Apart s.pins.level)
    (hw : ∀ g, Held s.pins.level g → (w (g .mosi)).Fits g) (b : BitVec 8) :
    Steps s (spiSendByte env s b) (byteSamples w b) ∧
      Held s.pins.level (spiSendByte env s b).pins.level :=
  steps_sendBits env hs (fun _ _ _ => rfl) hapart hw (Nat.le_refl 8)

/-- What is seen of a byte that is received. -/
theorem steps_spiReceByte (hs : Configured s) (hread : Sample.read.Fits s.pins.level) :
    Steps s (spiReceByte env s).2 (List.replicate 8 .read) ∧
      Held s.pins.level (spiReceByte env s).2.pins.level :=
  steps_receBits env hs (fun _ _ _ => rfl) (.inl hread.1) fun _ hg => hg.read hread

/-- The byte that is received is what the device presents, the highest bit first. -/
theorem spiReceByte_bit (hs : Configured s) (hread : Sample.read.Fits s.pins.level) {i : ℕ}
    (hi : i < 8) :
    (spiReceByte env s).1.getLsbD (7 - i) = env.miso (s.edges.length + i) := by
  have hbit := receBits_bit env (b := 0) (n := 8) hs (fun _ _ _ => rfl) (.inl hread.1)
    (fun _ hg => hg.read hread) (j := 7 - i) (by omega)
  rw [if_pos (by omega), show 8 - 1 - (7 - i) = i by omega] at hbit
  exact hbit

end Lines

end S3c2440.Spi
