import S3c2440.Spi.Display

/-!
# The flash, and the bus that both share

`spi_flash.c`: the maker and the device are asked for with a command and an address, and come as
two bytes.

## What is proved

* `steps_spiFlashReadId`, `readId_bits` — what the flash sees of that, and what comes back.
* `bus_shared` — after `SPIInit` and any calls: no two devices have ever been selected, one
  was at each rising edge of the clock and none is between calls, each device has seen the bytes
  meant for it and nothing else, and the other outputs of the ports are as they were.
-/

namespace S3c2440.Spi

open Theory

/-! ### The flash -/

section Flash

variable (env : Env) (s : Bus)

/-- `SPIFLASH_Set_CS`. -/
def spiFlashSetCs (val : Bool) : Bus := setPin env s .flashCs val

/-- `SPIFlashSendAddr`. -/
def spiFlashSendAddr (addr : BitVec 32) : Bus :=
  let s := spiSendByte env s ((addr >>> 16).setWidth 8)
  let s := spiSendByte env s ((addr >>> 8).setWidth 8)
  spiSendByte env s ((addr &&& 0xFF).setWidth 8)

/-- `SPIFLASHReadID`: what becomes of `*PMID` and `*PDID`. -/
def spiFlashReadId : (BitVec 8 × BitVec 8) × Bus :=
  let s := spiFlashSetCs env s false
  let s := spiSendByte env s 0x90
  let s := spiFlashSendAddr env s 0
  let (mid, s) := spiReceByte env s
  let (did, s) := spiReceByte env s
  ((mid, did), spiFlashSetCs env s true)

/-- What is seen of it. -/
def readIdSamples : List Sample :=
  byteSamples .flash 0x90 ++ (byteSamples .flash 0 ++ byteSamples .flash 0 ++ byteSamples .flash 0) ++
    List.replicate 8 .read ++ List.replicate 8 .read

end Flash

section Seen

variable (env : Env) {s : Bus}

@[simp] theorem length_byteSamples {w : Bool → Sample} {b : BitVec 8} :
    (byteSamples w b).length = 8 := by
  simp [byteSamples]

/-- The flash is selected. -/
def Selected (p : Pins) : Prop := Sample.read.Fits p.level

theorem steps_flashByte (hs : Configured s) (hsel : Selected s.pins) (b : BitVec 8) :
    Steps s (spiSendByte env s b) (byteSamples .flash b) ∧ Configured (spiSendByte env s b) ∧
      Selected (spiSendByte env s b).pins := by
  have hw : ∀ g, Held s.pins.level g → (Sample.flash (g .mosi)).Fits g := by
    intro g hg
    obtain ⟨holed, hflash⟩ := hg.read hsel
    exact ⟨holed, hflash, rfl⟩
  obtain ⟨h, hheld⟩ := steps_spiSendByte env hs (.inl hsel.1) hw b
  exact ⟨h, hs.steps h, hheld.read hsel⟩

theorem steps_flashReceByte (hs : Configured s) (hsel : Selected s.pins) :
    Steps s (spiReceByte env s).2 (List.replicate 8 .read) ∧ Configured (spiReceByte env s).2 ∧
      Selected (spiReceByte env s).2.pins := by
  obtain ⟨h, hheld⟩ := steps_spiReceByte env hs hsel
  exact ⟨h, hs.steps h, hheld.read hsel⟩

theorem steps_sendAddr (hs : Configured s) (hsel : Selected s.pins) :
    Steps s (spiFlashSendAddr env s 0)
        (byteSamples .flash 0 ++ byteSamples .flash 0 ++ byteSamples .flash 0) ∧
      Configured (spiFlashSendAddr env s 0) ∧ Selected (spiFlashSendAddr env s 0).pins := by
  obtain ⟨h1, hs1, hsel1⟩ := steps_flashByte env hs hsel 0
  obtain ⟨h2, hs2, hsel2⟩ := steps_flashByte env hs1 hsel1 0
  obtain ⟨h3, hs3, hsel3⟩ := steps_flashByte env hs2 hsel2 0
  exact ⟨(h1.trans h2).trans h3, hs3, hsel3⟩

/-- The flash is selected, and asked for what it is. -/
theorem steps_asked (hs : Configured s) (hi : Idle s.pins) :
    Steps s (spiFlashSendAddr env (spiSendByte env (spiFlashSetCs env s false) 0x90) 0)
        (byteSamples .flash 0x90 ++
          (byteSamples .flash 0 ++ byteSamples .flash 0 ++ byteSamples .flash 0)) ∧
      Configured (spiFlashSendAddr env (spiSendByte env (spiFlashSetCs env s false) 0x90) 0) ∧
      Selected (spiFlashSendAddr env (spiSendByte env (spiFlashSetCs env s false) 0x90) 0).pins := by
  obtain ⟨h1, hs1, e1⟩ :=
    steps_line env hs (l := .flashCs) (by simp) false (.inl (by simp [hi.1]))
  have hsel1 : Selected (spiFlashSetCs env s false).pins := by
    rw [Selected, spiFlashSetCs, e1]
    simp [Sample.Fits, hi.1]
  obtain ⟨h2, hs2, hsel2⟩ := steps_flashByte env hs1 hsel1 0x90
  obtain ⟨h3, hs3, hsel3⟩ := steps_sendAddr env hs2 hsel2
  exact ⟨(h1.trans h2).trans h3, hs3, hsel3⟩

theorem steps_spiFlashReadId (hs : Configured s) (hi : Idle s.pins) :
    Steps s (spiFlashReadId env s).2 readIdSamples ∧ Idle (spiFlashReadId env s).2.pins := by
  obtain ⟨h1, hs1, hsel1⟩ := steps_asked env hs hi
  obtain ⟨h2, hs2, hsel2⟩ := steps_flashReceByte env hs1 hsel1
  obtain ⟨h3, hs3, hsel3⟩ := steps_flashReceByte env hs2 hsel2
  obtain ⟨h4, -, e4⟩ :=
    steps_line env hs3 (l := .flashCs) (by simp) true (.inr (by simp))
  refine ⟨?_, ?_⟩
  · have hall := ((h1.trans h2).trans h3).trans h4
    rw [List.append_nil] at hall
    exact hall
  · have hlevel : (spiFlashReadId env s).2.pins.level = _ := e4
    rw [Idle, hlevel, Function.update_of_ne (by simp), Function.update_self]
    exact ⟨hsel3.1, rfl⟩

/-- What comes back is what the flash presents after the command and the address. -/
theorem readId_bits (hs : Configured s) (hi : Idle s.pins) {i : ℕ} (h : i < 8) :
    (spiFlashReadId env s).1.1.getLsbD (7 - i) = env.miso (s.edges.length + 32 + i) ∧
      (spiFlashReadId env s).1.2.getLsbD (7 - i) = env.miso (s.edges.length + 40 + i) := by
  obtain ⟨h1, hs1, hsel1⟩ := steps_asked env hs hi
  obtain ⟨h2, hs2, hsel2⟩ := steps_flashReceByte env hs1 hsel1
  have hmid := spiReceByte_bit env hs1 hsel1 h
  have hdid := spiReceByte_bit env hs2 hsel2 h
  rw [h1.length_edges] at hmid
  rw [(h1.trans h2).length_edges] at hdid
  simp only [List.length_append, length_byteSamples, List.length_replicate] at hmid hdid
  exact ⟨hmid, hdid⟩

end Seen

/-! ### Calls -/

/-- A call. -/
inductive Call where
  /-- `OLEDInit`. -/
  | init
  /-- `OLEDPrint`. -/
  | print (page col : BitVec 32) (str : List Printable)
  /-- `SPIFLASHReadID`. -/
  | readId

/-- What it does to the ports. -/
def call (env : Env) (s : Bus) : Call → Bus
  | .init => oledWrites env s oledInit
  | .print page col str => oledWrites env s (oledPrint page col str)
  | .readId => (spiFlashReadId env s).2

/-- One call after another. -/
def calls (env : Env) (s : Bus) (as : List Call) : Bus := as.foldl (call env) s

/-- What is seen of it. -/
def Call.samples : Call → List Sample
  | .init => oledInit.flatMap Write.samples
  | .print page col str => (oledPrint page col str).flatMap Write.samples
  | .readId => readIdSamples

/-- `SPIInit`, after which the pins are watched. -/
def watched (env : Env) (s : Bus) : Bus :=
  { spiInit env s with trace := [(spiInit env s).pins], edges := [] }

/-- What has been seen since `start`. -/
structure Shared (start : Bus) (xs : List Sample) (s : Bus) : Prop where
  /-- The pins of the ports are used as they were. -/
  con : s.gpfcon = start.gpfcon ∧ s.gpgcon = start.gpgcon
  /-- No two devices have been selected. -/
  apart : ∀ p ∈ s.trace, p.level .oledCs = true ∨ p.level .flashCs = true
  /-- One was at each rising edge. -/
  one : ∀ p ∈ s.edges, p.level .oledCs ≠ p.level .flashCs
  /-- None is. -/
  idle : s.pins.level .oledCs = true ∧ s.pins.level .flashCs = true
  /-- The other outputs have not changed. -/
  others : ∀ p ∈ s.trace, Others start.gpfcon start.gpgcon start.pins p
  /-- What the devices have seen. -/
  edges : List.Forall₂ (fun x p => x.Fits p.level) xs s.edges

section Calls

variable (env : Env) {s : Bus}

theorem steps_call (hs : Configured s) (hi : Idle s.pins) (a : Call) :
    Steps s (call env s a) a.samples ∧ Idle (call env s a).pins := by
  cases a with
  | init => exact steps_oledWrites env hs hi oledInit
  | print page col str => exact steps_oledWrites env hs hi (oledPrint page col str)
  | readId => exact steps_spiFlashReadId env hs hi

theorem steps_calls (hs : Configured s) (hi : Idle s.pins) (as : List Call) :
    Steps s (calls env s as) (as.flatMap Call.samples) ∧ Idle (calls env s as).pins := by
  induction as generalizing s with
  | nil => exact ⟨.refl s, hi⟩
  | cons a as ih =>
    obtain ⟨ha, hia⟩ := steps_call env hs hi a
    obtain ⟨has, his⟩ := ih (hs.steps ha) hia
    exact ⟨ha.trans has, his⟩

theorem configured_spiInit (s : Bus) : Configured (spiInit env s) := by
  have hgpf : (spiInit env s).gpfcon = setBit (clearField s.gpfcon 2) 2 := rfl
  have hgpg : (spiInit env s).gpgcon =
      s.gpgcon &&& ~~~(3#32 <<< 4 ||| 3#32 <<< 8 ||| 3#32 <<< 10 ||| 3#32 <<< 12 ||| 3#32 <<< 14) |||
        (1#32 <<< 4 ||| 1#32 <<< 8 ||| 1#32 <<< 12 ||| 1#32 <<< 14) := rfl
  refine ⟨?_, fun l hl => ?_, ?_⟩
  · have hone : (setBit (clearField s.gpfcon 2) 2).getLsbD 2 = true := by
      rw [getLsbD_setBit (by omega), if_pos rfl]
    have hzero : (setBit (clearField s.gpfcon 2) 2).getLsbD 3 = false := by
      rw [getLsbD_setBit (by omega), if_neg (by omega), getLsbD_clearField, if_pos (by omega)]
    rw [hgpf, isOutput, hone, hzero]
    rfl
  · rw [hgpg, isOutput]
    cases l <;> simp [Line.bit] at hl ⊢
  · rw [hgpg, isOutput]
    simp

theorem idle_spiInit (s : Bus) : Idle (spiInit env s).pins :=
  ⟨getLsbD_putBit_self (Line.bit_lt .oledCs) true, getLsbD_putBit_self (Line.bit_lt .flashCs) true⟩

theorem one_of_fits {x : Sample} {f : Line → Bool} (h : x.Fits f) : f .oledCs ≠ f .flashCs := by
  cases x with
  | command bit | data bit => simp [h.1, h.2.1]
  | flash bit => simp [h.1, h.2.1]
  | read => simp [h.1, h.2]

theorem one_of_forall₂ {xs : List Sample} {ps : List Pins}
    (h : List.Forall₂ (fun x p => x.Fits p.level) xs ps) :
    ∀ p ∈ ps, p.level .oledCs ≠ p.level .flashCs := by
  induction h with
  | nil => exact fun _ hp => by cases hp
  | cons hx _ ih =>
    intro p hp
    rcases List.mem_cons.mp hp with rfl | hp
    · exact one_of_fits hx
    · exact ih p hp

end Calls

/-- What is seen from `SPIInit` on is shared out: whatever the other pins of the ports are, and
whatever calls are made. -/
theorem bus_shared (env : Env) (s : Bus) (as : List Call) :
    Shared (watched env s) (as.flatMap Call.samples) (calls env (watched env s) as) ∧
      ∀ i < 8,
        (spiFlashReadId env (calls env (watched env s) as)).1.1.getLsbD (7 - i) =
            env.miso ((calls env (watched env s) as).edges.length + 32 + i) ∧
          (spiFlashReadId env (calls env (watched env s) as)).1.2.getLsbD (7 - i) =
            env.miso ((calls env (watched env s) as).edges.length + 40 + i) := by
  have hs : Configured (watched env s) := by
    obtain ⟨hgpf, hgpg, hgpg5⟩ := configured_spiInit env s
    exact ⟨hgpf, hgpg, hgpg5⟩
  have hi : Idle (watched env s).pins := idle_spiInit env s
  obtain ⟨h, hidle⟩ := steps_calls env hs hi as
  obtain ⟨ps, hps, hall⟩ := h.trace
  obtain ⟨es, hes, hfits⟩ := h.edges
  have hstart : (watched env s).trace = [(watched env s).pins] := rfl
  rw [hstart] at hps
  rw [show (watched env s).edges = [] from rfl, List.nil_append] at hes
  refine ⟨⟨⟨h.gpfcon, h.gpgcon⟩, fun p hp => ?_, fun p hp => ?_, hidle, fun p hp => ?_, ?_⟩,
    fun i hlt => readId_bits env (hs.steps h) hidle hlt⟩
  · rw [hps] at hp
    rcases List.mem_cons.mp hp with rfl | hp
    · exact .inl hi.1
    · exact (hall p hp).1
  · rw [hes] at hp
    exact one_of_forall₂ hfits p hp
  · rw [hps] at hp
    rcases List.mem_cons.mp hp with rfl | hp
    · exact .refl
    · exact (hall p hp).2
  · rw [hes]
    exact hfits

end S3c2440.Spi
