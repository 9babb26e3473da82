import S3c2440.Spi.Gpio

/-!
# The display

`oled.c` and `oledfont.h`: the functions of the display only write bytes to it, each a command or
data, so that each is the list of what it writes, in order; `oledWrites` carries such a list out.

## What is proved

* `steps_oledWrites` — the display, and only the display, sees these bytes, and commands with
  GPG4 low and data with it high.
-/

namespace S3c2440.Spi

open Theory

/-! ### Bytes -/

/-- What is written to the display. -/
inductive Write where
  /-- A command. -/
  | cmd (b : BitVec 8)
  /-- Data. -/
  | dat (b : BitVec 8)
  deriving DecidableEq

section Bytes

variable (env : Env) (s : Bus)

/-- `OLED_Set_DC`. -/
def oledSetDc (val : Bool) : Bus := setPin env s .dc val

/-- `OLED_Set_CS`. -/
def oledSetCs (val : Bool) : Bus := setPin env s .oledCs val

/-- A byte with GPG4 at `dc`. -/
def oledSend (dc : Bool) (b : BitVec 8) : Bus :=
  let s := oledSetDc env s dc
  let s := oledSetCs env s false
  let s := spiSendByte env s b
  let s := oledSetCs env s true
  oledSetDc env s true

/-- `OLEDWriteCmd`. -/
def oledWriteCmd (cmd : BitVec 8) : Bus := oledSend env s false cmd

/-- `OLEDWriteDat`. -/
def oledWriteDat (dat : BitVec 8) : Bus := oledSend env s true dat

/-- One of them. -/
def oledWrite : Write → Bus
  | .cmd b => oledWriteCmd env s b
  | .dat b => oledWriteDat env s b

/-- One after another. -/
def oledWrites (ws : List Write) : Bus := ws.foldl (oledWrite env) s

end Bytes

/-! ### The functions of the display -/

/-- `OLEDSetPageAddrMode`. -/
def oledSetPageAddrMode : List Write := [.cmd 0x20, .cmd 0x02]

/-- `OLEDSetPos`. -/
def oledSetPos (page col : BitVec 32) : List Write :=
  [.cmd ((0xB0 + page).setWidth 8), .cmd ((col &&& 0xf).setWidth 8),
    .cmd ((0x10 + col.sshiftRight 4).setWidth 8)]

/-- `OLEDClear`. -/
def oledClear : List Write :=
  (List.range 8).flatMap fun page =>
    oledSetPos (BitVec.ofNat 32 page) 0 ++ List.replicate 128 (.dat 0)

/-- `OLEDInit`. -/
def oledInit : List Write :=
  [.cmd 0xAE, .cmd 0x00, .cmd 0x10, .cmd 0x40, .cmd 0xB0, .cmd 0x81, .cmd 0x66, .cmd 0xA1,
    .cmd 0xA6, .cmd 0xA8, .cmd 0x3F, .cmd 0xC8, .cmd 0xD3, .cmd 0x00, .cmd 0xD5, .cmd 0x80,
    .cmd 0xD9, .cmd 0x1f, .cmd 0xDA, .cmd 0x12, .cmd 0xdb, .cmd 0x30, .cmd 0x8d, .cmd 0x14] ++
    oledSetPageAddrMode ++ oledClear ++ [.cmd 0xAF]

/-- `oled_asc2_8x16`: a row for each printable character, its 16 bytes from left to right. -/
def oledAsc28x16 : List (BitVec 128) :=
  [
    0x00000000000000000000000000000000, 0x000000F8000000000000003330000000,
    0x00100C06100C06000000000000000000, 0x40C07840C0784000043F04043F040400,
    0x007088FC08300000001820FF211E0000, 0xF008F000E018000000211C031E211E00,
    0x00F00888700000001E21232419272110, 0x10160E00000000000000000000000000,
    0x000000E0180402000000000718204000, 0x00020418E00000000040201807000000,
    0x404080F0804040000202010F01020200, 0x000000F0000000000101011F01010100,
    0x000000000000000080B0700000000000, 0x00000000000000000001010101010101,
    0x00000000000000000030300000000000, 0x00000000806018040060180601000000,
    0x00E010080810E000000F102020100F00, 0x001010F8000000000020203F20200000,
    0x00700808088870000030282422213000, 0x00300888884830000018202020110E00,
    0x0000C02010F8000000070424243F2400, 0x00F80888880808000019212020110E00,
    0x00E0108888180000000F112020110E00, 0x00380808C83808000000003F00000000,
    0x0070880808887000001C222121221C00, 0x00E010080810E0000000312222110F00,
    0x000000C0C00000000000003030000000, 0x00000080000000000000806000000000,
    0x00008040201008000001020408102000, 0x40404040404040000404040404040400,
    0x00081020408000000020100804020100, 0x007048080808F0000000003036010000,
    0xC030C828E810E0000718272423140B00, 0x0000C038E0000000203C230202273820,
    0x08F8888888700000203F202020110E00, 0xC0300808080838000718202020100800,
    0x08F808080810E000203F202020100F00, 0x08F88888E8081000203F202023201800,
    0x08F88888E8081000203F200003000000, 0xC03008080838000007182020221E0200,
    0x08F808000008F808203F210101213F20, 0x000808F8080800000020203F20200000,
    0x00000808F8080800C08080807F000000, 0x08F888C028180800203F200126382000,
    0x08F8080000000000203F202020203000, 0x08F8F800F8F80800203F003F003F2000,
    0x08F830C00008F808203F200007183F00, 0xE01008080810E0000F10202020100F00,
    0x08F808080808F000203F210101010000, 0xE01008080810E0000F18242438504F00,
    0x08F8888888887000203F2000030C3020, 0x00708808080838000038202121221C00,
    0x180808F8080818000000203F20000000, 0x08F808000008F808001F202020201F00,
    0x0878880000C83808000007380E010000, 0xF80800F80008F800033C0700073C0300,
    0x081868808068180820302C03032C3020, 0x0838C800C83808000000203F20000000,
    0x10080808C83808002038262120201800, 0x000000FE020202000000007F40404000,
    0x000C30C000000000000000010638C000, 0x00020202FE000000004040407F000000,
    0x00000402020204000000000000000000, 0x00000000000000008080808080808080,
    0x00020204000000000000000000000000, 0x00008080808000000019242222223F20,
    0x08F8008080000000003F112020110E00, 0x0000008080800000000E112020201100,
    0x000000808088F800000E112020103F20, 0x0000808080800000001F222222221300,
    0x008080F0888888180020203F20200000, 0x0000808080808000006B949494936000,
    0x08F8008080800000203F210000203F20, 0x00809898000000000020203F20200000,
    0x000000809898000000C08080807F0000, 0x08F8000080808000203F24022D302000,
    0x000808F8000000000020203F20200000, 0x8080808080808000203F20003F20003F,
    0x8080008080800000203F210000203F20, 0x0000808080800000001F202020201F00,
    0x808000808000000080FFA12020110E00, 0x0000008080808000000E112020A0FF80,
    0x808080008080800020203F2120000100, 0x00008080808080000033242424241900,
    0x008080E0808000000000001F20200000, 0x8080000000808000001F202020103F20,
    0x808080000080808000010E3008060100, 0x80800080008080800F300C030C300F00,
    0x00808000808080000020312E0E312000, 0x808080000080808080818E7018060100,
    0x00808080808080000021302C22213000, 0x00000000807C020200000000003F4040,
    0x00000000FF00000000000000FF000000, 0x0002027C800000000040403F00000000,
    0x00060101020204040000000000000000
  ]

/-- A character that the font has. -/
def Printable : Type := { c : BitVec 8 // 0x20 ≤ c.toNat ∧ c.toNat ≤ 0x7e }

/-- Its row is there. -/
theorem row_lt (c : Printable) : c.1.toNat - 0x20 < oledAsc28x16.length := by
  have hc := c.2
  rw [show oledAsc28x16.length = 95 from rfl]
  omega

/-- `oled_asc2_8x16[c - ' ']`. -/
def dots (c : Printable) : BitVec 128 := oledAsc28x16.get ⟨c.1.toNat - 0x20, row_lt c⟩

/-- `dots[i]`. -/
def dot (c : Printable) (i : ℕ) : BitVec 8 := (dots c >>> (8 * (15 - i))).setWidth 8

/-- `OLEDPutChar`. -/
def oledPutChar (page col : BitVec 32) (c : Printable) : List Write :=
  oledSetPos page col ++ (List.range 8).map (fun i => .dat (dot c i)) ++
    (oledSetPos (page + 1) col ++ (List.range 8).map fun i => .dat (dot c (i + 8)))

/-- `OLEDPrint`. -/
def oledPrint (page col : BitVec 32) : List Printable → List Write
  | [] => []
  | c :: str =>
    oledPutChar page col c ++
      if BitVec.slt 127 (col + 8) then oledPrint (page + 2) 0 str
      else oledPrint page (col + 8) str

/-! ### What is seen -/

/-- No device is selected. -/
def Idle (p : Pins) : Prop := p.level .oledCs = true ∧ p.level .flashCs = true

/-- A bit that the display takes. -/
def oledSample (dc bit : Bool) : Sample := if dc then .data bit else .command bit

/-- What is seen of a byte. -/
def Write.samples : Write → List Sample
  | .cmd b => byteSamples .command b
  | .dat b => byteSamples .data b

section Seen

variable (env : Env) {s : Bus}

/-- The display is selected and gets a byte, and then no device is selected. -/
theorem steps_selected {dc : Bool} (hs : Configured s) (hdc : s.pins.level .dc = dc)
    (holed : s.pins.level .oledCs = false) (hflash : s.pins.level .flashCs = true)
    (b : BitVec 8) :
    Steps s (oledSetDc env (oledSetCs env (spiSendByte env s b) true) true)
        (byteSamples (oledSample dc) b) ∧
      Idle (oledSetDc env (oledSetCs env (spiSendByte env s b) true) true).pins := by
  have hw : ∀ g, Held s.pins.level g → (oledSample dc (g .mosi)).Fits g := by
    intro g hg
    have hg1 := (hg .oledCs (by simp) (by simp)).trans holed
    have hg2 := (hg .flashCs (by simp) (by simp)).trans hflash
    have hg3 := (hg .dc (by simp) (by simp)).trans hdc
    cases dc <;> simp [oledSample, Sample.Fits, *]
  obtain ⟨h1, hheld⟩ := steps_spiSendByte env hs (.inr hflash) hw b
  have hflash1 : (spiSendByte env s b).pins.level .flashCs = true :=
    (hheld .flashCs (by simp) (by simp)).trans hflash
  obtain ⟨h2, hs2, e2⟩ :=
    steps_line env (hs.steps h1) (l := .oledCs) (by simp) true (.inl (by simp))
  obtain ⟨h3, -, e3⟩ := steps_line env hs2 (l := .dc) (by simp) true (.inl (by simp [e2]))
  refine ⟨?_, ?_⟩
  · have hall := (h1.trans h2).trans h3
    rw [List.append_nil, List.append_nil] at hall
    exact hall
  · rw [Idle, oledSetDc, oledSetCs, e3, e2]
    simp [hflash1]

/-- A byte is written with GPG4 at `dc`. -/
theorem steps_oledSend (hs : Configured s) (hi : Idle s.pins) (dc : Bool) (b : BitVec 8) :
    Steps s (oledSend env s dc b) (byteSamples (oledSample dc) b) ∧
      Idle (oledSend env s dc b).pins := by
  obtain ⟨-, hflash⟩ := hi
  obtain ⟨h1, hs1, e1⟩ := steps_line env hs (l := .dc) (by simp) dc (.inr (by simp [hflash]))
  obtain ⟨h2, hs2, e2⟩ :=
    steps_line env hs1 (l := .oledCs) (by simp) false (.inr (by simp [e1, hflash]))
  rw [e1] at e2
  have hdc : (setPin env (setPin env s .dc dc) .oledCs false).pins.level .dc = dc := by
    simp [e2]
  obtain ⟨h3, hidle⟩ := steps_selected env hs2 hdc (by simp [e2]) (by simp [e2, hflash]) b
  exact ⟨(h1.trans h2).trans h3, hidle⟩

theorem steps_oledWrite (hs : Configured s) (hi : Idle s.pins) (w : Write) :
    Steps s (oledWrite env s w) w.samples ∧ Idle (oledWrite env s w).pins := by
  cases w with
  | cmd b => exact steps_oledSend env hs hi false b
  | dat b => exact steps_oledSend env hs hi true b

/-- What is seen of a list of writes. -/
theorem steps_oledWrites (hs : Configured s) (hi : Idle s.pins) (ws : List Write) :
    Steps s (oledWrites env s ws) (ws.flatMap Write.samples) ∧
      Idle (oledWrites env s ws).pins := by
  induction ws generalizing s with
  | nil => exact ⟨.refl s, hi⟩
  | cons w ws ih =>
    obtain ⟨hw, hiw⟩ := steps_oledWrite env hs hi w
    obtain ⟨hws, his⟩ := ih (hs.steps hw) hiw
    exact ⟨hw.trans hws, his⟩

end Seen

end S3c2440.Spi
