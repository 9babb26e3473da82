import S3c2440.Theory.Runs
import S3c2440.Theory.Cells

/-!
# The DMA driver

`linux_driver/code/DMA驱动/s3c_DMA.c`: two buffers of 512 KiB, which `s3c_dma_ioctl` fills with
different values, copies one to the other, itself or by DMA, and compares. There is one pair
of buffers, one channel and one flag `ev_dma` for all the processes that call it.

The channel does a transfer for each time it is triggered, one after another, and interrupts
the CPU after each. All the calls give it the same source, destination and count. Any step of a
call, of the channel or of the interrupt can come after any other.

## What is proved

* `run_fills` — what a call does up to the copy.
* `exists_compare` — a call inside which another one has begun can get to its `memcmp` without the
  other going on.
* `reports_ok_iff` — all that is reported is that the copy is right, whatever the order, exactly
  if no call begins inside another.
-/

namespace S3c2440.Dma

open Theory Theory.Cells

/-! ### The driver -/

/-- `BUF_SIZE`. -/
def bufSize : ℕ := 512 * 1024

/-- The commands that copy; with any other, the buffers are only filled. -/
inductive Cmd where
  /-- `MEM_CPY_NO_DMA`. -/
  | memCpyNoDma
  /-- `MEM_CPY_DMA`. -/
  | memCpyDma
  deriving DecidableEq

/-- What is printed if the buffers are equal. -/
def okText : Cmd → String
  | .memCpyNoDma => "MEM_CPY_NO_DMA OK\n"
  | .memCpyDma => "MEM_CPY_DMA OK\n"

/-- And if not: the text is the same for both. -/
def errorText : String := "MEM_CPY_DMA ERROR\n"

theorem errorText_ne (cmd : Cmd) : errorText ≠ okText cmd := by cases cmd <;> decide

/-- What `dcon` is set to. -/
def dcon : BitVec 32 := 1 <<< 30 ||| 1 <<< 29 ||| 1 <<< 27 ||| BitVec.ofNat 32 bufSize

/-- How many units, of a byte each here, are transferred: the field TC. -/
def transferCount (dcon : BitVec 32) : ℕ := (dcon.extractLsb' 0 20).toNat

theorem transferCount_dcon : transferCount dcon = bufSize := by decide

/-- Where a process is. -/
inductive Pc where
  /-- In no call. -/
  | idle
  /-- `memset(src,0xAA,BUF_SIZE);`, byte `i` next. -/
  | fillSrc (cmd : Cmd) (i : ℕ)
  /-- `memset(dst,0x55,BUF_SIZE);`. -/
  | fillDst (cmd : Cmd) (i : ℕ)
  /-- `dst[i] = src[i];`. -/
  | copy (i : ℕ)
  /-- `ev_dma = 0;`. -/
  | clear
  /-- The registers are set, `dmasktrig` last. -/
  | trigger
  /-- `wait_event_interruptible(dma_waitq, ev_dma);`. -/
  | wait
  /-- `memcmp(src, dst, BUF_SIZE)`. -/
  | compare (cmd : Cmd) (i : ℕ)
  deriving DecidableEq

variable (P : Type)

/-- What is printed, and which process has called. -/
structure Report where
  /-- The process. -/
  process : P
  /-- Its command. -/
  cmd : Cmd
  /-- The text. -/
  text : String

/-- The driver, the channel and the processes. -/
structure Dev where
  /-- `src`. -/
  src : ℕ → BitVec 8
  /-- `dst`. -/
  dst : ℕ → BitVec 8
  /-- `ev_dma`. -/
  evDma : Bool
  /-- How many times the channel has still to start. -/
  pending : ℕ
  /-- How many units it has transferred, if it has started. -/
  channel : Option ℕ
  /-- It interrupts. -/
  interrupt : Bool
  /-- The processes. -/
  pc : P → Pc
  /-- What has been printed. -/
  log : List (Report P)

variable {P}

/-- After `s3c_dma_init`, with anything in the buffers. -/
def Dev.init (src dst : ℕ → BitVec 8) : Dev P :=
  ⟨src, dst, false, 0, none, false, fun _ => .idle, []⟩

/-- The process goes to `pc`. -/
def Dev.goto [DecidableEq P] (s : Dev P) (p : P) (pc : Pc) : Dev P :=
  { s with pc := Function.update s.pc p pc }

/-- It prints a text and returns. -/
def Dev.report [DecidableEq P] (s : Dev P) (p : P) (cmd : Cmd) (text : String) : Dev P :=
  { s.goto p .idle with log := s.log ++ [⟨p, cmd, text⟩] }

/-- What comes after the buffers have been filled. -/
def Cmd.filled : Cmd → Pc
  | .memCpyNoDma => .copy 0
  | .memCpyDma => .clear

/-- The next step of a process in `s3c_dma_ioctl`. -/
def ioctl [DecidableEq P] (s : Dev P) (p : P) : Option (Dev P) :=
  match s.pc p with
  | .idle => none
  | .fillSrc cmd i =>
    if i < bufSize then
      some { s.goto p (.fillSrc cmd (i + 1)) with src := Function.update s.src i 0xaa }
    else some (s.goto p (.fillDst cmd 0))
  | .fillDst cmd i =>
    if i < bufSize then
      some { s.goto p (.fillDst cmd (i + 1)) with dst := Function.update s.dst i 0x55 }
    else some (s.goto p cmd.filled)
  | .copy i =>
    if i < bufSize then
      some { s.goto p (.copy (i + 1)) with dst := Function.update s.dst i (s.src i) }
    else some (s.goto p (.compare .memCpyNoDma 0))
  | .clear => some { s.goto p .trigger with evDma := false }
  | .trigger => some { s.goto p .wait with pending := s.pending + 1 }
  | .wait => if s.evDma then some (s.goto p (.compare .memCpyDma 0)) else none
  | .compare cmd i =>
    if s.src i = s.dst i then
      if i + 1 < bufSize then some (s.goto p (.compare cmd (i + 1)))
      else some (s.report p cmd (okText cmd))
    else some (s.report p cmd errorText)

/-- The next step of the channel: it starts, transfers a unit, or interrupts. -/
def channel (s : Dev P) : Option (Dev P) :=
  match s.channel with
  | none =>
    if 0 < s.pending then some { s with pending := s.pending - 1, channel := some 0 } else none
  | some i =>
    if i < transferCount dcon then
      some { s with dst := Function.update s.dst i (s.src i), channel := some (i + 1) }
    else some { s with channel := none, interrupt := true }

/-- `s3c_dma_irq`. -/
def s3cDmaIrq (s : Dev P) : Option (Dev P) :=
  if s.interrupt then some { s with interrupt := false, evDma := true } else none

/-- What can happen. -/
inductive Act (P : Type) where
  /-- A process calls `s3c_dma_ioctl`. -/
  | call (p : P) (cmd : Cmd)
  /-- It goes on there. -/
  | move (p : P)
  /-- The channel goes on. -/
  | dma
  /-- The CPU is interrupted. -/
  | irq

/-- One step. -/
def step [DecidableEq P] (s : Dev P) : Act P → Option (Dev P)
  | .call p cmd => if s.pc p = .idle then some (s.goto p (.fillSrc cmd 0)) else none
  | .move p => ioctl s p
  | .dma => channel s
  | .irq => s3cDmaIrq s

/-! ### What is reported -/

/-- All that has been reported is that the buffers are equal. -/
def ReportsOk (s : Dev P) : Prop := ∀ r ∈ s.log, r.text = okText r.cmd

/-- No call begins while another process is inside one. -/
def Alone (s : Dev P) (a : Act P) : Prop :=
  ∀ p cmd, a = .call p cmd → s.pc p = .idle → ∀ q, q ≠ p → s.pc q = .idle

/-- No call begins. -/
def NoCall (_ : Dev P) (a : Act P) : Prop := ∀ p cmd, a ≠ .call p cmd

/-- The first `n` bytes are `v`. -/
def Filled (buf : ℕ → BitVec 8) (v : BitVec 8) (n : ℕ) : Prop := ∀ i < n, buf i = v

/-- The channel has nothing to do. -/
structure Dev.Quiet (s : Dev P) : Prop where
  /-- It has not been triggered. -/
  pending : s.pending = 0
  /-- It is not at it. -/
  channel : s.channel = none
  /-- It does not interrupt. -/
  interrupt : s.interrupt = false

/-- How far the transfer is that a process waits for. -/
inductive Transfer (s : Dev P) : Prop where
  /-- The channel has been triggered. -/
  | triggered : s.pending = 1 → s.channel = none → s.interrupt = false → s.evDma = false →
      Transfer s
  /-- It is at it. -/
  | copying {i : ℕ} : s.pending = 0 → s.channel = some i → s.interrupt = false →
      s.evDma = false → Filled s.dst 0xaa i → Transfer s
  /-- It interrupts. -/
  | interrupts : s.pending = 0 → s.channel = none → s.interrupt = true → s.evDma = false →
      Filled s.dst 0xaa bufSize → Transfer s
  /-- The event has come. -/
  | come : s.Quiet → Filled s.dst 0xaa bufSize → Transfer s

/-- What holds where the only process in a call is. -/
def Fits (s : Dev P) : Pc → Prop
  | .idle => s.Quiet
  | .fillSrc _ i => s.Quiet ∧ Filled s.src 0xaa i
  | .fillDst .. | .clear => s.Quiet ∧ Filled s.src 0xaa bufSize
  | .copy i => s.Quiet ∧ Filled s.src 0xaa bufSize ∧ Filled s.dst 0xaa i
  | .trigger => s.Quiet ∧ Filled s.src 0xaa bufSize ∧ s.evDma = false
  | .wait => Filled s.src 0xaa bufSize ∧ Transfer s
  | .compare _ i => s.Quiet ∧ Filled s.src 0xaa bufSize ∧ Filled s.dst 0xaa bufSize ∧ i < bufSize

/-- One call at a time. -/
structure Inv (s : Dev P) : Prop where
  /-- One process at most is in a call. -/
  alone : ∀ p, s.pc p ≠ .idle → ∀ q, q ≠ p → s.pc q = .idle
  /-- The buffers, the channel and the flag fit with where it is. -/
  fits : ∀ p, (∀ q, q ≠ p → s.pc q = .idle) → Fits s (s.pc p)
  /-- Nothing is wrong. -/
  ok : ReportsOk s

section Alone

variable {s t : Dev P} {p : P} {pc : Pc} {buf : ℕ → BitVec 8} {v : BitVec 8} {m n : ℕ}

theorem Filled.mono (h : Filled buf v n) (hle : m ≤ n) : Filled buf v m :=
  fun i hi => h i (Nat.lt_of_lt_of_le hi hle)

theorem Filled.update (h : Filled buf v n) (w : BitVec 8) (hw : w = v) :
    Filled (Function.update buf n w) v (n + 1) := by
  intro i hi
  by_cases hin : i = n
  · rw [hin, Function.update_self, hw]
  · rw [Function.update_of_ne hin]
    exact h i (by omega)

/-- Only a process that waits has the channel at work. -/
theorem Fits.quiet (h : Fits s pc) (hpc : pc ≠ .wait) : s.Quiet := by
  cases pc with
  | wait => exact absurd rfl hpc
  | idle => exact h
  | _ => exact h.1

theorem Dev.Quiet.channel_eq (h : s.Quiet) : Dma.channel s = none := by
  simp only [Dma.channel, h.channel, h.pending, Nat.lt_irrefl, if_false]

theorem Dev.Quiet.irq_eq (h : s.Quiet) : s3cDmaIrq s = none := by
  simp only [s3cDmaIrq, h.interrupt, Bool.false_eq_true, if_false]

theorem inv_init (src dst : ℕ → BitVec 8) : Inv (Dev.init src dst : Dev P) :=
  ⟨fun _ hp => absurd rfl hp, fun _ _ => (⟨rfl, rfl, rfl⟩ : Dev.Quiet _), fun _ hr => by cases hr⟩

/-- After a step of the channel, or the interrupt. -/
theorem Inv.of_wait (h : Inv s) (hpc : t.pc = s.pc) (hlog : t.log = s.log) (hnot : ¬ s.Quiet)
    (hfits : Fits s .wait → Fits t .wait) : Inv t := by
  refine ⟨by rw [hpc]; exact h.alone, fun p hp => ?_, by rw [ReportsOk, hlog]; exact h.ok⟩
  rw [hpc] at hp ⊢
  have hs := h.fits p hp
  by_cases hwait : s.pc p = .wait
  · rw [hwait] at hs ⊢
    exact hfits hs
  · exact absurd (hs.quiet hwait) hnot

/-- The channel has been triggered and has not started. -/
theorem Transfer.of_pending (h : Transfer s) (hp : 0 < s.pending) :
    s.pending = 1 ∧ s.interrupt = false ∧ s.evDma = false := by
  cases h with
  | triggered hone _ hirq hev => exact ⟨hone, hirq, hev⟩
  | copying hzero => omega
  | interrupts hzero => omega
  | come hq => exact absurd hq.pending (Nat.ne_of_gt hp)

/-- It is at it. -/
theorem Transfer.of_channel {i : ℕ} (h : Transfer s) (hi : s.channel = some i) :
    s.pending = 0 ∧ s.interrupt = false ∧ s.evDma = false ∧ Filled s.dst 0xaa i := by
  have hne : s.channel ≠ none := by simp [hi]
  cases h with
  | copying hzero hat hirq hev hdst =>
    cases hi.symm.trans hat
    exact ⟨hzero, hirq, hev, hdst⟩
  | triggered _ hno => exact absurd hno hne
  | interrupts _ hno => exact absurd hno hne
  | come hq => exact absurd hq.channel hne

/-- It interrupts. -/
theorem Transfer.of_interrupt (h : Transfer s) (hi : s.interrupt = true) :
    s.pending = 0 ∧ s.channel = none ∧ Filled s.dst 0xaa bufSize := by
  have hne : s.interrupt ≠ false := by simp [hi]
  cases h with
  | interrupts hzero hchannel _ _ hdst => exact ⟨hzero, hchannel, hdst⟩
  | triggered _ _ hno => exact absurd hno hne
  | copying _ _ hno => exact absurd hno hne
  | come hq => exact absurd hq.interrupt hne

/-- The event has come. -/
theorem Transfer.of_event (h : Transfer s) (hev : s.evDma = true) :
    s.Quiet ∧ Filled s.dst 0xaa bufSize := by
  have hne : s.evDma ≠ false := by simp [hev]
  cases h with
  | come hq hdst => exact ⟨hq, hdst⟩
  | triggered _ _ _ hno => exact absurd hno hne
  | copying _ _ _ hno => exact absurd hno hne
  | interrupts _ _ _ hno => exact absurd hno hne

/-- A step of the channel. -/
theorem inv_channel (h : Inv s) (ht : channel s = some t) : Inv t := by
  have hnot : ¬ s.Quiet := by
    intro hq
    rw [hq.channel_eq] at ht
    cases ht
  unfold channel at ht
  split at ht
  case h_1 hchannel =>
    split at ht
    case isFalse => cases ht
    case isTrue hpending =>
      cases ht
      refine h.of_wait rfl rfl hnot fun hs => ⟨hs.1, ?_⟩
      obtain ⟨hone, hirq, hev⟩ := hs.2.of_pending hpending
      exact .copying (congrArg (· - 1) hone) rfl hirq hev fun j hj => absurd hj (by omega)
  case h_2 i hchannel =>
    rw [transferCount_dcon] at ht
    split at ht
    case isTrue hi =>
      cases ht
      refine h.of_wait rfl rfl hnot fun hs => ⟨hs.1, ?_⟩
      obtain ⟨hzero, hirq, hev, hdst⟩ := hs.2.of_channel hchannel
      exact .copying hzero rfl hirq hev (hdst.update _ (hs.1 i hi))
    case isFalse hi =>
      cases ht
      refine h.of_wait rfl rfl hnot fun hs => ⟨hs.1, ?_⟩
      obtain ⟨hzero, hirq, hev, hdst⟩ := hs.2.of_channel hchannel
      exact .interrupts hzero rfl rfl hev (hdst.mono (Nat.le_of_not_lt hi))

/-- The interrupt. -/
theorem inv_irq (h : Inv s) (ht : s3cDmaIrq s = some t) : Inv t := by
  have hnot : ¬ s.Quiet := by
    intro hq
    rw [hq.irq_eq] at ht
    cases ht
  unfold s3cDmaIrq at ht
  split at ht
  case isFalse => cases ht
  case isTrue hirq =>
    cases ht
    refine h.of_wait rfl rfl hnot fun hs => ⟨hs.1, ?_⟩
    obtain ⟨hzero, hchannel, hdst⟩ := hs.2.of_interrupt hirq
    exact .come ⟨hzero, hchannel, rfl⟩ hdst

variable [DecidableEq P]

/-- After a step of the only process in a call. -/
theorem Inv.of_only (hothers : ∀ q, q ≠ p → s.pc q = .idle) (hpc : t.pc = Function.update s.pc p pc)
    (hfits : Fits t pc) (hok : ReportsOk t) : Inv t := by
  have hp : t.pc p = pc := by rw [hpc, Function.update_self]
  have hidle : ∀ q, q ≠ p → t.pc q = .idle := by
    intro q hq
    rw [hpc, Function.update_of_ne hq]
    exact hothers q hq
  refine ⟨fun r hr q hq => ?_, fun r hr => ?_, hok⟩
  · by_cases hrp : r = p
    · exact hidle q (hrp ▸ hq)
    · exact absurd (hidle r hrp) hr
  · by_cases hrp : r = p
    · rw [hrp, hp]
      exact hfits
    · have hend := hr p (Ne.symm hrp)
      rw [hidle r hrp, ← hend, hp]
      exact hfits

/-- A step of a call. -/
theorem inv_ioctl (h : Inv s) (ht : ioctl s p = some t) : Inv t := by
  have hothers : ∀ q, q ≠ p → s.pc q = .idle := by
    refine h.alone p fun hidle => ?_
    simp only [ioctl, hidle] at ht
    cases ht
  have hs := h.fits p hothers
  unfold ioctl at ht
  cases hpc : s.pc p with
  | idle =>
    simp only [hpc] at ht
    cases ht
  | fillSrc cmd i =>
    simp only [hpc] at ht
    rw [hpc] at hs
    obtain ⟨hq, hsrc⟩ := hs
    split at ht
    case isTrue hi =>
      cases ht
      exact .of_only hothers rfl ⟨⟨hq.1, hq.2, hq.3⟩, hsrc.update _ rfl⟩ h.ok
    case isFalse hi =>
      cases ht
      exact .of_only hothers rfl ⟨⟨hq.1, hq.2, hq.3⟩, hsrc.mono (Nat.le_of_not_lt hi)⟩ h.ok
  | fillDst cmd i =>
    simp only [hpc] at ht
    rw [hpc] at hs
    obtain ⟨hq, hsrc⟩ := hs
    split at ht
    case isTrue hi =>
      cases ht
      exact .of_only hothers rfl ⟨⟨hq.1, hq.2, hq.3⟩, hsrc⟩ h.ok
    case isFalse hi =>
      cases ht
      cases cmd with
      | memCpyNoDma =>
        exact .of_only hothers rfl ⟨⟨hq.1, hq.2, hq.3⟩, hsrc, fun j hj => absurd hj (by omega)⟩ h.ok
      | memCpyDma => exact .of_only hothers rfl ⟨⟨hq.1, hq.2, hq.3⟩, hsrc⟩ h.ok
  | copy i =>
    simp only [hpc] at ht
    rw [hpc] at hs
    obtain ⟨hq, hsrc, hdst⟩ := hs
    split at ht
    case isTrue hi =>
      cases ht
      exact .of_only hothers rfl ⟨⟨hq.1, hq.2, hq.3⟩, hsrc, hdst.update _ (hsrc i hi)⟩ h.ok
    case isFalse hi =>
      cases ht
      exact .of_only hothers rfl
        ⟨⟨hq.1, hq.2, hq.3⟩, hsrc, hdst.mono (Nat.le_of_not_lt hi), by decide⟩ h.ok
  | clear =>
    simp only [hpc] at ht
    rw [hpc] at hs
    obtain ⟨hq, hsrc⟩ := hs
    cases ht
    exact .of_only hothers rfl ⟨⟨hq.1, hq.2, hq.3⟩, hsrc, rfl⟩ h.ok
  | trigger =>
    simp only [hpc] at ht
    rw [hpc] at hs
    obtain ⟨hq, hsrc, hev⟩ := hs
    cases ht
    refine .of_only hothers rfl ⟨hsrc, .triggered ?_ hq.channel hq.interrupt hev⟩ h.ok
    exact congrArg (· + 1) hq.pending
  | wait =>
    simp only [hpc] at ht
    rw [hpc] at hs
    obtain ⟨hsrc, htransfer⟩ := hs
    split at ht
    case isFalse => cases ht
    case isTrue hev =>
      cases ht
      obtain ⟨hq, hdst⟩ := htransfer.of_event hev
      exact .of_only hothers rfl ⟨⟨hq.1, hq.2, hq.3⟩, hsrc, hdst, by decide⟩ h.ok
  | compare cmd i =>
    simp only [hpc] at ht
    rw [hpc] at hs
    obtain ⟨hq, hsrc, hdst, hi⟩ := hs
    rw [if_pos ((hsrc i hi).trans (hdst i hi).symm)] at ht
    split at ht
    case isTrue hi' =>
      cases ht
      exact .of_only hothers rfl ⟨⟨hq.1, hq.2, hq.3⟩, hsrc, hdst, hi'⟩ h.ok
    case isFalse =>
      cases ht
      have hquiet : (s.report p cmd (okText cmd)).Quiet := ⟨hq.1, hq.2, hq.3⟩
      refine .of_only hothers rfl hquiet fun r hr => ?_
      rcases List.mem_append.mp hr with hr | hr
      · exact h.ok r hr
      · rw [List.mem_singleton.mp hr]

/-- A step, while no call begins inside another. -/
theorem inv_step {a : Act P} (h : Inv s) (ha : Alone s a) (ht : step s a = some t) : Inv t := by
  cases a with
  | move p => exact inv_ioctl h ht
  | dma => exact inv_channel h ht
  | irq => exact inv_irq h ht
  | call p cmd =>
    simp only [step] at ht
    split at ht
    case isFalse => cases ht
    case isTrue hp =>
      cases ht
      have hothers := ha p cmd rfl hp
      have hq := h.fits p hothers
      rw [hp] at hq
      exact .of_only hothers rfl ⟨⟨hq.1, hq.2, hq.3⟩, fun j hj => absurd hj (by omega)⟩ h.ok

end Alone

/-! ### A call inside another -/

/-- The channel has something to do. -/
def Busy (s : Dev P) : Prop := 0 < s.pending ∨ s.channel ≠ none ∨ s.interrupt = true

/-- What holds whatever calls begin. -/
structure Live (s : Dev P) : Prop where
  /-- A process that waits will be woken. -/
  wait : ∀ p, s.pc p = .wait → s.evDma = true ∨ Busy s ∨ ∃ q, s.pc q = .trigger
  /-- `memcmp` looks at the buffers. -/
  compare : ∀ p cmd i, s.pc p = .compare cmd i → i < bufSize

section Overlap

variable {s t : Dev P} {p q : P} {pc : Pc} {a : Act P}

theorem live_init (src dst : ℕ → BitVec 8) : Live (Dev.init src dst : Dev P) :=
  ⟨fun _ hp => (by cases hp), fun _ _ _ hp => (by cases hp)⟩

/-- After a step of the channel, or the interrupt. -/
theorem Live.of_pc (h : Live s) (hpc : t.pc = s.pc) (hev : t.evDma = true ∨ Busy t) : Live t := by
  refine ⟨fun p _ => ?_, by rw [hpc]; exact h.compare⟩
  exact hev.imp_right .inl

variable [DecidableEq P]

/-- After a step of a process that neither clears the flag nor triggers the channel. -/
theorem Live.of_goto (h : Live s) (hpc : t.pc = Function.update s.pc p pc) (hev : t.evDma = s.evDma)
    (hbusy : Busy s → Busy t) (hp : s.pc p ≠ .trigger) (hwait : pc ≠ .wait)
    (hcompare : ∀ cmd i, pc = .compare cmd i → i < bufSize) : Live t := by
  constructor
  · intro q hq
    by_cases hqp : q = p
    · rw [hqp, hpc, Function.update_self] at hq
      exact absurd hq hwait
    · rw [hpc, Function.update_of_ne hqp] at hq
      rcases h.wait q hq with hs | hs | ⟨r, hr⟩
      · exact .inl (hev.trans hs)
      · exact .inr (.inl (hbusy hs))
      · have hrp : r ≠ p := fun hrp => hp (hrp ▸ hr)
        exact .inr (.inr ⟨r, by rw [hpc, Function.update_of_ne hrp, hr]⟩)
  · intro q cmd i hq
    by_cases hqp : q = p
    · rw [hqp, hpc, Function.update_self] at hq
      exact hcompare cmd i hq
    · rw [hpc, Function.update_of_ne hqp] at hq
      exact h.compare q cmd i hq

theorem live_ioctl (h : Live s) (ht : ioctl s p = some t) : Live t := by
  have hcompare : ∀ r, r ≠ p → ∀ pc' cmd i, Function.update s.pc p pc' r = .compare cmd i →
      i < bufSize := by
    intro r hr pc' cmd i hrp
    rw [Function.update_of_ne hr] at hrp
    exact h.compare r cmd i hrp
  unfold ioctl at ht
  cases hpc : s.pc p with
  | idle =>
    simp only [hpc] at ht
    cases ht
  | fillSrc cmd i =>
    simp only [hpc] at ht
    split at ht <;> cases ht <;>
      exact h.of_goto rfl rfl id (by simp [hpc]) (by simp) (by simp)
  | fillDst cmd i =>
    simp only [hpc] at ht
    split at ht <;> cases ht <;>
      exact h.of_goto rfl rfl id (by simp [hpc]) (by cases cmd <;> simp [Cmd.filled])
        (by cases cmd <;> simp [Cmd.filled])
  | copy i =>
    simp only [hpc] at ht
    split at ht
    case isTrue =>
      cases ht
      exact h.of_goto rfl rfl id (by simp [hpc]) (by simp) (by simp)
    case isFalse =>
      cases ht
      refine h.of_goto rfl rfl id (by simp [hpc]) (by simp) fun cmd i hi => ?_
      cases hi
      decide
  | clear =>
    simp only [hpc] at ht
    cases ht
    refine ⟨fun r _ => .inr (.inr ⟨p, Function.update_self ..⟩), fun r cmd i hr => ?_⟩
    by_cases hrp : r = p
    · simp [Dev.goto, hrp] at hr
    · exact hcompare r hrp _ cmd i hr
  | trigger =>
    simp only [hpc] at ht
    cases ht
    refine ⟨fun r _ => .inr (.inl (.inl (Nat.succ_pos _))), fun r cmd i hr => ?_⟩
    by_cases hrp : r = p
    · simp [Dev.goto, hrp] at hr
    · exact hcompare r hrp _ cmd i hr
  | wait =>
    simp only [hpc] at ht
    split at ht
    case isFalse => cases ht
    case isTrue =>
      cases ht
      refine h.of_goto rfl rfl id (by simp [hpc]) (by simp) fun cmd i hi => ?_
      cases hi
      decide
  | compare cmd i =>
    simp only [hpc] at ht
    split at ht
    case isFalse =>
      cases ht
      exact h.of_goto rfl rfl id (by simp [hpc]) (by simp) (by simp)
    case isTrue =>
      split at ht
      case isTrue hi =>
        cases ht
        refine h.of_goto rfl rfl id (by simp [hpc]) (by simp) fun cmd' j hj => ?_
        cases hj
        exact hi
      case isFalse =>
        cases ht
        exact h.of_goto rfl rfl id (by simp [hpc]) (by simp) (by simp)

theorem live_step (h : Live s) (ht : step s a = some t) : Live t := by
  cases a with
  | move p => exact live_ioctl h ht
  | call p cmd =>
    simp only [step] at ht
    split at ht
    case isFalse => cases ht
    case isTrue hp =>
      cases ht
      exact h.of_goto rfl rfl id (by simp [hp]) (by simp) (by simp)
  | dma =>
    simp only [step, channel] at ht
    split at ht
    case h_1 =>
      split at ht
      case isFalse => cases ht
      case isTrue =>
        cases ht
        exact h.of_pc rfl (.inr (.inr (.inl (by simp))))
    case h_2 =>
      split at ht
      case isTrue =>
        cases ht
        exact h.of_pc rfl (.inr (.inr (.inl (by simp))))
      case isFalse =>
        cases ht
        exact h.of_pc rfl (.inr (.inr (.inr rfl)))
  | irq =>
    simp only [step, s3cDmaIrq] at ht
    split at ht
    case isFalse => cases ht
    case isTrue =>
      cases ht
      exact h.of_pc rfl (.inl rfl)

/-- With no call that begins. -/
def Goes (s t : Dev P) : Prop := ∃ ds, Along step NoCall s ds ∧ run step s ds = some t

theorem Goes.refl (s : Dev P) : Goes s s := ⟨[], trivial, rfl⟩

theorem Goes.trans {u : Dev P} (h : Goes s t) (h' : Goes t u) : Goes s u := by
  obtain ⟨ds, hds, ht⟩ := h
  obtain ⟨es, hes, hu⟩ := h'
  refine ⟨ds ++ es, along_append.mpr ⟨hds, fun w hw => ?_⟩, run_append.mpr ⟨t, ht, hu⟩⟩
  cases ht.symm.trans hw
  exact hes

theorem Goes.of_run {ds : List (Act P)} (hds : ∀ a ∈ ds, ∀ p cmd, a ≠ .call p cmd)
    (ht : run step s ds = some t) : Goes s t :=
  ⟨ds, along_of_forall (fun _ a ha => hds a ha) s, ht⟩

theorem Goes.one (ha : ∀ p cmd, a ≠ .call p cmd) (ht : step s a = some t) : Goes s t :=
  .of_run (fun _ hb => List.mem_singleton.mp hb ▸ ha) (run_cons.mpr ⟨t, ht, rfl⟩)

theorem Goes.live (h : Goes s t) (hs : Live s) : Live t := by
  obtain ⟨ds, -, ht⟩ := h
  exact Reach.invariant (fun _ _ _ => live_step) hs ⟨ds, ht⟩

/-- The channel transfers `k` units. -/
theorem run_dma {i k : ℕ} (hi : s.channel = some i) (hk : k ≤ bufSize - i) :
    run step s (List.replicate k .dma) = some
      { s with dst := overlay s.dst s.src i (i + k), channel := some (i + k) } := by
  have hrun := @run_replicate _ _ step .dma
    (fun m => { s with dst := overlay s.dst s.src i (i + m), channel := some (i + m) }) k
    fun m hm => by
      have hlt : i + m < bufSize := by omega
      simp only [step, channel, transferCount_dcon, if_pos hlt]
      rw [update_overlay _ _ (Nat.le_add_right i m), Nat.add_assoc]
  rw [← hrun, Nat.add_zero, overlay_self, ← hi]

theorem goto_eq_self (h : s.pc p = pc) : s.goto p pc = s := by
  rw [Dev.goto, ← h, Function.update_eq_self]

/-- A process fills `src`. -/
theorem run_fillSrc {cmd : Cmd} (hp : s.pc p = .fillSrc cmd 0) :
    run step s (List.replicate (bufSize + 1) (.move p)) = some
      { s.goto p (.fillDst cmd 0) with src := overlay s.src (fun _ => 0xaa) 0 bufSize } := by
  have hrun := @run_loop _ _ step (.move p)
    { s.goto p (.fillDst cmd 0) with src := overlay s.src (fun _ => 0xaa) 0 bufSize }
    (fun m => { s.goto p (.fillSrc cmd m) with src := overlay s.src (fun _ => 0xaa) 0 m }) bufSize
    (fun m hm => by
      simp only [step, ioctl, Dev.goto, Function.update_self, if_pos hm, Function.update_idem]
      rw [update_overlay _ _ (Nat.zero_le m)])
    (by simp only [step, ioctl, Dev.goto, Function.update_self, Nat.lt_irrefl, if_false,
      Function.update_idem])
  rwa [overlay_self, goto_eq_self hp] at hrun

/-- And `dst`. -/
theorem run_fillDst {cmd : Cmd} (hp : s.pc p = .fillDst cmd 0) :
    run step s (List.replicate (bufSize + 1) (.move p)) = some
      { s.goto p cmd.filled with dst := overlay s.dst (fun _ => 0x55) 0 bufSize } := by
  have hrun := @run_loop _ _ step (.move p)
    { s.goto p cmd.filled with dst := overlay s.dst (fun _ => 0x55) 0 bufSize }
    (fun m => { s.goto p (.fillDst cmd m) with dst := overlay s.dst (fun _ => 0x55) 0 m }) bufSize
    (fun m hm => by
      simp only [step, ioctl, Dev.goto, Function.update_self, if_pos hm, Function.update_idem]
      rw [update_overlay _ _ (Nat.zero_le m)])
    (by simp only [step, ioctl, Dev.goto, Function.update_self, Nat.lt_irrefl, if_false,
      Function.update_idem])
  rwa [overlay_self, goto_eq_self hp] at hrun

/-- The steps of a process that fills both. -/
def fills (p : P) : List (Act P) :=
  List.replicate (bufSize + 1) (.move p) ++ List.replicate (bufSize + 1) (.move p)

/-- After them. -/
def Dev.fill (s : Dev P) (p : P) (cmd : Cmd) : Dev P :=
  { s.goto p cmd.filled with
    src := overlay s.src (fun _ => 0xaa) 0 bufSize
    dst := overlay s.dst (fun _ => 0x55) 0 bufSize }

theorem run_fills {cmd : Cmd} (hp : s.pc p = .fillSrc cmd 0) :
    run step s (fills p) = some (s.fill p cmd) := by
  refine run_append.mpr ⟨_, run_fillSrc hp, ?_⟩
  rw [run_fillDst (Function.update_self ..)]
  simp only [Dev.goto, Dev.fill, Function.update_idem]

/-- The buffers differ everywhere then. -/
theorem fill_ne {cmd : Cmd} {i : ℕ} (hi : i < bufSize) :
    (s.fill p cmd).src i ≠ (s.fill p cmd).dst i := by
  simp only [Dev.fill, overlay_of_mem _ _ (Nat.zero_le i) hi]
  decide

/-- What a process has still to do before it waits or compares. -/
def Pc.rank : Pc → ℕ
  | .idle | .wait | .compare .. => 0
  | .trigger => 1
  | .clear => 2
  | .copy i => 1 + (bufSize - i)
  | .fillDst _ i => bufSize + 3 + (bufSize - i)
  | .fillSrc _ i => 2 * bufSize + 4 + (bufSize - i)

/-- Before that a process can go on. -/
theorem exists_move (hp : 0 < (s.pc p).rank) :
    ∃ t pc, ioctl s p = some t ∧ t.pc = Function.update s.pc p pc ∧ pc ≠ .idle ∧
      pc.rank < (s.pc p).rank := by
  unfold ioctl
  cases hpc : s.pc p with
  | idle => simp [hpc, Pc.rank] at hp
  | wait => simp [hpc, Pc.rank] at hp
  | compare cmd i => simp [hpc, Pc.rank] at hp
  | clear => exact ⟨_, .trigger, rfl, rfl, by simp, by simp [Pc.rank]⟩
  | trigger => exact ⟨_, .wait, rfl, rfl, by simp, by simp [Pc.rank]⟩
  | copy i =>
    by_cases hi : i < bufSize
    · exact ⟨_, .copy (i + 1), if_pos hi, rfl, by simp, by simp only [Pc.rank]; omega⟩
    · exact ⟨_, .compare .memCpyNoDma 0, if_neg hi, rfl, by simp, by simp only [Pc.rank]; omega⟩
  | fillDst cmd i =>
    by_cases hi : i < bufSize
    · exact ⟨_, .fillDst cmd (i + 1), if_pos hi, rfl, by simp, by simp only [Pc.rank]; omega⟩
    · refine ⟨_, cmd.filled, if_neg hi, rfl, ?_, ?_⟩ <;> cases cmd <;>
        simp only [Cmd.filled, Pc.rank, ne_eq, reduceCtorEq, not_false_eq_true] <;> omega
  | fillSrc cmd i =>
    by_cases hi : i < bufSize
    · exact ⟨_, .fillSrc cmd (i + 1), if_pos hi, rfl, by simp, by simp only [Pc.rank]; omega⟩
    · exact ⟨_, .fillDst cmd 0, if_neg hi, rfl, by simp, by simp only [Pc.rank]; omega⟩

/-- The channel comes to its end. -/
theorem exists_interrupt {i : ℕ} (hi : s.channel = some i) :
    ∃ t, Goes s t ∧ t.pc = s.pc ∧ t.interrupt = true := by
  have hcopy := run_dma hi (Nat.le_refl (bufSize - i))
  have hend : step { s with
      dst := overlay s.dst s.src i (i + (bufSize - i)), channel := some (i + (bufSize - i)) } .dma =
        some { s with
          dst := overlay s.dst s.src i (i + (bufSize - i))
          channel := none
          interrupt := true } := by
    simp only [step, channel, transferCount_dcon]
    exact if_neg (by omega)
  refine ⟨_, .trans (.of_run (fun a ha p cmd h => ?_) hcopy) (.one (fun _ _ h => by cases h) hend),
    rfl, rfl⟩
  rw [List.eq_of_mem_replicate ha] at h
  cases h

/-- The channel, with something to do, sets the flag. -/
theorem exists_event_of_busy (hbusy : Busy s) : ∃ t, Goes s t ∧ t.pc = s.pc ∧ t.evDma = true := by
  have hirq : ∀ u : Dev P, u.interrupt = true → ∃ t, Goes u t ∧ t.pc = u.pc ∧ t.evDma = true :=
    fun u hu => ⟨_, .one (a := .irq) (fun _ _ h => by cases h) (if_pos hu), rfl, rfl⟩
  have hcopy : ∀ u : Dev P, ∀ i, u.channel = some i →
      ∃ t, Goes u t ∧ t.pc = u.pc ∧ t.evDma = true := by
    intro u i hi
    obtain ⟨t, hut, htpc, ht⟩ := exists_interrupt hi
    obtain ⟨w, htw, hwpc, hw⟩ := hirq t ht
    exact ⟨w, hut.trans htw, hwpc.trans htpc, hw⟩
  cases hc : s.channel with
  | some i => exact hcopy s i hc
  | none =>
    rcases hbusy with hpending | hne | hint
    · have hstart : step s .dma = some { s with pending := s.pending - 1, channel := some 0 } := by
        simp only [step, channel, hc, if_pos hpending]
      obtain ⟨t, hgoes, hpc, ht⟩ :=
        hcopy { s with pending := s.pending - 1, channel := some 0 } 0 rfl
      exact ⟨t, .trans (.one (fun _ _ h => by cases h) hstart) hgoes, hpc, ht⟩
    · exact absurd hc hne
    · exact hirq s hint

/-- A process that waits is woken, if need be after another has triggered the channel. -/
theorem exists_event (h : Live s) (hp : s.pc p = .wait) (hq : s.pc q ≠ .trigger) :
    ∃ t, Goes s t ∧ t.pc p = .wait ∧ t.pc q = s.pc q ∧ t.evDma = true := by
  rcases h.wait p hp with hev | hbusy | ⟨r, hr⟩
  · exact ⟨s, .refl s, hp, rfl, hev⟩
  · obtain ⟨t, hgoes, hpc, ht⟩ := exists_event_of_busy hbusy
    exact ⟨t, hgoes, by rw [hpc, hp], by rw [hpc], ht⟩
  · -- the flag has been cleared by `r`, which has still to trigger the channel
    have hrp : p ≠ r := by
      rintro rfl
      cases hp.symm.trans hr
    have hrq : q ≠ r := fun hrq => hq (hrq ▸ hr)
    have hmove : step s (.move r) = some { s.goto r .wait with pending := s.pending + 1 } := by
      simp only [step, ioctl, hr]
    have hbusy : Busy { s.goto r .wait with pending := s.pending + 1 } := .inl (Nat.succ_pos _)
    obtain ⟨t, hgoes, hpc, ht⟩ := exists_event_of_busy hbusy
    refine ⟨t, .trans (.one (fun _ _ h => by cases h) hmove) hgoes, ?_, ?_, ht⟩
    · rw [hpc]
      exact (Function.update_of_ne hrp ..).trans hp
    · rw [hpc]
      exact Function.update_of_ne hrq ..

/-- A process in a call gets to its `memcmp`, without a step of one that has just begun one. -/
theorem exists_compare (h : Live s) (hp : s.pc p ≠ .idle) (hqp : q ≠ p) (hq : s.pc q ≠ .trigger) :
    ∃ t cmd i, Goes s t ∧ t.pc q = s.pc q ∧ t.pc p = .compare cmd i := by
  -- on how much the process has to do before it waits or compares
  induction hn : (s.pc p).rank using Nat.strongRecOn generalizing s with
  | _ n ih =>
    by_cases hpos : 0 < (s.pc p).rank
    · obtain ⟨u, pc, hmove, hpc, hidle, hrank⟩ := exists_move hpos
      have hup : u.pc p = pc := by rw [hpc, Function.update_self]
      have huq : u.pc q = s.pc q := by rw [hpc, Function.update_of_ne hqp]
      have hgoes : Goes s u := .one (a := .move p) (fun _ _ h => by cases h) hmove
      obtain ⟨t, cmd, i, ht, htq, hcompare⟩ := ih pc.rank (hn ▸ hrank) (hgoes.live h)
        (hup ▸ hidle) (huq ▸ hq) (congrArg Pc.rank hup)
      exact ⟨t, cmd, i, hgoes.trans ht, htq.trans huq, hcompare⟩
    · cases hpc : s.pc p with
      | idle => exact absurd hpc hp
      | compare cmd i => exact ⟨s, cmd, i, .refl s, rfl, hpc⟩
      | wait =>
        obtain ⟨u, hgoes, hwait, huq, hev⟩ := exists_event h hpc hq
        have hmove : step u (.move p) = some (u.goto p (.compare .memCpyDma 0)) := by
          simp only [step, ioctl, hwait, hev, if_true]
        exact ⟨_, .memCpyDma, 0, hgoes.trans (.one (fun _ _ h => by cases h) hmove),
          (Function.update_of_ne hqp ..).trans huq, Function.update_self ..⟩
      | _ => exact absurd (by simp only [hpc, Pc.rank]; omega) hpos

/-- A call that has begun inside another fills the buffers before the other compares them. -/
theorem lost (h : Live s) {cmd : Cmd} (hp : s.pc p ≠ .idle) (hqp : q ≠ p)
    (hq : s.pc q = .fillSrc cmd 0) : ∃ u, Goes s u ∧ ¬ ReportsOk u := by
  obtain ⟨t, cmd', i, hgoes, htq, hcompare⟩ := exists_compare h hp hqp (by simp [hq])
  have hi := (hgoes.live h).compare p cmd' i hcompare
  have hfills : Goes t (t.fill q cmd) := by
    refine .of_run (fun a ha p cmd hcall => ?_) (run_fills (htq.trans hq))
    rw [List.eq_of_mem_replicate (or_self_iff.mp (List.mem_append.mp ha))] at hcall
    cases hcall
  have hp' : (t.fill q cmd).pc p = .compare cmd' i :=
    (Function.update_of_ne hqp.symm ..).trans hcompare
  have hmove : step (t.fill q cmd) (.move p) =
      some ((t.fill q cmd).report p cmd' errorText) := by
    simp only [step, ioctl, hp', if_neg (fill_ne hi)]
  refine ⟨_, (hgoes.trans hfills).trans (.one (fun _ _ h => by cases h) hmove), fun hok => ?_⟩
  exact errorText_ne cmd' (hok _ (List.mem_append_right _ (List.mem_singleton.mpr rfl)))

end Overlap

/-- All that is reported, in the run and wherever the calls of any of its states lead to, is that
the buffers are equal, exactly if in the run no call begins inside another. -/
theorem reports_ok_iff [DecidableEq P] (src dst : ℕ → BitVec 8) (as : List (Act P)) :
    Along step Alone (Dev.init src dst) as ↔
      ∀ bs cs ds s t, as = bs ++ cs → run step (Dev.init src dst) bs = some s →
        Along step NoCall s ds → run step s ds = some t → ReportsOk t := by
  refine along_iff_of_breach (inv_init src dst) (fun _ _ _ _ => inv_step) (fun _ h => h.ok)
    (fun _ _ h p cmd hcall => absurd hcall (h p cmd)) (fun s a hs ha => ?_) as
  have hlive : Live s := hs.invariant (fun _ _ _ => live_step) (live_init src dst)
  simp only [Alone, not_forall] at ha
  obtain ⟨q, cmd, rfl, hq, p, hpq, hp⟩ := ha
  have hcall : step s (.call q cmd) = some (s.goto q (.fillSrc cmd 0)) := if_pos hq
  have hp' : (s.goto q (.fillSrc cmd 0)).pc p ≠ .idle :=
    fun hidle => hp ((Function.update_of_ne hpq ..).symm.trans hidle)
  obtain ⟨u, ⟨ds, hds, hu⟩, hnot⟩ := lost (live_step hlive hcall) hp' hpq.symm
    (Function.update_self ..)
  exact ⟨_, hcall, ds, u, hds, hu, hnot⟩

/-- A process has triggered the channel and waits. When a byte has been transferred, another one
calls. -/
def overlap : List (Act Bool) :=
  List.flatten
    [[.call false .memCpyDma], fills false, [.move false, .move false, .dma, .dma],
      [.call true .memCpyDma], fills true, [.move true, .move true],
      List.replicate (bufSize - 1) .dma, [.dma, .irq, .move true, .move true]]

/-- The transfer ends, and the second process finds that the buffers are not equal. -/
theorem reports_ok_overlap :
    (run step (Dev.init (fun _ => 0) fun _ => 0) overlap).map (fun t => t.log.map Report.text) =
      some ["MEM_CPY_DMA ERROR\n"] := by
  rw [Option.map_eq_some_iff]
  refine ⟨_, run_append.mpr ⟨_, rfl, run_append.mpr ⟨_, run_fills rfl, run_append.mpr ⟨_, rfl,
    run_append.mpr ⟨_, rfl, run_append.mpr ⟨_, run_fills rfl, run_append.mpr ⟨_, rfl,
      run_append.mpr ⟨_, run_dma rfl (Nat.le_refl _), rfl⟩⟩⟩⟩⟩⟩⟩, rfl⟩

end S3c2440.Dma
