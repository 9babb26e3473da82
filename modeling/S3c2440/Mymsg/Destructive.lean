import S3c2440.Mymsg.Cursor

/-!
# The private log that is read away

`驱动程序的调试/code/my_proc_myprintk/mymsg_3.c`, the version before `mymsg.c`: the reader's index is
`mylog_r` itself, so what is read is gone, and a full ring drops the character that the
reader has before it.

## What is proved

* `Unread.step` — an operation of this ring does what it does to a log with a cursor.
* `same_answers` — one reader cannot tell the two versions apart.
-/

namespace S3c2440.Mymsg3

open Theory S3c2440.Mymsg

/-! ### The ring -/

/-- The buffer and its indices. -/
structure Mylog where
  /-- `mylog_buf`. -/
  mylogBuf : Fin mylogBufLen → BitVec 8
  /-- `mylog_r`. -/
  mylogR : Fin mylogBufLen
  /-- `mylog_w`. -/
  mylogW : Fin mylogBufLen

theorem mylogBufLen_pos : 0 < mylogBufLen := by
  simp [mylogBufLen]

/-- The module's variables when it is loaded. -/
def Mylog.init : Mylog := ⟨fun _ => 0, ⟨0, mylogBufLen_pos⟩, ⟨0, mylogBufLen_pos⟩⟩

variable (s : Mylog)

/-- `ringbuffempty`. -/
def ringbuffempty : Bool := s.mylogR = s.mylogW

/-- `ringbufffull`. -/
def ringbufffull : Bool := Ring.next s.mylogW = s.mylogR

/-- `ringbufffputc`, but for waking up the readers. -/
def ringbufffputc (c : BitVec 8) : Mylog :=
  let s := if ringbufffull s then { s with mylogR := Ring.next s.mylogR } else s
  { s with
    mylogBuf := Function.update s.mylogBuf s.mylogW c
    mylogW := Ring.next s.mylogW }

/-- `ringbuffgetc`: the character and the state after it, unless there is none. -/
def ringbuffgetc : Option (BitVec 8 × Mylog) :=
  if ringbuffempty s then none
  else some (s.mylogBuf s.mylogR, { s with mylogR := Ring.next s.mylogR })

/-! ### What is asked of both versions -/

/-- What one reader and the driver do. -/
inductive RingOp where
  /-- `ringbufffputc`. -/
  | putc (c : BitVec 8)
  /-- `ringbuffgetc_for_read`, or `ringbuffgetc`. -/
  | getc

/-- One operation of `mymsg_3.c`, and the character that a fetch gets. -/
def ringStep (s : Mylog) : RingOp → Mylog × Option (BitVec 8)
  | .putc c => (ringbufffputc s c, none)
  | .getc =>
    match ringbuffgetc s with
    | none => (s, none)
    | some (c, t) => (t, some c)

/-- The operation on a log with a cursor. -/
def RingOp.op : RingOp → LogOp
  | .putc c => .put c
  | .getc => .get

/-- One operation of `mymsg.c`. -/
def readerStep (s : Mymsg.Mylog) (a : RingOp) : Mymsg.Mylog × Option (BitVec 8) := logStep s a.op

/-- One operation of a log with a cursor. -/
def idealStep (w : Ideal) (a : RingOp) : Ideal × Option (BitVec 8) := w.step a.op

/-! ### This version is a log with a cursor -/

/-- The characters that the ring holds are those of the log that have not been read. -/
def Unread (s : Mylog) (w : Ideal) : Prop :=
  Ring.seg s.mylogBuf s.mylogR s.mylogW = w.chars.drop w.pos

variable {s : Mylog} {w : Ideal}

theorem Unread.ahead (h : Unread s w) :
    Ring.ahead s.mylogR s.mylogW = w.chars.length - w.pos := by
  rw [← Ring.length_seg s.mylogBuf, h, List.length_drop]

/-- The ring is full when the reader is at the oldest character kept and a put would lose it. -/
theorem Unread.full_iff (h : Unread s w) :
    Ring.next s.mylogW = s.mylogR ↔ 1023 ≤ w.chars.length ∧ w.pos = w.oldest := by
  have hold : w.oldest ≤ w.pos := w.oldest_le
  have hlen := w.le_length
  rw [Ring.next_eq_iff, h.ahead]
  show _ = 1024 ↔ _
  simp only [Window.oldest, Window.oldestOf] at hold ⊢
  omega

/-- What a put leaves to be read. -/
theorem drop_put (w : Ideal) (c : BitVec 8) {k : ℕ} (hpos : (w.put c).pos = w.pos + k)
    (hk : w.pos + k ≤ w.chars.length) :
    (w.put c).chars.drop (w.put c).pos = (w.chars.drop w.pos).drop k ++ [c] := by
  rw [hpos, List.drop_drop]
  exact List.drop_append_of_le_length hk

theorem Unread.putc (h : Unread s w) (c : BitVec 8) : Unread (ringbufffputc s c) (w.put c) := by
  by_cases hnext : Ring.next s.mylogW = s.mylogR
  · obtain ⟨hle, hpos⟩ := h.full_iff.mp hnext
    have hfull : ringbufffull s = true := decide_eq_true hnext
    have hlt : w.pos + 1 ≤ w.chars.length := by
      simp only [hpos, Window.oldest, Window.oldestOf]
      omega
    have hne : s.mylogR ≠ s.mylogW := fun he => by
      have hahead := h.ahead
      rw [he, Ring.ahead_self] at hahead
      omega
    have hnext' : Ring.next s.mylogW ≠ Ring.next s.mylogR := fun he => hne (Ring.next_inj he).symm
    have hput : (w.put c).pos = w.pos + 1 := by
      rw [Window.pos_put_of_le hle, if_pos hpos, hpos]
    rw [Unread, drop_put w c hput hlt, ← h, Ring.seg_of_ne _ hne, List.drop_one, List.tail_cons,
      ringbufffputc, if_pos hfull]
    exact Ring.seg_push _ c hnext'
  · have hfull : ¬ ringbufffull s = true := by simpa [ringbufffull] using hnext
    have hput : (w.put c).pos = w.pos + 0 := by
      rcases Nat.lt_or_ge w.chars.length 1023 with hlt | hle
      · exact Window.pos_put_of_lt hlt
      · rw [Window.pos_put_of_le hle, if_neg fun he => hnext (h.full_iff.mpr ⟨hle, he⟩),
          Nat.add_zero]
    rw [Unread, drop_put w c hput w.le_length, List.drop_zero, ← h, ringbufffputc, if_neg hfull]
    exact Ring.seg_push _ c hnext

theorem Unread.getc (h : Unread s w) :
    (ringStep s .getc).2 = w.get.2 ∧ Unread (ringStep s .getc).1 w.get.1 := by
  rcases Nat.lt_or_eq_of_le w.le_length with hlt | heq
  · have hne : s.mylogR ≠ s.mylogW := fun he => by
      have hahead := h.ahead
      rw [he, Ring.ahead_self] at hahead
      omega
    have hempty : ¬ ringbuffempty s = true := by simpa [ringbuffempty] using hne
    have hcons := h
    rw [Unread, Ring.seg_of_ne _ hne, List.drop_eq_getElem_cons hlt] at hcons
    obtain ⟨hchar, hrest⟩ := List.cons.inj hcons
    rw [ringStep, ringbuffgetc, if_neg hempty, Window.get_of_lt hlt]
    exact ⟨congrArg some hchar, hrest⟩
  · have hnil := h
    rw [Unread, heq, List.drop_length, Ring.seg_eq_nil] at hnil
    have hempty : ringbuffempty s = true := decide_eq_true hnil
    rw [ringStep, ringbuffgetc, if_pos hempty, Window.get_of_eq heq]
    exact ⟨rfl, h⟩

/-- An operation of this ring does what it does to the log. -/
theorem Unread.step (s : Mylog) (w : Ideal) (a : RingOp) (h : Unread s w) :
    (ringStep s a).2 = (idealStep w a).2 ∧ Unread (ringStep s a).1 (idealStep w a).1 := by
  cases a with
  | putc c => exact ⟨rfl, h.putc c⟩
  | getc => exact h.getc

/-- Whatever is put and fetched after `mymsg_open`, the version that can be read again gives its
one reader what the version that is read away gives. -/
theorem same_answers (as : List RingOp) :
    answers readerStep (mymsgOpen Mymsg.Mylog.init) as = answers ringStep Mylog.init as := by
  have hunread : Unread Mylog.init Window.empty := rfl
  obtain ⟨hreader, -⟩ : answers readerStep _ as = answers idealStep _ as ∧ _ :=
    answers_eq_of_sim (fun s w a => Represents.step s w a.op) represents_init.open as
  obtain ⟨hring, -⟩ := answers_eq_of_sim Unread.step hunread as
  exact hreader.trans hring.symm

end S3c2440.Mymsg3
