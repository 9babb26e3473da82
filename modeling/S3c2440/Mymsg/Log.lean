import S3c2440.Theory.Ring
import Mathlib.Data.Int.Basic
import Mathlib.Logic.Function.Basic

/-!
# The private log

`驱动程序的调试/code/my_proc_myprintk/mymsg.c`: a driver puts its messages into a ring of
`MYLOG_BUF_LEN` characters (`ringbufffputc`), and `/proc/mymsg` gives them out
(`mymsg_read`) without taking them away: a reader has an index of its own, set back to the
oldest character when the file is opened (`mymsg_open`).

The indices are kept below `MYLOG_BUF_LEN` by their type. `mymsg_read` is given what
the code around it may do: `wait` is what a sleep in `wait_event_interruptible` ends with (an
error, or 0, and what has been written meanwhile), and `putUser i` is what
`__put_user` returns for the `i`-th byte of the caller's buffer. Its loop fetches at most
every character there is, which is why it ends.
-/

namespace S3c2440.Mymsg

open Theory

/-! ### The ring -/

/-- `MYLOG_BUF_LEN`. -/
abbrev mylogBufLen : ℕ := 1024

/-- The buffer and its indices. -/
structure Mylog where
  /-- `mylog_buf`. -/
  mylogBuf : Fin mylogBufLen → BitVec 8
  /-- `mylog_r`. -/
  mylogR : Fin mylogBufLen
  /-- `mylog_w`. -/
  mylogW : Fin mylogBufLen
  /-- `mylog_r_for_read`. -/
  mylogRForRead : Fin mylogBufLen

/-- The module's variables when it is loaded. -/
def Mylog.init : Mylog := ⟨fun _ => 0, ⟨0, by decide⟩, ⟨0, by decide⟩, ⟨0, by decide⟩⟩

variable (s : Mylog)

/-- `ringbuffempty_for_read`. -/
def ringbuffemptyForRead : Bool := s.mylogRForRead = s.mylogW

/-- `ringbufffull`. -/
def ringbufffull : Bool := Ring.next s.mylogW = s.mylogR

/-- `ringbufffputc`, but for waking up the readers. -/
def ringbufffputc (c : BitVec 8) : Mylog :=
  let s :=
    if ringbufffull s then
      let s := { s with mylogR := Ring.next s.mylogR }
      if Ring.next s.mylogRForRead = s.mylogR then { s with mylogRForRead := s.mylogR } else s
    else s
  { s with
    mylogBuf := Function.update s.mylogBuf s.mylogW c
    mylogW := Ring.next s.mylogW }

/-- `ringbuffgetc_for_read`: the character and the state after it, unless there is none. -/
def ringbuffgetcForRead : Option (BitVec 8 × Mylog) :=
  if ringbuffemptyForRead s then none
  else some (s.mylogBuf s.mylogRForRead, { s with mylogRForRead := Ring.next s.mylogRForRead })

/-- `mymsg_open`. -/
def mymsgOpen : Mylog := { s with mylogRForRead := s.mylogR }

/-! ### What a reader has before it -/

/-- The characters the log holds, oldest first. -/
def Mylog.retained : List (BitVec 8) := Ring.seg s.mylogBuf s.mylogR s.mylogW

/-- Those the reader has not got yet. -/
def Mylog.unread : List (BitVec 8) := Ring.seg s.mylogBuf s.mylogRForRead s.mylogW

/-- The reader's index, `k` characters on. -/
def Mylog.advance (k : ℕ) : Mylog := { s with mylogRForRead := Ring.skip s.mylogRForRead k }

theorem ringbuffemptyForRead_iff : ringbuffemptyForRead s = true ↔ s.unread = [] := by
  rw [Mylog.unread, Ring.seg_eq_nil, ringbuffemptyForRead, decide_eq_true_iff]

theorem unread_open : (mymsgOpen s).unread = s.retained := rfl

theorem length_unread_lt : s.unread.length < mylogBufLen := by
  rw [Mylog.unread, Ring.length_seg]
  exact Ring.ahead_lt _ _

@[simp] theorem advance_zero : s.advance 0 = s := by
  rw [Mylog.advance, Ring.skip_zero]

theorem advance_advance (k l : ℕ) : (s.advance k).advance l = s.advance (k + l) :=
  congrArg (fun r => { s with mylogRForRead := r }) (Ring.skip_skip s.mylogRForRead k l)

theorem unread_advance {k : ℕ} (h : k ≤ s.unread.length) :
    (s.advance k).unread = s.unread.drop k := by
  rw [Mylog.unread, Ring.length_seg] at h
  exact Ring.seg_skip s.mylogBuf h

/-- A fetch gets nothing if everything has been read. -/
theorem getc_of_nil (h : s.unread = []) : ringbuffgetcForRead s = none :=
  if_pos ((ringbuffemptyForRead_iff s).mpr h)

/-- Otherwise it gets the next character, and the reader is past it. -/
theorem getc_of_cons {c : BitVec 8} {rest : List (BitVec 8)} (h : s.unread = c :: rest) :
    ringbuffgetcForRead s = some (c, s.advance 1) := by
  have hne : s.mylogRForRead ≠ s.mylogW := by
    intro he
    rw [Mylog.unread, he, Ring.seg_self] at h
    cases h
  have hempty : ¬ ringbuffemptyForRead s = true := by simpa [ringbuffemptyForRead] using hne
  rw [Mylog.unread, Ring.seg_of_ne _ hne] at h
  rw [ringbuffgetcForRead, if_neg hempty, (List.cons.inj h).1, Mylog.advance, ← Ring.skip_next,
    Ring.skip_zero]

/-- A fetch leaves fewer characters to be read. -/
theorem length_unread_getc {c : BitVec 8} {t : Mylog} (h : ringbuffgetcForRead s = some (c, t)) :
    t.unread.length < s.unread.length := by
  cases hs : s.unread with
  | nil =>
    rw [getc_of_nil s hs] at h
    cases h
  | cons d rest =>
    rw [getc_of_cons s hs] at h
    cases h
    rw [unread_advance s (by rw [hs]; simp), hs]
    simp

/-! ### `mymsg_read` -/

/-- `EAGAIN`. -/
def eagain : ℤ := 11

variable (putUser : ℕ → ℤ) (count : ℕ)

/-- The loop of `mymsg_read`, entered with `error` at zero: `error` and `i` after it, the bytes
given out, and the state. The character is fetched before `i < count` is tested. -/
def readLoop (s : Mylog) (i : ℕ) : ℤ × ℕ × List (BitVec 8) × Mylog :=
  match h : ringbuffgetcForRead s with
  | none => (0, i, [], s)
  | some (c, t) =>
    if i < count then
      let error := putUser i
      if error = 0 then
        have := length_unread_getc s h
        let (error, i, out, u) := readLoop t (i + 1)
        (error, i, c :: out, u)
      else (error, i + 1, [], t)
    else (0, i, [], t)
  termination_by s.unread.length

/-- `wait_event_interruptible(mymsg_waitq, !ringbuffempty_for_read())`. -/
def waitEventInterruptible (wait : Mylog → ℤ × Mylog) (s : Mylog) : ℤ × Mylog :=
  if ringbuffemptyForRead s then wait s else (0, s)

/-- `mymsg_read`: what it returns, the bytes given out, and the state after it. -/
def mymsgRead (nonblock : Bool) (wait : Mylog → ℤ × Mylog) (s : Mylog) :
    ℤ × List (BitVec 8) × Mylog :=
  if nonblock && ringbuffemptyForRead s then (-eagain, [], s)
  else
    let (error, s) := waitEventInterruptible wait s
    if error = 0 then
      let (error, i, out, s) := readLoop putUser count s 0
      (if error = 0 then i else error, out, s)
    else (error, [], s)

/-- With every byte accepted, the loop gives out what there is room for, and takes one
character more if there is one. -/
theorem readLoop_eq (hput : ∀ i, putUser i = 0) (i : ℕ) :
    readLoop putUser count s i = (0, i + (s.unread.take (count - i)).length,
      s.unread.take (count - i), s.advance (min (count - i + 1) s.unread.length)) := by
  induction hl : s.unread generalizing s i with
  | nil =>
    unfold readLoop
    split
    · simp
    · next h => rw [getc_of_nil s hl] at h; cases h
  | cons c rest ih =>
    have hg := getc_of_cons s hl
    have hrest : (s.advance 1).unread = rest := by
      rw [unread_advance s (by rw [hl]; simp), hl, List.drop_succ_cons, List.drop_zero]
    unfold readLoop
    split
    · next h => rw [hg] at h; cases h
    · next h =>
      rw [hg] at h
      cases h
      by_cases hi : i < count
      · have hcount : count - i = count - (i + 1) + 1 := by omega
        have hadv : 1 + min (count - (i + 1) + 1) rest.length =
          min (count - (i + 1) + 1 + 1) (rest.length + 1) := by omega
        rw [if_pos hi, if_pos (hput i), ih (s.advance 1) (i + 1) hrest, advance_advance, hcount,
          hadv]
        simp only [List.take_succ_cons, List.length_cons, Nat.add_assoc, Nat.add_comm 1]
      · have hcount : count - i = 0 := by omega
        rw [if_neg hi, hcount]
        simp

end S3c2440.Mymsg
