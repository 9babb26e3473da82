import S3c2440.Mymsg.Log
import S3c2440.Theory.Window

/-!
# The private log as a log with a cursor

The ring of the private log holds 1023 characters at most, and `ringbufffputc` drags the
reader's index along when it drops the character that the reader has before it. Seen from
outside it is a log of everything that was put, of which the last 1023 characters are kept,
and a position in it (`Theory.Window`).

The reader's index is the only one there is: whoever opens the file sets it back, and whoever
reads moves it on. Several open files share what is read.

## What is proved

* `Represents.step` — an operation of the ring does what it does to the log.
* `log_refines` — any sequence of operations gives what it gives on the log, and what is read
  between two openings are characters in order, each once, but for those overwritten.
* `readers_share` — from an opening on, whatever files are open get together what one would
  get alone; one that alone reads gets all of it.
* `readers_disturb` — a file that is read while another one is does not get what it has not.
-/

namespace S3c2440.Mymsg

open Theory

/-! ### The operations -/

/-- The log of which the ring is an implementation. -/
abbrev Ideal : Type := Window (BitVec 8) 1023

/-- What is done to the log: `mymsg_open`, `ringbufffputc`, `ringbuffgetc_for_read`. -/
abbrev LogOp : Type := Window.Op (BitVec 8)

/-- One operation, and the character that a fetch gets. -/
def logStep (s : Mylog) : LogOp → Mylog × Option (BitVec 8)
  | .rewind => (mymsgOpen s, none)
  | .put c => (ringbufffputc s c, none)
  | .get =>
    match ringbuffgetcForRead s with
    | none => (s, none)
    | some (c, t) => (t, some c)

/-! ### The ring represents the log -/

/-- The ring holds what is kept of the log, and the reader's index is at its position. -/
structure Represents (s : Mylog) (w : Ideal) : Prop where
  /-- From `mylog_r` to `mylog_w`. -/
  retained : s.retained = w.kept
  /-- `mylog_r_for_read`. -/
  cursor : s.mylogRForRead = Ring.skip s.mylogR (w.pos - w.oldest)

variable {s : Mylog} {w : Ideal}

theorem represents_init : Represents Mylog.init Window.empty := ⟨rfl, rfl⟩

theorem length_kept (w : Ideal) : w.kept.length = min w.chars.length 1023 := by
  rw [Window.kept, List.length_drop, Window.oldest, Window.oldestOf]
  omega

theorem Represents.ahead (h : Represents s w) :
    Ring.ahead s.mylogR s.mylogW = min w.chars.length 1023 := by
  rw [← Ring.length_seg s.mylogBuf, ← length_kept w, ← h.retained]
  rfl

/-- The ring is full when the log has lost a character, or is about to. -/
theorem Represents.full_iff (h : Represents s w) :
    Ring.next s.mylogW = s.mylogR ↔ 1023 ≤ w.chars.length := by
  rw [Ring.next_eq_iff, h.ahead]
  show _ = 1024 ↔ _
  omega

/-- What has not been read. -/
theorem Represents.unread (h : Represents s w) : s.unread = w.chars.drop w.pos := by
  have hold : w.oldest ≤ w.pos := w.oldest_le
  have hle : w.pos - w.oldest ≤ Ring.ahead s.mylogR s.mylogW := by
    have hlen := w.le_length
    rw [h.ahead]
    simp only [Window.oldest, Window.oldestOf] at hold ⊢
    omega
  calc s.unread
      = Ring.seg s.mylogBuf (Ring.skip s.mylogR (w.pos - w.oldest)) s.mylogW := by
        rw [Mylog.unread, h.cursor]
    _ = s.retained.drop (w.pos - w.oldest) := Ring.seg_skip _ hle
    _ = w.chars.drop w.pos := by
        rw [h.retained, Window.kept, List.drop_drop, Nat.add_sub_cancel' hold]

/-- The reader's index is at the oldest character if the position is. -/
theorem Represents.cursor_eq_iff (h : Represents s w) :
    s.mylogRForRead = s.mylogR ↔ w.pos = w.oldest := by
  have hold : w.oldest ≤ w.pos := w.oldest_le
  have hlen := w.le_length
  constructor
  · intro he
    have hlt : w.pos - w.oldest < mylogBufLen := by
      simp only [Window.oldest, Window.oldestOf] at hold ⊢
      show _ < 1024
      omega
    have h0 : w.pos - w.oldest = 0 :=
      Ring.skip_inj hlt s.mylogR.pos (by rw [← h.cursor, he, Ring.skip_zero])
    omega
  · intro he
    rw [h.cursor, he, Nat.sub_self, Ring.skip_zero]

/-! ### One operation -/

theorem Represents.open (h : Represents s w) : Represents (mymsgOpen s) w.rewind := by
  refine ⟨h.retained, ?_⟩
  show s.mylogR = Ring.skip s.mylogR (w.oldest - w.oldest)
  rw [Nat.sub_self, Ring.skip_zero]

/-- What is kept of the log with one character more. -/
theorem kept_put (w : Ideal) (c : BitVec 8) :
    (w.put c).kept = w.chars.drop (w.put c).oldest ++ [c] := by
  have hle : (w.put c).oldest ≤ w.chars.length := by
    rw [Window.oldest_put, Window.oldestOf]
    omega
  exact List.drop_append_of_le_length hle

/-- A character put into a ring that is not full. -/
theorem Represents.put_of_lt (h : Represents s w) (c : BitVec 8) (hlt : w.chars.length < 1023) :
    Represents (ringbufffputc s c) (w.put c) := by
  have hnext : Ring.next s.mylogW ≠ s.mylogR := fun he =>
    absurd (h.full_iff.mp he) (Nat.not_le.mpr hlt)
  have hfull : ¬ ringbufffull s = true := by simpa [ringbufffull] using hnext
  have hold : (w.put c).oldest = w.oldest := by
    rw [Window.oldest_put, Window.oldestOf_succ_of_lt hlt, Window.oldest]
  rw [ringbufffputc, if_neg hfull]
  constructor
  · rw [kept_put, hold]
    show Ring.seg _ s.mylogR (Ring.next s.mylogW) = w.kept ++ [c]
    rw [Ring.seg_push _ c hnext, ← h.retained]
    rfl
  · show s.mylogRForRead = Ring.skip s.mylogR _
    rw [Window.pos_put_of_lt hlt, hold, ← h.cursor]

/-- The cells of a full ring after its oldest character, and the one put. -/
theorem Represents.seg_of_le (h : Represents s w) (c : BitVec 8) (hle : 1023 ≤ w.chars.length) :
    Ring.seg (Function.update s.mylogBuf s.mylogW c) (Ring.next s.mylogR) (Ring.next s.mylogW) =
      (w.put c).kept := by
  have hne : s.mylogR ≠ s.mylogW := fun he => by
    have hahead := h.ahead
    rw [he, Ring.ahead_self] at hahead
    omega
  have hnext : Ring.next s.mylogW ≠ Ring.next s.mylogR := fun he => hne (Ring.next_inj he).symm
  have hseg : Ring.seg s.mylogBuf (Ring.next s.mylogR) s.mylogW = w.kept.drop 1 := by
    rw [← h.retained, Mylog.retained, Ring.seg_of_ne _ hne, List.drop_one, List.tail_cons]
  rw [Ring.seg_push _ c hnext, hseg, kept_put, Window.oldest_put, Window.oldestOf_succ_of_le hle,
    Window.kept, List.drop_drop]
  rfl

/-- A character put into a full ring: the oldest one goes, and the reader's index with it if it
is there. -/
theorem Represents.put_of_le (h : Represents s w) (c : BitVec 8) (hle : 1023 ≤ w.chars.length) :
    Represents (ringbufffputc s c) (w.put c) := by
  have hfull : ringbufffull s = true := decide_eq_true (h.full_iff.mpr hle)
  have hold : (w.put c).oldest = w.oldest + 1 := by
    rw [Window.oldest_put, Window.oldestOf_succ_of_le hle, Window.oldest]
  have hpos := Window.pos_put_of_le (c := c) hle
  rw [ringbufffputc, if_pos hfull]
  by_cases hc : s.mylogRForRead = s.mylogR
  · rw [if_pos (h.cursor_eq_iff.mp hc)] at hpos
    simp only [hc, if_true]
    refine ⟨h.seg_of_le c hle, ?_⟩
    show Ring.next s.mylogR = Ring.skip (Ring.next s.mylogR) _
    rw [hpos, hold, Nat.sub_self, Ring.skip_zero]
  · have hne : w.pos ≠ w.oldest := fun he => hc (h.cursor_eq_iff.mpr he)
    rw [if_neg hne] at hpos
    have hlt : w.oldest < w.pos := Nat.lt_of_le_of_ne w.oldest_le hne.symm
    simp only [if_neg fun he => hc (Ring.next_inj he)]
    refine ⟨h.seg_of_le c hle, ?_⟩
    show s.mylogRForRead = Ring.skip (Ring.next s.mylogR) _
    rw [hpos, hold, Ring.skip_next, h.cursor]
    congr 1
    omega

theorem Represents.put (h : Represents s w) (c : BitVec 8) :
    Represents (ringbufffputc s c) (w.put c) := by
  rcases Nat.lt_or_ge w.chars.length 1023 with hlt | hle
  · exact h.put_of_lt c hlt
  · exact h.put_of_le c hle

theorem Represents.getc (h : Represents s w) :
    (logStep s .get).2 = w.get.2 ∧ Represents (logStep s .get).1 w.get.1 := by
  have hunread := h.unread
  rcases Nat.lt_or_eq_of_le w.le_length with hlt | heq
  · rw [List.drop_eq_getElem_cons hlt] at hunread
    have hold : w.oldest ≤ w.pos := w.oldest_le
    rw [logStep, getc_of_cons s hunread, Window.get_of_lt hlt]
    refine ⟨rfl, h.retained, ?_⟩
    show Ring.skip s.mylogRForRead 1 = Ring.skip s.mylogR (w.pos + 1 - w.oldest)
    rw [h.cursor, Ring.skip_skip, Nat.sub_add_comm hold]
  · rw [heq, List.drop_length] at hunread
    rw [logStep, getc_of_nil s hunread, Window.get_of_eq heq]
    exact ⟨rfl, h⟩

/-- An operation of the ring does what it does to the log. -/
theorem Represents.step (s : Mylog) (w : Ideal) (a : LogOp) (h : Represents s w) :
    (logStep s a).2 = (w.step a).2 ∧ Represents (logStep s a).1 (w.step a).1 := by
  cases a with
  | rewind => exact ⟨rfl, h.open⟩
  | put c => exact ⟨rfl, h.put c⟩
  | get => exact h.getc

/-! ### Any sequence of operations -/

/-- The ring after some operations. -/
def ringAfter (as : List LogOp) : Mylog := after logStep Mylog.init as

/-- The log after them. -/
def idealAfter (as : List LogOp) : Ideal := after Window.step Window.empty as

theorem represents_after (as : List LogOp) :
    answers logStep Mylog.init as = answers Window.step (Window.empty : Ideal) as ∧
      Represents (ringAfter as) (idealAfter as) :=
  answers_eq_of_sim Represents.step represents_init as

theorem chars_idealAfter (as : List LogOp) : (idealAfter as).chars = Window.puts as :=
  Window.chars_after as

/-- What is read while nobody opens the file. -/
theorem reads_after (pre : List LogOp) {rest : List LogOp} (h : Window.Onward rest) :
    ∃ ps, Window.Reads (idealAfter pre) (idealAfter (pre ++ rest))
      (answers logStep (ringAfter pre) rest).reduceOption ps := by
  obtain ⟨-, ps, hps⟩ := Window.reads rest h (idealAfter pre)
  have hafter : idealAfter (pre ++ rest) = after Window.step (idealAfter pre) rest :=
    after_append _ _ _
  rw [(answers_eq_of_sim Represents.step (represents_after pre).2 rest).1, hafter]
  exact ⟨ps, hps⟩

/-- A fetch gets nothing exactly when everything has been read. -/
theorem Represents.getc_eq_none_iff (h : Represents s w) :
    ringbuffgetcForRead s = none ↔ w.pos = w.chars.length := by
  have hunread := h.unread
  constructor
  · intro hnone
    refine (Nat.lt_or_eq_of_le w.le_length).resolve_left fun hlt => ?_
    rw [List.drop_eq_getElem_cons hlt] at hunread
    rw [getc_of_cons s hunread] at hnone
    cases hnone
  · intro heq
    rw [heq, List.drop_length] at hunread
    exact getc_of_nil s hunread

/-- The private log is a log with a cursor: it answers any sequence of operations like one, and
holds what is kept of it. What is read from any point of the sequence on, as long as nobody
opens the file, are characters in order, each once, but for those overwritten. -/
theorem log_refines (as : List LogOp) :
    answers logStep Mylog.init as = answers Window.step (Window.empty : Ideal) as ∧
      Represents (ringAfter as) (idealAfter as) ∧ (idealAfter as).chars = Window.puts as ∧
      ∀ pre rest, as = pre ++ rest → Window.Onward rest → ∃ ps,
        Window.Reads (idealAfter pre) (idealAfter as)
          (answers logStep (ringAfter pre) rest).reduceOption ps := by
  obtain ⟨hans, hrep⟩ := represents_after as
  refine ⟨hans, hrep, chars_idealAfter as, ?_⟩
  rintro pre rest rfl h
  exact reads_after pre h

/-! ### Several readers -/

/-- An operation, by the open file it is done through. -/
inductive FileOp (H : Type) where
  /-- `mymsg_open`. -/
  | openFile (h : H)
  /-- `ringbufffputc`. -/
  | put (c : BitVec 8)
  /-- `ringbuffgetc_for_read` in `mymsg_read`. -/
  | getc (h : H)

variable {H : Type}

/-- The operation on the log. -/
def FileOp.op : FileOp H → LogOp
  | .openFile _ => .rewind
  | .put c => .put c
  | .getc _ => .get

/-- What has been done to the log when `h` is opened after `pre`. -/
def opened (h : H) (pre : List (FileOp H)) : List LogOp :=
  (pre ++ [FileOp.openFile h]).map FileOp.op

/-- The characters fetched, each with the file it was fetched through. -/
def fetched (s : Mylog) : List (FileOp H) → List (H × BitVec 8)
  | [] => []
  | .openFile _ :: as => fetched (mymsgOpen s) as
  | .put c :: as => fetched (ringbufffputc s c) as
  | .getc h :: as =>
    match ringbuffgetcForRead s with
    | none => fetched s as
    | some (c, t) => (h, c) :: fetched t as

/-- The characters fetched through `h`. -/
def received [DecidableEq H] (h : H) (s : Mylog) (as : List (FileOp H)) : List (BitVec 8) :=
  ((fetched s as).filter fun p => p.1 = h).map Prod.snd

/-- The characters are fetched in the order of the operations. -/
theorem fetched_eq (s : Mylog) (as : List (FileOp H)) : (fetched s as).map Prod.snd =
    (answers logStep s (as.map FileOp.op)).reduceOption := by
  induction as generalizing s with
  | nil => rfl
  | cons a as ih =>
    rw [List.map_cons, answers]
    cases a with
    | openFile h => exact ih _
    | put c => exact ih _
    | getc h =>
      rw [fetched, FileOp.op, logStep]
      cases ringbuffgetcForRead s with
      | none => exact ih _
      | some p => exact congrArg (p.1 :: ·) (ih _)

/-- What a file that is opened after `pre` and then used in `rest` is to get: the characters kept
at that moment and later ones, in order and each once, none passed over but those
overwritten. -/
def Undisturbed [DecidableEq H] (h : H) (pre rest : List (FileOp H)) : Prop :=
  let w := idealAfter (opened h pre)
  let w' := idealAfter (opened h pre ++ rest.map FileOp.op)
  ∃ ps : List ℕ, ps.Pairwise (· < ·) ∧
    (received h (ringAfter (opened h pre)) rest).map some = ps.map (fun p => w'.chars[p]?) ∧
    ∀ p ∈ ps, w.oldest ≤ p ∧ ∀ q, w.oldest ≤ q → q < p → q ∈ ps ∨ q < w'.oldest

/-- Nobody opens the file in `rest`. -/
def NoOpen (rest : List (FileOp H)) : Prop := ∀ h, FileOp.openFile h ∉ rest

/-- Nobody but `h` fetches in `rest`. -/
def Alone (h : H) (rest : List (FileOp H)) : Prop := ∀ h', FileOp.getc h' ∈ rest → h' = h

theorem NoOpen.onward {rest : List (FileOp H)} (h : NoOpen rest) :
    Window.Onward (rest.map FileOp.op) := by
  intro hm
  obtain ⟨a, ha, hop⟩ := List.mem_map.mp hm
  cases a with
  | openFile h' => exact h h' ha
  | put c => cases hop
  | getc h' => cases hop

theorem mem_fetched {rest : List (FileOp H)} {s : Mylog} {p : H × BitVec 8}
    (h : p ∈ fetched s rest) : FileOp.getc p.1 ∈ rest := by
  induction rest generalizing s with
  | nil => cases h
  | cons a as ih =>
    cases a with
    | openFile h' => exact List.mem_cons_of_mem _ (ih h)
    | put c => exact List.mem_cons_of_mem _ (ih h)
    | getc h' =>
      rw [fetched] at h
      cases hg : ringbuffgetcForRead s with
      | none =>
        rw [hg] at h
        exact List.mem_cons_of_mem _ (ih h)
      | some q =>
        rw [hg] at h
        rcases List.mem_cons.mp h with rfl | h
        · exact List.mem_cons_self ..
        · exact List.mem_cons_of_mem _ (ih h)

/-- One that alone fetches gets all that is fetched. -/
theorem received_of_alone [DecidableEq H] {h : H} {rest : List (FileOp H)} (halone : Alone h rest)
    (s : Mylog) : received h s rest = (fetched s rest).map Prod.snd := by
  refine congrArg (List.map Prod.snd) (List.filter_eq_self.mpr fun p hp => ?_)
  exact decide_eq_true (halone p.1 (mem_fetched hp))

/-- There is one cursor. The file is opened once more, and not again: whoever fetches from then
on, together they get the characters kept at that moment and later ones, in order and each
once, none passed over but those overwritten, until there is none left. One that alone
fetches gets all of them. -/
theorem readers_share [DecidableEq H] (h : H) (pre rest : List (FileOp H)) (hopen : NoOpen rest) :
    let s := ringAfter (opened h pre)
    let s' := ringAfter (opened h pre ++ rest.map FileOp.op)
    let w := idealAfter (opened h pre)
    let w' := idealAfter (opened h pre ++ rest.map FileOp.op)
    w.pos = w.oldest ∧ (∃ ps, Window.Reads w w' ((fetched s rest).map Prod.snd) ps) ∧
      (ringbuffgetcForRead s' = none ↔ w'.pos = w'.chars.length) ∧
      (Alone h rest → ∃ ps, Window.Reads w w' (received h s rest) ps) := by
  intro s s' w w'
  have hreads : ∃ ps, Window.Reads w w' ((fetched s rest).map Prod.snd) ps := by
    rw [fetched_eq]
    exact reads_after _ hopen.onward
  refine ⟨?_, hreads, (represents_after _).2.getc_eq_none_iff, fun halone => ?_⟩
  · have hlast : w = (idealAfter (pre.map FileOp.op)).rewind := by
      show idealAfter (List.map _ _) = _
      rw [List.map_append]
      exact after_append _ _ _
    rw [hlast]
    rfl
  · rw [received_of_alone halone]
    exact hreads

/-- The second of two files that are opened reads alone, while a character is put, and gets all
three. -/
theorem readers_share_alone :
    let pre : List (FileOp Bool) := [.put 97, .put 98, .openFile false]
    let rest := [.getc true, .put 99, .getc true, .getc true]
    received true (ringAfter (opened true pre)) rest = [97, 98, 99] ∧
      Window.Reads (idealAfter (opened true pre))
        (idealAfter (opened true pre ++ rest.map FileOp.op)) [97, 98, 99] [0, 1, 2] := by
  intro pre rest
  have hreceived : received true (ringAfter (opened true pre)) rest = [97, 98, 99] := by decide
  obtain ⟨ps, hps⟩ := (readers_share true pre rest (by simp [NoOpen, rest])).2.2.2
    (by simp [Alone, rest])
  rw [hreceived] at hps
  have hall : ps = [0, 1, 2] := hps.eq_range' (Nat.zero_le _)
  exact ⟨hreceived, hall ▸ hps⟩

/-- Two files are opened, and the first to be read takes the character that the other one should
get too. -/
theorem readers_disturb : ¬ ∀ (h : Bool) (pre rest : List (FileOp Bool)),
    FileOp.openFile h ∉ rest → Undisturbed h pre rest := by
  intro h
  obtain ⟨ps, -, hchars, hall⟩ := h true [.put 97, .put 98, .openFile false]
    [.getc false, .getc true] (by simp)
  have hreceived : received true (ringAfter (opened true [.put 97, .put 98, .openFile false]))
      [.getc false, .getc true] = [98] := by decide
  rw [hreceived] at hchars
  obtain ⟨p, rfl⟩ : ∃ p, ps = [p] := by
    rw [← List.length_eq_one_iff, ← List.length_map, ← hchars]
    rfl
  have hp : some (98 : BitVec 8) = [97, 98][p]? := (List.cons.inj hchars).1
  obtain rfl : p = 1 := by
    obtain ⟨hlt, hget⟩ := List.getElem?_eq_some_iff.mp hp.symm
    refine (Nat.lt_or_eq_of_le (Nat.le_of_lt_succ hlt)).resolve_left fun h0 => ?_
    obtain rfl : p = 0 := Nat.lt_one_iff.mp h0
    cases hget
  -- the character at 0 has not been overwritten
  rcases (hall 1 (List.mem_cons_self ..)).2 0 (Nat.zero_le _) Nat.one_pos with hm | hlost
  · simp at hm
  · exact absurd hlost (Nat.not_lt_zero _)

end S3c2440.Mymsg
