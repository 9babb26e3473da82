import S3c2440.Mymsg.Log

/-!
# Reading the private log

A file is opened and read again and again while nobody writes. The loop of `mymsg_read`
fetches a character before it looks whether there is room for it, so a read with fewer
bytes than there are characters drops the first character it has no room for.

## What is proved

* `mymsgRead_eq` — what one read gives out and how far it moves the reader.
* `reading_loses_nothing_iff` — what the reads give out together is the beginning of the log,
  and the reader stands right behind it, if and only if no read asked for fewer bytes than the
  log had; `reading_loses_a_character` is a run with a read that did.
-/

namespace S3c2440.Mymsg

open Theory

variable {nonblock : Bool} {wait : Mylog → ℤ × Mylog} {s t : Mylog} {counts : List ℕ}
  {out : List (BitVec 8)}

/-! ### One read -/

/-- A read of a log that is not empty, with every byte accepted. -/
theorem mymsgRead_eq (count : ℕ) (h : ringbuffemptyForRead s = false) :
    mymsgRead (fun _ => 0) count nonblock wait s = (((s.unread.take count).length : ℤ),
      s.unread.take count, s.advance (min (count + 1) s.unread.length)) := by
  simp [mymsgRead, waitEventInterruptible, h, readLoop_eq s (fun _ => 0) count fun _ => rfl]

/-! ### A sequence of reads -/

/-- Reads with the given counts, each with something to be read before it; what they give out
together, and the state after them. -/
def reads (nonblock : Bool) (wait : Mylog → ℤ × Mylog) (s : Mylog) :
    List ℕ → Option (List (BitVec 8) × Mylog)
  | [] => some ([], s)
  | count :: counts =>
    if ringbuffemptyForRead s then none
    else
      let (_, out, t) := mymsgRead (fun _ => 0) count nonblock wait s
      (reads nonblock wait t counts).map fun (outs, u) => (out ++ outs, u)

theorem reads_cons {count : ℕ} : reads nonblock wait s (count :: counts) = some (out, t) ↔
    ringbuffemptyForRead s = false ∧
      ∃ outs, reads nonblock wait (s.advance (min (count + 1) s.unread.length)) counts =
        some (outs, t) ∧ out = s.unread.take count ++ outs := by
  cases h : ringbuffemptyForRead s with
  | true => simp [reads, h]
  | false =>
    simp only [reads, h, mymsgRead_eq count h, Bool.false_eq_true, if_false, true_and,
      Option.map_eq_some_iff, Prod.exists, Prod.mk.injEq]
    constructor
    · rintro ⟨outs, u, hr, rfl, rfl⟩
      exact ⟨outs, hr, rfl⟩
    · rintro ⟨outs, hr, rfl⟩
      exact ⟨outs, t, hr, rfl, rfl⟩

/-- The reader moves at least as far as it has been given characters. -/
theorem reads_advance (h : reads nonblock wait s counts = some (out, t)) :
    ∃ k, out.length ≤ k ∧ k ≤ s.unread.length ∧ t = s.advance k := by
  induction counts generalizing s out with
  | nil =>
    cases h
    exact ⟨0, le_refl _, Nat.zero_le _, (advance_zero _).symm⟩
  | cons count counts ih =>
    obtain ⟨-, outs, hrest, rfl⟩ := reads_cons.mp h
    obtain ⟨k, hlen, hk, rfl⟩ := ih hrest
    rw [unread_advance _ (Nat.min_le_right ..), List.length_drop] at hk
    refine ⟨min (count + 1) s.unread.length + k, ?_, by omega, advance_advance s _ k⟩
    rw [List.length_append, List.length_take]
    omega

/-- After everything has been read, no read is left. -/
theorem reads_of_nil (hs : s.unread = []) (h : reads nonblock wait s counts = some (out, t)) :
    counts = [] ∧ out = [] ∧ t = s := by
  cases counts with
  | nil => cases h; exact ⟨rfl, rfl, rfl⟩
  | cons count counts =>
    have he := (reads_cons.mp h).1
    rw [(ringbuffemptyForRead_iff s).mpr hs] at he
    cases he

/-- What has been given out is the beginning of `log`, and the reader, who started at `r`,
stands right behind it, at the end only if that is all. -/
structure Kept (log : List (BitVec 8)) (r : Fin mylogBufLen) (out : List (BitVec 8))
    (t : Mylog) : Prop where
  /-- Nothing is missing from what was given out. -/
  given : out <+: log
  /-- Nothing was skipped. -/
  cursor : t.mylogRForRead = Ring.skip r out.length
  /-- Reading until nothing is left gives the whole log. -/
  whole : ringbuffemptyForRead t = true → out = log

/-- The reads after an open lose nothing if and only if none of them asks for fewer bytes than
the log holds. -/
theorem reading_loses_nothing_iff (nonblock : Bool) (wait : Mylog → ℤ × Mylog) (s : Mylog)
    (counts : List ℕ) (out : List (BitVec 8)) (t : Mylog)
    (h : reads nonblock wait (mymsgOpen s) counts = some (out, t)) :
    Kept s.retained s.mylogR out t ↔ ∀ count ∈ counts, s.retained.length ≤ count := by
  cases counts with
  | nil =>
    cases h
    refine ⟨fun _ => nofun, fun _ => ⟨List.nil_prefix, (Ring.skip_zero _).symm, ?_⟩⟩
    exact fun he => ((ringbuffemptyForRead_iff _).mp he).symm
  | cons count counts =>
    obtain ⟨-, outs, hrest, rfl⟩ := reads_cons.mp h
    rw [unread_open] at hrest ⊢
    by_cases hc : s.retained.length ≤ count
    · have hall : min (count + 1) s.retained.length = s.retained.length := by omega
      have hnil : ((mymsgOpen s).advance s.retained.length).unread = [] := by
        rw [unread_advance _ (by rw [unread_open]), unread_open, List.drop_length]
      rw [hall] at hrest
      obtain ⟨rfl, rfl, rfl⟩ := reads_of_nil hnil hrest
      rw [List.append_nil, List.take_of_length_le hc]
      refine ⟨fun _ c hmem => ?_, fun _ => ⟨List.prefix_refl _, rfl, fun _ => rfl⟩⟩
      rwa [List.mem_singleton.mp hmem]
    · refine ⟨fun hkept => ?_, fun hall => absurd (hall count List.mem_cons_self) hc⟩
      -- the reader has moved over at least one character that was not given out
      obtain ⟨k, hlen, hk, rfl⟩ := reads_advance hrest
      have hmin : min (count + 1) s.retained.length = count + 1 := by omega
      have hlt := length_unread_lt (mymsgOpen s)
      rw [hmin, unread_advance _ (by rw [unread_open]; omega), unread_open,
        List.length_drop] at hk
      have hcursor := hkept.cursor
      rw [hmin, advance_advance, List.length_append, List.length_take] at hcursor
      rw [unread_open] at hlt
      have heq := Ring.skip_inj (by omega) (by omega) hcursor
      omega

/-- The log of a driver that has put two characters. -/
def twoPut : Mylog := ringbufffputc (ringbufffputc .init 104) 105

theorem unread_twoPut : (mymsgOpen twoPut).unread = [104, 105] := by decide

/-- Read with room for both. -/
theorem reading_loses_nothing_two :
    Kept twoPut.retained twoPut.mylogR [104, 105] ((mymsgOpen twoPut).advance 2) :=
  (reading_loses_nothing_iff true (fun s => (0, s)) twoPut [2] [104, 105]
    ((mymsgOpen twoPut).advance 2)
    (reads_cons.mpr ⟨by decide, [], by rw [unread_twoPut]; rfl, by decide⟩)).mpr (by decide)

/-- Read with room for one: the second character is fetched too, and lost. -/
theorem reading_loses_a_character : ¬ ∀ (nonblock : Bool) (wait : Mylog → ℤ × Mylog) (s : Mylog)
    (counts : List ℕ) (out : List (BitVec 8)) (t : Mylog),
    reads nonblock wait (mymsgOpen s) counts = some (out, t) →
      Kept s.retained s.mylogR out t := by
  intro h
  have hkept := h true (fun s => (0, s)) twoPut [1] [104] ((mymsgOpen twoPut).advance 2)
    (reads_cons.mpr ⟨by decide, [], by rw [unread_twoPut]; rfl, by decide⟩)
  exact absurd hkept.cursor (by decide)

end S3c2440.Mymsg
