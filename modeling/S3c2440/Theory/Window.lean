import Mathlib.Data.List.Basic
import Mathlib.Data.List.ReduceOption
import Mathlib.Data.List.Sort

/-!
# A log of bounded length and a reader of it

An append-only log of which only the last `cap` characters are kept, and a position in it
from which one reads on. The position is an absolute one, so it says which characters have
been read; it goes back to the oldest character kept when the reader asks for it, and is
pushed on when the character under it is lost.

A machine that answers is one that gives an answer for every input; its run is the list of
its answers.

## What is proved

* `answers_eq_of_sim` — two machines that answer alike, step by step, answer alike.
* `Window.reads` — what is read between two returns to the oldest character: characters in
  the order of their positions, each once, and those passed over have been lost.
-/

namespace Theory

universe u v w

/-! ### Machines that answer -/

section Answers

variable {σ : Type u} {τ : Type*} {ι : Type v} {ο : Type w}

/-- The state after the inputs `as`. -/
def after (step : σ → ι → σ × ο) (s : σ) (as : List ι) : σ :=
  as.foldl (fun s a => (step s a).1) s

/-- The answers to the inputs `as`. -/
def answers (step : σ → ι → σ × ο) : σ → List ι → List ο
  | _, [] => []
  | s, a :: as => (step s a).2 :: answers step (step s a).1 as

variable {step : σ → ι → σ × ο} {step' : τ → ι → τ × ο}

@[simp] theorem after_nil (s : σ) : after step s [] = s := rfl

theorem after_cons (s : σ) (a : ι) (as : List ι) :
    after step s (a :: as) = after step (step s a).1 as := rfl

theorem after_append (s : σ) (as bs : List ι) :
    after step s (as ++ bs) = after step (after step s as) bs := List.foldl_append ..

/-- Machines related by a relation that their steps keep, with equal answers, give equal answers
to the same inputs and stay related. -/
theorem answers_eq_of_sim {R : σ → τ → Prop}
    (hstep : ∀ s t a, R s t → (step s a).2 = (step' t a).2 ∧ R (step s a).1 (step' t a).1)
    {s : σ} {t : τ} (h : R s t) (as : List ι) :
    answers step s as = answers step' t as ∧ R (after step s as) (after step' t as) := by
  induction as generalizing s t with
  | nil => exact ⟨rfl, h⟩
  | cons a as ih =>
    obtain ⟨hans, hrel⟩ := hstep s t a h
    obtain ⟨hrest, hlast⟩ := ih hrel
    exact ⟨by rw [answers, answers, hans, hrest], hlast⟩

end Answers

/-! ### The window -/

/-- The position of the oldest character kept, after `n` characters. -/
def Window.oldestOf (cap n : ℕ) : ℕ := n - min n cap

/-- A log and a position in the part of it that is kept, its last `cap` characters. -/
@[ext] structure Window (α : Type u) (cap : ℕ) where
  /-- Every character put so far. -/
  chars : List α
  /-- The position of the next character to be read. -/
  pos : ℕ
  /-- It is not before the oldest character kept. -/
  oldest_le : Window.oldestOf cap chars.length ≤ pos
  /-- Nor beyond the end. -/
  le_length : pos ≤ chars.length

/-- What can be asked for. -/
inductive Window.Op (α : Type u) where
  /-- Go back to the oldest character kept. -/
  | rewind
  /-- Put a character. -/
  | put (c : α)
  /-- Read the next character. -/
  | get

namespace Window

variable {α : Type u} {cap : ℕ}

/-- Nothing has been put. -/
def empty : Window α cap := ⟨[], 0, Nat.le_of_eq (Nat.zero_sub _), Nat.le_refl _⟩

variable (w : Window α cap)

/-- The position of the oldest character kept. -/
def oldest : ℕ := oldestOf cap w.chars.length

/-- The characters kept. -/
def kept : List α := w.chars.drop w.oldest

/-- The position goes back to the oldest character. -/
def rewind : Window α cap := ⟨w.chars, w.oldest, Nat.le_refl _, Nat.sub_le _ _⟩

/-- A character is put; the position moves if the character under it is lost, and then to the
oldest one kept. -/
def put (c : α) : Window α cap where
  chars := w.chars ++ [c]
  pos :=
    if w.pos < oldestOf cap (w.chars.length + 1) then oldestOf cap (w.chars.length + 1) else w.pos
  oldest_le := by
    rw [List.length_append, List.length_singleton]
    split <;> omega
  le_length := by
    have hpos := w.le_length
    have hold : oldestOf cap (w.chars.length + 1) ≤ w.chars.length + 1 := Nat.sub_le _ _
    rw [List.length_append, List.length_singleton]
    split <;> omega

/-- The character at the position is read, if there is one, and the position moves past it. -/
def get : Window α cap × Option α :=
  if h : w.pos < w.chars.length then
    (⟨w.chars, w.pos + 1, Nat.le_succ_of_le w.oldest_le, h⟩, some w.chars[w.pos])
  else (w, none)

/-- One step, and the character that it reads. -/
def step (w : Window α cap) : Op α → Window α cap × Option α
  | .rewind => (w.rewind, none)
  | .put c => (w.put c, none)
  | .get => w.get

/-- The characters put by `as`. -/
def puts (as : List (Op α)) : List α :=
  as.filterMap fun | .put c => some c | _ => none

/-! ### One step -/

variable {w}

theorem get_of_lt (h : w.pos < w.chars.length) : w.get =
    (⟨w.chars, w.pos + 1, Nat.le_succ_of_le w.oldest_le, h⟩, some w.chars[w.pos]) := dif_pos h

theorem get_of_eq (h : w.pos = w.chars.length) : w.get = (w, none) :=
  dif_neg fun hlt => Nat.ne_of_lt hlt h

theorem oldestOf_succ_of_lt {n : ℕ} (h : n < cap) : oldestOf cap (n + 1) = oldestOf cap n := by
  unfold oldestOf
  omega

theorem oldestOf_succ_of_le {n : ℕ} (h : cap ≤ n) : oldestOf cap (n + 1) = oldestOf cap n + 1 := by
  unfold oldestOf
  omega

theorem oldestOf_mono {m n : ℕ} (h : m ≤ n) : oldestOf cap m ≤ oldestOf cap n := by
  unfold oldestOf
  omega

theorem oldest_put (c : α) : (w.put c).oldest = oldestOf cap (w.chars.length + 1) := by
  rw [oldest, put, List.length_append, List.length_singleton]

theorem pos_put (c : α) : (w.put c).pos =
    if w.pos < oldestOf cap (w.chars.length + 1) then oldestOf cap (w.chars.length + 1)
    else w.pos := rfl

/-- While nothing is lost the position stays. -/
theorem pos_put_of_lt {c : α} (h : w.chars.length < cap) : (w.put c).pos = w.pos := by
  rw [pos_put, oldestOf_succ_of_lt h]
  exact if_neg (Nat.not_lt.mpr w.oldest_le)

/-- Otherwise it moves if it was at the character that is lost. -/
theorem pos_put_of_le {c : α} (h : cap ≤ w.chars.length) :
    (w.put c).pos = if w.pos = w.oldest then w.oldest + 1 else w.pos := by
  have hpos : w.oldest ≤ w.pos := w.oldest_le
  rw [pos_put, oldestOf_succ_of_le h, ← oldest]
  split_ifs <;> omega

theorem chars_step (a : Op α) : (w.step a).1.chars = w.chars ++ puts [a] := by
  cases a with
  | rewind => exact (List.append_nil _).symm
  | put c => rfl
  | get =>
    rw [step]
    rcases Nat.lt_or_eq_of_le w.le_length with h | h
    · rw [get_of_lt h]
      exact (List.append_nil _).symm
    · rw [get_of_eq h]
      exact (List.append_nil _).symm

/-- The log is what has been put. -/
theorem chars_after (as : List (Op α)) : (after step w as).chars = w.chars ++ puts as := by
  induction as generalizing w with
  | nil => exact (List.append_nil _).symm
  | cons a as ih =>
    have hputs : puts (a :: as) = puts [a] ++ puts as := List.filterMap_append (l := [a]) ..
    rw [after_cons, ih, chars_step, List.append_assoc, hputs]

/-- What is lost stays lost. -/
theorem oldest_le_after (as : List (Op α)) : w.oldest ≤ (after step w as).oldest := by
  have hlen := congrArg List.length (chars_after (w := w) as)
  rw [List.length_append] at hlen
  exact oldestOf_mono (by omega)

/-! ### What is read -/

/-- What is read without going back: the characters at increasing positions, all from the
position on, where those passed over have been lost. -/
structure Reads (w w' : Window α cap) (out : List α) (ps : List ℕ) : Prop where
  /-- In order, and each once. -/
  increasing : ps.Pairwise (· < ·)
  /-- The characters put at these positions. -/
  chars : out.map some = ps.map fun p => w'.chars[p]?
  /-- Only positions that have been gone past. -/
  bounds : ∀ p ∈ ps, w.pos ≤ p ∧ p < w'.pos
  /-- And all of these but those that are lost. -/
  lost : ∀ p, w.pos ≤ p → p < w'.pos → p ∈ ps ∨ p < w'.oldest

/-- The machine does not go back in `as`. -/
def Onward (as : List (Op α)) : Prop := Op.rewind ∉ as

theorem Reads.refl (w : Window α cap) : Reads w w [] [] where
  increasing := .nil
  chars := rfl
  bounds := fun _ h => nomatch h
  lost := fun _ h h' => absurd h (Nat.not_le.mpr h')

/-- While nothing in front of the position is lost, every character gone past has been read. -/
theorem Reads.eq_range' {w' : Window α cap} {out : List α} {ps : List ℕ} (h : Reads w w' out ps)
    (hold : w'.oldest ≤ w.pos) : ps = List.range' w.pos (w'.pos - w.pos) := by
  refine h.increasing.eq_of_mem_iff List.pairwise_lt_range' fun p => ?_
  rw [List.mem_range'_1]
  constructor
  · intro hp
    have hbounds := h.bounds p hp
    omega
  · intro hp
    exact (h.lost p (by omega) (by omega)).resolve_right (by omega)

/-- A character put may push the position on, over characters that it loses. -/
theorem Reads.put {w' : Window α cap} {out : List α} {ps : List ℕ} {c : α}
    (h : Reads (w.put c) w' out ps) (hold : (w.put c).oldest ≤ w'.oldest) :
    Reads w w' out ps := by
  have hpos : w.pos ≤ (w.put c).pos := by
    rw [pos_put]
    split <;> omega
  refine ⟨h.increasing, h.chars, fun p hp => ?_, fun p hp hp' => ?_⟩
  · obtain ⟨hle, hlt⟩ := h.bounds p hp
    exact ⟨Nat.le_trans hpos hle, hlt⟩
  · by_cases hq : (w.put c).pos ≤ p
    · exact h.lost p hq hp'
    · right
      rw [pos_put, ← oldest_put c] at hq
      split at hq <;> omega

/-- A character that is read is the first of what is read from here on. -/
theorem Reads.get {w' : Window α cap} {out : List α} {ps : List ℕ}
    (hlt : w.pos < w.chars.length) (h : Reads w.get.1 w' out ps) (hpre : w.chars <+: w'.chars)
    (hpos : w.pos < w'.pos) : Reads w w' (w.chars[w.pos] :: out) (w.pos :: ps) := by
  rw [get_of_lt hlt] at h
  refine ⟨List.pairwise_cons.mpr ⟨fun p hp => (h.bounds p hp).1, h.increasing⟩, ?_, ?_, ?_⟩
  · have hchar : w'.chars[w.pos]? = some w.chars[w.pos] := by
      rw [hpre.getElem hlt]
      exact List.getElem?_eq_getElem _
    rw [List.map_cons, List.map_cons, h.chars, hchar]
  · intro p hp
    rcases List.mem_cons.mp hp with rfl | hp
    · exact ⟨Nat.le_refl _, hpos⟩
    · obtain ⟨hle, hlt'⟩ := h.bounds p hp
      exact ⟨Nat.le_of_succ_le hle, hlt'⟩
  · intro p hp hp'
    rcases Nat.lt_or_eq_of_le hp with hp | rfl
    · exact (h.lost p hp hp').imp_left (List.mem_cons_of_mem _)
    · exact .inl (List.mem_cons_self ..)

/-- What is read while the reader does not go back. -/
theorem reads (as : List (Op α)) (h : Onward as) (w : Window α cap) :
    w.pos ≤ (after step w as).pos ∧
      ∃ ps, Reads w (after step w as) (answers step w as).reduceOption ps := by
  induction as generalizing w with
  | nil => exact ⟨Nat.le_refl _, [], Reads.refl w⟩
  | cons a as ih =>
    obtain ⟨hpos, ps, hps⟩ := ih (fun hm => h (List.mem_cons_of_mem _ hm)) (w.step a).1
    cases a with
    | rewind => exact absurd (List.mem_cons_self ..) h
    | put c =>
      refine ⟨Nat.le_trans ?_ hpos, ps, Reads.put hps (oldest_le_after as)⟩
      rw [step, pos_put]
      split <;> omega
    | get =>
      rcases Nat.lt_or_eq_of_le w.le_length with hlt | heq
      · have hpre : w.chars <+: (after step w (.get :: as)).chars :=
          ⟨_, (chars_after _).symm⟩
        have hget := get_of_lt hlt
        have hlt' : w.pos < (after step w (.get :: as)).pos := by
          rw [after_cons, step, hget]
          rw [step, hget] at hpos
          exact hpos
        refine ⟨Nat.le_of_lt hlt', w.pos :: ps, ?_⟩
        rw [answers, step, hget, List.reduceOption_cons_of_some, ← hget]
        exact Reads.get hlt hps hpre hlt'
      · rw [step, get_of_eq heq] at hpos hps
        rw [answers, after_cons, step, get_of_eq heq, List.reduceOption_cons_of_none]
        exact ⟨hpos, ps, hps⟩

end Window

end Theory
