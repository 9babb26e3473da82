import Mathlib.Data.List.Induction
import Mathlib.Logic.Function.Basic

/-!
# Cells that are written and read

An array of cells, as what has been done to it: a list of writes and reads, the oldest first, each
read with the value it gave. What a cell holds is the value last written to it.

## What is proved

* `held_append`, `held_writes` — what the cells hold after more accesses, and after a block
  of writes.
* `answers_append`, `answers_reads`, `answers_iff` — reads that give what was last written, one after
  another.
* `update_overlay` — cells that are copied one after another.
-/

namespace Theory.Cells

universe u v

variable {ι : Type u} {β : Type v} [DecidableEq ι]

/-- What is done to a cell. -/
inductive Access (ι : Type u) (β : Type v) where
  /-- A value is written. -/
  | write (i : ι) (v : β)
  /-- A value is read. -/
  | read (i : ι) (v : β)

/-- What an access writes to cell `i`. -/
def Access.written (i : ι) : Access ι β → Option β
  | .write j v => if j = i then some v else none
  | .read _ _ => none

/-- The value last written to cell `i`. -/
def lastWritten (i : ι) : List (Access ι β) → Option β
  | [] => none
  | a :: as => (lastWritten i as).or (a.written i)

/-- What the cells hold after the accesses, if they held `c` before. -/
def held (c : ι → β) (as : List (Access ι β)) (i : ι) : β := (lastWritten i as).getD (c i)

/-- Every read gives what its cell holds. -/
def Answers (c : ι → β) : List (Access ι β) → Prop
  | [] => True
  | .write i v :: as => Answers (Function.update c i v) as
  | .read i v :: as => v = c i ∧ Answers c as

variable {c : ι → β} {as bs : List (Access ι β)} {i : ι} {v : β}

theorem lastWritten_append :
    lastWritten i (as ++ bs) = (lastWritten i bs).or (lastWritten i as) := by
  induction as with
  | nil => simp [lastWritten]
  | cons a as ih => rw [List.cons_append, lastWritten, lastWritten, ih, Option.or_assoc]

@[simp] theorem held_nil : held c [] = c := rfl

theorem held_append : held c (as ++ bs) = held (held c as) bs := by
  funext i
  rw [held, held, held, lastWritten_append]
  cases lastWritten i bs <;> rfl

theorem held_write : held c [.write i v] = Function.update c i v := by
  funext j
  by_cases hj : j = i
  · subst hj
    simp [held, lastWritten, Access.written]
  · simp [held, lastWritten, Access.written, hj, Ne.symm hj]

theorem held_read : held c [.read i v] = c := rfl

theorem held_write_cons : held c (.write i v :: as) = held (Function.update c i v) as := by
  rw [← held_write, ← held_append]
  rfl

theorem held_read_cons : held c (.read i v :: as) = held c as := by
  rw [← List.singleton_append, held_append, held_read]

theorem answers_append : Answers c (as ++ bs) ↔ Answers c as ∧ Answers (held c as) bs := by
  induction as generalizing c with
  | nil => simp [Answers]
  | cons a as ih =>
    cases a with
    | write i v => rw [List.cons_append, Answers, Answers, ih, held_write_cons]
    | read i v => rw [List.cons_append, Answers, Answers, ih, held_read_cons, and_assoc]

/-- Each read gives what was last written to its cell, or what the cell held at first. -/
theorem answers_iff : Answers c as ↔
    ∀ bs i v cs, as = bs ++ .read i v :: cs → v = (lastWritten i bs).getD (c i) := by
  constructor
  · rintro h bs i v cs rfl
    exact (answers_append.mp h).2.1
  · intro h
    suffices hpre : ∀ bs cs, as = bs ++ cs → Answers c bs from hpre as [] (List.append_nil as).symm
    intro bs
    induction bs using List.reverseRecOn with
    | nil => exact fun _ _ => trivial
    | append_singleton bs a ih =>
      intro cs hcs
      have hbs := ih (a :: cs) (by rw [hcs, List.append_assoc]; rfl)
      refine answers_append.mpr ⟨hbs, ?_⟩
      cases a with
      | write i v => trivial
      | read i v => exact ⟨h bs i v cs (by rw [hcs, List.append_assoc]; rfl), trivial⟩

/-! ### Blocks of numbered cells -/

section Blocks

variable {c : ℕ → β} (f : ℕ → β) (b n : ℕ)

/-- Writes to cells that follow one another. -/
theorem held_writes (i : ℕ) : held c ((List.range n).map fun k => .write (b + k) (f k)) i =
    if b ≤ i ∧ i < b + n then f (i - b) else c i := by
  induction n with
  | zero =>
    rw [if_neg (by omega)]
    rfl
  | succ n ih =>
    rw [List.range_succ, List.map_append, held_append, List.map_singleton, held_write]
    by_cases hi : i = b + n
    · rw [hi, Function.update_self, if_pos (by omega), Nat.add_sub_cancel_left]
    · rw [Function.update_of_ne hi, ih]
      exact if_congr (by omega) rfl rfl

/-- Reads of cells that follow one another leave them as they are. -/
theorem held_reads (i : ℕ) :
    held c ((List.range n).map fun k => .read (b + k) (f k)) i = c i := by
  induction n with
  | zero => rfl
  | succ n ih =>
    rw [List.range_succ, List.map_append, held_append, List.map_singleton, held_read, ih]

theorem answers_writes : Answers c ((List.range n).map fun k => .write (b + k) (f k)) := by
  induction n with
  | zero => trivial
  | succ n ih =>
    rw [List.range_succ, List.map_append]
    exact answers_append.mpr ⟨ih, trivial⟩

theorem answers_reads : Answers c ((List.range n).map fun k => .read (b + k) (f k)) ↔
    ∀ k < n, f k = c (b + k) := by
  induction n with
  | zero => exact iff_of_true trivial fun _ hk => absurd hk (Nat.not_lt_zero _)
  | succ n ih =>
    rw [List.range_succ, List.map_append, answers_append, ih, List.map_singleton]
    simp only [Answers, held_reads, and_true]
    constructor
    · rintro ⟨hall, hlast⟩ k hk
      rcases Nat.lt_succ_iff_lt_or_eq.mp hk with hlt | rfl
      · exact hall k hlt
      · exact hlast
    · exact fun h => ⟨fun k hk => h k (Nat.lt_succ_of_lt hk), h n (Nat.lt_succ_self n)⟩

end Blocks

/-! ### One block over another -/

/-- What `g` has from `b` up to `n`, and `f` elsewhere. -/
def overlay (f g : ℕ → β) (b n : ℕ) : ℕ → β := fun i => if b ≤ i ∧ i < n then g i else f i

section Overlay

variable (f g : ℕ → β) {b n i : ℕ}

theorem overlay_self : overlay f g b b = f := by
  funext i
  rw [overlay, if_neg (by omega)]

theorem overlay_of_mem (hb : b ≤ i) (hn : i < n) : overlay f g b n i = g i := if_pos ⟨hb, hn⟩

/-- One more cell. -/
theorem update_overlay (hb : b ≤ n) :
    Function.update (overlay f g b n) n (g n) = overlay f g b (n + 1) := by
  funext i
  by_cases hi : i = n
  · rw [hi, Function.update_self, overlay_of_mem f g hb (Nat.lt_succ_self n)]
  · rw [Function.update_of_ne hi]
    exact if_congr (by omega) rfl rfl

end Overlay

end Theory.Cells
