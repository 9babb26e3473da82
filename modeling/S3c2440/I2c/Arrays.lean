import S3c2440.I2c.Menu

/-!
# The arrays of 100 bytes

`get_int`, `get_uint` and `do_write_at24cxx` each have a line typed into an array of 100 bytes.
`gets` gets the array without its size, and ends only at a newline or a carriage return, for which
it stores the NUL. `getsStores` is what it stores and where, of the characters that have come, also
when it is still waiting.

## What is proved

* `getsStores_fst`, `getsStores_snd` — these are the stores of `gets`.
* `respected_iff` — exactly when no call of `gets` by the three stores outside its array, and each
  leaves a NUL in it; `respected_over` is one that does not.
-/

namespace S3c2440.I2c

open Console

/-! ### The stores of a line -/

/-- Where `gets` stores what, with `i` characters stored so far. -/
def getsStores (i : ℕ) : List (BitVec 8) → List (ℕ × BitVec 8)
  | [] => []
  | c :: input => if isNewline c then [(i, 0)] else (i, c) :: getsStores (i + 1) input

/-- A function that calls `gets` with an array of 100 bytes. -/
inductive Caller where
  /-- `get_int`. -/
  | getInt
  /-- `get_uint`. -/
  | getUint
  /-- `do_write_at24cxx`. -/
  | doWriteAt24cxx
  deriving DecidableEq

/-- The serial line at each of these calls, `get_uint`'s by `do_write_at24cxx` included. -/
def Caller.calls (stack : ℕ → BitVec 8) (sys : Sys) (u : Uart) : Caller → List Uart
  | .getInt => [u]
  | .getUint => [u]
  | .doWriteAt24cxx =>
    (u.printf "Enter the address of sector to write: " []).toList ++
      match I2c.doWriteAt24cxx stack ⟨.address, u, sys⟩ with
      | some ⟨.string _, u, _⟩ => (u.printf "Enter the string to write: " []).toList
      | _ => []

/-- The array is respected: nothing is stored outside it, and there is a NUL in it at the end. -/
structure Respected (stack : ℕ → BitVec 8) (u : Uart) : Prop where
  /-- The stores. -/
  stores : ∀ p ∈ getsStores 0 u.input, p.1 < 100
  /-- The NUL. -/
  nul : ∀ str u', gets u = some (str, u') → ∃ i < 100, strArray stack str i = 0

/-- A newline or a carriage return is among the first 100 characters, or there are no more yet. -/
def InTime (input : List (BitVec 8)) : Prop :=
  input.length ≤ 100 ∨ ∃ c ∈ input.take 100, isNewline c = true

variable {stack : ℕ → BitVec 8} {u u' : Uart} {s str line rest input : List (BitVec 8)} {i n : ℕ}

/-! ### They are the stores of `gets` -/

/-- The stores go upwards from `i`, one by one. -/
theorem getsStores_fst (i : ℕ) (input : List (BitVec 8)) :
    (getsStores i input).map (·.1) = List.range' i (getsStores i input).length := by
  induction input generalizing i with
  | nil => rfl
  | cons c input ih =>
    rw [getsStores]
    split
    · rfl
    · rw [List.map_cons, List.length_cons, List.range'_succ, ih]

theorem getsFrom_nil (s output : List (BitVec 8)) : getsFrom s ⟨[], output⟩ = none := by
  rw [getsFrom]
  rfl

theorem getsFrom_cons (s input output : List (BitVec 8)) (c : BitVec 8) :
    getsFrom s ⟨c :: input, output⟩ = if isNewline c then some (s ++ [0], echo ⟨input, output⟩ c)
      else getsFrom (s ++ [c]) (echo ⟨input, output⟩ c) := by
  rw [getsFrom]
  rfl

/-- When `gets` returns, it has stored a line and a NUL behind it. -/
theorem getsStores_line (h : getsFrom s u = some (str, u')) : ∃ line, str = s ++ (line ++ [0]) ∧
    (getsStores s.length u.input).map (·.2) = line ++ [0] ∧
    (s.length + line.length, 0) ∈ getsStores s.length u.input := by
  obtain ⟨input, output⟩ := u
  induction input generalizing s output with
  | nil =>
    rw [getsFrom_nil] at h
    cases h
  | cons c input ih =>
    rw [getsFrom_cons] at h
    rw [getsStores]
    split at h
    case isTrue hc =>
      cases h
      rw [if_pos hc]
      exact ⟨[], rfl, rfl, List.mem_singleton.mpr rfl⟩
    case isFalse hc =>
      rw [echo_of_char (Bool.eq_false_of_not_eq_true hc)] at h
      obtain ⟨line, hstr, hstores, hnul⟩ := ih _ h
      rw [List.length_append] at hstores hnul
      rw [if_neg hc, List.map_cons]
      refine ⟨c :: line, ?_, congrArg (c :: ·) hstores, List.mem_cons_of_mem _ ?_⟩
      · rw [hstr, List.append_assoc]
        rfl
      · rwa [List.length_cons, Nat.add_comm line.length, ← Nat.add_assoc]

/-- These are the stores of what it leaves. -/
theorem getsStores_snd (h : getsFrom s u = some (str, u')) :
    str = s ++ (getsStores s.length u.input).map (·.2) := by
  obtain ⟨line, hstr, hstores, -⟩ := getsStores_line h
  rw [hstr, hstores]

/-! ### The array -/

/-- All stores are below `n` if and only if a newline comes in time for that. -/
theorem getsStores_lt_iff (h : i ≤ n) : (∀ p ∈ getsStores i input, p.1 < n) ↔
    i + input.length ≤ n ∨ ∃ c ∈ input.take (n - i), isNewline c = true := by
  induction input generalizing i with
  | nil => exact iff_of_true (fun p hp => nomatch hp) (.inl h)
  | cons c input ih =>
    rw [getsStores]
    rcases Nat.lt_or_eq_of_le h with hlt | rfl
    · have hroom : n - i = n - (i + 1) + 1 := by omega
      have hlen : i + (input.length + 1) ≤ n ↔ i + 1 + input.length ≤ n := by omega
      rw [hroom, List.take_succ_cons, List.exists_mem_cons_iff, List.length_cons, hlen]
      cases hc : isNewline c with
      | true => exact iff_of_true (fun p hp => by rwa [List.mem_singleton.mp hp]) (.inr (.inl rfl))
      | false =>
        rw [if_neg Bool.false_ne_true, List.forall_mem_cons, ih hlt, and_iff_right hlt]
        exact or_congr_right (or_iff_right Bool.false_ne_true).symm
    · -- the next store is outside already
      refine iff_of_false (fun hall => ?_) (fun hor => ?_)
      · split at hall
        · exact lt_irrefl i (hall (i, 0) List.mem_cons_self)
        · exact lt_irrefl i (hall (i, c) List.mem_cons_self)
      · rcases hor with hlen | ⟨d, hd, -⟩
        · rw [List.length_cons] at hlen
          omega
        · rw [Nat.sub_self] at hd
          cases hd

/-- What `gets` leaves is a line with a NUL, which is one of the stores. -/
theorem getsFrom_nul (h : getsFrom s u = some (str, u')) : ∃ line,
    str = line ++ [0] ∧ (line.length, 0) ∈ getsStores s.length u.input := by
  obtain ⟨line, hstr, -, hnul⟩ := getsStores_line h
  refine ⟨s ++ line, ?_, ?_⟩
  · rw [hstr, List.append_assoc]
  · rwa [List.length_append]

/-- A call of `gets` respects its array if and only if the line ends in time. -/
theorem respected_gets (stack : ℕ → BitVec 8) (u : Uart) :
    Respected stack u ↔ InTime u.input := by
  have hstores : (∀ p ∈ getsStores 0 u.input, p.1 < 100) ↔ InTime u.input := by
    rw [getsStores_lt_iff (Nat.zero_le 100), Nat.zero_add]
    rfl
  refine ⟨fun h => hstores.mp h.stores, fun h => ⟨hstores.mpr h, fun str u' hgets => ?_⟩⟩
  obtain ⟨line, rfl, hstore⟩ := getsFrom_nul hgets
  refine ⟨line.length, hstores.mpr h _ hstore, ?_⟩
  rw [strArray, List.getD_eq_getElem?_getD, List.getElem?_concat_length, Option.getD_some]

/-- The arrays are respected if and only if each line that is typed into one ends within 100
characters, or has no more of them yet. -/
theorem respected_iff (stack : ℕ → BitVec 8) (sys : Sys) (u : Uart) (caller : Caller) :
    (∀ v ∈ caller.calls stack sys u, Respected stack v) ↔
      ∀ v ∈ caller.calls stack sys u, InTime v.input :=
  forall₂_congr fun v _ => respected_gets stack v

/-- A hundred characters before the newline leave no room for the NUL. -/
theorem respected_over : ¬ ∀ (stack : ℕ → BitVec 8) (sys : Sys) (u : Uart) (caller : Caller),
    ∀ v ∈ caller.calls stack sys u, Respected stack v := by
  intro h
  have hcall := h (fun _ => 0) (s3c2440I2cConInit fun _ => ⟨0, 0, 0, 0, 0, fun _ => 0⟩)
    ⟨List.replicate 100 (ch 'a') ++ [ch '\n'], []⟩ .getUint _ (List.mem_singleton.mpr rfl)
  rcases (respected_gets _ _).mp hcall with hlen | ⟨c, hc, hnewline⟩
  · exact absurd hlen (by decide)
  · rw [List.take_left' List.length_replicate] at hc
    rw [(List.mem_replicate.mp hc).2] at hnewline
    exact absurd hnewline (by decide)

end S3c2440.I2c
