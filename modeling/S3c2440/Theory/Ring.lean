import Mathlib.Data.List.Basic
import Mathlib.Data.Nat.ModEq
import Mathlib.Logic.Function.Basic

/-!
# Circular arrays

The cells of an array of `n` cells from one index up to another, going round at the
end: what a ring buffer holds between its read and its write index. The two indices
are equal when it holds nothing, so at most `n - 1` cells are ever held.

## What is proved

* `seg_self`, `seg_of_ne` — the segment by its first cell: what a fetch takes away.
* `seg_skip` — moving the first index forward drops cells from the front.
* `seg_push` — writing at the second index and moving it forward adds a cell at the end.
* `next_eq_iff` — the array is full when one more cell would be all of it.
* `skip_inj` — positions less than `n` apart are different.
-/

namespace Theory.Ring

universe u

variable {n : ℕ} {α : Type u}

/-- The index after `i`. -/
def next (i : Fin n) : Fin n := ⟨(i + 1) % n, Nat.mod_lt _ i.pos⟩

/-- The index `k` after `i`. -/
def skip (i : Fin n) (k : ℕ) : Fin n := ⟨(i + k) % n, Nat.mod_lt _ i.pos⟩

/-- How many cells there are from `r` up to `w`. -/
def ahead (r w : Fin n) : ℕ := (w + (n - r)) % n

/-- The `k` cells from `r` on. -/
def cells (buf : Fin n → α) (r : Fin n) : ℕ → List α
  | 0 => []
  | k + 1 => buf r :: cells buf (next r) k

/-- The cells from `r` up to `w`. -/
def seg (buf : Fin n → α) (r w : Fin n) : List α := cells buf r (ahead r w)

/-! ### Indices -/

@[simp] theorem skip_zero (i : Fin n) : skip i 0 = i := Fin.ext (Nat.mod_eq_of_lt i.isLt)

theorem skip_next (i : Fin n) (k : ℕ) : skip (next i) k = skip i (k + 1) := by
  apply Fin.ext
  show ((i + 1) % n + k) % n = (i + (k + 1)) % n
  rw [Nat.mod_add_mod]
  congr 1
  omega

theorem skip_skip (i : Fin n) (k l : ℕ) : skip (skip i k) l = skip i (k + l) := by
  apply Fin.ext
  show ((i + k) % n + l) % n = (i + (k + l)) % n
  rw [Nat.mod_add_mod, Nat.add_assoc]

theorem skip_one (i : Fin n) : skip i 1 = next i := rfl

theorem skip_inj {i : Fin n} {k l : ℕ} (hk : k < n) (hl : l < n) (h : skip i k = skip i l) :
    k = l := by
  have hmod : k ≡ l [MOD n] := Nat.ModEq.add_left_cancel' (i : ℕ) (congrArg Fin.val h)
  exact (Nat.mod_eq_of_lt hk).symm.trans (Eq.trans hmod (Nat.mod_eq_of_lt hl))

theorem ahead_lt (r w : Fin n) : ahead r w < n := Nat.mod_lt _ r.pos

@[simp] theorem ahead_self (r : Fin n) : ahead r r = 0 := by
  have hr := r.isLt
  rw [ahead, Nat.add_sub_cancel' (Nat.le_of_lt hr), Nat.mod_self]

/-- Going ahead from `r` leads to `w`. -/
theorem skip_ahead (r w : Fin n) : skip r (ahead r w) = w := by
  apply Fin.ext
  have hr := r.isLt
  show (r + (w + (n - r)) % n) % n = w
  rw [Nat.add_mod_mod, show (r : ℕ) + (w + (n - r)) = w + n by omega, Nat.add_mod_right,
    Nat.mod_eq_of_lt w.isLt]

theorem ahead_eq_zero {r w : Fin n} : ahead r w = 0 ↔ r = w := by
  constructor
  · intro h
    rw [← skip_ahead r w, h, skip_zero]
  · rintro rfl
    exact ahead_self r

/-- One cell nearer. -/
theorem ahead_next {r w : Fin n} (h : r ≠ w) : ahead r w = ahead (next r) w + 1 := by
  obtain ⟨k, hk⟩ := Nat.exists_eq_succ_of_ne_zero fun h0 => h (ahead_eq_zero.mp h0)
  have hlt := ahead_lt r w
  have hlt' := ahead_lt (next r) w
  have hskip : skip (next r) k = skip (next r) (ahead (next r) w) := by
    rw [skip_ahead, skip_next, ← Nat.succ_eq_add_one, ← hk, skip_ahead]
  rw [hk, skip_inj (by omega) hlt' hskip]

/-- There is one cell less than all of them up to `w` exactly if the next index is `r` again. -/
theorem next_eq_iff {r w : Fin n} : next w = r ↔ ahead r w + 1 = n := by
  have hlt := ahead_lt r w
  have hnext : next w = skip r (ahead r w + 1) := by rw [← skip_skip, skip_ahead, skip_one]
  constructor
  · intro h
    by_contra hne
    have h0 : ahead r w + 1 = 0 := skip_inj (by omega) r.pos (by rw [← hnext, h, skip_zero])
    omega
  · intro h
    rw [hnext, h]
    apply Fin.ext
    show (r + n) % n = r
    rw [Nat.add_mod_right, Nat.mod_eq_of_lt r.isLt]

/-- One cell further. -/
theorem ahead_next_right {r w : Fin n} (h : next w ≠ r) : ahead r (next w) = ahead r w + 1 := by
  have hlt := ahead_lt r w
  have hne : ahead r w + 1 ≠ n := fun h' => h (next_eq_iff.mpr h')
  apply skip_inj (ahead_lt r (next w)) (by omega) (i := r)
  rw [skip_ahead, ← skip_skip, skip_ahead, skip_one]

theorem next_inj {i j : Fin n} (h : next i = next j) : i = j := by
  by_contra hne
  have hahead := ahead_next hne
  rw [h] at hahead
  have hlt := ahead_lt i j
  -- from the index after `j` all the way round
  have hround : ahead (next j) j + 1 = n := next_eq_iff.mp rfl
  omega

/-! ### Segments -/

@[simp] theorem length_cells (buf : Fin n → α) (r : Fin n) (k : ℕ) :
    (cells buf r k).length = k := by
  induction k generalizing r with
  | zero => rfl
  | succ k ih => rw [cells, List.length_cons, ih]

@[simp] theorem length_seg (buf : Fin n → α) (r w : Fin n) : (seg buf r w).length = ahead r w :=
  length_cells buf r _

@[simp] theorem seg_self (buf : Fin n → α) (r : Fin n) : seg buf r r = [] := by
  rw [seg, ahead_self, cells]

theorem seg_of_ne (buf : Fin n → α) {r w : Fin n} (h : r ≠ w) :
    seg buf r w = buf r :: seg buf (next r) w := by
  rw [seg, ahead_next h, cells, seg]

theorem seg_eq_nil {buf : Fin n → α} {r w : Fin n} : seg buf r w = [] ↔ r = w := by
  rw [← List.length_eq_zero_iff, length_seg, ahead_eq_zero]

/-- Moving the first index `k` cells forward drops `k` cells. -/
theorem seg_skip (buf : Fin n → α) {r w : Fin n} {k : ℕ} (h : k ≤ ahead r w) :
    seg buf (skip r k) w = (seg buf r w).drop k := by
  induction k generalizing r with
  | zero => rw [skip_zero, List.drop_zero]
  | succ k ih =>
    have hne : r ≠ w := by
      rintro rfl
      rw [ahead_self] at h
      omega
    rw [ahead_next hne] at h
    rw [← skip_next, ih (by omega), seg_of_ne buf hne, List.drop_succ_cons]

theorem cells_succ_last (buf : Fin n → α) (r : Fin n) (k : ℕ) :
    cells buf r (k + 1) = cells buf r k ++ [buf (skip r k)] := by
  induction k generalizing r with
  | zero => rw [skip_zero]; rfl
  | succ k ih => rw [cells, ih, skip_next, cells, List.cons_append]

/-- Cells before the one that is written are as they were. -/
theorem cells_update (buf : Fin n → α) {r : Fin n} {j k : ℕ} (hk : k ≤ j) (hj : j < n) (c : α) :
    cells (Function.update buf (skip r j) c) r k = cells buf r k := by
  induction k with
  | zero => rfl
  | succ k ih =>
    have hne : skip r k ≠ skip r j := fun h => by
      have := skip_inj (by omega) hj h
      omega
    rw [cells_succ_last, cells_succ_last, ih (by omega), Function.update_of_ne hne]

/-- A cell is written at the end, and the second index goes past it. -/
theorem seg_push (buf : Fin n → α) {r w : Fin n} (c : α) (h : next w ≠ r) :
    seg (Function.update buf w c) r (next w) = seg buf r w ++ [c] := by
  have hcells := cells_update buf (r := r) le_rfl (ahead_lt r w) c
  rw [skip_ahead] at hcells
  rw [seg, ahead_next_right h, cells_succ_last, hcells, skip_ahead, Function.update_self, seg]

/-! ### A turn -/

theorem skip_turn (i : Fin n) : skip i n = i :=
  Fin.ext ((Nat.add_mod_right i n).trans (Nat.mod_eq_of_lt i.isLt))

theorem cells_of_pos (buf : Fin n → α) (r : Fin n) {k : ℕ} (hk : 0 < k) :
    cells buf r k = buf r :: cells buf (next r) (k - 1) := by
  cases k with
  | zero => cases hk
  | succ k => rfl

theorem mem_cells {buf : Fin n → α} {r : Fin n} {k : ℕ} {a : α} :
    a ∈ cells buf r k ↔ ∃ j < k, a = buf (skip r j) := by
  induction k with
  | zero => exact iff_of_false List.not_mem_nil fun ⟨j, hj, _⟩ => Nat.not_lt_zero j hj
  | succ k ih =>
    rw [cells_succ_last, List.mem_append, ih, List.mem_singleton]
    constructor
    · rintro (⟨j, hj, ha⟩ | ha)
      · exact ⟨j, Nat.lt_succ_of_lt hj, ha⟩
      · exact ⟨k, Nat.lt_succ_self k, ha⟩
    · rintro ⟨j, hj, ha⟩
      rcases Nat.lt_succ_iff_lt_or_eq.mp hj with hj | rfl
      · exact .inl ⟨j, hj, ha⟩
      · exact .inr ha

/-- The indices of a turn are different. -/
theorem nodup_cells {r : Fin n} {k : ℕ} (hk : k ≤ n) : (cells id r k).Nodup := by
  induction k with
  | zero => exact List.nodup_nil
  | succ k ih =>
    rw [cells_succ_last]
    refine List.nodup_append.mpr ⟨ih (by omega), List.pairwise_singleton _ _, ?_⟩
    rintro a ha b hb rfl
    obtain ⟨j, hj, rfl⟩ := mem_cells.mp ha
    have := skip_inj (by omega) (by omega) (List.mem_singleton.mp hb)
    omega

/-- The first index of a turn is the last of the next. -/
theorem cells_turn {i : Fin n} {l : List (Fin n)} (h : i :: l = cells id i n) :
    l ++ [i] = cells id (next i) n := by
  obtain ⟨k, rfl⟩ := Nat.exists_eq_succ_of_ne_zero (Nat.ne_zero_of_lt i.isLt)
  rw [cells_succ_last, skip_next, skip_turn, (List.cons.inj h).2]
  rfl

end Theory.Ring
