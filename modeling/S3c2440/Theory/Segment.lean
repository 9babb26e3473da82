import Mathlib.Data.List.Range

/-!
# Segments of a memory

A memory is a function from addresses. A segment of it is read as a list, and a list is put
from an address on.

## What is proved

* `segment_put_self` — what has been put is read.
* `segment_put_of_apart` — elsewhere, what was there is read.
* `segment_add` — a segment is read in two parts.
-/

universe u

namespace Theory.Segment

variable {β : Type u}

/-- The `n` values from `a` on. -/
def segment (m : ℕ → β) (a n : ℕ) : List β := (List.range n).map fun k => m (a + k)

/-- The values `bs` are put from `a` on. -/
def put (m : ℕ → β) (a : ℕ) (bs : List β) : ℕ → β := fun x =>
  if a ≤ x then bs[x - a]?.getD (m x) else m x

variable {m m' : ℕ → β} {a b n k : ℕ} {bs : List β}

@[simp] theorem length_segment : (segment m a n).length = n := by simp [segment]

@[simp] theorem segment_zero : segment m a 0 = [] := rfl

theorem segment_congr (h : ∀ x, a ≤ x → x < a + n → m x = m' x) :
    segment m a n = segment m' a n := by
  refine List.map_congr_left fun k hk => h _ (Nat.le_add_right a k) ?_
  exact Nat.add_lt_add_left (List.mem_range.mp hk) a

theorem segment_add : segment m a (n + k) = segment m a n ++ segment m (a + n) k := by
  rw [segment, List.range_add, List.map_append, List.map_map]
  simp only [segment, Function.comp_def, Nat.add_assoc]

/-- The first value of a segment, and the others. -/
theorem segment_succ' : segment m a (n + 1) = m a :: segment m (a + 1) n := by
  rw [Nat.add_comm, segment_add]
  rfl

theorem drop_segment (h : k ≤ n) : (segment m a n).drop k = segment m (a + k) (n - k) := by
  obtain ⟨l, rfl⟩ := Nat.exists_eq_add_of_le h
  rw [segment_add, List.drop_left' length_segment, Nat.add_sub_cancel_left]

theorem put_of_apart {x : ℕ} (h : x < a ∨ a + bs.length ≤ x) : put m a bs x = m x := by
  unfold put
  split
  · rw [List.getElem?_eq_none (by omega), Option.getD_none]
  · rfl

theorem segment_put_self : segment (put m a bs) a bs.length = bs := by
  apply List.ext_getElem
  · exact length_segment
  · intro i _ hi
    simp [segment, put, hi]

theorem segment_put_of_apart (h : b + n ≤ a ∨ a + bs.length ≤ b) :
    segment (put m a bs) b n = segment m b n :=
  segment_congr fun x hx hx' => put_of_apart (by omega)

end Theory.Segment
