import Mathlib.Algebra.Order.Ring.Int
import Mathlib.Data.Nat.Find
import Mathlib.Logic.Function.Iterate

/-!
# Walking along the edge of a region

A region of the grid that has, with a cell, every cell between it and the axes. Its edge is a
staircase: the cells whose neighbour on the diagonal lies outside. A walk that starts at
the top of the first column and goes one cell to the right where that stays inside, one down
where it does not, is always on the edge, and as each diagonal meets the edge only once, it
misses nothing.

## What is proved

* `Rim.step` — a step goes from the edge to the edge, and to the next diagonal.
* `Rim.unique` — a diagonal has one cell of the edge.
* `exists_end` — a walk that must stay above the axis comes to an end.
* `visited_iff` — the cells it has visited then.
-/

namespace Theory.Staircase

/-- A region of the quadrant, with the first column as high as its longest side. -/
structure Region where
  /-- The cells. -/
  mem : ℤ → ℤ → Prop
  /-- Whether a cell is in the region can be computed. -/
  dec : ∀ a b, Decidable (mem a b)
  /-- How far it goes. -/
  size : ℤ
  /-- It goes on to both axes. -/
  lower : ∀ {a b a' b'}, 0 ≤ a → a ≤ a' → 0 ≤ b → b ≤ b' → mem a' b' → mem a b
  /-- No cell lies farther out. -/
  bound : ∀ {a b}, 0 ≤ a → 0 ≤ b → mem a b → a ≤ size ∧ b ≤ size
  /-- The top of the first column. -/
  top : mem 0 size
  /-- There is a cell. -/
  size_nonneg : 0 ≤ size

namespace Region

variable (R : Region)

instance (a b : ℤ) : Decidable (R.mem a b) := R.dec a b

/-- One step of the walk. -/
def step (p : ℤ × ℤ) : ℤ × ℤ := if R.mem (p.1 + 1) p.2 then (p.1 + 1, p.2) else (p.1, p.2 - 1)

/-- Where the walk is after `n` steps. -/
def walk (n : ℕ) : ℤ × ℤ := R.step^[n] (0, R.size)

/-- A cell of the edge. -/
structure Rim (a b : ℤ) : Prop where
  /-- Not left of the axis. -/
  left : 0 ≤ a
  /-- Not below the axis. -/
  below : 0 ≤ b
  /-- It is in the region. -/
  mem : R.mem a b
  /-- Its neighbour on the diagonal is not. -/
  next : ¬ R.mem (a + 1) (b + 1)

variable {R} {a b u v : ℤ}

theorem walk_zero : R.walk 0 = (0, R.size) := rfl

theorem walk_succ (n : ℕ) : R.walk (n + 1) = R.step (R.walk n) :=
  Function.iterate_succ_apply' R.step n (0, R.size)

theorem rim_start : R.Rim 0 R.size where
  left := le_refl 0
  below := R.size_nonneg
  mem := R.top
  next h := by
    have hle := (R.bound (by omega) (Int.le_add_one R.size_nonneg) h).2
    omega

/-- Above the axis a step stays on the edge, and goes to the next diagonal. -/
theorem Rim.step (h : R.Rim a b) (hb : 1 ≤ b) :
    R.Rim (R.step (a, b)).1 (R.step (a, b)).2 ∧
      (R.step (a, b)).1 - (R.step (a, b)).2 = a - b + 1 := by
  unfold Region.step
  split
  case isTrue hright =>
    refine ⟨⟨Int.le_add_one h.left, h.below, hright, fun hnext => h.next ?_⟩, by dsimp only; omega⟩
    exact R.lower (Int.le_add_one h.left) (by dsimp only; omega) (Int.le_add_one h.below)
      (le_refl _) hnext
  case isFalse hright =>
    refine ⟨⟨h.left, by dsimp only; omega, ?_, ?_⟩, by dsimp only; omega⟩
    · exact R.lower h.left (le_refl a) (by dsimp only; omega) (by dsimp only; omega) h.mem
    · rwa [Int.sub_add_cancel]

/-- Of two cells of the edge none is beyond the other on both axes. -/
theorem Rim.not_beyond (h : R.Rim a b) (h' : R.Rim u v) : ¬ (a < u ∧ b < v) := fun hlt =>
  h.next (R.lower (Int.le_add_one h.left) hlt.1 (Int.le_add_one h.below) hlt.2 h'.mem)

/-- A diagonal has one cell of the edge. -/
theorem Rim.unique (h : R.Rim a b) (h' : R.Rim u v) (hdiag : a - b = u - v) : (a, b) = (u, v) := by
  have hfar := h.not_beyond h'
  have hnear := h'.not_beyond h
  obtain ⟨rfl, rfl⟩ : a = u ∧ b = v := by omega
  rfl

/-- As long as the walk has been above the axis, it is on the edge. -/
theorem rim_walk (n : ℕ) (h : ∀ k < n, 1 ≤ (R.walk k).2) :
    R.Rim (R.walk n).1 (R.walk n).2 ∧ (R.walk n).1 - (R.walk n).2 = n - R.size := by
  induction n with
  | zero => exact ⟨rim_start, by rw [walk_zero]; simp⟩
  | succ n ih =>
    obtain ⟨hrim, hdiag⟩ := ih fun k hk => h k (Nat.lt_succ_of_lt hk)
    obtain ⟨hnext, hdiag'⟩ := hrim.step (h n (Nat.lt_succ_self n))
    rw [walk_succ]
    refine ⟨hnext, hdiag'.trans ?_⟩
    push_cast
    omega

/-! ### A walk with a test -/

variable {go : ℤ → Prop}

/-- Up to the end the walk is on the edge. -/
theorem rim_of_go (hgo : ∀ b, 0 ≤ b → go b → 1 ≤ b) {n : ℕ} (h : ∀ k < n, go (R.walk k).2) :
    R.Rim (R.walk n).1 (R.walk n).2 ∧ (R.walk n).1 - (R.walk n).2 = n - R.size := by
  induction n using Nat.strong_induction_on with
  | _ n ih =>
    exact rim_walk n fun k hk =>
      hgo _ (ih k hk fun j hj => h j (hj.trans hk)).1.below (h k hk)

/-- A test that fails on the axis fails after at most twice the size. -/
theorem exists_end (hgo : ∀ b, 0 ≤ b → go b → 1 ≤ b) :
    ∃ n : ℕ, (n : ℤ) ≤ 2 * R.size + 1 ∧ (∀ k < n, go (R.walk k).2) ∧ ¬ go (R.walk n).2 := by
  classical
  have hsize := R.size_nonneg
  have hend : ∃ n, ¬ go (R.walk n).2 := by
    by_contra hall
    have hall' : ∀ n, go (R.walk n).2 := fun n => not_not.mp fun h => hall ⟨n, h⟩
    -- after that many steps the walk has left the region
    obtain ⟨hrim, hdiag⟩ := rim_of_go hgo (n := R.size.toNat + R.size.toNat) fun k _ => hall' k
    have hle := (R.bound hrim.left hrim.below hrim.mem).1
    have hb := hgo _ hrim.below (hall' _)
    omega
  have hbefore : ∀ k < Nat.find hend, go (R.walk k).2 := fun k hk =>
    not_not.mp (Nat.find_min hend hk)
  obtain ⟨hrim, hdiag⟩ := rim_of_go hgo hbefore
  have hle := (R.bound hrim.left hrim.below hrim.mem).1
  have hbelow := hrim.below
  exact ⟨Nat.find hend, by omega, hbefore, Nat.find_spec hend⟩

/-- A walk with a test that holds at every greater height as well visits just the cells of the edge
at which the test holds. -/
theorem visited_iff (hgo : ∀ b, 0 ≤ b → go b → 1 ≤ b)
    (hup : ∀ b b', 0 ≤ b → b ≤ b' → go b → go b') {n : ℕ} (h : ∀ k < n, go (R.walk k).2)
    (hend : ¬ go (R.walk n).2) :
    (∃ k < n, R.walk k = (u, v)) ↔ R.Rim u v ∧ go v := by
  constructor
  · rintro ⟨k, hk, hwalk⟩
    have hrim := (rim_of_go hgo fun j hj => h j (hj.trans hk)).1
    have hk' := h k hk
    rw [hwalk] at hrim hk'
    exact ⟨hrim, hk'⟩
  · rintro ⟨hrim, hv⟩
    have hle := (R.bound hrim.left hrim.below hrim.mem).2
    have hleft := hrim.left
    -- the step at which the walk is on the diagonal of the cell
    obtain ⟨k, hk⟩ : ∃ k : ℕ, (k : ℤ) = u - v + R.size := ⟨(u - v + R.size).toNat, by omega⟩
    by_cases hkn : k < n
    · obtain ⟨hrim', hdiag⟩ := rim_of_go hgo fun j hj => h j (hj.trans hkn)
      exact ⟨k, hkn, hrim'.unique hrim (by omega)⟩
    · obtain ⟨hrim', hdiag⟩ := rim_of_go hgo h
      have hlt : (R.walk n).2 < v := not_le.mp fun hle' => hend (hup v _ hrim.below hle' hv)
      exact absurd ⟨by omega, hlt⟩ (hrim'.not_beyond hrim)

end Region

end Theory.Staircase
