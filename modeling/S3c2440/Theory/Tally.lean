import Mathlib.Data.Fintype.Card
import Mathlib.Data.Finset.Card
import Mathlib.Algebra.BigOperators.Group.Finset.Piecewise
import Mathlib.Algebra.BigOperators.Ring.Finset

/-!
# Counting the members of a family with a property

Of a finite family `f` (the states of some threads, say), `tally p f` members have
the property `p`. When one member changes, the tally changes by that member alone
(`tally_update`), which is what a counting invariant needs of a step.
-/

namespace Theory

universe u v

variable {ι : Type u} {α : Type v} [Fintype ι] (p : α → Prop) [DecidablePred p]

/-- How many members of the family have the property. -/
def tally (f : ι → α) : ℕ := (Finset.univ.filter fun i => p (f i)).card

variable {p}

theorem tally_eq_zero {f : ι → α} : tally p f = 0 ↔ ∀ i, ¬ p (f i) := by
  simp [tally, Finset.filter_eq_empty_iff]

theorem tally_pos {f : ι → α} : 0 < tally p f ↔ ∃ i, p (f i) := by
  rw [Nat.pos_iff_ne_zero, Ne, tally_eq_zero]
  push Not
  rfl

theorem tally_congr {f g : ι → α} (h : ∀ i, p (f i) ↔ p (g i)) : tally p f = tally p g := by
  unfold tally
  congr 1
  exact Finset.filter_congr fun i _ => h i

theorem tally_eq_one {f : ι → α} : tally p f = 1 ↔ ∃! i, p (f i) := by
  simp only [tally, Finset.card_eq_one, Finset.eq_singleton_iff_unique_mem, Finset.mem_filter,
    Finset.mem_univ, true_and]
  rfl

/-- Where every member with `p` has `q` in the other family, there are at most as many. -/
theorem tally_le {q : α → Prop} [DecidablePred q] {f g : ι → α} (h : ∀ i, p (f i) → q (g i)) :
    tally p f ≤ tally q g := by
  apply Finset.card_le_card
  intro i hi
  simp only [Finset.mem_filter, Finset.mem_univ, true_and] at hi ⊢
  exact h i hi

/-- And fewer, if some member gains the property. -/
theorem tally_lt {f g : ι → α} (h : ∀ i, p (f i) → p (g i)) {i : ι} (hf : ¬ p (f i))
    (hg : p (g i)) : tally p f < tally p g := by
  refine Finset.card_lt_card ⟨fun j hj => ?_, fun hsub => hf ?_⟩
  · simp only [Finset.mem_filter, Finset.mem_univ, true_and] at hj ⊢
    exact h j hj
  · have hi : i ∈ Finset.univ.filter fun j => p (f j) := hsub (by simp [hg])
    simpa using hi

variable [DecidableEq ι]

/-- One member changes from `f i` to `x`. -/
theorem tally_update (f : ι → α) (i : ι) (x : α) :
    tally p (Function.update f i x) + (if p (f i) then 1 else 0) =
      tally p f + (if p x then 1 else 0) := by
  have hsum : ∀ g : ι → α, tally p g =
      (∑ j ∈ Finset.univ.erase i, if p (g j) then 1 else 0) + (if p (g i) then 1 else 0) := by
    intro g
    rw [tally, Finset.card_filter, Finset.sum_erase_add _ _ (Finset.mem_univ i)]
  have hrest : (∑ j ∈ Finset.univ.erase i, if p (Function.update f i x j) then 1 else 0) =
      ∑ j ∈ Finset.univ.erase i, if p (f j) then 1 else 0 := by
    refine Finset.sum_congr rfl fun j hj => ?_
    rw [Function.update_of_ne (Finset.ne_of_mem_erase hj)]
  rw [hsum (Function.update f i x), hsum f, hrest, Function.update_self]
  omega

end Theory
