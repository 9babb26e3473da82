import Mathlib.Logic.Basic

/-!
# Mutual exclusion

A lock is the thread that holds it, if any. `Excl owner inside` says that the
threads that are inside their critical sections are exactly the one that holds the
lock; the rules say how taking the lock, giving it back and moving inside or
outside a critical section keep that.
-/

namespace Theory

universe u

variable {τ : Type u}

/-- The threads inside are the one that holds the lock. -/
def Excl (owner : Option τ) (inside : τ → Prop) : Prop := ∀ t, inside t ↔ owner = some t

variable {owner : Option τ} {inside inside' : τ → Prop} {t u : τ}

/-- Two threads inside are one. -/
theorem Excl.unique (h : Excl owner inside) (ht : inside t) (hu : inside u) : t = u :=
  Option.some.inj (((h t).mp ht).symm.trans ((h u).mp hu))

/-- With the lock free, nobody is inside. -/
theorem Excl.not_inside (h : Excl owner inside) (ho : owner = none) : ¬ inside t := by
  intro ht
  rw [(h t).mp ht] at ho
  cases ho

/-- A step that moves no thread in or out. -/
theorem Excl.congr (h : Excl owner inside) (hi : ∀ u, inside' u ↔ inside u) : Excl owner inside' :=
  fun u => (hi u).trans (h u)

/-- Thread `t` takes the free lock and goes in. -/
theorem Excl.acquire (h : Excl owner inside) (ho : owner = none) (ht : inside' t)
    (hi : ∀ u, u ≠ t → (inside' u ↔ inside u)) : Excl (some t) inside' := by
  intro u
  by_cases hu : u = t
  · subst hu
    exact iff_of_true ht rfl
  · rw [hi u hu]
    exact iff_of_false (h.not_inside ho) fun he => hu (Option.some.inj he).symm

/-- Thread `t` goes out and gives the lock back. -/
theorem Excl.release (h : Excl owner inside) (ht : inside t) (ht' : ¬ inside' t)
    (hi : ∀ u, u ≠ t → (inside' u ↔ inside u)) : Excl none inside' := by
  intro u
  refine iff_of_false ?_ (by simp)
  by_cases hu : u = t
  · exact hu ▸ ht'
  · rw [hi u hu]
    exact fun hin => hu (h.unique hin ht)

end Theory
