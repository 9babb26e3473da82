import Mathlib.Data.Nat.Basic

/-!
# Loops

A loop of a program as a function: its test, its body and how many turns it may take.
`whileLoop_total` is the rule for it: an invariant that a turn preserves, and a measure
that a turn makes smaller, which bounds the number of turns. `whileLoop_unique`: the result does
not depend on that number. `whileLoop_of_trajectory` is the rule for a loop whose every state is
known beforehand. `whileLoop_map` is for two loops of which one does what the other does and
notes something besides, `whileLoop_keeps` for what no turn changes, and `whileLoop_diverges` for a
loop that never ends. `doWhile` tests after the body, which may fail; `doWhile_again` and
`doWhile_end` are its turns.
-/

namespace Theory

universe u

variable {σ : Type u}

/-- `while (cond) body`, for at most `fuel` turns; `none` if it is not over then. -/
def whileLoop (cond : σ → Bool) (body : σ → σ) : ℕ → σ → Option σ
  | 0, s => if cond s then none else some s
  | fuel + 1, s => if cond s then whileLoop cond body fuel (body s) else some s

/-- Total correctness: as many turns as the measure says are enough, and the invariant holds
when the test fails. -/
theorem whileLoop_total (cond : σ → Bool) (body : σ → σ) (measure : σ → ℕ) (fuel : ℕ)
    {Inv : σ → Prop}
    (hstep : ∀ s, Inv s → cond s = true → Inv (body s) ∧ measure (body s) < measure s)
    {s : σ} (hs : Inv s) (hfuel : measure s ≤ fuel) :
    ∃ t, whileLoop cond body fuel s = some t ∧ Inv t ∧ cond t = false := by
  induction fuel generalizing s with
  | zero =>
    cases hc : cond s with
    | true =>
      have hlt := (hstep s hs hc).2
      omega
    | false => exact ⟨s, by simp [whileLoop, hc], hs, hc⟩
  | succ fuel ih =>
    cases hc : cond s with
    | true =>
      obtain ⟨hinv, hlt⟩ := hstep s hs hc
      obtain ⟨t, ht, hend⟩ := ih hinv (by omega)
      exact ⟨t, by simp [whileLoop, hc, ht], hend⟩
    | false => exact ⟨s, by simp [whileLoop, hc], hs, hc⟩

/-- The loop goes through the states `t`, and stops at the `n`-th. -/
theorem whileLoop_of_trajectory {cond : σ → Bool} {body : σ → σ} (t : ℕ → σ) (n : ℕ)
    (hturn : ∀ k < n, cond (t k) = true ∧ body (t k) = t (k + 1)) (hend : cond (t n) = false)
    {fuel : ℕ} (hfuel : n ≤ fuel) : whileLoop cond body fuel (t 0) = some (t n) := by
  induction n generalizing t fuel with
  | zero => cases fuel <;> simp [whileLoop, hend]
  | succ n ih =>
    obtain ⟨fuel, rfl⟩ : ∃ m, fuel = m + 1 := ⟨fuel - 1, by omega⟩
    obtain ⟨hcond, hbody⟩ := hturn 0 (Nat.succ_pos n)
    rw [whileLoop, if_pos hcond, hbody]
    exact ih (fun k => t (k + 1)) (fun k hk => hturn (k + 1) (by omega)) hend (by omega)

/-- A loop seen through a function that its test and its body respect. -/
theorem whileLoop_map {τ : Type*} {cond : σ → Bool} {body : σ → σ} {cond' : τ → Bool}
    {body' : τ → τ} (g : σ → τ) (hcond : ∀ s, cond' (g s) = cond s)
    (hbody : ∀ s, body' (g s) = g (body s)) (fuel : ℕ) (s : σ) :
    whileLoop cond' body' fuel (g s) = (whileLoop cond body fuel s).map g := by
  induction fuel generalizing s with
  | zero =>
    rw [whileLoop, whileLoop, hcond]
    cases cond s <;> rfl
  | succ fuel ih =>
    rw [whileLoop, whileLoop, hcond, hbody, ih]
    cases cond s <;> rfl

/-- What no turn changes is as before the loop. -/
theorem whileLoop_keeps {τ : Type*} {cond : σ → Bool} {body : σ → σ} (g : σ → τ)
    (hbody : ∀ s, g (body s) = g s) {fuel : ℕ} {s t : σ}
    (h : whileLoop cond body fuel s = some t) : g t = g s := by
  induction fuel generalizing s with
  | zero =>
    rw [whileLoop] at h
    split at h <;> cases h
    rfl
  | succ fuel ih =>
    rw [whileLoop] at h
    split at h
    · rw [ih h, hbody]
    · cases h
      rfl

/-- How many turns are allowed does not change the result. -/
theorem whileLoop_unique {cond : σ → Bool} {body : σ → σ} {m n : ℕ} {s t t' : σ}
    (h : whileLoop cond body m s = some t) (h' : whileLoop cond body n s = some t') : t = t' := by
  induction m generalizing n s with
  | zero =>
    cases hc : cond s with
    | true => simp [whileLoop, hc] at h
    | false => cases n <;> simp_all [whileLoop]
  | succ m ih =>
    cases hc : cond s with
    | true =>
      cases n with
      | zero => simp [whileLoop, hc] at h'
      | succ n =>
        rw [whileLoop, if_pos hc] at h h'
        exact ih h h'
    | false => cases n <;> simp_all [whileLoop]

/-- A loop whose test always holds. -/
theorem whileLoop_diverges {cond : σ → Bool} {body : σ → σ} {Inv : σ → Prop}
    (hstep : ∀ s, Inv s → cond s = true ∧ Inv (body s)) (fuel : ℕ) {s : σ} (hs : Inv s) :
    whileLoop cond body fuel s = none := by
  induction fuel generalizing s with
  | zero => rw [whileLoop, if_pos (hstep s hs).1]
  | succ fuel ih =>
    rw [whileLoop, if_pos (hstep s hs).1]
    exact ih (hstep s hs).2

/-! ### A loop that tests afterwards -/

/-- `do body while (cond)`, for at most `fuel` turns; `none` if it is not over then, or if a turn
fails. -/
def doWhile (body : σ → Option σ) (cond : σ → Bool) : ℕ → σ → Option σ
  | 0, _ => none
  | fuel + 1, s => (body s).bind fun t => if cond t then doWhile body cond fuel t else some t

variable {body : σ → Option σ} {cond : σ → Bool} {s t : σ}

theorem doWhile_again (hbody : body s = some t) (hcond : cond t = true) (fuel : ℕ) :
    doWhile body cond (fuel + 1) s = doWhile body cond fuel t := by
  rw [doWhile, hbody, Option.bind_some, if_pos hcond]

theorem doWhile_end (hbody : body s = some t) (hcond : cond t = false) (fuel : ℕ) :
    doWhile body cond (fuel + 1) s = some t := by
  rw [doWhile, hbody, Option.bind_some, hcond, if_neg Bool.false_ne_true]

end Theory
