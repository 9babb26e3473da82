import S3c2440.Theory.Runs
import S3c2440.Theory.Mutex
import S3c2440.Buttons.Irq

/-!
# The key driver with a semaphore

`linux_driver/code/Asynchronous_Signal_semaphore_Timerdebounce/seventh_drv.c`: whoever opens the
device takes the semaphore `button_lock`, waiting for it (`down`) or, with `O_NONBLOCK`, being
refused where it cannot be had (`down_trylock`), and then registers the four lines.
`seventh_drv_close` frees the lines, and gives the semaphore back after that.

Any number of processes open and close, each one statement at a time, in any order; a process
closes the device once for each time it has opened it. What `request_irq` returns is not
looked at, and nobody else uses the lines.

## What is proved

* `held_of_reach` — the invariant: the semaphore is taken exactly while a process is between
  taking it and giving it back, and then the lines are those that this process has asked for.
* `locked_open` — what that says of the calls.
-/

namespace S3c2440.Seventh

open Theory Buttons

/-! ### The driver -/

/-- Where a process is. -/
inductive Pc where
  /-- In no call, and without the device. -/
  | idle
  /-- `down(&button_lock);`. -/
  | down
  /-- `if(down_trylock(&button_lock))`. -/
  | trylock
  /-- `return -EBUSY;`. -/
  | busy
  /-- `request_irq`. -/
  | request (l : Line)
  /-- `return 0;` in `seventh_drv_open`. -/
  | opened
  /-- In no call, and with the device open. -/
  | holds
  /-- `free_irq`. -/
  | free (l : Line)
  /-- `up(&button_lock);`. -/
  | up
  /-- `return 0;` in `seventh_drv_close`. -/
  | closed
  deriving DecidableEq

variable {P : Type} [DecidableEq P]

/-- The driver and the processes. -/
structure Drv (P : Type) where
  /-- The count of `button_lock`. -/
  buttonLock : ℕ
  /-- The lines. -/
  lines : Lines
  /-- Where the processes are. -/
  pc : P → Pc
  /-- What the last call of each has returned. -/
  result : P → ℤ

/-- The driver when it is loaded: `DECLARE_MUTEX (button_lock);`. -/
def Drv.init : Drv P := ⟨1, fun _ => false, fun _ => .idle, fun _ => 0⟩

/-- Process `p` goes on to `c`. -/
def Drv.goto (s : Drv P) (p : P) (c : Pc) : Drv P := { s with pc := Function.update s.pc p c }

/-- What can happen. -/
inductive Act (P : Type) where
  /-- Process `p` calls `seventh_drv_open`, with `O_NONBLOCK` or without. -/
  | call (p : P) (nonblock : Bool)
  /-- Process `p` takes its next statement; if it has the device open it calls
  `seventh_drv_close`. -/
  | next (p : P)

/-- One step. `down` has to wait where the count is zero. -/
def step (s : Drv P) : Act P → Option (Drv P)
  | .call p nonblock =>
    if s.pc p = .idle then some (s.goto p (if nonblock then .trylock else .down)) else none
  | .next p =>
    match s.pc p with
    | .idle => none
    | .down =>
      if 0 < s.buttonLock then
        some ({ s with buttonLock := s.buttonLock - 1 }.goto p (.request .eint0))
      else none
    | .trylock =>
      if 0 < s.buttonLock then
        some ({ s with buttonLock := s.buttonLock - 1 }.goto p (.request .eint0))
      else some (s.goto p .busy)
    | .busy => some ({ s with result := Function.update s.result p (-ebusy) }.goto p .idle)
    | .request l =>
      some ({ s with lines := (requestIrq s.lines l).1 }.goto p
        (match l.next with
          | some l => .request l
          | none => .opened))
    | .opened => some ({ s with result := Function.update s.result p 0 }.goto p .holds)
    | .holds => some (s.goto p (.free .eint0))
    | .free l =>
      some ({ s with lines := freeIrq s.lines l }.goto p
        (match l.next with
          | some l => .free l
          | none => .up))
    | .up => some ({ s with buttonLock := s.buttonLock + 1 }.goto p .closed)
    | .closed => some ({ s with result := Function.update s.result p 0 }.goto p .idle)

/-! ### The process inside -/

/-- Between taking the semaphore and giving it back. -/
def Pc.inside : Pc → Bool
  | .request _ | .opened | .holds | .free _ | .up => true
  | _ => false

/-- The lines that a process that is there has. -/
def Pc.lines : Pc → Lines
  | .request l => fun l' => decide (l'.index < l.index)
  | .opened | .holds => fun _ => true
  | .free l => fun l' => decide (l.index ≤ l'.index)
  | _ => fun _ => false

/-- The semaphore and the lines while `owner` is inside. -/
structure Held (s : Drv P) (owner : Option P) : Prop where
  /-- Nobody else is. -/
  excl : Excl owner fun p => (s.pc p).inside = true
  /-- The count. -/
  lock : s.buttonLock = if owner = none then 1 else 0
  /-- The lines. -/
  lines : s.lines = owner.elim (fun _ => false) fun p => (s.pc p).lines

omit [DecidableEq P] in
theorem held_init : Held (Drv.init : Drv P) none :=
  ⟨fun _ => by simp [Drv.init, Pc.inside], rfl, rfl⟩

section Moves

variable {s t : Drv P} {owner : Option P} {p : P} {c : Pc}

@[simp] theorem goto_self : (s.goto p c).pc p = c := Function.update_self ..

theorem goto_of_ne {q : P} (h : q ≠ p) : (s.goto p c).pc q = s.pc q := Function.update_of_ne h ..

/-- A process outside moves outside. -/
theorem Held.outside (h : Held s owner) (hp : (s.pc p).inside = false)
    (ht : t.pc = Function.update s.pc p c) (hc : c.inside = false)
    (hlock : t.buttonLock = s.buttonLock) (hlines : t.lines = s.lines) : Held t owner := by
  refine ⟨h.excl.congr fun q => ?_, hlock.trans h.lock, hlines.trans ?_⟩
  · by_cases hq : q = p
    · subst hq
      simp [ht, hp, hc]
    · simp [ht, hq]
  · rw [h.lines]
    cases owner with
    | none => rfl
    | some q =>
      have hq : q ≠ p := by
        rintro rfl
        rw [(h.excl q).mpr rfl] at hp
        cases hp
      simp [ht, hq]

/-- A process takes the semaphore. -/
theorem Held.take (h : Held s owner) (hlock : 0 < s.buttonLock)
    (ht : t.pc = Function.update s.pc p (.request .eint0)) (hcount : t.buttonLock = s.buttonLock - 1)
    (hlines : t.lines = s.lines) : Held t (some p) := by
  have hnone : owner = none := by
    by_contra hne
    rw [h.lock, if_neg hne] at hlock
    exact Nat.lt_irrefl 0 hlock
  refine ⟨h.excl.acquire hnone (by simp [ht, Pc.inside]) fun q hq => by simp [ht, hq], ?_, ?_⟩
  · rw [hcount, h.lock, if_pos hnone, if_neg (Option.some_ne_none p)]
  · rw [hlines, h.lines, hnone]
    funext l
    simp [ht, Pc.lines, Line.index]

/-- The process inside goes on there. -/
theorem Held.inside (h : Held s owner) (hp : (s.pc p).inside = true)
    (ht : t.pc = Function.update s.pc p c) (hc : c.inside = true)
    (hlock : t.buttonLock = s.buttonLock) (hlines : s.lines = (s.pc p).lines → t.lines = c.lines) :
    Held t owner := by
  have howner : owner = some p := (h.excl p).mp hp
  refine ⟨h.excl.congr fun q => ?_, hlock.trans h.lock, ?_⟩
  · by_cases hq : q = p
    · subst hq
      simp [ht, hp, hc]
    · simp [ht, hq]
  · have hs := h.lines
    rw [howner] at hs ⊢
    simpa [ht] using hlines hs

/-- It gives the semaphore back. -/
theorem Held.leave (h : Held s owner) (hp : s.pc p = .up)
    (ht : t.pc = Function.update s.pc p .closed) (hcount : t.buttonLock = s.buttonLock + 1)
    (hlines : t.lines = s.lines) : Held t none := by
  have hin : (s.pc p).inside = true := by rw [hp]; rfl
  have howner : owner = some p := (h.excl p).mp hin
  refine ⟨h.excl.release hin (by simp [ht, Pc.inside]) fun q hq => by simp [ht, hq], ?_, ?_⟩
  · rw [hcount, h.lock, howner]
    rfl
  · have hs := h.lines
    rw [howner] at hs
    rw [hlines, hs]
    simp [hp, Pc.lines]

/-- Registering a line, and the lines of the process inside. -/
theorem requestIrq_request (l : Line) : (requestIrq (Pc.lines (.request l)) l).1 =
    Pc.lines (match l.next with
      | some l => .request l
      | none => .opened) := by
  funext l'
  cases l <;> cases l' <;> simp [Pc.lines, Line.next, Line.index]

/-- Freeing one. -/
theorem freeIrq_free (l : Line) : freeIrq (Pc.lines (.free l)) l =
    Pc.lines (match l.next with
      | some l => .free l
      | none => .up) := by
  funext l'
  cases l <;> cases l' <;> simp [freeIrq, Pc.lines, Line.next, Line.index]

theorem Held.next (h : Held s owner) (ht : step s (.next p) = some t) :
    ∃ owner', Held t owner' := by
  cases hpc : s.pc p with
  | idle => simp [step, hpc] at ht
  | down =>
    simp only [step, hpc, Option.ite_none_right_eq_some, Option.some.injEq] at ht
    obtain ⟨hlock, rfl⟩ := ht
    exact ⟨some p, h.take hlock rfl rfl rfl⟩
  | trylock =>
    simp only [step, hpc] at ht
    split at ht
    case isTrue hlock =>
      cases ht
      exact ⟨some p, h.take hlock rfl rfl rfl⟩
    case isFalse =>
      cases ht
      exact ⟨owner, h.outside (by rw [hpc]; rfl) rfl rfl rfl rfl⟩
  | busy | closed =>
    simp only [step, hpc, Option.some.injEq] at ht
    subst ht
    exact ⟨owner, h.outside (by rw [hpc]; rfl) rfl rfl rfl rfl⟩
  | request l =>
    simp only [step, hpc, Option.some.injEq] at ht
    subst ht
    refine ⟨owner, h.inside (by rw [hpc]; rfl) rfl (by cases l <;> rfl) rfl fun hs => ?_⟩
    rw [← requestIrq_request, ← hpc, ← hs]
    rfl
  | free l =>
    simp only [step, hpc, Option.some.injEq] at ht
    subst ht
    refine ⟨owner, h.inside (by rw [hpc]; rfl) rfl (by cases l <;> rfl) rfl fun hs => ?_⟩
    rw [← freeIrq_free, ← hpc, ← hs]
    rfl
  | opened =>
    simp only [step, hpc, Option.some.injEq] at ht
    subst ht
    exact ⟨owner, h.inside (by rw [hpc]; rfl) rfl rfl rfl fun hs => by rw [hpc] at hs; exact hs⟩
  | holds =>
    simp only [step, hpc, Option.some.injEq] at ht
    subst ht
    refine ⟨owner, h.inside (by rw [hpc]; rfl) rfl rfl rfl fun hs => ?_⟩
    rw [hpc] at hs
    refine hs.trans (funext fun l => ?_)
    simp [Pc.lines, Line.index]
  | up =>
    simp only [step, hpc, Option.some.injEq] at ht
    subst ht
    exact ⟨none, h.leave hpc rfl rfl rfl⟩

theorem held_of_reach (h : Reach step Drv.init s) : ∃ owner, Held s owner := by
  refine h.invariant (I := fun u => ∃ owner, Held u owner) (fun u a v hu hv => ?_) ⟨none, held_init⟩
  obtain ⟨owner, hu⟩ := hu
  cases a with
  | next p => exact hu.next hv
  | call p nonblock =>
    simp only [step, Option.ite_none_right_eq_some, Option.some.injEq] at hv
    obtain ⟨hpc, rfl⟩ := hv
    exact ⟨owner, hu.outside (by rw [hpc]; rfl) rfl (by cases nonblock <;> rfl) rfl rfl⟩

end Moves

/-! ### The calls -/

section Calls

variable {s t : Drv P} {p : P}

/-- The next statement of a `seventh_drv_open` with `O_NONBLOCK` that has not got through, the
call itself included. -/
def Trying (s : Drv P) (p : P) (a : Act P) : Prop :=
  a = .call p true ∨ a = .next p ∧ (s.pc p = .trylock ∨ s.pc p = .busy)

/-- Nothing has changed but that process `p` goes on, or has got `-EBUSY`. -/
structure Unchanged (s t : Drv P) (p : P) : Prop where
  /-- The semaphore. -/
  buttonLock : t.buttonLock = s.buttonLock
  /-- The lines. -/
  lines : t.lines = s.lines
  /-- The others. -/
  others : ∀ q, q ≠ p → t.pc q = s.pc q ∧ t.result q = s.result q
  /-- The process. -/
  refused : t.pc p = .trylock ∨ t.pc p = .busy ∨ t.pc p = .idle ∧ t.result p = -ebusy

theorem unchanged_of_trying {a : Act P} (ha : Trying s p a) (ht : step s a = some t) :
    (t.pc p).inside = true ∨ Unchanged s t p := by
  rcases ha with rfl | ⟨rfl, hpc | hpc⟩
  · simp only [step, Option.ite_none_right_eq_some, Option.some.injEq] at ht
    obtain ⟨-, rfl⟩ := ht
    exact .inr ⟨rfl, rfl, fun q hq => ⟨goto_of_ne hq, rfl⟩, .inl (by simp)⟩
  · simp only [step, hpc] at ht
    split at ht <;> cases ht
    · exact .inl (by simp [Pc.inside])
    · exact .inr ⟨rfl, rfl, fun q hq => ⟨goto_of_ne hq, rfl⟩, .inr (.inl (by simp))⟩
  · simp only [step, hpc, Option.some.injEq] at ht
    subst ht
    refine .inr ⟨rfl, rfl, fun q hq => ⟨goto_of_ne hq, ?_⟩, .inr (.inr ⟨by simp, ?_⟩)⟩ <;>
      simp [Drv.goto, *]

/-- At most one process is between taking the semaphore and giving it back; every `request_irq`
succeeds, and whoever has the device open has its four lines; and without waiting an open with
`O_NONBLOCK` gets through or returns `-EBUSY` and changes nothing. -/
theorem locked_open (h : Reach step Drv.init s) :
    (∀ p q, (s.pc p).inside = true → (s.pc q).inside = true → p = q) ∧
      (∀ p l, s.pc p = .request l → (requestIrq s.lines l).2 = 0) ∧
      (∀ p, s.pc p = .holds → ∀ l, s.lines l = true) ∧
      (∀ p, s.pc p = .trylock ∨ s.pc p = .busy → ∃ t, step s (.next p) = some t) ∧
      ∀ p a t, Trying s p a → step s a = some t → (t.pc p).inside = true ∨ Unchanged s t p := by
  obtain ⟨owner, hs⟩ := held_of_reach h
  have hlines : ∀ p, (s.pc p).inside = true → s.lines = (s.pc p).lines := by
    intro p hp
    have howner := hs.lines
    rwa [(hs.excl p).mp hp] at howner
  refine ⟨fun p q hp hq => hs.excl.unique hp hq, fun p l hp => ?_, fun p hp l => ?_,
    fun p hp => ?_, fun p a t ha ht => unchanged_of_trying ha ht⟩
  · apply requestIrq_of_free
    rw [hlines p (by rw [hp]; rfl), hp]
    simp [Pc.lines]
  · rw [hlines p (by rw [hp]; rfl), hp]
    rfl
  · rcases hp with hp | hp <;> simp only [step, hp]
    · split <;> exact ⟨_, rfl⟩
    · exact ⟨_, rfl⟩

/-- A process has opened the device, and another has been refused. -/
theorem locked_open_second :
    ∃ s : Drv Bool, run step Drv.init [.call true false, .next true, .next true, .next true,
        .next true, .next true, .next true, .call false true, .next false, .next false] = some s ∧
      s.pc true = .holds ∧ s.result false = -ebusy ∧ s.lines .eint19 = true := by
  have hrun : run step (Drv.init : Drv Bool) [.call true false, .next true, .next true,
      .next true, .next true, .next true, .next true, .call false true, .next false,
      .next false] = some _ := rfl
  exact ⟨_, hrun, rfl, rfl, (locked_open ⟨_, hrun⟩).2.2.1 true rfl .eint19⟩

end Calls

end S3c2440.Seventh
