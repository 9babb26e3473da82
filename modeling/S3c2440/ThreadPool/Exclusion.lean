import S3c2440.ThreadPool.Pool

/-!
# Who is inside, and what a worker knows there

The two invariants the results about the pool share. `excl_of_reach`: the threads
between their lock and their unlock are the one that owns the mutex. `knows_of_reach`:
what a worker has tested is still so when it acts on it, because the job list does
not change while it is inside and a `terminate` flag is never taken back.
-/

namespace S3c2440.ThreadPool

open Theory

universe u

variable {n : ℕ} {J : Type u}

/-- A worker that owns the mutex. -/
def WorkerPc.inside : WorkerPc J → Bool
  | .testJobs | .testWait | .condWait | .testExit | .exitUnlock | .fetch | .remove _
  | .unlock _ => true
  | _ => false

/-- A pushing caller that owns the mutex. -/
def PushPc.inside : PushPc → Bool
  | .add | .signal | .unlock => true
  | _ => false

/-- A destroyer that owns the mutex. -/
def DestroyPc.inside : DestroyPc n → Bool
  | .broadcast | .unlock => true
  | _ => false

/-- The threads inside their critical sections. -/
def Pool.inside (s : Pool n J) : Thread n J → Prop
  | .worker w => (s.worker w).pc.inside = true
  | .pusher j => (s.push j).inside = true
  | .destroyer => s.destroy.inside = true

/-- What worker `w` knows where it is. -/
def Pool.Knows (s : Pool n J) (w : Fin n) : WorkerPc J → Prop
  | .testWait | .condWait => s.jobs.head = none
  | .testExit => s.jobs.head ≠ none ∨ (s.worker w).terminate = 1
  | .exitUnlock | .free | .exited => (s.worker w).terminate = 1
  | .fetch => s.jobs.head ≠ none
  | .remove job => job = s.jobs.head ∧ s.jobs.head ≠ none
  | .unlock job | .call job => job ≠ none
  | .lock | .testJobs | .asleep | .woken | .running _ => True

/-! ### Mutual exclusion -/

variable [DecidableEq J] {s s' : Pool n J} {a : Act n J}

omit [DecidableEq J] in
/-- A worker that stays in, or stays out. -/
theorem inside_goto {w : Fin n} {q : WorkerPc J} (hq : q.inside = (s.worker w).pc.inside)
    (t : Thread n J) : (s.goto w q).inside t ↔ s.inside t := by
  cases t with
  | worker v =>
    by_cases hv : v = w
    · subst hv; simp [Pool.inside, hq]
    · simp [Pool.inside, hv]
  | pusher j => rfl
  | destroyer => rfl

omit [DecidableEq J] in
/-- Only the worker itself goes in or out. -/
theorem inside_goto_of_ne {w : Fin n} {q : WorkerPc J} {t : Thread n J} (ht : t ≠ .worker w) :
    (s.goto w q).inside t ↔ s.inside t := by
  cases t with
  | worker v =>
    have hv : v ≠ w := fun he => ht (he ▸ rfl)
    simp [Pool.inside, hv]
  | pusher j => rfl
  | destroyer => rfl

theorem inside_pushGoto {j : J} {q : PushPc} (hq : q.inside = (s.push j).inside)
    (t : Thread n J) : (s.pushGoto j q).inside t ↔ s.inside t := by
  cases t with
  | worker v => rfl
  | pusher i =>
    by_cases hi : i = j
    · subst hi; simp [Pool.inside, Pool.pushGoto, hq]
    · simp [Pool.inside, Pool.pushGoto, hi]
  | destroyer => rfl

theorem inside_pushGoto_of_ne {j : J} {q : PushPc} {t : Thread n J} (ht : t ≠ .pusher j) :
    (s.pushGoto j q).inside t ↔ s.inside t := by
  cases t with
  | worker v => rfl
  | pusher i =>
    have hi : i ≠ j := fun he => ht (he ▸ rfl)
    simp [Pool.inside, Pool.pushGoto, hi]
  | destroyer => rfl

theorem inside_wakeAll (ws : List (Fin n)) (t : Thread n J) :
    (s.wakeAll ws).inside t ↔ s.inside t := by
  cases t with
  | worker v =>
    simp only [Pool.inside, wakeAll_pc]
    split
    · next h => rw [h.2]; rfl
    · rfl
  | pusher j => rfl
  | destroyer => rfl

omit [DecidableEq J] in
theorem Local.inside {w : Fin n} {p q : WorkerPc J} (h : Local s w p q) :
    p.inside = true ∧ q.inside = true := by
  cases h <;> exact ⟨rfl, rfl⟩

/-- Every step keeps the threads inside and the owner of the mutex in step. -/
theorem excl_moves (h : Moves s a s') (hx : Excl s.mtx s.inside) : Excl s'.mtx s'.inside := by
  cases h with
  | goto hpc hl =>
    exact hx.congr fun t => inside_goto (by rw [hpc, hl.inside.1, hl.inside.2]) t
  | lock hpc hm | relock hpc hm =>
    exact hx.acquire hm (by simp [Pool.inside, WorkerPc.inside]) fun t ht => inside_goto_of_ne ht
  | sleep hpc | exitUnlock hpc | unlock hpc =>
    exact hx.release (t := .worker _) (by simp [Pool.inside, hpc, WorkerPc.inside])
      (by simp [Pool.inside, Pool.unlock, WorkerPc.inside]) fun t ht => inside_goto_of_ne ht
  | remove hpc => exact hx.congr fun t => inside_goto (by rw [hpc]; rfl) t
  | call hpc | finish hpc | wake hpc => exact hx.congr fun t => inside_goto (by rw [hpc]; rfl) t
  | @free w hpc =>
    apply hx.congr
    intro t
    cases t with
    | worker v =>
      by_cases hv : v = w
      · subst hv; simp [Pool.inside, hpc, WorkerPc.inside]
      · simp [Pool.inside, hv]
    | pusher j | destroyer => rfl
  | @pushLock j hpc hm =>
    exact hx.acquire hm (by simp [Pool.inside, Pool.pushGoto, PushPc.inside])
      fun t ht => inside_pushGoto_of_ne (s := s) (q := .add) ht
  | @pushAdd j hpc =>
    exact hx.congr fun t => inside_pushGoto (s := s) (j := j) (q := .signal) (by rw [hpc]; rfl) t
  | @pushSignal j ws hpc =>
    refine hx.congr fun t => (inside_pushGoto ?_ t).trans (inside_wakeAll ws t)
    show _ = (s.push j).inside
    rw [hpc]; rfl
  | @pushUnlock j hpc =>
    exact hx.release (t := .pusher j) (by simp [Pool.inside, hpc, PushPc.inside])
      (by simp [Pool.inside, Pool.unlock, Pool.pushGoto, PushPc.inside])
      fun t ht => inside_pushGoto_of_ne (s := s) (q := .returned) ht
  | destroyStart hpc | walkEnd hpc | walkNext hpc | walkStray hpc =>
    apply hx.congr
    intro t
    cases t <;> simp [Pool.inside, hpc, DestroyPc.inside]
  | walkSet hpc =>
    apply hx.congr
    intro t
    cases t with
    | worker v => simp [Pool.inside]
    | pusher j => rfl
    | destroyer => simp [Pool.inside, hpc, DestroyPc.inside]
  | destroyLock hpc hm =>
    refine hx.acquire hm rfl fun t ht => ?_
    cases t <;> simp_all [Pool.inside]
  | broadcast hpc =>
    apply hx.congr
    intro t
    cases t with
    | worker v => exact inside_wakeAll _ (.worker v)
    | pusher j => rfl
    | destroyer => simp [Pool.inside, hpc, DestroyPc.inside]
  | destroyUnlock hpc =>
    refine hx.release (t := .destroyer) (by simp [Pool.inside, hpc, DestroyPc.inside])
      (by simp [Pool.inside, Pool.unlock, DestroyPc.inside]) fun t ht => ?_
    cases t <;> simp_all [Pool.inside, Pool.unlock]

omit [DecidableEq J] in
theorem excl_create : Excl (nThreadPoolCreate n J).mtx (nThreadPoolCreate n J).inside := by
  intro t
  cases t <;> simp [nThreadPoolCreate, Pool.inside, WorkerPc.inside, PushPc.inside,
    DestroyPc.inside]

theorem excl_of_reach (h : Reach step (nThreadPoolCreate n J) s) : Excl s.mtx s.inside :=
  h.invariant (fun _ _ _ hx hs => excl_moves (moves_of_step hs) hx) excl_create

/-! ### What a worker knows -/

omit [DecidableEq J] in
/-- A step that leaves the first job alone and takes no flag back. -/
theorem Pool.Knows.frame {v : Fin n} {pc : WorkerPc J} (h : s.Knows v pc)
    (hh : s'.jobs.head = s.jobs.head)
    (ht : (s.worker v).terminate = 1 → (s'.worker v).terminate = 1) : s'.Knows v pc := by
  cases pc <;> simp only [Pool.Knows, hh] at h ⊢ <;>
    first | exact h | exact ht h | exact h.imp_right ht

omit [DecidableEq J] in
/-- What a worker outside knows does not depend on the job list. -/
theorem Pool.Knows.outside {v : Fin n} {pc : WorkerPc J} (h : s.Knows v pc)
    (hpc : pc.inside = false)
    (ht : (s.worker v).terminate = 1 → (s'.worker v).terminate = 1) : s'.Knows v pc := by
  cases pc <;> first | exact h | exact ht h | simp [WorkerPc.inside] at hpc

/-- Every worker knows what it should. -/
def Pool.AllKnow (s : Pool n J) : Prop := ∀ w, s.Knows w (s.worker w).pc

omit [DecidableEq J] in
/-- A worker goes on to where it knows what it should. -/
theorem Pool.AllKnow.goto {w : Fin n} {q : WorkerPc J} (h : s.AllKnow) (hq : s.Knows w q) :
    (s.goto w q).AllKnow := by
  intro v
  rw [goto_pc]
  split
  · next hv => subst hv; exact hq.frame rfl (by simp)
  · exact (h v).frame rfl (by simp)

omit [DecidableEq J] in
theorem Local.knows {w : Fin n} {p q : WorkerPc J} (h : Local s w p q) (hk : s.Knows w p) :
    s.Knows w q := by
  cases h with
  | empty he => exact he
  | some he => exact .inl he
  | breaks ht => exact .inr ht
  | waits => exact hk
  | exits ht => exact ht
  | stays ht => exact hk.resolve_right ht
  | fetch => exact ⟨rfl, hk⟩
  | skip => exact absurd hk.1.symm hk.2

theorem allKnow_moves (h : Moves s a s') (hx : Excl s.mtx s.inside) (hk : s.AllKnow) :
    s'.AllKnow := by
  -- while the mutex is somebody else's, a worker is outside
  have hout : ∀ {t : Thread n J} {v : Fin n}, s.inside t → t ≠ .worker v →
      (s.worker v).pc.inside = false := fun ht hv =>
    Bool.eq_false_iff.mpr fun hin => hv (hx.unique ht (show s.inside (.worker _) from hin))
  cases h with
  | goto hpc hl => exact hk.goto (hl.knows (hpc ▸ hk _))
  | lock | relock | sleep | finish | wake => exact hk.goto trivial
  | @exitUnlock w hpc =>
    have hw := hk w
    rw [hpc] at hw
    exact hk.goto (q := .free) hw
  | @unlock w job hpc =>
    have hw := hk w
    rw [hpc] at hw
    exact hk.goto (q := .call job) hw
  | call => exact hk.goto trivial
  | @remove w j hpc =>
    intro v
    show Pool.Knows _ v ((s.goto w _).worker v).pc
    rw [goto_pc]
    split
    · exact Option.some_ne_none j
    · next hv =>
      have hin : s.inside (.worker w) := by simp [Pool.inside, hpc, WorkerPc.inside]
      exact (hk v).outside (hout hin fun he => hv (Thread.worker.inj he).symm) (by simp)
  | @free w hpc =>
    intro v
    rw [freeWorker_pc]
    split
    · next hv =>
      subst hv
      have hw := hk v
      rw [hpc] at hw
      have hexited : s.Knows v .exited := hw
      exact hexited.frame rfl (by simp)
    · exact (hk v).frame rfl (by simp)
  | pushLock => exact fun v => (hk v).frame rfl id
  | @pushAdd j hpc =>
    have hin : s.inside (.pusher j) := by simp [Pool.inside, hpc, PushPc.inside]
    exact fun v => (hk v).outside (hout hin (by simp)) id
  | pushSignal =>
    intro v
    show Pool.Knows _ v ((s.wakeAll _).worker v).pc
    rw [wakeAll_pc]
    split
    · trivial
    · exact (hk v).frame rfl (by simp [Pool.pushGoto])
  | pushUnlock | destroyStart | walkEnd | walkNext | walkStray | destroyLock | destroyUnlock =>
    exact fun v => (hk v).frame rfl id
  | @walkSet w hpc =>
    intro v
    show Pool.Knows _ v ((s.setTerminate w).worker v).pc
    rw [setTerminate_pc]
    refine (hk v).frame rfl fun ht => ?_
    show ((s.setTerminate w).worker v).terminate = 1
    rw [setTerminate_terminate, ht, ite_self]
  | broadcast =>
    intro v
    show Pool.Knows _ v ((s.wakeAll _).worker v).pc
    rw [wakeAll_pc]
    split
    · trivial
    · exact (hk v).frame rfl (by simp)

omit [DecidableEq J] in
theorem allKnow_create : (nThreadPoolCreate n J).AllKnow := fun _ => trivial

theorem allKnow_of_reach (h : Reach step (nThreadPoolCreate n J) s) : s.AllKnow :=
  (h.invariant (I := fun s => Excl s.mtx s.inside ∧ s.AllKnow)
    (fun _ _ _ hi hs =>
      ⟨excl_moves (moves_of_step hs) hi.1, allKnow_moves (moves_of_step hs) hi.1 hi.2⟩)
    ⟨excl_create, allKnow_create⟩).2

end S3c2440.ThreadPool
