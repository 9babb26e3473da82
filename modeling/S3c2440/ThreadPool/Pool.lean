import S3c2440.Theory.Runs
import S3c2440.Theory.Mutex
import S3c2440.ThreadPool.List
import Mathlib.Data.List.FinRange

/-!
# The thread pool

`linuxSystemProgrome/code/thread_pool/threadpool.c`: workers that take jobs from a
shared list under a mutex and sleep on a condition variable while it is empty
(`thread_cb`), callers that queue a job and signal (`nThreadPoolPushTask`), and a
caller that sets the workers' `terminate` flags and broadcasts
(`nThreadPoolDestory`). The misspelt types and members (`pthred_mutex_t`,
`pool->cond` without `&`, `NJOB` as a variable) are read as intended.

## The model

Every thread has a program counter, and a step is one statement of one thread
(`step`). The mutex has an owner; `pthread_cond_wait` gives the mutex back and
falls asleep in one step; a sleeper is woken by a signal, by a broadcast or for
no reason (`Act.wake`), and then takes the mutex again; `pthread_cond_signal`
wakes one sleeper or more if there is one (`Act.signal`). The job list is only
touched under the mutex, so `LL_ADD` and `LL_REMOVE` on it are one step each. The
destroyer holds nothing while it walks the worker list: writing a flag and
following a `next` pointer are separate steps, and a `next` read from a record
that has been freed may be anything (`Act.stray`).

A job is pushed once, so the call of `nThreadPoolPushTask` for a job is named by
the job. `calls` and `finished` are not in the code: they count the calls of each
job's function and say which of them have returned.
-/

namespace S3c2440.ThreadPool

open Theory

universe u

/-! ### State -/

/-- Where a worker is in `thread_cb`. -/
inductive WorkerPc (J : Type u) where
  /-- `pthread_mutex_lock(&worker->pool->mtx)`. -/
  | lock
  /-- `while(worker->pool->jobs == NULL)`. -/
  | testJobs
  /-- `if(worker->terminate == 1) break;` in the inner loop. -/
  | testWait
  /-- `pthread_cond_wait`, not yet asleep. -/
  | condWait
  /-- Asleep in `pthread_cond_wait`. -/
  | asleep
  /-- Woken in `pthread_cond_wait`, and to take the mutex again. -/
  | woken
  /-- `if(worker->terminate == 1)` after the inner loop. -/
  | testExit
  /-- `pthread_mutex_unlock` before the `break` that leaves the outer loop. -/
  | exitUnlock
  /-- `struct NJOB *job = worker->pool->jobs;`. -/
  | fetch
  /-- `if(job != NULL) LL_REMOVE(job, worker->pool->jobs);`. -/
  | remove (job : Option J)
  /-- `pthread_mutex_unlock` with the job in hand. -/
  | unlock (job : Option J)
  /-- `job->func(job)`, not yet called. -/
  | call (job : Option J)
  /-- Inside the job's function. -/
  | running (job : J)
  /-- `free(worker)`. -/
  | free
  /-- After `pthread_exit`. -/
  | exited
  deriving DecidableEq

/-- A worker's record and its thread. -/
structure Worker (J : Type u) where
  /-- Where the thread is. -/
  pc : WorkerPc J
  /-- The record's `terminate`. -/
  terminate : ℤ
  /-- The record has not been freed. -/
  allocated : Bool

/-- Where a call of `nThreadPoolPushTask` is. -/
inductive PushPc where
  /-- Before `pthread_mutex_lock`. -/
  | lock
  /-- `LL_ADD(job, pool->jobs)`. -/
  | add
  /-- `pthread_cond_signal`. -/
  | signal
  /-- `pthread_mutex_unlock`. -/
  | unlock
  /-- Returned. -/
  | returned
  deriving DecidableEq

/-- Where the call of `nThreadPoolDestory` is. -/
inductive DestroyPc (n : ℕ) where
  /-- Not called yet. -/
  | start
  /-- At the loop test, `worker != NULL`, and then `worker->terminate = 1`. -/
  | walk (worker : Option (Fin n))
  /-- `worker = worker->next`. -/
  | next (worker : Fin n)
  /-- `pthread_mutex_lock`. -/
  | lock
  /-- `pthread_cond_broadcast`. -/
  | broadcast
  /-- `pthread_mutex_unlock`. -/
  | unlock
  /-- Returned. -/
  | returned
  deriving DecidableEq

/-- The threads that may hold the mutex. -/
inductive Thread (n : ℕ) (J : Type u) where
  /-- A worker. -/
  | worker (w : Fin n)
  /-- The caller that pushes a job. -/
  | pusher (j : J)
  /-- The destroyer. -/
  | destroyer
  deriving DecidableEq

/-- A pool of `n` workers, its jobs, and the threads that use it. -/
structure Pool (n : ℕ) (J : Type u) where
  /-- The owner of `mtx`. -/
  mtx : Option (Thread n J)
  /-- `jobs`, and the `prev` and `next` of the jobs. -/
  jobs : Chain J
  /-- `workes`, and the `prev` and `next` of the workers. -/
  workes : Chain (Fin n)
  /-- The workers. -/
  worker : Fin n → Worker J
  /-- The call that pushes each job. -/
  push : J → PushPc
  /-- The call of `nThreadPoolDestory`. -/
  destroy : DestroyPc n
  /-- How often each job's function has been called. -/
  calls : J → ℕ
  /-- The jobs whose function has returned. -/
  finished : J → Bool

variable {n : ℕ} {J : Type u}

/-- `nThreadPoolCreate` for `n` workers, with every allocation and thread creation a
success: worker by worker, `LL_ADD(worker, pool->workes)`. A worker may run before the
call is over; it finds no job then, as it would right after it. -/
def nThreadPoolCreate (n : ℕ) (J : Type u) : Pool n J where
  mtx := none
  jobs := .empty
  workes := (List.finRange n).foldl (fun workes worker => llAdd worker workes) .empty
  worker := fun _ => ⟨.lock, 0, true⟩
  push := fun _ => .lock
  destroy := .start
  calls := fun _ => 0
  finished := fun _ => false

/-! ### Steps -/

/-- What may happen next. -/
inductive Act (n : ℕ) (J : Type u) where
  /-- A worker's next statement. -/
  | worker (w : Fin n)
  /-- A sleeping worker wakes up for no reason. -/
  | wake (w : Fin n)
  /-- The next statement of the call that pushes `j`, but for its signal. -/
  | push (j : J)
  /-- The signal of the call that pushes `j`, which wakes the workers `ws`. -/
  | signal (j : J) (ws : List (Fin n))
  /-- The destroyer's next statement. -/
  | destroy
  /-- The destroyer reads `next` of a freed record and finds `p` there. -/
  | stray (p : Option (Fin n))

/-- Worker `w` goes on to `pc`. -/
def Pool.goto (s : Pool n J) (w : Fin n) (pc : WorkerPc J) : Pool n J :=
  { s with worker := Function.update s.worker w { s.worker w with pc := pc } }

/-- `free(worker)`, run by worker `w`. -/
def Pool.freeWorker (s : Pool n J) (w : Fin n) : Pool n J :=
  { s with
    worker := Function.update s.worker w { s.worker w with pc := .exited, allocated := false } }

/-- `worker->terminate = 1` for worker `w`. -/
def Pool.setTerminate (s : Pool n J) (w : Fin n) : Pool n J :=
  { s with worker := Function.update s.worker w { s.worker w with terminate := 1 } }

/-- The call that pushes `j` goes on to `pc`. -/
def Pool.pushGoto [DecidableEq J] (s : Pool n J) (j : J) (pc : PushPc) : Pool n J :=
  { s with push := Function.update s.push j pc }

variable [DecidableEq J]

/-- The sleepers among `ws` are woken. -/
def Pool.wakeAll (s : Pool n J) (ws : List (Fin n)) : Pool n J :=
  { s with worker := fun w =>
      if w ∈ ws ∧ (s.worker w).pc = .asleep then { s.worker w with pc := .woken }
      else s.worker w }

/-- `pthread_mutex_lock` by `t`: it waits while the mutex is taken. -/
def Pool.lock (s : Pool n J) (t : Thread n J) : Option (Pool n J) :=
  if s.mtx = none then some { s with mtx := some t } else none

/-- `pthread_mutex_unlock`. -/
def Pool.unlock (s : Pool n J) : Pool n J := { s with mtx := none }

/-- One statement of `thread_cb`, run by worker `w`. -/
def threadCb (s : Pool n J) (w : Fin n) : Option (Pool n J) :=
  match (s.worker w).pc with
  | .lock => (s.goto w .testJobs).lock (.worker w)
  | .testJobs => some (s.goto w (if s.jobs.head = none then .testWait else .testExit))
  | .testWait => some (s.goto w (if (s.worker w).terminate = 1 then .testExit else .condWait))
  | .condWait => some (s.goto w .asleep).unlock
  | .asleep => none
  | .woken => (s.goto w .testJobs).lock (.worker w)
  | .testExit => some (s.goto w (if (s.worker w).terminate = 1 then .exitUnlock else .fetch))
  | .exitUnlock => some (s.goto w .free).unlock
  | .fetch => some (s.goto w (.remove s.jobs.head))
  | .remove none => some (s.goto w (.unlock none))
  | .remove (some j) => some { s.goto w (.unlock (some j)) with jobs := llRemove j s.jobs }
  | .unlock job => some (s.goto w (.call job)).unlock
  | .call none => none
  | .call (some j) =>
    some { s.goto w (.running j) with calls := Function.update s.calls j (s.calls j + 1) }
  | .running j => some { s.goto w .lock with finished := Function.update s.finished j true }
  | .free => some (s.freeWorker w)
  | .exited => none

/-- One statement of `nThreadPoolPushTask(pool, j)`, its signal apart. -/
def nThreadPoolPushTask (s : Pool n J) (j : J) : Option (Pool n J) :=
  match s.push j with
  | .lock => (s.pushGoto j .add).lock (.pusher j)
  | .add => some { s.pushGoto j .signal with jobs := llAdd j s.jobs }
  | .signal => none
  | .unlock => some (s.pushGoto j .returned).unlock
  | .returned => none

/-- The signal of `nThreadPoolPushTask(pool, j)`: the woken are asleep, and there is one if
anybody is. -/
def condSignal (s : Pool n J) (j : J) (ws : List (Fin n)) : Option (Pool n J) :=
  if s.push j = .signal ∧ (∀ w ∈ ws, (s.worker w).pc = .asleep) ∧
      ((∃ w, (s.worker w).pc = .asleep) → ws ≠ []) then
    some ((s.wakeAll ws).pushGoto j .unlock)
  else none

/-- One statement of `nThreadPoolDestory`; `next` of a freed record is left to `Act.stray`. -/
def nThreadPoolDestory (s : Pool n J) : Option (Pool n J) :=
  match s.destroy with
  | .start => some { s with destroy := .walk s.workes.head }
  | .walk none => some { s with destroy := .lock }
  | .walk (some w) => some { s.setTerminate w with destroy := .next w }
  | .next w =>
    if (s.worker w).allocated then some { s with destroy := .walk (s.workes.next w) } else none
  | .lock => ({ s with destroy := .broadcast } : Pool n J).lock .destroyer
  | .broadcast => some { s.wakeAll (List.finRange n) with destroy := .unlock }
  | .unlock => some ({ s with destroy := .returned } : Pool n J).unlock
  | .returned => none

/-- One step of the pool. -/
def step (s : Pool n J) : Act n J → Option (Pool n J)
  | .worker w => threadCb s w
  | .wake w => if (s.worker w).pc = .asleep then some (s.goto w .woken) else none
  | .push j => nThreadPoolPushTask s j
  | .signal j ws => condSignal s j ws
  | .destroy => nThreadPoolDestory s
  | .stray p =>
    match s.destroy with
    | .next w => if (s.worker w).allocated then none else some { s with destroy := .walk p }
    | _ => none

/-! ### The fields after an update -/

section Fields

variable (s : Pool n J) (w v : Fin n) (pc : WorkerPc J) (ws : List (Fin n))

omit [DecidableEq J] in
@[simp] theorem goto_pc :
    ((s.goto w pc).worker v).pc = if v = w then pc else (s.worker v).pc := by
  by_cases h : v = w
  · subst h; simp [Pool.goto]
  · simp [Pool.goto, h]

omit [DecidableEq J] in
@[simp] theorem goto_terminate : ((s.goto w pc).worker v).terminate = (s.worker v).terminate := by
  by_cases h : v = w
  · subst h; simp [Pool.goto]
  · simp [Pool.goto, h]

omit [DecidableEq J] in
@[simp] theorem goto_allocated : ((s.goto w pc).worker v).allocated = (s.worker v).allocated := by
  by_cases h : v = w
  · subst h; simp [Pool.goto]
  · simp [Pool.goto, h]

omit [DecidableEq J] in
@[simp] theorem freeWorker_pc :
    ((s.freeWorker w).worker v).pc = if v = w then .exited else (s.worker v).pc := by
  by_cases h : v = w
  · subst h; simp [Pool.freeWorker]
  · simp [Pool.freeWorker, h]

omit [DecidableEq J] in
@[simp] theorem freeWorker_terminate :
    ((s.freeWorker w).worker v).terminate = (s.worker v).terminate := by
  by_cases h : v = w
  · subst h; simp [Pool.freeWorker]
  · simp [Pool.freeWorker, h]

omit [DecidableEq J] in
@[simp] theorem freeWorker_allocated : ((s.freeWorker w).worker v).allocated =
    if v = w then false else (s.worker v).allocated := by
  by_cases h : v = w
  · subst h; simp [Pool.freeWorker]
  · simp [Pool.freeWorker, h]

omit [DecidableEq J] in
@[simp] theorem setTerminate_pc : ((s.setTerminate w).worker v).pc = (s.worker v).pc := by
  by_cases h : v = w
  · subst h; simp [Pool.setTerminate]
  · simp [Pool.setTerminate, h]

omit [DecidableEq J] in
@[simp] theorem setTerminate_terminate : ((s.setTerminate w).worker v).terminate =
    if v = w then 1 else (s.worker v).terminate := by
  by_cases h : v = w
  · subst h; simp [Pool.setTerminate]
  · simp [Pool.setTerminate, h]

omit [DecidableEq J] in
@[simp] theorem setTerminate_allocated :
    ((s.setTerminate w).worker v).allocated = (s.worker v).allocated := by
  by_cases h : v = w
  · subst h; simp [Pool.setTerminate]
  · simp [Pool.setTerminate, h]

@[simp] theorem wakeAll_pc : ((s.wakeAll ws).worker v).pc =
    if v ∈ ws ∧ (s.worker v).pc = .asleep then .woken else (s.worker v).pc := by
  simp only [Pool.wakeAll]
  split <;> rfl

@[simp] theorem wakeAll_terminate :
    ((s.wakeAll ws).worker v).terminate = (s.worker v).terminate := by
  simp only [Pool.wakeAll]
  split <;> rfl

@[simp] theorem wakeAll_allocated :
    ((s.wakeAll ws).worker v).allocated = (s.worker v).allocated := by
  simp only [Pool.wakeAll]
  split <;> rfl

end Fields

/-! ### What a step can do -/

/-- The statements of worker `w` that touch nothing but its program counter. -/
inductive Local (s : Pool n J) (w : Fin n) : WorkerPc J → WorkerPc J → Prop where
  /-- The job list is empty. -/
  | empty : s.jobs.head = none → Local s w .testJobs .testWait
  /-- It is not. -/
  | some : s.jobs.head ≠ none → Local s w .testJobs .testExit
  /-- Told to stop while waiting. -/
  | breaks : (s.worker w).terminate = 1 → Local s w .testWait .testExit
  /-- Not told to stop: wait. -/
  | waits : (s.worker w).terminate ≠ 1 → Local s w .testWait .condWait
  /-- Told to stop. -/
  | exits : (s.worker w).terminate = 1 → Local s w .testExit .exitUnlock
  /-- Not told to stop. -/
  | stays : (s.worker w).terminate ≠ 1 → Local s w .testExit .fetch
  /-- The first job is read. -/
  | fetch : Local s w .fetch (.remove s.jobs.head)
  /-- There was none to take out. -/
  | skip : Local s w (.remove none) (.unlock none)

/-- Every step of the pool. -/
inductive Moves (s : Pool n J) : Act n J → Pool n J → Prop where
  | goto {w : Fin n} {p q : WorkerPc J} (hpc : (s.worker w).pc = p) (h : Local s w p q) :
      Moves s (.worker w) (s.goto w q)
  | lock {w : Fin n} (hpc : (s.worker w).pc = .lock) (hm : s.mtx = none) :
      Moves s (.worker w) { s.goto w .testJobs with mtx := some (.worker w) }
  | relock {w : Fin n} (hpc : (s.worker w).pc = .woken) (hm : s.mtx = none) :
      Moves s (.worker w) { s.goto w .testJobs with mtx := some (.worker w) }
  | sleep {w : Fin n} (hpc : (s.worker w).pc = .condWait) :
      Moves s (.worker w) (s.goto w .asleep).unlock
  | exitUnlock {w : Fin n} (hpc : (s.worker w).pc = .exitUnlock) :
      Moves s (.worker w) (s.goto w .free).unlock
  | remove {w : Fin n} {j : J} (hpc : (s.worker w).pc = .remove (.some j)) :
      Moves s (.worker w) { s.goto w (.unlock (.some j)) with jobs := llRemove j s.jobs }
  | unlock {w : Fin n} {job : Option J} (hpc : (s.worker w).pc = .unlock job) :
      Moves s (.worker w) (s.goto w (.call job)).unlock
  | call {w : Fin n} {j : J} (hpc : (s.worker w).pc = .call (.some j)) :
      Moves s (.worker w)
        { s.goto w (.running j) with calls := Function.update s.calls j (s.calls j + 1) }
  | finish {w : Fin n} {j : J} (hpc : (s.worker w).pc = .running j) :
      Moves s (.worker w) { s.goto w .lock with finished := Function.update s.finished j true }
  | free {w : Fin n} (hpc : (s.worker w).pc = .free) :
      Moves s (.worker w) (s.freeWorker w)
  | wake {w : Fin n} (hpc : (s.worker w).pc = .asleep) : Moves s (.wake w) (s.goto w .woken)
  | pushLock {j : J} (hpc : s.push j = .lock) (hm : s.mtx = none) :
      Moves s (.push j) { s.pushGoto j .add with mtx := some (.pusher j) }
  | pushAdd {j : J} (hpc : s.push j = .add) :
      Moves s (.push j) { s.pushGoto j .signal with jobs := llAdd j s.jobs }
  | pushSignal {j : J} {ws : List (Fin n)} (hpc : s.push j = .signal)
      (hws : ∀ w ∈ ws, (s.worker w).pc = .asleep)
      (hsome : (∃ w, (s.worker w).pc = .asleep) → ws ≠ []) :
      Moves s (.signal j ws) ((s.wakeAll ws).pushGoto j .unlock)
  | pushUnlock {j : J} (hpc : s.push j = .unlock) :
      Moves s (.push j) (s.pushGoto j .returned).unlock
  | destroyStart (hpc : s.destroy = .start) :
      Moves s .destroy { s with destroy := .walk s.workes.head }
  | walkEnd (hpc : s.destroy = .walk none) : Moves s .destroy { s with destroy := .lock }
  | walkSet {w : Fin n} (hpc : s.destroy = .walk (.some w)) :
      Moves s .destroy { s.setTerminate w with destroy := .next w }
  | walkNext {w : Fin n} (hpc : s.destroy = .next w) (ha : (s.worker w).allocated = true) :
      Moves s .destroy { s with destroy := .walk (s.workes.next w) }
  | walkStray {w : Fin n} {p : Option (Fin n)} (hpc : s.destroy = .next w)
      (ha : (s.worker w).allocated = false) : Moves s (.stray p) { s with destroy := .walk p }
  | destroyLock (hpc : s.destroy = .lock) (hm : s.mtx = none) :
      Moves s .destroy { s with destroy := .broadcast, mtx := some .destroyer }
  | broadcast (hpc : s.destroy = .broadcast) :
      Moves s .destroy { s.wakeAll (List.finRange n) with destroy := .unlock }
  | destroyUnlock (hpc : s.destroy = .unlock) :
      Moves s .destroy ({ s with destroy := .returned } : Pool n J).unlock

omit [DecidableEq J] in
theorem lock_eq_some {s s' : Pool n J} {t : Thread n J} :
    s.lock t = some s' ↔ s.mtx = none ∧ s' = { s with mtx := some t } := by
  unfold Pool.lock
  split <;> simp_all [eq_comm]

theorem moves_of_threadCb {s s' : Pool n J} {w : Fin n} (h : threadCb s w = some s') :
    Moves s (.worker w) s' := by
  unfold threadCb at h
  split at h
  case h_1 hpc => obtain ⟨hm, rfl⟩ := lock_eq_some.mp h; exact .lock hpc hm
  case h_2 hpc =>
    cases h
    split
    · next he => exact .goto hpc (.empty he)
    · next he => exact .goto hpc (.some he)
  case h_3 hpc =>
    cases h
    split
    · next he => exact .goto hpc (.breaks he)
    · next he => exact .goto hpc (.waits he)
  case h_4 hpc => cases h; exact .sleep hpc
  case h_5 => cases h
  case h_6 hpc => obtain ⟨hm, rfl⟩ := lock_eq_some.mp h; exact .relock hpc hm
  case h_7 hpc =>
    cases h
    split
    · next he => exact .goto hpc (.exits he)
    · next he => exact .goto hpc (.stays he)
  case h_8 hpc => cases h; exact .exitUnlock hpc
  case h_9 hpc => cases h; exact .goto hpc .fetch
  case h_10 hpc => cases h; exact .goto hpc .skip
  case h_11 hpc => cases h; exact .remove hpc
  case h_12 hpc => cases h; exact .unlock hpc
  case h_13 => cases h
  case h_14 hpc => cases h; exact .call hpc
  case h_15 hpc => cases h; exact .finish hpc
  case h_16 hpc => cases h; exact .free hpc
  case h_17 => cases h

/-- The inversion lemma: a step is one of the moves. -/
theorem moves_of_step {s s' : Pool n J} {a : Act n J} (h : step s a = some s') :
    Moves s a s' := by
  cases a with
  | worker w => exact moves_of_threadCb h
  | wake w =>
    simp only [step] at h
    split at h
    · next hpc => cases h; exact .wake hpc
    · cases h
  | push j =>
    simp only [step, nThreadPoolPushTask] at h
    split at h
    case h_1 hpc => obtain ⟨hm, rfl⟩ := lock_eq_some.mp h; exact .pushLock hpc hm
    case h_2 hpc => cases h; exact .pushAdd hpc
    case h_3 => cases h
    case h_4 hpc => cases h; exact .pushUnlock hpc
    case h_5 => cases h
  | signal j ws =>
    simp only [step, condSignal] at h
    split at h
    · next hc => cases h; exact .pushSignal hc.1 hc.2.1 hc.2.2
    · cases h
  | destroy =>
    simp only [step, nThreadPoolDestory] at h
    split at h
    case h_1 hpc => cases h; exact .destroyStart hpc
    case h_2 hpc => cases h; exact .walkEnd hpc
    case h_3 hpc => cases h; exact .walkSet hpc
    case h_4 hpc =>
      split at h
      · next ha => cases h; exact .walkNext hpc ha
      · cases h
    case h_5 hpc => obtain ⟨hm, rfl⟩ := lock_eq_some.mp h; exact .destroyLock hpc hm
    case h_6 hpc => cases h; exact .broadcast hpc
    case h_7 hpc => cases h; exact .destroyUnlock hpc
    case h_8 => cases h
  | stray p =>
    simp only [step] at h
    split at h
    · next hpc =>
      split at h
      · cases h
      · next ha => cases h; exact .walkStray hpc (Bool.eq_false_iff.mpr ha)
    · cases h

end S3c2440.ThreadPool
