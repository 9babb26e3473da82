import S3c2440.ThreadPool.Pool

/-!
# Making the pool

`nThreadPoolCreate` statement by statement, with an allocation or a thread creation that fails,
while the workers that have been started run. When the one or the other fails for a worker, the
call gives back that worker's record and returns a negative code; it does not look at the workers
before.

A worker that is not there yet is like one that has ended: no thread, and no record.

## What is proved

* `waits_of_step` — a worker that is started finds no job and is not told to stop.
* `inv_step` — the workers up to where the call is have been started, and no others.
* `create_all_or_nothing_iff` — a call that fails leaves nothing behind just when it fails for the
  first worker, or for none.
-/

namespace S3c2440.ThreadPool

open Theory

universe u

/-! ### The code -/

/-- What the system answers. -/
structure Os where
  /-- `malloc` gives a record for the `i`-th worker. -/
  malloc : ℕ → Bool
  /-- What `pthread_create` returns for the `i`-th worker. -/
  pthreadCreate : ℕ → ℤ

/-- The `i`-th worker can be made. -/
def Os.Makes (os : Os) (i : ℕ) : Prop := os.malloc i = true ∧ os.pthreadCreate i = 0

/-- `if(numberworks < 1) numberworks =1;`. -/
def workerCount (numberworks : ℤ) : ℕ := if numberworks < 1 then 1 else numberworks.toNat

/-- Where the call of `nThreadPoolCreate` is. -/
inductive CreatePc (n : ℕ) where
  /-- `if(pool == NULL) return -1;`, and the lines before the loop. -/
  | start
  /-- `i < numberworks`. -/
  | test (i : ℕ)
  /-- `malloc`, its test and `memset`. -/
  | malloc (i : Fin n)
  /-- `pthread_create` and its test. -/
  | create (i : Fin n)
  /-- `free(worker)`. -/
  | free (i : Fin n)
  /-- `LL_ADD(worker, pool->workes)`, and `i++`. -/
  | add (i : Fin n)
  /-- Returned, with a code or off the end of the function. -/
  | returned (code : Option ℤ)

/-- The pool and the call. -/
structure Creating (n : ℕ) (J : Type u) where
  /-- The pool. -/
  pool : Pool n J
  /-- Where the call is. -/
  pc : CreatePc n

variable {n : ℕ} {J : Type u}

/-- `memset(pool,0,sizeof(nThreadPool))`, and no mutex taken. -/
def Pool.clear (p : Pool n J) : Pool n J :=
  { p with mtx := none, jobs := { p.jobs with head := none }
           workes := { p.workes with head := none } }

/-- The record of worker `w` is allocated and cleared. -/
def Pool.allocate (p : Pool n J) (w : Fin n) : Pool n J :=
  { p with worker := Function.update p.worker w ⟨.exited, 0, true⟩ }

/-- One statement of `nThreadPoolCreate`. -/
def createStep (os : Os) (null : Bool) (s : Creating n J) : Option (Creating n J) :=
  match s.pc with
  | .start =>
    if null then some { s with pc := .returned (some (-1)) }
    else some { pool := s.pool.clear, pc := .test 0 }
  | .test i => some { s with pc := if h : i < n then .malloc ⟨i, h⟩ else .returned none }
  | .malloc i =>
    if os.malloc i then some { pool := s.pool.allocate i, pc := .create i }
    else some { s with pc := .returned (some (-2)) }
  | .create i =>
    if os.pthreadCreate i ≠ 0 then some { s with pc := .free i }
    else some { pool := s.pool.goto i .lock, pc := .add i }
  | .free i => some { pool := s.pool.freeWorker i, pc := .returned (some (-3)) }
  | .add i =>
    some { pool := { s.pool with workes := llAdd i s.pool.workes }, pc := .test (i + 1) }
  | .returned _ => none

/-- What may happen next. -/
inductive CreateAct (n : ℕ) where
  /-- The next statement of the call. -/
  | create
  /-- A worker's next statement. -/
  | worker (w : Fin n)
  /-- A sleeping worker wakes up for no reason. -/
  | wake (w : Fin n)

/-- Before the call, with anything in the pool: no worker is there. -/
def Creating.start (p : Pool n J) : Creating n J where
  pool := { p with worker := fun _ => ⟨.exited, 0, false⟩ }
  pc := .start

variable [DecidableEq J]

/-- One step of the call or of a worker. -/
def creatingStep (os : Os) (null : Bool) : Step (Creating n J) (CreateAct n)
  | s, .create => createStep os null s
  | s, .worker w => (step s.pool (.worker w)).map fun pool => { s with pool := pool }
  | s, .wake w => (step s.pool (.wake w)).map fun pool => { s with pool := pool }

/-- No worker runs, and no record is allocated. -/
def Pool.AllGone (p : Pool n J) : Prop :=
  ∀ w, (p.worker w).pc = .exited ∧ (p.worker w).allocated = false

/-- Where the call has returned a negative code, no worker is left. -/
def AllOrNothing (os : Os) (null : Bool) (numberworks : ℤ) (p : Pool (workerCount numberworks) J) :
    Prop :=
  ∀ s, Reach (creatingStep os null) (.start p) s → ∀ code < 0, s.pc = .returned (some code) →
    s.pool.AllGone

/-! ### The workers that have been started -/

variable {os : Os} {null : Bool} {p p' : Pool n J} {w : Fin n} {k : ℕ} {record : Bool}

/-- Where a worker is that waits for a job. -/
def WaitingPc : WorkerPc J → Prop
  | .lock | .testJobs | .testWait | .condWait | .asleep | .woken => True
  | _ => False

/-- The worker waits for a job. -/
structure Pool.Waits (p : Pool n J) (w : Fin n) : Prop where
  pc : WaitingPc (p.worker w).pc
  terminate : (p.worker w).terminate = 0
  allocated : (p.worker w).allocated = true

/-- A worker that waits goes on waiting. -/
theorem waits_of_step {a : Act n J} (ha : a = .worker w ∨ a = .wake w)
    (hjobs : p.jobs.head = none) (hw : p.Waits w) (h : step p a = some p') :
    ∃ q, WaitingPc q ∧ p'.worker = (p.goto w q).worker ∧ p'.jobs = p.jobs := by
  have hwaits := hw.pc
  have hterm : (p.worker w).terminate ≠ 1 := by
    rw [hw.terminate]
    exact Int.zero_ne_one
  have hm := moves_of_step h
  rcases ha with rfl | rfl
  · cases hm with
    | goto hpc hlocal =>
      rw [hpc] at hwaits
      cases hlocal with
      | empty => exact ⟨.testWait, trivial, rfl, rfl⟩
      | some hne => exact absurd hjobs hne
      | breaks h1 => exact absurd h1 hterm
      | waits => exact ⟨.condWait, trivial, rfl, rfl⟩
      | exits | stays | fetch | skip => exact hwaits.elim
    | lock hpc hm => exact ⟨.testJobs, trivial, rfl, rfl⟩
    | relock hpc hm => exact ⟨.testJobs, trivial, rfl, rfl⟩
    | sleep hpc => exact ⟨.asleep, trivial, rfl, rfl⟩
    | exitUnlock hpc | remove hpc | unlock hpc | call hpc | finish hpc | free hpc =>
      rw [hpc] at hwaits
      exact hwaits.elim
  · cases hm with
    | wake hpc => exact ⟨.woken, trivial, rfl, rfl⟩

/-- A worker that is not there does nothing. -/
theorem step_of_exited {a : Act n J} (ha : a = .worker w ∨ a = .wake w)
    (hpc : (p.worker w).pc = .exited) : step p a = none := by
  rcases ha with rfl | rfl <;> simp [step, threadCb, hpc]

/-- The workers before the `k`-th have been started, with a record each; that one may have its
record. -/
structure Started (os : Os) (p : Pool n J) (k : ℕ) (record : Bool) : Prop where
  jobs : p.jobs.head = none
  made : ∀ w : Fin n, w.val < k → p.Waits w ∧ os.Makes w
  rest : ∀ w : Fin n, k ≤ w.val → p.worker w = ⟨.exited, 0, record && decide (w.val = k)⟩

/-- No worker is there. -/
def Pool.NoWorker (p : Pool n J) : Prop := ∀ w, p.worker w = ⟨.exited, 0, false⟩

theorem step_of_noWorker {a : Act n J} (ha : a = .worker w ∨ a = .wake w) (h : p.NoWorker) :
    step p a = none := step_of_exited ha (by rw [h w])

/-- The workers move, and nobody else. -/
theorem started_of_step {a : Act n J} (ha : a = .worker w ∨ a = .wake w)
    (h : Started os p k record) (hstep : step p a = some p') : Started os p' k record := by
  by_cases hk : w.val < k
  · obtain ⟨q, hq, hworker, hjobs⟩ := waits_of_step ha h.jobs (h.made w hk).1 hstep
    refine ⟨hjobs ▸ h.jobs, fun v hv => ⟨?_, (h.made v hv).2⟩, fun v hv => ?_⟩
    · have hwaits := (h.made v hv).1
      refine ⟨?_, ?_, ?_⟩
      · rw [hworker, goto_pc]
        split
        · exact hq
        · exact hwaits.pc
      · rw [hworker, goto_terminate, hwaits.terminate]
      · rw [hworker, goto_allocated, hwaits.allocated]
    · have hne : v ≠ w := fun he => absurd hk (by rw [← he]; omega)
      rw [hworker, ← h.rest v hv]
      exact Function.update_of_ne hne _ _
  · have hpc : (p.worker w).pc = .exited := by rw [h.rest w (by omega)]
    rw [step_of_exited ha hpc] at hstep
    cases hstep

omit [DecidableEq J] in
/-- What is left behind: nothing, if no worker has been started. -/
theorem Started.allGone_iff (h : Started os p k false) (hn : 0 < n) : p.AllGone ↔ k = 0 := by
  constructor
  · intro hgone
    by_contra hk
    have hwaits := (h.made ⟨0, hn⟩ (Nat.pos_of_ne_zero hk)).1.pc
    rw [(hgone ⟨0, hn⟩).1] at hwaits
    exact hwaits
  · rintro rfl w
    rw [h.rest w (Nat.zero_le _)]
    exact ⟨rfl, rfl⟩

/-! ### The call -/

/-- The workers that have been started when the call is there, if there is a pool. -/
def Creating.Inv (os : Os) (s : Creating n J) : Prop :=
  match s.pc with
  | .start => s.pool.NoWorker
  | .test i => i ≤ n ∧ Started os s.pool i false
  | .malloc i => Started os s.pool i false
  | .create i => Started os s.pool i true ∧ os.malloc i = true
  | .free i => Started os s.pool i true ∧ ¬ os.Makes i
  | .add i => Started os s.pool (i + 1) false
  | .returned none => Started os s.pool n false
  | .returned (some code) => code < 0 ∧ ∃ k < n, Started os s.pool k false ∧ ¬ os.Makes k

variable {s s' : Creating n J}

/-- What a worker does leaves it so. -/
theorem Creating.Inv.worker_step {a : Act n J} (ha : a = .worker w ∨ a = .wake w)
    (h : s.Inv os) (hstep : step s.pool a = some p') : Creating.Inv os { s with pool := p' } := by
  have hstarted : ∀ k record, Started os s.pool k record → Started os p' k record :=
    fun k record hk => started_of_step ha hk hstep
  have hnone : ¬ s.pool.NoWorker := fun hno => by
    rw [step_of_noWorker ha hno] at hstep
    cases hstep
  obtain ⟨pool, pc⟩ := s
  cases pc with
  | start => exact absurd h hnone
  | test i => exact ⟨h.1, hstarted _ _ h.2⟩
  | malloc i => exact hstarted _ _ h
  | create i => exact ⟨hstarted _ _ h.1, h.2⟩
  | free i => exact ⟨hstarted _ _ h.1, h.2⟩
  | add i => exact hstarted _ _ h
  | returned code =>
    cases code with
    | none => exact hstarted _ _ h
    | some code =>
      obtain ⟨hcode, k, hk, hleft, hfail⟩ := h
      exact ⟨hcode, k, hk, hstarted _ _ hleft, hfail⟩

omit [DecidableEq J] in
theorem Pool.Waits.congr (h : p.Waits w) (hsame : p'.worker w = p.worker w) : p'.Waits w :=
  ⟨hsame ▸ h.pc, hsame ▸ h.terminate, hsame ▸ h.allocated⟩

omit [DecidableEq J] in
/-- The record of the next worker is allocated, or given back. -/
theorem Started.setRecord {i : Fin n} {record' : Bool} (h : Started os p i record)
    (hjobs : p'.jobs = p.jobs)
    (hworker : p'.worker = Function.update p.worker i ⟨.exited, 0, record'⟩) :
    Started os p' i record' := by
  refine ⟨hjobs ▸ h.jobs, fun w hw => ?_, fun w hw => ?_⟩
  · have hne : w ≠ i := fun he => absurd hw (he ▸ Nat.lt_irrefl w)
    have hsame : p'.worker w = p.worker w := by rw [hworker, Function.update_of_ne hne]
    exact ⟨(h.made w hw).1.congr hsame, (h.made w hw).2⟩
  · rw [hworker]
    by_cases he : w = i
    · subst he
      rw [Function.update_self, decide_eq_true rfl, Bool.and_true]
    · have hval : w.val ≠ i.val := fun hv => he (Fin.ext hv)
      rw [Function.update_of_ne he, h.rest w hw, decide_eq_false hval, Bool.and_false,
        Bool.and_false]

omit [DecidableEq J] in
/-- The thread of the next worker is created. -/
theorem Started.goto_lock {i : Fin n} (h : Started os p i true) (hmakes : os.Makes i) :
    Started os (p.goto i .lock) (i + 1) false := by
  have hi := h.rest i (le_refl _)
  rw [decide_eq_true rfl, Bool.and_true] at hi
  refine ⟨h.jobs, fun w hw => ?_, fun w hw => ?_⟩
  · by_cases he : w = i
    · subst he
      refine ⟨⟨?_, ?_, ?_⟩, hmakes⟩
      · rw [goto_pc, if_pos rfl]
        trivial
      · rw [goto_terminate, hi]
      · rw [goto_allocated, hi]
    · have hlt : w.val < i.val := by
        have hval : w.val ≠ i.val := fun hv => he (Fin.ext hv)
        omega
      exact ⟨(h.made w hlt).1.congr (Function.update_of_ne he _ _), (h.made w hlt).2⟩
  · have he : w ≠ i := fun he => absurd hw (by rw [he]; omega)
    have hval : w.val ≠ i.val := fun hv => he (Fin.ext hv)
    have hsame : (p.goto i .lock).worker w = p.worker w := Function.update_of_ne he _ _
    rw [hsame, h.rest w (by omega), decide_eq_false hval, Bool.and_false, Bool.false_and]

omit [DecidableEq J] in
/-- With all the pool's lists empty nobody has been started. -/
theorem started_clear (h : p.NoWorker) : Started os p.clear 0 false :=
  ⟨rfl, fun _ hw => absurd hw (Nat.not_lt_zero _), fun w _ => h w⟩

omit [DecidableEq J] in
/-- What the call does leaves it so. -/
theorem Creating.Inv.create_step (h : s.Inv os) (hstep : createStep os false s = some s') :
    s'.Inv os := by
  obtain ⟨pool, pc⟩ := s
  cases pc with
  | start =>
    cases hstep
    exact ⟨Nat.zero_le _, started_clear h⟩
  | test i =>
    cases hstep
    obtain ⟨hi, hstarted⟩ := h
    dsimp only
    split
    · exact hstarted
    · next hn =>
      obtain rfl : i = n := by omega
      exact hstarted
  | malloc i =>
    simp only [createStep] at hstep
    split at hstep
    · next hmalloc => cases hstep; exact ⟨h.setRecord rfl rfl, hmalloc⟩
    · next hmalloc =>
      cases hstep
      exact ⟨by omega, i, i.isLt, h, fun hmakes => hmalloc hmakes.1⟩
  | create i =>
    obtain ⟨hstarted, hmalloc⟩ := h
    simp only [createStep] at hstep
    split at hstep
    · next hret => cases hstep; exact ⟨hstarted, fun hmakes => hret hmakes.2⟩
    · next hret => cases hstep; exact hstarted.goto_lock ⟨hmalloc, not_not.mp hret⟩
  | free i =>
    cases hstep
    obtain ⟨hstarted, hfail⟩ := h
    have hi := hstarted.rest i (le_refl _)
    refine ⟨by omega, i, i.isLt, hstarted.setRecord rfl ?_, hfail⟩
    show Function.update pool.worker i { pool.worker i with pc := .exited, allocated := false } = _
    rw [hi]
  | add i =>
    cases hstep
    exact ⟨i.isLt, h.jobs, fun w hw => ⟨(h.made w hw).1.congr rfl, (h.made w hw).2⟩, h.rest⟩
  | returned code => cases hstep

/-- Every step leaves it so. -/
theorem inv_step {a : CreateAct n} (h : s.Inv os) (hstep : creatingStep os false s a = some s') :
    s'.Inv os := by
  cases a with
  | create => exact h.create_step hstep
  | worker w =>
    obtain ⟨pool, hpool, rfl⟩ := Option.map_eq_some_iff.mp hstep
    exact h.worker_step (.inl rfl) hpool
  | wake w =>
    obtain ⟨pool, hpool, rfl⟩ := Option.map_eq_some_iff.mp hstep
    exact h.worker_step (.inr rfl) hpool

theorem inv_of_reach (h : Reach (creatingStep os false) (.start p) s) : s.Inv os := by
  have hstart : Creating.Inv os (.start p) := fun _ => rfl
  exact h.invariant (fun _ _ _ => inv_step) hstart

/-- Without a pool nobody is started. -/
theorem noWorker_of_reach (h : Reach (creatingStep os true) (.start p) s) : s.pool.NoWorker := by
  suffices s.pool.NoWorker ∧ (s.pc = .start ∨ ∃ code, s.pc = .returned code) from this.1
  refine h.invariant
    (I := fun s => s.pool.NoWorker ∧ (s.pc = .start ∨ ∃ code, s.pc = .returned code))
    (fun s a t hs ht => ?_) ⟨fun _ => rfl, .inl rfl⟩
  obtain ⟨hno, hpc⟩ := hs
  cases a with
  | create =>
    obtain ⟨pool, pc⟩ := s
    rcases hpc with rfl | ⟨code, rfl⟩
    · cases ht
      exact ⟨hno, .inr ⟨_, rfl⟩⟩
    · cases ht
  | worker w =>
    obtain ⟨pool, hpool, rfl⟩ := Option.map_eq_some_iff.mp ht
    rw [step_of_noWorker (.inl rfl) hno] at hpool
    cases hpool
  | wake w =>
    obtain ⟨pool, hpool, rfl⟩ := Option.map_eq_some_iff.mp ht
    rw [step_of_noWorker (.inr rfl) hno] at hpool
    cases hpool

/-! ### The whole call -/

/-- A turn of the loop ends, if it is left to itself, in front of the next one or after the call. -/
theorem reach_turn (os : Os) (pool : Pool n J) (i : Fin n) :
    ∃ pool', Reach (creatingStep os false) ⟨pool, .malloc i⟩ ⟨pool', .test (i + 1)⟩ ∨
      ∃ code, Reach (creatingStep os false) ⟨pool, .malloc i⟩ ⟨pool', .returned code⟩ := by
  by_cases hmalloc : os.malloc i = true
  · have h₁ : creatingStep os false ⟨pool, .malloc i⟩ .create =
        some ⟨pool.allocate i, .create i⟩ := if_pos hmalloc
    by_cases hret : os.pthreadCreate i ≠ 0
    · have h₂ : creatingStep os false ⟨pool.allocate i, .create i⟩ .create =
          some ⟨pool.allocate i, .free i⟩ := if_pos hret
      exact ⟨_, .inr ⟨_, Reach.head h₁ (Reach.head h₂ (Reach.one (a := .create) rfl))⟩⟩
    · have h₂ : creatingStep os false ⟨pool.allocate i, .create i⟩ .create =
          some ⟨(pool.allocate i).goto i .lock, .add i⟩ := if_neg hret
      exact ⟨_, .inl (Reach.head h₁ (Reach.head h₂ (Reach.one (a := .create) rfl)))⟩
  · have h₁ : creatingStep os false ⟨pool, .malloc i⟩ .create =
        some ⟨pool, .returned (some (-2))⟩ := if_neg hmalloc
    exact ⟨_, .inr ⟨_, Reach.one h₁⟩⟩

theorem reach_returned_of_test (os : Os) (m : ℕ) :
    ∀ i, n - i = m → ∀ pool : Pool n J, ∃ pool' code,
      Reach (creatingStep os false) ⟨pool, .test i⟩ ⟨pool', .returned code⟩ := by
  induction m with
  | zero =>
    intro i hi pool
    have htest : creatingStep os false ⟨pool, .test i⟩ .create = some ⟨pool, .returned none⟩ :=
      congrArg some (congrArg (Creating.mk pool) (dif_neg (by omega)))
    exact ⟨_, _, Reach.one htest⟩
  | succ m ih =>
    intro i hi pool
    have hlt : i < n := by omega
    have htest : creatingStep os false ⟨pool, .test i⟩ .create = some ⟨pool, .malloc ⟨i, hlt⟩⟩ :=
      congrArg some (congrArg (Creating.mk pool) (dif_pos hlt))
    obtain ⟨pool₁, hnext | ⟨code, hend⟩⟩ := reach_turn os pool ⟨i, hlt⟩
    · obtain ⟨pool₂, code, hrest⟩ := ih (i + 1) (by omega) pool₁
      exact ⟨pool₂, code, Reach.head htest (hnext.trans hrest)⟩
    · exact ⟨pool₁, code, Reach.head htest hend⟩

/-- The call can return. -/
theorem exists_returned (os : Os) (p : Pool n J) : ∃ pool code,
    Reach (creatingStep os false) (.start p) ⟨pool, .returned code⟩ := by
  obtain ⟨pool, code, h⟩ := reach_returned_of_test os n 0 rfl (Creating.start p).pool.clear
  exact ⟨pool, code, Reach.head (a := .create) rfl h⟩

theorem workerCount_pos (numberworks : ℤ) : 0 < workerCount numberworks := by
  unfold workerCount
  split <;> omega

variable {numberworks : ℤ} {q : Pool (workerCount numberworks) J}

/-- If some worker cannot be made, and the first one can, that one is left behind. -/
theorem AllOrNothing.makes (h : AllOrNothing os false numberworks q) (hfirst : os.Makes 0) :
    ∀ i < workerCount numberworks, os.Makes i := by
  intro i hi
  by_contra hfail
  obtain ⟨pool, code, hreach⟩ := exists_returned os q
  have hinv := inv_of_reach hreach
  cases code with
  | none => exact hfail (Started.made hinv ⟨i, hi⟩ hi).2
  | some code =>
    obtain ⟨hcode, k, -, hstarted, hk⟩ := hinv
    have hgone := h _ hreach code hcode rfl
    obtain rfl := (hstarted.allGone_iff (workerCount_pos numberworks)).mp hgone
    exact hk hfirst

/-- A call of `nThreadPoolCreate` that returns a negative code leaves no worker behind just when
there is no pool, the first worker cannot be made, or all can. -/
theorem create_all_or_nothing_iff (os : Os) (null : Bool) (numberworks : ℤ)
    (p : Pool (workerCount numberworks) J) : AllOrNothing os null numberworks p ↔
      null = true ∨ ¬ os.Makes 0 ∨ ∀ i < workerCount numberworks, os.Makes i := by
  cases null with
  | true =>
    refine ⟨fun _ => .inl rfl, fun _ s hs code _ _ w => ?_⟩
    rw [noWorker_of_reach hs w]
    exact ⟨rfl, rfl⟩
  | false =>
    constructor
    · intro h
      by_cases hfirst : os.Makes 0
      · exact .inr (.inr (h.makes hfirst))
      · exact .inr (.inl hfirst)
    · rintro hwhen ⟨pool, pc⟩ hs code hcode rfl
      obtain ⟨-, k, hk, hstarted, hfail⟩ := inv_of_reach hs
      refine (hstarted.allGone_iff (workerCount_pos numberworks)).mpr ?_
      rcases hwhen with hnull | hfirst | hall
      · cases hnull
      · -- nobody is started behind one that cannot be
        by_contra hk0
        exact hfirst (hstarted.made ⟨0, workerCount_pos numberworks⟩ (Nat.pos_of_ne_zero hk0)).2
      · exact absurd (hall k hk) hfail

/-- There is no memory for the second worker. -/
def secondFails : Os := ⟨fun i => i = 0, fun _ => 0⟩

/-- Of two workers the first is left. -/
theorem create_secondFails :
    ¬ AllOrNothing secondFails false 2 (nThreadPoolCreate (workerCount 2) ℕ) := fun h => by
  have hmakes : secondFails.Makes 1 := h.makes ⟨rfl, rfl⟩ 1 Nat.one_lt_two
  exact Bool.false_ne_true hmakes.1

end S3c2440.ThreadPool
