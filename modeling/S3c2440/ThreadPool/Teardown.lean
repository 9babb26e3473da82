import S3c2440.ThreadPool.Exclusion

/-!
# Taking the pool down

`nThreadPoolDestory` walks the worker list without the mutex and sets the flag that
lets a worker free its own record. A worker that is not waiting (it has not taken the
mutex yet, or its job has just returned) may run from its test of the flag to
`free(worker)` while the destroyer is still on its record, and the destroyer then
reads `worker->next` from freed memory: `destory_reads_freed` is such a run.

That is the only way it can go wrong. `destory_safe_iff`: the destroyer touches only
allocated records along a run if and only if no worker of the run frees its record
while the destroyer is between setting its flag and following its `next`. The
invariant is the part of the list the walk has still to visit: no flag in it is set,
and a worker without its flag set has not freed its record.
-/

namespace S3c2440.ThreadPool

open Theory

universe u

variable {n : ℕ} {J : Type u} [DecidableEq J] {s s' : Pool n J}

/-! ### The list of workers -/

omit [DecidableEq J] in
/-- `nThreadPoolCreate` links its workers in a list, the last one made first. -/
theorem holds_workes : (nThreadPoolCreate n J).workes.Holds (List.finRange n).reverse := by
  suffices ∀ ws l : List (Fin n), (ws.reverse ++ l).Nodup → ∀ m : Chain (Fin n), m.Holds l →
      (ws.foldl (fun workes worker => llAdd worker workes) m).Holds (ws.reverse ++ l) by
    have h := this (List.finRange n) [] (by simpa using List.nodup_finRange n) _ Chain.holds_empty
    rwa [List.append_nil] at h
  intro ws
  induction ws with
  | nil => exact fun l _ m hm => hm
  | cons w ws ih =>
    intro l hnd m hm
    rw [List.reverse_cons, List.append_assoc] at hnd ⊢
    refine ih ([w] ++ l) hnd _ (holds_llAdd hm ?_)
    exact (List.nodup_cons.mp (List.nodup_append.mp hnd).2.1).1

/-! ### What the destroyer touches -/

/-- The next statement of `nThreadPoolDestory` writes or reads the record of worker `w`. -/
def Pool.Touches (s : Pool n J) (w : Fin n) : Prop :=
  s.destroy = .walk (some w) ∨ s.destroy = .next w

/-- What the destroyer is about to touch is allocated. -/
def Pool.Safe (s : Pool n J) : Prop := ∀ w, s.Touches w → (s.worker w).allocated = true

/-- Not the `free` of a worker the destroyer is standing on. -/
def KeepsCursor (s : Pool n J) (a : Act n J) : Prop :=
  ∀ w, a = .worker w → (s.worker w).pc = .free → s.destroy ≠ .next w

/-- The walk, with the workers `ws` in the list: those still to be visited have not been
told to stop, and the one being left is there. -/
def Pool.Walking (s : Pool n J) (ws : List (Fin n)) : Prop :=
  match s.destroy with
  | .start => ∀ w, (s.worker w).terminate ≠ 1
  | .walk cursor => ∃ visited rest, ws = visited ++ rest ∧ cursor = rest.head? ∧
      ∀ w ∈ rest, (s.worker w).terminate ≠ 1
  | .next w => (s.worker w).allocated = true ∧
      ∃ visited rest, ws = visited ++ w :: rest ∧ ∀ v ∈ rest, (s.worker v).terminate ≠ 1
  | _ => True

/-- The invariant of a run in which no cursor is freed. -/
structure Pool.Standing (s : Pool n J) (ws : List (Fin n)) : Prop where
  excl : Excl s.mtx s.inside
  know : s.AllKnow
  freed : ∀ w, (s.worker w).allocated = false → (s.worker w).pc = .exited
  holds : s.workes.Holds ws
  walking : s.Walking ws

variable {ws : List (Fin n)}

omit [DecidableEq J] in
/-- A worker that has not been told to stop is allocated. -/
theorem Pool.Standing.allocated {w : Fin n} (h : s.Standing ws)
    (ht : (s.worker w).terminate ≠ 1) : (s.worker w).allocated = true := by
  by_contra ha
  have hk := h.know w
  rw [h.freed w (Bool.eq_false_iff.mpr ha)] at hk
  exact ht hk

omit [DecidableEq J] in
/-- The invariant puts the cursor on an allocated record. -/
theorem Pool.Standing.safe (h : s.Standing ws) : s.Safe := by
  have hw := h.walking
  rintro w (hd | hd) <;> rw [Pool.Walking, hd] at hw
  · obtain ⟨visited, rest, -, hhead, hrest⟩ := hw
    exact h.allocated (hrest w (List.mem_of_mem_head? (Option.mem_def.mpr hhead.symm)))
  · exact hw.1

omit [DecidableEq J] in
/-- A step that neither moves the walk nor sets a flag, nor frees the cursor. -/
theorem Pool.Walking.frame (h : s.Walking ws) (hd : s'.destroy = s.destroy)
    (ht : ∀ w, (s'.worker w).terminate = (s.worker w).terminate)
    (ha : ∀ w, s.destroy = .next w → (s'.worker w).allocated = (s.worker w).allocated) :
    s'.Walking ws := by
  unfold Pool.Walking at h ⊢
  rw [hd]
  simp only [ht]
  cases hc : s.destroy with
  | next w => rw [hc] at h; exact ⟨(ha w hc).trans h.1, h.2⟩
  | _ => rw [hc] at h; exact h

omit [DecidableEq J] in
/-- The walk starts at the head of the list, with no flag set. -/
theorem walking_start (h : s.Walking ws) (hh : s.workes.Holds ws) (hpc : s.destroy = .start) :
    Pool.Walking { s with destroy := .walk s.workes.head } ws := by
  rw [Pool.Walking, hpc] at h
  exact ⟨[], ws, rfl, hh.head_eq, fun w _ => h w⟩

omit [DecidableEq J] in
/-- The flag set is that of the worker the walk is at, and of no worker behind it. -/
theorem walking_set {w : Fin n} (h : s.Standing ws) (hpc : s.destroy = .walk (some w)) :
    Pool.Walking { s.setTerminate w with destroy := .next w } ws := by
  have hw := h.walking
  rw [Pool.Walking, hpc] at hw
  obtain ⟨visited, rest, rfl, hhead, hrest⟩ := hw
  obtain ⟨rest, rfl⟩ := List.head?_eq_some_iff.mp hhead.symm
  refine ⟨?_, visited, rest, rfl, fun v hv => ?_⟩
  · exact (setTerminate_allocated s w w).trans (h.allocated (hrest w (List.mem_cons_self ..)))
  · have hne : v ≠ w := by
      rintro rfl
      exact (List.nodup_cons.mp (List.nodup_append.mp h.holds.nodup).2.1).1 hv
    show ((s.setTerminate w).worker v).terminate ≠ 1
    rw [setTerminate_terminate, if_neg hne]
    exact hrest v (List.mem_cons_of_mem w hv)

omit [DecidableEq J] in
/-- The record left is allocated, so its `next` is the worker behind it. -/
theorem walking_next {w : Fin n} (h : s.Standing ws) (hpc : s.destroy = .next w) :
    Pool.Walking { s with destroy := .walk (s.workes.next w) } ws := by
  have hw := h.walking
  rw [Pool.Walking, hpc] at hw
  obtain ⟨-, visited, rest, rfl, hrest⟩ := hw
  exact ⟨visited ++ [w], rest, by simp, h.holds.seg.middle.1, hrest⟩

/-- One step keeps the invariant, unless it frees the cursor. -/
theorem standing_step {a : Act n J} (h : s.Standing ws) (hc : KeepsCursor s a)
    (hs : step s a = some s') : s'.Standing ws := by
  have hm := moves_of_step hs
  have hx := excl_moves hm h.excl
  have hk := allKnow_moves hm h.excl h.know
  have hgoto : ∀ {w q}, (s.worker w).pc ≠ .exited →
      ∀ v, ((s.goto w q).worker v).allocated = false → ((s.goto w q).worker v).pc = .exited := by
    intro w q hne v hv
    rw [goto_allocated] at hv
    rw [goto_pc]
    split
    · next he => exact absurd (h.freed v hv) (he ▸ hne)
    · exact h.freed v hv
  have hwake : ∀ ws' v, ((s.wakeAll ws').worker v).allocated = false →
      ((s.wakeAll ws').worker v).pc = .exited := by
    intro ws' v hv
    rw [wakeAll_allocated] at hv
    rw [wakeAll_pc, if_neg fun hcon => by simp [h.freed v hv] at hcon]
    exact h.freed v hv
  cases hm with
  | @goto w p q hpc hl =>
    exact ⟨hx, hk, hgoto (by rw [hpc]; cases hl <;> simp), h.holds,
      h.walking.frame rfl (goto_terminate s w · q) fun v _ => goto_allocated s w v q⟩
  | lock hpc | relock hpc | sleep hpc | exitUnlock hpc | remove hpc | unlock hpc | call hpc
  | finish hpc | wake hpc =>
    exact ⟨hx, hk, hgoto (by rw [hpc]; simp), h.holds,
      h.walking.frame rfl (goto_terminate s _ · _) fun v _ => goto_allocated s _ v _⟩
  | @free w hpc =>
    refine ⟨hx, hk, fun v hv => ?_, h.holds,
      h.walking.frame rfl (freeWorker_terminate s w) fun v hd => ?_⟩
    · rw [freeWorker_allocated] at hv
      rw [freeWorker_pc]
      split
      · rfl
      · next hne => rw [if_neg hne] at hv; exact h.freed v hv
    · have hne : v ≠ w := by
        rintro rfl
        exact hc v rfl hpc hd
      rw [freeWorker_allocated, if_neg hne]
  | pushLock | pushAdd | pushUnlock =>
    exact ⟨hx, hk, h.freed, h.holds, h.walking.frame rfl (fun _ => rfl) fun _ _ => rfl⟩
  | @pushSignal j ws' =>
    exact ⟨hx, hk, hwake ws', h.holds,
      h.walking.frame rfl (wakeAll_terminate s · ws') fun v _ => wakeAll_allocated s v ws'⟩
  | destroyStart hpc => exact ⟨hx, hk, h.freed, h.holds, walking_start h.walking h.holds hpc⟩
  | walkEnd => exact ⟨hx, hk, h.freed, h.holds, trivial⟩
  | @walkSet w hpc =>
    refine ⟨hx, hk, fun v hv => ?_, h.holds, walking_set h hpc⟩
    exact (setTerminate_pc s w v).trans (h.freed v ((setTerminate_allocated s w v).symm.trans hv))
  | walkNext hpc => exact ⟨hx, hk, h.freed, h.holds, walking_next h hpc⟩
  | walkStray hpc ha =>
    have hw := h.safe _ (.inr hpc)
    rw [ha] at hw
    cases hw
  | destroyLock => exact ⟨hx, hk, h.freed, h.holds, trivial⟩
  | broadcast => exact ⟨hx, hk, hwake _, h.holds, trivial⟩
  | destroyUnlock => exact ⟨hx, hk, h.freed, h.holds, trivial⟩

omit [DecidableEq J] in
theorem standing_create : (nThreadPoolCreate n J).Standing (List.finRange n).reverse where
  excl := excl_create
  know := allKnow_create
  freed := fun w hw => by simp [nThreadPoolCreate] at hw
  holds := holds_workes
  walking := fun w => by simp [nThreadPoolCreate]

/-! ### When the walk is safe -/

/-- Freeing the record the destroyer stands on is what makes its next read wrong. -/
theorem keepsCursor_of_safe (s : Pool n J) (a : Act n J)
    (h : ∀ t, step s a = some t → t.Safe) : KeepsCursor s a := by
  rintro w rfl hpc hd
  have hs : step s (.worker w) = some (s.freeWorker w) := by
    simp only [step, threadCb, hpc]
  have hw := h _ hs w (.inr hd)
  rw [freeWorker_allocated, if_pos rfl] at hw
  cases hw

/-- Along any run the destroyer touches only allocated workers if and only if no worker
frees its record while the destroyer is between setting its flag and reading its `next`. -/
theorem destory_safe_iff (as : List (Act n J)) :
    Throughout step Pool.Safe (nThreadPoolCreate n J) as ↔
      Along step KeepsCursor (nThreadPoolCreate n J) as := by
  constructor
  · exact Throughout.along keepsCursor_of_safe
  · intro h
    exact (h.invariant (fun _ _ _ hi hc hs => standing_step hi hc hs) standing_create).mono
      fun _ => Pool.Standing.safe

/-- With one worker: the destroyer sets its flag, the worker takes the mutex for the first
time, sees the flag, and frees its record; the destroyer then reads `next`. -/
theorem destory_reads_freed : ¬ ∀ n ≥ 1, ∀ (as : List (Act n Unit)) (s : Pool n Unit),
    run step (nThreadPoolCreate n Unit) as = some s → s.Safe := by
  intro h
  have hw := h 1 (le_refl 1) [.destroy, .destroy, .worker 0, .worker 0, .worker 0, .worker 0,
    .worker 0, .worker 0] _ rfl 0 (.inr rfl)
  revert hw
  decide

end S3c2440.ThreadPool
