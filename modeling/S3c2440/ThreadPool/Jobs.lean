import S3c2440.ThreadPool.Exclusion
import S3c2440.Theory.Tally

/-!
# Every job runs once

A job that has been pushed is in one place: the list, the hands of one worker, or
finished. The invariant `Pool.Kept` is a balance for each job, the occurrences in the
list plus the workers that hold it plus one if it is finished being one or zero
according to whether it has been pushed, so that each step has only to be checked
for what it moves from one place to another. `job_in_one_place` states the result
for every reachable state of the pool, the destroyer's steps included.
-/

namespace S3c2440.ThreadPool

open Theory

universe u

variable {n : ℕ} {J : Type u}

/-- The job a worker has taken out of the list and whose function has not returned. -/
def WorkerPc.hand : WorkerPc J → Option J
  | .unlock job | .call job => job
  | .running j => some j
  | _ => none

@[simp] theorem hand_lock : (WorkerPc.lock : WorkerPc J).hand = none := rfl

@[simp] theorem hand_remove (job : Option J) : (WorkerPc.remove job).hand = none := rfl

@[simp] theorem hand_unlock (job : Option J) : (WorkerPc.unlock job).hand = job := rfl

@[simp] theorem hand_call (job : Option J) : (WorkerPc.call job).hand = job := rfl

@[simp] theorem hand_running (j : J) : (WorkerPc.running j).hand = some j := rfl

/-- `LL_ADD(job, pool->jobs)` is done. -/
def PushPc.added : PushPc → Bool
  | .signal | .unlock | .returned => true
  | .lock | .add => false

variable [DecidableEq J] {s s' : Pool n J} {a : Act n J} {l : List J}

/-- The list is well formed, and every job is accounted for. -/
structure Pool.Kept (s : Pool n J) (l : List J) : Prop where
  holds : s.jobs.Holds l
  place : ∀ j, l.count j + tally (fun x => x.pc.hand = some j) s.worker + (s.finished j).toNat =
    (s.push j).added.toNat
  calls : ∀ j, s.calls j = tally (fun x => x.pc = .running j) s.worker + (s.finished j).toNat

/-! ### Worker by worker -/

/-- What a worker's going on to `q` does to the number of workers that hold `j`. -/
theorem tally_hand_goto (s : Pool n J) (w : Fin n) (q : WorkerPc J) (j : J) :
    tally (fun x => x.pc.hand = some j) (s.goto w q).worker +
        (if (s.worker w).pc.hand = some j then 1 else 0) =
      tally (fun x => x.pc.hand = some j) s.worker + (if q.hand = some j then 1 else 0) :=
  tally_update s.worker w { s.worker w with pc := q }

/-- The same for the number of workers that are at `a`. -/
theorem tally_pc_goto (s : Pool n J) (w : Fin n) (q a : WorkerPc J) :
    tally (fun x => x.pc = a) (s.goto w q).worker + (if (s.worker w).pc = a then 1 else 0) =
      tally (fun x => x.pc = a) s.worker + (if q = a then 1 else 0) :=
  tally_update s.worker w { s.worker w with pc := q }

/-- It stays the same where the worker neither comes from there nor goes there. -/
theorem tally_pc_goto_of_ne {w : Fin n} {q a : WorkerPc J} (hold : (s.worker w).pc ≠ a)
    (hnew : q ≠ a) :
    tally (fun x => x.pc = a) (s.goto w q).worker = tally (fun x => x.pc = a) s.worker := by
  have ht := tally_pc_goto s w q a
  rwa [if_neg hold, if_neg hnew] at ht

omit [DecidableEq J] in
theorem Local.hand {w : Fin n} {p q : WorkerPc J} (h : Local s w p q) :
    p.hand = none ∧ q.hand = none ∧ (∀ j, p ≠ .running j) ∧ ∀ j, q ≠ .running j := by
  cases h <;> simp [WorkerPc.hand]

/-- No worker takes, calls or finishes a job between `f` and `g`. -/
def SameHands (f g : Fin n → Worker J) : Prop :=
  ∀ w, (g w).pc.hand = (f w).pc.hand ∧ ∀ j, (g w).pc = .running j ↔ (f w).pc = .running j

omit [DecidableEq J] in
theorem sameHands_refl (f : Fin n → Worker J) : SameHands f f := fun _ => ⟨rfl, fun _ => Iff.rfl⟩

omit [DecidableEq J] in
theorem sameHands_goto {w : Fin n} {q : WorkerPc J} (hh : q.hand = (s.worker w).pc.hand)
    (hr : ∀ j, q = .running j ↔ (s.worker w).pc = .running j) :
    SameHands s.worker (s.goto w q).worker := by
  intro v
  rw [goto_pc]
  split
  · next hv => subst hv; exact ⟨hh, hr⟩
  · exact ⟨rfl, fun _ => Iff.rfl⟩

theorem sameHands_wakeAll (ws : List (Fin n)) : SameHands s.worker (s.wakeAll ws).worker := by
  intro v
  rw [wakeAll_pc]
  split
  · next hv => simp [hv.2, WorkerPc.hand]
  · exact ⟨rfl, fun _ => Iff.rfl⟩

/-- A step in which no job moves keeps every job accounted for. -/
theorem Pool.Kept.still (h : s.Kept l) (hj : s'.jobs = s.jobs) (hf : s'.finished = s.finished)
    (hc : s'.calls = s.calls) (hp : ∀ j, (s'.push j).added = (s.push j).added)
    (hw : SameHands s.worker s'.worker) : s'.Kept l := by
  refine ⟨hj ▸ h.holds, fun j => ?_, fun j => ?_⟩
  · have ht : tally (fun x => x.pc.hand = some j) s'.worker =
        tally (fun x => x.pc.hand = some j) s.worker := tally_congr fun w => by rw [(hw w).1]
    rw [hp, hf, ht]
    exact h.place j
  · have ht : tally (fun x => x.pc = .running j) s'.worker =
        tally (fun x => x.pc = .running j) s.worker := tally_congr fun w => (hw w).2 j
    rw [hc, hf, ht]
    exact h.calls j

/-- The first job goes from the list to the worker's hands. -/
theorem Pool.Kept.remove {w : Fin n} {j : J} (h : s.Kept (j :: l))
    (hpc : (s.worker w).pc = .remove (some j)) :
    Pool.Kept { s.goto w (.unlock (some j)) with jobs := llRemove j s.jobs } l := by
  refine ⟨holds_llRemove_head h.holds, fun i => ?_, fun i => ?_⟩
  · have ht := tally_hand_goto s w (.unlock (some j)) i
    have hp := h.place i
    show l.count i + tally _ (s.goto w _).worker + (s.finished i).toNat = (s.push i).added.toNat
    rw [hpc, hand_remove, hand_unlock, if_neg (Option.some_ne_none i).symm] at ht
    rw [List.count_cons] at hp
    by_cases hi : j = i
    · rw [if_pos (by simp [hi])] at ht hp
      omega
    · rw [if_neg (by simpa using hi)] at ht hp
      omega
  · have hold : (s.worker w).pc ≠ .running i := by rw [hpc]; nofun
    have hnew : WorkerPc.unlock (some j) ≠ .running i := nofun
    show s.calls i = tally _ (s.goto w _).worker + (s.finished i).toNat
    rw [tally_pc_goto_of_ne hold hnew]
    exact h.calls i

/-- The job's function is called. -/
theorem Pool.Kept.call {w : Fin n} {j : J} (h : s.Kept l)
    (hpc : (s.worker w).pc = .call (some j)) :
    Pool.Kept
      { s.goto w (.running j) with calls := Function.update s.calls j (s.calls j + 1) } l := by
  refine ⟨h.holds, fun i => ?_, fun i => ?_⟩
  · have ht := tally_hand_goto s w (.running j) i
    simp only [hpc, hand_call, hand_running] at ht
    show l.count i + tally _ (s.goto w _).worker + (s.finished i).toNat = (s.push i).added.toNat
    rw [Nat.add_right_cancel ht]
    exact h.place i
  · have hc := h.calls i
    show Function.update s.calls j _ i = tally _ (s.goto w _).worker + (s.finished i).toNat
    by_cases hi : i = j
    · subst hi
      have ht := tally_pc_goto s w (.running i) (.running i)
      simp only [hpc, reduceCtorEq, if_false, if_true] at ht
      rw [Function.update_self]
      omega
    · have hold : (s.worker w).pc ≠ .running i := by rw [hpc]; nofun
      have hnew : WorkerPc.running j ≠ .running i := fun he => hi (WorkerPc.running.inj he).symm
      rw [Function.update_of_ne hi, tally_pc_goto_of_ne hold hnew]
      exact hc

/-- The job's function returns. -/
theorem Pool.Kept.finish {w : Fin n} {j : J} (h : s.Kept l)
    (hpc : (s.worker w).pc = .running j) :
    Pool.Kept { s.goto w .lock with finished := Function.update s.finished j true } l := by
  -- the job is in this worker's hands, so nowhere else
  have hpos : 0 < tally (fun x => x.pc.hand = some j) s.worker :=
    tally_pos.mpr ⟨w, by rw [hpc]; rfl⟩
  have hj := h.place j
  have hfin : s.finished j = false := by
    have := Bool.toNat_le (s.push j).added
    cases hf : s.finished j with
    | false => rfl
    | true => rw [hf, Bool.toNat_true] at hj; omega
  refine ⟨h.holds, fun i => ?_, fun i => ?_⟩
  · have ht := tally_hand_goto s w .lock i
    have hp := h.place i
    show l.count i + tally _ (s.goto w _).worker + (Function.update s.finished j true i).toNat =
      (s.push i).added.toNat
    by_cases hi : i = j
    · subst hi
      simp only [hpc, hand_running, hand_lock, reduceCtorEq, if_false, if_true, hfin,
        Bool.toNat_false] at ht hp
      rw [Function.update_self, Bool.toNat_true]
      omega
    · simp only [hpc, hand_running, hand_lock, reduceCtorEq, Option.some.injEq, Ne.symm hi,
        if_false] at ht
      rw [Function.update_of_ne hi]
      omega
  · have hc := h.calls i
    show s.calls i = tally _ (s.goto w _).worker + (Function.update s.finished j true i).toNat
    by_cases hi : i = j
    · subst hi
      have ht := tally_pc_goto s w .lock (.running i)
      simp only [hpc, reduceCtorEq, if_false, if_true, hfin, Bool.toNat_false] at ht hc
      rw [Function.update_self, Bool.toNat_true]
      omega
    · have hold : (s.worker w).pc ≠ .running i := by
        rw [hpc]
        exact fun he => hi (WorkerPc.running.inj he).symm
      have hnew : WorkerPc.lock ≠ WorkerPc.running i := nofun
      rw [Function.update_of_ne hi, tally_pc_goto_of_ne hold hnew]
      exact hc

/-! ### The callers -/

/-- A push that does not add the job. -/
theorem added_pushGoto {j : J} {q : PushPc} (hq : q.added = (s.push j).added) (i : J) :
    ((s.pushGoto j q).push i).added = (s.push i).added := by
  by_cases hi : i = j
  · subst hi; simp [Pool.pushGoto, hq]
  · simp [Pool.pushGoto, hi]

/-- The job goes into the list. -/
theorem Pool.Kept.pushAdd {j : J} (h : s.Kept l) (hpc : s.push j = .add) :
    Pool.Kept { s.pushGoto j .signal with jobs := llAdd j s.jobs } (j :: l) := by
  have hj := h.place j
  rw [hpc, PushPc.added, Bool.toNat_false] at hj
  have hnot : j ∉ l := List.count_eq_zero.mp (by omega)
  refine ⟨holds_llAdd h.holds hnot, fun i => ?_, h.calls⟩
  have hp := h.place i
  show _ = (Function.update s.push j .signal i).added.toNat
  rw [List.count_cons]
  by_cases hi : i = j
  · subst hi
    rw [Function.update_self, if_pos (beq_self_eq_true i), PushPc.added, Bool.toNat_true]
    show List.count i l + 1 + tally _ s.worker + (s.finished i).toNat = 1
    omega
  · rw [Function.update_of_ne hi, if_neg (by simpa using Ne.symm hi)]
    exact hp

/-- Every step keeps every job accounted for. -/
theorem kept_moves (h : Moves s a s') (hx : s.AllKnow) (hk : s.Kept l) : ∃ l', s'.Kept l' := by
  cases h with
  | goto hpc hl =>
    obtain ⟨h1, h2, h3, h4⟩ := hl.hand
    exact ⟨l, hk.still rfl rfl rfl (fun _ => rfl)
      (sameHands_goto (by rw [hpc, h1, h2]) fun j => by simp [hpc, h3, h4])⟩
  | lock hpc | relock hpc | sleep hpc | exitUnlock hpc | wake hpc | unlock hpc =>
    exact ⟨l, hk.still rfl rfl rfl (fun _ => rfl)
      (sameHands_goto (by rw [hpc]; rfl) fun j => by simp [hpc])⟩
  | @remove w j hpc =>
    have hw := hx w
    rw [hpc] at hw
    obtain ⟨l', rfl⟩ : ∃ l', l = j :: l' := by
      rw [Pool.Knows, hk.holds.head_eq] at hw
      exact List.head?_eq_some_iff.mp hw.1.symm
    exact ⟨l', hk.remove hpc⟩
  | call hpc => exact ⟨l, hk.call hpc⟩
  | finish hpc => exact ⟨l, hk.finish hpc⟩
  | @free w hpc =>
    refine ⟨l, hk.still rfl rfl rfl (fun _ => rfl) fun v => ?_⟩
    rw [freeWorker_pc]
    split
    · next hv => subst hv; simp [hpc, WorkerPc.hand]
    · exact ⟨rfl, fun _ => Iff.rfl⟩
  | pushLock hpc | pushUnlock hpc =>
    exact ⟨l, hk.still rfl rfl rfl (added_pushGoto (by rw [hpc]; rfl)) (sameHands_refl _)⟩
  | @pushAdd j hpc => exact ⟨j :: l, hk.pushAdd hpc⟩
  | @pushSignal j ws hpc =>
    exact ⟨l, hk.still rfl rfl rfl (added_pushGoto (s := s) (by rw [hpc]; rfl))
      (sameHands_wakeAll ws)⟩
  | destroyStart | walkEnd | walkNext | walkStray | destroyLock | destroyUnlock =>
    exact ⟨l, hk.still rfl rfl rfl (fun _ => rfl) (sameHands_refl _)⟩
  | @walkSet w =>
    refine ⟨l, hk.still rfl rfl rfl (fun _ => rfl) fun v => ?_⟩
    show ((s.setTerminate w).worker v).pc.hand = _ ∧ ∀ j, ((s.setTerminate w).worker v).pc = _ ↔ _
    rw [setTerminate_pc]
    exact ⟨rfl, fun _ => Iff.rfl⟩
  | broadcast => exact ⟨l, hk.still rfl rfl rfl (fun _ => rfl) (sameHands_wakeAll _)⟩

theorem kept_create : (nThreadPoolCreate n J).Kept [] := by
  refine ⟨Chain.holds_empty, fun j => ?_, fun j => ?_⟩
  · rw [tally_eq_zero.mpr (by simp [nThreadPoolCreate, WorkerPc.hand])]
    rfl
  · rw [tally_eq_zero.mpr (by simp [nThreadPoolCreate])]
    rfl

theorem kept_of_reach (h : Reach step (nThreadPoolCreate n J) s) : ∃ l, s.Kept l :=
  h.induct (P := fun s : Pool n J => ∃ l, s.Kept l) ⟨[], kept_create⟩ fun _ _ _ hr ⟨_, hl⟩ hs =>
    kept_moves (moves_of_step hs) (allKnow_of_reach hr) hl

/-! ### The result -/

/-- Job `j` is in exactly one of: the list `l`, once; the hands of one worker; finished. -/
inductive Pool.OnePlace (s : Pool n J) (l : List J) (j : J) : Prop where
  /-- Waiting. -/
  | queued (hl : l.count j = 1) (hw : ∀ w, (s.worker w).pc.hand ≠ some j)
      (hf : s.finished j = false)
  /-- Taken out, and not yet finished. -/
  | inHand (hl : j ∉ l) (hw : ∃! w, (s.worker w).pc.hand = some j) (hf : s.finished j = false)
  /-- Finished. -/
  | done (hl : j ∉ l) (hw : ∀ w, (s.worker w).pc.hand ≠ some j) (hf : s.finished j = true)

theorem Pool.Kept.onePlace {j : J} (h : s.Kept l) (hj : (s.push j).added = true) :
    s.OnePlace l j := by
  have hp := h.place j
  rw [hj, Bool.toNat_true] at hp
  have hz {k : ℕ} (hk : tally (fun x => x.pc.hand = some j) s.worker = k) (h0 : k = 0) :
      ∀ w, (s.worker w).pc.hand ≠ some j := tally_eq_zero.mp (hk.trans h0)
  cases hf : s.finished j with
  | true =>
    rw [hf, Bool.toNat_true] at hp
    exact .done (List.count_eq_zero.mp (by omega)) (hz rfl (by omega)) hf
  | false =>
    rw [hf, Bool.toNat_false] at hp
    by_cases hl : l.count j = 0
    · have ht : tally (fun x => x.pc.hand = some j) s.worker = 1 := by omega
      exact .inHand (List.count_eq_zero.mp hl) (tally_eq_one.mp ht) hf
    · exact .queued (by omega) (hz rfl (by omega)) hf

/-- A job that has not been pushed is nowhere. -/
theorem Pool.Kept.nowhere {j : J} (h : s.Kept l) (hj : (s.push j).added = false) :
    j ∉ l ∧ (∀ w, (s.worker w).pc.hand ≠ some j) ∧ s.finished j = false := by
  have hp := h.place j
  rw [hj, Bool.toNat_false] at hp
  have ht : tally (fun x => x.pc.hand = some j) s.worker = 0 := by omega
  exact ⟨List.count_eq_zero.mp (by omega), tally_eq_zero.mp ht,
    Bool.toNat_eq_zero.mp (by omega)⟩

/-- A running job is in a worker's hands. -/
theorem tally_running_le (s : Pool n J) (j : J) :
    tally (fun x => x.pc = .running j) s.worker ≤
      tally (fun x => x.pc.hand = some j) s.worker :=
  tally_le fun w hw => by rw [hw, hand_running]

theorem Pool.Kept.calls_le_one (h : s.Kept l) (j : J) : s.calls j ≤ 1 := by
  have hp := h.place j
  have hr := tally_running_le s j
  have ha := Bool.toNat_le (s.push j).added
  rw [h.calls j]
  omega

/-- **Every job runs once**: in every reachable state of the pool, with any number of
workers, pushes and spurious wake-ups and wherever the destroyer is, the list pointers
spell out a list; every pushed job is in exactly one place and every other job in none;
no job's function has been called twice; and no worker is about to call the function of
a null job. -/
theorem job_in_one_place (h : Reach step (nThreadPoolCreate n J) s) :
    ∃ l, s.jobs.Holds l ∧
      (∀ j, (s.push j).added = true → s.OnePlace l j) ∧
      (∀ j, (s.push j).added = false →
        j ∉ l ∧ (∀ w, (s.worker w).pc.hand ≠ some j) ∧ s.finished j = false) ∧
      (∀ j, s.calls j ≤ 1) ∧ ∀ w, (s.worker w).pc ≠ .call none := by
  obtain ⟨l, hl⟩ := kept_of_reach h
  refine ⟨l, hl.holds, fun j hj => hl.onePlace hj, fun j hj => hl.nowhere hj, hl.calls_le_one,
    fun w hw => ?_⟩
  have hk := allKnow_of_reach h w
  rw [hw] at hk
  exact hk rfl

/-- One worker, told to stop while a job is queued for it, and asleep before that. -/
theorem job_in_one_place_queued :
    ∃ s, run step (nThreadPoolCreate 1 Unit) [.worker 0, .worker 0, .worker 0, .worker 0,
        .push (), .push (), .destroy, .destroy] = some s ∧
      ∃ l, s.jobs.Holds l ∧
        (∀ j, (s.push j).added = true → s.OnePlace l j) ∧
        (∀ j, (s.push j).added = false →
          j ∉ l ∧ (∀ w, (s.worker w).pc.hand ≠ some j) ∧ s.finished j = false) ∧
        (∀ j, s.calls j ≤ 1) ∧ ∀ w, (s.worker w).pc ≠ .call none := by
  obtain ⟨s, hs⟩ : ∃ s, run step (nThreadPoolCreate 1 Unit) [.worker 0, .worker 0, .worker 0,
    .worker 0, .push (), .push (), .destroy, .destroy] = some s := ⟨_, rfl⟩
  exact ⟨s, hs, job_in_one_place ⟨_, hs⟩⟩

end S3c2440.ThreadPool
