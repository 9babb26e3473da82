import S3c2440.ThreadPool.Jobs

/-!
# No wake-up is lost

Before the destroyer starts, the jobs in the list are balanced by the workers that
will come for them: if anybody is asleep, there are at most as many jobs as workers
that have been woken and are on their way to the mutex, with one more on account of
a worker inside that is about to take a job or of a caller that has added its job and
not yet signalled (`Pool.slack`). With the mutex free the slack is zero.

After the destroyer's broadcast no worker whose flag is set is asleep, or will be: a
worker tests its flag under the mutex before it sleeps, and when the destroyer
broadcasts, holding the mutex, no worker is between that test and its sleep.
-/

namespace S3c2440.ThreadPool

open Theory

universe u

variable {n : ℕ} {J : Type u}

/-- A worker inside that will take a job, unless it is told to stop. -/
def WorkerPc.takes : WorkerPc J → Bool
  | .testJobs | .testExit | .fetch | .remove _ => true
  | _ => false

/-- Asleep, or woken and not yet back. -/
def WorkerPc.resting : WorkerPc J → Bool
  | .asleep | .woken => true
  | _ => false

/-- One job is on account of the thread inside. -/
def Pool.slack (s : Pool n J) : ℕ :=
  match s.mtx with
  | some (.worker w) => (s.worker w).pc.takes.toNat
  | some (.pusher j) => if s.push j = .signal then 1 else 0
  | some .destroyer | none => 0

variable [DecidableEq J] {s s' : Pool n J} {a : Act n J} {l : List J}

/-- The workers asleep in `pthread_cond_wait` that nobody has woken. -/
def Pool.asleep (s : Pool n J) : ℕ := tally (fun x => x.pc = .asleep) s.worker

/-- The workers that have been woken and are heading back to the mutex. -/
def Pool.woken (s : Pool n J) : ℕ := tally (fun x => x.pc = .woken) s.worker

/-- If anybody is asleep, the jobs are balanced. -/
def Pool.Balanced (s : Pool n J) : Prop :=
  ∀ l, s.jobs.Holds l → s.asleep = 0 ∨ l.length ≤ s.woken + s.slack

theorem Pool.Balanced.mono (h : s.Balanced) (hj : s'.jobs = s.jobs) (ha : s'.asleep ≤ s.asleep)
    (hw : s.woken + s.slack ≤ s'.woken + s'.slack) : s'.Balanced := by
  intro l hl
  rcases h l (hj ▸ hl) with h0 | hle
  · exact .inl (by omega)
  · exact .inr (by omega)

/-- With no job in the list there is nothing to balance. -/
theorem Pool.Balanced.of_empty (h : s.jobs.head = none) : s.Balanced := by
  intro l hl
  rw [hl.head_eq, List.head?_eq_none_iff] at h
  subst h
  exact .inr (Nat.zero_le _)

/-! ### Counting through a step -/

theorem asleep_goto (s : Pool n J) (w : Fin n) (q : WorkerPc J) :
    (s.goto w q).asleep + (if (s.worker w).pc = .asleep then 1 else 0) =
      s.asleep + (if q = .asleep then 1 else 0) := tally_pc_goto s w q .asleep

theorem woken_goto (s : Pool n J) (w : Fin n) (q : WorkerPc J) :
    (s.goto w q).woken + (if (s.worker w).pc = .woken then 1 else 0) =
      s.woken + (if q = .woken then 1 else 0) := tally_pc_goto s w q .woken

/-- A worker that neither rests before nor after. -/
theorem counts_goto {w : Fin n} {q : WorkerPc J} (hp : (s.worker w).pc.resting = false)
    (hq : q.resting = false) : (s.goto w q).asleep = s.asleep ∧ (s.goto w q).woken = s.woken := by
  have hne {pc : WorkerPc J} (h : pc.resting = false) : pc ≠ .asleep ∧ pc ≠ .woken := by
    constructor <;> rintro rfl <;> cases h
  have ha := asleep_goto s w q
  have hw := woken_goto s w q
  rw [if_neg (hne hp).1, if_neg (hne hq).1] at ha
  rw [if_neg (hne hp).2, if_neg (hne hq).2] at hw
  exact ⟨ha, hw⟩

omit [DecidableEq J] in
/-- The slack is that of the thread inside, whoever else moves. -/
theorem slack_goto {w : Fin n} {q : WorkerPc J} (hx : Excl s.mtx s.inside)
    (hout : (s.worker w).pc.inside = false) : (s.goto w q).slack = s.slack := by
  have hm : (s.goto w q).mtx = s.mtx := rfl
  have hp : (s.goto w q).push = s.push := rfl
  unfold Pool.slack
  rw [hm, hp]
  cases ho : s.mtx with
  | none => rfl
  | some t =>
    cases t with
    | worker v =>
      have hin : (s.worker v).pc.inside = true := (hx (.worker v)).mpr ho
      have hne : v ≠ w := fun he => by rw [he, hout] at hin; cases hin
      simp [hne]
    | pusher j | destroyer => rfl

omit [DecidableEq J] in
theorem slack_of_inside {w : Fin n} (hx : Excl s.mtx s.inside)
    (hin : (s.worker w).pc.inside = true) : s.slack = (s.worker w).pc.takes.toNat := by
  have hm : s.mtx = some (.worker w) := (hx (.worker w)).mp hin
  simp [Pool.slack, hm]

omit [DecidableEq J] in
/-- The worker inside moves on. -/
theorem slack_goto_inside {w : Fin n} {q : WorkerPc J} (hx : Excl s.mtx s.inside)
    (hin : (s.worker w).pc.inside = true) : (s.goto w q).slack = q.takes.toNat := by
  have hm : (s.goto w q).mtx = some (.worker w) := (hx (.worker w)).mp hin
  simp [Pool.slack, hm]

omit [DecidableEq J] in
theorem slack_of_pusher {j : J} (hx : Excl s.mtx s.inside) (hin : (s.push j).inside = true) :
    s.slack = if s.push j = .signal then 1 else 0 := by
  have hm : s.mtx = some (.pusher j) := (hx (.pusher j)).mp hin
  simp [Pool.slack, hm]

/-- Somebody is woken. -/
theorem woken_wakeAll_lt {ws : List (Fin n)} (hws : ∀ w ∈ ws, (s.worker w).pc = .asleep)
    (hne : ws ≠ []) : s.woken < (s.wakeAll ws).woken := by
  obtain ⟨w, hw⟩ := List.exists_mem_of_ne_nil ws hne
  refine tally_lt (fun v hv => ?_) (i := w) (by simp [hws w hw]) (by simp [hw, hws w hw])
  rw [wakeAll_pc, hv]
  simp

theorem asleep_wakeAll_le (ws : List (Fin n)) : (s.wakeAll ws).asleep ≤ s.asleep := by
  apply tally_le
  intro v hv
  rw [wakeAll_pc] at hv
  split at hv
  · cases hv
  · exact hv

/-! ### Before the destroyer starts -/

/-- No worker has been told to stop, and the jobs are balanced. -/
structure Pool.Serving (s : Pool n J) : Prop where
  flags : ∀ w, (s.worker w).terminate ≠ 1
  balanced : s.Balanced

/-- A worker inside goes on. -/
theorem Pool.Serving.local {w : Fin n} {p q : WorkerPc J} (h : s.Serving)
    (hx : Excl s.mtx s.inside) (hk : s.AllKnow) (hpc : (s.worker w).pc = p)
    (hl : Local s w p q) : (s.goto w q).Balanced := by
  have hin : (s.worker w).pc.inside = true := by rw [hpc]; exact hl.inside.1
  have hs := slack_of_inside hx hin
  have hs' := slack_goto_inside (q := q) hx hin
  have hc := counts_goto (s := s) (w := w) (q := q) (by rw [hpc]; cases hl <;> rfl)
    (by cases hl <;> rfl)
  rw [hpc] at hs
  cases hl with
  | empty he => exact .of_empty he
  | some | stays | fetch | waits =>
    exact h.balanced.mono rfl hc.1.le (by rw [hs, hs', hc.2]; rfl)
  | breaks ht | exits ht => exact absurd ht (h.flags w)
  | skip =>
    have hw := hk w
    rw [hpc] at hw
    exact absurd hw.1.symm hw.2

/-- A worker outside, that does not rest, goes on outside. -/
theorem Pool.Serving.outside {w : Fin n} {q : WorkerPc J} (h : s.Serving)
    (hx : Excl s.mtx s.inside) (hout : (s.worker w).pc.inside = false)
    (hp : (s.worker w).pc.resting = false) (hq : q.resting = false) : (s.goto w q).Balanced := by
  have hc := counts_goto hp hq
  exact h.balanced.mono rfl hc.1.le (by rw [hc.2, slack_goto hx hout])

/-- A worker takes the mutex, from `lock` or woken. -/
theorem Pool.Serving.enter {w : Fin n} (h : s.Serving) (hm : s.mtx = none)
    (hpc : (s.worker w).pc = .lock ∨ (s.worker w).pc = .woken) :
    Pool.Balanced { s.goto w .testJobs with mtx := some (.worker w) } := by
  have h0 : s.slack = 0 := by simp [Pool.slack, hm]
  have ha := asleep_goto s w .testJobs
  have hw := woken_goto s w .testJobs
  have hs : Pool.slack { s.goto w .testJobs with mtx := some (.worker w) } = 1 := by
    simp [Pool.slack, WorkerPc.takes]
  refine h.balanced.mono rfl (?_ : (s.goto w .testJobs).asleep ≤ _) ?_
  · rcases hpc with hpc | hpc <;> rw [hpc] at ha <;> simp at ha <;> omega
  · rw [h0, hs]
    show _ ≤ (s.goto w .testJobs).woken + 1
    rcases hpc with hpc | hpc <;> rw [hpc] at hw <;> simp at hw <;> omega

/-- A worker takes the first job: one job less, on its own account. -/
theorem Pool.Serving.remove {w : Fin n} {j : J} (h : s.Serving) (hx : Excl s.mtx s.inside)
    (hpc : (s.worker w).pc = .remove (some j)) (hl : s.jobs.Holds (j :: l)) :
    Pool.Balanced { s.goto w (.unlock (some j)) with jobs := llRemove j s.jobs } := by
  have hc := counts_goto (s := s) (w := w) (q := .unlock (some j)) (by rw [hpc]; rfl) rfl
  have hs := slack_of_inside hx (w := w) (by rw [hpc]; rfl)
  rw [hpc, WorkerPc.takes, Bool.toNat_true] at hs
  intro l' hl'
  obtain rfl := hl'.unique (holds_llRemove_head hl)
  show (s.goto w _).asleep = 0 ∨ _ ≤ (s.goto w _).woken + _
  rw [hc.1, hc.2]
  rcases h.balanced (j :: l') hl with h0 | hle
  · exact .inl h0
  · rw [List.length_cons, hs] at hle
    exact .inr (by omega)

/-- The caller adds a job, on its own account until it signals. -/
theorem Pool.Serving.add {j : J} (h : s.Serving) (hx : Excl s.mtx s.inside)
    (hpc : s.push j = .add) (hl : (llAdd j s.jobs).Holds (j :: l)) (hl₀ : s.jobs.Holds l) :
    Pool.Balanced { s.pushGoto j .signal with jobs := llAdd j s.jobs } := by
  have hin : (s.push j).inside = true := by rw [hpc]; rfl
  have hm : s.mtx = some (.pusher j) := (hx (.pusher j)).mp hin
  have h0 := slack_of_pusher (j := j) hx hin
  rw [hpc, if_neg (by decide)] at h0
  intro l' hl'
  obtain rfl := hl'.unique hl
  have hs : Pool.slack { s.pushGoto j .signal with jobs := llAdd j s.jobs } = 1 := by
    simp [Pool.slack, Pool.pushGoto, hm]
  show s.asleep = 0 ∨ _ ≤ s.woken + _
  rw [hs, List.length_cons]
  rcases h.balanced l hl₀ with ha | hle
  · exact .inl ha
  · exact .inr (by omega)

/-- The caller's signal makes up for the job it has added. -/
theorem Pool.Serving.signal {j : J} {ws : List (Fin n)} (h : s.Serving)
    (hx : Excl s.mtx s.inside) (hpc : s.push j = .signal)
    (hws : ∀ w ∈ ws, (s.worker w).pc = .asleep)
    (hsome : (∃ w, (s.worker w).pc = .asleep) → ws ≠ []) :
    ((s.wakeAll ws).pushGoto j .unlock).Balanced := by
  have hs := slack_of_pusher (j := j) hx (by rw [hpc]; rfl)
  rw [if_pos hpc] at hs
  intro l' hl'
  show (s.wakeAll ws).asleep = 0 ∨ _ ≤ (s.wakeAll ws).woken + _
  have ha := asleep_wakeAll_le (s := s) ws
  by_cases hne : ws = []
  · -- nobody was asleep
    have h0 : s.asleep = 0 := tally_eq_zero.mpr fun w hw => hsome ⟨w, hw⟩ hne
    exact .inl (by omega)
  · have hlt := woken_wakeAll_lt hws hne
    rcases h.balanced l' hl' with h0 | hle
    · exact .inl (by omega)
    · exact .inr (by omega)

theorem serving_moves (h : Moves s a s') (hx : Excl s.mtx s.inside) (hk : s.AllKnow)
    (hl : s.Kept l) (hs : s.Serving) (hd : s'.destroy = .start) : s'.Serving := by
  cases h with
  | goto hpc hl => exact ⟨by simpa using hs.flags, hs.local hx hk hpc hl⟩
  | lock hpc hm => exact ⟨by simpa using hs.flags, hs.enter hm (.inl hpc)⟩
  | relock hpc hm => exact ⟨by simpa using hs.flags, hs.enter hm (.inr hpc)⟩
  | @sleep w hpc =>
    have hw := hk w
    rw [hpc] at hw
    exact ⟨by simpa [Pool.unlock] using hs.flags, .of_empty hw⟩
  | @exitUnlock w hpc | @free w hpc =>
    -- a worker on its way out has been told to stop
    have hw := hk w
    rw [hpc] at hw
    exact absurd hw (hs.flags w)
  | @remove w j hpc =>
    have hw := hk w
    rw [hpc, Pool.Knows, hl.holds.head_eq] at hw
    obtain ⟨l', rfl⟩ := List.head?_eq_some_iff.mp hw.1.symm
    exact ⟨by simpa using hs.flags, hs.remove hx hpc hl.holds⟩
  | @unlock w job hpc =>
    have hc := counts_goto (s := s) (w := w) (q := .call job) (by rw [hpc]; rfl) rfl
    have h0 : s.slack = 0 := by
      rw [slack_of_inside hx (w := w) (by rw [hpc]; rfl), hpc]
      rfl
    refine ⟨by simpa [Pool.unlock] using hs.flags, hs.balanced.mono rfl hc.1.le ?_⟩
    rw [h0]
    exact hc.2.ge
  | @call w j hpc =>
    have hb := hs.outside hx (w := w) (q := .running j) (by rw [hpc]; rfl) (by rw [hpc]; rfl) rfl
    exact ⟨by simpa using hs.flags, hb⟩
  | @finish w j hpc =>
    have hb := hs.outside hx (w := w) (q := .lock) (by rw [hpc]; rfl) (by rw [hpc]; rfl) rfl
    exact ⟨by simpa using hs.flags, hb⟩
  | @wake w hpc =>
    have ha := asleep_goto s w .woken
    have hw := woken_goto s w .woken
    have hsl := slack_goto (q := .woken) hx (w := w) (by rw [hpc]; rfl)
    simp only [hpc, reduceCtorEq, if_false, if_true] at ha hw
    exact ⟨by simpa using hs.flags, hs.balanced.mono rfl (by omega) (by omega)⟩
  | @pushLock j hpc hm =>
    have h0 : s.slack = 0 := by simp [Pool.slack, hm]
    exact ⟨hs.flags, hs.balanced.mono rfl le_rfl (by rw [h0]; exact Nat.le_add_right _ _)⟩
  | @pushAdd j hpc => exact ⟨hs.flags, hs.add hx hpc (hl.pushAdd hpc).holds hl.holds⟩
  | pushSignal hpc hws hsome =>
    exact ⟨by simpa [Pool.pushGoto] using hs.flags, hs.signal hx hpc hws hsome⟩
  | @pushUnlock j hpc =>
    have h0 := slack_of_pusher (j := j) hx (by rw [hpc]; rfl)
    rw [hpc, if_neg (by decide)] at h0
    exact ⟨hs.flags, hs.balanced.mono rfl le_rfl (by rw [h0]; exact Nat.le_add_right _ _)⟩
  | destroyStart | walkEnd | walkSet | walkNext | walkStray | destroyLock | broadcast
  | destroyUnlock => cases hd

theorem serving_create : (nThreadPoolCreate n J).Serving := by
  refine ⟨fun w => by simp [nThreadPoolCreate], fun l _ => .inl ?_⟩
  exact tally_eq_zero.mpr fun w => by simp [nThreadPoolCreate]

omit [DecidableEq J] in
/-- The destroyer does not go back to before its start. -/
theorem start_of_moves [DecidableEq J] (h : Moves s a s') (hd : s'.destroy = .start) :
    s.destroy = .start := by
  cases h <;> first | exact hd | cases hd

theorem serving_of_reach (h : Reach step (nThreadPoolCreate n J) s) (hd : s.destroy = .start) :
    s.Serving := by
  revert hd
  refine h.induct (P := fun s : Pool n J => s.destroy = .start → s.Serving)
    (fun _ => serving_create) fun s a t hr ih hs hd => ?_
  have hm := moves_of_step hs
  obtain ⟨l, hl⟩ := kept_of_reach hr
  exact serving_moves hm (excl_of_reach hr) (allKnow_of_reach hr) hl
    (ih (start_of_moves hm hd)) hd

/-! ### After the broadcast -/

/-- The destroyer has broadcast. -/
def DestroyPc.broadcasted : DestroyPc n → Bool
  | .unlock | .returned => true
  | _ => false

/-- Asleep, or on the way there after testing the flag. -/
def WorkerPc.dozes : WorkerPc J → Bool
  | .asleep | .condWait => true
  | _ => false

/-- After the broadcast no worker whose flag is set sleeps. -/
def Pool.Roused (s : Pool n J) : Prop :=
  s.destroy.broadcasted = true → ∀ w, (s.worker w).terminate = 1 → (s.worker w).pc.dozes = false

omit [DecidableEq J] in
/-- A worker goes on to where it does not sleep. -/
theorem Pool.Roused.goto {w : Fin n} {q : WorkerPc J} (h : s.Roused)
    (hq : (s.worker w).terminate = 1 → q.dozes = true → (s.worker w).pc.dozes = true) :
    (s.goto w q).Roused := by
  intro hb v ht
  rw [goto_terminate] at ht
  rw [goto_pc]
  split
  · next hv =>
    subst hv
    have hp := h hb v ht
    exact Bool.eq_false_iff.mpr fun hd => by rw [hq ht hd] at hp; cases hp
  · exact h hb v ht

theorem Pool.Roused.wakeAll (h : s.Roused) (ws : List (Fin n)) : (s.wakeAll ws).Roused := by
  intro hb v ht
  rw [wakeAll_terminate] at ht
  rw [wakeAll_pc]
  split
  · rfl
  · exact h hb v ht

/-- With the destroyer inside, its broadcast leaves nobody asleep. -/
theorem roused_broadcast (hx : Excl s.mtx s.inside) (hpc : s.destroy = .broadcast) (w : Fin n) :
    ((s.wakeAll (List.finRange n)).worker w).pc.dozes = false := by
  rw [wakeAll_pc]
  split
  · rfl
  · next hw =>
    have hne : (s.worker w).pc ≠ .asleep := fun he => hw ⟨List.mem_finRange w, he⟩
    have hout : (s.worker w).pc ≠ .condWait := by
      intro he
      have hin : s.inside (.worker w) := by simp [Pool.inside, he, WorkerPc.inside]
      have hd : s.inside .destroyer := by simp [Pool.inside, hpc, DestroyPc.inside]
      cases hx.unique hin hd
    cases hp : (s.worker w).pc <;> first | rfl | exact absurd hp hne | exact absurd hp hout

theorem roused_moves (h : Moves s a s') (hx : Excl s.mtx s.inside) (hr : s.Roused) : s'.Roused := by
  cases h with
  | @goto w p q hpc hl =>
    apply hr.goto
    intro ht hq
    cases hl with
    | waits hne => exact absurd ht hne
    | _ => cases hq
  | @lock w hpc | @relock w hpc | @exitUnlock w hpc | @remove w j hpc | @unlock w job hpc
  | @call w j hpc | @finish w j hpc | @wake w hpc =>
    exact hr.goto fun _ hq => by cases hq
  | sleep hpc => exact hr.goto fun _ _ => by rw [hpc]; rfl
  | @free w hpc =>
    intro hb v ht
    rw [freeWorker_terminate] at ht
    rw [freeWorker_pc]
    split
    · rfl
    · exact hr hb v ht
  | pushLock | pushAdd | pushUnlock => exact hr
  | pushSignal => exact hr.wakeAll _
  | destroyStart | walkEnd | walkSet | walkNext | walkStray | destroyLock =>
    intro hb
    cases hb
  | broadcast hpc => exact fun _ w _ => roused_broadcast hx hpc w
  | destroyUnlock hpc => exact fun _ => hr (by rw [hpc]; rfl)

theorem roused_of_reach (h : Reach step (nThreadPoolCreate n J) s) : s.Roused :=
  h.induct (fun hb => by cases hb) fun _ _ _ hr ih hs =>
    roused_moves (moves_of_step hs) (excl_of_reach hr) ih

/-! ### The result -/

/-- **No wake-up is lost.** Before the destroyer starts: with the mutex free, either no
worker is asleep, or there are at most as many jobs as workers woken and heading back to
the mutex; and if a job is queued while all the workers are asleep, a caller that has
added its job is about to signal. When the destroyer has returned and every flag has
been set, no worker is asleep. -/
theorem no_lost_wakeup (hn : 0 < n) (h : Reach step (nThreadPoolCreate n J) s) :
    ∃ l, s.jobs.Holds l ∧
      (s.destroy = .start →
        (s.mtx = none → (∀ w, (s.worker w).pc ≠ .asleep) ∨ l.length ≤ s.woken) ∧
        (l ≠ [] → (∀ w, (s.worker w).pc = .asleep) →
          ∃ j, s.mtx = some (.pusher j) ∧ s.push j = .signal)) ∧
      (s.destroy = .returned → (∀ w, (s.worker w).terminate = 1) →
        ∀ w, (s.worker w).pc ≠ .asleep) := by
  obtain ⟨l, hl⟩ := kept_of_reach h
  refine ⟨l, hl.holds, fun hd => ⟨fun hm => ?_, fun hne hall => ?_⟩, fun hd ht w he => ?_⟩
  · have hb := (serving_of_reach h hd).balanced l hl.holds
    rw [show s.slack = 0 by simp [Pool.slack, hm]] at hb
    exact hb.imp_left tally_eq_zero.mp
  · have hb := (serving_of_reach h hd).balanced l hl.holds
    have ha : s.asleep ≠ 0 := fun h0 => tally_eq_zero.mp h0 ⟨0, hn⟩ (hall ⟨0, hn⟩)
    have hw : s.woken = 0 := tally_eq_zero.mpr fun w => by rw [hall w]; simp
    have hlen := List.length_pos_of_ne_nil hne
    have hs : 0 < s.slack := by
      have := hb.resolve_left ha
      omega
    -- the slack is not a worker's, as they are all asleep
    unfold Pool.slack at hs
    split at hs
    · next w hm => rw [hall w] at hs; cases hs
    · next j hm =>
      split at hs
      · next hj => exact ⟨j, hm, hj⟩
      · cases hs
    · cases hs
    · cases hs
  · have hr := roused_of_reach h (by rw [hd]; rfl) w (ht w)
    rw [he] at hr
    cases hr

/-- One worker asleep, a job added, the signal still to come. -/
theorem no_lost_wakeup_added :
    ∃ s, run step (nThreadPoolCreate 1 Unit) [.worker 0, .worker 0, .worker 0, .worker 0,
        .push (), .push ()] = some s ∧
      ∃ l, s.jobs.Holds l ∧
        (s.destroy = .start →
          (s.mtx = none → (∀ w, (s.worker w).pc ≠ .asleep) ∨ l.length ≤ s.woken) ∧
          (l ≠ [] → (∀ w, (s.worker w).pc = .asleep) →
            ∃ j, s.mtx = some (.pusher j) ∧ s.push j = .signal)) ∧
        (s.destroy = .returned → (∀ w, (s.worker w).terminate = 1) →
          ∀ w, (s.worker w).pc ≠ .asleep) := by
  obtain ⟨s, hs⟩ : ∃ s, run step (nThreadPoolCreate 1 Unit) [.worker 0, .worker 0, .worker 0,
    .worker 0, .push (), .push ()] = some s := ⟨_, rfl⟩
  exact ⟨s, hs, no_lost_wakeup Nat.one_pos ⟨_, hs⟩⟩

end S3c2440.ThreadPool
