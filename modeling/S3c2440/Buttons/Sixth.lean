import S3c2440.Theory.Runs
import S3c2440.Theory.Tally
import S3c2440.Buttons.Irq

/-!
# The key driver with an atomic counter

`linux_driver/code/char_driver/Asynchronous_Signal_atom/sixth_drv.c`: the device can be open
once. `sixth_drv_open` takes `canopen` down by one and looks whether it is zero now, in
one atomic operation; if it is not, it puts the one back, in another, and returns
`-EBUSY`. Whoever gets through registers the four lines. `sixth_drv_close` puts the one back,
and then frees the lines.

Any number of processes open and close, each one statement at a time, in any order; a process
closes the device once for each time it has opened it. What `request_irq` returns is not
looked at. `seen` is not in the driver: it keeps for each process whether anybody has had the
device since the process called `sixth_drv_open`, and before the call returned.

## What is proved

* `single_opener` — one process at most has the device open, and the counter says whether one has.
* `lines_kept_iff` — exactly when an open device has its four lines: no line may be freed that a
  process with the device open, or on its way to it, has asked for.
* `refusals_honest_iff` — exactly when `-EBUSY` means that somebody has had the device: nobody may
  try while another process has still to put back what it has taken in vain.
-/

namespace S3c2440.Sixth

open Theory Buttons

/-! ### The driver -/

/-- Where a process is. -/
inductive Pc where
  /-- In no call, and without the device. -/
  | idle
  /-- `if(!atomic_dec_and_test(&canopen))`. -/
  | test
  /-- `atomic_inc(&canopen);` in `sixth_drv_open`. -/
  | undo
  /-- `return -EBUSY;`. -/
  | busy
  /-- `request_irq`. -/
  | request (l : Line)
  /-- `return 0;` in `sixth_drv_open`. -/
  | opened
  /-- In no call, and with the device open. -/
  | holds
  /-- `atomic_inc(&canopen);` in `sixth_drv_close`. -/
  | close
  /-- `free_irq`. -/
  | free (l : Line)
  /-- `return 0;` in `sixth_drv_close`. -/
  | closed
  deriving DecidableEq

/-- It has the device: its open has returned 0, or will, and its close is not over. -/
def Pc.has : Pc → Bool
  | .request _ | .opened | .holds | .close | .free _ | .closed => true
  | _ => false

variable {P : Type} [DecidableEq P]

/-- The driver and the processes. -/
structure Drv (P : Type) where
  /-- `canopen`. -/
  canopen : ℤ
  /-- The lines. -/
  lines : Lines
  /-- Where the processes are. -/
  pc : P → Pc
  /-- What the last call of each has returned. -/
  result : P → ℤ
  /-- Somebody has had the device since the process called `sixth_drv_open`, and before that
  call returned. -/
  seen : P → Bool

/-- The driver when it is loaded. -/
def Drv.init : Drv P := ⟨1, fun _ => false, fun _ => .idle, fun _ => 0, fun _ => false⟩

/-- Process `p` goes on to `c`. -/
def Drv.goto (s : Drv P) (p : P) (c : Pc) : Drv P := { s with pc := Function.update s.pc p c }

/-- The next statement of process `p`; a process in no call starts one. -/
def advance (s : Drv P) (p : P) : Drv P :=
  match s.pc p with
  | .idle => { s with seen := Function.update s.seen p false }.goto p .test
  | .test =>
    let canopen := s.canopen - 1
    { s with canopen := canopen }.goto p (if canopen = 0 then .request .eint0 else .undo)
  | .undo => { s with canopen := s.canopen + 1 }.goto p .busy
  | .busy => { s with result := Function.update s.result p (-ebusy) }.goto p .idle
  | .request l =>
    { s with lines := (requestIrq s.lines l).1 }.goto p
      (match l.next with
        | some l => .request l
        | none => .opened)
  | .opened => { s with result := Function.update s.result p 0 }.goto p .holds
  | .holds => s.goto p .close
  | .close => { s with canopen := s.canopen + 1 }.goto p (.free .eint0)
  | .free l =>
    { s with lines := freeIrq s.lines l }.goto p
      (match l.next with
        | some l => .free l
        | none => .closed)
  | .closed => { s with result := Function.update s.result p 0 }.goto p .idle

variable [Fintype P]

/-- Whoever is in a call sees that somebody has the device. -/
def watch (s : Drv P) : Drv P :=
  { s with seen := fun p => s.seen p || decide (s.pc p ≠ .idle ∧ ∃ q, (s.pc q).has = true) }

/-- One step: a process takes its next statement. -/
def step (s : Drv P) (p : P) : Option (Drv P) := some (watch (advance s p))

/-! ### Steps -/

section Steps

variable {s t : Drv P} {p q : P} {c : Pc}

omit [Fintype P] in
@[simp] theorem goto_self : (s.goto p c).pc p = c := Function.update_self ..

omit [Fintype P] in
theorem goto_of_ne (h : q ≠ p) : (s.goto p c).pc q = s.pc q := Function.update_of_ne h ..

omit [Fintype P] in
/-- Only the process itself moves. -/
theorem advance_pc (s : Drv P) (p : P) :
    (advance s p).pc = Function.update s.pc p ((advance s p).pc p) := by
  cases hpc : s.pc p <;> simp only [advance, hpc, Drv.goto, Function.update_self]

omit [Fintype P] in
theorem advance_of_ne (h : q ≠ p) : (advance s p).pc q = s.pc q := by
  rw [advance_pc, Function.update_of_ne h]

end Steps

/-! ### The counter -/

/-- It has taken the counter down, and not put it up again. -/
def Pc.taken : Pc → Bool
  | .undo | .request _ | .opened | .holds | .close => true
  | _ => false

/-- And the counter was one when it did. -/
def Pc.owns : Pc → Bool
  | .request _ | .opened | .holds | .close => true
  | _ => false

/-- The counter has been taken down by those that have not put it up again, of which one at most
found it at one. -/
structure Counted (s : Drv P) : Prop where
  /-- The counter. -/
  canopen : s.canopen = 1 - tally (fun c : Pc => c.taken = true) s.pc
  /-- One at most. -/
  owners : tally (fun c : Pc => c.owns = true) s.pc ≤ 1

omit [DecidableEq P] in
theorem counted_init : Counted (Drv.init : Drv P) := by
  have htaken : tally (fun c : Pc => c.taken = true) (Drv.init : Drv P).pc = 0 :=
    tally_eq_zero.mpr fun _ => Bool.false_ne_true
  have howns : tally (fun c : Pc => c.owns = true) (Drv.init : Drv P).pc = 0 :=
    tally_eq_zero.mpr fun _ => Bool.false_ne_true
  exact ⟨by rw [htaken]; rfl, by rw [howns]; exact Nat.zero_le 1⟩

section Counter

variable {s t : Drv P} {p q : P}

omit [Fintype P] in
/-- A statement changes the counter by what the process takes or puts back. -/
theorem advance_canopen (s : Drv P) (p : P) :
    (advance s p).canopen + (if ((advance s p).pc p).taken = true then 1 else 0) =
      s.canopen + (if (s.pc p).taken = true then 1 else 0) := by
  cases hpc : s.pc p with
  | test => simp only [advance, hpc, goto_self]; split <;> simp [Drv.goto, Pc.taken]
  | request l | free l => cases l <;> simp [advance, hpc, Drv.goto, Pc.taken, Line.next]
  | _ => simp [advance, hpc, Drv.goto, Pc.taken]

omit [Fintype P] in
/-- It comes to own the device only by taking the counter down from one. -/
theorem owns_advance (h : ((advance s p).pc p).owns = true) :
    (s.pc p).owns = true ∨ s.canopen = 1 := by
  cases hpc : s.pc p with
  | test =>
    simp only [advance, hpc, goto_self] at h
    split at h
    case isTrue h1 => exact .inr (by omega)
    case isFalse => cases h
  | free l => cases l <;> simp [advance, hpc, Pc.owns, Line.next] at h
  | _ => simp [advance, hpc, Pc.owns] at h ⊢

theorem owns_taken {c : Pc} (h : c.owns = true) : c.taken = true := by
  cases c <;> first | rfl | cases h

theorem Counted.advance (h : Counted s) (p : P) : Counted (advance s p) := by
  have htaken := tally_update (p := fun c : Pc => c.taken = true) s.pc p ((Sixth.advance s p).pc p)
  have howns := tally_update (p := fun c : Pc => c.owns = true) s.pc p ((Sixth.advance s p).pc p)
  have hcan := advance_canopen s p
  rw [← advance_pc] at htaken howns
  refine ⟨?_, ?_⟩
  · have hs := h.canopen
    split_ifs at htaken hcan <;> omega
  · by_cases hown : ((Sixth.advance s p).pc p).owns = true
    · rcases owns_advance hown with hp | h1
      · rw [if_pos hown, if_pos hp] at howns
        have hle := h.owners
        omega
      · -- with the counter at one nobody has taken it down
        have hle : tally (fun c : Pc => c.owns = true) s.pc ≤
            tally (fun c : Pc => c.taken = true) s.pc :=
          tally_le fun q hq => owns_taken hq
        have hs := h.canopen
        rw [if_pos hown] at howns
        split_ifs at howns <;> omega
    · rw [if_neg hown] at howns
      have hle := h.owners
      omega

theorem counted_of_reach (h : Reach step Drv.init s) : Counted s := by
  refine h.invariant (fun u p v hu hv => ?_) counted_init
  cases hv
  exact ⟨(hu.advance p).canopen, (hu.advance p).owners⟩

omit [DecidableEq P] in
/-- Two processes that own the device are one. -/
theorem Counted.unique (h : Counted s) (hp : (s.pc p).owns = true) (hq : (s.pc q).owns = true) :
    p = q := by
  have hpos : 0 < tally (fun c : Pc => c.owns = true) s.pc := tally_pos.mpr ⟨p, hp⟩
  have hone : tally (fun c : Pc => c.owns = true) s.pc = 1 := by
    have hle := h.owners
    omega
  obtain ⟨r, -, hr⟩ := tally_eq_one.mp hone
  exact (hr p hp).trans (hr q hq).symm

/-- One process at most has the device open; and with no call in progress the counter is one if
nobody has, and zero otherwise. -/
theorem single_opener (h : Reach step Drv.init s) :
    (∀ p q, s.pc p = .holds → s.pc q = .holds → p = q) ∧
      ((∀ p, s.pc p = .idle ∨ s.pc p = .holds) →
        s.canopen = if ∃ p, s.pc p = .holds then 0 else 1) := by
  have hc := counted_of_reach h
  refine ⟨fun p q hp hq => hc.unique (by rw [hp]; rfl) (by rw [hq]; rfl), fun hcalls => ?_⟩
  have hsame : tally (fun c : Pc => c.taken = true) s.pc =
      tally (fun c : Pc => c.owns = true) s.pc := by
    refine Nat.le_antisymm (tally_le fun p => ?_) (tally_le fun p => ?_) <;>
      rcases hcalls p with hp | hp <;> simp [hp, Pc.taken, Pc.owns]
  rw [hc.canopen, hsame]
  split
  case isTrue hex =>
    obtain ⟨p, hp⟩ := hex
    have hpos : 0 < tally (fun c : Pc => c.owns = true) s.pc :=
      tally_pos.mpr ⟨p, by rw [hp]; rfl⟩
    have hle := hc.owners
    omega
  case isFalse hno =>
    have hzero : tally (fun c : Pc => c.owns = true) s.pc = 0 := tally_eq_zero.mpr fun p hp => by
      rcases hcalls p with hi | hi
      · rw [hi] at hp
        cases hp
      · exact hno ⟨p, hi⟩
    rw [hzero]
    rfl

/-- A process has opened the device, and another has been refused. -/
theorem single_opener_second :
    ∃ s : Drv Bool, run step Drv.init
        [true, true, true, true, true, true, true, false, false, false, false] = some s ∧
      s.pc true = .holds ∧ s.pc false = .idle ∧ s.result false = -ebusy ∧ s.canopen = 0 := by
  have hrun : run step (Drv.init : Drv Bool)
      [true, true, true, true, true, true, true, false, false, false, false] = some _ := rfl
  refine ⟨_, hrun, rfl, rfl, rfl, ((single_opener ⟨_, hrun⟩).2 fun p => ?_).trans ?_⟩
  · cases p with
    | true => exact .inr rfl
    | false => exact .inl rfl
  · exact if_pos ⟨true, rfl⟩

end Counter

/-! ### The lines of an open device -/

/-- With the device open, or on its way to it, and past the `request_irq` of the line. -/
def Pc.past (c : Pc) (l : Line) : Prop :=
  match c with
  | .request l' => l.index < l'.index
  | .opened | .holds => True
  | _ => False

/-- The statements left until the device is open. -/
def Pc.rest : Pc → ℕ
  | .request l => 5 - l.index
  | .opened => 1
  | _ => 0

/-- Whoever has the device open has its four lines. -/
def LinesKept (s : Drv P) : Prop := ∀ p, s.pc p = .holds → ∀ l, s.lines l = true

/-- A `free_irq` is of a line that nobody with the device open, or on its way to it, has asked
for. -/
def FreesUnused (s : Drv P) (p : P) : Prop := ∀ l, s.pc p = .free l → ∀ q, ¬ (s.pc q).past l

/-- The process goes on in a `sixth_drv_open` that has got through. -/
def Opening (s : Drv P) (p : P) : Prop := (∃ l, s.pc p = .request l) ∨ s.pc p = .opened

section Lines

variable {s t : Drv P} {p q : P} {l : Line}

omit [Fintype P] in
/-- Only a `free_irq` of the line takes it away. -/
theorem lines_advance (h : s.lines l = true) (hp : s.pc p ≠ .free l) :
    (advance s p).lines l = true := by
  cases hpc : s.pc p with
  | request l' =>
    simp only [advance, hpc, Drv.goto, requestIrq_lines, Function.update_apply]
    split <;> [rfl; exact h]
  | free l' =>
    have hne : l ≠ l' := by
      rintro rfl
      exact hp hpc
    simpa only [advance, hpc, Drv.goto, freeIrq, Function.update_of_ne hne] using h
  | _ => simpa only [advance, hpc, Drv.goto] using h

omit [Fintype P] in
/-- A process gets past a line by asking for it. -/
theorem past_advance (h : ((advance s p).pc p).past l) :
    (s.pc p).past l ∨ s.pc p = .request l := by
  cases hpc : s.pc p with
  | request l' =>
    rw [advance, hpc, goto_self] at h
    cases hl : l'.next with
    | some l'' =>
      simp only [hl, Pc.past, Line.index_next hl] at h
      rcases Nat.lt_succ_iff_lt_or_eq.mp h with hlt | heq
      · exact .inl hlt
      · exact .inr (by rw [Line.index_inj heq])
    | none =>
      by_cases hne : l = l'
      · exact .inr (by rw [hne])
      · exact .inl (Line.index_lt_of_last hl hne)
  | opened => exact .inl trivial
  | test =>
    rw [advance, hpc, goto_self] at h
    split at h
    · exact absurd h (Nat.not_lt_zero _)
    · exact h.elim
  | free l' => cases l' <;> simp [advance, hpc, Pc.past, Line.next] at h
  | _ => simp [advance, hpc, Pc.past] at h

/-- The lines that some process with the device, or on its way to it, is past are taken. -/
def Had (s : Drv P) : Prop := ∀ q l, (s.pc q).past l → s.lines l = true

theorem Had.step (h : Had s) (hp : FreesUnused s p) (ht : step s p = some t) : Had t := by
  cases ht
  intro q l hq
  change (advance s p).lines l = true
  change ((advance s p).pc q).past l at hq
  by_cases hqp : q = p
  · subst hqp
    rcases past_advance hq with hpast | hreq
    · refine lines_advance (h q l hpast) fun hfree => ?_
      rw [hfree] at hpast
      exact hpast
    · simp [advance, hreq, Drv.goto]
  · rw [advance_of_ne hqp] at hq
    exact lines_advance (h q l hq) fun hfree => hp l hfree q hq

omit [Fintype P] in
/-- Going on in its `sixth_drv_open`, a process does not ask for a line that it is past. -/
theorem opening_advance (ho : Opening s q) (hq : (s.pc q).past l) (hl : s.lines l = false) :
    ((advance s q).pc q).past l ∧ (advance s q).lines l = false ∧
      ((advance s q).pc q).rest < (s.pc q).rest := by
  rcases ho with ⟨l', hpc⟩ | hpc
  · rw [hpc] at hq
    have hne : l ≠ l' := by
      rintro rfl
      exact Nat.lt_irrefl _ hq
    have hlines : (advance s q).lines l = false := by
      simp [advance, hpc, Drv.goto, Function.update_of_ne hne, hl]
    refine ⟨?_, hlines, ?_⟩
    · cases l' <;> simp_all [advance, Pc.past, Line.next, Line.index]
      omega
    · cases l' <;> simp [advance, hpc, Line.next, Pc.rest, Line.index]
  · simp [advance, hpc, Pc.past, Pc.rest, Drv.goto, hl]

/-- On its own, it opens the device without. -/
theorem opens_without (hq : (s.pc q).past l) (hl : s.lines l = false) :
    ∃ ds u, Along step Opening s ds ∧ run step s ds = some u ∧ u.pc q = .holds ∧
      u.lines l = false := by
  induction hn : (s.pc q).rest using Nat.strong_induction_on generalizing s with
  | _ n ih =>
    by_cases hholds : s.pc q = .holds
    · exact ⟨[], s, trivial, rfl, hholds, hl⟩
    · have ho : Opening s q := by
        cases hpc : s.pc q with
        | request l' => exact .inl ⟨l', hpc⟩
        | opened => exact .inr hpc
        | holds => exact absurd hpc hholds
        | _ => rw [hpc] at hq; exact hq.elim
      obtain ⟨hpast, hlines, hlt⟩ := opening_advance ho hq hl
      obtain ⟨ds, u, hds, hu, hres⟩ := ih _ (hn ▸ hlt) (s := watch (advance s q)) hpast hlines rfl
      refine ⟨q :: ds, u, ⟨ho, fun t ht => ?_⟩, run_cons.mpr ⟨_, rfl, hu⟩, hres⟩
      cases ht
      exact hds

/-- An open device has its four lines, wherever a run, broken off at any point, may go on to by
opens that have got through, exactly if no `free_irq` of the run is of a line that a process with
the device open, or on its way to it, has asked for. -/
theorem lines_kept_iff (as : List P) :
    Along step FreesUnused Drv.init as ↔
      ∀ bs cs ds s t, as = bs ++ cs → run step Drv.init bs = some s → Along step Opening s ds →
        run step s ds = some t → LinesKept t := by
  have hinit : Had (Drv.init : Drv P) := fun _ _ h => h.elim
  have hkept : ∀ s : Drv P, Had s → LinesKept s := fun s h p hp l => h p l (by rw [hp]; trivial)
  have hopening : ∀ (s : Drv P) p, Opening s p → FreesUnused s p := by
    -- a process that opens frees nothing
    intro s p hp l hfree
    rcases hp with ⟨l', hp⟩ | hp <;> rw [hp] at hfree <;> cases hfree
  refine along_iff_of_breach hinit (fun _ _ _ _ h hC ht => h.step hC ht) hkept hopening
    (fun s p _ hC => ?_) as
  obtain ⟨l, hfree, q, hq⟩ : ∃ l, s.pc p = .free l ∧ ∃ q, (s.pc q).past l := by
    simpa only [FreesUnused, not_forall, exists_prop, not_not] using hC
  have hqp : q ≠ p := by
    rintro rfl
    rw [hfree] at hq
    exact hq
  have hpast : ((advance s p).pc q).past l := by
    rw [advance_of_ne hqp]
    exact hq
  have hlines : (advance s p).lines l = false := by
    simp [advance, hfree, Drv.goto, freeIrq]
  obtain ⟨ds, u, hds, hu, hholds, hout⟩ :=
    opens_without (s := watch (advance s p)) hpast hlines
  refine ⟨_, rfl, ds, u, hds, hu, fun hkept => ?_⟩
  rw [hkept q hholds l] at hout
  cases hout

/-- The closing process gives the counter back, another opens the device and finds every line
taken, and then the first frees them. -/
theorem lines_kept_gap :
    ∃ s : Drv Bool, run step Drv.init [true, true, true, true, true, true, true, true, true,
        false, false, false, false, false, false, false, true] = some s ∧ ¬ LinesKept s :=
  ⟨_, rfl, fun h => Bool.false_ne_true (h false rfl .eint0)⟩

end Lines

/-! ### Refusals -/

/-- If the last call of a process has returned `-EBUSY`, somebody has had the device during it. -/
def RefusalsHonest (s : Drv P) : Prop :=
  ∀ p, s.pc p = .idle → s.result p = -ebusy → s.seen p = true

/-- If a process looks at the counter while another has still to put back what it has taken in
vain, somebody has had the device during its call. -/
def TriesClear (s : Drv P) (p : P) : Prop :=
  s.pc p = .test → (∃ q, s.pc q = .undo) → s.seen p = true

/-- The process goes on in a `sixth_drv_open` that has not got through. -/
def Refused (s : Drv P) (p : P) : Prop := s.pc p = .undo ∨ s.pc p = .busy

section Refusals

variable {s t : Drv P} {p q : P}

/-- Whoever is in a call has seen whether somebody has the device. -/
def Watched (s : Drv P) : Prop := ∀ p q, s.pc p ≠ .idle → (s.pc q).has = true → s.seen p = true

omit [DecidableEq P] in
theorem watched_watch (s : Drv P) : Watched (watch s) := by
  intro p q hp hq
  simpa [watch] using .inr ⟨hp, q, hq⟩

theorem watched_of_reach (h : Reach step Drv.init s) : Watched s := by
  refine h.invariant (fun u p v _ hv => ?_) fun p _ hp => absurd rfl hp
  cases hv
  exact watched_watch _

omit [DecidableEq P] in
/-- What has been seen stays seen. -/
theorem seen_watch (h : s.seen p = true) : (watch s).seen p = true := by
  simp [watch, h]

omit [DecidableEq P] in
/-- With the device free there is nothing to see. -/
theorem watch_of_free (h : ∀ q, (s.pc q).has = false) : watch s = s := by
  simp [watch, h]

omit [Fintype P] in
/-- It is forgotten when the process calls again. -/
theorem seen_advance (hp : s.pc p ≠ .idle) : (advance s p).seen = s.seen := by
  cases hpc : s.pc p <;> simp_all [advance, Drv.goto]

omit [Fintype P] in
theorem seen_advance_of_ne (h : q ≠ p) : (advance s p).seen q = s.seen q := by
  cases hpc : s.pc p <;> simp [advance, hpc, Drv.goto, Function.update_of_ne h]

omit [Fintype P] in
theorem result_advance_of_ne (h : q ≠ p) : (advance s p).result q = s.result q := by
  cases hpc : s.pc p <;> simp [advance, hpc, Drv.goto, Function.update_of_ne h]

/-- Those that are refused, and those that have been, have seen somebody with the device. -/
structure Honest (s : Drv P) : Prop where
  /-- Those that are. -/
  refused : ∀ p, Refused s p → s.seen p = true
  /-- Those that have been. -/
  result : RefusalsHonest s

omit [DecidableEq P] in
/-- A process finds the counter below one because of another, which has the device or has still
to put back what it has taken. -/
theorem Counted.exists_taken (h : Counted s) (hne : s.canopen ≠ 1) :
    ∃ q, s.pc q = .undo ∨ (s.pc q).has = true := by
  have hpos : 0 < tally (fun c : Pc => c.taken = true) s.pc := by
    have hcan := h.canopen
    omega
  obtain ⟨q, hq⟩ := tally_pos.mp hpos
  refine ⟨q, ?_⟩
  cases hpc : s.pc q with
  | undo => exact .inl rfl
  | idle | test | busy | free l | closed =>
    rw [hpc] at hq
    cases hq
  | _ => exact .inr rfl

/-- A process that is about to be refused. -/
theorem Honest.refused_advance (h : Honest s) (hc : Counted s) (hw : Watched s)
    (hp : TriesClear s p) (hr : Refused (advance s p) p) : s.seen p = true := by
  cases hpc : s.pc p with
  | undo => exact h.refused p (.inl hpc)
  | test =>
    have hne : s.canopen ≠ 1 := by
      intro h1
      simp [Refused, advance, hpc, h1] at hr
    obtain ⟨q, hq | hq⟩ := hc.exists_taken hne
    · exact hp hpc ⟨q, hq⟩
    · exact hw p q (by rw [hpc]; simp) hq
  | request l | free l => cases l <;> simp [Refused, advance, hpc, Line.next] at hr
  | _ => simp [Refused, advance, hpc] at hr

omit [Fintype P] in
/-- And one that has just been. -/
theorem Honest.result_advance (h : Honest s) (hpc' : (advance s p).pc p = .idle)
    (hr : (advance s p).result p = -ebusy) : s.seen p = true := by
  cases hpc : s.pc p with
  | busy => exact h.refused p (.inr hpc)
  | closed => simp [advance, hpc, Drv.goto, ebusy] at hr
  | test => simp only [advance, hpc, goto_self] at hpc'; split at hpc' <;> cases hpc'
  | request l | free l => cases l <;> simp [advance, hpc, Line.next] at hpc'
  | _ => simp [advance, hpc] at hpc'

theorem Honest.step (h : Honest s) (hc : Counted s) (hw : Watched s) (hp : TriesClear s p)
    (ht : step s p = some t) : Honest t := by
  cases ht
  have hseen : ∀ q, s.seen q = true → s.pc q ≠ .idle ∨ q ≠ p →
      (watch (advance s p)).seen q = true := by
    intro q hq hor
    refine seen_watch ?_
    by_cases hqp : q = p
    · subst hqp
      rwa [seen_advance (hor.resolve_right fun hne => hne rfl)]
    · rwa [seen_advance_of_ne hqp]
  have hpidle : s.pc p = .idle → (advance s p).pc p = .test := by
    intro hpc
    simp [advance, hpc]
  refine ⟨fun q hq => ?_, fun q hidle hres => ?_⟩
  · by_cases hqp : q = p
    · subst hqp
      refine hseen q (h.refused_advance hc hw hp hq) (.inl fun hpc => ?_)
      rcases hq with hq | hq <;> rw [show (watch (advance s q)).pc q = _ from hpidle hpc] at hq <;>
        cases hq
    · refine hseen q (h.refused q ?_) (.inr hqp)
      rwa [Refused, ← advance_of_ne hqp]
  · change (advance s p).pc q = .idle at hidle
    change (advance s p).result q = -ebusy at hres
    by_cases hqp : q = p
    · subst hqp
      refine hseen q (h.result_advance hidle hres) (.inl fun hpc => ?_)
      rw [hpidle hpc] at hidle
      cases hidle
    · rw [advance_of_ne hqp] at hidle
      rw [result_advance_of_ne hqp] at hres
      exact hseen q (h.result q hidle hres) (.inr hqp)

omit [Fintype P] in
theorem free_advance (h : ∀ q, (s.pc q).has = false) (hp : ((advance s p).pc p).has = false) :
    ∀ q, ((advance s p).pc q).has = false := by
  intro q
  by_cases hqp : q = p
  · rw [hqp, hp]
  · rw [advance_of_ne hqp, h q]

/-- With the device free, a process that is about to be refused is, and sees nobody. -/
theorem refused_alone (hfree : ∀ q, (s.pc q).has = false) (hp : Refused s p)
    (hseen : s.seen p = false) :
    ∃ ds u, Along step Refused s ds ∧ run step s ds = some u ∧ ¬ RefusalsHonest u := by
  have hbusy : ∀ s : Drv P, (∀ q, (s.pc q).has = false) → s.pc p = .busy → s.seen p = false →
      ∃ ds u, Along step Refused s ds ∧ run step s ds = some u ∧ ¬ RefusalsHonest u := by
    intro s hfree hpc hseen
    have hsame : watch (advance s p) = advance s p :=
      watch_of_free (free_advance hfree (by simp [advance, hpc, Pc.has]))
    refine ⟨[p], advance s p, ⟨.inr hpc, fun _ _ => trivial⟩, by simp [run, step, hsame],
      fun h => ?_⟩
    have hsaw := h p (by simp [advance, hpc]) (by simp [advance, hpc, Drv.goto])
    rw [seen_advance (by rw [hpc]; simp), hseen] at hsaw
    cases hsaw
  rcases hp with hpc | hpc
  · have hfree' : ∀ q, ((advance s p).pc q).has = false :=
      free_advance hfree (by simp [advance, hpc, Pc.has])
    have hsame : watch (advance s p) = advance s p := watch_of_free hfree'
    have hseen' : (advance s p).seen p = false := by
      rw [seen_advance (by rw [hpc]; simp), hseen]
    obtain ⟨ds, u, hds, hu, hnot⟩ := hbusy (advance s p) hfree' (by simp [advance, hpc]) hseen'
    have hstep : step s p = some (advance s p) := by rw [step, hsame]
    refine ⟨p :: ds, u, ⟨.inl hpc, fun t ht => ?_⟩, run_cons.mpr ⟨_, hstep, hu⟩, hnot⟩
    cases hstep.symm.trans ht
    exact hds
  · exact hbusy s hfree hpc hseen

/-- Whoever has got `-EBUSY` has seen somebody with the device during the call, wherever a run,
broken off at any point, may go on to by opens that have not got through, exactly if nobody looks
at the counter in the run while another process has still to put back what it has taken in vain
and nobody has had the device since the call. -/
theorem refusals_honest_iff (as : List P) :
    Along step TriesClear Drv.init as ↔
      ∀ bs cs ds s t, as = bs ++ cs → run step Drv.init bs = some s → Along step Refused s ds →
        run step s ds = some t → RefusalsHonest t := by
  have hinit : Honest (Drv.init : Drv P) := by
    refine ⟨fun p hp => ?_, fun p _ hres => ?_⟩
    · rcases hp with hp | hp <;> cases hp
    · cases hres
  have hrefused : ∀ (s : Drv P) p, Refused s p → TriesClear s p := by
    -- a process that looks at the counter has not been told yet
    intro s p hp htest
    rcases hp with hp | hp <;> rw [hp] at htest <;> cases htest
  refine along_iff_of_breach hinit
    (fun _ _ _ hr h hC ht => h.step (counted_of_reach hr) (watched_of_reach hr) hC ht)
    (fun _ h => h.result) hrefused (fun s p hr hC => ?_) as
  obtain ⟨hpc, ⟨q, hq⟩, hseen⟩ : s.pc p = .test ∧ (∃ q, s.pc q = .undo) ∧ s.seen p = false := by
    simpa only [TriesClear, Classical.not_imp, Bool.not_eq_true] using hC
  have hfree : ∀ r, (s.pc r).has = false := by
    intro r
    by_contra hhas
    have hsaw := watched_of_reach hr p r (by rw [hpc]; simp) (Bool.eq_true_of_not_eq_false hhas)
    rw [hseen] at hsaw
    cases hsaw
  have hcan : s.canopen - 1 ≠ 0 := by
    have hpos : 0 < tally (fun c : Pc => c.taken = true) s.pc :=
      tally_pos.mpr ⟨q, by rw [hq]; rfl⟩
    have hcount := (counted_of_reach hr).canopen
    omega
  have hundo : (advance s p).pc p = .undo := by simp [advance, hpc, hcan]
  have hfree' := free_advance hfree (by rw [hundo]; rfl)
  have hsame : watch (advance s p) = advance s p := watch_of_free hfree'
  refine ⟨advance s p, by rw [step, hsame], refused_alone hfree' (.inl hundo) ?_⟩
  rw [seen_advance (by rw [hpc]; simp), hseen]

/-- One process has the device, another takes the counter down in vain, the first closes the
device, and only then a third calls: it is refused. -/
theorem refusals_spurious :
    ∃ s : Drv (Fin 3), run step Drv.init [0, 0, 0, 0, 0, 0, 0, 1, 1, 0, 0, 0, 0, 0, 0, 0,
        2, 2, 2, 2] = some s ∧ ¬ RefusalsHonest s :=
  ⟨_, rfl, fun h => Bool.false_ne_true (h 2 rfl rfl)⟩

end Refusals

end S3c2440.Sixth
