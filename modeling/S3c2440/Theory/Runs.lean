import Mathlib.Data.List.Induction

/-!
# Runs of a machine

A machine is given by its step function: what an action does to a state, `none`
where the action cannot be taken. All the choice there is (which thread moves,
what a device answers, which waiter is woken) is in the action, so a run is a
list of actions and can be computed.

## What is proved

* `Reach.invariant`, `Reach.induct`, `Along.invariant` — what one step preserves, a
  run preserves; in the last every step of the run is assumed to meet a condition.
* `throughout_iff` — a property of every state along a run is a property of the
  state after each of its prefixes; `throughout_iff_along` — and a condition on its steps, if a step
  meets the condition exactly where it keeps the property.
* `along_iff_of_lost_from`, `along_iff_of_lost`, `along_iff_of_breach`, `along_iff_of_next` — when
  such a condition is also necessary.
* `run_replicate`, `run_loop` — an action taken again and again.
* `Until`, `Inevitable` — whatever actions are taken, and as long as some action is
  taken whenever one can be, a state with the property is reached: total
  correctness of a machine with choice. `Until.of_reach` and `Until.and_of_final`
  are about the states a machine stops in.
* `Reach.lift`, `Until.lift` — a machine that runs inside another one until it stops.
-/

namespace Theory

universe u v

variable {σ : Type u} {α : Type v}

/-- What an action does to a state; `none` where it cannot be taken. -/
abbrev Step (σ : Type u) (α : Type v) := σ → α → Option σ

variable (step : Step σ α)

/-! ### Runs -/

/-- The state after the actions `as`, if each can be taken in its turn. -/
def run : σ → List α → Option σ
  | s, [] => some s
  | s, a :: as => (step s a).bind fun t => run t as

/-- Some run leads from `s` to `t`. -/
def Reach (s t : σ) : Prop := ∃ as, run step s as = some t

variable {step}

@[simp] theorem run_nil (s : σ) : run step s [] = some s := rfl

theorem run_cons {s u : σ} {a : α} {as : List α} :
    run step s (a :: as) = some u ↔ ∃ t, step s a = some t ∧ run step t as = some u := by
  simp only [run, Option.bind_eq_some_iff]

theorem run_append {s u : σ} {as bs : List α} :
    run step s (as ++ bs) = some u ↔ ∃ t, run step s as = some t ∧ run step t bs = some u := by
  induction as generalizing s with
  | nil => simp
  | cons a as ih =>
    simp only [List.cons_append, run_cons, ih]
    constructor
    · rintro ⟨t, ht, w, hw, hu⟩
      exact ⟨w, ⟨t, ht, hw⟩, hu⟩
    · rintro ⟨w, ⟨t, ht, hw⟩, hu⟩
      exact ⟨t, ht, w, hw, hu⟩

/-- The same action again and again, if the state after each is known beforehand. -/
theorem run_replicate {a : α} (f : ℕ → σ) (n : ℕ) (h : ∀ k < n, step (f k) a = some (f (k + 1))) :
    run step (f 0) (List.replicate n a) = some (f n) := by
  induction n with
  | zero => rfl
  | succ n ih =>
    rw [List.replicate_succ', run_append]
    have hinit := ih fun k hk => h k (Nat.lt_succ_of_lt hk)
    exact ⟨f n, hinit, run_cons.mpr ⟨f (n + 1), h n (Nat.lt_succ_self n), rfl⟩⟩

/-- And once more, out of a loop. -/
theorem run_loop {a : α} {t : σ} (f : ℕ → σ) (n : ℕ) (h : ∀ k < n, step (f k) a = some (f (k + 1)))
    (hend : step (f n) a = some t) : run step (f 0) (List.replicate (n + 1) a) = some t := by
  rw [List.replicate_succ', run_append]
  exact ⟨f n, run_replicate f n h, run_cons.mpr ⟨t, hend, rfl⟩⟩

theorem Reach.refl (s : σ) : Reach step s s := ⟨[], rfl⟩

theorem Reach.trans {s t u : σ} (h : Reach step s t) (h' : Reach step t u) : Reach step s u := by
  obtain ⟨as, ha⟩ := h
  obtain ⟨bs, hb⟩ := h'
  exact ⟨as ++ bs, run_append.mpr ⟨t, ha, hb⟩⟩

theorem Reach.head {s t u : σ} {a : α} (h : step s a = some t) (h' : Reach step t u) :
    Reach step s u := by
  obtain ⟨as, ha⟩ := h'
  exact ⟨a :: as, run_cons.mpr ⟨t, h, ha⟩⟩

theorem Reach.one {s t : σ} {a : α} (h : step s a = some t) : Reach step s t := .head h (.refl t)

/-- What one step preserves, a run preserves. -/
theorem Reach.invariant {I : σ → Prop} (hstep : ∀ s a t, I s → step s a = some t → I t)
    {s t : σ} (hs : I s) (h : Reach step s t) : I t := by
  obtain ⟨as, h⟩ := h
  induction as generalizing s with
  | nil => cases h; exact hs
  | cons a as ih =>
    obtain ⟨w, hw, h⟩ := run_cons.mp h
    exact ih (hstep s a w hs hw) h

/-- Induction over the reachable states: each is known to be reachable in its turn. -/
theorem Reach.induct {P : σ → Prop} {s₀ s : σ} (h₀ : P s₀)
    (hstep : ∀ s a t, Reach step s₀ s → P s → step s a = some t → P t) (h : Reach step s₀ s) :
    P s := by
  have hinv := h.invariant (I := fun t => Reach step s₀ t ∧ P t)
    (fun t a u ht hu => ⟨ht.1.trans (.one hu), hstep t a u ht.1 ht.2 hu⟩) ⟨.refl s₀, h₀⟩
  exact hinv.2

/-! ### Conditions along a run -/

variable (step)

/-- Every step of the run meets the condition `C` on the state it is taken in. -/
def Along (C : σ → α → Prop) : σ → List α → Prop
  | _, [] => True
  | s, a :: as => C s a ∧ ∀ t, step s a = some t → Along C t as

/-- Every state of the run, the first and the last included, has the property `P`. -/
def Throughout (P : σ → Prop) : σ → List α → Prop
  | s, [] => P s
  | s, a :: as => P s ∧ ∀ t, step s a = some t → Throughout P t as

variable {step}

instance decidableAlong {C : σ → α → Prop} [∀ s a, Decidable (C s a)] :
    ∀ s as, Decidable (Along step C s as)
  | _, [] => .isTrue trivial
  | s, a :: as =>
    have : Decidable (∀ t, step s a = some t → Along step C t as) :=
      match step s a with
      | none => .isTrue nofun
      | some t =>
        have := decidableAlong (C := C) t as
        decidable_of_iff (Along step C t as)
          ⟨fun h _ ht => Option.some.inj ht ▸ h, fun h => h t rfl⟩
    inferInstanceAs (Decidable (C s a ∧ _))

theorem throughout_iff {P : σ → Prop} {s : σ} {as : List α} :
    Throughout step P s as ↔ ∀ bs cs t, as = bs ++ cs → run step s bs = some t → P t := by
  induction as generalizing s with
  | nil =>
    constructor
    · rintro h bs cs t hb ht
      obtain ⟨rfl, -⟩ := List.append_eq_nil_iff.mp hb.symm
      cases ht
      exact h
    · exact fun h => h [] [] s rfl rfl
  | cons a as ih =>
    constructor
    · rintro ⟨hs, hrest⟩ bs cs t hb ht
      cases bs with
      | nil => cases ht; exact hs
      | cons b bs =>
        obtain ⟨rfl, rfl⟩ := List.cons.inj hb
        obtain ⟨w, hw, ht⟩ := run_cons.mp ht
        exact ih.mp (hrest w hw) bs cs t rfl ht
    · refine fun h => ⟨h [] (a :: as) s rfl rfl, fun t ht => ih.mpr fun bs cs w hb hw => ?_⟩
      exact h (a :: bs) cs w (by rw [hb]; rfl) (run_cons.mpr ⟨t, ht, hw⟩)

/-- The condition along a run in two parts. -/
theorem along_append {C : σ → α → Prop} {s : σ} {as bs : List α} :
    Along step C s (as ++ bs) ↔
      Along step C s as ∧ ∀ t, run step s as = some t → Along step C t bs := by
  induction as generalizing s with
  | nil =>
    refine ⟨fun h => ⟨trivial, fun t ht => ?_⟩, fun h => h.2 s rfl⟩
    cases ht
    exact h
  | cons a as ih =>
    constructor
    · refine fun h => ⟨⟨h.1, fun t ht => (ih.mp (h.2 t ht)).1⟩, fun u hu => ?_⟩
      obtain ⟨t, ht, hu⟩ := run_cons.mp hu
      exact (ih.mp (h.2 t ht)).2 u hu
    · rintro ⟨⟨ha, has⟩, hbs⟩
      exact ⟨ha, fun t ht => ih.mpr ⟨has t ht, fun u hu => hbs u (run_cons.mpr ⟨t, ht, hu⟩)⟩⟩

theorem Throughout.mono {P Q : σ → Prop} (hPQ : ∀ s, P s → Q s) {s : σ} {as : List α}
    (h : Throughout step P s as) : Throughout step Q s as :=
  throughout_iff.mpr fun bs cs t hb ht => hPQ t (throughout_iff.mp h bs cs t hb ht)

theorem Throughout.head {P : σ → Prop} {s : σ} {as : List α} (h : Throughout step P s as) : P s :=
  throughout_iff.mp h [] as s rfl rfl

/-- What a step that meets the condition preserves holds throughout a run whose steps
all meet it. -/
theorem Along.invariant {C : σ → α → Prop} {Inv : σ → Prop}
    (hstep : ∀ s a t, Inv s → C s a → step s a = some t → Inv t) {s : σ} {as : List α}
    (hs : Inv s) (h : Along step C s as) : Throughout step Inv s as := by
  induction as generalizing s with
  | nil => exact hs
  | cons a as ih => exact ⟨hs, fun t ht => ih (hstep s a t hs h.1 ht) (h.2 t ht)⟩

/-- A condition on steps that follows from what holds after them holds along the run. -/
theorem Throughout.along {P : σ → Prop} {C : σ → α → Prop}
    (hC : ∀ s a, (∀ t, step s a = some t → P t) → C s a) {s : σ} {as : List α}
    (h : Throughout step P s as) : Along step C s as := by
  induction as generalizing s with
  | nil => trivial
  | cons a as ih => exact ⟨hC s a fun t ht => (h.2 t ht).head, fun t ht => ih (h.2 t ht)⟩

/-- A condition that a step meets exactly if it keeps a property holds along a run exactly if the
property holds throughout it; what every step keeps may be used for that. -/
theorem throughout_iff_along_of {I P : σ → Prop} {C : σ → α → Prop}
    (hI : ∀ s a t, I s → step s a = some t → I t)
    (hC : ∀ s a, I s → P s → (C s a ↔ ∀ t, step s a = some t → P t)) {s : σ} (hi : I s) (hs : P s)
    (as : List α) : Throughout step P s as ↔ Along step C s as := by
  constructor
  · intro h
    induction as generalizing s with
    | nil => trivial
    | cons a as ih =>
      refine ⟨(hC s a hi hs).mpr fun t ht => (h.2 t ht).head, fun t ht => ?_⟩
      exact ih (hI s a t hi ht) (h.2 t ht).head (h.2 t ht)
  · intro h
    have hboth : Throughout step (fun u => I u ∧ P u) s as := by
      refine h.invariant (fun u a t hu ha ht => ⟨hI u a t hu.1 ht, ?_⟩) ⟨hi, hs⟩
      exact (hC u a hu.1 hu.2).mp ha t ht
    exact hboth.mono fun _ hu => hu.2

theorem throughout_iff_along {P : σ → Prop} {C : σ → α → Prop}
    (hC : ∀ s a, P s → (C s a ↔ ∀ t, step s a = some t → P t)) {s : σ} (hs : P s) (as : List α) :
    Throughout step P s as ↔ Along step C s as :=
  throughout_iff_along_of (I := fun _ => True) (fun _ _ _ _ _ => trivial) (fun s a _ => hC s a)
    trivial hs as

/-- The last state of a run has what every state of it has. -/
theorem Throughout.last {P : σ → Prop} {s t : σ} {as : List α} (h : Throughout step P s as)
    (ht : run step s as = some t) : P t :=
  throughout_iff.mp h as [] t (List.append_nil as).symm ht

theorem Along.mono {C D : σ → α → Prop} (hCD : ∀ s a, C s a → D s a) {s : σ} {as : List α}
    (h : Along step C s as) : Along step D s as := by
  induction as generalizing s with
  | nil => trivial
  | cons a as ih => exact ⟨hCD s a h.1, fun t ht => ih (h.2 t ht)⟩

/-- Two conditions that are the same in every state. -/
theorem along_congr {C D : σ → α → Prop} (hCD : ∀ s a, C s a ↔ D s a) (s : σ) (as : List α) :
    Along step C s as ↔ Along step D s as :=
  ⟨.mono fun s a => (hCD s a).mp, .mono fun s a => (hCD s a).mpr⟩

/-- A condition that all the actions of a run meet in any state. -/
theorem along_of_forall {C : σ → α → Prop} {as : List α} (h : ∀ s, ∀ a ∈ as, C s a) (s : σ) :
    Along step C s as := by
  induction as generalizing s with
  | nil => trivial
  | cons a as ih =>
    exact ⟨h s a (List.mem_cons_self ..),
      fun t _ => ih (fun u b hb => h u b (List.mem_cons_of_mem a hb)) t⟩

/-- A condition on steps that keeps a property, that some ways of going on (`E`) cannot break,
and whose first breach can be gone on from, in such a way, to a state without the property: it
holds along a run exactly if the property holds wherever the run, broken off at any
point, can go on to. -/
theorem along_iff_of_lost_from {C : σ → α → Prop} {P : σ → Prop} {E : σ → List α → Prop} {s₀ : σ}
    (hkeep : ∀ as t, Along step C s₀ as → run step s₀ as = some t → P t)
    (hext : ∀ s ds, E s ds → Along step C s ds)
    (hlost : ∀ as s a, Along step C s₀ as → run step s₀ as = some s → ¬ C s a →
      ∃ t, step s a = some t ∧ ∃ ds u, E t ds ∧ run step t ds = some u ∧ ¬ P u) (as : List α) :
    Along step C s₀ as ↔
      ∀ bs cs ds s t, as = bs ++ cs → run step s₀ bs = some s → E s ds → run step s ds = some t →
        P t := by
  constructor
  · rintro h bs cs ds s t rfl hs hds ht
    have hbs := (along_append.mp h).1
    refine hkeep (bs ++ ds) t (along_append.mpr ⟨hbs, fun u hu => ?_⟩)
      (run_append.mpr ⟨s, hs, ht⟩)
    cases hs.symm.trans hu
    exact hext s ds hds
  · intro h
    -- prefix by prefix: the first breach would be gone on from
    suffices hpre : ∀ bs cs, as = bs ++ cs → Along step C s₀ bs from
      hpre as [] (List.append_nil as).symm
    intro bs
    induction bs using List.reverseRecOn with
    | nil => exact fun _ _ => trivial
    | append_singleton bs a ih =>
      intro cs hcs
      have hbs := ih (a :: cs) (by rw [hcs, List.append_assoc]; rfl)
      refine along_append.mpr ⟨hbs, fun s hs => ⟨?_, fun _ _ => trivial⟩⟩
      by_contra hC
      obtain ⟨t, ht, ds, u, hds, hu, hnot⟩ := hlost bs s a hbs hs hC
      have hrun : run step s₀ (bs ++ [a]) = some t :=
        run_append.mpr ⟨s, hs, run_cons.mpr ⟨t, ht, rfl⟩⟩
      exact hnot (h (bs ++ [a]) cs ds t u hcs hrun hds hu)

/-- The same, where the ways of going on are the same everywhere. -/
theorem along_iff_of_lost {C : σ → α → Prop} {P : σ → Prop} {E : List α → Prop} {s₀ : σ}
    (hkeep : ∀ as t, Along step C s₀ as → run step s₀ as = some t → P t)
    (hext : ∀ s ds, E ds → Along step C s ds)
    (hlost : ∀ as s a, Along step C s₀ as → run step s₀ as = some s → ¬ C s a →
      ∃ t, step s a = some t ∧ ∃ ds u, E ds ∧ run step t ds = some u ∧ ¬ P u) (as : List α) :
    Along step C s₀ as ↔
      ∀ bs cs ds t, as = bs ++ cs → E ds → run step s₀ (bs ++ ds) = some t → P t := by
  rw [along_iff_of_lost_from (E := fun _ => E) hkeep hext hlost]
  constructor
  · intro h bs cs ds t hcs hds ht
    obtain ⟨s, hs, ht⟩ := run_append.mp ht
    exact h bs cs ds s t hcs hs hds ht
  · intro h bs cs ds s t hcs hs hds ht
    exact h bs cs ds t hcs hds (run_append.mpr ⟨s, hs, ht⟩)

/-- The same, where an invariant keeps the property, and the ways of going on are given by a
condition `D` on their steps, which is stronger than `C`. -/
theorem along_iff_of_breach {C D : σ → α → Prop} {Inv P : σ → Prop} {s₀ : σ} (hinit : Inv s₀)
    (hstep : ∀ s a t, Reach step s₀ s → Inv s → C s a → step s a = some t → Inv t)
    (hP : ∀ s, Inv s → P s) (hD : ∀ s a, D s a → C s a)
    (hlost : ∀ s a, Reach step s₀ s → ¬ C s a →
      ∃ t, step s a = some t ∧ ∃ ds u, Along step D t ds ∧ run step t ds = some u ∧ ¬ P u)
    (as : List α) :
    Along step C s₀ as ↔
      ∀ bs cs ds s t, as = bs ++ cs → run step s₀ bs = some s → Along step D s ds →
        run step s ds = some t → P t := by
  have hkeep : ∀ as t, Along step C s₀ as → run step s₀ as = some t → P t := by
    intro as t has ht
    have hall : Throughout step (fun u => Inv u ∧ Reach step s₀ u) s₀ as := by
      refine has.invariant (fun s a u hs ha hu => ⟨?_, hs.2.trans (.one hu)⟩) ⟨hinit, .refl s₀⟩
      exact hstep s a u hs.2 hs.1 ha hu
    exact hP t (hall.last ht).1
  exact along_iff_of_lost_from hkeep (fun _ _ h => h.mono hD)
    (fun _ s a _ hs hC => hlost s a ⟨_, hs⟩ hC) as

/-- The same, where one more step, whatever it is, cannot break the property before a breach, and
some step breaks it after one. -/
theorem along_iff_of_next {C : σ → α → Prop} {Inv P : σ → Prop} {s₀ : σ} (hinit : Inv s₀)
    (hstep : ∀ s a t, Inv s → C s a → step s a = some t → Inv t)
    (hP : ∀ s a t, Inv s → step s a = some t → P t)
    (hlost : ∀ s a, Inv s → ¬ C s a →
      ∃ t, step s a = some t ∧ ∃ b u, step t b = some u ∧ ¬ P u) (as : List α) :
    Along step C s₀ as ↔
      ∀ bs cs s a t, as = bs ++ cs → run step s₀ bs = some s → step s a = some t → P t := by
  have hinv : ∀ as s, Along step C s₀ as → run step s₀ as = some s → Inv s :=
    fun as s has hs => (has.invariant hstep hinit).last hs
  rw [along_iff_of_lost_from (P := fun s => ∀ a t, step s a = some t → P t)
    (E := fun _ ds => ds = [])
    (fun as s has hs a t ht => hP s a t (hinv as s has hs) ht)
    (fun s ds hds => hds ▸ trivial)
    (fun as s a has hs hC => by
      obtain ⟨t, ht, b, u, hu, hnot⟩ := hlost s a (hinv as s has hs) hC
      exact ⟨t, ht, [], t, rfl, rfl, fun hall => hnot (hall b u hu)⟩)]
  constructor
  · exact fun h bs cs s a t hcs hs ht => h bs cs [] s s hcs hs rfl rfl a t ht
  · intro h bs cs ds s u hcs hs hds hu a t ht
    subst hds
    cases hu
    exact h bs cs s a t hcs hs ht

/-! ### What must happen -/

/-- Whatever actions are taken, a state with the property `P` is reached; every state before
it has the property `Q`, and none of them is one where nothing can be done. -/
inductive Until (step : Step σ α) (Q P : σ → Prop) : σ → Prop where
  /-- The property holds here. -/
  | now {s : σ} : P s → Until step Q P s
  /-- Something can be done, and whatever is done, the same holds after it. -/
  | later {s : σ} : Q s → (∃ a t, step s a = some t) →
      (∀ a t, step s a = some t → Until step Q P t) → Until step Q P s

/-- Whatever actions are taken, a state with the property `P` is reached. -/
abbrev Inevitable (step : Step σ α) (P : σ → Prop) : σ → Prop := Until step (fun _ => True) P

variable {P P' Q Q' : σ → Prop} {s t : σ}

theorem Until.trans (h : Until step Q P s) (hP : ∀ t, P t → Until step Q P' t) :
    Until step Q P' s := by
  induction h with
  | now hp => exact hP _ hp
  | later hq hex _ ih => exact .later hq hex ih

theorem Until.mono (h : Until step Q P s) (hP : ∀ t, P t → P' t) : Until step Q P' s :=
  h.trans fun t ht => .now (hP t ht)

theorem Until.inevitable (h : Until step Q P s) : Inevitable step P s := by
  induction h with
  | now hp => exact .now hp
  | later _ hex _ ih => exact .later trivial hex ih

/-- Where only one thing can happen, it is enough to look at what is after it. -/
theorem Until.of_only {a : α} (hq : Q s) (ha : step s a = some t)
    (honly : ∀ b, b ≠ a → step s b = none) (h : Until step Q P t) : Until step Q P s := by
  refine .later hq ⟨a, t, ha⟩ fun b w hw => ?_
  by_cases hb : b = a
  · subst hb
    cases ha.symm.trans hw
    exact h
  · rw [honly b hb] at hw
    cases hw

theorem Until.exists_reach (h : Until step Q P s) : ∃ t, Reach step s t ∧ P t := by
  induction h with
  | now hp => exact ⟨_, .refl _, hp⟩
  | later _ hex _ ih =>
    obtain ⟨a, t, ha⟩ := hex
    obtain ⟨w, hr, hw⟩ := ih a t ha
    exact ⟨w, .head ha hr, hw⟩

/-- If the machine stops where `P` holds, every reachable state is one before or one there. -/
theorem Until.of_reach (h : Until step Q P s) (hP : ∀ t, P t → ∀ a, step t a = none)
    (hr : Reach step s t) : Q t ∨ P t := by
  induction h with
  | now hp =>
    obtain ⟨as, hr⟩ := hr
    cases as with
    | nil => cases hr; exact .inr hp
    | cons a as =>
      obtain ⟨w, hw, -⟩ := run_cons.mp hr
      rw [hP _ hp a] at hw
      cases hw
  | later hq _ _ ih =>
    obtain ⟨as, hr⟩ := hr
    cases as with
    | nil => cases hr; exact .inl hq
    | cons a as =>
      obtain ⟨w, hw, hr⟩ := run_cons.mp hr
      exact ih a w hw ⟨as, hr⟩

/-- Two things that must happen, and hold only where the machine has stopped, hold there
together. -/
theorem Until.and_of_final (hP : Until step Q P s) (hP' : Until step Q' P' s)
    (hPf : ∀ t, P t → ∀ a, step t a = none) (hPf' : ∀ t, P' t → ∀ a, step t a = none) :
    Until step Q (fun t => P t ∧ P' t) s := by
  induction hP with
  | now hp =>
    cases hP' with
    | now hp' => exact .now ⟨hp, hp'⟩
    | later _ hex _ =>
      obtain ⟨a, t, ha⟩ := hex
      rw [hPf _ hp a] at ha
      cases ha
  | later hq hex _ ih =>
    cases hP' with
    | now hp' =>
      obtain ⟨a, t, ha⟩ := hex
      rw [hPf' _ hp' a] at ha
      cases ha
    | later _ _ hnext => exact .later hq hex fun a t ha => ih a t ha (hnext a t ha)

/-! ### A machine inside another -/

variable {τ : Type*} {step' : Step τ α} {f : σ → τ}

/-- A machine that runs inside another, with the same actions, until it stops: its runs are
runs of the other. -/
theorem Reach.lift (hf : ∀ s a t, step s a = some t → step' (f s) a = some (f t))
    (h : Reach step s t) : Reach step' (f s) (f t) := by
  obtain ⟨as, h⟩ := h
  induction as generalizing s with
  | nil => cases h; exact .refl _
  | cons a as ih =>
    obtain ⟨w, hw, h⟩ := run_cons.mp h
    exact .head (hf s a w hw) (ih h)

/-- And what must happen in it must happen in the other, if as long as it has not stopped the
other does what it does. -/
theorem Until.lift {R : τ → Prop}
    (hf : ∀ s a t, Q s → step s a = some t → ∀ b, step' (f s) b = (step s b).map f)
    (hR : ∀ s, Q s → R (f s)) (h : Until step Q P s) :
    Until step' R (fun u => ∃ t, P t ∧ u = f t) (f s) := by
  induction h with
  | now hp => exact .now ⟨_, hp, rfl⟩
  | @later s hq hex _ ih =>
    obtain ⟨a, t, ha⟩ := hex
    have hs := hf s a t hq ha
    refine .later (hR s hq) ⟨a, f t, by rw [hs, ha, Option.map_some]⟩ fun b u hu => ?_
    rw [hs, Option.map_eq_some_iff] at hu
    obtain ⟨w, hw, rfl⟩ := hu
    exact ih b w hw

end Theory
