import S3c2440.Theory.Runs
import Mathlib.Data.List.Basic

/-!
# The timer registry

`bare_board/code/I2c/20200510_IIC/timer.c`: a table of 32 names and functions. `register_timer` puts
a name and a function into the first free slot, `unregister_timer` frees the first slot whose name
is equal, by the `strcmp` of `string_utils.c`, and `timer_irq` calls the functions, all walking
over the whole table. The functions are taken not to change it.

A free slot has neither name nor function. `register_timer` and `timer_irq` look for the
function; `unregister_timer` compares the name of every slot, so that of a free slot as well:
what is at address 0 is read then.

## What is proved

* `strcmp_eq_zero_iff` — `strcmp` finds two strings equal exactly if they are.
* `consistent_register`, `unregister_iff` — what the calls do to the registered timers.
* `consistent_along_iff` — exactly when every call does what is asked of it: whenever a timer is
  unregistered, the slots before it are taken, and all slots if there is none of that name.
-/

namespace S3c2440.TimerRegistry

open Theory

/-! ### Strings -/

/-- A string, without the `'\0'` at its end. -/
structure CStr where
  /-- The characters. -/
  chars : List (BitVec 8)
  /-- None of them ends it. -/
  noNul : 0 ∉ chars
  deriving DecidableEq

/-- `strcmp`, in which `__res` is a `signed char`. -/
def strcmp : List (BitVec 8) → List (BitVec 8) → BitVec 8
  | [], ct => 0 - ct.headD 0
  | c :: cs, ct =>
    let res := c - ct.headD 0
    if res ≠ 0 then res else strcmp cs ct.tail

/-! ### The table -/

/-- `TIMER_NUM`. -/
def timerNum : ℕ := 32

variable (F : Type)

/-- `timer_desc`; `none` is `NULL`. -/
structure TimerDesc where
  /-- `name`. -/
  name : Option CStr
  /-- `fp`. -/
  fp : Option F

variable {F}

/-- The loop of `register_timer`; `none` if there is no free slot. -/
def registerIn (name : CStr) (fp : F) : List (TimerDesc F) → Option (List (TimerDesc F))
  | [] => none
  | d :: ds =>
    if d.fp.isNone then some (⟨some name, some fp⟩ :: ds)
    else (registerIn name fp ds).map (d :: ·)

/-- The loop of `unregister_timer`, with the string `nul` at address 0: whether `NULL` has been
given to `strcmp`, and the slots. -/
def unregisterIn (nul name : CStr) : List (TimerDesc F) → Bool × List (TimerDesc F)
  | [] => (false, [])
  | d :: ds =>
    if strcmp (d.name.getD nul).chars name.chars = 0 then (d.name.isNone, ⟨none, none⟩ :: ds)
    else
      let r := unregisterIn nul name ds
      (d.name.isNone || r.1, d :: r.2)

/-- A slot is taken, or it is free. -/
def TimerDesc.Paired (d : TimerDesc F) : Prop := d.name.isSome = d.fp.isSome

theorem registerIn_keeps {name : CStr} {fp : F} {ds es : List (TimerDesc F)}
    (h : registerIn name fp ds = some es) (hds : ∀ d ∈ ds, d.Paired) :
    es.length = ds.length ∧ ∀ d ∈ es, d.Paired := by
  induction ds generalizing es with
  | nil => cases h
  | cons d ds ih =>
    rw [List.forall_mem_cons] at hds
    rw [registerIn] at h
    split at h
    case isTrue =>
      cases h
      exact ⟨rfl, List.forall_mem_cons.mpr ⟨rfl, hds.2⟩⟩
    case isFalse =>
      obtain ⟨es, hes, rfl⟩ := Option.map_eq_some_iff.mp h
      obtain ⟨hlen, hpaired⟩ := ih hes hds.2
      exact ⟨congrArg (· + 1) hlen, List.forall_mem_cons.mpr ⟨hds.1, hpaired⟩⟩

theorem unregisterIn_keeps (nul name : CStr) {ds : List (TimerDesc F)}
    (hds : ∀ d ∈ ds, d.Paired) :
    (unregisterIn nul name ds).2.length = ds.length ∧
      ∀ d ∈ (unregisterIn nul name ds).2, d.Paired := by
  induction ds with
  | nil => exact ⟨rfl, hds⟩
  | cons d ds ih =>
    rw [List.forall_mem_cons] at hds
    rw [unregisterIn]
    split
    case isTrue => exact ⟨rfl, List.forall_mem_cons.mpr ⟨rfl, hds.2⟩⟩
    case isFalse =>
      obtain ⟨hlen, hpaired⟩ := ih hds.2
      exact ⟨congrArg (· + 1) hlen, List.forall_mem_cons.mpr ⟨hds.1, hpaired⟩⟩

variable (F) in
/-- `timer_array`. -/
structure Table where
  /-- The slots. -/
  slots : List (TimerDesc F)
  /-- How many there are. -/
  length : slots.length = timerNum
  /-- Each is taken or free. -/
  paired : ∀ d ∈ slots, d.Paired

theorem paired_of_mem_replicate {n : ℕ} :
    ∀ d ∈ List.replicate n (⟨none, none⟩ : TimerDesc F), d.Paired := by
  intro d hd
  rw [List.eq_of_mem_replicate hd]
  rfl

/-- The table at the start. -/
def Table.empty : Table F :=
  ⟨List.replicate timerNum ⟨none, none⟩, List.length_replicate, paired_of_mem_replicate⟩

/-- `register_timer`. -/
def registerTimer (s : Table F) (name : CStr) (fp : F) : Int × Table F :=
  match h : registerIn name fp s.slots with
  | none => (-1, s)
  | some ds =>
    have hkeeps := registerIn_keeps h s.paired
    (0, ⟨ds, hkeeps.1.trans s.length, hkeeps.2⟩)

/-- `unregister_timer`: whether `NULL` has been given to `strcmp`, and the table. -/
def unregisterTimer (nul : CStr) (s : Table F) (name : CStr) : Bool × Table F :=
  have hkeeps := unregisterIn_keeps nul name s.paired
  ((unregisterIn nul name s.slots).1,
    ⟨(unregisterIn nul name s.slots).2, hkeeps.1.trans s.length, hkeeps.2⟩)

/-- The functions that `timer_irq` calls, one after another. -/
def timerIrq (s : Table F) : List F := s.slots.filterMap TimerDesc.fp

/-- A call. -/
inductive Act (F : Type) where
  /-- `register_timer(name, fp)`. -/
  | register (name : CStr) (fp : F)
  /-- `unregister_timer(name)`. -/
  | unregister (name : CStr)
  /-- `timer_irq()`. -/
  | irq

/-- What a call does to the table. -/
def step (nul : CStr) (s : Table F) : Act F → Option (Table F)
  | .register name fp => some (registerTimer s name fp).2
  | .unregister name => some (unregisterTimer nul s name).2
  | .irq => some s

/-! ### The registered timers -/

/-- A timer. -/
abbrev Entry (F : Type) : Type := CStr × F

/-- The timer in a slot. -/
def TimerDesc.entry (d : TimerDesc F) : Option (Entry F) :=
  match d.name, d.fp with
  | some name, some fp => some (name, fp)
  | _, _ => none

/-- The timers, in the order of the table. -/
def Table.registered (s : Table F) : List (Entry F) := s.slots.filterMap TimerDesc.entry

/-- A call does what is asked of it. `register_timer` fails exactly if all slots are taken, and adds
the timer if not; `unregister_timer` compares no `NULL`, and removes the first timer of that name;
`timer_irq` calls the function of each timer once. -/
def Consistent (nul : CStr) (s : Table F) : Act F → Prop
  | .register name fp =>
    let r := registerTimer s name fp
    (r.1 = -1 ↔ s.registered.length = timerNum) ∧ (r.1 = -1 → r.2 = s) ∧
      (r.1 ≠ -1 → r.1 = 0 ∧ r.2.registered.Perm ((name, fp) :: s.registered))
  | .unregister name =>
    let r := unregisterTimer nul s name
    r.1 = false ∧ r.2.registered = s.registered.eraseP fun e => decide (e.1 = name)
  | .irq => timerIrq s = s.registered.map Prod.snd

/-- Whenever a timer is unregistered, the slots before it are taken; all of them, if there is none
of that name. -/
def Taken (s : Table F) : Act F → Prop
  | .unregister name =>
    ∀ d ∈ s.slots.takeWhile fun d => decide (d.name ≠ some name), d.fp.isSome = true
  | _ => True

/-- `strcmp` finds that two strings are equal. -/
theorem strcmp_eq_zero_iff {cs ct : List (BitVec 8)} (hcs : 0 ∉ cs) (hct : 0 ∉ ct) :
    strcmp cs ct = 0 ↔ cs = ct := by
  induction cs generalizing ct with
  | nil =>
    cases ct with
    | nil => exact iff_of_true rfl rfl
    | cons b ct =>
      have hb : b ≠ 0 := fun hb => hct (hb ▸ List.mem_cons_self ..)
      exact iff_of_false (by simpa [strcmp] using hb) (by simp)
  | cons a cs ih =>
    have ha : a ≠ 0 := fun ha => hcs (ha ▸ List.mem_cons_self ..)
    cases ct with
    | nil =>
      have hres : strcmp (a :: cs) [] = a - 0 := if_pos (by simpa using ha)
      exact iff_of_false (by rw [hres]; simpa using ha) (by simp)
    | cons b ct =>
      have hcs' : 0 ∉ cs := fun h => hcs (List.mem_cons_of_mem a h)
      have hct' : 0 ∉ ct := fun h => hct (List.mem_cons_of_mem b h)
      by_cases hab : a = b
      · have hres : strcmp (a :: cs) (b :: ct) = strcmp cs ct := if_neg (by simp [hab])
        rw [hres, ih hcs' hct', hab, List.cons_inj_right]
      · have hne : a - b ≠ 0 := fun h => hab (by simpa [BitVec.sub_eq_iff_eq_add] using h)
        have hres : strcmp (a :: cs) (b :: ct) = a - b := if_pos hne
        rw [hres]
        exact iff_of_false hne fun h => hab (List.cons.inj h).1

theorem strcmp_name (name name' : CStr) : strcmp name.chars name'.chars = 0 ↔ name = name' := by
  rw [strcmp_eq_zero_iff name.noNul name'.noNul]
  cases name
  cases name'
  simp

section Slots

variable {name nul : CStr} {fp : F} {d : TimerDesc F} {ds es : List (TimerDesc F)}

/-- What a slot can be. -/
theorem TimerDesc.Paired.cases (h : d.Paired) :
    d = ⟨none, none⟩ ∨ ∃ name fp, d = ⟨some name, some fp⟩ := by
  obtain ⟨dname, dfp⟩ := d
  cases dname <;> cases dfp
  · exact .inl rfl
  · cases h
  · cases h
  · exact .inr ⟨_, _, rfl⟩

@[simp] theorem entry_free : (⟨none, none⟩ : TimerDesc F).entry = none := rfl

@[simp] theorem entry_taken : (⟨some name, some fp⟩ : TimerDesc F).entry = some (name, fp) := rfl

/-- The functions called are those of the timers. -/
theorem filterMap_fp (hds : ∀ d ∈ ds, d.Paired) :
    ds.filterMap TimerDesc.fp = (ds.filterMap TimerDesc.entry).map Prod.snd := by
  rw [List.map_filterMap]
  refine List.filterMap_congr fun d hd => ?_
  rcases (hds d hd).cases with rfl | ⟨name, fp, rfl⟩ <;> rfl

/-- `register_timer` fails exactly if all slots are taken. -/
theorem registerIn_eq_none_iff (name : CStr) (fp : F) (hds : ∀ d ∈ ds, d.Paired) :
    registerIn name fp ds = none ↔ (ds.filterMap TimerDesc.entry).length = ds.length := by
  induction ds with
  | nil => exact iff_of_true rfl rfl
  | cons d ds ih =>
    rw [List.forall_mem_cons] at hds
    rcases hds.1.cases with rfl | ⟨name', fp', rfl⟩
    · have hle := List.length_filterMap_le TimerDesc.entry ds
      refine iff_of_false (by simp [registerIn]) ?_
      rw [List.filterMap_cons_none entry_free, List.length_cons]
      omega
    · rw [List.filterMap_cons_some entry_taken, List.length_cons, List.length_cons,
        Nat.add_right_cancel_iff, ← ih hds.2]
      simp [registerIn]

/-- And else the timer is added. -/
theorem perm_registerIn (hds : ∀ d ∈ ds, d.Paired) (h : registerIn name fp ds = some es) :
    (es.filterMap TimerDesc.entry).Perm ((name, fp) :: ds.filterMap TimerDesc.entry) := by
  induction ds generalizing es with
  | nil => cases h
  | cons d ds ih =>
    rw [List.forall_mem_cons] at hds
    rcases hds.1.cases with rfl | ⟨name', fp', rfl⟩
    · cases h
      rw [List.filterMap_cons_some entry_taken, List.filterMap_cons_none entry_free]
    · obtain ⟨es, hes, rfl⟩ := Option.map_eq_some_iff.mp h
      rw [List.filterMap_cons_some entry_taken, List.filterMap_cons_some entry_taken]
      exact ((ih hds.2 hes).cons _).trans (.swap ..)

/-- The name of a free slot is compared. -/
theorem unregisterIn_free :
    (unregisterIn nul name ((⟨none, none⟩ : TimerDesc F) :: ds)).1 = true := by
  rw [unregisterIn]
  split <;> rfl

/-- The slot of a timer of that name is freed. -/
theorem unregisterIn_same :
    unregisterIn nul name (⟨some name, some fp⟩ :: ds) = (false, ⟨none, none⟩ :: ds) :=
  if_pos ((strcmp_name name name).mpr rfl)

/-- That of another is gone past. -/
theorem unregisterIn_other {name' : CStr} (h : name' ≠ name) :
    unregisterIn nul name (⟨some name', some fp⟩ :: ds) =
      ((unregisterIn nul name ds).1, ⟨some name', some fp⟩ :: (unregisterIn nul name ds).2) :=
  if_neg (mt (strcmp_name name' name).mp h)

/-- `unregister_timer` compares no `NULL` exactly if the slots before are taken. -/
theorem unregisterIn_fst_iff (hds : ∀ d ∈ ds, d.Paired) :
    (unregisterIn nul name ds).1 = false ↔
      ∀ d ∈ ds.takeWhile fun d => decide (d.name ≠ some name), d.fp.isSome = true := by
  induction ds with
  | nil => exact iff_of_true rfl fun _ hd => by cases hd
  | cons d ds ih =>
    rw [List.forall_mem_cons] at hds
    rcases hds.1.cases with rfl | ⟨name', fp', rfl⟩
    · -- a free slot: its name is compared, whatever comes after
      rw [unregisterIn_free, List.takeWhile_cons_of_pos (by simp), List.forall_mem_cons]
      simp
    · by_cases hname : name' = name
      · rw [hname, unregisterIn_same, List.takeWhile_cons_of_neg (by simp)]
        exact iff_of_true rfl fun _ hd => by cases hd
      · rw [unregisterIn_other hname, List.takeWhile_cons_of_pos (by simp [hname]),
          List.forall_mem_cons, ← ih hds.2]
        simp

/-- The first timer of that name is removed then. -/
theorem registered_unregisterIn (hds : ∀ d ∈ ds, d.Paired)
    (h : (unregisterIn nul name ds).1 = false) :
    (unregisterIn nul name ds).2.filterMap TimerDesc.entry =
      (ds.filterMap TimerDesc.entry).eraseP fun e => decide (e.1 = name) := by
  induction ds with
  | nil => rfl
  | cons d ds ih =>
    rw [List.forall_mem_cons] at hds
    rcases hds.1.cases with rfl | ⟨name', fp', rfl⟩
    · rw [unregisterIn_free] at h
      cases h
    · by_cases hname : name' = name
      · rw [hname, unregisterIn_same, List.filterMap_cons_none entry_free,
          List.filterMap_cons_some entry_taken, List.eraseP_cons_of_pos (by simp)]
      · rw [unregisterIn_other hname] at h ⊢
        rw [List.filterMap_cons_some entry_taken, List.filterMap_cons_some entry_taken,
          List.eraseP_cons_of_neg (by simp [hname]), ih hds.2 h]

end Slots

section Calls

variable (nul : CStr) (s : Table F) (name : CStr) (fp : F)

/-- `register_timer` does what is asked of it. -/
theorem consistent_register : Consistent nul s (.register name fp) := by
  have hfull := registerIn_eq_none_iff name fp s.paired
  rw [s.length] at hfull
  simp only [Consistent, registerTimer]
  split
  case h_1 h => exact ⟨iff_of_true rfl (hfull.mp h), fun _ => rfl, fun hne => absurd rfl hne⟩
  case h_2 ds h =>
    have hret : (0 : Int) ≠ -1 := by omega
    refine ⟨iff_of_false hret fun hlen => ?_, fun hfail => absurd hfail hret,
      fun _ => ⟨rfl, perm_registerIn s.paired h⟩⟩
    rw [hfull.mpr hlen] at h
    cases h

/-- And `unregister_timer`, exactly if the slots before are taken. -/
theorem unregister_iff : Consistent nul s (.unregister name) ↔ Taken s (.unregister name) := by
  rw [Taken, ← unregisterIn_fst_iff s.paired]
  exact ⟨fun h => h.1, fun h => ⟨h, registered_unregisterIn s.paired h⟩⟩

theorem consistent_iff (a : Act F) : Consistent nul s a ↔ Taken s a := by
  cases a with
  | register name fp => exact iff_of_true (consistent_register nul s name fp) trivial
  | unregister name => exact unregister_iff nul s name
  | irq => exact iff_of_true (filterMap_fp s.paired) trivial

end Calls

/-- In a run from the empty table, every call does what is asked of it exactly if, whenever a timer
is unregistered, the slots before it are taken, and all of them if there is none of that name. -/
theorem consistent_along_iff (nul : CStr) (as : List (Act F)) :
    Along (step nul) (Consistent nul) Table.empty as ↔
      Along (step nul) Taken Table.empty as :=
  along_congr (consistent_iff nul) Table.empty as

theorem noNul_led : (0 : BitVec 8) ∉ [0x6c, 0x65, 0x64] := by decide

/-- "led". -/
def led : CStr := ⟨_, noNul_led⟩

theorem noNul_adc : (0 : BitVec 8) ∉ [0x61, 0x64, 0x63] := by decide

/-- "adc". -/
def adc : CStr := ⟨_, noNul_adc⟩

theorem noNul_vectors : (0 : BitVec 8) ∉ [0x2f] := by decide

/-- What is at address 0: the branch to `reset`, `ea00002f`. -/
def vectors : CStr := ⟨_, noNul_vectors⟩

/-- Two timers are registered and unregistered again, in the same order: when the second one is, the
slot of the first is free, and its name is compared. -/
theorem consistent_along_free :
    ¬ Along (step vectors) (Consistent vectors) (Table.empty : Table Bool)
      [.register led false, .register adc true, .unregister led, .unregister adc] := by
  intro h
  have hadc := (((h.2 _ rfl).2 _ rfl).2 _ rfl).1.1
  exact absurd hadc (by decide)

end S3c2440.TimerRegistry
