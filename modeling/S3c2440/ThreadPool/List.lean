import S3c2440.Theory.Chain
import S3c2440.Theory.Runs

/-!
# The list macros of the thread pool

`LL_ADD` and `LL_REMOVE` of `linuxSystemProgrome/code/thread_pool/threadpool.c`,
assignment by assignment, on the head pointer and the `prev` and `next` fields of
the nodes of one list. The same two macros keep the jobs and the workers.

`holds_llAdd` and `holds_llRemove` say what they do to the list the pointers spell
out: the one puts the item in front, the other erases it wherever it is. `edits_hold`
says it of any number of them, one after the other (`editStep`).
-/

namespace S3c2440.ThreadPool

open Theory

universe u

variable {α : Type u} [DecidableEq α]

/-- `LL_ADD(item, list)`. -/
def llAdd (item : α) (m : Chain α) : Chain α :=
  let m := { m with prev := Function.update m.prev item none }
  let m := { m with next := Function.update m.next item m.head }
  let m := match m.head with
    | some first => { m with prev := Function.update m.prev first (some item) }
    | none => m
  { m with head := some item }

/-- `if(item->prev != NULL) item->prev->next = item->next;`. -/
def bypassNext (item : α) (m : Chain α) : Chain α :=
  match m.prev item with
  | some p => { m with next := Function.update m.next p (m.next item) }
  | none => m

/-- `if(item->next != NULL) item->next->prev = item->prev;`. -/
def bypassPrev (item : α) (m : Chain α) : Chain α :=
  match m.next item with
  | some n => { m with prev := Function.update m.prev n (m.prev item) }
  | none => m

/-- `if(list == item) list = item->next;`. -/
def moveHead (item : α) (m : Chain α) : Chain α :=
  if m.head = some item then { m with head := m.next item } else m

/-- `LL_REMOVE(item, list)`: the three lines above, then `item->prev = item->next = NULL;`. -/
def llRemove (item : α) (m : Chain α) : Chain α :=
  let m := moveHead item (bypassPrev item (bypassNext item m))
  { m with prev := Function.update m.prev item none, next := Function.update m.next item none }

/-! ### The pointers afterwards -/

@[simp] theorem head_llAdd (item : α) (m : Chain α) : (llAdd item m).head = some item := rfl

@[simp] theorem next_llAdd (item : α) (m : Chain α) :
    (llAdd item m).next = Function.update m.next item m.head := by
  unfold llAdd
  cases m.head <;> rfl

theorem prev_llAdd (item : α) (m : Chain α) (y : α) :
    (llAdd item m).prev y =
      if m.head = some y then some item else if y = item then none else m.prev y := by
  unfold llAdd
  cases hm : m.head with
  | none => simp [Function.update_apply]
  | some first => simp [Function.update_apply, eq_comm]

@[simp] theorem head_bypassNext (item : α) (m : Chain α) : (bypassNext item m).head = m.head := by
  unfold bypassNext; split <;> rfl

@[simp] theorem prev_bypassNext (item : α) (m : Chain α) : (bypassNext item m).prev = m.prev := by
  unfold bypassNext; split <;> rfl

@[simp] theorem next_bypassNext (item : α) (m : Chain α) (y : α) :
    (bypassNext item m).next y = if m.prev item = some y then m.next item else m.next y := by
  unfold bypassNext
  cases hp : m.prev item with
  | none => simp
  | some p => simp [Function.update_apply, eq_comm]

@[simp] theorem head_bypassPrev (item : α) (m : Chain α) : (bypassPrev item m).head = m.head := by
  unfold bypassPrev; split <;> rfl

@[simp] theorem next_bypassPrev (item : α) (m : Chain α) : (bypassPrev item m).next = m.next := by
  unfold bypassPrev; split <;> rfl

@[simp] theorem prev_bypassPrev (item : α) (m : Chain α) (y : α) :
    (bypassPrev item m).prev y = if m.next item = some y then m.prev item else m.prev y := by
  unfold bypassPrev
  cases hn : m.next item with
  | none => simp
  | some n => simp [Function.update_apply, eq_comm]

@[simp] theorem head_moveHead (item : α) (m : Chain α) :
    (moveHead item m).head = if m.head = some item then m.next item else m.head := by
  unfold moveHead; split <;> rfl

@[simp] theorem next_moveHead (item : α) (m : Chain α) : (moveHead item m).next = m.next := by
  unfold moveHead; split <;> rfl

@[simp] theorem prev_moveHead (item : α) (m : Chain α) : (moveHead item m).prev = m.prev := by
  unfold moveHead; split <;> rfl

/-- What `LL_REMOVE` leaves, for an item that is not its own predecessor (no item of a
list is). -/
theorem llRemove_pointers {item : α} {m : Chain α} (hp : m.prev item ≠ some item) :
    (llRemove item m).head = (if m.head = some item then m.next item else m.head) ∧
      (∀ y, (llRemove item m).next y = if y = item then none
        else if m.prev item = some y then m.next item else m.next y) ∧
      ∀ y, (llRemove item m).prev y = if y = item then none
        else if m.next item = some y then m.prev item else m.prev y := by
  refine ⟨by simp [llRemove, hp], fun y => ?_, fun y => ?_⟩
  · simp [llRemove, Function.update_apply]
  · simp [llRemove, Function.update_apply, hp]

/-! ### The list afterwards -/

variable {m : Chain α} {l l₁ l₂ : List α} {item : α}

/-- `LL_ADD` puts an item that is not in the list in front of it. -/
theorem holds_llAdd (h : m.Holds l) (hx : item ∉ l) : (llAdd item m).Holds (item :: l) := by
  have hhead : m.head ≠ some item := by
    rw [h.head_eq]
    exact fun he => hx (List.mem_of_mem_head? (Option.mem_def.mpr he))
  refine h.pushFront hx rfl (by rw [prev_llAdd, if_neg hhead, if_pos rfl]) (by simp) ?_ ?_
  · intro y hy
    rw [next_llAdd, Function.update_of_ne (fun he : y = item => hx (he ▸ hy))]
  · intro y hy
    rw [prev_llAdd, if_neg (fun he : y = item => hx (he ▸ hy))]

/-- `LL_REMOVE` takes the item out, wherever in the list it is. -/
theorem holds_llRemove (h : m.Holds (l₁ ++ item :: l₂)) : (llRemove item m).Holds (l₁ ++ l₂) := by
  have hnot : item ∉ l₁ ++ l₂ := by
    have := h.nodup
    rw [List.nodup_middle] at this
    exact (List.nodup_cons.mp this).1
  have hp : m.prev item ≠ some item := by
    rw [h.prev_eq]
    exact fun he => hnot (List.mem_append_left _ (List.mem_of_getLast? he))
  obtain ⟨ph, pn, pp⟩ := llRemove_pointers hp
  refine h.unlink ph (fun y hy => ?_) fun y hy => ?_
  · rw [pn, if_neg (fun he : y = item => hnot (he ▸ hy))]
  · rw [pp, if_neg (fun he : y = item => hnot (he ▸ hy))]

/-- `LL_REMOVE` of the first item, as a worker does it. -/
theorem holds_llRemove_head (h : m.Holds (item :: l)) : (llRemove item m).Holds l :=
  holds_llRemove (show m.Holds ([] ++ item :: l) from h)

/-! ### One after the other -/

/-- A use of one of the macros. -/
inductive Edit (α : Type u) where
  /-- `LL_ADD(item, list)`. -/
  | add (item : α)
  /-- `LL_REMOVE(item, list)`. -/
  | remove (item : α)

/-- The pointers, and the list they are to spell out: an item is added if it is not in the list,
and removed if it is. -/
def editStep : Step (Chain α × List α) (Edit α)
  | (m, l), .add item => if item ∈ l then none else some (llAdd item m, item :: l)
  | (m, l), .remove item => if item ∈ l then some (llRemove item m, l.erase item) else none

/-- `LL_ADD` leaves the pointers of the nodes alone that are not in the list. -/
theorem llAdd_frame (h : m.Holds l) {y : α} (hy : y ∉ l) (hne : y ≠ item) :
    (llAdd item m).prev y = m.prev y ∧ (llAdd item m).next y = m.next y := by
  have hhead : m.head ≠ some y := by
    rw [h.head_eq]
    exact fun he => hy (List.mem_of_mem_head? (Option.mem_def.mpr he))
  rw [prev_llAdd, if_neg hhead, if_neg hne, next_llAdd, Function.update_of_ne hne]
  exact ⟨rfl, rfl⟩

/-- `LL_REMOVE` erases the item, makes its pointers null, and leaves the pointers of the nodes alone
that are not in the list. -/
theorem llRemove_spec (h : m.Holds l) (hx : item ∈ l) :
    (llRemove item m).Holds (l.erase item) ∧ (llRemove item m).prev item = none ∧
      (llRemove item m).next item = none ∧
      ∀ y ∉ l, (llRemove item m).prev y = m.prev y ∧ (llRemove item m).next y = m.next y := by
  obtain ⟨l₁, l₂, hnot, rfl, herase⟩ := List.exists_erase_eq hx
  have hprev : ∀ y, m.prev item = some y → y ∈ l₁ := fun y hy =>
    List.mem_of_getLast? (h.prev_eq.symm.trans hy)
  have hnext : ∀ y, m.next item = some y → y ∈ l₂ := fun y hy =>
    List.mem_of_mem_head? (h.next_eq.symm.trans hy)
  obtain ⟨-, pn, pp⟩ := llRemove_pointers fun he => hnot (hprev item he)
  refine ⟨herase ▸ holds_llRemove h, by rw [pp, if_pos rfl], by rw [pn, if_pos rfl], ?_⟩
  intro y hy
  have hne : y ≠ item := fun he => hy (he ▸ hx)
  have hfar : y ∉ l₁ ∧ y ∉ l₂ := by simp_all
  rw [pp, pn, if_neg hne, if_neg hne, if_neg fun he => hfar.2 (hnext y he),
    if_neg fun he => hfar.1 (hprev y he)]
  exact ⟨rfl, rfl⟩

/-- A step of one of the macros keeps that the pointers spell out the list. -/
theorem holds_editStep {s t : Chain α × List α} {e : Edit α} (h : s.1.Holds s.2)
    (ht : editStep s e = some t) : t.1.Holds t.2 := by
  cases e with
  | add item =>
    obtain ⟨hx, ht⟩ := Option.ite_none_left_eq_some.mp ht
    cases ht
    exact holds_llAdd h hx
  | remove item =>
    obtain ⟨hx, ht⟩ := Option.ite_none_right_eq_some.mp ht
    cases ht
    exact (llRemove_spec h hx).1

/-- From an empty list on, whatever is in the nodes, the pointers spell out the list, and the next
use of a macro does what it is for. -/
theorem edits_hold {m₀ : Chain α} (h₀ : m₀.head = none) (h : Reach editStep (m₀, []) (m, l)) :
    m.Holds l ∧ (∀ x ∈ l, ∀ y ∈ l, m.next x = some y ↔ m.prev y = some x) ∧
      (∀ item ∉ l, (llAdd item m).Holds (item :: l) ∧ ∀ y ∉ l, y ≠ item →
        (llAdd item m).prev y = m.prev y ∧ (llAdd item m).next y = m.next y) ∧
      ∀ item ∈ l, (llRemove item m).Holds (l.erase item) ∧ (llRemove item m).prev item = none ∧
        (llRemove item m).next item = none ∧
        ∀ y ∉ l, (llRemove item m).prev y = m.prev y ∧ (llRemove item m).next y = m.next y := by
  have hstart : m₀.Holds [] := ⟨List.nodup_nil, h₀⟩
  have hm : m.Holds l := h.invariant (fun _ _ _ => holds_editStep) hstart
  exact ⟨hm, fun x hx y hy => hm.next_eq_iff hx hy,
    fun item hx => ⟨holds_llAdd hm hx, fun y hy hne => llAdd_frame hm hy hne⟩,
    fun item hx => llRemove_spec hm hx⟩

/-- Three items are added, and the one in the middle is removed; the nodes had pointers before. -/
theorem edits_hold_three : ∃ m, Reach editStep (⟨none, fun _ => some 7, fun _ => some 8⟩, [])
    (m, [3, 1]) ∧ m.Holds [3, 1] ∧ m.next 2 = none := by
  have hrun : Reach editStep (⟨none, fun _ => some 7, fun _ => some 8⟩, []) (_, [3, 1]) :=
    ⟨[.add 1, .add 2, .add 3, .remove 2], rfl⟩
  exact ⟨_, hrun, (edits_hold rfl hrun).1, rfl⟩

end S3c2440.ThreadPool
