import Mathlib.Data.List.Nodup
import Mathlib.Logic.Function.Basic

/-!
# Doubly linked chains

Nodes that carry their own `prev` and `next` pointers, and a pointer to the first
of them. `Chain.Holds m l` says that the pointers of `m` spell out the list `l`:
from the head, `next` leads through the nodes of `l` and ends in a null pointer,
and each `prev` leads back.

## What is proved

* `Holds.unique` — the pointers spell out at most one list.
* `Holds.next_eq_iff` — `next` and `prev` agree.
* `Holds.pushFront`, `Holds.unlink` — the pointer writes that put a node in front
  and that take a node out, each stated by what the pointers are afterwards, so
  that any sequence of assignments with that effect may use it.
-/

namespace Theory

universe u

variable {α : Type u}

/-- A head pointer, and the `prev` and `next` pointers of every node. -/
@[ext]
structure Chain (α : Type u) where
  /-- The first node. -/
  head : Option α
  /-- The node before. -/
  prev : α → Option α
  /-- The node after. -/
  next : α → Option α

namespace Chain

/-- No node linked. -/
def empty : Chain α := ⟨none, fun _ => none, fun _ => none⟩

/-- From `f`, `next` leads through `l` to null; `prev` leads back, from the first node
of `l` to `p`. -/
def Seg (m : Chain α) : Option α → Option α → List α → Prop
  | _, f, [] => f = none
  | p, f, x :: l => f = some x ∧ m.prev x = p ∧ Seg m (some x) (m.next x) l

/-- The pointers spell out `l`, in which no node is twice. -/
structure Holds (m : Chain α) (l : List α) : Prop where
  nodup : l.Nodup
  seg : m.Seg none m.head l

theorem holds_empty : (empty : Chain α).Holds [] := ⟨List.nodup_nil, rfl⟩

variable {m m' : Chain α} {p f : Option α} {l l₁ l₂ : List α} {x : α}

theorem Seg.first (h : m.Seg p f l) : f = l.head? := by
  cases l with
  | nil => exact h
  | cons x l => exact h.1

theorem Seg.unique (h : m.Seg p f l₁) (h' : m.Seg p f l₂) : l₁ = l₂ := by
  induction l₁ generalizing p f l₂ with
  | nil =>
    cases l₂ with
    | nil => rfl
    | cons y l₂ => rw [h.first] at h'; cases h'.1
  | cons x l₁ ih =>
    cases l₂ with
    | nil => rw [h'.first] at h; cases h.1
    | cons y l₂ =>
      obtain ⟨hx, -, h⟩ := h
      obtain ⟨hy, -, h'⟩ := h'
      obtain rfl : x = y := Option.some.inj (hx.symm.trans hy)
      rw [ih h h']

/-- A segment depends only on the pointers of its own nodes. -/
theorem Seg.congr (hn : ∀ y ∈ l, m'.next y = m.next y) (hp : ∀ y ∈ l, m'.prev y = m.prev y)
    (h : m.Seg p f l) : m'.Seg p f l := by
  induction l generalizing p f with
  | nil => exact h
  | cons x l ih =>
    obtain ⟨hf, hpx, h⟩ := h
    refine ⟨hf, (hp x (List.mem_cons_self ..)).trans hpx, ?_⟩
    rw [hn x (List.mem_cons_self ..)]
    exact ih (fun y hy => hn y (List.mem_cons_of_mem x hy))
      (fun y hy => hp y (List.mem_cons_of_mem x hy)) h

/-- What the pointers of a node inside a segment are. -/
theorem Seg.middle (h : m.Seg p f (l₁ ++ x :: l₂)) :
    m.next x = l₂.head? ∧ m.prev x = l₁.getLast?.or p := by
  induction l₁ generalizing p f with
  | nil => exact ⟨h.2.2.first, by simpa using h.2.1⟩
  | cons y l₁ ih =>
    obtain ⟨hn, hp⟩ := ih h.2.2
    refine ⟨hn, hp.trans ?_⟩
    cases l₁ with
    | nil => simp
    | cons z l₁ => rw [List.getLast?_cons_cons, List.getLast?_cons, Option.some_or, Option.some_or]

theorem Holds.head_eq (h : m.Holds l) : m.head = l.head? := h.seg.first

theorem Holds.unique (h : m.Holds l₁) (h' : m.Holds l₂) : l₁ = l₂ := h.seg.unique h'.seg

theorem Holds.next_eq (h : m.Holds (l₁ ++ x :: l₂)) : m.next x = l₂.head? := h.seg.middle.1

theorem Holds.prev_eq (h : m.Holds (l₁ ++ x :: l₂)) : m.prev x = l₁.getLast? :=
  h.seg.middle.2.trans Option.or_none

/-- The two pointers of the nodes agree. -/
theorem Holds.next_eq_iff {y : α} (h : m.Holds l) (hx : x ∈ l) (hy : y ∈ l) :
    m.next x = some y ↔ m.prev y = some x := by
  constructor
  · intro hnext
    obtain ⟨l₁, l₂, rfl⟩ := List.append_of_mem hx
    rw [h.next_eq] at hnext
    obtain ⟨l₂, rfl⟩ := List.head?_eq_some_iff.mp hnext
    have h' : m.Holds ((l₁ ++ [x]) ++ y :: l₂) := by rwa [List.append_assoc]
    rw [h'.prev_eq, List.getLast?_concat]
  · intro hprev
    obtain ⟨l₁, l₂, rfl⟩ := List.append_of_mem hy
    rw [h.prev_eq] at hprev
    obtain ⟨l₁, rfl⟩ := List.getLast?_eq_some_iff.mp hprev
    have h' : m.Holds (l₁ ++ x :: y :: l₂) := by rwa [List.append_assoc] at h
    rw [h'.next_eq, List.head?_cons]

theorem Holds.congr (h : m.Holds l) (hh : m'.head = m.head) (hn : ∀ y ∈ l, m'.next y = m.next y)
    (hp : ∀ y ∈ l, m'.prev y = m.prev y) : m'.Holds l :=
  ⟨h.nodup, hh ▸ h.seg.congr hn hp⟩

variable [DecidableEq α]

/-- Put `x` in front: its `prev` is null, its `next` the old head, and the old head's
`prev` is `x`. -/
theorem Holds.pushFront (h : m.Holds l) (hx : x ∉ l) (hhead : m'.head = some x)
    (hprev : m'.prev x = none) (hnext : m'.next x = m.head) (hn : ∀ y ∈ l, m'.next y = m.next y)
    (hp : ∀ y ∈ l, m'.prev y = if m.head = some y then some x else m.prev y) :
    m'.Holds (x :: l) := by
  refine ⟨List.nodup_cons.mpr ⟨hx, h.nodup⟩, hhead, hprev, ?_⟩
  rw [hnext]
  cases l with
  | nil => exact h.seg
  | cons z l =>
    obtain ⟨hz, -, hl⟩ := h.seg
    refine ⟨hz, by rw [hp z (List.mem_cons_self ..), if_pos hz], ?_⟩
    rw [hn z (List.mem_cons_self ..)]
    refine hl.congr (fun y hy => hn y (List.mem_cons_of_mem z hy)) fun y hy => ?_
    have hne : m.head ≠ some y := by
      rw [hz]
      rintro ⟨⟩
      exact (List.nodup_cons.mp h.nodup).1 hy
    rw [hp y (List.mem_cons_of_mem z hy), if_neg hne]

/-- The segment without `x`: the node before `x` now points to the node after it, and back. -/
theorem Seg.unlink (h : m.Seg p f (l₁ ++ x :: l₂)) (hnd : (p.toList ++ (l₁ ++ x :: l₂)).Nodup)
    (hn : ∀ y ∈ l₁ ++ l₂, m'.next y = if m.prev x = some y then m.next x else m.next y)
    (hp : ∀ y ∈ l₁ ++ l₂, m'.prev y = if m.next x = some y then m.prev x else m.prev y) :
    m'.Seg p (if l₁ = [] then m.next x else f) (l₁ ++ l₂) := by
  induction l₁ generalizing p f with
  | nil =>
    obtain ⟨-, hpx, h⟩ := h
    rw [if_pos rfl, List.nil_append]
    -- no node after `x` is the node before it
    have hfar : ∀ y ∈ l₂, m.prev x ≠ some y := by
      rw [hpx]
      rintro y hy rfl
      simp_all
    cases l₂ with
    | nil => exact h
    | cons z l₂ =>
      obtain ⟨hz, -, h⟩ := h
      refine ⟨hz, by rw [hp z (by simp), if_pos hz, hpx], ?_⟩
      rw [hn z (by simp), if_neg (hfar z (by simp))]
      refine h.congr (fun y hy => ?_) fun y hy => ?_
      · rw [hn y (by simp [hy]), if_neg (hfar y (by simp [hy]))]
      · rw [hp y (by simp [hy]), if_neg]
        rw [hz]
        rintro ⟨⟩
        have hnd' : (z :: l₂).Nodup := (List.nodup_cons.mp (List.nodup_append.mp hnd).2.1).2
        exact (List.nodup_cons.mp hnd').1 hy
  | cons y l₁ ih =>
    have hnd' : (y :: (l₁ ++ x :: l₂)).Nodup := (List.nodup_append.mp hnd).2.1
    obtain ⟨hxn, hxp⟩ := h.2.2.middle
    obtain ⟨hf, hpy, h⟩ := h
    have hrest := ih h hnd' (fun w hw => hn w (List.mem_cons_of_mem y hw))
      (fun w hw => hp w (List.mem_cons_of_mem y hw))
    have hy : m.next x ≠ some y := by
      rw [hxn]
      intro he
      have := List.mem_of_mem_head? (Option.mem_def.mpr he)
      simp_all
    refine ⟨by simpa using hf, by rw [hp y (by simp), if_neg hy, hpy], ?_⟩
    rw [hn y (by simp)]
    have hlast : m.prev x = some y ↔ l₁ = [] := by
      rw [hxp]
      constructor
      · intro he
        by_contra hne
        rw [List.getLast?_eq_some_getLast hne, Option.some_or, Option.some.injEq] at he
        have := he ▸ List.getLast_mem hne
        simp_all
      · rintro rfl
        rfl
    by_cases hl : l₁ = []
    · rw [if_pos (hlast.mpr hl)]
      rwa [if_pos hl] at hrest
    · rw [if_neg (fun he => hl (hlast.mp he))]
      rwa [if_neg hl] at hrest

/-- Take `x` out: the nodes on its two sides now point to each other, and the head moves on
if it was `x`. -/
theorem Holds.unlink (h : m.Holds (l₁ ++ x :: l₂))
    (hhead : m'.head = if m.head = some x then m.next x else m.head)
    (hn : ∀ y ∈ l₁ ++ l₂, m'.next y = if m.prev x = some y then m.next x else m.next y)
    (hp : ∀ y ∈ l₁ ++ l₂, m'.prev y = if m.next x = some y then m.prev x else m.prev y) :
    m'.Holds (l₁ ++ l₂) := by
  have hnd : (l₁ ++ l₂).Nodup :=
    h.nodup.sublist (List.Sublist.append_left (List.sublist_cons_self x l₂) l₁)
  refine ⟨hnd, ?_⟩
  have hfirst : m.head = some x ↔ l₁ = [] := by
    rw [h.head_eq]
    cases l₁ with
    | nil => simp
    | cons y l₁ =>
      simp only [List.cons_append, List.head?_cons, Option.some.injEq, reduceCtorEq, iff_false]
      rintro rfl
      exact (List.nodup_cons.mp h.nodup).1 (by simp)
  rw [hhead]
  simp only [hfirst]
  exact h.seg.unlink (by simpa using h.nodup) hn hp

end Chain

end Theory
