import Mathlib.Data.Nat.ModEq
import Mathlib.Logic.Function.Basic
import Mathlib.Tactic.Common

/-!
# Rings of Slots

Two parties that pass items through a ring of `n` slots: one fills the slot at the tail,
the other empties the slot at the head, and both move on around the ring. A slot is empty
(`none`) or holds an item. There is no count; full and empty are told apart by the slots
themselves.

`RingQueue slots head tail items` says that the ring holds the queue `items`, the first at
the head:

* `RingQueue.push`, `RingQueue.pop`: what filling and emptying do to the queue;
* `RingQueue.head_eq`: the slot at the head holds the first item;
* `RingQueue.tail_eq_none_iff`: the slot at the tail is empty exactly if there is room, and
  then every empty slot is reached from there (`RingQueue.tail_eq_none_of_eq_none`).
-/

namespace RtBoot

variable {n : ℕ}

/-- The position `i` steps behind `p`. -/
def slotAt (p : Fin n) (i : ℕ) : Fin n :=
  ⟨(p + i) % n, Nat.mod_lt _ p.pos⟩

@[simp] theorem slotAt_zero (p : Fin n) : slotAt p 0 = p :=
  Fin.ext (Nat.mod_eq_of_lt p.isLt)

theorem slotAt_slotAt (p : Fin n) (i j : ℕ) : slotAt (slotAt p i) j = slotAt p (i + j) :=
  Fin.ext (by simp only [slotAt, Nat.mod_add_mod, Nat.add_assoc])

/-- Around the ring. -/
theorem slotAt_self (p : Fin n) : slotAt p n = p :=
  Fin.ext (by simp only [slotAt, Nat.add_mod_right, Nat.mod_eq_of_lt p.isLt])

/-- Different positions are different slots. -/
theorem slotAt_injOn {p : Fin n} {i j : ℕ} (hi : i < n) (hj : j < n)
    (h : slotAt p i = slotAt p j) : i = j := by
  have hmod : p + i ≡ p + j [MOD n] := congrArg Fin.val h
  exact Nat.ModEq.eq_of_lt_of_lt (Nat.ModEq.add_left_cancel' _ hmod) hi hj

/-- Every position is reached within one turn. -/
theorem exists_slotAt (p q : Fin n) : ∃ i < n, slotAt p i = q := by
  refine ⟨(q + (n - p)) % n, Nat.mod_lt _ p.pos, Fin.ext ?_⟩
  calc (p + (q + (n - p)) % n) % n = (p + (q + (n - p))) % n := Nat.add_mod_mod _ _ _
    _ = (q + n) % n := by rw [show (p : ℕ) + (q + (n - p)) = q + n by omega]
    _ = q := by rw [Nat.add_mod_right, Nat.mod_eq_of_lt q.isLt]

/-- The ring holds the queue `items`, from the slot at `head` up to the slot at `tail`. -/
structure RingQueue {α : Type*} (slots : Fin n → Option α) (head tail : Fin n) (items : List α) :
    Prop where
  le : items.length ≤ n
  tail_eq : tail = slotAt head items.length
  slot : ∀ i < n, slots (slotAt head i) = items[i]?

section
variable {α : Type*} {slots : Fin n → Option α} {head tail : Fin n} {items : List α} {x : α}

/-- An empty ring. -/
theorem ringQueue_nil (h : ∀ i, slots i = none) (p : Fin n) : RingQueue slots p p [] :=
  ⟨Nat.zero_le n, (slotAt_zero p).symm, fun _ _ => h _⟩

/-- The slot at the head holds the first item. -/
theorem RingQueue.head_eq (h : RingQueue slots head tail items) : slots head = items.head? := by
  have := h.slot 0 head.pos
  rwa [slotAt_zero, ← List.head?_eq_getElem?] at this

/-- The slot at the tail is empty exactly if there is room. -/
theorem RingQueue.tail_eq_none_iff (h : RingQueue slots head tail items) :
    slots tail = none ↔ items.length < n := by
  constructor
  · intro hnone
    refine Nat.lt_of_le_of_ne h.le fun hfull => ?_
    have hhead : tail = head := by rw [h.tail_eq, hfull, slotAt_self]
    rw [hhead, h.head_eq, List.head?_eq_none_iff] at hnone
    subst hnone
    exact absurd hfull (Nat.ne_of_lt head.pos)
  · intro hlt
    rw [h.tail_eq, h.slot _ hlt, List.getElem?_eq_none_iff]

/-- If any slot is empty, the one at the tail is. -/
theorem RingQueue.tail_eq_none_of_eq_none (h : RingQueue slots head tail items) {p : Fin n}
    (hp : slots p = none) : slots tail = none := by
  obtain ⟨i, hi, rfl⟩ := exists_slotAt head p
  rw [h.slot i hi, List.getElem?_eq_none_iff] at hp
  exact h.tail_eq_none_iff.mpr (by omega)

/-- If the slot at the head is empty, all are. -/
theorem RingQueue.eq_none_of_head (h : RingQueue slots head tail items) (hhead : slots head = none)
    (p : Fin n) : slots p = none := by
  obtain ⟨i, hi, rfl⟩ := exists_slotAt head p
  rw [h.head_eq, List.head?_eq_none_iff] at hhead
  rw [h.slot i hi, hhead, List.getElem?_nil]

/-- Filling the slot at the tail. -/
theorem RingQueue.push (h : RingQueue slots head tail items) (hroom : slots tail = none) :
    RingQueue (Function.update slots tail (some x)) head (slotAt tail 1) (items ++ [x]) := by
  have hlt := h.tail_eq_none_iff.mp hroom
  refine ⟨by rw [List.length_append, List.length_singleton]; omega, ?_, ?_⟩
  · rw [h.tail_eq, slotAt_slotAt, List.length_append, List.length_singleton]
  · intro i hi
    by_cases heq : i = items.length
    · rw [heq, ← h.tail_eq, Function.update_self, List.getElem?_concat_length]
    · have hne : slotAt head i ≠ tail := by
        rw [h.tail_eq]
        exact fun hslot => heq (slotAt_injOn hi hlt hslot)
      rw [Function.update_of_ne hne, h.slot i hi]
      rcases Nat.lt_or_gt_of_ne heq with hbefore | hafter
      · rw [List.getElem?_append_left hbefore]
      · rw [List.getElem?_eq_none_iff.mpr (by omega),
          List.getElem?_eq_none_iff.mpr (by simp; omega)]

/-- Emptying the slot at the head. -/
theorem RingQueue.pop (h : RingQueue slots head tail (x :: items)) :
    RingQueue (Function.update slots head none) (slotAt head 1) tail items := by
  have hle := h.le
  rw [List.length_cons] at hle
  refine ⟨by omega, ?_, ?_⟩
  · rw [h.tail_eq, slotAt_slotAt, List.length_cons, Nat.add_comm]
  · intro i hi
    rw [slotAt_slotAt]
    by_cases hlast : 1 + i = n
    · rw [hlast, slotAt_self, Function.update_self, List.getElem?_eq_none_iff.mpr (by omega)]
    · have hne : slotAt head (1 + i) ≠ head := by
        intro heq
        rw [← slotAt_zero head, slotAt_slotAt] at heq
        exact absurd (slotAt_injOn (by omega) head.pos heq) (by omega)
      rw [Function.update_of_ne hne, h.slot _ (by omega), Nat.add_comm, List.getElem?_cons_succ]

end

end RtBoot
