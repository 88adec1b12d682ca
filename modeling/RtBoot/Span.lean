import Mathlib.Data.List.Basic
import Mathlib.Tactic.Common

/-!
# Spans of a List, and Patching

A `Span` is a stretch of positions. `slice` reads what a list holds there, with a default for the
positions behind its end, and `patch` overwrites the elements from a position on. What is patched
in one span is not seen in another that is `Apart` from it.

## Main results

* `Span.Apart.within`: parts of spans that are apart are apart.
* `sameOn_patch`: the frame rule.
-/

namespace RtBoot

/-- The positions from `start` on, `size` of them. -/
structure Span where
  start : ℕ
  size : ℕ
  deriving DecidableEq

namespace Span

/-- The position behind the last. -/
def stop (s : Span) : ℕ :=
  s.start + s.size

instance : Membership ℕ Span :=
  ⟨fun s i => s.start ≤ i ∧ i < s.stop⟩

/-- The positions in order. -/
def positions (s : Span) : List ℕ :=
  List.range' s.start s.size

/-- One of the spans ends before the other begins. -/
def Apart (s t : Span) : Prop :=
  s.stop ≤ t.start ∨ t.stop ≤ s.start
  deriving Decidable

/-- The span is a part of another. -/
def Within (s t : Span) : Prop :=
  t.start ≤ s.start ∧ s.stop ≤ t.stop

variable {s t s' t' : Span} {i : ℕ}

/-- The positions of a span. -/
theorem mem_iff : i ∈ s ↔ s.start ≤ i ∧ i < s.stop :=
  Iff.rfl

theorem mem_mk {start size : ℕ} : i ∈ Span.mk start size ↔ start ≤ i ∧ i < start + size :=
  Iff.rfl

theorem mem_positions : i ∈ s.positions ↔ i ∈ s :=
  List.mem_range'_1

theorem Within.refl (s : Span) : s.Within s :=
  ⟨Nat.le_refl _, Nat.le_refl _⟩

theorem mem_of_within (h : s.Within t) (hi : i ∈ s) : i ∈ t := by
  rw [mem_iff] at hi ⊢
  rw [Within] at h
  omega

/-- Lying apart is symmetric. -/
theorem Apart.symm (h : s.Apart t) : t.Apart s :=
  Or.symm h

theorem Apart.notMem (h : s.Apart t) (hi : i ∈ s) : i ∉ t := by
  intro hi'
  rw [mem_iff] at hi hi'
  rw [Apart] at h
  omega

/-- Parts of spans apart are apart. -/
theorem Apart.within (h : s.Apart t) (hs : s'.Within s) (ht : t'.Within t) : s'.Apart t' := by
  rw [Apart] at h ⊢
  rw [Within] at hs ht
  omega

/-- What lies behind the beginning of a span apart from `s` does not hold the end of `s`. -/
theorem Apart.stop_notMem (h : s.Apart t) (ht : t'.Within t) (hlt : t.start < t'.start) :
    s.stop ∉ t' := by
  intro hi
  rw [mem_iff] at hi
  rw [Apart] at h
  rw [Within] at ht
  have hle : s.start ≤ s.stop := Nat.le_add_right _ _
  omega

end Span

section
variable {α : Type*}

/-- The elements from position `i` on are overwritten. -/
def patch : List α → ℕ → List α → List α
  | l, _, [] => l
  | l, i, a :: as => patch (l.set i a) (i + 1) as

/-- What the list holds in a span; `d` is read behind its end. -/
def slice (l : List α) (d : α) (s : Span) : List α :=
  (List.range s.size).map fun i => (l.drop s.start).getD i d

theorem getElem?_patch_of_notMem {l as : List α} {i j : ℕ} (h : j ∉ Span.mk i as.length) :
    (patch l i as)[j]? = l[j]? := by
  induction as generalizing l i with
  | nil => rfl
  | cons a as ih =>
      rw [Span.mem_mk, List.length_cons] at h
      rw [patch, ih (by rw [Span.mem_mk]; omega), List.getElem?_set_ne (by omega)]

/-- The lists hold the same in a span. -/
def SameOn (s : Span) (l l' : List α) : Prop :=
  ∀ i ∈ s, l'[i]? = l[i]?

/-- Agreement on a span composes. -/
theorem SameOn.trans {s : Span} {l l' l'' : List α} (h : SameOn s l l') (h' : SameOn s l' l'') :
    SameOn s l l'' := fun i hi =>
  (h' i hi).trans (h i hi)

theorem SameOn.slice_eq {s t : Span} {l l' : List α} {d : α} (h : SameOn s l l')
    (ht : t.Within s) : slice l' d t = slice l d t := by
  refine List.map_congr_left ?_
  intro i hi
  have hi : t.start + i ∈ t :=
    ⟨Nat.le_add_right _ _, Nat.add_lt_add_left (List.mem_range.mp hi) _⟩
  rw [List.getD_eq_getElem?_getD, List.getD_eq_getElem?_getD, List.getElem?_drop,
    List.getElem?_drop, h _ (Span.mem_of_within ht hi)]

/-- **The frame rule**: a patch is not seen in a span that is apart from it. -/
theorem sameOn_patch {l as : List α} {i : ℕ} {s : Span} (h : (Span.mk i as.length).Apart s) :
    SameOn s l (patch l i as) := fun _ hj =>
  getElem?_patch_of_notMem (h.symm.notMem hj)

end

end RtBoot
