import Mathlib.Logic.Function.Basic
import Mathlib.Tactic.Common

/-!
# Write-Back Caches

A memory of cells with a write-back cache in front of it that no other bus master looks
into. The processor loads and stores through the cache; a store stays in the cache until
the cell is flushed. Another bus master reads and writes the memory itself.

* `WriteBack.mem_flush_self`: a flush makes the memory what the processor reads;
* `WriteBack.load_of_line_eq_none`: without the cell in the cache it reads the memory;
* `WriteBack.Holds`: what holds of every copy of every cell, and what keeps it so.

A cell is whatever is flushed at once: a range that shares no cache line with another one.
-/

namespace RtBoot

/-- Cells in memory, and those that are in the cache. -/
structure WriteBack (ι α : Type*) where
  mem : ι → α
  line : ι → Option α

namespace WriteBack

variable {ι α : Type*} [DecidableEq ι] (w : WriteBack ι α) (i : ι) (a : α)

/-- What the processor reads: the cell in the cache, or in memory when it is not cached. -/
def load : α :=
  (w.line i).getD (w.mem i)

/-- A load leaves the cell in the cache. -/
def fill : WriteBack ι α :=
  { w with line := Function.update w.line i (some (w.load i)) }

/-- A store of the processor. -/
def store : WriteBack ι α :=
  { w with line := Function.update w.line i (some a) }

/-- Drop the cell from the cache. -/
def invalidate : WriteBack ι α :=
  { w with line := Function.update w.line i none }

/-- Write the cell back and drop it. -/
def flush : WriteBack ι α where
  mem := Function.update w.mem i (w.load i)
  line := Function.update w.line i none

/-- A write of another bus master. -/
def busWrite : WriteBack ι α :=
  { w with mem := Function.update w.mem i a }

omit [DecidableEq ι] in
theorem load_of_line_eq_none (h : w.line i = none) : w.load i = w.mem i := by
  rw [load, h, Option.getD_none]

@[simp] theorem load_store_self : (w.store i a).load i = a := by
  simp only [load, store, Function.update_self, Option.getD_some]

@[simp] theorem line_invalidate_self : (w.invalidate i).line i = none :=
  Function.update_self ..

@[simp] theorem mem_flush_self : (w.flush i).mem i = w.load i :=
  Function.update_self ..

/-- Another bus master changes the cell it writes, if it changes any. -/
theorem load_busWrite_of_ne {i j : ι} (h : j ≠ i) : (w.busWrite i a).load j = w.load j := by
  simp only [load, busWrite, Function.update_of_ne h]

/-! ### What holds of every copy -/

/-- `P` holds of every cell, in memory and in the cache. -/
structure Holds (P : ι → α → Prop) : Prop where
  mem : ∀ i, P i (w.mem i)
  line : ∀ i a, w.line i = some a → P i a

section
variable {w i a} {P : ι → α → Prop}

omit [DecidableEq ι] in
/-- A load yields a good value. -/
theorem Holds.load (h : w.Holds P) (i : ι) : P i (w.load i) := by
  cases hline : w.line i with
  | none => rw [load_of_line_eq_none w i hline]; exact h.mem i
  | some b => rw [WriteBack.load, hline]; exact h.line i b hline

/-- A cell that is set in the cache. -/
theorem Holds.setLine {o : Option α} (h : w.Holds P) (ho : ∀ b, o = some b → P i b) :
    (⟨w.mem, Function.update w.line i o⟩ : WriteBack ι α).Holds P := by
  refine ⟨h.mem, ?_⟩
  intro j b hb
  dsimp only at hb
  rcases eq_or_ne j i with rfl | hne
  · rw [Function.update_self] at hb
    exact ho b hb
  · rw [Function.update_of_ne hne] at hb
    exact h.line j b hb

/-- A cell that is set in memory. -/
theorem Holds.setMem (h : w.Holds P) (ha : P i a) :
    (⟨Function.update w.mem i a, w.line⟩ : WriteBack ι α).Holds P := by
  refine ⟨?_, h.line⟩
  intro j
  dsimp only
  rcases eq_or_ne j i with rfl | hne
  · rw [Function.update_self]
    exact ha
  · rw [Function.update_of_ne hne]
    exact h.mem j

theorem Holds.fill (h : w.Holds P) : (w.fill i).Holds P :=
  h.setLine fun _ hb => Option.some.inj hb ▸ h.load i

/-- A store of a good value keeps all values good. -/
theorem Holds.store (h : w.Holds P) (ha : P i a) : (w.store i a).Holds P :=
  h.setLine fun _ hb => Option.some.inj hb ▸ ha

theorem Holds.invalidate (h : w.Holds P) : (w.invalidate i).Holds P :=
  h.setLine fun _ hb => absurd hb (by simp)

theorem Holds.flush (h : w.Holds P) : (w.flush i).Holds P :=
  Holds.setMem (w := w.invalidate i) h.invalidate (h.load i)

theorem Holds.busWrite (h : w.Holds P) (ha : P i a) : (w.busWrite i a).Holds P :=
  h.setMem ha

end

end WriteBack

end RtBoot
