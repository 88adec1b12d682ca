import Mathlib.Tactic.Common

/-!
# Counting Semaphores

A counting semaphore that one thread takes and others release. Its value is a counter of `n`
states. A thread that takes it at zero is suspended, and the next release lets it go on
instead of raising the value; so a thread is suspended only while the value is zero, which
the type carries.

What taking and releasing do to the tokens, those in the value and the one that a thread
inside `take` has got:

* `Semaphore.take_tokens`: taking moves one token from the value to the thread;
* `Semaphore.release_tokens`: releasing adds one, wherever it goes.
-/

namespace RtBoot

/-- The value of the semaphore and whether the thread that takes it is suspended. -/
structure Semaphore (n : ℕ) where
  value : ℕ
  waiting : Bool
  value_eq_zero : waiting = true → value = 0
  deriving DecidableEq

namespace Semaphore

variable {n : ℕ}

/-- A semaphore on which nobody waits. -/
def ofValue (value : ℕ) : Semaphore n :=
  ⟨value, false, nofun⟩

/-- Take a token, or be suspended if there is none. -/
def take (s : Semaphore n) : Semaphore n :=
  if s.value = 0 then ⟨0, true, fun _ => rfl⟩ else ofValue (s.value - 1)

/-- Let the suspended thread go on, or raise the value if there is none. -/
def release (s : Semaphore n) : Semaphore n :=
  if s.waiting then ofValue s.value else ofValue ((s.value + 1) % n)

/-- The tokens that a thread inside `take` has got: one as soon as it is not suspended. -/
def passed (s : Semaphore n) : ℕ :=
  if s.waiting then 0 else 1

@[simp] theorem ofValue_value (v : ℕ) : (ofValue v : Semaphore n).value = v :=
  rfl

@[simp] theorem ofValue_waiting (v : ℕ) : (ofValue v : Semaphore n).waiting = false :=
  rfl

theorem passed_of_waiting {s : Semaphore n} (h : s.waiting = true) : s.passed = 0 :=
  if_pos h

theorem passed_of_not_waiting {s : Semaphore n} (h : s.waiting = false) : s.passed = 1 := by
  rw [passed, h]
  rfl

@[simp] theorem release_waiting (s : Semaphore n) : s.release.waiting = false := by
  unfold release
  split <;> rfl

/-- Taking moves one token from the value to the thread. -/
theorem take_tokens (s : Semaphore n) : s.take.value + s.take.passed = s.value := by
  unfold take
  split
  · rename_i hzero
    exact hzero.symm
  · rw [passed_of_not_waiting (ofValue_waiting _), ofValue_value]
    omega

/-- Releasing adds one token, to the value or to the suspended thread. -/
theorem release_tokens {s : Semaphore n} (h : s.value + 1 < n) :
    s.release.value + s.release.passed = s.value + s.passed + 1 := by
  rw [passed_of_not_waiting s.release_waiting, release]
  split
  · rename_i hwait
    rw [passed_of_waiting hwait, ofValue_value]
  · rename_i hwait
    rw [passed_of_not_waiting (Bool.not_eq_true _ ▸ hwait), ofValue_value, Nat.mod_eq_of_lt h]

/-- Where a thread waits, releasing lets it go on and the value stays. -/
theorem release_value_of_waiting {s : Semaphore n} (hwait : s.waiting = true) :
    s.release.value = 0 := by
  rw [release, if_pos hwait, ofValue_value, s.value_eq_zero hwait]

/-- Where nobody waits, releasing raises the value. -/
theorem release_value {s : Semaphore n} (hwait : s.waiting = false) (h : s.value + 1 < n) :
    s.release.value = s.value + 1 := by
  have := release_tokens h
  rw [passed_of_not_waiting hwait, passed_of_not_waiting s.release_waiting] at this
  omega

end Semaphore

end RtBoot
