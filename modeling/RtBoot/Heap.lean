import Mathlib.Algebra.Order.Group.Multiset
import Mathlib.Tactic.Abel

/-!
# Heaps with a Ledger

A heap hands out blocks under numbers that are never used twice, and keeps a ledger of what
was done with them. `Heap` carries the two facts that make the ledger worth reading: a block
is live exactly when it was allocated and not freed, and a block that was freed was freed
once and left alone from then on. They hold because every operation of a program (`HeapM`)
checks the block it is given; an operation on a block that is not live is a `Misuse`, which
ends the program.

A program is reasoned about through the blocks it owns. `Owns P x Q` says that `x`, from a
heap that holds the blocks `P` among others, runs without misuse, ends with blocks that
satisfy `Q` in the place of `P`, and leaves the others alone. `Faults P x` says that it ends
in a misuse. Whether a request for memory is granted is an argument of the request, so the
rules speak of every way an allocator can answer.

## Main results

* `Heap.freedOnce_of_not_mem`: a block that is no longer live was freed exactly once and not
  accessed afterwards.
* `Owns.bind`, `Owns.faults_bind`, `Owns.faults_access`: the rules by which programs are
  followed step by step.
-/

namespace RtBoot

variable {α β : Type}

/-- What is done with a block. -/
inductive HeapEvent
  | alloc (b : ℕ)
  | access (b : ℕ)
  | free (b : ℕ)
  deriving DecidableEq, Repr

/-- The block was allocated and later freed, once, and was not accessed after that. -/
def FreedOnce (log : List HeapEvent) (b : ℕ) : Prop :=
  ∃ before after, log = before ++ .free b :: after ∧ .alloc b ∈ before ∧
    .free b ∉ before ∧ .free b ∉ after ∧ .access b ∉ after

variable {log : List HeapEvent} {b : ℕ}

/-- A block freed once was allocated. -/
theorem FreedOnce.alloc_mem (h : FreedOnce log b) :
    .alloc b ∈ log := by
  obtain ⟨before, after, rfl, halloc, -⟩ := h
  exact List.mem_append_left _ halloc

theorem FreedOnce.free_mem (h : FreedOnce log b) :
    .free b ∈ log := by
  obtain ⟨before, after, rfl, -⟩ := h
  exact List.mem_append_right _ List.mem_cons_self

/-- An event that is neither an access to the block nor its release leaves it freed once. -/
theorem FreedOnce.append (h : FreedOnce log b) {e : HeapEvent}
    (haccess : e ≠ .access b) (hfree : e ≠ .free b) : FreedOnce (log ++ [e]) b := by
  obtain ⟨before, after, rfl, halloc, hbefore, hafter, hquiet⟩ := h
  refine ⟨before, after ++ [e], by simp, halloc, hbefore, ?_, ?_⟩
  · simp [hafter, hfree.symm]
  · simp [hquiet, haccess.symm]

/-- A heap: the number of the next block, the blocks in use, and the ledger. -/
structure Heap where
  next : ℕ
  live : Multiset ℕ
  log : List HeapEvent
  nodup : live.Nodup
  mem_live : ∀ b, b ∈ live ↔ .alloc b ∈ log ∧ .free b ∉ log
  lt_next : ∀ b, .alloc b ∈ log → b < next
  freedOnce : ∀ b, .free b ∈ log → FreedOnce log b

namespace Heap

/-- The heap before the first request. -/
def empty : Heap where
  next := 0
  live := 0
  log := []
  nodup := Multiset.nodup_zero
  mem_live := by simp
  lt_next := by simp
  freedOnce := by simp

theorem next_not_mem (h : Heap) : h.next ∉ h.live := by
  intro hmem
  exact lt_irrefl _ (h.lt_next _ ((h.mem_live _).mp hmem).1)

theorem free_next_not_mem (h : Heap) : .free h.next ∉ h.log := by
  intro hmem
  exact lt_irrefl _ (h.lt_next _ (h.freedOnce _ hmem).alloc_mem)

/-- **A block that is no longer live** was freed exactly once and left alone afterwards. -/
theorem freedOnce_of_not_mem (h : Heap) (halloc : .alloc b ∈ h.log)
    (hb : b ∉ h.live) : FreedOnce h.log b := by
  by_cases hfree : .free b ∈ h.log
  · exact h.freedOnce b hfree
  · exact absurd ((h.mem_live b).mpr ⟨halloc, hfree⟩) hb

theorem not_freedOnce_of_mem (h : Heap) (hb : b ∈ h.live) : ¬ FreedOnce h.log b :=
  fun honce => ((h.mem_live b).mp hb).2 honce.free_mem

/-- A block is handed out. -/
def allocated (h : Heap) : Heap where
  next := h.next + 1
  live := h.next ::ₘ h.live
  log := h.log ++ [.alloc h.next]
  nodup := Multiset.nodup_cons.mpr ⟨h.next_not_mem, h.nodup⟩
  mem_live := by
    intro b
    by_cases hb : b = h.next
    · subst hb
      simp [h.free_next_not_mem]
    · simp [hb, h.mem_live b]
  lt_next := by
    intro b hb
    obtain hb | hb := List.mem_append.mp hb
    · exact (h.lt_next b hb).trans (Nat.lt_succ_self _)
    · cases List.mem_singleton.mp hb
      exact Nat.lt_succ_self _
  freedOnce := by
    intro b hb
    have hb : .free b ∈ h.log := by simpa using hb
    exact (h.freedOnce b hb).append (by simp) (by simp)

/-- A live block is read or written. -/
def accessed (h : Heap) (b : ℕ) (hb : b ∈ h.live) : Heap where
  next := h.next
  live := h.live
  log := h.log ++ [.access b]
  nodup := h.nodup
  mem_live := by
    intro c
    simp [h.mem_live c]
  lt_next := by
    intro c hc
    exact h.lt_next c (by simpa using hc)
  freedOnce := by
    intro c hc
    have hc : .free c ∈ h.log := by simpa using hc
    have hne : b ≠ c := by
      rintro rfl
      exact ((h.mem_live b).mp hb).2 hc
    exact (h.freedOnce c hc).append (by simpa using hne) (by simp)

/-- A live block is given back. -/
def freed (h : Heap) (b : ℕ) (hb : b ∈ h.live) : Heap where
  next := h.next
  live := h.live.erase b
  log := h.log ++ [.free b]
  nodup := h.nodup.erase b
  mem_live := by
    intro c
    rw [h.nodup.mem_erase_iff, h.mem_live c]
    simp only [List.mem_append, List.mem_singleton, reduceCtorEq, or_false, not_or,
      HeapEvent.free.injEq]
    tauto
  lt_next := by
    intro c hc
    exact h.lt_next c (by simpa using hc)
  freedOnce := by
    intro c hc
    have hlive := (h.mem_live b).mp hb
    by_cases hcb : c = b
    · subst hcb
      exact ⟨h.log, [], rfl, hlive.1, hlive.2, List.not_mem_nil, List.not_mem_nil⟩
    · have hc : .free c ∈ h.log := by simpa [hcb] using hc
      exact (h.freedOnce c hc).append (by simp) (by simpa using Ne.symm hcb)

end Heap

/-! ### Programs -/

/-- What a program can do wrong. -/
inductive Misuse
  /-- A null pointer is followed. -/
  | null
  /-- A block is accessed or freed that is not live. -/
  | dangling (b : ℕ)
  /-- A pointer is followed that was never set to a block. -/
  | wild
  deriving DecidableEq, Repr

/-- A program over the heap. -/
abbrev HeapM := StateT Heap (Except Misuse)

/-- What `realloc` answers: nothing, the block itself, or a new one in its place. -/
inductive ReallocAnswer
  | refused
  | kept
  | moved
  deriving DecidableEq, Repr

namespace HeapM

/-- `malloc`: a new block, or the null pointer. -/
def malloc (granted : Bool) : HeapM (Option ℕ) := fun h =>
  if granted then .ok (some h.next, h.allocated) else .ok (none, h)

/-- A pointer is followed. -/
def access : Option ℕ → HeapM Unit
  | none => fun _ => .error .null
  | some b => fun h =>
      if hb : b ∈ h.live then .ok ((), h.accessed b hb) else .error (.dangling b)

/-- `free`, which does nothing with the null pointer. -/
def free : Option ℕ → HeapM Unit
  | none => pure ()
  | some b => fun h =>
      if hb : b ∈ h.live then .ok ((), h.freed b hb) else .error (.dangling b)

/-- A pointer is followed, and known to lead to a block from then on. -/
def deref : Option ℕ → HeapM ℕ
  | none => fun _ => .error .null
  | some b => do
      access (some b)
      return b

/-- `realloc` of a block: when it is moved, its bytes are copied and the old block is freed;
when it is refused, the old block stays. -/
def realloc (b : ℕ) : ReallocAnswer → HeapM (Option ℕ)
  | .refused => pure none
  | .kept => do
      access (some b)
      return some b
  | .moved => do
      let p ← malloc true
      access (some b)
      free (some b)
      return p

end HeapM

/-! ### Ownership -/

/-- The block a pointer leads to. -/
def ptrBlocks : Option ℕ → Multiset ℕ
  | none => 0
  | some b => {b}

@[simp] theorem ptrBlocks_none : ptrBlocks none = 0 :=
  rfl

@[simp] theorem ptrBlocks_some (b : ℕ) : ptrBlocks (some b) = {b} :=
  rfl

/-- From every heap with the blocks `P` and others, `x` runs without misuse; it ends with
blocks that satisfy `Q` in the place of `P`, and with the same others. -/
def Owns (P : Multiset ℕ) (x : HeapM α) (Q : α → Multiset ℕ → Prop) : Prop :=
  ∀ (h : Heap) (R : Multiset ℕ), h.live = P + R →
    ∃ a h' L, x h = .ok (a, h') ∧ h'.live = L + R ∧ Q a L

/-- From every heap with the blocks `P`, `x` ends in a misuse. -/
def Faults (P : Multiset ℕ) (x : HeapM α) : Prop :=
  ∀ (h : Heap) (R : Multiset ℕ), h.live = P + R → ∃ m, x h = .error m

/-- From every heap with the blocks `P`, `x` ends in a misuse, or loses a block: it ends with
one more than the blocks `B` of its result. -/
def Spoils (P : Multiset ℕ) (x : HeapM α) (B : α → Multiset ℕ) : Prop :=
  ∀ (h : Heap) (R : Multiset ℕ), h.live = P + R →
    (∃ m, x h = .error m) ∨ ∃ a h' b, x h = .ok (a, h') ∧ h'.live = B a + ({b} + R)

section Rules

variable {P P' : Multiset ℕ} {x : HeapM α} {f : α → HeapM β} {Q : α → Multiset ℕ → Prop}
  {Q' : β → Multiset ℕ → Prop} {b : ℕ} {B : α → Multiset ℕ}

theorem bind_ok {a : α} {h h' : Heap} (hx : x h = .ok (a, h')) : (x >>= f) h = f a h' := by
  simp only [Bind.bind, StateT.bind, hx, Except.bind]

theorem bind_error {h : Heap} {m : Misuse} (hx : x h = .error m) : (x >>= f) h = .error m := by
  simp only [Bind.bind, StateT.bind, hx, Except.bind]

/-- Returning a value touches no block. -/
theorem Owns.pure {a : α} (h : Q a P) : Owns P (Pure.pure a) Q :=
  fun heap _ hlive => ⟨a, heap, P, rfl, hlive, h⟩

theorem Owns.pre (hP : P = P') (hx : Owns P' x Q) : Owns P x Q :=
  hP ▸ hx

/-- A postcondition may be weakened. -/
theorem Owns.mono {Q₂ : α → Multiset ℕ → Prop} (hx : Owns P x Q)
    (hQ : ∀ a L, Q a L → Q₂ a L) : Owns P x Q₂ := by
  intro h R hlive
  obtain ⟨a, h', L, hrun, hlive', ha⟩ := hx h R hlive
  exact ⟨a, h', L, hrun, hlive', hQ a L ha⟩

/-- **The rule for sequences**: the second program starts with what the first leaves. -/
theorem Owns.bind (hx : Owns P x Q) (hf : ∀ a L, Q a L → Owns L (f a) Q') :
    Owns P (x >>= f) Q' := by
  intro h R hlive
  obtain ⟨a, h', L, hrun, hlive', ha⟩ := hx h R hlive
  obtain ⟨c, h'', L', hrun', hlive'', hc⟩ := hf a L ha h' R hlive'
  exact ⟨c, h'', L', (bind_ok hrun).trans hrun', hlive'', hc⟩

/-- A fault ends what follows. -/
theorem Faults.bind (hx : Faults P x) : Faults P (x >>= f) := by
  intro h R hlive
  obtain ⟨m, hm⟩ := hx h R hlive
  exact ⟨m, bind_error hm⟩

/-- A sequence whose second program ends in a misuse does. -/
theorem Owns.faults_bind (hx : Owns P x Q) (hf : ∀ a L, Q a L → Faults L (f a)) :
    Faults P (x >>= f) := by
  intro h R hlive
  obtain ⟨a, h', L, hrun, hlive', ha⟩ := hx h R hlive
  obtain ⟨m, hm⟩ := hf a L ha h' R hlive'
  exact ⟨m, (bind_ok hrun).trans hm⟩

/-- A misuse spoils the heap. -/
theorem Faults.spoils (hx : Faults P x) : Spoils P x B :=
  fun h R hlive => .inl (hx h R hlive)

/-- A program that ends with a block too many loses it. -/
theorem Owns.spoils (hx : Owns P x fun a L => ∃ b, L = {b} + B a) :
    Spoils P x B := by
  intro h R hlive
  obtain ⟨a, h', L, hrun, hlive', b, rfl⟩ := hx h R hlive
  refine .inr ⟨a, h', b, hrun, ?_⟩
  rw [hlive']
  abel

/-- A sequence whose second program spoils the heap does. -/
theorem Owns.spoils_bind {B : β → Multiset ℕ} (hx : Owns P x Q)
    (hf : ∀ a L, Q a L → Spoils L (f a) B) : Spoils P (x >>= f) B := by
  intro h R hlive
  obtain ⟨a, h', L, hrun, hlive', ha⟩ := hx h R hlive
  rw [bind_ok hrun]
  exact hf a L ha h' R hlive'

/-- A program that spoils the heap does so when its result is only wrapped up. -/
theorem Spoils.bind_pure {B' : β → Multiset ℕ} {g : α → β}
    (hx : Spoils P x B) (hB : ∀ a, B' (g a) = B a) :
    Spoils P (x >>= fun a => Pure.pure (g a)) B' := by
  intro h R hlive
  obtain ⟨m, hm⟩ | ⟨a, h', b, hrun, hlive'⟩ := hx h R hlive
  · exact .inl ⟨m, bind_error hm⟩
  · exact .inr ⟨g a, h', b, bind_ok hrun, hB a ▸ hlive'⟩

/-- **Use after free**: a program that ends without a block it began with, followed by an
access to that block. -/
theorem Owns.faults_access (hx : Owns P x Q) (hb : b ∈ P) (hQ : ∀ a L, Q a L → b ∉ L)
    {f : α → Unit → HeapM β} :
    Faults P (x >>= fun a => HeapM.access (some b) >>= f a) := by
  intro h R hlive
  obtain ⟨a, h', L, hrun, hlive', ha⟩ := hx h R hlive
  -- a block is live once only, so none of the others is this one
  have hR : b ∉ R := Multiset.disjoint_left.mp (Multiset.nodup_add.mp (hlive ▸ h.nodup)).2.2 hb
  have hdead : b ∉ h'.live := by
    rw [hlive', Multiset.mem_add]
    exact not_or.mpr ⟨hQ a L ha, hR⟩
  refine ⟨.dangling b, (bind_ok hrun).trans (bind_error ?_)⟩
  exact dif_neg hdead

end Rules

/-! ### The rules for the operations -/

section Operations

variable {P : Multiset ℕ} {b : ℕ}

theorem owns_malloc_true :
    Owns P (HeapM.malloc true) fun p L => ∃ b, p = some b ∧ L = {b} + P := by
  intro h R hlive
  refine ⟨some h.next, h.allocated, {h.next} + P, rfl, ?_, h.next, rfl, rfl⟩
  change h.next ::ₘ h.live = _
  rw [hlive, add_assoc, Multiset.singleton_add]

theorem owns_malloc_false : Owns P (HeapM.malloc false) fun p L => p = none ∧ L = P :=
  fun h _ hlive => ⟨none, h, P, rfl, hlive, rfl, rfl⟩

theorem owns_malloc (granted : Bool) :
    Owns P (HeapM.malloc granted) fun p L => L = ptrBlocks p + P := by
  cases granted with
  | true =>
      refine owns_malloc_true.mono ?_
      rintro p L ⟨b, rfl, rfl⟩
      rfl
  | false =>
      refine owns_malloc_false.mono ?_
      rintro p L ⟨rfl, rfl⟩
      exact (zero_add L).symm

/-- An access to an owned block changes nothing. -/
theorem owns_access (hb : b ∈ P) : Owns P (HeapM.access (some b)) fun _ L => L = P := by
  intro h R hlive
  have hmem : b ∈ h.live := hlive ▸ Multiset.mem_add.mpr (.inl hb)
  exact ⟨(), h.accessed b hmem, P, dif_pos hmem, hlive, rfl⟩

theorem faults_access_none : Faults P (HeapM.access none) :=
  fun _ _ _ => ⟨.null, rfl⟩

/-- Freeing a pointer leaves the rest. -/
theorem owns_free (p : Option ℕ) (rest : Multiset ℕ) (hP : P = ptrBlocks p + rest) :
    Owns P (HeapM.free p) fun _ L => L = rest := by
  subst hP
  cases p with
  | none => exact Owns.pure (zero_add rest)
  | some b =>
      intro h R hlive
      have hcons : h.live = b ::ₘ (rest + R) := by
        rw [hlive, ptrBlocks_some, add_assoc, Multiset.singleton_add]
      have hmem : b ∈ h.live := hcons ▸ Multiset.mem_cons_self b _
      refine ⟨(), h.freed b hmem, rest, dif_pos hmem, ?_, rfl⟩
      change h.live.erase b = rest + R
      rw [hcons, Multiset.erase_cons_head]

theorem owns_deref (hb : b ∈ P) :
    Owns P (HeapM.deref (some b)) fun c L => c = b ∧ L = P := by
  refine (owns_access hb).bind ?_
  rintro _ _ rfl
  exact Owns.pure ⟨rfl, rfl⟩

theorem faults_deref_none : Faults P (HeapM.deref none) :=
  fun _ _ _ => ⟨.null, rfl⟩

theorem faults_throw (m : Misuse) : Faults P (throw m : HeapM α) :=
  fun _ _ _ => ⟨m, rfl⟩

/-- A block that is resized is replaced by the one that `realloc` returns. -/
theorem owns_realloc {answer : ReallocAnswer} (hanswer : answer ≠ .refused) :
    Owns ({b} + P) (HeapM.realloc b answer) fun p L => ∃ c, p = some c ∧ L = {c} + P := by
  cases answer with
  | refused => exact absurd rfl hanswer
  | kept =>
      refine (owns_access (by simp)).bind ?_
      rintro _ _ rfl
      exact Owns.pure ⟨b, rfl, rfl⟩
  | moved =>
      refine owns_malloc_true.bind ?_
      rintro _ _ ⟨c, rfl, rfl⟩
      refine (owns_access (by simp)).bind ?_
      rintro _ _ rfl
      refine (owns_free (some b) ({c} + P) (by rw [ptrBlocks_some]; abel)).bind ?_
      rintro _ _ rfl
      exact Owns.pure ⟨c, rfl, rfl⟩

theorem owns_realloc_refused :
    Owns P (HeapM.realloc b .refused) fun p L => p = none ∧ L = P :=
  Owns.pure ⟨rfl, rfl⟩

end Operations

/-! ### Results -/

/-- When `x` ends without misuse, on whatever heap, its result satisfies `φ`. -/
def Returns (x : HeapM α) (φ : α → Prop) : Prop :=
  ∀ h a h', x h = .ok (a, h') → φ a

section Results

variable {x : HeapM α} {f : α → HeapM β} {φ : α → Prop} {ψ : β → Prop}

theorem Returns.pure {a : α} (h : φ a) : Returns (Pure.pure a) φ := by
  rintro _ _ _ ⟨⟩
  exact h

/-- Results compose. -/
theorem Returns.bind (hx : Returns x φ) (hf : ∀ a, φ a → Returns (f a) ψ) :
    Returns (x >>= f) ψ := by
  intro h b h' hrun
  cases hxh : x h with
  | error m =>
      rw [bind_error hxh] at hrun
      cases hrun
  | ok r =>
      rw [bind_ok hxh] at hrun
      exact hf r.1 (hx h r.1 r.2 hxh) r.2 b h' hrun

theorem Returns.mono {φ₂ : α → Prop} (hx : Returns x φ) (hφ : ∀ a, φ a → φ₂ a) :
    Returns x φ₂ :=
  fun h a h' hrun => hφ a (hx h a h' hrun)

/-- A program whose result does not matter. -/
theorem returns_any (x : HeapM α) : Returns x fun _ => True :=
  fun _ _ _ _ => trivial

theorem returns_throw (m : Misuse) : Returns (throw m : HeapM α) φ := by
  rintro _ _ _ ⟨⟩

theorem returns_malloc_true : Returns (HeapM.malloc true) fun p => p ≠ none := by
  rintro _ _ _ ⟨⟩
  exact Option.some_ne_none _

end Results

end RtBoot
