import Mathlib.Data.BitVec
import Mathlib.Data.List.Basic
import Mathlib.Logic.Function.Basic
import Mathlib.Tactic.Common

/-!
# Byte-Addressed Memory

A memory of `2 ^ 32` bytes, read and written a byte or a big-endian word at a time, with
what copying and patching code needs about it:

* `load32`, `store32`: word accesses, with `load32_store32` and the frame lemma
  `store32_of_ne`;
* `Apart`: two ranges have no address in common;
* `Copied`: a range holds what another range held before, and nothing else changed;
  `Copied.byte` and `Copied.word` extend such a range;
* `Words`: the words of a range, as a function of their position; `Words.store` says that
  storing a word of the range updates that function;
* `BytesAt`: a string of bytes stands at an address; `BytesAt.word` and `bytesAt_append`
  take it apart, `BytesAt.read` reads it back.

Addresses wrap around. A position in a range is a natural number, and distinct positions
below `2 ^ 32` are distinct addresses (`addr_injOn`).
-/

namespace RtBoot

/-- A memory: the byte at each address. -/
abbrev Mem : Type :=
  BitVec 32 → BitVec 8

/-- The address `i` bytes behind `a`. -/
def addr (a : BitVec 32) (i : ℕ) : BitVec 32 :=
  a + BitVec.ofNat 32 i

@[simp] theorem addr_zero (a : BitVec 32) : addr a 0 = a := by
  simp [addr]

/-- Offsets add up. -/
theorem addr_addr (a : BitVec 32) (i j : ℕ) : addr (addr a i) j = addr a (i + j) := by
  simp only [addr, BitVec.ofNat_add, BitVec.add_assoc]

variable {a base : BitVec 32} {m m' : Mem} {n : ℕ} {bs : List (BitVec 8)}

/-- Different offsets are different addresses. -/
theorem addr_injOn {i j : ℕ} (hi : i < 2 ^ 32) (hj : j < 2 ^ 32)
    (h : addr a i = addr a j) : i = j := by
  have hij : BitVec.ofNat 32 i = BitVec.ofNat 32 j := BitVec.add_right_inj a |>.mp h
  have := congrArg BitVec.toNat hij
  rwa [BitVec.toNat_ofNat, BitVec.toNat_ofNat, Nat.mod_eq_of_lt hi, Nat.mod_eq_of_lt hj] at this

/-- Byte `k` of a word, the most significant first. -/
def wordByte (w : BitVec 32) (k : ℕ) : BitVec 8 :=
  w.extractLsb' (8 * (3 - k)) 8

/-- Read the word at `a`. -/
def load32 (m : Mem) (a : BitVec 32) : BitVec 32 :=
  m (addr a 0) ++ m (addr a 1) ++ m (addr a 2) ++ m (addr a 3)

/-- Write the word at `a`. -/
def store32 (m : Mem) (a : BitVec 32) (w : BitVec 32) : Mem := fun x =>
  if x = addr a 0 then wordByte w 0
  else if x = addr a 1 then wordByte w 1
  else if x = addr a 2 then wordByte w 2
  else if x = addr a 3 then wordByte w 3
  else m x

theorem append_wordByte (w : BitVec 32) :
    wordByte w 0 ++ wordByte w 1 ++ wordByte w 2 ++ wordByte w 3 = w := by
  refine BitVec.eq_of_getLsbD_eq ?_
  intro i hi
  simp only [wordByte, BitVec.getLsbD_append, BitVec.getLsbD_extractLsb']
  by_cases h₃ : i < 8
  · simp [h₃]
  by_cases h₂ : i - 8 < 8
  · rw [if_neg h₃, if_pos h₂, show 8 * (3 - 2) + (i - 8) = i by omega]
    simp [h₂]
  by_cases h₁ : i - 8 - 8 < 8
  · rw [if_neg h₃, if_neg h₂, if_pos h₁, show 8 * (3 - 1) + (i - 8 - 8) = i by omega]
    simp [h₁]
  · have h₀ : i - 8 - 8 - 8 < 8 := by omega
    rw [if_neg h₃, if_neg h₂, if_neg h₁, show 8 * (3 - 0) + (i - 8 - 8 - 8) = i by omega]
    simp [h₀]

theorem wordByte_load32 (m : Mem) (a : BitVec 32) {k : ℕ} (hk : k < 4) :
    wordByte (load32 m a) k = m (addr a k) := by
  refine BitVec.eq_of_getLsbD_eq ?_
  intro i hi
  simp only [wordByte, load32, BitVec.getLsbD_extractLsb', BitVec.getLsbD_append, hi, decide_true,
    Bool.true_and]
  obtain rfl | rfl | rfl | rfl : k = 0 ∨ k = 1 ∨ k = 2 ∨ k = 3 := by omega
  · rw [if_neg (by omega), if_neg (by omega), if_neg (by omega),
      show 8 * (3 - 0) + i - 8 - 8 - 8 = i by omega]
  · rw [if_neg (by omega), if_neg (by omega), if_pos (by omega),
      show 8 * (3 - 1) + i - 8 - 8 = i by omega]
  · rw [if_neg (by omega), if_pos (by omega), show 8 * (3 - 2) + i - 8 = i by omega]
  · rw [if_pos (by omega), show 8 * (3 - 3) + i = i by omega]

theorem store32_addr (m : Mem) (a w : BitVec 32) {k : ℕ} (hk : k < 4) :
    store32 m a w (addr a k) = wordByte w k := by
  have hne : ∀ j, j < 4 → j ≠ k → addr a k ≠ addr a j := by
    intro j hj hjk h
    exact hjk (addr_injOn (by omega) (by omega) h).symm
  obtain rfl | rfl | rfl | rfl : k = 0 ∨ k = 1 ∨ k = 2 ∨ k = 3 := by omega
  · rw [store32, if_pos rfl]
  · rw [store32, if_neg (hne 0 (by omega) (by omega)), if_pos rfl]
  · rw [store32, if_neg (hne 0 (by omega) (by omega)), if_neg (hne 1 (by omega) (by omega)),
      if_pos rfl]
  · rw [store32, if_neg (hne 0 (by omega) (by omega)), if_neg (hne 1 (by omega) (by omega)),
      if_neg (hne 2 (by omega) (by omega)), if_pos rfl]

/-- A store leaves every other byte as it was. -/
theorem store32_of_ne {w x : BitVec 32} (h : ∀ k < 4, x ≠ addr a k) :
    store32 m a w x = m x := by
  rw [store32, if_neg (h 0 (by omega)), if_neg (h 1 (by omega)), if_neg (h 2 (by omega)),
    if_neg (h 3 (by omega))]

/-- A store is read back. -/
theorem load32_store32 (m : Mem) (a w : BitVec 32) : load32 (store32 m a w) a = w := by
  rw [load32, store32_addr _ _ _ (by omega), store32_addr _ _ _ (by omega),
    store32_addr _ _ _ (by omega), store32_addr _ _ _ (by omega), append_wordByte]

/-- A word depends only on its four bytes. -/
theorem load32_congr {b : BitVec 32}
    (h : ∀ k < 4, m (addr a k) = m' (addr b k)) : load32 m a = load32 m' b := by
  rw [load32, load32, h 0 (by omega), h 1 (by omega), h 2 (by omega), h 3 (by omega)]

/-! ### Copied ranges -/

/-- The `m` bytes from `a` on and the `n` bytes from `b` on have no address in common. -/
def Apart (a : BitVec 32) (m : ℕ) (b : BitVec 32) (n : ℕ) : Prop :=
  ∀ i < m, ∀ j < n, addr a i ≠ addr b j

instance (a : BitVec 32) (m : ℕ) (b : BitVec 32) (n : ℕ) : Decidable (Apart a m b n) :=
  inferInstanceAs (Decidable (∀ i < m, ∀ j < n, addr a i ≠ addr b j))

/-- A range inside the second one. -/
theorem Apart.sub {b : BitVec 32} {m k l : ℕ} (h : Apart a m b n) (hkl : k + l ≤ n) :
    Apart a m (addr b k) l := by
  intro i hi j hj
  rw [addr_addr]
  exact h i hi _ (by omega)

/-- `m` arises from `m₀` by copying the first `n` bytes from `src` to `dst`. -/
structure Copied (m₀ m : Mem) (dst src : BitVec 32) (n : ℕ) : Prop where
  copied : ∀ i < n, m (addr dst i) = m₀ (addr src i)
  frame : ∀ a, (∀ i < n, a ≠ addr dst i) → m a = m₀ a

theorem copied_zero (m : Mem) (dst src : BitVec 32) : Copied m m dst src 0 :=
  ⟨fun i hi => absurd hi (Nat.not_lt_zero i), fun _ _ => rfl⟩

section
variable {m₀ m : Mem} {dst src : BitVec 32} {n total : ℕ}

/-- What is still to be copied is as it was. -/
theorem Copied.source (h : Copied m₀ m dst src n) (hn : n ≤ total)
    (hapart : Apart dst total src total) {i : ℕ} (hi : i < total) :
    m (addr src i) = m₀ (addr src i) :=
  h.frame _ fun j hj heq => hapart j (by omega) i hi heq.symm

/-- Copying the next byte. -/
theorem Copied.byte (h : Copied m₀ m dst src n) (hn : n < total) (htotal : total ≤ 2 ^ 32)
    (hapart : Apart dst total src total) :
    Copied m₀ (Function.update m (addr dst n) (m (addr src n))) dst src (n + 1) := by
  constructor
  · intro i hi
    rcases Nat.lt_succ_iff_lt_or_eq.mp hi with hlt | rfl
    · have hne : addr dst i ≠ addr dst n := by
        intro heq
        exact absurd (addr_injOn (by omega) (by omega) heq) (by omega)
      rw [Function.update_of_ne hne, h.copied i hlt]
    · rw [Function.update_self, h.source (by omega) hapart hn]
  · intro a ha
    rw [Function.update_of_ne (ha n (by omega)), h.frame a fun i hi => ha i (by omega)]

/-- Copying the next word. -/
theorem Copied.word (h : Copied m₀ m dst src n) (hn : n + 4 ≤ total) (htotal : total ≤ 2 ^ 32)
    (hapart : Apart dst total src total) :
    Copied m₀ (store32 m (addr dst n) (load32 m (addr src n))) dst src (n + 4) := by
  constructor
  · intro i hi
    by_cases hlt : i < n
    · rw [store32_of_ne, h.copied i hlt]
      intro k hk heq
      rw [addr_addr] at heq
      exact absurd (addr_injOn (by omega) (by omega) heq) (by omega)
    · obtain ⟨k, rfl⟩ := Nat.exists_eq_add_of_le (Nat.le_of_not_lt hlt)
      have hk : k < 4 := by omega
      rw [← addr_addr, store32_addr _ _ _ hk, wordByte_load32 _ _ hk, addr_addr,
        h.source (by omega) hapart (by omega)]
  · intro a ha
    rw [store32_of_ne fun k hk => by rw [addr_addr]; exact ha (n + k) (by omega)]
    exact h.frame a fun i hi => ha i (by omega)

end

/-! ### Words of a range -/

/-- The `n` words from `base` on are those of `ws`. -/
def Words (m : Mem) (base : BitVec 32) (n : ℕ) (ws : ℕ → BitVec 32) : Prop :=
  ∀ i < n, load32 m (addr base (4 * i)) = ws i

/-- Storing a word of the range updates it, and no other word of the range. -/
theorem Words.store {ws : ℕ → BitVec 32}
    (h : Words m base n ws) (hn : 4 * n ≤ 2 ^ 32) {i : ℕ} (hi : i < n) (w : BitVec 32) :
    Words (store32 m (addr base (4 * i)) w) base n (Function.update ws i w) := by
  intro j hj
  by_cases hij : j = i
  · rw [hij, Function.update_self, load32_store32]
  · rw [Function.update_of_ne hij, ← h j hj]
    refine load32_congr fun k hk => store32_of_ne fun l hl heq => ?_
    rw [addr_addr, addr_addr] at heq
    exact absurd (addr_injOn (by omega) (by omega) heq) (by omega)

/-- A copied range has the words of its source. -/
theorem Copied.words {m₀ : Mem} {dst src : BitVec 32} (h : Copied m₀ m dst src (4 * n)) :
    Words m dst n fun i => load32 m₀ (addr src (4 * i)) := by
  intro i hi
  refine load32_congr ?_
  intro k hk
  rw [addr_addr, addr_addr]
  exact h.copied _ (by omega)

/-- `m` and `m'` agree outside the `n` words from `base` on. -/
def SameOutside (m m' : Mem) (base : BitVec 32) (n : ℕ) : Prop :=
  ∀ a, (∀ i < 4 * n, a ≠ addr base i) → m' a = m a

theorem SameOutside.refl (m : Mem) (base : BitVec 32) (n : ℕ) : SameOutside m m base n :=
  fun _ _ => rfl

/-- Writes to one range compose. -/
theorem SameOutside.trans {m'' : Mem}
    (h : SameOutside m m' base n) (h' : SameOutside m' m'' base n) : SameOutside m m'' base n :=
  fun a ha => (h' a ha).trans (h a ha)

theorem sameOutside_store {i : ℕ} (hi : i < n) (m : Mem)
    (w : BitVec 32) : SameOutside m (store32 m (addr base (4 * i)) w) base n := by
  intro a ha
  refine store32_of_ne ?_
  intro k hk
  rw [addr_addr]
  exact ha _ (by omega)

/-- `m` and `m'` agree outside the `n` bytes from `base` on. -/
def SameOutsideBytes (m m' : Mem) (base : BitVec 32) (n : ℕ) : Prop :=
  ∀ x, (∀ i < n, x ≠ addr base i) → m' x = m x

theorem SameOutsideBytes.mono {k : ℕ}
    (h : SameOutsideBytes m m' base n) (hle : n ≤ k) : SameOutsideBytes m m' base k :=
  fun x hx => h x fun i hi => hx i (by omega)

/-! ### Strings of bytes -/

/-- The bytes `bs` stand at `a`. -/
def BytesAt (m : Mem) (a : BitVec 32) (bs : List (BitVec 8)) : Prop :=
  ∀ i b, bs[i]? = some b → m (addr a i) = b

/-- Bytes apart from a range stay when nothing outside the range changes. -/
theorem BytesAt.outside (h : BytesAt m a bs) (hsame : SameOutsideBytes m m' base n)
    (hapart : Apart base n a bs.length) : BytesAt m' a bs := by
  intro i b hb
  have hi := (List.getElem?_eq_some_iff.mp hb).1
  rw [hsame _ fun x hx heq => hapart x hx i hi heq.symm, h i b hb]

theorem BytesAt.head {b : BitVec 8} (h : BytesAt m a (b :: bs)) : m a = b := by
  have := h 0 b rfl
  rwa [addr_zero] at this

/-- The bytes behind the first. -/
theorem BytesAt.tail {b : BitVec 8} (h : BytesAt m a (b :: bs)) : BytesAt m (addr a 1) bs := by
  intro i c hc
  rw [addr_addr, Nat.add_comm]
  exact h (i + 1) c hc

/-- The bytes of a word, the most significant first. -/
def be32 (w : BitVec 32) : List (BitVec 8) :=
  [wordByte w 0, wordByte w 1, wordByte w 2, wordByte w 3]

@[simp] theorem length_be32 (w : BitVec 32) : (be32 w).length = 4 :=
  rfl

/-- The `n` bytes from `a` on. -/
def readBytes (m : Mem) (a : BitVec 32) (n : ℕ) : List (BitVec 8) :=
  (List.range n).map fun i => m (addr a i)

theorem getElem?_readBytes (m : Mem) (a : BitVec 32) (n i : ℕ) :
    (readBytes m a n)[i]? = if i < n then some (m (addr a i)) else none := by
  by_cases h : i < n
  · simp [readBytes, h]
  · simp [readBytes, h]

theorem readBytes_add (m : Mem) (a : BitVec 32) (i j : ℕ) :
    readBytes m a (i + j) = readBytes m a i ++ readBytes m (addr a i) j := by
  simp only [readBytes, List.range_add, List.map_append, List.map_map, addr_addr]
  rfl

theorem be32_load32 (m : Mem) (a : BitVec 32) : be32 (load32 m a) = readBytes m a 4 := by
  rw [be32, wordByte_load32 m a (by decide), wordByte_load32 m a (by decide),
    wordByte_load32 m a (by decide), wordByte_load32 m a (by decide)]
  rfl

section
variable {m : Mem} {a w : BitVec 32} {bs cs : List (BitVec 8)}

/-- Bytes stand one part behind the other. -/
theorem bytesAt_append :
    BytesAt m a (bs ++ cs) ↔ BytesAt m a bs ∧ BytesAt m (addr a bs.length) cs := by
  constructor
  · intro h
    refine ⟨fun i b hb => h i b ?_, fun i b hb => ?_⟩
    · rw [List.getElem?_append_left (List.getElem?_eq_some_iff.mp hb).1, hb]
    · rw [addr_addr]
      refine h _ b ?_
      rw [List.getElem?_append_right (by omega), Nat.add_sub_cancel_left, hb]
  · rintro ⟨hbs, hcs⟩ i b hb
    by_cases hi : i < bs.length
    · rw [List.getElem?_append_left hi] at hb
      exact hbs i b hb
    · rw [List.getElem?_append_right (by omega)] at hb
      have := hcs _ b hb
      rwa [addr_addr, show bs.length + (i - bs.length) = i by omega] at this

/-- A word at the head of a string of bytes is read as such. -/
theorem BytesAt.word (h : BytesAt m a (be32 w ++ bs)) :
    load32 m a = w ∧ BytesAt m (addr a 4) bs := by
  obtain ⟨hword, hbs⟩ := bytesAt_append.mp h
  refine ⟨?_, hbs⟩
  rw [load32, hword 0 _ rfl, hword 1 _ rfl, hword 2 _ rfl, hword 3 _ rfl, append_wordByte]

/-- The memory that holds `bs` at `a`, and zeros. -/
def memOf (a : BitVec 32) (bs : List (BitVec 8)) : Mem := fun x =>
  bs.getD (x - a).toNat 0

theorem bytesAt_memOf (h : bs.length ≤ 2 ^ 32) : BytesAt (memOf a bs) a bs := by
  intro i b hb
  have hi : i < bs.length := (List.getElem?_eq_some_iff.mp hb).1
  have hpos : (addr a i - a).toNat = i := by
    rw [addr, BitVec.add_comm, BitVec.add_sub_cancel, BitVec.toNat_ofNat]
    exact Nat.mod_eq_of_lt (by omega)
  rw [memOf, hpos, List.getD_eq_getElem?_getD, hb, Option.getD_some]

/-- A string of bytes is read back. -/
theorem BytesAt.read (h : BytesAt m a bs) : readBytes m a bs.length = bs := by
  refine List.ext_getElem (by simp [readBytes]) ?_
  intro i _ hi
  simp only [readBytes, List.getElem_map, List.getElem_range]
  exact h i _ (List.getElem?_eq_getElem hi)

end

end RtBoot
