import RtBoot.Memory

/-!
# Tables of Pointers to Blocks

Code that lays out a table of pointers next to the blocks they point to: the blocks stand
one behind the other, and entry `i` of the table is the address of block `i`. Both are
strings of bytes in memory, so what a further write leaves alone is a matter of ranges.

* `writeBytes`: write a string of bytes; `bytesAt_writeBytes` reads it back, and
  `BytesAt.write` is the frame lemma, for ranges given by their offsets from one address;
* `TwoAreas`: a lower and an upper area that both grow upwards, and how writes extend them;
* `blockPointers`: the addresses of blocks that stand one behind the other;
* `wordTable`: the words of a table, with `BytesAt.wordTable_eq`;
* `forall_blockPointers`, `pairwise_blockPointers`: where the blocks stand, and that no two
  of them share an address.
-/

namespace RtBoot

/-! ### Writing -/

/-- Write the bytes one by one from the address on. -/
def writeBytes : Mem → BitVec 32 → List (BitVec 8) → Mem
  | m, _, [] => m
  | m, a, b :: bs => writeBytes (Function.update m a b) (addr a 1) bs

section
variable {m : Mem} {a x : BitVec 32} {bs cs : List (BitVec 8)}

/-- A write leaves every other byte as it was. -/
theorem writeBytes_of_ne (h : ∀ i < bs.length, x ≠ addr a i) : writeBytes m a bs x = m x := by
  induction bs generalizing m a with
  | nil => rfl
  | cons b bs ih =>
      have hrest : ∀ i < bs.length, x ≠ addr (addr a 1) i := by
        intro i hi
        rw [addr_addr]
        exact h (1 + i) (by simp only [List.length_cons]; omega)
      have hfirst : x ≠ a := by
        have := h 0 (by simp)
        rwa [addr_zero] at this
      rw [writeBytes, ih hrest, Function.update_of_ne hfirst]

theorem writeBytes_append :
    writeBytes m a (bs ++ cs) = writeBytes (writeBytes m a bs) (addr a bs.length) cs := by
  induction bs generalizing m a with
  | nil => simp [writeBytes]
  | cons b bs ih =>
      rw [List.cons_append, writeBytes, writeBytes, ih, addr_addr, List.length_cons, Nat.add_comm]

/-- What has been written is read back. -/
theorem bytesAt_writeBytes (h : bs.length ≤ 2 ^ 32) : BytesAt (writeBytes m a bs) a bs := by
  induction bs generalizing m a with
  | nil => exact fun i b hb => by simp at hb
  | cons b bs ih =>
      rw [List.length_cons] at h
      intro i c hc
      cases i with
      | zero =>
          obtain rfl : b = c := Option.some.inj hc
          rw [addr_zero, writeBytes, writeBytes_of_ne, Function.update_self]
          intro i hi heq
          rw [addr_addr] at heq
          have : 0 = 1 + i := addr_injOn (by omega) (by omega) ((addr_zero a).trans heq)
          omega
      | succ i =>
          rw [Nat.add_comm, ← addr_addr]
          exact ih (by omega) i c hc

end

section
variable {m : Mem} {base w : BitVec 32} {i j : ℕ} {bs cs : List (BitVec 8)}

/-- A write leaves the strings of bytes alone that stand apart from it. -/
theorem BytesAt.write (h : BytesAt m (addr base i) bs)
    (hapart : i + bs.length ≤ j ∨ j + cs.length ≤ i) (hi : i + bs.length ≤ 2 ^ 32)
    (hj : j + cs.length ≤ 2 ^ 32) : BytesAt (writeBytes m (addr base j) cs) (addr base i) bs := by
  refine h.outside (fun x hx => writeBytes_of_ne hx) ?_
  intro l hl k hk heq
  rw [addr_addr, addr_addr] at heq
  have := addr_injOn (by omega) (by omega) heq
  omega

/-- Writing the next bytes extends the string of bytes in front of them. -/
theorem BytesAt.extend (h : BytesAt m (addr base i) bs) (hj : i + bs.length = j)
    (hlen : j + cs.length ≤ 2 ^ 32) :
    BytesAt (writeBytes m (addr base j) cs) (addr base i) (bs ++ cs) := by
  rw [bytesAt_append, addr_addr, hj]
  exact ⟨h.write (.inl (by omega)) (by omega) hlen, bytesAt_writeBytes (by omega)⟩

end

/-! ### Two areas -/

/-- The bytes `lower` stand `i` bytes behind the base, the bytes `upper` stand `j` bytes
behind it. -/
structure TwoAreas (m : Mem) (base : BitVec 32) (i j : ℕ) (lower upper : List (BitVec 8)) :
    Prop where
  lower : BytesAt m (addr base i) lower
  upper : BytesAt m (addr base j) upper

section
variable {m : Mem} {base : BitVec 32} {i j k : ℕ} {lower upper c : List (BitVec 8)}

/-- Writing behind the lower area extends it. -/
theorem TwoAreas.extendLower (h : TwoAreas m base i j lower upper) (hk : i + lower.length = k)
    (hfit : k + c.length ≤ j) (hlen : j + upper.length ≤ 2 ^ 32) :
    TwoAreas (writeBytes m (addr base k) c) base i j (lower ++ c) upper :=
  ⟨h.lower.extend hk (by omega), h.upper.write (.inr hfit) hlen (by omega)⟩

/-- Writing behind the upper area extends it. -/
theorem TwoAreas.extendUpper (h : TwoAreas m base i j lower upper) (hk : j + upper.length = k)
    (hfit : i + lower.length ≤ j) (hlen : k + c.length ≤ 2 ^ 32) :
    TwoAreas (writeBytes m (addr base k) c) base i j lower (upper ++ c) :=
  ⟨h.lower.write (.inl (by omega)) (by omega) hlen, h.upper.extend hk hlen⟩

/-- A write behind both areas leaves them alone. -/
theorem TwoAreas.write (h : TwoAreas m base i j lower upper) (hfit : i + lower.length ≤ j)
    (hk : j + upper.length ≤ k) (hlen : k + c.length ≤ 2 ^ 32) :
    TwoAreas (writeBytes m (addr base k) c) base i j lower upper :=
  ⟨h.lower.write (.inl (by omega)) (by omega) hlen, h.upper.write (.inl hk) (by omega) hlen⟩

theorem TwoAreas.dropLower (h : TwoAreas m base i j (lower ++ c) upper) :
    TwoAreas m base i j lower upper :=
  ⟨(bytesAt_append.mp h.lower).1, h.upper⟩

theorem TwoAreas.dropUpper (h : TwoAreas m base i j lower (upper ++ c)) :
    TwoAreas m base i j lower upper :=
  ⟨h.lower, (bytesAt_append.mp h.upper).1⟩

end

/-! ### Tables -/

/-- The addresses of blocks that stand one behind the other from the address on. -/
def blockPointers : BitVec 32 → List (List (BitVec 8)) → List (BitVec 32)
  | _, [] => []
  | a, b :: bs => a :: blockPointers (addr a b.length) bs

/-- The `n` words of a table. -/
def wordTable (m : Mem) (a : BitVec 32) (n : ℕ) : List (BitVec 32) :=
  (List.range n).map fun i => load32 m (addr a (4 * i))

@[simp] theorem length_blockPointers (a : BitVec 32) (blocks : List (List (BitVec 8))) :
    (blockPointers a blocks).length = blocks.length := by
  induction blocks generalizing a with
  | nil => rfl
  | cons b bs ih => rw [blockPointers, List.length_cons, List.length_cons, ih]

theorem blockPointers_append (a : BitVec 32) (bs cs : List (List (BitVec 8))) :
    blockPointers a (bs ++ cs) =
      blockPointers a bs ++ blockPointers (addr a bs.flatten.length) cs := by
  induction bs generalizing a with
  | nil => simp [blockPointers]
  | cons b bs ih =>
      rw [List.cons_append, blockPointers, blockPointers, ih, List.cons_append, addr_addr,
        List.flatten_cons, List.length_append]

@[simp] theorem length_flatMap_be32 (ws : List (BitVec 32)) :
    (ws.flatMap be32).length = 4 * ws.length := by
  induction ws with
  | nil => rfl
  | cons w ws ih =>
      rw [List.flatMap_cons, List.length_append, length_be32, ih, List.length_cons]
      omega

/-- The words of a table are read as they stand there. -/
theorem BytesAt.wordTable_eq {m : Mem} {a : BitVec 32} {ws : List (BitVec 32)}
    (h : BytesAt m a (ws.flatMap be32)) : wordTable m a ws.length = ws := by
  induction ws generalizing a with
  | nil => rfl
  | cons w ws ih =>
      rw [List.flatMap_cons] at h
      obtain ⟨hword, hrest⟩ := h.word
      have hshift : ∀ i, addr a (4 * (i + 1)) = addr (addr a 4) (4 * i) := by
        intro i
        rw [addr_addr]
        congr 1
        omega
      rw [wordTable, List.length_cons, List.range_succ_eq_map, List.map_cons, List.map_map,
        Nat.mul_zero, addr_zero, hword]
      simp only [Function.comp_def, Nat.succ_eq_add_one, hshift]
      rw [← wordTable, ih hrest]

/-! ### Where the blocks stand -/

section
variable {m : Mem} {base : BitVec 32} {i : ℕ} {blocks : List (List (BitVec 8))}

/-- Every pointer leads to its block, and the block stands in the range of all of them. -/
theorem forall_blockPointers (h : BytesAt m (addr base i) blocks.flatten) :
    ∀ q ∈ (blockPointers (addr base i) blocks).zip blocks, BytesAt m q.1 q.2 ∧
      ∃ j, q.1 = addr base j ∧ i ≤ j ∧ j + q.2.length ≤ i + blocks.flatten.length := by
  induction blocks generalizing i with
  | nil => exact fun q hq => absurd hq List.not_mem_nil
  | cons b bs ih =>
      rw [List.flatten_cons, bytesAt_append, addr_addr] at h
      intro q hq
      rw [blockPointers, addr_addr, List.zip_cons_cons, List.mem_cons] at hq
      rw [List.flatten_cons, List.length_append]
      rcases hq with rfl | hq
      · exact ⟨h.1, i, rfl, le_refl i, by dsimp only; omega⟩
      · obtain ⟨hbytes, j, hj, hle, hlen⟩ := ih h.2 q hq
        exact ⟨hbytes, j, hj, by omega, by omega⟩

theorem apart_addr {j n k : ℕ} (h : i + n ≤ j) (hk : j + k ≤ 2 ^ 32) :
    Apart (addr base i) n (addr base j) k := by
  intro x hx y hy heq
  rw [addr_addr, addr_addr] at heq
  have := addr_injOn (by omega) (by omega) heq
  omega

/-- No two blocks share an address. -/
theorem pairwise_blockPointers (h : BytesAt m (addr base i) blocks.flatten)
    (hlen : i + blocks.flatten.length ≤ 2 ^ 32) :
    ((blockPointers (addr base i) blocks).zip blocks).Pairwise fun p q =>
      Apart p.1 p.2.length q.1 q.2.length := by
  induction blocks generalizing i with
  | nil => exact .nil
  | cons b bs ih =>
      rw [List.flatten_cons, bytesAt_append, addr_addr] at h
      rw [List.flatten_cons, List.length_append] at hlen
      rw [blockPointers, addr_addr, List.zip_cons_cons, List.pairwise_cons]
      refine ⟨fun q hq => ?_, ih h.2 (by omega)⟩
      obtain ⟨-, j, hj, hle, hj'⟩ := forall_blockPointers h.2 q hq
      rw [hj]
      exact apart_addr hle (by omega)

end

end RtBoot
