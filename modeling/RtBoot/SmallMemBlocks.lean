import RtBoot.SmallMemLayout

/-!
# Blocks in the Memory of the System Heap

`Seg` says that a list of blocks stands in memory between two offsets, with the headers that link
them; `Tail` says the same of the rest of the heap from an offset on. Each depends on nothing but
the bytes of its blocks, so a write elsewhere keeps it.

## Main results

* `mem_setMem`, `byte_setMem`: a header is read back, and nothing else changes.
* `seg_append`: blocks one behind the other.
* `Seg.congr`, `Tail.congr`: blocks depend on their own bytes.
* `Tail.relink`: the link to the block in front is changed.
-/

namespace RtBoot

/-! ### Bytes that are read -/

@[simp] theorem length_readBytes (m : Mem) (a : BitVec 32) (n : ℕ) :
    (readBytes m a n).length = n := by
  simp [readBytes]

theorem take_readBytes (m : Mem) (a : BitVec 32) {j n : ℕ} (hj : j ≤ n) :
    (readBytes m a n).take j = readBytes m a j := by
  rw [readBytes, ← List.map_take, List.take_range, Nat.min_eq_left hj, readBytes]

theorem BytesAt.read_take {m : Mem} {a : BitVec 32} {bs : List (BitVec 8)} {k : ℕ}
    (h : BytesAt m a bs) (hk : k ≤ bs.length) : readBytes m a k = bs.take k := by
  rw [← take_readBytes m a hk, h.read]

namespace SmallMem

/-! ### Headers -/

section
variable {m m' : Mem} {a : BitVec 32} {mem : HeapMem}

/-- A word of a header and the store to another one. -/
theorem load32_store32_addr (w : BitVec 32) {i j : ℕ} (hi : i + 4 ≤ 2 ^ 32) (hj : j + 4 ≤ 2 ^ 32)
    (h : i + 4 ≤ j ∨ j + 4 ≤ i) :
    load32 (store32 m (addr a i) w) (addr a j) = load32 m (addr a j) := by
  refine load32_congr fun k hk => ?_
  refine store32_of_ne fun l hl heq => ?_
  rw [addr_addr, addr_addr] at heq
  have := addr_injOn (by omega) (by omega) heq
  omega

theorem loadHeapMem_congr (h : ∀ i < 12, m' (addr a i) = m (addr a i)) :
    loadHeapMem m' a = loadHeapMem m a := by
  have hword : ∀ k, k + 4 ≤ 12 → load32 m' (addr a k) = load32 m (addr a k) := by
    intro k hk
    refine load32_congr fun i hi => ?_
    rw [addr_addr]
    exact h _ (by omega)
  have hzero := hword 0 (by omega)
  rw [addr_zero] at hzero
  rw [loadHeapMem, loadHeapMem, hzero, hword 4 (by omega), hword 8 (by omega)]

theorem loadHeapMem_storeHeapMem (hnext : mem.next < 2 ^ 32) (hprev : mem.prev < 2 ^ 32) :
    loadHeapMem (storeHeapMem m a mem) a = mem := by
  have hword : load32 (storeHeapMem m a mem) a = mem.magic ++ mem.used := by
    rw [storeHeapMem, ← addr_zero a, addr_addr, addr_addr,
      load32_store32_addr _ (by omega) (by omega) (by omega),
      load32_store32_addr _ (by omega) (by omega) (by omega), load32_store32]
  have hnextWord : load32 (storeHeapMem m a mem) (addr a 4) = BitVec.ofNat 32 mem.next := by
    rw [storeHeapMem, load32_store32_addr _ (by omega) (by omega) (by omega), load32_store32]
  have hprevWord : load32 (storeHeapMem m a mem) (addr a 8) = BitVec.ofNat 32 mem.prev :=
    load32_store32 _ _ _
  have hmagic : (mem.magic ++ mem.used).extractLsb' 16 16 = mem.magic :=
    BitVec.extractLsb'_append_of_eq (i := 1) (k := 1) (w := 16) rfl
  have hused : (mem.magic ++ mem.used).extractLsb' 0 16 = mem.used := by
    rw [BitVec.extractLsb'_append_eq_of_add_le (by omega)]
    exact BitVec.extractLsb'_eq_self
  rw [loadHeapMem, hword, hnextWord, hprevWord, BitVec.toNat_ofNat, BitVec.toNat_ofNat,
    Nat.mod_eq_of_lt hnext, Nat.mod_eq_of_lt hprev, hmagic, hused]

theorem storeHeapMem_of_ne {x : BitVec 32} (h : ∀ i < 12, x ≠ addr a i) :
    storeHeapMem m a mem x = m x := by
  have hfar : ∀ k, k + 4 ≤ 12 → ∀ i < 4, x ≠ addr (addr a k) i := by
    intro k hk i hi
    rw [addr_addr]
    exact h _ (by omega)
  have hzero := hfar 0 (by omega)
  rw [addr_zero] at hzero
  rw [storeHeapMem, store32_of_ne (hfar 8 (by omega)), store32_of_ne (hfar 4 (by omega)),
    store32_of_ne hzero]

end

namespace SystemHeap

variable {h h' : SystemHeap} {p q : ℕ} {mem : HeapMem}

/-- The byte at an offset. -/
def byte (h : SystemHeap) (i : ℕ) : BitVec 8 :=
  h.memory (addr h.heapPtr i)

@[simp] theorem heapPtr_setMem : (h.setMem p mem).heapPtr = h.heapPtr := rfl
@[simp] theorem heapEnd_setMem : (h.setMem p mem).heapEnd = h.heapEnd := rfl

theorem next_mem_lt : (h.mem p).next < 2 ^ 32 :=
  BitVec.isLt _

/-- A header is read back. -/
theorem mem_setMem (hnext : mem.next < 2 ^ 32) (hprev : mem.prev < 2 ^ 32) :
    (h.setMem p mem).mem p = mem :=
  loadHeapMem_storeHeapMem hnext hprev

/-- A header that is written leaves the other bytes as they are. -/
theorem byte_setMem {i : ℕ} (hp : p + 12 ≤ 2 ^ 32) (hi : i < 2 ^ 32)
    (hout : i < p ∨ p + 12 ≤ i) : (h.setMem p mem).byte i = h.byte i := by
  refine storeHeapMem_of_ne fun k hk heq => ?_
  rw [addr_addr] at heq
  have := addr_injOn hi (by omega) heq
  omega

/-- A header depends on its twelve bytes. -/
theorem mem_congr (hbytes : ∀ i, p ≤ i → i < p + 12 → h'.byte i = h.byte i)
    (hptr : h'.heapPtr = h.heapPtr) : h'.mem p = h.mem p := by
  rw [SystemHeap.mem, SystemHeap.mem, hptr]
  refine loadHeapMem_congr fun i hi => ?_
  have := hbytes (p + i) (by omega) (by omega)
  rwa [byte, byte, hptr, ← addr_addr] at this

/-- Setting a header leaves those apart from it. -/
theorem mem_setMem_of_far (hp : p + 12 ≤ 2 ^ 32) (hq : q + 12 ≤ 2 ^ 32)
    (hfar : q + 12 ≤ p ∨ p + 12 ≤ q) : (h.setMem p mem).mem q = h.mem q := by
  refine mem_congr (fun i hi hlt => ?_) rfl
  exact byte_setMem hp (by omega) (by omega)

end SystemHeap

/-! ### Blocks in memory -/

/-- The block at `p`, behind one at `prev`. -/
structure BlockAt (h : SystemHeap) (prev p : ℕ) (b : Block) : Prop where
  size_ge : 24 ≤ b.size
  aligned : 8 ∣ b.size
  header : h.mem p = ⟨heapMagic, b.flag, p + b.size, prev⟩
  content : ∀ i c, b.content[i]? = some c → h.byte (p + sizeofStructMem + i) = c

section
variable {h : SystemHeap} {prev p : ℕ} {b : Block}

theorem BlockAt.used_mem (hb : BlockAt h prev p b) : (h.mem p).used = b.flag := by
  rw [hb.header]

/-- A header points to the next block. -/
theorem BlockAt.next_mem (hb : BlockAt h prev p b) : (h.mem p).next = p + b.size := by
  rw [hb.header]

/-- A header points to the block before. -/
theorem BlockAt.prev_mem (hb : BlockAt h prev p b) : (h.mem p).prev = prev := by
  rw [hb.header]

theorem BlockAt.prev_lt (hb : BlockAt h prev p b) : prev < 2 ^ 32 := by
  have hlt : (h.mem p).prev < 2 ^ 32 := BitVec.isLt _
  rwa [hb.header] at hlt

end

/-- The blocks `bs` stand from `p` to `q`. The one in front of `p` stands at `prev`, the last one
at `last`. -/
def Seg (h : SystemHeap) : (prev p : ℕ) → (bs : List Block) → (last q : ℕ) → Prop
  | prev, p, [], last, q => last = prev ∧ q = p
  | prev, p, b :: bs, last, q => BlockAt h prev p b ∧ Seg h p (p + b.size) bs last q

section
variable {h h' : SystemHeap} {prev prev' p q last r : ℕ} {b : Block} {bs cs : List Block}

@[simp] theorem seg_nil : Seg h prev p [] last q ↔ last = prev ∧ q = p :=
  Iff.rfl

@[simp] theorem seg_cons :
    Seg h prev p (b :: bs) last q ↔ BlockAt h prev p b ∧ Seg h p (p + b.size) bs last q :=
  Iff.rfl

theorem Seg.eq_add (hs : Seg h prev p bs last q) : q = p + total bs := by
  induction bs generalizing prev p with
  | nil => exact hs.2
  | cons b bs ih => rw [ih hs.2, total_cons, Nat.add_assoc]

/-- Blocks one behind the other. -/
theorem seg_append :
    Seg h prev p (bs ++ cs) last q ↔
      ∃ mid, Seg h prev p bs mid (p + total bs) ∧ Seg h mid (p + total bs) cs last q := by
  induction bs generalizing prev p with
  | nil => simp
  | cons b bs ih =>
      rw [List.cons_append, seg_cons, ih, total_cons, ← Nat.add_assoc]
      simp only [seg_cons, and_assoc, exists_and_left]

theorem Seg.length_le (hs : Seg h prev p bs last q) : 24 * bs.length ≤ total bs := by
  induction bs generalizing prev p with
  | nil => simp
  | cons b bs ih =>
      have := ih hs.2
      have := hs.1.size_ge
      rw [List.length_cons, total_cons]
      omega

theorem Seg.dvd_total (hs : Seg h prev p bs last q) : 8 ∣ total bs := by
  induction bs generalizing prev p with
  | nil => simp
  | cons b bs ih => exact Nat.dvd_add hs.1.aligned (ih hs.2)

/-- A block depends on its own bytes. -/
theorem BlockAt.congr (hb : BlockAt h prev p b)
    (hbytes : ∀ i, p ≤ i → i < p + b.size → h'.byte i = h.byte i)
    (hptr : h'.heapPtr = h.heapPtr) : BlockAt h' prev p b where
  size_ge := hb.size_ge
  aligned := hb.aligned
  header := by
    have := hb.size_ge
    rw [SystemHeap.mem_congr (fun i hi hlt => hbytes i hi (by omega)) hptr, hb.header]
  content i c hc := by
    have hlt := Block.lt_size hc
    rw [hbytes _ (by omega) (by omega), hb.content i c hc]

/-- Blocks depend on their own bytes. -/
theorem Seg.congr (hs : Seg h prev p bs last q)
    (hbytes : ∀ i, p ≤ i → i < q → h'.byte i = h.byte i) (hptr : h'.heapPtr = h.heapPtr) :
    Seg h' prev p bs last q := by
  induction bs generalizing prev p with
  | nil => exact hs
  | cons b bs ih =>
      have hq := hs.eq_add
      rw [total_cons] at hq
      exact ⟨hs.1.congr (fun i hi hlt => hbytes i hi (by omega)) hptr,
        ih hs.2 fun i hi hlt => hbytes i (by omega) hlt⟩

/-- A block where a header is written. -/
theorem blockAt_setMem {mem : HeapMem} (hmem : mem = ⟨heapMagic, b.flag, p + b.size, prev⟩)
    (hsize : 24 ≤ b.size) (haligned : 8 ∣ b.size)
    (hcontent : ∀ i c, b.content[i]? = some c → h.byte (p + sizeofStructMem + i) = c)
    (hprev : prev < 2 ^ 32) (hp : p + b.size < 2 ^ 32) : BlockAt (h.setMem p mem) prev p b where
  size_ge := hsize
  aligned := haligned
  header := by
    subst hmem
    exact SystemHeap.mem_setMem hp hprev
  content i c hc := by
    have hlt := Block.lt_size hc
    rw [SystemHeap.byte_setMem (by omega) (by omega) (by rw [sizeofStructMem]; omega)]
    exact hcontent i c hc

/-- A header outside. -/
theorem BlockAt.setMem (hb : BlockAt h prev p b) {mem : HeapMem} (hr : r + 12 ≤ 2 ^ 32)
    (hp : p + b.size ≤ 2 ^ 32) (hout : r + 12 ≤ p ∨ p + b.size ≤ r) :
    BlockAt (h.setMem r mem) prev p b :=
  hb.congr (fun _ _ _ => SystemHeap.byte_setMem hr (by omega) (by omega)) rfl

end

/-! ### The rest of the heap -/

/-- The blocks `bs` stand from `p` to the end of the heap, and the header there is in use. -/
def Tail (h : SystemHeap) (prev p : ℕ) (bs : List Block) : Prop :=
  (∃ last, Seg h prev p bs last h.heapEnd) ∧ (h.mem h.heapEnd).used = 1

section
variable {h h' : SystemHeap} {prev prev' p r : ℕ} {b : Block} {bs cs xs ys ys' : List Block}

@[simp] theorem tail_nil : Tail h prev p [] ↔ p = h.heapEnd ∧ (h.mem h.heapEnd).used = 1 := by
  simp [Tail, eq_comm]

@[simp] theorem tail_cons :
    Tail h prev p (b :: bs) ↔ BlockAt h prev p b ∧ Tail h p (p + b.size) bs := by
  simp only [Tail, seg_cons, exists_and_left, and_assoc]

/-- A tail of the heap splits at every block. -/
theorem tail_append :
    Tail h prev p (xs ++ ys) ↔
      ∃ mid, Seg h prev p xs mid (p + total xs) ∧ Tail h mid (p + total xs) ys := by
  simp only [Tail, seg_append]
  constructor
  · rintro ⟨⟨last, mid, hxs, hys⟩, hguard⟩
    exact ⟨mid, hxs, ⟨last, hys⟩, hguard⟩
  · rintro ⟨mid, hxs, ⟨last, hys⟩, hguard⟩
    exact ⟨⟨last, mid, hxs, hys⟩, hguard⟩

theorem tail_append_zero :
    Tail h 0 0 (xs ++ ys) ↔ ∃ mid, Seg h 0 0 xs mid (total xs) ∧ Tail h mid (total xs) ys := by
  rw [tail_append, Nat.zero_add]

theorem Tail.eq_add (ht : Tail h prev p bs) : h.heapEnd = p + total bs := by
  obtain ⟨⟨last, hs⟩, -⟩ := ht
  exact hs.eq_add

/-- Blocks depend on the bytes from the first one to the end of the heap. -/
theorem Tail.congr (ht : Tail h prev p bs)
    (hbytes : ∀ i, p ≤ i → i < h.heapEnd + 12 → h'.byte i = h.byte i)
    (hptr : h'.heapPtr = h.heapPtr) (hend : h'.heapEnd = h.heapEnd) : Tail h' prev p bs := by
  have hp := ht.eq_add
  obtain ⟨⟨last, hs⟩, hguard⟩ := ht
  rw [Tail, hend]
  refine ⟨⟨last, hs.congr (fun i hi hlt => hbytes i hi (by omega)) hptr⟩, ?_⟩
  rwa [SystemHeap.mem_congr (fun i hi hlt => hbytes i (by omega) hlt) hptr]

/-- A header in front. -/
theorem Tail.setMem (ht : Tail h prev p bs) {mem : HeapMem} (hend : h.heapEnd + 12 ≤ 2 ^ 32)
    (hr : r + 12 ≤ p) : Tail (h.setMem r mem) prev p bs := by
  have hp := ht.eq_add
  refine ht.congr (fun i hi hlt => ?_) rfl rfl
  exact SystemHeap.byte_setMem (by omega) (by omega) (.inr (by omega))

/-- The first block gets another block in front. At the end of the heap, the header there gets
a link that nothing reads. -/
theorem Tail.relink (ht : Tail h prev p bs) (hend : h.heapEnd + 12 ≤ 2 ^ 32)
    (hprev : prev' < 2 ^ 32) : Tail (h.setMem p { h.mem p with prev := prev' }) prev' p bs := by
  cases bs with
  | nil =>
      rw [tail_nil] at ht ⊢
      obtain ⟨rfl, hguard⟩ := ht
      refine ⟨rfl, ?_⟩
      have hread : (h.setMem h.heapEnd { h.mem h.heapEnd with prev := prev' }).mem h.heapEnd =
          { h.mem h.heapEnd with prev := prev' } :=
        SystemHeap.mem_setMem SystemHeap.next_mem_lt hprev
      rw [SystemHeap.heapEnd_setMem, hread]
      exact hguard
  | cons b bs =>
      rw [tail_cons] at ht ⊢
      obtain ⟨hb, ht⟩ := ht
      have hq := ht.eq_add
      have hsize := hb.size_ge
      refine ⟨blockAt_setMem ?_ hsize hb.aligned hb.content hprev (by omega),
        ht.setMem hend (by omega)⟩
      rw [hb.header]

end

end SmallMem

end RtBoot
