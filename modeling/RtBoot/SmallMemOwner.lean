import RtBoot.SmallMemCalls

/-!
# What a Heap Is For

An allocator as its users see it: an `Owner` says which pointers are in use, and what stands
behind them. `Owner.Step` says what a call may do. Nothing in it speaks of headers or of where
blocks stand; a block that is handed out is apart from all others.

`owner` reads the owner of a heap off its memory, by a walk over the headers.

## Main results

* `ownerOf_insert`, `ownerOf_remove`: one block in use more or less.
* `Consistent.insert`, `Consistent.remove`: what this means for the owner of a heap.
* `Owner.Step.keeps`: a step leaves alone what it does not name.
-/

namespace RtBoot

namespace SmallMem

/-! ### Owners -/

/-- What the users of the heap own: behind a pointer, the bytes of its block. -/
abbrev Owner : Type :=
  BitVec 32 → Option (List (BitVec 8))

/-- A call of the heap, or a store to memory that is owned. -/
inductive Call
  | malloc (size : BitVec 32)
  | calloc (count size : BitVec 32)
  | realloc (rmem newsize : BitVec 32)
  | free (rmem : BitVec 32)
  | store (p : BitVec 32) (i : ℕ) (bs : List (BitVec 8))
  deriving DecidableEq, Repr

/-- The call is about the block at `q`. -/
def Call.Names (q : BitVec 32) : Call → Prop
  | .malloc _ => False
  | .calloc _ _ => False
  | .realloc rmem _ => rmem = q
  | .free rmem => rmem = q
  | .store p _ _ => p = q

namespace Owner

/-- A pointer to `n` bytes that nobody owns. -/
structure Fresh (o : Owner) (p : BitVec 32) (n : ℕ) : Prop where
  ne_null : p ≠ 0
  unowned : o p = none
  aligned : 8 ∣ p.toNat
  bound : p.toNat + n ≤ 2 ^ 32
  apart : ∀ q d, o q = some d → p.toNat + n ≤ q.toNat ∨ q.toNat + d.length ≤ p.toNat

/-- What is fresh stays so when a block is released. -/
theorem Fresh.release {o : Owner} {p : BitVec 32} {n : ℕ} (h : o.Fresh p n) (q : BitVec 32) :
    Fresh (Function.update o q none) p n := by
  have hle : ∀ r d, Function.update o q none r = some d → o r = some d := by
    intro r d hr
    by_cases hq : r = q
    · rw [hq, Function.update_self] at hr
      cases hr
    · rwa [Function.update_of_ne hq] at hr
  refine ⟨h.ne_null, ?_, h.aligned, h.bound, fun r d hr => h.apart r d (hle r d hr)⟩
  by_contra hne
  obtain ⟨d, hd⟩ := Option.ne_none_iff_exists'.mp hne
  cases h.unowned.symm.trans (hle p d hd)

/-- What users may ask for. A size that is too large for the alignment is not among it:
`rt_malloc(0xffffffff)` returns a block of sixteen bytes. -/
def Legal (o : Owner) : Call → Prop
  | .malloc size => size.toNat ≤ 2 ^ 32 - 8
  | .calloc count size => count.toNat * size.toNat ≤ 2 ^ 32 - 8
  | .realloc rmem newsize => newsize.toNat ≤ 2 ^ 32 - 8 ∧ (rmem = 0 ∨ (o rmem).isSome)
  | .free rmem => rmem = 0 ∨ (o rmem).isSome
  | .store p i bs => ∃ c, o p = some c ∧ i + bs.length ≤ c.length

/-- What a call may do, and what it returns. A block may be larger than what was asked for. -/
inductive Step : Owner → Call → BitVec 32 → Owner → Prop
  | mallocNull (o : Owner) (size : BitVec 32) : Step o (.malloc size) 0 o
  | malloc {o : Owner} {size p : BitVec 32} {c : List (BitVec 8)} :
      size.toNat ≤ c.length → o.Fresh p c.length →
      Step o (.malloc size) p (Function.update o p (some c))
  | callocNull (o : Owner) (count size : BitVec 32) : Step o (.calloc count size) 0 o
  | calloc {o : Owner} {count size p : BitVec 32} {c : List (BitVec 8)} :
      c.take (count.toNat * size.toNat) = List.replicate (count.toNat * size.toNat) 0 →
      o.Fresh p c.length → Step o (.calloc count size) p (Function.update o p (some c))
  | reallocNull (o : Owner) {rmem newsize : BitVec 32} :
      newsize ≠ 0 → Step o (.realloc rmem newsize) 0 o
  | reallocFree (o : Owner) (rmem : BitVec 32) :
      Step o (.realloc rmem 0) 0 (Function.update o rmem none)
  | reallocNew {o : Owner} {newsize p : BitVec 32} {c : List (BitVec 8)} :
      newsize.toNat ≤ c.length → o.Fresh p c.length →
      Step o (.realloc 0 newsize) p (Function.update o p (some c))
  | realloc {o : Owner} {rmem newsize p : BitVec 32} {c d : List (BitVec 8)} :
      o rmem = some d → newsize.toNat ≤ c.length →
      c.take (min d.length newsize.toNat) = d.take (min d.length newsize.toNat) →
      Fresh (Function.update o rmem none) p c.length →
      Step o (.realloc rmem newsize) p (Function.update (Function.update o rmem none) p (some c))
  | free (o : Owner) (rmem : BitVec 32) : Step o (.free rmem) 0 (Function.update o rmem none)
  | store {o : Owner} {p : BitVec 32} {i : ℕ} {bs c : List (BitVec 8)} :
      o p = some c → Step o (.store p i bs) 0 (Function.update o p (some (splice c i bs)))

/-- What `malloc` does when it returns a pointer. -/
theorem Step.malloc_some {o o' : Owner} {size p : BitVec 32} (h : o.Step (.malloc size) p o')
    (hp : p ≠ 0) : ∃ c, size.toNat ≤ c.length ∧ o' = Function.update o p (some c) := by
  cases h with
  | mallocNull => exact absurd rfl hp
  | malloc hlen _ => exact ⟨_, hlen, rfl⟩

/-- A step leaves alone what it does not name. -/
theorem Step.keeps {o o' : Owner} {c : Call} {p q : BitVec 32} {d : List (BitVec 8)}
    (h : o.Step c p o') (hq : ¬ c.Names q) (hd : o q = some d) : o' q = some d := by
  have hfresh : ∀ {o : Owner} {n : ℕ}, o.Fresh p n → o q = some d → q ≠ p := by
    rintro o n hf hd rfl
    rw [hf.unowned] at hd
    cases hd
  cases h with
  | mallocNull | callocNull | reallocNull => exact hd
  | malloc _ hf | calloc _ hf | reallocNew _ hf =>
      rwa [Function.update_of_ne (hfresh hf hd)]
  | reallocFree | free | store => rwa [Function.update_of_ne (Ne.symm hq)]
  | realloc _ _ _ hf =>
      have hd' := (Function.update_of_ne (Ne.symm hq) none o).trans hd
      rwa [Function.update_of_ne (hfresh hf hd')]

end Owner

/-! ### The owner of a heap -/

/-- The blocks in use from the header at `p` on. -/
def blocksInUse (h : SystemHeap) : (fuel p : ℕ) → List (ℕ × List (BitVec 8))
  | 0, _ => []
  | fuel + 1, p =>
      if p = h.heapEnd then []
      else
        let next := (h.mem p).next
        let data := p + sizeofStructMem
        if (h.mem p).used = 0 then blocksInUse h fuel next
        else (data, readBytes h.memory (addr h.heapPtr data) (next - data)) ::
          blocksInUse h fuel next

/-- The owner of these blocks. -/
def ownerOf (base : BitVec 32) (l : List (ℕ × List (BitVec 8))) : Owner := fun p =>
  (l.find? fun x => addr base x.1 = p).map Prod.snd

/-- What is owned of a heap. -/
def owner (h : SystemHeap) : Owner :=
  ownerOf h.heapPtr (blocksInUse h h.heapEnd 0)

/-- Blocks in use that stand apart from each other, in `n` bytes. -/
structure Separated (n : ℕ) (l : List (ℕ × List (BitVec 8))) : Prop where
  pairwise : l.Pairwise fun x y => x.1 + x.2.length + 16 ≤ y.1
  bound : ∀ x ∈ l, x.1 + x.2.length ≤ n

section
variable {base p : BitVec 32} {l A B : List (ℕ × List (BitVec 8))} {x : ℕ × List (BitVec 8)}
  {q n : ℕ} {c d : List (BitVec 8)}

theorem ownerOf_some (h : ownerOf base l p = some c) : ∃ q, (q, c) ∈ l ∧ p = addr base q := by
  obtain ⟨⟨q, d⟩, hfind, rfl⟩ := Option.map_eq_some_iff.mp h
  have hp : addr base q = p := by simpa using List.find?_some hfind
  exact ⟨q, List.mem_of_find?_eq_some hfind, hp.symm⟩

theorem Separated.apart (hs : Separated n (A ++ (q, d) :: B)) (hx : x ∈ A ++ B) :
    x.1 + x.2.length + 16 ≤ q ∨ q + d.length + 16 ≤ x.1 := by
  obtain ⟨-, hB, hAB⟩ := List.pairwise_append.mp hs.pairwise
  rcases List.mem_append.mp hx with hA | hB'
  · exact .inl (hAB x hA _ List.mem_cons_self)
  · exact .inr ((List.pairwise_cons.mp hB).1 x hB')

theorem Separated.addr_ne (hs : Separated n (A ++ (q, d) :: B)) (hn : n < 2 ^ 32)
    (hx : x ∈ A ++ B) : addr base x.1 ≠ addr base q := by
  intro heq
  have hq := hs.bound (q, d) List.mem_append_cons_self
  have hx' := hs.bound x (List.perm_middle.mem_iff.mpr (List.mem_cons_of_mem _ hx))
  dsimp only at hq
  have := addr_injOn (by omega) (by omega) heq
  rcases hs.apart hx with h | h <;> omega

/-- One block more. -/
theorem ownerOf_insert (hq : ∀ x ∈ A ++ B, addr base x.1 ≠ addr base q) :
    ownerOf base (A ++ (q, c) :: B) =
      Function.update (ownerOf base (A ++ B)) (addr base q) (some c) := by
  funext p
  rw [ownerOf, List.find?_append, Function.update_apply]
  split_ifs with hp
  · have hA : A.find? (fun x => addr base x.1 = p) = none := by
      simpa [hp] using fun r d hr => hq (r, d) (List.mem_append_left B hr)
    rw [hA, List.find?_cons_of_pos (by simp [hp])]
    rfl
  · rw [List.find?_cons_of_neg (by simpa using Ne.symm hp), ownerOf, List.find?_append]

/-- One block less. -/
theorem ownerOf_remove (hq : ∀ x ∈ A ++ B, addr base x.1 ≠ addr base q) :
    ownerOf base (A ++ B) =
      Function.update (ownerOf base (A ++ (q, c) :: B)) (addr base q) none := by
  have hnone : ownerOf base (A ++ B) (addr base q) = none := by
    by_contra hne
    obtain ⟨d, hd⟩ := Option.ne_none_iff_exists'.mp hne
    obtain ⟨r, hr, heq⟩ := ownerOf_some hd
    exact hq _ hr heq.symm
  rw [ownerOf_insert hq, Function.update_idem, ← hnone, Function.update_eq_self]

/-- A block that stands among those that are owned is a fresh one. -/
theorem Separated.fresh (hs : Separated n (A ++ (q, d) :: B)) (hbase : 8 ∣ base.toNat)
    (hn : base.toNat + n < 2 ^ 32) (hq : 0 < q) (hdvd : 8 ∣ q) :
    (ownerOf base (A ++ B)).Fresh (addr base q) d.length := by
  have hbound := hs.bound (q, d) List.mem_append_cons_self
  dsimp only at hbound
  have hnat : (addr base q).toNat = base.toNat + q := toNat_addr_of_lt (by omega)
  refine ⟨fun heq => ?_, ?_, hnat ▸ Nat.dvd_add hbase hdvd, by omega, fun p c hp => ?_⟩
  · rw [heq] at hnat
    change 0 = base.toNat + q at hnat
    omega
  · rw [ownerOf_remove (c := d) fun x hx => hs.addr_ne (by omega) hx, Function.update_self]
  · obtain ⟨r, hr, rfl⟩ := ownerOf_some hp
    have hrb := hs.bound _ (List.perm_middle.mem_iff.mpr (List.mem_cons_of_mem _ hr))
    dsimp only at hrb
    rw [hnat, toNat_addr_of_lt (by omega)]
    rcases hs.apart hr with h | h <;> (dsimp only at h; omega)

end

/-! ### Consistent heaps -/

section
variable {h h' : SystemHeap} {bs bs' : List Block} {A B : List (ℕ × List (BitVec 8))} {q k : ℕ}
  {p : BitVec 32} {c d : List (BitVec 8)}

theorem Consistent.bounds_of_mem (hc : Consistent h bs) (hmem : (q, c) ∈ live 0 bs) :
    q + c.length ≤ h.heapEnd ∧ 16 ≤ q ∧ 8 ∣ q := by
  obtain ⟨xs, ys, rfl, rfl⟩ := exists_append_of_mem_live hmem
  obtain ⟨hle, -, -, hdvd⟩ := hc.bounds
  rw [Nat.zero_add]
  exact ⟨hle, by omega, Nat.dvd_add hdvd (by decide)⟩

/-- The blocks in use lie apart. -/
theorem Consistent.separated (hc : Consistent h bs) : Separated h.heapEnd (live 0 bs) :=
  ⟨pairwise_live, fun _ hx => (hc.bounds_of_mem hx).1⟩

/-- What is in a block stands in memory. -/
theorem Consistent.bytesAt (hc : Consistent h bs) (hmem : (q, c) ∈ live 0 bs) :
    BytesAt h.memory (addr h.heapPtr q) c := by
  obtain ⟨xs, ys, rfl, rfl⟩ := exists_append_of_mem_live hmem
  obtain ⟨mid, -, htail⟩ := tail_append_zero.mp hc.tail
  intro i b hb
  rw [addr_addr, Nat.zero_add]
  exact (tail_cons.mp htail).1.content i b hb

/-- The walk over the headers finds the blocks. -/
theorem Tail.blocksInUse {prev p fuel : ℕ} (ht : Tail h prev p bs) (hfuel : bs.length < fuel) :
    blocksInUse h fuel p = live p bs := by
  induction bs generalizing prev p fuel with
  | nil =>
      obtain ⟨fuel, rfl⟩ : ∃ k, fuel = k + 1 := ⟨fuel - 1, by omega⟩
      rw [SmallMem.blocksInUse, if_pos (tail_nil.mp ht).1, live_nil]
  | cons b bs ih =>
      obtain ⟨fuel, rfl⟩ : ∃ k, fuel = k + 1 := ⟨fuel - 1, by omega⟩
      have hbounds := ht.bounds
      obtain ⟨hb, ht⟩ := tail_cons.mp ht
      have ih := ih ht (Nat.lt_of_succ_lt_succ hfuel)
      rw [SmallMem.blocksInUse, if_neg (by omega)]
      dsimp only
      rw [hb.used_mem, hb.next_mem, ih]
      cases b with
      | free n => exact if_pos rfl
      | used c =>
          have hread : BytesAt h.memory (addr h.heapPtr (p + sizeofStructMem)) c := by
            intro i b hi
            rw [addr_addr]
            exact hb.content i b hi
          have hlen : p + (Block.used c).size - (p + sizeofStructMem) = c.length := by
            rw [Block.size, ← Nat.add_assoc, Nat.add_sub_cancel_left]
          rw [if_neg (Block.flag_used_ne c), hlen, hread.read]
          rfl

theorem Consistent.owner_eq (hc : Consistent h bs) : owner h = ownerOf h.heapPtr (live 0 bs) := by
  have hlt := hc.length_lt
  rw [owner, hc.tail.blocksInUse (by omega)]

/-- A pointer that is owned is one to a block in use. -/
theorem Consistent.exists_block (hc : Consistent h bs) (hp : owner h p = some c) :
    ∃ xs ys, bs = xs ++ .used c :: ys ∧ p = addr h.heapPtr (total xs + 16) := by
  rw [hc.owner_eq] at hp
  obtain ⟨q, hq, rfl⟩ := ownerOf_some hp
  obtain ⟨xs, ys, rfl, rfl⟩ := exists_append_of_mem_live hq
  exact ⟨xs, ys, rfl, by rw [Nat.zero_add]⟩

theorem Consistent.bytesAt_owner (hc : Consistent h bs) (hp : owner h p = some c) :
    BytesAt h.memory p c := by
  rw [hc.owner_eq] at hp
  obtain ⟨q, hq, rfl⟩ := ownerOf_some hp
  exact hc.bytesAt hq

/-- What is owned lies in the heap, at an aligned address. -/
theorem Consistent.bounds_of_owner (hc : Consistent h bs) (hp : owner h p = some c) :
    h.heapPtr.toNat + 16 ≤ p.toNat ∧ p.toNat + c.length ≤ h.heapPtr.toNat + h.heapEnd ∧
      8 ∣ p.toNat := by
  have hbound := hc.placed.bound
  rw [hc.owner_eq] at hp
  obtain ⟨q, hq, rfl⟩ := ownerOf_some hp
  obtain ⟨hle, hq, hdvd⟩ := hc.bounds_of_mem hq
  rw [toNat_addr_of_lt (by omega)]
  exact ⟨by omega, by omega, Nat.dvd_add hc.placed.aligned hdvd⟩

/-- One block in use less. -/
theorem Consistent.remove (hc : Consistent h bs) (hlive : live 0 bs = A ++ (q, d) :: B) :
    ownerOf h.heapPtr (A ++ B) = Function.update (owner h) (addr h.heapPtr q) none := by
  have hs := hc.separated
  have hend := hc.placed.heapEnd_le
  rw [hlive] at hs
  rw [hc.owner_eq, hlive, ← ownerOf_remove fun x hx => hs.addr_ne (by omega) hx]

/-- One block in use more. -/
theorem Consistent.insert (hc : Consistent h bs) (hlive : live 0 bs = A ++ (q, d) :: B) :
    owner h = Function.update (ownerOf h.heapPtr (A ++ B)) (addr h.heapPtr q) (some d) ∧
      (ownerOf h.heapPtr (A ++ B)).Fresh (addr h.heapPtr q) d.length := by
  have hs := hc.separated
  have hbound := hc.placed.bound
  have hmem : (q, d) ∈ live 0 bs := by
    rw [hlive]
    exact List.mem_append_cons_self
  obtain ⟨-, hq, hdvd⟩ := hc.bounds_of_mem hmem
  rw [hlive] at hs
  refine ⟨?_, hs.fresh hc.placed.aligned (by omega) (by omega) hdvd⟩
  rw [hc.owner_eq, hlive, ownerOf_insert fun x hx => hs.addr_ne (by omega) hx]

theorem live_append_used {xs ys : List Block} :
    live 0 (xs ++ .used c :: ys) =
      live 0 xs ++ (total xs + 16, c) :: live (total xs + (16 + c.length)) ys := by
  simp

end

end SmallMem

end RtBoot
