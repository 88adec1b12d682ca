import RtBoot.Memcpy
import RtBoot.SmallMemOps

/-!
# The Calls of the System Heap

What `rt_system_heap_init` sets up and each of `rt_malloc`, `rt_free`, `rt_realloc` and
`rt_calloc` keeps: `Consistent`. Each call has one lemma that says what becomes of the list of
blocks.

## Main results

* `consistent_init`: the heap after `rt_system_heap_init`.
* `Consistent.malloc`, `Consistent.free`, `Consistent.shrink`, `Consistent.store`: the list of
  blocks after a call.
-/

namespace RtBoot

namespace SmallMem

/-! ### Alignment -/

theorem toNat_rtAlignDown (x : BitVec 32) : (rtAlignDown x).toNat = x.toNat / 8 * 8 := by
  have h : (rtAlignDown x).toNat = x.toNat - x.toNat % 2 ^ 3 := toNat_alignDown x rfl
  omega

theorem toNat_rtAlign (x : BitVec 32) : (rtAlign x).toNat = (x.toNat + 7) % 2 ^ 32 / 8 * 8 := by
  have h := toNat_rtAlignDown (x + 7)
  rwa [BitVec.toNat_add] at h

theorem dvd_rtAlign (x : BitVec 32) : 8 ∣ (rtAlign x).toNat := by
  rw [toNat_rtAlign]
  exact Nat.dvd_mul_left 8 _

/-- Sizes above `2 ^ 32 - 8` wrap to zero. -/
theorem le_toNat_rtAlign {x : BitVec 32} (hx : x.toNat ≤ 2 ^ 32 - 8) :
    x.toNat ≤ (rtAlign x).toNat := by
  rw [toNat_rtAlign]
  omega

theorem rtAlign_le (size : BitVec 32) : (rtAlign size).toNat ≤ 2 ^ 32 - 8 := by
  have hdvd := dvd_rtAlign size
  have hlt := (rtAlign size).isLt
  omega

theorem rtAlign_ne_zero {size : BitVec 32} (hsize : size.toNat ≤ 2 ^ 32 - 8) (hne : size ≠ 0) :
    rtAlign size ≠ 0 := by
  intro heq
  have hle := le_toNat_rtAlign hsize
  rw [heq] at hle
  exact hne (BitVec.eq_of_toNat_eq (Nat.le_zero.mp hle))

/-! ### The invariant -/

/-- Where the heap stands. With no room for a block of the least size, the bound of the loop of
`rt_malloc` would wrap. -/
structure Placed (h : SystemHeap) : Prop where
  room : 16 ≤ h.memSizeAligned
  bound : h.heapPtr.toNat + h.heapEnd + 16 ≤ 2 ^ 32
  aligned : 8 ∣ h.heapPtr.toNat

/-- The heap stands where it stood. -/
structure SamePlace (h h' : SystemHeap) : Prop where
  heapPtr : h'.heapPtr = h.heapPtr
  memSizeAligned : h'.memSizeAligned = h.memSizeAligned

theorem SamePlace.trans {h h' h'' : SystemHeap} (h₁ : SamePlace h h') (h₂ : SamePlace h' h'') :
    SamePlace h h'' :=
  ⟨h₂.heapPtr.trans h₁.heapPtr, h₂.memSizeAligned.trans h₁.memSizeAligned⟩

theorem SamePlace.heapEnd {h h' : SystemHeap} (hs : SamePlace h h') : h'.heapEnd = h.heapEnd := by
  rw [SystemHeap.heapEnd, hs.memSizeAligned, SystemHeap.heapEnd]

/-- The heap consists of the blocks `bs`. -/
structure Consistent (h : SystemHeap) (bs : List Block) : Prop where
  tail : Tail h 0 0 bs
  placed : Placed h
  merged : Merged bs
  lowFree : LowFree bs h.lfree

section
variable {h h' : SystemHeap} {bs xs ys : List Block} {m n p fuel : ℕ} {c : List (BitVec 8)}

theorem Below.samePlace (hb : Below h h' p) : SamePlace h h' :=
  ⟨hb.heapPtr, hb.memSizeAligned⟩

theorem Placed.of_samePlace (hp : Placed h) (hs : SamePlace h h') : Placed h' := by
  obtain ⟨hroom, hbound, haligned⟩ := hp
  rw [← hs.heapPtr, ← hs.heapEnd] at hbound
  rw [← hs.memSizeAligned] at hroom
  rw [← hs.heapPtr] at haligned
  exact ⟨hroom, hbound, haligned⟩

theorem Placed.heapEnd_le (hp : Placed h) : h.heapEnd + 12 ≤ 2 ^ 32 := by
  have := hp.bound
  omega

theorem Consistent.heapEnd_eq (hc : Consistent h bs) : h.heapEnd = total bs := by
  rw [hc.tail.eq_add, Nat.zero_add]

theorem Consistent.length_lt (hc : Consistent h bs) : bs.length + 1 < h.heapEnd := by
  obtain ⟨⟨last, hs⟩, -⟩ := hc.tail
  have hlen := hs.length_le
  have hroom := hc.placed.room
  have hend : h.heapEnd = h.memSizeAligned + 16 := rfl
  rw [← hc.heapEnd_eq] at hlen
  omega

/-- The two headers that `rt_system_heap_init` writes. -/
theorem tail_init (hend : h.heapEnd + 12 ≤ 2 ^ 32) (hsize : 24 ≤ h.heapEnd) (hdvd : 8 ∣ h.heapEnd) :
    Tail ((h.setMem 0 ⟨heapMagic, 0, h.heapEnd, 0⟩).setMem h.heapEnd
      ⟨heapMagic, 1, h.heapEnd, h.heapEnd⟩) 0 0 [.free h.heapEnd] := by
  have hfirst : BlockAt (h.setMem 0 ⟨heapMagic, 0, h.heapEnd, 0⟩) 0 0 (.free h.heapEnd) := by
    refine blockAt_setMem ?_ hsize hdvd (fun i c hc => ?_) (by omega) ?_
    · rw [Block.size_free, Nat.zero_add, Block.flag_free]
    · simp [Block.content] at hc
    · rw [Block.size_free]
      omega
  rw [tail_cons, tail_nil, Block.size_free, Nat.zero_add]
  refine ⟨hfirst.setMem (by omega) ?_ (.inr ?_), rfl, ?_⟩
  · rw [Block.size_free]
    omega
  · rw [Block.size_free]
    omega
  · rw [SystemHeap.heapEnd_setMem, SystemHeap.heapEnd_setMem,
      SystemHeap.mem_setMem (by dsimp only; omega) (by dsimp only; omega)]

/-- `rt_system_heap_init` leaves one free block. -/
theorem consistent_init {memory : Mem} {beginAddr endAddr : BitVec 32}
    (hinit : rtSystemHeapInit memory beginAddr endAddr = some h) (hroom : 16 ≤ h.memSizeAligned) :
    Consistent h [.free h.heapEnd] := by
  rw [rtSystemHeapInit] at hinit
  dsimp only at hinit
  split_ifs at hinit with hfit
  obtain ⟨-, hfit⟩ := hfit
  have hb : 8 ∣ (rtAlign beginAddr).toNat := dvd_rtAlign beginAddr
  have he : 8 ∣ (rtAlignDown endAddr).toNat := by
    rw [toNat_rtAlignDown]
    exact Nat.dvd_mul_left 8 _
  have hlt := (rtAlignDown endAddr).isLt
  set M := (rtAlignDown endAddr).toNat - (rtAlign beginAddr).toNat - 2 * sizeofStructMem with hM
  have hdvd : 8 ∣ M := Nat.dvd_sub (Nat.dvd_sub he hb) (by decide)
  rw [sizeofStructMem] at hfit hM
  obtain rfl := Option.some.inj hinit
  have hsize : 16 ≤ M := hroom
  set h₀ : SystemHeap := ⟨memory, rtAlign beginAddr, M, 0, 0, 0⟩
  have hend : h₀.heapEnd = M + 16 := rfl
  refine ⟨tail_init ?_ ?_ ?_, ⟨hroom, ?_, hb⟩, by simp [Merged], .inl (.here _ _)⟩
  · omega
  · omega
  · exact Nat.dvd_add hdvd (by decide)
  · rw [SystemHeap.heapEnd_setMem, SystemHeap.heapEnd_setMem, SystemHeap.heapPtr_setMem,
      SystemHeap.heapPtr_setMem, hend]
    dsimp only [h₀]
    omega

/-! ### `rt_malloc` -/

/-- The size that `rt_malloc` looks for. -/
def roundUp (size : BitVec 32) : ℕ :=
  max (rtAlign size).toNat minSizeAligned

-- a size that is too large for the alignment becomes the least one
example : roundUp 0xffffffff = 16 := by decide

theorem dvd_roundUp (size : BitVec 32) : 8 ∣ roundUp size := by
  rw [roundUp]
  rcases max_choice (rtAlign size).toNat minSizeAligned with h | h
  · rw [h]
    exact dvd_rtAlign size
  · rw [h]
    decide

theorem le_roundUp {size : BitVec 32} (hsize : size.toNat ≤ 2 ^ 32 - 8) :
    size.toNat ≤ roundUp size :=
  (le_toNat_rtAlign hsize).trans (le_max_left _ _)

theorem roundUp_pos (size : BitVec 32) : 0 < roundUp size :=
  lt_of_lt_of_le (by decide) (le_max_right _ _)

/-- `lfree` after the block at `total xs` has been taken. -/
theorem nextLfree_spec {h₁ : SystemHeap} {rest : List Block}
    (ht : Tail h₁ 0 0 (xs ++ .used c :: (rest ++ ys))) (hlfree : h₁.lfree = h.lfree)
    (hl : LowFree (xs ++ .free n :: ys) h.lfree) (hn : total (.used c :: rest) = n)
    (hfuel : (xs ++ .used c :: (rest ++ ys)).length < fuel) :
    ∃ l, nextLfree h₁ fuel (total xs) = some l ∧ LowFree (xs ++ .used c :: (rest ++ ys)) l := by
  rw [nextLfree]
  by_cases heq : total xs = h₁.lfree
  · rw [if_pos heq, ← heq]
    obtain ⟨mid, -, htail⟩ := tail_append_zero.mp ht
    rw [List.length_append] at hfuel
    obtain ⟨l, hloop, hfree⟩ := lfreeLoop_spec htail (lt_of_le_of_lt (Nat.le_add_left _ _) hfuel)
    refine ⟨_, hloop, ?_⟩
    rcases hfree with hfree | rfl
    · exact .inl (hfree.append xs)
    · exact .inr ⟨(total_append _ _).symm, by simp⟩
  · rw [if_neg heq, hlfree]
    exact ⟨_, rfl, hl.take (by rw [← hlfree]; exact Ne.symm heq) hn⟩

/-- The block that `rt_malloc` has found is taken. -/
theorem Consistent.take {size : ℕ} (hc : Consistent h (xs ++ .free n :: ys))
    (hfuel : h.heapEnd ≤ fuel) (hdvd : 8 ∣ size) (hpos : 0 < size) (hfit : size + 16 ≤ n) :
    ∃ h' c ys', takeFound h fuel (total xs) size = some (h', addr h.heapPtr (total xs + 16)) ∧
      Consistent h' (xs ++ .used c :: ys') ∧ SamePlace h h' ∧ size ≤ c.length ∧
      live (total xs + n) ys = live (total xs + (16 + c.length)) ys' := by
  have hend := hc.placed.heapEnd_le
  have hlength := hc.length_lt
  obtain ⟨mid, hxs, htail⟩ := tail_append_zero.mp hc.tail
  obtain ⟨c, rest, htake, hlen, htotal, hrest, hbelow, hlfree⟩ :=
    takeBlock_spec htail hend hdvd hpos hfit
  have ht : Tail (takeBlock h (total xs) size) 0 0 (xs ++ .used c :: (rest ++ ys)) :=
    hbelow.append (hxs.congr (fun _ _ _ => rfl) rfl) htake
  have hrest_length : rest.length ≤ 1 := by
    obtain rfl | ⟨k, rfl⟩ := hrest
    · exact Nat.zero_le 1
    · exact le_refl 1
  have hfuel' : (xs ++ .used c :: (rest ++ ys)).length < fuel := by
    simp only [List.length_append, List.length_cons] at hlength ⊢
    omega
  obtain ⟨l, hloop, hl⟩ := nextLfree_spec ht hlfree hc.lowFree htotal hfuel'
  have hlive : live (total xs + n) ys = live (total xs + (16 + c.length)) (rest ++ ys) := by
    rw [← htotal]
    obtain rfl | ⟨k, rfl⟩ := hrest
    · simp
    · simp [Nat.add_assoc]
  have hplace : SamePlace h { takeBlock h (total xs) size with lfree := l } :=
    ⟨hbelow.heapPtr, hbelow.memSizeAligned⟩
  refine ⟨{ takeBlock h (total xs) size with lfree := l }, c, rest ++ ys, ?_,
    ⟨ht.of_eq rfl rfl rfl, hc.placed.of_samePlace hplace, ?_, hl⟩, hplace, hlen, hlive⟩
  · rw [takeFound]
    dsimp only
    rw [hloop, ← hplace.heapPtr]
    rfl
  · obtain ⟨hmxs, hmys, -, hhead⟩ := merged_append_free.mp hc.merged
    refine merged_append_used.mpr ⟨hmxs, ?_⟩
    obtain rfl | ⟨k, rfl⟩ := hrest
    · exact hmys
    · exact merged_free.mpr ⟨hmys, hhead⟩

/-- What `rt_malloc` returns: no block, because none of the free blocks it looks at is large
enough, or a block that stands among the others. The free blocks it looks at are those from
`lfree` on that start below `mem_size_aligned - size`. -/
theorem Consistent.malloc (hc : Consistent h bs) (hfuel : h.heapEnd ≤ fuel) {size : BitVec 32}
    (hsize : size ≠ 0) :
    (rtMalloc h fuel size = some (h, 0) ∧ ∀ xs n ys, bs = xs ++ .free n :: ys →
      h.lfree ≤ total xs → roundUp size + 16 ≤ n → h.memSizeAligned ≤ total xs + roundUp size) ∨
    ∃ h' xs c ys, rtMalloc h fuel size = some (h', addr h.heapPtr (total xs + 16)) ∧
      Consistent h' (xs ++ .used c :: ys) ∧ SamePlace h h' ∧ roundUp size ≤ c.length ∧
      live 0 bs = live 0 xs ++ live (total xs + (16 + c.length)) ys ∧
      ∃ n zs, bs = xs ++ .free n :: zs := by
  have hend := hc.placed.heapEnd_le
  have hroom := hc.placed.room
  have hlength := hc.length_lt
  have hheap : h.heapEnd = h.memSizeAligned + 16 := rfl
  rw [rtMalloc, if_neg hsize]
  by_cases hlarge : h.memSizeAligned < (rtAlign size).toNat
  · rw [if_pos hlarge]
    refine .inl ⟨rfl, fun xs n ys _ _ _ => ?_⟩
    have : (rtAlign size).toNat ≤ roundUp size := le_max_left _ _
    omega
  rw [if_neg hlarge, ← roundUp]
  dsimp only
  have hle : roundUp size ≤ h.memSizeAligned := max_le (by omega) hroom
  obtain ⟨low, high, rfl, hlow⟩ := hc.lowFree.exists_append
  obtain ⟨mid, -, htail⟩ := tail_append_zero.mp hc.tail
  rw [← hlow] at htail
  have hfuel' : high.length < fuel := by
    rw [List.length_append] at hlength
    omega
  rcases mallocLoop_spec htail hfuel' hle (by omega) with
    ⟨xs, n, ys, rfl, hn, hloop⟩ | ⟨hloop, hnone⟩
  · right
    have hpos : h.lfree + total xs = total (low ++ xs) := by rw [hlow, total_append]
    rw [hpos] at hloop
    rw [← List.append_assoc] at hc ⊢
    obtain ⟨h', c, ys', htake, hc', hplace, hlen, hlive⟩ :=
      hc.take hfuel (dvd_roundUp size) (roundUp_pos size) hn
    refine ⟨h', low ++ xs, c, ys', ?_, hc', hplace, hlen, ?_, n, ys, rfl⟩
    · rw [hloop]
      exact htake
    · rw [live_append, live_free, Nat.zero_add, hlive]
  · left
    rw [hloop]
    refine ⟨rfl, fun xs n ys hbs hlfree hn => ?_⟩
    rw [hlow] at hlfree
    obtain ⟨zs, rfl, rfl⟩ := exists_append_of_total_le hbs (by omega) hlfree
    have := hnone zs n ys rfl hn
    rw [total_append, ← hlow]
    exact this

/-! ### `rt_free` -/

theorem headerOf_addr (hp : p + 16 < 2 ^ 32) : headerOf h (addr h.heapPtr (p + 16)) = p := by
  have hsub : addr h.heapPtr (p + 16) - h.heapPtr - BitVec.ofNat 32 sizeofStructMem =
      BitVec.ofNat 32 p := by
    rw [addr, BitVec.add_comm, BitVec.add_sub_cancel, sizeofStructMem, BitVec.ofNat_add,
      BitVec.add_sub_cancel]
  rw [headerOf, hsub, BitVec.toNat_ofNat]
  omega

theorem Placed.inHeap (hp : Placed h) (hlt : p < h.heapEnd) : InHeap h (addr h.heapPtr p) := by
  have hbound := hp.bound
  rw [InHeap, BitVec.le_def, BitVec.lt_def, toNat_addr_of_lt (by omega),
    toNat_addr_of_lt (by omega)]
  omega

theorem Placed.addr_ne_zero (hp : Placed h) (hpos : 0 < p) (hlt : p < h.heapEnd) :
    addr h.heapPtr p ≠ 0 := by
  have hbound := hp.bound
  intro heq
  have hzero : (addr h.heapPtr p).toNat = 0 := by
    rw [heq]
    rfl
  rw [toNat_addr_of_lt (by omega)] at hzero
  omega

/-- A block is marked as free. -/
theorem tail_markFree {prev : ℕ} (ht : Tail h prev p (.used c :: ys))
    (hend : h.heapEnd + 12 ≤ 2 ^ 32) :
    Tail (h.setMem p { h.mem p with used := 0, magic := heapMagic }) prev p
      (.free (16 + c.length) :: ys) := by
  have hbounds := ht.bounds
  obtain ⟨hb, ht⟩ := tail_cons.mp ht
  rw [Block.size_used] at hbounds ht
  rw [tail_cons, Block.size_free]
  refine ⟨blockAt_setMem ?_ hb.size_ge hb.aligned (fun i c hc => ?_) hb.prev_lt ?_,
    ht.setMem hend (by omega)⟩
  · rw [hb.header]
    rfl
  · simp [Block.content] at hc
  · rw [Block.size_free]
    omega

/-- `plug_holes` makes the heap consistent again after a block has been made free. -/
theorem consistent_plugHoles (ht : Tail h 0 0 (xs ++ .free m :: ys)) (hp : Placed h)
    (hxs : Merged xs) (hys : Merged ys) (hl : LowFree (xs ++ .free m :: ys) h.lfree) :
    ∃ bs, Consistent (plugHoles h (total xs)) bs ∧ SamePlace h (plugHoles h (total xs)) ∧
      live 0 bs = live 0 (xs ++ .free m :: ys) := by
  obtain ⟨bs, hjoins, hmerged⟩ := plugHoles_spec ht hp.heapEnd_le hl hxs hys
  exact ⟨bs, ⟨hjoins.tail, hp.of_samePlace hjoins.below.samePlace, hmerged, hjoins.lowFree⟩,
    hjoins.below.samePlace, hjoins.live⟩

/-- A block in use lies inside the heap. -/
theorem Consistent.bounds (hc : Consistent h (xs ++ .used c :: ys)) :
    total xs + 16 + c.length ≤ h.heapEnd ∧ 8 ≤ c.length ∧ 8 ∣ c.length ∧ 8 ∣ total xs := by
  have hend := hc.heapEnd_eq
  obtain ⟨mid, hxs, htail⟩ := tail_append_zero.mp hc.tail
  have hb := (tail_cons.mp htail).1
  have hsize := hb.size_ge
  have haligned := hb.aligned
  rw [Block.size_used] at hsize haligned
  rw [total_append, total_cons, Block.size_used] at hend
  exact ⟨by omega, by omega, (Nat.dvd_add_right (by decide)).mp haligned, hxs.dvd_total⟩

theorem rtFree_used (hc : Consistent h (xs ++ .used c :: ys)) :
    rtFree h (addr h.heapPtr (total xs + 16)) =
      (plugHoles { h.setMem (total xs) { h.mem (total xs) with used := 0, magic := heapMagic } with
        lfree := if total xs < h.lfree then total xs else h.lfree
        usedMem := h.usedMem - (16 + c.length) } (total xs), false) := by
  obtain ⟨hle, hlen, -, -⟩ := hc.bounds
  have hend := hc.placed.heapEnd_le
  obtain ⟨mid, -, htail⟩ := tail_append_zero.mp hc.tail
  have hb := (tail_cons.mp htail).1
  have hb' := (tail_cons.mp (tail_markFree htail hend)).1
  have hgood : ¬ ((h.mem (total xs)).used = 0 ∨ (h.mem (total xs)).magic ≠ heapMagic) := by
    rw [hb.header]
    rintro (hused | hmagic)
    · exact Block.flag_used_ne c hused
    · exact hmagic rfl
  rw [rtFree, if_neg (hc.placed.addr_ne_zero (by omega) (by omega)),
    if_neg (not_not.mpr (hc.placed.inHeap (by omega))), headerOf_addr (by omega)]
  dsimp only
  rw [decide_eq_false hgood, hb'.next_mem, Nat.add_sub_cancel_left]
  rfl

/-- `rt_free` releases a block in use. It finds no bad data block. -/
theorem Consistent.free (hc : Consistent h (xs ++ .used c :: ys)) :
    ∃ h' bs, rtFree h (addr h.heapPtr (total xs + 16)) = (h', false) ∧ Consistent h' bs ∧
      SamePlace h h' ∧ live 0 bs = live 0 xs ++ live (total xs + (16 + c.length)) ys := by
  obtain ⟨mid, hxs, htail⟩ := tail_append_zero.mp hc.tail
  have hend := hc.placed.heapEnd_le
  obtain ⟨hle, hlen, -, -⟩ := hc.bounds
  obtain ⟨hmxs, hmys⟩ := merged_append_used.mp hc.merged
  set h₁ : SystemHeap :=
    { h.setMem (total xs) { h.mem (total xs) with used := 0, magic := heapMagic } with
      lfree := if total xs < h.lfree then total xs else h.lfree
      usedMem := h.usedMem - (16 + c.length) }
  have hplace : SamePlace h h₁ := ⟨rfl, rfl⟩
  have ht₁ : Tail h₁ 0 0 (xs ++ .free (16 + c.length) :: ys) :=
    ((below_setMem (by omega) (le_refl _)).append hxs (tail_markFree htail hend)).of_eq rfl rfl rfl
  have hlive : live 0 (xs ++ .free (16 + c.length) :: ys) =
      live 0 xs ++ live (total xs + (16 + c.length)) ys := by
    simp
  obtain ⟨bs, hc', hplace', hlive'⟩ := consistent_plugHoles ht₁ (hc.placed.of_samePlace hplace)
    hmxs hmys hc.lowFree.release
  exact ⟨_, bs, rtFree_used hc, hc', hplace.trans hplace', hlive'.trans hlive⟩

/-! ### `rt_realloc` -/

/-- `rt_realloc` makes a block smaller and leaves it where it is. -/
theorem Consistent.shrink (hc : Consistent h (xs ++ .used c :: ys)) (hdvd : 8 ∣ n) (hpos : 0 < n)
    (hfit : n + 24 ≤ c.length) :
    ∃ h' bs, plugHoles (splitBlock { h with usedMem := h.usedMem - (c.length - n) } (total xs) n)
        (total xs + sizeofStructMem + n) = h' ∧ Consistent h' bs ∧ SamePlace h h' ∧
      live 0 bs =
        live 0 xs ++ (total xs + 16, c.take n) :: live (total xs + (16 + c.length)) ys := by
  set h₁ : SystemHeap := { h with usedMem := h.usedMem - (c.length - n) } with hh₁
  obtain ⟨mid, hxs, htail⟩ := tail_append_zero.mp hc.tail
  have hend : h₁.heapEnd + 12 ≤ 2 ^ 32 := hc.placed.heapEnd_le
  obtain ⟨hmxs, hmys⟩ := merged_append_used.mp hc.merged
  obtain ⟨hsplit, hbelow⟩ := splitBlock_spec (h := h₁) (htail.of_eq rfl rfl rfl) hend hdvd hpos
    (by rw [Block.size_used]; omega)
  set h₂ := splitBlock h₁ (total xs) n
  have hrest : (Block.used c).size - (16 + n) = c.length - n := by
    rw [Block.size_used]
    omega
  have hlen : (c.take n).length = n := by
    rw [List.length_take]
    omega
  rw [hrest, Block.shrink] at hsplit
  have ht₂ : Tail h₂ 0 0 ((xs ++ [.used (c.take n)]) ++ .free (c.length - n) :: ys) := by
    rw [List.append_assoc, List.singleton_append]
    exact hbelow.append (hxs.congr (fun _ _ _ => rfl) rfl) hsplit
  have hlow : LowFree ((xs ++ [.used (c.take n)]) ++ .free (c.length - n) :: ys) h₂.lfree := by
    rw [List.append_assoc, List.singleton_append, lfree_splitBlock]
    exact hc.lowFree.shrink (by omega)
  have hlive : live 0 ((xs ++ [.used (c.take n)]) ++ .free (c.length - n) :: ys) =
      live 0 xs ++ (total xs + 16, c.take n) :: live (total xs + (16 + c.length)) ys := by
    have hend : total xs + (16 + n) + (c.length - n) = total xs + (16 + c.length) := by omega
    simp only [List.append_assoc, List.singleton_append, live_append, live_used, live_free, hlen,
      Nat.zero_add, hend]
  have hplace : SamePlace h h₂ := ⟨hbelow.heapPtr, hbelow.memSizeAligned⟩
  have hptr : total xs + sizeofStructMem + n = total (xs ++ [.used (c.take n)]) := by
    rw [total_append, total_cons, total_nil, Block.size_used, hlen, sizeofStructMem]
    omega
  obtain ⟨bs, hc', hplace', hlive'⟩ := consistent_plugHoles ht₂ (hc.placed.of_samePlace hplace)
    (merged_append_used.mpr ⟨hmxs, .nil⟩) hmys hlow
  rw [hptr]
  exact ⟨_, bs, rfl, hc', hplace.trans hplace', hlive'.trans hlive⟩

/-! ### Stores to a block -/

/-- `bs` stands in `c` from the position `i` on. -/
def splice (c : List (BitVec 8)) (i : ℕ) (bs : List (BitVec 8)) : List (BitVec 8) :=
  c.take i ++ bs ++ c.drop (i + bs.length)

theorem length_splice {i : ℕ} {bs : List (BitVec 8)} (h : i + bs.length ≤ c.length) :
    (splice c i bs).length = c.length := by
  simp only [splice, List.length_append, List.length_take, List.length_drop]
  omega

theorem getElem?_splice {l bs : List (BitVec 8)} {i k : ℕ} (h : i + bs.length ≤ l.length) :
    (splice l i bs)[k]? =
      if i ≤ k ∧ k < i + bs.length then bs[k - i]? else l[k]? := by
  have hlen : (l.take i).length = i := by
    rw [List.length_take]
    omega
  have hlen' : (l.take i ++ bs).length = i + bs.length := by rw [List.length_append, hlen]
  rw [splice]
  by_cases hlt : k < i + bs.length
  · rw [List.getElem?_append_left (by omega)]
    by_cases hki : k < i
    · rw [List.getElem?_append_left (by omega), List.getElem?_take_of_lt hki, if_neg (by omega)]
    · rw [List.getElem?_append_right (by omega), hlen, if_pos ⟨by omega, hlt⟩]
  · rw [List.getElem?_append_right (by omega), hlen', List.getElem?_drop, if_neg (by omega)]
    congr 1
    omega

/-- A store of the owner of a block changes nothing but what is in the block. -/
theorem Consistent.store (hc : Consistent h (xs ++ .used c :: ys)) {i : ℕ} {bs : List (BitVec 8)}
    (hfit : i + bs.length ≤ c.length) :
    Consistent (h.write (addr (addr h.heapPtr (total xs + 16)) i) bs)
      (xs ++ .used (splice c i bs) :: ys) := by
  obtain ⟨hle, -, -, -⟩ := hc.bounds
  have hend := hc.placed.heapEnd_le
  set h' := h.write (addr (addr h.heapPtr (total xs + 16)) i) bs
  have hlen := length_splice hfit
  have hout : ∀ k, k < 2 ^ 32 → (k < total xs + 16 + i ∨ total xs + 16 + i + bs.length ≤ k) →
      h'.byte k = h.byte k := by
    intro k hk hout
    refine writeBytes_of_ne fun j hj heq => ?_
    rw [addr_addr, addr_addr] at heq
    have := addr_injOn hk (by omega) heq
    omega
  have hin : ∀ k b, bs[k]? = some b → h'.byte (total xs + 16 + i + k) = b := by
    intro k b hb
    have hwritten : BytesAt h'.memory (addr (addr h.heapPtr (total xs + 16)) i) bs :=
      bytesAt_writeBytes (by omega)
    have := hwritten k b hb
    rwa [addr_addr, addr_addr, ← Nat.add_assoc] at this
  refine ⟨?_, hc.placed.of_samePlace ⟨rfl, rfl⟩,
    merged_append_used.mpr (merged_append_used.mp hc.merged), hc.lowFree.store hlen⟩
  · obtain ⟨mid, hxs, htail⟩ := tail_append_zero.mp hc.tail
    obtain ⟨hb, htail⟩ := tail_cons.mp htail
    have hsize : (Block.used (splice c i bs)).size = (Block.used c).size := by
      rw [Block.size_used, Block.size_used, hlen]
    refine tail_append_zero.mpr ⟨mid, hxs.congr (fun k _ hk => hout k (by omega) (.inl (by omega)))
      rfl, tail_cons.mpr ⟨⟨hsize ▸ hb.size_ge, hsize ▸ hb.aligned, ?_, ?_⟩, ?_⟩⟩
    · rw [SystemHeap.mem_congr (h := h) (fun k _ hk => hout k (by omega) (.inl (by omega))) rfl,
        hb.header, hsize]
      rfl
    · intro k b hkb
      rw [Block.content, getElem?_splice hfit] at hkb
      split_ifs at hkb with hk
      · have := hin _ b hkb
        rwa [show total xs + 16 + i + (k - i) = total xs + sizeofStructMem + k by
          rw [sizeofStructMem]; omega] at this
      · have hkc := (List.getElem?_eq_some_iff.mp hkb).1
        rw [hout _ (by rw [sizeofStructMem]; omega) (by rw [sizeofStructMem]; omega)]
        exact hb.content k b hkb
    · rw [hsize]
      exact htail.congr (fun k hk hlt => hout k (by omega)
        (.inr (by rw [Block.size_used] at hk; omega))) rfl rfl

end

end SmallMem

end RtBoot
