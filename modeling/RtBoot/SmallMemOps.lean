import RtBoot.SmallMemBlocks

/-!
# Splitting, Joining and Searching

What the parts of `rt_malloc`, `rt_realloc` and `rt_free` do to the list of blocks: a block is
split, taken or joined with its neighbours, and the loops that walk over the headers end and find
what they look for.

## Main results

* `splitBlock_spec`, `takeBlock_spec`, `plugHoles_spec`: the list of blocks behind each of them.
* `mallocLoop_spec`, `lfreeLoop_spec`: the loops end.
-/

namespace RtBoot

namespace SmallMem

/-! ### What is left alone -/

/-- Nothing in front of `p` changes, and the heap stays where it is. -/
structure Below (h h' : SystemHeap) (p : ℕ) : Prop where
  byte : ∀ i < p, h'.byte i = h.byte i
  heapPtr : h'.heapPtr = h.heapPtr
  memSizeAligned : h'.memSizeAligned = h.memSizeAligned

section
variable {h h' h'' : SystemHeap} {prev p q r : ℕ} {b : Block} {xs ys ys' : List Block}

theorem Below.refl (h : SystemHeap) (p : ℕ) : Below h h p :=
  ⟨fun _ _ => rfl, rfl, rfl⟩

theorem Below.trans (h₁ : Below h h' p) (h₂ : Below h' h'' q) (hpq : p ≤ q) : Below h h'' p where
  byte i hi := by rw [h₂.byte i (by omega), h₁.byte i hi]
  heapPtr := h₂.heapPtr.trans h₁.heapPtr
  memSizeAligned := h₂.memSizeAligned.trans h₁.memSizeAligned

theorem below_setMem {mem : HeapMem} (hr : r + 12 ≤ 2 ^ 32) (hp : p ≤ r) :
    Below h (h.setMem r mem) p where
  byte i hi := SystemHeap.byte_setMem hr (by omega) (.inl (by omega))
  heapPtr := rfl
  memSizeAligned := rfl

theorem below_lfree (l p : ℕ) : Below h { h with lfree := l } p :=
  ⟨fun _ _ => rfl, rfl, rfl⟩

theorem Below.addUsed (hb : Below h h' p) (n : ℕ) : Below h (h'.addUsed n) p :=
  ⟨hb.byte, hb.heapPtr, hb.memSizeAligned⟩

theorem Below.heapEnd (hb : Below h h' p) : h'.heapEnd = h.heapEnd := by
  rw [SystemHeap.heapEnd, hb.memSizeAligned, SystemHeap.heapEnd]

/-- The blocks in front stay as they are. -/
theorem Below.append {mid : ℕ} (hb : Below h h' (total xs)) (hs : Seg h 0 0 xs mid (total xs))
    (ht : Tail h' mid (total xs) ys) : Tail h' 0 0 (xs ++ ys) :=
  tail_append_zero.mpr ⟨mid, hs.congr (fun i _ hlt => hb.byte i hlt) hb.heapPtr, ht⟩

theorem Tail.bounds (ht : Tail h prev p (b :: ys)) : p + b.size ≤ h.heapEnd ∧ 24 ≤ b.size := by
  rw [tail_cons] at ht
  have := ht.2.eq_add
  exact ⟨by omega, ht.1.size_ge⟩

/-- At the end of the heap there is no block that could have another one in front. -/
theorem Tail.of_eq_heapEnd (ht : Tail h prev p ys) (hp : p = h.heapEnd) (prev' : ℕ) :
    Tail h prev' p ys := by
  cases ys with
  | nil => exact tail_nil.mpr (tail_nil.mp ht)
  | cons b ys =>
      have := ht.bounds
      omega

/-- The list of blocks depends on the memory alone. -/
theorem Tail.of_eq (ht : Tail h prev p ys) (hmem : h'.memory = h.memory)
    (hptr : h'.heapPtr = h.heapPtr) (hsize : h'.memSizeAligned = h.memSizeAligned) :
    Tail h' prev p ys := by
  refine ht.congr (fun i _ _ => ?_) hptr ?_
  · rw [SystemHeap.byte, SystemHeap.byte, hmem, hptr]
  · rw [SystemHeap.heapEnd, hsize, SystemHeap.heapEnd]

end

/-! ### Joining -/

section
variable {h : SystemHeap} {prev p m n : ℕ} {xs ys : List Block}

theorem joinBlocks_spec (ht : Tail h prev p (.free m :: .free n :: ys))
    (hend : h.heapEnd + 12 ≤ 2 ^ 32) :
    Tail (joinBlocks h p (p + m)) prev p (.free (m + n) :: ys) ∧
      Below h (joinBlocks h p (p + m)) p := by
  simp only [tail_cons, Block.size_free] at ht
  obtain ⟨hb, hb', ht⟩ := ht
  have hsum := ht.eq_add
  have hm := hb.size_ge
  have hn := hb'.size_ge
  rw [Block.size_free] at hm hn
  have hnext : (h.mem (p + m)).next = p + m + n := hb'.next_mem
  have hfirst : BlockAt (h.setMem p { h.mem p with next := p + m + n }) prev p
      (.free (m + n)) := by
    refine blockAt_setMem ?_ ?_ (Nat.dvd_add hb.aligned hb'.aligned) ?_ hb.prev_lt ?_
    · rw [hb.header, Block.size_free, Nat.add_assoc]
      rfl
    · rw [Block.size_free]; omega
    · intro i c hc
      simp [Block.content] at hc
    · rw [Block.size_free]; omega
  have htail : Tail (h.setMem p { h.mem p with next := p + m + n }) (p + m) (p + m + n) ys :=
    ht.setMem hend (by omega)
  rw [joinBlocks, hnext]
  dsimp only
  refine ⟨?_, ?_⟩
  · rw [tail_cons, Block.size_free, ← Nat.add_assoc]
    refine ⟨hfirst.setMem (by omega) ?_ (.inr ?_), htail.relink hend (by omega)⟩
    · rw [Block.size_free]; omega
    · rw [Block.size_free]; omega
  · exact (below_setMem (by omega) (le_refl p)).trans
      (below_setMem (by omega) (by omega)) (le_refl p)

/-- `plug_holes` looks at the block behind. -/
theorem plugForward_free (ht : Tail h prev p (.free m :: .free n :: ys)) :
    plugForward h p =
      joinBlocks (if h.lfree = p + m then { h with lfree := p } else h) p (p + m) := by
  have hlt := (tail_cons.mp ht).2.bounds
  simp only [tail_cons, Block.size_free] at ht hlt
  obtain ⟨hb, hb', ht⟩ := ht
  have hm := hb.size_ge
  have hnext : (h.mem p).next = p + m := hb.next_mem
  rw [Block.size_free] at hm
  rw [plugForward, hnext, if_pos ⟨by omega, hb'.used_mem, by omega⟩]

theorem plugForward_of_used (ht : Tail h prev p (.free m :: ys))
    (hys : ∀ n, ys.head? ≠ some (.free n)) : plugForward h p = h := by
  obtain ⟨hb, ht⟩ := tail_cons.mp ht
  have hnext : (h.mem p).next = p + m := hb.next_mem
  rw [plugForward, hnext]
  refine if_neg ?_
  rintro ⟨-, hused, hne⟩
  match ys with
  | [] => exact hne (tail_nil.mp ht).1
  | .free n :: ys => exact hys n rfl
  | .used c :: ys =>
      rw [Block.size_free, tail_cons] at ht
      exact Block.flag_used_ne c (ht.1.used_mem ▸ hused)

/-- `plug_holes` looks at the block in front. -/
theorem plugBackward_free (ht : Tail h prev p (.free m :: .free n :: ys)) :
    plugBackward h (p + m) =
      joinBlocks (if h.lfree = p + m then { h with lfree := p } else h) p (p + m) := by
  simp only [tail_cons, Block.size_free] at ht
  obtain ⟨hb, hb', -⟩ := ht
  have hm := hb.size_ge
  rw [Block.size_free] at hm
  rw [plugBackward, hb'.prev_mem, if_pos ⟨by omega, hb.used_mem⟩]

theorem plugBackward_of_used (ht : Tail h 0 0 (xs ++ .free m :: ys))
    (hxs : ∀ n, xs.getLast? ≠ some (.free n)) : plugBackward h (total xs) = h := by
  obtain ⟨prev, hs, ht⟩ := tail_append_zero.mp ht
  rw [plugBackward, (tail_cons.mp ht).1.prev_mem]
  refine if_neg ?_
  rintro ⟨hne, hused⟩
  -- the first block has no other one in front; it is its own predecessor
  rcases List.eq_nil_or_concat xs with rfl | ⟨xs, b, rfl⟩
  · exact hne hs.1
  · rw [List.concat_eq_append] at hs hxs
    obtain ⟨mid, -, hb, hlast, -⟩ := seg_append.mp hs
    rw [Nat.zero_add] at hb hlast
    rw [hlast, hb.used_mem] at hused
    cases b with
    | free n => exact hxs n (by simp)
    | used c => exact Block.flag_used_ne c hused

/-- Free blocks `bs` have been joined to `bs'`. -/
structure Joins (h h' : SystemHeap) (bs bs' : List Block) : Prop where
  tail : Tail h' 0 0 bs'
  lowFree : LowFree bs' h'.lfree
  live : live 0 bs' = live 0 bs
  below : Below h h' 0

/-- Joins of free blocks compose. -/
theorem Joins.trans {h' h'' : SystemHeap} {bs bs' bs'' : List Block} (h₁ : Joins h h' bs bs')
    (h₂ : Joins h' h'' bs' bs'') : Joins h h'' bs bs'' :=
  ⟨h₂.tail, h₂.lowFree, h₂.live.trans h₁.live, h₁.below.trans h₂.below (le_refl 0)⟩

/-- Both halves of `plug_holes` join two blocks this way. -/
theorem joins_joinBlocks (ht : Tail h 0 0 (xs ++ .free m :: .free n :: ys))
    (hend : h.heapEnd + 12 ≤ 2 ^ 32) (hl : LowFree (xs ++ .free m :: .free n :: ys) h.lfree) :
    Joins h
      (joinBlocks (if h.lfree = total xs + m then { h with lfree := total xs } else h) (total xs)
        (total xs + m))
      (xs ++ .free m :: .free n :: ys) (xs ++ .free (m + n) :: ys) := by
  set h' : SystemHeap := if h.lfree = total xs + m then { h with lfree := total xs } else h
    with hh'
  have hlfree : h'.lfree = if h.lfree = total xs + m then total xs else h.lfree := by
    rw [hh']
    split_ifs <;> rfl
  have hbelow : ∀ p, Below h h' p := by
    intro p
    rw [hh']
    split_ifs
    · exact below_lfree _ p
    · exact .refl h p
  have hmemory : h'.memory = h.memory := by
    rw [hh']
    split_ifs <;> rfl
  have ht' := ht.of_eq hmemory (hbelow 0).heapPtr (hbelow 0).memSizeAligned
  have hend' : h'.heapEnd + 12 ≤ 2 ^ 32 := by rwa [(hbelow 0).heapEnd]
  obtain ⟨mid, hxs, htail⟩ := tail_append_zero.mp ht'
  obtain ⟨htail, hjoin⟩ := joinBlocks_spec htail hend'
  refine ⟨hjoin.append hxs htail, ?_, ?_, ?_⟩
  · have hsame : (joinBlocks h' (total xs) (total xs + m)).lfree = h'.lfree := rfl
    rw [hsame, hlfree]
    exact hl.join
  · simp [Nat.add_assoc]
  · exact (hbelow 0).trans hjoin (Nat.zero_le _)

/-- The first half leaves no free block behind. -/
theorem plugForward_spec (ht : Tail h 0 0 (xs ++ .free m :: ys)) (hend : h.heapEnd + 12 ≤ 2 ^ 32)
    (hl : LowFree (xs ++ .free m :: ys) h.lfree) (hys : Merged ys) :
    ∃ m' ys', Joins h (plugForward h (total xs)) (xs ++ .free m :: ys) (xs ++ .free m' :: ys') ∧
      Merged ys' ∧ ∀ n, ys'.head? ≠ some (.free n) := by
  obtain ⟨mid, -, htail⟩ := tail_append_zero.mp ht
  by_cases hhead : ∀ n, ys.head? ≠ some (.free n)
  · rw [plugForward_of_used htail hhead]
    exact ⟨m, ys, ⟨ht, hl, rfl, .refl h 0⟩, hys, hhead⟩
  · push Not at hhead
    obtain ⟨n, hn⟩ := hhead
    obtain ⟨ys, rfl⟩ := List.head?_eq_some_iff.mp hn
    rw [plugForward_free htail]
    obtain ⟨hys, hhead⟩ := merged_free.mp hys
    exact ⟨m + n, ys, joins_joinBlocks ht hend hl, hys, hhead⟩

/-- The second half leaves no free block in front. -/
theorem plugBackward_spec (ht : Tail h 0 0 (xs ++ .free m :: ys)) (hend : h.heapEnd + 12 ≤ 2 ^ 32)
    (hl : LowFree (xs ++ .free m :: ys) h.lfree) (hxs : Merged xs) :
    ∃ xs' m', Joins h (plugBackward h (total xs)) (xs ++ .free m :: ys) (xs' ++ .free m' :: ys) ∧
      Merged xs' ∧ ∀ n, xs'.getLast? ≠ some (.free n) := by
  by_cases hlast : ∀ n, xs.getLast? ≠ some (.free n)
  · rw [plugBackward_of_used ht hlast]
    exact ⟨xs, m, ⟨ht, hl, rfl, .refl h 0⟩, hxs, hlast⟩
  · push Not at hlast
    obtain ⟨n, hn⟩ := hlast
    obtain ⟨xs, rfl⟩ := List.getLast?_eq_some_iff.mp hn
    rw [List.append_assoc, List.singleton_append] at ht hl ⊢
    obtain ⟨mid, -, htail⟩ := tail_append_zero.mp ht
    rw [total_append, total_cons, total_nil, Block.size_free, Nat.add_zero,
      plugBackward_free htail]
    obtain ⟨hxs, -, hlast, -⟩ := merged_append_free.mp hxs
    exact ⟨xs, n + m, joins_joinBlocks ht hend hl, hxs, hlast⟩

/-- `plug_holes` joins the block with the free blocks next to it. -/
theorem plugHoles_spec (ht : Tail h 0 0 (xs ++ .free m :: ys)) (hend : h.heapEnd + 12 ≤ 2 ^ 32)
    (hl : LowFree (xs ++ .free m :: ys) h.lfree) (hxs : Merged xs) (hys : Merged ys) :
    ∃ bs, Joins h (plugHoles h (total xs)) (xs ++ .free m :: ys) bs ∧ Merged bs := by
  obtain ⟨m', ys', hforward, hys', hhead⟩ := plugForward_spec ht hend hl hys
  have hend' : (plugForward h (total xs)).heapEnd + 12 ≤ 2 ^ 32 := by
    rwa [hforward.below.heapEnd]
  obtain ⟨xs', m'', hbackward, hxs', hlast⟩ :=
    plugBackward_spec hforward.tail hend' hforward.lowFree hxs
  exact ⟨_, hforward.trans hbackward, merged_append_free.mpr ⟨hxs', hys', hlast, hhead⟩⟩

end

/-! ### Splitting -/

/-- The first part of a block that is split behind `size` bytes of data. -/
def Block.shrink (size : ℕ) : Block → Block
  | .free _ => .free (sizeofStructMem + size)
  | .used c => .used (c.take size)

section
variable {h : SystemHeap} {prev p size n : ℕ} {b : Block} {xs ys : List Block}

theorem Block.size_shrink (hsize : sizeofStructMem + size ≤ b.size) :
    (b.shrink size).size = 16 + size := by
  cases b with
  | free n => rfl
  | used c =>
      rw [Block.size, Nat.add_le_add_iff_left] at hsize
      rw [Block.shrink, Block.size_used, List.length_take, Nat.min_eq_left hsize]

theorem Block.flag_shrink : (b.shrink size).flag = b.flag := by
  cases b <;> rfl

theorem Block.content_shrink : (b.shrink size).content = b.content.take size := by
  cases b with
  | free n => exact (List.take_nil).symm
  | used c => rfl

/-- A block is split: what is left behind `size` bytes of data is a free block. -/
theorem splitBlock_spec (ht : Tail h prev p (b :: ys)) (hend : h.heapEnd + 12 ≤ 2 ^ 32)
    (hdvd : 8 ∣ size) (hpos : 0 < size) (hfit : size + 40 ≤ b.size) :
    Tail (splitBlock h p size) prev p (b.shrink size :: .free (b.size - (16 + size)) :: ys) ∧
      Below h (splitBlock h p size) p := by
  obtain ⟨hb, ht⟩ := tail_cons.mp ht
  have hsum := ht.eq_add
  have hshrink : (b.shrink size).size = 16 + size := b.size_shrink (by rw [sizeofStructMem]; omega)
  have hrest : (Block.free (b.size - (16 + size))).size = b.size - (16 + size) := rfl
  have hptr₂ : p + sizeofStructMem + size = p + (16 + size) := Nat.add_assoc p 16 size
  -- the header of what is left
  set h₁ := h.setMem (p + (16 + size)) ⟨heapMagic, 0, p + b.size, p⟩ with hh₁
  have hsecond : BlockAt h₁ p (p + (16 + size)) (.free (b.size - (16 + size))) := by
    refine blockAt_setMem ?_ (by omega) ?_ (fun i c hc => by simp [Block.content] at hc)
      (by omega) (by omega)
    · rw [hrest, show p + (16 + size) + (b.size - (16 + size)) = p + b.size by omega]
      rfl
    · exact Nat.dvd_sub hb.aligned (Nat.dvd_add (by decide) hdvd)
  -- the header of the block itself
  have hmem : h₁.mem p = h.mem p :=
    SystemHeap.mem_setMem_of_far (by omega) (by omega) (.inl (by omega))
  set h₂ := h₁.setMem p { h₁.mem p with next := p + (16 + size) } with hh₂
  have hfirst : BlockAt h₂ prev p (b.shrink size) := by
    refine blockAt_setMem ?_ (by omega) ?_ (fun i c hc => ?_) hb.prev_lt (by omega)
    · rw [hmem, hb.header, Block.flag_shrink, hshrink]
    · rw [hshrink]
      exact Nat.dvd_add (by decide) hdvd
    · rw [Block.content_shrink] at hc
      have hi : i < size := by
        have := (List.getElem?_eq_some_iff.mp hc).1
        rw [List.length_take] at this
        omega
      rw [List.getElem?_take_of_lt hi] at hc
      rw [hh₁, SystemHeap.byte_setMem (by omega) (by omega) (.inl (by omega))]
      exact hb.content i c hc
  have hsecond₂ : BlockAt h₂ p (p + (16 + size)) (.free (b.size - (16 + size))) :=
    hsecond.setMem (by omega) (by omega) (.inl (by omega))
  have ht₂ : Tail h₂ p (p + b.size) ys :=
    (ht.setMem hend (by omega)).setMem hend (by omega)
  have hbelow : Below h h₂ p :=
    (below_setMem (by omega) (by omega)).trans (below_setMem (by omega) (le_refl p)) (le_refl p)
  have hsplit : splitBlock h p size =
      if p + b.size ≠ h.heapEnd then
        h₂.setMem (p + b.size) { h₂.mem (p + b.size) with prev := p + (16 + size) }
      else h₂ := by
    rw [splitBlock, hb.next_mem, hptr₂]
    rfl
  rw [hsplit, tail_cons, tail_cons, hshrink, hrest,
    show p + (16 + size) + (b.size - (16 + size)) = p + b.size by omega]
  by_cases hlast : p + b.size = h.heapEnd
  · rw [if_neg (not_not.mpr hlast)]
    exact ⟨⟨hfirst, hsecond₂, ht₂.of_eq_heapEnd hlast _⟩, hbelow⟩
  · rw [if_pos hlast]
    refine ⟨⟨?_, ?_, ht₂.relink hend (by omega)⟩, ?_⟩
    · exact hfirst.setMem (by omega) (by omega) (.inr (by omega))
    · exact hsecond₂.setMem (by omega) (by omega) (.inr (by omega))
    · exact hbelow.trans (below_setMem (by omega) (by omega)) (le_refl p)

theorem lfree_splitBlock : (splitBlock h p size).lfree = h.lfree := by
  rw [splitBlock]
  dsimp only
  split_ifs <;> rfl

/-! ### Taking -/

/-- A free block is marked as used. Its content is what stands there. -/
theorem blockAt_markUsed (hb : BlockAt h prev p (.free n)) (hn : p + n < 2 ^ 32) :
    BlockAt (h.setMem p { h.mem p with used := 1, magic := heapMagic }) prev p
      (.used (readBytes h.memory (addr h.heapPtr (p + 16)) (n - 16))) := by
  have hsize : (Block.used (readBytes h.memory (addr h.heapPtr (p + 16)) (n - 16))).size = n := by
    have := hb.size_ge
    rw [Block.size_free] at this
    rw [Block.size_used, length_readBytes]
    omega
  refine blockAt_setMem ?_ ?_ ?_ (fun i c hc => ?_) hb.prev_lt ?_
  · rw [hb.header, hsize]
    rfl
  · rw [hsize]; exact hb.size_ge
  · rw [hsize]; exact hb.aligned
  · rw [Block.content, getElem?_readBytes] at hc
    split_ifs at hc with hi
    rw [SystemHeap.byte, sizeofStructMem, ← addr_addr]
    exact Option.some.inj hc
  · rwa [hsize]

theorem tail_markUsed (ht : Tail h prev p (.free n :: ys)) (hend : h.heapEnd + 12 ≤ 2 ^ 32) :
    Tail (h.setMem p { h.mem p with used := 1, magic := heapMagic }) prev p
      (.used (readBytes h.memory (addr h.heapPtr (p + 16)) (n - 16)) :: ys) := by
  have hbounds := ht.bounds
  rw [Block.size_free] at hbounds
  obtain ⟨hb, ht⟩ := tail_cons.mp ht
  rw [Block.size_free] at ht
  rw [tail_cons, Block.size_used, length_readBytes, show 16 + (n - 16) = n by omega]
  exact ⟨blockAt_markUsed hb (by omega), ht.setMem hend (by omega)⟩

/-- A free block is taken, and split if a block is left. -/
theorem takeBlock_spec (ht : Tail h prev p (.free n :: ys)) (hend : h.heapEnd + 12 ≤ 2 ^ 32)
    (hdvd : 8 ∣ size) (hpos : 0 < size) (hfit : size + 16 ≤ n) :
    ∃ c rest, Tail (takeBlock h p size) prev p (.used c :: (rest ++ ys)) ∧
      size ≤ c.length ∧ total (.used c :: rest) = n ∧ (rest = [] ∨ ∃ k, rest = [.free k]) ∧
      Below h (takeBlock h p size) p ∧ (takeBlock h p size).lfree = h.lfree := by
  have hbounds := ht.bounds
  rw [Block.size_free] at hbounds
  have hnext : (h.mem p).next = p + n := (tail_cons.mp ht).1.next_mem
  have hroom : p + n - (p + sizeofStructMem) = n - 16 := by rw [sizeofStructMem]; omega
  by_cases hsplit : n - 16 ≥ size + sizeofStructMem + minSizeAligned
  · have hsplit' : size + 40 ≤ n := by
      rw [sizeofStructMem, minSizeAligned] at hsplit
      omega
    obtain ⟨ht', hbelow⟩ := splitBlock_spec ht hend hdvd hpos hsplit'
    set h' := splitBlock h p size
    have hend' : h'.heapEnd + 12 ≤ 2 ^ 32 := by rwa [hbelow.heapEnd]
    have htake : takeBlock h p size =
        (h'.setMem p { h'.mem p with used := 1, magic := heapMagic }).addUsed
          (size + sizeofStructMem) := by
      rw [takeBlock, hnext, hroom, if_pos hsplit]
    rw [htake]
    refine ⟨readBytes h'.memory (addr h'.heapPtr (p + 16)) (16 + size - 16),
      [.free (n - (16 + size))], (tail_markUsed ht' hend').of_eq rfl rfl rfl, ?_, ?_,
      .inr ⟨_, rfl⟩, ?_, ?_⟩
    · rw [length_readBytes]
      omega
    · simp only [total_cons, total_nil, Block.size_used, Block.size_free, length_readBytes]
      omega
    · exact (hbelow.trans (below_setMem (by omega) (le_refl p)) (le_refl p)).addUsed _
    · exact lfree_splitBlock
  · have htake : takeBlock h p size =
        (h.setMem p { h.mem p with used := 1, magic := heapMagic }).addUsed (p + n - p) := by
      rw [takeBlock, hnext, hroom, if_neg hsplit]
    rw [htake]
    refine ⟨readBytes h.memory (addr h.heapPtr (p + 16)) (n - 16), [],
      (tail_markUsed ht hend).of_eq rfl rfl rfl, ?_, ?_, .inl rfl, ?_, rfl⟩
    · rw [length_readBytes]
      omega
    · simp only [total_cons, total_nil, Block.size_used, length_readBytes]
      omega
    · exact (below_setMem (by omega) (le_refl p)).addUsed _

end

/-! ### Searching -/

section
variable {h : SystemHeap} {prev p size fuel : ℕ} {bs : List Block}

/-- The loop that moves `lfree` on ends at a free block or at the end of the heap. -/
theorem lfreeLoop_spec (ht : Tail h prev p bs) (hfuel : bs.length < fuel) :
    ∃ l, lfreeLoop h fuel p = some (p + l) ∧ (FreeAt bs l ∨ l = total bs) := by
  induction bs generalizing prev p fuel with
  | nil =>
      obtain ⟨fuel, rfl⟩ := Nat.exists_eq_add_of_lt hfuel
      refine ⟨0, ?_, .inr rfl⟩
      rw [List.length_nil, Nat.zero_add, lfreeLoop, if_neg, Nat.add_zero]
      exact fun hne => hne.2 (tail_nil.mp ht).1
  | cons b bs ih =>
      obtain ⟨fuel, rfl⟩ : ∃ k, fuel = k + 1 := ⟨fuel - 1, by omega⟩
      have hbounds := ht.bounds
      obtain ⟨hb, ht⟩ := tail_cons.mp ht
      rw [lfreeLoop, hb.used_mem]
      cases b with
      | free n => exact ⟨0, if_neg fun hne => hne.1 rfl, .inl (.here n bs)⟩
      | used c =>
          rw [if_pos ⟨Block.flag_used_ne c, by omega⟩, hb.next_mem]
          obtain ⟨l, hl, hfree⟩ := ih ht (by simpa using hfuel)
          refine ⟨(Block.used c).size + l, by rw [hl, Nat.add_assoc], ?_⟩
          exact hfree.imp (.there _) fun hl => by rw [hl, total_cons]

/-- The loop that looks for a block ends. It finds the first free block with room for `size` bytes
that starts below `mem_size_aligned - size`. -/
theorem mallocLoop_spec (ht : Tail h prev p bs) (hfuel : bs.length < fuel)
    (hsize : size ≤ h.memSizeAligned) (hend : h.heapEnd ≤ 2 ^ 32) :
    (∃ xs n ys, bs = xs ++ .free n :: ys ∧ size + 16 ≤ n ∧
      mallocLoop h size fuel p = some (some (p + total xs))) ∨
    mallocLoop h size fuel p = some none ∧
      ∀ xs n ys, bs = xs ++ .free n :: ys → size + 16 ≤ n →
        h.memSizeAligned ≤ p + total xs + size := by
  have hbound : (h.memSizeAligned + 2 ^ 32 - size) % 2 ^ 32 = h.memSizeAligned - size := by
    rw [SystemHeap.heapEnd, sizeofStructMem] at hend
    omega
  induction bs generalizing prev p fuel with
  | nil =>
      obtain ⟨fuel, rfl⟩ : ∃ k, fuel = k + 1 := ⟨fuel - 1, by omega⟩
      right
      refine ⟨?_, fun xs n ys hbs => by simp at hbs⟩
      have hp : p = h.memSizeAligned + 16 := (tail_nil.mp ht).1
      rw [mallocLoop, hbound, if_neg (by omega)]
  | cons b bs ih =>
      obtain ⟨fuel, rfl⟩ : ∃ k, fuel = k + 1 := ⟨fuel - 1, by omega⟩
      have hbounds := ht.bounds
      obtain ⟨hb, ht⟩ := tail_cons.mp ht
      rw [mallocLoop, hbound]
      by_cases hlt : p < h.memSizeAligned - size
      · rw [if_pos hlt]
        dsimp only
        rw [hb.used_mem, hb.next_mem]
        by_cases hfit : b.flag = 0 ∧ p + b.size - (p + sizeofStructMem) ≥ size
        · left
          cases b with
          | free n =>
              refine ⟨[], n, bs, rfl, ?_, if_pos hfit⟩
              have := hfit.2
              rw [Block.size_free, sizeofStructMem] at this
              rw [Block.size_free] at hbounds
              omega
          | used c => exact absurd hfit.1 (Block.flag_used_ne c)
        · rw [if_neg hfit]
          rcases ih ht (by simpa using hfuel) with ⟨xs, n, ys, rfl, hn, hloop⟩ | ⟨hloop, hnone⟩
          · left
            exact ⟨b :: xs, n, ys, rfl, hn, by rw [hloop, total_cons, Nat.add_assoc]⟩
          · right
            refine ⟨hloop, fun xs n ys hbs hn => ?_⟩
            cases xs with
            | nil =>
                obtain ⟨rfl, rfl⟩ := List.cons.inj hbs
                refine absurd ⟨rfl, ?_⟩ hfit
                rw [Block.size_free, sizeofStructMem]
                omega
            | cons b' xs =>
                obtain ⟨rfl, rfl⟩ := List.cons.inj hbs
                have := hnone xs n ys rfl hn
                rw [total_cons]
                omega
      · right
        refine ⟨if_neg hlt, fun xs n ys hbs hn => by omega⟩

end

end SmallMem

end RtBoot
