import RtBoot.SmallMemOwner

/-!
# Runs of the System Heap

The heap of `mem.c` refines the allocator of `Owner.Step`: from every state that a run of calls
reaches, each call ends and does one of the steps. A run is any sequence of legal calls of any
number of threads on a heap of at least 16 bytes, with stores to the memory they own in between.
Legal is not a size above `2 ^ 32 - 8`, which is rounded up to zero, nor for `rt_calloc` such a
product. `rt_realloc` gives the semaphore back between its parts; the parts by themselves are the
calls and the store it consists of.

## Main results

* `call_refines`: every call of a run is a step of the allocator.
* `run_owned`: what is owned lies in the heap and apart, and can be freed.
* `run_keeps`: what a run does not name stays in memory.
* `run_all_freed`: when nothing is owned, the heap is as it was at the beginning.
-/

namespace RtBoot

namespace SmallMem

/-! ### Calls -/

/-- A call, as the code does it. A store goes to memory. -/
def call (h : SystemHeap) (fuel : ℕ) : Call → Option (SystemHeap × BitVec 32)
  | .malloc size => rtMalloc h fuel size
  | .calloc count size => rtCalloc h fuel count size
  | .realloc rmem newsize => rtRealloc h fuel rmem newsize
  | .free rmem => some ((rtFree h rmem).1, 0)
  | .store p i bs => some (h.write (addr p i) bs, 0)

/-- The heap consists of blocks. -/
def Sound (h : SystemHeap) : Prop :=
  ∃ bs, Consistent h bs

/-- A call is a step of the allocator, and the heap is sound behind it. -/
structure Refines (h : SystemHeap) (c : Call) (h' : SystemHeap) (p : BitVec 32) : Prop where
  step : (owner h).Step c p (owner h')
  sound : Sound h'
  place : SamePlace h h'

section
variable {h h' : SystemHeap} {fuel : ℕ} {bs : List Block} {p size newsize rmem : BitVec 32}
  {c d : List (BitVec 8)}

theorem Refines.unchanged (hs : Sound h) {c : Call} (hstep : (owner h).Step c 0 (owner h)) :
    Refines h c h 0 :=
  ⟨hstep, hs, rfl, rfl⟩

/-- `rt_malloc` finds no block, or it hands out a fresh one. -/
theorem Sound.alloc (hs : Sound h) (hfuel : h.heapEnd ≤ fuel) (hsize : size ≠ 0) :
    rtMalloc h fuel size = some (h, 0) ∨
    ∃ h' p c, rtMalloc h fuel size = some (h', p) ∧ roundUp size ≤ c.length ∧
      (owner h).Fresh p c.length ∧ owner h' = Function.update (owner h) p (some c) ∧ Sound h' ∧
      SamePlace h h' := by
  obtain ⟨bs, hc⟩ := hs
  rcases hc.malloc hfuel hsize with
    ⟨hnull, -⟩ | ⟨h', xs, c, ys, hp, hc', hplace, hlen, hlive, -⟩
  · exact .inl hnull
  · obtain ⟨hinsert, hfresh⟩ := hc'.insert live_append_used
    rw [hplace.heapPtr, ← hlive, ← hc.owner_eq] at hinsert hfresh
    exact .inr ⟨h', _, c, hp, hlen, hfresh, hinsert, ⟨_, hc'⟩, hplace⟩

/-- A block stays where it is, and has another size or other contents. -/
theorem Consistent.replace {bs' : List Block} {A B : List (ℕ × List (BitVec 8))} {q : ℕ}
    (hc : Consistent h bs) (hc' : Consistent h' bs') (hplace : SamePlace h h')
    (hlive : live 0 bs = A ++ (q, c) :: B) (hlive' : live 0 bs' = A ++ (q, d) :: B) :
    owner h' = Function.update (Function.update (owner h) (addr h.heapPtr q) none)
        (addr h.heapPtr q) (some d) ∧
      Owner.Fresh (Function.update (owner h) (addr h.heapPtr q) none) (addr h.heapPtr q)
        d.length := by
  have hinsert := hc'.insert hlive'
  rwa [hplace.heapPtr, hc.remove hlive] at hinsert

/-- A store to a block that is owned. -/
theorem Sound.store {i : ℕ} {bytes : List (BitVec 8)} (hs : Sound h) (hp : owner h p = some c)
    (hfit : i + bytes.length ≤ c.length) :
    owner (h.write (addr p i) bytes) = Function.update (owner h) p (some (splice c i bytes)) ∧
      Sound (h.write (addr p i) bytes) := by
  obtain ⟨bs, hc⟩ := hs
  obtain ⟨xs, ys, rfl, rfl⟩ := hc.exists_block hp
  have hc' := hc.store hfit
  have hlive : live 0 (xs ++ .used (splice c i bytes) :: ys) = _ := live_append_used
  rw [length_splice hfit] at hlive
  obtain ⟨hreplace, -⟩ := hc.replace hc' ⟨rfl, rfl⟩ live_append_used hlive
  rw [Function.update_idem] at hreplace
  exact ⟨hreplace, _, hc'⟩

theorem length_append_drop (hd : d.length ≤ c.length) :
    (d ++ c.drop d.length).length = c.length := by
  rw [List.length_append, List.length_drop, Nat.add_sub_cancel' hd]

/-- A new block is filled from its beginning. -/
theorem Sound.fill {o : Owner} (hs : Sound h) (ho : owner h = Function.update o p (some c))
    (hd : d.length ≤ c.length) :
    owner (h.write p d) = Function.update o p (some (d ++ c.drop d.length)) ∧
      Sound (h.write p d) := by
  have hfit : 0 + d.length ≤ c.length := by rwa [Nat.zero_add]
  have hstore := hs.store (by rw [ho, Function.update_self]) hfit
  rwa [addr_zero, ho, Function.update_idem, splice, List.take_zero, List.nil_append,
    Nat.zero_add] at hstore

/-- `rt_malloc` returns, as a step of the allocator. -/
theorem Sound.malloc (hs : Sound h) (hfuel : h.heapEnd ≤ fuel) (hsize : size.toNat ≤ 2 ^ 32 - 8) :
    ∃ h' p, rtMalloc h fuel size = some (h', p) ∧ Refines h (.malloc size) h' p := by
  by_cases hzero : size = 0
  · exact ⟨h, 0, if_pos hzero, .unchanged hs (.mallocNull _ _)⟩
  rcases hs.alloc hfuel hzero with hmalloc | ⟨h', p, c, hmalloc, hlen, hfresh, howner, hs', hplace⟩
  · exact ⟨h, 0, hmalloc, .unchanged hs (.mallocNull _ _)⟩
  · refine ⟨h', p, hmalloc, ?_, hs', hplace⟩
    rw [howner]
    exact .malloc ((le_roundUp hsize).trans hlen) hfresh

/-- `rt_calloc` returns, as a step of the allocator. -/
theorem Sound.calloc (hs : Sound h) (hfuel : h.heapEnd ≤ fuel) {count : BitVec 32}
    (hsize : count.toNat * size.toNat ≤ 2 ^ 32 - 8) :
    ∃ h' p, rtCalloc h fuel count size = some (h', p) ∧
      Refines h (.calloc count size) h' p := by
  have hmul : (count * size).toNat = count.toNat * size.toNat := by
    rw [BitVec.toNat_mul]
    exact Nat.mod_eq_of_lt (by omega)
  have hnull : rtMalloc h fuel (count * size) = some (h, 0) →
      rtCalloc h fuel count size = some (h, 0) := by
    intro hmalloc
    rw [rtCalloc, hmalloc]
    rfl
  by_cases hzero : count * size = 0
  · exact ⟨h, 0, hnull (if_pos hzero), .unchanged hs (.callocNull _ _ _)⟩
  rcases hs.alloc hfuel hzero with hmalloc | ⟨h', p, c, hmalloc, hlen, hfresh, howner, hs', hplace⟩
  · exact ⟨h, 0, hnull hmalloc, .unchanged hs (.callocNull _ _ _)⟩
  · set zeros := List.replicate (count * size).toNat (0 : BitVec 8) with hzeros
    have hlength : zeros.length = count.toNat * size.toNat := by
      rw [hzeros, List.length_replicate, hmul]
    have hfit : zeros.length ≤ c.length := by
      rw [hlength, ← hmul]
      exact (le_roundUp (hmul ▸ hsize)).trans hlen
    obtain ⟨hfill, hs''⟩ := hs'.fill howner hfit
    refine ⟨h'.write p zeros, p, ?_, ?_, hs'', hplace.trans ⟨rfl, rfl⟩⟩
    · rw [rtCalloc, hmalloc]
      exact if_pos hfresh.ne_null
    · rw [hfill]
      refine .calloc ?_ (by rwa [length_append_drop hfit])
      rw [← hlength, List.take_left, hzeros, List.length_replicate]

theorem Sound.null (hs : Sound h) : owner h 0 = none := by
  by_contra hne
  obtain ⟨c, hp⟩ := Option.ne_none_iff_exists'.mp hne
  obtain ⟨bs, hc⟩ := hs
  obtain ⟨hle, -, -⟩ := hc.bounds_of_owner hp
  change h.heapPtr.toNat + 16 ≤ 0 at hle
  omega

/-- `rt_free` for an owner. It finds no bad data block. -/
theorem Sound.free (hs : Sound h) (hp : p = 0 ∨ (owner h p).isSome) :
    ∃ h', rtFree h p = (h', false) ∧ owner h' = Function.update (owner h) p none ∧ Sound h' ∧
      SamePlace h h' := by
  rcases hp with rfl | hp
  · refine ⟨h, if_pos rfl, ?_, hs, rfl, rfl⟩
    rw [← hs.null, Function.update_eq_self]
  · obtain ⟨c, hp⟩ := Option.isSome_iff_exists.mp hp
    obtain ⟨bs, hc⟩ := hs
    obtain ⟨xs, ys, rfl, rfl⟩ := hc.exists_block hp
    obtain ⟨h', bs', hfree, hc', hplace, hlive⟩ := hc.free
    refine ⟨h', hfree, ?_, ⟨bs', hc'⟩, hplace⟩
    rw [hc'.owner_eq, hlive, hplace.heapPtr, hc.remove live_append_used]

/-! ### `rt_realloc` -/

/-- A block is moved. What is copied of it stands in the new block after it has been released. -/
theorem Sound.realloc_move (hs : Sound h) (hfuel : h.heapEnd ≤ fuel)
    (hn : newsize.toNat ≤ 2 ^ 32 - 8) (hzero : newsize ≠ 0) (hd : owner h rmem = some d) :
    ∃ h' p, reallocMove h fuel d.length rmem (rtAlign newsize) = some (h', p) ∧
      Refines h (.realloc rmem newsize) h' p := by
  rcases hs.alloc hfuel (rtAlign_ne_zero hn hzero) with
    hmalloc | ⟨h₁, p, c, hmalloc, hlen, hfresh, howner, hs₁, hplace⟩
  · refine ⟨h, 0, ?_, .unchanged hs (.reallocNull _ hzero)⟩
    rw [reallocMove, hmalloc]
    rfl
  have halign := le_toNat_rtAlign hn
  have hroom := (le_roundUp (rtAlign_le newsize)).trans hlen
  have hne : rmem ≠ p := by
    rintro rfl
    cases hfresh.unowned.symm.trans hd
  have hd₁ : BytesAt h₁.memory rmem d := by
    obtain ⟨bs, hc⟩ := hs₁
    refine hc.bytesAt_owner ?_
    rw [howner, Function.update_of_ne hne, hd]
  have hread : readBytes h₁.memory rmem (min d.length (rtAlign newsize).toNat) =
      d.take (rtAlign newsize).toNat := by
    rw [hd₁.read_take (Nat.min_le_left _ _), Nat.min_comm, ← List.take_eq_take_min]
  have hfit : (d.take (rtAlign newsize).toNat).length ≤ c.length :=
    (List.length_take_le _ _).trans hroom
  obtain ⟨hfill, hs₂⟩ := hs₁.fill howner hfit
  obtain ⟨h₃, hfree, howner₃, hs₃, hplace₃⟩ := hs₂.free (p := rmem) (.inr (by
    rw [hfill, Function.update_of_ne hne, hd]
    rfl))
  refine ⟨h₃, p, ?_, ?_, hs₃, hplace.trans ⟨hplace₃.heapPtr, hplace₃.memSizeAligned⟩⟩
  · rw [reallocMove, hmalloc]
    simp only [Option.bind_eq_bind, Option.bind_some]
    rw [if_pos hfresh.ne_null, hread, hfree]
  · rw [howner₃, hfill, Function.update_comm hne.symm]
    have hlength := length_append_drop hfit
    refine .realloc hd (by omega) ?_ (hlength ▸ hfresh.release rmem)
    rw [List.take_append_of_le_length (by rw [List.length_take]; omega), List.take_take,
      Nat.min_eq_left (by omega)]

/-- What `rt_realloc` does with a block in use. -/
theorem rtRealloc_used {xs ys : List Block}
    (hc : Consistent h (xs ++ .used d :: ys)) (hlarge : (rtAlign newsize).toNat ≤ h.memSizeAligned)
    (hne : rtAlign newsize ≠ 0) :
    rtRealloc h fuel (addr h.heapPtr (total xs + 16)) newsize =
      if d.length = (rtAlign newsize).toNat then some (h, addr h.heapPtr (total xs + 16))
      else if (rtAlign newsize).toNat + sizeofStructMem + minSize < d.length then
        some (plugHoles (splitBlock
          { h with usedMem := h.usedMem - (d.length - (rtAlign newsize).toNat) } (total xs)
            (rtAlign newsize).toNat) (total xs + sizeofStructMem + (rtAlign newsize).toNat),
          addr h.heapPtr (total xs + 16))
      else
        reallocMove h fuel d.length (addr h.heapPtr (total xs + 16)) (rtAlign newsize) := by
  obtain ⟨hle, hlen, -, -⟩ := hc.bounds
  have hend := hc.placed.heapEnd_le
  obtain ⟨mid, -, htail⟩ := tail_append_zero.mp hc.tail
  have hnext := (tail_cons.mp htail).1.next_mem
  rw [rtRealloc]
  dsimp only
  rw [if_neg (Nat.not_lt.mpr hlarge), if_neg hne,
    if_neg (hc.placed.addr_ne_zero (by omega) (by omega)),
    if_neg (not_not.mpr (hc.placed.inHeap (by omega))), headerOf_addr (by omega), hnext,
    Nat.add_sub_cancel_left, Block.size, Nat.add_sub_cancel_left]

theorem Sound.realloc_owned (hs : Sound h) (hfuel : h.heapEnd ≤ fuel)
    (hn : newsize.toNat ≤ 2 ^ 32 - 8) (hzero : newsize ≠ 0)
    (hlarge : (rtAlign newsize).toNat ≤ h.memSizeAligned) (hd : owner h rmem = some d) :
    ∃ h' p, rtRealloc h fuel rmem newsize = some (h', p) ∧
      Refines h (.realloc rmem newsize) h' p := by
  have halign := le_toNat_rtAlign hn
  have hne := rtAlign_ne_zero hn hzero
  have hs₀ := hs
  obtain ⟨bs, hc⟩ := hs
  obtain ⟨xs, ys, rfl, rfl⟩ := hc.exists_block hd
  rw [rtRealloc_used hc hlarge hne]
  by_cases hsame : d.length = (rtAlign newsize).toNat
  · obtain ⟨hreplace, hfresh⟩ := hc.replace hc ⟨rfl, rfl⟩ live_append_used live_append_used
    refine ⟨h, _, if_pos hsame, ?_, hs₀, rfl, rfl⟩
    have hstep := Owner.Step.realloc hd (hsame ▸ halign) rfl hfresh
    rwa [← hreplace] at hstep
  rw [if_neg hsame]
  by_cases hshrink : (rtAlign newsize).toNat + sizeofStructMem + minSize < d.length
  · have hdvd := hc.bounds.2.2.1
    have hdvd' := dvd_rtAlign newsize
    have hpos : 0 < (rtAlign newsize).toNat := by
      rw [Nat.pos_iff_ne_zero]
      exact fun h => hne (BitVec.eq_of_toNat_eq h)
    rw [if_pos hshrink]
    rw [sizeofStructMem, minSize] at hshrink
    obtain ⟨h', bs', heq, hc', hplace, hlive⟩ := hc.shrink hdvd' hpos (by omega)
    obtain ⟨hreplace, hfresh⟩ := hc.replace hc' hplace live_append_used hlive
    refine ⟨h', _, by rw [heq], ?_, ⟨bs', hc'⟩, hplace⟩
    rw [hreplace]
    refine .realloc hd ?_ ?_ hfresh
    · rw [List.length_take]
      omega
    · rw [List.take_take, Nat.min_eq_left (by omega)]
  · rw [if_neg hshrink]
    exact hs₀.realloc_move hfuel hn hzero hd

/-- `rt_realloc` returns, as a step of the allocator. -/
theorem Sound.realloc (hs : Sound h) (hfuel : h.heapEnd ≤ fuel)
    (hn : newsize.toNat ≤ 2 ^ 32 - 8) (hp : rmem = 0 ∨ (owner h rmem).isSome) :
    ∃ h' p, rtRealloc h fuel rmem newsize = some (h', p) ∧
      Refines h (.realloc rmem newsize) h' p := by
  by_cases hzero : newsize = 0
  · subst hzero
    obtain ⟨h', hfree, howner, hs', hplace⟩ := hs.free hp
    refine ⟨h', 0, ?_, howner ▸ .reallocFree _ rmem, hs', hplace⟩
    rw [rtRealloc]
    dsimp only
    rw [if_neg (show ¬ h.memSizeAligned < (rtAlign 0).toNat from Nat.not_lt_zero _),
      if_pos (show rtAlign 0 = 0 from rfl), hfree]
  by_cases hlarge : h.memSizeAligned < (rtAlign newsize).toNat
  · exact ⟨h, 0, if_pos hlarge, .unchanged hs (.reallocNull _ hzero)⟩
  rcases hp with rfl | hp
  · have hnew : rtRealloc h fuel 0 newsize = rtMalloc h fuel (rtAlign newsize) := by
      rw [rtRealloc]
      dsimp only
      rw [if_neg hlarge, if_neg (rtAlign_ne_zero hn hzero), if_pos rfl]
    rcases hs.alloc hfuel (rtAlign_ne_zero hn hzero) with
      hmalloc | ⟨h', p, c, hmalloc, hlen, hfresh, howner, hs', hplace⟩
    · exact ⟨h, 0, hnew.trans hmalloc, .unchanged hs (.reallocNull _ hzero)⟩
    · refine ⟨h', p, hnew.trans hmalloc, ?_, hs', hplace⟩
      rw [howner]
      exact .reallocNew ((le_toNat_rtAlign hn).trans ((le_roundUp (rtAlign_le newsize)).trans hlen))
        hfresh
  · obtain ⟨d, hd⟩ := Option.isSome_iff_exists.mp hp
    exact hs.realloc_owned hfuel hn hzero (Nat.not_lt.mp hlarge) hd

/-! ### Runs -/

/-- Every legal call is a step of the allocator. -/
theorem Sound.call (hs : Sound h) (hfuel : h.heapEnd ≤ fuel) {c : Call}
    (hc : (owner h).Legal c) : ∃ h' p, call h fuel c = some (h', p) ∧ Refines h c h' p := by
  cases c with
  | malloc size => exact hs.malloc hfuel hc
  | calloc count size => exact hs.calloc hfuel hc
  | realloc rmem newsize => exact hs.realloc hfuel hc.1 hc.2
  | free rmem =>
      obtain ⟨h', hfree, howner, hs', hplace⟩ := hs.free hc
      refine ⟨h', 0, ?_, howner ▸ .free _ rmem, hs', hplace⟩
      rw [SmallMem.call, hfree]
  | store p i bs =>
      obtain ⟨c, hp, hfit⟩ := hc
      obtain ⟨howner, hs'⟩ := hs.store hp hfit
      exact ⟨_, 0, rfl, howner ▸ .store hp, hs', rfl, rfl⟩

/-- Every legal call is a step of the allocator. -/
theorem Sound.refines (hs : Sound h) (hfuel : h.heapEnd ≤ fuel) {c : Call}
    (hc : (owner h).Legal c) (hcall : SmallMem.call h fuel c = some (h', p)) :
    Refines h c h' p := by
  obtain ⟨h'', q, hcall', hrefines⟩ := hs.call hfuel hc
  obtain ⟨rfl, rfl⟩ := Prod.mk.inj (Option.some.inj (hcall.symm.trans hcall'))
  exact hrefines

end

/-- A run of legal calls, each of the kind `ok`, from one heap to another. -/
inductive Run (ok : Call → Prop) (fuel : ℕ) (h₀ : SystemHeap) : SystemHeap → Prop
  | start : Run ok fuel h₀ h₀
  | call {h h' : SystemHeap} {c : Call} {p : BitVec 32} :
      Run ok fuel h₀ h → ok c → (owner h).Legal c → call h fuel c = some (h', p) →
      Run ok fuel h₀ h'

section
variable {m : Mem} {beginAddr endAddr : BitVec 32} {h₀ h h' : SystemHeap} {fuel : ℕ}
  {ok : Call → Prop} {p : BitVec 32} {c : List (BitVec 8)}

/-- Soundness holds along every run. -/
theorem Run.sound (hs : Sound h₀) (hfuel : h₀.heapEnd ≤ fuel) (hrun : Run ok fuel h₀ h) :
    Sound h ∧ SamePlace h₀ h := by
  induction hrun with
  | start => exact ⟨hs, rfl, rfl⟩
  | call _ _ hlegal hcall ih =>
      obtain ⟨hs, hplace⟩ := ih
      have hrefines := hs.refines (hplace.heapEnd ▸ hfuel) hlegal hcall
      exact ⟨hrefines.sound, hplace.trans hrefines.place⟩

/-- What no call of a run names is owned as it was. -/
theorem Run.keeps (hs : Sound h₀) (hfuel : h₀.heapEnd ≤ fuel)
    (hrun : Run (fun c => ¬ c.Names p) fuel h₀ h) (hp : owner h₀ p = some c) :
    owner h p = some c := by
  induction hrun with
  | start => exact hp
  | call hrun hok hlegal hcall ih =>
      obtain ⟨hs, hplace⟩ := hrun.sound hs hfuel
      exact (hs.refines (hplace.heapEnd ▸ hfuel) hlegal hcall).step.keeps hok ih

/-- The heap starts sound. -/
theorem sound_init (hinit : rtSystemHeapInit m beginAddr endAddr = some h₀)
    (hroom : 16 ≤ h₀.memSizeAligned) : Sound h₀ :=
  ⟨_, consistent_init hinit hroom⟩

/-- Nothing is owned at the beginning. -/
theorem owner_init (hinit : rtSystemHeapInit m beginAddr endAddr = some h₀)
    (hroom : 16 ≤ h₀.memSizeAligned) : owner h₀ p = none := by
  rw [(consistent_init hinit hroom).owner_eq]
  rfl

/-- A heap of a kilobyte. -/
def kilobyteHeap : SystemHeap :=
  SystemHeap.setMem (SystemHeap.setMem ⟨fun _ => 0, 0x80000000, 992, 0, 0, 0⟩ 0
    ⟨heapMagic, 0, 1008, 0⟩) 1008 ⟨heapMagic, 1, 1008, 1008⟩

theorem rtSystemHeapInit_kilobyteHeap :
    rtSystemHeapInit (fun _ => 0) 0x80000000 0x80000400 = some kilobyteHeap :=
  rfl

/-- A hundred bytes are taken. -/
theorem run_kilobyteHeap : ∃ h c, 100 ≤ c.length ∧
    owner h = Function.update (owner kilobyteHeap) 0x80000010 (some c) ∧
    Run (fun _ => True) 1008 kilobyteHeap h := by
  have hmap : (rtMalloc kilobyteHeap 1008 100).map Prod.snd = some 0x80000010 := by decide +kernel
  obtain ⟨⟨h, p⟩, hmalloc, rfl⟩ := Option.map_eq_some_iff.mp hmap
  have hlegal : (owner kilobyteHeap).Legal (.malloc 100) := Nat.le_of_ble_eq_true rfl
  have hs := sound_init rtSystemHeapInit_kilobyteHeap (by decide)
  obtain ⟨c, hlen, howner⟩ :=
    (hs.refines (le_refl 1008) hlegal hmalloc).step.malloc_some (by decide)
  exact ⟨h, c, hlen, howner, .call .start trivial hlegal hmalloc⟩

/-- **The heap of `mem.c` is an allocator.** In every state that a run reaches, every legal call
ends, and it is a step of the allocator. -/
theorem call_refines (hinit : rtSystemHeapInit m beginAddr endAddr = some h₀)
    (hroom : 16 ≤ h₀.memSizeAligned) (hfuel : h₀.heapEnd ≤ fuel)
    (hrun : Run (fun _ => True) fuel h₀ h) {c : Call} (hlegal : (owner h).Legal c) :
    ∃ h' p, call h fuel c = some (h', p) ∧ (owner h).Step c p (owner h') := by
  obtain ⟨hs, hplace⟩ := hrun.sound (sound_init hinit hroom) hfuel
  obtain ⟨h', p, hcall, hrefines⟩ := hs.call (hplace.heapEnd ▸ hfuel) hlegal
  exact ⟨h', p, hcall, hrefines.step⟩

theorem call_refines_kilobyteHeap : ∃ h h' p, Run (fun _ => True) 1008 kilobyteHeap h ∧
    call h 1008 (.realloc 0x80000010 300) = some (h', p) ∧
    (owner h).Step (.realloc 0x80000010 300) p (owner h') := by
  obtain ⟨h, c, -, howner, hrun⟩ := run_kilobyteHeap
  have hlegal : (owner h).Legal (.realloc 0x80000010 300) :=
    ⟨by decide, .inr (by rw [howner, Function.update_self]; rfl)⟩
  obtain ⟨h', p, hcall, hstep⟩ :=
    call_refines rtSystemHeapInit_kilobyteHeap (by decide) (le_refl 1008) hrun hlegal
  exact ⟨h, h', p, hrun, hcall, hstep⟩

/-- In every state that a run reaches, what is owned lies in the heap, aligned and apart from
everything else that is owned, and `rt_free` takes it back without a complaint. -/
theorem run_owned (hinit : rtSystemHeapInit m beginAddr endAddr = some h₀)
    (hroom : 16 ≤ h₀.memSizeAligned) (hfuel : h₀.heapEnd ≤ fuel)
    (hrun : Run (fun _ => True) fuel h₀ h) (hp : owner h p = some c) :
    8 ∣ p.toNat ∧ h₀.heapPtr.toNat + 16 ≤ p.toNat ∧
      p.toNat + c.length ≤ h₀.heapPtr.toNat + h₀.heapEnd ∧ (rtFree h p).2 = false ∧
      ∀ q d, owner h q = some d → q ≠ p →
        p.toNat + c.length ≤ q.toNat ∨ q.toNat + d.length ≤ p.toNat := by
  obtain ⟨hs, hplace⟩ := hrun.sound (sound_init hinit hroom) hfuel
  obtain ⟨h', hfree, -⟩ := hs.free (p := p) (.inr (by rw [hp]; rfl))
  obtain ⟨bs, hc⟩ := hs
  obtain ⟨hlow, hhigh, haligned⟩ := hc.bounds_of_owner hp
  rw [hplace.heapPtr] at hlow hhigh
  rw [hplace.heapEnd] at hhigh
  refine ⟨haligned, hlow, hhigh, by rw [hfree], fun q d hq hne => ?_⟩
  obtain ⟨xs, ys, rfl, rfl⟩ := hc.exists_block hp
  have hfresh := (hc.insert live_append_used).2
  rw [hc.remove live_append_used] at hfresh
  exact hfresh.apart q d ((Function.update_of_ne hne _ _).trans hq)

theorem run_owned_kilobyteHeap : ∃ h c, 100 ≤ c.length ∧ owner h 0x80000010 = some c ∧
    (rtFree h 0x80000010).2 = false := by
  obtain ⟨h, c, hlen, howner, hrun⟩ := run_kilobyteHeap
  have hc : owner h 0x80000010 = some c := by rw [howner, Function.update_self]
  obtain ⟨-, -, -, hfree, -⟩ :=
    run_owned rtSystemHeapInit_kilobyteHeap (by decide) (le_refl 1008) hrun hc
  exact ⟨h, c, hlen, hc, hfree⟩

/-- Whatever a run does with other blocks, a block that it does not name keeps its bytes. -/
theorem run_keeps (hinit : rtSystemHeapInit m beginAddr endAddr = some h₀)
    (hroom : 16 ≤ h₀.memSizeAligned) (hfuel : h₀.heapEnd ≤ fuel)
    (hrun : Run (fun _ => True) fuel h₀ h) (hp : owner h p = some c)
    (hrun' : Run (fun c => ¬ c.Names p) fuel h h') :
    owner h' p = some c ∧ BytesAt h'.memory p c := by
  obtain ⟨hs, hplace⟩ := hrun.sound (sound_init hinit hroom) hfuel
  have hfuel' : h.heapEnd ≤ fuel := hplace.heapEnd ▸ hfuel
  have hp' := hrun'.keeps hs hfuel' hp
  obtain ⟨⟨bs, hc⟩, -⟩ := hrun'.sound hs hfuel'
  exact ⟨hp', hc.bytesAt_owner hp'⟩

theorem run_keeps_kilobyteHeap : ∃ h c h' p, 100 ≤ c.length ∧
    call h 1008 (.malloc 300) = some (h', p) ∧ BytesAt h'.memory 0x80000010 c := by
  obtain ⟨h, c, hlen, howner, hrun⟩ := run_kilobyteHeap
  have hc : owner h 0x80000010 = some c := by rw [howner, Function.update_self]
  have hlegal : (owner h).Legal (.malloc 300) := Nat.le_of_ble_eq_true rfl
  obtain ⟨hs, hplace⟩ := hrun.sound (sound_init rtSystemHeapInit_kilobyteHeap (by decide))
    (le_refl 1008)
  obtain ⟨h', p, hcall, -⟩ := hs.call (le_of_eq hplace.heapEnd) hlegal
  have hkeeps := run_keeps rtSystemHeapInit_kilobyteHeap (by decide) (le_refl 1008) hrun hc
    (.call .start id hlegal hcall)
  exact ⟨h, c, h', p, hlen, hcall, hkeeps.2⟩

/-- When a run of legal calls has given back all it has taken, the heap is one free block again. On
a heap of at least 16 bytes, every size is available at its beginning that is below
`mem_size_aligned` once it is rounded up to a multiple of 8 and to 16. -/
theorem run_all_freed (hinit : rtSystemHeapInit m beginAddr endAddr = some h₀)
    (hroom : 16 ≤ h₀.memSizeAligned) (hfuel : h₀.heapEnd ≤ fuel)
    (hrun : Run (fun _ => True) fuel h₀ h) (hfreed : ∀ p, owner h p = none) :
    h.mem 0 = h₀.mem 0 ∧ h.lfree = 0 ∧
      ∀ size, size ≠ 0 → roundUp size < h₀.memSizeAligned →
        ∃ h', rtMalloc h fuel size = some (h', addr h₀.heapPtr 16) := by
  obtain ⟨⟨bs, hc⟩, hplace⟩ := hrun.sound (sound_init hinit hroom) hfuel
  have hlive : live 0 bs = [] := by
    refine List.eq_nil_iff_forall_not_mem.mpr fun x hx => ?_
    obtain ⟨A, B, hAB⟩ := List.append_of_mem hx
    have hp := hfreed (addr h.heapPtr x.1)
    rw [(hc.insert hAB).1, Function.update_self] at hp
    cases hp
  have hend := hc.heapEnd_eq
  have hheap : h.heapEnd = h.memSizeAligned + 16 := rfl
  have hbs : bs ≠ [] := by
    rintro rfl
    rw [total_nil] at hend
    omega
  have hone := eq_free_of_live_nil hlive hc.merged hbs
  rw [← hend] at hone
  subst hone
  have hheader := (tail_cons.mp hc.tail).1.header
  have hheader₀ := (tail_cons.mp (consistent_init hinit hroom).tail).1.header
  have hlfree := hc.lowFree.eq_zero
  refine ⟨?_, hlfree, fun size hsize hfit => ?_⟩
  · rw [hheader, hheader₀, hplace.heapEnd]
  · rcases hc.malloc (hplace.heapEnd ▸ hfuel) hsize with ⟨-, hnone⟩ |
      ⟨h', xs, c, ys, hp, -, -, -, -, n, zs, hxs⟩
    · have hsame := hplace.memSizeAligned
      have := hnone [] h.heapEnd [] rfl (by rw [hlfree, total_nil]) (by omega)
      rw [total_nil] at this
      omega
    · obtain rfl : xs = [] := by
        cases xs with
        | nil => rfl
        | cons b xs => simp at hxs
      rw [hplace.heapPtr] at hp
      exact ⟨h', hp⟩

theorem run_all_freed_kilobyteHeap : ∃ h h' h'', Run (fun _ => True) 1008 kilobyteHeap h ∧
    rtFree h 0x80000010 = (h', false) ∧ rtMalloc h' 1008 960 = some (h'', 0x80000010) := by
  obtain ⟨h, c, hlen, howner, hrun⟩ := run_kilobyteHeap
  have hlegal : (owner h).Legal (.free 0x80000010) :=
    .inr (by rw [howner, Function.update_self]; rfl)
  obtain ⟨hs, -⟩ := hrun.sound (sound_init rtSystemHeapInit_kilobyteHeap (by decide))
    (le_refl 1008)
  obtain ⟨h', hfree, hfreed, -⟩ := hs.free hlegal
  have hrun' : Run (fun _ => True) 1008 kilobyteHeap h' :=
    .call hrun trivial hlegal (by rw [call, hfree])
  have hnone : ∀ p, owner h' p = none := by
    intro p
    rw [hfreed, howner, Function.update_idem, Function.update_apply]
    split_ifs with hp
    · rfl
    · exact owner_init rtSystemHeapInit_kilobyteHeap (by decide)
  obtain ⟨-, -, havailable⟩ :=
    run_all_freed rtSystemHeapInit_kilobyteHeap (by decide) (le_refl 1008) hrun' hnone
  obtain ⟨h'', hmalloc⟩ := havailable 960 (by decide) (by decide)
  exact ⟨h, h', h'', hrun, hfree, hmalloc⟩

end

end SmallMem

end RtBoot
