import RtBoot.BlockTable
import RtBoot.Machine

/-!
# The System Heap

`mem.c`: a heap of blocks one behind the other. In front of each block stands a header with the
offsets of its neighbours, in the memory that is handed out. The headers are read from and
written to that memory, so a header that is written in the wrong place destroys what stands
there.

Offsets count from `heap_ptr`, and so do the pointers to headers. The loops that walk from header
to header have fuel; without an intact chain of headers they need not end. The semaphore around
the operations is left out: it makes each of them atomic.
-/

namespace RtBoot

namespace SmallMem

/-! ### Headers -/

/-- `HEAP_MAGIC`. -/
def heapMagic : BitVec 16 :=
  0x1ea0

/-- `struct heap_mem`. -/
structure HeapMem where
  magic : BitVec 16
  used : BitVec 16
  next : ℕ
  prev : ℕ
  deriving DecidableEq, Repr

/-- `MIN_SIZE`. -/
def minSize : ℕ :=
  12

/-- `MIN_SIZE_ALIGNED`. -/
def minSizeAligned : ℕ :=
  16

/-- `SIZEOF_STRUCT_MEM`. -/
def sizeofStructMem : ℕ :=
  16

/-- `RT_ALIGN(size, RT_ALIGN_SIZE)`. -/
def rtAlign (size : BitVec 32) : BitVec 32 :=
  alignDown (size + 7) 8

/-- `RT_ALIGN_DOWN(size, RT_ALIGN_SIZE)`. -/
def rtAlignDown (size : BitVec 32) : BitVec 32 :=
  alignDown size 8

/-- The header at an address. -/
def loadHeapMem (m : Mem) (a : BitVec 32) : HeapMem where
  magic := (load32 m a).extractLsb' 16 16
  used := (load32 m a).extractLsb' 0 16
  next := (load32 m (addr a 4)).toNat
  prev := (load32 m (addr a 8)).toNat

/-- Write a header at an address. -/
def storeHeapMem (m : Mem) (a : BitVec 32) (mem : HeapMem) : Mem :=
  store32 (store32 (store32 m a (mem.magic ++ mem.used)) (addr a 4) (BitVec.ofNat 32 mem.next))
    (addr a 8) (BitVec.ofNat 32 mem.prev)

/-! ### The heap -/

/-- The variables of `mem.c`, and the memory. -/
structure SystemHeap where
  memory : Mem
  heapPtr : BitVec 32
  memSizeAligned : ℕ
  lfree : ℕ
  usedMem : ℕ
  maxMem : ℕ

namespace SystemHeap

/-- `(struct heap_mem *)&heap_ptr[ptr]`. -/
def mem (h : SystemHeap) (ptr : ℕ) : HeapMem :=
  loadHeapMem h.memory (addr h.heapPtr ptr)

/-- Write a header. A store to one of its fields leaves the others as they are. -/
def setMem (h : SystemHeap) (ptr : ℕ) (mem : HeapMem) : SystemHeap :=
  { h with memory := storeHeapMem h.memory (addr h.heapPtr ptr) mem }

/-- Write to the memory. -/
def write (h : SystemHeap) (a : BitVec 32) (bs : List (BitVec 8)) : SystemHeap :=
  { h with memory := writeBytes h.memory a bs }

/-- `heap_end`. -/
def heapEnd (h : SystemHeap) : ℕ :=
  h.memSizeAligned + sizeofStructMem

/-- `used_mem += n`, and `max_mem`. -/
def addUsed (h : SystemHeap) (n : ℕ) : SystemHeap :=
  { h with usedMem := h.usedMem + n, maxMem := max h.maxMem (h.usedMem + n) }

end SystemHeap

/-- `rt_system_heap_init`; `none` if the addresses are too close, and the heap stays as it was. -/
def rtSystemHeapInit (m : Mem) (beginAddr endAddr : BitVec 32) : Option SystemHeap :=
  let beginAlign := rtAlign beginAddr
  let endAlign := rtAlignDown endAddr
  if endAlign.toNat > 2 * sizeofStructMem ∧
      endAlign.toNat - 2 * sizeofStructMem ≥ beginAlign.toNat then
    let memSizeAligned := endAlign.toNat - beginAlign.toNat - 2 * sizeofStructMem
    let heapEnd := memSizeAligned + sizeofStructMem
    let h : SystemHeap := ⟨m, beginAlign, memSizeAligned, 0, 0, 0⟩
    let h := h.setMem 0 ⟨heapMagic, 0, heapEnd, 0⟩
    some (h.setMem heapEnd ⟨heapMagic, 1, heapEnd, heapEnd⟩)
  else none

/-- Join the block at `mem` with the one at `nmem` behind it. -/
def joinBlocks (h : SystemHeap) (mem nmem : ℕ) : SystemHeap :=
  let next := (h.mem nmem).next
  let h := h.setMem mem { h.mem mem with next }
  h.setMem next { h.mem next with prev := mem }

/-- The first half of `plug_holes`: the block behind, if it is free. -/
def plugForward (h : SystemHeap) (mem : ℕ) : SystemHeap :=
  let nmem := (h.mem mem).next
  if mem ≠ nmem ∧ (h.mem nmem).used = 0 ∧ nmem ≠ h.heapEnd then
    let h := if h.lfree = nmem then { h with lfree := mem } else h
    joinBlocks h mem nmem
  else h

/-- The second half: the block in front, if it is free. -/
def plugBackward (h : SystemHeap) (mem : ℕ) : SystemHeap :=
  let pmem := (h.mem mem).prev
  if pmem ≠ mem ∧ (h.mem pmem).used = 0 then
    let h := if h.lfree = mem then { h with lfree := pmem } else h
    joinBlocks h pmem mem
  else h

/-- `plug_holes`. -/
def plugHoles (h : SystemHeap) (mem : ℕ) : SystemHeap :=
  plugBackward (plugForward h mem) mem

/-- The loop of `rt_malloc` that looks for a block. The bound is a difference of unsigned
numbers. -/
def mallocLoop (h : SystemHeap) (size : ℕ) : (fuel ptr : ℕ) → Option (Option ℕ)
  | 0, _ => none
  | fuel + 1, ptr =>
      if ptr < (h.memSizeAligned + 2 ^ 32 - size) % 2 ^ 32 then
        let mem := h.mem ptr
        if mem.used = 0 ∧ mem.next - (ptr + sizeofStructMem) ≥ size then some (some ptr)
        else mallocLoop h size fuel mem.next
      else some none

/-- The loop of `rt_malloc` that moves `lfree` on. -/
def lfreeLoop (h : SystemHeap) : (fuel lfree : ℕ) → Option ℕ
  | 0, _ => none
  | fuel + 1, lfree =>
      if (h.mem lfree).used ≠ 0 ∧ lfree ≠ h.heapEnd then lfreeLoop h fuel (h.mem lfree).next
      else some lfree

/-- Create a free block of what is left of the block at `ptr` behind `size` bytes; in `rt_malloc`
and in `rt_realloc`. -/
def splitBlock (h : SystemHeap) (ptr size : ℕ) : SystemHeap :=
  let next := (h.mem ptr).next
  let ptr2 := ptr + sizeofStructMem + size
  let h := h.setMem ptr2 ⟨heapMagic, 0, next, ptr⟩
  let h := h.setMem ptr { h.mem ptr with next := ptr2 }
  if next ≠ h.memSizeAligned + sizeofStructMem then
    h.setMem next { h.mem next with prev := ptr2 }
  else h

/-- Take the block at `ptr` for `size` bytes. -/
def takeBlock (h : SystemHeap) (ptr size : ℕ) : SystemHeap :=
  let room := (h.mem ptr).next - (ptr + sizeofStructMem)
  if room ≥ size + sizeofStructMem + minSizeAligned then
    let h := splitBlock h ptr size
    (h.setMem ptr { h.mem ptr with used := 1, magic := heapMagic }).addUsed
      (size + sizeofStructMem)
  else
    (h.setMem ptr { h.mem ptr with used := 1, magic := heapMagic }).addUsed
      ((h.mem ptr).next - ptr)

/-- `lfree` after the block at `ptr` has been taken. -/
def nextLfree (h : SystemHeap) (fuel ptr : ℕ) : Option ℕ :=
  if ptr = h.lfree then lfreeLoop h fuel h.lfree else some h.lfree

/-- Take the block that has been found. -/
def takeFound (h : SystemHeap) (fuel ptr size : ℕ) : Option (SystemHeap × BitVec 32) := do
  let h := takeBlock h ptr size
  let lfree ← nextLfree h fuel ptr
  some ({ h with lfree }, addr h.heapPtr (ptr + sizeofStructMem))

/-- `rt_malloc`: the heap and the pointer; `none` if a loop does not end. -/
def rtMalloc (h : SystemHeap) (fuel : ℕ) (size : BitVec 32) : Option (SystemHeap × BitVec 32) :=
  if size = 0 then some (h, 0)
  else if h.memSizeAligned < (rtAlign size).toNat then some (h, 0)
  else do
    let size := max (rtAlign size).toNat minSizeAligned
    match ← mallocLoop h size fuel h.lfree with
    | none => some (h, 0)
    | some ptr => takeFound h fuel ptr size

/-- A pointer into the heap, as far as the code checks it. -/
def InHeap (h : SystemHeap) (rmem : BitVec 32) : Prop :=
  h.heapPtr ≤ rmem ∧ rmem < addr h.heapPtr h.heapEnd
  deriving Decidable

/-- The offset of the header in front of a pointer. -/
def headerOf (h : SystemHeap) (rmem : BitVec 32) : ℕ :=
  (rmem - h.heapPtr - BitVec.ofNat 32 sizeofStructMem).toNat

/-- `rt_free`: the heap, and whether it prints that the block is a bad one. -/
def rtFree (h : SystemHeap) (rmem : BitVec 32) : SystemHeap × Bool :=
  if rmem = 0 then (h, false)
  else if ¬ InHeap h rmem then (h, false)
  else
    let mem := headerOf h rmem
    let bad := (h.mem mem).used = 0 ∨ (h.mem mem).magic ≠ heapMagic
    let h := h.setMem mem { h.mem mem with used := 0, magic := heapMagic }
    let lfree := if mem < h.lfree then mem else h.lfree
    let h := { h with lfree, usedMem := h.usedMem - ((h.mem mem).next - mem) }
    (plugHoles h mem, bad)

/-- The last part of `rt_realloc`: the block of `size` bytes is moved to a new one. -/
def reallocMove (h : SystemHeap) (fuel size : ℕ) (rmem newsize : BitVec 32) :
    Option (SystemHeap × BitVec 32) := do
  let (h, nmem) ← rtMalloc h fuel newsize
  if nmem ≠ 0 then
    let h := h.write nmem (readBytes h.memory rmem (min size newsize.toNat))
    some ((rtFree h rmem).1, nmem)
  else some (h, nmem)

/-- `rt_realloc`. -/
def rtRealloc (h : SystemHeap) (fuel : ℕ) (rmem newsize : BitVec 32) :
    Option (SystemHeap × BitVec 32) :=
  let newsize := rtAlign newsize
  if h.memSizeAligned < newsize.toNat then some (h, 0)
  else if newsize = 0 then some ((rtFree h rmem).1, 0)
  else if rmem = 0 then rtMalloc h fuel newsize
  else if ¬ InHeap h rmem then some (h, rmem)
  else
    let ptr := headerOf h rmem
    let size := (h.mem ptr).next - ptr - sizeofStructMem
    if size = newsize.toNat then some (h, rmem)
    else if newsize.toNat + sizeofStructMem + minSize < size then
      let h := { h with usedMem := h.usedMem - (size - newsize.toNat) }
      let h := splitBlock h ptr newsize.toNat
      some (plugHoles h (ptr + sizeofStructMem + newsize.toNat), rmem)
    else reallocMove h fuel size rmem newsize

/-- `rt_calloc`. -/
def rtCalloc (h : SystemHeap) (fuel : ℕ) (count size : BitVec 32) :
    Option (SystemHeap × BitVec 32) := do
  let (h, p) ← rtMalloc h fuel (count * size)
  if p ≠ 0 then some (h.write p (List.replicate (count * size).toNat 0), p)
  else some (h, p)

end SmallMem

end RtBoot
