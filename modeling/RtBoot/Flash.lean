import Mathlib.Data.List.Basic
import Mathlib.Tactic.Common
import RtBoot.Machine

/-!
# The Flash Job

One job of the board's flash thread (`board_flash_thread_entry`) takes the uploaded file
of a request and burns it into the partition of that request. This module models the
job as the sequence of effects it has, in order (`JobEvent`): calls of the serial-flash
driver and values stored in `board_flash_status`. The thread ignores the results of its
driver calls, so this sequence is determined by the partition, the result of the buffer
allocation, and the uploaded file.

The erase loop runs over the partition; the write loop runs to the end of the file and
never looks at the partition's length. The device semantics (`JobEvent.apply`) takes the
driver as documented: an erase sets the block it is given to `0xFF`, a write programs
exactly the bytes it is given, and either is refused when it would pass the end of the
chip.

## Main results

* `mem_eraseLoop` and `mem_writeLoop`: the addresses the two loops hand to the driver.
* `Confined`: every byte the job programs or erases lies in the request's partition, and
  every other byte of the chip is left as it was.
* `boardFlashJob_confined_iff`: on every supported chip a job is confined exactly when
  its file ends inside the partition, or the partition is followed by nothing the driver
  would accept a write to.
-/

namespace RtBoot

/-- The four requests of the flash thread, in the order of their event bits. -/
inductive FlashKind
  | firmware
  | uboot
  | art
  | full
  deriving DecidableEq, Repr

/-- A region of the chip. -/
structure Partition where
  start : ℕ
  length : ℕ
  deriving DecidableEq, Repr

/-- `x` is an address of the partition. -/
def Partition.Contains (p : Partition) (x : ℕ) : Prop :=
  p.start ≤ x ∧ x < p.start + p.length

/-- The partition table of one chip size. -/
structure FlashLayout where
  firmware : Partition
  uboot : Partition
  art : Partition
  full : Partition
  deriving DecidableEq, Repr

/-- The partition a request is burnt into. -/
def FlashLayout.partition (l : FlashLayout) : FlashKind → Partition
  | .firmware => l.firmware
  | .uboot => l.uboot
  | .art => l.art
  | .full => l.full

/-- The `switch` on the chip size in megabytes. Every other size ends the thread. -/
def flashLayout : ℕ → Option FlashLayout
  | 16 => some ⟨⟨0x20000, 0xFD0000⟩, ⟨0, 0x20000⟩, ⟨0xFF0000, 0x10000⟩, ⟨0, 0x1000000⟩⟩
  | 8 => some ⟨⟨0x20000, 0x7D0000⟩, ⟨0, 0x20000⟩, ⟨0x7F0000, 0x10000⟩, ⟨0, 0x800000⟩⟩
  | 4 => some ⟨⟨0x20000, 0x3D0000⟩, ⟨0, 0x20000⟩, ⟨0x3F0000, 0x10000⟩, ⟨0, 0x400000⟩⟩
  | 2 => some ⟨⟨0x20000, 0x1D0000⟩, ⟨0, 0x20000⟩, ⟨0x1F0000, 0x10000⟩, ⟨0, 0x200000⟩⟩
  | _ => none

/-- One effect of a job: a driver call or a store to `board_flash_status`. -/
inductive JobEvent
  | erase (addr size : ℕ)
  | write (addr : ℕ) (data : List UInt8)
  | status (value : ℤ)
  deriving DecidableEq, Repr

/-- `((write_off - flash_start) * 100 / flash_length) / 2` in `int` arithmetic. -/
def halfProgress (p : Partition) (writeOff : ℤ) : ℤ :=
  ((i32 ((writeOff - p.start) * 100)).tdiv p.length).tdiv 2

/-- The erase loop, from `write_off` to the end of the partition. -/
def eraseLoop (p : Partition) (writeOff : ℤ) : List JobEvent :=
  if writeOff < p.start + p.length then
    .erase (u32 writeOff) 0x1000 :: .status (halfProgress p writeOff) ::
      eraseLoop p (writeOff + 0x1000)
  else []
termination_by (p.start + p.length - writeOff).toNat

/-- An open descriptor of a ram file: its contents and the read position. -/
structure RamFd where
  data : List UInt8
  pos : ℕ
  deriving DecidableEq, Repr

/-- `dfs_ramfs_read`: at most `count` bytes from the position on, and the position moved
behind them. -/
def dfsRamfsRead (fd : RamFd) (count : ℕ) : List UInt8 × RamFd :=
  let length := if count < fd.data.length - fd.pos then count else fd.data.length - fd.pos
  ((fd.data.drop fd.pos).take length, { fd with pos := fd.pos + length })

theorem length_dfsRamfsRead (fd : RamFd) (count : ℕ) :
    (dfsRamfsRead fd count).1.length = min count (fd.data.length - fd.pos) := by
  simp only [dfsRamfsRead, List.length_take, List.length_drop]
  split <;> omega

theorem dfsRamfsRead_pos (fd : RamFd) (count : ℕ) :
    (dfsRamfsRead fd count).2.pos = fd.pos + (dfsRamfsRead fd count).1.length := by
  rw [length_dfsRamfsRead]
  simp only [dfsRamfsRead]
  split <;> omega

/-- A read returns the next `count` bytes, fewer at the end of the file. -/
theorem dfsRamfsRead_eq_take (fd : RamFd) (count : ℕ) :
    (dfsRamfsRead fd count).1 = (fd.data.drop fd.pos).take count := by
  simp only [dfsRamfsRead]
  split
  · rfl
  · rw [List.take_of_length_le (by simp), List.take_of_length_le (by simp; omega)]

@[simp] theorem dfsRamfsRead_data (fd : RamFd) (count : ℕ) :
    (dfsRamfsRead fd count).2.data = fd.data :=
  rfl

/-- The write loop: read up to `0x1000` bytes, program them at `write_off`, move on by
the number of bytes read, until the read comes back empty. -/
def writeLoop (p : Partition) (writeOff : ℤ) (fd : RamFd) : List JobEvent :=
  let chunk := (dfsRamfsRead fd 0x1000).1
  if 0 < chunk.length then
    let next := i32 (writeOff + chunk.length)
    .write (u32 writeOff) chunk :: .status (halfProgress p next + 50) ::
      writeLoop p next (dfsRamfsRead fd 0x1000).2
  else []
termination_by fd.data.length - fd.pos
decreasing_by
  rename_i h
  have hpos' : 0 < (dfsRamfsRead fd 0x1000).1.length := h
  have hlen := length_dfsRamfsRead fd 0x1000
  have hpos := dfsRamfsRead_pos fd 0x1000
  simp only [dfsRamfsRead_data]
  omega

/-- The job of one request: `mallocOk` is the result of the buffer allocation, `file`
the uploaded file when it can be opened. -/
def boardFlashJob (p : Partition) (mallocOk : Bool) (file : Option (List UInt8)) :
    List JobEvent :=
  .status 0 ::
    if mallocOk then
      match file with
      | none => [.status (-1)]
      | some data =>
          eraseLoop p p.start ++ writeLoop p p.start ⟨data, 0⟩ ++ [.status 100]
    else []

/-! ### The loops -/

variable {p : Partition} {data : List UInt8} {l : FlashLayout} {size : ℕ} {k : FlashKind}

/-- The erase loop only erases, and reports progress; each block it erases starts at the
cursor plus a multiple of the block size and before the end of the partition. -/
theorem mem_eraseLoop {writeOff : ℤ} {e : JobEvent} (h : e ∈ eraseLoop p writeOff) :
    (∃ v, e = .status v) ∨ ∃ k : ℕ, writeOff + 4096 * k < p.start + p.length ∧
      e = .erase (u32 (writeOff + 4096 * k)) 0x1000 := by
  induction writeOff using eraseLoop.induct p with
  | case1 writeOff hlt ih =>
      rw [eraseLoop, if_pos hlt, List.mem_cons, List.mem_cons] at h
      rcases h with rfl | rfl | h
      · exact .inr ⟨0, by simpa using hlt, by simp⟩
      · exact .inl ⟨_, rfl⟩
      · rcases ih h with hv | ⟨k, hk, rfl⟩
        · exact .inl hv
        · refine .inr ⟨k + 1, by push_cast; omega, ?_⟩
          congr 2
          push_cast
          omega
  | case2 writeOff hlt =>
      rw [eraseLoop, if_neg hlt] at h
      exact absurd h List.not_mem_nil

/-- The write loop programs the file in consecutive chunks of `0x1000` bytes, the last
one possibly shorter, at consecutive addresses. -/
theorem mem_writeLoop {writeOff : ℤ} {fd : RamFd} {addr : ℕ} :
    .write addr data ∈ writeLoop p writeOff fd ↔
      ∃ k : ℕ, 4096 * k < fd.data.length - fd.pos ∧
        addr = u32 (writeOff + 4096 * k) ∧
        data = (fd.data.drop (fd.pos + 4096 * k)).take 4096 := by
  induction writeOff, fd using writeLoop.induct with
  | case1 writeOff fd chunk hlt next ih =>
      have hchunk : chunk.length = min 4096 (fd.data.length - fd.pos) :=
        length_dfsRamfsRead fd 4096
      have hpos : (dfsRamfsRead fd 4096).2.pos = fd.pos + chunk.length :=
        dfsRamfsRead_pos fd 4096
      have heq : chunk = (fd.data.drop fd.pos).take 4096 := dfsRamfsRead_eq_take fd 4096
      -- a later chunk exists only behind a full one, and is the next one of the rest
      have hlater : ∀ k : ℕ, chunk.length = 4096 →
          u32 (next + 4096 * k) = u32 (writeOff + 4096 * (k + 1 : ℕ)) ∧
            fd.pos + chunk.length + 4096 * k = fd.pos + 4096 * (k + 1) := by
        intro k hfull
        have haddr : u32 (next + 4096 * k) = u32 (writeOff + chunk.length + 4096 * k) :=
          u32_i32_add _ _
        refine ⟨haddr.trans (congrArg u32 ?_), by omega⟩
        rw [hfull]
        push_cast
        omega
      rw [writeLoop, if_pos hlt, List.mem_cons, List.mem_cons, ih, hpos, dfsRamfsRead_data]
      clear ih
      constructor
      · rintro (h | h | ⟨k, hk, rfl, rfl⟩)
        · obtain ⟨rfl, rfl⟩ := JobEvent.write.inj h
          exact ⟨0, by omega, by simp, by simpa using heq⟩
        · exact absurd h (by simp)
        · obtain ⟨haddr, hdrop⟩ := hlater k (by omega)
          exact ⟨k + 1, by omega, haddr, by rw [hdrop]⟩
      · rintro ⟨k, hk, rfl, rfl⟩
        cases k with
        | zero =>
            left
            simpa using heq.symm
        | succ k =>
            obtain ⟨haddr, hdrop⟩ := hlater k (by omega)
            exact .inr (.inr ⟨k, by omega, haddr.symm, by rw [hdrop]⟩)
  | case2 writeOff fd chunk hlt =>
      have hchunk : chunk.length = min 4096 (fd.data.length - fd.pos) :=
        length_dfsRamfsRead fd 4096
      rw [writeLoop, if_neg hlt]
      constructor
      · intro h
        exact absurd h List.not_mem_nil
      · rintro ⟨k, hk, -, -⟩
        omega

/-- The write loop never erases. -/
theorem erase_notMem_writeLoop (p : Partition) (writeOff : ℤ) (fd : RamFd) (addr size : ℕ) :
    .erase addr size ∉ writeLoop p writeOff fd := by
  induction writeOff, fd using writeLoop.induct with
  | case1 writeOff fd chunk hlt next ih =>
      rw [writeLoop, if_pos hlt]
      simpa using ih
  | case2 writeOff fd chunk hlt =>
      rw [writeLoop, if_neg hlt]
      exact List.not_mem_nil

/-! ### The device -/

/-- The byte `x` is erased or programmed by the event on a chip of this capacity. A call
that would pass the end of the chip is refused and touches nothing. -/
def JobEvent.Touches (capacity : ℕ) : JobEvent → ℕ → Prop
  | .erase addr size, x => addr + size ≤ capacity ∧ addr ≤ x ∧ x < addr + size
  | .write addr data, x =>
      addr + data.length ≤ capacity ∧ addr ≤ x ∧ x < addr + data.length
  | .status _, _ => False

instance (capacity : ℕ) : ∀ (e : JobEvent) (x : ℕ), Decidable (e.Touches capacity x)
  | .erase addr size, x =>
      inferInstanceAs (Decidable (addr + size ≤ capacity ∧ addr ≤ x ∧ x < addr + size))
  | .write addr data, x => inferInstanceAs
      (Decidable (addr + data.length ≤ capacity ∧ addr ≤ x ∧ x < addr + data.length))
  | .status _, _ => .isFalse id

/-- The contents of the chip after the event. Erasing sets bytes to `0xFF`; programming
can only clear bits. -/
def JobEvent.apply (capacity : ℕ) (e : JobEvent) (flash : ℕ → UInt8) (x : ℕ) : UInt8 :=
  if e.Touches capacity x then
    match e with
    | .erase _ _ => 0xFF
    | .write addr data => flash x &&& data.getD (x - addr) 0xFF
    | .status _ => flash x
  else flash x

/-- The contents of the chip after a job. -/
def applyEvents (capacity : ℕ) (es : List JobEvent) (flash : ℕ → UInt8) : ℕ → UInt8 :=
  es.foldl (fun m e => e.apply capacity m) flash

/-- A byte that no event touches keeps its value. -/
theorem applyEvents_of_not_touches {capacity : ℕ} {es : List JobEvent} {x : ℕ}
    (h : ∀ e ∈ es, ¬ e.Touches capacity x) (flash : ℕ → UInt8) :
    applyEvents capacity es flash x = flash x := by
  induction es generalizing flash with
  | nil => rfl
  | cons e es ih =>
      have he : ¬ e.Touches capacity x := h e List.mem_cons_self
      have hes : ∀ e' ∈ es, ¬ e'.Touches capacity x :=
        fun e' he' => h e' (List.mem_cons_of_mem e he')
      calc applyEvents capacity (e :: es) flash x
          = applyEvents capacity es (e.apply capacity flash) x := rfl
        _ = e.apply capacity flash x := ih hes _
        _ = flash x := by simp only [JobEvent.apply, if_neg he]

/-- **Confinement.** Every byte the events erase or program lies in the partition, and
every other byte of the chip is left exactly as it was. -/
structure Confined (capacity : ℕ) (p : Partition) (es : List JobEvent) : Prop where
  touches : ∀ e ∈ es, ∀ x, e.Touches capacity x → p.Contains x
  frame : ∀ flash x, ¬ p.Contains x → applyEvents capacity es flash x = flash x

/-- The frame half of confinement follows from the first half. -/
theorem confined_of_touches {capacity : ℕ} {es : List JobEvent}
    (h : ∀ e ∈ es, ∀ x, e.Touches capacity x → p.Contains x) : Confined capacity p es :=
  ⟨h, fun flash x hx =>
    applyEvents_of_not_touches (fun e he ht => hx (h e he x ht)) flash⟩

/-! ### Partition confinement -/

/-- What the partition tables have in common: partitions are made of whole erase blocks
and lie on the chip. -/
theorem flashLayout_partition (hl : flashLayout size = some l) (k : FlashKind) :
    (l.partition k).start % 4096 = 0 ∧ (l.partition k).length % 4096 = 0 ∧
      (l.partition k).start + (l.partition k).length ≤ size * 1024 * 1024 ∧
      size * 1024 * 1024 ≤ 16777216 := by
  unfold flashLayout at hl
  split at hl
  all_goals first | cases hl; cases k <;> decide | exact absurd hl (by simp)

/-- The bootloader and firmware partitions are followed by at least one more block. -/
theorem flashLayout_room (hl : flashLayout size = some l) (hk : k = .firmware ∨ k = .uboot) :
    (l.partition k).start + (l.partition k).length + 4096 ≤ size * 1024 * 1024 := by
  unfold flashLayout at hl
  split at hl
  all_goals first | cases hl; rcases hk with rfl | rfl <;> decide | exact absurd hl (by simp)

/-- The calibration and full partitions end with the chip; the calibration partition is
not at its beginning, the full partition is. -/
theorem flashLayout_last (hl : flashLayout size = some l) :
    l.art.start + l.art.length = size * 1024 * 1024 ∧ 0 < l.art.start ∧
      l.full.start = 0 ∧ l.full.length = size * 1024 * 1024 ∧
      4096 ≤ size * 1024 * 1024 := by
  unfold flashLayout at hl
  split at hl
  all_goals first | cases hl; decide | exact absurd hl (by simp)

/-- A file of `n` bytes is burnt inside its partition: it is no longer than the
partition, or it is a full image (whose excess the driver refuses, and which would wrap
around into its own partition), or it is calibration data that ends before the write
cursor wraps around to the beginning of the chip. -/
def FileFits (l : FlashLayout) (k : FlashKind) (n : ℕ) : Prop :=
  n ≤ (l.partition k).length ∨ k = .full ∨ (k = .art ∧ l.art.start + n ≤ 2 ^ 32)

/-- The erase loop stays inside the partition, whatever the file. -/
theorem eraseLoop_touches (hl : flashLayout size = some l) (k : FlashKind) {e : JobEvent} {x : ℕ}
    (he : e ∈ eraseLoop (l.partition k) (l.partition k).start)
    (hx : e.Touches (size * 1024 * 1024) x) : (l.partition k).Contains x := by
  obtain ⟨hs, hlen, hle, hcap⟩ := flashLayout_partition hl k
  rcases mem_eraseLoop he with ⟨v, rfl⟩ | ⟨j, hj, rfl⟩
  · exact hx.elim
  · obtain ⟨-, hlo, hhi⟩ := hx
    have haddr : u32 ((l.partition k).start + 4096 * j) = (l.partition k).start + 4096 * j := by
      have h := u32_natCast_of_lt (n := (l.partition k).start + 4096 * j) (by omega)
      push_cast at h
      exact h
    rw [haddr] at hlo hhi
    exact ⟨by omega, by omega⟩

/-- A file that fits is written inside the partition. -/
theorem writeLoop_touches (hl : flashLayout size = some l) (hfit : FileFits l k data.length)
    {e : JobEvent} {x : ℕ} (he : e ∈ writeLoop (l.partition k) (l.partition k).start ⟨data, 0⟩)
    (hx : e.Touches (size * 1024 * 1024) x) : (l.partition k).Contains x := by
  obtain ⟨-, -, hle, hcap⟩ := flashLayout_partition hl k
  obtain ⟨hart, -, hfull0, hfull, -⟩ := flashLayout_last hl
  cases e with
  | erase addr size => exact absurd he (erase_notMem_writeLoop _ _ _ _ _)
  | status v => exact hx.elim
  | write addr chunk =>
      obtain ⟨j, hj, rfl, rfl⟩ := mem_writeLoop.mp he
      obtain ⟨hend, hlo, hhi⟩ := hx
      simp only [Nat.zero_add, Nat.sub_zero, List.length_take, List.length_drop]
        at hj hend hlo hhi
      -- below `2 ^ 32` the cursor is the mathematical address of the chunk
      have haddr : (l.partition k).start + 4096 * j < 4294967296 →
          u32 ((l.partition k).start + 4096 * j) = (l.partition k).start + 4096 * j := by
        intro hlt
        have h := u32_natCast_of_lt hlt
        push_cast at h
        exact h
      rcases hfit with hfit | rfl | ⟨rfl, hfit⟩
      · rw [haddr (by omega)] at hlo hhi
        exact ⟨by omega, by omega⟩
      · constructor
        · change l.full.start ≤ x
          omega
        · change x < l.full.start + l.full.length
          omega
      · have hj' : l.art.start + 4096 * j < 4294967296 := by omega
        rw [haddr hj'] at hlo hend hhi
        refine ⟨le_trans (Nat.le_add_right _ _) hlo, ?_⟩
        change x < l.art.start + l.art.length
        omega

/-- A file that does not fit is written outside its partition: the chunk behind the
partition, or the one at which the write cursor has wrapped around, is accepted. -/
theorem exists_touches_of_not_fileFits (hl : flashLayout size = some l)
    (hfit : ¬ FileFits l k data.length) :
    ∃ e ∈ writeLoop (l.partition k) (l.partition k).start ⟨data, 0⟩,
      ∃ x, e.Touches (size * 1024 * 1024) x ∧ ¬ (l.partition k).Contains x := by
  obtain ⟨hs, hlen, hle, hcap⟩ := flashLayout_partition hl k
  obtain ⟨hart, hart0, -, -, hcap'⟩ := flashLayout_last hl
  simp only [FileFits, not_or, not_and] at hfit
  obtain ⟨hlong, hnfull, hwrap⟩ := hfit
  by_cases hk : k = .art
  · subst hk
    have hwrap' : 4294967296 < l.art.start + data.length := by
      have := hwrap rfl
      omega
    have hs' : l.art.start % 4096 = 0 := hs
    have hle' : l.art.start + l.art.length ≤ size * 1024 * 1024 := hle
    refine ⟨_, mem_writeLoop.mpr ⟨(4294967296 - l.art.start) / 4096, ?_, rfl, rfl⟩, 0, ?_, ?_⟩
    · simp only [Nat.sub_zero]
      omega
    · have haddr : u32 ((l.art.start : ℤ) + 4096 * ((4294967296 - l.art.start) / 4096 : ℕ))
          = 0 := by
        unfold u32
        omega
      simp only [JobEvent.Touches, FlashLayout.partition, haddr, Nat.zero_add, List.length_take,
        List.length_drop]
      omega
    · intro h
      have h1 : l.art.start ≤ 0 := h.1
      omega
  · have hk' : k = .firmware ∨ k = .uboot := by
      cases k <;> simp_all
    have hroom := flashLayout_room hl hk'
    refine ⟨_, mem_writeLoop.mpr ⟨(l.partition k).length / 4096, ?_, rfl, rfl⟩,
      (l.partition k).start + (l.partition k).length, ?_, ?_⟩
    · simp only [Nat.sub_zero]
      omega
    · have haddr : u32 ((l.partition k).start + 4096 * ((l.partition k).length / 4096 : ℕ))
          = (l.partition k).start + (l.partition k).length := by
        unfold u32
        omega
      simp only [JobEvent.Touches, haddr, Nat.zero_add, List.length_take, List.length_drop]
      omega
    · intro h
      exact absurd h.2 (lt_irrefl _)

/-- **Partition confinement of the flash thread.** On every supported chip and for every
request, result of the buffer allocation, and uploaded file, the job is confined to the
request's partition exactly when the file fits; a job without a buffer or without a file
burns nothing. -/
theorem boardFlashJob_confined_iff {size capacity : ℕ} {l : FlashLayout}
    (hcap : capacity = size * 1024 * 1024) (hl : flashLayout (capacity / 1024 / 1024) = some l)
    (k : FlashKind) (mallocOk : Bool) (file : Option (List UInt8)) :
    Confined capacity (l.partition k) (boardFlashJob (l.partition k) mallocOk file) ↔
      (mallocOk = true → ∀ data, file = some data → FileFits l k data.length) := by
  have hsize : capacity / 1024 / 1024 = size := by omega
  rw [hsize] at hl
  subst hcap
  constructor
  · rintro hconf rfl data rfl
    by_contra hfit
    obtain ⟨e, he, x, hx, hout⟩ := exists_touches_of_not_fileFits hl hfit
    refine hout (hconf.touches e ?_ x hx)
    simp [boardFlashJob, he]
  · intro hfit
    refine confined_of_touches ?_
    intro e he x hx
    cases mallocOk with
    | false =>
        obtain rfl : e = .status 0 := by simpa [boardFlashJob] using he
        exact hx.elim
    | true =>
        cases file with
        | none =>
            rcases (by simpa [boardFlashJob] using he : e = .status 0 ∨ e = .status (-1))
              with rfl | rfl <;> exact hx.elim
        | some data =>
            have hmem : e = .status 0 ∨ e ∈ eraseLoop (l.partition k) (l.partition k).start ∨
                e ∈ writeLoop (l.partition k) (l.partition k).start ⟨data, 0⟩ ∨
                e = .status 100 := by
              simpa [boardFlashJob, or_assoc] using he
            rcases hmem with rfl | he | he | rfl
            · exact hx.elim
            · exact eraseLoop_touches hl k he hx
            · exact writeLoop_touches hl (hfit rfl data rfl) he hx
            · exact hx.elim

/-- On a 2 MB chip a one-byte bootloader image is burnt inside the bootloader partition. -/
theorem boardFlashJob_confined_uboot_one :
    Confined (2 * 1024 * 1024) ⟨0, 0x20000⟩ (boardFlashJob ⟨0, 0x20000⟩ true (some [1])) := by
  have hl : flashLayout (2 * 1024 * 1024 / 1024 / 1024) = some ⟨⟨0x20000, 0x1D0000⟩,
      ⟨0, 0x20000⟩, ⟨0x1F0000, 0x10000⟩, ⟨0, 0x200000⟩⟩ := rfl
  refine (boardFlashJob_confined_iff rfl hl .uboot true (some [1])).mpr ?_
  rintro - data hdata
  obtain rfl : [1] = data := Option.some.inj hdata
  exact .inl (by decide)

/-- On a 2 MB chip a firmware image one byte longer than its partition is not confined:
its last byte is programmed into the calibration partition. -/
theorem not_confined_firmware_overrun :
    ¬ Confined (2 * 1024 * 1024) ⟨0x20000, 0x1D0000⟩
      (boardFlashJob ⟨0x20000, 0x1D0000⟩ true (some (List.replicate 0x1D0001 0))) := by
  intro h
  have hfit : ¬ FileFits ⟨⟨0x20000, 0x1D0000⟩, ⟨0, 0x20000⟩, ⟨0x1F0000, 0x10000⟩, ⟨0, 0x200000⟩⟩
      .firmware (List.replicate 0x1D0001 (0 : UInt8)).length := by
    rw [List.length_replicate]
    rintro (h | h | ⟨h, -⟩)
    · exact absurd h (by decide)
    · exact absurd h (by decide)
    · exact absurd h (by decide)
  obtain ⟨e, he, x, hx, hout⟩ :=
    exists_touches_of_not_fileFits (rfl : flashLayout 2 = some _) hfit
  refine hout (h.touches e ?_ x hx)
  rw [boardFlashJob]
  exact List.mem_cons_of_mem _ (List.mem_append_left _ (List.mem_append_right _ he))

end RtBoot
