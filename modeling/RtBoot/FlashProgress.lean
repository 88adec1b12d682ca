import Mathlib.Data.List.Basic
import Mathlib.Tactic.Common
import RtBoot.Flash
import RtBoot.FlashStatus

/-!
# The Progress of a Flash Job

While a flash job runs, the upgrade page polls `board_flash_status` and stops at `100`.
The job computes the value twice: in the erase loop from the share of the partition that
is erased, and in the write loop, shifted by `50`, from the share of the *partition* that
the bytes of the file make up. The first loop ends with the partition, the second with
the file.

For a file that fits its partition the values climb from `0` to `100`, and `100` is only
reached behind the last write. A longer file reaches `100` at the end of the partition,
with the rest of the file still to be written, and goes beyond it.

## Main results

* `statuses_eraseLoop` and `statuses_writeLoop`: the values of the two loops climb, from
  `0` to `49` and from `50` to `100`.
* `lastWrite_mem_of_split` and `writeLoop_split`: what stands in front of a store of `100`
  when the file fits, and when it is longer than the partition.
* `boardFlashJob_progress_iff`: exactly when the reported progress is sound.
-/

namespace RtBoot

/-- The values `board_flash_status` takes, in order. -/
def statuses (es : List JobEvent) : List ℤ :=
  es.filterMap fun e => match e with
    | .status v => some v
    | _ => none

@[simp] theorem statuses_append (es es' : List JobEvent) :
    statuses (es ++ es') = statuses es ++ statuses es' :=
  List.filterMap_append

@[simp] theorem statuses_nil : statuses [] = [] :=
  rfl

@[simp] theorem statuses_cons_erase (addr size : ℕ) (es : List JobEvent) :
    statuses (.erase addr size :: es) = statuses es :=
  rfl

@[simp] theorem statuses_cons_write (addr : ℕ) (data : List UInt8) (es : List JobEvent) :
    statuses (.write addr data :: es) = statuses es :=
  rfl

@[simp] theorem statuses_cons_status (v : ℤ) (es : List JobEvent) :
    statuses (.status v :: es) = v :: statuses es :=
  rfl

/-- The event programs the byte `x`: it is a write that the chip accepts and that
succeeds. -/
def JobEvent.Programs (capacity : ℕ) (results : JobEvent → SfudResult) (e : JobEvent)
    (x : ℕ) : Prop :=
  (∃ addr data, e = .write addr data) ∧ results e = .success ∧ e.Touches capacity x

/-- The last byte of the file has been programmed by the events. A file that is empty or
not there has no last byte. -/
def LastByteProgrammed (capacity : ℕ) (results : JobEvent → SfudResult) (p : Partition)
    (file : Option (List UInt8)) (es : List JobEvent) : Prop :=
  ∀ data, file = some data → data ≠ [] →
    ∃ e ∈ es, e.Programs capacity results (p.start + (data.length - 1))

/-- **Sound progress.** The values of `board_flash_status` stay between `0` and `100`,
never decrease, and are `100` only behind the programming of the file's last byte. -/
structure SoundProgress (capacity : ℕ) (results : JobEvent → SfudResult) (p : Partition)
    (file : Option (List UInt8)) (es : List JobEvent) : Prop where
  range : ∀ v ∈ statuses es, 0 ≤ v ∧ v ≤ 100
  mono : (statuses es).Pairwise (· ≤ ·)
  done : ∀ before after, es = before ++ .status 100 :: after →
    LastByteProgrammed capacity results p file before

/-- The write of the last piece of a file that is not empty. -/
def lastWrite (p : Partition) (data : List UInt8) : JobEvent :=
  .write (p.start + (data.length - 1) / 0x1000 * 0x1000)
    (data.drop ((data.length - 1) / 0x1000 * 0x1000))

/-! ### The values of the two loops -/

variable {p : Partition} {data : List UInt8} {capacity : ℕ} {results : JobEvent → SfudResult}

/-- Up to the end of the partition the `int` arithmetic of the progress is exact. -/
theorem halfProgress_of_le (hend : p.start + p.length ≤ 16777216) {n : ℕ} (hn : n ≤ p.length) :
    halfProgress p (p.start + n) = (n * 100 / p.length / 2 : ℕ) := by
  have hcut : i32 ((p.start + n - p.start : ℤ) * 100) = ((n * 100 : ℕ) : ℤ) := by
    unfold i32
    rw [Int.bmod_def]
    split <;> push_cast <;> omega
  rw [halfProgress, hcut, ← Int.ofNat_tdiv]
  exact (Int.ofNat_tdiv _ 2).symm

/-- Half of the share of the partition is at most `50`, and less before its end. -/
theorem share_le {len n : ℕ} (hlen : 0 < len) (hn : n ≤ len) : n * 100 / len / 2 ≤ 50 := by
  have hle : n * 100 / len ≤ 100 := by
    rw [Nat.div_le_iff_le_mul_add_pred hlen]
    omega
  omega

theorem share_lt {len n : ℕ} (hn : n < len) : n * 100 / len / 2 ≤ 49 := by
  have hlt : n * 100 / len < 100 := by
    rw [Nat.div_lt_iff_lt_mul (by omega)]
    omega
  omega

theorem share_self {len : ℕ} (hlen : 0 < len) : len * 100 / len / 2 = 50 := by
  rw [Nat.mul_div_cancel_left 100 hlen]

theorem share_mono (len : ℕ) {m n : ℕ} (h : m ≤ n) : m * 100 / len / 2 ≤ n * 100 / len / 2 :=
  Nat.div_le_div_right (Nat.div_le_div_right (Nat.mul_le_mul_right 100 h))

/-- The erase loop: from block `j` on its values climb, from the share that lies before
the block up to `49`. -/
theorem statuses_eraseLoop (hend : p.start + p.length ≤ 16777216)
    {writeOff : ℤ} {j : ℕ} (hoff : writeOff = p.start + (4096 * j : ℕ)) :
    (statuses (eraseLoop p writeOff)).Pairwise (· ≤ ·) ∧
      ∀ v ∈ statuses (eraseLoop p writeOff),
        ((4096 * j * 100 / p.length / 2 : ℕ) : ℤ) ≤ v ∧ v ≤ 49 := by
  induction writeOff using eraseLoop.induct p generalizing j with
  | case1 writeOff hlt ih =>
      have hj : 4096 * j < p.length := by omega
      have hhere : halfProgress p writeOff = (4096 * j * 100 / p.length / 2 : ℕ) := by
        rw [hoff]
        exact halfProgress_of_le hend hj.le
      have hle : 4096 * j * 100 / p.length / 2 ≤ 4096 * (j + 1) * 100 / p.length / 2 :=
        share_mono p.length (by omega)
      have hsmall := share_lt hj
      obtain ⟨hsorted, hbound⟩ := ih (j := j + 1) (by push_cast at hoff ⊢; omega)
      rw [eraseLoop, if_pos hlt, statuses_cons_erase, statuses_cons_status, hhere]
      constructor
      · refine List.pairwise_cons.mpr ⟨?_, hsorted⟩
        intro v hv
        have := (hbound v hv).1
        omega
      · intro v hv
        rcases List.mem_cons.mp hv with rfl | hv
        · omega
        · have := hbound v hv
          omega
  | case2 writeOff hlt =>
      rw [eraseLoop, if_neg hlt]
      exact ⟨List.Pairwise.nil, fun v hv => absurd hv List.not_mem_nil⟩

/-- The values of the whole erase loop. -/
theorem statuses_eraseLoop_start (hend : p.start + p.length ≤ 16777216) :
    (statuses (eraseLoop p p.start)).Pairwise (· ≤ ·) ∧
      ∀ v ∈ statuses (eraseLoop p p.start), 0 ≤ v ∧ v ≤ 49 := by
  obtain ⟨hmono, hbound⟩ :=
    statuses_eraseLoop hend (show (p.start : ℤ) = p.start + (4096 * 0 : ℕ) by simp)
  refine ⟨hmono, ?_⟩
  intro v hv
  exact ⟨(Int.natCast_nonneg _).trans (hbound v hv).1, (hbound v hv).2⟩

/-- One round of the write loop on a position that is not at the end of the file. -/
theorem writeLoop_round {pos : ℕ} (hpos : pos < data.length) (hsmall : p.start + pos ≤ 16777216) :
    ∃ n, 0 < n ∧ n = min 4096 (data.length - pos) ∧
      writeLoop p (p.start + pos) ⟨data, pos⟩ =
        .write (p.start + pos) ((data.drop pos).take 4096) ::
          .status (halfProgress p (p.start + (pos + n : ℕ)) + 50) ::
            writeLoop p (p.start + (pos + n : ℕ)) ⟨data, pos + n⟩ := by
  have hlen := length_dfsRamfsRead ⟨data, pos⟩ 0x1000
  have htake := dfsRamfsRead_eq_take ⟨data, pos⟩ 0x1000
  have hfd : (dfsRamfsRead ⟨data, pos⟩ 0x1000).2 =
      ⟨data, pos + (dfsRamfsRead ⟨data, pos⟩ 0x1000).1.length⟩ := by
    rw [← dfsRamfsRead_pos ⟨data, pos⟩ 0x1000]
    rfl
  refine ⟨(dfsRamfsRead ⟨data, pos⟩ 0x1000).1.length, by simp only at hlen; omega, hlen, ?_⟩
  have haddr : u32 (p.start + pos) = p.start + pos := by
    unfold u32
    omega
  have hnext : i32 (p.start + pos + (dfsRamfsRead ⟨data, pos⟩ 0x1000).1.length) =
      p.start + (pos + (dfsRamfsRead ⟨data, pos⟩ 0x1000).1.length : ℕ) := by
    unfold i32
    rw [Int.bmod_def]
    split <;> omega
  rw [writeLoop, if_pos (by simp only at hlen; omega), haddr, hnext, hfd, htake]

/-- At the end of the file the write loop ends. -/
theorem writeLoop_of_ge {writeOff : ℤ} {pos : ℕ}
    (hpos : data.length ≤ pos) : writeLoop p writeOff ⟨data, pos⟩ = [] := by
  have hlen := length_dfsRamfsRead ⟨data, pos⟩ 0x1000
  rw [writeLoop, if_neg (by simp only at hlen; omega)]

/-- The write loop on a file that fits: its values climb, from the share that is written
up to `100`. -/
theorem statuses_writeLoop (hlen : 0 < p.length)
    (hend : p.start + p.length ≤ 16777216) (hfit : data.length ≤ p.length) (pos : ℕ) :
    (statuses (writeLoop p (p.start + pos) ⟨data, pos⟩)).Pairwise (· ≤ ·) ∧
      ∀ v ∈ statuses (writeLoop p (p.start + pos) ⟨data, pos⟩),
        ((pos * 100 / p.length / 2 : ℕ) : ℤ) + 50 ≤ v ∧ v ≤ 100 := by
  by_cases hpos : pos < data.length
  · obtain ⟨n, hn, hmin, hround⟩ := writeLoop_round (p := p) hpos (by omega)
    have hhere := halfProgress_of_le hend (show pos + n ≤ p.length by omega)
    have hle := share_le hlen (show pos + n ≤ p.length by omega)
    have hmono : pos * 100 / p.length / 2 ≤ (pos + n) * 100 / p.length / 2 :=
      share_mono p.length (by omega)
    obtain ⟨hsorted, hbound⟩ := statuses_writeLoop hlen hend hfit (pos + n)
    rw [hround, statuses_cons_write, statuses_cons_status, hhere]
    constructor
    · refine List.pairwise_cons.mpr ⟨?_, hsorted⟩
      intro v hv
      exact (hbound v hv).1
    · intro v hv
      rcases List.mem_cons.mp hv with rfl | hv
      · omega
      · have := hbound v hv
        omega
  · rw [writeLoop_of_ge (by omega)]
    exact ⟨List.Pairwise.nil, fun v hv => absurd hv List.not_mem_nil⟩
termination_by data.length - pos

/-! ### The store of `100` -/

/-- A list split in front of an element of a concatenation is split in one of its parts. -/
theorem append_eq_append_cons {α : Type*} {as bs before after : List α} {a : α}
    (h : as ++ bs = before ++ a :: after) :
    (∃ rest, as = before ++ a :: rest) ∨
      ∃ front, before = as ++ front ∧ bs = front ++ a :: after := by
  rcases List.append_eq_append_iff.mp h with ⟨front, hbefore, hbs⟩ | ⟨rest, has, hrest⟩
  · exact .inr ⟨front, hbefore, hbs⟩
  · cases rest with
    | nil => exact .inr ⟨[], by simpa using has.symm, by simpa using hrest.symm⟩
    | cons b rest =>
        obtain ⟨rfl, -⟩ := List.cons.inj hrest
        exact .inl ⟨rest, has⟩

/-- The write loop on a file that fits stores `100` only behind its last write. -/
theorem lastWrite_mem_of_split (hlen : 0 < p.length)
    (hend : p.start + p.length ≤ 16777216) (hfit : data.length ≤ p.length) (j : ℕ)
    {before after : List JobEvent}
    (h : writeLoop p (p.start + (4096 * j : ℕ)) ⟨data, 4096 * j⟩ = before ++ .status 100 :: after) :
    lastWrite p data ∈ before := by
  by_cases hpos : 4096 * j < data.length
  · obtain ⟨n, hn, hmin, hround⟩ := writeLoop_round (p := p) hpos (by omega)
    rw [hround] at h
    cases before with
    | nil => exact absurd (List.cons.inj h).1 (by simp)
    | cons e before =>
        rw [List.cons_append, List.cons.injEq] at h
        obtain ⟨rfl, hrest⟩ := h
        cases before with
        | nil =>
            -- the store behind this write: the share is whole, so the file ends here
            have hvalue := JobEvent.status.inj (List.cons.inj hrest).1
            rw [halfProgress_of_le hend (by omega)] at hvalue
            have hwhole : ¬ 4096 * j + n < p.length := by
              intro hlt
              have := share_lt hlt
              omega
            have hlast : (data.length - 1) / 4096 * 4096 = 4096 * j := by omega
            rw [lastWrite, hlast, List.take_of_length_le (by rw [List.length_drop]; omega)]
            exact List.mem_singleton_self _
        | cons e before =>
            rw [List.cons_append, List.cons.injEq] at hrest
            obtain ⟨rfl, hrest⟩ := hrest
            have hnext : 4096 * j + n = 4096 * (j + 1) ∨ data.length ≤ 4096 * j + n := by omega
            rcases hnext with hnext | hnext
            · rw [hnext] at hrest
              exact List.mem_cons_of_mem _ (List.mem_cons_of_mem _
                (lastWrite_mem_of_split hlen hend hfit (j + 1) hrest))
            · rw [writeLoop_of_ge hnext] at hrest
              exact absurd hrest (by simp)
  · rw [writeLoop_of_ge (by omega)] at h
    exact absurd h (by simp)
termination_by data.length - 4096 * j
decreasing_by omega

/-- A piece ends at most a block behind its address. -/
theorem write_touches_lt {addr x : ℕ}
    (h : (JobEvent.write addr (data.take 4096)).Touches capacity x) : x < addr + 4096 := by
  obtain ⟨-, -, hx⟩ := h
  have := List.length_take_le 4096 data
  omega

/-- The write loop on a longer file: the store behind its first `n` bytes, a number of
whole pieces, and in front of it only writes to these bytes. -/
theorem writeLoop_split (p : Partition) (data : List UInt8) (pos n : ℕ) (hn : 0 < n)
    (hpieces : n % 4096 = 0) (hlong : pos + n ≤ data.length)
    (hsmall : p.start + (pos + n) ≤ 16777216) :
    ∃ before after, writeLoop p (p.start + pos) ⟨data, pos⟩ =
        before ++ .status (halfProgress p (p.start + (pos + n : ℕ)) + 50) :: after ∧
      ∀ e ∈ before, ∀ capacity x, e.Touches capacity x → x < p.start + (pos + n) := by
  obtain ⟨m, -, hmin, hround⟩ :=
    writeLoop_round (p := p) (show pos < data.length by omega) (by omega)
  have hm : m = 4096 := by omega
  by_cases hlast : n = m
  · subst hlast
    refine ⟨[_], _, hround, ?_⟩
    intro e he capacity x hx
    obtain rfl := List.mem_singleton.mp he
    have := write_touches_lt hx
    omega
  · obtain ⟨before, after, hsplit, hbefore⟩ :=
      writeLoop_split p data (pos + m) (n - m) (by omega) (by omega) (by omega)
        (by omega)
    have hend : pos + m + (n - m) = pos + n := by omega
    rw [hend] at hsplit hbefore
    rw [hsplit] at hround
    refine ⟨_ :: _ :: before, after, hround, ?_⟩
    intro e he capacity x hx
    rcases List.mem_cons.mp he with rfl | he
    · have := write_touches_lt hx
      omega
    rcases List.mem_cons.mp he with rfl | he
    · exact hx.elim
    · exact hbefore e he capacity x hx
termination_by n

/-! ### The progress of the job -/

/-- No partition of the tables is empty. -/
theorem flashLayout_length_pos {size : ℕ} {l : FlashLayout} (hl : flashLayout size = some l)
    (k : FlashKind) : 0 < (l.partition k).length := by
  unfold flashLayout at hl
  split at hl
  all_goals first | cases hl; cases k <;> decide | exact absurd hl (by simp)

/-- The job of a request that has its buffer and its file. -/
theorem boardFlashJob_some (p : Partition) (data : List UInt8) :
    boardFlashJob p true (some data) = (.status 0 :: eraseLoop p p.start) ++
      (writeLoop p p.start ⟨data, 0⟩ ++ [.status 100]) := by
  simp [boardFlashJob]

/-- The last write of a file programs its last byte, when it succeeds on a chip that is
large enough. -/
theorem lastWrite_programs (hcap : p.start + data.length ≤ capacity) (hdata : data ≠ [])
    (hok : results (lastWrite p data) = .success) :
    (lastWrite p data).Programs capacity results (p.start + (data.length - 1)) := by
  have hpos : 0 < data.length := List.length_pos_of_ne_nil hdata
  refine ⟨⟨_, _, rfl⟩, hok, ?_⟩
  simp only [lastWrite, JobEvent.Touches, List.length_drop]
  omega

/-- No other event of the job of a file that fits programs its last byte. -/
theorem eq_lastWrite_of_programs (hend : p.start + p.length ≤ 16777216)
    (hfit : data.length ≤ p.length) {e : JobEvent} (he : e ∈ boardFlashJob p true (some data))
    (hprog : e.Programs capacity results (p.start + (data.length - 1))) :
    e = lastWrite p data := by
  obtain ⟨⟨addr, piece, rfl⟩, -, -, hlo, hhi⟩ := hprog
  have hmem : .write addr piece ∈ writeLoop p p.start ⟨data, 0⟩ := by
    have hcases : .write addr piece ∈ eraseLoop p p.start ∨
        .write addr piece ∈ writeLoop p p.start ⟨data, 0⟩ := by
      simpa [boardFlashJob] using he
    rcases hcases with hmem | hmem
    · rcases mem_eraseLoop hmem with ⟨v, hv⟩ | ⟨k, -, hk⟩
      · exact absurd hv (by simp)
      · exact absurd hk (by simp)
    · exact hmem
  obtain ⟨k, hk, rfl, rfl⟩ := mem_writeLoop.mp hmem
  simp only [Nat.zero_add, Nat.sub_zero] at hk ⊢
  have haddr : u32 (p.start + 4096 * k) = p.start + 4096 * k := by
    unfold u32
    omega
  simp only [haddr, List.length_take, List.length_drop, Nat.zero_add] at hlo hhi ⊢
  have hlast : (data.length - 1) / 4096 * 4096 = 4096 * k := by omega
  rw [lastWrite, hlast, List.take_of_length_le (by rw [List.length_drop]; omega)]

/-- The values of the job of a file that fits climb from `0` to `100`. -/
theorem statuses_boardFlashJob (hlen : 0 < p.length)
    (hend : p.start + p.length ≤ 16777216) (hfit : data.length ≤ p.length) :
    (statuses (boardFlashJob p true (some data))).Pairwise (· ≤ ·) ∧
      ∀ v ∈ statuses (boardFlashJob p true (some data)), 0 ≤ v ∧ v ≤ 100 := by
  obtain ⟨hmonoE, herase⟩ := statuses_eraseLoop_start hend
  obtain ⟨hmonoW, hboundW⟩ := statuses_writeLoop hlen hend hfit 0
  rw [Nat.cast_zero, add_zero] at hmonoW hboundW
  have hwrite : ∀ v ∈ statuses (writeLoop p p.start ⟨data, 0⟩), 50 ≤ v ∧ v ≤ 100 := by
    intro v hv
    exact ⟨(le_add_of_nonneg_left (Int.natCast_nonneg _)).trans (hboundW v hv).1,
      (hboundW v hv).2⟩
  rw [boardFlashJob_some]
  simp only [statuses_append, statuses_cons_status, statuses_nil, List.cons_append,
    List.pairwise_cons, List.pairwise_append, List.mem_append, List.mem_cons,
    List.not_mem_nil, or_false]
  refine ⟨⟨?_, hmonoE, ⟨hmonoW, ⟨by simp, List.Pairwise.nil⟩, ?_⟩, ?_⟩, ?_⟩
  · rintro v (hv | hv | rfl)
    · have := herase v hv
      omega
    · have := hwrite v hv
      omega
    · omega
  · rintro v hv w rfl
    exact (hwrite v hv).2
  · rintro v hv w (hw | rfl)
    · have := herase v hv
      have := hwrite w hw
      omega
    · have := herase v hv
      omega
  · rintro v (rfl | hv | hv | rfl)
    · omega
    · have := herase v hv
      omega
    · have := hwrite v hv
      omega
    · omega

/-- In the job of a file that fits, `100` is stored only behind the last write. -/
theorem lastWrite_mem_of_job_split (hlen : 0 < p.length)
    (hend : p.start + p.length ≤ 16777216) (hfit : data.length ≤ p.length) (hdata : data ≠ [])
    {before after : List JobEvent}
    (h : boardFlashJob p true (some data) = before ++ .status 100 :: after) :
    lastWrite p data ∈ before := by
  have hpos : 0 < data.length := List.length_pos_of_ne_nil hdata
  rw [boardFlashJob_some] at h
  rcases append_eq_append_cons h with ⟨rest, hrest⟩ | ⟨front, rfl, hfront⟩
  · -- the values of the erase loop are below `50`
    have hmem : (100 : ℤ) ∈ statuses (.status 0 :: eraseLoop p p.start) := by
      rw [hrest]
      simp
    rcases List.mem_cons.mp hmem with h100 | hmem
    · exact absurd h100 (by omega)
    · exact absurd ((statuses_eraseLoop_start hend).2 100 hmem).2 (by omega)
  · refine List.mem_append_right _ ?_
    rcases append_eq_append_cons hfront with ⟨rest, hrest⟩ | ⟨front', rfl, hfront'⟩
    · exact lastWrite_mem_of_split hlen hend hfit 0 (by simpa using hrest)
    · refine List.mem_append_left _ (mem_writeLoop.mpr ⟨(data.length - 1) / 4096, ?_, ?_, ?_⟩)
      · simp only [Nat.sub_zero]
        omega
      · unfold u32
        omega
      · simp only [Nat.zero_add, Nat.mul_comm 4096]
        rw [List.take_of_length_le (by rw [List.length_drop]; omega)]

/-- The job of a file that is longer than its partition stores `100` before it has written
the last byte. -/
theorem not_soundProgress_of_long (hlen : 0 < p.length) (hblocks : p.length % 4096 = 0)
    (hend : p.start + p.length ≤ 16777216) (hlong : p.length < data.length) :
    ¬ SoundProgress capacity results p (some data) (boardFlashJob p true (some data)) := by
  intro hsound
  obtain ⟨before, after, hsplit, hbefore⟩ :=
    writeLoop_split p data 0 p.length hlen hblocks (by omega) (by omega)
  have hvalue : halfProgress p (p.start + (0 + p.length : ℕ)) + 50 = 100 := by
    rw [Nat.zero_add, halfProgress_of_le hend le_rfl, share_self hlen]
    rfl
  rw [Nat.cast_zero, add_zero, hvalue] at hsplit
  have hjob : boardFlashJob p true (some data) =
      (.status 0 :: eraseLoop p p.start ++ before) ++ .status 100 :: (after ++ [.status 100]) := by
    rw [boardFlashJob_some, hsplit]
    simp
  obtain ⟨e, he, ⟨⟨addr, piece, rfl⟩, -, htouch⟩⟩ :=
    hsound.done _ _ hjob data rfl (List.ne_nil_of_length_pos (by omega))
  rcases List.mem_append.mp he with he | he
  · rcases List.mem_cons.mp he with he | he
    · exact absurd he (by simp)
    · rcases mem_eraseLoop he with ⟨v, hv⟩ | ⟨k, -, hk⟩
      · exact absurd hv (by simp)
      · exact absurd hk (by simp)
  · have := hbefore _ he _ _ htouch
    omega

/-- **The progress of a flash job.** On every chip the thread supports, for every request,
every result of the buffer allocation and of the driver's calls, and every uploaded file,
the values of `board_flash_status` are sound exactly when there is no buffer (the job then
stores nothing behind the first `0`), or the file can be opened, is no longer than the
request's partition, and the write of its last piece succeeds. -/
theorem boardFlashJob_progress_iff {capacity : ℕ} {l : FlashLayout}
    (hl : flashLayout (capacity / 1024 / 1024) = some l) (k : FlashKind) (mallocOk : Bool)
    (file : Option (List UInt8)) (results : JobEvent → SfudResult) :
    SoundProgress capacity results (l.partition k) file
        (boardFlashJob (l.partition k) mallocOk file) ↔
      (mallocOk = true → ∃ data, file = some data ∧ data.length ≤ (l.partition k).length ∧
        (data ≠ [] → results (lastWrite (l.partition k) data) = .success)) := by
  have hlen := flashLayout_length_pos hl k
  obtain ⟨-, hblocks, hchip, hsize⟩ := flashLayout_partition hl k
  have hend : (l.partition k).start + (l.partition k).length ≤ 16777216 := by omega
  constructor
  · rintro hsound rfl
    cases file with
    | none =>
        have := hsound.range (-1) (by simp [boardFlashJob])
        omega
    | some data =>
        have hfit : data.length ≤ (l.partition k).length := by
          by_contra hlong
          exact not_soundProgress_of_long hlen hblocks hend (by omega) hsound
        refine ⟨data, rfl, hfit, ?_⟩
        intro hdata
        have hsplit := (boardFlashJob_some (l.partition k) data).trans
          (List.append_assoc _ _ _).symm
        obtain ⟨e, he, hprog⟩ := hsound.done _ [] hsplit data rfl hdata
        have hjob : e ∈ boardFlashJob (l.partition k) true (some data) := by
          rw [hsplit]
          exact List.mem_append_left _ he
        rw [← eq_lastWrite_of_programs hend hfit hjob hprog]
        exact hprog.2.1
  · intro hcond
    cases mallocOk with
    | false =>
        refine ⟨by simp [boardFlashJob], by simp [boardFlashJob], ?_⟩
        intro before after h
        have hmem : (100 : ℤ) ∈ statuses (boardFlashJob (l.partition k) false file) := by
          rw [h]
          simp
        exact absurd hmem (by simp [boardFlashJob])
    | true =>
        obtain ⟨data, rfl, hfit, hok⟩ := hcond rfl
        obtain ⟨hmono, hrange⟩ := statuses_boardFlashJob hlen hend hfit
        refine ⟨hrange, hmono, ?_⟩
        rintro before after h data' hdata' hne
        obtain rfl := Option.some.inj hdata'
        exact ⟨_, lastWrite_mem_of_job_split hlen hend hfit hne h,
          lastWrite_programs (by omega) hne (hok hne)⟩

/-- A calibration file of one byte on an eight-megabyte chip. -/
theorem boardFlashJob_progress_art :
    SoundProgress 0x800000 (fun _ => .success) ⟨0x7F0000, 0x10000⟩ (some [0xA5])
      (boardFlashJob ⟨0x7F0000, 0x10000⟩ true (some [0xA5])) := by
  have hl : flashLayout (0x800000 / 1024 / 1024) = some
      ⟨⟨0x20000, 0x7D0000⟩, ⟨0, 0x20000⟩, ⟨0x7F0000, 0x10000⟩, ⟨0, 0x800000⟩⟩ := rfl
  exact (boardFlashJob_progress_iff hl .art true (some [0xA5]) (fun _ => .success)).mpr
    fun _ => ⟨_, rfl, by decide, fun _ => rfl⟩

/-- A calibration file that is one byte longer than its partition: the driver carries out
every call, and `100` is stored with the last byte still unwritten. -/
theorem boardFlashJob_done_too_early :
    ¬ SoundProgress 0x800000 (fun _ => .success) ⟨0x7F0000, 0x10000⟩
      (some (List.replicate 0x10001 0))
      (boardFlashJob ⟨0x7F0000, 0x10000⟩ true (some (List.replicate 0x10001 0))) :=
  not_soundProgress_of_long (by decide) (by decide) (by decide)
    (by rw [List.length_replicate]; decide)

end RtBoot
