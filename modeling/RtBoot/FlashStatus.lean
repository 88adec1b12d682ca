import Mathlib.Data.List.Basic
import Mathlib.Tactic.Common
import RtBoot.Flash

/-!
# The Reported Outcome of a Flash Job

When a flash job ends, `board_flash_status` is what the upgrade page shows the user. This
module asks whether that value is truthful. The job of `RtBoot.Flash` is taken with every
result its calls can have: the allocation and the `open` fail or not, `read` delivers the
file in any pieces and stops anywhere, and each `sfud_erase` and `sfud_write` succeeds or
fails. A failed driver call leaves anything in the bytes it was given (`SfudResult`); a
call past the end of the chip is refused as before.

The job looks at the results of the allocation, of `open` and of `read`, and at no result
of the driver. It stores `100` behind the write loop however that loop ended, and when
the allocation fails it leaves the `0` it started with.

## Main results

* `writeLoop_eq_writePieces`: with the pieces the ram file system delivers, the job is the
  one of `RtBoot.Flash`.
* `applyResults_eraseLoop` and `writePieces_holds_iff`: what the two loops leave on the
  chip.
* `jobOutcome_truthful_iff`: exactly when the reported outcome is truthful.
-/

namespace RtBoot

/-- How a driver call ended. A call that failed may have been carried out in part: `left`
is what the chip holds afterwards in the bytes of the call. -/
inductive SfudResult
  | success
  | failed (left : ℕ → UInt8)

/-- The chip after a driver call that ended with the given result. -/
def JobEvent.applyResult (capacity : ℕ) (r : SfudResult) (e : JobEvent) (flash : ℕ → UInt8)
    (x : ℕ) : UInt8 :=
  match r with
  | .success => e.apply capacity flash x
  | .failed left => if e.Touches capacity x then left x else flash x

/-- The chip after a job whose driver calls end with the given results. No call is made
twice in a job, so the results are a function of the call. -/
def applyResults (capacity : ℕ) (results : JobEvent → SfudResult) (es : List JobEvent)
    (flash : ℕ → UInt8) : ℕ → UInt8 :=
  es.foldl (fun m e => e.applyResult capacity (results e) m) flash

/-- The write loop on what its calls of `read` return: the pieces, up to the first result
that is not positive. -/
def writePieces (p : Partition) : ℤ → List (List UInt8) → List JobEvent
  | _, [] => []
  | writeOff, chunk :: rest =>
      let next := i32 (writeOff + chunk.length)
      .write (u32 writeOff) chunk :: .status (halfProgress p next + 50) ::
        writePieces p next rest

/-- The results of the calls of one job that are not driver calls. -/
structure CallResults where
  mallocOk : Bool
  openOk : Bool
  /-- what `read` returns, up to the first result that is not positive -/
  pieces : List (List UInt8)

/-- `read` delivers the file from its beginning on, in pieces of one to `0x1000` bytes, and
may stop before its end. -/
structure CallResults.ReadsFrom (c : CallResults) (data : List UInt8) : Prop where
  pos : ∀ chunk ∈ c.pieces, 0 < chunk.length
  le : ∀ chunk ∈ c.pieces, chunk.length ≤ 0x1000
  pre : ∃ rest, data = c.pieces.flatten ++ rest

/-- The job of one request under the given results. `open` without `O_CREAT` fails on a
file that is not there. -/
def boardFlashJobWith (p : Partition) (file : Option (List UInt8)) (c : CallResults) :
    List JobEvent :=
  .status 0 ::
    if c.mallocOk then
      if file.isSome ∧ c.openOk then
        eraseLoop p p.start ++ writePieces p p.start c.pieces ++ [.status 100]
      else [.status (-1)]
    else []

/-- The value of `board_flash_status` after the events. -/
def boardFlashStatus (es : List JobEvent) (status : ℤ) : ℤ :=
  es.foldl (fun s e => match e with | .status v => v | _ => s) status

/-- The body `cgi_upgrade_query_handler` sends. -/
def cgiUpgradeQueryHandler (status : ℤ) : String :=
  if 0 ≤ status ∧ status ≤ 100 then toString status else "SE"

/-- The chip holds the whole file at the beginning of the partition. A request whose file
is not there has nothing the chip could hold. -/
def HoldsFile (capacity : ℕ) (p : Partition) (file : Option (List UInt8))
    (flash : ℕ → UInt8) : Prop :=
  ∃ data, file = some data ∧ p.start + data.length ≤ capacity ∧
    ∀ i (h : i < data.length), flash (p.start + i) = data[i]

/-- **A truthful outcome.** The status is `100` exactly when the chip holds the file, and
otherwise it is one the upgrade page reports as an error. -/
structure Truthful (capacity : ℕ) (p : Partition) (file : Option (List UInt8))
    (status : ℤ) (flash : ℕ → UInt8) : Prop where
  done_iff : status = 100 ↔ HoldsFile capacity p file flash
  error : ¬ HoldsFile capacity p file flash → cgiUpgradeQueryHandler status = "SE"

/-! ### The pieces the ram file system delivers -/

/-- The results of `dfs_ramfs_read` up to the end of the file. -/
def ramfsPieces (fd : RamFd) : List (List UInt8) :=
  let chunk := (dfsRamfsRead fd 0x1000).1
  if 0 < chunk.length then chunk :: ramfsPieces (dfsRamfsRead fd 0x1000).2 else []
termination_by fd.data.length - fd.pos
decreasing_by
  rename_i h
  have hpos' : 0 < (dfsRamfsRead fd 0x1000).1.length := h
  have hlen := length_dfsRamfsRead fd 0x1000
  have hpos := dfsRamfsRead_pos fd 0x1000
  simp only [dfsRamfsRead_data]
  omega

/-- With the pieces of the ram file system the write loop is the one of the job without
failures. -/
theorem writeLoop_eq_writePieces (p : Partition) (writeOff : ℤ) (fd : RamFd) :
    writeLoop p writeOff fd = writePieces p writeOff (ramfsPieces fd) := by
  induction writeOff, fd using writeLoop.induct with
  | case1 writeOff fd chunk hlt next ih =>
      rw [writeLoop, if_pos hlt, ramfsPieces, if_pos hlt, writePieces]
      exact congrArg
        (fun es => .write (u32 writeOff) chunk :: .status (halfProgress p next + 50) :: es) ih
  | case2 writeOff fd chunk hlt =>
      rw [writeLoop, if_neg hlt, ramfsPieces, if_neg hlt, writePieces]

/-- A job none of whose calls fails is the job of `RtBoot.Flash`. -/
theorem boardFlashJob_eq_boardFlashJobWith (p : Partition) (data : List UInt8) :
    boardFlashJob p true (some data) =
      boardFlashJobWith p (some data) ⟨true, true, ramfsPieces ⟨data, 0⟩⟩ := by
  simp only [boardFlashJob, boardFlashJobWith, writeLoop_eq_writePieces]
  rfl

/-! ### What the loops leave on the chip -/

@[simp] theorem applyResult_status (capacity : ℕ) (r : SfudResult) (v : ℤ)
    (flash : ℕ → UInt8) : (JobEvent.status v).applyResult capacity r flash = flash := by
  funext x
  cases r <;> rfl

variable {capacity addr : ℕ} {p : Partition} {pieces : List (List UInt8)}

/-- A call leaves every byte it does not touch. -/
theorem applyResult_of_not_touches {e : JobEvent} {x : ℕ}
    (h : ¬ e.Touches capacity x) (r : SfudResult) (flash : ℕ → UInt8) :
    e.applyResult capacity r flash x = flash x := by
  cases r with
  | success => simp only [JobEvent.applyResult, JobEvent.apply, if_neg h]
  | failed left => simp only [JobEvent.applyResult, if_neg h]

theorem applyResults_cons (capacity : ℕ) (results : JobEvent → SfudResult) (e : JobEvent)
    (es : List JobEvent) (flash : ℕ → UInt8) :
    applyResults capacity results (e :: es) flash =
      applyResults capacity results es (e.applyResult capacity (results e) flash) :=
  rfl

theorem applyResults_append (capacity : ℕ) (results : JobEvent → SfudResult)
    (es es' : List JobEvent) (flash : ℕ → UInt8) :
    applyResults capacity results (es ++ es') flash =
      applyResults capacity results es' (applyResults capacity results es flash) :=
  List.foldl_append

/-- What the erase of the block of `x` leaves at `x`. -/
def erasedBlockByte (p : Partition) (results : JobEvent → SfudResult) (x : ℕ) : UInt8 :=
  match results (.erase (x - (x - p.start) % 0x1000) 0x1000) with
  | .success => 0xFF
  | .failed left => left x

/-- What the erase loop leaves at `x`. -/
def erasedByte (p : Partition) (results : JobEvent → SfudResult) (flash : ℕ → UInt8)
    (x : ℕ) : UInt8 :=
  if p.start ≤ x ∧ x < p.start + p.length then erasedBlockByte p results x else flash x

/-- From block `k` on the erase loop leaves in each block of the partition what the erase
of that block left, and does not touch the blocks before it. -/
theorem applyResults_eraseLoop_from
    (hlen : p.length % 4096 = 0) (hcap : p.start + p.length ≤ capacity)
    (hsmall : capacity < 2 ^ 31) (results : JobEvent → SfudResult) {writeOff : ℤ} {k : ℕ}
    (hoff : writeOff = p.start + 4096 * k) (flash : ℕ → UInt8) (x : ℕ) :
    applyResults capacity results (eraseLoop p writeOff) flash x =
      if p.start + 4096 * k ≤ x ∧ x < p.start + p.length then erasedBlockByte p results x
      else flash x := by
  induction writeOff using eraseLoop.induct p generalizing k flash with
  | case1 writeOff hlt ih =>
      have haddr : u32 writeOff = p.start + 4096 * k := by
        unfold u32
        omega
      have hnext : writeOff + 4096 = p.start + 4096 * (k + 1 : ℕ) := by
        push_cast
        omega
      rw [eraseLoop, if_pos hlt, applyResults_cons, applyResults_cons, applyResult_status,
        ih hnext, haddr]
      by_cases hx : p.start + 4096 * k ≤ x ∧ x < p.start + 4096 * (k + 1)
      · have htouch : (JobEvent.erase (p.start + 4096 * k) 4096).Touches capacity x :=
          ⟨by omega, by omega, by omega⟩
        have hblock : x - (x - p.start) % 4096 = p.start + 4096 * k := by omega
        rw [if_neg (by omega), if_pos (by omega), erasedBlockByte, hblock]
        cases results (.erase (p.start + 4096 * k) 4096) with
        | success => simp only [JobEvent.applyResult, JobEvent.apply, if_pos htouch]
        | failed left => simp only [JobEvent.applyResult, if_pos htouch]
      · have htouch : ¬ (JobEvent.erase (p.start + 4096 * k) 4096).Touches capacity x := by
          rintro ⟨-, h1, h2⟩
          omega
        rw [applyResult_of_not_touches htouch]
        split <;> split <;> first | rfl | omega
  | case2 writeOff hlt =>
      rw [eraseLoop, if_neg hlt, if_neg (by omega)]
      rfl

/-- What the erase loop of a job leaves on the chip. -/
theorem applyResults_eraseLoop (hlen : p.length % 4096 = 0) (hcap : p.start + p.length ≤ capacity)
    (hsmall : capacity < 2 ^ 31) (results : JobEvent → SfudResult) (flash : ℕ → UInt8) :
    applyResults capacity results (eraseLoop p p.start) flash = erasedByte p results flash := by
  funext x
  rw [applyResults_eraseLoop_from hlen hcap hsmall results (k := 0) (by simp), erasedByte]
  simp

/-- Every piece lands on the chip: over the bytes `before`, each write that succeeds finds
every bit set that its byte needs, and each write that fails leaves its bytes anyway. -/
def PiecesLand (results : JobEvent → SfudResult) (before : ℕ → UInt8) :
    ℕ → List (List UInt8) → Prop
  | _, [] => True
  | addr, chunk :: rest =>
      (∀ i (h : i < chunk.length),
        match results (.write addr chunk) with
        | .success => before (addr + i) &&& chunk[i] = chunk[i]
        | .failed left => left (addr + i) = chunk[i]) ∧
      PiecesLand results before (addr + chunk.length) rest

/-- Whether the pieces land depends on the bytes from their address on only. -/
theorem piecesLand_congr {results : JobEvent → SfudResult} {f g : ℕ → UInt8}
    (h : ∀ x, addr ≤ x → f x = g x) :
    PiecesLand results f addr pieces ↔ PiecesLand results g addr pieces := by
  induction pieces generalizing addr with
  | nil => exact Iff.rfl
  | cons chunk rest ih =>
      simp only [PiecesLand]
      rw [ih fun x hx => h x (by omega)]
      simp only [h _ (Nat.le_add_right addr _)]

/-- One turn of the write loop below the end of the chip. -/
theorem applyResults_writePieces_cons {chunk : List UInt8}
    {rest : List (List UInt8)} (hcap : addr + chunk.length ≤ capacity)
    (hsmall : capacity < 2 ^ 31) (p : Partition) (results : JobEvent → SfudResult)
    (flash : ℕ → UInt8) :
    applyResults capacity results (writePieces p addr (chunk :: rest)) flash =
      applyResults capacity results (writePieces p (addr + chunk.length : ℕ) rest)
        ((JobEvent.write addr chunk).applyResult capacity (results (.write addr chunk))
          flash) := by
  have haddr : u32 (addr : ℤ) = addr := u32_natCast_of_lt (by omega)
  have hnext : i32 ((addr : ℤ) + chunk.length) = (addr + chunk.length : ℕ) := by
    unfold i32
    rw [Int.bmod_def]
    push_cast
    split <;> omega
  rw [writePieces, applyResults_cons, applyResults_cons, applyResult_status, haddr, hnext]

/-- The write loop touches the bytes of its pieces only. -/
theorem applyResults_writePieces_outside
    (hcap : addr + pieces.flatten.length ≤ capacity) (hsmall : capacity < 2 ^ 31)
    (p : Partition) (results : JobEvent → SfudResult) (flash : ℕ → UInt8) {x : ℕ}
    (hx : x < addr ∨ addr + pieces.flatten.length ≤ x) :
    applyResults capacity results (writePieces p addr pieces) flash x = flash x := by
  induction pieces generalizing addr flash with
  | nil => rfl
  | cons chunk rest ih =>
      rw [List.flatten_cons, List.length_append] at hcap hx
      have htouch : ¬ (JobEvent.write addr chunk).Touches capacity x := by
        rintro ⟨-, h1, h2⟩
        omega
      rw [applyResults_writePieces_cons (by omega) hsmall, ih (by omega) _ (by omega),
        applyResult_of_not_touches htouch]

/-- The chip holds what was read exactly when every piece landed. -/
theorem writePieces_holds_iff
    (hcap : addr + pieces.flatten.length ≤ capacity) (hsmall : capacity < 2 ^ 31)
    (p : Partition) (results : JobEvent → SfudResult) (flash : ℕ → UInt8) :
    (∀ i (h : i < pieces.flatten.length),
        applyResults capacity results (writePieces p addr pieces) flash (addr + i) =
          pieces.flatten[i]) ↔
      PiecesLand results flash addr pieces := by
  induction pieces generalizing addr flash with
  | nil => simp [PiecesLand]
  | cons chunk rest ih =>
      rw [List.flatten_cons, List.length_append] at hcap
      set flash' := (JobEvent.write addr chunk).applyResult capacity
        (results (.write addr chunk)) flash with hflash'
      -- the rest of the loop neither sees nor changes this piece's bytes
      have hrest : PiecesLand results flash (addr + chunk.length) rest ↔
          PiecesLand results flash' (addr + chunk.length) rest := by
        refine piecesLand_congr ?_
        intro x hx
        refine (applyResult_of_not_touches ?_ _ flash).symm
        rintro ⟨-, h1, h2⟩
        omega
      have hpiece : ∀ i (h : i < chunk.length), (flash' (addr + i) = chunk[i] ↔
          match results (.write addr chunk) with
          | .success => flash (addr + i) &&& chunk[i] = chunk[i]
          | .failed left => left (addr + i) = chunk[i]) := by
        intro i hi
        have htouch : (JobEvent.write addr chunk).Touches capacity (addr + i) :=
          ⟨by omega, by omega, by omega⟩
        rw [hflash']
        cases results (.write addr chunk) with
        | success =>
            simp only [JobEvent.applyResult, JobEvent.apply, if_pos htouch,
              Nat.add_sub_cancel_left, List.getD_eq_getElem?_getD, List.getElem?_eq_getElem hi,
              Option.getD_some]
        | failed left => simp only [JobEvent.applyResult, if_pos htouch]
      rw [PiecesLand, hrest, ← ih (by omega) flash',
        applyResults_writePieces_cons (by omega) hsmall, ← hflash']
      constructor
      · intro hall
        constructor
        · intro i hi
          refine (hpiece i hi).mp ?_
          have h := hall i (by rw [List.flatten_cons, List.length_append]; omega)
          rw [applyResults_writePieces_outside (by omega) hsmall _ _ _ (by omega)] at h
          simpa only [List.flatten_cons, List.getElem_append_left hi] using h
        · intro i hi
          have h := hall (chunk.length + i) (by rw [List.flatten_cons, List.length_append]; omega)
          simpa [Nat.add_assoc] using h
      · rintro ⟨hhead, htail⟩ i hi
        by_cases hlt : i < chunk.length
        · rw [applyResults_writePieces_outside (by omega) hsmall _ _ _ (by omega)]
          simpa only [List.flatten_cons, List.getElem_append_left hlt]
            using (hpiece i hlt).mpr (hhead i hlt)
        · rw [List.flatten_cons, List.length_append] at hi
          have h := htail (i - chunk.length) (by omega)
          rw [show addr + chunk.length + (i - chunk.length) = addr + i by omega] at h
          simpa only [List.flatten_cons, List.getElem_append_right (Nat.le_of_not_lt hlt)] using h

/-! ### The outcome of a job -/

/-- The driver calls burn the file: it ends on the chip, every piece that was read lands
on what the erase loop left, and the bytes that were not read are there after the erase
loop already. -/
structure FileBurnt (capacity : ℕ) (p : Partition) (data : List UInt8)
    (pieces : List (List UInt8)) (results : JobEvent → SfudResult) (flash : ℕ → UInt8) :
    Prop where
  room : p.start + data.length ≤ capacity
  land : PiecesLand results (erasedByte p results flash) p.start pieces
  unread : ∀ i (h : i < data.length), pieces.flatten.length ≤ i →
    erasedByte p results flash (p.start + i) = data[i]

/-- A job that opens its file leaves the file on the chip exactly when its driver calls
burn it. -/
theorem boardFlashJobWith_holds_iff
    (hlen : p.length % 4096 = 0) (hcap : p.start + p.length ≤ capacity)
    (hsmall : capacity < 2 ^ 31) {data : List UInt8} {c : CallResults}
    (hmalloc : c.mallocOk = true) (hopen : c.openOk = true) (hread : c.ReadsFrom data)
    (results : JobEvent → SfudResult) (flash : ℕ → UInt8) :
    HoldsFile capacity p (some data)
        (applyResults capacity results (boardFlashJobWith p (some data) c) flash) ↔
      FileBurnt capacity p data c.pieces results flash := by
  obtain ⟨rest, hrest⟩ := hread.pre
  have hlength : data.length = c.pieces.flatten.length + rest.length := by
    rw [hrest, List.length_append]
  have happly : applyResults capacity results (boardFlashJobWith p (some data) c) flash =
      applyResults capacity results (writePieces p p.start c.pieces)
        (erasedByte p results flash) := by
    rw [boardFlashJobWith, if_pos hmalloc, if_pos ⟨rfl, hopen⟩, applyResults_cons,
      applyResult_status, applyResults_append, applyResults_append,
      applyResults_eraseLoop hlen hcap hsmall, applyResults_cons, applyResult_status]
    rfl
  rw [happly]
  constructor
  · rintro ⟨data', hdata', hroom, hall⟩
    obtain rfl : data = data' := Option.some.inj hdata'
    refine ⟨hroom, ?_, ?_⟩
    · refine (writePieces_holds_iff (by omega) hsmall p results _).mp ?_
      intro i hi
      have h := hall i (by omega)
      simpa only [hrest, List.getElem_append_left hi] using h
    · intro i hi hout
      rw [← hall i hi, applyResults_writePieces_outside (by omega) hsmall _ _ _ (by omega)]
  · intro hburnt
    have hroom := hburnt.room
    refine ⟨data, rfl, hroom, ?_⟩
    intro i hi
    by_cases hlt : i < c.pieces.flatten.length
    · have h := (writePieces_holds_iff (by omega) hsmall p results _).mpr hburnt.land i hlt
      simpa only [hrest, List.getElem_append_left hlt] using h
    · rw [applyResults_writePieces_outside (by omega) hsmall _ _ _ (by omega)]
      exact hburnt.unread i hi (by omega)

/-- The results under which the outcome is truthful. The buffer is allocated; a file that
is there but cannot be opened is not on the chip already; and the driver calls of a job
that opens its file burn it. -/
structure OutcomeSound (capacity : ℕ) (p : Partition) (file : Option (List UInt8))
    (c : CallResults) (results : JobEvent → SfudResult) (flash : ℕ → UInt8) : Prop where
  malloc : c.mallocOk = true
  unopened : c.openOk = false → ¬ HoldsFile capacity p file flash
  burnt : ∀ data, file = some data → c.openOk = true →
    FileBurnt capacity p data c.pieces results flash

/-- The status a job leaves. -/
theorem boardFlashStatus_boardFlashJobWith (p : Partition) (file : Option (List UInt8))
    (c : CallResults) (status : ℤ) :
    boardFlashStatus (boardFlashJobWith p file c) status =
      if c.mallocOk then if file.isSome ∧ c.openOk then 100 else -1 else 0 := by
  rw [boardFlashJobWith]
  split
  · split
    · simp [boardFlashStatus]
    · rfl
  · rfl

/-- A job that does not open its file leaves the chip as it was. -/
theorem applyResults_boardFlashJobWith_unopened (capacity : ℕ) (p : Partition)
    {file : Option (List UInt8)} {c : CallResults} (h : ¬ (file.isSome ∧ c.openOk = true))
    (results : JobEvent → SfudResult) (flash : ℕ → UInt8) :
    applyResults capacity results (boardFlashJobWith p file c) flash = flash := by
  rw [boardFlashJobWith, if_neg h, applyResults_cons, applyResult_status]
  split
  · rw [applyResults_cons, applyResult_status]
    rfl
  · rfl

/-- **Truthful outcomes.** On every supported chip, for every request, every file and every
pattern of results, the outcome a flash job reports is truthful exactly when its buffer
was allocated, a file that could not be opened was not on the chip already, and the driver
calls of a job that opened its file left the file on the chip. -/
theorem jobOutcome_truthful_iff {capacity : ℕ} {l : FlashLayout}
    (hl : flashLayout (capacity / 1024 / 1024) = some l) (k : FlashKind)
    {file : Option (List UInt8)} {c : CallResults}
    (hread : ∀ data, file = some data → c.ReadsFrom data) (results : JobEvent → SfudResult)
    (flash : ℕ → UInt8) (status : ℤ) :
    Truthful capacity (l.partition k) file
        (boardFlashStatus (boardFlashJobWith (l.partition k) file c) status)
        (applyResults capacity results (boardFlashJobWith (l.partition k) file c) flash) ↔
      OutcomeSound capacity (l.partition k) file c results flash := by
  obtain ⟨-, hlen, hle, hmax⟩ := flashLayout_partition hl k
  have hcap : (l.partition k).start + (l.partition k).length ≤ capacity := by omega
  have hsmall : capacity < 2 ^ 31 := by omega
  rw [boardFlashStatus_boardFlashJobWith]
  by_cases hmalloc : c.mallocOk = true
  · rw [if_pos hmalloc]
    by_cases hopened : file.isSome ∧ c.openOk = true
    · obtain ⟨data, rfl⟩ := Option.isSome_iff_exists.mp hopened.1
      have hholds := boardFlashJobWith_holds_iff hlen hcap hsmall hmalloc hopened.2
        (hread data rfl) results flash
      rw [if_pos hopened]
      constructor
      · intro ht
        refine ⟨hmalloc, ?_, ?_⟩
        · intro hno
          exact absurd hopened.2 (by simp [hno])
        · rintro data' hdata' -
          obtain rfl : data = data' := Option.some.inj hdata'
          exact hholds.mp (ht.done_iff.mp rfl)
      · intro hs
        have hburnt := hholds.mpr (hs.burnt data rfl hopened.2)
        exact ⟨⟨fun _ => hburnt, fun _ => rfl⟩, fun h => absurd hburnt h⟩
    · rw [if_neg hopened, applyResults_boardFlashJobWith_unopened capacity _ hopened]
      constructor
      · intro ht
        refine ⟨hmalloc, ?_, ?_⟩
        · intro _ hholds
          exact absurd (ht.done_iff.mpr hholds) (by decide)
        · rintro data rfl hopen
          exact absurd ⟨rfl, hopen⟩ hopened
      · intro hs
        -- without a file there is nothing to hold
        have hnot : ¬ HoldsFile capacity (l.partition k) file flash := by
          rintro ⟨data, rfl, hdata⟩
          refine hs.unopened ?_ ⟨data, rfl, hdata⟩
          simpa using hopened
        exact ⟨⟨fun h => absurd h (by decide), fun h => absurd h hnot⟩, fun _ => rfl⟩
  · -- the status is still the `0` the job started with, which is no error and not `100`
    rw [if_neg hmalloc]
    constructor
    · intro ht
      by_cases hholds : HoldsFile capacity (l.partition k) file
          (applyResults capacity results (boardFlashJobWith (l.partition k) file c) flash)
      · exact absurd (ht.done_iff.mpr hholds) (by decide)
      · exact absurd (ht.error hholds) (by decide)
    · intro hs
      exact absurd hs.malloc hmalloc

/-- On a 2 MB chip a one-byte bootloader image whose calls all succeed is reported
truthfully. -/
theorem jobOutcome_truthful_one_byte :
    Truthful 0x200000 ⟨0, 0x20000⟩ (some [1])
      (boardFlashStatus (boardFlashJobWith ⟨0, 0x20000⟩ (some [1]) ⟨true, true, [[1]]⟩) 0)
      (applyResults 0x200000 (fun _ => .success)
        (boardFlashJobWith ⟨0, 0x20000⟩ (some [1]) ⟨true, true, [[1]]⟩) fun _ => 0) := by
  have hl : flashLayout (0x200000 / 1024 / 1024) = some ⟨⟨0x20000, 0x1D0000⟩,
      ⟨0, 0x20000⟩, ⟨0x1F0000, 0x10000⟩, ⟨0, 0x200000⟩⟩ := rfl
  refine (jobOutcome_truthful_iff hl .uboot ?_ _ _ 0).mpr ⟨rfl, ?_, ?_⟩
  · rintro data hdata
    obtain rfl : [1] = data := Option.some.inj hdata
    exact ⟨by simp, by simp, [], rfl⟩
  · intro h
    exact absurd h (by simp)
  · rintro data hdata -
    obtain rfl : [1] = data := Option.some.inj hdata
    refine ⟨by decide, ⟨?_, trivial⟩, ?_⟩
    · intro i hi
      obtain rfl : i = 0 := by simpa using hi
      change (0xFF : UInt8) &&& 1 = 1
      decide
    · intro i hi hout
      exact absurd hi (Nat.not_lt.mpr hout)

/-- On a 2 MB chip the write of a one-byte bootloader image fails and leaves the erased
byte: the job reports `100` and the chip does not hold the image. -/
theorem not_truthful_failed_write :
    ¬ Truthful 0x200000 ⟨0, 0x20000⟩ (some [0])
      (boardFlashStatus (boardFlashJobWith ⟨0, 0x20000⟩ (some [0]) ⟨true, true, [[0]]⟩) 0)
      (applyResults 0x200000
        (fun e => if e = .write 0 [0] then .failed fun _ => 0xFF else .success)
        (boardFlashJobWith ⟨0, 0x20000⟩ (some [0]) ⟨true, true, [[0]]⟩) fun _ => 0) := by
  intro ht
  rw [boardFlashStatus_boardFlashJobWith] at ht
  have hread : (⟨true, true, [[0]]⟩ : CallResults).ReadsFrom [0] :=
    ⟨by simp, by simp, [], rfl⟩
  have hburnt := (boardFlashJobWith_holds_iff (p := ⟨0, 0x20000⟩) rfl (by decide) (by decide)
    rfl rfl hread _ _).mp (ht.done_iff.mp rfl)
  have h : (0xFF : UInt8) = 0 := hburnt.land.1 0 (by simp)
  exact absurd h (by decide)

end RtBoot
