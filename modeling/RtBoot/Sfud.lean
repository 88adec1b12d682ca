import Mathlib.Data.BitVec
import Mathlib.Data.List.Basic
import Mathlib.Tactic.Common

/-!
# The Serial Flash Driver

The driver turns a call such as `sfud_erase(flash, addr, size)` into a sequence of SPI
commands. The chip erases whole blocks only: an erase command clears the block its address
lies in, however large that block is on this chip, so what an erase touches depends on the
chip's own granularity. Programming clears bits, inside one page of 256 bytes at a time or
word by word with the address counted up by the chip (AAI).

The commands are modelled as the driver sends them, with the address as the three or four
bytes it puts on the bus, and the chip as the machine that carries them out
(`SpiNor.step`): it obeys an erase or program command only while its write enable latch is
set, erases exactly the block of the address, and wraps a page program at the end of the
page.

## Main results

* `run_sfudErase`: an erase clears exactly the blocks that its range meets.
* `run_page256Write` and `run_aaiWrite`: the two ways of programming write the data into
  erased flash and nothing else.
* `board_env_write_exact_iff`: on which chips saving the environment touches only its area.
-/

namespace RtBoot

/-! ### Chips -/

/-- `SFUD_WM_PAGE_256B`: write 1 to 256 bytes per page. -/
def sfudWmPage256B : BitVec 16 :=
  1 <<< 0

/-- `SFUD_WM_BYTE`: byte write. -/
def sfudWmByte : BitVec 16 :=
  1 <<< 1

/-- `SFUD_WM_AAI`: auto address increment. -/
def sfudWmAai : BitVec 16 :=
  1 <<< 2

/-- `SFUD_WM_DUAL_BUFFER`: dual-buffer write, like the AT45DB series. -/
def sfudWmDualBuffer : BitVec 16 :=
  1 <<< 3

/-- The chip information the driver works with. A chip without an erase granularity is
refused when the driver is initialised. -/
structure SfudFlashChip where
  name : String
  capacity : ℕ
  writeMode : BitVec 16
  eraseGran : ℕ
  eraseGranCmd : BitVec 8
  eraseGran_pos : 0 < eraseGran := by decide

/-- `SFUD_FLASH_CHIP_TABLE`. -/
def sfudFlashChipTable : List SfudFlashChip :=
  [ { name := "AT45DB161E", capacity := 2 * 1024 * 1024
      writeMode := sfudWmByte ||| sfudWmDualBuffer, eraseGran := 512, eraseGranCmd := 0x81 },
    { name := "W25Q40BV", capacity := 512 * 1024
      writeMode := sfudWmPage256B, eraseGran := 4096, eraseGranCmd := 0x20 },
    { name := "W25Q16BV", capacity := 2 * 1024 * 1024
      writeMode := sfudWmPage256B, eraseGran := 4096, eraseGranCmd := 0x20 },
    { name := "W25Q128BV", capacity := 16 * 1024 * 1024
      writeMode := sfudWmPage256B, eraseGran := 4096, eraseGranCmd := 0x20 },
    { name := "W25Q256FV", capacity := 32 * 1024 * 1024
      writeMode := sfudWmPage256B, eraseGran := 4096, eraseGranCmd := 0x20 },
    { name := "SST25VF016B", capacity := 2 * 1024 * 1024
      writeMode := sfudWmByte ||| sfudWmAai, eraseGran := 4096, eraseGranCmd := 0x20 },
    { name := "M25P32", capacity := 4 * 1024 * 1024
      writeMode := sfudWmPage256B, eraseGran := 64 * 1024, eraseGranCmd := 0xD8 },
    { name := "M25P80", capacity := 1 * 1024 * 1024
      writeMode := sfudWmPage256B, eraseGran := 64 * 1024, eraseGranCmd := 0xD8 },
    { name := "M25P40", capacity := 512 * 1024
      writeMode := sfudWmPage256B, eraseGran := 64 * 1024, eraseGranCmd := 0xD8 },
    { name := "EN25Q32B", capacity := 4 * 1024 * 1024
      writeMode := sfudWmPage256B, eraseGran := 4096, eraseGranCmd := 0x20 },
    { name := "GD25Q64B", capacity := 8 * 1024 * 1024
      writeMode := sfudWmPage256B, eraseGran := 4096, eraseGranCmd := 0x20 },
    { name := "GD25Q16B", capacity := 2 * 1024 * 1024
      writeMode := sfudWmPage256B, eraseGran := 4096, eraseGranCmd := 0x20 },
    { name := "S25FL216K", capacity := 2 * 1024 * 1024
      writeMode := sfudWmPage256B, eraseGran := 4096, eraseGranCmd := 0x20 },
    { name := "S25FL032P", capacity := 4 * 1024 * 1024
      writeMode := sfudWmPage256B, eraseGran := 4096, eraseGranCmd := 0x20 },
    { name := "A25L080", capacity := 1 * 1024 * 1024
      writeMode := sfudWmPage256B, eraseGran := 4096, eraseGranCmd := 0x20 },
    { name := "F25L004", capacity := 512 * 1024
      writeMode := sfudWmByte ||| sfudWmAai, eraseGran := 4096, eraseGranCmd := 0x20 },
    { name := "PCT25VF016B", capacity := 2 * 1024 * 1024
      writeMode := sfudWmByte ||| sfudWmAai, eraseGran := 4096, eraseGranCmd := 0x20 } ]

/-- A flash device: its chip, and whether it takes addresses of four bytes. -/
structure SfudFlash where
  chip : SfudFlashChip
  addrIn4Byte : Bool

/-! ### The driver -/

/-- A command on the bus, with its address as it is sent. -/
inductive SpiCmd where
  | setWriteEnabled (enabled : Bool)
  | eraseChip
  | erase (cmd : BitVec 8) (addr : List UInt8)
  | pageProgram (addr : List UInt8) (data : List UInt8)
  | aaiWordProgram (addr : Option (List UInt8)) (b₀ b₁ : UInt8)
  deriving DecidableEq

/-- `make_adress_byte_array`: the address, most significant byte first. -/
def makeAdressByteArray (flash : SfudFlash) (addr : ℕ) : List UInt8 :=
  let len := if flash.addrIn4Byte then 4 else 3
  (List.range len).map fun i => UInt8.ofNat (addr >>> ((len - (i + 1)) * 8))

/-- The bytes that a pointer and a size hand to the bus. -/
def bytesFrom (data : ℕ → UInt8) (size : ℕ) : List UInt8 :=
  (List.range size).map data

/-- The loop of `sfud_erase`: one command for each block, from `addr` on. -/
def sfudEraseLoop (flash : SfudFlash) (addr size : ℕ) : List SpiCmd :=
  if size = 0 then []
  else
    let curEraseSize := flash.chip.eraseGran
    .setWriteEnabled true :: .erase flash.chip.eraseGranCmd (makeAdressByteArray flash addr) ::
      if addr % curEraseSize ≠ 0 then
        if size > curEraseSize - addr % curEraseSize then
          sfudEraseLoop flash (addr + (curEraseSize - addr % curEraseSize))
            (size - (curEraseSize - addr % curEraseSize))
        else []
      else if size > curEraseSize then
        sfudEraseLoop flash (addr + curEraseSize) (size - curEraseSize)
      else []
termination_by size
decreasing_by
  · have := Nat.mod_lt addr flash.chip.eraseGran_pos
    omega
  · have := flash.chip.eraseGran_pos
    omega

/-- `sfud_erase`, where every command succeeds. The sum in the check of the bounds is one
of 32-bit words. -/
def sfudErase (flash : SfudFlash) (addr size : ℕ) : List SpiCmd :=
  if (addr + size) % 4294967296 > flash.chip.capacity then []
  else if addr = 0 ∧ size = flash.chip.capacity then
    [.setWriteEnabled true, .eraseChip, .setWriteEnabled false]
  else sfudEraseLoop flash addr size ++ [.setWriteEnabled false]

/-- The loop of `page256_or_1_byte_write`: one command for each piece that ends with a
multiple of `writeGran`. -/
def pageWriteLoop (flash : SfudFlash) {writeGran : ℕ} (hgran : 0 < writeGran) (addr size : ℕ)
    (data : ℕ → UInt8) : List SpiCmd :=
  if size = 0 then []
  else
    let dataSize :=
      if addr % writeGran ≠ 0 then
        if size > writeGran - addr % writeGran then writeGran - addr % writeGran else size
      else if size > writeGran then writeGran else size
    .setWriteEnabled true ::
      .pageProgram (makeAdressByteArray flash addr) (bytesFrom data dataSize) ::
      pageWriteLoop flash hgran (addr + dataSize) (size - dataSize) fun i => data (dataSize + i)
termination_by size
decreasing_by
  have := Nat.mod_lt addr hgran
  split <;> split <;> omega

/-- `page256_or_1_byte_write`. -/
def page256Or1ByteWrite (flash : SfudFlash) (addr size : ℕ) {writeGran : ℕ}
    (hgran : 0 < writeGran) (data : ℕ → UInt8) : List SpiCmd :=
  if (addr + size) % 4294967296 > flash.chip.capacity then []
  else pageWriteLoop flash hgran addr size data ++ [.setWriteEnabled false]

theorem page256_pos : 0 < 256 := by
  decide

/-- The loop of `aai_write`: word after word, only the first with its address. -/
def aaiLoop (addr : Option (List UInt8)) : ℕ → (ℕ → UInt8) → List SpiCmd
  | size + 2, data =>
      .aaiWordProgram addr (data 0) (data 1) :: aaiLoop none size fun i => data (i + 2)
  | _, _ => []

/-- `aai_write`: a first byte at an odd address and a last byte that has no partner are
written by themselves. -/
def aaiWrite (flash : SfudFlash) (addr size : ℕ) (data : ℕ → UInt8) : List SpiCmd :=
  if (addr + size) % 4294967296 > flash.chip.capacity then []
  else
    let odd := addr % 2
    let first :=
      if odd ≠ 0 then page256Or1ByteWrite flash addr 1 Nat.one_pos data else []
    let addr := addr + odd
    let size := (size + 4294967296 - odd) % 4294967296
    let data := fun i => data (odd + i)
    let last :=
      if size % 2 = 1 then
        page256Or1ByteWrite flash (addr + (size - 1)) 1 Nat.one_pos fun i => data (size - 1 + i)
      else []
    first ++ .setWriteEnabled true :: aaiLoop (some (makeAdressByteArray flash addr)) size data ++
      .setWriteEnabled false :: last

/-- `sfud_write`. The dual-buffer mode is not implemented: nothing is sent. -/
def sfudWrite (flash : SfudFlash) (addr size : ℕ) (data : ℕ → UInt8) : List SpiCmd :=
  if flash.chip.writeMode &&& sfudWmPage256B ≠ 0 then
    page256Or1ByteWrite flash addr size page256_pos data
  else if flash.chip.writeMode &&& sfudWmAai ≠ 0 then aaiWrite flash addr size data
  else if flash.chip.writeMode &&& sfudWmDualBuffer ≠ 0 then []
  else []

/-- `board_get_env_write`: erase the environment's area and write the buffer to it. -/
def boardGetEnvWrite (sfudDev : Option SfudFlash) (buffer : ℕ → UInt8) : List SpiCmd :=
  match sfudDev with
  | none => []
  | some dev => sfudErase dev 0x1D000 0x2000 ++ sfudWrite dev 0x1D000 0x2000 buffer

/-! ### The chip -/

/-- The state of a chip: its bytes, the write enable latch, and in AAI mode the address of
the next word. -/
structure SpiNor where
  content : ℕ → UInt8
  wel : Bool
  aai : Option ℕ

/-- The address the chip reads off the bus. -/
def busAddress (bytes : List UInt8) : ℕ :=
  bytes.foldl (fun a b => a * 256 + b.toNat) 0

/-- Erasing sets the block of the address to `0xFF`. -/
def eraseBlock (gran addr : ℕ) (content : ℕ → UInt8) (x : ℕ) : UInt8 :=
  if x / gran = addr / gran then 0xFF else content x

/-- Programming clears bits; behind the end of a page it goes on at the page's start. -/
def programPage (addr : ℕ) (data : List UInt8) (content : ℕ → UInt8) (x : ℕ) : UInt8 :=
  if x / 256 = addr / 256 then
    match data[(x % 256 + 256 - addr % 256) % 256]? with
    | some b => content x &&& b
    | none => content x
  else content x

/-- A word of the AAI mode. -/
def programWord (addr : ℕ) (b₀ b₁ : UInt8) (content : ℕ → UInt8) (x : ℕ) : UInt8 :=
  if x = addr then content x &&& b₀ else if x = addr + 1 then content x &&& b₁ else content x

/-- The chip carries out a command. -/
def SpiNor.step (chip : SfudFlashChip) (d : SpiNor) : SpiCmd → SpiNor
  | .setWriteEnabled enabled =>
      { d with wel := enabled, aai := if enabled then d.aai else none }
  | .eraseChip => if d.wel then ⟨fun _ => 0xFF, false, none⟩ else d
  | .erase cmd addr =>
      if d.wel ∧ cmd = chip.eraseGranCmd then
        ⟨eraseBlock chip.eraseGran (busAddress addr) d.content, false, none⟩
      else d
  | .pageProgram addr data =>
      if d.wel then ⟨programPage (busAddress addr) data d.content, false, none⟩ else d
  | .aaiWordProgram (some addr) b₀ b₁ =>
      if d.wel then
        ⟨programWord (busAddress addr) b₀ b₁ d.content, true, some (busAddress addr + 2)⟩
      else d
  | .aaiWordProgram none b₀ b₁ =>
      match d.aai with
      | some addr => ⟨programWord addr b₀ b₁ d.content, d.wel, some (addr + 2)⟩
      | none => d

/-- The chip carries out the commands one after the other. -/
def SpiNor.run (chip : SfudFlashChip) (d : SpiNor) (cmds : List SpiCmd) : SpiNor :=
  cmds.foldl (SpiNor.step chip) d

theorem SpiNor.run_append (chip : SfudFlashChip) (d : SpiNor) (cmds cmds' : List SpiCmd) :
    d.run chip (cmds ++ cmds') = (d.run chip cmds).run chip cmds' :=
  List.foldl_append

theorem SpiNor.run_cons (chip : SfudFlashChip) (d : SpiNor) (cmd : SpiCmd)
    (cmds : List SpiCmd) : d.run chip (cmd :: cmds) = (d.step chip cmd).run chip cmds :=
  rfl

variable {addr size : ℕ}

/-- The chip reads the address that the driver sends, below 16 MB in either mode. -/
theorem busAddress_makeAdressByteArray (flash : SfudFlash) (h : addr < 2 ^ 24) :
    busAddress (makeAdressByteArray flash addr) = addr := by
  cases hlen : flash.addrIn4Byte <;>
    simp [makeAdressByteArray, busAddress, hlen, List.range_succ, Nat.shiftRight_eq_div_pow] <;>
    omega

/-! ### Erasing -/

/-- The blocks that the range of `size` bytes from `addr` on meets are erased. -/
def erasedRange (gran addr size : ℕ) (content : ℕ → UInt8) (x : ℕ) : UInt8 :=
  if addr / gran ≤ x / gran ∧ x / gran ≤ (addr + size - 1) / gran then 0xFF else content x

/-- One round of the erase loop, for either case of the alignment. -/
theorem sfudEraseLoop_eq (flash : SfudFlash) (hsize : 0 < size) :
    sfudEraseLoop flash addr size =
      .setWriteEnabled true :: .erase flash.chip.eraseGranCmd (makeAdressByteArray flash addr) ::
        if size > flash.chip.eraseGran - addr % flash.chip.eraseGran then
          sfudEraseLoop flash (addr + (flash.chip.eraseGran - addr % flash.chip.eraseGran))
            (size - (flash.chip.eraseGran - addr % flash.chip.eraseGran))
        else [] := by
  rw [sfudEraseLoop, if_neg (by omega)]
  by_cases haligned : addr % flash.chip.eraseGran = 0
  · simp only [haligned, ne_eq, not_true_eq_false, if_false, Nat.sub_zero]
  · simp only [haligned, ne_eq, not_false_eq_true, if_true]

theorem run_erase (flash : SfudFlash) (h : addr < 2 ^ 24) (d : SpiNor) (cmds : List SpiCmd) :
    d.run flash.chip (.setWriteEnabled true ::
        .erase flash.chip.eraseGranCmd (makeAdressByteArray flash addr) :: cmds) =
      SpiNor.run flash.chip ⟨eraseBlock flash.chip.eraseGran addr d.content, false, none⟩ cmds := by
  simp [SpiNor.run_cons, SpiNor.step, busAddress_makeAdressByteArray flash h]

/-- The last block of a range that ends inside the block of its start. -/
theorem div_eq_of_size_le {gran : ℕ} (hgran : 0 < gran) (hsize : 0 < size)
    (hle : size ≤ gran - addr % gran) : (addr + size - 1) / gran = addr / gran := by
  have hmod := Nat.div_add_mod addr gran
  have hlt := Nat.mod_lt addr hgran
  refine Nat.div_eq_of_lt_le ?_ ?_
  · rw [Nat.mul_comm]
    omega
  · rw [Nat.add_mul, Nat.mul_comm, Nat.one_mul]
    omega

/-- The block behind that of `addr`. -/
theorem next_block_div {gran : ℕ} (hgran : 0 < gran) (addr : ℕ) :
    (addr + (gran - addr % gran)) / gran = addr / gran + 1 := by
  have hmod := Nat.div_add_mod addr gran
  have hlt := Nat.mod_lt addr hgran
  have hnext : addr + (gran - addr % gran) = (addr / gran + 1) * gran := by
    rw [Nat.add_mul, Nat.mul_comm, Nat.one_mul]
    omega
  rw [hnext, Nat.mul_div_cancel _ hgran]

/-- **The erase loop clears exactly the blocks its range meets.** -/
theorem run_sfudEraseLoop (flash : SfudFlash) (hsize : 0 < size)
    (hend : addr + size ≤ 2 ^ 24) (d : SpiNor) :
    d.run flash.chip (sfudEraseLoop flash addr size) =
      ⟨erasedRange flash.chip.eraseGran addr size d.content, false, none⟩ := by
  have hgran := flash.chip.eraseGran_pos
  induction hn : size using Nat.strongRecOn generalizing addr size d with
  | ind n ih =>
      subst hn
      have hlt := Nat.mod_lt addr hgran
      rw [sfudEraseLoop_eq flash hsize, run_erase flash (by omega)]
      split
      · next hmore =>
          -- the first block is erased by this command, the others by the rest of the loop
          have hnext := next_block_div hgran addr
          have hsum : addr + (flash.chip.eraseGran - addr % flash.chip.eraseGran) +
              (size - (flash.chip.eraseGran - addr % flash.chip.eraseGran)) = addr + size := by
            omega
          have hlast : addr / flash.chip.eraseGran + 1 ≤
              (addr + size - 1) / flash.chip.eraseGran := by
            rw [← hnext]
            exact Nat.div_le_div_right (by omega)
          rw [ih (size - (flash.chip.eraseGran - addr % flash.chip.eraseGran)) (by omega) (by omega)
            (by omega) _ rfl]
          congr 1
          funext x
          simp only [erasedRange, eraseBlock, hnext, hsum]
          by_cases hfirst : x / flash.chip.eraseGran = addr / flash.chip.eraseGran
          · rw [if_pos hfirst, ite_self, if_pos (by omega)]
          · rw [if_neg hfirst]
            exact if_congr (by omega) rfl rfl
      · next hstop =>
          have hlast := div_eq_of_size_le hgran hsize (Nat.le_of_not_lt hstop)
          rw [SpiNor.run, List.foldl_nil]
          congr 1
          funext x
          simp only [erasedRange, eraseBlock, hlast]
          exact if_congr (by omega) rfl rfl

/-- **`sfud_erase` clears exactly the blocks its range meets.** -/
theorem run_sfudErase (flash : SfudFlash) (hsize : 0 < size) (haddr : addr ≠ 0)
    (hend : addr + size ≤ 2 ^ 24) (hcap : addr + size ≤ flash.chip.capacity) (d : SpiNor) :
    d.run flash.chip (sfudErase flash addr size) =
      ⟨erasedRange flash.chip.eraseGran addr size d.content, false, none⟩ := by
  have hbound : ¬ (addr + size) % 4294967296 > flash.chip.capacity := by
    have := Nat.mod_le (addr + size) 4294967296
    omega
  rw [sfudErase, if_neg hbound, if_neg (fun h => haddr h.1), SpiNor.run_append,
    run_sfudEraseLoop flash hsize hend]
  rfl

/-! ### Programming -/

/-- The bits of `data` are cleared in the `size` bytes from `addr` on. -/
def programRange (addr size : ℕ) (data : ℕ → UInt8) (content : ℕ → UInt8) (x : ℕ) : UInt8 :=
  if addr ≤ x ∧ x < addr + size then content x &&& data (x - addr) else content x

theorem programRange_zero (addr : ℕ) (data content : ℕ → UInt8) :
    programRange addr 0 data content = content := by
  funext x
  rw [programRange, if_neg (by omega)]

/-- Programming an erased byte stores it. -/
theorem erased_and (b : UInt8) : 0xFF &&& b = b :=
  UInt8.neg_one_and

/-- A range is programmed piece by piece. -/
theorem programRange_add (addr m n : ℕ) (data content : ℕ → UInt8) :
    programRange (addr + m) n (fun i => data (m + i)) (programRange addr m data content) =
      programRange addr (m + n) data content := by
  funext x
  simp only [programRange]
  by_cases hm : addr ≤ x ∧ x < addr + m
  · rw [if_pos hm, if_neg (by omega), if_pos (by omega)]
  · rw [if_neg hm]
    by_cases hn : addr + m ≤ x ∧ x < addr + m + n
    · have hoff : m + (x - (addr + m)) = x - addr := by omega
      rw [if_pos hn, if_pos (by omega), hoff]
    · rw [if_neg hn, if_neg (by omega)]

/-- A page program that does not pass the end of its page. -/
theorem programPage_bytesFrom (hpage : addr % 256 + size ≤ 256) (data content : ℕ → UInt8) :
    programPage addr (bytesFrom data size) content = programRange addr size data content := by
  funext x
  rw [programPage, programRange]
  by_cases hx : addr ≤ x ∧ x < addr + size
  · have hsame : x / 256 = addr / 256 := by omega
    have hoff : (x % 256 + 256 - addr % 256) % 256 = x - addr := by omega
    have hlt : x - addr < size := by omega
    rw [if_pos hsame, if_pos hx, hoff]
    simp [bytesFrom, hlt]
  · rw [if_neg hx]
    split
    · next hsame =>
        have hout : size ≤ (x % 256 + 256 - addr % 256) % 256 := by omega
        simp [bytesFrom, hout]
    · rfl

/-- One round of the write loop with pages of 256 bytes. -/
theorem pageWriteLoop_eq (flash : SfudFlash) (addr : ℕ) (hsize : 0 < size) (data : ℕ → UInt8) :
    ∃ n, 0 < n ∧ n ≤ size ∧ addr % 256 + n ≤ 256 ∧
      pageWriteLoop flash page256_pos addr size data =
        .setWriteEnabled true :: .pageProgram (makeAdressByteArray flash addr) (bytesFrom data n) ::
          pageWriteLoop flash page256_pos (addr + n) (size - n) fun i => data (n + i) := by
  rw [pageWriteLoop, if_neg (by omega)]
  refine ⟨_, ?_, ?_, ?_, rfl⟩ <;> split <;> split <;> omega

theorem run_pageProgram (flash : SfudFlash) (h : addr < 2 ^ 24) (d : SpiNor)
    (data : List UInt8) (cmds : List SpiCmd) :
    d.run flash.chip (.setWriteEnabled true ::
        .pageProgram (makeAdressByteArray flash addr) data :: cmds) =
      SpiNor.run flash.chip ⟨programPage addr data d.content, false, none⟩ cmds := by
  simp [SpiNor.run_cons, SpiNor.step, busAddress_makeAdressByteArray flash h]

theorem run_pageWriteLoop (flash : SfudFlash) (hend : addr + size ≤ 2 ^ 24)
    (data : ℕ → UInt8) (d : SpiNor) :
    (d.run flash.chip (pageWriteLoop flash page256_pos addr size data)).content =
      programRange addr size data d.content := by
  induction hn : size using Nat.strongRecOn generalizing addr size data d with
  | ind n ih =>
      subst hn
      rcases Nat.eq_zero_or_pos size with rfl | hsize
      · rw [pageWriteLoop, if_pos rfl, programRange_zero]
        rfl
      · obtain ⟨n, hpos, hle, hpage, heq⟩ := pageWriteLoop_eq flash addr hsize data
        rw [heq, run_pageProgram flash (by omega), programPage_bytesFrom hpage,
          ih (size - n) (by omega) (by omega) _ _ rfl]
        have := programRange_add addr n (size - n) data d.content
        rwa [Nat.add_sub_cancel' hle] at this

/-- **Page by page, the data is programmed and nothing else.** -/
theorem run_page256Write (flash : SfudFlash) (hend : addr + size ≤ 2 ^ 24)
    (hcap : addr + size ≤ flash.chip.capacity) (data : ℕ → UInt8) (d : SpiNor) :
    (d.run flash.chip
        (page256Or1ByteWrite flash addr size page256_pos data)).content =
      programRange addr size data d.content := by
  have hbound : ¬ (addr + size) % 4294967296 > flash.chip.capacity := by
    have := Nat.mod_le (addr + size) 4294967296
    omega
  rw [page256Or1ByteWrite, if_neg hbound, SpiNor.run_append, ← run_pageWriteLoop flash hend]
  rfl

theorem programWord_eq (addr : ℕ) (data content : ℕ → UInt8) :
    programWord addr (data 0) (data 1) content = programRange addr 2 data content := by
  funext x
  rw [programWord, programRange]
  by_cases h₀ : x = addr
  · subst h₀
    rw [if_pos rfl, if_pos (by omega), Nat.sub_self]
  · by_cases h₁ : x = addr + 1
    · subst h₁
      rw [if_neg h₀, if_pos rfl, if_pos (by omega), Nat.add_sub_cancel_left]
    · rw [if_neg h₀, if_neg h₁, if_neg (by omega)]

/-- Further words follow where the last one ended. -/
theorem run_aaiLoop_none (chip : SfudFlashChip) (n : ℕ) (data : ℕ → UInt8)
    {d : SpiNor} (haddr : d.aai = some addr) :
    (d.run chip (aaiLoop none (2 * n) data)).content =
      programRange addr (2 * n) data d.content := by
  induction n generalizing addr data d with
  | zero =>
      rw [Nat.mul_zero, programRange_zero]
      rfl
  | succ n ih =>
      have hstep : d.step chip (.aaiWordProgram none (data 0) (data 1)) =
          ⟨programRange addr 2 data d.content, d.wel, some (addr + 2)⟩ := by
        simp only [SpiNor.step, haddr, programWord_eq]
      have hdata : (fun i => data (i + 2)) = fun i => data (2 + i) := by
        funext i
        rw [Nat.add_comm]
      rw [Nat.mul_succ, aaiLoop, SpiNor.run_cons, hstep, ih _ rfl, hdata, programRange_add,
        Nat.add_comm]

/-- **Word by word, the data is programmed and nothing else**, at an even address and of
an even size. -/
theorem run_aaiWrite (flash : SfudFlash) {n : ℕ} (heven : addr % 2 = 0) (hn : 0 < n)
    (hend : addr + 2 * n ≤ 2 ^ 24) (hcap : addr + 2 * n ≤ flash.chip.capacity)
    (data : ℕ → UInt8) (d : SpiNor) :
    (d.run flash.chip (aaiWrite flash addr (2 * n) data)).content =
      programRange addr (2 * n) data d.content := by
  have hbound : ¬ (addr + 2 * n) % 4294967296 > flash.chip.capacity := by
    have := Nat.mod_le (addr + 2 * n) 4294967296
    omega
  have hsize : (2 * n + 4294967296 - 0) % 4294967296 = 2 * n := by omega
  obtain ⟨m, rfl⟩ : ∃ m, n = m + 1 := ⟨n - 1, by omega⟩
  -- the command that opens the mode carries the first word
  have hopen : (d.step flash.chip (.setWriteEnabled true)).step flash.chip
      (.aaiWordProgram (some (makeAdressByteArray flash addr)) (data 0) (data 1)) =
        ⟨programRange addr 2 data d.content, true, some (addr + 2)⟩ := by
    simp only [SpiNor.step, if_true,
      busAddress_makeAdressByteArray flash (by omega : addr < 2 ^ 24), programWord_eq]
  have hdata : (fun i => data (i + 2)) = fun i => data (2 + i) := by
    funext i
    rw [Nat.add_comm]
  have hcmds : aaiWrite flash addr (2 * (m + 1)) data =
      .setWriteEnabled true ::
        .aaiWordProgram (some (makeAdressByteArray flash addr)) (data 0) (data 1) ::
          (aaiLoop none (2 * m) (fun i => data (2 + i)) ++ [.setWriteEnabled false]) := by
    rw [← hdata]
    simp only [aaiWrite, if_neg hbound, heven, ne_eq, not_true_eq_false, if_false, hsize,
      Nat.zero_add, Nat.add_zero, Nat.mul_mod_right, Nat.zero_ne_one, List.nil_append]
    rfl
  have hrest : (SpiNor.run flash.chip
      ⟨programRange addr 2 data d.content, true, some (addr + 2)⟩
      (aaiLoop none (2 * m) fun i => data (2 + i))).content =
        programRange addr (2 + 2 * m) data d.content :=
    (run_aaiLoop_none flash.chip m _ rfl).trans (programRange_add addr 2 (2 * m) data d.content)
  rw [hcmds, SpiNor.run_cons, SpiNor.run_cons, hopen, SpiNor.run_append, Nat.mul_succ,
    Nat.add_comm (2 * m)]
  exact hrest

/-! ### The environment's area -/

/-- `x` is an address of the environment's area. -/
def InEnvArea (x : ℕ) : Prop :=
  0x1D000 ≤ x ∧ x < 0x1F000
  deriving Decidable

/-- Saving the environment leaves the buffer in its area and every other byte alone. -/
def EnvWriteExact (flash : SfudFlash) (buffer : ℕ → UInt8) (d : SpiNor) : Prop :=
  ∀ x, (d.run flash.chip (boardGetEnvWrite (some flash) buffer)).content x =
    if InEnvArea x then buffer (x - 0x1D000) else d.content x

/-- What the chips of the table have in common: the area lies inside them, they erase in
blocks of 512, 4096 or 65536 bytes, and only the dual-buffer chips cannot be written. -/
theorem sfudFlashChipTable_spec : ∀ chip ∈ sfudFlashChipTable, 0x1F000 ≤ chip.capacity ∧
    (chip.eraseGran = 512 ∨ chip.eraseGran = 4096 ∨ chip.eraseGran = 0x10000) ∧
    (chip.writeMode &&& sfudWmDualBuffer ≠ 0 ↔
      chip.writeMode &&& sfudWmPage256B = 0 ∧ chip.writeMode &&& sfudWmAai = 0) := by
  decide

/-- The bytes an erase of the area clears besides it, on the chips of the table. -/
theorem erasedRange_envArea {gran : ℕ} (hgran : gran = 512 ∨ gran = 4096 ∨ gran = 0x10000)
    (content : ℕ → UInt8) (x : ℕ) :
    erasedRange gran 0x1D000 0x2000 content x =
      if InEnvArea x ∨ gran = 0x10000 ∧ 0x10000 ≤ x ∧ x < 0x20000 then 0xFF else content x := by
  refine if_congr ?_ rfl rfl
  rw [InEnvArea]
  rcases hgran with rfl | rfl | rfl <;> omega

/-- Writing to the area on the chips of the table. -/
theorem run_sfudWrite_envArea {flash : SfudFlash} (hchip : flash.chip ∈ sfudFlashChipTable)
    (buffer : ℕ → UInt8) (d : SpiNor) :
    (d.run flash.chip (sfudWrite flash 0x1D000 0x2000 buffer)).content =
      if flash.chip.writeMode &&& sfudWmDualBuffer ≠ 0 then d.content
      else programRange 0x1D000 0x2000 buffer d.content := by
  obtain ⟨hcap, -, hmode⟩ := sfudFlashChipTable_spec flash.chip hchip
  rw [sfudWrite]
  by_cases hpage : flash.chip.writeMode &&& sfudWmPage256B = 0
  · by_cases haai : flash.chip.writeMode &&& sfudWmAai = 0
    · rw [if_neg (not_not.mpr hpage), if_neg (not_not.mpr haai), if_pos (hmode.mpr ⟨hpage, haai⟩),
        if_pos (hmode.mpr ⟨hpage, haai⟩)]
      rfl
    · rw [if_neg (not_not.mpr hpage), if_pos haai, if_neg fun h => haai (hmode.mp h).2]
      exact run_aaiWrite flash (n := 0x1000) (by decide) (by decide) (by decide) hcap buffer d
  · rw [if_pos hpage, if_neg fun h => hpage (hmode.mp h).1]
    exact run_page256Write flash (by decide) hcap buffer d

/-- What saving the environment leaves at each address. -/
theorem run_boardGetEnvWrite {flash : SfudFlash} (hchip : flash.chip ∈ sfudFlashChipTable)
    (buffer : ℕ → UInt8) (d : SpiNor) (x : ℕ) :
    (d.run flash.chip (boardGetEnvWrite (some flash) buffer)).content x =
      if InEnvArea x then
        if flash.chip.writeMode &&& sfudWmDualBuffer ≠ 0 then 0xFF else buffer (x - 0x1D000)
      else if flash.chip.eraseGran = 0x10000 ∧ 0x10000 ≤ x ∧ x < 0x20000 then 0xFF
      else d.content x := by
  obtain ⟨hcap, hgran, -⟩ := sfudFlashChipTable_spec flash.chip hchip
  have herased := erasedRange_envArea hgran d.content x
  rw [boardGetEnvWrite, SpiNor.run_append,
    run_sfudErase flash (by decide) (by decide) (by decide) hcap, run_sfudWrite_envArea hchip]
  by_cases harea : InEnvArea x
  · rw [if_pos (.inl harea)] at herased
    rw [if_pos harea]
    split
    · exact herased
    · have hprog : ∀ c, programRange 0x1D000 0x2000 buffer c x = c x &&& buffer (x - 0x1D000) :=
        fun c => if_pos harea
      rw [hprog]
      simp only [herased, erased_and]
  · rw [if_neg harea]
    have hprog : ∀ c, programRange 0x1D000 0x2000 buffer c x = c x := fun c => if_neg harea
    simp only [harea, false_or] at herased
    split
    · exact herased
    · exact (hprog _).trans herased

/-- **On which chips saving the environment touches only its area.** For every chip of the
table, every content of the flash and every buffer: afterwards the area holds the buffer
and every other byte is what it was, exactly when, on a chip that erases in blocks of 64 KB,
the rest of the block of the area was erased already, and, on a dual-buffer chip, the buffer
is as empty as the erased area. -/
theorem board_env_write_exact_iff {flash : SfudFlash} (hchip : flash.chip ∈ sfudFlashChipTable)
    (buffer : ℕ → UInt8) (d : SpiNor) :
    EnvWriteExact flash buffer d ↔
      (flash.chip.eraseGran = 0x10000 →
        ∀ x, 0x10000 ≤ x → x < 0x20000 → ¬ InEnvArea x → d.content x = 0xFF) ∧
      (flash.chip.writeMode &&& sfudWmDualBuffer ≠ 0 → ∀ i < 0x2000, buffer i = 0xFF) := by
  simp only [EnvWriteExact, run_boardGetEnvWrite hchip]
  constructor
  · intro h
    refine ⟨fun hgran x hlo hhi hout => ?_, fun hdual i hi => ?_⟩
    · have hx := h x
      rw [if_neg hout, if_neg hout, if_pos ⟨hgran, hlo, hhi⟩] at hx
      exact hx.symm
    · have harea : InEnvArea (0x1D000 + i) := ⟨by omega, by omega⟩
      have hx := h (0x1D000 + i)
      rw [if_pos harea, if_pos harea, if_pos hdual, Nat.add_sub_cancel_left] at hx
      exact hx.symm
  · rintro ⟨hblock, hdual⟩ x
    by_cases harea : InEnvArea x
    · rw [if_pos harea, if_pos harea]
      split
      · next hmode => exact (hdual hmode _ (by have := harea.1; have := harea.2; omega)).symm
      · rfl
    · rw [if_neg harea, if_neg harea]
      split
      · next h => exact (hblock h.1 x h.2.1 h.2.2 harea).symm
      · rfl

/-- On a chip with sectors of 4 KB, saving over a full flash is exact. -/
theorem board_env_write_exact_w25q128bv :
    ∃ flash : SfudFlash, flash.chip.name = "W25Q128BV" ∧ flash.chip ∈ sfudFlashChipTable ∧
      EnvWriteExact flash (fun _ => 0x41) ⟨fun _ => 0, false, none⟩ := by
  refine ⟨⟨sfudFlashChipTable.get ⟨3, by decide⟩, false⟩, rfl, List.get_mem _ _, ?_⟩
  exact (board_env_write_exact_iff (List.get_mem _ _) _ _).mpr
    ⟨fun h => absurd h (by decide), fun h => absurd h (by decide)⟩

/-- On the M25P80, which erases blocks of 64 KB, saving the environment erases the boot
loader's code from `0x10000` on. -/
theorem board_env_write_erases_code :
    ∃ flash : SfudFlash, flash.chip.name = "M25P80" ∧ flash.chip ∈ sfudFlashChipTable ∧
      (SpiNor.run flash.chip ⟨fun _ => 0, false, none⟩
        (boardGetEnvWrite (some flash) fun _ => 0x41)).content 0x10000 = 0xFF ∧
      ¬ EnvWriteExact flash (fun _ => 0x41) ⟨fun _ => 0, false, none⟩ := by
  obtain ⟨flash, hflash⟩ : ∃ flash : SfudFlash,
      flash.chip = sfudFlashChipTable.get ⟨7, by decide⟩ := ⟨⟨_, false⟩, rfl⟩
  have hmem : flash.chip ∈ sfudFlashChipTable := hflash ▸ List.get_mem _ _
  have hgran : flash.chip.eraseGran = 0x10000 := by
    rw [hflash]
    rfl
  have herased : (SpiNor.run flash.chip ⟨fun _ => 0, false, none⟩
      (boardGetEnvWrite (some flash) fun _ => 0x41)).content 0x10000 = 0xFF := by
    rw [run_boardGetEnvWrite hmem, if_neg (by decide), if_pos ⟨hgran, by decide, by decide⟩]
  refine ⟨flash, by rw [hflash]; rfl, hmem, herased, fun h => ?_⟩
  exact absurd (herased.symm.trans (h 0x10000)) (by decide)

end RtBoot
