import Mathlib.Data.List.TakeWhile
import RtBoot.ByteOrder
import RtBoot.Image

/-!
# The Size Table of Multi-File Images

Three pieces of `mkimage` have to agree on the table in front of the files of an image: `main`,
which writes the size of every file and a zero word, `copy_file`, which writes the files, each
but the last filled up to whole words, and `print_header`, which reads the table to list the
files.

They agree in part. With `-x` every file is copied without its first 64 bytes, which `main`
does not take off the size. Without it the table is right, and who walks along it comes to
every file. The listing reads the table in words of the host's `long`: on a host where that
has 64 bits it takes two entries at a time, prints one of the two, and goes on behind the
terminator, into the first file, until it finds eight zero bytes. It is right only if these
bytes happen to be the sizes.

## Main results

* `entries_iff`, `walk_copyFiles`: the table and the walk along it.
* `lenPtrs_eq_some_iff`: what the listing reads.
* `sizeTableExact_iff`: exactly when table, walk and listing are right.
-/

namespace RtBoot

/-! ### The table -/

/-- The bytes of a file that `copy_file` puts into the image. -/
def copied (xflag : Bool) (file : List (BitVec 8)) : List (BitVec 8) :=
  (copyFile xflag file false).getD []

/-- The entries of a size table, up to the zero word. -/
def readTable : List (BitVec 8) → List ℕ
  | a :: b :: c :: d :: rest =>
      let size := (a ++ b ++ c ++ d).toNat
      if size = 0 then [] else size :: readTable rest
  | _ => []

/-- A size, rounded up to whole words. -/
def roundUp4 (size : ℕ) : ℕ :=
  (size + 3) / 4 * 4

/-- Where the files begin, by the sizes in the table: behind the table and the rounded sizes of
the files before. -/
def walkFrom (pos : ℕ) : List ℕ → List ℕ
  | [] => []
  | size :: sizes => pos :: walkFrom (pos + roundUp4 size) sizes

/-- Where the last file ends. -/
def walkEnd (pos : ℕ) : List ℕ → ℕ
  | [] => pos
  | [size] => pos + size
  | size :: sizes => walkEnd (pos + roundUp4 size) sizes

/-- The length of a table of `n` entries and the zero word. -/
def tableLength (n : ℕ) : ℕ :=
  4 * (n + 1)

/-! ### The listing -/

/-- A file in memory, as `mmap` shows it: zeros up to the end of the last page, and nothing
behind that. -/
def mapped (pageSize : ℕ) (file : List (BitVec 8)) (o : ℕ) : Option (BitVec 8) :=
  if o < file.length then file[o]?
  else if o < (file.length + pageSize - 1) / pageSize * pageSize then some 0
  else none

/-- The four bytes at `o`, the first the highest. -/
def wordAt (m : ℕ → Option (BitVec 8)) (o : ℕ) : Option (BitVec 32) := do
  let a ← m o
  let b ← m (o + 1)
  let c ← m (o + 2)
  let d ← m (o + 3)
  return a ++ b ++ c ++ d

/-- An `unsigned long` of 64 bits, as the host reads it. -/
def loadLong (host : ByteOrder) (m : ℕ → Option (BitVec 8)) (o : ℕ) : Option (BitVec 64) := do
  let first ← wordAt m o
  let second ← wordAt m (o + 4)
  return match host with
    | .big => first ++ second
    | .little => imtohl .little second ++ imtohl .little first

/-- `ntohl` of the host's library, which takes 32 bits of its argument and is the same function
as the loader's `imtohl`. -/
def ntohlLong (host : ByteOrder) (len : BitVec 64) : BitVec 32 :=
  imtohl host (len.setWidth 32)

/-- The first loop over `len_ptr`: the values up to one that is zero. A read behind the mapping
ends the program. -/
def lenPtrs (host : ByteOrder) (m : ℕ → Option (BitVec 8)) : ℕ → ℕ → Option (List (BitVec 64))
  | 0, _ => none
  | fuel + 1, i => do
      let len ← loadLong host m (sizeofImageHeader + 8 * i)
      if len = 0 then return []
      else
        let rest ← lenPtrs host m fuel (i + 1)
        return len :: rest

/-- The lines of the listing: number of the image with its size in bytes, kB and MB, printed as
signed numbers, and the offset of that image. -/
inductive ListingLine
  | image (i : ℕ) (bytes kB mB : ℤ)
  | offset (pos : ℕ)
  deriving DecidableEq, Repr

/-- The second loop over `len_ptr`, which reads the same values again. -/
def printContents (host : ByteOrder) (script : Bool) :
    ℕ → BitVec 32 → List (BitVec 64) → List ListingLine
  | _, _, [] => []
  | i, pos, len :: lens =>
      let size := ntohlLong host len
      .image i size.toInt (size >>> 10).toInt (size >>> 20).toInt ::
        ((if script ∧ 0 < i then [.offset pos.toNat] else []) ++
          printContents host script (i + 1) (pos + ((size + 3) &&& ~~~3)) lens)

/-- `print_header`, the part about the contents. There are fewer values than bytes in the file,
so that the loop ends, one way or the other, before the fuel does. -/
def printHeader (host : ByteOrder) (pageSize : ℕ) (image : List (BitVec 8)) :
    Option (List ListingLine) :=
  let ihType := image.getD 30 0
  if ihType = ihTypeMulti ∨ ihType = ihTypeScript then do
    let lens ← lenPtrs host (mapped pageSize image) (image.length + pageSize) 0
    let pos := BitVec.ofNat 32 (sizeofImageHeader + lens.length * 8)
    return printContents host (ihType = ihTypeScript) 0 pos lens
  else some []

/-- The listing as it should be, from the sizes and the walk along them. Offsets count from the
beginning of the image. -/
def listing (script : Bool) : ℕ → ℕ → List ℕ → List ListingLine
  | _, _, [] => []
  | i, start, size :: sizes =>
      .image i size (size / 1024 : ℕ) (size / 1048576 : ℕ) ::
        ((if script ∧ 0 < i then [.offset (sizeofImageHeader + start)] else []) ++
          listing script (i + 1) (start + roundUp4 size) sizes)

/-- **The size table is exact**, for an image with `data` behind its header: the entries are the
bytes that `copy_file` put there, the walk along them comes to the first byte of every file and
ends at the end, and the listing has the same sizes and, for a script, the same offsets. -/
structure SizeTableExact (host : ByteOrder) (pageSize : ℕ) (args : MkimageArgs)
    (image data : List (BitVec 8)) : Prop where
  entries : readTable data = args.datafiles.map fun file => (copied args.xflag file).length
  lands : ∀ p ∈ args.datafiles.zip
      (walkFrom (tableLength args.datafiles.length) (readTable data)),
    copied args.xflag p.1 <+: data.drop p.2
  ends : walkEnd (tableLength args.datafiles.length) (readTable data) = data.length
  listed : printHeader host pageSize image =
    some (listing (args.optType = ihTypeScript) 0 (tableLength args.datafiles.length)
      (args.datafiles.map fun file => (copied args.xflag file).length))

/-- The half of a `long` that `print_header` uses. -/
def usedHalf : ByteOrder → ℕ
  | .little => 0
  | .big => 4

/-- The listing comes out right by chance: taken as words of eight bytes, the image begins with
words whose used halves are the sizes of the files, and then has a word that is zero. The
offsets of a script are never right but for a single file, which has none. -/
structure ListingFits (host : ByteOrder) (pageSize : ℕ) (script : Bool)
    (image : List (BitVec 8)) (sizes : List ℕ) : Prop where
  single : script = true → sizes.length ≤ 1
  halves : ∀ i size, sizes[i]? = some size →
    wordAt (mapped pageSize image) (sizeofImageHeader + 8 * i + usedHalf host) =
      some (BitVec.ofNat 32 size)
  terminated : wordAt (mapped pageSize image) (sizeofImageHeader + 8 * sizes.length) = some 0 ∧
    wordAt (mapped pageSize image) (sizeofImageHeader + 8 * sizes.length + 4) = some 0

/-! ### What is copied -/

/-- The bytes that `copy_file` leaves out. -/
def skipped (xflag : Bool) : ℕ :=
  if xflag then sizeofImageHeader else 0

/-- The number of bytes that `copy_file` writes, an `int`. -/
def copySize (xflag : Bool) (file : List (BitVec 8)) : ℤ :=
  i32 ((file.length : ℤ) - skipped xflag)

/-- The bytes that `copy_file` writes of the file itself. -/
def copyBody (xflag : Bool) (file : List (BitVec 8)) : List (BitVec 8) :=
  (file.drop (skipped xflag)).take (copySize xflag file).toNat

variable {xflag script : Bool} {bytes file image : List (BitVec 8)}
  {files : List (List (BitVec 8))} {sizes : List ℕ} {lens : List (BitVec 64)}
  {o pageSize size : ℕ} {host : ByteOrder}

/-- What a copy that succeeds has checked, and what it appends. -/
theorem copyFile_eq_some {pad : Bool} (h : copyFile xflag file pad = some bytes) :
    (xflag = true → sizeofImageHeader ≤ file.length) ∧ 0 ≤ copySize xflag file ∧
      bytes = copyBody xflag file ++
        (if pad ∧ (copySize xflag file).toNat % 4 ≠ 0 then
          List.replicate (4 - (copySize xflag file).toNat % 4) 0 else []) ∧
      copied xflag file = copyBody xflag file := by
  have hoff : (if xflag = true then sizeofImageHeader else 0) = skipped xflag := rfl
  rw [copied]
  rw [copyFile] at h ⊢
  by_cases hempty : file.length = 0
  · rw [if_pos hempty] at h
    cases h
  by_cases hbad : xflag ∧ (u32 file.length < sizeofImageHeader ∨
      ∃ b ∈ file.take sizeofImageHeader, b ≠ 0xff)
  · rw [if_neg hempty, if_pos hbad] at h
    cases h
  rw [if_neg hempty, if_neg hbad] at h ⊢
  dsimp only at h ⊢
  rw [hoff] at h ⊢
  by_cases hneg : copySize xflag file < 0
  · rw [if_pos (show i32 ((file.length : ℤ) - skipped xflag) < 0 from hneg)] at h
    cases h
  rw [if_neg (show ¬ i32 ((file.length : ℤ) - skipped xflag) < 0 from hneg)] at h ⊢
  refine ⟨?_, not_lt.mp hneg, (Option.some.inj h).symm, ?_⟩
  · intro hx
    have hlong : ¬ u32 file.length < sizeofImageHeader := fun hlt => hbad ⟨hx, .inl hlt⟩
    rw [u32_natCast] at hlong
    have := Nat.mod_le file.length 4294967296
    omega
  · rw [if_neg (show ¬ ((false : Bool) = true ∧ _) from fun hfalse => by cases hfalse.1),
      List.append_nil]
    rfl

/-- The number of bytes taken: the length less what is skipped, modulo the size of a word. -/
theorem length_copyBody
    (hlong : xflag = true → sizeofImageHeader ≤ file.length) (hsize : 0 ≤ copySize xflag file) :
    (copyBody xflag file).length = (copySize xflag file).toNat ∧
      (copySize xflag file).toNat < 2 ^ 31 ∧
      ((copySize xflag file).toNat + skipped xflag) % 2 ^ 32 = file.length % 2 ^ 32 := by
  have hskip : skipped xflag ≤ file.length := by
    cases xflag with
    | false => exact Nat.zero_le _
    | true => exact hlong rfl
  have hmod : copySize xflag file = ((file.length : ℤ) - skipped xflag) % 4294967296 ∧
      copySize xflag file < 2147483648 := by
    rw [copySize, i32, Int.bmod_def] at hsize ⊢
    split <;> omega
  refine ⟨?_, by omega, by omega⟩
  rw [copyBody, List.length_take, List.length_drop]
  omega

/-- A copy that succeeds: the bytes it takes of the file, filled up if asked for, and how many
they are. -/
theorem copyFile_spec {pad : Bool} (h : copyFile xflag file pad = some bytes) :
    bytes = (if pad then padded (copied xflag file) else copied xflag file) ∧
      (copied xflag file).length < 2 ^ 31 ∧
      ((copied xflag file).length + skipped xflag) % 2 ^ 32 = file.length % 2 ^ 32 := by
  obtain ⟨hlong, hsize, hbytes, hcopied⟩ := copyFile_eq_some h
  obtain ⟨hlen, hlt, hmod⟩ := length_copyBody hlong hsize
  rw [hcopied, hlen]
  refine ⟨?_, hlt, hmod⟩
  rw [hbytes, padded, hlen]
  cases pad with
  | false => simp
  | true => simp

theorem length_padded (file : List (BitVec 8)) : (padded file).length = roundUp4 file.length := by
  rw [padded, roundUp4, List.length_append]
  split
  · rw [List.length_replicate]
    omega
  · rw [List.length_nil]
    omega

/-! ### The table and the walk -/

/-- Every file of a list that is copied is copied by itself. -/
theorem copyFiles_mem (h : copyFiles xflag files = some bytes) (hfile : file ∈ files) :
    (copied xflag file).length < 2 ^ 31 ∧
      ((copied xflag file).length + skipped xflag) % 2 ^ 32 = file.length % 2 ^ 32 := by
  fun_induction copyFiles xflag files generalizing bytes with
  | case1 => cases hfile
  | case2 f =>
      obtain rfl := List.mem_singleton.mp hfile
      exact (copyFile_spec h).2
  | case3 f files hnil ih =>
      obtain ⟨head, hhead, htail⟩ := Option.bind_eq_some_iff.mp h
      obtain ⟨rest, hrest, -⟩ := Option.bind_eq_some_iff.mp htail
      rcases List.mem_cons.mp hfile with rfl | hmem
      · exact (copyFile_spec hhead).2
      · exact ih hrest hmem

theorem walkEnd_cons (pos size : ℕ) (h : sizes ≠ []) :
    walkEnd pos (size :: sizes) = walkEnd (pos + roundUp4 size) sizes := by
  cases sizes with
  | nil => exact absurd rfl h
  | cons => rfl

/-- The walk along the sizes of what was copied, behind any bytes: it comes to every file and ends
at the end. -/
theorem walk_copyFiles (h : copyFiles xflag files = some bytes) (before : List (BitVec 8)) :
    (∀ p ∈ files.zip (walkFrom before.length (files.map fun f => (copied xflag f).length)),
        copied xflag p.1 <+: (before ++ bytes).drop p.2) ∧
      walkEnd before.length (files.map fun f => (copied xflag f).length) =
        (before ++ bytes).length := by
  fun_induction copyFiles xflag files generalizing bytes before with
  | case1 => cases h
  | case2 f =>
      obtain ⟨rfl, -⟩ := copyFile_spec h
      refine ⟨?_, (List.length_append).symm⟩
      intro p hp
      obtain rfl := List.mem_singleton.mp hp
      rw [List.drop_left]
      exact List.prefix_rfl
  | case3 f files hnil ih =>
      obtain ⟨head, hhead, htail⟩ := Option.bind_eq_some_iff.mp h
      obtain ⟨rest, hrest, hbytes⟩ := Option.bind_eq_some_iff.mp htail
      obtain rfl := Option.some.inj hbytes
      obtain ⟨rfl, -⟩ := copyFile_spec hhead
      rw [if_pos rfl]
      obtain ⟨hlands, hends⟩ := ih hrest (before ++ padded (copied xflag f))
      rw [List.length_append, length_padded, List.append_assoc] at hlands hends
      constructor
      · intro p hp
        rw [List.map_cons, walkFrom, List.zip_cons_cons] at hp
        rcases List.mem_cons.mp hp with rfl | hp
        · rw [List.drop_left, padded, List.append_assoc]
          exact List.prefix_append _ _
        · exact hlands p hp
      · rw [List.map_cons, walkEnd_cons _ _ fun h' => hnil (List.map_eq_nil_iff.mp h')]
        exact hends

/-- A word at the head of a table. -/
theorem readTable_be32 (w : BitVec 32) (rest : List (BitVec 8)) :
    readTable (be32 w ++ rest) = if w.toNat = 0 then [] else w.toNat :: readTable rest := by
  change readTable (_ :: _ :: _ :: _ :: rest) = _
  rw [readTable, append_wordByte]

/-- The entries of the table that `main` writes: the lengths as 32-bit numbers, up to one that is
zero. -/
theorem readTable_sizeTable (files : List (List (BitVec 8))) (rest : List (BitVec 8)) :
    readTable (sizeTable files ++ rest) =
      (files.map fun f => f.length % 2 ^ 32).takeWhile (· ≠ 0) := by
  induction files with
  | nil => exact readTable_be32 0 rest
  | cons f files ih =>
      have hsplit : sizeTable (f :: files) ++ rest =
          be32 (BitVec.ofNat 32 f.length) ++ (sizeTable files ++ rest) := by
        simp only [sizeTable, List.flatMap_cons, List.append_assoc]
      rw [hsplit, readTable_be32, BitVec.toNat_ofNat, ih, List.map_cons, List.takeWhile_cons]
      by_cases hzero : f.length % 2 ^ 32 = 0
      · rw [if_pos hzero, if_neg (by simpa using hzero)]
      · rw [if_neg hzero, if_pos (by simpa using hzero)]

/-- The entries are the numbers of bytes copied exactly if nothing is skipped and no length is a
multiple of `2 ^ 32`. -/
theorem entries_iff (h : copyFiles xflag files = some bytes) :
    readTable (sizeTable files ++ bytes) = files.map (fun f => (copied xflag f).length) ↔
      xflag = false ∧ ∀ f ∈ files, f.length % 2 ^ 32 ≠ 0 := by
  rw [readTable_sizeTable]
  cases xflag with
  | true =>
      refine iff_of_false ?_ fun hx => Bool.noConfusion hx.1
      intro heq
      cases files with
      | nil => cases h
      | cons f files =>
          obtain ⟨hlt, hmod⟩ := copyFiles_mem h List.mem_cons_self
          have hskip : skipped true = 64 := rfl
          rw [List.map_cons, List.map_cons, List.takeWhile_cons] at heq
          split at heq
          · have hhead := (List.cons.inj heq).1
            omega
          · cases heq
  | false =>
      have hmap : (files.map fun f => (copied false f).length) =
          files.map fun f => f.length % 2 ^ 32 := by
        refine List.map_congr_left fun f hf => ?_
        obtain ⟨hlt, hmod⟩ := copyFiles_mem h hf
        have hskip : skipped false = 0 := rfl
        omega
      rw [hmap, List.takeWhile_eq_self_iff]
      simp

/-! ### What the listing reads -/

section
variable {host : ByteOrder} {m : ℕ → Option (BitVec 8)}

theorem wordAt_eq_some_iff {w : BitVec 32} :
    wordAt m o = some w ↔ ∃ a b c d, m o = some a ∧ m (o + 1) = some b ∧ m (o + 2) = some c ∧
      m (o + 3) = some d ∧ a ++ b ++ c ++ d = w := by
  simp [wordAt, Option.bind_eq_some_iff]

theorem loadLong_eq_some_iff {len : BitVec 64} :
    loadLong host m o = some len ↔ ∃ first second, wordAt m o = some first ∧
      wordAt m (o + 4) = some second ∧
      (match host with
        | .big => first ++ second
        | .little => imtohl .little second ++ imtohl .little first) = len := by
  simp [loadLong, Option.bind_eq_some_iff]

/-- Two halves make a `long`. -/
theorem exists_loadLong (host : ByteOrder) {first second : BitVec 32}
    (hfirst : wordAt m o = some first) (hsecond : wordAt m (o + 4) = some second) :
    ∃ len, loadLong host m o = some len :=
  ⟨_, loadLong_eq_some_iff.mpr ⟨first, second, hfirst, hsecond, rfl⟩⟩

/-- What `print_header` makes of a `long`: one of its halves, in the order of the table. -/
theorem wordAt_usedHalf {len : BitVec 64} (h : loadLong host m o = some len) :
    wordAt m (o + usedHalf host) = some (ntohlLong host len) := by
  obtain ⟨first, second, hfirst, hsecond, rfl⟩ := loadLong_eq_some_iff.mp h
  cases host with
  | big =>
      refine hsecond.trans (congrArg some ?_)
      rw [ntohlLong, BitVec.setWidth_append_eq_right]
      rfl
  | little =>
      refine hfirst.trans (congrArg some ?_)
      rw [ntohlLong, BitVec.setWidth_append_eq_right, imtohl_imtohl]

theorem append_eq_zero {x y : BitVec 32} (h : x ++ y = (0 : BitVec (32 + 32))) :
    x = 0 ∧ y = 0 := by
  have hy := congrArg (BitVec.setWidth 32) h
  rw [BitVec.setWidth_append_eq_right] at hy
  refine ⟨BitVec.eq_of_getLsbD_eq ?_, hy⟩
  intro i hi
  have hbit : (x ++ y).getLsbD (32 + i) = (0 : BitVec (32 + 32)).getLsbD (32 + i) :=
    congrArg (BitVec.getLsbD · (32 + i)) h
  rw [BitVec.getLsbD_append, if_neg (by omega), Nat.add_sub_cancel_left] at hbit
  simpa using hbit

theorem eq_zero_of_imtohl {x : BitVec 32} (h : imtohl .little x = 0) : x = 0 := by
  rw [← imtohl_imtohl .little x, h]
  rfl

/-- A `long` is zero if both of its halves are. -/
theorem loadLong_eq_zero_iff :
    loadLong host m o = some 0 ↔ wordAt m o = some 0 ∧ wordAt m (o + 4) = some 0 := by
  rw [loadLong_eq_some_iff]
  constructor
  · rintro ⟨first, second, hfirst, hsecond, hzero⟩
    rw [hfirst, hsecond]
    cases host with
    | big =>
        obtain ⟨rfl, rfl⟩ := append_eq_zero hzero
        exact ⟨rfl, rfl⟩
    | little =>
        obtain ⟨hsecond', hfirst'⟩ := append_eq_zero hzero
        rw [eq_zero_of_imtohl hsecond', eq_zero_of_imtohl hfirst']
        exact ⟨rfl, rfl⟩
  · rintro ⟨hfirst, hsecond⟩
    refine ⟨0, 0, hfirst, hsecond, ?_⟩
    cases host <;> rfl

/-- **What the listing reads**: values that are not zero, and then one that is. -/
theorem lenPtrs_eq_some_iff {fuel i : ℕ} :
    lenPtrs host m fuel i = some lens ↔
      lens.length < fuel ∧
      (∀ j len, lens[j]? = some len →
        loadLong host m (sizeofImageHeader + 8 * (i + j)) = some len ∧ len ≠ 0) ∧
      loadLong host m (sizeofImageHeader + 8 * (i + lens.length)) = some 0 := by
  induction fuel generalizing i lens with
  | zero => exact iff_of_false nofun fun h => absurd h.1 (Nat.not_lt_zero _)
  | succ fuel ih =>
      rw [lenPtrs, Option.bind_eq_bind, Option.bind_eq_some_iff]
      constructor
      · rintro ⟨len, hlen, hrest⟩
        split at hrest
        case isTrue hzero =>
          obtain rfl := Option.some.inj hrest
          refine ⟨Nat.succ_pos _, ?_, hzero ▸ hlen⟩
          intro j len' hj
          cases hj
        case isFalse hne =>
          obtain ⟨rest, hmore, hcons⟩ := Option.bind_eq_some_iff.mp hrest
          obtain rfl := Option.some.inj hcons
          obtain ⟨hfuel, hall, hend⟩ := ih.mp hmore
          refine ⟨Nat.succ_lt_succ hfuel, ?_, ?_⟩
          · intro j len' hj
            cases j with
            | zero =>
                obtain rfl := Option.some.inj hj
                exact ⟨hlen, hne⟩
            | succ j =>
                have := hall j len' hj
                rwa [show i + 1 + j = i + (j + 1) by omega] at this
          · rwa [List.length_cons, show i + (rest.length + 1) = i + 1 + rest.length by omega]
      · rintro ⟨hfuel, hall, hend⟩
        cases lens with
        | nil => exact ⟨0, hend, if_pos rfl⟩
        | cons len rest =>
            obtain ⟨hlen, hne⟩ := hall 0 len rfl
            refine ⟨len, hlen, ?_⟩
            have hrest : lenPtrs host m fuel (i + 1) = some rest := by
              refine ih.mpr ⟨Nat.lt_of_succ_lt_succ hfuel, ?_, ?_⟩
              · intro j len' hj
                have := hall (j + 1) len' hj
                rwa [show i + (j + 1) = i + 1 + j by omega] at this
              · rwa [List.length_cons, show i + (rest.length + 1) = i + 1 + rest.length by omega]
                  at hend
            rw [if_neg hne, hrest]
            rfl

end

/-- What lies before a byte that is mapped is mapped. -/
theorem mapped_isSome_of_le {o' : ℕ} (hle : o ≤ o')
    (h : (mapped pageSize file o').isSome) : (mapped pageSize file o).isSome := by
  unfold mapped at h ⊢
  by_cases hin : o < file.length
  · rw [if_pos hin, List.getElem?_eq_getElem hin]
    rfl
  · rw [if_neg hin]
    rw [if_neg (by omega)] at h
    split at h
    · rw [if_pos (by omega)]
      rfl
    · cases h

/-- And so for words. -/
theorem exists_wordAt_of_le {o' : ℕ} {w : BitVec 32}
    (hle : o ≤ o') (h : wordAt (mapped pageSize file) o' = some w) :
    ∃ v, wordAt (mapped pageSize file) o = some v := by
  obtain ⟨a, b, c, d, ha, hb, hc, hd, -⟩ := wordAt_eq_some_iff.mp h
  have hbyte : ∀ k x, mapped pageSize file (o' + k) = some x →
      ∃ y, mapped pageSize file (o + k) = some y := fun k x hx =>
    Option.isSome_iff_exists.mp
      (mapped_isSome_of_le (Nat.add_le_add_right hle k) (Option.isSome_iff_exists.mpr ⟨x, hx⟩))
  obtain ⟨a', ha'⟩ := hbyte 0 a ha
  obtain ⟨b', hb'⟩ := hbyte 1 b hb
  obtain ⟨c', hc'⟩ := hbyte 2 c hc
  obtain ⟨d', hd'⟩ := hbyte 3 d hd
  exact ⟨_, wordAt_eq_some_iff.mpr ⟨a', b', c', d', ha', hb', hc', hd', rfl⟩⟩

/-! ### What the listing prints -/

/-- The size in a line. -/
def ListingLine.size? : ListingLine → Option ℤ
  | .image _ bytes _ _ => some bytes
  | .offset _ => none

theorem sizes_printContents (host : ByteOrder) (script : Bool) (i : ℕ) (pos : BitVec 32)
    (lens : List (BitVec 64)) :
    (printContents host script i pos lens).filterMap ListingLine.size? =
      lens.map fun len => (ntohlLong host len).toInt := by
  induction lens generalizing i pos with
  | nil => rfl
  | cons len lens ih =>
      have hoff : (if script ∧ 0 < i then [ListingLine.offset pos.toNat] else []).filterMap
          ListingLine.size? = [] := by
        split <;> rfl
      rw [printContents, List.filterMap_cons, List.filterMap_append, hoff, ih]
      rfl

theorem sizes_listing (script : Bool) (i start : ℕ) (sizes : List ℕ) :
    (listing script i start sizes).filterMap ListingLine.size? = sizes.map Nat.cast := by
  induction sizes generalizing i start with
  | nil => rfl
  | cons size sizes ih =>
      have hoff : (if script ∧ 0 < i then [ListingLine.offset (sizeofImageHeader + start)]
          else []).filterMap ListingLine.size? = [] := by
        split <;> rfl
      rw [listing, List.filterMap_cons, List.filterMap_append, hoff, ih]
      rfl

/-- A size as a word: what it prints. -/
theorem toInt_ofNat_shift {k : ℕ} (h : size < 2 ^ 31) :
    (BitVec.ofNat 32 size >>> k).toInt = (size / 2 ^ k : ℕ) := by
  have hnat : (BitVec.ofNat 32 size >>> k).toNat = size / 2 ^ k := by
    rw [BitVec.toNat_ushiftRight, BitVec.toNat_ofNat, Nat.mod_eq_of_lt (by omega),
      Nat.shiftRight_eq_div_pow]
  have hle := Nat.div_le_self size (2 ^ k)
  rw [BitVec.toInt_eq_toNat_of_lt (by omega), hnat]

theorem toInt_ofNat (h : size < 2 ^ 31) : (BitVec.ofNat 32 size).toInt = size := by
  have := toInt_ofNat_shift (k := 0) h
  rwa [BitVec.ushiftRight_zero, Nat.pow_zero, Nat.div_one] at this

/-- With the right sizes, a listing without offsets is right. -/
theorem printContents_eq_listing (hsizes : lens.map (ntohlLong host) = sizes.map (BitVec.ofNat 32))
    (hlt : ∀ size ∈ sizes, size < 2 ^ 31) (i : ℕ) (pos : BitVec 32) (start : ℕ) :
    printContents host false i pos lens = listing false i start sizes := by
  induction lens generalizing sizes i pos start with
  | nil =>
      obtain rfl := List.map_eq_nil_iff.mp hsizes.symm
      rfl
  | cons len lens ih =>
      cases sizes with
      | nil => cases hsizes
      | cons size sizes =>
          obtain ⟨hhead, htail⟩ := List.cons.inj hsizes
          have hsize := hlt size List.mem_cons_self
          rw [printContents, listing, hhead, toInt_ofNat hsize, toInt_ofNat_shift hsize,
            toInt_ofNat_shift hsize,
            ih htail (fun s hs => hlt s (List.mem_cons_of_mem _ hs)) _ _ (start + roundUp4 size)]
          rfl

/-- A single file has no offset. -/
theorem printContents_single {pos : BitVec 32} (h : script = true → lens.length ≤ 1) :
    printContents host script 0 pos lens = printContents host false 0 pos lens := by
  match script, lens, h with
  | false, _, _ => rfl
  | true, [], _ => rfl
  | true, [_], _ => rfl
  | true, _ :: _ :: lens, h =>
      have := h rfl
      simp only [List.length_cons] at this
      omega

theorem listing_single {start : ℕ} (h : script = true → sizes.length ≤ 1) :
    listing script 0 start sizes = listing false 0 start sizes := by
  match script, sizes, h with
  | false, _, _ => rfl
  | true, [], _ => rfl
  | true, [_], _ => rfl
  | true, _ :: _ :: sizes, h =>
      have := h rfl
      simp only [List.length_cons] at this
      omega

/-- The rounded size, in 32-bit arithmetic. -/
theorem toNat_roundUp (h : size < 2 ^ 31) :
    ((BitVec.ofNat 32 size + 3) &&& ~~~3).toNat = roundUp4 size := by
  have hsum : (BitVec.ofNat 32 size + 3).toNat = size + 3 := by
    rw [BitVec.toNat_add, BitVec.toNat_ofNat, show (3 : BitVec 32).toNat = 3 from rfl]
    omega
  have halign : (alignDown (BitVec.ofNat 32 size + 3) 4).toNat =
      (BitVec.ofNat 32 size + 3).toNat - (BitVec.ofNat 32 size + 3).toNat % 2 ^ 2 :=
    toNat_alignDown _ rfl
  rw [alignDown, show (4 - 1 : BitVec 32) = 3 from rfl, hsum] at halign
  rw [halign, roundUp4]
  omega

/-- The offset of the second file is wrong: the table takes four bytes for each file and four for
the zero word, and the listing counts eight for each file. -/
theorem printContents_ne_listing {a b : BitVec 64} {size' : ℕ} (hlen : lens.length = sizes.length)
    (ha : ntohlLong host a = BitVec.ofNat 32 size) (hlt : size < 2 ^ 31) :
    printContents host true 0 (BitVec.ofNat 32 (sizeofImageHeader + (a :: b :: lens).length * 8))
        (a :: b :: lens) ≠
      listing true 0 (tableLength (size :: size' :: sizes).length) (size :: size' :: sizes) := by
  intro h
  have hthird := congrArg (·[2]?) h
  have hpos := ListingLine.offset.inj (Option.some.inj hthird)
  rw [ha, BitVec.toNat_add, toNat_roundUp hlt, BitVec.toNat_ofNat] at hpos
  simp only [List.length_cons, hlen, tableLength, sizeofImageHeader] at hpos
  omega

/-- The sizes that are printed are right exactly if the words they are taken from are. -/
theorem map_ntohlLong_eq_iff (hlt : ∀ size ∈ sizes, size < 2 ^ 31) :
    lens.map (fun len => (ntohlLong host len).toInt) = sizes.map Nat.cast ↔
      lens.map (ntohlLong host) = sizes.map (BitVec.ofNat 32) := by
  have hcast : sizes.map (Nat.cast : ℕ → ℤ) = (sizes.map (BitVec.ofNat 32)).map BitVec.toInt := by
    rw [List.map_map]
    exact List.map_congr_left fun size hs => (toInt_ofNat (hlt size hs)).symm
  have hlens : lens.map (fun len => (ntohlLong host len).toInt) =
      (lens.map (ntohlLong host)).map BitVec.toInt := by
    rw [List.map_map]
    rfl
  rw [hcast, hlens]
  exact (List.map_injective_iff.mpr fun _ _ => BitVec.eq_of_toInt_eq).eq_iff

/-- What `print_header` lists, for the two types that have contents. -/
theorem printHeader_eq_some_iff {lines : List ListingLine}
    (htype : image.getD 30 0 = if script then ihTypeScript else ihTypeMulti) :
    printHeader host pageSize image = some lines ↔
      ∃ lens, lenPtrs host (mapped pageSize image) (image.length + pageSize) 0 = some lens ∧
        printContents host script 0 (BitVec.ofNat 32 (sizeofImageHeader + lens.length * 8)) lens =
          lines := by
  have hkind : image.getD 30 0 = ihTypeMulti ∨ image.getD 30 0 = ihTypeScript := by
    rw [htype]
    cases script with
    | false => exact .inl rfl
    | true => exact .inr rfl
  have hscript : (decide (image.getD 30 0 = ihTypeScript)) = script := by
    rw [htype]
    cases script <;> decide
  rw [printHeader]
  dsimp only
  rw [if_pos hkind, hscript, Option.bind_eq_bind, Option.bind_eq_some_iff]
  simp only [Option.pure_def, Option.some.injEq]

/-- The words that the listing takes the sizes from. -/
theorem halves_of_map {m : ℕ → Option (BitVec 8)}
    (hmap : lens.map (ntohlLong host) = sizes.map (BitVec.ofNat 32))
    (hlens : ∀ j len, lens[j]? = some len →
      loadLong host m (sizeofImageHeader + 8 * (0 + j)) = some len ∧ len ≠ 0)
    {i : ℕ} (hi : sizes[i]? = some size) :
    wordAt m (sizeofImageHeader + 8 * i + usedHalf host) = some (BitVec.ofNat 32 size) := by
  have hword := congrArg (·[i]?) hmap
  simp only [List.getElem?_map, hi, Option.map_some] at hword
  obtain ⟨len, hlen, hval⟩ := Option.map_eq_some_iff.mp hword
  have hload := (hlens i len hlen).1
  rw [Nat.zero_add] at hload
  rw [wordAt_usedHalf hload, hval]

/-- Where the listing fits, it reads as many values as there are files, and takes the sizes from
them. -/
theorem ListingFits.exists_lens (h : ListingFits host pageSize script image sizes)
    (hsizes : ∀ size ∈ sizes, size ≠ 0 ∧ size < 2 ^ 31)
    (hfuel : sizes.length < image.length + pageSize) :
    ∃ lens, lenPtrs host (mapped pageSize image) (image.length + pageSize) 0 = some lens ∧
      lens.map (ntohlLong host) = sizes.map (BitVec.ofNat 32) := by
  -- All `long`s up to the one that is zero are mapped.
  have hload : ∀ i size, sizes[i]? = some size →
      ∃ len, loadLong host (mapped pageSize image) (sizeofImageHeader + 8 * i) = some len ∧
        ntohlLong host len = BitVec.ofNat 32 size ∧ len ≠ 0 := by
    intro i size hi
    have hlt : i < sizes.length := (List.getElem?_eq_some_iff.mp hi).1
    obtain ⟨first, hfirst⟩ := exists_wordAt_of_le
      (show sizeofImageHeader + 8 * i ≤ _ by omega) h.terminated.1
    obtain ⟨second, hsecond⟩ := exists_wordAt_of_le
      (show sizeofImageHeader + 8 * i + 4 ≤ sizeofImageHeader + 8 * sizes.length by omega)
      h.terminated.1
    obtain ⟨len, hlen⟩ := exists_loadLong host hfirst hsecond
    have hval : ntohlLong host len = BitVec.ofNat 32 size :=
      Option.some.inj ((wordAt_usedHalf hlen).symm.trans (h.halves i size hi))
    refine ⟨len, hlen, hval, ?_⟩
    rintro rfl
    have hzero : ntohlLong host 0 = 0 := by cases host <;> decide
    have hnat := congrArg BitVec.toNat (hzero.symm.trans hval)
    rw [BitVec.toNat_ofNat, show (0 : BitVec 32).toNat = 0 from rfl] at hnat
    have := hsizes size (List.mem_of_getElem? hi)
    omega
  choose! long hlong using hload
  refine ⟨sizes.mapIdx long, lenPtrs_eq_some_iff.mpr ⟨?_, ?_, ?_⟩, ?_⟩
  · rwa [List.length_mapIdx]
  · intro j len hj
    rw [List.getElem?_mapIdx] at hj
    obtain ⟨size, hsize, rfl⟩ := Option.map_eq_some_iff.mp hj
    rw [Nat.zero_add]
    exact ⟨(hlong j size hsize).1, (hlong j size hsize).2.2⟩
  · rw [List.length_mapIdx, Nat.zero_add]
    exact loadLong_eq_zero_iff.mpr h.terminated
  · refine List.ext_getElem? fun j => ?_
    rw [List.getElem?_map, List.getElem?_map, List.getElem?_mapIdx]
    cases hj : sizes[j]? with
    | none => rfl
    | some size => exact congrArg some (hlong j size hj).2.1

/-- **When the listing is right.** -/
theorem listed_iff (host : ByteOrder)
    (htype : image.getD 30 0 = if script then ihTypeScript else ihTypeMulti)
    (hsizes : ∀ size ∈ sizes, size ≠ 0 ∧ size < 2 ^ 31)
    (hfuel : sizes.length < image.length + pageSize) :
    printHeader host pageSize image = some (listing script 0 (tableLength sizes.length) sizes) ↔
      ListingFits host pageSize script image sizes := by
  have hlt : ∀ size ∈ sizes, size < 2 ^ 31 := fun size hs => (hsizes size hs).2
  rw [printHeader_eq_some_iff htype]
  constructor
  · rintro ⟨lens, hlens, hlines⟩
    obtain ⟨-, hall, hend⟩ := lenPtrs_eq_some_iff.mp hlens
    have hmap : lens.map (ntohlLong host) = sizes.map (BitVec.ofNat 32) := by
      rw [← map_ntohlLong_eq_iff hlt, ← sizes_printContents host script 0 _ lens, hlines,
        sizes_listing]
    have hlen : lens.length = sizes.length := by simpa using congrArg List.length hmap
    refine ⟨?_, fun i size hi => halves_of_map hmap hall hi, ?_⟩
    · rintro rfl
      by_contra hmany
      match lens, sizes with
      | a :: b :: lens, size :: size' :: sizes =>
          refine printContents_ne_listing ?_ ?_ (hlt size List.mem_cons_self) hlines
          · simpa using hlen
          · exact (List.cons.inj hmap).1
      | _, [] => exact hmany (Nat.zero_le _)
      | _, [_] => exact hmany le_rfl
      | [], _ :: _ :: _ => cases hlen
      | [_], _ :: _ :: _ => cases hlen
    · rw [Nat.zero_add, hlen] at hend
      exact loadLong_eq_zero_iff.mp hend
  · intro h
    obtain ⟨lens, hlens, hmap⟩ := h.exists_lens hsizes hfuel
    have hlen : lens.length = sizes.length := by simpa using congrArg List.length hmap
    refine ⟨lens, hlens, ?_⟩
    rw [printContents_single fun hs => hlen.trans_le (h.single hs), listing_single h.single]
    exact printContents_eq_listing hmap hlt _ _ _

/-- The listing of an image that `main` writes. -/
theorem listed_files_iff (host : ByteOrder) (pageSize : ℕ) (hdr : ImageHeader)
    (bytes : List (BitVec 8)) (htype : hdr.ihType = ihTypeMulti ∨ hdr.ihType = ihTypeScript)
    (hsizes : ∀ file ∈ files, file.length % 2 ^ 32 ≠ 0 ∧ file.length % 2 ^ 32 < 2 ^ 31) :
    printHeader host pageSize (hdr.bytes ++ (sizeTable files ++ bytes)) =
        some (listing (hdr.ihType = ihTypeScript) 0 (tableLength files.length)
          (files.map fun file => file.length % 2 ^ 32)) ↔
      ListingFits host pageSize (hdr.ihType = ihTypeScript)
        (hdr.bytes ++ (sizeTable files ++ bytes)) (files.map fun file => file.length % 2 ^ 32) := by
  have hbyte : (hdr.bytes ++ (sizeTable files ++ bytes)).getD 30 0 =
      if decide (hdr.ihType = ihTypeScript) = true then ihTypeScript else ihTypeMulti := by
    change hdr.ihType = _
    rcases htype with htype | htype <;> rw [htype] <;> rfl
  have hfuel : (files.map fun file => file.length % 2 ^ 32).length <
      (hdr.bytes ++ (sizeTable files ++ bytes)).length + pageSize := by
    rw [List.length_map, List.length_append, List.length_append, length_sizeTable]
    omega
  have hall : ∀ size ∈ files.map fun file => file.length % 2 ^ 32, size ≠ 0 ∧ size < 2 ^ 31 := by
    intro size hsize
    obtain ⟨file, hfile, rfl⟩ := List.mem_map.mp hsize
    exact hsizes file hfile
  have hiff := listed_iff host hbyte hall hfuel
  rwa [List.length_map] at hiff

/-! ### The result -/

/-- **The size table of a multi-file image.** For every list of files of which the tool makes an
image: table, walk and listing are right exactly if the image does not run in place, no length is
a multiple of `2 ^ 32`, and the listing fits by chance. -/
theorem sizeTableExact_iff (tinfCrc32 : List (BitVec 8) → BitVec 32) (host : ByteOrder)
    (pageSize : ℕ) {args : MkimageArgs} {mtime : BitVec 32} {image data : List (BitVec 8)}
    (htype : args.optType = ihTypeMulti ∨ args.optType = ihTypeScript)
    (hdata : args.payload = some data) (himage : mkimage tinfCrc32 args mtime = some image) :
    SizeTableExact host pageSize args image data ↔
      args.xflag = false ∧ (∀ file ∈ args.datafiles, file.length % 2 ^ 32 ≠ 0) ∧
        ListingFits host pageSize (args.optType = ihTypeScript) image
          (args.datafiles.map fun file => file.length % 2 ^ 32) := by
  obtain ⟨ep, hep, hrest⟩ := Option.bind_eq_some_iff.mp himage
  rw [hdata] at hrest
  obtain rfl := Option.some.inj hrest
  rw [MkimageArgs.payload, if_pos htype] at hdata
  obtain ⟨bytes, hbytes, hpayload⟩ := Option.bind_eq_some_iff.mp hdata
  obtain rfl := Option.some.inj hpayload
  have hentries := entries_iff hbytes
  -- Without `-x` the sizes that are listed are the entries of the table.
  have hcopied : args.xflag = false → ∀ file ∈ args.datafiles,
      (copied args.xflag file).length = file.length % 2 ^ 32 ∧ file.length % 2 ^ 32 < 2 ^ 31 := by
    intro hx file hfile
    obtain ⟨hlt, hmod⟩ := copyFiles_mem hbytes hfile
    rw [hx] at hlt hmod ⊢
    have hskip : skipped false = 0 := rfl
    omega
  have hmap : args.xflag = false →
      (args.datafiles.map fun file => (copied args.xflag file).length) =
        args.datafiles.map fun file => file.length % 2 ^ 32 :=
    fun hx => List.map_congr_left fun file hfile => (hcopied hx file hfile).1
  have hlisted : args.xflag = false → (∀ file ∈ args.datafiles, file.length % 2 ^ 32 ≠ 0) → _ :=
    fun hx hne => listed_files_iff host pageSize
      (args.header tinfCrc32 mtime ep (sizeTable args.datafiles ++ bytes)) bytes htype
      fun file hfile => ⟨hne file hfile, (hcopied hx file hfile).2⟩
  constructor
  · intro h
    obtain ⟨hx, hne⟩ := hentries.mp h.entries
    have hlines := h.listed
    rw [hmap hx] at hlines
    exact ⟨hx, hne, (hlisted hx hne).mp hlines⟩
  · rintro ⟨hx, hne, hfits⟩
    have htable := hentries.mpr ⟨hx, hne⟩
    obtain ⟨hlands, hends⟩ := walk_copyFiles hbytes (sizeTable args.datafiles)
    rw [length_sizeTable] at hlands hends
    refine ⟨htable, ?_, ?_, ?_⟩
    · rw [htable]
      exact hlands
    · rw [htable]
      exact hends
    · rw [hmap hx]
      exact (hlisted hx hne).mpr hfits

/-- The options for a multi-file image, all others as they are by default. -/
def multiArgs (xflag : Bool) (datafiles : List (List (BitVec 8))) : MkimageArgs where
  optType := ihTypeMulti
  xflag := xflag
  datafiles := datafiles

/-- A single file of eight zero bytes, on a little-endian host. -/
theorem sizeTableExact_zeros :
    ∃ image data, (multiArgs false [List.replicate 8 0]).payload = some data ∧
      mkimage (fun _ => 0) (multiArgs false [List.replicate 8 0]) 0 = some image ∧
      SizeTableExact .little 4096 (multiArgs false [List.replicate 8 0]) image data := by
  refine ⟨_, _, rfl, rfl,
    (sizeTableExact_iff (fun _ => 0) .little 4096 (.inl rfl) rfl rfl).mpr ⟨rfl, ?_, ?_⟩⟩
  · decide
  · refine ⟨by decide, ?_, by decide⟩
    intro i size hi
    match i, hi with
    | 0, hi =>
        obtain rfl := Option.some.inj hi
        decide

/-- Two files of five bytes and one, on a little-endian host: the table is right, and the listing
has three images. With `-x` and a file of 66 bytes, of which two are copied, the table says 66. -/
theorem listing_of_two_files_wrong :
    (∃ image data, (multiArgs false [[1, 2, 3, 4, 5], [6]]).payload = some data ∧
      mkimage (fun _ => 0) (multiArgs false [[1, 2, 3, 4, 5], [6]]) 0 = some image ∧
      readTable data = [5, 1] ∧
      printHeader .little 4096 image = some [.image 0 5 0 0, .image 1 0 0 0,
        .image 2 83886080 81920 80] ∧
      ¬ SizeTableExact .little 4096 (multiArgs false [[1, 2, 3, 4, 5], [6]]) image data) ∧
    ∃ data, (multiArgs true [List.replicate 64 255 ++ [1, 2]]).payload = some data ∧
      readTable data = [66] ∧ copied true (List.replicate 64 255 ++ [1, 2]) = [1, 2] ∧
      ∀ image, ¬ SizeTableExact .little 4096 (multiArgs true [List.replicate 64 255 ++ [1, 2]])
        image data := by
  refine ⟨⟨_, _, rfl, rfl, ?_, ?_, fun h => ?_⟩, ⟨_, rfl, ?_, ?_, fun image h => ?_⟩⟩
  · decide
  · decide
  · exact absurd h.listed (by decide)
  · decide
  · decide
  · exact absurd h.entries (by decide)

end RtBoot
