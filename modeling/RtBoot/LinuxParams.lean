import Mathlib.Data.Nat.Digits.Lemmas
import RtBoot.BlockTable
import RtBoot.ByteSearch
import RtBoot.CString
import RtBoot.MemoryMap
import RtBoot.Printf

/-!
# The Parameters of the Kernel

`linux_params_init` cuts the command line into arguments and lays out, in the block at
`boot_param_pointer`, a table of pointers and the arguments they point to; behind them, on
a multiple of 16, `linux_env_set` does the same for the environment, one setting at a time.

Strings are given as values: what is copied into the block is not read from the block.
Next to the memory the state keeps the ranges that have been written.

## Main results

* `rtSprintf_memArg`: the text of the memory size is what the formatter writes.
* `argLoop_eq_foldl_take`: the loop over the command line adds the arguments `cmdlineArgs`, in
  order, as many as the table takes.
* `ArgsInv.argLoop`: it lays them out in the block.
* `EnvInv.linuxEnvSet`: a setting is added behind the others, or left out if the table is
  full.
* `linux_params_intact`: **everything laid out is still there at the end**, inside the block
  and apart from each other.
-/

namespace RtBoot

/-! ### The model -/

/-- `LINUX_MAX_ENVS`. -/
def linuxMaxEnvs : ℕ :=
  512

/-- `LINUX_MAX_ARGS`. -/
def linuxMaxArgs : ℕ :=
  512

/-- The bytes of a string in memory, with the NUL. -/
def CString.cells (s : CString) : List (BitVec 8) :=
  s.bytes.map UInt8.toBitVec ++ [0]

/-- `rt_strchr` from position `k` on: the position of the first `c`. -/
def rtStrchr (s : List UInt8) (k : ℕ) (c : UInt8) : Option ℕ :=
  ((s.drop k).findIdx? (· == c)).map (· + k)

theorem rtStrchr_bounds {s : List UInt8} {k i : ℕ} {c : UInt8} (h : rtStrchr s k c = some i) :
    k ≤ i ∧ i < s.length := by
  obtain ⟨j, hj, rfl⟩ := Option.map_eq_some_iff.mp h
  obtain ⟨hlt, -⟩ := List.findIdx?_eq_some_iff_getElem.mp hj
  rw [List.length_drop] at hlt
  omega

/-- The loop over quotes: while a quote comes before the next blank, go on behind the quote
that closes it. -/
def skipQuotes (s : List UInt8) (quote next : Option ℕ) : Option ℕ :=
  match next, quote with
  | some n, some q =>
      if q < n then
        match h : rtStrchr s (q + 1) 34 with
        | none => none
        | some right => skipQuotes s (rtStrchr s (right + 1) 34) (rtStrchr s (right + 1) 32)
      else some n
  | next, _ => next
termination_by s.length - quote.getD s.length
decreasing_by
  have hright := rtStrchr_bounds h
  cases hquote : rtStrchr s (right + 1) 34 with
  | none => simp only [Option.getD_none, Option.getD_some]; omega
  | some q' =>
      have hq' := rtStrchr_bounds hquote
      simp only [Option.getD_some]
      omega

/-- The length of the first argument: up to a blank outside quotes, or all there is. -/
def argLength (s : List UInt8) : ℕ :=
  (skipQuotes s (rtStrchr s 0 34) (rtStrchr s 0 32)).getD s.length

theorem skipQuotes_le {s : List UInt8} {quote next : Option ℕ}
    (hnext : ∀ n ∈ next, n ≤ s.length) : ∀ n ∈ skipQuotes s quote next, n ≤ s.length := by
  fun_induction skipQuotes s quote next with
  | case1 n q hlt hright => exact fun n hn => by cases hn
  | case2 n q hlt right hright ih =>
      exact ih fun n hn => (rtStrchr_bounds hn).2.le
  | case3 n q hge => exact hnext
  | case4 next quote hother => exact hnext

theorem argLength_le (s : List UInt8) : argLength s ≤ s.length := by
  rw [argLength]
  cases h : skipQuotes s (rtStrchr s 0 34) (rtStrchr s 0 32) with
  | none => exact le_refl _
  | some n => exact skipQuotes_le (fun n hn => (rtStrchr_bounds hn).2.le) n h

/-- The static variables of the loader, with the memory, the ranges written and the entries
of `linux_argv` stored to. -/
structure LinuxParams where
  mem : Mem
  written : List (BitVec 32 × ℕ)
  slots : List ℕ
  linuxArgc : ℕ
  linuxArgv : BitVec 32
  linuxEnvIdx : ℕ
  linuxEnv : BitVec 32
  linuxEnvP : BitVec 32

/-- Write bytes to memory. -/
def LinuxParams.write (s : LinuxParams) (a : BitVec 32) (bs : List (BitVec 8)) : LinuxParams :=
  { s with mem := writeBytes s.mem a bs, written := s.written ++ [(a, bs.length)] }

/-- `linux_argv[i] = p`. -/
def LinuxParams.setArgv (s : LinuxParams) (i : ℕ) (p : BitVec 32) : LinuxParams :=
  { s.write (addr s.linuxArgv (4 * i)) (be32 p) with slots := s.slots ++ [i] }

/-- Where the command line goes on behind its first argument: behind the blank, if the
argument ends at one. -/
def afterArg (cmdline : CString) : CString :=
  let next := argLength cmdline.bytes
  cmdline.drop (if next < cmdline.strlen then next + 1 else next)

theorem strlen_afterArg_lt {cmdline : CString} (h : 0 < cmdline.strlen) :
    (afterArg cmdline).strlen < cmdline.strlen := by
  have hle : argLength cmdline.bytes ≤ cmdline.strlen := argLength_le cmdline.bytes
  have hlen : ∀ n, (cmdline.drop n).strlen = cmdline.strlen - n := fun n => List.length_drop
  rw [afterArg, hlen]
  split <;> omega

/-- The loop over the command line, with what it leaves in `argp`. -/
def argLoop (s : LinuxParams) (argp : BitVec 32) (cmdline : CString) : LinuxParams × BitVec 32 :=
  if cmdline.bytes ≠ [] ∧ s.linuxArgc < linuxMaxArgs then
    let next := argLength cmdline.bytes
    let s₁ := s.setArgv s.linuxArgc argp
    let s₂ := s₁.write argp ((cmdline.bytes.take next).map UInt8.toBitVec)
    let s₃ := s₂.write (addr argp next) [0]
    argLoop { s₃ with linuxArgc := s.linuxArgc + 1 } (addr argp (next + 1)) (afterArg cmdline)
  else (s, argp)
termination_by linuxMaxArgs - s.linuxArgc

/-- `print_number` for an unsigned decimal number without a field width. -/
def printNumber (num : ℕ) : List UInt8 :=
  if num = 0 then [48] else ((Nat.digits 10 num).map fun d => 48 + UInt8.ofNat d).reverse

theorem zero_notMem_printNumber (num : ℕ) : 0 ∉ printNumber num := by
  rw [printNumber]
  split
  · decide
  · rw [List.mem_reverse, List.mem_map]
    rintro ⟨d, hd, hzero⟩
    have hdigit : ∀ d < 10, 48 + UInt8.ofNat d ≠ 0 := by decide
    exact hdigit d (Nat.digits_lt_base (by omega) hd) hzero

/-- `"mem=%luM"` with the size of the memory in megabytes. -/
def memArg (systemMemsize : BitVec 32) : CString where
  bytes := ascii "mem=" ++ printNumber (systemMemsize >>> 20).toNat ++ ascii "M"
  noNul := by
    have hnumber := zero_notMem_printNumber (systemMemsize >>> 20).toNat
    have hmem : 0 ∉ ascii "mem=" := by decide
    have hM : 0 ∉ ascii "M" := by decide
    simp only [List.mem_append, hnumber, hmem, hM, or_self, not_false_eq_true]

/-- The text fits into the 16 bytes of `memstr`. -/
theorem strlen_memArg_lt (systemMemsize : BitVec 32) : (memArg systemMemsize).strlen < 16 := by
  have hsize : (systemMemsize >>> 20).toNat < 10 ^ 4 := by
    rw [BitVec.toNat_ushiftRight, Nat.shiftRight_eq_div_pow]
    have := systemMemsize.isLt
    omega
  have hdigits := (Nat.digits_length_le_iff (by omega : 1 < 10) _).mpr hsize
  have hnumber : (printNumber (systemMemsize >>> 20).toNat).length ≤ 4 := by
    rw [printNumber]
    split
    · decide
    · rwa [List.length_reverse, List.length_map]
  have hmem : (ascii "mem=").length = 4 := by decide
  have hM : (ascii "M").length = 1 := by decide
  rw [memArg, CString.strlen, List.length_append, List.length_append, hmem, hM]
  omega

/-- The conversion `%lu` prints an unsigned decimal number. -/
theorem printInt_unsigned (num : BitVec 32) :
    Printf.printInt ⟨{}, -1, -1, some 'l'.toUInt8⟩ 10 false false num = printNumber num.toNat := by
  have hqualifier : Printf.intArg ⟨{}, -1, -1, some 'l'.toUInt8⟩ false num = num :=
    if_neg (by decide)
  have hchar : ∀ d < 10, Printf.digitChar false d = 48 + UInt8.ofNat d := by decide
  have hdigit : ∀ d ∈ Nat.digits 10 num.toNat, Printf.digitChar false d = 48 + UInt8.ofNat d :=
    fun d hd => hchar d (Nat.digits_lt_base (by omega) hd)
  rw [Printf.printInt, hqualifier]
  refine (Printf.printNumber_plain num 10 false).trans ?_
  change numeral 10 (Printf.digitChar false) num.toNat = _
  rw [numeral, lowDigits, printNumber]
  split
  · rfl
  · rw [List.map_congr_left hdigit]

/-- **The formatter writes this text** and its NUL, into a buffer of 16 bytes. -/
theorem rtSprintf_memArg (systemMemsize : BitVec 32) {memstr : BitVec 32}
    (hroom : memstr.toNat + 16 < 4294967296) :
    Printf.rtSprintf memstr (ascii "mem=%luM") [.word (systemMemsize >>> 20)] =
      some (i32 (memArg systemMemsize).strlen, (memArg systemMemsize).bytes ++ [0]) := by
  have hformat : ascii "mem=%luM" = ascii "mem=" ++ ascii "%luM" := by decide
  have hfuel : (ascii "mem=" ++ ascii "%luM").length + 1 = (ascii "mem=").length + 5 := by decide
  have hconvert : Printf.formatLoop 5 (ascii "%luM") [.word (systemMemsize >>> 20)] = some
      (Printf.printInt ⟨{}, -1, -1, some 'l'.toUInt8⟩ 10 false false (systemMemsize >>> 20) ++
        ascii "M") := rfl
  have hlen : (memArg systemMemsize).bytes.length < 16 := strlen_memArg_lt systemMemsize
  refine Printf.rtSprintf_eq ?_ (by omega)
  rw [hformat, hfuel, Printf.formatLoop_literal (by decide), hconvert, printInt_unsigned]
  exact congrArg some (List.append_assoc _ _ _).symm

/-- The size of the memory as a further argument. -/
def addMemArg (s : LinuxParams) (argp : BitVec 32) (text : CString) : LinuxParams × BitVec 32 :=
  let s₁ := s.write argp text.cells
  let s₂ := s₁.setArgv s.linuxArgc argp
  ({ s₂ with linuxArgc := s.linuxArgc + 1 }, addr argp (text.strlen + 1))

/-- The variables at the beginning of `linux_params_init`; those of the environment are set
at its end. -/
def paramsStart (m : Mem) (start : BitVec 32) : LinuxParams where
  mem := m
  written := []
  slots := []
  linuxArgc := 1
  linuxArgv := start
  linuxEnvIdx := 0
  linuxEnv := 0
  linuxEnvP := 0

/-- `linux_params_init` behind its loop. -/
def finishParams (systemMemsize : BitVec 32) (cmdline : CString) (r : LinuxParams × BitVec 32) :
    LinuxParams :=
  let r :=
    if (memstr (ascii "mem=") cmdline.bytes).isSome then r
    else addMemArg r.1 r.2 (memArg systemMemsize)
  let env := (r.2 + 15) &&& ~~~15
  { r.1.write env (be32 0) with
    linuxEnv := env, linuxEnvP := addr env (4 * linuxMaxEnvs), linuxEnvIdx := 0 }

/-- `linux_params_init`. -/
def linuxParamsInit (m : Mem) (systemMemsize start : BitVec 32) (cmdline : CString) :
    LinuxParams :=
  finishParams systemMemsize cmdline
    (argLoop ((paramsStart m start).setArgv 0 0) (addr start (4 * linuxMaxArgs)) cmdline)

/-- `rt_strcpy` to `linux_env_p`, which moves on to the NUL. -/
def LinuxParams.envCopy (s : LinuxParams) (text : CString) : LinuxParams :=
  { s.write s.linuxEnvP text.cells with linuxEnvP := addr s.linuxEnvP text.strlen }

/-- The string `"="`. -/
def equalsSign : CString :=
  ⟨ascii "=", by decide⟩

/-- `linux_env_set`. -/
def linuxEnvSet (s : LinuxParams) (setting : CString × CString) : LinuxParams :=
  if s.linuxEnvIdx < linuxMaxEnvs - 1 then
    let s₁ := s.write (addr s.linuxEnv (4 * s.linuxEnvIdx)) (be32 s.linuxEnvP)
    let s₂ := ((s₁.envCopy setting.1).envCopy equalsSign).envCopy setting.2
    let idx := s.linuxEnvIdx + 1
    { s₂.write (addr s.linuxEnv (4 * idx)) (be32 0) with
      linuxEnvP := addr s₂.linuxEnvP 1, linuxEnvIdx := idx }
  else s

/-! ### The arguments -/

/-- The arguments of a command line. -/
def cmdlineArgs (cmdline : CString) : List CString :=
  if cmdline.bytes = [] then []
  else cmdline.take (argLength cmdline.bytes) :: cmdlineArgs (afterArg cmdline)
termination_by cmdline.strlen
decreasing_by
  have hpos : 0 < cmdline.strlen := List.length_pos_iff.mpr ‹_›
  exact strlen_afterArg_lt hpos

/-- The arguments of the kernel: those of the command line, and the size of the memory if
the command line does not give it. -/
def kernelArgs (systemMemsize : BitVec 32) (cmdline : CString) : List CString :=
  if (memstr (ascii "mem=") cmdline.bytes).isSome then cmdlineArgs cmdline
  else cmdlineArgs cmdline ++ [memArg systemMemsize]

/-- A setting of the environment as the kernel gets it. -/
def envText (setting : CString × CString) : CString :=
  (setting.1.append equalsSign).append setting.2

/-- What the strings take up in memory, one behind the other. -/
def textArea (texts : List CString) : List (BitVec 8) :=
  (texts.map CString.cells).flatten

/-- The offset of the table of the environment: behind the arguments, on a multiple of
16. -/
def envOffset (start : BitVec 32) (args : List CString) : ℕ :=
  let argsEnd := 4 * linuxMaxArgs + (textArea args).length
  argsEnd + (16 - (start.toNat + argsEnd) % 16) % 16

/-- The total size of the parameters. -/
def paramsSize (start : BitVec 32) (args settings : List CString) : ℕ :=
  envOffset start args + 4 * linuxMaxEnvs + (textArea settings).length

/-- An argument is added: its entry, its bytes and the NUL. -/
def addArg (r : LinuxParams × BitVec 32) (t : CString) : LinuxParams × BitVec 32 :=
  let s := r.1
  let argp := r.2
  let s₁ := s.setArgv s.linuxArgc argp
  let s₂ := s₁.write argp (t.bytes.map UInt8.toBitVec)
  let s₃ := s₂.write (addr argp t.strlen) [0]
  ({ s₃ with linuxArgc := s.linuxArgc + 1 }, addr argp (t.strlen + 1))

/-- **The loop over the command line adds its arguments**, in order, as many as the table has
room for. -/
theorem argLoop_eq_foldl_take (s : LinuxParams) (argp : BitVec 32) (cmdline : CString) :
    argLoop s argp cmdline =
      ((cmdlineArgs cmdline).take (linuxMaxArgs - s.linuxArgc)).foldl addArg (s, argp) := by
  fun_induction cmdlineArgs cmdline generalizing s argp with
  | case1 cmdline hnil =>
      rw [argLoop, if_neg fun hc => hc.1 hnil, List.take_nil, List.foldl_nil]
  | case2 cmdline hnil ih =>
      rw [argLoop]
      by_cases hroom : s.linuxArgc < linuxMaxArgs
      · have htake : (cmdline.take (argLength cmdline.bytes)).strlen = argLength cmdline.bytes :=
          List.length_take_of_le (argLength_le cmdline.bytes)
        obtain ⟨k, hk⟩ : ∃ k, linuxMaxArgs - s.linuxArgc = k + 1 :=
          ⟨linuxMaxArgs - s.linuxArgc - 1, by omega⟩
        have hk' : linuxMaxArgs - (s.linuxArgc + 1) = k := by omega
        rw [if_pos ⟨hnil, hroom⟩, hk, List.take_succ_cons, List.foldl_cons, addArg, htake, ih, hk']
        rfl
      · rw [if_neg fun hc => hroom hc.2, Nat.sub_eq_zero_of_le (Nat.le_of_not_lt hroom),
          List.take_zero, List.foldl_nil]

/-- All of them, if the table has room. -/
theorem argLoop_eq_foldl (s : LinuxParams) (argp : BitVec 32) (cmdline : CString)
    (h : s.linuxArgc + (cmdlineArgs cmdline).length ≤ linuxMaxArgs) :
    argLoop s argp cmdline = (cmdlineArgs cmdline).foldl addArg (s, argp) := by
  rw [argLoop_eq_foldl_take, List.take_of_length_le (by omega)]

theorem length_cells (t : CString) : t.cells.length = t.strlen + 1 := by
  simp [CString.cells, CString.strlen]

theorem textArea_concat (texts : List CString) (t : CString) :
    textArea (texts ++ [t]) = textArea texts ++ t.cells := by
  simp [textArea]

theorem length_textArea_concat (texts : List CString) (t : CString) :
    (textArea (texts ++ [t])).length = (textArea texts).length + t.cells.length := by
  rw [textArea_concat, List.length_append]

theorem textArea_append (texts texts' : List CString) :
    textArea (texts ++ texts') = textArea texts ++ textArea texts' := by
  simp [textArea]

/-! ### What has been written -/

/-- Every range written lies in the first `limit` bytes behind `start`. -/
def WrittenBelow (start : BitVec 32) (limit : ℕ) (written : List (BitVec 32 × ℕ)) : Prop :=
  ∀ r ∈ written, ∃ i, r.1 = addr start i ∧ i + r.2 ≤ limit

theorem WrittenBelow.mono {start : BitVec 32} {limit limit' : ℕ} {written : List (BitVec 32 × ℕ)}
    (h : WrittenBelow start limit written) (hle : limit ≤ limit') :
    WrittenBelow start limit' written := by
  intro r hr
  obtain ⟨i, hi, hlen⟩ := h r hr
  exact ⟨i, hi, hlen.trans hle⟩

theorem WrittenBelow.write {start : BitVec 32} {limit i : ℕ} {s : LinuxParams}
    (h : WrittenBelow start limit s.written) {b : List (BitVec 8)} (hle : i + b.length ≤ limit) :
    WrittenBelow start limit (s.write (addr start i) b).written := by
  intro r hr
  rcases List.mem_append.mp hr with hr | hr
  · exact h r hr
  · obtain rfl := List.mem_singleton.mp hr
    exact ⟨i, rfl, hle⟩

/-! ### Laying out the arguments -/

/-- The table of the arguments: a null pointer, then a pointer to each of them. -/
def argTable (start : BitVec 32) (args : List CString) : List (BitVec 8) :=
  be32 0 ++
    (blockPointers (addr start (4 * linuxMaxArgs)) (args.map CString.cells)).flatMap be32

theorem length_argTable (start : BitVec 32) (args : List CString) :
    (argTable start args).length = 4 * (args.length + 1) := by
  rw [argTable, List.length_append, length_be32, length_flatMap_be32, length_blockPointers,
    List.length_map]
  omega

theorem argTable_concat (start : BitVec 32) (args : List CString) (t : CString) :
    argTable start (args ++ [t]) = argTable start args ++
      be32 (addr start (4 * linuxMaxArgs + (textArea args).length)) := by
  rw [argTable, List.map_append, blockPointers_append, List.flatMap_append, ← List.append_assoc,
    ← argTable, addr_addr]
  simp [blockPointers, textArea]

/-- The arguments have been laid out, and `argp` points behind them. -/
structure ArgsInv (start : BitVec 32) (s : LinuxParams) (argp : BitVec 32)
    (args : List CString) : Prop where
  argc : s.linuxArgc = args.length + 1
  argv : s.linuxArgv = start
  argp : argp = addr start (4 * linuxMaxArgs + (textArea args).length)
  areas : TwoAreas s.mem start 0 (4 * linuxMaxArgs) (argTable start args) (textArea args)
  written : WrittenBelow start (4 * linuxMaxArgs + (textArea args).length) s.written

section
variable {start argp : BitVec 32} {s : LinuxParams} {args : List CString} {t : CString}

/-- The entry of the next argument, in the table. -/
theorem ArgsInv.slot (h : ArgsInv start s argp args) :
    addr s.linuxArgv (4 * s.linuxArgc) = addr start (0 + (argTable start args).length) := by
  rw [h.argv, h.argc, length_argTable, Nat.zero_add]

/-- There is room for a further argument. -/
structure ArgFits (args : List CString) (t : CString) : Prop where
  table : args.length < 511
  area : 4 * linuxMaxArgs + (textArea (args ++ [t])).length ≤ 2 ^ 32

/-- However an argument and its entry are written, the state that counts it is laid out
with it. -/
theorem ArgsInv.add (h : ArgsInv start s argp args) {s' : LinuxParams}
    (hargc : s'.linuxArgc = s.linuxArgc + 1) (hargv : s'.linuxArgv = s.linuxArgv)
    (hareas : TwoAreas s'.mem start 0 (4 * linuxMaxArgs) (argTable start args ++ be32 argp)
      (textArea args ++ t.cells))
    (hwritten : WrittenBelow start (4 * linuxMaxArgs + (textArea (args ++ [t])).length)
      s'.written) :
    ArgsInv start s' (addr argp (t.strlen + 1)) (args ++ [t]) where
  argc := by rw [hargc, h.argc, List.length_append, List.length_singleton]
  argv := hargv.trans h.argv
  argp := by rw [h.argp, addr_addr, length_textArea_concat, length_cells, Nat.add_assoc]
  areas := by rwa [argTable_concat, textArea_concat, ← h.argp]
  written := hwritten

/-- An argument of the command line is added. -/
theorem ArgsInv.addArg (h : ArgsInv start s argp args) (hfits : ArgFits args t) :
    ArgsInv start (addArg (s, argp) t).1 (addArg (s, argp) t).2 (args ++ [t]) := by
  obtain ⟨htable, harea⟩ := hfits
  have hmax : linuxMaxArgs = 512 := rfl
  have hlower := length_argTable start args
  have hword := length_be32 argp
  have hcells := length_cells t
  have hbytes : (t.bytes.map UInt8.toBitVec).length = t.strlen := List.length_map _
  have hsize := length_textArea_concat args t
  have hlower' : (argTable start args ++ be32 argp).length = 4 * (args.length + 1) + 4 := by
    rw [List.length_append, hlower, hword]
  refine h.add rfl rfl ?_ ?_
  · have hareas := (h.areas.extendLower (c := be32 argp) rfl (by omega) (by omega)).extendUpper
      (c := t.cells) rfl (by omega) (by omega)
    rw [← h.slot, ← h.argp, CString.cells, writeBytes_append, hbytes] at hareas
    exact hareas
  · have hwritten : WrittenBelow start (4 * linuxMaxArgs + (textArea (args ++ [t])).length)
        s.written := h.written.mono (by omega)
    have hnul : ([0] : List (BitVec 8)).length = 1 := rfl
    have hslot := hwritten.write (i := 0 + (argTable start args).length) (b := be32 argp)
      (by omega)
    have htext := hslot.write (i := 4 * linuxMaxArgs + (textArea args).length)
      (b := t.bytes.map UInt8.toBitVec) (by omega)
    have hend := htext.write (i := 4 * linuxMaxArgs + (textArea args).length + t.strlen)
      (b := [0]) (by omega)
    have hlast : addr argp t.strlen =
        addr start (4 * linuxMaxArgs + (textArea args).length + t.strlen) := by
      rw [h.argp, addr_addr]
    rw [← h.slot, ← hlast, ← h.argp] at hend
    exact hend

/-- The size of the memory is added. -/
theorem ArgsInv.addMemArg (h : ArgsInv start s argp args) (hfits : ArgFits args t) :
    ArgsInv start (addMemArg s argp t).1 (addMemArg s argp t).2 (args ++ [t]) := by
  obtain ⟨htable, harea⟩ := hfits
  have hmax : linuxMaxArgs = 512 := rfl
  have hlower := length_argTable start args
  have hword := length_be32 argp
  have hsize := length_textArea_concat args t
  have hupper : (textArea args ++ t.cells).length = (textArea args).length + t.cells.length :=
    List.length_append
  refine h.add rfl rfl ?_ ?_
  · have hareas := (h.areas.extendUpper (c := t.cells) rfl (by omega) (by omega)).extendLower
      (c := be32 argp) rfl (by omega) (by omega)
    rw [← h.slot, ← h.argp] at hareas
    exact hareas
  · have hwritten : WrittenBelow start (4 * linuxMaxArgs + (textArea (args ++ [t])).length)
        s.written := h.written.mono (by omega)
    have htext := hwritten.write (i := 4 * linuxMaxArgs + (textArea args).length)
      (b := t.cells) (by omega)
    have hslot := htext.write (i := 0 + (argTable start args).length) (b := be32 argp) (by omega)
    rw [← h.slot, ← h.argp] at hslot
    exact hslot

/-- Any number of arguments is added. -/
theorem ArgsInv.foldl_addArg {r : LinuxParams × BitVec 32} (h : ArgsInv start r.1 r.2 args)
    (texts : List CString) (hargs : (args ++ texts).length ≤ 511)
    (hsize : 4 * linuxMaxArgs + (textArea (args ++ texts)).length ≤ 2 ^ 32) :
    ArgsInv start (texts.foldl RtBoot.addArg r).1 (texts.foldl RtBoot.addArg r).2
      (args ++ texts) := by
  induction texts generalizing r args with
  | nil =>
      rw [List.append_nil]
      exact h
  | cons t texts ih =>
      rw [List.append_cons] at hargs hsize ⊢
      have hfits : ArgFits args t := by
        rw [List.length_append, List.length_append, List.length_singleton] at hargs
        rw [textArea_append, List.length_append] at hsize
        exact ⟨by omega, by omega⟩
      exact ih (h.addArg hfits) hargs hsize

/-- **The loop over the command line lays out its arguments.** -/
theorem ArgsInv.argLoop (h : ArgsInv start s argp args) (cmdline : CString)
    (hargs : (args ++ cmdlineArgs cmdline).length ≤ 511)
    (hsize : 4 * linuxMaxArgs + (textArea (args ++ cmdlineArgs cmdline)).length ≤ 2 ^ 32) :
    ArgsInv start (argLoop s argp cmdline).1 (argLoop s argp cmdline).2
      (args ++ cmdlineArgs cmdline) := by
  have hroom : s.linuxArgc + (cmdlineArgs cmdline).length ≤ linuxMaxArgs := by
    rw [List.length_append] at hargs
    rw [h.argc, linuxMaxArgs]
    omega
  rw [argLoop_eq_foldl s argp cmdline hroom]
  exact foldl_addArg h (cmdlineArgs cmdline) hargs hsize

end

theorem argsInv_start (m : Mem) (start : BitVec 32) :
    ArgsInv start ((paramsStart m start).setArgv 0 0) (addr start (4 * linuxMaxArgs)) [] where
  argc := rfl
  argv := rfl
  argp := rfl
  areas := by
    refine ⟨?_, fun i b hb => by simp [textArea] at hb⟩
    exact bytesAt_writeBytes (by decide)
  written := by
    intro r hr
    obtain rfl := List.mem_singleton.mp hr
    exact ⟨0, rfl, by simp [linuxMaxArgs]; omega⟩

/-! ### Laying out the environment -/

/-- Rounding up to a multiple of 16. -/
theorem addr_align (start : BitVec 32) (i : ℕ) :
    (addr start i + 15) &&& ~~~15 = addr start (i + (16 - (start.toNat + i) % 16) % 16) := by
  have hdown : (addr start i + 15) &&& ~~~15 = alignDown (addr start i + 15) 16 := rfl
  rw [hdown, ← BitVec.toNat_inj, toNat_alignDown (k := 4) _ (by decide)]
  have h15 : (15 : BitVec 32).toNat = 15 := rfl
  simp only [addr, BitVec.toNat_add, BitVec.toNat_ofNat, h15, Nat.add_mod_mod]
  rw [← Nat.add_assoc]
  generalize start.toNat + i = x
  omega

/-- The table of the environment: a pointer to each setting, then a null pointer. -/
def envTable (area : BitVec 32) (settings : List CString) : List (BitVec 8) :=
  (blockPointers area (settings.map CString.cells)).flatMap be32 ++ be32 0

theorem envTable_concat (area : BitVec 32) (settings : List CString) (t : CString) :
    envTable area (settings ++ [t]) =
      (blockPointers area (settings.map CString.cells)).flatMap be32 ++
        be32 (addr area (textArea settings).length) ++ be32 0 := by
  rw [envTable, List.map_append, blockPointers_append, List.flatMap_append]
  simp [blockPointers, textArea]

/-- The arguments have been laid out, and behind them, up to `linux_env_p`, the bytes
`upper`; the table of the environment begins with `lower`. -/
structure EnvBusy (start : BitVec 32) (args : List CString) (limit : ℕ) (s : LinuxParams)
    (lower upper : List (BitVec 8)) : Prop where
  argAreas : TwoAreas s.mem start 0 (4 * linuxMaxArgs) (argTable start args) (textArea args)
  areas : TwoAreas s.mem start (envOffset start args) (envOffset start args + 4 * linuxMaxEnvs)
    lower upper
  envP : s.linuxEnvP = addr start (envOffset start args + 4 * linuxMaxEnvs + upper.length)
  written : WrittenBelow start limit s.written

/-- The settings have been laid out behind the arguments. -/
structure EnvInv (start : BitVec 32) (args : List CString) (s : LinuxParams)
    (settings : List CString) : Prop where
  argc : s.linuxArgc = args.length + 1
  argv : s.linuxArgv = start
  env : s.linuxEnv = addr start (envOffset start args)
  idx : s.linuxEnvIdx = settings.length
  busy : EnvBusy start args (paramsSize start args settings) s
    (envTable (addr start (envOffset start args + 4 * linuxMaxEnvs)) settings) (textArea settings)

theorem argsEnd_le_envOffset (start : BitVec 32) (args : List CString) :
    4 * linuxMaxArgs + (textArea args).length ≤ envOffset start args :=
  Nat.le_add_right _ _

section
variable {start : BitVec 32} {args : List CString} {limit : ℕ} {s : LinuxParams}
  {lower upper c : List (BitVec 8)}

/-- Writing to the table of the environment, behind its beginning `lower`. -/
theorem EnvBusy.writeTable (h : EnvBusy start args limit s lower upper) (hargs : args.length ≤ 511)
    {k : ℕ} (hk : envOffset start args + lower.length = k)
    (hfit : lower.length + c.length ≤ 4 * linuxMaxEnvs)
    (hupper : envOffset start args + 4 * linuxMaxEnvs + upper.length ≤ 2 ^ 32)
    (hlimit : k + c.length ≤ limit) :
    EnvBusy start args limit (s.write (addr start k) c) (lower ++ c) upper := by
  have htable := length_argTable start args
  have hend := argsEnd_le_envOffset start args
  have hmax : linuxMaxArgs = 512 := rfl
  exact
    { argAreas := h.argAreas.write (by omega) (by omega) (by omega)
      areas := h.areas.extendLower hk (by omega) hupper
      envP := h.envP
      written := h.written.write hlimit }

/-- Copying a string to `linux_env_p`. -/
theorem EnvBusy.envCopy (h : EnvBusy start args limit s lower upper) (hargs : args.length ≤ 511)
    (t : CString) (hfit : lower.length ≤ 4 * linuxMaxEnvs)
    (hlimit : envOffset start args + 4 * linuxMaxEnvs + (upper ++ t.cells).length ≤ limit)
    (h32 : limit ≤ 2 ^ 32) :
    EnvBusy start args limit (s.envCopy t) lower (upper ++ t.bytes.map UInt8.toBitVec) ∧
      TwoAreas (s.envCopy t).mem start (envOffset start args)
        (envOffset start args + 4 * linuxMaxEnvs) lower (upper ++ t.cells) := by
  have htable := length_argTable start args
  have hend := argsEnd_le_envOffset start args
  have hmax : linuxMaxArgs = 512 := rfl
  have hbytes : (t.bytes.map UInt8.toBitVec).length = t.strlen := List.length_map _
  rw [List.length_append] at hlimit
  have hareas := h.areas.extendUpper (c := t.cells) rfl (by omega) (by omega)
  rw [← h.envP] at hareas
  have hargs' := h.argAreas.write (c := t.cells)
    (k := envOffset start args + 4 * linuxMaxEnvs + upper.length) (by omega) (by omega) (by omega)
  have hwritten := h.written.write (b := t.cells)
    (i := envOffset start args + 4 * linuxMaxEnvs + upper.length) (by omega)
  rw [← h.envP] at hargs' hwritten
  refine ⟨⟨hargs', ?_, ?_, hwritten⟩, hareas⟩
  · rw [CString.cells, ← List.append_assoc] at hareas
    exact hareas.dropUpper
  · rw [LinuxParams.envCopy]
    dsimp only
    rw [h.envP, addr_addr, List.length_append, hbytes, Nat.add_assoc _ upper.length]

theorem EnvBusy.dropTable (h : EnvBusy start args limit s (lower ++ c) upper) :
    EnvBusy start args limit s lower upper :=
  { h with areas := h.areas.dropLower }

theorem EnvBusy.mono (h : EnvBusy start args limit s lower upper) {limit' : ℕ}
    (hle : limit ≤ limit') : EnvBusy start args limit' s lower upper :=
  { h with written := h.written.mono hle }

/-- Behind the last copy `linux_env_p` moves over the NUL. -/
theorem EnvBusy.closeText {t : CString} (idx : ℕ)
    (h : EnvBusy start args limit s lower (upper ++ t.bytes.map UInt8.toBitVec))
    (hareas : TwoAreas s.mem start (envOffset start args)
      (envOffset start args + 4 * linuxMaxEnvs) lower (upper ++ t.cells)) :
    EnvBusy start args limit { s with linuxEnvP := addr s.linuxEnvP 1, linuxEnvIdx := idx } lower
      (upper ++ t.cells) := by
  refine ⟨h.argAreas, hareas, ?_, h.written⟩
  have hlen : (upper ++ t.cells).length = (upper ++ t.bytes.map UInt8.toBitVec).length + 1 := by
    simp [CString.cells]
    omega
  rw [h.envP, addr_addr, hlen, Nat.add_assoc]

theorem cells_envText (setting : CString × CString) :
    (envText setting).cells = setting.1.bytes.map UInt8.toBitVec ++
      (equalsSign.bytes.map UInt8.toBitVec ++ setting.2.cells) := by
  simp [envText, CString.cells]

/-- The text of a setting is copied in three parts. -/
theorem EnvBusy.copySetting (h : EnvBusy start args limit s lower upper)
    (hargs : args.length ≤ 511) (setting : CString × CString) (idx : ℕ)
    (hfit : lower.length ≤ 4 * linuxMaxEnvs) (hlimit : envOffset start args + 4 * linuxMaxEnvs +
      (upper.length + (envText setting).cells.length) ≤ limit) (h32 : limit ≤ 2 ^ 32) :
    let s' := ((s.envCopy setting.1).envCopy equalsSign).envCopy setting.2
    EnvBusy start args limit { s' with linuxEnvP := addr s'.linuxEnvP 1, linuxEnvIdx := idx }
      lower (upper ++ (envText setting).cells) := by
  have hbytes : ∀ t : CString, (t.bytes.map UInt8.toBitVec).length = t.strlen :=
    fun t => List.length_map _
  simp only [cells_envText, List.length_append, hbytes, length_cells] at hlimit
  obtain ⟨hname, -⟩ := h.envCopy hargs setting.1 hfit
    (by simp only [List.length_append, length_cells]; omega) h32
  obtain ⟨hequals, -⟩ := hname.envCopy hargs equalsSign hfit
    (by simp only [List.length_append, hbytes, length_cells]; omega) h32
  obtain ⟨hval, hareas⟩ := hequals.envCopy hargs setting.2 hfit
    (by simp only [List.length_append, hbytes, length_cells]; omega) h32
  rw [cells_envText, ← List.append_assoc, ← List.append_assoc]
  exact hval.closeText idx hareas

/-- **A setting is added behind the others.** -/
theorem EnvInv.linuxEnvSet {settings : List CString} {setting : CString × CString}
    (h : EnvInv start args s settings) (hargs : args.length ≤ 511) (hidx : settings.length < 511)
    (h32 : paramsSize start args (settings ++ [envText setting]) ≤ 2 ^ 32) :
    EnvInv start args (linuxEnvSet s setting) (settings ++ [envText setting]) := by
  obtain ⟨hargc, hargv, henv, hsidx, hbusy⟩ := h
  have hmax : linuxMaxEnvs = 512 := rfl
  have hword : ∀ w : BitVec 32, (be32 w).length = 4 := length_be32
  have hcells := length_cells (envText setting)
  have hsize : paramsSize start args (settings ++ [envText setting]) =
      paramsSize start args settings + (envText setting).cells.length := by
    rw [paramsSize, length_textArea_concat, paramsSize]
    omega
  have hsize' : paramsSize start args settings =
      envOffset start args + 4 * linuxMaxEnvs + (textArea settings).length := rfl
  have htable : ((blockPointers (addr start (envOffset start args + 4 * linuxMaxEnvs))
      (settings.map CString.cells)).flatMap be32).length = 4 * settings.length := by
    rw [length_flatMap_be32, length_blockPointers, List.length_map]
  rw [RtBoot.linuxEnvSet, if_pos (by omega), hsidx, henv]
  simp only [addr_addr]
  refine ⟨hargc, hargv, henv, by rw [List.length_append, List.length_singleton], ?_⟩
  rw [envTable_concat, textArea_concat, addr_addr, ← hbusy.envP]
  -- the entry takes the place of the null pointer, which is written anew behind it
  have hgrown : EnvBusy start args (paramsSize start args (settings ++ [envText setting])) s _ _ :=
    (hbusy.mono (by omega)).dropTable
  have hentry := hgrown.writeTable hargs (c := be32 s.linuxEnvP) (k := envOffset start args +
    4 * settings.length) (by omega) (by rw [htable, hword]; omega) (by omega)
    (by rw [hword]; omega)
  have htext := hentry.copySetting hargs setting (settings.length + 1)
    (by rw [List.length_append, htable, hword]; omega) (by omega) h32
  have hnull := htext.writeTable hargs (c := be32 0) (k := envOffset start args +
    4 * (settings.length + 1)) (by rw [List.length_append, htable, hword]; omega)
    (by rw [List.length_append, htable, hword, hword]; omega)
    (by rw [List.length_append]; omega) (by rw [hword]; omega)
  exact hnull

/-- When the table is full, a setting is left out. -/
theorem EnvInv.full {settings : List CString} (h : EnvInv start args s settings)
    (hidx : settings.length = 511) (setting : CString × CString) :
    RtBoot.linuxEnvSet s setting = s := by
  have hmax : linuxMaxEnvs = 512 := rfl
  rw [RtBoot.linuxEnvSet, if_neg]
  rw [h.idx]
  omega

/-- Any number of settings: as many as the table takes are laid out, in order. -/
theorem EnvInv.foldl {done : List CString} (h : EnvInv start args s done)
    (settings : List (CString × CString)) (hargs : args.length ≤ 511) (hdone : done.length ≤ 511)
    (h32 : paramsSize start args (done ++ (settings.take (511 - done.length)).map envText)
      ≤ 2 ^ 32) :
    EnvInv start args (settings.foldl RtBoot.linuxEnvSet s)
      (done ++ (settings.take (511 - done.length)).map envText) := by
  induction settings generalizing s done with
  | nil => simpa using h
  | cons setting settings ih =>
      rw [List.foldl_cons]
      rcases Nat.eq_or_lt_of_le hdone with hfull | hroom
      · rw [h.full hfull]
        have hnone : ∀ l : List (CString × CString), l.take (511 - done.length) = [] := by
          intro l
          rw [hfull, Nat.sub_self, List.take_zero]
        have := ih h hdone (by rwa [hnone] at h32 ⊢)
        rwa [hnone] at this ⊢
      · obtain ⟨k, hk⟩ : ∃ k, 511 - done.length = k + 1 := ⟨511 - done.length - 1, by omega⟩
        have hlen : (done ++ [envText setting]).length = done.length + 1 := by
          rw [List.length_append, List.length_singleton]
        have hk' : 511 - (done ++ [envText setting]).length = k := by omega
        rw [hk, List.take_succ_cons, List.map_cons, List.append_cons] at h32 ⊢
        rw [← hk'] at h32 ⊢
        refine ih (h.linuxEnvSet hargs hroom ?_) (by omega) h32
        rw [paramsSize, textArea_append, List.length_append] at h32
        rw [paramsSize]
        omega

/-- The environment begins behind the arguments. -/
theorem ArgsInv.envStart {argp : BitVec 32} (h : ArgsInv start s argp args)
    (hargs : args.length ≤ 511) (h32 : paramsSize start args [] ≤ 2 ^ 32) :
    EnvInv start args
      { s.write ((argp + 15) &&& ~~~15) (be32 0) with
        linuxEnv := (argp + 15) &&& ~~~15
        linuxEnvP := addr ((argp + 15) &&& ~~~15) (4 * linuxMaxEnvs)
        linuxEnvIdx := 0 } [] := by
  have halign : (argp + 15) &&& ~~~15 = addr start (envOffset start args) := by
    rw [h.argp, addr_align]
    rfl
  have htable := length_argTable start args
  have hend := argsEnd_le_envOffset start args
  have hmax : linuxMaxArgs = 512 := rfl
  have hmax' : linuxMaxEnvs = 512 := rfl
  have hword : (be32 0).length = 4 := length_be32 0
  have hsize : paramsSize start args [] = envOffset start args + 4 * linuxMaxEnvs := rfl
  rw [halign, addr_addr]
  refine ⟨h.argc, h.argv, rfl, rfl, ⟨?_, ⟨?_, ?_⟩, rfl, ?_⟩⟩
  · exact h.areas.write (by omega) hend (by omega)
  · exact bytesAt_writeBytes (by omega)
  · exact fun i b hb => by simp [textArea] at hb
  · exact (h.written.mono (by omega)).write (by omega)

end

/-- `linux_params_init` lays out the arguments of the kernel and an empty environment. -/
theorem envInv_linuxParamsInit (m : Mem) (systemMemsize start : BitVec 32) (cmdline : CString)
    (hargs : (cmdlineArgs cmdline).length ≤ 510)
    (h32 : paramsSize start (kernelArgs systemMemsize cmdline) [] ≤ 2 ^ 32) :
    EnvInv start (kernelArgs systemMemsize cmdline)
      (linuxParamsInit m systemMemsize start cmdline) [] := by
  have hend := argsEnd_le_envOffset start (kernelArgs systemMemsize cmdline)
  have hsize : paramsSize start (kernelArgs systemMemsize cmdline) [] =
    envOffset start (kernelArgs systemMemsize cmdline) + 4 * linuxMaxEnvs := rfl
  have hloop := (argsInv_start m start).argLoop cmdline
  rw [List.nil_append] at hloop
  rw [linuxParamsInit, finishParams]
  by_cases hmem : (memstr (ascii "mem=") cmdline.bytes).isSome
  · have hkernel : kernelArgs systemMemsize cmdline = cmdlineArgs cmdline := if_pos hmem
    rw [if_pos hmem]
    rw [hkernel] at h32 hend hsize ⊢
    exact (hloop (by omega) (by omega)).envStart (by omega) h32
  · have hkernel : kernelArgs systemMemsize cmdline =
        cmdlineArgs cmdline ++ [memArg systemMemsize] := if_neg hmem
    rw [if_neg hmem]
    rw [hkernel] at h32 hend hsize ⊢
    have harea := length_textArea_concat (cmdlineArgs cmdline) (memArg systemMemsize)
    refine ((hloop (by omega) (by omega)).addMemArg ⟨by omega, by omega⟩).envStart ?_ h32
    rw [List.length_append, List.length_singleton]
    omega

/-! ### The block -/

/-- `linux_argv[1]` up to `linux_argv[argc - 1]`, then `linux_env[0]` up to
`linux_env[idx - 1]`. -/
def LinuxParams.pointers (s : LinuxParams) : List (BitVec 32) :=
  wordTable s.mem (addr s.linuxArgv 4) (s.linuxArgc - 1) ++
    wordTable s.mem s.linuxEnv s.linuxEnvIdx

/-- The block holds these arguments and settings: nothing was written outside it, both
tables end as they should, and every pointer leads to its string, inside the block and
apart from the other strings. -/
structure ParamsIntact (start : BitVec 32) (s : LinuxParams) (args settings : List CString) :
    Prop where
  written : WrittenBelow start cfgBootparamsLen.toNat s.written
  argc : s.linuxArgc = args.length + 1
  argv : s.linuxArgv = start
  argv_null : load32 s.mem s.linuxArgv = 0
  idx : s.linuxEnvIdx = settings.length
  env_null : load32 s.mem (addr s.linuxEnv (4 * s.linuxEnvIdx)) = 0
  strings : ∀ q ∈ s.pointers.zip (args ++ settings), BytesAt s.mem q.1 q.2.cells ∧
    ∃ i, q.1 = addr start i ∧ i + q.2.cells.length ≤ cfgBootparamsLen.toNat
  apart : (s.pointers.zip (args ++ settings)).Pairwise fun p q =>
    Apart p.1 p.2.cells.length q.1 q.2.cells.length

section
variable {m : Mem} {start : BitVec 32} {i : ℕ} {texts args settings : List CString}
  {s : LinuxParams}

/-- Every pointer leads to its string. -/
theorem forall_texts (h : BytesAt m (addr start i) (textArea texts)) :
    ∀ q ∈ (blockPointers (addr start i) (texts.map CString.cells)).zip texts,
      BytesAt m q.1 q.2.cells ∧
        ∃ j, q.1 = addr start j ∧ i ≤ j ∧
          j + q.2.cells.length ≤ i + (textArea texts).length := by
  intro q hq
  have hall := forall_blockPointers h
  rw [List.zip_map_right, List.forall_mem_map] at hall
  exact hall q hq

/-- No two strings share an address. -/
theorem pairwise_texts (h : BytesAt m (addr start i) (textArea texts))
    (hlen : i + (textArea texts).length ≤ 2 ^ 32) :
    ((blockPointers (addr start i) (texts.map CString.cells)).zip texts).Pairwise fun p q =>
      Apart p.1 p.2.cells.length q.1 q.2.cells.length := by
  have hpair := pairwise_blockPointers h hlen
  rw [List.zip_map_right, List.pairwise_map] at hpair
  exact hpair

/-- What the tables hold. -/
theorem EnvInv.tables (h : EnvInv start args s settings) :
    load32 s.mem s.linuxArgv = 0 ∧ load32 s.mem (addr s.linuxEnv (4 * s.linuxEnvIdx)) = 0 ∧
      s.pointers = blockPointers (addr start (4 * linuxMaxArgs)) (args.map CString.cells) ++
        blockPointers (addr start (envOffset start args + 4 * linuxMaxEnvs))
          (settings.map CString.cells) := by
  have hargv := h.busy.argAreas.lower
  rw [addr_zero, argTable] at hargv
  obtain ⟨hnull, hargTable⟩ := hargv.word
  obtain ⟨henvTable, hend⟩ := bytesAt_append.mp h.busy.areas.lower
  rw [length_flatMap_be32, length_blockPointers, List.length_map, ← h.env, ← h.idx] at hend
  rw [← h.env] at henvTable
  have hargs := hargTable.wordTable_eq
  have henvs := henvTable.wordTable_eq
  rw [length_blockPointers, List.length_map] at hargs henvs
  refine ⟨by rw [h.argv, hnull], ?_, ?_⟩
  · rw [← List.append_nil (be32 0)] at hend
    exact hend.word.1
  · rw [LinuxParams.pointers, h.argc, Nat.add_sub_cancel, h.argv, h.idx, hargs, henvs]

/-- What has been laid out is intact. -/
theorem EnvInv.intact (h : EnvInv start args s settings)
    (hsize : paramsSize start args settings ≤ cfgBootparamsLen.toNat) :
    ParamsIntact start s args settings := by
  obtain ⟨hnull, hend, hpointers⟩ := h.tables
  have hlen : cfgBootparamsLen.toNat = 524288 := by decide
  have hargsEnd := argsEnd_le_envOffset start args
  rw [paramsSize] at hsize
  have hzip : s.pointers.zip (args ++ settings) =
      (blockPointers (addr start (4 * linuxMaxArgs)) (args.map CString.cells)).zip args ++
        (blockPointers (addr start (envOffset start args + 4 * linuxMaxEnvs))
          (settings.map CString.cells)).zip settings := by
    rw [hpointers, List.zip_append]
    rw [length_blockPointers, List.length_map]
  have hargs := forall_texts h.busy.argAreas.upper
  have hsettings := forall_texts h.busy.areas.upper
  refine ⟨h.busy.written.mono hsize, h.argc, h.argv, hnull, h.idx, hend, ?_, ?_⟩
  · rw [hzip]
    intro q hq
    rcases List.mem_append.mp hq with hq | hq
    · obtain ⟨hbytes, j, hj, -, hle⟩ := hargs q hq
      exact ⟨hbytes, j, hj, by omega⟩
    · obtain ⟨hbytes, j, hj, -, hle⟩ := hsettings q hq
      exact ⟨hbytes, j, hj, by omega⟩
  · rw [hzip, List.pairwise_append]
    refine ⟨pairwise_texts h.busy.argAreas.upper (by omega),
      pairwise_texts h.busy.areas.upper (by omega), fun p hp q hq => ?_⟩
    obtain ⟨-, j, hj, -, hle⟩ := hargs p hp
    obtain ⟨-, k, hk, hge, hle'⟩ := hsettings q hq
    rw [hj, hk]
    exact apart_addr (by omega) (by omega)

end

/-- **The parameters of the kernel are intact**: if the command line has at most 510
arguments and everything fits into the block, all arguments and the first 511 settings are
laid out in it. -/
theorem linux_params_intact (m : Mem) (systemMemsize start : BitVec 32) (cmdline : CString)
    (settings : List (CString × CString)) (hargs : (cmdlineArgs cmdline).length ≤ 510)
    (hsize : paramsSize start (kernelArgs systemMemsize cmdline)
      ((settings.take 511).map envText) ≤ cfgBootparamsLen.toNat) :
    ParamsIntact start (settings.foldl linuxEnvSet (linuxParamsInit m systemMemsize start cmdline))
      (kernelArgs systemMemsize cmdline) ((settings.take 511).map envText) := by
  have hlen : cfgBootparamsLen.toNat = 524288 := by decide
  have hkernel : (kernelArgs systemMemsize cmdline).length ≤ 511 := by
    rw [kernelArgs]
    split
    · omega
    · rw [List.length_append, List.length_singleton]
      omega
  have hempty : paramsSize start (kernelArgs systemMemsize cmdline) [] ≤
      paramsSize start (kernelArgs systemMemsize cmdline) ((settings.take 511).map envText) :=
    Nat.add_le_add_left (Nat.zero_le _) _
  have hinit := envInv_linuxParamsInit m systemMemsize start cmdline hargs (by omega)
  have hrun := hinit.foldl settings hkernel (Nat.zero_le _)
    (by rw [List.nil_append, List.length_nil, Nat.sub_zero]; omega)
  rw [List.nil_append, List.length_nil, Nat.sub_zero] at hrun
  exact hrun.intact hsize

/-- The command line `a "b c"`. -/
def quotedCmdline : CString :=
  ⟨[97, 32, 34, 98, 32, 99, 34], by decide⟩

/-- A blank inside quotes does not end an argument. -/
example : (cmdlineArgs quotedCmdline).map CString.bytes = [[97], [34, 98, 32, 99, 34]] := by
  decide +kernel

/-- Two arguments, the size of the memory, and one setting. -/
theorem linux_params_intact_quoted :
    ParamsIntact 0x83e00000
      ([(⟨ascii "memsize", by decide⟩, ⟨ascii "64", by decide⟩)].foldl linuxEnvSet
        (linuxParamsInit (memOf 0 []) 0x4000000 0x83e00000 quotedCmdline))
      (kernelArgs 0x4000000 quotedCmdline) [⟨ascii "memsize=64", by decide⟩] :=
  linux_params_intact (memOf 0 []) 0x4000000 0x83e00000 quotedCmdline
    [(⟨ascii "memsize", by decide⟩, ⟨ascii "64", by decide⟩)] (by decide +kernel)
    (by decide +kernel)

end RtBoot
