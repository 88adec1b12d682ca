import RtBoot.LinuxParams

/-!
# The Bound of the Argument Table

`linux_params_init` keeps its pointers in a table of `LINUX_MAX_ARGS` entries and puts the
strings right behind it. The loop over the command line stops when the table is full. The
size of the memory is added after the loop, without a look at the table: a command line
that fills the table and does not say `mem=` makes it store one entry too many, and that
entry is the beginning of the first string.

## Main results

* `slots_eq_range`: the entries stored to are as many as the strings, from the first on.
* `argv_slots_iff`: which command lines keep to the table.
-/

namespace RtBoot

/-! ### Entries stored to -/

/-- The strings that are copied behind the table. -/
def storedArgs (systemMemsize : BitVec 32) (cmdline : CString) : List CString :=
  (cmdlineArgs cmdline).take 511 ++
    if (memstr (ascii "mem=") cmdline.bytes).isSome then [] else [memArg systemMemsize]

/-- The entries stored to are entries of the table, so that none of them lies in the strings
behind it. (Strings that do not fit into the address space behind the table would meet the
table by themselves.) -/
structure SlotsInTable (start : BitVec 32) (slots : List ℕ) (texts : List CString) : Prop where
  inTable : ∀ i ∈ slots, i < linuxMaxArgs
  apart : 4 * linuxMaxArgs + (textArea texts).length ≤ 2 ^ 32 → ∀ i ∈ slots,
    Apart (addr start (4 * i)) 4 (addr start (4 * linuxMaxArgs)) (textArea texts).length

/-- Adding arguments stores to the entries from `linux_argc` on, one for each. -/
theorem foldl_addArg_slots (texts : List CString) (r : LinuxParams × BitVec 32) :
    (texts.foldl addArg r).1.linuxArgc = r.1.linuxArgc + texts.length ∧
      (texts.foldl addArg r).1.slots =
        r.1.slots ++ List.range' r.1.linuxArgc texts.length := by
  induction texts generalizing r with
  | nil => exact ⟨rfl, (List.append_nil _).symm⟩
  | cons t texts ih =>
      obtain ⟨hargc, hslots⟩ := ih (addArg r t)
      have hargc₁ : (addArg r t).1.linuxArgc = r.1.linuxArgc + 1 := rfl
      have hslots₁ : (addArg r t).1.slots = r.1.slots ++ [r.1.linuxArgc] := rfl
      rw [List.foldl_cons, List.length_cons, hargc, hslots, hargc₁, hslots₁]
      refine ⟨by omega, ?_⟩
      rw [List.range'_succ, List.append_assoc, List.singleton_append]

/-- The size of the memory is one more argument, with one more entry. -/
theorem finishParams_slots (systemMemsize : BitVec 32) (cmdline : CString)
    (r : LinuxParams × BitVec 32) :
    (finishParams systemMemsize cmdline r).slots = r.1.slots ++
      if (memstr (ascii "mem=") cmdline.bytes).isSome then [] else [r.1.linuxArgc] := by
  rw [finishParams]
  split
  · exact (List.append_nil _).symm
  · rfl

/-- **The entries stored to** are as many as the strings, from the first on, each once. -/
theorem slots_eq_range (m : Mem) (systemMemsize start : BitVec 32) (cmdline : CString) :
    (linuxParamsInit m systemMemsize start cmdline).slots =
      List.range (1 + (storedArgs systemMemsize cmdline).length) := by
  obtain ⟨hargc, hslots⟩ := foldl_addArg_slots ((cmdlineArgs cmdline).take 511)
    ((paramsStart m start).setArgv 0 0, addr start (4 * linuxMaxArgs))
  have hloop : argLoop ((paramsStart m start).setArgv 0 0) (addr start (4 * linuxMaxArgs))
      cmdline = ((cmdlineArgs cmdline).take 511).foldl addArg
        ((paramsStart m start).setArgv 0 0, addr start (4 * linuxMaxArgs)) :=
    argLoop_eq_foldl_take ..
  have hone : ((paramsStart m start).setArgv 0 0).linuxArgc = 1 := rfl
  have hfirst : ((paramsStart m start).setArgv 0 0).slots = [0] := rfl
  rw [hone] at hargc hslots
  have hrange : ∀ n, [0] ++ List.range' 1 n = List.range (1 + n) := by
    intro n
    rw [List.range_eq_range', Nat.add_comm, List.range'_succ, List.singleton_append]
  rw [linuxParamsInit, finishParams_slots, hloop, hargc, hslots, hfirst, hrange, storedArgs,
    List.length_append, ← Nat.add_assoc]
  split
  · rw [List.append_nil, List.length_nil, Nat.add_zero]
  · rw [List.length_singleton, List.range_succ]

/-- **Which command lines keep to the table.** For every command line, whatever its length and
content: all entries `linux_params_init` stores to are entries of the table, and apart from
the strings behind it, exactly when the command line contains `mem=` or has at most 510
arguments. -/
theorem argv_slots_iff (m : Mem) (systemMemsize start : BitVec 32) (cmdline : CString) :
    SlotsInTable start (linuxParamsInit m systemMemsize start cmdline).slots
        (storedArgs systemMemsize cmdline) ↔
      (memstr (ascii "mem=") cmdline.bytes).isSome ∨ (cmdlineArgs cmdline).length ≤ 510 := by
  have hmax : linuxMaxArgs = 512 := rfl
  rw [slots_eq_range]
  have hstored : (storedArgs systemMemsize cmdline).length ≤ 511 ↔
      (memstr (ascii "mem=") cmdline.bytes).isSome ∨ (cmdlineArgs cmdline).length ≤ 510 := by
    rw [storedArgs, List.length_append, List.length_take]
    by_cases hmem : (memstr (ascii "mem=") cmdline.bytes).isSome
    · simp [hmem]
    · simp only [hmem, if_false, List.length_singleton, false_or, Bool.false_eq_true]
      omega
  rw [← hstored]
  constructor
  · rintro ⟨hin, -⟩
    have := hin (storedArgs systemMemsize cmdline).length (List.mem_range.mpr (by omega))
    omega
  · intro hle
    have hin : ∀ i ∈ List.range (1 + (storedArgs systemMemsize cmdline).length),
        i < linuxMaxArgs := by
      intro i hi
      have := List.mem_range.mp hi
      omega
    refine ⟨hin, fun hfit i hi => ?_⟩
    have := hin i hi
    exact apart_addr (by omega) hfit

/-! ### A full table -/

/-- The command line with `n` arguments `a`, each with a blank behind it. -/
def fillLine (n : ℕ) : CString where
  bytes := (List.replicate n [97, 32]).flatten
  noNul := by
    intro h
    obtain ⟨l, hl, h0⟩ := List.mem_flatten.mp h
    rw [List.eq_of_mem_replicate hl] at h0
    exact absurd h0 (by decide)

theorem mem_fillLine {n : ℕ} {c : UInt8} (h : c ∈ (fillLine n).bytes) : c = 97 ∨ c = 32 := by
  obtain ⟨l, hl, hc⟩ := List.mem_flatten.mp h
  rw [List.eq_of_mem_replicate hl] at hc
  simpa using hc

theorem length_cmdlineArgs_fillLine (n : ℕ) : (cmdlineArgs (fillLine n)).length = n := by
  induction n with
  | zero => rw [cmdlineArgs]; rfl
  | succ n ih =>
      have hbytes : (fillLine (n + 1)).bytes = 97 :: 32 :: (fillLine n).bytes := rfl
      have hquote : rtStrchr (fillLine (n + 1)).bytes 0 34 = none := by
        rw [rtStrchr, Option.map_eq_none_iff, List.findIdx?_eq_none_iff]
        intro c hc
        rcases mem_fillLine (List.mem_of_mem_drop hc) with rfl | rfl <;> decide
      have hblank : rtStrchr (fillLine (n + 1)).bytes 0 32 = some 1 := by
        rw [rtStrchr, hbytes]
        rfl
      have hlen : argLength (fillLine (n + 1)).bytes = 1 := by
        rw [argLength, hquote, hblank, skipQuotes]
        rfl
        simp
      have hafter : afterArg (fillLine (n + 1)) = fillLine n := by
        rw [afterArg, hlen]
        rfl
      rw [cmdlineArgs, if_neg (by rw [hbytes]; simp), hafter, List.length_cons, ih]

/-- A command line of 511 arguments without `mem=`: the size of the memory is stored to entry
512, which is where the first argument stands. -/
theorem argv_slot_behind_table :
    512 ∈ (linuxParamsInit (memOf 0 []) 0x4000000 0x83e00000 (fillLine 511)).slots ∧
      ¬ Apart (addr 0x83e00000 (4 * 512)) 4 (addr 0x83e00000 (4 * linuxMaxArgs))
        (textArea (storedArgs 0x4000000 (fillLine 511))).length ∧
      ¬ SlotsInTable 0x83e00000
        (linuxParamsInit (memOf 0 []) 0x4000000 0x83e00000 (fillLine 511)).slots
        (storedArgs 0x4000000 (fillLine 511)) := by
  have hnone : memstr (ascii "mem=") (fillLine 511).bytes = none := by
    rw [memstr_eq_none_iff]
    intro hinf
    rcases mem_fillLine (hinf.subset (show 109 ∈ ascii "mem=" by decide)) with h | h <;>
      exact absurd h (by decide)
  have hslot : 512 ∈
      (linuxParamsInit (memOf 0 []) 0x4000000 0x83e00000 (fillLine 511)).slots := by
    rw [slots_eq_range, storedArgs, hnone, List.length_append,
      List.length_take, length_cmdlineArgs_fillLine]
    exact List.mem_range.mpr (by decide : 512 < 1 + (min 511 511 + 1))
  refine ⟨hslot, fun hapart => ?_, fun hin => absurd (hin.inTable 512 hslot) (by decide)⟩
  have hpos : 0 < (textArea (storedArgs 0x4000000 (fillLine 511))).length := by
    rw [storedArgs, hnone, textArea_append, List.length_append]
    exact Nat.add_pos_right _ (by decide)
  exact hapart 0 (by decide) 0 hpos rfl

end RtBoot
