import RtBoot.Relocation

/-!
# The Numbers of the Relocation Table

The host tool writes the relocation table as one number after the other with `output_uint`,
and the boot loader reads it with `read_uint`, each call going on where the one before
stopped. Writer and reader were written for different machines: the writer takes a 64-bit
number, and the reader shifts each group of seven bits into a 32-bit register.

## Main results

* `length_outputUint_le`, `head?_outputUint_eq_zero`: the code of a 32-bit number has at
  most five bytes, and only that of zero starts with a zero byte.
* `readUints_outputUint`: as many calls as there are numbers read the numbers back, and
  leave the pointer at what follows them.
-/

namespace RtBoot

/-- As many calls of `read_uint` as the count says: the numbers, and the pointer behind the
last one. -/
def readUints (m : Mem) (fuel : ℕ) : ℕ → BitVec 32 → Option (List (BitVec 32) × BitVec 32)
  | 0, buf => some ([], buf)
  | count + 1, buf =>
      match readUint m fuel buf 0 0 with
      | none => none
      | some (val, buf) =>
          (readUints m fuel count buf).map fun (vals, buf) => (val :: vals, buf)

/-- The numbers one after the other, as `output_uint` writes them. -/
def outputUints (vals : List (BitVec 32)) : List (BitVec 8) :=
  vals.flatMap fun val => outputUint val.toNat

@[simp] theorem outputUints_nil : outputUints [] = [] :=
  rfl

@[simp] theorem outputUints_cons (val : BitVec 32) (vals : List (BitVec 32)) :
    outputUints (val :: vals) = outputUint val.toNat ++ outputUints vals :=
  List.flatMap_cons

/-- Five groups of seven bits are enough for 32. -/
theorem length_outputUint_le (val : BitVec 32) : (outputUint val.toNat).length ≤ 5 := by
  have hval : val.toNat < 128 ^ 5 := Nat.lt_trans val.isLt (by decide)
  rw [outputUint_eq_encode]
  exact Leb128.length_encode_le (by decide) hval

/-- Only zero is written with a zero byte in front, as the end of the table is. -/
theorem head?_outputUint_eq_zero (val : BitVec 32) :
    (outputUint val.toNat).head? = some 0 ↔ val = 0 := by
  rw [outputUint_eq_encode, Leb128.head?_encode_eq_zero]
  exact BitVec.toNat_inj (x := val) (y := 0)

/-- One call reads one number, with the fuel of five rounds. -/
theorem readUint_outputUint_five {m : Mem} {buf val : BitVec 32} {rest : List (BitVec 8)}
    (h : BytesAt m buf (outputUint val.toNat ++ rest)) {fuel : ℕ} (hfuel : 5 ≤ fuel) :
    readUint m fuel buf 0 0 = some (val, addr buf (outputUint val.toNat).length) := by
  obtain ⟨k, hlen, -, -, hread⟩ := readUint_outputUint val.isLt h
  rw [List.length_append] at hlen
  obtain rfl : (outputUint val.toNat).length = k := by omega
  have hfive := length_outputUint_le val
  rw [hread fuel (by omega), BitVec.ofNat_toNat, BitVec.setWidth_eq]

/-- The calls of a whole list, by induction over the numbers. -/
theorem readUints_eq {m : Mem} {buf : BitVec 32} {vals : List (BitVec 32)}
    {rest : List (BitVec 8)} (h : BytesAt m buf (outputUints vals ++ rest)) {fuel : ℕ}
    (hfuel : 5 ≤ fuel) :
    readUints m fuel vals.length buf = some (vals, addr buf (outputUints vals).length) := by
  induction vals generalizing buf with
  | nil => rw [outputUints_nil, List.length_nil, List.length_nil, readUints, addr_zero]
  | cons val vals ih =>
      rw [outputUints_cons, List.append_assoc] at h
      have hrest := (bytesAt_append.mp h).2
      rw [List.length_cons, readUints, readUint_outputUint_five h hfuel]
      dsimp only
      rw [ih hrest, addr_addr, outputUints_cons, List.length_append, Option.map_some]

/-- **The numbers are read back**: from their codes with anything behind them, as many calls
as there are numbers return them in order and leave the pointer at what follows. No code is
longer than five bytes, and only that of zero, which ends the table, starts with a zero. -/
theorem readUints_outputUint {m : Mem} {buf : BitVec 32} {vals : List (BitVec 32)}
    {rest : List (BitVec 8)} (h : BytesAt m buf (outputUints vals ++ rest)) :
    (∀ fuel ≥ 5, readUints m fuel vals.length buf =
        some (vals, addr buf (outputUints vals).length)) ∧
      BytesAt m (addr buf (outputUints vals).length) rest ∧
      ∀ val : BitVec 32, (outputUint val.toNat).length ≤ 5 ∧
        ((outputUint val.toNat).head? = some 0 ↔ val = 0) :=
  ⟨fun _ => readUints_eq h, (bytesAt_append.mp h).2,
    fun val => ⟨length_outputUint_le val, head?_outputUint_eq_zero val⟩⟩

/-- The largest number and a zero, with one byte behind them. -/
theorem readUints_largest_and_zero :
    let m := memOf 0x1000 (outputUints [0xFFFFFFFF, 0] ++ [0x55])
    (∀ fuel ≥ 5, readUints m fuel 2 0x1000 =
        some ([0xFFFFFFFF, 0], addr 0x1000 (outputUints [0xFFFFFFFF, 0]).length)) ∧
      BytesAt m (addr 0x1000 (outputUints [0xFFFFFFFF, 0]).length) [0x55] ∧
      ∀ val : BitVec 32, (outputUint val.toNat).length ≤ 5 ∧
        ((outputUint val.toNat).head? = some 0 ↔ val = 0) := by
  have hlen : (outputUints [0xFFFFFFFF, 0] ++ [(0x55 : BitVec 8)]).length ≤ 2 ^ 32 := by
    have h₁ := length_outputUint_le 0xFFFFFFFF
    have h₂ := length_outputUint_le 0
    rw [outputUints_cons, outputUints_cons, outputUints_nil]
    simp only [List.length_append, List.length_cons, List.length_nil]
    omega
  exact readUints_outputUint (bytesAt_memOf hlen)

end RtBoot
