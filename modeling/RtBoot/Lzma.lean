import Mathlib.Data.Nat.Digits.Defs
import RtBoot.LoaderInput

/-!
# The Sizes Given to the Decoder

`lzma_inflate` reads the 13 bytes in front of a compressed stream (properties and unpacked
size), works out the sizes and starts `LzmaDecode`. The decoder is a parameter, and so are
the result of `rt_malloc` and the value of the pointer `d_len`.

The check of the unpacked size compares it with that pointer, not with the capacity it
points to; of its eight bytes only four are kept; and the check of the input size adds back what
was subtracted before, so it accepts a length below 13 as well.

## Main results

* `subtractLoop_eq`, `lzmaDecodeProperties_eq`: the properties are remainders and quotients.
* `sizeScan_eq`: the loop over the size reads a little-endian number.
* `decodeCall_eq`: when the decoder is started, and with which sizes.
* `lzma_inflate_bounds_iff`: when input and output stay inside what the caller has.
-/

namespace RtBoot

/-! ### The model -/

/-- `LZMA_PROPERTIES_SIZE`. -/
def lzmaPropertiesSize : ℕ :=
  5

/-- `LZMA_RESULT_DATA_ERROR`. -/
def lzmaResultDataError : ℤ :=
  1

/-- The decoder's properties: literal context bits, literal position bits, position bits. -/
structure CLzmaProperties where
  lc : ℕ
  lp : ℕ
  pb : ℕ
  deriving DecidableEq, Repr

/-- `for (n = 0; prop0 >= d; n++, prop0 -= d);`: the count, and what is left. -/
def subtractLoop (d : ℕ) : (fuel n prop0 : ℕ) → ℕ × ℕ
  | 0, n, prop0 => (n, prop0)
  | fuel + 1, n, prop0 =>
      if prop0 ≥ d then subtractLoop d fuel (n + 1) (prop0 - d) else (n, prop0)

/-- `LzmaDecodeProperties`. -/
def lzmaDecodeProperties (propsData : List (BitVec 8)) (size : ℕ) : Option CLzmaProperties :=
  if size < lzmaPropertiesSize then none
  else
    let prop0 := (propsData.getD 0 0).toNat
    if prop0 ≥ 9 * 5 * 5 then none
    else
      let (pb, prop0) := subtractLoop (9 * 5) prop0 0 prop0
      let (lp, prop0) := subtractLoop 9 prop0 0 prop0
      some ⟨prop0, lp, pb⟩

/-- `LzmaGetNumProbs`. -/
def lzmaGetNumProbs (props : CLzmaProperties) : ℕ :=
  1846 + 768 <<< (props.lc + props.lp)

/-- `MyReadFileAndCheck`: the next `size` bytes, and the position behind them. -/
def myReadFileAndCheck (m : Mem) (src : BitVec 32) (size : ℕ) (rpos : BitVec 32) :
    Option (List (BitVec 8) × BitVec 32) :=
  if size = 0 then none
  else some (readBytes m (src + rpos) size, rpos + BitVec.ofNat 32 size)

/-- The variables of the loop over the bytes of the size. -/
structure SizeScan where
  rpos : BitVec 32
  outSize : BitVec 32
  waitEOS : Bool
  deriving DecidableEq, Repr

/-- One round of the loop over the bytes of the size. -/
def readSizeByte (m : Mem) (source : BitVec 32) (scan : SizeScan) (i : ℕ) : Option SizeScan := do
  let (bytes, rpos) ← myReadFileAndCheck m source 1 scan.rpos
  let b := bytes.getD 0 0
  some
    { rpos := rpos
      waitEOS := if b ≠ 0xFF then false else scan.waitEOS
      outSize := if i < 4 then scan.outSize + b.setWidth 32 <<< (i * 8) else scan.outSize }

/-- The arguments of `LzmaDecode`. -/
structure DecodeCall where
  properties : CLzmaProperties
  inStream : BitVec 32
  inSize : BitVec 32
  outStream : BitVec 32
  outSize : BitVec 32
  deriving DecidableEq, Repr

/-- `lzma_inflate` up to the call of `LzmaDecode`; `dLen` is the pointer, which the check
of the size compares in place of what it points to. -/
def decodeCall (rtMalloc : ℕ → Bool) (dLen : BitVec 32) (m : Mem) (call : InflateCall) :
    Option DecodeCall := do
  let compressedSize := call.sLen - 13
  let (properties, rpos) ← myReadFileAndCheck m call.source lzmaPropertiesSize 0
  let scan ← (List.range 8).foldlM (readSizeByte m call.source) ⟨rpos, 0, true⟩
  if scan.waitEOS then none
  else
    let outSizeFull := scan.outSize
    let rpos := scan.rpos
    let props ← lzmaDecodeProperties properties lzmaPropertiesSize
    let probs := rtMalloc (lzmaGetNumProbs props * 2)
    let outStream :=
      if outSizeFull = 0 then 0 else if outSizeFull > dLen then 0 else call.dest
    let inStream :=
      if compressedSize = 0 then 0
      else if compressedSize + rpos > call.sLen then 0 else call.source + rpos
    if probs = false ∨ (outStream = 0 ∧ outSizeFull ≠ 0) ∨ (inStream = 0 ∧ compressedSize ≠ 0)
    then none
    else some ⟨props, inStream, compressedSize, outStream, outSizeFull⟩

/-- What `LzmaDecode` leaves: its result, the memory, and the number of bytes unpacked. -/
structure Decoded where
  res : ℤ
  memory : Mem
  outProcessed : BitVec 32

/-- `lzma_inflate`; `capacity` is what `d_len` points to. -/
def lzmaInflate (lzmaDecode : Mem → DecodeCall → Decoded) (rtMalloc : ℕ → Bool)
    (dLen : BitVec 32) (m : Mem) (call : InflateCall) (capacity : BitVec 32) : Inflated :=
  match decodeCall rtMalloc dLen m call with
  | none => ⟨lzmaResultDataError, m, capacity⟩
  | some decode =>
      let decoded := lzmaDecode m decode
      if decoded.res ≠ 0 then ⟨1, decoded.memory, capacity⟩
      else ⟨decoded.res, decoded.memory, decoded.outProcessed⟩

/-! ### The properties -/

/-- The loop divides. -/
theorem subtractLoop_eq {d : ℕ} (hd : 0 < d) {fuel n prop0 : ℕ} (hfuel : prop0 ≤ fuel) :
    subtractLoop d fuel n prop0 = (n + prop0 / d, prop0 % d) := by
  induction fuel generalizing n prop0 with
  | zero =>
      obtain rfl := Nat.le_zero.mp hfuel
      simp [subtractLoop]
  | succ fuel ih =>
      rw [subtractLoop]
      split
      · next hle =>
          rw [ih (by omega), Nat.div_eq_sub_div hd hle, Nat.mod_eq_sub_mod hle, Nat.add_assoc,
            Nat.add_comm 1]
      · next hlt => rw [Nat.div_eq_of_lt (by omega), Nat.mod_eq_of_lt (by omega), Nat.add_zero]

/-- The properties, by division. -/
theorem lzmaDecodeProperties_eq {propsData : List (BitVec 8)}
    (h : (propsData.getD 0 0).toNat < 225) :
    lzmaDecodeProperties propsData lzmaPropertiesSize =
      some ⟨(propsData.getD 0 0).toNat % 9, (propsData.getD 0 0).toNat / 9 % 5,
        (propsData.getD 0 0).toNat / 45⟩ := by
  rw [lzmaDecodeProperties, if_neg (Nat.lt_irrefl _)]
  simp only [ge_iff_le, Nat.not_le.mpr h, if_false, subtractLoop_eq (by decide : 0 < 9 * 5)
    (Nat.le_refl _), subtractLoop_eq (by decide : 0 < 9) (Nat.le_refl _), Option.some.injEq,
    CLzmaProperties.mk.injEq]
  omega

/-- The properties byte is refused. -/
theorem lzmaDecodeProperties_of_le {propsData : List (BitVec 8)}
    (h : 225 ≤ (propsData.getD 0 0).toNat) :
    lzmaDecodeProperties propsData lzmaPropertiesSize = none := by
  rw [lzmaDecodeProperties, if_neg (Nat.lt_irrefl _)]
  exact if_pos h

/-! ### The size -/

/-- The unpacked size that a stream's header declares, in its bytes 5 to 12. -/
def declaredSize (m : Mem) (source : BitVec 32) : ℕ :=
  Nat.ofDigits 256 ((readBytes m (addr source 5) 8).map BitVec.toNat)

/-- The lower half of that size, which is all that `lzma_inflate` keeps of it. -/
def lowSize (m : Mem) (source : BitVec 32) : ℕ :=
  Nat.ofDigits 256 ((readBytes m (addr source 5) 4).map BitVec.toNat)

theorem lowSize_lt (m : Mem) (source : BitVec 32) : lowSize m source < 2 ^ 32 := by
  have hdigits : ∀ x ∈ (readBytes m (addr source 5) 4).map BitVec.toNat, x < 256 := by
    intro x hx
    obtain ⟨b, -, rfl⟩ := List.mem_map.mp hx
    exact b.isLt
  have := Nat.ofDigits_lt_base_pow_length (by decide) hdigits
  simpa [lowSize, readBytes] using this

/-- A size that fits 32 bits is its lower half. -/
theorem lowSize_eq {m : Mem} {source : BitVec 32} (h : declaredSize m source < 2 ^ 32) :
    lowSize m source = declaredSize m source := by
  have hsplit : declaredSize m source = lowSize m source +
      256 ^ 4 * Nat.ofDigits 256 ((readBytes m (addr (addr source 5) 4) 4).map BitVec.toNat) := by
    rw [declaredSize, readBytes_add m (addr source 5) 4 4, List.map_append, Nat.ofDigits_append]
    rfl
  omega

/-- The lower half is the number that the 32-bit variable `outSize` holds. -/
theorem toNat_lowSize (m : Mem) (source : BitVec 32) :
    (BitVec.ofNat 32 (lowSize m source)).toNat = lowSize m source := by
  rw [BitVec.toNat_ofNat, Nat.mod_eq_of_lt (lowSize_lt m source)]

/-- A byte shifted to its place in a little-endian number. -/
theorem setWidth_shiftLeft (b : BitVec 8) (i : ℕ) :
    b.setWidth 32 <<< (i * 8) = BitVec.ofNat 32 (256 ^ i * b.toNat) := by
  refine BitVec.eq_of_toNat_eq ?_
  rw [BitVec.toNat_shiftLeft, BitVec.toNat_setWidth, BitVec.toNat_ofNat, Nat.shiftLeft_eq,
    Nat.mod_eq_of_lt (Nat.lt_trans b.isLt (by decide)), Nat.mul_comm i, Nat.pow_mul, Nat.mul_comm]

/-- One round, from the position it begins at. -/
theorem readSizeByte_eq (m : Mem) (source v : BitVec 32) (w : Bool) (i : ℕ) :
    readSizeByte m source ⟨BitVec.ofNat 32 (5 + i), v, w⟩ i =
      some ⟨BitVec.ofNat 32 (5 + (i + 1)),
        if i < 4 then v + BitVec.ofNat 32 (256 ^ i * (m (addr source (5 + i))).toNat) else v,
        w && decide (m (addr source (5 + i)) = 0xFF)⟩ := by
  have hbyte : (readBytes m (source + BitVec.ofNat 32 (5 + i)) 1).getD 0 0 =
      m (addr source (5 + i)) := by
    simp [readBytes, addr]
  have hrpos : BitVec.ofNat 32 (5 + i) + BitVec.ofNat 32 1 = BitVec.ofNat 32 (5 + (i + 1)) := by
    rw [← BitVec.ofNat_add, Nat.add_assoc]
  simp only [readSizeByte, myReadFileAndCheck, Nat.one_ne_zero, if_false, Option.bind_eq_bind,
    Option.bind_some, hbyte, hrpos, setWidth_shiftLeft, Option.some.injEq, SizeScan.mk.injEq,
    true_and]
  simp [Bool.and_comm]

/-- **The loop over the size** reads its bytes as a little-endian number, of which it keeps
the first four, and notes whether all are `0xFF`. -/
theorem sizeScan_eq (m : Mem) (source : BitVec 32) (n : ℕ) :
    (List.range n).foldlM (readSizeByte m source) ⟨5, 0, true⟩ =
      some ⟨BitVec.ofNat 32 (5 + n),
        BitVec.ofNat 32 (Nat.ofDigits 256
          ((readBytes m (addr source 5) (min n 4)).map BitVec.toNat)),
        decide (∀ k < n, m (addr source (5 + k)) = 0xFF)⟩ := by
  induction n with
  | zero => simp [readBytes]
  | succ n ih =>
      rw [List.range_succ, List.foldlM_append, ih]
      simp only [Option.bind_eq_bind, Option.bind_some, List.foldlM_cons, List.foldlM_nil,
        readSizeByte_eq, Option.pure_def, Option.some.injEq, SizeScan.mk.injEq, true_and]
      refine ⟨?_, ?_⟩
      · split
        · next hlt =>
            rw [Nat.min_eq_left (by omega), Nat.min_eq_left (by omega), readBytes_add,
              List.map_append, Nat.ofDigits_append, BitVec.ofNat_add]
            simp [readBytes, addr_addr]
        · next hge => rw [Nat.min_eq_right (by omega), Nat.min_eq_right (by omega)]
      · simp only [Nat.forall_lt_succ_right, Bool.decide_and]

/-! ### When the decoder is started -/

/-- The decoder is not started: the size is unknown (all eight bytes `0xFF`), the
properties are not valid, no memory is left, the size exceeds the value of the pointer
`d_len` or has no destination, or the input has none. -/
def InflateRefused (rtMalloc : ℕ → Bool) (dLen : BitVec 32) (m : Mem) (call : InflateCall) :
    Prop :=
  let prop0 := (m call.source).toNat
  (∀ k < 8, m (addr call.source (5 + k)) = 0xFF) ∨ 225 ≤ prop0 ∨
    rtMalloc (2 * (1846 + 768 * 2 ^ (prop0 % 9 + prop0 / 9 % 5))) = false ∨
    (lowSize m call.source ≠ 0 ∧
      (dLen.toNat < lowSize m call.source ∨ call.dest = 0)) ∨
    (call.sLen ≠ 13 ∧ addr call.source 13 = 0)

instance (rtMalloc : ℕ → Bool) (dLen : BitVec 32) (m : Mem) (call : InflateCall) :
    Decidable (InflateRefused rtMalloc dLen m call) :=
  inferInstanceAs (Decidable (_ ∨ _ ∨ _ ∨ _ ∧ _ ∨ _ ∧ _))

/-- A pointer that is zero although it need not be. -/
theorem ite_zero_eq_zero_and {p : Prop} [Decidable p] (x : BitVec 32) :
    (if p then 0 else x) = 0 ∧ ¬ p ↔ ¬ p ∧ x = 0 := by
  by_cases h : p
  · simp [h]
  · simp [h]

/-- **When the decoder is started, and with what.** -/
theorem decodeCall_eq (rtMalloc : ℕ → Bool) (dLen : BitVec 32) (m : Mem) (call : InflateCall) :
    decodeCall rtMalloc dLen m call =
      if InflateRefused rtMalloc dLen m call then none
      else
        let prop0 := (m call.source).toNat
        some ⟨⟨prop0 % 9, prop0 / 9 % 5, prop0 / 45⟩,
          if call.sLen = 13 then 0 else addr call.source 13, call.sLen - 13,
          if lowSize m call.source = 0 then 0 else call.dest,
          BitVec.ofNat 32 (lowSize m call.source)⟩ := by
  have hprop0 : (readBytes m (call.source + 0) lzmaPropertiesSize).getD 0 0 = m call.source := by
    simp [readBytes, lzmaPropertiesSize]
  have hscan := sizeScan_eq m call.source 8
  rw [show min 8 4 = 4 from rfl, ← lowSize] at hscan
  have hrpos : (0 : BitVec 32) + BitVec.ofNat 32 lzmaPropertiesSize = 5 := by decide
  simp only [decodeCall, myReadFileAndCheck, show ¬ lzmaPropertiesSize = 0 by decide, if_false,
    Option.bind_eq_bind, Option.bind_some, hrpos, hscan, decide_eq_true_eq]
  by_cases heos : ∀ k < 8, m (addr call.source (5 + k)) = 0xFF
  · have hrefused : InflateRefused rtMalloc dLen m call := .inl heos
    rw [if_pos heos, if_pos hrefused]
  rw [if_neg heos]
  by_cases hvalid : 225 ≤ (m call.source).toNat
  · have hrefused : InflateRefused rtMalloc dLen m call := .inr (.inl hvalid)
    rw [lzmaDecodeProperties_of_le (by rwa [hprop0]), if_pos hrefused, Option.bind_none]
  rw [lzmaDecodeProperties_eq (by rw [hprop0]; omega), hprop0, Option.bind_some]
  have hzero : BitVec.ofNat 32 (lowSize m call.source) = 0 ↔
      lowSize m call.source = 0 := by
    rw [← BitVec.toNat_inj, toNat_lowSize]
    rfl
  have hgt : BitVec.ofNat 32 (lowSize m call.source) > dLen ↔
      dLen.toNat < lowSize m call.source := by
    rw [gt_iff_lt, BitVec.lt_def, toNat_lowSize]
  have hin : call.sLen - 13 = 0 ↔ call.sLen = 13 := sub_eq_zero
  have hback : ¬ call.sLen - 13 + BitVec.ofNat 32 (5 + 8) > call.sLen := by
    rw [show BitVec.ofNat 32 (5 + 8) = 13 from rfl, sub_add_cancel]
    exact BitVec.lt_irrefl _
  have hprobs : lzmaGetNumProbs ⟨(m call.source).toNat % 9, (m call.source).toNat / 9 % 5,
      (m call.source).toNat / 45⟩ * 2 =
      2 * (1846 + 768 * 2 ^ ((m call.source).toNat % 9 + (m call.source).toNat / 9 % 5)) := by
    rw [lzmaGetNumProbs, Nat.shiftLeft_eq, Nat.mul_comm]
  simp only [hprobs, hzero, hgt, hin, hback, if_false, ne_eq, InflateRefused, heos, hvalid,
    false_or, show call.source + BitVec.ofNat 32 (5 + 8) = addr call.source 13 from rfl,
    ite_zero_eq_zero_and]
  by_cases hlt : dLen.toNat < lowSize m call.source
  · have hpos : ¬ lowSize m call.source = 0 := by omega
    simp only [hlt, hpos, not_false_iff, true_and, true_or, or_true, if_true]
  · simp only [hlt, if_false, false_or]

/-! ### Bounds -/

/-- `lzma_inflate` starts the decoder only with the input behind the 13 bytes of the header
and with an output of the declared size, which fits the capacity; otherwise it returns an error,
and the memory is as it was. -/
structure InflateBounded (rtMalloc : ℕ → Bool) (dLen : BitVec 32) (m : Mem)
    (call : InflateCall) (capacity : BitVec 32) : Prop where
  started : ∀ decode, decodeCall rtMalloc dLen m call = some decode →
    (decode.inSize.toNat : ℤ) = call.sLen.toInt - 13 ∧
      decode.outSize.toNat = declaredSize m call.source ∧
      (declaredSize m call.source : ℤ) ≤ capacity.toInt
  refused : decodeCall rtMalloc dLen m call = none → ∀ lzmaDecode,
    lzmaInflate lzmaDecode rtMalloc dLen m call capacity = ⟨lzmaResultDataError, m, capacity⟩

/-- The decoder respects the sizes it is given: its result depends on no byte behind the
input, and it changes and counts no byte behind the output. -/
structure RespectsSizes (lzmaDecode : Mem → DecodeCall → Decoded) : Prop where
  input : ∀ m m' decode,
    (∀ k < decode.inSize.toNat, m (addr decode.inStream k) = m' (addr decode.inStream k)) →
      (lzmaDecode m decode).res = (lzmaDecode m' decode).res
  output : ∀ m decode,
    SameOutsideBytes m (lzmaDecode m decode).memory decode.outStream decode.outSize.toNat
  processed : ∀ m decode, (lzmaDecode m decode).outProcessed.toNat ≤ decode.outSize.toNat

/-- A decoder that fills its output with one byte. -/
def fillDecode (c : BitVec 8) (m : Mem) (decode : DecodeCall) : Decoded where
  res := 0
  memory x := if (x - decode.outStream).toNat < decode.outSize.toNat then c else m x
  outProcessed := decode.outSize

theorem respectsSizes_fillDecode (c : BitVec 8) : RespectsSizes (fillDecode c) where
  input _ _ _ _ := rfl
  output m decode x hx := by
    refine if_neg fun hlt => hx _ hlt ?_
    rw [addr, BitVec.ofNat_toNat, BitVec.setWidth_eq]
    exact (add_sub_cancel _ _).symm
  processed _ _ := Nat.le_refl _

theorem fillDecode_addr {c : BitVec 8} {m : Mem} {decode : DecodeCall} {a : BitVec 32} {k : ℕ}
    (ha : decode.outStream = a) (hk : k < decode.outSize.toNat) :
    (fillDecode c m decode).memory (addr a k) = c := by
  refine if_pos ?_
  rw [ha, addr, add_sub_cancel_left, BitVec.toNat_ofNat]
  exact Nat.lt_of_le_of_lt (Nat.mod_le _ _) hk

section
variable {rtMalloc : ℕ → Bool} {dLen : BitVec 32} {m : Mem} {call : InflateCall}

/-- The sizes are within bounds exactly when the checks would be right on this call. -/
theorem inflateBounded_iff (capacity : BitVec 32) :
    InflateBounded rtMalloc dLen m call capacity ↔
      InflateRefused rtMalloc dLen m call ∨
        13 ≤ call.sLen.toInt ∧ (declaredSize m call.source : ℤ) ≤ capacity.toInt := by
  have hinput : ((call.sLen - 13).toNat : ℤ) = call.sLen.toInt - 13 ↔ 13 ≤ call.sLen.toInt := by
    rw [BitVec.toInt_eq_toNat_cond, BitVec.toNat_sub]
    have := call.sLen.isLt
    simp
    omega
  constructor
  · intro h
    by_cases hrefused : InflateRefused rtMalloc dLen m call
    · exact .inl hrefused
    · obtain ⟨hin, -, hout⟩ := h.started _ ((decodeCall_eq ..).trans (if_neg hrefused))
      exact .inr ⟨hinput.mp hin, hout⟩
  · intro h
    refine ⟨fun decode hdecode => ?_, fun hnone lzmaDecode => by rw [lzmaInflate, hnone]⟩
    rw [decodeCall_eq] at hdecode
    split at hdecode
    · exact absurd hdecode (by simp)
    · next hstarted =>
        obtain rfl := Option.some.inj hdecode
        obtain ⟨hin, hout⟩ := h.resolve_left hstarted
        refine ⟨hinput.mpr hin, ?_, hout⟩
        have := BitVec.toInt_lt (x := capacity)
        rw [toNat_lowSize, lowSize_eq (by omega)]

/-- The memory a started decoder leaves, whatever its result. -/
theorem memory_lzmaInflate {lzmaDecode : Mem → DecodeCall → Decoded} {decode : DecodeCall}
    (h : decodeCall rtMalloc dLen m call = some decode) (capacity : BitVec 32) :
    (lzmaInflate lzmaDecode rtMalloc dLen m call capacity).memory =
      (lzmaDecode m decode).memory := by
  simp only [lzmaInflate, h]
  split
  · rfl
  · rfl

/-- The output a started decoder is given. -/
theorem decodeCall_output (h : ¬ InflateRefused rtMalloc dLen m call) :
    ∃ decode, decodeCall rtMalloc dLen m call = some decode ∧
      decode.outSize.toNat = lowSize m call.source ∧
      (lowSize m call.source ≠ 0 → decode.outStream = call.dest) := by
  have hdecode := decodeCall_eq rtMalloc dLen m call
  rw [if_neg h] at hdecode
  refine ⟨_, hdecode, toNat_lowSize m call.source, ?_⟩
  intro hpos
  simp only [hpos, if_false]

/-- What is written at the destination, by every decoder that respects its sizes. -/
theorem sameOutside_lzmaInflate_iff (n : BitVec 32) :
    (∀ lzmaDecode, RespectsSizes lzmaDecode →
      SameOutsideBytes m (lzmaInflate lzmaDecode rtMalloc dLen m call n).memory call.dest
        n.toNat) ↔
      InflateRefused rtMalloc dLen m call ∨ lowSize m call.source ≤ n.toNat := by
  constructor
  · intro h
    by_contra hnot
    obtain ⟨hstarted, hlt⟩ := not_or.mp hnot
    obtain ⟨decode, hdecode, hsize, hdest⟩ := decodeCall_output hstarted
    -- a decoder that writes another byte behind the first `n` than stands there
    have hsame := h (fillDecode (m (addr call.dest n.toNat) + 1)) (respectsSizes_fillDecode _)
      (addr call.dest n.toNat) fun i hi heq => by
        have := addr_injOn n.isLt (by omega) heq
        omega
    rw [memory_lzmaInflate hdecode, fillDecode_addr (hdest (by omega)) (by omega)] at hsame
    exact absurd (add_eq_left.mp hsame) (by decide)
  · intro h lzmaDecode hrespects
    by_cases hrefused : InflateRefused rtMalloc dLen m call
    · intro x _
      rw [lzmaInflate, decodeCall_eq, if_pos hrefused]
    · obtain ⟨decode, hdecode, hsize, hdest⟩ := decodeCall_output hrefused
      have hle := h.resolve_left hrefused
      have hsame := hrespects.output m decode
      rw [memory_lzmaInflate hdecode]
      by_cases hzero : lowSize m call.source = 0
      · exact fun x _ => hsame x fun i hi => by omega
      · rw [hdest hzero, hsize] at hsame
        exact hsame.mono hle

end

/-- **When input and output stay inside what the caller has.** `lzma_inflate` starts the
decoder with the input behind the header and an output of the declared size that fits the
capacity, or returns an error and writes nothing, exactly when it refuses the stream for
another reason, or the input is no shorter than the header and the declared size fits. Called
by `linux_loader`, the decoders that respect their sizes write no more than `unc_len` bytes at
`ih_load`, exactly when it refuses the stream for another reason or the lower half of the
declared size fits. -/
theorem lzma_inflate_bounds_iff (rtMalloc : ℕ → Bool) (dLen : BitVec 32) (m : Mem) :
    (∀ call capacity, InflateBounded rtMalloc dLen m call capacity ↔
      InflateRefused rtMalloc dLen m call ∨
        13 ≤ call.sLen.toInt ∧ (declaredSize m call.source : ℤ) ≤ capacity.toInt) ∧
    ∀ fuel loadAddr uncLen hdr call, inflateCall m fuel loadAddr = some (.ok (hdr, call)) →
      ((∀ lzmaDecode, RespectsSizes lzmaDecode →
        SameOutsideBytes m (lzmaInflate lzmaDecode rtMalloc dLen m call uncLen).memory hdr.ihLoad
          uncLen.toNat) ↔
        InflateRefused rtMalloc dLen m call ∨ lowSize m call.source ≤ uncLen.toNat) := by
  refine ⟨fun call capacity => inflateBounded_iff capacity, ?_⟩
  intro fuel loadAddr uncLen hdr call hcall
  obtain ⟨_, _, -, -, -, -, hdest⟩ := inflateCall_eq_ok_iff.mp hcall
  rw [← hdest]
  exact sameOutside_lzmaInflate_iff uncLen

/-- The first 13 bytes of a stream that unpacks to 256 bytes. -/
def lzmaHeader256 : List (BitVec 8) :=
  [0x5D, 0, 0, 0x80, 0, 0, 1, 0, 0, 0, 0, 0, 0]

/-- An image with one file, of the given size by its table. -/
def packedImage (size : BitVec 32) (file : List (BitVec 8)) : Mem :=
  multiImage (be32 size ++ be32 0 ++ file)

/-- An image with a file of 18 bytes that unpacks to 256: with room for these, the bytes
behind them stay as they are. -/
theorem lzma_inflate_bounds_room :
    ∀ lzmaDecode, RespectsSizes lzmaDecode →
      SameOutsideBytes (packedImage 18 (lzmaHeader256 ++ [0, 1, 2, 3, 4]))
        (lzmaInflate lzmaDecode (fun _ => true) 0x81FFFF00
          (packedImage 18 (lzmaHeader256 ++ [0, 1, 2, 3, 4])) ⟨0x9F020048, 18, 0x80060000⟩
          256).memory 0x80060000 256 := by
  have hcall : inflateCall (packedImage 18 (lzmaHeader256 ++ [0, 1, 2, 3, 4])) 1 0x9F020000 =
      some (.ok (multiHeader (be32 18 ++ be32 0 ++ (lzmaHeader256 ++ [0, 1, 2, 3, 4])),
        ⟨0x9F020048, 18, 0x80060000⟩)) := by
    decide +kernel
  exact ((lzma_inflate_bounds_iff (fun _ => true) 0x81FFFF00 _).2 1 0x9F020000 256 _ _ hcall).mpr
    (.inr (by decide +kernel))

/-- An image with a file of four bytes, unpacked with room for 16. The input handed to the
decoder is the length wrapped around, the output is 256 bytes, and a decoder that respects
both writes behind the 16. -/
theorem lzma_inflate_unbounded :
    inflateCall (packedImage 4 lzmaHeader256) 1 0x9F020000 =
        some (.ok (multiHeader (be32 4 ++ be32 0 ++ lzmaHeader256),
          ⟨0x9F020048, 4, 0x80060000⟩)) ∧
      decodeCall (fun _ => true) 0x81FFFF00 (packedImage 4 lzmaHeader256)
          ⟨0x9F020048, 4, 0x80060000⟩ =
        some ⟨⟨3, 0, 2⟩, 0x9F020055, 0xFFFFFFF7, 0x80060000, 256⟩ ∧
      ¬ InflateBounded (fun _ => true) 0x81FFFF00 (packedImage 4 lzmaHeader256)
          ⟨0x9F020048, 4, 0x80060000⟩ 16 ∧
      (lzmaInflate (fillDecode 1) (fun _ => true) 0x81FFFF00 (packedImage 4 lzmaHeader256)
          ⟨0x9F020048, 4, 0x80060000⟩ 16).memory (addr 0x80060000 16) ≠
        packedImage 4 lzmaHeader256 (addr 0x80060000 16) := by
  have hdecode : decodeCall (fun _ => true) 0x81FFFF00 (packedImage 4 lzmaHeader256)
      ⟨0x9F020048, 4, 0x80060000⟩ =
      some ⟨⟨3, 0, 2⟩, 0x9F020055, 0xFFFFFFF7, 0x80060000, 256⟩ := by
    decide +kernel
  refine ⟨by decide +kernel, hdecode, fun h => ?_, ?_⟩
  · obtain ⟨-, hsize, hbound⟩ := h.started _ hdecode
    rw [← hsize] at hbound
    exact absurd hbound (by decide)
  rw [memory_lzmaInflate hdecode, fillDecode_addr rfl (by decide)]
  decide +kernel

end RtBoot
