import RtBoot.Memory
import RtBoot.RelocTool

/-!
# Relocation of the Boot Loader

The boot loader starts where it was linked (`CFG_MONITOR_BASE`), copies itself to the top
of memory and continues there. `arch_relocation` copies the image, then adds the distance
to every address the copy holds: those in the global offset table, and those listed in the
table the host tool left in the image. The table is read in the original, the words are
patched in the copy.

Memory is byte-addressed and big-endian, as on the board. A word access takes the four
bytes at its address, aligned or not. The loops over the table read on until they meet a
byte or a type that ends them, so the model gives them fuel; every theorem about them says
how much is enough.

## Main results

* `rtMemcpy_copied`: the copy of a disjoint range is a copy.
* `gotLoop_words`, `tableLoop_words`: what the two patching loops do to the words of the
  copy.
* `archRelocation_relocates`: end to end, every listed word and every non-zero word of the
  offset table behind its first two is moved by the distance, exactly once, and every other
  word is the original.
-/

namespace RtBoot

/-! ### The model -/

/-- The loop of `rt_memcpy` over blocks of four words. -/
def bigBlockLoop (m : Mem) (dst src : BitVec 32) (len : ℕ) : Mem × BitVec 32 × BitVec 32 × ℕ :=
  if 16 ≤ len then
    let m := store32 m dst (load32 m src)
    let m := store32 m (addr dst 4) (load32 m (addr src 4))
    let m := store32 m (addr dst 8) (load32 m (addr src 8))
    let m := store32 m (addr dst 12) (load32 m (addr src 12))
    bigBlockLoop m (addr dst 16) (addr src 16) (len - 16)
  else (m, dst, src, len)
termination_by len

/-- The loop of `rt_memcpy` over words. -/
def littleBlockLoop (m : Mem) (dst src : BitVec 32) (len : ℕ) :
    Mem × BitVec 32 × BitVec 32 × ℕ :=
  if 4 ≤ len then
    littleBlockLoop (store32 m dst (load32 m src)) (addr dst 4) (addr src 4) (len - 4)
  else (m, dst, src, len)
termination_by len

/-- The loop of `rt_memcpy` over bytes. -/
def byteLoop (m : Mem) (dst src : BitVec 32) : ℕ → Mem
  | 0 => m
  | len + 1 => byteLoop (Function.update m dst (m src)) (addr dst 1) (addr src 1) len

/-- `rt_memcpy`: by words when both ends are aligned and there are at least four. -/
def rtMemcpy (m : Mem) (dst src : BitVec 32) (count : ℕ) : Mem :=
  if 16 ≤ count ∧ src.toNat % 4 = 0 ∧ dst.toNat % 4 = 0 then
    let (m, dst, src, len) := bigBlockLoop m dst src count
    let (m, dst, src, len) := littleBlockLoop m dst src len
    byteLoop m dst src len
  else byteLoop m dst src count

/-- The addresses the linker gives the image. -/
structure ImageSymbols where
  monitorBase : BitVec 32
  gotStart : BitVec 32
  gotEnd : BitVec 32
  relTableStart : BitVec 32

/-- The loop of `arch_got_relocation` from entry `i` on: move every non-zero entry. -/
def gotLoop (relocationOffset pointer : BitVec 32) (entries i : ℕ) (m : Mem) : Mem :=
  if i < entries then
    gotLoop relocationOffset pointer entries (i + 1)
      (if load32 m (addr pointer (4 * i)) ≠ 0 then
        store32 m (addr pointer (4 * i)) (load32 m (addr pointer (4 * i)) + relocationOffset)
      else m)
  else m
termination_by entries - i

/-- `arch_got_relocation`: the number of entries is a difference of word pointers. -/
def archGotRelocation (sym : ImageSymbols) (newGp relocationOffset : BitVec 32) (m : Mem) : Mem :=
  gotLoop relocationOffset newGp (u32 ((sym.gotEnd - sym.gotStart).toInt / 4)) 2 m

/-- `read_uint`: the number at `buf` and the pointer behind it. The machine's shifter takes
its count modulo 32. -/
def readUint (m : Mem) : ℕ → BitVec 32 → BitVec 32 → ℕ → Option (BitVec 32 × BitVec 32)
  | 0, _, _, _ => none
  | fuel + 1, buf, val, shift =>
      let val := val ||| ((m buf &&& 0x7F).setWidth 32 <<< (shift % 32))
      if m buf &&& 0x80 ≠ 0 then readUint m fuel (addr buf 1) val (shift + 7)
      else some (val, addr buf 1)

/-- `apply_reloc`. -/
def applyReloc (type a off : BitVec 32) (m : Mem) : Mem :=
  if type = BitVec.ofNat 32 rMips32 then store32 m a (load32 m a + off) else m

/-- The loop of `arch_table_relocation`. -/
def tableLoop (relocationOffset : BitVec 32) :
    ℕ → Mem → BitVec 32 → BitVec 32 → Option Mem
  | 0, _, _, _ => none
  | fuel + 1, m, buf, a =>
      match readUint m (fuel + 1) buf 0 0 with
      | none => none
      | some (type, buf) =>
          if type = BitVec.ofNat 32 rMipsNone then some m
          else
            match readUint m (fuel + 1) buf 0 0 with
            | none => none
            | some (delta, buf) =>
                let a := a + delta <<< 2
                tableLoop relocationOffset fuel (applyReloc type a relocationOffset m) buf a

/-- `arch_relocation` up to the end of the table: copy the image, then patch the copy.
`gp` is what register `$28` holds. -/
def archRelocation (fuel : ℕ) (sym : ImageSymbols) (gp relocationBase rtbootLength : BitVec 32)
    (m : Mem) : Option Mem :=
  let newGp := (gp - sym.monitorBase) + relocationBase
  let relocationOffset := newGp - gp
  let m := rtMemcpy m relocationBase sym.monitorBase rtbootLength.toNat
  let m := archGotRelocation sym newGp relocationOffset m
  tableLoop relocationOffset fuel m sym.relTableStart relocationBase

/-! ### The copy -/

section Copy
variable {m₀ m : Mem} {dst src : BitVec 32} {n total : ℕ}

theorem byteLoop_copied (h : Copied m₀ m dst src n) (htotal : total ≤ 2 ^ 32)
    (hapart : Apart dst total src total) {len : ℕ} (hlen : n + len = total) :
    Copied m₀ (byteLoop m (addr dst n) (addr src n) len) dst src total := by
  induction len generalizing m n with
  | zero =>
      obtain rfl : n = total := by omega
      exact h
  | succ len ih =>
      rw [byteLoop, addr_addr, addr_addr]
      exact ih (h.byte (by omega) htotal hapart) (by omega)

theorem littleBlockLoop_copied (h : Copied m₀ m dst src n) (htotal : total ≤ 2 ^ 32)
    (hapart : Apart dst total src total) {len : ℕ} (hlen : n + len = total) :
    ∃ m' n' len', littleBlockLoop m (addr dst n) (addr src n) len =
        (m', addr dst n', addr src n', len') ∧
      Copied m₀ m' dst src n' ∧ n' + len' = total := by
  induction len using Nat.strong_induction_on generalizing m n with
  | _ len ih =>
      rw [littleBlockLoop]
      split
      · next hle =>
          rw [addr_addr, addr_addr]
          exact ih (len - 4) (by omega) (h.word (by omega) htotal hapart) (by omega)
      · exact ⟨m, n, len, rfl, h, hlen⟩

theorem bigBlockLoop_copied (h : Copied m₀ m dst src n) (htotal : total ≤ 2 ^ 32)
    (hapart : Apart dst total src total) {len : ℕ} (hlen : n + len = total) :
    ∃ m' n' len', bigBlockLoop m (addr dst n) (addr src n) len =
        (m', addr dst n', addr src n', len') ∧
      Copied m₀ m' dst src n' ∧ n' + len' = total := by
  induction len using Nat.strong_induction_on generalizing m n with
  | _ len ih =>
      rw [bigBlockLoop]
      split
      · next hle =>
          simp only [addr_addr]
          have h₁ := h.word (by omega : n + 4 ≤ total) htotal hapart
          have h₂ := h₁.word (by omega : n + 4 + 4 ≤ total) htotal hapart
          have h₃ := h₂.word (by omega : n + 4 + 4 + 4 ≤ total) htotal hapart
          have h₄ := h₃.word (by omega : n + 4 + 4 + 4 + 4 ≤ total) htotal hapart
          exact ih (len - 16) (by omega) h₄ (by omega)
      · exact ⟨m, n, len, rfl, h, hlen⟩

end Copy

variable {m : Mem} {base buf : BitVec 32}

/-- **`rt_memcpy` copies** a range to a disjoint one, and changes nothing else. -/
theorem rtMemcpy_copied {dst src : BitVec 32} {count : ℕ} (hcount : count ≤ 2 ^ 32)
    (hapart : Apart dst count src count) :
    Copied m (rtMemcpy m dst src count) dst src count := by
  have h0 := copied_zero m dst src
  rw [rtMemcpy]
  split
  · obtain ⟨m₁, n₁, len₁, hbig, hcopied₁, hlen₁⟩ :=
      bigBlockLoop_copied h0 hcount hapart (Nat.zero_add count)
    obtain ⟨m₂, n₂, len₂, hlittle, hcopied₂, hlen₂⟩ :=
      littleBlockLoop_copied hcopied₁ hcount hapart hlen₁
    rw [addr_zero, addr_zero] at hbig
    simp only [hbig, hlittle]
    exact byteLoop_copied hcopied₂ hcount hapart hlen₂
  · have := byteLoop_copied h0 hcount hapart (Nat.zero_add count)
    rwa [addr_zero, addr_zero] at this

/-- Two disjoint ranges of the same length take up at most half of memory. -/
theorem Apart.two_mul_le {a b : BitVec 32} {n : ℕ} (h : Apart a n b n) : 2 * n ≤ 2 ^ 32 := by
  by_contra hlt
  have hpos : 0 < n := by omega
  -- `b` lies some distance behind `a`, and `a` the rest of memory behind `b`
  have hab : addr a (b - a).toNat = addr b 0 := by
    rw [addr, BitVec.ofNat_toNat, BitVec.setWidth_eq, addr_zero]
    exact add_sub_cancel a b
  have hba : addr a 0 = addr b (a - b).toNat := by
    rw [addr, addr, BitVec.ofNat_toNat, BitVec.setWidth_eq]
    simp
  have h₁ : ¬ (b - a).toNat < n := fun hd => h _ hd 0 hpos hab
  have h₂ : ¬ (a - b).toNat < n := fun hd => h 0 hpos _ hd hba
  rw [BitVec.toNat_sub] at h₁ h₂
  have := a.isLt
  have := b.isLt
  omega

/-! ### The offset table -/

/-- The words after the offset-table loop has passed over the entries from `i` on, the
table starting at word `g`. -/
def gotWords (off : BitVec 32) (g entries i : ℕ) (ws : ℕ → BitVec 32) (j : ℕ) : BitVec 32 :=
  if g + i ≤ j ∧ j < g + entries ∧ ws j ≠ 0 then ws j + off else ws j

/-- **The offset-table loop** moves every non-zero entry it passes over, and nothing else. -/
theorem gotLoop_words (off : BitVec 32) {n g entries : ℕ} (hn : 4 * n ≤ 2 ^ 32)
    (hgot : g + entries ≤ n) (i : ℕ) {ws : ℕ → BitVec 32} (h : Words m base n ws) :
    Words (gotLoop off (addr base (4 * g)) entries i m) base n (gotWords off g entries i ws) ∧
      SameOutside m (gotLoop off (addr base (4 * g)) entries i m) base n := by
  induction hk : entries - i generalizing i m ws with
  | zero =>
      rw [gotLoop, if_neg (by omega)]
      refine ⟨?_, .refl _ _ _⟩
      intro j hj
      rw [h j hj, gotWords, if_neg (by omega)]
  | succ k ih =>
      have hload : load32 m (addr (addr base (4 * g)) (4 * i)) = ws (g + i) := by
        rw [addr_addr, ← Nat.mul_add]
        exact h (g + i) (by omega)
      rw [gotLoop, if_pos (by omega), hload]
      by_cases hzero : ws (g + i) = 0
      · obtain ⟨hwords, hsame⟩ := ih (i + 1) h (by omega)
        rw [if_neg (by simpa using hzero)]
        refine ⟨fun j hj => (hwords j hj).trans ?_, hsame⟩
        by_cases hj : j = g + i
        · simp [gotWords, hj, hzero]
        · have hiff : g + (i + 1) ≤ j ↔ g + i ≤ j := by omega
          simp only [gotWords, hiff]
      · rw [if_pos hzero, addr_addr, ← Nat.mul_add]
        obtain ⟨hwords, hsame⟩ :=
          ih (i + 1) (h.store hn (by omega : g + i < n) (ws (g + i) + off)) (by omega)
        refine ⟨fun j hj => (hwords j hj).trans ?_, (sameOutside_store (by omega) _ _).trans hsame⟩
        by_cases hj : j = g + i
        · subst hj
          rw [gotWords, gotWords, if_neg (by omega), if_pos ⟨by omega, by omega, hzero⟩,
            Function.update_self]
        · have hiff : g + (i + 1) ≤ j ↔ g + i ≤ j := by omega
          simp only [gotWords, hiff, Function.update_of_ne hj]

/-! ### The relocation table -/

/-- `read_uint` decodes the bytes at its pointer, and stops behind them. -/
theorem readUint_eq_decode {val v : BitVec 32} {shift : ℕ}
    {bs rest : List (BitVec 8)} (h : BytesAt m buf bs)
    (hdec : Leb128.decode shift val bs = some (v, rest)) :
    ∃ k, bs.length = k + rest.length ∧ 0 < k ∧ BytesAt m (addr buf k) rest ∧
      ∀ fuel ≥ k, readUint m fuel buf val shift = some (v, addr buf k) := by
  induction bs generalizing buf val shift with
  | nil => simp [Leb128.decode] at hdec
  | cons b bs ih =>
      rw [Leb128.decode] at hdec
      by_cases htop : b &&& 0x80 = 0
      · simp only [htop, if_true, Option.some.injEq, Prod.mk.injEq] at hdec
        obtain ⟨rfl, rfl⟩ := hdec
        refine ⟨1, by rw [List.length_cons]; omega, by omega, h.tail, ?_⟩
        intro fuel hfuel
        obtain ⟨fuel, rfl⟩ := Nat.exists_eq_add_of_le' hfuel
        simp only [readUint, h.head, htop, ne_eq, not_true_eq_false, if_false]
      · simp only [htop, if_false] at hdec
        obtain ⟨k, hlen, hk, hrest, hread⟩ := ih h.tail hdec
        refine ⟨k + 1, by rw [List.length_cons]; omega, by omega, ?_, ?_⟩
        · rw [addr_addr, Nat.add_comm] at hrest
          exact hrest
        · intro fuel hfuel
          obtain ⟨fuel, rfl⟩ := Nat.exists_eq_add_of_le' (Nat.le_trans (Nat.le_add_left 1 k) hfuel)
          simp only [readUint, h.head, htop, ne_eq, not_false_eq_true, if_true]
          rw [hread fuel (by omega), addr_addr, Nat.add_comm 1 k]

/-- Reading back what the tool wrote. -/
theorem readUint_outputUint {v : ℕ} {rest : List (BitVec 8)}
    (hv : v < 2 ^ 32) (h : BytesAt m buf (outputUint v ++ rest)) :
    ∃ k, (outputUint v ++ rest).length = k + rest.length ∧ 0 < k ∧
      BytesAt m (addr buf k) rest ∧
      ∀ fuel ≥ k, readUint m fuel buf 0 0 = some (BitVec.ofNat 32 v, addr buf k) := by
  refine readUint_eq_decode h ?_
  rw [outputUint_eq_encode]
  exact Leb128.decode_encode hv rest

/-- Adding a distance, in words, leads to the next offset. -/
theorem addr_add_shiftLeft (base : BitVec 32) {p q : ℕ} (hpq : p ≤ q) (hp : 4 ∣ p) (hq : 4 ∣ q) :
    addr base p + BitVec.ofNat 32 ((q - p) >>> 2) <<< 2 = addr base q := by
  have hshift : BitVec.ofNat 32 ((q - p) >>> 2) <<< 2 = BitVec.ofNat 32 (q - p) := by
    apply BitVec.eq_of_toNat_eq
    rw [BitVec.toNat_shiftLeft, BitVec.toNat_ofNat, BitVec.toNat_ofNat, Nat.shiftRight_eq_div_pow,
      Nat.shiftLeft_eq]
    omega
  rw [hshift]
  have := addr_addr base p (q - p)
  rw [addr, Nat.add_sub_cancel' hpq] at this
  exact this

/-- The words after the listed ones have been moved. -/
def listedWords (off : BitVec 32) (rs : List MipsReloc) (ws : ℕ → BitVec 32) (i : ℕ) :
    BitVec 32 :=
  if 4 * i ∈ rs.map MipsReloc.offset then ws i + off else ws i

/-- The first of ascending relocations, moved before the others. -/
theorem listedWords_cons {r : MipsReloc} {rs : List MipsReloc} {k : ℕ} (hrk : r.offset = 4 * k)
    (hsorted : ∀ x ∈ rs, r.offset < x.offset) (off : BitVec 32) (ws : ℕ → BitVec 32) (i : ℕ) :
    listedWords off rs (Function.update ws k (ws k + off)) i = listedWords off (r :: rs) ws i := by
  by_cases hik : i = k
  · -- the offsets behind are larger, so this word is not listed again
    subst hik
    have hnot : 4 * i ∉ rs.map MipsReloc.offset := by
      rw [← hrk]
      intro hmem
      obtain ⟨x, hx, hxr⟩ := List.mem_map.mp hmem
      exact absurd (hsorted x hx) (by omega)
    simp [listedWords, hnot, hrk]
  · have hne : r.offset ≠ 4 * i := by omega
    simp [listedWords, Function.update_of_ne hik, hne.symm]

/-- **The table loop**, started at the offset `p` on the encoded distances of relocations
in ascending order, moves exactly the words they list. -/
theorem tableLoop_words (off : BitVec 32) {n : ℕ} (hn : 4 * n ≤ 2 ^ 32)
    {rs : List MipsReloc} (hsorted : rs.Pairwise fun a b => a.offset < b.offset)
    (htype : ∀ r ∈ rs, r.type = rMips32)
    (hoff : ∀ r ∈ rs, 4 ∣ r.offset ∧ r.offset < 2 ^ 31 ∧ r.offset < 4 * n)
    {p : ℕ} (hp : ∀ r ∈ rs, p ≤ r.offset) (hp4 : 4 ∣ p)
    (hbytes : BytesAt m buf (emitRelocs (deltaFrom p rs)))
    (hapart : Apart base (4 * n) buf (emitRelocs (deltaFrom p rs)).length)
    {ws : ℕ → BitVec 32} (h : Words m base n ws) {fuel : ℕ}
    (hfuel : (emitRelocs (deltaFrom p rs)).length ≤ fuel) :
    ∃ m', tableLoop off fuel m buf (addr base p) = some m' ∧
      Words m' base n (listedWords off rs ws) := by
  induction rs generalizing p m buf ws fuel with
  | nil =>
      -- only the terminator is left
      have hend : emitRelocs (deltaFrom p []) = outputUint rMipsNone ++ [] := by
        simp [deltaFrom, emitRelocs]
      rw [hend] at hbytes hfuel
      obtain ⟨k, hlen, hk, -, hread⟩ := readUint_outputUint (by decide) hbytes
      rw [hlen, List.length_nil] at hfuel
      obtain ⟨fuel, rfl⟩ := Nat.exists_eq_add_of_le' (Nat.le_trans hk hfuel)
      refine ⟨m, ?_, fun i hi => by simpa [listedWords] using h i hi⟩
      rw [tableLoop, hread _ hfuel]
      rfl
  | cons r rs ih =>
      obtain ⟨hr4, hr31, hrn⟩ := hoff r List.mem_cons_self
      have hpr := hp r List.mem_cons_self
      obtain ⟨k, hrk⟩ := hr4
      rw [List.pairwise_cons] at hsorted
      rw [deltaFrom, emitRelocs_cons] at hbytes hapart hfuel
      dsimp only at hbytes hapart hfuel
      obtain ⟨k₁, hlen₁, hk₁, hbytes₁, hread₁⟩ :=
        readUint_outputUint (by rw [htype r List.mem_cons_self]; decide) hbytes
      have hsmall : (r.offset - p) >>> 2 < 2 ^ 32 := by
        rw [Nat.shiftRight_eq_div_pow]
        omega
      obtain ⟨k₂, hlen₂, hk₂, hbytes₂, hread₂⟩ := readUint_outputUint hsmall hbytes₁
      obtain ⟨fuel, rfl⟩ := Nat.exists_eq_add_of_le' (show 1 ≤ fuel by omega)
      -- the word that is patched, and the memory in which the rest of the table is read
      have hload : load32 m (addr base r.offset) = ws k := by
        rw [hrk]
        exact h k (by omega)
      have hwords := h.store hn (by omega : k < n) (ws k + off)
      have hapart' := hapart.sub (k := k₁ + k₂) (l := (emitRelocs (deltaFrom r.offset rs)).length)
        (by omega)
      rw [← addr_addr] at hapart'
      have hrest := hbytes₂.outside (sameOutside_store (by omega : k < n) m (ws k + off)) hapart'
      obtain ⟨m', hrun, hm'⟩ := ih hsorted.2 (fun x hx => htype x (List.mem_cons_of_mem _ hx))
        (fun x hx => hoff x (List.mem_cons_of_mem _ hx)) (fun x hx => (hsorted.1 x hx).le)
        ⟨k, hrk⟩ hrest hapart' hwords (by omega : _ ≤ fuel)
      refine ⟨m', ?_, fun i hi => (hm' i hi).trans (listedWords_cons hrk hsorted.1 off ws i)⟩
      rw [tableLoop, hread₁ _ (by omega)]
      simp only [htype r List.mem_cons_self]
      rw [if_neg (by decide), hread₂ _ (by omega)]
      simp only [addr_add_shiftLeft base hpr hp4 ⟨k, hrk⟩]
      rw [applyReloc, if_pos rfl, hload, hrk]
      rw [hrk] at hrun
      exact hrun

/-! ### End to end -/

/-- The offset table has as many entries as there are words between its ends. -/
theorem got_entries {g entries : ℕ} (h : 4 * entries < 2 ^ 31) :
    u32 ((addr base (4 * (g + entries)) - addr base (4 * g)).toInt / 4) = entries := by
  have hdiff : addr base (4 * (g + entries)) - addr base (4 * g) =
      BitVec.ofNat 32 (4 * entries) := by
    rw [Nat.mul_add, ← addr_addr, addr]
    exact add_sub_cancel_left _ _
  rw [hdiff, BitVec.toInt_eq_toNat_of_lt (by rw [BitVec.toNat_ofNat]; omega), BitVec.toNat_ofNat]
  unfold u32
  omega

/-- **Relocation, end to end.** Let the image have `n` words, with the offset table at its
words `g` to `g + entries` and the section for the relocation table inside it, and let the
list name, in any order, distinct words of the image outside the offset table. Then the
tool makes a table of the list; and if that table fits its section and stands there, the
target, with enough fuel, ends with a copy in which every listed word and every non-zero
word of the offset table behind its first two is moved by the distance of the two bases,
once, and every other word is that of the image. -/
theorem archRelocation_relocates {qsort : Qsort} (hq : SortsConsistently qsort)
    {relocs : List MipsReloc} {n g entries tab relSize : ℕ} (hne : relocs ≠ [])
    (htype : ∀ r ∈ relocs, r.type = rMips32)
    (hoff : ∀ r ∈ relocs, 4 ∣ r.offset ∧ r.offset < 2 ^ 31 ∧ r.offset < 4 * n)
    (hdistinct : (relocs.map MipsReloc.offset).Nodup)
    (hgotList : ∀ r ∈ relocs, ¬ (4 * g ≤ r.offset ∧ r.offset < 4 * (g + entries)))
    {sym : ImageSymbols} (hgotStart : sym.gotStart = addr sym.monitorBase (4 * g))
    (hgotEnd : sym.gotEnd = addr sym.monitorBase (4 * (g + entries)))
    (hgot : g + entries ≤ n) (hrelStart : sym.relTableStart = addr sym.monitorBase tab)
    (hrel : tab + relSize ≤ 4 * n) {gp relocationBase rtbootLength : BitVec 32}
    (hgp : gp = sym.gotStart) (hlength : rtbootLength.toNat = 4 * n)
    (hapart : Apart relocationBase (4 * n) sym.monitorBase (4 * n)) :
    ∃ table, relTable qsort relocs = some table ∧
      ∀ m : Mem, table.length ≤ relSize → BytesAt m sym.relTableStart table →
        ∀ fuel ≥ table.length,
          ∃ m', archRelocation fuel sym gp relocationBase rtbootLength m = some m' ∧
            ∀ i < n, load32 m' (addr relocationBase (4 * i)) =
              if 4 * i ∈ relocs.map MipsReloc.offset ∨ (g + 2 ≤ i ∧ i < g + entries ∧
                  load32 m (addr sym.monitorBase (4 * i)) ≠ 0) then
                load32 m (addr sym.monitorBase (4 * i)) + (relocationBase - sym.monitorBase)
              else load32 m (addr sym.monitorBase (4 * i)) := by
  have hmax : ∀ r ∈ relocs, r.offset < 2 ^ 31 := fun r hr => (hoff r hr).2.1
  have hperm := (hq compareRelocs relocs (compareRelocs_consistent hmax)).1
  refine ⟨_, relTable_eq hq hne hmax hdistinct, ?_⟩
  intro m hfits hbytes fuel hfuel
  have hhalf := hapart.two_mul_le
  have hn : 4 * n ≤ 2 ^ 32 := by omega
  -- some word is outside the offset table, so the table is shorter than the image
  obtain ⟨r, hr⟩ := List.exists_mem_of_ne_nil relocs hne
  have hentries : 4 * entries < 2 ^ 31 := by
    have := hoff r hr
    have := hgotList r hr
    omega
  have hnewGp : gp - sym.monitorBase + relocationBase = addr relocationBase (4 * g) := by
    rw [hgp, hgotStart, addr, addr, add_sub_cancel_left, add_comm]
  have hoffset : gp - sym.monitorBase + relocationBase - gp =
      relocationBase - sym.monitorBase := by
    rw [sub_add_eq_add_sub, sub_right_comm, add_sub_cancel_left]
  have hcopied := rtMemcpy_copied (m := m) hn hapart
  obtain ⟨hwords, hsame⟩ :=
    gotLoop_words (relocationBase - sym.monitorBase) hn hgot 2 hcopied.words
  -- the table stands in the original, which neither the copy nor the first loop touches
  have htable := hapart.sub (Nat.le_trans (Nat.add_le_add_left hfits tab) hrel)
  rw [← hrelStart] at htable
  have hbytes' := (hbytes.outside hcopied.frame htable).outside hsame htable
  obtain ⟨m', hrun, hm'⟩ := tableLoop_words (relocationBase - sym.monitorBase) hn
    (pairwise_qsort hq hmax hdistinct) (fun r hr => htype r (hperm.mem_iff.mp hr))
    (fun r hr => hoff r (hperm.mem_iff.mp hr)) (fun r _ => Nat.zero_le _) (Nat.dvd_zero 4)
    hbytes' htable hwords hfuel
  refine ⟨m', ?_, fun i hi => (hm' i hi).trans ?_⟩
  · rw [archRelocation, hoffset, hnewGp, hlength, archGotRelocation, hgotEnd, hgotStart,
      got_entries hentries]
    rwa [addr_zero] at hrun
  · have hlisted : 4 * i ∈ (qsort compareRelocs relocs).map MipsReloc.offset ↔
        4 * i ∈ relocs.map MipsReloc.offset := (hperm.map _).mem_iff
    by_cases hmem : 4 * i ∈ relocs.map MipsReloc.offset
    · -- a listed word is not an entry of the offset table
      obtain ⟨r, hr, hri⟩ := List.mem_map.mp hmem
      have hnot : ¬ (g + 2 ≤ i ∧ i < g + entries) := by
        have := hgotList r hr
        omega
      rw [listedWords, if_pos (hlisted.mpr hmem), if_pos (.inl hmem), gotWords,
        if_neg fun h => hnot ⟨h.1, h.2.1⟩]
    · rw [listedWords, if_neg fun h => hmem (hlisted.mp h), gotWords]
      simp only [hmem, false_or]

/-- An image of eight words at `0x80000000`: two addresses, an offset table of three
entries, and a section of eight bytes with the relocation table of the two addresses. -/
def smallImage : Mem := fun a =>
  ([0x80, 0, 0, 0x10, 0x80, 0, 0, 0x14, 0, 0, 0, 0, 0x80, 0, 0, 0, 0x80, 0, 0, 4, 0, 0, 0, 7,
    2, 0, 2, 1, 0, 0, 0, 0] : List (BitVec 8)).getD (a - 0x80000000).toNat 0

/-- Relocating that image to `0x81000000` moves its addresses, the listed ones and the one
in the offset table, and leaves the other words. -/
theorem smallImage_relocates :
    ∃ m', archRelocation 5 ⟨0x80000000, 0x80000008, 0x80000014, 0x80000018⟩ 0x80000008
        0x81000000 32 smallImage = some m' ∧
      load32 m' (addr 0x81000000 0) = 0x81000010 ∧ load32 m' (addr 0x81000000 4) = 0x81000014 ∧
      load32 m' (addr 0x81000000 16) = 0x81000004 ∧ load32 m' (addr 0x81000000 20) = 7 := by
  have hsorted : insertionQsort compareRelocs [⟨2, 4⟩, ⟨2, 0⟩] = [⟨2, 0⟩, ⟨2, 4⟩] := by decide
  have hbytes : BytesAt smallImage 0x80000018 [2, 0, 2, 1, 0] := by
    rintro (_ | _ | _ | _ | _ | i) b hb
    iterate 5 exact (by decide : _ = _).trans (Option.some.inj hb)
    simp at hb
  obtain ⟨table, htable, hrun⟩ := @archRelocation_relocates insertionQsort insertionQsort_sorts
    [⟨2, 4⟩, ⟨2, 0⟩] 8 2 3 24 8 (by simp) (by simp [rMips32]) (by simp) (by decide) (by decide)
    ⟨0x80000000, 0x80000008, 0x80000014, 0x80000018⟩ rfl rfl (by decide) rfl (by decide)
    0x80000008 0x81000000 32 rfl rfl (by decide)
  obtain rfl : [2, 0, 2, 1, 0] = table := by
    have hdelta : deltaLoop (u32 (([⟨2, 0⟩, ⟨2, 4⟩] : List MipsReloc).length - 1))
        [⟨2, 0⟩, ⟨2, 4⟩] = some [⟨2, 0⟩, ⟨2, 4⟩] := by decide
    have h₀ : outputUint 0 = [0] := by rw [outputUint]; rfl
    have h₁ : outputUint 1 = [1] := by rw [outputUint]; rfl
    have h₂ : outputUint 2 = [2] := by rw [outputUint]; rfl
    rw [relTable, hsorted, hdelta] at htable
    simpa [emitRelocs, rMipsNone, h₀, h₁, h₂] using htable
  obtain ⟨m', hm', hwords⟩ := hrun smallImage (by decide) hbytes 5 (by decide)
  exact ⟨m', hm', (hwords 0 (by decide)).trans (by decide),
    (hwords 1 (by decide)).trans (by decide), (hwords 4 (by decide)).trans (by decide),
    (hwords 5 (by decide)).trans (by decide)⟩

end RtBoot
