import Mathlib.Data.Int.ModEq
import Mathlib.Data.List.TakeWhile
import Mathlib.Tactic.Common

/-!
# C Strings

A C string in memory is a block of non-zero bytes behind which a NUL stands. `CString`
carries the absence of a NUL inside it as a field, so that its length is what `strlen`
finds and its terminator is where `strlen` stops.

Two ways of reading are modelled. `CString.byteAt` reads the bytes of a block that holds
the string and its terminator; what lies behind the terminator is not the string's to
know and is given from outside. `CString.read` reads a string out of a buffer and fails
when the buffer ends before a NUL does.

## Main results

* `memcmp_eq_zero_iff`: two blocks compare equal exactly when their bytes do.
* `memcmp_byteAt_eq_zero_iff`: comparing a name's length of bytes tests for an initial
  segment, whatever lies behind the string.
* `mem_memcmpReads_byteAt`: such a comparison reads inside both strings.
* `CString.read_append`: a string followed by a NUL is read back.
-/

namespace RtBoot

/-- The bytes of a string literal. -/
def ascii (s : String) : List UInt8 :=
  s.toByteArray.data.toList

/-- A string of non-zero bytes. -/
@[ext] structure CString where
  bytes : List UInt8
  noNul : 0 ∉ bytes
  deriving DecidableEq

namespace CString

/-- `strlen`. -/
def strlen (s : CString) : ℕ :=
  s.bytes.length

/-- The string of the first bytes, then those of the second. -/
def append (s t : CString) : CString :=
  ⟨s.bytes ++ t.bytes, fun h => (List.mem_append.mp h).elim s.noNul t.noNul⟩

@[simp] theorem append_bytes (s t : CString) : (s.append t).bytes = s.bytes ++ t.bytes :=
  rfl

/-- The string from position `n` on. -/
def drop (s : CString) (n : ℕ) : CString :=
  ⟨s.bytes.drop n, fun h => s.noNul (List.mem_of_mem_drop h)⟩

@[simp] theorem drop_bytes (s : CString) (n : ℕ) : (s.drop n).bytes = s.bytes.drop n :=
  rfl

/-- The first `n` bytes of the string. -/
def take (s : CString) (n : ℕ) : CString :=
  ⟨s.bytes.take n, fun h => s.noNul (List.mem_of_mem_take h)⟩

@[simp] theorem take_bytes (s : CString) (n : ℕ) : (s.take n).bytes = s.bytes.take n :=
  rfl

/-- The string a pointer to these bytes stands for: what comes before the first NUL. -/
def upToNul (bytes : List UInt8) : CString :=
  ⟨bytes.takeWhile (· != 0), fun h => by simpa using List.mem_takeWhile_imp h⟩

/-- Bytes without a NUL all come before the first one. -/
theorem bytes_upToNul_append {p : List UInt8} (h : 0 ∉ p) (rest : List UInt8) :
    (upToNul (p ++ rest)).bytes = p ++ (upToNul rest).bytes := by
  refine List.takeWhile_append_of_pos ?_
  intro c hc
  rw [bne_iff_ne]
  rintro rfl
  exact h hc

/-- The bytes of a string stand for that string. -/
theorem upToNul_bytes (s : CString) : upToNul s.bytes = s := by
  ext1
  simpa [upToNul] using bytes_upToNul_append s.noNul []

/-- The byte at offset `i` of a block holding the string and its terminator; `past` is
what memory holds behind the terminator. -/
def byteAt (s : CString) (past : ℕ → UInt8) (i : ℕ) : UInt8 :=
  match s.bytes[i]? with
  | some b => b
  | none => if i = s.strlen then 0 else past (i - s.strlen - 1)

theorem byteAt_of_lt {s : CString} {i : ℕ} (h : i < s.strlen) (past : ℕ → UInt8) :
    s.bytes[i]? = some (s.byteAt past i) := by
  have hi : s.bytes[i]? = some s.bytes[i] := List.getElem?_eq_getElem h
  simp [byteAt, hi]

theorem byteAt_strlen (s : CString) (past : ℕ → UInt8) : s.byteAt past s.strlen = 0 := by
  have hi : s.bytes[s.strlen]? = none := List.getElem?_eq_none (le_refl s.bytes.length)
  simp [byteAt, hi]

theorem byteAt_ne_zero {s : CString} {i : ℕ} (h : i < s.strlen) (past : ℕ → UInt8) :
    s.byteAt past i ≠ 0 := by
  intro h0
  have hi := byteAt_of_lt h past
  rw [h0] at hi
  exact s.noNul (List.mem_of_getElem? hi)

/-- Read a string at the start of a buffer: the bytes up to the first NUL, or `none` when
the buffer ends first. -/
def read : List UInt8 → Option CString
  | [] => none
  | b :: bs =>
      if hb : b = 0 then some ⟨[], List.not_mem_nil⟩
      else (read bs).map fun s =>
        ⟨b :: s.bytes, fun h => (List.mem_cons.mp h).elim (fun h0 => hb h0.symm) s.noNul⟩

/-- A string followed by a NUL is read back, whatever follows. -/
theorem read_append (s : CString) (rest : List UInt8) :
    read (s.bytes ++ 0 :: rest) = some s := by
  obtain ⟨bytes, hs⟩ := s
  induction bytes with
  | nil => simp [read]
  | cons b bs ih =>
      have hb : b ≠ 0 := fun h => hs (h ▸ List.mem_cons_self)
      have hbs : 0 ∉ bs := fun h => hs (List.mem_cons_of_mem _ h)
      have ih' : read (bs ++ 0 :: rest) = some ⟨bs, hbs⟩ := ih hbs
      simp [read, hb, ih']

end CString

/-- `memcmp` from offset `i` on: the difference of the first two bytes that differ. -/
def memcmp (cs ct : ℕ → UInt8) : ℕ → ℕ → ℤ
  | _, 0 => 0
  | i, count + 1 =>
      let res := ((cs i).toNat : ℤ) - (ct i).toNat
      if res ≠ 0 then res else memcmp cs ct (i + 1) count

theorem memcmp_eq_zero_iff (cs ct : ℕ → UInt8) (i count : ℕ) :
    memcmp cs ct i count = 0 ↔ ∀ j, i ≤ j → j < i + count → cs j = ct j := by
  induction count generalizing i with
  | zero => simpa [memcmp] using fun j h₁ h₂ => absurd h₁ (by omega)
  | succ count ih =>
      have hfirst : ((cs i).toNat : ℤ) - (ct i).toNat = 0 ↔ cs i = ct i := by
        rw [← UInt8.toNat_inj]
        omega
      by_cases h : cs i = ct i
      · simp only [memcmp, hfirst.mpr h, ne_eq, not_true_eq_false, if_false, ih]
        constructor
        · intro hall j h₁ h₂
          rcases Nat.eq_or_lt_of_le h₁ with rfl | hlt
          · exact h
          · exact hall j hlt (by omega)
        · intro hall j h₁ h₂
          exact hall j (by omega) (by omega)
      · have hne : ((cs i).toNat : ℤ) - (ct i).toNat ≠ 0 := fun h0 => h (hfirst.mp h0)
        simp only [memcmp, hne, ne_eq, not_false_eq_true, if_true, false_iff]
        intro hall
        exact h (hall i (le_refl i) (by omega))

/-- Comparing the length of `name` tests whether `name` is an initial segment of the
string: a comparison that runs over the terminator has already met a difference there. -/
theorem memcmp_byteAt_eq_zero_iff (s name : CString) (past past' : ℕ → UInt8) :
    memcmp (s.byteAt past) (name.byteAt past') 0 name.strlen = 0 ↔ name.bytes <+: s.bytes := by
  rw [memcmp_eq_zero_iff, List.prefix_iff_getElem?]
  constructor
  · intro hall i hi
    have hle : name.strlen ≤ s.strlen := by
      by_contra hlt
      have hlt : s.strlen < name.strlen := by omega
      have := hall s.strlen (Nat.zero_le _) (by omega)
      rw [CString.byteAt_strlen] at this
      exact CString.byteAt_ne_zero hlt past' this.symm
    have hi' : i < name.strlen := hi
    have hs := CString.byteAt_of_lt (lt_of_lt_of_le hi' hle) past
    have hn := CString.byteAt_of_lt hi' past'
    rw [hall i (Nat.zero_le _) (by omega), ← hn, List.getElem?_eq_getElem hi] at hs
    exact hs
  · intro hpre i _ hi
    have hi' : i < name.strlen := by omega
    have hs := hpre i hi'
    have hlt : i < s.strlen := (List.getElem?_eq_some_iff.mp hs).1
    have hn := CString.byteAt_of_lt hi' past'
    rw [CString.byteAt_of_lt hlt past, ← List.getElem?_eq_getElem hi', hn] at hs
    exact Option.some.inj hs

/-- The offsets at which `memcmp` from offset `i` on reads both blocks: up to the first
difference. -/
def memcmpReads (cs ct : ℕ → UInt8) : ℕ → ℕ → List ℕ
  | _, 0 => []
  | i, count + 1 => i :: if cs i = ct i then memcmpReads cs ct (i + 1) count else []

theorem mem_memcmpReads {cs ct : ℕ → UInt8} {i count j : ℕ} (h : j ∈ memcmpReads cs ct i count) :
    j < i + count ∧ ∀ k, i ≤ k → k < j → cs k = ct k := by
  induction count generalizing i with
  | zero => exact absurd h List.not_mem_nil
  | succ count ih =>
      rw [memcmpReads, List.mem_cons] at h
      rcases h with rfl | h
      · exact ⟨by omega, fun k h₁ h₂ => absurd h₁ (by omega)⟩
      · split at h
        · next heq =>
            obtain ⟨hlt, hall⟩ := ih h
            refine ⟨by omega, fun k h₁ h₂ => ?_⟩
            rcases Nat.eq_or_lt_of_le h₁ with rfl | hk
            · exact heq
            · exact hall k hk h₂
        · exact absurd h List.not_mem_nil

/-- Comparing the length of `name` stays inside both strings: at the latest the shorter
string's terminator differs. -/
theorem mem_memcmpReads_byteAt {s name : CString} {past past' : ℕ → UInt8} {j : ℕ}
    (h : j ∈ memcmpReads (s.byteAt past) (name.byteAt past') 0 name.strlen) :
    j ≤ s.strlen ∧ j ≤ name.strlen := by
  obtain ⟨hlt, hall⟩ := mem_memcmpReads h
  refine ⟨?_, by omega⟩
  by_contra hle
  have hsame := hall s.strlen (Nat.zero_le _) (by omega)
  rw [CString.byteAt_strlen] at hsame
  exact CString.byteAt_ne_zero (by omega) past' hsame.symm

end RtBoot
