import RtBoot.EnvFlash

/-!
# Reading Any Flash Content as an Environment

`env_init` trusts the flash: it walks the buffer from NUL to NUL, takes the length of a
string before it knows that the string ends inside the buffer, and looks at the byte
behind a NUL to see whether the list is over. What it should find is said here without
the loop: `envStrings` are the NUL-separated strings up to the first empty one or the end
of the bytes.

The two agree on the images whose list is closed by a second NUL. On an image that is full
to its last byte, or whose last string is not terminated, the reader leaves the buffer.

## Main results

* `nulInduction`: induction over bytes by NUL-terminated strings.
* `envInitLoop_strings`, `envInitLoop_eq_some`: what the loop does with any bytes.
* `envInit_parses_iff`: on which flash contents `env_init` is safe and faithful.
-/

namespace RtBoot

/-! ### Strings in a byte list -/

namespace CString

/-- The string a pointer to its bytes and a NUL stands for. -/
theorem upToNul_append (s : CString) (rest : List UInt8) :
    upToNul (s.bytes ++ 0 :: rest) = s := by
  ext1
  rw [bytes_upToNul_append s.noNul]
  simp [upToNul]

/-- No string can be read out of bytes without a NUL. -/
theorem read_bytes (s : CString) : read s.bytes = none := by
  obtain ⟨bytes, hs⟩ := s
  induction bytes with
  | nil => rfl
  | cons b bs ih =>
      have hb : b ≠ 0 := fun h => hs (h ▸ List.mem_cons_self)
      have hbs : read bs = none := ih fun h => hs (List.mem_cons_of_mem _ h)
      simp [read, hb, hbs]

end CString

/-- **Induction over bytes by strings.** Bytes are empty, begin with a NUL, are one string
that is not terminated, or are a terminated string and further bytes. -/
@[elab_as_elim] theorem nulInduction {motive : List UInt8 → Prop} (nil : motive [])
    (nul : ∀ rest, motive (0 :: rest)) (unterminated : ∀ s : CString, s.bytes ≠ [] → motive s.bytes)
    (string : ∀ (s : CString) rest, s.bytes ≠ [] → motive rest → motive (s.bytes ++ 0 :: rest))
    (bytes : List UInt8) : motive bytes := by
  induction hn : bytes.length using Nat.strong_induction_on generalizing bytes with
  | _ n ih =>
      by_cases hmem : 0 ∈ bytes
      · obtain ⟨s, rest, rfl, hs⟩ := List.eq_append_cons_of_mem hmem
        cases s with
        | nil => exact nul rest
        | cons b bs =>
            have hlt : rest.length < n := by
              rw [← hn, List.length_append, List.length_cons, List.length_cons]
              omega
            exact string ⟨b :: bs, hs⟩ rest (List.cons_ne_nil b bs) (ih _ hlt rest rfl)
      · cases bytes with
        | nil => exact nil
        | cons b bs => exact unterminated ⟨b :: bs, hmem⟩ (List.cons_ne_nil b bs)

/-- The NUL-separated strings at the start of the bytes, up to the first empty string or
the end of the bytes. -/
def envStrings (bytes : List UInt8) : List CString :=
  match bytes with
  | [] => []
  | b :: rest =>
      if b = 0 then []
      else
        let s := CString.upToNul (b :: rest)
        s :: envStrings (rest.drop s.strlen)
termination_by bytes.length
decreasing_by
  rw [List.length_drop, List.length_cons]
  omega

@[simp] theorem envStrings_nil : envStrings [] = [] := by
  rw [envStrings]

@[simp] theorem envStrings_nul (rest : List UInt8) : envStrings (0 :: rest) = [] := by
  rw [envStrings, if_pos rfl]

variable {s : CString} {rest : List UInt8} {alloc : ℕ → Bool}

theorem envStrings_of_ne_nil (hs : s.bytes ≠ []) {bytes : List UInt8}
    (hpre : s.bytes <+: bytes) (hup : CString.upToNul bytes = s) :
    envStrings bytes = s :: envStrings (bytes.drop (s.strlen + 1)) := by
  obtain ⟨b, bs, hb⟩ := List.exists_cons_of_ne_nil hs
  have hb0 : b ≠ 0 := fun h => s.noNul (by simp [hb, h])
  cases bytes with
  | nil => exact absurd (List.prefix_nil.mp hpre) hs
  | cons c rest =>
      obtain rfl : b = c := by
        rw [hb] at hpre
        exact (List.cons_prefix_cons.mp hpre).1
      rw [envStrings, if_neg hb0]
      simp only [hup, List.drop_succ_cons]

theorem envStrings_unterminated (hs : s.bytes ≠ []) : envStrings s.bytes = [s] := by
  have hdrop : s.bytes.drop (s.strlen + 1) = [] := List.drop_eq_nil_of_le (Nat.le_succ _)
  rw [envStrings_of_ne_nil hs (List.prefix_refl _) (CString.upToNul_bytes s), hdrop,
    envStrings_nil]

theorem envStrings_string (hs : s.bytes ≠ []) (rest : List UInt8) :
    envStrings (s.bytes ++ 0 :: rest) = s :: envStrings rest := by
  have hdrop : (s.bytes ++ 0 :: rest).drop (s.strlen + 1) = rest := by
    simp [CString.strlen, List.drop_append]
  rw [envStrings_of_ne_nil hs (List.prefix_append _ _) (CString.upToNul_append s rest), hdrop]

theorem envStrings_ne_nil (bytes : List UInt8) : ∀ s ∈ envStrings bytes, s.bytes ≠ [] := by
  induction bytes using nulInduction with
  | nil => simp
  | nul rest => simp
  | unterminated s hs => simpa [envStrings_unterminated hs] using hs
  | string s rest hs ih => simpa [envStrings_string hs] using ⟨hs, ih⟩

/-! ### Where the list is closed -/

/-- Two NULs in a row: the end of the list, as `env_is_end` looks for it. -/
def Closed (bytes : List UInt8) : Prop :=
  [0, 0] <:+: bytes
  deriving Decidable

theorem closed_cons_of_ne {b : UInt8} (hb : b ≠ 0) (bytes : List UInt8) :
    Closed (b :: bytes) ↔ Closed bytes := by
  rw [Closed, List.infix_cons_iff, List.cons_prefix_cons]
  constructor
  · rintro (⟨h, -⟩ | h)
    · exact absurd h.symm hb
    · exact h
  · exact Or.inr

theorem closed_append (s : CString) (bytes : List UInt8) :
    Closed (s.bytes ++ bytes) ↔ Closed bytes := by
  obtain ⟨cs, hs⟩ := s
  induction cs with
  | nil => rfl
  | cons c cs ih =>
      have hc : c ≠ 0 := fun h => hs (h ▸ List.mem_cons_self)
      exact (closed_cons_of_ne hc _).trans (ih fun h => hs (List.mem_cons_of_mem _ h))

/-- Behind a NUL only the first byte of a string matters. -/
theorem closed_nul_string (hs : s.bytes ≠ []) (bytes : List UInt8) :
    Closed (0 :: (s.bytes ++ bytes)) ↔ Closed bytes := by
  obtain ⟨b, bs, hb⟩ := List.exists_cons_of_ne_nil hs
  have hb0 : 0 ≠ b := fun h => s.noNul (by simp [hb, h])
  rw [Closed, List.infix_cons_iff, ← closed_append s bytes, hb, List.cons_append,
    List.cons_prefix_cons, List.cons_prefix_cons]
  simp [hb0, Closed]

theorem not_closed_nil : ¬ Closed [] := by
  decide

/-- The strings of a closed list fit in front of its second NUL. -/
theorem storedBytes_envStrings_lt (h : Closed (0 :: rest)) :
    storedBytes (envStrings rest) < rest.length := by
  induction rest using nulInduction with
  | nil => exact absurd h (by decide)
  | nul rest => simp
  | unterminated s hs =>
      rw [← List.append_nil s.bytes, closed_nul_string hs] at h
      exact absurd h not_closed_nil
  | string s rest hs ih =>
      have hlt := ih ((closed_nul_string hs _).mp h)
      rw [envStrings_string hs, storedBytes_cons, List.length_append, List.length_cons]
      have : s.bytes.length = s.strlen := rfl
      omega

/-! ### The reader on any bytes -/

/-- In front of a string that the buffer cuts off, the reader leaves the buffer. -/
theorem envInitLoop_unterminated (hs : s.bytes ≠ []) (alloc : ℕ → Bool) (k : ℕ)
    (ctb : EnvCtb) : envInitLoop alloc k (0 :: s.bytes) ctb = none := by
  have hend : envIsEnd (0 :: s.bytes) = some false := by
    obtain ⟨b, bs, hb⟩ := List.exists_cons_of_ne_nil hs
    have hb0 : b ≠ 0 := fun h => s.noNul (by simp [hb, h])
    simp [envIsEnd, hb, hb0]
  rw [envInitLoop, hend]
  simp only [CString.read_bytes]

theorem envInitLoop_nul (alloc : ℕ → Bool) (k : ℕ) (rest : List UInt8) (ctb : EnvCtb) :
    envInitLoop alloc k (0 :: 0 :: rest) ctb = some ctb := by
  simp [envInitLoop, envIsEnd]

/-- On the last byte of the buffer the reader looks at the byte behind it. -/
theorem envInitLoop_last (alloc : ℕ → Bool) (k : ℕ) (ctb : EnvCtb) :
    envInitLoop alloc k [0] ctb = none := by
  simp [envInitLoop, envIsEnd]

/-- **A closed list is read completely** when there is memory for its strings. -/
theorem envInitLoop_strings {k : ℕ} (ctb : EnvCtb) (hclosed : Closed (0 :: rest))
    (halloc : ∀ i < (envStrings rest).length, alloc (k + i) = true) :
    envInitLoop alloc k (0 :: rest) ctb = some ((envStrings rest).foldl envNodeAdd ctb) := by
  induction rest using nulInduction generalizing k ctb with
  | nil => exact absurd hclosed (by decide)
  | nul rest => rw [envInitLoop_nul, envStrings_nul, List.foldl_nil]
  | unterminated s hs =>
      rw [← List.append_nil s.bytes, closed_nul_string hs] at hclosed
      exact absurd hclosed not_closed_nil
  | string s rest hs ih =>
      rw [envStrings_string hs] at halloc ⊢
      have hfirst : alloc k = true := halloc 0 (Nat.succ_pos _)
      have hnext : ∀ i < (envStrings rest).length, alloc (k + 1 + i) = true := by
        intro i hi
        rw [Nat.add_assoc, Nat.add_comm 1 i]
        exact halloc (i + 1) (Nat.succ_lt_succ hi)
      rw [envInitLoop_string hs, if_pos hfirst,
        ih _ ((closed_nul_string hs _).mp hclosed) hnext, List.foldl_cons]

/-- Conversely, only closed lists for which there is memory are read completely. -/
theorem envInitLoop_eq_some {k : ℕ} {ctb ctb' : EnvCtb}
    (h : envInitLoop alloc k (0 :: rest) ctb = some ctb')
    (hhead : ctb'.head = ctb.head ++ envStrings rest) :
    Closed (0 :: rest) ∧ ∀ i < (envStrings rest).length, alloc (k + i) = true := by
  induction rest using nulInduction generalizing k ctb with
  | nil =>
      rw [envInitLoop_last] at h
      exact absurd h (by simp)
  | nul rest => exact ⟨( List.prefix_append [0, 0] rest).isInfix, by simp⟩
  | unterminated s hs =>
      rw [envInitLoop_unterminated hs] at h
      exact absurd h (by simp)
  | string s rest hs ih =>
      rw [envInitLoop_string hs] at h
      rw [envStrings_string hs] at hhead ⊢
      cases ha : alloc k with
      | false =>
          -- the reader stopped in front of the string, which is then missing
          obtain rfl : ctb = ctb' := by simpa [ha] using h
          exact absurd hhead (by simp)
      | true =>
          rw [if_pos ha] at h
          obtain ⟨hclosed, halloc⟩ := ih h (by rw [hhead, envNodeAdd]; simp)
          refine ⟨(closed_nul_string hs _).mpr hclosed, fun i hi => ?_⟩
          cases i with
          | zero => exact ha
          | succ i =>
              rw [Nat.add_comm i 1, ← Nat.add_assoc]
              exact halloc i (Nat.lt_of_succ_lt_succ hi)

/-! ### `env_init` on any flash content -/

/-- `env_init` on `flash` stays inside its buffer, and, if the header is there, its list
is that of the strings behind the header. -/
def EnvParsed (length : BitVec 32) (flash : List UInt8) (alloc : ℕ → Bool) : Prop :=
  ∃ ctb, envInit envEnable length flash alloc EnvCtb.reset = some ctb ∧
    (envHeader <+: flash → ctb.head = envStrings (flash.drop 4))

/-- Without the header the flash is not looked at any further. -/
theorem envInit_no_header {length : BitVec 32} {flash : List UInt8}
    (hlen : length ≠ 0) (halloc : alloc 0 = true) (hflash : 4 ≤ flash.length)
    (hhead : ¬ envHeader <+: flash) :
    envInit envEnable length flash alloc EnvCtb.reset = some (bootTable length) := by
  obtain ⟨b₀, b₁, b₂, b₃, rest, rfl⟩ :
      ∃ b₀ b₁ b₂ b₃ rest, flash = b₀ :: b₁ :: b₂ :: b₃ :: rest := by
    match flash, hflash with
    | b₀ :: b₁ :: b₂ :: b₃ :: rest, _ => exact ⟨b₀, b₁, b₂, b₃, rest, rfl⟩
  have hne : [b₀, b₁, b₂, b₃] ≠ envHeader := fun h => hhead ⟨rest, by rw [← h]; rfl⟩
  simp only [envInit, EnvCtb.reset, if_true, hlen, halloc, Bool.true_eq_false, or_self, if_false,
    hne, ne_eq, not_false_eq_true]
  rfl

/-- **Which flash contents are read safely and faithfully.** For every length of at least
five bytes and every content of that length, `env_init` stays inside the buffer it
allocated and builds the list of the strings behind the header exactly when there is no
header, or the list is closed by two NULs inside the buffer and its strings can be
allocated. -/
theorem envInit_parses_iff {length : BitVec 32} {flash : List UInt8} {alloc : ℕ → Bool}
    (hlen : 5 ≤ length.toNat) (hflash : flash.length = length.toNat) (halloc : alloc 0 = true) :
    EnvParsed length flash alloc ↔
      ¬ envHeader <+: flash ∨
        Closed (flash.drop 3) ∧
          ∀ i < (envStrings (flash.drop 4)).length, alloc (1 + i) = true := by
  have hne : length ≠ 0 := by
    rintro rfl
    simp at hlen
  by_cases hhead : envHeader <+: flash
  · obtain ⟨rest, rfl⟩ := hhead
    have hdrop : (envHeader ++ rest).drop 3 = 0 :: rest := rfl
    have hdrop' : (envHeader ++ rest).drop 4 = rest := rfl
    rw [EnvParsed, envInit_header hne halloc, hdrop, hdrop']
    constructor
    · rintro ⟨ctb, hinit, hlist⟩
      exact .inr (envInitLoop_eq_some hinit (hlist ( List.prefix_append _ _)))
    · rintro (h | ⟨hclosed, hmem⟩)
      · exact absurd ( List.prefix_append _ _) h
      · have hfold := foldl_envNodeAdd (envOnFlash_bootTable length) (envStrings_ne_nil rest)
        exact ⟨_, envInitLoop_strings _ hclosed hmem, fun _ => hfold.2⟩
  · have hinit : envInit envEnable length flash alloc EnvCtb.reset = some (bootTable length) :=
      envInit_no_header hne halloc (by omega) hhead
    exact ⟨fun _ => .inl hhead, fun _ => ⟨_, hinit, fun h => absurd h hhead⟩⟩

/-- A region of nine bytes with room for `a=1` and the second NUL. -/
theorem envInit_parses_nine :
    EnvParsed 9 (envHeader ++ [0x61, 0x3D, 0x31, 0, 0]) fun _ => true :=
  (envInit_parses_iff (by decide) rfl rfl).mpr (.inr ⟨by decide, fun _ _ => rfl⟩)

/-- The image that `env_save` writes of a store that fills its region of eight bytes is
read beyond its end. -/
theorem envInit_full_image :
    ∃ image, envSave true ⟨envEnable, 8, 0, 1, [envEntry ⟨[0x61], by decide⟩ ⟨[0x31], by decide⟩]⟩ =
        some (some image) ∧
      image.length = 8 ∧ envInit envEnable 8 image (fun _ => true) EnvCtb.reset = none ∧
      ¬ EnvParsed 8 image fun _ => true := by
  have hinit : envInit envEnable 8 (envHeader ++ [0x61, 0x3D, 0x31, 0]) (fun _ => true)
      EnvCtb.reset = none := by
    decide +kernel
  refine ⟨envHeader ++ [0x61, 0x3D, 0x31, 0], by decide, rfl, hinit, ?_⟩
  rintro ⟨ctb, hctb, -⟩
  rw [hinit] at hctb
  exact absurd hctb (by simp)

end RtBoot
