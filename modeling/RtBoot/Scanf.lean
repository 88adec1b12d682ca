import RtBoot.CString
import RtBoot.Machine
import RtBoot.Printf

/-!
# Formatted Input

`rt_vsscanf` walks along a text and a format. White space in the format skips white space in
the text, other characters must match, and a conversion stores through the next pointer of the
arguments. What is stored is kept as a list, one entry for each pointer in turn (`Store`): the
bytes of a character or string conversion, or an integer of the size of the pointer's type.

A text and a format are lists of bytes before the NUL, so that the end of a list is the NUL.
Three habits of the code matter to what is read: the field width survives from one conversion
to the next, the width in a format is read without being passed over, and an integer must begin
with a decimal digit.

White space is what the table `_ctype` marks so: the six characters of C and byte `0xA0`.

## Main results

* `strtoul_numeral`: a number printed in base 10 or 16 is read back.
* `copyWord_append`, `copyWord_spec`: what `%s` copies.
-/

namespace RtBoot

/-! ### Character classes -/

/-- `rt_isspace`: the white space of C. -/
def rtIsspace (c : UInt8) : Bool :=
  c = ' '.toUInt8 || c = '\n'.toUInt8 || c = 12 || c = '\r'.toUInt8 || c = '\t'.toUInt8 || c = 11

/-- `isspace` by the table `_ctype`. -/
def isspace (c : UInt8) : Bool :=
  (9 ≤ c && c ≤ 13) || c = 32 || c = 160

/-- The white space of the table is that of C and byte `0xA0`. -/
theorem isspace_eq_false {b : UInt8} : isspace b = false ↔ rtIsspace b = false ∧ b ≠ 0xA0 := by
  unfold isspace rtIsspace
  rw [show ' '.toUInt8 = 32 from rfl, show '\n'.toUInt8 = 10 from rfl,
    show '\r'.toUInt8 = 13 from rfl, show '\t'.toUInt8 = 9 from rfl]
  simp only [Bool.or_eq_false_iff, Bool.and_eq_false_iff, decide_eq_false_iff_not,
    UInt8.le_iff_toNat_le, ← UInt8.toNat_inj, ne_eq, UInt8.reduceToNat]
  omega

/-- `isxdigit` by the table. -/
def isxdigit (c : UInt8) : Bool :=
  (48 ≤ c && c ≤ 57) || (65 ≤ c && c ≤ 70) || (97 ≤ c && c ≤ 102)

/-- `islower` by the table. -/
def islower (c : UInt8) : Bool :=
  (97 ≤ c && c ≤ 122) || (223 ≤ c && c ≤ 246) || 248 ≤ c

/-- `rt_toupper`. -/
def rtToupper (c : UInt8) : UInt8 :=
  if islower c then c - 32 else c

namespace Scanf

/-- The character at a position of a text, NUL at its end. -/
def charAt (cp : List UInt8) (i : ℕ) : UInt8 :=
  cp.getD i 0

/-! ### Integers -/

/-- The value of a digit. -/
def digitValue (c : UInt8) : Option ℕ :=
  if isxdigit c then
    some (if rtIsdigit c then c.toNat - 48 else (rtToupper c).toNat - 65 + 10)
  else none

/-- `simple_strtoul`: the number and the rest of the text. -/
def simpleStrtoul (cp : List UInt8) (base : ℕ) : BitVec 32 × List UInt8 :=
  let (cp, base) :=
    if base = 0 then
      if charAt cp 0 = '0'.toUInt8 then
        if rtToupper (charAt cp 1) = 'X'.toUInt8 && isxdigit (charAt cp 2) then (cp.drop 2, 16)
        else (cp.drop 1, 8)
      else (cp, 10)
    else if base = 16 then
      if charAt cp 0 = '0'.toUInt8 && rtToupper (charAt cp 1) = 'X'.toUInt8 then (cp.drop 2, base)
      else (cp, base)
    else (cp, base)
  readNumeral base digitValue 0 cp

/-- `simple_strtol`. -/
def simpleStrtol (cp : List UInt8) (base : ℕ) : BitVec 32 × List UInt8 :=
  if charAt cp 0 = '-'.toUInt8 then
    let (n, rest) := simpleStrtoul (cp.drop 1) base
    (-n, rest)
  else simpleStrtoul cp base

/-- `simple_strtoull`. -/
def simpleStrtoull (cp : List UInt8) (base : ℕ) : BitVec 64 × List UInt8 :=
  let (cp, base) :=
    if charAt cp 0 = '0'.toUInt8 then
      if rtToupper (charAt cp 1) = 'X'.toUInt8 && isxdigit (charAt cp 2) then (cp.drop 2, 16)
      else (cp.drop 1, if base = 0 then 8 else base)
    else (cp, base)
  readNumeral (if base = 0 then 10 else base) digitValue 0 cp

/-- `simple_strtoll`. -/
def simpleStrtoll (cp : List UInt8) (base : ℕ) : BitVec 64 × List UInt8 :=
  if charAt cp 0 = '-'.toUInt8 then
    let (n, rest) := simpleStrtoull (cp.drop 1) base
    (-n, rest)
  else simpleStrtoull cp base

/-- The digits of `rt_atoi`. -/
def atoiDigits : List UInt8 → ℤ → ℤ
  | [], v => v
  | c :: s, v => if rtIsdigit c then atoiDigits s (i32 (v * 10 + c.toNat - 48)) else v

/-- `rt_atoi`. -/
def rtAtoi (s : List UInt8) : ℤ :=
  let s := s.dropWhile fun c => c = ' '.toUInt8 || (9 ≤ c && c ≤ 13)
  if charAt s 0 = '-'.toUInt8 then i32 (-atoiDigits (s.drop 1) 0)
  else if charAt s 0 = '+'.toUInt8 then atoiDigits (s.drop 1) 0
  else atoiDigits s 0

/-! ### Characters and strings -/

/-- The loop of `%c`: what it copies, the rest of the text and the field width it leaves. The
test follows the copy, so that one character more than the width is copied. -/
def copyChars : List UInt8 → ℤ → List UInt8 × List UInt8 × ℤ
  | [], width => ([], [], width)
  | c :: str, width =>
      if 0 < width ∧ str ≠ [] then
        let (bytes, str, width) := copyChars str (width - 1)
        (c :: bytes, str, width)
      else ([c], str, width - 1)

/-- The loop of `%s`. -/
def copyWord : List UInt8 → ℤ → List UInt8 × List UInt8 × ℤ
  | [], width => ([], [], width)
  | c :: str, width =>
      if isspace c then ([], c :: str, width)
      else if width ≠ 0 then
        let (bytes, str, width) := copyWord str (width - 1)
        (c :: bytes, str, width)
      else ([], c :: str, width - 1)

/-! ### The loop over the format -/

/-- What a conversion stores through its pointer. -/
inductive Store
  | chars (bytes : List UInt8)
  | int16 (w : BitVec 16)
  | int32 (w : BitVec 32)
  | int64 (w : BitVec 64)
  deriving DecidableEq

/-- The variables of the loop. -/
structure State where
  fmt : List UInt8
  str : List UInt8
  num : ℤ
  fieldWidth : ℤ

/-- What a round of the loop stores, whether the loop goes on, and the variables. -/
abbrev Round : Type :=
  List Store × Bool × State

/-- The end of the loop. -/
def leave (s : State) : Round :=
  ([], false, s)

/-- The store of an integer conversion and the rest of the text. -/
def storeInt (qualifier : UInt8) (isSign : Bool) (base : ℕ) (str : List UInt8) :
    Store × List UInt8 :=
  let word := if isSign then simpleStrtol str base else simpleStrtoul str base
  if qualifier = 'h'.toUInt8 then (.int16 (word.1.setWidth 16), word.2)
  else if qualifier = 'l'.toUInt8 then (.int32 word.1, word.2)
  else if qualifier = 'L'.toUInt8 then
    let long := if isSign then simpleStrtoll str base else simpleStrtoull str base
    (.int64 long.1, long.2)
  else if qualifier = 'Z'.toUInt8 then
    let word := simpleStrtoul str base
    (.int32 word.1, word.2)
  else (.int32 word.1, word.2)

/-- An integer conversion. -/
def scanInt (qualifier : UInt8) (isSign : Bool) (base : ℕ) (s : State) : Round :=
  let str := s.str.dropWhile isspace
  if str = [] ∨ !rtIsdigit (charAt str 0) then leave { s with str := str }
  else
    let (store, next) := storeInt qualifier isSign base str
    ([store], true, { s with str := next, num := s.num + 1 })

/-- The field width, or the one a conversion has when none was given. -/
def widthOr (absent width : ℤ) : ℤ :=
  if width = -1 then absent else width

/-- `%c`. -/
def scanChars (s : State) : Round :=
  let (bytes, str, width) := copyChars s.str (widthOr 1 s.fieldWidth)
  ([.chars bytes], true, { s with str := str, num := s.num + 1, fieldWidth := width })

/-- `%s`: the bytes and a NUL. -/
def scanWord (s : State) : Round :=
  let (bytes, str, width) :=
    copyWord (s.str.dropWhile isspace) (widthOr 2147483647 s.fieldWidth)
  ([.chars (bytes ++ [0])], true, { s with str := str, num := s.num + 1, fieldWidth := width })

/-- The conversion with the given letter, the format being behind it. `len` is the length of
the whole text. -/
def convert (len : ℕ) (qualifier letter : UInt8) (s : State) : Round :=
  if letter = 'c'.toUInt8 then scanChars s
  else if letter = 's'.toUInt8 then scanWord s
  else if letter = 'n'.toUInt8 then
    ([.int32 (BitVec.ofNat 32 (len - s.str.length))], true, s)
  else if letter = 'o'.toUInt8 then scanInt qualifier false 8 s
  else if letter = 'x'.toUInt8 ∨ letter = 'X'.toUInt8 then scanInt qualifier false 16 s
  else if letter = 'd'.toUInt8 ∨ letter = 'i'.toUInt8 then scanInt qualifier true 10 s
  else if letter = 'u'.toUInt8 then scanInt qualifier false 10 s
  else if letter = '%'.toUInt8 then
    if charAt s.str 0 = '%'.toUInt8 then ([], true, { s with str := s.str.drop 1 }) else leave s
  else leave s

/-- A conversion, from behind its `%`. -/
def conversion (len : ℕ) (s : State) : Round :=
  let c := charAt s.fmt 0
  if c = '*'.toUInt8 then
    ([], true, { s with fmt := s.fmt.dropWhile (!isspace ·), str := s.str.dropWhile (!isspace ·) })
  else
    let width := if rtIsdigit c then rtAtoi s.fmt else s.fieldWidth
    let qualified := c = 'h'.toUInt8 ∨ c = 'l'.toUInt8 ∨ c = 'L'.toUInt8 ∨ c = 'Z'.toUInt8
    let fmt := if qualified then s.fmt.drop 1 else s.fmt
    let s := { s with fmt := fmt.drop 1, fieldWidth := width }
    if fmt = [] ∨ s.str = [] then leave s
    else convert len (if qualified then c else 0) (charAt fmt 0) s

/-- White space in the format. -/
def skipSpace (s : State) : State :=
  if isspace (charAt s.fmt 0) then
    { s with fmt := s.fmt.dropWhile isspace, str := s.str.dropWhile isspace }
  else s

/-- A round of the loop behind the white space. -/
def body (len : ℕ) (s : State) : Round :=
  match s.fmt with
  | [] => leave s
  | c :: fmt =>
      if c ≠ '%'.toUInt8 then
        ([], charAt s.str 0 = c, { s with fmt := fmt, str := s.str.drop 1 })
      else conversion len { s with fmt := fmt }

/-- The loop of `rt_vsscanf`: the number it returns and what it has stored. -/
def vsscanfLoop (len : ℕ) : ℕ → State → Option (ℤ × List Store)
  | 0, _ => none
  | fuel + 1, s =>
      if s.fmt = [] ∨ s.str = [] then some (s.num, [])
      else
        let (stores, again, s) := body len (skipSpace s)
        if again then do
          let (num, rest) ← vsscanfLoop len fuel s
          some (num, stores ++ rest)
        else some (s.num, stores)

/-- `rt_sscanf` and `rt_vsscanf`, on the text at the start of the buffer. -/
def rtSscanf (buf fmt : List UInt8) : Option (ℤ × List Store) :=
  let str := (CString.upToNul buf).bytes
  vsscanfLoop str.length (fmt.length + 1) ⟨fmt, str, 0, -1⟩

/-! ### Reading integers -/

theorem digitValue_digitChar : ∀ d < 16, digitValue (Printf.digitChar false d) = some d := by
  decide

/-- What follows a piece of text: nothing or a space. -/
def Separated (rest : List UInt8) : Prop :=
  ∀ c ∈ rest.head?, c = ' '.toUInt8

variable {rest str : List UInt8}

theorem Separated.digitValue (h : Separated rest) :
    ∀ c ∈ rest.head?, digitValue c = none := by
  intro c hc
  rw [h c hc]
  decide

/-- The digits of a number are not taken for the `0x` of a hexadecimal one. -/
theorem charAt_one_numeral {b n : ℕ} (hb : 1 < b) (hb' : b ≤ 16) (h : Separated rest) :
    rtToupper (charAt (numeral b (Printf.digitChar false) n ++ rest) 1) ≠ 'X'.toUInt8 := by
  have hdigit : ∀ d < 16, rtToupper (Printf.digitChar false d) ≠ 'X'.toUInt8 := by decide
  have hmem : ∀ c ∈ numeral b (Printf.digitChar false) n, rtToupper c ≠ 'X'.toUInt8 := by
    intro c hc
    obtain ⟨d, hd, rfl⟩ := mem_numeral hb hc
    exact hdigit d (by omega)
  obtain ⟨cs, hcs⟩ := numeral_eq_cons (b := b) (n := n) (Printf.digitChar false)
  rw [hcs] at hmem ⊢
  cases cs with
  | cons c cs => exact hmem c (List.mem_cons_of_mem _ List.mem_cons_self)
  | nil =>
      cases rest with
      | nil => exact (by decide : rtToupper 0 ≠ 'X'.toUInt8)
      | cons c rest =>
          rw [h c rfl]
          exact (by decide : rtToupper ' '.toUInt8 ≠ 'X'.toUInt8)

/-- **A printed number is read back** in its base. -/
theorem strtoul_numeral {b : ℕ} (hb : b = 10 ∨ b = 16) (n : ℕ) (h : Separated rest) :
    simpleStrtoul (numeral b (Printf.digitChar false) n ++ rest) b = (BitVec.ofNat 32 n, rest) := by
  have hdigit : ∀ d < b, digitValue (Printf.digitChar false d) = some d := fun d hd =>
    digitValue_digitChar d (by omega)
  have hread := readNumeral_numeral (w := 32) (by omega) hdigit n h.digitValue
  rcases hb with rfl | rfl
  · exact hread
  · have hone := charAt_one_numeral (n := n) (by omega) (le_refl 16) h
    rw [simpleStrtoul, if_neg (by decide), if_pos rfl, if_neg (by simp [hone])]
    exact hread

theorem dropWhile_isspace_cons {c : UInt8} (h : isspace c = false) (str : List UInt8) :
    (c :: str).dropWhile isspace = c :: str := by
  rw [List.dropWhile_cons_of_neg]
  rw [h]
  exact Bool.false_ne_true

/-- An integer conversion ends the loop at a character that is neither white space nor a
decimal digit. -/
theorem scanInt_of_not_digit {qualifier : UInt8} {isSign : Bool} {base : ℕ} {s : State}
    {c : UInt8} (hstr : s.str = c :: str) (hspace : isspace c = false)
    (hdigit : rtIsdigit c = false) : scanInt qualifier isSign base s = leave s := by
  have hdrop : s.str.dropWhile isspace = s.str := by rw [hstr, dropWhile_isspace_cons hspace]
  have hhead : charAt s.str 0 = c := by
    rw [hstr]
    rfl
  rw [scanInt, hdrop, if_pos (.inr (by rw [hhead, hdigit]; rfl))]

/-- An integer conversion reads a printed number that begins with a decimal digit. -/
theorem scanInt_numeral {isSign : Bool} {b n : ℕ} (hb : b = 10 ∨ b = 16)
    (hlead : leadingDigit b n < 10) {s : State} (h : Separated rest)
    (hstr : s.str = numeral b (Printf.digitChar false) n ++ rest) :
    scanInt 0 isSign b s =
      ([.int32 (BitVec.ofNat 32 n)], true, { s with str := rest, num := s.num + 1 }) := by
  have hfirst : ∀ d < 10, isspace (Printf.digitChar false d) = false ∧
      rtIsdigit (Printf.digitChar false d) = true ∧ Printf.digitChar false d ≠ '-'.toUInt8 := by
    decide
  obtain ⟨hspace, hdigit, hminus⟩ := hfirst _ hlead
  obtain ⟨cs, hcs⟩ := numeral_eq_cons (b := b) (n := n) (Printf.digitChar false)
  have hcons : s.str = Printf.digitChar false (leadingDigit b n) :: (cs ++ rest) := by
    rw [hstr, hcs, List.cons_append]
  have hdrop : s.str.dropWhile isspace = s.str := by rw [hcons, dropWhile_isspace_cons hspace]
  have hhead : charAt s.str 0 = Printf.digitChar false (leadingDigit b n) := by
    rw [hcons]
    rfl
  have hread : simpleStrtoul s.str b = (BitVec.ofNat 32 n, rest) := by
    rw [hstr, strtoul_numeral hb n h]
  have hsigned : simpleStrtol s.str b = (BitVec.ofNat 32 n, rest) := by
    rw [simpleStrtol, hhead, if_neg hminus, hread]
  have hstore : storeInt 0 isSign b s.str = (.int32 (BitVec.ofNat 32 n), rest) := by
    rw [storeInt, hread, hsigned, ite_self]
    rfl
  have hgo : ¬ (s.str = [] ∨ (!rtIsdigit (charAt s.str 0)) = true) := by
    rw [hhead, hdigit, hcons]
    rintro (hnil | hnot)
    · cases hnil
    · cases hnot
  rw [scanInt, hdrop, if_neg hgo, hstore]

/-! ### Copying characters -/

/-- `%s` copies a word that the width has room for. -/
theorem copyWord_append {t : List UInt8} {width : ℤ} (hword : ∀ c ∈ t, isspace c = false)
    (h : Separated rest) (hwidth : t.length ≤ width) :
    copyWord (t ++ rest) width = (t, rest, width - t.length) := by
  induction t generalizing width with
  | nil =>
      rw [List.nil_append, List.length_nil, Int.natCast_zero, Int.sub_zero]
      cases rest with
      | nil => rfl
      | cons c rest =>
          rw [copyWord, h c rfl]
          rfl
  | cons c t ih =>
      rw [List.length_cons] at hwidth ⊢
      rw [List.cons_append, copyWord, hword c List.mem_cons_self,
        ih (fun d hd => hword d (List.mem_cons_of_mem c hd)) (by omega), if_neg Bool.false_ne_true,
        if_pos (by omega)]
      dsimp only
      rw [Nat.cast_succ, Int.sub_sub, Int.add_comm 1]

/-- Whatever the text, `%s` copies no white space and no more than the width. -/
theorem copyWord_spec (str : List UInt8) {width : ℤ} (hwidth : 0 ≤ width) :
    (∀ c ∈ (copyWord str width).1, isspace c = false) ∧ (copyWord str width).1.length ≤ width := by
  induction str generalizing width with
  | nil => exact ⟨fun c hc => absurd hc List.not_mem_nil, hwidth⟩
  | cons c str ih =>
      rw [copyWord]
      by_cases hspace : isspace c = true
      · rw [if_pos hspace]
        exact ⟨fun c hc => absurd hc List.not_mem_nil, hwidth⟩
      · rw [if_neg hspace]
        by_cases hzero : width ≠ 0
        · obtain ⟨hword, hlen⟩ := ih (show 0 ≤ width - 1 by omega)
          rw [if_pos hzero]
          dsimp only
          rw [List.length_cons, Nat.cast_succ]
          refine ⟨fun d hd => ?_, by omega⟩
          rcases List.mem_cons.mp hd with rfl | hd
          · exact Bool.eq_false_of_not_eq_true hspace
          · exact hword d hd
        · rw [if_neg hzero]
          exact ⟨fun c hc => absurd hc List.not_mem_nil, hwidth⟩

theorem copyChars_ne_nil (hstr : str ≠ []) (width : ℤ) :
    (copyChars str width).1 ≠ [] := by
  obtain ⟨c, str, rfl⟩ := List.exists_cons_of_ne_nil hstr
  rw [copyChars]
  split
  · exact List.cons_ne_nil _ _
  · exact List.cons_ne_nil _ _

/-- `%c` copies the last character alone. -/
theorem copyChars_singleton (c : UInt8) (width : ℤ) :
    copyChars [c] width = ([c], [], width - 1) :=
  if_neg fun h => h.2 rfl

/-- `%c` copies a second character when there is one. -/
theorem copyChars_length {c d : UInt8} {width : ℤ} (hwidth : 0 < width) :
    2 ≤ (copyChars (c :: d :: str) width).1.length := by
  have hne := copyChars_ne_nil (List.cons_ne_nil d str) (width - 1)
  rw [copyChars, if_pos ⟨hwidth, List.cons_ne_nil d str⟩]
  dsimp only
  rw [List.length_cons]
  have := List.length_pos_of_ne_nil hne
  omega

/-- Its first character is that of the text. -/
theorem head_copyChars (c : UInt8) (str : List UInt8) (width : ℤ) :
    (copyChars (c :: str) width).1.head? = some c := by
  rw [copyChars]
  split
  · rfl
  · rfl

end Scanf

end RtBoot
