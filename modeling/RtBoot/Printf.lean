import RtBoot.CString
import RtBoot.Machine
import RtBoot.Numeral

/-!
# Formatted Output

`rt_vsnprintf` of the kernel, with the precision of conversions and without `long long` and
the `0x` of the `#` flag, as it is built. A conversion is read in parts: flags, field width,
precision, qualifier, letter. The width and the precision may come from the arguments.

The functions below compute the characters that are put out one after the other; the function
itself stores those that the buffer has room for and a NUL. `rt_sprintf` passes the largest
size, which makes the end of the buffer the last byte of the address space. An argument that
is missing or is not of the type the conversion takes makes the result `none`.

Field widths and precisions are mathematical integers once they are read, and the counting
loops of the code (`while (size-- > 0)`) are counts: the characters they put out and the value
they leave.

## Main results

* `printNumber_plain`: what an integer conversion without flags, width and precision prints.
* `rtSprintf_eq`: the text and its NUL, when there is room.
-/

namespace RtBoot

/-- `rt_isdigit`. -/
def rtIsdigit (c : UInt8) : Bool :=
  48 ≤ c && c ≤ 57

namespace Printf

/-- The flags of a conversion. -/
structure Flags where
  zeropad : Bool := false
  sign : Bool := false
  plus : Bool := false
  space : Bool := false
  left : Bool := false
  special : Bool := false
  large : Bool := false

/-- An argument: a word or a pointer to a string, which may be null. -/
inductive Arg
  | word (w : BitVec 32)
  | text (s : Option CString)

/-! ### Numbers -/

/-- The number `divide` divides by. -/
def divisor (base : ℕ) : ℕ :=
  if base = 10 then 10 else 16

/-- `small_digits` and `large_digits`. -/
def digitChar (large : Bool) (d : ℕ) : UInt8 :=
  UInt8.ofNat (if d < 10 then 48 + d else if large then 55 + d else 87 + d)

/-- The characters of a loop `while (size-- > 0)`. -/
def padding (c : UInt8) (size : ℤ) : List UInt8 :=
  List.replicate size.toNat c

/-- What such a loop leaves in `size`. -/
def padded (size : ℤ) : ℤ :=
  min size 0 - 1

/-- The sign `print_number` puts before the digits. -/
def signChars (num : BitVec 32) (type : Flags) : List UInt8 :=
  if type.sign then
    if num.msb then ['-'.toUInt8]
    else if type.plus then ['+'.toUInt8]
    else if type.space then [' '.toUInt8]
    else []
  else []

/-- `print_number`. -/
def printNumber (num : BitVec 32) (base : ℕ) (s precision : ℤ) (type : Flags) : List UInt8 :=
  let zeropad := type.zeropad && !type.left
  let c := if zeropad then '0'.toUInt8 else ' '.toUInt8
  let sign := signChars num type
  let num := if type.sign && num.msb then -num else num
  let digits := numeral (divisor base) (digitChar type.large) num.toNat
  let i : ℤ := digits.length
  let size := s - max i precision
  -- spaces before the sign, unless the number is filled with zeros or to the right
  let before := if sign ≠ [] ∧ 0 < size then size - 1 else size
  let (spaces, size) :=
    if zeropad || type.left then ([], size) else (padding ' '.toUInt8 before, padded before)
  let size := size - sign.length
  let (fill, size) := if type.left then ([], size) else (padding c size, padded size)
  spaces ++ sign ++ fill ++ padding '0'.toUInt8 (max i precision - i) ++
    (if precision ≠ 0 then digits else []) ++ padding ' '.toUInt8 size

/-! ### The parts of a conversion -/

/-- The loop over the flags. -/
def flagsLoop : List UInt8 → Flags → Flags × List UInt8
  | [], flags => (flags, [])
  | c :: fmt, flags =>
      if c = '-'.toUInt8 then flagsLoop fmt { flags with left := true }
      else if c = '+'.toUInt8 then flagsLoop fmt { flags with plus := true }
      else if c = ' '.toUInt8 then flagsLoop fmt { flags with space := true }
      else if c = '#'.toUInt8 then flagsLoop fmt { flags with special := true }
      else if c = '0'.toUInt8 then flagsLoop fmt { flags with zeropad := true }
      else (flags, c :: fmt)

/-- `skip_atoi`. -/
def skipAtoi : List UInt8 → ℤ → ℤ × List UInt8
  | [], i => (i, [])
  | c :: s, i => if rtIsdigit c then skipAtoi s (i32 (i * 10 + c.toNat - 48)) else (i, c :: s)

/-- A number in the format, or `*` for one from the arguments; `absent` when there is neither. -/
def numberOrStar (absent : ℤ) (fmt : List UInt8) (args : List Arg) :
    Option (ℤ × List UInt8 × List Arg) :=
  match fmt with
  | [] => some (absent, [], args)
  | c :: fmt' =>
      if rtIsdigit c then
        let (i, rest) := skipAtoi fmt 0
        some (i, rest, args)
      else if c = '*'.toUInt8 then
        match args with
        | .word w :: args => some (w.toInt, fmt', args)
        | _ => none
      else some (absent, fmt, args)

/-- A conversion up to its letter. -/
structure Spec where
  flags : Flags
  fieldWidth : ℤ
  precision : ℤ
  qualifier : Option UInt8

/-- The precision. -/
def parsePrecision (fmt : List UInt8) (args : List Arg) : Option (ℤ × List UInt8 × List Arg) :=
  match fmt with
  | [] => some (-1, [], args)
  | c :: fmt' =>
      if c = '.'.toUInt8 then do
        let (precision, fmt, args) ← numberOrStar (-1) fmt' args
        some (max precision 0, fmt, args)
      else some (-1, fmt, args)

/-- The qualifier. -/
def parseQualifier : List UInt8 → Option UInt8 × List UInt8
  | [] => (none, [])
  | c :: fmt =>
      if c = 'h'.toUInt8 ∨ c = 'l'.toUInt8 then (some c, fmt) else (none, c :: fmt)

/-- Flags, field width, precision and qualifier. A negative width from the arguments is the
width of a field filled to the right. -/
def parseSpec (fmt : List UInt8) (args : List Arg) : Option (Spec × List UInt8 × List Arg) := do
  let (flags, fmt) := flagsLoop fmt {}
  let (width, fmt', args) ← numberOrStar (-1) fmt args
  let star := fmt.head? = some '*'.toUInt8 ∧ width < 0
  let flags := if star then { flags with left := true } else flags
  let width := if star then i32 (-width) else width
  let (precision, fmt, args) ← parsePrecision fmt' args
  let (qualifier, fmt) := parseQualifier fmt
  some (⟨flags, width, precision, qualifier⟩, fmt, args)

/-! ### Conversions -/

/-- `%c`. -/
def printChar (p : Spec) (c : UInt8) : List UInt8 :=
  let before := if p.flags.left then [] else padding ' '.toUInt8 (p.fieldWidth - 1)
  let width := if p.flags.left then p.fieldWidth else min (p.fieldWidth - 1) 0
  before ++ [c] ++ padding ' '.toUInt8 (width - 1)

/-- `%s`. The length is an `int`. -/
def printString (p : Spec) (s : Option CString) : List UInt8 :=
  let bytes := match s with
    | some s => s.bytes
    | none => ascii "(NULL)"
  let len := i32 bytes.length
  let len := if 0 < p.precision ∧ p.precision < len then p.precision else len
  let before := if p.flags.left then [] else padding ' '.toUInt8 (p.fieldWidth - len)
  let width := if p.flags.left then p.fieldWidth else min p.fieldWidth len - 1
  before ++ bytes.take len.toNat ++ padding ' '.toUInt8 (width - len)

/-- The number an integer conversion takes from its argument. -/
def intArg (p : Spec) (sign : Bool) (w : BitVec 32) : BitVec 32 :=
  if p.qualifier = some 'h'.toUInt8 then
    if sign then (w.setWidth 16).signExtend 32 else (w.setWidth 16).setWidth 32
  else w

/-- An integer conversion. -/
def printInt (p : Spec) (base : ℕ) (sign large : Bool) (w : BitVec 32) : List UInt8 :=
  printNumber (intArg p sign w) base p.fieldWidth p.precision
    { p.flags with sign := sign, large := large }

/-- The conversion with the letter at the head of the format: what it puts out, and the format
and the arguments that are left. -/
def convert (p : Spec) (fmt : List UInt8) (args : List Arg) :
    Option (List UInt8 × List UInt8 × List Arg) :=
  match fmt with
  | [] => some (['%'.toUInt8], [], args)
  | letter :: fmt =>
      let wordConversion (print : BitVec 32 → List UInt8) :=
        match args with
        | .word w :: args => some (print w, fmt, args)
        | _ => none
      if letter = 'c'.toUInt8 then wordConversion fun w => printChar p (UInt8.ofNat w.toNat)
      else if letter = 's'.toUInt8 then
        match args with
        | .text s :: args => some (printString p s, fmt, args)
        | _ => none
      else if letter = 'p'.toUInt8 then wordConversion fun w =>
        if p.fieldWidth = -1 then printNumber w 16 8 p.precision { p.flags with zeropad := true }
        else printNumber w 16 p.fieldWidth p.precision p.flags
      else if letter = '%'.toUInt8 then some (['%'.toUInt8], fmt, args)
      else if letter = 'o'.toUInt8 then wordConversion (printInt p 8 false false)
      else if letter = 'X'.toUInt8 then wordConversion (printInt p 16 false true)
      else if letter = 'x'.toUInt8 then wordConversion (printInt p 16 false false)
      else if letter = 'd'.toUInt8 ∨ letter = 'i'.toUInt8 then
        wordConversion (printInt p 10 true false)
      else if letter = 'u'.toUInt8 then wordConversion (printInt p 10 false false)
      else some (['%'.toUInt8, letter], fmt, args)

/-- The loop of `rt_vsnprintf` over the format: all characters that are put out. -/
def formatLoop : ℕ → List UInt8 → List Arg → Option (List UInt8)
  | 0, _, _ => none
  | _ + 1, [], _ => some []
  | fuel + 1, c :: fmt, args =>
      if c ≠ '%'.toUInt8 then do
        let out ← formatLoop fuel fmt args
        some (c :: out)
      else do
        let (p, fmt, args) ← parseSpec fmt args
        let (out, fmt, args) ← convert p fmt args
        let rest ← formatLoop fuel fmt args
        some (out ++ rest)

/-! ### Buffers -/

/-- The bytes stored in a buffer of `size` bytes: those there is room for, and a NUL. -/
def stored (size : ℕ) (out : List UInt8) : List UInt8 :=
  if size = 0 then []
  else if out.length < size then out ++ [0]
  else out.take (size - 1) ++ [0]

/-- `rt_vsnprintf`: the length it returns and the bytes it stores from `buf` on. -/
def rtVsnprintf (buf size : BitVec 32) (fmt : List UInt8) (args : List Arg) :
    Option (ℤ × List UInt8) := do
  let size := if buf + size < buf then 4294967295 - buf else size
  let out ← formatLoop (fmt.length + 1) fmt args
  some (i32 out.length, stored size.toNat out)

/-- `rt_sprintf` and `rt_vsprintf`. -/
def rtSprintf (buf : BitVec 32) (fmt : List UInt8) (args : List Arg) :
    Option (ℤ × List UInt8) :=
  rtVsnprintf buf 0xFFFFFFFF fmt args

/-! ### Conversions of a letter alone -/

/-- A conversion of its letter alone. -/
def plain : Spec :=
  ⟨{}, -1, -1, none⟩

/-- Nothing is padded once the width is used up. -/
theorem padding_of_nonpos {c : UInt8} {size : ℤ} (h : size ≤ 0) : padding c size = [] := by
  rw [padding, Int.toNat_of_nonpos h, List.replicate_zero]

/-- The counter is negative after a padding loop. -/
theorem padded_neg (size : ℤ) : padded size < 0 := by
  unfold padded
  omega

/-- Without width and precision a number is its sign and its digits. -/
theorem printNumber_plain (num : BitVec 32) (base : ℕ) (sign : Bool) :
    printNumber num base (-1) (-1) { sign := sign } =
      signChars num { sign := sign } ++
        numeral (divisor base) (digitChar false) (if sign && num.msb then -num else num).toNat := by
  set digits := numeral (divisor base) (digitChar false)
    (if sign && num.msb then -num else num).toNat with hdigits
  have hmax : max (digits.length : ℤ) (-1) = digits.length := max_eq_left (by omega)
  have hbefore : ¬ (signChars num { sign := sign } ≠ [] ∧ (0 : ℤ) < -1 - digits.length) := by
    omega
  unfold printNumber
  simp only [← hdigits, hmax, if_neg hbefore]
  change padding _ (-1 - digits.length) ++ signChars num { sign := sign } ++
      padding _ (padded (-1 - digits.length) - (signChars num { sign := sign }).length) ++
      padding _ (digits.length - digits.length) ++ digits ++
      padding _ (padded (padded (-1 - digits.length) - (signChars num { sign := sign }).length)) =
    signChars num { sign := sign } ++ digits
  have hneg := padded_neg (-1 - digits.length)
  rw [padding_of_nonpos (by omega), padding_of_nonpos (by omega), padding_of_nonpos (by omega),
    padding_of_nonpos (padded_neg _).le, List.nil_append, List.append_nil, List.append_nil,
    List.append_nil]

/-- What `%s` prints of a string whose length is `len` as an `int`. -/
theorem printString_plain_eq {s : CString} {len : ℤ} (h : i32 s.strlen = len) :
    printString plain (some s) = padding ' '.toUInt8 (-1 - len) ++ s.bytes.take len.toNat := by
  have hwidth : padding ' '.toUInt8 (min (-1) len - 1 - len) = [] :=
    padding_of_nonpos (by omega)
  rw [CString.strlen] at h
  unfold printString
  simp only [h]
  change padding _ (-1 - len) ++ s.bytes.take len.toNat ++ padding _ (min (-1) len - 1 - len) = _
  rw [hwidth, List.append_nil]

/-- A string that an `int` can count is printed as it is. -/
theorem printString_plain {s : CString} (h : s.strlen < 2147483648) :
    printString plain (some s) = s.bytes := by
  rw [printString_plain_eq (i32_natCast_of_lt h), padding_of_nonpos (by omega), Int.toNat_natCast,
    List.nil_append]
  exact List.take_length

/-- A longer one is not printed at all: spaces stand for it, as many as its length as an `int`
is below the width. -/
theorem length_printString_plain {s : CString} (h : 2147483648 ≤ s.strlen)
    (hlt : s.strlen < 4294967296) :
    (printString plain (some s)).length = 4294967295 - s.strlen := by
  have hlen : i32 s.strlen = s.strlen - 4294967296 := by
    unfold i32
    rw [Int.bmod_def]
    split <;> omega
  rw [printString_plain_eq hlen, padding, List.length_append, List.length_replicate,
    List.length_take]
  omega

/-- Characters of the format outside conversions are put out as they are. -/
theorem formatLoop_literal {text : List UInt8} (h : '%'.toUInt8 ∉ text) (fuel : ℕ)
    (fmt : List UInt8) (args : List Arg) :
    formatLoop (text.length + fuel) (text ++ fmt) args =
      (formatLoop fuel fmt args).map (text ++ ·) := by
  induction text with
  | nil =>
      rw [List.length_nil, Nat.zero_add]
      exact (congrFun Option.map_id _).symm
  | cons c text ih =>
      rw [List.mem_cons, not_or] at h
      rw [List.length_cons, Nat.succ_add, List.cons_append, formatLoop, if_pos (Ne.symm h.1),
        ih h.2]
      cases formatLoop fuel fmt args with
      | none => rfl
      | some out => rfl

/-- **What `rt_sprintf` stores** when the text ends below the last byte of memory. -/
theorem rtSprintf_eq {buf : BitVec 32} {fmt : List UInt8} {args : List Arg} {out : List UInt8}
    (hformat : formatLoop (fmt.length + 1) fmt args = some out)
    (hroom : buf.toNat + out.length < 4294967295) :
    rtSprintf buf fmt args = some (i32 out.length, out ++ [0]) := by
  have hsize : (if buf + 0xFFFFFFFF < buf then 4294967295 - buf else 0xFFFFFFFF).toNat =
      4294967295 - buf.toNat := by
    split
    · bv_omega
    · bv_omega
  rw [rtSprintf, rtVsnprintf, hformat, Option.bind_eq_bind, Option.bind_some, hsize, stored,
    if_neg (by omega), if_pos (by omega)]

end Printf

end RtBoot
