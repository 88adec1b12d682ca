import Mathlib.Algebra.BigOperators.Ring.List
import Mathlib.Algebra.Order.BigOperators.Group.List
import RtBoot.Printf
import RtBoot.Scanf

/-!
# Reading Back Formatted Output

A format made of the conversions `%d`, `%u`, `%x`, `%s` and `%c` with single spaces between
them, and values for them: what does `rt_sscanf` with the same format make of the text that
`rt_sprintf` prints? The values are items, each a conversion with its value; strings have no
white space in them and are not empty, and characters are not white space.

Not every list of items is read back. An integer must begin with a decimal digit, which a
negative number and a hexadecimal number that begins with a letter do not. The loop of `%c`
copies two characters when there are two, so that a character must be the last item; and a NUL
ends the text. Byte `0xA0` is white space to `rt_sscanf`. `Item.Reads` says this of one item
and `AllRead` of a list.

The field width of a `%s` is used up by the strings that are read. It starts from the largest
`int`, so that this is never noticed in an address space that holds the text, the format and
the destinations at once.

## Main results

* `formatLoop_items`: what is printed.
* `Item.scan_good`, `Item.scan_bad`: the round of the loop that reads an item.
* `rtSscanf_rtSprintf_iff`: exactly which items are read back.
-/

namespace RtBoot

open Scanf

/-! ### Items -/

/-- A string that is not empty and has no white space. -/
structure Word where
  text : CString
  nonempty : text.bytes ≠ []
  noSpace : ∀ c ∈ text.bytes, rtIsspace c = false

/-- A conversion and its value. -/
inductive Item
  | d (v : BitVec 32)
  | u (v : BitVec 32)
  | x (v : BitVec 32)
  | s (t : Word)
  | c (b : UInt8) (h : rtIsspace b = false)

namespace Item

/-- The letter of the conversion. -/
def letter : Item → UInt8
  | d _ => 'd'.toUInt8
  | u _ => 'u'.toUInt8
  | x _ => 'x'.toUInt8
  | s _ => 's'.toUInt8
  | c _ _ => 'c'.toUInt8

/-- The conversion in the format. -/
def spec (i : Item) : List UInt8 :=
  ['%'.toUInt8, i.letter]

/-- The argument of `rt_sprintf`. -/
def arg : Item → Printf.Arg
  | d v => .word v
  | u v => .word v
  | x v => .word v
  | s t => .text (some t.text)
  | c b _ => .word (BitVec.ofNat 32 b.toNat)

/-- What `rt_sprintf` prints. -/
def output : Item → List UInt8
  | d v => Printf.printInt Printf.plain 10 true false v
  | u v => Printf.printInt Printf.plain 10 false false v
  | x v => Printf.printInt Printf.plain 16 false false v
  | s t => Printf.printString Printf.plain (some t.text)
  | c b _ => [b]

/-- What `rt_sscanf` has to store: the value, with the NUL of a string, and no byte more. -/
def store : Item → Store
  | d v => .int32 v
  | u v => .int32 v
  | x v => .int32 v
  | s t => .chars (t.text.bytes ++ [0])
  | c b _ => .chars [b]

/-- The bytes of the destination. -/
def size : Item → ℕ
  | s t => t.text.strlen + 1
  | c _ _ => 1
  | _ => 4

/-- The length of a string. -/
def wordLength : Item → ℕ
  | s t => t.text.strlen
  | _ => 0

/-- The item is read back, as the first one or not, as the last one or not. -/
def Reads (first last : Bool) : Item → Prop
  | d v => 0 ≤ v.toInt
  | u _ => True
  | x v => leadingDigit 16 v.toNat < 10
  | s t => 0xA0 ∉ t.text.bytes
  | c b _ => last ∧ b ≠ 0 ∧ (first ∨ b ≠ 0xA0)

instance (first last : Bool) : (i : Item) → Decidable (i.Reads first last)
  | d v => inferInstanceAs (Decidable (0 ≤ v.toInt))
  | u _ => inferInstanceAs (Decidable True)
  | x v => inferInstanceAs (Decidable (leadingDigit 16 v.toNat < 10))
  | s t => inferInstanceAs (Decidable (0xA0 ∉ t.text.bytes))
  | c b _ => inferInstanceAs (Decidable (last ∧ b ≠ 0 ∧ (first ∨ b ≠ 0xA0)))

end Item

/-- All items are read back, the first of them being the first item of the format or not. -/
def AllRead : Bool → List Item → Prop
  | _, [] => True
  | first, i :: items => i.Reads first items.isEmpty ∧ AllRead false items

/-- Pieces with a space before each. -/
def behindSpaces (ps : List (List UInt8)) : List UInt8 :=
  ps.flatMap (' '.toUInt8 :: ·)

/-- Pieces with single spaces between them. -/
def spaced : List (List UInt8) → List UInt8
  | [] => []
  | p :: ps => p ++ behindSpaces ps

theorem behindSpaces_cons (p : List UInt8) (ps : List (List UInt8)) :
    behindSpaces (p :: ps) = ' '.toUInt8 :: (p ++ behindSpaces ps) :=
  List.flatMap_cons

/-- The format of the items. -/
def formatOf (items : List Item) : List UInt8 :=
  spaced (items.map Item.spec)

/-- The text printed for the items. -/
def printedText (items : List Item) : List UInt8 :=
  spaced (items.map Item.output)

/-! ### Printing -/

/-- One conversion of the format. -/
theorem formatLoop_item (i : Item) (fuel : ℕ) (fmt : List UInt8) (args : List Printf.Arg) :
    Printf.formatLoop (fuel + 1) (i.spec ++ fmt) (i.arg :: args) =
      (Printf.formatLoop fuel fmt args).bind fun rest => some (i.output ++ rest) := by
  cases i with
  | d v => rfl
  | u v => rfl
  | x v => rfl
  | s t => rfl
  | c b h =>
      have hbyte : UInt8.ofNat (BitVec.ofNat 32 b.toNat).toNat = b := by
        have := b.toNat_lt
        rw [BitVec.toNat_ofNat, Nat.mod_eq_of_lt (by omega), UInt8.ofNat_toNat]
      change (Printf.formatLoop fuel fmt args).bind
        (fun rest => some ([UInt8.ofNat (BitVec.ofNat 32 b.toNat).toNat] ++ rest)) = _
      rw [hbyte]
      rfl

variable {fuel : ℕ} {v : BitVec 32} {i : Item} {items : List Item} {first : Bool} {st : State}
  {width : ℤ}

/-- The further items, each behind a space, by induction over them. -/
theorem formatLoop_tail (items : List Item)
    (hfuel : (behindSpaces (items.map Item.spec)).length < fuel) :
    Printf.formatLoop fuel (behindSpaces (items.map Item.spec)) (items.map Item.arg) =
      some (behindSpaces (items.map Item.output)) := by
  induction items generalizing fuel with
  | nil =>
      obtain ⟨fuel, rfl⟩ := Nat.exists_eq_succ_of_ne_zero (Nat.ne_zero_of_lt hfuel)
      rfl
  | cons i items ih =>
      rw [List.map_cons, behindSpaces_cons, List.length_cons, List.length_append] at hfuel
      have hspec : i.spec.length = 2 := rfl
      obtain ⟨fuel, rfl⟩ := Nat.exists_eq_add_of_le' (show 2 ≤ fuel by omega)
      rw [List.map_cons, List.map_cons, List.map_cons, behindSpaces_cons, behindSpaces_cons,
        Printf.formatLoop, if_pos (by decide), formatLoop_item, ih (by omega)]
      rfl

/-- **What is printed** for the items. -/
theorem formatLoop_items (items : List Item) (hfuel : (formatOf items).length < fuel) :
    Printf.formatLoop fuel (formatOf items) (items.map Item.arg) = some (printedText items) := by
  cases items with
  | nil =>
      obtain ⟨fuel, rfl⟩ := Nat.exists_eq_succ_of_ne_zero (Nat.ne_zero_of_lt hfuel)
      rfl
  | cons i items =>
      rw [formatOf, List.map_cons, spaced, List.length_append] at hfuel
      have hspec : i.spec.length = 2 := rfl
      obtain ⟨fuel, rfl⟩ := Nat.exists_eq_succ_of_ne_zero (Nat.ne_zero_of_lt hfuel)
      rw [formatOf, List.map_cons, List.map_cons, spaced, formatLoop_item,
        formatLoop_tail items (by omega)]
      rfl

/-! ### The printed pieces -/

namespace Item

theorem output_u (v : BitVec 32) : (u v).output = numeral 10 (Printf.digitChar false) v.toNat :=
  Printf.printNumber_plain v 10 false

theorem output_x (v : BitVec 32) : (x v).output = numeral 16 (Printf.digitChar false) v.toNat :=
  Printf.printNumber_plain v 16 false

theorem output_d (v : BitVec 32) :
    (d v).output = Printf.signChars v { sign := true } ++
      numeral 10 (Printf.digitChar false) (if v.msb then -v else v).toNat :=
  Printf.printNumber_plain v 10 true

theorem output_d_of_nonneg (h : 0 ≤ v.toInt) :
    (d v).output = numeral 10 (Printf.digitChar false) v.toNat := by
  have hmsb : v.msb = false := by
    rw [BitVec.msb_eq_toInt, decide_eq_false (by omega)]
  rw [output_d, Printf.signChars, hmsb]
  rfl

theorem output_d_of_neg (h : ¬ 0 ≤ v.toInt) :
    (d v).output = '-'.toUInt8 :: numeral 10 (Printf.digitChar false) (-v).toNat := by
  have hmsb : v.msb = true := by
    rw [BitVec.msb_eq_toInt, decide_eq_true (by omega)]
  rw [output_d, Printf.signChars, hmsb]
  rfl

theorem output_s {t : Word} (h : (s t).wordLength < 2147483648) : (s t).output = t.text.bytes :=
  Printf.printString_plain h

end Item

/-- No digit is a NUL. -/
theorem zero_notMem_numeral {b n : ℕ} (hb : 1 < b) (hb' : b ≤ 16) :
    0 ∉ numeral b (Printf.digitChar false) n := by
  have hdigit : ∀ d < 16, Printf.digitChar false d ≠ 0 := by decide
  intro h
  obtain ⟨d, hd, hzero⟩ := mem_numeral hb h
  exact hdigit d (by omega) hzero

theorem numeral_cons_not_space {b n : ℕ} (hb : 1 < b) (hb' : b ≤ 16) :
    ∃ c cs, numeral b (Printf.digitChar false) n = c :: cs ∧ isspace c = false := by
  have hdigit : ∀ d < 16, isspace (Printf.digitChar false d) = false := by decide
  have hlead := leadingDigit_lt (n := n) hb
  obtain ⟨cs, hcs⟩ := numeral_eq_cons (b := b) (n := n) (Printf.digitChar false)
  exact ⟨_, cs, hcs, hdigit _ (by omega)⟩

/-- Something is printed for each item. -/
theorem Item.output_ne_nil (hsmall : i.wordLength < 2147483648) : i.output ≠ [] := by
  cases i with
  | d v =>
      by_cases hv : 0 ≤ v.toInt
      · rw [output_d_of_nonneg hv]
        exact numeral_ne_nil _
      · rw [output_d_of_neg hv]
        exact List.cons_ne_nil _ _
  | u v =>
      rw [output_u]
      exact numeral_ne_nil _
  | x v =>
      rw [output_x]
      exact numeral_ne_nil _
  | s t =>
      rw [output_s hsmall]
      exact t.nonempty
  | c b h => exact List.cons_ne_nil _ _

/-- Only the character NUL prints a NUL. -/
theorem Item.zero_notMem_output (hsmall : i.wordLength < 2147483648)
    (h : ∀ hb, i ≠ .c 0 hb) : 0 ∉ i.output := by
  cases i with
  | d v =>
      by_cases hv : 0 ≤ v.toInt
      · rw [output_d_of_nonneg hv]
        exact zero_notMem_numeral (by omega) (by omega)
      · rw [output_d_of_neg hv]
        exact List.not_mem_cons_of_ne_of_not_mem (by decide)
          (zero_notMem_numeral (by omega) (by omega))
  | u v =>
      rw [output_u]
      exact zero_notMem_numeral (by omega) (by omega)
  | x v =>
      rw [output_x]
      exact zero_notMem_numeral (by omega) (le_refl 16)
  | s t =>
      rw [output_s hsmall]
      exact t.text.noNul
  | c b hb =>
      rintro hzero
      obtain rfl := List.mem_singleton.mp hzero
      exact h hb rfl

/-- The text of the further items, up to the first NUL. -/
def tailText (items : List Item) : List UInt8 :=
  (CString.upToNul (behindSpaces (items.map Item.output) ++ [0])).bytes

theorem tailText_cons (i : Item) (items : List Item) :
    tailText (i :: items) = ' '.toUInt8 ::
      (CString.upToNul (i.output ++ (behindSpaces (items.map Item.output) ++ [0]))).bytes := by
  rw [tailText, List.map_cons, behindSpaces_cons, List.cons_append, List.append_assoc]
  rfl

theorem tailText_separated (items : List Item) : Separated (tailText items) := by
  cases items with
  | nil =>
      intro c hc
      cases hc
  | cons i items =>
      rw [tailText_cons]
      intro c hc
      exact (Option.some.inj hc).symm

theorem tailText_eq_nil : tailText items = [] ↔ items = [] := by
  cases items with
  | nil => exact ⟨fun _ => rfl, fun _ => rfl⟩
  | cons i items =>
      rw [tailText_cons]
      exact ⟨fun h => absurd h (List.cons_ne_nil _ _), fun h => absurd h (List.cons_ne_nil _ _)⟩

theorem upToNul_item (hsmall : i.wordLength < 2147483648) (h : ∀ hb, i ≠ .c 0 hb) :
    (CString.upToNul (i.output ++ (behindSpaces (items.map Item.output) ++ [0]))).bytes =
      i.output ++ tailText items :=
  CString.bytes_upToNul_append (i.zero_notMem_output hsmall h) _

/-! ### Reading an item -/

namespace Item

/-- The conversion of the item, the format being behind its letter. -/
def scan (i : Item) (st : State) : Round :=
  match i with
  | d _ => scanInt 0 true 10 st
  | u _ => scanInt 0 false 10 st
  | x _ => scanInt 0 false 16 st
  | s _ => scanWord st
  | c _ _ => scanChars st

theorem body_spec (i : Item) (len : ℕ) {fmt str : List UInt8} (hstr : str ≠ []) (num width : ℤ) :
    body len ⟨i.spec ++ fmt, str, num, width⟩ = i.scan ⟨fmt, str, num, width⟩ := by
  have hgo : ∀ c : UInt8, ¬ (c :: fmt = [] ∨ str = []) := fun c h =>
    h.elim (List.cons_ne_nil c fmt) hstr
  cases i with
  | d v => exact if_neg (hgo _)
  | u v => exact if_neg (hgo _)
  | x v => exact if_neg (hgo _)
  | s t => exact if_neg (hgo _)
  | c b h => exact if_neg (hgo _)

theorem body_spec_nil (i : Item) (len : ℕ) (fmt : List UInt8) (num width : ℤ) :
    ∃ st, body len ⟨i.spec ++ fmt, [], num, width⟩ = leave st := by
  cases i with
  | d v => exact ⟨_, rfl⟩
  | u v => exact ⟨_, rfl⟩
  | x v => exact ⟨_, rfl⟩
  | s t => exact ⟨_, rfl⟩
  | c b h => exact ⟨_, rfl⟩

/-- A round that does not read the item: it ends the loop or stores something else. -/
def Spoiled (i : Item) (r : Round) : Prop :=
  (∃ st, r = leave st) ∨ ∃ w again st, r = ([w], again, st) ∧ w ≠ i.store

/-- A number is read back, when it begins with a decimal digit. -/
theorem scanInt_output {isSign : Bool} {b : ℕ} (hb : b = 10 ∨ b = 16)
    (hlead : leadingDigit b v.toNat < 10) {fmt rest : List UInt8} (h : Separated rest)
    (num width : ℤ) :
    scanInt 0 isSign b ⟨fmt, numeral b (Printf.digitChar false) v.toNat ++ rest, num, width⟩ =
      ([.int32 v], true, ⟨fmt, rest, num + 1, width⟩) := by
  rw [scanInt_numeral hb hlead h rfl, BitVec.ofNat_toNat, BitVec.setWidth_eq]

variable {b : UInt8}

/-- A word without byte `0xA0` has no white space for `rt_sscanf` either. -/
theorem isspace_of_mem {t : Word} (h : 0xA0 ∉ t.text.bytes) (hb : b ∈ t.text.bytes) :
    isspace b = false :=
  isspace_eq_false.mpr ⟨t.noSpace b hb, fun heq => h (heq ▸ hb)⟩

/-- **An item that reads is read** in its round of the loop. -/
theorem scan_good {last : Bool} (hreads : i.Reads first last)
    {rest : List UInt8} (hrest : Separated rest) (hlast : last = true → rest = [])
    (hsmall : i.wordLength < 2147483648) (hroom : i.wordLength < widthOr 2147483647 width)
    (fmt : List UInt8) (num : ℤ) :
    ∃ width', i.scan ⟨fmt, i.output ++ rest, num, width⟩ =
        ([i.store], true, ⟨fmt, rest, num + 1, width'⟩) ∧
      (last = false → widthOr 2147483647 width' = widthOr 2147483647 width - i.wordLength) := by
  cases i with
  | d v =>
      refine ⟨width, ?_, fun _ => (Int.sub_zero _).symm⟩
      rw [output_d_of_nonneg hreads]
      exact scanInt_output (.inl rfl) (leadingDigit_lt (by omega)) hrest num width
  | u v =>
      refine ⟨width, ?_, fun _ => (Int.sub_zero _).symm⟩
      rw [output_u]
      exact scanInt_output (.inl rfl) (leadingDigit_lt (by omega)) hrest num width
  | x v =>
      refine ⟨width, ?_, fun _ => (Int.sub_zero _).symm⟩
      rw [output_x]
      exact scanInt_output (.inr rfl) hreads hrest num width
  | s t =>
      refine ⟨widthOr 2147483647 width - t.text.strlen, ?_, fun _ => if_neg ?_⟩
      · obtain ⟨b, bytes, hbytes⟩ := List.exists_cons_of_ne_nil t.nonempty
        have hdrop : (t.text.bytes ++ rest).dropWhile isspace = t.text.bytes ++ rest := by
          rw [hbytes, List.cons_append]
          exact dropWhile_isspace_cons (isspace_of_mem hreads (hbytes ▸ List.mem_cons_self)) _
        have hcopy := copyWord_append (fun b hb => isspace_of_mem hreads hb) hrest
          (show (t.text.bytes.length : ℤ) ≤ widthOr 2147483647 width from hroom.le)
        rw [output_s hsmall, scan, scanWord, hdrop, hcopy]
        rfl
      · change (t.text.strlen : ℤ) < widthOr 2147483647 width at hroom
        omega
  | c b h =>
      obtain ⟨hlast', -, -⟩ := hreads
      rw [hlast hlast', List.append_nil]
      refine ⟨widthOr 1 width - 1, ?_, fun hnot => ?_⟩
      · rw [output, scan, scanChars, copyChars_singleton]
        rfl
      · exact absurd (hnot.symm.trans hlast') Bool.false_ne_true

/-- The text at the item when its conversion begins. White space in the format skips white
space. -/
def textAt (first : Bool) (i : Item) (items : List Item) : List UInt8 :=
  let str := (CString.upToNul (i.output ++ (behindSpaces (items.map output) ++ [0]))).bytes
  if first then str else str.dropWhile isspace

/-- What is printed for an item that reads begins with no white space. -/
theorem output_cons {last : Bool} (hreads : i.Reads false last)
    (hsmall : i.wordLength < 2147483648) :
    ∃ b bytes, i.output = b :: bytes ∧ isspace b = false := by
  cases i with
  | d v =>
      rw [output_d_of_nonneg hreads]
      exact numeral_cons_not_space (by omega) (by omega)
  | u v =>
      rw [output_u]
      exact numeral_cons_not_space (by omega) (by omega)
  | x v =>
      rw [output_x]
      exact numeral_cons_not_space (by omega) (le_refl 16)
  | s t =>
      obtain ⟨b, bytes, hbytes⟩ := List.exists_cons_of_ne_nil t.nonempty
      rw [output_s hsmall]
      exact ⟨b, bytes, hbytes, isspace_of_mem hreads (hbytes ▸ List.mem_cons_self)⟩
  | c b h =>
      obtain ⟨-, -, hfirst⟩ := hreads
      exact ⟨b, [], rfl, isspace_eq_false.mpr ⟨h, hfirst.resolve_left Bool.false_ne_true⟩⟩

/-- The text at an item that reads is what was printed for it and for the further items. -/
theorem textAt_of_reads
    (hreads : i.Reads first items.isEmpty) (hsmall : i.wordLength < 2147483648) :
    textAt first i items = i.output ++ tailText items := by
  have hnul : ∀ hb, i ≠ c 0 hb := by
    rintro hb rfl
    exact hreads.2.1 rfl
  rw [textAt, upToNul_item hsmall hnul]
  cases first with
  | true => rfl
  | false =>
      obtain ⟨b, bytes, hout, hspace⟩ := output_cons hreads hsmall
      rw [hout, List.cons_append, dropWhile_isspace_cons hspace]
      rfl

/-- A number that does not begin with a decimal digit ends the loop. -/
theorem scanInt_textAt {bytes : List UInt8} (hout : i.output = b :: bytes)
    (hsmall : i.wordLength < 2147483648) (hnul : ∀ hb, i ≠ c 0 hb) (hspace : isspace b = false)
    (hdigit : rtIsdigit b = false) (first isSign : Bool) (base : ℕ) (items : List Item)
    (fmt : List UInt8) (num width : ℤ) :
    ∃ st, scanInt 0 isSign base ⟨fmt, textAt first i items, num, width⟩ = leave st := by
  have htext : textAt first i items = b :: (bytes ++ tailText items) := by
    rw [textAt, upToNul_item hsmall hnul, hout, List.cons_append]
    cases first with
    | true => rfl
    | false => exact dropWhile_isspace_cons hspace _
  exact ⟨_, scanInt_of_not_digit htext hspace hdigit⟩

/-- A string with byte `0xA0` is not what `%s` copies. -/
theorem scanWord_spoiled {t : Word} (h : 0xA0 ∈ t.text.bytes)
    (hwidth : 0 ≤ widthOr 2147483647 st.fieldWidth) : (s t).Spoiled (scanWord st) := by
  obtain ⟨hword, -⟩ := copyWord_spec (st.str.dropWhile isspace) hwidth
  refine .inr ⟨_, true, _, rfl, ?_⟩
  intro heq
  have hbytes := List.append_cancel_right (Store.chars.inj heq)
  have := hword 0xA0 (hbytes ▸ h)
  exact absurd this (by decide)

/-- `%c` copies the one character `b` only from a text that is `b`. -/
theorem scanChars_spoiled {hb : rtIsspace b = false} (hstr : st.str ≠ [])
    (hne : st.str ≠ [b]) (hwidth : 0 < widthOr 1 st.fieldWidth) :
    (c b hb).Spoiled (scanChars st) := by
  refine .inr ⟨_, true, _, rfl, ?_⟩
  intro heq
  have hbytes : (copyChars st.str (widthOr 1 st.fieldWidth)).1 = [b] := Store.chars.inj heq
  obtain ⟨d, str, hd⟩ := List.exists_cons_of_ne_nil hstr
  rw [hd] at hbytes hne
  have hhead := head_copyChars d str (widthOr 1 st.fieldWidth)
  rw [hbytes] at hhead
  obtain rfl : b = d := Option.some.inj hhead
  cases str with
  | nil => exact hne rfl
  | cons e str =>
      have hlen : 2 ≤ (copyChars (b :: e :: str) _).1.length := copyChars_length hwidth
      rw [hbytes, List.length_singleton] at hlen
      omega

/-- The text at a character is the character alone only if it reads. -/
theorem reads_of_textAt {hb : rtIsspace b = false}
    (h : textAt first (c b hb) items = [b]) : (c b hb).Reads first items.isEmpty := by
  have hnul : b ≠ 0 := by
    rintro rfl
    cases first with
    | true => cases h
    | false => cases h
  have hsmall : (c b hb).wordLength < 2147483648 := Nat.zero_lt_succ _
  have hlast : (c b hb).output ++ tailText items = [b] → items.isEmpty = true := by
    intro heq
    rw [tailText_eq_nil.mp (List.cons.inj heq).2]
    rfl
  rw [textAt, upToNul_item hsmall fun _ heq => hnul (Item.c.inj heq)] at h
  cases first with
  | true => exact ⟨hlast h, hnul, .inl rfl⟩
  | false =>
      have hspace : isspace b = false := by
        have := List.head?_dropWhile_not isspace ((c b hb).output ++ tailText items)
        rwa [show ((c b hb).output ++ tailText items).dropWhile isspace = [b] from h] at this
      have hkeep := dropWhile_isspace_cons hspace (tailText items)
      exact ⟨hlast (hkeep.symm.trans h), hnul, .inr (isspace_eq_false.mp hspace).2⟩

/-- **An item that does not read** ends the loop in its round, or something else is stored. -/
theorem scan_bad (hreads : ¬ i.Reads first items.isEmpty) (hsmall : i.wordLength < 2147483648)
    (hroom : 0 < widthOr 2147483647 width) (hne : textAt first i items ≠ [])
    (fmt : List UInt8) (num : ℤ) :
    i.Spoiled (i.scan ⟨fmt, textAt first i items, num, width⟩) := by
  cases i with
  | d v =>
      exact .inl (scanInt_textAt (output_d_of_neg hreads) hsmall (fun hb => nofun) (by decide)
        (by decide) first true 10 items fmt num width)
  | u v => exact absurd trivial hreads
  | x v =>
      have hletter : ∀ d < 16, ¬ d < 10 → isspace (Printf.digitChar false d) = false ∧
          rtIsdigit (Printf.digitChar false d) = false := by decide
      obtain ⟨hspace, hdigit⟩ := hletter _ (leadingDigit_lt (by omega)) hreads
      obtain ⟨bytes, hbytes⟩ := numeral_eq_cons (b := 16) (n := v.toNat) (Printf.digitChar false)
      exact .inl (scanInt_textAt ((output_x v).trans hbytes) hsmall (fun hb => nofun) hspace hdigit
        first false 16 items fmt num width)
  | s t => exact scanWord_spoiled (not_not.mp hreads) hroom.le
  | c b h =>
      refine scanChars_spoiled hne (fun heq => hreads (reads_of_textAt heq)) ?_
      unfold widthOr at hroom ⊢
      split
      · exact Int.one_pos
      · next hwidth => rwa [if_neg hwidth] at hroom

end Item

/-! ### Reading all items -/

/-- The loop at an item: the first item of the format, or one behind a space. -/
def stateAt (first : Bool) (i : Item) (items : List Item) (num width : ℤ) : State :=
  let fmt := i.spec ++ behindSpaces (items.map Item.spec)
  let str := (CString.upToNul (i.output ++ (behindSpaces (items.map Item.output) ++ [0]))).bytes
  if first then ⟨fmt, str, num, width⟩ else ⟨' '.toUInt8 :: fmt, ' '.toUInt8 :: str, num, width⟩

theorem skipSpace_stateAt (first : Bool) (i : Item) (items : List Item) (num width : ℤ) :
    skipSpace (stateAt first i items num width) =
      ⟨i.spec ++ behindSpaces (items.map Item.spec), i.textAt first items, num, width⟩ := by
  cases first with
  | true => rfl
  | false => rfl

/-- The loop at the further items. -/
def tailState (items : List Item) (num width : ℤ) : State :=
  ⟨behindSpaces (items.map Item.spec), tailText items, num, width⟩

theorem tailState_cons (i : Item) (items : List Item) (num width : ℤ) :
    tailState (i :: items) num width = stateAt false i items num width := by
  rw [tailState, List.map_cons, behindSpaces_cons, tailText_cons]
  rfl

/-- The strings of the items. -/
def wordLengths (items : List Item) : ℕ :=
  (items.map Item.wordLength).sum

/-- A round that does not read its item spoils the result. -/
theorem loop_of_spoiled {len : ℕ}
    (h : i.Spoiled (body len (skipSpace st))) (num : ℤ) (stores : List Store) :
    vsscanfLoop len (fuel + 1) st ≠ some (num, i.store :: stores) := by
  intro heq
  rw [vsscanfLoop] at heq
  split at heq
  · cases heq
  · rcases h with ⟨st', hleave⟩ | ⟨w, again, st', hround, hne⟩
    · rw [hleave] at heq
      cases heq
    · rw [hround] at heq
      cases again with
      | false =>
          have := (Prod.mk.inj (Option.some.inj heq)).2
          exact hne (List.cons.inj this).1
      | true =>
          obtain ⟨⟨num', rest⟩, -, hrest⟩ := Option.bind_eq_some_iff.mp heq
          have := (Prod.mk.inj (Option.some.inj hrest)).2
          exact hne (List.cons.inj this).1

/-- A round that reads its item leaves the rest to the loop. -/
theorem loop_of_read {len : ℕ} {st' : State} {w : Store} (hfmt : st.fmt ≠ [])
    (hstr : st.str ≠ []) (h : body len (skipSpace st) = ([w], true, st')) (num : ℤ)
    (stores : List Store) :
    vsscanfLoop len (fuel + 1) st = some (num, w :: stores) ↔
      vsscanfLoop len fuel st' = some (num, stores) := by
  rw [vsscanfLoop, if_neg (fun hnil => hnil.elim hfmt hstr), h]
  constructor
  · intro heq
    obtain ⟨⟨num', rest⟩, hloop, hrest⟩ := Option.bind_eq_some_iff.mp heq
    obtain ⟨rfl, hcons⟩ := Prod.mk.inj (Option.some.inj hrest)
    have hstores : rest = stores := (List.cons.inj hcons).2
    rw [hloop, hstores]
  · intro hloop
    exact Option.bind_eq_some_iff.mpr ⟨_, hloop, rfl⟩

section
variable {len fuel : ℕ} {items : List Item}

/-- The item at hand is read and so are the further ones, or the result is spoiled. -/
theorem loop_item {num : ℤ} (hsmall : i.wordLength < 2147483648)
    (hsum : i.wordLength + wordLengths items < widthOr 2147483647 width)
    (htail : ∀ num width, (items.isEmpty = false →
        wordLengths items < widthOr 2147483647 width) →
      (vsscanfLoop len fuel (tailState items num width) =
        some (num + items.length, items.map Item.store) ↔ AllRead false items)) :
    vsscanfLoop len (fuel + 1) (stateAt first i items num width) =
        some (num + (items.length + 1), i.store :: items.map Item.store) ↔
      AllRead first (i :: items) := by
  by_cases hreads : i.Reads first items.isEmpty
  · have htext := Item.textAt_of_reads hreads hsmall
    have hne : i.textAt first items ≠ [] := by
      rw [htext]
      exact List.append_ne_nil_of_left_ne_nil (Item.output_ne_nil hsmall) _
    have hfmt : (stateAt first i items num width).fmt ≠ [] := by
      cases first with
      | true => exact List.cons_ne_nil _ _
      | false => exact List.cons_ne_nil _ _
    have hstr : (stateAt first i items num width).str ≠ [] := by
      cases first with
      | true => exact hne
      | false => exact List.cons_ne_nil _ _
    obtain ⟨width', hscan, hwidth⟩ := Item.scan_good hreads (tailText_separated items)
      (fun hlast => tailText_eq_nil.mpr (List.isEmpty_iff.mp hlast)) hsmall
      (show (i.wordLength : ℤ) < widthOr 2147483647 width by omega)
      (behindSpaces (items.map Item.spec)) num
    have hbody : body len (skipSpace (stateAt first i items num width)) =
        ([i.store], true, tailState items (num + 1) width') := by
      rw [skipSpace_stateAt, Item.body_spec i len hne, htext, hscan]
      rfl
    have hrest := htail (num + 1) width' fun hempty => by
      rw [hwidth hempty]
      omega
    rw [loop_of_read hfmt hstr hbody, ← Int.add_assoc, Int.add_right_comm, hrest]
    exact ⟨fun h => ⟨hreads, h⟩, fun h => h.2⟩
  · refine iff_of_false (loop_of_spoiled ?_ _ _) fun h => hreads h.1
    rw [skipSpace_stateAt]
    by_cases hne : i.textAt first items = []
    · rw [hne]
      exact .inl (i.body_spec_nil len _ num width)
    · rw [Item.body_spec i len hne]
      exact Item.scan_bad hreads hsmall (by omega) hne _ num

/-- The further items, by induction over them. -/
theorem loop_tail (hfuel : (behindSpaces (items.map Item.spec)).length < fuel) {num : ℤ}
    (hsmall : ∀ i ∈ items, i.wordLength < 2147483648)
    (hsum : items.isEmpty = false → wordLengths items < widthOr 2147483647 width) :
    vsscanfLoop len fuel (tailState items num width) =
      some (num + items.length, items.map Item.store) ↔ AllRead false items := by
  induction items generalizing fuel num width with
  | nil =>
      obtain ⟨fuel, rfl⟩ := Nat.exists_eq_succ_of_ne_zero (Nat.ne_zero_of_lt hfuel)
      refine iff_of_true ?_ trivial
      rw [vsscanfLoop, if_pos (.inl rfl), List.length_nil, Int.natCast_zero, Int.add_zero]
      rfl
  | cons i items ih =>
      rw [List.map_cons, behindSpaces_cons, List.length_cons, List.length_append] at hfuel
      obtain ⟨fuel, rfl⟩ := Nat.exists_eq_succ_of_ne_zero (Nat.ne_zero_of_lt hfuel)
      have hsum' := hsum rfl
      rw [wordLengths, List.map_cons, List.sum_cons, Nat.cast_add] at hsum'
      rw [tailState_cons, List.length_cons, Nat.cast_succ, List.map_cons]
      refine loop_item (hsmall i List.mem_cons_self) hsum' fun num width hwidth => ?_
      exact ih (by omega) (fun j hj => hsmall j (List.mem_cons_of_mem i hj)) hwidth

/-- All items, from the first. -/
theorem loop_first (hfuel : (behindSpaces (items.map Item.spec)).length < fuel)
    (hsmall : ∀ j ∈ i :: items, j.wordLength < 2147483648)
    (hsum : wordLengths (i :: items) < 2147483647) :
    vsscanfLoop len (fuel + 1) (stateAt true i items 0 (-1)) =
      some (((i :: items).length : ℤ), (i :: items).map Item.store) ↔
      AllRead true (i :: items) := by
  have hwidth : widthOr 2147483647 (-1) = 2147483647 := rfl
  rw [wordLengths, List.map_cons, List.sum_cons] at hsum
  rw [List.length_cons, Nat.cast_succ, List.map_cons, ← Int.zero_add ((items.length : ℤ) + 1)]
  refine loop_item (hsmall i List.mem_cons_self) ?_ fun num width hroom => ?_
  · rw [hwidth, wordLengths]
    omega
  · exact loop_tail hfuel (fun j hj => hsmall j (List.mem_cons_of_mem i hj)) hroom

/-- `rt_sscanf` on the printed text is the loop at the first item. -/
theorem rtSscanf_eq_loop (i : Item) (items : List Item) :
    rtSscanf (printedText (i :: items) ++ [0]) (formatOf (i :: items)) =
      vsscanfLoop (stateAt true i items 0 (-1)).str.length ((formatOf (i :: items)).length + 1)
        (stateAt true i items 0 (-1)) := by
  have htext : printedText (i :: items) ++ [0] =
      i.output ++ (behindSpaces (items.map Item.output) ++ [0]) := List.append_assoc _ _ _
  rw [rtSscanf, htext]
  rfl

end

/-! ### The memory of the texts -/

/-- The printed text and the destination of an item bound its string. -/
theorem Item.wordLength_le (h : i.output.length + i.size < 4294967296) :
    i.wordLength < 2147483648 ∧ 2 * i.wordLength ≤ i.output.length + i.size := by
  cases i with
  | d v => exact ⟨Nat.zero_lt_succ _, Nat.zero_le _⟩
  | u v => exact ⟨Nat.zero_lt_succ _, Nat.zero_le _⟩
  | x v => exact ⟨Nat.zero_lt_succ _, Nat.zero_le _⟩
  | c b hb => exact ⟨Nat.zero_lt_succ _, Nat.zero_le _⟩
  | s t =>
      have hsize : (s t).size = t.text.strlen + 1 := rfl
      have hword : (s t).wordLength = t.text.strlen := rfl
      have hsmall : t.text.strlen < 2147483648 := by
        by_contra hlarge
        have hlen := Printf.length_printString_plain (s := t.text) (by omega) (by omega)
        rw [show (s t).output = Printf.printString Printf.plain (some t.text) from rfl] at h
        omega
      have hlen : (s t).output.length = t.text.strlen := by rw [output_s hsmall, CString.strlen]
      omega

theorem sum_output_le_behindSpaces (items : List Item) :
    (items.map fun i => i.output.length).sum ≤ (behindSpaces (items.map Item.output)).length := by
  induction items with
  | nil => exact Nat.le_refl 0
  | cons i items ih =>
      rw [List.map_cons, List.map_cons, behindSpaces_cons, List.sum_cons, List.length_cons,
        List.length_append]
      omega

theorem sum_output_le (items : List Item) :
    (items.map fun i => i.output.length).sum ≤ (printedText items).length := by
  cases items with
  | nil => exact Nat.le_refl 0
  | cons i items =>
      have := sum_output_le_behindSpaces items
      rw [printedText, List.map_cons, List.map_cons, spaced, List.sum_cons, List.length_append]
      omega

/-- Where the text and the destinations have their place in memory beside some further bytes,
the field width is never used up. -/
theorem wordLengths_lt
    (h : (printedText items).length + (items.map Item.size).sum + 4 ≤ 4294967296) :
    (∀ i ∈ items, i.wordLength < 2147483648) ∧ wordLengths items < 2147483647 := by
  have hsum : (items.map fun i => i.output.length + i.size).sum + 4 ≤ 4294967296 := by
    have := sum_output_le items
    rw [List.sum_map_add]
    omega
  have hitem : ∀ i ∈ items, i.output.length + i.size < 4294967296 := by
    intro i hi
    have := List.le_sum_of_mem (List.mem_map_of_mem (f := fun i => i.output.length + i.size) hi)
    omega
  refine ⟨fun i hi => (Item.wordLength_le (hitem i hi)).1, ?_⟩
  have hdouble : (items.map fun i => 2 * i.wordLength).sum ≤
      (items.map fun i => i.output.length + i.size).sum :=
    List.sum_le_sum fun i hi => (Item.wordLength_le (hitem i hi)).2
  rw [List.sum_map_mul_left] at hdouble
  unfold wordLengths
  omega

/-- **Which items are read back**: printed with their format and read with it, all values are
stored, none of them with a byte more than it needs, exactly when each item reads. The buffer
has room for the text, below the last byte of memory, and memory has room for the text, the
format and the destinations. -/
theorem rtSscanf_rtSprintf_iff (items : List Item) {buf : BitVec 32}
    (hroom : buf.toNat + (printedText items).length < 0xFFFFFFFF)
    (hmem : (printedText items).length + 1 + ((formatOf items).length + 1) +
      (items.map Item.size).sum ≤ 2 ^ 32) :
    (∃ n text, Printf.rtSprintf buf (formatOf items) (items.map Item.arg) = some (n, text) ∧
        rtSscanf text (formatOf items) = some ((items.length : ℤ), items.map Item.store)) ↔
      AllRead true items := by
  have hprint := Printf.rtSprintf_eq (formatLoop_items items (Nat.lt_succ_self _)) hroom
  have hscan : rtSscanf (printedText items ++ [0]) (formatOf items) =
      some ((items.length : ℤ), items.map Item.store) ↔ AllRead true items := by
    cases items with
    | nil => exact iff_of_true rfl trivial
    | cons i items =>
        have hlen : (formatOf (i :: items)).length =
            2 + (behindSpaces (items.map Item.spec)).length := List.length_append
        obtain ⟨hsmall, hwords⟩ := wordLengths_lt (show (printedText (i :: items)).length +
          ((i :: items).map Item.size).sum + 4 ≤ 4294967296 by omega)
        rw [rtSscanf_eq_loop]
        exact loop_first (by omega) hsmall hwords
  constructor
  · rintro ⟨n, text, htext, hread⟩
    rw [hprint] at htext
    obtain ⟨-, rfl⟩ := Prod.mk.inj (Option.some.inj htext)
    exact hscan.mp hread
  · intro h
    exact ⟨_, _, hprint, hscan.mpr h⟩

/-- A string of two letters. -/
def sampleWord : Word where
  text := ⟨['a'.toUInt8, 'b'.toUInt8], by decide⟩
  nonempty := List.cons_ne_nil _ _
  noSpace := List.forall_mem_cons.mpr ⟨rfl, List.forall_mem_singleton.mpr rfl⟩

/-- The largest `int`, a hexadecimal number, a string and a character. -/
def sampleItems : List Item :=
  [.d 2147483647, .x 0x1F, .s sampleWord, .c 'z'.toUInt8 rfl]

theorem rtSscanf_sampleItems :
    ∃ n text, Printf.rtSprintf 0x80000000 (formatOf sampleItems) (sampleItems.map Item.arg) =
        some (n, text) ∧
      rtSscanf text (formatOf sampleItems) =
        some ((sampleItems.length : ℤ), sampleItems.map Item.store) :=
  (rtSscanf_rtSprintf_iff sampleItems (by decide) (by decide)).mpr
    ⟨by decide, by decide, by decide, by decide, trivial⟩

/-- A negative number and a hexadecimal one that begins with a letter are not read, and the
first of two characters takes the space behind it along. -/
theorem rtSscanf_not_read_back :
    (Printf.rtSprintf 0x80000000 (ascii "%d") [.word (-1)] = some (2, ascii "-1" ++ [0]) ∧
        rtSscanf (ascii "-1" ++ [0]) (ascii "%d") = some (0, [])) ∧
      (Printf.rtSprintf 0x80000000 (ascii "%x") [.word 10] = some (1, ascii "a" ++ [0]) ∧
        rtSscanf (ascii "a" ++ [0]) (ascii "%x") = some (0, [])) ∧
      Printf.rtSprintf 0x80000000 (ascii "%c %c") [.word 97, .word 98] =
          some (3, ascii "a b" ++ [0]) ∧
        rtSscanf (ascii "a b" ++ [0]) (ascii "%c %c") =
          some (2, [.chars (ascii "a "), .chars (ascii "b")]) := by
  refine ⟨⟨?_, rfl⟩, ⟨?_, rfl⟩, ?_, rfl⟩
  · decide +kernel
  · decide +kernel
  · decide +kernel

end RtBoot
