import RtBoot.Upload

/-!
# What the Multipart Header Parser Accesses

`RtBoot.Upload` models the header parser on the list of the bytes that are still ahead. This
module models it once more as it stands in the source: with pointers into the session buffer, in
which it stores NULs as it goes. A pointer is an offset into the buffer; `buf` are the bytes of
the window and the NUL behind them. Every read and every store is checked: one that leaves the
buffer is the fault `overrun`, one through a null pointer is `nullPointer`, and one of an entry
that the list of names does not have is `noNameEntry`.

The two levels agree: a cursor `Follows` a list of bytes when these are what the buffer holds
from the cursor on, up to its NUL, and each pointer recorded leads to its string. What has been
stored lies behind the cursor, so it is never met again; and the strings end with a NUL that was
stored or was there.

## Main results

* `beginsIn_eq`, `skipIn_eq`, `memchrIn_cases`, `memstrIn_eq`: what the searches read.
* `Follows.headerLines`: the loop with pointers follows the loop on lists.
* `parseHeaderAt_cases`: so does the parser.
* `headerLines_ok_iff`: the loop succeeds on the lines that are whole.
* `handleSectionAt_cases`: so does `_handle_section`.
* `upload_parser_safe_iff`: when the parser and `_handle_section` access only what they may.
-/

namespace RtBoot

/-! ### Searches -/

/-- `rt_strncasecmp` of the bytes at a pointer with a pattern, up to the first difference. -/
def beginsIn : List UInt8 → List UInt8 → Except Fault Bool
  | _, [] => .ok true
  | [], _ :: _ => .error .overrun
  | b :: mem, m :: ms => if toLower b = toLower m then beginsIn mem ms else .ok false

/-- `str_begin_with_strs`. -/
def beginsStrsIn : List UInt8 → List (List UInt8) → Except Fault Bool
  | _, [] => .ok true
  | mem, m :: ms => do
      if ← beginsIn mem m then beginsStrsIn (mem.drop m.length) ms else pure false

/-- `while (p(*ptr)) ptr ++`: the number of bytes passed. -/
def skipIn (p : UInt8 → Bool) : List UInt8 → Except Fault ℕ
  | [] => .error .overrun
  | b :: mem => if p b then (skipIn p mem).map (· + 1) else .ok 0

/-- `memchr` with a length that is taken for a very large one. -/
def memchrIn (c : UInt8) : List UInt8 → Except Fault ℕ
  | [] => .error .overrun
  | b :: mem => if b = c then .ok 0 else (memchrIn c mem).map (· + 1)

/-- `rt_memcmp` of the bytes at a pointer with a pattern, up to the first difference. -/
def matchesIn : List UInt8 → List UInt8 → Except Fault Bool
  | _, [] => .ok true
  | [], _ :: _ => .error .overrun
  | b :: mem, m :: ms => if b = m then matchesIn mem ms else .ok false

/-- The loop of `memstr`. -/
def memstrIn (needle : List UInt8) : ℕ → List UInt8 → Except Fault (Option ℕ)
  | 0, _ => .ok none
  | rounds + 1, mem => do
      if ← matchesIn mem needle then pure (some 0)
      else
        let later ← memstrIn needle rounds mem.tail
        pure (later.map (· + 1))

/-- `rt_strdup`: the string up to the first NUL. -/
def strdupIn (mem : List UInt8) : Except Fault CString :=
  if 0 ∈ mem then .ok (.upToNul mem) else .error .overrun

section
variable {rest m needle : List UInt8}

theorem toLower_zero_ne {c : UInt8} (h : c ≠ 0) : toLower 0 ≠ toLower c := fun heq =>
  h ((toLower_eq_of_lt (by decide)).mp heq.symm)

/-- A comparison stops at the NUL at the latest. -/
theorem beginsIn_eq (hm : 0 ∉ m) : beginsIn (rest ++ [0]) m = .ok (caseBegins rest m) := by
  induction m generalizing rest with
  | nil => simp [beginsIn]
  | cons c m ih =>
      rw [List.mem_cons, not_or] at hm
      cases rest with
      | nil =>
          have hne : toLower 0 ≠ toLower c := toLower_zero_ne (Ne.symm hm.1)
          simp [beginsIn, caseBegins, hne]
      | cons b rest =>
          rw [List.cons_append, beginsIn, caseBegins]
          by_cases hb : toLower b = toLower c
          · simp [hb, ih hm.2]
          · simp [hb]

theorem beginsStrsIn_eq {ms : List (List UInt8)} (hms : ∀ m ∈ ms, 0 ∉ m) :
    beginsStrsIn (rest ++ [0]) ms = .ok (strBeginWithStrs rest ms) := by
  induction ms generalizing rest with
  | nil => rfl
  | cons m ms ih =>
      rw [beginsStrsIn, strBeginWithStrs, beginsIn_eq (hms m List.mem_cons_self)]
      cases hbegins : caseBegins rest m with
      | false => rfl
      | true =>
          have hlen := length_le_of_caseBegins hbegins
          have hdrop : (rest ++ [0]).drop m.length = rest.drop m.length ++ [0] :=
            List.drop_append_of_le_length hlen
          rw [Bool.true_and, ← ih fun m' hm' => hms m' (List.mem_cons_of_mem _ hm'), ← hdrop]
          rfl

/-- A skip stops at the NUL at the latest. -/
theorem skipIn_eq {p : UInt8 → Bool} (hp : p 0 = false) :
    skipIn p (rest ++ [0]) = .ok (rest.takeWhile p).length := by
  induction rest with
  | nil => simp [skipIn, hp]
  | cons b rest ih =>
      rw [List.cons_append, skipIn, ih]
      cases hb : p b with
      | true => simp [hb, Except.map]
      | false => simp [hb]

/-- The search for a byte other than NUL finds it in front of the NUL, or leaves the buffer. -/
theorem memchrIn_cases (rest : List UInt8) {c : UInt8} (hc : c ≠ 0) :
    (∃ after, rest.dropWhile (· != c) = c :: after ∧
        memchrIn c (rest ++ [0]) = .ok (rest.takeWhile (· != c)).length) ∨
      (rest.dropWhile (· != c) = [] ∧ memchrIn c (rest ++ [0]) = .error .overrun) := by
  induction rest with
  | nil => exact .inr ⟨rfl, by simp [memchrIn, hc.symm, Except.map]⟩
  | cons b rest ih =>
      by_cases hb : b = c
      · exact .inl ⟨rest, by simp [hb], by simp [memchrIn, hb]⟩
      · rcases ih with ⟨after, hdrop, hfind⟩ | ⟨hdrop, hfind⟩
        · refine .inl ⟨after, by simp [hb, hdrop], ?_⟩
          simp [memchrIn, hb, hfind, Except.map]
        · refine .inr ⟨by simp [hb, hdrop], ?_⟩
          simp [memchrIn, hb, hfind, Except.map]

theorem matchesIn_eq {mem : List UInt8} (h : needle.length ≤ mem.length) :
    matchesIn mem needle = .ok (decide (needle <+: mem)) := by
  induction needle generalizing mem with
  | nil => simp [matchesIn]
  | cons c needle ih =>
      cases mem with
      | nil => simp at h
      | cons b mem =>
          rw [matchesIn, ih (by simpa using h)]
          by_cases hb : b = c
          · simp [hb, List.cons_prefix_cons]
          · simp [hb, List.cons_prefix_cons, Ne.symm hb]

/-- `memstr` stays inside the bytes it is given. -/
theorem memstrIn_eq (hne : needle ≠ []) (tail : List UInt8) :
    memstrIn needle (rest.length + 1 - needle.length) (rest ++ tail) =
      .ok (memstr needle rest) := by
  have hpos := List.length_pos_iff.mpr hne
  induction rest with
  | nil =>
      rw [List.length_nil, show 0 + 1 - needle.length = 0 by omega, memstrIn, memstr, if_neg hne]
  | cons b rest ih =>
      rw [List.length_cons]
      rcases Nat.lt_or_ge (rest.length + 1) needle.length with hlt | hge
      · rw [show rest.length + 1 + 1 - needle.length = 0 by omega, memstrIn,
          memstr_eq_none_of_length (by rw [List.length_cons]; exact hlt)]
      · rw [show rest.length + 1 + 1 - needle.length =
          rest.length + 1 - needle.length + 1 by omega, memstrIn,
          matchesIn_eq (by simp; omega), memstr]
        have hsame : needle <+: b :: rest ++ tail ↔ needle <+: b :: rest :=
          ⟨fun h => List.prefix_of_prefix_length_le h (List.prefix_append _ _) (by simpa using hge),
            fun h => h.trans (List.prefix_append _ _)⟩
        by_cases hbegins : needle <+: b :: rest
        · simp only [hsame, hbegins, decide_true, if_true]
          rfl
        · simp only [hsame, hbegins, decide_false, if_false]
          rw [List.cons_append, List.tail_cons]
          simp only [bind, Except.bind, ih]
          rfl

end

/-! ### The parser, with pointers -/

/-- The parser in its loop: the buffer, `ptr`, and the pointers found so far. -/
structure HeaderCursor where
  buf : List UInt8
  ptr : ℕ
  name : Option ℕ
  filename : Option ℕ
  contentType : Option ℕ

namespace HeaderCursor

/-- The bytes from `ptr` to the end of the buffer. -/
def ahead (c : HeaderCursor) : List UInt8 :=
  c.buf.drop c.ptr

/-- `ptr += k`. -/
def advance (c : HeaderCursor) (k : ℕ) : HeaderCursor :=
  { c with ptr := c.ptr + k }

/-- `while (p(*ptr)) ptr ++`. -/
def skip (c : HeaderCursor) (p : UInt8 → Bool) : Except Fault HeaderCursor :=
  (skipIn p c.ahead).map c.advance

/-- The buffer with a NUL at `ptr[i]`. -/
def withNul (c : HeaderCursor) (i : ℕ) : HeaderCursor :=
  { c with buf := c.buf.set (c.ptr + i) 0 }

/-- `ptr[i] = '\0'`. -/
def storeNul (c : HeaderCursor) (i : ℕ) : Except Fault HeaderCursor :=
  if c.ptr + i < c.buf.length then .ok (c.withNul i) else .error .overrun

/-- The closing quote becomes a NUL, and `ptr` moves behind it. The string begins where `ptr`
was. -/
def quoted (c : HeaderCursor) : Except Fault (ℕ × HeaderCursor) := do
  let k ← memchrIn 34 c.ahead
  let c ← c.storeNul k
  pure (c.ptr, c.advance (k + 1))

/-- `name="str"`. -/
def fieldName (c : HeaderCursor) : Except Fault HeaderCursor := do
  if ← beginsIn c.ahead (ascii "name=\"") then
    let (str, c) ← quoted (c.advance 6)
    HeaderCursor.skip { c with name := some str } fun b => b == 32 || b == 59
  else pure c

/-- `filename="str"`. -/
def fileName (c : HeaderCursor) : Except Fault HeaderCursor := do
  if ← beginsIn c.ahead (ascii "filename=\"") then
    let (str, c) ← quoted (c.advance 10)
    pure { c with filename := some str }
  else pure c

/-- The value of a `Content-Disposition` line. -/
def formData (c : HeaderCursor) : Except Fault HeaderCursor := do
  if ← beginsIn c.ahead (ascii "form-data") then
    let c ← (c.advance 9).skip fun b => b == 32 || b == 59
    let c ← c.fieldName
    c.fileName
  else pure c

/-- The tests at the beginning of a line; the flag says whether it is the empty line. -/
def headerLine (c : HeaderCursor) : Except Fault (Bool × HeaderCursor) := do
  if ← beginsIn c.ahead (ascii "Content-Disposition:") then
    let c ← (c.advance 20).skip (· == 32)
    let c ← c.formData
    pure (false, c)
  else if ← beginsIn c.ahead (ascii "Content-Type:") then
    let c ← (c.advance 13).skip (· == 32)
    pure (false, { c with contentType := some c.ptr })
  else if ← beginsIn c.ahead (ascii "Content-Range:") then
    let c ← (c.advance 14).skip (· == 32)
    pure (false, c)
  else if ← beginsIn c.ahead crlf then pure (true, c.advance 2)
  else pure (false, c)

/-- `skip this request header line`, in a window of `n` bytes: the two bytes of the line end
become NULs. -/
def skipLine (n : ℕ) (c : HeaderCursor) : Except Fault HeaderCursor := do
  match ← memstrIn crlf (n - c.ptr + 1 - crlf.length) c.ahead with
  | none => .error .nullPointer
  | some i =>
      let c ← c.storeNul i
      let c ← c.storeNul (i + 1)
      pure (c.advance (i + 2))

/-- The loop over the header lines, for at most `fuel` lines. The flag says whether it ended at
the empty line. -/
def headerLines (n : ℕ) : ℕ → HeaderCursor → Except Fault (Bool × HeaderCursor)
  | 0, c => if c.ptr < n then .error .spinning else .ok (false, c)
  | fuel + 1, c =>
      if c.ptr < n then do
        let (blank, c) ← c.headerLine
        if blank then pure (true, c)
        else
          let c ← c.skipLine n
          headerLines n fuel c
      else .ok (false, c)

/-- `wn_strdup` of a pointer that may be null. -/
def strdup (c : HeaderCursor) : Option ℕ → Except Fault (Option CString)
  | none => .ok none
  | some q => (strdupIn (c.buf.drop q)).map some

end HeaderCursor

/-- A name entry more. `name_entries_count` is a half-word, and `alloc` the result of `wn_malloc`
or `wn_realloc`, which is not checked. -/
def addNameEntry (alloc : Bool) (u : UploadSession) : Option CString → Except Fault UploadSession
  | none => .ok u
  | some value =>
      if alloc = false then .error .nullPointer
      else if (u.nameEntries.length + 1) % 65536 = 0 then .error .noNameEntry
      else .ok { u with nameEntries := u.nameEntries ++ [⟨nameKey, value⟩] }

/-- The length of the boundary line that the window begins with, if it begins with one. -/
def boundaryLineAt (boundary : CString) (buf : List UInt8) : Except Fault (Option ℕ) := do
  if ← beginsStrsIn buf (normalBoundary boundary) then pure (some (boundary.strlen + 4))
  else if ← beginsStrsIn buf (firstBoundary boundary) then pure (some (boundary.strlen + 2))
  else pure none

/-- `_webnet_module_upload_parse_header` on the window `w`: the session, and the pointer
returned. -/
def parseHeaderAt (alloc : Bool) (u : UploadSession) (w : List UInt8) :
    Except Fault (Option (UploadSession × ℕ)) := do
  let buf := w ++ [0]
  if ← beginsStrsIn buf (lastBoundary u.boundary) then
    pure (some (u, u.boundary.strlen + 6))
  else
    match ← boundaryLineAt u.boundary buf with
    | none => pure none
    | some k =>
        let (blank, c) ←
          HeaderCursor.headerLines w.length (w.length - k) ⟨buf, k, none, none, none⟩
        if blank then
          let filename ← c.strdup c.filename
          let contentType ← c.strdup c.contentType
          let name ← c.strdup c.name
          let u ← addNameEntry alloc { u.endSection with filename, contentType } name
          pure (some (u, c.ptr))
        else pure (some (u.endSection, c.ptr))

/-- `_handle_section` on the first `length` bytes of `mem`; `alloc` is the result of the
allocation of the value, which is not checked. -/
def handleSectionAt (alloc : Bool) (s : WebSession) (mem : List UInt8) (length : ℕ) :
    Except Fault WebSession := do
  if s.upload.inFile && length != 0 then
    if mem.length < length then .error .overrun else pure (s.entryWrite (mem.take length))
  else
    match ← memstrIn crlf (length + 1 - crlf.length) mem with
    | none => pure s
    | some i =>
        if s.upload.nameEntries.length % 65536 = 0 then .error .noNameEntry
        else if alloc = false then .error .nullPointer
        else if mem.length < i then .error .overrun
        else
          match s.upload.nameEntries.getLast? with
          | none => .error .noNameEntry
          | some e =>
              pure { s with
                upload := { s.upload with
                  nameEntries := s.upload.nameEntries.dropLast ++
                    [{ e with value := .upToNul (mem.take i) }] } }

/-! ### The two levels -/

/-- The string at `q` ends in front of `p`. -/
def StrAt (buf : List UInt8) (p q : ℕ) (str : CString) : Prop :=
  q + str.strlen < p ∧ ∃ tail, buf.drop q = str.bytes ++ 0 :: tail

/-- A pointer and the string it leads to, or neither. -/
def StrOf (buf : List UInt8) (p : ℕ) : Option ℕ → Option CString → Prop
  | none, none => True
  | some q, some str => StrAt buf p q str
  | _, _ => False

/-- **The cursor follows the list**: in a window of `n` bytes, `rest` is what is ahead of the
cursor, in front of the NUL; and the pointers lead to the strings of the header. -/
structure Follows (n : ℕ) (c : HeaderCursor) (h : PartHeader) (rest : List UInt8) : Prop where
  size : c.buf.length = n + 1
  ahead : c.ahead = rest ++ [0]
  name : StrOf c.buf c.ptr c.name h.name
  filename : StrOf c.buf c.ptr c.filename h.filename
  contentType : StrOf c.buf c.ptr c.contentType h.contentType

/-- Both levels fail in the same way, or both succeed with related results. -/
def Agrees {α β : Type} (R : α → β → Prop) (x : Except Fault α) (y : Except Fault β) : Prop :=
  (∃ fault, x = .error fault ∧ y = .error fault) ∨ ∃ a b, x = .ok a ∧ y = .ok b ∧ R a b

/-- Results in relation agree. -/
theorem Agrees.ok {α β : Type} {R : α → β → Prop} {a : α} {b : β} (h : R a b) :
    Agrees R (.ok a) (.ok b) :=
  .inr ⟨a, b, rfl, rfl, h⟩

/-- Equal faults agree. -/
theorem Agrees.error {α β : Type} {R : α → β → Prop} (fault : Fault) :
    Agrees R (.error fault : Except Fault α) (.error fault : Except Fault β) :=
  .inl ⟨fault, rfl, rfl⟩

section
variable {n : ℕ} {c : HeaderCursor} {h : PartHeader} {rest line : List UInt8}
  {str : Option CString} {q : Option ℕ}

theorem StrOf.mono {buf : List UInt8} {p p' : ℕ}
    (hs : StrOf buf p q str) (hp : p ≤ p') : StrOf buf p' q str := by
  cases q <;> cases str
  · trivial
  · exact hs
  · exact hs
  · exact ⟨hs.1.trans_le hp, hs.2⟩

/-- A NUL stored behind a string leaves it. -/
theorem StrOf.set {buf : List UInt8} {p i : ℕ}
    (hs : StrOf buf p q str) (hi : p ≤ i) : StrOf (buf.set i 0) p q str := by
  cases q <;> cases str
  · trivial
  · exact hs
  · exact hs
  · rename_i q str
    obtain ⟨hlt, tail, htail⟩ := hs
    obtain ⟨j, hj⟩ : ∃ j, i - q = str.bytes.length + (j + 1) :=
      ⟨i - q - str.strlen - 1, by rw [CString.strlen] at *; omega⟩
    refine ⟨hlt, tail.set j 0, ?_⟩
    rw [List.drop_set, if_neg (by omega), htail, hj, List.set_append_right _ _ (by omega),
      Nat.add_sub_cancel_left, List.set_cons_succ]

/-- In front of a NUL that is stored behind bytes stands the string of these bytes. -/
theorem exists_upToNul_append (bytes tail : List UInt8) :
    ∃ tail', bytes ++ 0 :: tail = (CString.upToNul bytes).bytes ++ 0 :: tail' := by
  induction bytes with
  | nil => exact ⟨tail, rfl⟩
  | cons b bytes ih =>
      by_cases hb : b = 0
      · exact ⟨bytes ++ 0 :: tail, by simp [CString.upToNul, hb]⟩
      · obtain ⟨tail', htail⟩ := ih
        exact ⟨tail', by simpa [CString.upToNul, hb] using htail⟩

theorem length_upToNul_le (bytes : List UInt8) :
    (CString.upToNul bytes).strlen ≤ bytes.length :=
  (List.takeWhile_sublist _).length_le

/-- Where the cursor stands. -/
theorem Follows.ptr_add (hf : Follows n c h rest) : c.ptr + rest.length = n := by
  have hlen := congrArg List.length hf.ahead
  have hsize := hf.size
  rw [HeaderCursor.ahead, List.length_drop, List.length_append, List.length_singleton] at hlen
  omega

/-- The cursor moves over bytes that are ahead. -/
theorem Follows.advance (hf : Follows n c h rest) {k : ℕ} (hk : k ≤ rest.length) :
    Follows n (c.advance k) h (rest.drop k) where
  size := hf.size
  ahead := by
    rw [HeaderCursor.ahead, HeaderCursor.advance, ← List.drop_drop]
    exact (congrArg (List.drop k) hf.ahead).trans (List.drop_append_of_le_length hk)
  name := hf.name.mono (Nat.le_add_right _ _)
  filename := hf.filename.mono (Nat.le_add_right _ _)
  contentType := hf.contentType.mono (Nat.le_add_right _ _)

/-- The cursor stores a NUL ahead and moves behind it. -/
theorem Follows.storeNul (hf : Follows n c h rest) {i : ℕ} (hi : i < rest.length) :
    c.storeNul i = .ok (c.withNul i) ∧
      (c.withNul i).ahead = rest.take i ++ 0 :: (rest.drop (i + 1) ++ [0]) ∧
      Follows n ((c.withNul i).advance (i + 1)) h (rest.drop (i + 1)) := by
  have hptr := hf.ptr_add
  have hset : (c.withNul i).ahead = rest.take i ++ 0 :: (rest.drop (i + 1) ++ [0]) := by
    have hahead : c.buf.drop c.ptr = rest ++ [0] := hf.ahead
    change (c.buf.set (c.ptr + i) 0).drop c.ptr = _
    rw [List.drop_set, if_neg (by omega), Nat.add_sub_cancel_left, hahead,
      List.set_append_left _ _ hi, List.set_eq_take_append_cons_drop, if_pos hi]
    simp
  refine ⟨if_pos (by rw [hf.size]; omega), hset, (List.length_set ..).trans hf.size, ?_, ?_, ?_, ?_⟩
  · rw [HeaderCursor.ahead, HeaderCursor.advance, ← List.drop_drop]
    change ((c.withNul i).ahead).drop (i + 1) = _
    rw [hset, show i + 1 = (rest.take i).length + 1 by rw [List.length_take]; omega,
      List.drop_append, List.drop_of_length_le (by omega)]
    simp
  · exact (hf.name.set (Nat.le_add_right _ _)).mono (Nat.le_add_right _ _)
  · exact (hf.filename.set (Nat.le_add_right _ _)).mono (Nat.le_add_right _ _)
  · exact (hf.contentType.set (Nat.le_add_right _ _)).mono (Nat.le_add_right _ _)

/-- Skipping stays in step with the text. -/
theorem Follows.skip (hf : Follows n c h rest) {p : UInt8 → Bool} (hp : p 0 = false) :
    ∃ c', c.skip p = .ok c' ∧ Follows n c' h (rest.dropWhile p) := by
  refine ⟨c.advance (rest.takeWhile p).length, ?_, ?_⟩
  · rw [HeaderCursor.skip, hf.ahead, skipIn_eq hp]
    rfl
  · have hdrop : (rest.takeWhile p ++ rest.dropWhile p).drop (rest.takeWhile p).length =
        rest.dropWhile p := List.drop_left
    rw [List.takeWhile_append_dropWhile] at hdrop
    rw [← hdrop]
    exact hf.advance (List.takeWhile_sublist _).length_le

/-- A match at the cursor is a match of the text. -/
theorem Follows.begins (hf : Follows n c h rest) {m : List UInt8} (hm : 0 ∉ m) :
    beginsIn c.ahead m = .ok (caseBegins rest m) := by
  rw [hf.ahead, beginsIn_eq hm]

/-- The string up to a quote is ended by the NUL stored there. -/
theorem Follows.quoted (hf : Follows n c h rest) :
    (quoted rest = .error .overrun ∧ c.quoted = .error .overrun) ∨
      ∃ str after q c', quoted rest = .ok (str, after) ∧ c.quoted = .ok (q, c') ∧
        StrAt c'.buf c'.ptr q str ∧ Follows n c' h after := by
  rw [RtBoot.quoted, HeaderCursor.quoted, hf.ahead]
  rcases memchrIn_cases rest (c := 34) (by decide) with
    ⟨after, hdrop, hfind⟩ | ⟨hdrop, hfind⟩
  · rw [hdrop, hfind]
    have htail34 : (rest.takeWhile (· != 34) ++ 34 :: after).drop
        (rest.takeWhile (· != 34)).length = 34 :: after := List.drop_left
    rw [← hdrop, List.takeWhile_append_dropWhile, hdrop] at htail34
    have hlt : (rest.takeWhile (· != 34)).length < rest.length := by
      have hlen := congrArg List.length htail34
      rw [List.length_drop, List.length_cons] at hlen
      omega
    obtain ⟨hstore, hahead, hf'⟩ := hf.storeNul hlt
    have htake : rest.take (rest.takeWhile (· != 34)).length = rest.takeWhile (· != 34) :=
      (List.prefix_iff_eq_take.mp ( List.takeWhile_prefix _)).symm
    have hafter : rest.drop ((rest.takeWhile (· != 34)).length + 1) = after := by
      rw [← List.drop_drop, htail34, List.drop_one, List.tail_cons]
    rw [htake, hafter] at hahead
    rw [hafter] at hf'
    obtain ⟨tail, htail⟩ := exists_upToNul_append (rest.takeWhile (· != 34)) (after ++ [0])
    have hle := length_upToNul_le (rest.takeWhile (· != 34))
    refine .inr ⟨_, after, c.ptr, _, rfl, ?_, ⟨?_, tail, ?_⟩, hf'⟩
    · change (c.storeNul _ >>= _) = _
      rw [hstore]
      rfl
    · dsimp only [HeaderCursor.advance, HeaderCursor.withNul]
      omega
    · rw [← htail, ← hahead]
      rfl
  · rw [hdrop, hfind]
    exact .inl ⟨rfl, rfl⟩

/-- What a step of the parser keeps to. -/
def Steps (n : ℕ) (x : Except Fault HeaderCursor) (y : Except Fault (PartHeader × List UInt8)) :
    Prop :=
  Agrees (fun c r => Follows n c r.1 r.2) x y

/-- `name=` is read in step with the text. -/
theorem Follows.fieldName (hf : Follows n c h rest) : Steps n c.fieldName (fieldName h rest) := by
  rw [HeaderCursor.fieldName, RtBoot.fieldName, hf.begins (by decide)]
  cases hbegins : caseBegins rest (ascii "name=\"") with
  | false => exact .ok hf
  | true =>
      have hadv := hf.advance (k := 6) (length_le_of_caseBegins hbegins)
      obtain ⟨hlist, hat⟩ | ⟨str, after, q, c', hlist, hat, hstr, hf'⟩ := hadv.quoted
      · simp only [hlist, if_true, bind, Except.bind, hat]
        exact .error _
      · have hnamed : Follows n { c' with name := some q } { h with name := some str } after :=
          ⟨hf'.size, hf'.ahead, hstr, hf'.filename, hf'.contentType⟩
        obtain ⟨c'', hskip, hf''⟩ := hnamed.skip (p := fun b => b == 32 || b == 59) (by decide)
        simp only [hlist, if_true, bind, Except.bind, hat, hskip]
        exact .ok hf''

/-- `filename=` is read in step with the text. -/
theorem Follows.fileName (hf : Follows n c h rest) : Steps n c.fileName (fileName h rest) := by
  rw [HeaderCursor.fileName, RtBoot.fileName, hf.begins (by decide)]
  cases hbegins : caseBegins rest (ascii "filename=\"") with
  | false => exact .ok hf
  | true =>
      have hadv := hf.advance (k := 10) (length_le_of_caseBegins hbegins)
      obtain ⟨hlist, hat⟩ | ⟨str, after, q, c', hlist, hat, hstr, hf'⟩ := hadv.quoted
      · simp only [hlist, if_true, bind, Except.bind, hat]
        exact .error _
      · simp only [hlist, if_true, bind, Except.bind, hat]
        exact .ok ⟨hf'.size, hf'.ahead, hf'.name, hstr, hf'.contentType⟩

/-- `form-data` is read in step with the text. -/
theorem Follows.formData (hf : Follows n c h rest) : Steps n c.formData (formData h rest) := by
  rw [HeaderCursor.formData, RtBoot.formData, hf.begins (by decide)]
  cases hbegins : caseBegins rest (ascii "form-data") with
  | false => exact .ok hf
  | true =>
      have hadv := hf.advance (k := 9) (length_le_of_caseBegins hbegins)
      obtain ⟨c', hskip, hf'⟩ := hadv.skip (p := fun b => b == 32 || b == 59) (by decide)
      simp only [if_true, bind, Except.bind, hskip]
      obtain ⟨fault, hat, hlist⟩ | ⟨c'', r, hat, hlist, hf''⟩ := hf'.fieldName
      · rw [skipSeparators, hlist, hat]
        exact .error fault
      · rw [skipSeparators, hlist, hat]
        exact hf''.fileName

/-- Behind the tests at the beginning of a line: the cursor follows the list, but the content
type found in this line is not yet ended by a NUL. -/
def LineFollows (n : ℕ) (c : HeaderCursor) (h : PartHeader) (line : List UInt8) : Prop :=
  Follows n c h line ∨
    (Follows n { c with contentType := none } { h with contentType := none } line ∧
      c.contentType = some c.ptr ∧ h.contentType =
        some (.upToNul (line.take ((memstr crlf line).getD line.length))))

/-- The two results of the tests. -/
def LineAgrees (n : ℕ) (h : PartHeader) : Bool × HeaderCursor → HeaderLine → Prop
  | (false, c), .field h' line => LineFollows n c h' line
  | (true, c), .blank after => Follows n c h after
  | _, _ => False

/-- The fields that a line begins with are skipped together with the blanks behind. -/
theorem Follows.skipBlanks (hf : Follows n c h rest) {m : List UInt8}
    (hbegins : caseBegins rest m = true) : ∃ c', (c.advance m.length).skip (· == 32) = .ok c' ∧
      Follows n c' h (skipBlanks (rest.drop m.length)) :=
  (hf.advance (length_le_of_caseBegins hbegins)).skip (p := (· == 32)) (by decide)

/-- A header line is read in step with the text. -/
theorem Follows.headerLine (hf : Follows n c h rest) :
    Agrees (LineAgrees n h) c.headerLine (headerLine h rest) := by
  rw [HeaderCursor.headerLine, RtBoot.headerLine]
  simp only [hf.begins (m := ascii "Content-Disposition:") (by decide),
    hf.begins (m := ascii "Content-Type:") (by decide),
    hf.begins (m := ascii "Content-Range:") (by decide), hf.begins (m := crlf) (by decide), bind,
    Except.bind]
  cases hdisp : caseBegins rest (ascii "Content-Disposition:") with
  | true =>
      obtain ⟨c', hskip, hf'⟩ := hf.skipBlanks hdisp
      have hskip : (c.advance 20).skip (· == 32) = .ok c' := hskip
      simp only [if_true, hskip]
      obtain ⟨fault, hat, hlist⟩ | ⟨c'', r, hat, hlist, hf''⟩ := hf'.formData
      · have hlist : RtBoot.formData h (RtBoot.skipBlanks (rest.drop 20)) = .error fault := hlist
        rw [hlist, hat]
        exact .error fault
      · have hlist : RtBoot.formData h (RtBoot.skipBlanks (rest.drop 20)) = .ok r := hlist
        rw [hlist, hat]
        exact .ok (.inl hf'')
  | false =>
    cases htype : caseBegins rest (ascii "Content-Type:") with
    | true =>
        obtain ⟨c', hskip, hf'⟩ := hf.skipBlanks htype
        have hskip : (c.advance 13).skip (· == 32) = .ok c' := hskip
        simp only [if_true, Bool.false_eq_true, if_false, hskip]
        exact .ok (.inr ⟨⟨hf'.size, hf'.ahead, hf'.name, hf'.filename, trivial⟩, rfl, rfl⟩)
    | false =>
      cases hrange : caseBegins rest (ascii "Content-Range:") with
      | true =>
          obtain ⟨c', hskip, hf'⟩ := hf.skipBlanks hrange
          have hskip : (c.advance 14).skip (· == 32) = .ok c' := hskip
          simp only [if_true, Bool.false_eq_true, if_false, hskip]
          exact .ok (.inl hf')
      | false =>
        cases hblank : caseBegins rest crlf with
        | true => exact .ok (hf.advance (k := 2) (length_le_of_caseBegins hblank))
        | false => exact .ok (.inl hf)

/-- The first NUL stored at the end of a line ends the content type, if that was in the line. -/
theorem LineFollows.storeNul (hf : LineFollows n c h line) {i : ℕ}
    (hfind : memstr crlf line = some i) (hi : i < line.length) :
    c.storeNul i = .ok (c.withNul i) ∧
      Follows n ((c.withNul i).advance (i + 1)) h (line.drop (i + 1)) := by
  obtain hf | ⟨hf, hptr, htype⟩ := hf
  · obtain ⟨hstore, -, hf'⟩ := hf.storeNul hi
    exact ⟨hstore, hf'⟩
  · obtain ⟨-, hahead, hf'⟩ := hf.storeNul hi
    have hsize : c.buf.length = n + 1 := hf.size
    have hadd : c.ptr + line.length = n := hf.ptr_add
    obtain ⟨tail, htail⟩ := exists_upToNul_append (line.take i) (line.drop (i + 1) ++ [0])
    have hle := length_upToNul_le (line.take i)
    have hlen : (line.take i).length ≤ i := List.length_take_le _ _
    refine ⟨if_pos (by omega), hf'.size, hf'.ahead, hf'.name, hf'.filename, ?_⟩
    rw [htype, hfind, Option.getD_some]
    change StrOf _ _ c.contentType _
    rw [hptr]
    refine ⟨?_, tail, ?_⟩
    · dsimp only [HeaderCursor.advance, HeaderCursor.withNul]
      omega
    · rw [← htail, ← hahead]
      rfl

theorem LineFollows.ahead (hf : LineFollows n c h line) :
    c.ahead = line ++ [0] ∧ c.ptr + line.length = n := by
  obtain hf | ⟨hf, -, -⟩ := hf
  · exact ⟨hf.ahead, hf.ptr_add⟩
  · exact ⟨hf.ahead, hf.ptr_add⟩

/-- A line is skipped in step with the text. -/
theorem LineFollows.skipLine (hf : LineFollows n c h line) :
    Agrees (fun c after => Follows n c h after) (c.skipLine n) (skipLine line) := by
  obtain ⟨hahead, hptr⟩ := hf.ahead
  have hlen : n - c.ptr = line.length := by omega
  rw [HeaderCursor.skipLine, RtBoot.skipLine, hahead, hlen, memstrIn_eq (by decide)]
  cases hfind : memstr crlf line with
  | none => exact .error _
  | some i =>
      obtain ⟨-, hpre, -⟩ := memstr_eq_some_iff.mp hfind
      have hfits := hpre.length_le
      have hcrlf : crlf.length = 2 := rfl
      rw [List.length_drop] at hfits
      obtain ⟨hstore, hf'⟩ := hf.storeNul hfind (by omega)
      obtain ⟨hstore', -, hf''⟩ := hf'.storeNul (i := 0) (by rw [List.length_drop]; omega)
      rw [List.drop_drop] at hf''
      have hsecond : (c.withNul i).storeNul (i + 1) = .ok ((c.withNul i).withNul (i + 1)) := by
        refine if_pos ?_
        have hsize : (c.withNul i).buf.length = n + 1 := hf'.size
        rw [hsize]
        change c.ptr + (i + 1) < n + 1
        omega
      simp only [bind, Except.bind, hstore, hsecond]
      exact .ok hf''

/-- **The loop with pointers follows the loop on lists.** -/
theorem Follows.headerLines (hf : Follows n c h rest) (fuel : ℕ) :
    Agrees (fun r header => match r, header with
        | (true, c), .ended h after => Follows n c h after
        | (false, c), .ranOut => c.ptr = n
        | _, _ => False)
      (c.headerLines n fuel) (headerLines fuel h rest) := by
  induction fuel generalizing c h rest with
  | zero =>
      have hptr := hf.ptr_add
      cases rest with
      | nil =>
          rw [HeaderCursor.headerLines, if_neg (by simp at hptr; omega)]
          exact .ok hptr
      | cons b rest =>
          rw [HeaderCursor.headerLines, if_pos (by simp at hptr; omega)]
          exact .error _
  | succ fuel ih =>
      have hptr := hf.ptr_add
      cases rest with
      | nil =>
          rw [HeaderCursor.headerLines, if_neg (by simp at hptr; omega)]
          exact .ok hptr
      | cons b rest =>
          rw [HeaderCursor.headerLines, if_pos (by simp at hptr; omega), RtBoot.headerLines]
          obtain ⟨fault, hat, hlist⟩ | ⟨⟨blank, c'⟩, line, hat, hlist, hline⟩ := hf.headerLine
          · rw [hat, hlist]
            exact .error fault
          · rw [hat, hlist]
            cases blank with
            | true =>
                cases line with
                | field h' line => exact False.elim hline
                | blank after => exact .ok hline
            | false =>
                cases line with
                | blank after => exact False.elim hline
                | field h' line =>
                    have hskip := LineFollows.skipLine hline
                    obtain ⟨fault, hat', hlist'⟩ | ⟨c'', after, hat', hlist', hf'⟩ := hskip
                    · simp only [bind, Except.bind, hat', hlist']
                      exact .error fault
                    · simp only [bind, Except.bind, hat', hlist']
                      exact ih hf'

/-- A pointer that leads to a string is duplicated as that string. -/
theorem strdup_of_strOf {p : ℕ} (hs : StrOf c.buf p q str) : c.strdup q = .ok str := by
  cases q <;> cases str
  · rfl
  · exact hs.elim
  · exact hs.elim
  · rename_i q str
    obtain ⟨-, tail, htail⟩ := hs
    have hstr : CString.upToNul (str.bytes ++ 0 :: tail) = str := by
      refine CString.ext ?_
      change (str.bytes ++ 0 :: tail).takeWhile (· != 0) = str.bytes
      rw [List.takeWhile_append_of_pos]
      · simp
      · intro b hb
        have hne : b ≠ 0 := fun h => str.noNul (h ▸ hb)
        simpa using hne
    rw [HeaderCursor.strdup, htail, strdupIn, if_pos (by simp), hstr]
    rfl

end

/-! ### Headers that are whole -/

/-- The bytes behind the next quote. -/
def behindQuote (rest : List UInt8) : List UInt8 :=
  (rest.dropWhile (· != 34)).tail

/-- The bytes behind `name="str"`, if that is ahead. -/
def behindName (rest : List UInt8) : List UInt8 :=
  if caseBegins rest (ascii "name=\"") then skipSeparators (behindQuote (rest.drop 6)) else rest

/-- The bytes behind `filename="str"`, if that is ahead. -/
def behindFilename (rest : List UInt8) : List UInt8 :=
  if caseBegins rest (ascii "filename=\"") then behindQuote (rest.drop 10) else rest

/-- The bytes behind the fields of a `Content-Disposition` line. -/
def behindForm (rest : List UInt8) : List UInt8 :=
  if caseBegins rest (ascii "form-data") then
    behindFilename (behindName (skipSeparators (rest.drop 9)))
  else rest

/-- Where the parser looks for the end of the line. -/
def behindFields (rest : List UInt8) : List UInt8 :=
  if caseBegins rest (ascii "Content-Disposition:") then behindForm (skipBlanks (rest.drop 20))
  else if caseBegins rest (ascii "Content-Type:") then skipBlanks (rest.drop 13)
  else if caseBegins rest (ascii "Content-Range:") then skipBlanks (rest.drop 14)
  else rest

/-- The quote that `name="` or `filename="` opens is closed in the window. -/
def QuoteClosed (field rest : List UInt8) : Prop :=
  caseBegins rest field = true → 34 ∈ rest.drop field.length

/-- So are the quotes of a `form-data` value. -/
def FormClosed (rest : List UInt8) : Prop :=
  caseBegins rest (ascii "form-data") = true →
    QuoteClosed (ascii "name=\"") (skipSeparators (rest.drop 9)) ∧
      QuoteClosed (ascii "filename=\"") (behindName (skipSeparators (rest.drop 9)))

/-- So are the quotes of a line. -/
def LineClosed (rest : List UInt8) : Prop :=
  caseBegins rest (ascii "Content-Disposition:") = true → FormClosed (skipBlanks (rest.drop 20))

/-- **The lines are whole**: up to the empty line or the end of the window every quote is closed
and every line ends. -/
inductive LinesWhole : List UInt8 → Prop
  | nil : LinesWhole []
  | blank {rest : List UInt8} (hblank : caseBegins rest crlf = true) : LinesWhole rest
  | line {rest : List UInt8} {i : ℕ} (hclosed : LineClosed rest)
      (hend : memstr crlf (behindFields rest) = some i)
      (hnext : LinesWhole ((behindFields rest).drop (i + 2))) : LinesWhole rest

/-- The line gives the part a name. -/
def namesPart (rest : List UInt8) : Bool :=
  let value := skipBlanks (rest.drop 20)
  caseBegins rest (ascii "Content-Disposition:") && caseBegins value (ascii "form-data") &&
    caseBegins (skipSeparators (value.drop 9)) (ascii "name=\"")

/-- The lines end with the empty one, and one before it gives the part a name, unless it has one
already. -/
inductive LinesNamed : Bool → List UInt8 → Prop
  | blank {named : Bool} {rest : List UInt8} (hblank : caseBegins rest crlf = true)
      (hnamed : named = true) : LinesNamed named rest
  | line {named : Bool} {rest : List UInt8} {i : ℕ} (hblank : ¬ caseBegins rest crlf = true)
      (hend : memstr crlf (behindFields rest) = some i)
      (hnext : LinesNamed (named || namesPart rest) ((behindFields rest).drop (i + 2))) :
      LinesNamed named rest

/-- The window begins with the header of a part that has a name. -/
def HeaderNamed (boundary : CString) (w : List UInt8) : Prop :=
  ¬ strBeginWithStrs w (lastBoundary boundary) = true ∧
    ∃ rest, skipBoundary boundary w = some rest ∧ LinesNamed false rest

/-- The header that the window begins with is whole, if it begins with one. -/
def HeaderWhole (boundary : CString) (w : List UInt8) : Prop :=
  strBeginWithStrs w (lastBoundary boundary) = true ∨
    ∀ rest, skipBoundary boundary w = some rest → LinesWhole rest

section
variable {h : PartHeader} {rest : List UInt8}

theorem quoted_of_mem (hmem : 34 ∈ rest) : ∃ str, quoted rest = .ok (str, behindQuote rest) := by
  rw [quoted, behindQuote]
  cases hdrop : rest.dropWhile (· != 34) with
  | nil =>
      have hall := List.dropWhile_eq_nil_iff.mp hdrop 34 hmem
      exact absurd hall (by decide)
  | cons b after => exact ⟨_, rfl⟩

theorem quoted_of_notMem (hmem : 34 ∉ rest) : quoted rest = .error .overrun := by
  have hdrop : rest.dropWhile (· != 34) = [] :=
    List.dropWhile_eq_nil_iff.mpr fun b hb => bne_iff_ne.mpr fun h => hmem (h ▸ hb)
  rw [quoted, hdrop]

theorem fieldName_closed (h : PartHeader) (rest : List UInt8) :
    (QuoteClosed (ascii "name=\"") rest ∧ ∃ h', fieldName h rest = .ok (h', behindName rest) ∧
        h'.name.isSome = (h.name.isSome || caseBegins rest (ascii "name=\""))) ∨
      (¬ QuoteClosed (ascii "name=\"") rest ∧ fieldName h rest = .error .overrun) := by
  rw [fieldName, behindName, QuoteClosed]
  split_ifs with hbegins
  · by_cases hmem : 34 ∈ rest.drop 6
    · obtain ⟨str, hquoted⟩ := quoted_of_mem hmem
      exact .inl ⟨fun _ => hmem, { h with name := some str }, by rw [hquoted], by simp [hbegins]⟩
    · exact .inr ⟨fun hclosed => hmem (hclosed hbegins), by rw [quoted_of_notMem hmem]⟩
  · exact .inl ⟨fun hb => absurd hb hbegins, h, rfl, by simp [hbegins]⟩

theorem fileName_closed (h : PartHeader) (rest : List UInt8) :
    (QuoteClosed (ascii "filename=\"") rest ∧
        ∃ h', fileName h rest = .ok (h', behindFilename rest) ∧ h'.name = h.name) ∨
      (¬ QuoteClosed (ascii "filename=\"") rest ∧ fileName h rest = .error .overrun) := by
  rw [fileName, behindFilename, QuoteClosed]
  split_ifs with hbegins
  · by_cases hmem : 34 ∈ rest.drop 10
    · obtain ⟨str, hquoted⟩ := quoted_of_mem hmem
      exact .inl ⟨fun _ => hmem, { h with filename := some str }, by rw [hquoted], rfl⟩
    · exact .inr ⟨fun hclosed => hmem (hclosed hbegins), by rw [quoted_of_notMem hmem]⟩
  · exact .inl ⟨fun hb => absurd hb hbegins, h, rfl, rfl⟩

theorem formData_closed (h : PartHeader) (rest : List UInt8) :
    (FormClosed rest ∧ ∃ h', formData h rest = .ok (h', behindForm rest) ∧
        h'.name.isSome = (h.name.isSome || caseBegins rest (ascii "form-data") &&
          caseBegins (skipSeparators (rest.drop 9)) (ascii "name=\""))) ∨
      (¬ FormClosed rest ∧ formData h rest = .error .overrun) := by
  rw [formData, behindForm, FormClosed]
  split_ifs with hbegins
  · obtain ⟨hname, h', hfield, hnamed⟩ | ⟨hname, hfield⟩ :=
      fieldName_closed h (skipSeparators (rest.drop 9))
    · rw [hfield]
      obtain ⟨hfile, h'', hfilename, hsame⟩ | ⟨hfile, hfilename⟩ :=
        fileName_closed h' (behindName (skipSeparators (rest.drop 9)))
      · refine .inl ⟨fun _ => ⟨hname, hfile⟩, h'', hfilename, ?_⟩
        rw [hsame, hnamed, hbegins, Bool.true_and]
      · exact .inr ⟨fun hclosed => hfile (hclosed hbegins).2, hfilename⟩
    · rw [hfield]
      exact .inr ⟨fun hclosed => hname (hclosed hbegins).1, rfl⟩
  · exact .inl ⟨fun hb => absurd hb hbegins, h, rfl, by simp [hbegins]⟩

/-- The tests at the beginning of a line fail only at a quote that is not closed. -/
theorem headerLine_closed (h : PartHeader) (rest : List UInt8) :
    (LineClosed rest ∧ ∃ h', headerLine h rest = .ok (.field h' (behindFields rest)) ∧
        h'.name.isSome = (h.name.isSome || namesPart rest)) ∨
      (caseBegins rest crlf = true ∧ headerLine h rest = .ok (.blank (rest.drop 2))) ∨
      (¬ LineClosed rest ∧ headerLine h rest = .error .overrun) := by
  have hother (hdisp : ¬ caseBegins rest (ascii "Content-Disposition:") = true) :
      h.name.isSome = (h.name.isSome || namesPart rest) := by
    simp [namesPart, hdisp]
  rw [headerLine, behindFields, LineClosed]
  split_ifs with hdisp htype hrange hblank
  · obtain ⟨hclosed, h', hform, hnamed⟩ | ⟨hclosed, hform⟩ :=
      formData_closed h (skipBlanks (rest.drop 20))
    · refine .inl ⟨fun _ => hclosed, h', by rw [hform], ?_⟩
      rw [hnamed, namesPart, hdisp, Bool.true_and]
    · exact .inr (.inr ⟨fun hline => hclosed (hline hdisp), by rw [hform]⟩)
  · exact .inl ⟨fun hb => absurd hb hdisp, _, rfl, hother hdisp⟩
  · exact .inl ⟨fun hb => absurd hb hdisp, h, rfl, hother hdisp⟩
  · exact .inr (.inl ⟨hblank, rfl⟩)
  · exact .inl ⟨fun hb => absurd hb hdisp, h, rfl, hother hdisp⟩

/-- An empty line is none of the others. -/
theorem headerLine_of_blank (hblank : caseBegins rest crlf = true) :
    headerLine h rest = .ok (.blank (rest.drop 2)) := by
  cases rest with
  | nil => exact absurd hblank (by decide)
  | cons b rest =>
      have hb : toLower b = 13 := ((caseBegins_cons _ _ _ _).mp hblank).1
      have hother (p : List UInt8) : caseBegins (b :: rest) (67 :: p) = false := by
        rw [caseBegins, hb]
        rfl
      have hdisp : caseBegins (b :: rest) (ascii "Content-Disposition:") = false := hother _
      have htype : caseBegins (b :: rest) (ascii "Content-Type:") = false := hother _
      have hrange : caseBegins (b :: rest) (ascii "Content-Range:") = false := hother _
      simp [headerLine, hdisp, htype, hrange, hblank]

theorem linesWhole_cons_iff {b : UInt8} (hblank : ¬ caseBegins (b :: rest) crlf = true) :
    LinesWhole (b :: rest) ↔ LineClosed (b :: rest) ∧
      ∃ i, memstr crlf (behindFields (b :: rest)) = some i ∧
        LinesWhole ((behindFields (b :: rest)).drop (i + 2)) := by
  constructor
  · intro hwhole
    cases hwhole with
    | blank h => exact absurd h hblank
    | line hclosed hend hnext => exact ⟨hclosed, _, hend, hnext⟩
  · rintro ⟨hclosed, i, hend, hnext⟩
    exact .line hclosed hend hnext

/-- **The loop succeeds on the lines that are whole.** -/
theorem headerLines_ok_iff {fuel : ℕ} (hfuel : rest.length ≤ fuel) :
    (∃ header, headerLines fuel h rest = .ok header) ↔ LinesWhole rest := by
  induction fuel generalizing h rest with
  | zero =>
      obtain rfl := List.length_eq_zero_iff.mp (Nat.le_zero.mp hfuel)
      exact ⟨fun _ => .nil, fun _ => ⟨_, rfl⟩⟩
  | succ fuel ih =>
      cases rest with
      | nil => exact ⟨fun _ => .nil, fun _ => ⟨_, rfl⟩⟩
      | cons b rest =>
          by_cases hblank : caseBegins (b :: rest) crlf = true
          · exact ⟨fun _ => .blank hblank,
              fun _ => ⟨_, headerLines_blank (headerLine_of_blank hblank)⟩⟩
          rw [linesWhole_cons_iff hblank]
          obtain ⟨hclosed, h', hline, -⟩ | ⟨hb, -⟩ | ⟨hopen, hline⟩ :=
            headerLine_closed h (b :: rest)
          · have hsuf : behindFields (b :: rest) <:+ b :: rest := by
              obtain ⟨_, line, hfield, hsuf⟩ | hother | hother := headerLine_cases h (b :: rest)
              all_goals rw [hline] at *
              · cases hfield
                exact hsuf
              · cases hother
              · cases hother
            have hle := hsuf.length_le
            cases hend : memstr crlf (behindFields (b :: rest)) with
            | none =>
                have hskip : skipLine (behindFields (b :: rest)) = .error .nullPointer := by
                  rw [skipLine, hend]
                simp [headerLines, hline, hskip]
            | some i =>
                have hskip : skipLine (behindFields (b :: rest)) =
                    .ok ((behindFields (b :: rest)).drop (i + 2)) := by rw [skipLine, hend]
                rw [headerLines_field hline hskip, ih (by rw [List.length_drop]; omega)]
                simp [hclosed]
          · exact absurd hb hblank
          · simp [headerLines, hline, hopen]

theorem not_linesNamed_nil (named : Bool) : ¬ LinesNamed named [] := by
  rintro (⟨hblank, -⟩ | ⟨-, hend, -⟩)
  · cases hblank
  · cases hend

/-- **The loop finds a name** exactly where the lines give one. -/
theorem linesNamed_iff {fuel : ℕ} {header : Header}
    (hlines : headerLines fuel h rest = .ok header) :
    LinesNamed h.name.isSome rest ↔
      ∃ h' after, header = .ended h' after ∧ h'.name.isSome = true := by
  induction fuel generalizing h rest with
  | zero =>
      cases rest with
      | nil =>
          cases hlines
          simp [not_linesNamed_nil]
      | cons b rest => cases hlines
  | succ fuel ih =>
      cases rest with
      | nil =>
          cases hlines
          simp [not_linesNamed_nil]
      | cons b rest =>
          by_cases hblank : caseBegins (b :: rest) crlf = true
          · rw [headerLines_blank (headerLine_of_blank hblank)] at hlines
            cases hlines
            constructor
            · rintro (⟨-, hnamed⟩ | ⟨hnot, -, -⟩)
              · exact ⟨h, _, rfl, hnamed⟩
              · exact absurd hblank hnot
            · rintro ⟨_, _, ⟨⟩, hnamed⟩
              exact .blank hblank hnamed
          obtain ⟨-, h', hline, hnamed⟩ | ⟨hb, -⟩ | ⟨-, hline⟩ :=
            headerLine_closed h (b :: rest)
          · cases hend : memstr crlf (behindFields (b :: rest)) with
            | none =>
                have hskip : skipLine (behindFields (b :: rest)) = .error .nullPointer := by
                  rw [skipLine, hend]
                simp [headerLines, hline, hskip] at hlines
            | some i =>
                have hskip : skipLine (behindFields (b :: rest)) =
                    .ok ((behindFields (b :: rest)).drop (i + 2)) := by rw [skipLine, hend]
                rw [headerLines_field hline hskip] at hlines
                rw [← ih hlines, hnamed]
                constructor
                · rintro (⟨hb, -⟩ | ⟨-, hend', hnext⟩)
                  · exact absurd hb hblank
                  · obtain rfl := Option.some.inj (hend.symm.trans hend')
                    exact hnext
                · exact .line hblank hend
          · exact absurd hb hblank
          · simp [headerLines, hline] at hlines

/-- The parser returns exactly on whole headers. -/
theorem parseHeader_ok_iff (u : UploadSession) (w : List UInt8) :
    (∃ r, parseHeader u w = .ok r) ↔ HeaderWhole u.boundary w := by
  rw [parseHeader, HeaderWhole]
  by_cases hlast : strBeginWithStrs w (lastBoundary u.boundary) = true
  · rw [if_pos hlast]
    exact ⟨fun _ => .inl hlast, fun _ => ⟨_, rfl⟩⟩
  · rw [if_neg hlast]
    cases hskip : skipBoundary u.boundary w with
    | none => simp
    | some rest =>
        simp only [hlast, Option.some.injEq, forall_eq']
        rw [← headerLines_ok_iff (h := .empty) le_rfl]
        cases headerLines rest.length .empty rest with
        | error fault => simp
        | ok header => cases header <;> simp

end

/-! ### The law -/

section
variable {u : UploadSession} {w : List UInt8}

theorem notMem_boundaries (boundary : CString) :
    (∀ m ∈ lastBoundary boundary, 0 ∉ m) ∧ (∀ m ∈ normalBoundary boundary, 0 ∉ m) ∧
      ∀ m ∈ firstBoundary boundary, 0 ∉ m := by
  have hcrlf : 0 ∉ crlf := by decide
  have hend : 0 ∉ ascii "--\r\n" := by decide
  simp [lastBoundary, normalBoundary, firstBoundary, hcrlf, hend, boundary.noNul]

theorem boundaryLineAt_eq (boundary : CString) (w : List UInt8) :
    ∃ k, boundaryLineAt boundary (w ++ [0]) = .ok k ∧
      skipBoundary boundary w = k.map w.drop ∧ ∀ i ∈ k, i ≤ w.length := by
  obtain ⟨-, hnormal, hfirst⟩ := notMem_boundaries boundary
  rw [boundaryLineAt, skipBoundary, beginsStrsIn_eq hnormal, beginsStrsIn_eq hfirst]
  cases hn : strBeginWithStrs w (normalBoundary boundary) with
  | true =>
      refine ⟨some (boundary.strlen + 4), rfl, rfl, ?_⟩
      rintro i ⟨⟩
      exact length_normalBoundary boundary ▸ length_le_of_strBegin hn
  | false =>
      cases hf : strBeginWithStrs w (firstBoundary boundary) with
      | true =>
          refine ⟨some (boundary.strlen + 2), rfl, rfl, ?_⟩
          rintro i ⟨⟩
          exact length_firstBoundary boundary ▸ length_le_of_strBegin hf
      | false => exact ⟨none, rfl, rfl, fun i hi => absurd hi (Option.not_mem_none i)⟩

theorem endSection_nameEntries (u : UploadSession) :
    u.endSection.nameEntries = u.nameEntries := by
  rw [UploadSession.endSection]
  split_ifs <;> rfl

/-- The parser adds an entry for a header that has a name, and only then. -/
theorem headerNamed_iff {found : Option (UploadSession × List UInt8)}
    (hparse : parseHeader u w = .ok found) :
    HeaderNamed u.boundary w ↔
      ∃ u' rest, found = some (u', rest) ∧ u'.nameEntries ≠ u.nameEntries := by
  rw [parseHeader] at hparse
  rw [HeaderNamed]
  by_cases hlast : strBeginWithStrs w (lastBoundary u.boundary) = true
  · rw [if_pos hlast] at hparse
    cases hparse
    simp [hlast]
  rw [if_neg hlast] at hparse
  cases hskip : skipBoundary u.boundary w with
  | none =>
      rw [hskip] at hparse
      cases hparse
      simp
  | some behind =>
      rw [hskip] at hparse
      rcases hlines : headerLines behind.length .empty behind with fault | header
      · simp [hlines] at hparse
      have hnamed : LinesNamed false behind ↔ _ := linesNamed_iff hlines
      cases header with
      | ranOut =>
          simp only [hlines, Except.ok.injEq] at hparse
          simp [← hparse, endSection_nameEntries, hnamed]
      | ended h after =>
          simp only [hlines, Except.ok.injEq] at hparse
          simp [← hparse, UploadSession.startPart, endSection_nameEntries, hnamed, hlast,
            Option.isSome_iff_ne_none]

/-- There is memory for one more entry, and its number fits into a half-word. -/
def RoomForName (alloc : Bool) (u : UploadSession) : Prop :=
  alloc = true ∧ (u.nameEntries.length + 1) % 65536 ≠ 0

/-- The session takes over the strings of a header, if there is room for its name. -/
theorem addNameEntry_cases (alloc : Bool) (u : UploadSession) (h : PartHeader) :
    (((u.endSection.startPart h).nameEntries = u.nameEntries ∨ RoomForName alloc u) ∧
      addNameEntry alloc
          { u.endSection with filename := h.filename, contentType := h.contentType } h.name =
        .ok (u.endSection.startPart h)) ∨
    (¬ ((u.endSection.startPart h).nameEntries = u.nameEntries ∨ RoomForName alloc u) ∧
      ∃ fault, addNameEntry alloc
          { u.endSection with filename := h.filename, contentType := h.contentType } h.name =
        .error fault) := by
  rw [UploadSession.startPart, RoomForName]
  cases h.name with
  | none => exact .inl ⟨.inl (by simp [endSection_nameEntries]), by simp [addNameEntry]⟩
  | some value =>
      rw [addNameEntry]
      simp only [endSection_nameEntries, Option.map_some, Option.toList_some]
      split_ifs with halloc hcount
      · exact .inr ⟨by simp [halloc], .nullPointer, rfl⟩
      · exact .inr ⟨by simp [hcount], .noNameEntry, rfl⟩
      · exact .inl ⟨.inr ⟨by simpa using halloc, hcount⟩, rfl⟩

/-- **The parser with pointers follows the parser on lists**, except that it fails when there is
no room for a name it has found. -/
theorem parseHeaderAt_cases (alloc : Bool) (u : UploadSession) (w : List UInt8) :
    (∃ fault, parseHeader u w = .error fault ∧ parseHeaderAt alloc u w = .error fault) ∨
    (parseHeader u w = .ok none ∧ parseHeaderAt alloc u w = .ok none) ∨
    ∃ u' rest, parseHeader u w = .ok (some (u', rest)) ∧
      ((u'.nameEntries = u.nameEntries ∨ RoomForName alloc u) ∧
          parseHeaderAt alloc u w = .ok (some (u', w.length - rest.length)) ∨
        ¬ (u'.nameEntries = u.nameEntries ∨ RoomForName alloc u) ∧
          ∃ fault, parseHeaderAt alloc u w = .error fault) := by
  obtain ⟨hlast, -, -⟩ := notMem_boundaries u.boundary
  obtain ⟨k, hline, hskip, hk⟩ := boundaryLineAt_eq u.boundary w
  rw [parseHeader, parseHeaderAt, beginsStrsIn_eq hlast, hskip]
  simp only [bind, Except.bind, hline]
  cases hl : strBeginWithStrs w (lastBoundary u.boundary) with
  | true =>
      refine .inr (.inr ⟨u, _, rfl, .inl ⟨.inl rfl, ?_⟩⟩)
      have hlen := length_le_of_strBegin hl
      rw [length_lastBoundary] at hlen
      have hback : w.length - (w.drop (u.boundary.strlen + 6)).length = u.boundary.strlen + 6 := by
        rw [List.length_drop]
        omega
      rw [hback]
      rfl
  | false =>
      cases k with
      | none => exact .inr (.inl ⟨rfl, rfl⟩)
      | some k =>
          have hle := hk k rfl
          have hf : Follows w.length ⟨w ++ [0], k, none, none, none⟩ .empty (w.drop k) :=
            ⟨by simp, List.drop_append_of_le_length hle, trivial, trivial, trivial⟩
          have hloop := hf.headerLines (w.length - k)
          simp only [Bool.false_eq_true, if_false, Option.map_some, List.length_drop]
          obtain ⟨fault, hat, hlist⟩ | ⟨⟨blank, c⟩, header, hat, hlist, hheader⟩ := hloop
          · rw [hat, hlist]
            exact .inl ⟨fault, rfl, rfl⟩
          · rw [hat, hlist]
            cases header with
            | ranOut =>
                cases blank with
                | true => exact hheader.elim
                | false =>
                    refine .inr (.inr ⟨_, [], rfl, .inl ⟨.inl (endSection_nameEntries u), ?_⟩⟩)
                    have hptr : c.ptr = w.length := hheader
                    simp only [hptr, List.length_nil, Nat.sub_zero]
                    rfl
            | ended h after =>
                cases blank with
                | false => exact hheader.elim
                | true =>
                    have hf' : Follows w.length c h after := hheader
                    have hptr := hf'.ptr_add
                    refine .inr (.inr ⟨_, after, rfl, ?_⟩)
                    have hback : w.length - after.length = c.ptr := by omega
                    simp only [if_true, strdup_of_strOf hf'.filename,
                      strdup_of_strOf hf'.contentType, strdup_of_strOf hf'.name, hback]
                    obtain ⟨hroom, hadd⟩ | ⟨hroom, fault, hadd⟩ := addNameEntry_cases alloc u h
                    · rw [hadd]
                      exact .inl ⟨hroom, rfl⟩
                    · rw [hadd]
                      exact .inr ⟨hroom, fault, rfl⟩

/-- The data is a file's, has no line, or there is a name whose value its line becomes. -/
def SectionStored (alloc : Bool) (s : WebSession) (data : List UInt8) : Prop :=
  (s.upload.inFile = true ∧ data ≠ []) ∨ memstr crlf data = none ∨
    (s.upload.nameEntries.length % 65536 ≠ 0 ∧ alloc = true)

/-- **`_handle_section` on a part of the buffer follows the one on lists**, except that it fails
when it has a value to store and no entry or no memory for it. -/
theorem handleSectionAt_cases (alloc : Bool) (s : WebSession) (data tail : List UInt8) :
    (SectionStored alloc s data ∧ ∃ t, handleSection s data = .ok t ∧
        handleSectionAt alloc s (data ++ tail) data.length = .ok t) ∨
      (¬ SectionStored alloc s data ∧
        ∃ fault, handleSectionAt alloc s (data ++ tail) data.length = .error fault) := by
  rw [handleSectionAt, handleSection, memstrIn_eq (by decide), SectionStored]
  by_cases hfile : s.upload.inFile = true ∧ data ≠ []
  · have hlen : (s.upload.inFile && data.length != 0) = true := by simpa using hfile
    rw [if_pos hlen, if_pos hlen, if_neg (by simp), List.take_left]
    exact .inl ⟨.inl hfile, _, rfl, rfl⟩
  · have hlen : ¬ (s.upload.inFile && data.length != 0) = true := by simpa using hfile
    rw [if_neg hlen, if_neg hlen]
    cases hfind : memstr crlf data with
    | none => exact .inl ⟨.inr (.inl rfl), s, rfl, rfl⟩
    | some i =>
        obtain ⟨hi, -, -⟩ := memstr_eq_some_iff.mp hfind
        simp only [bind, Except.bind]
        split_ifs with hcount halloc hover
        · exact .inr ⟨by simp [hfile, hcount], _, rfl⟩
        · exact .inr ⟨by simp [hfile, halloc], _, rfl⟩
        · rw [List.length_append] at hover
          omega
        · have hne : s.upload.nameEntries ≠ [] := fun h => hcount (by rw [h]; rfl)
          rw [List.getLast?_eq_getLast_of_ne_nil hne, List.take_append_of_le_length hi]
          exact .inl ⟨.inr (.inr ⟨hcount, by simpa using halloc⟩), _, rfl, rfl⟩

/-- **Exactly when the parser and `_handle_section` access only what they may.** The header has
to be whole and the list of names to have room for its name; and there has to be a name when a
section other than a file has a line. -/
theorem upload_parser_safe_iff (alloc : Bool) (u : UploadSession) (w : List UInt8)
    (s : WebSession) (data tail : List UInt8) :
    ((∃ r, parseHeaderAt alloc u w = .ok r) ↔
      HeaderWhole u.boundary w ∧ (HeaderNamed u.boundary w → RoomForName alloc u)) ∧
    ((∃ t, handleSectionAt alloc s (data ++ tail) data.length = .ok t) ↔
      SectionStored alloc s data) := by
  constructor
  · rw [← parseHeader_ok_iff]
    obtain ⟨fault, hlist, hat⟩ | ⟨hlist, hat⟩ | ⟨u', rest, hlist, hat⟩ :=
      parseHeaderAt_cases alloc u w
    · simp [hlist, hat]
    · simp [hlist, hat, headerNamed_iff hlist]
    · have hnamed : (HeaderNamed u.boundary w → RoomForName alloc u) ↔
          u'.nameEntries = u.nameEntries ∨ RoomForName alloc u := by
        simp [headerNamed_iff hlist, imp_iff_not_or]
      rw [hnamed]
      obtain ⟨hroom, hat⟩ | ⟨hroom, fault, hat⟩ := hat
      · rw [hlist, hat]
        exact iff_of_true ⟨_, rfl⟩ ⟨⟨_, rfl⟩, hroom⟩
      · rw [hlist, hat]
        exact iff_of_false (fun ⟨_, h⟩ => nomatch h) fun hsafe => hroom hsafe.2
  · obtain ⟨hstored, t, -, hat⟩ | ⟨hstored, fault, hat⟩ := handleSectionAt_cases alloc s data tail
    · simp [hstored, hat]
    · simp [hstored, hat]

end

/-- A part whose name is quoted at the beginning only, and behind it the closing boundary. -/
def openQuote : List UInt8 :=
  ascii "--b\r\nContent-Disposition: form-data; name=\"x\r\n\r\n--b--\r\n"

/-- The search for the second quote leaves the buffer; and a line that stands in front of every
name is stored into an entry of the empty list. -/
theorem upload_quote_overruns :
    parseHeaderAt true (sessionInit ⟨ascii "--b", by decide⟩ 0 []).upload openQuote =
        .error .overrun ∧
      handleSectionAt true (sessionInit ⟨ascii "--b", by decide⟩ 0 []) (ascii "x\r\n" ++ [0]) 3 =
        .error .noNameEntry := by
  decide +kernel

end RtBoot
