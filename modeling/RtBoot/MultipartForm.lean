import RtBoot.UploadForm

/-!
# Forms with Any Number of Parts

A `multipart/form-data` body with any sequence of text fields and files. Each part has a
boundary line, a header and its content; the closing boundary ends the body. The receiver
looks at windows of the body, and what it does depends on what lies ahead of it: the rest of
a content and then the parts that follow.

## Main results

* `MultipartForm.chunk_spec`: the data it handles at a time ends in the content it stands in,
  or right behind the line end of the delimiter.
* `MultipartForm.eq_rangeOf_of_overlaps`: bytes from inside a content, and up to two behind it,
  are bytes of no other part.
-/

namespace RtBoot

/-- A text field or a file: its header, whatever lines it has, the name the header gives it, and
its content. The field of a file is one of those that stand for an image. -/
structure FormPart where
  head : PartLines
  name : CString
  content : List UInt8
  name_eq : head.header.name = some name
  named : head.header.isFile → (fieldKind name.bytes).isSome
  deriving DecidableEq

/-- The part is a file. -/
def FormPart.isFile (p : FormPart) : Bool :=
  p.head.header.isFile

/-- A form: its boundary token and its parts, none of which holds the delimiter. -/
structure MultipartForm where
  token : CString
  parts : List FormPart
  token_cr : 13 ∉ token.bytes
  content_free : ∀ p ∈ parts, ¬ crlf ++ (formBoundary token).bytes <:+: p.content

/-! ### Chunks of data -/

/-- A window of a content and an incomplete delimiter. What is handled of it is what stands in
front of the delimiter, or all of it. -/
theorem FileForm.chunk_of_no_delimiter (f : FileForm) (past : ℕ → UInt8) {p : ℕ}
    (hp : p < f.content.length + f.delimiter.length)
    (hb : strBeginWithStrs (f.window p 0) (commonBoundary f.boundary) = false)
    (hno : ¬ f.delimiter <:+: f.window p 0) (hempty : f.content = [] → p = 0 ∨ p = 2) :
    dataEnd past f.boundary (f.window p 0) ≤ f.content.length ∨
      dataEnd past f.boundary (f.window p 0) = (f.window p 0).length ∧
        (f.window p 0).length = f.content.length + 2 := by
  have hdelim := f.length_delimiter
  have hps : p ≤ f.stream.length := by
    rw [f.length_stream]
    omega
  have hlen : (f.window p 0).length = p := f.length_window hps 0
  rw [dataEnd, nextPossibleBoundary, hb, memstrs, flatten_commonBoundary,
    memstr_eq_none_iff.mpr hno]
  -- all of the window is handled: right as long as it ends in the content or behind the line end
  have hall : p ≤ f.content.length ∨ p = f.content.length + 2 →
      (f.window p 0).length ≤ f.content.length ∨
        (f.window p 0).length = (f.window p 0).length ∧
          (f.window p 0).length = f.content.length + 2 := by
    rw [hlen]
    exact Or.imp_right fun h => ⟨rfl, h⟩
  simp only [Bool.false_eq_true, if_false]
  cases hrchr : memrchr (f.window p 0) 13 with
  | none =>
      refine hall ?_
      by_contra hgt
      have hne : f.content ≠ [] := by
        intro hnil
        have := hempty hnil
        rw [hnil, List.length_nil] at hgt
        omega
      have hpos := List.length_pos_iff.mpr hne
      refine (memrchr_eq_none_iff (by decide)).mp hrchr f.content.length hpos ?_
      rw [f.getElem?_window_delimiter (o := 0) (by omega) (by omega) (by omega)]
      rfl
  | some i =>
      obtain ⟨-, hi, hlast⟩ := (memrchr_eq_some_iff (by decide)).mp hrchr
      have hilt : i < (f.window p 0).length := (List.getElem?_eq_some_iff.mp hi).1
      obtain ⟨hile, hexact⟩ := eq_content_of_last_cr (Nat.zero_le _) hp hi (by omega) hlast
      rw [Nat.zero_add] at hile hexact
      dsimp only
      split_ifs with hend hcrlf hcmp
      · exact .inl hile
      · refine hall ?_
        by_cases hgt : f.content.length < p
        · have := hexact hgt
          omega
        · omega
      · exact .inl hile
      · refine hall (.inl ?_)
        by_contra hgt
        exact hcmp (memcmp_boundary past (by rw [Nat.zero_add]; exact hexact (by omega)) hp hps)

/-! ### The body -/

variable {p : FormPart} {ps : List FormPart}

namespace MultipartForm

variable (form : MultipartForm)

/-- The boundary of the form. -/
def boundary : CString :=
  formBoundary form.token

/-- The delimiter: a line end and the boundary. -/
def delimiter : List UInt8 :=
  crlf ++ form.boundary.bytes

/-- The closing boundary. -/
def closing : List UInt8 :=
  form.delimiter ++ ascii "--\r\n"

/-- The parts, each behind a delimiter, and the closing boundary. -/
def rest : List FormPart → List UInt8
  | [] => form.closing
  | p :: ps => form.delimiter ++ (crlf ++ (p.head.lines ++ (p.content ++ rest ps)))

/-- The whole body, which has no line end in front. -/
def body : List UInt8 :=
  (form.rest form.parts).drop 2

/-- A content of the form, as a form with one file. -/
def segment (content : List UInt8) (h : ¬ form.delimiter <:+: content) : FileForm where
  token := form.token
  head := .file (.upToNul []) (.upToNul []) (.upToNul []) List.not_mem_nil List.not_mem_nil
    List.not_mem_nil
  content := content
  token_cr := form.token_cr
  isFile := rfl
  content_free := h

theorem four_le_length_delimiter : 4 ≤ form.delimiter.length := by
  simp [delimiter, crlf, boundary, formBoundary]

theorem length_rest_cons (p : FormPart) (ps : List FormPart) :
    (form.rest (p :: ps)).length =
      form.delimiter.length +
        (2 + (p.head.lines.length + (p.content.length + (form.rest ps).length))) := by
  have hcrlf : crlf.length = 2 := rfl
  simp only [rest, List.length_append, hcrlf]

theorem closing_length_le_rest (ps : List FormPart) :
    form.closing.length ≤ (form.rest ps).length := by
  induction ps with
  | nil => exact le_refl _
  | cons p ps ih =>
      rw [length_rest_cons]
      omega

/-- The more parts lie ahead, the more bytes do. -/
theorem length_rest_le {l l' : List FormPart} (h : l <:+ l') :
    (form.rest l).length ≤ (form.rest l').length := by
  obtain ⟨pre, rfl⟩ := h
  induction pre with
  | nil => exact le_refl _
  | cons p pre ih =>
      rw [List.cons_append, length_rest_cons]
      omega

/-! ### What the receiver finds in a window -/

theorem flatten_commonBoundary : (commonBoundary form.boundary).flatten = form.delimiter := by
  simp [commonBoundary, delimiter]

theorem flatten_normalBoundary :
    (normalBoundary form.boundary).flatten = form.delimiter ++ crlf := by
  simp [normalBoundary, delimiter]

theorem flatten_firstBoundary :
    (firstBoundary form.boundary).flatten = form.boundary.bytes ++ crlf := by
  simp [firstBoundary]

/-- **Where the data handled at a time ends.** The window begins with the bytes `c` that are
left of a content: what is handled of it ends among them, or with the window, right behind the
line end of the delimiter; unless nothing is left of the content and the window is an incomplete
delimiter. -/
theorem chunk_spec (past : ℕ → UInt8) {c w tail : List UInt8} (hfree : ¬ form.delimiter <:+: c)
    (hw : w <+: c ++ (form.delimiter ++ tail))
    (hempty : c = [] → w.length = 0 ∨ w.length = 2 ∨ form.delimiter.length ≤ w.length) :
    dataEnd past form.boundary w ≤ c.length ∨
      dataEnd past form.boundary w = w.length ∧ w.length = c.length + 2 := by
  -- a window that reaches behind the delimiter holds it there
  have hdelim : c.length + form.delimiter.length ≤ w.length →
      form.delimiter <+: w.drop c.length := by
    intro hlong
    have hdrop : w.drop c.length <+: form.delimiter ++ tail := by
      have := hw.drop c.length
      rwa [List.drop_left] at this
    refine List.prefix_of_prefix_length_le (List.prefix_append _ _) hdrop ?_
    rw [List.length_drop]
    omega
  by_cases hb : strBeginWithStrs w (commonBoundary form.boundary) = true
  · rw [dataEnd, nextPossibleBoundary, if_pos hb]
    exact .inl (Nat.zero_le _)
  cases hfind : memstr form.delimiter w with
  | some i =>
      obtain ⟨-, hpre, hfirst⟩ := memstr_eq_some_iff.mp hfind
      rw [dataEnd, nextPossibleBoundary, if_neg hb, memstrs, flatten_commonBoundary, hfind]
      dsimp only [Option.getD_some]
      refine .inl ?_
      by_contra hgt
      have hlen := hpre.length_le
      have hpos := form.four_le_length_delimiter
      rw [List.length_drop] at hlen
      exact hfirst c.length (by omega) (hdelim (by omega))
  | none =>
      have hno := memstr_eq_none_iff.mp hfind
      have hshort : w.length < c.length + form.delimiter.length := by
        by_contra hge
        exact hno ((hdelim (by omega)).isInfix.trans (List.drop_suffix _ _).isInfix)
      -- the same window of a form whose only file has this content
      have hwindow : (form.segment c hfree).window w.length 0 = w := by
        have htake := List.prefix_iff_eq_take.mp hw
        have hstream : (form.segment c hfree).stream = (c ++ form.delimiter) ++ ascii "--\r\n" := by
          rw [List.append_assoc]
          rfl
        rw [FileForm.window, List.drop_zero, hstream, List.take_append_of_le_length
          (by rw [List.length_append]; omega)]
        rw [← List.append_assoc, List.take_append_of_le_length
          (by rw [List.length_append]; omega)] at htake
        exact htake.symm
      have hspec := (form.segment c hfree).chunk_of_no_delimiter past (p := w.length) hshort
        (by rw [hwindow]; exact Bool.eq_false_iff.mpr hb) (by rw [hwindow]; exact hno) ?_
      · rwa [hwindow] at hspec
      · intro hnil
        have hnil : c = [] := hnil
        rw [hnil, List.length_nil] at hshort
        rcases hempty hnil with h | h | h
        · exact .inl h
        · exact .inr h
        · omega

/-- A complete header behind a boundary line is parsed to its end. -/
theorem parseHeader_of_skipBoundary {u : UploadSession} (hu : u.boundary = form.boundary)
    {v w : List UInt8} (hlast : strBeginWithStrs v (lastBoundary form.boundary) = false)
    (hskip : skipBoundary form.boundary v = some (p.head.lines ++ w)) :
    parseHeader u v = .ok (some (u.endSection.startPart p.head.header, w)) := by
  rw [parseHeader, hu, hlast, hskip]
  dsimp only
  rw [p.head.reads]
  rfl

/-- The boundary line with its line end in front. -/
theorem skipBoundary_delimiter (w : List UInt8) :
    skipBoundary form.boundary (form.delimiter ++ (crlf ++ w)) = some w := by
  have hnormal : strBeginWithStrs (form.delimiter ++ (crlf ++ w))
      (normalBoundary form.boundary) = true := by
    rw [strBeginWithStrs_eq, flatten_normalBoundary, ← List.append_assoc]
    exact caseBegins_self_append _ _
  have hlength : form.boundary.strlen + 4 = (form.delimiter ++ crlf).length := by
    simp [delimiter, CString.strlen, crlf]
  rw [skipBoundary, if_pos hnormal, ← List.append_assoc, hlength, List.drop_left]

/-- The boundary line alone. -/
theorem skipBoundary_boundary (w : List UInt8) :
    skipBoundary form.boundary (form.boundary.bytes ++ (crlf ++ w)) = some w := by
  have hfirst : strBeginWithStrs (form.boundary.bytes ++ (crlf ++ w))
      (firstBoundary form.boundary) = true := by
    rw [strBeginWithStrs_eq, flatten_firstBoundary, ← List.append_assoc]
    exact caseBegins_self_append _ _
  -- the boundary begins with a dash, the delimiter with a carriage return
  have hnormal : strBeginWithStrs (form.boundary.bytes ++ (crlf ++ w))
      (normalBoundary form.boundary) ≠ true := by
    rw [strBeginWithStrs_eq]
    intro hbegin
    cases hbegin
  have hlength : form.boundary.strlen + 2 = (form.boundary.bytes ++ crlf).length := by
    simp [CString.strlen, crlf]
  rw [skipBoundary, if_neg hnormal, if_pos hfirst, ← List.append_assoc, hlength, List.drop_left]

/-- The parts `l` lie ahead, or all of them but the line end in front. -/
def Begins (l : List FormPart) (R : List UInt8) : Prop :=
  R = form.rest l ∨ R = (form.rest l).drop 2

theorem rest_eq_delimiter_append (ps : List FormPart) :
    ∃ tail, form.rest ps = form.delimiter ++ tail := by
  cases ps with
  | nil => exact ⟨_, rfl⟩
  | cons p ps => exact ⟨_, rfl⟩

/-- Either way a complete header is parsed to its end. -/
theorem Begins.parseHeader {form : MultipartForm} {R : List UInt8} (h : form.Begins (p :: ps) R) :
    ∃ head, R = head ++ (p.content ++ form.rest ps) ∧
      ∀ {u : UploadSession} (w : List UInt8), u.boundary = form.boundary →
        strBeginWithStrs (head ++ w) (lastBoundary form.boundary) = false →
        parseHeader u (head ++ w) = .ok (some (u.endSection.startPart p.head.header, w)) := by
  rcases h with rfl | rfl
  · refine ⟨form.delimiter ++ (crlf ++ p.head.lines), by simp [rest], ?_⟩
    intro u w hu hlast
    refine form.parseHeader_of_skipBoundary hu hlast ?_
    rw [List.append_assoc, List.append_assoc, form.skipBoundary_delimiter]
  · refine ⟨form.boundary.bytes ++ (crlf ++ p.head.lines), by simp [rest, delimiter, crlf], ?_⟩
    intro u w hu hlast
    refine form.parseHeader_of_skipBoundary hu hlast ?_
    rw [List.append_assoc, List.append_assoc, form.skipBoundary_boundary]

/-! ### Where the parts stand -/

end MultipartForm

/-- Where in the body the content of a part stands. -/
structure PartRange where
  part : FormPart
  start : ℕ
  stop : ℕ
  deriving DecidableEq

/-- Bytes of the body that have been written, and where they stood. -/
structure Placement where
  pos : ℕ
  data : List UInt8
  deriving DecidableEq, Repr

/-- Some of the bytes are bytes of the part. -/
def Placement.Overlaps (pl : Placement) (r : PartRange) : Prop :=
  pl.pos < r.stop ∧ r.start < pl.pos + pl.data.length
  deriving Decidable

namespace MultipartForm

variable (form : MultipartForm)

/-- The range of a part in front of the parts `ps`. -/
def rangeOf (p : FormPart) (ps : List FormPart) : PartRange where
  part := p
  start := form.body.length - (p.content.length + (form.rest ps).length)
  stop := form.body.length - (form.rest ps).length

/-- The ranges of the parts `ps` at the end of the form. -/
def rangesFrom : List FormPart → List PartRange
  | [] => []
  | p :: ps => form.rangeOf p ps :: rangesFrom ps

/-- The ranges of all parts. -/
def ranges : List PartRange :=
  form.rangesFrom form.parts

variable {form} {r : PartRange}

theorem mem_rangesFrom {l : List FormPart} :
    r ∈ form.rangesFrom l ↔ ∃ p ps, p :: ps <:+ l ∧ r = form.rangeOf p ps := by
  induction l with
  | nil => simp [rangesFrom]
  | cons p ps ih =>
      rw [rangesFrom, List.mem_cons, ih]
      constructor
      · rintro (rfl | ⟨p', ps', hsuf, rfl⟩)
        · exact ⟨p, ps, List.suffix_rfl, rfl⟩
        · exact ⟨p', ps', hsuf.trans (List.suffix_cons p ps), rfl⟩
      · rintro ⟨p', ps', hsuf, rfl⟩
        rcases List.suffix_cons_iff.mp hsuf with heq | hsuf
        · obtain ⟨rfl, rfl⟩ := List.cons_eq_cons.mp heq
          exact .inl rfl
        · exact .inr ⟨p', ps', hsuf, rfl⟩

theorem rangeOf_mem_ranges (h : p :: ps <:+ form.parts) :
    form.rangeOf p ps ∈ form.ranges :=
  mem_rangesFrom.mpr ⟨p, ps, h, rfl⟩

/-- Bytes of the closing boundary are bytes of no part. -/
theorem not_overlaps_closing {pl : Placement} (hr : r ∈ form.ranges)
    (hpos : form.body.length ≤ pl.pos + form.closing.length) : ¬ pl.Overlaps r := by
  obtain ⟨p, ps, -, rfl⟩ := mem_rangesFrom.mp hr
  have hle := form.closing_length_le_rest ps
  rintro ⟨hlt, -⟩
  dsimp only [rangeOf] at hlt
  omega

/-- **Bytes from inside a content**, and up to two behind it, are bytes of no other part. -/
theorem eq_rangeOf_of_overlaps (hparts : p :: ps <:+ form.parts)
    {pl : Placement} (hr : r ∈ form.ranges)
    (hpos : form.body.length ≤ pl.pos + (p.content.length + (form.rest ps).length))
    (hend : pl.pos + pl.data.length + (form.rest ps).length ≤ form.body.length + 2)
    (hover : pl.Overlaps r) : r = form.rangeOf p ps := by
  obtain ⟨p', ps', hparts', rfl⟩ := mem_rangesFrom.mp hr
  have hdelim := form.four_le_length_delimiter
  obtain ⟨hstop, hstart⟩ := hover
  dsimp only [rangeOf] at hstop hstart
  rcases List.suffix_or_suffix_of_suffix hparts' hparts with hsuf | hsuf
  · rcases List.suffix_cons_iff.mp hsuf with heq | hlater
    · obtain ⟨rfl, rfl⟩ := List.cons_eq_cons.mp heq
      rfl
    · have hle := form.length_rest_le hlater
      rw [length_rest_cons] at hle
      omega
  · rcases List.suffix_cons_iff.mp hsuf with heq | hearlier
    · obtain ⟨rfl, rfl⟩ := List.cons_eq_cons.mp heq
      rfl
    · have hle := form.length_rest_le hearlier
      rw [length_rest_cons] at hle
      omega

end MultipartForm

end RtBoot
