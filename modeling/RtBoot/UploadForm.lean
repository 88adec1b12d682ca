import RtBoot.Upload

/-!
# Forms with One File

A `multipart/form-data` body with a single file part: the boundary line, the part header, the
content, and the closing boundary. `FileForm` carries what makes the part recognisable: its header
is one that the receiver reads as that of a file (`PartLines`), and the content does not hold the
delimiter. `PartLines.file` and `PartLines.text` are the headers browsers send.

Behind the header the body is a stream, the content and then the closing boundary. The
windows the receiver looks at are its sections: `f.window p q` is what lies between position
`q` and the `p` bytes that have arrived.

## Main results

* `PartLines.file`, `PartLines.text`: the receiver recognises the headers browsers send, and stops
  right behind them.
* `eq_of_delimiter_at`: the delimiter occurs in the stream at the closing boundary only.
* `next_spec`: a search for the next boundary never passes the end of the content, provided
  the window does not end between the line end and the boundary of the delimiter.
-/

namespace RtBoot

/-- The boundary string of the receiver: `--` and the token of the request header. -/
def formBoundary (token : CString) : CString :=
  ⟨45 :: 45 :: token.bytes, by simpa using token.noNul⟩

/-! ### Part headers -/

/-- The lines of a part header, with the empty line at their end, and what the parser takes from
them. It stops right behind them, whatever follows. -/
structure PartLines where
  lines : List UInt8
  header : PartHeader
  reads : ∀ rest, headerLines (lines ++ rest).length .empty (lines ++ rest) =
    .ok (.ended header rest)
  deriving DecidableEq

/-- A string in quotes. -/
theorem quoted_append {str : List UInt8} (hstr : 34 ∉ str) (rest : List UInt8) :
    quoted (str ++ 34 :: rest) = .ok (.upToNul str, rest) := by
  have hall : ∀ b ∈ str, (b != 34) = true := by
    intro b hb
    simpa using fun h : b = 34 => hstr (h ▸ hb)
  rw [quoted, List.dropWhile_append_of_pos hall, List.takeWhile_append_of_pos hall]
  simp

/-- The rest of a line is skipped with its line end. -/
theorem skipLine_append {line : List UInt8} (hline : 13 ∉ line) (rest : List UInt8) :
    skipLine (line ++ (crlf ++ rest)) = .ok rest := by
  have hfind : memstr crlf (line ++ (crlf ++ rest)) = some line.length := memstr_append hline rest
  have hdrop : (line ++ (crlf ++ rest)).drop (line.length + 2) = rest := by
    rw [← List.drop_drop, List.drop_left]
    rfl
  rw [skipLine, hfind]
  dsimp only
  rw [hdrop]

/-- The name of the field in a `Content-Disposition` line; what is behind it may be the name of a
file. -/
theorem headerLine_disposition (h : PartHeader) {name after rest : List UInt8} {h' : PartHeader}
    (hname : 34 ∉ name)
    (hfile : fileName { h with name := some (.upToNul name) } (skipSeparators after) =
      .ok (h', rest)) :
    headerLine h (ascii "Content-Disposition: form-data; name=\"" ++ (name ++ 34 :: after)) =
      .ok (.field h' rest) := by
  have hbegin : caseBegins (ascii "Content-Disposition: form-data; name=\"" ++ (name ++
      34 :: after)) (ascii "Content-Disposition:") = true := rfl
  have hvalue : skipBlanks ((ascii "Content-Disposition: form-data; name=\"" ++ (name ++
      34 :: after)).drop 20) = ascii "form-data; name=\"" ++ (name ++ 34 :: after) := rfl
  have hbegin' : caseBegins (ascii "form-data; name=\"" ++ (name ++ 34 :: after))
      (ascii "form-data") = true := rfl
  have hvalue' : skipSeparators ((ascii "form-data; name=\"" ++ (name ++
      34 :: after)).drop 9) = ascii "name=\"" ++ (name ++ 34 :: after) := rfl
  have hdrop : (ascii "name=\"" ++ (name ++ 34 :: after)).drop 6 = name ++ 34 :: after := rfl
  rw [headerLine, if_pos hbegin, hvalue, formData, if_pos hbegin', hvalue', fieldName,
    if_pos (caseBegins_self_append _ _), hdrop, quoted_append hname]
  dsimp only
  rw [hfile]

/-- The name of the file. -/
theorem fileName_append (h : PartHeader) {str : List UInt8} (hstr : 34 ∉ str) (rest : List UInt8) :
    fileName h (ascii "filename=\"" ++ (str ++ 34 :: rest)) =
      .ok ({ h with filename := some (.upToNul str) }, rest) := by
  have hdrop : (ascii "filename=\"" ++ (str ++ 34 :: rest)).drop 10 = str ++ 34 :: rest := rfl
  rw [fileName, if_pos (caseBegins_self_append _ _), hdrop, quoted_append hstr]

/-- Skipping blanks in front of a line end stays in the line. -/
theorem skipBlanks_append (str rest : List UInt8) :
    skipBlanks (str ++ (crlf ++ rest)) = skipBlanks str ++ (crlf ++ rest) := by
  induction str with
  | nil => rfl
  | cons b str ih =>
      by_cases hb : (b == 32) = true
      · simpa [skipBlanks, hb] using ih
      · simp [skipBlanks, hb]

/-- The `Content-Type` line gives the content type. -/
theorem headerLine_contentType (h : PartHeader) {type : List UInt8} (htype : 13 ∉ type)
    (rest : List UInt8) :
    headerLine h (ascii "Content-Type: " ++ (type ++ (crlf ++ rest))) =
        .ok (.field { h with contentType := some (.upToNul (skipBlanks type)) }
          (skipBlanks type ++ (crlf ++ rest))) ∧
      skipLine (skipBlanks type ++ (crlf ++ rest)) = .ok rest := by
  have hcr : 13 ∉ skipBlanks type := fun hmem => htype ((List.dropWhile_suffix _).subset hmem)
  have hfind : memstr crlf (skipBlanks type ++ (crlf ++ rest)) = some (skipBlanks type).length :=
    memstr_append hcr rest
  refine ⟨?_, skipLine_append hcr rest⟩
  generalize hafter : type ++ (crlf ++ rest) = after
  have hdisp : caseBegins (ascii "Content-Type: " ++ after) (ascii "Content-Disposition:") ≠
      true := fun h => by cases h
  have hbegin : caseBegins (ascii "Content-Type: " ++ after) (ascii "Content-Type:") = true := rfl
  have hvalue : skipBlanks ((ascii "Content-Type: " ++ after).drop 13) = skipBlanks after := rfl
  rw [headerLine, if_neg hdisp, if_pos hbegin, hvalue, ← hafter, skipBlanks_append]
  dsimp only
  rw [hfind, Option.getD_some, List.take_left]

/-- The empty line ends the header. -/
theorem headerLine_crlf (h : PartHeader) (rest : List UInt8) :
    headerLine h (crlf ++ rest) = .ok (.blank rest) := by
  have hdisp : caseBegins (crlf ++ rest) (ascii "Content-Disposition:") ≠ true :=
    fun h => by cases h
  have htype : caseBegins (crlf ++ rest) (ascii "Content-Type:") ≠ true := fun h => by cases h
  have hrange : caseBegins (crlf ++ rest) (ascii "Content-Range:") ≠ true := fun h => by cases h
  rw [headerLine, if_neg hdisp, if_neg htype, if_neg hrange, if_pos (caseBegins_self_append _ _)]
  rfl

/-- The header of a text field, as browsers send it. -/
def textLines (name : CString) : List UInt8 :=
  ascii "Content-Disposition: form-data; name=\"" ++ (name.bytes ++ 34 :: (crlf ++ crlf))

/-- The header of a file, as browsers send it. -/
def fileLines (name filename contentType : CString) : List UInt8 :=
  ascii "Content-Disposition: form-data; name=\"" ++ (name.bytes ++
    34 :: (ascii "; filename=\"" ++ (filename.bytes ++
      34 :: (crlf ++ (ascii "Content-Type: " ++ (contentType.bytes ++ (crlf ++ crlf)))))))

/-- The parser finds the name of a text field. -/
theorem headerLines_textLines {name : CString} (hname : 34 ∉ name.bytes) (rest : List UInt8) :
    headerLines (textLines name ++ rest).length .empty (textLines name ++ rest) =
      .ok (.ended ⟨some name, none, none⟩ rest) := by
  obtain ⟨n, hn⟩ : ∃ n, (textLines name ++ rest).length = n + 2 :=
    ⟨_, (Nat.sub_add_cancel (by simp [textLines, crlf]; omega)).symm⟩
  have hnofile : ∀ h after,
      fileName h (skipSeparators (crlf ++ after)) = .ok (h, crlf ++ after) := fun _ _ => rfl
  rw [hn, textLines]
  simp only [List.append_assoc, List.cons_append]
  exact (headerLines_field (headerLine_disposition .empty hname (hnofile _ _))
    (skipLine_append List.not_mem_nil _)).trans ((headerLines_blank (headerLine_crlf _ _)).trans
      (by rw [CString.upToNul_bytes, PartHeader.empty]))

/-- The parser finds the name, the file name and the content type of a file. -/
theorem headerLines_fileLines {name filename contentType : CString} (hname : 34 ∉ name.bytes)
    (hfilename : 34 ∉ filename.bytes) (htype : 13 ∉ contentType.bytes) (rest : List UInt8) :
    headerLines (fileLines name filename contentType ++ rest).length .empty
        (fileLines name filename contentType ++ rest) =
      .ok (.ended ⟨some name, some filename, some (.upToNul (skipBlanks contentType.bytes))⟩
        rest) := by
  obtain ⟨n, hn⟩ : ∃ n, (fileLines name filename contentType ++ rest).length = n + 3 :=
    ⟨_, (Nat.sub_add_cancel (by simp [fileLines, crlf]; omega)).symm⟩
  have hsep : ∀ after, skipSeparators (ascii "; filename=\"" ++ after) =
      ascii "filename=\"" ++ after := fun _ => rfl
  rw [hn, fileLines]
  simp only [List.append_assoc, List.cons_append]
  have hdisp := headerLine_disposition .empty hname ((congrArg _ (hsep _)).trans
    (fileName_append _ hfilename (crlf ++ (ascii "Content-Type: " ++ (contentType.bytes ++
      (crlf ++ (crlf ++ rest)))))))
  obtain ⟨htypeLine, htypeEnd⟩ := headerLine_contentType _ htype (crlf ++ rest)
  rw [headerLines_field hdisp (skipLine_append List.not_mem_nil _),
    headerLines_field htypeLine htypeEnd, headerLines_blank (headerLine_crlf _ _),
    CString.upToNul_bytes, CString.upToNul_bytes]

/-- The header of a text field is read. -/
def PartLines.text (name : CString) (hname : 34 ∉ name.bytes) : PartLines :=
  ⟨textLines name, ⟨some name, none, none⟩, headerLines_textLines hname⟩

/-- So is the header of a file. -/
def PartLines.file (name filename contentType : CString) (hname : 34 ∉ name.bytes)
    (hfilename : 34 ∉ filename.bytes) (htype : 13 ∉ contentType.bytes) : PartLines :=
  ⟨fileLines name filename contentType,
    ⟨some name, some filename, some (.upToNul (skipBlanks contentType.bytes))⟩,
    headerLines_fileLines hname hfilename htype⟩

/-! ### The form -/

/-- A body with one file part. -/
structure FileForm where
  token : CString
  head : PartLines
  content : List UInt8
  token_cr : 13 ∉ token.bytes
  isFile : head.header.isFile = true
  content_free : ¬ crlf ++ (formBoundary token).bytes <:+: content

namespace FileForm

variable (f : FileForm) {i : ℕ} {w : List UInt8}

/-- The boundary of the form. -/
def boundary : CString :=
  formBoundary f.token

/-- The boundary line and the part header. -/
def header : List UInt8 :=
  f.boundary.bytes ++ (crlf ++ f.head.lines)

/-- The delimiter: a line end and the boundary. -/
def delimiter : List UInt8 :=
  crlf ++ f.boundary.bytes

/-- The closing boundary. -/
def closing : List UInt8 :=
  f.delimiter ++ ascii "--\r\n"

/-- What follows the header. -/
def stream : List UInt8 :=
  f.content ++ f.closing

/-- The whole body. -/
def body : List UInt8 :=
  f.header ++ f.stream

/-- The section of the stream from `q` up to the `p` bytes that have arrived. -/
def window (p q : ℕ) : List UInt8 :=
  (f.stream.take p).drop q

/-! ### The boundaries of the form -/

theorem flatten_commonBoundary : (commonBoundary f.boundary).flatten = f.delimiter := by
  simp [commonBoundary, delimiter]

theorem flatten_lastBoundary : (lastBoundary f.boundary).flatten = f.closing := by
  simp [lastBoundary, closing, delimiter]

theorem flatten_normalBoundary : (normalBoundary f.boundary).flatten = f.delimiter ++ crlf := by
  simp [normalBoundary, delimiter]

theorem flatten_firstBoundary : (firstBoundary f.boundary).flatten = f.boundary.bytes ++ crlf := by
  simp [firstBoundary]

theorem boundary_cr : 13 ∉ f.boundary.bytes := by
  simpa [boundary, formBoundary] using f.token_cr

theorem length_delimiter : f.delimiter.length = f.boundary.strlen + 2 := by
  simp [delimiter, crlf, CString.strlen]

theorem length_closing : f.closing.length = f.boundary.strlen + 6 := by
  have hdash : (ascii "--\r\n").length = 4 := rfl
  rw [closing, List.length_append, length_delimiter, hdash]

theorem length_stream : f.stream.length = f.content.length + (f.boundary.strlen + 6) := by
  rw [stream, List.length_append, length_closing]

theorem two_le_strlen : 2 ≤ f.boundary.strlen := by
  simp [CString.strlen, boundary, formBoundary]

/-- Only the first byte of the delimiter is a carriage return. -/
theorem cr_eq_zero_of_delimiter (h : f.delimiter[i]? = some 13) : i = 0 := by
  match i with
  | 0 => rfl
  | 1 => cases h
  | i + 2 =>
      have hmem : f.boundary.bytes[i]? = some 13 := h
      exact absurd (List.mem_of_getElem? hmem) f.boundary_cr

/-- A window that does not begin with the delimiter begins with no boundary behind a line end,
neither the closing one nor that of a part. -/
theorem not_last_of_not_common (h : strBeginWithStrs w (commonBoundary f.boundary) = false) :
    strBeginWithStrs w (lastBoundary f.boundary) ≠ true := by
  rw [strBeginWithStrs_eq, flatten_commonBoundary] at h
  rw [strBeginWithStrs_eq, flatten_lastBoundary, closing, caseBegins_append, h]
  exact Bool.false_ne_true

theorem not_normal_of_not_common (h : strBeginWithStrs w (commonBoundary f.boundary) = false) :
    strBeginWithStrs w (normalBoundary f.boundary) ≠ true := by
  rw [strBeginWithStrs_eq, flatten_commonBoundary] at h
  rw [strBeginWithStrs_eq, flatten_normalBoundary, caseBegins_append, h]
  exact Bool.false_ne_true

/-- What is shorter than the closing boundary has to wait for more. -/
theorem needsMore_of_lt (hshort : f.closing.length ≤ sessionBufsz / 3)
    (h : w.length < f.closing.length) : needsMore f.boundary w := by
  refine ⟨by omega, ?_⟩
  rw [memstrs, flatten_lastBoundary]
  exact memstr_eq_none_of_length h

/-- What holds the closing boundary does not have to wait. -/
theorem not_needsMore (h : f.closing <:+: w) : ¬ needsMore f.boundary w := by
  rw [needsMore, memstrs, flatten_lastBoundary, memstr_eq_none_iff]
  intro hmore
  exact hmore.2 h

/-- The delimiter and the boundary begin with bytes that have no case. -/
theorem head_of_common {b : UInt8}
    (h : strBeginWithStrs (b :: w) (commonBoundary f.boundary) = true) :
    b = 13 ∧ ∃ v, w = 10 :: v := by
  rw [strBeginWithStrs_eq, flatten_commonBoundary, delimiter, crlf] at h
  obtain ⟨hb, h⟩ := (caseBegins_cons _ _ _ _).mp h
  cases w with
  | nil => cases h
  | cons c v =>
      obtain ⟨hc, -⟩ := (caseBegins_cons _ _ _ _).mp h
      exact ⟨(toLower_eq_of_lt (by decide)).mp hb, v,
        by rw [(toLower_eq_of_lt (by decide)).mp hc]⟩

theorem head_of_first {b : UInt8}
    (h : strBeginWithStrs (b :: w) (firstBoundary f.boundary) = true) : b = 45 := by
  rw [strBeginWithStrs_eq, flatten_firstBoundary] at h
  exact (toLower_eq_of_lt (by decide)).mp ((caseBegins_cons _ _ _ _).mp h).1

/-- A window that begins with no boundary at all has no header to parse. -/
theorem parseHeader_eq_none {u : UploadSession} (hu : u.boundary = f.boundary)
    (hcommon : strBeginWithStrs w (commonBoundary f.boundary) = false)
    (hfirst : strBeginWithStrs w (firstBoundary f.boundary) = false) :
    parseHeader u w = .ok none := by
  rw [parseHeader, hu, if_neg (f.not_last_of_not_common hcommon), skipBoundary,
    if_neg (f.not_normal_of_not_common hcommon), if_neg (Bool.eq_false_iff.mp hfirst)]

/-! ### Windows of the stream -/

theorem length_window {p : ℕ} (hp : p ≤ f.stream.length) (q : ℕ) :
    (f.window p q).length = p - q := by
  rw [window, List.length_drop, List.length_take, Nat.min_eq_left hp]

theorem window_drop (p q k : ℕ) : (f.window p q).drop k = f.window p (q + k) := by
  rw [window, List.drop_drop, window]

theorem getElem?_window {p q : ℕ} (hi : q + i < p) :
    (f.window p q)[i]? = f.stream[q + i]? := by
  rw [window, List.getElem?_drop, List.getElem?_take_of_lt hi]

theorem window_prefix_drop (p q : ℕ) : f.window p q <+: f.stream.drop q := by
  rw [window, List.drop_take]
  exact List.take_prefix _ _

/-- Up to the end of the content a window shows the content. -/
theorem window_take {p q k : ℕ} (hk : q + k ≤ f.content.length) (hp : q + k ≤ p) :
    (f.window p q).take k = (f.content.drop q).take k := by
  rw [window, List.take_drop, List.take_drop, List.take_take, Nat.min_eq_left hp, stream,
    List.take_append_of_le_length hk]

/-- Behind the content a window shows the delimiter. -/
theorem getElem?_window_delimiter {p q o : ℕ} (hi : q + i = f.content.length + o)
    (hp : q + i < p) (ho : o < f.delimiter.length) :
    (f.window p q)[i]? = f.delimiter[o]? := by
  rw [getElem?_window f hp, hi, stream, List.getElem?_append_right (Nat.le_add_right _ _),
    Nat.add_sub_cancel_left, closing, List.getElem?_append_left ho]

/-- **The delimiter occurs in the stream at the closing boundary only**: not in the content, and
not across its end, since the boundary holds no carriage return. -/
theorem eq_of_delimiter_at {j : ℕ} (h : f.delimiter <+: f.stream.drop j) :
    j = f.content.length := by
  have htwo := f.two_le_strlen
  have hlen := f.length_delimiter
  rcases Nat.lt_trichotomy j f.content.length with hlt | heq | hgt
  · have hdrop : f.stream.drop j = f.content.drop j ++ f.closing :=
      List.drop_append_of_le_length hlt.le
    by_cases hin : f.delimiter.length ≤ (f.content.drop j).length
    · rw [hdrop] at h
      have hpre : f.delimiter <+: f.content.drop j :=
        List.prefix_of_prefix_length_le h (List.prefix_append _ _) hin
      exact absurd (hpre.isInfix.trans (List.drop_suffix _ _).isInfix) f.content_free
    · rw [List.length_drop] at hin
      obtain ⟨rest, hrest⟩ := h
      have hcr : f.delimiter[f.content.length - j]? = some 13 := by
        have hleft : (f.delimiter ++ rest)[f.content.length - j]? =
            f.delimiter[f.content.length - j]? := List.getElem?_append_left (by omega)
        rw [← hleft, hrest, hdrop,
          List.getElem?_append_right (by rw [List.length_drop]), List.length_drop, Nat.sub_self]
        rfl
      have := f.cr_eq_zero_of_delimiter hcr
      omega
  · exact heq
  · obtain ⟨o, rfl⟩ : ∃ o, j = f.content.length + (o + 1) :=
      ⟨j - f.content.length - 1, by omega⟩
    have hdrop : f.stream.drop (f.content.length + (o + 1)) =
        (10 :: (f.boundary.bytes ++ [45, 45]) ++ [13, 10]).drop o := by
      have hclosing : f.closing = 13 :: (10 :: (f.boundary.bytes ++ [45, 45]) ++ [13, 10]) := by
        simp [closing, delimiter, crlf, show ascii "--\r\n" = [45, 45, 13, 10] from rfl]
      rw [stream, ← List.drop_drop, List.drop_left, hclosing, List.drop_succ_cons]
    rw [hdrop] at h
    have hx : 13 ∉ 10 :: (f.boundary.bytes ++ [45, 45]) := by
      simpa using f.boundary_cr
    have hle := le_of_prefix_drop_append hx h
    have hshort := h.length_le
    simp only [List.length_drop, List.length_append, List.length_cons, List.length_nil]
      at hle hshort
    rw [hlen] at hshort
    omega

/-- A window that begins where a delimiter may begin: at the last carriage return, with fewer
bytes behind it than a whole delimiter if a line feed follows. -/
def Parked (w : List UInt8) : Prop :=
  ∃ rest, w = 13 :: rest ∧ 13 ∉ rest ∧ ∀ y, rest = 10 :: y → y.length < f.boundary.strlen

section

variable {f} {p q : ℕ}

theorem Parked.getElem?_ne (h : f.Parked w) (hi : 0 < i) :
    w[i]? ≠ some 13 := by
  obtain ⟨rest, rfl, hcr, -⟩ := h
  obtain ⟨j, rfl⟩ : ∃ j, i = j + 1 := ⟨i - 1, by omega⟩
  rw [List.getElem?_cons_succ]
  intro hget
  exact hcr (List.mem_of_getElem? hget)

/-- A parked window holds no delimiter. -/
theorem Parked.not_delimiter (h : f.Parked w) : ¬ f.delimiter <:+: w := by
  rw [infix_iff_prefix_drop]
  rintro ⟨j, -, hpre⟩
  obtain rfl : j = 0 := by
    by_contra hj
    exact h.getElem?_ne (by omega) (getElem?_of_prefix_drop hpre)
  obtain ⟨rest, rfl, -, hlf⟩ := h
  obtain ⟨-, hlfpre⟩ := List.cons_prefix_cons.mp hpre
  cases rest with
  | nil => exact absurd hlfpre.length_le (by simp)
  | cons b y =>
      obtain ⟨rfl, hbpre⟩ := List.cons_prefix_cons.mp hlfpre
      exact absurd hbpre.length_le (Nat.not_le.mpr (hlf y rfl))

/-- A parked window begins with no boundary. -/
theorem Parked.not_begins (h : f.Parked w) :
    strBeginWithStrs w (commonBoundary f.boundary) = false ∧
      strBeginWithStrs w (firstBoundary f.boundary) = false := by
  obtain ⟨rest, rfl, -, hlf⟩ := h
  refine ⟨Bool.eq_false_iff.mpr ?_, Bool.eq_false_iff.mpr ?_⟩
  · intro hbegin
    obtain ⟨-, y, rfl⟩ := f.head_of_common hbegin
    rw [strBeginWithStrs_eq, flatten_commonBoundary] at hbegin
    have hle := length_le_of_caseBegins hbegin
    have hlt := hlf y rfl
    rw [length_delimiter, List.length_cons, List.length_cons] at hle
    omega
  · intro hbegin
    exact absurd (f.head_of_first hbegin) (by decide)

/-- If the delimiter is not found, the window ends in the content or inside the delimiter. -/
theorem lt_of_not_delimiter (hq : q ≤ f.content.length)
    (hno : ¬ f.delimiter <:+: f.window p q) : p < f.content.length + f.delimiter.length := by
  by_contra hge
  have hpre : f.delimiter <+: (f.window p q).drop (f.content.length - q) := by
    rw [window_drop, Nat.add_sub_cancel' hq, window, List.drop_take, stream, List.drop_left,
      closing]
    refine List.prefix_of_prefix_length_le (List.prefix_append _ _) ( List.take_prefix _ _) ?_
    rw [List.length_take, List.length_append]
    omega
  exact hno (hpre.isInfix.trans (List.drop_suffix _ _).isInfix)

/-- The carriage return of the delimiter is the last one of a window that ends inside the
delimiter. -/
theorem eq_content_of_last_cr (hq : q ≤ f.content.length)
    (hp : p < f.content.length + f.delimiter.length) (hi : (f.window p q)[i]? = some 13)
    (hilt : q + i < p) (hlast : ∀ j, i < j → (f.window p q)[j]? ≠ some 13) :
    q + i ≤ f.content.length ∧ (f.content.length < p → q + i = f.content.length) := by
  have hle : q + i ≤ f.content.length := by
    by_contra hgt
    rw [f.getElem?_window_delimiter (o := q + i - f.content.length) (by omega) hilt (by omega)]
      at hi
    have := f.cr_eq_zero_of_delimiter hi
    omega
  refine ⟨hle, ?_⟩
  intro hin
  by_contra hne
  refine hlast (f.content.length - q) (by omega) ?_
  rw [f.getElem?_window_delimiter (o := 0) (by omega) (by omega) (by omega)]
  rfl

/-- The bytes a partial delimiter is compared with are those of the boundary. -/
theorem memcmp_boundary (past : ℕ → UInt8) (hi : q + i = f.content.length)
    (hp : p < f.content.length + f.delimiter.length) (hps : p ≤ f.stream.length) :
    memcmp (fun j => byteOf (f.window p q) (i + 2 + j)) (f.boundary.byteAt past) 0
      ((f.window p q).length - (i + 2)) = 0 := by
  rw [memcmp_eq_zero_iff]
  intro j _ hj
  rw [f.length_window hps] at hj
  have hlen := f.length_delimiter
  have hlt : j < f.boundary.strlen := by omega
  have hget : (f.window p q)[i + 2 + j]? = f.boundary.bytes[j]? := by
    rw [f.getElem?_window_delimiter (o := 2 + j) (by omega) (by omega) (by omega),
      show 2 + j = j + 2 by omega]
    rfl
  have hbyte := CString.byteAt_of_lt hlt past
  rw [byteOf, List.getD_eq_getElem?_getD, hget, hbyte]
  rfl

/-- A window cut at a carriage return behind which a boundary may begin is parked. -/
theorem parked_of_memcmp {past : ℕ → UInt8} (hi : (f.window p q)[i]? = some 13)
    (hlast : ∀ j, i < j → (f.window p q)[j]? ≠ some 13) (hno : ¬ f.delimiter <:+: f.window p q)
    (hcmp : memcmp (fun j => byteOf (f.window p q) (i + 2 + j)) (f.boundary.byteAt past) 0
      ((f.window p q).length - (i + 2)) = 0) : f.Parked ((f.window p q).drop i) := by
  obtain ⟨hilt, hget⟩ := List.getElem?_eq_some_iff.mp hi
  have hdrop : (f.window p q).drop i = 13 :: (f.window p q).drop (i + 1) := by
    rw [List.drop_eq_getElem_cons hilt, hget]
  refine ⟨_, hdrop, ?_, ?_⟩
  · intro hmem
    obtain ⟨j, hj⟩ := List.mem_iff_getElem?.mp hmem
    rw [List.getElem?_drop] at hj
    exact hlast (i + 1 + j) (by omega) hj
  · intro y hy
    by_contra hlong
    have hlen := congrArg List.length hy
    rw [List.length_drop, List.length_cons] at hlen
    rw [memcmp_eq_zero_iff] at hcmp
    -- the bytes behind the line feed are those of the whole boundary
    have hpre : f.boundary.bytes <+: y := by
      rw [List.prefix_iff_getElem?]
      intro j hj
      have hj' : j < f.boundary.strlen := hj
      have hyj : y[j]? = (f.window p q)[i + 2 + j]? := by
        rw [show i + 2 + j = i + 1 + (j + 1) by omega, ← List.getElem?_drop, hy,
          List.getElem?_cons_succ]
      have hlt : j < y.length := by omega
      have hcmpj := hcmp j (Nat.zero_le _) (by omega)
      have hbyte := CString.byteAt_of_lt hj' past
      rw [byteOf, List.getD_eq_getElem?_getD, ← hyj, List.getElem?_eq_getElem hlt,
        Option.getD_some] at hcmpj
      rw [List.getElem?_eq_getElem hlt, hcmpj, ← hbyte, List.getElem?_eq_getElem hj]
    have hdelim : f.delimiter <+: (f.window p q).drop i := by
      rw [hdrop, hy, delimiter, crlf]
      exact List.cons_prefix_cons.mpr ⟨rfl, List.cons_prefix_cons.mpr ⟨rfl, hpre⟩⟩
    exact hno (hdelim.isInfix.trans (List.drop_suffix _ _).isInfix)

/-- **The search for the next boundary stays in the content.** It finds the closing boundary,
or a carriage return at which the window is parked, or nothing while all of the window is
content; unless the window ends between the line end and the boundary of the delimiter, or is
itself an incomplete delimiter. -/
theorem next_spec (past : ℕ → UInt8) (hq : q ≤ f.content.length) (hqp : q ≤ p)
    (hp : p ≤ f.stream.length)
    (hbegin : strBeginWithStrs (f.window p q) (commonBoundary f.boundary) = true →
      q = f.content.length)
    (hcut : p ≠ f.content.length + 2)
    (hempty : q = f.content.length →
      p = f.content.length ∨ f.content.length + f.delimiter.length ≤ p) :
    ∃ k, dataEnd past f.boundary (f.window p q) = k ∧
      q + k ≤ f.content.length ∧ q + k ≤ p ∧
      (q + k = p ∨ q + k = f.content.length ∨ f.Parked (f.window p (q + k))) := by
  have hlen := f.length_window hp q
  rw [dataEnd, nextPossibleBoundary, memstrs, flatten_commonBoundary]
  by_cases hb : strBeginWithStrs (f.window p q) (commonBoundary f.boundary) = true
  · rw [if_pos hb]
    exact ⟨0, rfl, hq, hqp, .inr (.inl (hbegin hb))⟩
  rw [if_neg hb]
  cases hfind : memstr f.delimiter (f.window p q) with
  | some i =>
      obtain ⟨hi, hpre, -⟩ := memstr_eq_some_iff.mp hfind
      rw [window_drop] at hpre
      have heq := f.eq_of_delimiter_at (hpre.trans (f.window_prefix_drop p (q + i)))
      exact ⟨i, rfl, heq.le, by omega, .inr (.inl heq)⟩
  | none =>
      have hno := memstr_eq_none_iff.mp hfind
      have hplt := lt_of_not_delimiter hq hno
      dsimp only
      -- nothing is held back: this is right as long as the window ends in the content
      have hall : p ≤ f.content.length → ∃ k, (f.window p q).length = k ∧
          q + k ≤ f.content.length ∧ q + k ≤ p ∧
          (q + k = p ∨ q + k = f.content.length ∨ f.Parked (f.window p (q + k))) :=
        fun hle => ⟨p - q, hlen, by omega, by omega, .inl (by omega)⟩
      cases hrchr : memrchr (f.window p q) 13 with
      | none =>
          refine hall ?_
          by_contra hgt
          have hne : q ≠ f.content.length := by
            intro h
            rcases hempty h with h | h <;> omega
          refine (memrchr_eq_none_iff (by decide)).mp hrchr (f.content.length - q) (by omega) ?_
          rw [f.getElem?_window_delimiter (o := 0) (by omega) (by omega) (by omega)]
          rfl
      | some i =>
          obtain ⟨hi0, hi, hlast⟩ := (memrchr_eq_some_iff (by decide)).mp hrchr
          have hilt : q + i < p := by
            have := (List.getElem?_eq_some_iff.mp hi).1
            omega
          obtain ⟨hile, hexact⟩ := eq_content_of_last_cr hq hplt hi hilt hlast
          dsimp only
          split_ifs with hend hcrlf hcmp
          · refine ⟨i, rfl, hile, by omega, .inr (.inr ⟨[], ?_, List.not_mem_nil, ?_⟩)⟩
            · obtain ⟨hlt, hget⟩ := List.getElem?_eq_some_iff.mp hi
              rw [← window_drop, List.drop_eq_getElem_cons hlt, hget,
                List.drop_eq_nil_of_le hend.ge]
            · intro y hy
              cases hy
          · refine hall ?_
            by_contra hgt
            have := hexact (by omega)
            omega
          · refine ⟨i, rfl, hile, by omega, .inr (.inr ?_)⟩
            rw [← window_drop]
            exact parked_of_memcmp hi hlast hno hcmp
          · refine hall ?_
            by_contra hgt
            exact hcmp (memcmp_boundary past (hexact (by omega)) hplt hp)

end

end FileForm

end RtBoot
