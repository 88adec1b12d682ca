import RtBoot.ByteSearch
import RtBoot.CString
import RtBoot.UploadMain

/-!
# The Multipart Receiver

`wn_module_upload.c` takes a `multipart/form-data` body apart while it arrives. The bytes of
one call form a window of the session buffer: what an earlier call left over, then what the
socket delivers now. `handleTurn` is one round of the loop of `_webnet_module_upload_handle`:
it ends the upload, waits for more bytes, parses a part header, or passes a stretch of data
on. `sessionStep` adds the read, and the teardown when the session is to be closed.

The window is the list of its bytes; behind it stands the NUL that the handler stores. The
header parser stores NULs as well, but only into bytes it has already passed, so a position
is given by the bytes that are still ahead. A search that runs over the end of the window, a
store through a null pointer, and the use of a session that was closed under the handler are
faults: what the code does after one is not determined by the bytes received.

Allocations succeed in this model.

## Main results

* `headerLines_ne_spinning`: the loop over the lines of a part header ends.
* `parseHeader_cases`: what the header parser does to the session and the window.
-/

namespace RtBoot

/-- What puts an end to a call without its returning. -/
inductive Fault
  /-- The search for a closing quote leaves the window. -/
  | overrun
  /-- The line end is stored through the null result of a search. -/
  | nullPointer
  /-- A value is stored for a name, but no name was recorded. -/
  | noNameEntry
  /-- `open` failed, so `upload_open` closed and freed the session. -/
  | sessionFreed
  /-- The loop does not end within the given number of rounds. -/
  | spinning
  deriving DecidableEq, Repr

/-! ### Boundaries -/

/-- `"\r\n"`. -/
def crlf : List UInt8 :=
  [13, 10]

/-- `str_begin_with_strs`: the strings follow each other at the beginning, up to case. -/
def strBeginWithStrs (str : List UInt8) : List (List UInt8) → Bool
  | [] => true
  | m :: ms => caseBegins str m && strBeginWithStrs (str.drop m.length) ms

/-- `memstrs`: the first occurrence of the strings one after the other. -/
def memstrs (str : List UInt8) (needles : List (List UInt8)) : Option ℕ :=
  memstr needles.flatten str

/-- `FIRST_BOUNDARY`. -/
def firstBoundary (boundary : CString) : List (List UInt8) :=
  [boundary.bytes, crlf]

/-- `NORMAL_BOUNDARY`. -/
def normalBoundary (boundary : CString) : List (List UInt8) :=
  [crlf, boundary.bytes, crlf]

/-- `COMMON_BOUNDARY`. -/
def commonBoundary (boundary : CString) : List (List UInt8) :=
  [crlf, boundary.bytes]

/-- `LAST_BOUNDARY`. -/
def lastBoundary (boundary : CString) : List (List UInt8) :=
  [crlf, boundary.bytes, ascii "--\r\n"]

theorem strBeginWithStrs_eq (str : List UInt8) (ms : List (List UInt8)) :
    strBeginWithStrs str ms = caseBegins str ms.flatten := by
  induction ms generalizing str with
  | nil => exact (caseBegins_nil str).symm
  | cons m ms ih => rw [strBeginWithStrs, ih, List.flatten_cons, caseBegins_append]

variable {w : List UInt8}

theorem length_le_of_strBegin {ms : List (List UInt8)}
    (h : strBeginWithStrs w ms = true) : ms.flatten.length ≤ w.length := by
  rw [strBeginWithStrs_eq] at h
  exact length_le_of_caseBegins h

theorem length_firstBoundary (boundary : CString) :
    (firstBoundary boundary).flatten.length = boundary.strlen + 2 := by
  simp [firstBoundary, crlf, CString.strlen]

theorem length_normalBoundary (boundary : CString) :
    (normalBoundary boundary).flatten.length = boundary.strlen + 4 := by
  simp [normalBoundary, crlf, CString.strlen]

theorem length_lastBoundary (boundary : CString) :
    (lastBoundary boundary).flatten.length = boundary.strlen + 6 := by
  have hend : (ascii "--\r\n").length = 4 := by decide
  simp [lastBoundary, crlf, CString.strlen, hend]

/-! ### Part headers -/

/-- The pointers the parser collects on its way through the lines of a header. -/
structure PartHeader where
  name : Option CString
  filename : Option CString
  contentType : Option CString
  deriving DecidableEq

/-- No pointer is set yet. -/
def PartHeader.empty : PartHeader :=
  ⟨none, none, none⟩

/-- A file part is one whose header has a file name and a content type. -/
def PartHeader.isFile (h : PartHeader) : Bool :=
  h.filename.isSome && h.contentType.isSome

/-- The string up to the next quote, and the bytes behind the quote. The length given to
`memchr` is negative, so the search has no bound. -/
def quoted (rest : List UInt8) : Except Fault (CString × List UInt8) :=
  match rest.dropWhile (· != 34) with
  | [] => .error .overrun
  | _ :: after => .ok (.upToNul (rest.takeWhile (· != 34)), after)

/-- `while (*ptr == ' ') ptr ++`. -/
def skipBlanks (rest : List UInt8) : List UInt8 :=
  rest.dropWhile (· == 32)

/-- `while (*ptr == ' ' || *ptr == ';') ptr ++`. -/
def skipSeparators (rest : List UInt8) : List UInt8 :=
  rest.dropWhile fun c => c == 32 || c == 59

/-- `name="str"`. -/
def fieldName (h : PartHeader) (rest : List UInt8) : Except Fault (PartHeader × List UInt8) :=
  if caseBegins rest (ascii "name=\"") then
    match quoted (rest.drop 6) with
    | .error fault => .error fault
    | .ok (str, after) => .ok ({ h with name := some str }, skipSeparators after)
  else .ok (h, rest)

/-- `filename="str"`. -/
def fileName (h : PartHeader) (rest : List UInt8) : Except Fault (PartHeader × List UInt8) :=
  if caseBegins rest (ascii "filename=\"") then
    match quoted (rest.drop 10) with
    | .error fault => .error fault
    | .ok (str, after) => .ok ({ h with filename := some str }, after)
  else .ok (h, rest)

/-- The value of a `Content-Disposition` line. -/
def formData (h : PartHeader) (rest : List UInt8) : Except Fault (PartHeader × List UInt8) :=
  if caseBegins rest (ascii "form-data") then
    match fieldName h (skipSeparators (rest.drop 9)) with
    | .error fault => .error fault
    | .ok (h, rest) => fileName h rest
  else .ok (h, rest)

/-- What a line of the header turns out to be: one to be skipped after its fields were
taken, or the empty line at the end. -/
inductive HeaderLine
  | field (h : PartHeader) (rest : List UInt8)
  | blank (rest : List UInt8)
  deriving DecidableEq

/-- The tests the parser makes at the beginning of a line. The content type is a pointer into
the line, which ends where the line does once its end has been overwritten. -/
def headerLine (h : PartHeader) (rest : List UInt8) : Except Fault HeaderLine :=
  if caseBegins rest (ascii "Content-Disposition:") then
    match formData h (skipBlanks (rest.drop 20)) with
    | .error fault => .error fault
    | .ok (h, rest) => .ok (.field h rest)
  else if caseBegins rest (ascii "Content-Type:") then
    let value := skipBlanks (rest.drop 13)
    let line := value.take ((memstr crlf value).getD value.length)
    .ok (.field { h with contentType := some (.upToNul line) } value)
  else if caseBegins rest (ascii "Content-Range:") then
    .ok (.field h (skipBlanks (rest.drop 14)))
  else if caseBegins rest crlf then .ok (.blank (rest.drop 2))
  else .ok (.field h rest)

/-- `skip this request header line`: the result of the search is not checked. -/
def skipLine (rest : List UInt8) : Except Fault (List UInt8) :=
  match memstr crlf rest with
  | none => .error .nullPointer
  | some i => .ok (rest.drop (i + 2))

/-- How the loop over the header lines ends: at the empty line, or at the end of the
window. -/
inductive Header
  | ended (h : PartHeader) (rest : List UInt8)
  | ranOut
  deriving DecidableEq

/-- The loop over the header lines, for at most `fuel` lines. -/
def headerLines : ℕ → PartHeader → List UInt8 → Except Fault Header
  | _, _, [] => .ok .ranOut
  | 0, _, _ :: _ => .error .spinning
  | fuel + 1, h, b :: rest =>
      match headerLine h (b :: rest) with
      | .error fault => .error fault
      | .ok (.blank after) => .ok (.ended h after)
      | .ok (.field h line) =>
          match skipLine line with
          | .error fault => .error fault
          | .ok after => headerLines fuel h after

/-! #### What the parser leaves ahead of it -/

theorem quoted_cases (rest : List UInt8) :
    (∃ str after, quoted rest = .ok (str, after) ∧ after <:+ rest) ∨
      quoted rest = .error .overrun := by
  rw [quoted]
  cases h : rest.dropWhile (· != 34) with
  | nil => exact .inr rfl
  | cons b after =>
      refine .inl ⟨_, after, rfl, ?_⟩
      exact (List.suffix_cons b after).trans (h ▸ List.dropWhile_suffix _)

theorem fieldName_cases (h : PartHeader) (rest : List UInt8) :
    (∃ h' after, fieldName h rest = .ok (h', after) ∧ after <:+ rest) ∨
      fieldName h rest = .error .overrun := by
  rw [fieldName]
  split_ifs
  · obtain ⟨str, after, hq, hsuf⟩ | hq := quoted_cases (rest.drop 6)
    · refine .inl ⟨_, skipSeparators after, by rw [hq], ?_⟩
      exact (List.dropWhile_suffix _).trans (hsuf.trans (List.drop_suffix _ _))
    · exact .inr (by rw [hq])
  · exact .inl ⟨h, rest, rfl, List.suffix_rfl⟩

theorem fileName_cases (h : PartHeader) (rest : List UInt8) :
    (∃ h' after, fileName h rest = .ok (h', after) ∧ after <:+ rest) ∨
      fileName h rest = .error .overrun := by
  rw [fileName]
  split_ifs
  · obtain ⟨str, after, hq, hsuf⟩ | hq := quoted_cases (rest.drop 10)
    · exact .inl ⟨_, _, by rw [hq], hsuf.trans (List.drop_suffix _ _)⟩
    · exact .inr (by rw [hq])
  · exact .inl ⟨h, rest, rfl, List.suffix_rfl⟩

theorem formData_cases (h : PartHeader) (rest : List UInt8) :
    (∃ h' after, formData h rest = .ok (h', after) ∧ after <:+ rest) ∨
      formData h rest = .error .overrun := by
  rw [formData]
  split_ifs
  · have hskip : skipSeparators (rest.drop 9) <:+ rest :=
      (List.dropWhile_suffix _).trans (List.drop_suffix _ _)
    obtain ⟨h', after, hname, hsuf⟩ | hname := fieldName_cases h (skipSeparators (rest.drop 9))
    · rw [hname]
      obtain ⟨h'', after', hfile, hsuf'⟩ | hfile := fileName_cases h' after
      · exact .inl ⟨h'', after', hfile, hsuf'.trans (hsuf.trans hskip)⟩
      · exact .inr hfile
    · exact .inr (by rw [hname])
  · exact .inl ⟨h, rest, rfl, List.suffix_rfl⟩

theorem skipBlanks_drop_suffix (n : ℕ) (rest : List UInt8) : skipBlanks (rest.drop n) <:+ rest :=
  (List.dropWhile_suffix _).trans (List.drop_suffix _ _)

/-- A line is a field or the empty line, with bytes of the window ahead, unless a quote is
not closed. -/
theorem headerLine_cases (h : PartHeader) (rest : List UInt8) :
    (∃ h' line, headerLine h rest = .ok (.field h' line) ∧ line <:+ rest) ∨
      headerLine h rest = .ok (.blank (rest.drop 2)) ∨ headerLine h rest = .error .overrun := by
  rw [headerLine]
  split_ifs
  · obtain ⟨h', after, hform, hsuf⟩ | hform := formData_cases h (skipBlanks (rest.drop 20))
    · exact .inl ⟨h', after, by rw [hform], hsuf.trans (skipBlanks_drop_suffix 20 rest)⟩
    · exact .inr (.inr (by rw [hform]))
  · exact .inl ⟨_, _, rfl, skipBlanks_drop_suffix 13 rest⟩
  · exact .inl ⟨h, _, rfl, skipBlanks_drop_suffix 14 rest⟩
  · exact .inr (.inl rfl)
  · exact .inl ⟨h, rest, rfl, List.suffix_rfl⟩

theorem skipLine_cases (rest : List UInt8) :
    (∃ after, skipLine rest = .ok after ∧ after <:+ rest ∧ after.length + 2 ≤ rest.length) ∨
      skipLine rest = .error .nullPointer := by
  rw [skipLine]
  cases hfind : memstr crlf rest with
  | none => exact .inr rfl
  | some i =>
      obtain ⟨-, hpre, -⟩ := memstr_eq_some_iff.mp hfind
      have hlen := hpre.length_le
      rw [List.length_drop] at hlen
      have h2 : crlf.length = 2 := rfl
      refine .inl ⟨_, rfl, List.drop_suffix _ _, ?_⟩
      rw [List.length_drop]
      omega

variable {after rest : List UInt8} {h : PartHeader} {fuel : ℕ}

theorem headerLines_field {h' : PartHeader} {line : List UInt8}
    (hline : headerLine h rest = .ok (.field h' line)) (hskip : skipLine line = .ok after) :
    headerLines (fuel + 1) h rest = headerLines fuel h' after := by
  cases rest with
  | nil =>
      obtain rfl : line = [] := by
        rw [headerLine] at hline
        cases hline
        rfl
      cases hskip
  | cons b rest => simp only [headerLines, hline, hskip]

theorem headerLines_blank (hline : headerLine h rest = .ok (.blank after)) :
    headerLines (fuel + 1) h rest = .ok (.ended h after) := by
  cases rest with
  | nil => cases hline
  | cons b rest => simp only [headerLines, hline]

/-- One round of the loop over the header lines: it goes on behind a line end, or it is over,
and then not for want of rounds. -/
theorem headerLines_succ_cases (fuel : ℕ) (h : PartHeader) (b : UInt8) (rest : List UInt8) :
    (∃ h' after, headerLines (fuel + 1) h (b :: rest) = headerLines fuel h' after ∧
        after <:+ b :: rest ∧ after.length + 2 ≤ (b :: rest).length) ∨
      headerLines (fuel + 1) h (b :: rest) = .ok (.ended h ((b :: rest).drop 2)) ∨
      ∃ fault, fault ≠ .spinning ∧ headerLines (fuel + 1) h (b :: rest) = .error fault := by
  obtain ⟨h', line, hline, hsuf⟩ | hline | hline := headerLine_cases h (b :: rest)
  · have hle := hsuf.length_le
    obtain ⟨after, hskip, hafter, hlen⟩ | hskip := skipLine_cases line
    · exact .inl ⟨h', after, headerLines_field hline hskip, hafter.trans hsuf, by omega⟩
    · refine .inr (.inr ⟨.nullPointer, by decide, ?_⟩)
      simp only [headerLines, hline, hskip]
  · exact .inr (.inl (headerLines_blank hline))
  · exact .inr (.inr ⟨.overrun, by decide, by simp only [headerLines, hline]⟩)

/-- **The loop over the header lines ends**: every line that is skipped takes its line end
with it. -/
theorem headerLines_ne_spinning (h : PartHeader)
    (hfuel : rest.length ≤ fuel) : headerLines fuel h rest ≠ .error .spinning := by
  induction fuel generalizing h rest with
  | zero =>
      obtain rfl := List.length_eq_zero_iff.mp (Nat.le_zero.mp hfuel)
      intro hspin
      cases hspin
  | succ fuel ih =>
      cases rest with
      | nil => exact fun hspin => by cases hspin
      | cons b rest =>
          obtain ⟨h', after, heq, -, hlen⟩ | heq | ⟨fault, hne, heq⟩ :=
            headerLines_succ_cases fuel h b rest
          · rw [heq]
            exact ih h' (by omega)
          · rw [heq]
            intro hspin
            cases hspin
          · rw [heq]
            intro hspin
            exact hne (Except.error.inj hspin)

theorem headerLines_ended_suffix {h' : PartHeader}
    (hend : headerLines fuel h rest = .ok (.ended h' after)) : after <:+ rest := by
  induction fuel generalizing h rest with
  | zero => cases rest <;> cases hend
  | succ fuel ih =>
      cases rest with
      | nil => cases hend
      | cons b rest =>
          obtain ⟨h', next, heq, hsuf, -⟩ | heq | ⟨fault, -, heq⟩ :=
            headerLines_succ_cases fuel h b rest
          · exact (ih (heq ▸ hend)).trans hsuf
          · rw [heq] at hend
            cases hend
            exact List.drop_suffix 2 _
          · rw [heq] at hend
            cases hend

/-! #### The boundary line -/

/-- The bytes behind a boundary line at the beginning of the window. -/
def skipBoundary (boundary : CString) (w : List UInt8) : Option (List UInt8) :=
  if strBeginWithStrs w (normalBoundary boundary) then some (w.drop (boundary.strlen + 4))
  else if strBeginWithStrs w (firstBoundary boundary) then some (w.drop (boundary.strlen + 2))
  else none

theorem skipBoundary_suffix {boundary : CString}
    (h : skipBoundary boundary w = some rest) : rest <:+ w := by
  rw [skipBoundary] at h
  split_ifs at h <;> obtain rfl := Option.some.inj h <;> exact List.drop_suffix _ _

/-- The bytes of a boundary that has been found are there. -/
theorem length_lt_of_skipBoundary {boundary : CString}
    (h : skipBoundary boundary w = some rest) : rest.length < w.length := by
  rw [skipBoundary] at h
  split_ifs at h with hnormal hfirst
  · obtain rfl := Option.some.inj h
    have hlen := length_le_of_strBegin hnormal
    rw [length_normalBoundary] at hlen
    rw [List.length_drop]
    omega
  · obtain rfl := Option.some.inj h
    have hlen := length_le_of_strBegin hfirst
    rw [length_firstBoundary] at hlen
    rw [List.length_drop]
    omega

/-- What kind of part begins with the window: `some true` for a file, `some false` for
another one, `none` when no part begins there or its header cannot be parsed. -/
def partBegins (boundary : CString) (w : List UInt8) : Option Bool :=
  match skipBoundary boundary w with
  | none => none
  | some rest =>
      match headerLines rest.length .empty rest with
      | .error _ => none
      | .ok .ranOut => some false
      | .ok (.ended h _) => some h.isFile

/-! ### The upload session -/

/-- `struct webnet_upload_name_entry`. -/
structure NameEntry where
  name : CString
  value : CString
  deriving DecidableEq

/-- `struct webnet_module_upload_session`. -/
structure UploadSession where
  boundary : CString
  filename : Option CString
  contentType : Option CString
  nameEntries : List NameEntry
  fileOpened : Bool
  userData : ℤ
  deriving DecidableEq

/-- The entry name under which every field name is recorded. -/
def nameKey : CString :=
  ⟨ascii "name", by decide⟩

/-- `webnet_upload_get_nameentry`: the value of the first entry of that name. -/
def UploadSession.getNameentry (u : UploadSession) (name : CString) : Option CString :=
  (u.nameEntries.find? fun e => e.name.bytes.map toLower == name.bytes.map toLower).map
    NameEntry.value

/-- The current part is a file. -/
def UploadSession.inFile (u : UploadSession) : Bool :=
  u.filename.isSome && u.contentType.isSome

/-- `end of file name section`: the next part begins with the file's strings freed. -/
def UploadSession.endSection (u : UploadSession) : UploadSession :=
  if u.inFile then { u with filename := none, contentType := none } else u

/-- The end of a header: the session takes over the strings found. -/
def UploadSession.startPart (u : UploadSession) (h : PartHeader) : UploadSession :=
  { u with
    filename := h.filename
    contentType := h.contentType
    nameEntries := u.nameEntries ++ (h.name.map fun value => ⟨nameKey, value⟩).toList }

/-- `_webnet_module_upload_parse_header`: `none` when the window does not begin with a
boundary, otherwise the session and the bytes behind the header. -/
def parseHeader (u : UploadSession) (w : List UInt8) :
    Except Fault (Option (UploadSession × List UInt8)) :=
  if strBeginWithStrs w (lastBoundary u.boundary) then
    .ok (some (u, w.drop (u.boundary.strlen + 6)))
  else
    match skipBoundary u.boundary w with
    | none => .ok none
    | some rest =>
        match headerLines rest.length .empty rest with
        | .error fault => .error fault
        | .ok .ranOut => .ok (some (u.endSection, []))
        | .ok (.ended h after) => .ok (some (u.endSection.startPart h, after))

/-- What the parser does with a window that does not begin with the closing boundary: only a
part that begins there changes the session, to whether the part is a file. -/
theorem parseHeader_cases {u : UploadSession}
    (hlast : strBeginWithStrs w (lastBoundary u.boundary) = false) :
    (∃ fault, parseHeader u w = .error fault) ∨ parseHeader u w = .ok none ∨
      ∃ u' rest, parseHeader u w = .ok (some (u', rest)) ∧ rest <:+ w ∧
        partBegins u.boundary w = some u'.inFile ∧ u'.boundary = u.boundary ∧
        u'.fileOpened = u.fileOpened ∧ u'.userData = u.userData := by
  have hend : u.endSection.inFile = false ∧ u.endSection.boundary = u.boundary ∧
      u.endSection.fileOpened = u.fileOpened ∧ u.endSection.userData = u.userData := by
    rw [UploadSession.endSection]
    split_ifs with hin
    · exact ⟨rfl, rfl, rfl, rfl⟩
    · exact ⟨by simpa using hin, rfl, rfl, rfl⟩
  rw [parseHeader, hlast, partBegins]
  cases hskip : skipBoundary u.boundary w with
  | none => exact .inr (.inl rfl)
  | some rest =>
      have hrest := skipBoundary_suffix hskip
      dsimp only
      cases hlines : headerLines rest.length .empty rest with
      | error fault => exact .inl ⟨fault, rfl⟩
      | ok header =>
          cases header with
          | ranOut =>
              exact .inr (.inr ⟨_, [], rfl, List.nil_suffix, by rw [hend.1], hend.2⟩)
          | ended h after =>
              refine .inr (.inr ⟨_, after, rfl, ?_, rfl, hend.2⟩)
              exact (headerLines_ended_suffix hlines).trans hrest

/-- `_next_possible_boundary`: where the boundary, or what may be its beginning, stands.
`past` is what memory holds behind the boundary string, which the comparison of a long
remainder reads. -/
def nextPossibleBoundary (past : ℕ → UInt8) (boundary : CString) (w : List UInt8) : Option ℕ :=
  if strBeginWithStrs w (commonBoundary boundary) then some 0
  else
    match memstrs w (commonBoundary boundary) with
    | some i => some i
    | none =>
        match memrchr w 13 with
        | none => none
        | some i =>
            if i + 1 = w.length then some i
            else if byteOf w (i + 1) = 10 ∧ i + 2 = w.length then none
            else if memcmp (fun j => byteOf w (i + 2 + j)) (boundary.byteAt past) 0
                (w.length - (i + 2)) = 0 then some i
            else none

/-- Where the data that the window begins with ends. -/
def dataEnd (past : ℕ → UInt8) (boundary : CString) (w : List UInt8) : ℕ :=
  (nextPossibleBoundary past boundary w).getD w.length

/-! ### The web session -/

/-- The callbacks of the upload entry, as the receiver calls them. -/
inductive EntryCall
  | open
  | write (data : List UInt8)
  | done
  | close
  deriving DecidableEq, Repr

/-- A web session in the hands of the receiver: the upload session, the bytes carried over
in its buffer, whether its phase is `WEB_PHASE_CLOSE`, and whether it has been closed. With it
goes the `file_type` all sessions share, and a record of what has happened: the callbacks
made, the calls they made in turn, and the bytes of the body received. -/
structure WebSession where
  upload : UploadSession
  buffer : List UInt8
  phaseClose : Bool
  closed : Bool
  fault : Option Fault
  fileType : ℤ
  entry : List EntryCall
  calls : List UploadCall
  received : List UInt8
  deriving DecidableEq

/-- What the surroundings contribute: the bytes behind the boundary string, and the answers
to the successive calls of `upload_open`. -/
structure UploadEnv where
  past : ℕ → UInt8
  answer : ℕ → OpenAnswer

/-- Surroundings in which `open` succeeds with descriptor 3. -/
def plainEnv : UploadEnv :=
  ⟨fun _ => 0, fun _ => ⟨true, 3⟩⟩

/-- `upload_open`, and the bookkeeping of the receiver around it. -/
def WebSession.entryOpen (env : UploadEnv) (s : WebSession) : WebSession :=
  let r := uploadOpen s.fileType ((s.upload.getNameentry nameKey).map CString.bytes)
    s.upload.filename.isSome (env.answer (s.entry.count .open))
  { s with
    upload := { s.upload with userData := r.fd, fileOpened := true }
    fault := if r.sessionClosed then some .sessionFreed else none
    fileType := r.fileType
    entry := s.entry ++ [.open]
    calls := s.calls ++ r.calls }

/-- `upload_write`. -/
def WebSession.entryWrite (s : WebSession) (data : List UInt8) : WebSession :=
  { s with
    entry := s.entry ++ [.write data]
    calls := s.calls ++ uploadWrite s.upload.userData data }

/-- `upload_done`, which answers the request. -/
def WebSession.entryDone (s : WebSession) : WebSession :=
  { s with entry := s.entry ++ [.done] }

/-- `upload_close`, and the bookkeeping of the receiver around it. -/
def WebSession.entryClose (s : WebSession) : WebSession :=
  { s with
    upload := { s.upload with userData := 0, fileOpened := false }
    entry := s.entry ++ [.close]
    calls := s.calls ++ uploadClose s.fileType s.upload.userData }

/-- `_handle_section`: the data of a file goes to the callback; of any other part the first
line is kept as the value of the last name. -/
def handleSection (s : WebSession) (data : List UInt8) : Except Fault WebSession :=
  if s.upload.inFile && data.length != 0 then .ok (s.entryWrite data)
  else
    match memstr crlf data with
    | none => .ok s
    | some i =>
        match s.upload.nameEntries.getLast? with
        | none => .error .noNameEntry
        | some e =>
            .ok { s with
              upload := { s.upload with
                nameEntries := s.upload.nameEntries.dropLast ++
                  [{ e with value := .upToNul (data.take i) }] } }

/-- How a round of the loop ends: with the return of the handler, or with a new window. -/
inductive Turn
  | ret (s : WebSession)
  | again (s : WebSession) (w : List UInt8)

/-- The data up to the next possible boundary is handled, all of it if there is none. -/
def dataTurn (env : UploadEnv) (s : WebSession) (w : List UInt8) : Turn :=
  let k := dataEnd env.past s.upload.boundary w
  match handleSection s (w.take k) with
  | .error fault => .ret { s with fault := some fault }
  | .ok t => .again t (w.drop k)

/-- Behind a part header: a file is opened, or one that is open is closed. -/
def startSection (env : UploadEnv) (s : WebSession) : WebSession :=
  if s.upload.inFile then
    if s.upload.fileOpened then s else s.entryOpen env
  else
    if s.upload.fileOpened then s.entryClose else s

/-- The size of the session buffer. -/
def sessionBufsz : ℕ := 4 * 1024

/-- The handler returns for more data: the window is short and does not hold the end. -/
def needsMore (boundary : CString) (w : List UInt8) : Prop :=
  w.length < sessionBufsz / 3 ∧ memstrs w (lastBoundary boundary) = none
  deriving Decidable

/-- One round of the loop of `_webnet_module_upload_handle` on a window that is not empty. -/
def handleTurn (env : UploadEnv) (s : WebSession) (w : List UInt8) : Turn :=
  if strBeginWithStrs w (lastBoundary s.upload.boundary) then
    .ret { s.entryDone with phaseClose := true }
  else if needsMore s.upload.boundary w then .ret { s with buffer := w }
  else
    match parseHeader s.upload w with
    | .error fault => .ret { s with fault := some fault }
    | .ok none => dataTurn env s w
    | .ok (some (u, rest)) =>
        let t := startSection env { s with upload := u }
        if t.fault.isSome then .ret t else dataTurn env t rest

/-- The loop of `_webnet_module_upload_handle`, for at most `fuel` rounds. -/
def handleLoop (env : UploadEnv) : ℕ → WebSession → List UInt8 → WebSession
  | _, s, [] => { s with buffer := [] }
  | 0, s, _ :: _ => { s with fault := some .spinning }
  | fuel + 1, s, b :: w =>
      match handleTurn env s (b :: w) with
      | .ret t => t
      | .again t w' => handleLoop env fuel t w'

/-- `webnet_session_close`, through `_webnet_module_upload_close`. -/
def webnetSessionClose (s : WebSession) : WebSession :=
  { (if s.upload.fileOpened then s.entryClose else s) with closed := true, buffer := [] }

/-- After the handler: the session is closed if its phase says so. -/
def closeIfDone (s : WebSession) : WebSession :=
  if s.fault.isNone && s.phaseClose then webnetSessionClose s else s

/-- What can happen to a session. The handler does not read when the buffer already holds the
closing boundary; otherwise the read delivers bytes or fails. Other sessions may overwrite
`file_type` in between. -/
inductive SessionAction
  | handleBuffered
  | handleRead (data : List UInt8)
  | handleBroken
  | otherSession (fileType : ℤ)
  deriving DecidableEq

/-- The bytes an action delivers. -/
def SessionAction.data : SessionAction → List UInt8
  | .handleRead data => data
  | _ => []

/-- The buffer already holds the closing boundary, so the handler does not read. -/
def WebSession.holdsLast (s : WebSession) : Bool :=
  (memstrs s.buffer (lastBoundary s.upload.boundary)).isSome

/-- One step of a session that is neither closed nor faulty. A read delivers at least one byte
and at most as many as the buffer has room for. -/
def sessionStep (env : UploadEnv) (fuel : ℕ) (s : WebSession) (action : SessionAction) :
    Option WebSession :=
  if s.closed || s.fault.isSome then none
  else
    match action with
    | .handleBuffered =>
        if s.holdsLast then some (closeIfDone (handleLoop env fuel s s.buffer)) else none
    | .handleRead data =>
        if s.holdsLast ∨ data.length = 0 ∨ sessionBufsz - s.buffer.length - 1 < data.length then
          none
        else some (closeIfDone
          (handleLoop env fuel { s with received := s.received ++ data } (s.buffer ++ data)))
    | .handleBroken =>
        if s.holdsLast then none
        else some (closeIfDone (handleLoop env fuel { s with phaseClose := true } s.buffer))
    | .otherSession fileType => some { s with fileType := fileType }

/-- `webnet_module_upload_open`: the session starts with the bytes of the body that came with
the request header. The first call of the handler follows at once. -/
def sessionInit (boundary : CString) (fileType : ℤ) (buffer : List UInt8) : WebSession where
  upload := ⟨boundary, none, none, [], false, 0⟩
  buffer := buffer
  phaseClose := false
  closed := false
  fault := none
  fileType := fileType
  entry := []
  calls := []
  received := buffer

/-! ### What the handler can do -/

/-- Two states of a session between which only the current part has moved on. -/
structure SectionFrame (s t : WebSession) : Prop where
  received : t.received = s.received
  boundary : t.upload.boundary = s.upload.boundary
  fileOpened : t.upload.fileOpened = s.upload.fileOpened
  userData : t.upload.userData = s.upload.userData
  phaseClose : t.phaseClose = s.phaseClose
  notices : ∀ notice, .notisfy notice ∈ t.calls → .notisfy notice ∈ s.calls

theorem SectionFrame.refl (s : WebSession) : SectionFrame s s :=
  ⟨rfl, rfl, rfl, rfl, rfl, fun _ h => h⟩

theorem notisfy_notMem_uploadWrite (fd : ℤ) (data : List UInt8) (notice : Notice) :
    .notisfy notice ∉ uploadWrite fd data := by
  rw [uploadWrite]
  split_ifs <;> simp

theorem notisfy_notMem_uploadOpen (fileType : ℤ) (name : Option (List UInt8))
    (hasFilename : Bool) (answer : OpenAnswer) (notice : Notice) :
    .notisfy notice ∉ (uploadOpen fileType name hasFilename answer).calls := by
  rw [uploadOpen]
  rcases getFileName fileType name with ⟨fileType', _ | file⟩
  · exact List.not_mem_nil
  · dsimp only
    split_ifs <;> simp

variable {s t : WebSession} {env : UploadEnv} {J : WebSession → List UInt8 → Prop}
  {Q : WebSession → Prop}

/-- What handling a stretch of data can do: write it, or store the value of a name, or
nothing. -/
theorem handleSection_cases {data : List UInt8}
    (h : handleSection s data = .ok t) : t = s ∨ (s.upload.inFile = true ∧ t = s.entryWrite data) ∨
      ∃ entries, t = { s with upload := { s.upload with nameEntries := entries } } := by
  rw [handleSection] at h
  split_ifs at h with hin
  · exact .inr (.inl ⟨(Bool.and_eq_true_iff.mp hin).1, (Except.ok.inj h).symm⟩)
  · cases hline : memstr crlf data with
    | none =>
        rw [hline] at h
        exact .inl (Except.ok.inj h).symm
    | some i =>
        rw [hline] at h
        dsimp only at h
        cases hlast : s.upload.nameEntries.getLast? with
        | none =>
            rw [hlast] at h
            cases h
        | some e =>
            rw [hlast] at h
            exact .inr (.inr ⟨_, (Except.ok.inj h).symm⟩)

/-- What handling data leaves alone. -/
theorem handleSection_frame {data : List UInt8}
    (h : handleSection s data = .ok t) : SectionFrame s t := by
  obtain rfl | ⟨-, rfl⟩ | ⟨entries, rfl⟩ := handleSection_cases h
  · exact .refl t
  · refine ⟨rfl, rfl, rfl, rfl, rfl, ?_⟩
    intro notice hmem
    exact (List.mem_append.mp hmem).resolve_right (notisfy_notMem_uploadWrite _ _ _)
  · exact ⟨rfl, rfl, rfl, rfl, rfl, fun _ hmem => hmem⟩

/-- A stretch of data is handled and the window moves on behind it, or there is a fault. -/
theorem dataTurn_cases (env : UploadEnv) (s : WebSession) (w : List UInt8) :
    (∃ fault, dataTurn env s w = .ret { s with fault := some fault }) ∨
      ∃ t w', dataTurn env s w = .again t w' ∧ SectionFrame s t ∧ w' <:+ w := by
  rw [dataTurn]
  cases hsec : handleSection s (w.take (dataEnd env.past s.upload.boundary w)) with
  | error fault => exact .inl ⟨fault, rfl⟩
  | ok t => exact .inr ⟨t, _, rfl, handleSection_frame hsec, List.drop_suffix _ _⟩

/-- **A round of the handler**: it ends the upload, returns for more data, fails, or handles
the data that the window or, behind a part header, the rest of it begins with. -/
theorem handleTurn_cases (env : UploadEnv) (s : WebSession) (w : List UInt8) :
    (strBeginWithStrs w (lastBoundary s.upload.boundary) = true ∧
      handleTurn env s w = .ret { s.entryDone with phaseClose := true }) ∨
    (strBeginWithStrs w (lastBoundary s.upload.boundary) = false ∧
      (handleTurn env s w = .ret { s with buffer := w } ∨
      (∃ fault, handleTurn env s w = .ret { s with fault := some fault }) ∨
      handleTurn env s w = dataTurn env s w ∨
      ∃ u rest, rest <:+ w ∧ partBegins s.upload.boundary w = some u.inFile ∧
        u.boundary = s.upload.boundary ∧ u.fileOpened = s.upload.fileOpened ∧
        u.userData = s.upload.userData ∧
        (handleTurn env s w = .ret (startSection env { s with upload := u }) ∨
          handleTurn env s w = dataTurn env (startSection env { s with upload := u }) rest))) := by
  by_cases hlast : strBeginWithStrs w (lastBoundary s.upload.boundary) = true
  · exact .inl ⟨hlast, by rw [handleTurn, if_pos hlast]⟩
  · have hlast' := Bool.eq_false_iff.mpr hlast
    refine .inr ⟨hlast', ?_⟩
    rw [handleTurn, if_neg hlast]
    split_ifs with hmore
    · exact .inl rfl
    · obtain ⟨fault, hparse⟩ | hparse | ⟨u, rest, hparse, hsuf, hpart, hb, hopen, hfd⟩ :=
        parseHeader_cases hlast'
      · exact .inr (.inl ⟨fault, by rw [hparse]⟩)
      · exact .inr (.inr (.inl (by rw [hparse])))
      · refine .inr (.inr (.inr ⟨u, rest, hsuf, hpart, hb, hopen, hfd, ?_⟩))
        rw [hparse]
        dsimp only
        split_ifs
        · exact .inl rfl
        · exact .inr rfl

/-- **A step of a session**: a call of the handler, with what the read before it gave, or an
upload of another session. -/
theorem sessionStep_cases {action : SessionAction}
    (h : sessionStep env fuel s action = some t) : (s.closed = false ∧ s.fault = none) ∧
    ((action = .handleBuffered ∧ t = closeIfDone (handleLoop env fuel s s.buffer)) ∨
      (∃ data, action = .handleRead data ∧ t = closeIfDone
        (handleLoop env fuel { s with received := s.received ++ data } (s.buffer ++ data))) ∨
      (action = .handleBroken ∧
        t = closeIfDone (handleLoop env fuel { s with phaseClose := true } s.buffer)) ∨
      ∃ fileType, action = .otherSession fileType ∧ t = { s with fileType := fileType }) := by
  cases action with
  | handleBuffered =>
      rw [sessionStep] at h
      split_ifs at h with hgone
      exact ⟨by simpa using hgone, .inl ⟨rfl, (Option.some.inj h).symm⟩⟩
  | handleRead data =>
      rw [sessionStep] at h
      split_ifs at h with hgone
      exact ⟨by simpa using hgone, .inr (.inl ⟨data, rfl, (Option.some.inj h).symm⟩)⟩
  | handleBroken =>
      rw [sessionStep] at h
      split_ifs at h with hgone
      exact ⟨by simpa using hgone, .inr (.inr (.inl ⟨rfl, (Option.some.inj h).symm⟩))⟩
  | otherSession fileType =>
      rw [sessionStep] at h
      split_ifs at h with hgone
      exact ⟨by simpa using hgone,
        .inr (.inr (.inr ⟨fileType, rfl, (Option.some.inj h).symm⟩))⟩

/-- A round ends in a state that satisfies `Q`, or in a state and a window that satisfy `J`. -/
def Turn.Ends (Q : WebSession → Prop) (J : WebSession → List UInt8 → Prop) : Turn → Prop
  | .ret t => Q t
  | .again t w => J t w

theorem Turn.Ends.mono {Q' : WebSession → Prop}
    {turn : Turn} (h : turn.Ends Q J) (hQ : ∀ s, Q s → Q' s) : turn.Ends Q' J := by
  cases turn with
  | ret s => exact hQ s h
  | again s w => exact h

/-- The loop on a window that is not empty: one round, and the rest from what it leaves. -/
theorem handleLoop_succ (hw : w ≠ []) (hturn : (handleTurn env s w).Ends Q J)
    (hrest : ∀ t w', J t w' → Q (handleLoop env fuel t w')) :
    Q (handleLoop env (fuel + 1) s w) := by
  obtain ⟨b, w, rfl⟩ := List.exists_cons_of_ne_nil hw
  rw [handleLoop]
  cases hres : handleTurn env s (b :: w) with
  | ret t =>
      rw [hres] at hturn
      exact hturn
  | again t w' =>
      rw [hres] at hturn
      exact hrest t w' hturn

/-- **The rule for the loop.** What every round preserves or turns into `Q`, the loop turns
into `Q`, whatever number of rounds it is given. -/
theorem handleLoop_rule (hend : ∀ s, J s [] → Q { s with buffer := [] })
    (hspin : ∀ s w, J s w → Q { s with fault := some .spinning })
    (hturn : ∀ s w, J s w → (handleTurn env s w).Ends Q J)
    (fuel : ℕ) (h : J s w) : Q (handleLoop env fuel s w) := by
  induction fuel generalizing s w with
  | zero =>
      cases w with
      | nil => exact hend s h
      | cons b w => exact hspin s _ h
  | succ fuel ih =>
      cases w with
      | nil => exact hend s h
      | cons b w => exact handleLoop_succ (List.cons_ne_nil b w) (hturn s _ h) fun _ _ => ih

/-- Opening or closing a file leaves the boundary and the bytes received. -/
theorem startSection_frame (env : UploadEnv) (s : WebSession) :
    (startSection env s).received = s.received ∧
      (startSection env s).upload.boundary = s.upload.boundary := by
  rw [startSection]
  split_ifs <;> exact ⟨rfl, rfl⟩

/-- Two states of a session with the same boundary and the same bytes received. -/
def SameBody (s t : WebSession) : Prop :=
  t.received = s.received ∧ t.upload.boundary = s.upload.boundary

theorem dataTurn_sameBody (ht : SameBody s t)
    (w : List UInt8) : (dataTurn env t w).Ends (SameBody s) fun r _ => SameBody s r := by
  obtain ⟨fault, h⟩ | ⟨r, w', h, hframe, -⟩ := dataTurn_cases env t w
  · rw [h]
    exact ht
  · rw [h]
    exact ⟨hframe.received.trans ht.1, hframe.boundary.trans ht.2⟩

/-- A round leaves the boundary and the bytes received. -/
theorem handleTurn_sameBody (env : UploadEnv) (ht : SameBody s t)
    (w : List UInt8) : (handleTurn env t w).Ends (SameBody s) fun r _ => SameBody s r := by
  obtain ⟨-, h⟩ | ⟨-, h | ⟨fault, h⟩ | h | ⟨u, rest, -, -, hb, -, -, hstart⟩⟩ :=
    handleTurn_cases env t w
  · rw [h]
    exact ht
  · rw [h]
    exact ht
  · rw [h]
    exact ht
  · rw [h]
    exact dataTurn_sameBody ht w
  · obtain ⟨hreceived, hboundary⟩ := startSection_frame env { t with upload := u }
    have hsame : SameBody s (startSection env { t with upload := u }) :=
      ⟨hreceived.trans ht.1, hboundary.trans (hb.trans ht.2)⟩
    rcases hstart with h | h
    · rw [h]
      exact hsame
    · rw [h]
      exact dataTurn_sameBody hsame rest

/-- The handler leaves the boundary and the bytes received. -/
theorem handleLoop_frame (env : UploadEnv) (fuel : ℕ) (s : WebSession) (w : List UInt8) :
    SameBody s (handleLoop env fuel s w) :=
  handleLoop_rule (J := fun t _ => SameBody s t) (fun _ h => h) (fun _ _ h => h)
    (fun _ w h => handleTurn_sameBody env h w) fuel ⟨rfl, rfl⟩

/-- So does the teardown. -/
theorem closeIfDone_frame (s : WebSession) :
    (closeIfDone s).upload.boundary = s.upload.boundary ∧
      (closeIfDone s).received = s.received := by
  rw [closeIfDone, webnetSessionClose]
  split_ifs <;> exact ⟨rfl, rfl⟩

end RtBoot
