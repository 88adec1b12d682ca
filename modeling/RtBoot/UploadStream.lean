import RtBoot.Run
import RtBoot.UploadForm

/-!
# Receiving a File in Pieces

The receiver should not depend on how the body is cut into reads: whatever the pieces are,
the content of the file should reach `upload_write` as it is, between one `upload_open` and
one `upload_done` and `upload_close`. It does depend on it, in a few places:

* a call that handles its data and ends right behind the line end of the closing boundary
  takes the line end for data, and then does not recognise the boundary;
* a window that happens to begin, inside the content, with a boundary in any case of letters
  takes it for the boundary of a part;
* a header that is longer than a third of the buffer may be parsed before it is complete;
* a call that parses the header of an empty file and ends inside the delimiter takes what there
  is of the delimiter for data.

`CutsWell` excludes exactly these cuts, call by call, and what is left is independent of the
cutting.

## Main results

* `Receiving.handleLoop`, `Opening.handleLoop`: what one call does in the middle of the content
  and at the header.
* `file_received`: the file arrives, with each callback made once, in every way of cutting
  the body that cuts well.
* `file_extended_by_line_end`: a cut behind the line end of the closing boundary.
-/

namespace RtBoot

open FileForm

variable {f : FileForm} {env : UploadEnv} {p q : ℕ} {s : WebSession}

/-! ### In the middle of the content -/

/-- The session is receiving the content, of which the first `q` bytes have been written. -/
structure Receiving (f : FileForm) (q : ℕ) (s : WebSession) : Prop where
  boundary : s.upload.boundary = f.boundary
  inFile : s.upload.inFile = true
  fileOpened : s.upload.fileOpened = true
  phaseClose : s.phaseClose = false
  closed : s.closed = false
  fault : s.fault = none
  bound : q ≤ f.content.length
  entry : ∃ writes : List (List UInt8), s.entry = .open :: writes.map .write ∧
    writes.flatten = f.content.take q

theorem Receiving.withBuffer (h : Receiving f q s) (buffer : List UInt8) :
    Receiving f q { s with buffer := buffer } :=
  ⟨h.boundary, h.inFile, h.fileOpened, h.phaseClose, h.closed, h.fault, h.bound, h.entry⟩

theorem Receiving.withReceived (h : Receiving f q s) (received : List UInt8) :
    Receiving f q { s with received := received } :=
  ⟨h.boundary, h.inFile, h.fileOpened, h.phaseClose, h.closed, h.fault, h.bound, h.entry⟩

/-- A section of the content is written. -/
theorem Receiving.handleSection {k : ℕ} (h : Receiving f q s)
    (hk : q + k ≤ f.content.length) (hp : q + k ≤ p) :
    ∃ t, handleSection s ((f.window p q).take k) = .ok t ∧ Receiving f (q + k) t := by
  rw [f.window_take hk hp, RtBoot.handleSection, h.inFile]
  cases hdata : (f.content.drop q).take k with
  | nil =>
      refine ⟨s, rfl, h.boundary, h.inFile, h.fileOpened, h.phaseClose, h.closed, h.fault, hk, ?_⟩
      obtain ⟨writes, hentry, hflat⟩ := h.entry
      refine ⟨writes, hentry, ?_⟩
      rw [hflat, List.take_add, hdata, List.append_nil]
  | cons b data =>
      refine ⟨s.entryWrite (b :: data), rfl, h.boundary, h.inFile, h.fileOpened, h.phaseClose,
        h.closed, h.fault, hk, ?_⟩
      obtain ⟨writes, hentry, hflat⟩ := h.entry
      refine ⟨writes ++ [b :: data], ?_, ?_⟩
      · simp [WebSession.entryWrite, hentry]
      · rw [List.flatten_append, hflat, List.take_add, hdata]
        simp

/-- The upload is done but for the teardown. -/
structure Done (f : FileForm) (s : WebSession) : Prop where
  fileOpened : s.upload.fileOpened = true
  phaseClose : s.phaseClose = true
  fault : s.fault = none
  entry : ∃ writes : List (List UInt8), s.entry = .open :: writes.map .write ++ [.done] ∧
    writes.flatten = f.content

/-- How a call ends when `p` bytes of the stream have arrived: it waits for more with the rest
in the buffer, or the upload is done. -/
def CallReturns (f : FileForm) (p : ℕ) (s : WebSession) : Prop :=
  (∃ q, Receiving f q s ∧ q ≤ p ∧ p < f.stream.length ∧ s.buffer = f.window p q) ∨
    p = f.stream.length ∧ Done f s

/-- At the closing boundary the upload is done, or what there is of the boundary is kept. -/
theorem Receiving.handleTurn_closing (h : Receiving f f.content.length s)
    (hshort : f.closing.length ≤ sessionBufsz / 3) (hp : p ≤ f.stream.length)
    (hcp : f.content.length ≤ p) :
    (handleTurn env s (f.window p f.content.length)).Ends (CallReturns f p) fun _ _ => False := by
  have hlen := f.length_window hp f.content.length
  have hclosing := f.length_closing
  have hstream := f.length_stream
  rw [handleTurn, h.boundary]
  by_cases hfull : p = f.stream.length
  · have hw : f.window p f.content.length = f.closing ++ [] := by
      rw [hfull, window, List.take_length, stream, List.drop_left, List.append_nil]
    have hlast : strBeginWithStrs (f.window p f.content.length) (lastBoundary f.boundary) =
        true := by
      rw [strBeginWithStrs_eq, flatten_lastBoundary, hw]
      exact caseBegins_self_append _ _
    rw [if_pos hlast]
    obtain ⟨writes, hentry, hflat⟩ := h.entry
    refine .inr ⟨hfull, h.fileOpened, rfl, h.fault, writes, ?_, ?_⟩
    · simp [WebSession.entryDone, hentry]
    · rw [hflat, List.take_length]
  · have hlt : (f.window p f.content.length).length < f.closing.length := by omega
    have hlast : strBeginWithStrs (f.window p f.content.length) (lastBoundary f.boundary) ≠
        true := by
      rw [strBeginWithStrs_eq, flatten_lastBoundary]
      intro hbegin
      exact absurd (length_le_of_caseBegins hbegin) (by omega)
    rw [if_neg hlast, if_pos (f.needsMore_of_lt hshort hlt)]
    exact .inl ⟨_, h.withBuffer _, hcp, by omega, rfl⟩

/-- A parked window is kept, or it turns out to be content. -/
theorem Receiving.handleTurn_parked (h : Receiving f q s)
    (hshort : f.closing.length ≤ sessionBufsz / 3) (hqp : q ≤ p) (hp : p < f.stream.length)
    (hparked : f.Parked (f.window p q)) :
    (handleTurn env s (f.window p q)).Ends (CallReturns f p) fun t w =>
      w = [] ∧ Receiving f p t := by
  have hlen := f.length_window hp.le q
  have hclosing := f.length_closing
  have hdelim := f.length_delimiter
  obtain ⟨hcommon, hfirst⟩ := hparked.not_begins
  rw [handleTurn, h.boundary, if_neg (f.not_last_of_not_common hcommon)]
  split_ifs with hmore
  · exact .inl ⟨q, h.withBuffer _, hqp, hp, rfl⟩
  rw [f.parseHeader_eq_none h.boundary hcommon hfirst]
  -- the carriage return in front is the only one and is not looked at again
  have hnext : nextPossibleBoundary env.past f.boundary (f.window p q) = none := by
    have hfind := memstr_eq_none_iff.mpr hparked.not_delimiter
    have hrchr := (memrchr_eq_none_iff (by decide)).mpr fun i hi => hparked.getElem?_ne (i := i) hi
    rw [nextPossibleBoundary, hcommon, memstrs, flatten_commonBoundary, hfind]
    dsimp only
    rw [hrchr]
    rfl
  have hpc : p ≤ f.content.length := by
    by_contra hgt
    have hplt := lt_of_not_delimiter h.bound hparked.not_delimiter
    rcases Nat.lt_or_eq_of_le h.bound with hlt | rfl
    · refine hparked.getElem?_ne (i := f.content.length - q) (by omega) ?_
      rw [f.getElem?_window_delimiter (o := 0) (by omega) (by omega) (by omega)]
      rfl
    · exact hmore (f.needsMore_of_lt hshort (by omega))
  obtain ⟨t, hsec, ht⟩ := h.handleSection (k := p - q) (p := p) (by omega) (by omega)
  dsimp only
  rw [dataTurn, h.boundary, dataEnd, hnext]
  dsimp only [Option.getD_none]
  rw [hlen, hsec]
  dsimp only [Turn.Ends]
  rw [window_drop, Nat.add_sub_cancel' hqp] at *
  refine ⟨?_, ht⟩
  rw [← List.length_eq_zero_iff, f.length_window hp.le, Nat.sub_self]

/-- Where a round leaves the window: at the end of what has arrived, at the closing boundary, or
parked. -/
def Settled (f : FileForm) (p q : ℕ) : Prop :=
  q = p ∨ q = f.content.length ∨ f.Parked (f.window p q)

/-- What a call still does with a settled window. -/
theorem Receiving.handleLoop_settled (h : Receiving f q s)
    (hshort : f.closing.length ≤ sessionBufsz / 3) (hqp : q ≤ p) (hp : p ≤ f.stream.length)
    (hset : Settled f p q) (fuel : ℕ) :
    CallReturns f p (handleLoop env (fuel + 1) s (f.window p q)) := by
  have hlen := f.length_window hp q
  have hstream := f.length_stream
  -- nothing is left: the buffer is emptied
  have hend : ∀ {t : WebSession} {r : ℕ}, Receiving f r t → r = p →
      CallReturns f p { t with buffer := [] } := by
    rintro t r ht rfl
    have := ht.bound
    refine .inl ⟨r, ht.withBuffer _, le_refl r, by omega, ?_⟩
    rw [eq_comm, ← List.length_eq_zero_iff, f.length_window hp, Nat.sub_self]
  by_cases hnil : f.window p q = []
  · rw [hnil, List.length_nil] at hlen
    rw [hnil, handleLoop]
    exact hend h (by omega)
  · have hne : q ≠ p := fun heq => hnil (List.length_eq_zero_iff.mp (by omega))
    rcases hset.resolve_left hne with rfl | hparked
    · exact handleLoop_succ hnil (h.handleTurn_closing hshort hp hqp) fun _ _ => False.elim
    · have hplt := lt_of_not_delimiter h.bound hparked.not_delimiter
      rw [length_delimiter] at hplt
      refine handleLoop_succ hnil (h.handleTurn_parked hshort hqp (by omega) hparked) ?_
      rintro t w ⟨rfl, ht⟩
      rw [handleLoop]
      exact hend ht rfl

/-- Handling the data of a window moves on to where it is settled. -/
theorem Receiving.dataTurn (h : Receiving f q s) (hqp : q ≤ p) (hp : p ≤ f.stream.length)
    (hbegin : strBeginWithStrs (f.window p q) (commonBoundary f.boundary) = true →
      q = f.content.length)
    (hcut : p ≠ f.content.length + 2)
    (hempty : q = f.content.length →
      p = f.content.length ∨ f.content.length + f.delimiter.length ≤ p) :
    (dataTurn env s (f.window p q)).Ends (fun _ => False) fun t w =>
      ∃ r, w = f.window p r ∧ Receiving f r t ∧ r ≤ p ∧ Settled f p r := by
  obtain ⟨k, hk, hkc, hkp, hset⟩ := next_spec env.past h.bound hqp hp hbegin hcut hempty
  obtain ⟨t, hsec, ht⟩ := h.handleSection hkc hkp
  rw [RtBoot.dataTurn, h.boundary, hk, hsec]
  exact ⟨q + k, f.window_drop p q k, ht, hkp, hset⟩

/-- **A call in the middle of the content**, on a window that does not look like a boundary by
accident and is not cut behind the line end of the closing boundary. -/
theorem Receiving.handleLoop (h : Receiving f q s)
    (hshort : f.closing.length ≤ sessionBufsz / 3) (hqp : q < p) (hp : p ≤ f.stream.length)
    (hcloses : strBeginWithStrs (f.window p q) (lastBoundary f.boundary) = true →
      q = f.content.length)
    (hcut : ¬ needsMore f.boundary (f.window p q) →
      (strBeginWithStrs (f.window p q) (commonBoundary f.boundary) = true →
        q = f.content.length) ∧
      strBeginWithStrs (f.window p q) (firstBoundary f.boundary) = false ∧
      p ≠ f.content.length + 2) (fuel : ℕ) :
    CallReturns f p (handleLoop env (fuel + 2) s (f.window p q)) := by
  by_cases hq : q = f.content.length
  · exact h.handleLoop_settled hshort hqp.le hp (.inr (.inl hq)) (fuel + 1)
  have hlen := f.length_window hp q
  have hlast := fun hb => hq (hcloses hb)
  have hnil : f.window p q ≠ [] := by
    intro hnil
    rw [hnil, List.length_nil] at hlen
    omega
  by_cases hmore : needsMore f.boundary (f.window p q)
  · refine handleLoop_succ (J := fun _ _ => False) hnil ?_ fun _ _ => False.elim
    rw [handleTurn, h.boundary, if_neg hlast, if_pos hmore]
    refine .inl ⟨q, h.withBuffer _, hqp.le, ?_, rfl⟩
    -- a complete stream would not have to wait
    by_contra hfull
    obtain rfl : p = f.stream.length := by omega
    refine f.not_needsMore ?_ hmore
    rw [window, List.take_length, stream, List.drop_append_of_le_length h.bound]
    exact (List.suffix_append _ _).isInfix
  · obtain ⟨hbegin, hfirst, hlineEnd⟩ := hcut hmore
    have hcommon : strBeginWithStrs (f.window p q) (commonBoundary f.boundary) = false :=
      Bool.eq_false_iff.mpr fun hb => hq (hbegin hb)
    refine handleLoop_succ hnil (J := fun t w =>
      ∃ r, w = f.window p r ∧ Receiving f r t ∧ r ≤ p ∧ Settled f p r) ?_ ?_
    · rw [handleTurn, h.boundary, if_neg hlast, if_neg hmore,
        f.parseHeader_eq_none h.boundary hcommon hfirst]
      exact (h.dataTurn hqp.le hp hbegin hlineEnd fun heq => absurd heq hq).mono
        fun _ => False.elim
    · rintro t w ⟨r, rfl, ht, hrp, hset⟩
      exact ht.handleLoop_settled hshort hrp hp hset fuel

/-! ### At the header -/

/-- The session has received nothing but a part of the header, or has just been opened. -/
structure Opening (f : FileForm) (s : WebSession) : Prop where
  upload : s.upload = ⟨f.boundary, none, none, [], false, 0⟩
  phaseClose : s.phaseClose = false
  closed : s.closed = false
  fault : s.fault = none
  entry : s.entry = []

theorem Opening.withReceived (h : Opening f s) (received : List UInt8) :
    Opening f { s with received := received } :=
  ⟨h.upload, h.phaseClose, h.closed, h.fault, h.entry⟩

/-- The body begins with no boundary but the first one. -/
theorem not_begins_take {n : ℕ} (hn : 0 < n) :
    strBeginWithStrs (f.body.take n) (commonBoundary f.boundary) = false := by
  rw [Bool.eq_false_iff]
  intro hbegin
  obtain ⟨m, rfl⟩ : ∃ m, n = m + 1 := ⟨n - 1, by omega⟩
  have hbody : f.body.take (m + 1) = 45 :: ((45 :: f.token.bytes) ++
      ((crlf ++ f.head.lines) ++ f.stream)).take m := by
    simp [body, header, FileForm.boundary, formBoundary]
  rw [hbody] at hbegin
  exact absurd (f.head_of_common hbegin).1 (by decide)

/-- Once the header is complete it is parsed to its end. -/
theorem parseHeader_header {n : ℕ} (hn : f.header.length ≤ n) (u : UploadSession)
    (hu : u.boundary = f.boundary) :
    parseHeader u (f.body.take n) =
      .ok (some (u.endSection.startPart f.head.header, f.window (n - f.header.length) 0)) := by
  have htake : f.body.take n = (f.boundary.bytes ++ crlf) ++
      (f.head.lines ++ f.window (n - f.header.length) 0) := by
    rw [body, List.take_append, List.take_of_length_le hn, window, List.drop_zero, header]
    simp
  have hpos : 0 < n := by
    have hlen : f.header.length = f.boundary.bytes.length + (2 + f.head.lines.length) := by
      rw [header, List.length_append, List.length_append]
      rfl
    omega
  have hcommon := not_begins_take (f := f) hpos
  have hfirst : strBeginWithStrs (f.body.take n) (firstBoundary f.boundary) = true := by
    rw [strBeginWithStrs_eq, flatten_firstBoundary, htake]
    exact caseBegins_self_append _ _
  have hrest : (f.body.take n).drop (f.boundary.strlen + 2) =
      f.head.lines ++ f.window (n - f.header.length) 0 := by
    rw [htake, show f.boundary.strlen + 2 = (f.boundary.bytes ++ crlf).length by
      simp [CString.strlen, crlf], List.drop_left]
  rw [parseHeader, hu, if_neg (f.not_last_of_not_common hcommon), skipBoundary,
    if_neg (f.not_normal_of_not_common hcommon), if_pos hfirst, hrest]
  dsimp only
  rw [f.head.reads]

/-- `upload_open` returns if `open` does not fail. -/
theorem sessionClosed_uploadOpen (fileType : ℤ) (name : Option (List UInt8)) (hasFilename : Bool)
    {answer : OpenAnswer} (h : 0 ≤ answer.fd) :
    (uploadOpen fileType name hasFilename answer).sessionClosed = false := by
  rw [uploadOpen]
  rcases getFileName fileType name with ⟨fileType', _ | file⟩
  · rfl
  · dsimp only
    split_ifs with h1 h2 h3
    · rfl
    · rfl
    · omega
    · rfl

/-- Behind the header the file is opened and the content begins. -/
theorem Opening.startSection (h : Opening f s) (hopen : 0 ≤ (env.answer 0).fd) :
    Receiving f 0 (startSection env
      { s with upload := s.upload.endSection.startPart f.head.header }) := by
  obtain ⟨hin, hopened, hboundary⟩ :
      (s.upload.endSection.startPart f.head.header).inFile = true ∧
      (s.upload.endSection.startPart f.head.header).fileOpened = false ∧
      (s.upload.endSection.startPart f.head.header).boundary = f.boundary := by
    rw [h.upload]
    exact ⟨f.isFile, rfl, rfl⟩
  have hcount : s.entry.count .open = 0 := by
    rw [h.entry]
    rfl
  rw [RtBoot.startSection]
  dsimp only
  rw [if_pos hin, hopened]
  refine ⟨hboundary, hin, rfl, h.phaseClose, h.closed, ?_, Nat.zero_le _, [], ?_, rfl⟩
  · simp only [Bool.false_eq_true, if_false, WebSession.entryOpen, hcount,
      sessionClosed_uploadOpen _ _ _ hopen]
  · simp [WebSession.entryOpen, h.entry]

/-- The condition on a call that parses the header, when `n` bytes of the body have arrived: the
header is complete, the bytes do not end behind the line end of the closing boundary, nor
inside it if there is no content, and the content does not look like a boundary. -/
structure CutsHeader (f : FileForm) (n : ℕ) : Prop where
  complete : f.header.length ≤ n
  lineEnd : n ≠ f.header.length + f.content.length + 2
  noContent : f.content = [] →
    n ≤ f.header.length ∨ f.header.length + f.delimiter.length ≤ n
  begins : strBeginWithStrs ((f.body.take n).drop f.header.length) (commonBoundary f.boundary) =
    true → f.content = []

instance (f : FileForm) (n : ℕ) : Decidable (CutsHeader f n) :=
  decidable_of_iff (f.header.length ≤ n ∧ n ≠ f.header.length + f.content.length + 2 ∧
      (f.content = [] → n ≤ f.header.length ∨ f.header.length + f.delimiter.length ≤ n) ∧
      (strBeginWithStrs ((f.body.take n).drop f.header.length) (commonBoundary f.boundary) = true →
        f.content = []))
    ⟨fun ⟨h1, h2, h3, h4⟩ => ⟨h1, h2, h3, h4⟩, fun ⟨h1, h2, h3, h4⟩ => ⟨h1, h2, h3, h4⟩⟩

/-- **A call at the header**: it waits for the rest of the header, or opens the file and goes on
into the content. -/
theorem Opening.handleLoop (h : Opening f s)
    (hshort : f.closing.length ≤ sessionBufsz / 3) (hopen : 0 ≤ (env.answer 0).fd) {n : ℕ}
    (hn : 0 < n) (hbody : n ≤ f.body.length)
    (hcut : needsMore f.boundary (f.body.take n) ∨ CutsHeader f n) (fuel : ℕ) :
    needsMore f.boundary (f.body.take n) ∧
        handleLoop env (fuel + 2) s (f.body.take n) = { s with buffer := f.body.take n } ∨
      f.header.length ≤ n ∧
        CallReturns f (n - f.header.length) (handleLoop env (fuel + 2) s (f.body.take n)) := by
  have hlen : (f.body.take n).length = n := by rw [List.length_take, Nat.min_eq_left hbody]
  have hnil : f.body.take n ≠ [] := by
    intro hnil
    rw [hnil, List.length_nil] at hlen
    omega
  have hb : s.upload.boundary = f.boundary := by rw [h.upload]
  have hlast := f.not_last_of_not_common (not_begins_take hn)
  by_cases hmore : needsMore f.boundary (f.body.take n)
  · refine .inl ⟨hmore, handleLoop_succ (J := fun _ _ => False)
      (Q := fun t => t = { s with buffer := f.body.take n }) hnil ?_ fun _ _ => False.elim⟩
    rw [handleTurn, hb, if_neg hlast, if_pos hmore]
    rfl
  · have hcut := hcut.resolve_left hmore
    refine .inr ⟨hcut.complete, ?_⟩
    have hstream : n - f.header.length ≤ f.stream.length := by
      rw [body, List.length_append] at hbody
      omega
    have hwindow : (f.body.take n).drop f.header.length = f.window (n - f.header.length) 0 := by
      rw [body, List.take_append, List.take_of_length_le hcut.complete, List.drop_left, window,
        List.drop_zero]
    have hcomplete := hcut.complete
    have hlineEnd := hcut.lineEnd
    have ht := h.startSection hopen
    refine handleLoop_succ hnil (J := fun t w => ∃ r, w = f.window (n - f.header.length) r ∧
      Receiving f r t ∧ r ≤ n - f.header.length ∧ Settled f (n - f.header.length) r) ?_ ?_
    · rw [handleTurn, hb, if_neg hlast, if_neg hmore, parseHeader_header hcut.complete _ hb]
      dsimp only
      rw [ht.fault]
      refine (ht.dataTurn (Nat.zero_le _) hstream ?_ (by omega)
        ?_).mono fun _ => False.elim
      · intro hbegin
        rw [← hwindow] at hbegin
        rw [hcut.begins hbegin]
        rfl
      · intro hzero
        rcases hcut.noContent (List.length_eq_zero_iff.mp hzero.symm) with hle | hle <;> omega
    · rintro t w ⟨r, rfl, hr, hrp, hset⟩
      exact hr.handleLoop_settled hshort hrp hstream hset fuel

/-! ### Runs -/

/-- The step is one of a body arriving in pieces: the handler finds the closing boundary in its
buffer, or reads at least one byte and at most what there is room for. -/
def IsRead (s : WebSession) : SessionAction → Prop
  | .handleBuffered => s.holdsLast = true
  | .handleRead data => s.holdsLast = false ∧ data ≠ [] ∧
      data.length ≤ sessionBufsz - s.buffer.length - 1
  | _ => False

/-- The condition on a call in the content, with window `w`, when `n` bytes of the body have
arrived: the window begins with no closing boundary, in any case of letters, but the real one;
and if the call handles the window, it begins with no other boundary either and does not end
behind the line end of the closing boundary. -/
structure CutsContent (f : FileForm) (w : List UInt8) (n : ℕ) : Prop where
  closes : strBeginWithStrs w (lastBoundary f.boundary) = true →
    n = f.header.length + f.content.length + w.length
  begins : ¬ needsMore f.boundary w → strBeginWithStrs w (commonBoundary f.boundary) = true →
    n = f.header.length + f.content.length + w.length
  notFirst : ¬ needsMore f.boundary w → strBeginWithStrs w (firstBoundary f.boundary) = false
  lineEnd : ¬ needsMore f.boundary w → n ≠ f.header.length + f.content.length + 2

/-- The condition on a step. -/
def CutsWell (f : FileForm) (s : WebSession) (action : SessionAction) : Prop :=
  if s.upload.fileOpened then
    CutsContent f (s.buffer ++ action.data) (s.received.length + action.data.length)
  else
    needsMore f.boundary (s.buffer ++ action.data) ∨
      CutsHeader f (s.received.length + action.data.length)

instance (s : WebSession) : (action : SessionAction) → Decidable (IsRead s action)
  | .handleBuffered => inferInstanceAs (Decidable (_ = true))
  | .handleRead _ => inferInstanceAs (Decidable (_ ∧ _ ∧ _))
  | .handleBroken => .isFalse id
  | .otherSession _ => .isFalse id

instance (f : FileForm) (w : List UInt8) (n : ℕ) : Decidable (CutsContent f w n) :=
  decidable_of_iff ((strBeginWithStrs w (lastBoundary f.boundary) = true →
        n = f.header.length + f.content.length + w.length) ∧
      (¬ needsMore f.boundary w → strBeginWithStrs w (commonBoundary f.boundary) = true →
        n = f.header.length + f.content.length + w.length) ∧
      (¬ needsMore f.boundary w → strBeginWithStrs w (firstBoundary f.boundary) = false) ∧
      (¬ needsMore f.boundary w → n ≠ f.header.length + f.content.length + 2))
    ⟨fun ⟨h1, h2, h3, h4⟩ => ⟨h1, h2, h3, h4⟩, fun ⟨h1, h2, h3, h4⟩ => ⟨h1, h2, h3, h4⟩⟩

instance (f : FileForm) (s : WebSession) (action : SessionAction) :
    Decidable (CutsWell f s action) :=
  inferInstanceAs (Decidable (if s.upload.fileOpened = true then
      CutsContent f (s.buffer ++ action.data) (s.received.length + action.data.length)
    else needsMore f.boundary (s.buffer ++ action.data) ∨
      CutsHeader f (s.received.length + action.data.length)))

/-- The session waits for more of the body. -/
inductive Waiting (f : FileForm) (s : WebSession) : Prop
  | opening (h : Opening f s) (hbuffer : s.buffer = s.received)
  | content (p q : ℕ) (h : Receiving f q s) (hqp : q ≤ p) (hp : p < f.stream.length)
      (hbuffer : s.buffer = f.window p q) (hreceived : s.received = f.header ++ f.stream.take p)

/-- The file has been received and the session is closed. -/
structure Delivered (f : FileForm) (s : WebSession) : Prop where
  closed : s.closed = true
  buffer : s.buffer = []
  entry : ∃ writes : List (List UInt8), s.entry = .open :: writes.map .write ++ [.done, .close] ∧
    writes.flatten = f.content

/-- What a step of a session that waits leads to. -/
def Proceeds (f : FileForm) (s : WebSession) : Prop :=
  Waiting f s ∧ s.received ≠ f.body ∨ Delivered f s ∧ s.received = f.body

theorem Waiting.running (h : Waiting f s) : s.closed = false ∧ s.fault = none := by
  cases h with
  | opening h _ => exact ⟨h.closed, h.fault⟩
  | content p q h _ _ _ _ => exact ⟨h.closed, h.fault⟩

/-- An empty buffer does not hold the closing boundary. -/
theorem holdsLast_eq_false (h : s.buffer = []) : s.holdsLast = false := by
  rw [WebSession.holdsLast, h]
  simp [memstrs, memstr, lastBoundary, crlf]

/-- A read, or the closing boundary in the buffer, lets the handler run on what there is. -/
theorem sessionStep_of_isRead (env : UploadEnv) (fuel : ℕ)
    {action : SessionAction} (hclosed : s.closed = false) (hfault : s.fault = none)
    (hread : IsRead s action) :
    s.buffer ++ action.data ≠ [] ∧ sessionStep env fuel s action = some (closeIfDone
      (handleLoop env fuel { s with received := s.received ++ action.data }
        (s.buffer ++ action.data))) := by
  have hrun : (s.closed || s.fault.isSome) ≠ true := by simp [hclosed, hfault]
  cases action with
  | handleBuffered =>
      have hlast : s.holdsLast = true := hread
      constructor
      · intro hnil
        rw [holdsLast_eq_false (List.append_eq_nil_iff.mp hnil).1] at hlast
        cases hlast
      · rw [sessionStep, if_neg hrun, if_pos hlast]
        simp [SessionAction.data]
  | handleRead data =>
      obtain ⟨hlast, hne, hroom⟩ := hread
      refine ⟨fun hnil => hne (List.append_eq_nil_iff.mp hnil).2, ?_⟩
      rw [sessionStep, if_neg hrun, if_neg ?_]
      · rfl
      · rw [hlast, List.length_eq_zero_iff]
        rintro (h | h | h)
        · cases h
        · exact hne h
        · omega
  | handleBroken => exact hread.elim
  | otherSession fileType => exact hread.elim

/-- What a call returns with, the teardown makes into a step. -/
theorem CallReturns.proceeds (h : CallReturns f p s)
    (hreceived : s.received = f.header ++ f.stream.take p) : Proceeds f (closeIfDone s) := by
  obtain ⟨-, hframe⟩ := closeIfDone_frame s
  rcases h with ⟨q, hrec, hqp, hp, hbuffer⟩ | ⟨rfl, hdone⟩
  · have hclose : closeIfDone s = s := by simp [closeIfDone, hrec.phaseClose]
    rw [hclose]
    refine .inl ⟨.content p q hrec hqp hp hbuffer hreceived, ?_⟩
    intro hbody
    have hlen := congrArg List.length (hreceived.symm.trans hbody)
    rw [body, List.length_append, List.length_append, List.length_take] at hlen
    omega
  · refine .inr ⟨?_, by rw [hframe, hreceived, List.take_length, body]⟩
    obtain ⟨writes, hentry, hflat⟩ := hdone.entry
    have hclose : closeIfDone s = { s.entryClose with closed := true, buffer := [] } := by
      simp [closeIfDone, webnetSessionClose, hdone.fault, hdone.phaseClose, hdone.fileOpened]
    rw [hclose]
    exact ⟨rfl, rfl, writes, by simp [WebSession.entryClose, hentry], hflat⟩

/-- A call at the header, and the teardown behind it. -/
theorem Opening.proceeds {n : ℕ} (h : Opening f s)
    (hshort : f.closing.length ≤ sessionBufsz / 3) (hopen : 0 ≤ (env.answer 0).fd)
    (hreceived : s.received = f.body.take n) (hn : 0 < n) (hbody : n ≤ f.body.length)
    (hcut : needsMore f.boundary (f.body.take n) ∨ CutsHeader f n) (fuel : ℕ) :
    Proceeds f (closeIfDone (RtBoot.handleLoop env (fuel + 2) s (f.body.take n))) := by
  obtain ⟨hframe, -⟩ := handleLoop_frame env (fuel + 2) s (f.body.take n)
  rcases h.handleLoop hshort hopen hn hbody hcut fuel with ⟨hmore, heq⟩ | ⟨hle, hret⟩
  · have hclose : closeIfDone { s with buffer := f.body.take n } =
        { s with buffer := f.body.take n } := by
      simp [closeIfDone, h.phaseClose]
    rw [heq, hclose]
    refine .inl ⟨.opening ⟨h.upload, h.phaseClose, h.closed, h.fault, h.entry⟩ hreceived.symm, ?_⟩
    -- the whole body holds the closing boundary and does not have to wait
    intro hfull
    have hall : f.body.take n = f.body := hreceived.symm.trans hfull
    rw [hall] at hmore
    refine f.not_needsMore ?_ hmore
    rw [body, stream, ← List.append_assoc]
    exact (List.suffix_append _ _).isInfix
  · refine hret.proceeds ?_
    rw [hframe, hreceived, body, List.take_append, List.take_of_length_le hle]

/-- A call in the content, and the teardown behind it. -/
theorem Receiving.proceeds (h : Receiving f q s) (hshort : f.closing.length ≤ sessionBufsz / 3)
    (hreceived : s.received = f.header ++ f.stream.take p) (hqp : q < p)
    (hp : p ≤ f.stream.length) (hcut : CutsContent f (f.window p q) (f.header.length + p))
    (fuel : ℕ) : Proceeds f (closeIfDone (RtBoot.handleLoop env (fuel + 2) s (f.window p q))) := by
  obtain ⟨hframe, -⟩ := handleLoop_frame env (fuel + 2) s (f.window p q)
  have hlen := f.length_window hp q
  refine (h.handleLoop hshort hqp hp ?_ ?_ fuel).proceeds (hframe.trans hreceived)
  · intro hlast
    have := hcut.closes hlast
    omega
  · intro hmore
    have hlineEnd := hcut.lineEnd hmore
    refine ⟨?_, hcut.notFirst hmore, by omega⟩
    intro hbegin
    have := hcut.begins hmore hbegin
    omega

/-- **A step of a session that waits**, with a piece of the body that is cut well. -/
theorem Waiting.step {action : SessionAction} (h : Waiting f s)
    (hshort : f.closing.length ≤ sessionBufsz / 3) (hopen : 0 ≤ (env.answer 0).fd)
    (hread : IsRead s action) (hcut : CutsWell f s action)
    (hpre : s.received ++ action.data <+: f.body) (fuel : ℕ) :
    ∃ t, sessionStep env (fuel + 2) s action = some t ∧
      t.received = s.received ++ action.data ∧ Proceeds f t := by
  obtain ⟨hclosed, hfault⟩ := h.running
  obtain ⟨hne, hstep⟩ := sessionStep_of_isRead env (fuel + 2) hclosed hfault hread
  obtain ⟨hframe, -⟩ := handleLoop_frame env (fuel + 2)
    { s with received := s.received ++ action.data } (s.buffer ++ action.data)
  refine ⟨_, hstep, (closeIfDone_frame _).2.trans hframe, ?_⟩
  have hpos := List.length_pos_iff.mpr hne
  have hlen := hpre.length_le
  rw [List.length_append] at hlen hpos
  cases h with
  | opening h hbuffer =>
      rw [CutsWell, h.upload] at hcut
      have htake := List.prefix_iff_eq_take.mp hpre
      rw [List.length_append] at htake
      have hwindow : s.buffer ++ action.data =
          f.body.take (s.received.length + action.data.length) := by
        rw [hbuffer, htake]
      rw [hbuffer] at hpos
      rw [hwindow] at hcut ⊢
      exact (h.withReceived _).proceeds hshort hopen htake hpos hlen hcut fuel
  | content p q h hqp hp hbuffer hrec =>
      rw [CutsWell, h.fileOpened] at hcut
      have htakelen : (f.stream.take p).length = p := by
        rw [List.length_take, Nat.min_eq_left hp.le]
      have hstream : f.stream.take p ++ action.data = f.stream.take (p + action.data.length) := by
        rw [hrec, List.append_assoc, body, List.prefix_append_right_inj] at hpre
        have htake := List.prefix_iff_eq_take.mp hpre
        rwa [List.length_append, htakelen] at htake
      have hwindow : s.buffer ++ action.data = f.window (p + action.data.length) q := by
        rw [hbuffer, window, window, ← hstream, List.drop_append_of_le_length (by omega)]
      have hreclen : s.received.length = f.header.length + p := by
        rw [hrec, List.length_append, htakelen]
      rw [body, List.length_append] at hlen
      have hwlen := f.length_window (p := p) hp.le q
      rw [← hbuffer] at hwlen
      rw [hwindow, hreclen, Nat.add_assoc] at hcut
      rw [hwindow]
      refine (h.withReceived _).proceeds hshort ?_ (by omega) (by omega) hcut fuel
      rw [hrec, List.append_assoc, hstream]

/-- The bytes passed to `upload_write`. -/
def writtenBytes (entry : List EntryCall) : List UInt8 :=
  entry.flatMap fun
    | .write data => data
    | _ => []

/-- The rest of the body, cut well, leads to the delivery of the file. -/
theorem Waiting.run {fuel : ℕ} (hshort : f.closing.length ≤ sessionBufsz / 3)
    (hopen : 0 ≤ (env.answer 0).fd) {actions : List SessionAction}
    (h : Waiting f s) (hne : actions ≠ [])
    (hall : s.received ++ (actions.map SessionAction.data).flatten = f.body)
    (hread : StepsMeet (sessionStep env (fuel + 2)) IsRead s actions)
    (hcut : StepsMeet (sessionStep env (fuel + 2)) (CutsWell f) s actions) :
    ∃ t, exec (sessionStep env (fuel + 2)) s actions = some t ∧ Delivered f t := by
  induction actions generalizing s with
  | nil => exact absurd rfl hne
  | cons action actions ih =>
      rw [List.map_cons, List.flatten_cons, ← List.append_assoc] at hall
      obtain ⟨t, hstep, hreceived, hproceeds⟩ :=
        h.step hshort hopen hread.head hcut.head (hall ▸ List.prefix_append _ _) fuel
      rw [← hreceived] at hall
      rcases hproceeds with ⟨hwait, hpart⟩ | ⟨hdelivered, hfull⟩
      · have hne' : actions ≠ [] := by
          rintro rfl
          exact hpart (by simpa using hall)
        obtain ⟨u, hrun, hu⟩ := ih hwait hne' hall (hread.tail hstep) (hcut.tail hstep)
        exact ⟨u, exec_cons_eq_some.mpr ⟨t, hstep, hrun⟩, hu⟩
      · cases actions with
        | nil => exact ⟨t, exec_cons_eq_some.mpr ⟨t, hstep, rfl⟩, hdelivered⟩
        | cons next actions =>
            -- nothing is left to read, and the buffer is empty
            have hdata : next.data = [] := by
              rw [hfull, List.map_cons, List.flatten_cons, List.append_right_eq_self] at hall
              exact (List.append_eq_nil_iff.mp hall).1
            have hnext := (hread.tail hstep).head
            cases next with
            | handleBuffered =>
                have hlast : t.holdsLast = true := hnext
                rw [holdsLast_eq_false hdelivered.buffer] at hlast
                cases hlast
            | handleRead data => exact absurd hdata hnext.2.1
            | handleBroken => exact hnext.elim
            | otherSession fileType => exact hnext.elim

/-- **The file is received as it is**, however the body is cut, as long as every call meets the
condition: the bytes passed to `upload_write` are the content, and the file is opened once, the
upload done once and the file closed once. -/
theorem file_received {fuel : ℕ} (hfuel : 2 ≤ fuel)
    (hshort : f.closing.length ≤ sessionBufsz / 3) (hopen : 0 ≤ (env.answer 0).fd)
    {fileType : ℤ} {buffer : List UInt8} {actions : List SessionAction} (hne : actions ≠ [])
    (hall : buffer ++ (actions.map SessionAction.data).flatten = f.body)
    (hread : StepsMeet (sessionStep env fuel) IsRead
      (sessionInit f.boundary fileType buffer) actions)
    (hcut : StepsMeet (sessionStep env fuel) (CutsWell f)
      (sessionInit f.boundary fileType buffer) actions) :
    ∃ s, exec (sessionStep env fuel) (sessionInit f.boundary fileType buffer) actions = some s ∧
      s.closed = true ∧ writtenBytes s.entry = f.content ∧ s.entry.count .open = 1 ∧
      s.entry.count .done = 1 ∧ s.entry.count .close = 1 := by
  obtain ⟨n, rfl⟩ : ∃ n, fuel = n + 2 := ⟨fuel - 2, by omega⟩
  have hwait : Waiting f (sessionInit f.boundary fileType buffer) :=
    .opening ⟨rfl, rfl, rfl, rfl, rfl⟩ rfl
  obtain ⟨s, hrun, hs⟩ := hwait.run hshort hopen hne hall hread hcut
  obtain ⟨writes, hentry, hflat⟩ := hs.entry
  refine ⟨s, hrun, hs.closed, ?_, ?_, ?_, ?_⟩
  · rw [hentry, ← hflat]
    simp [writtenBytes, List.flatMap_map]
  · rw [hentry]
    simp [List.count_append, List.count_eq_zero]
  · rw [hentry]
    simp [List.count_append, List.count_eq_zero]
  · rw [hentry]
    simp [List.count_append, List.count_eq_zero]

/-- The name of the field for firmware. -/
def firmwareName : CString :=
  ⟨ascii "fw_file", by decide⟩

/-- The header of a file `f` of the type `t`. -/
def plainFileHeader (name : CString) (hname : 34 ∉ name.bytes) : PartLines :=
  .file name ⟨ascii "f", by decide⟩ ⟨ascii "t", by decide⟩ hname (by decide) (by decide)

/-- A firmware file of 1300 carriage returns, sent with the boundary `--B`. -/
def returnsForm : FileForm where
  token := ⟨ascii "B", by decide⟩
  head := plainFileHeader firmwareName (by decide)
  content := List.replicate 1300 13
  token_cr := by decide
  isFile := rfl
  content_free := fun h =>
    absurd (List.eq_of_mem_replicate (h.subset (List.mem_of_getElem? (i := 1) rfl))) (by decide)

/-- The file arrives although the closing boundary is cut twice. -/
theorem file_received_in_pieces :
    ∃ s, exec (sessionStep plainEnv 2) (sessionInit returnsForm.boundary (-1) [])
        [.handleRead (returnsForm.header ++ returnsForm.content), .handleRead [13],
          .handleRead [10, 45], .handleRead (ascii "-B--\r\n")] = some s ∧
      s.closed = true ∧ writtenBytes s.entry = returnsForm.content ∧
      s.entry.count .open = 1 ∧ s.entry.count .done = 1 ∧ s.entry.count .close = 1 :=
  file_received (by decide) (by decide +kernel) (by decide) (by decide) (by decide +kernel)
    (by decide +kernel) (by decide +kernel)

/-- The first read ends behind the line end of the closing boundary: the line end is written to
the file, the rest of the boundary is not recognised, and the upload is never done. -/
theorem file_extended_by_line_end :
    ∃ s, exec (sessionStep plainEnv 9) (sessionInit returnsForm.boundary (-1) [])
        [.handleRead (returnsForm.header ++ returnsForm.content ++ crlf),
          .handleRead (ascii "--B--\r\n")] = some s ∧
      s.received = returnsForm.body ∧ writtenBytes s.entry = returnsForm.content ++ crlf ∧
      .done ∉ s.entry ∧ .close ∉ s.entry := by
  obtain ⟨s, hrun, h⟩ : ∃ s ∈ exec (sessionStep plainEnv 9)
        (sessionInit returnsForm.boundary (-1) [])
        [.handleRead (returnsForm.header ++ returnsForm.content ++ crlf),
          .handleRead (ascii "--B--\r\n")],
      s.received = returnsForm.body ∧ writtenBytes s.entry = returnsForm.content ++ crlf ∧
      .done ∉ s.entry ∧ .close ∉ s.entry := by
    decide +kernel
  exact ⟨s, hrun, h⟩

end RtBoot
