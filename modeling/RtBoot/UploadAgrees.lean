import RtBoot.UploadMemory

/-!
# The Two Models of the Receiver Agree

`Upload` models the receiver with values, on the assumption that allocations succeed;
`UploadHeap` models the same functions with blocks of the heap, for every answer of the
allocator. A session of the second kind reads as one of the first when its pointers lead to the
first one's strings. Where the requests for strings are granted and `open` succeeds, each
function of the second model returns a session that reads as what the function of the first
model returns.

## Main results

* `returns_top`, `returns_start`, `returns_data`: the steps of the handler on the heap carry
  out the rounds of `handleTurn`.
-/

namespace RtBoot

open HeapM

/-! ### Sessions that read the same -/

/-- The text a pointer leads to. -/
def textOf (str : Option HeapString) : Option CString :=
  str.map HeapString.text

/-- The texts of an entry on the heap. -/
def HeapNameEntry.texts (e : HeapNameEntry) : Option CString × Option CString :=
  (textOf e.name, textOf e.value)

/-- The texts of an entry. -/
def NameEntry.texts (e : NameEntry) : Option CString × Option CString :=
  (some e.name, some e.value)

/-- The pointers of the session lead to the strings of the other. -/
structure HeapUpload.Reads (u : HeapUpload) (v : UploadSession) : Prop where
  boundary : textOf u.boundary = some v.boundary
  filename : textOf u.filename = v.filename
  contentType : textOf u.contentType = v.contentType
  nameEntries : (tableEntries u.nameEntries).map HeapNameEntry.texts =
    v.nameEntries.map NameEntry.texts
  fileOpened : u.fileOpened = v.fileOpened
  userData : u.userData = v.userData

theorem isSome_textOf (str : Option HeapString) : (textOf str).isSome = str.isSome :=
  Option.isSome_map

section Functions

variable {u : HeapUpload} {v : UploadSession} {a : HeaderAnswers}

theorem HeapUpload.Reads.inFile (h : u.Reads v) : u.inFile = v.inFile := by
  rw [HeapUpload.inFile, UploadSession.inFile, ← h.filename, ← h.contentType, isSome_textOf,
    isSome_textOf]

theorem returns_strdup (text : CString) :
    Returns (strdup text true) fun str => textOf str = some text := by
  refine returns_malloc_true.bind ?_
  intro p hp
  cases p with
  | none => exact absurd rfl hp
  | some b => exact (returns_any _).bind fun _ _ => Returns.pure rfl

theorem returns_strdupSome (text : Option CString) :
    Returns (strdupSome true text) fun str => textOf str = text := by
  cases text with
  | none => exact Returns.pure rfl
  | some text => exact returns_strdup text

theorem returns_readBoundary (h : u.Reads v) : Returns u.readBoundary (· = v.boundary) := by
  refine (returns_any _).bind fun _ _ => ?_
  have hb := h.boundary
  cases hstr : u.boundary with
  | none =>
      rw [hstr] at hb
      cases hb
  | some str =>
      rw [hstr] at hb
      exact (returns_any _).bind fun _ _ => Returns.pure (Option.some.inj hb)

/-! ### The header parser -/

theorem returns_endSection (h : u.Reads v) : Returns u.endSection (·.Reads v.endSection) := by
  rw [HeapUpload.endSection, UploadSession.endSection, h.inFile]
  split_ifs
  · refine (returns_any _).bind fun _ _ => (returns_any _).bind fun _ _ => Returns.pure ?_
    exact ⟨h.boundary, rfl, rfl, h.nameEntries, h.fileOpened, h.userData⟩
  · exact Returns.pure h

/-- The strings of a header are copied. -/
structure HeaderAnswers.Copies (a : HeaderAnswers) : Prop where
  filename : a.filename = true
  contentType : a.contentType = true
  name : a.name = true
  value : a.value = true

theorem returns_addName (ha : a.Copies) (table : Option NameTable) (name : CString) :
    Returns (addName a table name) fun table' => (tableEntries table').map HeapNameEntry.texts =
      (tableEntries table).map HeapNameEntry.texts ++ [NameEntry.texts ⟨nameKey, name⟩] := by
  rw [addName, ha.name, ha.value]
  refine (returns_any _).bind fun p _ => (returns_strdup nameKey).bind fun nameStr hname => ?_
  refine (returns_any _).bind fun b _ => (returns_strdup name).bind fun valueStr hvalue => ?_
  refine (returns_any _).bind fun _ _ => Returns.pure ?_
  simp [tableEntries, HeapNameEntry.texts, NameEntry.texts, hname, hvalue]

theorem returns_takeStrings (ha : a.Copies) (h : u.Reads v) (header : PartHeader) :
    Returns (u.takeStrings header a)
      (·.Reads { v with filename := header.filename, contentType := header.contentType }) := by
  rw [HeapUpload.takeStrings, ha.filename, ha.contentType]
  refine (returns_any _).bind fun _ _ => (returns_any _).bind fun _ _ => ?_
  refine (returns_strdupSome header.filename).bind fun filename hfilename => ?_
  refine (returns_strdupSome header.contentType).bind fun contentType hcontentType => ?_
  refine Returns.pure ?_
  exact ⟨h.boundary, hfilename, hcontentType, h.nameEntries, h.fileOpened, h.userData⟩

theorem returns_startPart (ha : a.Copies) (h : u.Reads v) (header : PartHeader) :
    Returns (u.startPart header a) (·.Reads (v.startPart header)) := by
  refine (returns_takeStrings ha h header).bind fun u' h' => ?_
  have hentries : Returns (addNameSome a u'.nameEntries header.name) fun table =>
      (tableEntries table).map HeapNameEntry.texts =
        (v.startPart header).nameEntries.map NameEntry.texts := by
    rw [UploadSession.startPart, List.map_append, ← h'.nameEntries]
    cases header.name with
    | none => exact Returns.pure (List.append_nil _).symm
    | some name => exact returns_addName ha u'.nameEntries name
  refine hentries.bind fun table htable => Returns.pure ?_
  exact ⟨h'.boundary, h'.filename, h'.contentType, htable, h'.fileOpened, h'.userData⟩

/-- The parser does with the session what it does with the one it reads as. -/
theorem returns_parseHeader (ha : a.Copies) (h : u.Reads v) (w : List UInt8) :
    Returns (u.parseHeader w a) fun r =>
      (r.2 = none ∧ parseHeader v w = .ok none ∧ r.1.Reads v) ∨
        ∃ v' rest, r.2 = some rest ∧ parseHeader v w = .ok (some (v', rest)) ∧ r.1.Reads v' := by
  rw [parseHeader]
  refine (returns_readBoundary h).bind ?_
  rintro _ rfl
  split_ifs with hlast
  · exact Returns.pure (.inr ⟨v, _, rfl, rfl, h⟩)
  · cases hskip : skipBoundary v.boundary w with
    | none => exact Returns.pure (.inl ⟨rfl, rfl, h⟩)
    | some rest =>
        refine (returns_endSection h).bind fun u' h' => ?_
        dsimp only
        cases hlines : headerLines rest.length .empty rest with
        | error fault => exact returns_throw _
        | ok header =>
            cases header with
            | ranOut => exact Returns.pure (.inr ⟨_, [], rfl, rfl, h'⟩)
            | ended header after =>
                refine (returns_startPart ha h' header).bind fun u'' h'' => Returns.pure ?_
                exact .inr ⟨_, after, rfl, rfl, h''⟩

/-! ### The callbacks -/

theorem returns_getNameentry (table : ℕ) (name : CString) {es : List HeapNameEntry}
    {ns : List NameEntry} (h : es.map HeapNameEntry.texts = ns.map NameEntry.texts) :
    Returns (getNameentry table name es) fun str => textOf str =
      (ns.find? fun e => e.name.bytes.map toLower == name.bytes.map toLower).map
        NameEntry.value := by
  induction es generalizing ns with
  | nil =>
      obtain rfl := List.map_eq_nil_iff.mp h.symm
      exact Returns.pure rfl
  | cons e es ih =>
      obtain ⟨n, ns, rfl, hn, hns⟩ := List.map_eq_cons_iff.mp h.symm
      obtain ⟨hname, hvalue⟩ := Prod.mk.inj hn
      refine (returns_any _).bind fun _ _ => ?_
      cases hstr : e.name with
      | none =>
          rw [hstr] at hname
          cases hname
      | some str =>
          rw [hstr] at hname
          have hname : n.name = str.text := Option.some.inj hname
          refine (returns_any _).bind fun _ _ => ?_
          rw [List.find?_cons, hname]
          cases str.text.bytes.map toLower == name.bytes.map toLower with
          | true => exact Returns.pure hvalue.symm
          | false => exact ih hns.symm

/-- Which file name a field gets does not depend on the fields before. -/
theorem getFileName_snd (fileType : ℤ) (name : Option (List UInt8)) :
    (getFileName fileType name).2 = (getFileName 0 name).2 := by
  cases name with
  | none => rfl
  | some name => rfl

theorem returns_getFileName (h : u.Reads v) :
    Returns u.getFileName fun known => known =
      (getFileName 0 ((v.getNameentry nameKey).map CString.bytes)).2.isSome := by
  refine (returns_any _).bind fun _ _ => ?_
  have hentries := h.nameEntries
  rw [UploadSession.getNameentry]
  cases ht : u.nameEntries with
  | none =>
      rw [ht] at hentries
      rw [List.map_eq_nil_iff.mp hentries.symm]
      exact Returns.pure rfl
  | some t =>
      rw [ht] at hentries
      refine (returns_getNameentry t.block nameKey hentries).bind fun str hstr => ?_
      rw [← hstr]
      cases str with
      | none => exact Returns.pure rfl
      | some str => exact (returns_any _).bind fun _ _ => Returns.pure rfl

/-- The path is allocated and the file opened. -/
def OpenAnswer.Succeeds (answer : OpenAnswer) : Prop :=
  answer.pathAlloc = true ∧ 0 ≤ answer.fd

/-- What `upload_open` returns then, and that it does not close the session. -/
theorem uploadOpen_succeeds {answer : OpenAnswer} (hanswer : answer.Succeeds) (fileType : ℤ)
    (name : Option (List UInt8)) (hasFilename : Bool) :
    (uploadOpen fileType name hasFilename answer).fd =
        (if (getFileName 0 name).2.isSome && hasFilename then answer.fd else -1) ∧
      (uploadOpen fileType name hasFilename answer).sessionClosed = false := by
  obtain ⟨hpath, hfd⟩ := hanswer
  rw [uploadOpen, ← getFileName_snd fileType name]
  rcases getFileName fileType name with ⟨fileType', _ | file⟩
  · exact ⟨rfl, rfl⟩
  · cases hasFilename with
    | false => exact ⟨rfl, rfl⟩
    | true =>
        dsimp only
        rw [hpath, if_neg (not_lt.mpr hfd)]
        exact ⟨rfl, rfl⟩

theorem returns_uploadOpen (h : u.Reads v) {answer : OpenAnswer} (hanswer : answer.Succeeds) :
    Returns (u.uploadOpen answer) fun fd => fd =
      if (getFileName 0 ((v.getNameentry nameKey).map CString.bytes)).2.isSome &&
        v.filename.isSome then answer.fd else -1 := by
  obtain ⟨hpath, hfd⟩ := hanswer
  refine (returns_getFileName h).bind ?_
  rintro _ rfl
  rw [← h.filename, isSome_textOf]
  split_ifs
  · rw [HeapUpload.openPath, hpath]
    refine returns_malloc_true.bind fun p hp => ?_
    cases p with
    | none => exact absurd rfl hp
    | some path =>
        refine (returns_any _).bind fun _ _ => ?_
        rw [if_neg (not_lt.mpr hfd)]
        exact Returns.pure rfl
  · exact Returns.pure rfl

/-- Behind a part header the same file is opened or closed. -/
theorem returns_startSection {s : WebSession} (h : u.Reads s.upload) (hfault : s.fault = none)
    {env : UploadEnv} (hanswer : (env.answer (s.entry.count .open)).Succeeds) :
    Returns (u.startSection (env.answer (s.entry.count .open))) fun u' =>
      u'.Reads (startSection env s).upload ∧ (startSection env s).fault = none := by
  rw [startSection]
  refine (returns_any _).bind fun _ _ => ?_
  rw [h.inFile, h.fileOpened]
  split_ifs
  · exact Returns.pure ⟨h, hfault⟩
  · obtain ⟨hfd, hclosed⟩ := uploadOpen_succeeds hanswer s.fileType
      ((s.upload.getNameentry nameKey).map CString.bytes) s.upload.filename.isSome
    refine (returns_uploadOpen h hanswer).bind ?_
    rintro _ rfl
    refine (returns_any _).bind fun _ _ => Returns.pure ⟨?_, ?_⟩
    · exact ⟨h.boundary, h.filename, h.contentType, h.nameEntries, rfl, hfd.symm⟩
    · rw [WebSession.entryOpen]
      dsimp only
      rw [hclosed]
      rfl
  · refine Returns.pure ⟨?_, hfault⟩
    exact ⟨h.boundary, h.filename, h.contentType, h.nameEntries, rfl, rfl⟩
  · exact Returns.pure ⟨h, hfault⟩

/-! ### The data -/

theorem returns_nextPossibleBoundary (h : u.Reads v) (past : ℕ → UInt8) (w : List UInt8)
    (granted : Bool) :
    Returns (u.nextPossibleBoundary past w granted) (· = dataEnd past v.boundary w) := by
  refine (returns_readBoundary h).bind ?_
  rintro _ rfl
  rw [dataEnd]
  split_ifs with hbegin
  · refine Returns.pure ?_
    rw [nextPossibleBoundary, if_pos hbegin]
    rfl
  · exact (returns_any _).bind fun _ _ => Returns.pure rfl

theorem returns_storeValue (h : u.Reads v) (value : CString) (granted : Bool) :
    Returns (u.storeValue value granted) fun u' => ∃ e ∈ v.nameEntries.getLast?,
      u'.Reads { v with nameEntries := v.nameEntries.dropLast ++ [{ e with value := value }] } := by
  have hentries := h.nameEntries
  refine (returns_any _).bind fun p _ => ?_
  cases ht : u.nameEntries with
  | none => exact returns_throw _
  | some t =>
      rw [ht] at hentries
      dsimp only
      cases he : t.entries.getLast? with
      | none => exact returns_throw _
      | some e =>
          refine (returns_any _).bind fun _ _ => (returns_any _).bind fun b _ => Returns.pure ?_
          obtain ⟨n, hn, hname, -⟩ : ∃ n, v.nameEntries.getLast? = some n ∧
              some n.name = textOf e.name ∧ some n.value = textOf e.value := by
            have hlast := congrArg List.getLast? hentries.symm
            rw [List.getLast?_map, List.getLast?_map, tableEntries, he] at hlast
            obtain ⟨n, hn, htexts⟩ := Option.map_eq_some_iff.mp hlast
            exact ⟨n, hn, Prod.mk.inj htexts⟩
          have hrest := congrArg List.dropLast hentries
          rw [← List.map_dropLast, ← List.map_dropLast, tableEntries] at hrest
          refine ⟨n, hn, h.boundary, h.filename, h.contentType, ?_, h.fileOpened, h.userData⟩
          dsimp only [tableEntries]
          rw [List.map_append, List.map_append, hrest, List.map_singleton, List.map_singleton,
            HeapNameEntry.texts, NameEntry.texts, hname]
          rfl

theorem returns_handleSection {s : WebSession} (h : u.Reads s.upload) (data : List UInt8)
    (granted : Bool) :
    Returns (u.handleSection data granted) fun u' =>
      ∃ t, handleSection s data = .ok t ∧ u'.Reads t.upload ∧
        t.buffer = s.buffer ∧ t.phaseClose = s.phaseClose ∧ t.fault = s.fault := by
  rw [handleSection]
  refine (returns_any _).bind fun _ _ => ?_
  rw [h.inFile]
  split_ifs
  · exact Returns.pure ⟨_, rfl, h, rfl, rfl, rfl⟩
  · cases memstr crlf data with
    | none => exact Returns.pure ⟨s, rfl, h, rfl, rfl, rfl⟩
    | some i =>
        refine (returns_storeValue h _ granted).mono ?_
        rintro u' ⟨e, he, h'⟩
        dsimp only
        rw [he]
        exact ⟨_, rfl, h', rfl, rfl, rfl⟩

end Functions

/-! ### The handler -/

/-- The session on the heap reads as the other one, which has met no fault. -/
structure HeapSession.Reads (s : HeapSession) (t : WebSession) : Prop where
  upload : s.upload.Reads t.upload
  buffer : s.buffer = t.buffer
  phaseClose : s.phaseClose = t.phaseClose
  fault : t.fault = none

/-- What is still ahead of a round of the handler. -/
def Turn.ahead (env : UploadEnv) (t : WebSession) : UploadPc → Turn
  | .idle => .ret t
  | .top w => .again t w
  | .start w =>
      let t := startSection env t
      if t.fault.isSome then .ret t else dataTurn env t w
  | .data w => dataTurn env t w

section Handler

variable {s : HeapSession} {t : WebSession} {env : UploadEnv} {a : HeaderAnswers}
  {granted : Bool} {w : List UInt8}

theorem returns_needsMore (boundary : CString) :
    Returns (s.needsMore boundary w granted) fun more => more = true ↔ needsMore boundary w := by
  rw [HeapSession.needsMore, needsMore]
  split_ifs with hshort
  · exact (returns_any _).bind fun _ _ => Returns.pure (by simp [hshort])
  · exact Returns.pure (by simp [hshort])

/-- **The head of the loop** begins the round that `handleTurn` carries out. -/
theorem returns_top (ha : a.Copies) (h : s.Reads t) (hw : w ≠ []) :
    Returns (s.top granted a w) fun r => ∃ s' t', r = some s' ∧ s'.Reads t' ∧
      handleTurn env t w = Turn.ahead env t' s'.pc := by
  obtain ⟨c, w, rfl⟩ := List.exists_cons_of_ne_nil hw
  rw [handleTurn]
  refine (returns_readBoundary h.upload).bind ?_
  rintro _ rfl
  by_cases hlast : strBeginWithStrs (c :: w) (lastBoundary t.upload.boundary) = true
  · rw [if_pos hlast, if_pos hlast]
    exact Returns.pure ⟨_, { t.entryDone with phaseClose := true }, rfl,
      ⟨h.upload, h.buffer, rfl, h.fault⟩, rfl⟩
  · rw [if_neg hlast, if_neg hlast]
    refine (returns_needsMore t.upload.boundary).bind fun more hmore => ?_
    by_cases hret : needsMore t.upload.boundary (c :: w)
    · rw [if_pos hret, if_pos (hmore.mpr hret)]
      exact Returns.pure ⟨_, { t with buffer := c :: w }, rfl,
        ⟨h.upload, rfl, h.phaseClose, h.fault⟩, rfl⟩
    · rw [if_neg hret, if_neg (mt hmore.mp hret)]
      refine (returns_parseHeader ha h.upload (c :: w)).bind ?_
      rintro ⟨u, rest⟩ (⟨rfl, hparse, hu⟩ | ⟨v, rest, rfl, hparse, hu⟩)
      · rw [hparse]
        exact Returns.pure ⟨_, t, rfl, ⟨hu, h.buffer, h.phaseClose, h.fault⟩, rfl⟩
      · rw [hparse]
        exact Returns.pure ⟨_, { t with upload := v }, rfl,
          ⟨hu, h.buffer, h.phaseClose, h.fault⟩, rfl⟩

/-- **Behind a part header** the round goes on. -/
theorem returns_start (h : s.Reads t) (hanswer : (env.answer (t.entry.count .open)).Succeeds) :
    Returns (s.start (env.answer (t.entry.count .open)) w) fun r => ∃ s' t', r = some s' ∧
      s'.Reads t' ∧ Turn.ahead env t (.start w) = Turn.ahead env t' s'.pc := by
  refine (returns_startSection h.upload h.fault hanswer).bind ?_
  rintro u ⟨hu, hfault⟩
  obtain ⟨hbuffer, hphase⟩ : (startSection env t).buffer = t.buffer ∧
      (startSection env t).phaseClose = t.phaseClose := by
    rw [startSection]
    split_ifs <;> exact ⟨rfl, rfl⟩
  refine Returns.pure ⟨_, startSection env t, rfl,
    ⟨hu, h.buffer.trans hbuffer.symm, h.phaseClose.trans hphase.symm, hfault⟩, ?_⟩
  rw [Turn.ahead]
  dsimp only
  rw [hfault]
  rfl

/-- **A stretch of data** ends the round at the head of the loop. -/
theorem returns_data (h : s.Reads t) (valueGranted : Bool) :
    Returns (s.data env.past granted valueGranted w) fun r => ∃ s' t', r = some s' ∧
      s'.Reads t' ∧ Turn.ahead env t (.data w) = Turn.ahead env t' s'.pc := by
  refine (returns_nextPossibleBoundary h.upload env.past w granted).bind ?_
  rintro _ rfl
  refine (returns_handleSection h.upload _ valueGranted).bind ?_
  rintro u ⟨t', hsec, hu, hbuffer, hphase, hfault⟩
  have hturn : dataTurn env t w = .again t' (w.drop (dataEnd env.past t.upload.boundary w)) := by
    simp only [dataTurn, hsec]
  exact Returns.pure ⟨_, t', rfl, ⟨hu, h.buffer.trans hbuffer.symm,
    h.phaseClose.trans hphase.symm, hfault.trans h.fault⟩, hturn⟩

end Handler

end RtBoot
