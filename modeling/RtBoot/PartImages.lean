import RtBoot.FlashIsolation
import RtBoot.UploadComplete
import RtBoot.UploadRounds

/-!
# Parts and Their Images

The bytes of a file part should be written to the image file of its own field and to no other,
so that no image the flash thread is asked to burn holds bytes of another part. The receiver
keeps three things from one part to the next: whether a file is open, the names of all fields
so far, and the strings of the current header. A file part behind a file part finds a file open
and goes on writing to it; and a file is opened under the first name recorded, which need not be
the name of the part. `KeepsApart` rules this out, and headers and boundaries that are cut in two
or stand in a content.

## Main results

* `Tracked.handleSection`: data of the part whose file is open keeps the parts apart.
* `Tracked.startSection`: so does the beginning of a part that meets the condition.
-/

namespace RtBoot

/-! ### The property and the condition -/

/-- The image belongs to the part: it was opened under the path of the part's field, and none of
its bytes are bytes of another part. -/
structure Owned (form : MultipartForm) (r : PartRange) (kind : FlashKind) (image : ImageFile) :
    Prop where
  range : r ∈ form.ranges
  isFile : r.part.isFile = true
  field : fieldKind r.part.name.bytes = some kind
  path : image.path = some (imagePath kind)
  placed : ∀ pl ∈ image.placed, ∀ r' ∈ form.ranges, pl.Overlaps r' → r' = r

/-- Every image belongs to a part, and every request made of the flash thread is for an image and
of its kind. -/
structure PartsApart (form : MultipartForm) (l : Ledger) : Prop where
  images : ∀ image ∈ l.images, ∃ r kind, Owned form r kind image
  notified : ∀ q ∈ l.notified, ∃ image r kind,
    q = (.flash kind, some image) ∧ Owned form r kind image

/-- At position `x` of the body the parts `l` lie ahead: a delimiter begins there, or its boundary
behind the line end. -/
def MultipartForm.StartsAt (form : MultipartForm) (x : ℕ) (l : List FormPart) : Prop :=
  x + (form.rest l).length = form.body.length ∨ x + (form.rest l).length = form.body.length + 2
  deriving Decidable

/-- The name a file is opened under when the part begins: the first one recorded, or its own. -/
def firstName (u : UploadSession) (p : FormPart) : CString :=
  (u.getNameentry nameKey).getD p.name

/-- The condition on a round in which a part begins: its header has been received; if it is empty,
the bytes received do not end inside the delimiter behind it, unless behind the line end; and for a
file, no file is open, and the first name recorded stands for the same image or for none. -/
structure StartsApart (form : MultipartForm) (s : WebSession) (p : FormPart) (ps : List FormPart) :
    Prop where
  complete : (form.rangeOf p ps).start ≤ s.received.length
  noContent : p.content = [] → s.received.length = (form.rangeOf p ps).start ∨
    s.received.length = (form.rangeOf p ps).start + 2 ∨
    (form.rangeOf p ps).start + form.delimiter.length ≤ s.received.length
  noFile : p.isFile = true → ¬ s.upload.HoldsFile
  ownName : p.isFile = true → s.upload.fileOpened = false →
    fieldKind (firstName s.upload p).bytes = fieldKind p.name.bytes ∨
      fieldKind (firstName s.upload p).bytes = none

/-- The condition on a round that handles its window: a boundary at its beginning is one of the
form, and a part that begins there begins as it should. -/
structure RoundApart (form : MultipartForm) (s : WebSession) (w : List UInt8) : Prop where
  boundary : skipBoundary s.upload.boundary w ≠ none → ∃ l ∈ form.parts.tails, l ≠ [] ∧
    form.StartsAt (s.received.length - w.length) l
  part : ∀ l ∈ form.parts.tails, form.StartsAt (s.received.length - w.length) l →
    ∀ p ∈ l.head?, StartsApart form s p l.tail

/-- The condition on a step. -/
def KeepsApart (form : MultipartForm) (st : Reception) : ReceptionAction → Prop
  | .round => ∀ w ∈ st.window, w ≠ [] →
      strBeginWithStrs w (lastBoundary st.web.upload.boundary) = false →
      ¬ needsMore st.web.upload.boundary w → RoundApart form st.web w
  | _ => True

instance (form : MultipartForm) (s : WebSession) (p : FormPart) (ps : List FormPart) :
    Decidable (StartsApart form s p ps) :=
  decidable_of_iff
    ((form.rangeOf p ps).start ≤ s.received.length ∧
      (p.content = [] → s.received.length = (form.rangeOf p ps).start ∨
        s.received.length = (form.rangeOf p ps).start + 2 ∨
        (form.rangeOf p ps).start + form.delimiter.length ≤ s.received.length) ∧
      (p.isFile = true → ¬ s.upload.HoldsFile) ∧
      (p.isFile = true → s.upload.fileOpened = false →
        fieldKind (firstName s.upload p).bytes = fieldKind p.name.bytes ∨
          fieldKind (firstName s.upload p).bytes = none))
    ⟨fun h => ⟨h.1, h.2.1, h.2.2.1, h.2.2.2⟩,
      fun h => ⟨h.complete, h.noContent, h.noFile, h.ownName⟩⟩

instance (form : MultipartForm) (s : WebSession) (w : List UInt8) :
    Decidable (RoundApart form s w) :=
  decidable_of_iff
    ((skipBoundary s.upload.boundary w ≠ none → ∃ l ∈ form.parts.tails, l ≠ [] ∧
        form.StartsAt (s.received.length - w.length) l) ∧
      ∀ l ∈ form.parts.tails, form.StartsAt (s.received.length - w.length) l →
        ∀ p ∈ l.head?, StartsApart form s p l.tail)
    ⟨fun h => ⟨h.1, h.2⟩, fun h => ⟨h.boundary, h.part⟩⟩

instance (form : MultipartForm) (st : Reception) :
    (action : ReceptionAction) → Decidable (KeepsApart form st action)
  | .round => inferInstanceAs (Decidable (∀ w ∈ st.window, _))
  | .read _ => .isTrue trivial
  | .buffered => .isTrue trivial

/-! ### The ledger of a session -/

/-- The calls with which `upload_open` creates an image. -/
def openCalls (kind : FlashKind) : List UploadCall :=
  [.unlink "/tmp/firmware.bin", .unlink "/tmp/uboot.bin", .unlink "/tmp/art.bin",
    .unlink "/tmp/full.bin", .open (imagePath kind)]

/-- `upload_open` creates no file, or the image of the field it is given. -/
theorem uploadOpen_cases (fileType : ℤ) (name : List UInt8) (hasFilename : Bool)
    (answer : OpenAnswer) :
    ((uploadOpen fileType (some name) hasFilename answer).calls = [] ∧
      (uploadOpen fileType (some name) hasFilename answer).fd = -1) ∨
    ∃ kind, fieldKind name = some kind ∧
      (uploadOpen fileType (some name) hasFilename answer).calls = openCalls kind ∧
      fileTypeNotice (uploadOpen fileType (some name) hasFilename answer).fileType =
        .flash kind := by
  rw [uploadOpen_fileType, uploadOpen]
  cases hkind : fieldKind name with
  | none =>
      have hname : (getFileName fileType (some name)).2 = none := by
        rw [fieldKind] at hkind
        rw [getFileName]
        split_ifs at hkind ⊢
        rfl
      generalize getFileName fileType (some name) = g at hname ⊢
      obtain ⟨fileType', file⟩ := g
      obtain rfl : file = none := hname
      exact .inl ⟨rfl, rfl⟩
  | some kind =>
      have hname : ∃ file, (getFileName fileType (some name)).2 = some file ∧
          "/tmp/" ++ file = imagePath kind := by
        rw [fieldKind] at hkind
        rw [getFileName]
        split_ifs at hkind ⊢ <;> cases hkind <;> exact ⟨_, rfl, rfl⟩
      have hnotice : fileTypeNotice (getFileName fileType (some name)).1 = .flash kind :=
        fileTypeNotice_getFileName fileType hkind
      generalize getFileName fileType (some name) = g at hname hnotice ⊢
      obtain ⟨fileType', file⟩ := g
      obtain ⟨file, rfl, hpath⟩ := hname
      dsimp only
      rw [hpath]
      split_ifs
      · exact .inl ⟨rfl, rfl⟩
      · exact .inl ⟨rfl, rfl⟩
      · exact .inr ⟨kind, rfl, rfl, hnotice⟩
      · exact .inr ⟨kind, rfl, rfl, hnotice⟩

/-- The file the session holds open is the last image, and it belongs to the part `r`. -/
structure Holds (form : MultipartForm) (s : WebSession) (l : Ledger) (r : PartRange)
    (kind : FlashKind) : Prop where
  image : ∃ image images, l.images = image :: images ∧ image.isOpen = true ∧
    image.fd = s.upload.userData ∧ Owned form r kind image
  notice : fileTypeNotice s.fileType = .flash kind

/-- What holds of a running session and its ledger between two rounds: a file that is open
belongs to a part that satisfies `Q`. -/
structure Tracked (form : MultipartForm) (Q : PartRange → Prop) (s : WebSession) (l : Ledger) :
    Prop where
  boundary : s.upload.boundary = form.boundary
  synced : s.upload.fileOpened = s.upload.inFile
  phaseClose : s.phaseClose = false
  closed : s.closed = false
  fault : s.fault = none
  apart : PartsApart form l
  held : s.upload.HoldsFile → ∃ r kind, Q r ∧ Holds form s l r kind

variable {ps : List FormPart} {data : List UInt8}

section
variable {form : MultipartForm} {Q : PartRange → Prop} {s t : WebSession} {l : Ledger}
  {r : PartRange} {kind : FlashKind}

theorem recordAll_append (l : Ledger) (fd : ℤ) (reached : ℕ) (cs ds : List UploadCall) :
    l.recordAll fd reached (cs ++ ds) = (l.recordAll fd reached cs).recordAll fd reached ds := by
  rw [Ledger.recordAll, List.foldl_append]
  rfl

/-- An image that belongs to a part still does when it is closed. -/
theorem Owned.close {image : ImageFile} (h : Owned form r kind image) (isOpen : Bool) :
    Owned form r kind { image with isOpen := isOpen } :=
  ⟨h.range, h.isFile, h.field, h.path, h.placed⟩

/-- Closing a file, with the request that follows. -/
theorem Tracked.recordClose (h : Tracked form Q s l) (hopen : s.upload.fileOpened = true) (fd : ℤ)
    (reached : ℕ) :
    PartsApart form (l.recordAll fd reached (uploadClose s.fileType s.upload.userData)) := by
  rw [uploadClose]
  split_ifs with hfd
  · exact h.apart
  · obtain ⟨r, kind, -, ⟨image, images, himages, -, himage, howned⟩, hnotice⟩ :=
      h.held ⟨hopen, not_lt.mp hfd⟩
    have hrecord : l.recordAll fd reached [.close s.upload.userData,
        .notisfy (fileTypeNotice s.fileType)] =
        { images := { image with isOpen := false } :: images
          notified := l.notified ++
            [(.flash kind, some { image with isOpen := false })] } := by
      simp [Ledger.recordAll, Ledger.record, himages, himage, hnotice]
    rw [hrecord]
    constructor
    · intro image' himage'
      rcases List.mem_cons.mp himage' with rfl | hmem
      · exact ⟨r, kind, howned.close false⟩
      · exact h.apart.images image' (by rw [himages]; exact List.mem_cons_of_mem _ hmem)
    · intro q hq
      rcases List.mem_append.mp hq with hq | hq
      · exact h.apart.notified q hq
      · obtain rfl := List.mem_singleton.mp hq
        exact ⟨_, r, kind, rfl, howned.close false⟩

/-- Writing to the file that is open bytes of no part but its own. -/
theorem Holds.recordWrite (h : Holds form s l r kind) (hapart : PartsApart form l) (fd : ℤ)
    {reached : ℕ}
    (hdata : ∀ r' ∈ form.ranges, (⟨reached - data.length, data⟩ : Placement).Overlaps r' → r' = r) :
    PartsApart form (l.recordAll fd reached [.write s.upload.userData data]) ∧
      Holds form s (l.recordAll fd reached [.write s.upload.userData data]) r kind := by
  obtain ⟨⟨image, images, himages, hisOpen, hfd, howned⟩, hnotice⟩ := h
  have hrecord : l.recordAll fd reached [.write s.upload.userData data] =
      { images := { image with
          placed := image.placed ++ [⟨reached - data.length, data⟩] } :: images
        notified := l.notified } := by
    simp [Ledger.recordAll, Ledger.record, himages, hisOpen, hfd]
  have howned' : Owned form r kind
      { image with placed := image.placed ++ [⟨reached - data.length, data⟩] } := by
    refine ⟨howned.range, howned.isFile, howned.field, howned.path, ?_⟩
    intro pl hpl
    rcases List.mem_append.mp hpl with hpl | hpl
    · exact howned.placed pl hpl
    · obtain rfl := List.mem_singleton.mp hpl
      exact hdata
  rw [hrecord]
  refine ⟨⟨?_, hapart.notified⟩, ⟨_, images, rfl, hisOpen, hfd, howned'⟩, hnotice⟩
  intro image' himage'
  rcases List.mem_cons.mp himage' with rfl | hmem
  · exact ⟨r, kind, howned'⟩
  · exact hapart.images image' (by rw [himages]; exact List.mem_cons_of_mem _ hmem)

/-- Opening a file for a part, under the path of its field. -/
theorem PartsApart.recordOpen (h : PartsApart form l) {p : FormPart}
    (hparts : p :: ps <:+ form.parts) (hfile : p.isFile = true)
    (hfield : fieldKind p.name.bytes = some kind) (reached : ℕ)
    (hnotice : fileTypeNotice t.fileType = .flash kind) :
    PartsApart form (l.recordAll t.upload.userData reached (openCalls kind)) ∧
      Holds form t (l.recordAll t.upload.userData reached (openCalls kind)) (form.rangeOf p ps)
        kind := by
  have howned : Owned form (form.rangeOf p ps) kind
      ⟨some (imagePath kind), t.upload.userData, true, []⟩ :=
    ⟨MultipartForm.rangeOf_mem_ranges hparts, hfile, hfield, rfl, fun _ hpl => by cases hpl⟩
  refine ⟨⟨?_, h.notified⟩, ⟨_, l.images, rfl, rfl, rfl, howned⟩, hnotice⟩
  intro image himage
  rcases List.mem_cons.mp himage with rfl | hmem
  · exact ⟨_, kind, howned⟩
  · exact h.images image hmem

theorem Tracked.mono {Q' : PartRange → Prop} (h : Tracked form Q s l) (hQ : ∀ r, Q r → Q' r) :
    Tracked form Q' s l := by
  refine ⟨h.boundary, h.synced, h.phaseClose, h.closed, h.fault, h.apart, ?_⟩
  intro hfile
  obtain ⟨r, kind, hr, hholds⟩ := h.held hfile
  exact ⟨r, kind, hQ r hr, hholds⟩

end

/-! ### One section -/

/-- What handling a stretch of data does: at most one write, to the file that is open. -/
structure SectionStep (s : WebSession) (data : List UInt8) (t : WebSession) : Prop
    extends SectionFrame s t where
  inFile : t.upload.inFile = s.upload.inFile
  closed : t.closed = s.closed
  fault : t.fault = s.fault
  fileType : t.fileType = s.fileType
  calls : t.calls = s.calls ∨ s.upload.inFile = true ∧ 0 ≤ s.upload.userData ∧
    t.calls = s.calls ++ [.write s.upload.userData data]

theorem handleSection_step {s t : WebSession}
    (h : handleSection s data = .ok t) : SectionStep s data t := by
  have hframe := handleSection_frame h
  obtain rfl | ⟨hin, rfl⟩ | ⟨entries, rfl⟩ := handleSection_cases h
  · exact ⟨hframe, rfl, rfl, rfl, rfl, .inl rfl⟩
  · refine ⟨hframe, rfl, rfl, rfl, rfl, ?_⟩
    dsimp only [WebSession.entryWrite]
    rw [uploadWrite]
    split_ifs with hfd
    · exact .inl (List.append_nil _)
    · exact .inr ⟨hin, not_lt.mp hfd, rfl⟩
  · exact ⟨hframe, rfl, rfl, rfl, rfl, .inl rfl⟩

section
variable {form : MultipartForm} {Q : PartRange → Prop} {s t : WebSession} {l : Ledger}

/-- Data that holds bytes of no part but the one whose file is open. -/
theorem Tracked.handleSection (h : Tracked form Q s l) (hstep : SectionStep s data t) {reached : ℕ}
    (hfit : ∀ r, Q r → ∀ r' ∈ form.ranges,
      (⟨reached - data.length, data⟩ : Placement).Overlaps r' → r' = r) :
    ∃ cs, t.calls = s.calls ++ cs ∧ ∀ fd, Tracked form Q t (l.recordAll fd reached cs) := by
  have hholds : ∀ {l' r kind}, Holds form s l' r kind → Holds form t l' r kind := by
    rintro l' r kind ⟨himage, hnotice⟩
    exact ⟨by rw [hstep.userData]; exact himage, by rw [hstep.fileType]; exact hnotice⟩
  have hfile : t.upload.HoldsFile → s.upload.HoldsFile := by
    rintro ⟨hopen, hfd⟩
    exact ⟨hstep.fileOpened ▸ hopen, hstep.userData ▸ hfd⟩
  -- all but the ledger stays as it is
  have htracked : ∀ l', PartsApart form l' →
      (s.upload.HoldsFile → ∃ r kind, Q r ∧ Holds form s l' r kind) → Tracked form Q t l' := by
    intro l' hapart hheld
    refine ⟨hstep.boundary.trans h.boundary, ?_, hstep.phaseClose.trans h.phaseClose,
      hstep.closed.trans h.closed, hstep.fault.trans h.fault, hapart, ?_⟩
    · rw [hstep.fileOpened, hstep.inFile]
      exact h.synced
    · intro ht
      obtain ⟨r, kind, hr, hs⟩ := hheld (hfile ht)
      exact ⟨r, kind, hr, hholds hs⟩
  rcases hstep.calls with hcalls | ⟨hin, hfd, hcalls⟩
  · exact ⟨[], by rw [hcalls, List.append_nil], fun _ => htracked l h.apart h.held⟩
  · obtain ⟨r, kind, hr, hs⟩ := h.held ⟨h.synced.trans hin, hfd⟩
    refine ⟨_, hcalls, ?_⟩
    intro fd
    obtain ⟨hapart, hs'⟩ := hs.recordWrite h.apart fd (hfit r hr)
    exact htracked _ hapart fun _ => ⟨r, kind, hr, hs'⟩

/-! ### The beginning of a part -/

/-- Behind the header of a part the first name recorded is the one a file is opened under. -/
theorem getNameentry_startPart (u : UploadSession) (p : FormPart) :
    (u.endSection.startPart p.head.header).getNameentry nameKey = some (firstName u p) := by
  have hentries : u.endSection.nameEntries = u.nameEntries := by
    rw [UploadSession.endSection]
    split_ifs <;> rfl
  have hkey : ([⟨nameKey, p.name⟩] : List NameEntry).find? (fun e =>
      e.name.bytes.map toLower == nameKey.bytes.map toLower) = some ⟨nameKey, p.name⟩ := by
    simp
  simp only [UploadSession.startPart, UploadSession.getNameentry, firstName, hentries,
    p.name_eq, Option.map_some, Option.toList_some, List.find?_append, hkey]
  cases u.nameEntries.find? fun e => e.name.bytes.map toLower == nameKey.bytes.map toLower <;> rfl

theorem inFile_startPart (u : UploadSession) (p : FormPart) :
    (u.startPart p.head.header).inFile = p.isFile :=
  rfl

theorem endSection_fields (u : UploadSession) : u.endSection.boundary = u.boundary ∧
    u.endSection.fileOpened = u.fileOpened ∧ u.endSection.userData = u.userData := by
  rw [UploadSession.endSection]
  split_ifs <;> exact ⟨rfl, rfl, rfl⟩

/-- The session behind the header of a part. -/
def atPart (s : WebSession) (p : FormPart) : WebSession :=
  { s with upload := s.upload.endSection.startPart p.head.header }

/-- A file is opened for a part whose own field, if any, is the first name recorded. -/
theorem Tracked.entryOpen (h : Tracked form Q s l) {p : FormPart}
    (hparts : p :: ps <:+ form.parts) (hstart : StartsApart form s p ps) (hfile : p.isFile = true)
    (hopen : s.upload.fileOpened = false) (env : UploadEnv) :
    ∃ cs, ((atPart s p).entryOpen env).calls = s.calls ++ cs ∧ ∀ reached,
      PartsApart form (l.recordAll ((atPart s p).entryOpen env).upload.userData reached cs) ∧
      (((atPart s p).entryOpen env).fault = none →
        Tracked form (· = form.rangeOf p ps) ((atPart s p).entryOpen env)
          (l.recordAll ((atPart s p).entryOpen env).upload.userData reached cs)) := by
  have hname : ((atPart s p).upload.getNameentry nameKey).map CString.bytes =
      some (firstName s.upload p).bytes :=
    congrArg (Option.map CString.bytes) (getNameentry_startPart s.upload p)
  have hcases := uploadOpen_cases s.fileType (firstName s.upload p).bytes
    (atPart s p).upload.filename.isSome (env.answer (s.entry.count .open))
  rw [← hname] at hcases
  have hboundary : ((atPart s p).entryOpen env).upload.boundary = form.boundary :=
    (endSection_fields s.upload).1.trans h.boundary
  have hin : ((atPart s p).entryOpen env).upload.inFile = true :=
    (inFile_startPart s.upload.endSection p).trans hfile
  rcases hcases with ⟨hcalls, hfd⟩ | ⟨kind, hkind, hcalls, hnotice⟩
  · have hnone : ¬ ((atPart s p).entryOpen env).upload.HoldsFile := by
      rintro ⟨-, hge⟩
      have hge : 0 ≤ (-1 : ℤ) := hfd ▸ hge
      omega
    refine ⟨[], congrArg (s.calls ++ ·) hcalls, fun reached => ⟨h.apart, fun hfault => ?_⟩⟩
    exact ⟨hboundary, hin.symm, h.phaseClose, h.closed, hfault, h.apart,
      fun hholds => absurd hholds hnone⟩
  · have hfield : fieldKind p.name.bytes = some kind := by
      rcases hstart.ownName hfile hopen with hown | hown
      · rw [← hown, hkind]
      · rw [hown] at hkind
        cases hkind
    refine ⟨openCalls kind, congrArg (s.calls ++ ·) hcalls, fun reached => ?_⟩
    obtain ⟨hapart, hholds⟩ := h.apart.recordOpen (t := (atPart s p).entryOpen env) hparts hfile
      hfield reached hnotice
    exact ⟨hapart, fun hfault => ⟨hboundary, hin.symm, h.phaseClose, h.closed, hfault, hapart,
      fun _ => ⟨_, kind, rfl, hholds⟩⟩⟩

/-- **A part begins as it should**: a file that was open is closed, unless the part is a file, and
for a file the image of its field is created, or none. -/
theorem Tracked.startSection (h : Tracked form Q s l) {p : FormPart}
    (hparts : p :: ps <:+ form.parts) (hstart : StartsApart form s p ps) (env : UploadEnv) :
    ∃ cs, (startSection env (atPart s p)).calls = s.calls ++ cs ∧ ∀ reached,
      PartsApart form (l.recordAll (startSection env (atPart s p)).upload.userData reached cs) ∧
      ((startSection env (atPart s p)).fault = none →
        Tracked form (· = form.rangeOf p ps) (startSection env (atPart s p))
          (l.recordAll (startSection env (atPart s p)).upload.userData reached cs)) := by
  obtain ⟨hboundary, hopened, hfd⟩ := endSection_fields s.upload
  have hin : (atPart s p).upload.inFile = p.isFile := inFile_startPart _ p
  have hopened : (atPart s p).upload.fileOpened = s.upload.fileOpened := hopened
  have hfd : (atPart s p).upload.userData = s.upload.userData := hfd
  have hboundary : (atPart s p).upload.boundary = form.boundary := hboundary.trans h.boundary
  rw [RtBoot.startSection, hin, hopened]
  cases hfile : p.isFile with
  | false =>
      cases hopen : s.upload.fileOpened with
      | false =>
          refine ⟨[], (List.append_nil _).symm, fun _ => ⟨h.apart, fun _ => ?_⟩⟩
          refine ⟨hboundary, ?_, h.phaseClose, h.closed, h.fault, h.apart, ?_⟩
          · exact (hopened.trans hopen).trans (hin.trans hfile).symm
          · intro hholds
            exact absurd ((hopened.trans hopen).symm.trans hholds.1) Bool.false_ne_true
      | true =>
          refine ⟨uploadClose s.fileType s.upload.userData, ?_, ?_⟩
          · rw [← hfd]
            rfl
          · intro reached
            have hapart := h.recordClose hopen 0 reached
            refine ⟨hapart, fun _ => ⟨hboundary, ?_, h.phaseClose, h.closed, h.fault, hapart, ?_⟩⟩
            · exact (hin.trans hfile).symm
            · intro hholds
              exact absurd hholds.1 Bool.false_ne_true
  | true =>
      cases hopen : s.upload.fileOpened with
      | true =>
          refine ⟨[], (List.append_nil _).symm, fun _ => ⟨h.apart, fun _ => ?_⟩⟩
          refine ⟨hboundary, ?_, h.phaseClose, h.closed, h.fault, h.apart, ?_⟩
          · exact (hopened.trans hopen).trans (hin.trans hfile).symm
          · rintro ⟨-, hge⟩
            exact absurd ⟨hopen, hfd ▸ hge⟩ (hstart.noFile hfile)
      | false =>
          obtain ⟨cs, hcalls, hrecord⟩ := h.entryOpen hparts hstart hfile hopen env
          exact ⟨cs, hcalls, hrecord⟩

end

end RtBoot
