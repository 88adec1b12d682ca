import RtBoot.PartImages
import RtBoot.UploadStream

/-!
# Each Part into Its Own File

Where the receiver stands in the body is said by the bytes that lie ahead: a part begins there,
or the rest of a content lies ahead, or of the closing boundary. A round that meets the condition
leads from such a place to another, and writes bytes of one part only to the image of that part.

## Main results

* `Running.handleTurn`: one round that meets the condition.
* `parts_apart`: **in every run of such rounds** each image holds bytes of its own part only.
* `art_in_firmware_image`: two file parts in a row end up in one image.
-/

namespace RtBoot

/-! ### What lies ahead -/

/-- The bytes `w` have been received and not handled yet, and from where they begin `R` is the rest
of the body. -/
def Ahead (form : MultipartForm) (s : WebSession) (w R : List UInt8) : Prop :=
  ∃ done, done ++ w = s.received ∧ done ++ R = form.body

/-- Where the receiver stands when `R` lies ahead: where a part begins, in its content, or in the
closing boundary. In a content a file that is open is the one of that part. -/
inductive Place (form : MultipartForm) : (PartRange → Prop) → List UInt8 → Prop
  | start {p : FormPart} {ps : List FormPart} {R : List UInt8} (hparts : p :: ps <:+ form.parts)
      (hR : form.Begins (p :: ps) R) : Place form (fun _ => True) R
  | inside {p : FormPart} {ps : List FormPart} {c : List UInt8} (hparts : p :: ps <:+ form.parts)
      (hc : c <:+ p.content) (hne : c ≠ []) : Place form (· = form.rangeOf p ps) (c ++ form.rest ps)
  | closing {R : List UInt8} (hR : R <:+ form.closing) : Place form (fun _ => True) R

section
variable {form : MultipartForm} {s t : WebSession} {w R c : List UInt8} {ps : List FormPart}
  {p : FormPart} {l : Ledger} {Q : PartRange → Prop} {st : Reception} {cs : List UploadCall}
  {env : UploadEnv}

theorem Ahead.lengths (h : Ahead form s w R) :
    s.received.length - w.length + w.length = s.received.length ∧
      s.received.length - w.length + R.length = form.body.length := by
  obtain ⟨done, hw, hR⟩ := h
  rw [← hw, ← hR, List.length_append, List.length_append]
  omega

theorem Ahead.window_le (h : Ahead form s w R) (hbody : s.received <+: form.body) : w <+: R := by
  obtain ⟨done, hw, hR⟩ := h
  rw [← hw, ← hR] at hbody
  exact (List.prefix_append_right_inj done).mp hbody

/-- Some bytes of the window have been handled. -/
theorem Ahead.append {v w' R' : List UInt8} (h : Ahead form s (v ++ w') (v ++ R')) :
    Ahead form s w' R' := by
  obtain ⟨done, hw, hR⟩ := h
  exact ⟨done ++ v, by rw [List.append_assoc, hw], by rw [List.append_assoc, hR]⟩

theorem Ahead.drop (h : Ahead form s w R) (hw : w <+: R) (k : ℕ) :
    Ahead form s (w.drop k) (R.drop (w.take k).length) := by
  obtain ⟨R', rfl⟩ := hw
  have hsplit : w ++ R' = w.take k ++ (w.drop k ++ R') := by
    rw [← List.append_assoc, List.take_append_drop]
  rw [hsplit, List.drop_left]
  refine Ahead.append (v := w.take k) ?_
  rw [List.take_append_drop, ← hsplit]
  exact h

theorem place_rest (hparts : ps <:+ form.parts) (hR : form.Begins ps R) :
    Place form (fun _ => True) R := by
  cases ps with
  | cons p ps => exact .start hparts hR
  | nil =>
      rcases hR with rfl | rfl
      · exact .closing List.suffix_rfl
      · exact .closing (List.drop_suffix 2 _)

/-- Data that ends in the content or right behind the line end leaves the receiver in the content
or where the next part begins. -/
theorem place_drop {n : ℕ} (hparts : p :: ps <:+ form.parts) (hc : c <:+ p.content)
    (hn : n ≤ c.length ∨ n = c.length + 2) :
    ∃ Q, (∀ r, r = form.rangeOf p ps → Q r) ∧ Place form Q ((c ++ form.rest ps).drop n) := by
  have hps : ps <:+ form.parts := (List.suffix_cons p ps).trans hparts
  rcases hn with hn | rfl
  · rcases hn.lt_or_eq with hlt | rfl
    · rw [List.drop_append_of_le_length hn]
      refine ⟨_, fun _ h => h, .inside hparts ((List.drop_suffix n c).trans hc) ?_⟩
      rw [Ne, List.drop_eq_nil_iff]
      omega
    · rw [List.drop_left]
      exact ⟨_, fun _ _ => trivial, place_rest hps (.inl rfl)⟩
  · rw [← List.drop_drop, List.drop_left]
    exact ⟨_, fun _ _ => trivial, place_rest hps (.inr rfl)⟩

/-! ### One round -/

/-- The session is running; the window `w` lies ahead. -/
def Running (form : MultipartForm) (s : WebSession) (l : Ledger) (w : List UInt8) : Prop :=
  ∃ Q R, Tracked form Q s l ∧ Ahead form s w R ∧ Place form Q R

/-- A stretch of data is handled. It holds bytes of no part but the one whose file is open, and
ends where the receiver may stand. -/
theorem Tracked.advance {k : ℕ} (h : Tracked form Q s l)
    (hahead : Ahead form s w R) (hbody : s.received <+: form.body)
    (hstep : SectionStep s (w.take k) t) (hfit : ∀ r, Q r → ∀ r' ∈ form.ranges,
      (⟨s.received.length - w.length, w.take k⟩ : Placement).Overlaps r' → r' = r)
    (hplace : ∃ Q', (∀ r, Q r → Q' r) ∧ Place form Q' (R.drop (w.take k).length)) :
    ∃ cs, t.calls = s.calls ++ cs ∧ ∀ fd,
      Running form t (l.recordAll fd (t.received.length - (w.drop k).length) cs) (w.drop k) := by
  obtain ⟨Q', hQ, hplace⟩ := hplace
  have hlen := hahead.lengths
  have hreached : t.received.length - (w.drop k).length - (w.take k).length =
      s.received.length - w.length := by
    have hsplit := congrArg List.length (List.take_append_drop k w)
    rw [List.length_append] at hsplit
    rw [hstep.received]
    omega
  rw [← hreached] at hfit
  obtain ⟨cs, hcalls, htracked⟩ := h.handleSection hstep hfit
  refine ⟨cs, hcalls, fun fd => ⟨Q', _, (htracked fd).mono hQ, ?_, hplace⟩⟩
  have hdrop := hahead.drop (hahead.window_le hbody) k
  rwa [Ahead, ← hstep.received] at hdrop

theorem dataTurn_eq (env : UploadEnv) (s : WebSession) (w : List UInt8) :
    (∃ fault, dataTurn env s w = .ret { s with fault := some fault }) ∨
      ∃ t, SectionStep s (w.take (dataEnd env.past s.upload.boundary w)) t ∧
        dataTurn env s w = .again t (w.drop (dataEnd env.past s.upload.boundary w)) := by
  rw [dataTurn]
  cases hsec : handleSection s (w.take (dataEnd env.past s.upload.boundary w)) with
  | error fault => exact .inl ⟨fault, rfl⟩
  | ok t => exact .inr ⟨t, handleSection_step hsec, rfl⟩

/-- Data in the content of a part. -/
theorem Tracked.advance_inside
    (h : Tracked form (· = form.rangeOf p ps) s l) (hparts : p :: ps <:+ form.parts)
    (hc : c <:+ p.content) (hahead : Ahead form s w (c ++ form.rest ps))
    (hbody : s.received <+: form.body)
    (hempty : c = [] → w.length = 0 ∨ w.length = 2 ∨ form.delimiter.length ≤ w.length)
    (env : UploadEnv) (hstep : SectionStep s (w.take (dataEnd env.past s.upload.boundary w)) t) :
    ∃ cs, t.calls = s.calls ++ cs ∧ ∀ fd, Running form t (l.recordAll fd
        (t.received.length - (w.drop (dataEnd env.past s.upload.boundary w)).length) cs)
      (w.drop (dataEnd env.past s.upload.boundary w)) := by
  have hw := hahead.window_le hbody
  obtain ⟨tail, htail⟩ := form.rest_eq_delimiter_append ps
  have hfree : ¬ form.delimiter <:+: c := by
    intro hin
    exact form.content_free p (hparts.subset List.mem_cons_self) (hin.trans hc.isInfix)
  have hchunk := form.chunk_spec env.past hfree (htail ▸ hw) hempty
  rw [← h.boundary] at hchunk
  have hn : (w.take (dataEnd env.past s.upload.boundary w)).length ≤ c.length ∨
      (w.take (dataEnd env.past s.upload.boundary w)).length = c.length + 2 := by
    rw [List.length_take]
    omega
  obtain ⟨-, hlen⟩ := hahead.lengths
  have hcle := hc.length_le
  rw [List.length_append] at hlen
  refine h.advance hahead hbody hstep ?_ (place_drop hparts hc hn)
  rintro r rfl r' hr' hover
  refine MultipartForm.eq_rangeOf_of_overlaps hparts hr' ?_ ?_ hover
  · dsimp only
    omega
  · dsimp only
    omega

/-- Data in the closing boundary. -/
theorem Tracked.advance_closing {k : ℕ}
    (h : Tracked form Q s l) (hR : R <:+ form.closing) (hahead : Ahead form s w R)
    (hbody : s.received <+: form.body) (hstep : SectionStep s (w.take k) t) :
    ∃ cs, t.calls = s.calls ++ cs ∧ ∀ fd,
      Running form t (l.recordAll fd (t.received.length - (w.drop k).length) cs) (w.drop k) := by
  obtain ⟨-, hlen⟩ := hahead.lengths
  have hle := hR.length_le
  refine h.advance hahead hbody hstep ?_
    ⟨_, fun _ _ => trivial, .closing ((List.drop_suffix _ R).trans hR)⟩
  intro r _ r' hr' hover
  refine absurd hover (MultipartForm.not_overlaps_closing hr' ?_)
  dsimp only
  omega

/-- No part begins in a content or in the closing boundary. -/
theorem not_startsAt_inside {l : List FormPart} {x : ℕ}
    (hparts : p :: ps <:+ form.parts) (hc : c <:+ p.content) (hne : c ≠ [])
    (hx : x + (c ++ form.rest ps).length = form.body.length) (hl : l <:+ form.parts) :
    ¬ form.StartsAt x l := by
  have hpos := List.length_pos_iff.mpr hne
  have hcle := hc.length_le
  have hdelim := form.four_le_length_delimiter
  rw [List.length_append] at hx
  rw [MultipartForm.StartsAt]
  rcases List.suffix_or_suffix_of_suffix hl hparts with hsuf | hsuf
  · rcases List.suffix_cons_iff.mp hsuf with rfl | hlater
    · rw [form.length_rest_cons]
      omega
    · have hle := form.length_rest_le hlater
      omega
  · have hle := form.length_rest_le hsuf
    rw [form.length_rest_cons] at hle
    omega

theorem not_startsAt_closing {l : List FormPart} {x : ℕ} (hR : R <:+ form.closing)
    (hx : x + R.length = form.body.length) (hne : l ≠ []) : ¬ form.StartsAt x l := by
  obtain ⟨p, ps, rfl⟩ := List.exists_cons_of_ne_nil hne
  have hle := hR.length_le
  have hclosing := form.closing_length_le_rest ps
  have hdelim := form.four_le_length_delimiter
  rw [MultipartForm.StartsAt, form.length_rest_cons]
  omega

/-- What may follow from step to step: the session goes on and its window lies ahead, or it is
over. -/
inductive ReceptionOk (form : MultipartForm) (st : Reception) : Prop
  | running (h : Running form st.web st.ledger (st.window.getD st.web.buffer))
  | over (window : st.window = none) (gone : st.web.closed = true ∨ st.web.fault ≠ none)
      (apart : PartsApart form st.ledger)

/-- The parts of a sound reception lie apart. -/
theorem ReceptionOk.apart (h : ReceptionOk form st) :
    PartsApart form st.ledger := by
  rcases h with ⟨Q, R, htracked, -, -⟩ | ⟨-, -, hapart⟩
  · exact htracked.apart
  · exact hapart

theorem ledger_move (hcalls : t.calls = st.web.calls ++ cs) (window : Option (List UInt8)) :
    (st.move t window).ledger = st.ledger.recordAll t.upload.userData
      (t.received.length - (window.getD []).length) cs := by
  rw [Reception.move, hcalls, List.drop_left]

theorem ledger_move_self (hcalls : t.calls = st.web.calls)
    (window : Option (List UInt8)) : (st.move t window).ledger = st.ledger :=
  ledger_move (hcalls.trans (List.append_nil _).symm) window

/-- The session is over after the calls `cs`. -/
theorem ReceptionOk.ret (hcalls : t.calls = st.web.calls ++ cs) (hfault : t.fault ≠ none)
    (hapart : ∀ reached, PartsApart form (st.ledger.recordAll t.upload.userData reached cs)) :
    ReceptionOk form (st.move (closeIfDone t) none) := by
  have hclose : closeIfDone t = t := by
    rw [closeIfDone, if_neg]
    simp [Option.isNone_iff_eq_none, hfault]
  rw [hclose]
  refine .over rfl (.inr hfault) ?_
  rw [ledger_move hcalls]
  exact hapart _

/-- The handling of data, after the calls `cs`. -/
theorem ReceptionOk.dataTurn (hcalls : s.calls = st.web.calls ++ cs)
    (hapart : ∀ reached, PartsApart form (st.ledger.recordAll s.upload.userData reached cs))
    (hdata : ∀ reached t, SectionStep s (w.take (dataEnd env.past s.upload.boundary w)) t →
      ∃ ds, t.calls = s.calls ++ ds ∧ ∀ fd, Running form t
        ((st.ledger.recordAll s.upload.userData reached cs).recordAll fd
          (t.received.length - (w.drop (dataEnd env.past s.upload.boundary w)).length) ds)
        (w.drop (dataEnd env.past s.upload.boundary w))) :
    (dataTurn env s w).Ends (fun t => ReceptionOk form (st.move (closeIfDone t) none))
      fun t w' => ReceptionOk form (st.move t (some w')) := by
  obtain ⟨fault, h⟩ | ⟨t, hstep, h⟩ := dataTurn_eq env s w
  · rw [h]
    exact .ret hcalls (Option.some_ne_none fault) hapart
  · rw [h]
    obtain ⟨ds, hds, hrunning⟩ := hdata _ t hstep
    have hall : t.calls = st.web.calls ++ (cs ++ ds) := by
      rw [hds, hcalls, List.append_assoc]
    refine .running ?_
    rw [ledger_move hall, recordAll_append, hstep.userData]
    exact hrunning _

/-- The closing boundary ends the upload: the file that is open is closed. -/
theorem ReceptionOk.close (h : Tracked form Q st.web st.ledger) :
    ReceptionOk form (st.move (closeIfDone { st.web.entryDone with phaseClose := true }) none) := by
  have hclose : closeIfDone { st.web.entryDone with phaseClose := true } =
      webnetSessionClose { st.web.entryDone with phaseClose := true } := by
    rw [closeIfDone, if_pos]
    simp [WebSession.entryDone, h.fault]
  rw [hclose]
  refine .over rfl (.inl rfl) ?_
  cases hopen : st.web.upload.fileOpened with
  | true =>
      have hcalls : (webnetSessionClose { st.web.entryDone with phaseClose := true }).calls =
          st.web.calls ++ uploadClose st.web.fileType st.web.upload.userData := by
        rw [webnetSessionClose, if_pos (by exact hopen)]
        rfl
      rw [ledger_move hcalls]
      exact h.recordClose hopen _ _
  | false =>
      rw [ledger_move_self]
      · exact h.apart
      · rw [webnetSessionClose, if_neg]
        · rfl
        · exact Bool.eq_false_iff.mp hopen

/-- The session goes on with the same file, whatever is in its buffer and has been received. -/
theorem Tracked.withBuffer (h : Tracked form Q s l) (buffer received : List UInt8) :
    Tracked form Q { s with buffer := buffer, received := received } l :=
  ⟨h.boundary, h.synced, h.phaseClose, h.closed, h.fault, h.apart, fun hfile => by
    obtain ⟨r, kind, hr, himage, hnotice⟩ := h.held hfile
    exact ⟨r, kind, hr, himage, hnotice⟩⟩

/-- The handler returns without a call, with the window in the buffer. -/
theorem ReceptionOk.wait (h : Running form t st.ledger t.buffer)
    (hcalls : t.calls = st.web.calls) : ReceptionOk form (st.move (closeIfDone t) none) := by
  obtain ⟨Q, R, htracked, hahead, hplace⟩ := h
  have hclose : closeIfDone t = t := by
    rw [closeIfDone, htracked.phaseClose, Bool.and_false, if_neg Bool.false_ne_true]
  rw [hclose]
  refine .running ⟨Q, R, ?_, hahead, hplace⟩
  rw [ledger_move_self hcalls]
  exact htracked

/-- A round where a part begins. -/
theorem ReceptionOk.part (env : UploadEnv) (h : Tracked form Q st.web st.ledger)
    (hahead : Ahead form st.web w R) (hbody : st.web.received <+: form.body)
    (hparts : p :: ps <:+ form.parts) (hR : form.Begins (p :: ps) R)
    (hlast : strBeginWithStrs w (lastBoundary st.web.upload.boundary) = false)
    (hmore : ¬ needsMore st.web.upload.boundary w) (hstart : StartsApart form st.web p ps) :
    (handleTurn env st.web w).Ends (fun t => ReceptionOk form (st.move (closeIfDone t) none))
      fun t w' => ReceptionOk form (st.move t (some w')) := by
  obtain ⟨head, rfl, hparse⟩ := hR.parseHeader
  obtain ⟨hlen, hlen'⟩ := hahead.lengths
  have hcomplete := hstart.complete
  have hnoContent := hstart.noContent
  dsimp only [MultipartForm.rangeOf] at hcomplete hnoContent
  rw [List.length_append, List.length_append] at hlen'
  -- the window holds all of the header
  have hw := hahead.window_le hbody
  obtain ⟨rest, rfl⟩ : head <+: w :=
    List.prefix_of_prefix_length_le ( List.prefix_append _ _) hw (by omega)
  rw [List.length_append] at hlen hlen'
  rw [h.boundary] at hlast
  rw [handleTurn, h.boundary, if_neg (Bool.eq_false_iff.mp hlast), if_neg (h.boundary ▸ hmore),
    hparse rest h.boundary hlast]
  obtain ⟨cs, hcalls, hrecord⟩ := h.startSection hparts hstart env
  have hreceived : (RtBoot.startSection env (atPart st.web p)).received = st.web.received :=
    (startSection_frame env (atPart st.web p)).1
  change Turn.Ends _ _ (if (startSection env (atPart st.web p)).fault.isSome then
    .ret (startSection env (atPart st.web p))
    else RtBoot.dataTurn env (startSection env (atPart st.web p)) rest)
  split_ifs with hfault
  · exact .ret hcalls (Option.isSome_iff_ne_none.mp hfault) fun reached => (hrecord reached).1
  · have hfault : (startSection env (atPart st.web p)).fault = none := by
      simpa using hfault
    refine ReceptionOk.dataTurn hcalls (fun reached => (hrecord reached).1) ?_
    intro reached t hstep
    refine ((hrecord reached).2 hfault).advance_inside hparts List.suffix_rfl ?_ ?_ ?_ env hstep
    · have hrest := hahead.append
      rwa [Ahead, ← hreceived] at hrest
    · rw [hreceived]
      exact hbody
    · intro hnil
      have hnil' := congrArg List.length hnil
      rw [List.length_nil] at hnil'
      have := hnoContent hnil
      omega

/-- A round where no boundary stands only handles data. -/
theorem handleTurn_of_skipBoundary
    (hlast : strBeginWithStrs w (lastBoundary s.upload.boundary) = false)
    (hmore : ¬ needsMore s.upload.boundary w) (hskip : skipBoundary s.upload.boundary w = none) :
    handleTurn env s w = RtBoot.dataTurn env s w := by
  have hparse : parseHeader s.upload w = .ok none := by
    rw [parseHeader, if_neg (Bool.eq_false_iff.mp hlast), hskip]
  rw [handleTurn, if_neg (Bool.eq_false_iff.mp hlast), if_neg hmore, hparse]

/-- **One round** that meets the condition writes bytes of one part only to the image of that
part. -/
theorem Running.handleTurn (h : Running form st.web st.ledger w)
    (env : UploadEnv) (hbody : st.web.received <+: form.body)
    (hround : strBeginWithStrs w (lastBoundary st.web.upload.boundary) = false →
      ¬ needsMore st.web.upload.boundary w → RoundApart form st.web w) :
    (handleTurn env st.web w).Ends (fun t => ReceptionOk form (st.move (closeIfDone t) none))
      fun t w' => ReceptionOk form (st.move t (some w')) := by
  obtain ⟨Q, R, htracked, hahead, hplace⟩ := h
  cases hlast : strBeginWithStrs w (lastBoundary st.web.upload.boundary) with
  | true =>
      rw [RtBoot.handleTurn, if_pos hlast]
      exact .close htracked
  | false =>
      by_cases hmore : needsMore st.web.upload.boundary w
      · rw [RtBoot.handleTurn, if_neg (Bool.eq_false_iff.mp hlast), if_pos hmore]
        exact ReceptionOk.wait ⟨Q, R, htracked.withBuffer w _, hahead, hplace⟩ rfl
      · have hround := hround hlast hmore
        have hself : st.web.calls = st.web.calls ++ [] := (List.append_nil _).symm
        have hx := hahead.lengths.2
        cases hplace with
        | start hparts hR =>
            refine ReceptionOk.part env htracked hahead hbody hparts hR hlast hmore ?_
            refine hround.part _ ((List.mem_tails _ _).mpr hparts) ?_ _ rfl
            rcases hR with rfl | rfl
            · exact .inl hx
            · have hdelim := form.four_le_length_delimiter
              rw [List.length_drop, form.length_rest_cons] at hx
              refine .inr ?_
              rw [form.length_rest_cons]
              omega
        | inside hparts hc hne =>
            have hskip : skipBoundary st.web.upload.boundary w = none := by
              by_contra hskip
              obtain ⟨l, hl, -, hstart⟩ := hround.boundary hskip
              exact not_startsAt_inside hparts hc hne hx ((List.mem_tails _ _).mp hl) hstart
            rw [handleTurn_of_skipBoundary hlast hmore hskip]
            exact ReceptionOk.dataTurn hself (fun _ => htracked.apart) fun _ t hstep =>
              htracked.advance_inside hparts hc hahead hbody (fun hnil => absurd hnil hne) env hstep
        | closing hR =>
            have hskip : skipBoundary st.web.upload.boundary w = none := by
              by_contra hskip
              obtain ⟨l, -, hne, hstart⟩ := hround.boundary hskip
              exact not_startsAt_closing hR hx hne hstart
            rw [handleTurn_of_skipBoundary hlast hmore hskip]
            exact ReceptionOk.dataTurn hself (fun _ => htracked.apart) fun _ t hstep =>
              htracked.advance_closing hR hahead hbody hstep

/-! ### Runs -/

/-- A step receives bytes or none. -/
theorem receptionStep_received {st' : Reception} {action : ReceptionAction}
    (h : receptionStep env st action = some st') : st.web.received <+: st'.web.received := by
  obtain ⟨data, -, -, -, rfl⟩ | ⟨-, -, -, rfl⟩ | ⟨-, -, rfl⟩ | ⟨w, -, -, -, hturn⟩ :=
    receptionStep_cases h
  · exact List.prefix_append _ _
  · exact List.prefix_rfl
  · have hsame := (closeIfDone_frame { st.web with buffer := [] }).2
    rw [Reception.move, hsame]
  · have hself : SameBody st.web st.web := ⟨rfl, rfl⟩
    have hbody := handleTurn_sameBody env hself w
    obtain ⟨t, hret, rfl⟩ | ⟨t, w', hagain, rfl⟩ := hturn
    · rw [hret] at hbody
      have hsame : (closeIfDone t).received = st.web.received :=
        (closeIfDone_frame t).2.trans hbody.1
      rw [Reception.move, hsame]
    · rw [hagain] at hbody
      have hsame : t.received = st.web.received := hbody.1
      rw [Reception.move, hsame]

/-- While a call may begin, or the handler is in its loop, the session is running. -/
theorem ReceptionOk.isRunning (h : ReceptionOk form st)
    (hrun : st.window ≠ none ∨ st.web.closed = false ∧ st.web.fault = none) :
    Running form st.web st.ledger (st.window.getD st.web.buffer) := by
  rcases h with h | ⟨hwindow, hgone, -⟩
  · exact h
  · rcases hrun with hrun | ⟨hclosed, hfault⟩
    · exact absurd hwindow hrun
    · rcases hgone with hgone | hgone
      · rw [hclosed] at hgone
        cases hgone
      · exact absurd hfault hgone

/-- **Every step** that meets the condition keeps the parts apart. -/
theorem ReceptionOk.step {st' : Reception} {action : ReceptionAction}
    (hok : KeepsApart form st action) (h : ReceptionOk form st)
    (hbody : st.web.received <+: form.body) (hstep : receptionStep env st action = some st') :
    ReceptionOk form st' := by
  obtain ⟨data, -, hwindow, hgone, rfl⟩ | ⟨-, hwindow, hgone, rfl⟩ | ⟨-, hwindow, rfl⟩ |
    ⟨w, rfl, hne, hwindow, hturn⟩ := receptionStep_cases hstep
  · obtain ⟨Q, R, htracked, ⟨done, hw, hR⟩, hplace⟩ := h.isRunning (.inr hgone)
    rw [hwindow, Option.getD_none] at hw
    have hreceived : done ++ (st.web.buffer ++ data) = st.web.received ++ data := by
      rw [← hw, List.append_assoc]
    exact .running ⟨Q, R, htracked.withBuffer _ _, ⟨done, hreceived, hR⟩, hplace⟩
  · have hrunning := h.isRunning (.inr hgone)
    rw [hwindow, Option.getD_none] at hrunning
    exact .running hrunning
  · have hsome : st.window ≠ none := by simp [hwindow]
    obtain ⟨Q, R, htracked, hahead, hplace⟩ := h.isRunning (.inl hsome)
    rw [hwindow, Option.getD_some] at hahead
    exact ReceptionOk.wait ⟨Q, R, htracked.withBuffer [] _, hahead, hplace⟩ rfl
  · have hsome : st.window ≠ none := by simp [hwindow]
    have hrunning := h.isRunning (.inl hsome)
    rw [hwindow, Option.getD_some] at hrunning
    have hends := hrunning.handleTurn env hbody (hok w hwindow hne)
    obtain ⟨t, hret, rfl⟩ | ⟨t, w', hagain, rfl⟩ := hturn
    · rw [hret] at hends
      exact hends
    · rw [hagain] at hends
      exact hends

/-- The invariant holds at the start. -/
theorem receptionOk_init (form : MultipartForm) (fileType : ℤ) (buffer : List UInt8) :
    ReceptionOk form (receptionInit form fileType buffer) := by
  refine .running ⟨_, form.body, ?_, ⟨[], rfl, rfl⟩, place_rest List.suffix_rfl (.inr rfl)⟩
  refine ⟨rfl, rfl, rfl, rfl, rfl, ⟨fun _ h => absurd h List.not_mem_nil,
    fun _ h => absurd h List.not_mem_nil⟩, ?_⟩
  intro hholds
  exact absurd hholds.1 Bool.false_ne_true

/-- **The parts are kept apart** in every run whose rounds meet the condition, as long as the
bytes received are the beginning of the body: each image file was opened for a file part under the
path of its field, holds bytes of no other part, and is what the flash thread is asked to burn. -/
theorem parts_apart {env : UploadEnv} {form : MultipartForm} {fileType : ℤ} {buffer : List UInt8}
    {actions : List ReceptionAction} {st : Reception}
    (hmeet : StepsMeet (receptionStep env) (KeepsApart form) (receptionInit form fileType buffer)
      actions)
    (hrun : exec (receptionStep env) (receptionInit form fileType buffer) actions = some st)
    (hbody : st.web.received <+: form.body) : PartsApart form st.ledger := by
  -- that the bytes are those of the body is only known at the end of the run
  let Inv (st : Reception) : Prop := st.web.received <+: form.body → ReceptionOk form st
  have hstep : ∀ {s action t}, KeepsApart form s action → Inv s →
      receptionStep env s action = some t → Inv t := by
    intro s action t hok h hstep hreceived
    have hbefore := (receptionStep_received hstep).trans hreceived
    exact (h hbefore).step hok hbefore hstep
  have hinit : Inv (receptionInit form fileType buffer) :=
    fun _ => receptionOk_init form fileType buffer
  exact (exec_invariant hstep hmeet hinit hrun hbody).apart

end

/-- A firmware image of one byte. -/
def firmwarePart : FormPart where
  head := returnsForm.head
  name := firmwareName
  content := [1]
  name_eq := rfl
  named := by decide

/-- An ART image of one byte. -/
def artPart : FormPart where
  head := plainFileHeader ⟨ascii "art_file", by decide⟩ (by decide)
  name := ⟨ascii "art_file", by decide⟩
  content := [2]
  name_eq := rfl
  named := by decide

/-- A text field. -/
def textPart : FormPart where
  head := .text ⟨ascii "x", by decide⟩ (by decide)
  name := ⟨ascii "x", by decide⟩
  content := [3]
  name_eq := rfl
  named := by decide

/-- Two firmware images with a text field between them. -/
def spacedForm : MultipartForm where
  token := returnsForm.token
  parts := [firmwarePart, textPart, firmwarePart]
  token_cr := returnsForm.token_cr
  content_free := by decide +kernel

/-- A firmware image and an ART image right behind it. -/
def adjacentForm : MultipartForm where
  token := returnsForm.token
  parts := [firmwarePart, artPart]
  token_cr := returnsForm.token_cr
  content_free := by decide +kernel

/-- Behind a text field the second image gets a file of its own. -/
theorem parts_apart_spaced :
    ∃ st, exec (receptionStep plainEnv) (receptionInit spacedForm (-1) [])
        (.read spacedForm.body :: List.replicate 4 .round) = some st ∧
      st.web.closed = true ∧ st.ledger.notified.length = 2 ∧ PartsApart spacedForm st.ledger := by
  obtain ⟨st, hrun, hclosed, hreceived, hnotified⟩ :
      ∃ st ∈ exec (receptionStep plainEnv) (receptionInit spacedForm (-1) [])
        (.read spacedForm.body :: List.replicate 4 .round),
      st.web.closed = true ∧ st.web.received = spacedForm.body ∧
        st.ledger.notified.length = 2 := by
    decide +kernel
  refine ⟨st, hrun, hclosed, hnotified, parts_apart (by decide +kernel) hrun ?_⟩
  rw [hreceived]

/-- **Two file parts in a row end up in one image**: the body has been received in full, and the
flash thread is asked to burn a firmware image that holds the byte of the ART part. -/
theorem art_in_firmware_image :
    ∃ st, exec (receptionStep plainEnv) (receptionInit adjacentForm (-1) [])
        (.read adjacentForm.body :: List.replicate 3 .round) = some st ∧
      st.web.received = adjacentForm.body ∧
      (∃ image, (.flash .firmware, some image) ∈ st.ledger.notified ∧
        ∃ pl ∈ image.placed, pl.Overlaps (adjacentForm.rangeOf artPart [])) ∧
      ¬ PartsApart adjacentForm st.ledger := by
  obtain ⟨st, hrun, hreceived, hnotified⟩ :
      ∃ st ∈ exec (receptionStep plainEnv) (receptionInit adjacentForm (-1) [])
        (.read adjacentForm.body :: List.replicate 3 .round),
      st.web.received = adjacentForm.body ∧ (.flash .firmware, some
        ⟨some "/tmp/firmware.bin", 3, false, [⟨86, [1]⟩, ⟨176, [2]⟩]⟩) ∈ st.ledger.notified := by
    decide +kernel
  refine ⟨st, hrun, hreceived, ⟨_, hnotified, ⟨176, [2]⟩, by decide, by decide +kernel⟩, ?_⟩
  intro hapart
  obtain ⟨image, r, kind, heq, howned⟩ := hapart.notified _ hnotified
  obtain rfl := Option.some.inj (Prod.mk.inj heq).2
  -- its two bytes are of two parts
  have hfirmware := howned.placed ⟨86, [1]⟩ (by decide)
    (adjacentForm.rangeOf firmwarePart [artPart]) (by decide +kernel) (by decide +kernel)
  have hart := howned.placed ⟨176, [2]⟩ (by decide) (adjacentForm.rangeOf artPart [])
    (by decide +kernel) (by decide +kernel)
  exact absurd (hfirmware.trans hart.symm) (by decide +kernel)

end RtBoot
