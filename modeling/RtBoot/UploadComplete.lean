import RtBoot.Run
import RtBoot.Upload

/-!
# Complete Uploads

A flash job should be started only by an upload that was received to its end, that is, to
the closing boundary of the body. The notification is issued by `upload_close`, and the
receiver reaches it not only behind the closing boundary: also when a part that is not a file
follows the file, when the closing boundary is met with other letters in upper case, and when
the session is torn down because the connection broke.

## Main results

* `flash_only_complete`: in every run in which none of this happens before the closing
  boundary has been received, a flash job is started only after it.
* `flash_after_broken_connection`: a connection that breaks in the middle of the file starts
  one.
-/

namespace RtBoot

/-- No flash job has been started for the session. -/
def NoFlash (s : WebSession) : Prop :=
  ∀ kind, .notisfy (.flash kind) ∉ s.calls

/-- The closing boundary is among these bytes. -/
def HasClosing (boundary : CString) (bytes : List UInt8) : Prop :=
  (lastBoundary boundary).flatten <:+: bytes

/-- A file is open for writing: `upload_open` was called and returned a descriptor. -/
def UploadSession.HoldsFile (u : UploadSession) : Prop :=
  u.fileOpened = true ∧ 0 ≤ u.userData
  deriving Decidable

/-- The part whose header the handler parses at the beginning of a window, if it does not wait
for more data there: whether it is a file. -/
def partParsed (boundary : CString) (w : List UInt8) : Option Bool :=
  if needsMore boundary w then none else partBegins boundary w

/-- The window with which the handler goes on behind a round on `w`: behind the data that the
window begins with or that follows the header of a part. -/
def nextWindow (past : ℕ → UInt8) (boundary : CString) (w : List UInt8) : Option (List UInt8) :=
  match skipBoundary boundary w with
  | none => some (w.drop (dataEnd past boundary w))
  | some rest =>
      match headerLines rest.length .empty rest with
      | .error _ => none
      | .ok .ranOut => some []
      | .ok (.ended _ after) => some (after.drop (dataEnd past boundary after))

/-- The windows of the first rounds. -/
def roundWindows (past : ℕ → UInt8) (boundary : CString) : ℕ → List UInt8 → List (List UInt8)
  | 0, w => [w]
  | rounds + 1, w => w :: ((nextWindow past boundary w).map
      (roundWindows past boundary rounds)).getD []

/-- The windows of all rounds of a call on `w`: a round makes the window shorter or leaves it, so
that no more than `w.length` others follow. -/
def callWindows (past : ℕ → UInt8) (boundary : CString) (w : List UInt8) : List (List UInt8) :=
  roundWindows past boundary w.length w

/-- The window begins with what ends a file: the closing boundary in any case of letters, or the
header of a part that is not a file. -/
def EndsFile (boundary : CString) (w : List UInt8) : Prop :=
  strBeginWithStrs w (lastBoundary boundary) = true ∨ partParsed boundary w = some false
  deriving Decidable

/-- The window of a call gives no cause to close a file: a round comes to what ends one only
while no file is open and behind no file part of the window. -/
def Undisturbed (past : ℕ → UInt8) (s : WebSession) (w : List UInt8) : Prop :=
  ∀ v ∈ callWindows past s.upload.boundary w, EndsFile s.upload.boundary v →
    ¬ s.upload.HoldsFile ∧ ∀ u ∈ callWindows past s.upload.boundary w, v <:+ u →
      partParsed s.upload.boundary u ≠ some true
  deriving Decidable

/-- A round of a call on `w` comes to the header of a file part. -/
def FileBegins (past : ℕ → UInt8) (boundary : CString) (w : List UInt8) : Prop :=
  ∃ u ∈ callWindows past boundary w, partParsed boundary u = some true
  deriving Decidable

/-- The condition on a step: unless the closing boundary has been received with it, its window
is undisturbed, and a connection breaks only while no file is open and none begins in the
buffer. -/
def EndsComplete (past : ℕ → UInt8) (s : WebSession) : SessionAction → Prop
  | .otherSession _ => True
  | .handleBroken => HasClosing s.upload.boundary s.received ∨
      Undisturbed past s s.buffer ∧ ¬ s.upload.HoldsFile ∧
        ¬ FileBegins past s.upload.boundary s.buffer
  | .handleBuffered => HasClosing s.upload.boundary s.received ∨ Undisturbed past s s.buffer
  | .handleRead data => HasClosing s.upload.boundary (s.received ++ data) ∨
      Undisturbed past s (s.buffer ++ data)

instance (boundary : CString) (bytes : List UInt8) : Decidable (HasClosing boundary bytes) :=
  decidable_of_iff (memstr (lastBoundary boundary).flatten bytes ≠ none)
    (not_congr memstr_eq_none_iff |>.trans not_not)

instance (past : ℕ → UInt8) (s : WebSession) :
    (action : SessionAction) → Decidable (EndsComplete past s action)
  | .otherSession _ => .isTrue trivial
  | .handleBuffered => inferInstanceAs (Decidable (_ ∨ _))
  | .handleRead _ => inferInstanceAs (Decidable (_ ∨ _))
  | .handleBroken => inferInstanceAs (Decidable (_ ∨ _ ∧ _ ∧ _))

/-! ### The windows of a call -/

section
variable {past : ℕ → UInt8} {boundary : CString} {v v' w : List UInt8} {n : ℕ}

/-- A round makes the window shorter or leaves it. -/
theorem length_lt_of_nextWindow (h : nextWindow past boundary w = some v) :
    v.length < w.length ∨ v = w := by
  rw [nextWindow] at h
  split at h
  · obtain rfl := Option.some.inj h
    rcases Nat.eq_zero_or_pos (dataEnd past boundary w) with hzero | hpos
    · exact .inr (by rw [hzero, List.drop_zero])
    · cases w with
      | nil => exact .inr List.drop_nil
      | cons b w =>
          rw [List.length_drop, List.length_cons]
          exact .inl (by omega)
  · next rest hskip =>
      have hlt := length_lt_of_skipBoundary hskip
      split at h
      · cases h
      · cases h
        exact .inl (Nat.zero_lt_of_lt hlt)
      · next after hlines =>
          obtain rfl := Option.some.inj h
          have hle := (headerLines_ended_suffix hlines).length_le
          rw [List.length_drop]
          exact .inl (by omega)

/-- The parser finds the window the round goes on with. -/
theorem nextWindow_of_parseHeader {u : UploadSession}
    (hlast : strBeginWithStrs w (lastBoundary u.boundary) = false)
    {found : Option (UploadSession × List UInt8)} (hparse : parseHeader u w = .ok found) :
    nextWindow past u.boundary w =
      let data := (found.map Prod.snd).getD w
      some (data.drop (dataEnd past u.boundary data)) := by
  rw [parseHeader, hlast] at hparse
  rw [nextWindow]
  cases hskip : skipBoundary u.boundary w with
  | none =>
      rw [hskip] at hparse
      cases hparse
      rfl
  | some rest =>
      rw [hskip] at hparse
      dsimp only at hparse ⊢
      rcases hlines : headerLines rest.length .empty rest with fault | header
      · rw [hlines] at hparse
        cases hparse
      · rw [hlines] at hparse
        cases header <;> cases hparse
        · simp
        · rfl

theorem self_mem_roundWindows (n : ℕ) (w : List UInt8) : w ∈ roundWindows past boundary n w := by
  cases n with
  | zero => exact List.mem_singleton_self w
  | succ n => exact List.mem_cons_self

/-- Where a window is left as it is, the rounds come to no other. -/
theorem eq_of_mem_roundWindows (hw : nextWindow past boundary w = some w)
    (hv : v ∈ roundWindows past boundary n w) : v = w := by
  induction n with
  | zero => exact List.mem_singleton.mp hv
  | succ n ih =>
      rw [roundWindows, hw] at hv
      exact (List.mem_cons.mp hv).elim id ih

theorem mem_roundWindows_next (hn : w.length ≤ n) (hv : v ∈ roundWindows past boundary n w)
    (hnext : nextWindow past boundary v = some v') : v' ∈ roundWindows past boundary n w := by
  induction n generalizing w with
  | zero =>
      obtain rfl := List.mem_singleton.mp hv
      rcases length_lt_of_nextWindow hnext with hlt | rfl
      · omega
      · exact hv
  | succ n ih =>
      rw [roundWindows] at hv ⊢
      rcases List.mem_cons.mp hv with rfl | hlater
      · rw [hnext]
        exact List.mem_cons_of_mem _ (self_mem_roundWindows n v')
      cases hw : nextWindow past boundary w with
      | none =>
          rw [hw] at hlater
          cases hlater
      | some w' =>
          rw [hw] at hlater
          refine List.mem_cons_of_mem _ ?_
          rcases length_lt_of_nextWindow hw with hlt | rfl
          · exact ih (by omega) hlater
          · obtain rfl := eq_of_mem_roundWindows hw hlater
            obtain rfl := Option.some.inj (hw.symm.trans hnext)
            exact hlater

/-- **The windows of a call**: with a window, the one its round goes on with is among them. -/
theorem mem_callWindows_next (hv : v ∈ callWindows past boundary w)
    (hnext : nextWindow past boundary v = some v') : v' ∈ callWindows past boundary w :=
  mem_roundWindows_next le_rfl hv hnext

end

/-! ### One call -/

/-- Closing a file starts no job if there is no descriptor. -/
theorem NoFlash.close {s : WebSession} (hs : NoFlash s) (h : ¬ s.upload.HoldsFile)
    (hopen : s.upload.fileOpened = true) : NoFlash s.entryClose := by
  have hfd : s.upload.userData < 0 := by
    by_contra hge
    exact h ⟨hopen, not_lt.mp hge⟩
  intro kind hmem
  rw [WebSession.entryClose, uploadClose, if_pos hfd, List.append_nil] at hmem
  exact hs kind hmem

/-- What a call that starts in `s₀` with the window `w₀` keeps up when it has come to `w`. -/
structure CallInv (past : ℕ → UInt8) (s₀ : WebSession) (w₀ : List UInt8) (s : WebSession)
    (w : List UInt8) : Prop where
  boundary : s.upload.boundary = s₀.upload.boundary
  noFlash : NoFlash s
  phaseClose : s.phaseClose = s₀.phaseClose
  opened : s.upload.HoldsFile → s₀.upload.HoldsFile ∨
    ∃ u ∈ callWindows past s₀.upload.boundary w₀,
      w <:+ u ∧ partParsed s₀.upload.boundary u = some true

/-- What holds before a round on `w`. -/
structure RoundInv (past : ℕ → UInt8) (s₀ : WebSession) (w₀ : List UInt8) (s : WebSession)
    (w : List UInt8) : Prop extends CallInv past s₀ w₀ s w where
  window : w ∈ callWindows past s₀.upload.boundary w₀

/-- What an undisturbed call ends with: no job was started, the closing phase was entered only
without a file, and a file is open only if one was or one began in the window. -/
structure CallEnd (past : ℕ → UInt8) (s₀ : WebSession) (w₀ : List UInt8) (t : WebSession) :
    Prop where
  noFlash : NoFlash t
  phaseClose : t.phaseClose = true → s₀.phaseClose = true ∨ ¬ t.upload.HoldsFile
  opened : t.upload.HoldsFile → s₀.upload.HoldsFile ∨ FileBegins past s₀.upload.boundary w₀

variable {env : UploadEnv} {s₀ s : WebSession} {w₀ w : List UInt8}

/-- Where a call may end. -/
theorem CallInv.callEnd (h : CallInv env.past s₀ w₀ s w) : CallEnd env.past s₀ w₀ s := by
  refine ⟨h.noFlash, fun hphase => .inl (h.phaseClose ▸ hphase), ?_⟩
  intro hopen
  rcases h.opened hopen with h0 | ⟨u, hu, -, hpart⟩
  · exact .inl h0
  · exact .inr ⟨u, hu, hpart⟩

/-- Where a file would be ended, in an undisturbed window, none is open. -/
theorem RoundInv.not_holdsFile (h : RoundInv env.past s₀ w₀ s w)
    (hw₀ : Undisturbed env.past s₀ w₀) (hends : EndsFile s₀.upload.boundary w) :
    ¬ s.upload.HoldsFile := by
  obtain ⟨hnone, hparts⟩ := hw₀ w h.window hends
  intro hfile
  -- a file that is open now was open before the call or began above
  rcases h.opened hfile with h0 | ⟨v, hv, hwv, hpart⟩
  · exact hnone h0
  · exact hparts v hv hwv hpart

/-- Handling data starts no job, and the round goes on behind it. -/
theorem CallInv.dataTurn (h : CallInv env.past s₀ w₀ s w)
    (hnext : w.drop (dataEnd env.past s₀.upload.boundary w) ∈
      callWindows env.past s₀.upload.boundary w₀) :
    (dataTurn env s w).Ends (CallEnd env.past s₀ w₀) (RoundInv env.past s₀ w₀) := by
  rw [RtBoot.dataTurn, h.boundary]
  cases hsec : handleSection s (w.take (dataEnd env.past s₀.upload.boundary w)) with
  | error fault => exact ⟨h.noFlash, h.callEnd.phaseClose, h.callEnd.opened⟩
  | ok t =>
      have hframe := handleSection_frame hsec
      refine ⟨⟨hframe.boundary.trans h.boundary,
        fun kind hmem => h.noFlash kind (hframe.notices _ hmem),
        hframe.phaseClose.trans h.phaseClose, ?_⟩, hnext⟩
      rintro ⟨hopen, hfd⟩
      rcases h.opened ⟨hframe.fileOpened ▸ hopen, hframe.userData ▸ hfd⟩ with
        h0 | ⟨u, hu, hw, hpart⟩
      · exact .inl h0
      · exact .inr ⟨u, hu, (List.drop_suffix _ _).trans hw, hpart⟩

/-- Behind a part header a file may be opened, but in an undisturbed window none is closed. -/
theorem RoundInv.startSection {rest : List UInt8} {u : UploadSession}
    (h : RoundInv env.past s₀ w₀ s w) (hw₀ : Undisturbed env.past s₀ w₀) (hrest : rest <:+ w)
    (hpart : partParsed s₀.upload.boundary w = some u.inFile)
    (hboundary : u.boundary = s₀.upload.boundary) (hopened : u.fileOpened = s.upload.fileOpened)
    (hfd : u.userData = s.upload.userData) :
    CallInv env.past s₀ w₀ (startSection env { s with upload := u }) rest := by
  rw [RtBoot.startSection]
  dsimp only
  cases hin : u.inFile with
  | true =>
      rw [hin] at hpart
      have hfile : s₀.upload.HoldsFile ∨ ∃ v ∈ callWindows env.past s₀.upload.boundary w₀,
          rest <:+ v ∧ partParsed s₀.upload.boundary v = some true :=
        .inr ⟨w, h.window, hrest, hpart⟩
      cases hopen : u.fileOpened with
      | true => exact ⟨hboundary, h.noFlash, h.phaseClose, fun _ => hfile⟩
      | false =>
          refine ⟨hboundary, ?_, h.phaseClose, fun _ => hfile⟩
          intro kind hmem
          rcases List.mem_append.mp hmem with hmem | hmem
          · exact h.noFlash kind hmem
          · exact notisfy_notMem_uploadOpen _ _ _ _ _ hmem
  | false =>
      rw [hin] at hpart
      have hnone : ¬ u.HoldsFile := by
        rw [UploadSession.HoldsFile, hopened, hfd]
        exact h.not_holdsFile hw₀ (.inr hpart)
      have hno : NoFlash { s with upload := u } := h.noFlash
      cases hopen : u.fileOpened with
      | true =>
          refine ⟨hboundary, hno.close hnone hopen, h.phaseClose, ?_⟩
          exact fun hfile => absurd hfile.1 Bool.false_ne_true
      | false => exact ⟨hboundary, hno, h.phaseClose, fun hfile => absurd hfile hnone⟩

/-- A round of an undisturbed call. -/
theorem RoundInv.handleTurn (hw₀ : Undisturbed env.past s₀ w₀) (h : RoundInv env.past s₀ w₀ s w) :
    (handleTurn env s w).Ends (CallEnd env.past s₀ w₀) (RoundInv env.past s₀ w₀) := by
  rw [RtBoot.handleTurn, h.boundary]
  split
  · next hlast =>
      have hnone := h.not_holdsFile hw₀ (.inl hlast)
      exact ⟨h.noFlash, fun _ => .inr hnone, fun hfile => absurd hfile hnone⟩
  next hlast =>
  split
  · exact ⟨h.noFlash, h.callEnd.phaseClose, h.callEnd.opened⟩
  next hmore =>
  have hlast' : strBeginWithStrs w (lastBoundary s.upload.boundary) = false := by
    rw [h.boundary]
    exact Bool.eq_false_iff.mpr hlast
  obtain ⟨fault, hparse⟩ | hparse | ⟨u, rest, hparse, hsuf, hpart, hb, hopen, hfd⟩ :=
    parseHeader_cases hlast'
  · rw [hparse]
    exact ⟨h.noFlash, h.callEnd.phaseClose, h.callEnd.opened⟩
  · rw [hparse]
    refine h.dataTurn (mem_callWindows_next h.window ?_)
    rw [← h.boundary]
    exact nextWindow_of_parseHeader hlast' hparse
  · have hinv : CallInv env.past s₀ w₀ (RtBoot.startSection env { s with upload := u }) rest :=
      h.startSection hw₀ hsuf (by rw [partParsed, if_neg hmore, ← h.boundary, hpart])
        (hb.trans h.boundary) hopen hfd
    rw [hparse]
    dsimp only
    split
    · exact hinv.callEnd
    · refine hinv.dataTurn (mem_callWindows_next h.window ?_)
      rw [← h.boundary]
      exact nextWindow_of_parseHeader hlast' hparse

/-- An undisturbed call starts no flash job. -/
theorem handleLoop_undisturbed (fuel : ℕ) (hw : Undisturbed env.past s w) (hs : NoFlash s) :
    CallEnd env.past s w (handleLoop env fuel s w) := by
  refine handleLoop_rule (J := RoundInv env.past s w) (Q := CallEnd env.past s w) ?_ ?_
    (fun t v h => h.handleTurn hw) fuel
    ⟨⟨rfl, hs, rfl, fun h => .inl h⟩, self_mem_roundWindows _ w⟩
  · intro t h
    exact ⟨h.noFlash, h.callEnd.phaseClose, h.callEnd.opened⟩
  · intro t v h
    exact ⟨h.noFlash, h.callEnd.phaseClose, h.callEnd.opened⟩

/-! ### Runs -/

/-- What holds between the steps: no job was started before the closing boundary, and a
session that goes on is not in the closing phase. -/
structure CompleteInv (boundary : CString) (s : WebSession) : Prop where
  sameBoundary : s.upload.boundary = boundary
  noFlash : HasClosing boundary s.received ∨ NoFlash s
  phaseClose : s.closed = false → s.fault = none → s.phaseClose = false

theorem closeIfDone_phaseClose (hclosed : (closeIfDone s).closed = false)
    (hfault : (closeIfDone s).fault = none) : (closeIfDone s).phaseClose = false := by
  rw [closeIfDone] at *
  split_ifs at * with h
  · cases hclosed
  · rw [hfault] at h
    simpa using h

/-- The teardown starts a job only if a file is open. -/
theorem closeIfDone_noFlash (hs : NoFlash s)
    (h : s.phaseClose = true → ¬ s.upload.HoldsFile) : NoFlash (closeIfDone s) := by
  rw [closeIfDone]
  split_ifs with hphase
  · have hnone := h (by simpa using (Bool.and_eq_true_iff.mp hphase).2)
    rw [webnetSessionClose]
    split_ifs with hopen
    · exact hs.close hnone hopen
    · exact hs
  · exact hs

/-- A call keeps the invariant once the closing boundary has been received with it, or if it
started no job and leaves no file open in the closing phase. -/
theorem completeInv_call {boundary : CString} (fuel : ℕ) (hb : s.upload.boundary = boundary)
    (h : HasClosing boundary s.received ∨ CallEnd env.past s w (handleLoop env fuel s w) ∧
      (s.phaseClose = true → ¬ s.upload.HoldsFile ∧ ¬ FileBegins env.past boundary w)) :
    CompleteInv boundary (closeIfDone (handleLoop env fuel s w)) := by
  obtain ⟨hreceived, hboundary⟩ := handleLoop_frame env fuel s w
  obtain ⟨hboundary', hreceived'⟩ := closeIfDone_frame (handleLoop env fuel s w)
  refine ⟨hboundary'.trans (hboundary.trans hb), ?_, closeIfDone_phaseClose⟩
  rw [hreceived', hreceived]
  rcases h with hclosing | ⟨hend, hbroken⟩
  · exact .inl hclosing
  · refine .inr (closeIfDone_noFlash hend.noFlash ?_)
    intro hphase hfile
    rcases hend.phaseClose hphase with hbefore | hnone
    · obtain ⟨hnone, hnobegin⟩ := hbroken hbefore
      rcases hend.opened hfile with h0 | h0
      · exact hnone h0
      · exact hnobegin (hb ▸ h0)
    · exact hnone hfile

/-- Every step that meets the condition preserves the invariant. -/
theorem CompleteInv.step {boundary : CString} {fuel : ℕ} {t : WebSession}
    {action : SessionAction} (hok : EndsComplete env.past s action) (h : CompleteInv boundary s)
    (hstep : sessionStep env fuel s action = some t) : CompleteInv boundary t := by
  obtain ⟨⟨hclosed, hfault⟩, hcases⟩ := sessionStep_cases hstep
  have hphase := h.phaseClose hclosed hfault
  have hb := h.sameBoundary
  have hopen : ∀ {P : Prop}, s.phaseClose = true → P := fun h1 =>
    absurd (hphase.symm.trans h1) Bool.false_ne_true
  obtain ⟨rfl, rfl⟩ | ⟨data, rfl, rfl⟩ | ⟨rfl, rfl⟩ | ⟨fileType, rfl, rfl⟩ := hcases
  · refine completeInv_call fuel hb ?_
    rcases h.noFlash with hclosing | hno
    · exact .inl hclosing
    · rcases hok with hclosing | hw
      · exact .inl (hb ▸ hclosing)
      · exact .inr ⟨handleLoop_undisturbed fuel hw hno, hopen⟩
  · refine completeInv_call fuel hb ?_
    rcases h.noFlash with hclosing | hno
    · exact .inl (hclosing.trans (List.prefix_append _ _).isInfix)
    · rcases hok with hclosing | hw
      · exact .inl (hb ▸ hclosing)
      · exact .inr ⟨handleLoop_undisturbed fuel hw hno, hopen⟩
  · refine completeInv_call fuel hb ?_
    rcases h.noFlash with hclosing | hno
    · exact .inl hclosing
    · rcases hok with hclosing | ⟨hw, hnone, hparts⟩
      · exact .inl (hb ▸ hclosing)
      · exact .inr ⟨handleLoop_undisturbed fuel hw hno, fun _ => ⟨hnone, hb ▸ hparts⟩⟩
  · exact ⟨h.sameBoundary, h.noFlash, h.phaseClose⟩

end RtBoot
