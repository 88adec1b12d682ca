import RtBoot.Upload

/-!
# Progress of the Multipart Receiver

A call of `_webnet_module_upload_handle` goes round by round through its window. Three tests
decide what a round does with a window that begins with a line end and the boundary: the closing
boundary ends the upload, the boundary of a part is skipped together with the header behind it,
and the search for the end of a stretch of data stops in front of the bare boundary. Nothing
takes a bare boundary away that is neither the one nor the other. A window that begins with such
a one, and is not left alone for more data, is `Stuck`: the round handles no data and leaves it
as it is, so the next round does the same.

A round that runs into a fault, such as a quote that is not closed, ends the call here: what the
code does after a wrong access is not determined by the bytes received. `UploadAccess` says when
there is one.

## Main results

* `nextPossibleBoundary_eq_zero_iff`: when the search stops at once.
* `handleTurn_progresses_iff`: a round returns, has a fault or shortens the window exactly when
  the window is not stuck.
* `upload_progress_iff`: so do all rounds of a call, and the call ends, exactly when no window
  it comes to is stuck.
-/

namespace RtBoot

/-- The window begins with the boundary, but not with the boundary of a part or the closing one,
and is not left alone for more data. -/
def Stuck (boundary : CString) (w : List UInt8) : Prop :=
  strBeginWithStrs w (commonBoundary boundary) ∧
    ¬ strBeginWithStrs w (lastBoundary boundary) ∧
    ¬ strBeginWithStrs w (normalBoundary boundary) ∧
    ¬ strBeginWithStrs w (firstBoundary boundary) ∧ ¬ needsMore boundary w
  deriving Decidable

/-- A round on the window `w` that goes on leaves a shorter window. -/
def Turn.Progresses (w : List UInt8) (turn : Turn) : Prop :=
  ∀ t w', turn = .again t w' → w'.length < w.length

/-- One round of the loop, as a step from window to window. -/
def loopStep (env : UploadEnv) (p : WebSession × List UInt8) (_ : Unit) :
    Option (WebSession × List UInt8) :=
  if p.2 = [] then none
  else
    match handleTurn env p.1 p.2 with
    | .ret _ => none
    | .again t w => some (t, w)

/-- A call on the window `w` comes to the window `v` with session `t`. -/
def ComesTo (env : UploadEnv) (s : WebSession) (w : List UInt8) (t : WebSession)
    (v : List UInt8) : Prop :=
  Reaches (loopStep env) (fun _ => True) (s, w) (t, v)

/-- Every round of a call returns, has a fault or shortens the window, and the call ends. -/
structure CallProgresses (env : UploadEnv) (s : WebSession) (w : List UInt8) : Prop where
  rounds : ∀ t v, ComesTo env s w t v → v ≠ [] → (handleTurn env t v).Progresses v
  terminates : ∃ fuel, (handleLoop env fuel s w).fault ≠ some .spinning

/-! ### One round -/

/-- **The search stops at once** exactly at a bare boundary: the backward search for its
beginning never looks at the first byte. -/
theorem nextPossibleBoundary_eq_zero_iff (past : ℕ → UInt8) {boundary : CString} {w : List UInt8} :
    nextPossibleBoundary past boundary w = some 0 ↔
      strBeginWithStrs w (commonBoundary boundary) = true := by
  rw [nextPossibleBoundary]
  by_cases hcommon : strBeginWithStrs w (commonBoundary boundary) = true
  · simp [hcommon]
  rw [if_neg hcommon]
  refine iff_of_false (fun hzero => ?_) hcommon
  cases hfind : memstrs w (commonBoundary boundary) with
  | some i =>
      simp only [hfind, Option.some.injEq] at hzero
      subst hzero
      obtain ⟨-, ⟨rest, hrest⟩, -⟩ := memstr_eq_some_iff.mp hfind
      rw [List.drop_zero] at hrest
      refine hcommon ?_
      rw [strBeginWithStrs_eq, ← hrest]
      exact caseBegins_self_append _ _
  | none =>
      cases hlast : memrchr w 13 with
      | none => simp [hfind, hlast] at hzero
      | some i =>
          have hpos : 0 < i := (memrchr_eq_some_iff (by decide)).mp hlast |>.1
          simp only [hfind, hlast] at hzero
          split_ifs at hzero
          · exact hpos.ne' (Option.some.inj hzero)
          · exact hpos.ne' (Option.some.inj hzero)

/-- Behind a boundary line and its header, the window is shorter. -/
theorem length_lt_of_parseHeader {u u' : UploadSession} {w rest : List UInt8}
    (hlast : ¬ strBeginWithStrs w (lastBoundary u.boundary))
    (hparse : parseHeader u w = .ok (some (u', rest))) : rest.length < w.length := by
  rw [parseHeader, if_neg hlast] at hparse
  cases hskip : skipBoundary u.boundary w with
  | none => simp [hskip] at hparse
  | some behind =>
      have hlt := length_lt_of_skipBoundary hskip
      simp only [hskip] at hparse
      cases hlines : headerLines behind.length .empty behind with
      | error fault => simp [hlines] at hparse
      | ok header =>
          cases header with
          | ranOut =>
              simp only [hlines, Except.ok.injEq, Option.some.injEq, Prod.mk.injEq] at hparse
              rw [← hparse.2]
              exact Nat.zero_lt_of_lt hlt
          | ended h after =>
              simp only [hlines, Except.ok.injEq, Option.some.injEq, Prod.mk.injEq] at hparse
              rw [← hparse.2]
              exact (headerLines_ended_suffix hlines).length_le.trans_lt hlt

/-- Where the parser finds no boundary line, there is none. -/
theorem not_begins_of_parseHeader {u : UploadSession} {w : List UInt8}
    (hlast : ¬ strBeginWithStrs w (lastBoundary u.boundary)) (hparse : parseHeader u w = .ok none) :
    ¬ strBeginWithStrs w (normalBoundary u.boundary) ∧
      ¬ strBeginWithStrs w (firstBoundary u.boundary) := by
  have hskip : skipBoundary u.boundary w = none := by
    rw [parseHeader, if_neg hlast] at hparse
    cases hskip : skipBoundary u.boundary w with
    | none => rfl
    | some rest =>
        simp only [hskip] at hparse
        split at hparse <;> cases hparse
  rw [skipBoundary] at hskip
  split_ifs at hskip with hnormal hfirst
  exact ⟨hnormal, hfirst⟩

section
variable {env : UploadEnv} {s : WebSession} {w : List UInt8}

/-- A stuck window is left as it is. -/
theorem handleTurn_of_stuck (h : Stuck s.upload.boundary w) : handleTurn env s w = .again s w := by
  obtain ⟨hcommon, hlast, hnormal, hfirst, hmore⟩ := h
  have hparse : parseHeader s.upload w = .ok none := by
    rw [parseHeader, if_neg hlast, skipBoundary, if_neg hnormal, if_neg hfirst]
  have hnext := (nextPossibleBoundary_eq_zero_iff env.past).mpr hcommon
  have hsection : handleSection s [] = .ok s := by
    simp [handleSection, memstr, crlf]
  rw [handleTurn, if_neg hlast, if_neg hmore, hparse]
  simp [dataTurn, dataEnd, hnext, hsection]

/-- What is left behind the data of a round. -/
theorem length_of_dataTurn {t : WebSession} {w' : List UInt8} (h : dataTurn env s w = .again t w') :
    w'.length = w.length - dataEnd env.past s.upload.boundary w := by
  rw [dataTurn] at h
  split at h
  · cases h
  · cases h
    rw [List.length_drop]

/-- **When a round makes progress**: it returns, has a fault or shortens the window, exactly when
the window is not stuck. -/
theorem handleTurn_progresses_iff (hw : w ≠ []) :
    (handleTurn env s w).Progresses w ↔ ¬ Stuck s.upload.boundary w := by
  constructor
  · intro hshorter hstuck
    exact lt_irrefl _ (hshorter _ _ (handleTurn_of_stuck hstuck))
  · intro hnot t w' hagain
    have hpos := List.length_pos_iff.mpr hw
    rw [handleTurn] at hagain
    split_ifs at hagain with hlast hmore
    cases hparse : parseHeader s.upload w with
    | error fault => simp [hparse] at hagain
    | ok header =>
        cases header with
        | none =>
            simp only [hparse] at hagain
            rw [length_of_dataTurn hagain, dataEnd]
            obtain ⟨hnormal, hfirst⟩ := not_begins_of_parseHeader hlast hparse
            cases hnext : nextPossibleBoundary env.past s.upload.boundary w with
            | none => rwa [Option.getD_none, Nat.sub_self]
            | some k =>
                have hk : k ≠ 0 := by
                  rintro rfl
                  exact hnot ⟨(nextPossibleBoundary_eq_zero_iff _).mp hnext, hlast, hnormal, hfirst,
                    hmore⟩
                rw [Option.getD_some]
                omega
        | some p =>
            obtain ⟨u, rest⟩ := p
            have hlt := length_lt_of_parseHeader hlast hparse
            simp only [hparse] at hagain
            split_ifs at hagain
            rw [length_of_dataTurn hagain]
            omega

/-- Handling data does not spin. -/
theorem dataTurn_not_spinning (hs : s.fault ≠ some .spinning) :
    (dataTurn env s w).Ends (fun t => t.fault ≠ some .spinning)
      fun t _ => t.fault ≠ some .spinning := by
  rw [dataTurn]
  cases hsec : handleSection s (w.take (dataEnd env.past s.upload.boundary w)) with
  | error fault =>
      rw [handleSection] at hsec
      split_ifs at hsec
      split at hsec
      · cases hsec
      · split at hsec
        · cases hsec
          simp [Turn.Ends]
        · cases hsec
  | ok t =>
      obtain rfl | ⟨-, rfl⟩ | ⟨entries, rfl⟩ := handleSection_cases hsec
      · exact hs
      · exact hs
      · exact hs

/-- A single round does not spin. -/
theorem handleTurn_not_spinning (hs : s.fault ≠ some .spinning) :
    (handleTurn env s w).Ends (fun t => t.fault ≠ some .spinning)
      fun t _ => t.fault ≠ some .spinning := by
  rw [handleTurn]
  split_ifs with hlast hmore
  · exact hs
  · exact hs
  cases hparse : parseHeader s.upload w with
  | error fault =>
      rw [parseHeader, if_neg hlast] at hparse
      split at hparse
      · cases hparse
      · split at hparse
        · next hlines =>
            intro hspin
            cases hparse
            exact headerLines_ne_spinning .empty le_rfl
              (hlines.trans (by rw [Option.some.inj hspin]))
        · cases hparse
        · cases hparse
  | ok header =>
      cases header with
      | none => exact dataTurn_not_spinning hs
      | some p =>
          have hstart : (startSection env { s with upload := p.1 }).fault ≠ some .spinning := by
            rw [startSection]
            split_ifs
            · exact hs
            · rw [WebSession.entryOpen]
              dsimp only
              split_ifs <;> simp
            · exact hs
            · exact hs
          dsimp only
          split_ifs
          · exact hstart
          · exact dataTurn_not_spinning hstart

/-- A call never comes away from a stuck window. -/
theorem handleLoop_of_stuck (hw : w ≠ []) (h : Stuck s.upload.boundary w) (fuel : ℕ) :
    (handleLoop env fuel s w).fault = some .spinning := by
  obtain ⟨b, rest, rfl⟩ := List.exists_cons_of_ne_nil hw
  induction fuel with
  | zero => rfl
  | succ fuel ih =>
      rw [handleLoop, handleTurn_of_stuck h]
      exact ih

/-! ### Calls -/

theorem loopStep_of_again {t : WebSession} {v : List UInt8} (hw : w ≠ [])
    (h : handleTurn env s w = .again t v) : loopStep env (s, w) () = some (t, v) := by
  rw [loopStep, if_neg hw, h]

/-- The boundary is the same in all rounds. -/
theorem ComesTo.boundary {t : WebSession} {v : List UInt8} (h : ComesTo env s w t v) :
    t.upload.boundary = s.upload.boundary := by
  refine Reaches.invariant (I := fun p => p.1.upload.boundary = s.upload.boundary) ?_ h rfl
  intro p _ q _ hp hstep
  rw [loopStep] at hstep
  split_ifs at hstep
  have hsame := handleTurn_sameBody env ⟨rfl, rfl⟩ p.2 (s := p.1) (t := p.1)
  cases hturn : handleTurn env p.1 p.2 with
  | ret _ => simp [hturn] at hstep
  | again r v' =>
      simp only [hturn, Option.some.injEq] at hstep
      rw [hturn] at hsame
      rw [← hstep]
      exact hsame.2.trans hp

/-- A call all of whose rounds make progress ends, within as many rounds as the window has
bytes. -/
theorem handleLoop_of_progress {fuel : ℕ} (hfuel : w.length ≤ fuel) (hs : s.fault ≠ some .spinning)
    (h : ∀ t v, ComesTo env s w t v → v ≠ [] → (handleTurn env t v).Progresses v) :
    (handleLoop env fuel s w).fault ≠ some .spinning := by
  induction fuel generalizing s w with
  | zero =>
      obtain rfl := List.length_eq_zero_iff.mp (Nat.le_zero.mp hfuel)
      exact hs
  | succ fuel ih =>
      cases w with
      | nil => exact hs
      | cons b w =>
          have hshorter := h s (b :: w) (.refl _) (List.cons_ne_nil b w)
          have hturns : (handleTurn env s (b :: w)).Ends (fun t => t.fault ≠ some .spinning)
              fun t _ => t.fault ≠ some .spinning := handleTurn_not_spinning hs
          rw [handleLoop]
          cases hturn : handleTurn env s (b :: w) with
          | ret t =>
              rw [hturn] at hturns
              exact hturns
          | again t v =>
              rw [hturn] at hturns
              have hlt := hshorter t v hturn
              refine ih (by omega) hturns fun r u hreach => h r u ?_
              exact .of_step trivial (loopStep_of_again (List.cons_ne_nil b w) hturn) hreach

end

/-- **When a call makes progress.** For every boundary, session and window, whatever was buffered
and read: every round of the call returns, has a fault or strictly shortens the window, and the
call ends, exactly when no window it comes to is stuck. -/
theorem upload_progress_iff {env : UploadEnv} {s : WebSession} {w : List UInt8}
    (hs : s.fault = none) :
    CallProgresses env s w ↔
      ∀ t v, ComesTo env s w t v → v ≠ [] → ¬ Stuck s.upload.boundary v := by
  have hround : ∀ t v, ComesTo env s w t v → v ≠ [] →
      ((handleTurn env t v).Progresses v ↔ ¬ Stuck s.upload.boundary v) := by
    intro t v hreach hv
    rw [handleTurn_progresses_iff hv, hreach.boundary]
  constructor
  · rintro ⟨hrounds, -⟩ t v hreach hv
    exact (hround t v hreach hv).mp (hrounds t v hreach hv)
  · intro h
    have hrounds : ∀ t v, ComesTo env s w t v → v ≠ [] → (handleTurn env t v).Progresses v :=
      fun t v hreach hv => (hround t v hreach hv).mpr (h t v hreach hv)
    exact ⟨hrounds, w.length, handleLoop_of_progress le_rfl (by simp [hs]) hrounds⟩

/-- The boundary `--b`. -/
def dashB : CString :=
  ⟨ascii "--b", by decide⟩

/-- A text field and the closing boundary. -/
def fieldBody : List UInt8 :=
  ascii "--b\r\nContent-Disposition: form-data; name=\"x\"\r\n\r\nv\r\n--b--\r\n"

/-- The first round on it takes the field, and the second one returns. -/
theorem upload_progress_field :
    CallProgresses plainEnv (sessionInit dashB 0 []) fieldBody := by
  obtain ⟨p, hp, hwindow, hends⟩ : ∃ p ∈ loopStep plainEnv (sessionInit dashB 0 [], fieldBody) (),
      p.2 = ascii "\r\n--b--\r\n" ∧ loopStep plainEnv p () = none := by decide +kernel
  refine (upload_progress_iff rfl).mpr ?_
  rintro t v ⟨rounds, -, hrun⟩ -
  match rounds with
  | [] =>
      obtain ⟨rfl, rfl⟩ := Prod.mk.inj (Option.some.inj hrun)
      decide +kernel
  | [()] =>
      obtain ⟨q, hq, hnil⟩ := exec_cons_eq_some.mp hrun
      obtain rfl := Option.some.inj (hp.symm.trans hq)
      obtain rfl : p = (t, v) := Option.some.inj hnil
      obtain rfl : v = ascii "\r\n--b--\r\n" := hwindow
      decide
  | () :: () :: rounds =>
      obtain ⟨q, hq, hrest⟩ := exec_cons_eq_some.mp hrun
      obtain rfl := Option.some.inj (hp.symm.trans hq)
      obtain ⟨r, hr, -⟩ := exec_cons_eq_some.mp hrest
      cases hends.symm.trans hr

/-- A window that begins with `--bX` on a line of its own, and holds the closing boundary: the
call goes round for ever. -/
theorem upload_spins :
    (∀ fuel, (handleLoop plainEnv fuel (sessionInit dashB 0 [])
        (ascii "\r\n--bX\r\n--b--\r\n")).fault = some .spinning) ∧
      ¬ CallProgresses plainEnv (sessionInit dashB 0 []) (ascii "\r\n--bX\r\n--b--\r\n") := by
  have hspin : ∀ fuel, (handleLoop plainEnv fuel (sessionInit dashB 0 [])
      (ascii "\r\n--bX\r\n--b--\r\n")).fault = some .spinning :=
    handleLoop_of_stuck (by decide) (by decide)
  refine ⟨hspin, fun h => ?_⟩
  obtain ⟨fuel, hends⟩ := h.terminates
  exact hends (hspin fuel)

end RtBoot
