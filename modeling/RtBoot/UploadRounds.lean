import RtBoot.MultipartForm
import RtBoot.Run

/-!
# The Rounds of the Receiver

A call of the upload handler goes through its loop until the window is used up. What happens to
the parts of a form is a matter of single rounds, so the handler is taken apart into them here:
`receptionStep` begins a call, or goes through the loop once. Each step is followed by entries in
a ledger: which image files have been opened, which bytes of the body have been written to them
and where they stood in it, and which requests the flash thread got. The ledger only records.

## Main results

* `receptionStep_cases`: what a step can do.
* `sessionStep_rounds`: **a call of the handler is a sequence of rounds**.
-/

namespace RtBoot

/-! ### The ledger -/

/-- A file under `/tmp` that was opened for writing, with the bytes written to it. Without a path
it stands for a write that went to no file opened before. -/
structure ImageFile where
  path : Option String
  fd : ℤ
  isOpen : Bool
  placed : List Placement
  deriving DecidableEq, Repr

/-- The files opened, the last one first, and the requests made of the flash thread, each with
the file that was last opened then. -/
structure Ledger where
  images : List ImageFile
  notified : List (Notice × Option ImageFile)
  deriving DecidableEq, Repr

/-- Enter a call. `fd` is the descriptor a call of `open` has returned, and data that is written
ends where the window now begins, at `reached`. -/
def Ledger.record (fd : ℤ) (reached : ℕ) (l : Ledger) : UploadCall → Ledger
  | .unlink _ => l
  | .open path => { l with images := ⟨some path, fd, true, []⟩ :: l.images }
  | .write target data =>
      let pl : Placement := ⟨reached - data.length, data⟩
      match l.images with
      | image :: images =>
          if image.isOpen ∧ image.fd = target then
            { l with images := { image with placed := image.placed ++ [pl] } :: images }
          else { l with images := ⟨none, target, true, [pl]⟩ :: l.images }
      | [] => { l with images := [⟨none, target, true, [pl]⟩] }
  | .close target =>
      match l.images with
      | image :: images =>
          if image.fd = target then { l with images := { image with isOpen := false } :: images }
          else l
      | [] => l
  | .notisfy notice => { l with notified := l.notified ++ [(notice, l.images.head?)] }

/-- Enter calls one after the other. -/
def Ledger.recordAll (l : Ledger) (fd : ℤ) (reached : ℕ) (calls : List UploadCall) : Ledger :=
  calls.foldl (Ledger.record fd reached) l

/-! ### The rounds of the handler -/

/-- A session with its window while the handler is running, and the ledger. -/
structure Reception where
  web : WebSession
  window : Option (List UInt8)
  ledger : Ledger

/-- The handler is called, with bytes from the socket or with what is in the buffer; or it goes
through its loop once. -/
inductive ReceptionAction
  | read (data : List UInt8)
  | buffered
  | round
  deriving DecidableEq, Repr

/-- Go on with a session and a window, and enter the calls that have been made. -/
def Reception.move (st : Reception) (t : WebSession) (window : Option (List UInt8)) :
    Reception where
  web := t
  window := window
  ledger := st.ledger.recordAll t.upload.userData (t.received.length - (window.getD []).length)
    (t.calls.drop st.web.calls.length)

/-- One step. The loop is over when the window is empty or the handler returns; the session is
then closed if its phase says so. -/
def receptionStep (env : UploadEnv) (st : Reception) : ReceptionAction → Option Reception
  | .read data =>
      if st.window.isSome ∨ st.web.closed ∨ st.web.fault.isSome ∨ st.web.holdsLast ∨
          data.length = 0 ∨ sessionBufsz - st.web.buffer.length - 1 < data.length then none
      else some
        { st with
          web := { st.web with received := st.web.received ++ data }
          window := some (st.web.buffer ++ data) }
  | .buffered =>
      if st.window.isNone ∧ st.web.closed = false ∧ st.web.fault = none ∧ st.web.holdsLast then
        some { st with window := some st.web.buffer }
      else none
  | .round =>
      match st.window with
      | none => none
      | some [] => some (st.move (closeIfDone { st.web with buffer := [] }) none)
      | some (b :: w) =>
          match handleTurn env st.web (b :: w) with
          | .ret t => some (st.move (closeIfDone t) none)
          | .again t w' => some (st.move t (some w'))

/-- **A step**: a call of a session that is running, with its window or the bytes of a read, or
one round of the loop. -/
theorem receptionStep_cases {env : UploadEnv} {st st' : Reception} {action : ReceptionAction}
    (h : receptionStep env st action = some st') :
    (∃ data, action = .read data ∧ st.window = none ∧
      (st.web.closed = false ∧ st.web.fault = none) ∧
      st' = ⟨{ st.web with received := st.web.received ++ data }, some (st.web.buffer ++ data),
        st.ledger⟩) ∨
    (action = .buffered ∧ st.window = none ∧ (st.web.closed = false ∧ st.web.fault = none) ∧
      st' = { st with window := some st.web.buffer }) ∨
    (action = .round ∧ st.window = some [] ∧
      st' = st.move (closeIfDone { st.web with buffer := [] }) none) ∨
    ∃ w, action = .round ∧ w ≠ [] ∧ st.window = some w ∧
      ((∃ t, handleTurn env st.web w = .ret t ∧ st' = st.move (closeIfDone t) none) ∨
        ∃ t w', handleTurn env st.web w = .again t w' ∧ st' = st.move t (some w')) := by
  cases action with
  | read data =>
      rw [receptionStep] at h
      split_ifs at h with hnot
      push Not at hnot
      obtain ⟨hwindow, hclosed, hfault, -⟩ := hnot
      exact .inl ⟨data, rfl, by simpa using hwindow,
        ⟨by simpa using hclosed, by simpa using hfault⟩, (Option.some.inj h).symm⟩
  | buffered =>
      rw [receptionStep] at h
      split_ifs at h with hwait
      obtain ⟨hwindow, hclosed, hfault, -⟩ := hwait
      exact .inr (.inl ⟨rfl, by simpa using hwindow, ⟨hclosed, hfault⟩, (Option.some.inj h).symm⟩)
  | round =>
      rcases hwindow : st.window with _ | _ | ⟨b, w⟩
      · simp only [receptionStep, hwindow, reduceCtorEq] at h
      · simp only [receptionStep, hwindow, Option.some.injEq] at h
        exact .inr (.inr (.inl ⟨rfl, rfl, h.symm⟩))
      · refine .inr (.inr (.inr ⟨b :: w, rfl, List.cons_ne_nil b w, rfl, ?_⟩))
        cases hturn : handleTurn env st.web (b :: w) with
        | ret t =>
            simp only [receptionStep, hwindow, hturn, Option.some.injEq] at h
            exact .inl ⟨t, rfl, h.symm⟩
        | again t w' =>
            simp only [receptionStep, hwindow, hturn, Option.some.injEq] at h
            exact .inr ⟨t, w', rfl, h.symm⟩

/-- The session with the bytes of the body that came with the request header. -/
def receptionInit (form : MultipartForm) (fileType : ℤ) (buffer : List UInt8) : Reception where
  web := sessionInit form.boundary fileType buffer
  window := none
  ledger := ⟨[], []⟩

/-! #### A call is a sequence of rounds -/

/-- The loop of the handler, round by round. -/
theorem handleLoop_rounds (env : UploadEnv) (fuel : ℕ) (s : WebSession) (w : List UInt8)
    (l : Ledger) (hfuel : (handleLoop env fuel s w).fault ≠ some .spinning) :
    ∃ n l', exec (receptionStep env) ⟨s, some w, l⟩ (List.replicate n .round) =
      some ⟨closeIfDone (handleLoop env fuel s w), none, l'⟩ := by
  induction fuel generalizing s w l with
  | zero =>
      cases w with
      | nil => exact ⟨1, _, rfl⟩
      | cons b w => exact absurd rfl hfuel
  | succ fuel ih =>
      cases w with
      | nil => exact ⟨1, _, rfl⟩
      | cons b w =>
          rw [handleLoop] at hfuel ⊢
          cases hturn : handleTurn env s (b :: w) with
          | ret t =>
              have hround : receptionStep env ⟨s, some (b :: w), l⟩ .round =
                  some (Reception.move ⟨s, some (b :: w), l⟩ (closeIfDone t) none) := by
                simp only [receptionStep, hturn]
              exact ⟨1, _, exec_cons_eq_some.mpr ⟨_, hround, rfl⟩⟩
          | again t w' =>
              rw [hturn] at hfuel
              have hround : receptionStep env ⟨s, some (b :: w), l⟩ .round =
                  some (Reception.move ⟨s, some (b :: w), l⟩ t (some w')) := by
                simp only [receptionStep, hturn]
              obtain ⟨n, l', hrun⟩ := ih t w' _ hfuel
              exact ⟨n + 1, l', exec_cons_eq_some.mpr ⟨_, hround, hrun⟩⟩

/-- The step of the session that begins with a call of the handler. -/
def ReceptionAction.session : ReceptionAction → Option SessionAction
  | .read data => some (.handleRead data)
  | .buffered => some .handleBuffered
  | .round => none

/-- **A call of the handler is a sequence of rounds.** -/
theorem sessionStep_rounds {env : UploadEnv} {fuel : ℕ} {s t : WebSession}
    {call : ReceptionAction} {action : SessionAction} (hcall : call.session = some action)
    (h : sessionStep env fuel s action = some t) (hfuel : t.fault ≠ some .spinning) (l : Ledger) :
    ∃ n l', exec (receptionStep env) ⟨s, none, l⟩ (call :: List.replicate n .round) =
      some ⟨t, none, l'⟩ := by
  have hfault : ∀ u : WebSession, (closeIfDone u).fault ≠ some .spinning →
      u.fault ≠ some .spinning := by
    intro u hu hspin
    refine hu ?_
    rw [closeIfDone, hspin]
    exact hspin
  obtain ⟨hgone, -⟩ := sessionStep_cases h
  have hrunning : (s.closed || s.fault.isSome) ≠ true := by simp [hgone]
  cases call with
  | read data =>
      obtain rfl := Option.some.inj hcall
      rw [sessionStep, if_neg hrunning] at h
      split_ifs at h with hread
      obtain rfl := Option.some.inj h
      obtain ⟨n, l', hrun⟩ := handleLoop_rounds env fuel _ _ l (hfault _ hfuel)
      refine ⟨n, l', exec_cons_eq_some.mpr ⟨_, ?_, hrun⟩⟩
      rw [receptionStep, if_neg]
      simpa [hgone] using hread
  | buffered =>
      obtain rfl := Option.some.inj hcall
      rw [sessionStep, if_neg hrunning] at h
      split_ifs at h with hlast
      obtain rfl := Option.some.inj h
      obtain ⟨n, l', hrun⟩ := handleLoop_rounds env fuel _ _ l (hfault _ hfuel)
      refine ⟨n, l', exec_cons_eq_some.mpr ⟨_, ?_, hrun⟩⟩
      rw [receptionStep, if_pos ⟨rfl, hgone.1, hgone.2, hlast⟩]
  | round => cases hcall

end RtBoot
