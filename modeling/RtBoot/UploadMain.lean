import Mathlib.Logic.Function.Basic
import RtBoot.CString
import RtBoot.Flash
import RtBoot.Run

/-!
# The Upload Entry

`wn_main.c` gives the web server the four callbacks of its `/upload` entry: `upload_open`
creates the image file under `/tmp`, `upload_write` appends to it, and `upload_close`
closes it and asks the flash thread to burn it. Which image it is follows from the form
field of the file part (`fw_file`, `uboot_file`, `art_file`, `full_file`); it is chosen
in `upload_open` and used in `upload_close`, and in between it is kept in the file-scope
variable `file_type`, which all sessions share.

The callbacks are modelled as functions of `file_type` and of what the session and the
system answer; `uploadStep` interleaves the callbacks of any number of sessions.

## Main results

* `identity_kept`: in every interleaving in which a file is opened only for one of the
  four fields, and only while no other session has a file open for another field, every
  session that closes with a file open issues the notification of its own field, and no
  session issues another one.
* `art_notified_for_firmware`: two sessions that overlap otherwise do not keep their
  identity.
-/

namespace RtBoot

/-- The requests `upload_close` can make of the flash thread: one of
`board_flash_{firmware,uboot,art,full}_notisfy`, or `board_flash_error_notisfy`. -/
inductive Notice
  | flash (kind : FlashKind)
  | error
  deriving DecidableEq, Repr

/-- What the callbacks call in turn: the file system and the flash thread. -/
inductive UploadCall
  | unlink (path : String)
  | open (path : String)
  | write (fd : ℤ) (data : List UInt8)
  | close (fd : ℤ)
  | notisfy (notice : Notice)
  deriving DecidableEq, Repr

/-! ### The callbacks -/

/-- `get_file_name`: the new `file_type` and the name of the image file for the name entry
of the session. A session without a name entry leaves `file_type` as it is. -/
def getFileName (fileType : ℤ) : Option (List UInt8) → ℤ × Option String
  | none => (fileType, none)
  | some name =>
      if name = ascii "fw_file" then (0, some "firmware.bin")
      else if name = ascii "uboot_file" then (1, some "uboot.bin")
      else if name = ascii "art_file" then (2, some "art.bin")
      else if name = ascii "full_file" then (3, some "full.bin")
      else (-1, none)

/-- What the system answers to `upload_open`: whether the path buffer is allocated, and
what `open` returns. -/
structure OpenAnswer where
  pathAlloc : Bool
  fd : ℤ
  deriving DecidableEq, Repr

/-- How `upload_open` ends: the new `file_type`, the calls made, the descriptor returned,
and whether the session was closed from inside because `open` failed. -/
structure Opened where
  fileType : ℤ
  calls : List UploadCall
  fd : ℤ
  sessionClosed : Bool
  deriving DecidableEq, Repr

/-- `upload_open`, for a session with the given name entry and with or without a file
name. -/
def uploadOpen (fileType : ℤ) (name : Option (List UInt8)) (hasFilename : Bool)
    (answer : OpenAnswer) : Opened :=
  match getFileName fileType name with
  | (fileType', none) => ⟨fileType', [], -1, false⟩
  | (fileType', some file) =>
      if !hasFilename then ⟨fileType', [], -1, false⟩
      else if !answer.pathAlloc then ⟨fileType', [], -1, false⟩
      else
        let calls := [.unlink "/tmp/firmware.bin", .unlink "/tmp/uboot.bin",
          .unlink "/tmp/art.bin", .unlink "/tmp/full.bin", .open ("/tmp/" ++ file)]
        if answer.fd < 0 then ⟨fileType', calls, -1, true⟩
        else ⟨fileType', calls, answer.fd, false⟩

/-- `upload_write`. -/
def uploadWrite (fd : ℤ) (data : List UInt8) : List UploadCall :=
  if fd < 0 then [] else [.write fd data]

/-- The `switch` of `upload_close` on `file_type`. -/
def fileTypeNotice (fileType : ℤ) : Notice :=
  if fileType = 0 then .flash .firmware
  else if fileType = 1 then .flash .uboot
  else if fileType = 2 then .flash .art
  else if fileType = 3 then .flash .full
  else .error

/-- `upload_close`. A session without a descriptor returns before the `switch`. -/
def uploadClose (fileType fd : ℤ) : List UploadCall :=
  if fd < 0 then [] else [.close fd, .notisfy (fileTypeNotice fileType)]

/-! ### What a session asks for -/

/-- The image a form field stands for. -/
def fieldKind (name : List UInt8) : Option FlashKind :=
  if name = ascii "fw_file" then some .firmware
  else if name = ascii "uboot_file" then some .uboot
  else if name = ascii "art_file" then some .art
  else if name = ascii "full_file" then some .full
  else none

/-- The notification a session with this name entry should end with. -/
def ownNotice (name : Option (List UInt8)) : Notice :=
  match name.bind fieldKind with
  | some kind => .flash kind
  | none => .error

/-- `get_file_name` stores the type that `upload_close` turns into the field's own
notification. -/
theorem fileTypeNotice_getFileName (fileType : ℤ) {name : Option (List UInt8)}
    {kind : FlashKind} (h : name.bind fieldKind = some kind) :
    fileTypeNotice (getFileName fileType name).1 = .flash kind := by
  cases name with
  | none => cases h
  | some name =>
      rw [Option.bind_some, fieldKind] at h
      rw [getFileName]
      split_ifs at h ⊢ <;> cases h <;> rfl

theorem uploadOpen_fileType (fileType : ℤ) (name : Option (List UInt8)) (hasFilename : Bool)
    (answer : OpenAnswer) :
    (uploadOpen fileType name hasFilename answer).fileType = (getFileName fileType name).1 := by
  rw [uploadOpen]
  rcases getFileName fileType name with ⟨fileType', _ | file⟩
  · rfl
  · dsimp only
    split_ifs <;> rfl

/-! ### Interleaved sessions -/

variable {σ : Type*} [DecidableEq σ]

/-- A session between its `upload_open` and its `upload_close`. -/
structure Upload where
  name : Option (List UInt8)
  fd : ℤ
  deriving DecidableEq, Repr

/-- A session that has closed, with its descriptor and the calls its `upload_close` made. -/
structure ClosedUpload where
  name : Option (List UInt8)
  fd : ℤ
  calls : List UploadCall
  deriving DecidableEq, Repr

/-- The shared `file_type`, the sessions in progress, those that have closed, and all calls
made so far. -/
structure Uploads (σ : Type*) where
  fileType : ℤ
  session : σ → Option Upload
  closed : List ClosedUpload
  calls : List UploadCall

/-- Before the first upload. -/
def uploadsInit : Uploads σ :=
  ⟨-1, fun _ => none, [], []⟩

/-- One callback of one session. -/
inductive UploadAction (σ : Type*)
  | open (who : σ) (name : Option (List UInt8)) (hasFilename : Bool) (answer : OpenAnswer)
  | write (who : σ) (data : List UInt8)
  | close (who : σ)
  deriving DecidableEq, Repr

/-- A callback is run by the single web server thread, so it is one step. A session whose
`open` failed is gone when `upload_open` returns, and never closes. -/
def uploadStep (s : Uploads σ) : UploadAction σ → Option (Uploads σ)
  | .open who name hasFilename answer =>
      match s.session who with
      | some _ => none
      | none =>
          let r := uploadOpen s.fileType name hasFilename answer
          some { s with
            fileType := r.fileType
            session := Function.update s.session who
              (if r.sessionClosed then none else some ⟨name, r.fd⟩)
            calls := s.calls ++ r.calls }
  | .write who data =>
      (s.session who).map fun u => { s with calls := s.calls ++ uploadWrite u.fd data }
  | .close who =>
      (s.session who).map fun u =>
        { s with
          session := Function.update s.session who none
          closed := s.closed ++ [⟨u.name, u.fd, uploadClose s.fileType u.fd⟩]
          calls := s.calls ++ uploadClose s.fileType u.fd }

/-- A closed session kept its identity: it issued no notification but its own, and it did issue
it if it had a file open, or a field that is not among the four. -/
structure ClosedUpload.KeepsIdentity (c : ClosedUpload) : Prop where
  own : ∀ notice, .notisfy notice ∈ c.calls → notice = ownNotice c.name
  issued : 0 ≤ c.fd ∨ c.name.bind fieldKind = none → .notisfy (ownNotice c.name) ∈ c.calls

/-- The condition on a step: a session opens a file only for one of the four fields, and
only while every other session with an open file has the same field. -/
def OpensAlone (s : Uploads σ) : UploadAction σ → Prop
  | .open _ name _ _ => ∃ kind, name.bind fieldKind = some kind ∧
      ∀ other, ∀ u ∈ s.session other, 0 ≤ u.fd → u.name.bind fieldKind = some kind
  | _ => True

/-- What holds between the steps: every session has one of the four fields, an open file is
one `file_type` stands for, and the closed sessions kept their identity. -/
structure IdentityInv (s : Uploads σ) : Prop where
  known : ∀ who, ∀ u ∈ s.session who, ∃ kind, u.name.bind fieldKind = some kind ∧
    (0 ≤ u.fd → fileTypeNotice s.fileType = .flash kind)
  closed : ∀ c ∈ s.closed, c.KeepsIdentity

omit [DecidableEq σ] in
/-- The invariant holds at the start. -/
theorem identityInv_init : IdentityInv (uploadsInit : Uploads σ) :=
  ⟨fun _ _ h => absurd h (by simp [uploadsInit]), fun _ h => absurd h List.not_mem_nil⟩

/-- Opening alone hands `file_type` over to a field that every open file has. -/
theorem IdentityInv.open {s t : Uploads σ} (h : IdentityInv s) {who : σ}
    {name : Option (List UInt8)} {hasFilename : Bool} {answer : OpenAnswer}
    (hok : OpensAlone s (.open who name hasFilename answer))
    (hstep : uploadStep s (.open who name hasFilename answer) = some t) : IdentityInv t := by
  obtain ⟨kind, hkind, hsame⟩ := hok
  cases hwho : s.session who with
  | some u => simp [uploadStep, hwho] at hstep
  | none =>
      simp only [uploadStep, hwho, Option.some.injEq] at hstep
      subst hstep
      refine ⟨?_, h.closed⟩
      intro other u hu
      dsimp only at hu
      have hnotice := fileTypeNotice_getFileName s.fileType hkind
      rw [← uploadOpen_fileType s.fileType name hasFilename answer] at hnotice
      by_cases hother : other = who
      · subst hother
        rw [Function.update_self] at hu
        split_ifs at hu
        · cases hu
        · obtain rfl := Option.some.inj hu
          exact ⟨kind, hkind, fun _ => hnotice⟩
      · rw [Function.update_of_ne hother] at hu
        obtain ⟨kind', hkind', -⟩ := h.known other u hu
        refine ⟨kind', hkind', ?_⟩
        intro hfd
        obtain rfl : kind' = kind := Option.some.inj (hkind'.symm.trans (hsame other u hu hfd))
        exact hnotice

/-- A session whose file is one `file_type` stands for closes with its own notification. -/
theorem keepsIdentity_uploadClose {fileType : ℤ} {u : Upload} {kind : FlashKind}
    (hkind : u.name.bind fieldKind = some kind)
    (htype : 0 ≤ u.fd → fileTypeNotice fileType = .flash kind) :
    ClosedUpload.KeepsIdentity ⟨u.name, u.fd, uploadClose fileType u.fd⟩ := by
  have hown : ownNotice u.name = .flash kind := by rw [ownNotice, hkind]
  by_cases hfd : u.fd < 0
  · refine ⟨fun notice hmem => ?_, fun h => ?_⟩
    · simp [uploadClose, hfd] at hmem
    · rcases h with h | h
      · exact absurd h (not_le.mpr hfd)
      · cases hkind.symm.trans h
  · have hcalls : uploadClose fileType u.fd = [.close u.fd, .notisfy (.flash kind)] := by
      rw [uploadClose, if_neg hfd, htype (not_lt.mp hfd)]
    constructor
    · intro notice hmem
      rw [hown]
      simpa [hcalls] using hmem
    · intro
      simp [hown, hcalls]

/-- Closing an upload keeps the invariant. -/
theorem IdentityInv.close {s t : Uploads σ} (h : IdentityInv s) {who : σ}
    (hstep : uploadStep s (.close who) = some t) : IdentityInv t := by
  obtain ⟨u, hu, rfl⟩ := Option.map_eq_some_iff.mp hstep
  constructor
  · intro other v hv
    dsimp only at hv
    by_cases hother : other = who
    · subst hother
      rw [Function.update_self] at hv
      cases hv
    · rw [Function.update_of_ne hother] at hv
      exact h.known other v hv
  · intro c hc
    rcases List.mem_append.mp hc with hc | hc
    · exact h.closed c hc
    · obtain rfl := List.mem_singleton.mp hc
      obtain ⟨kind, hkind, htype⟩ := h.known who u hu
      exact keepsIdentity_uploadClose hkind htype

/-- Every step that opens alone preserves the invariant. -/
theorem IdentityInv.step {s t : Uploads σ} {action : UploadAction σ} (hok : OpensAlone s action)
    (h : IdentityInv s) (hstep : uploadStep s action = some t) : IdentityInv t := by
  cases action with
  | «open» who name hasFilename answer => exact h.open hok hstep
  | write who data =>
      obtain ⟨-, -, rfl⟩ := Option.map_eq_some_iff.mp hstep
      exact ⟨h.known, h.closed⟩
  | close who => exact h.close hstep

/-- **Sessions keep their identity as long as files are opened alone.** In every
interleaving in which each file is opened for one of the four fields, while no other session
has a file open for another field, every session that closes with a file open issues the
notification of its own field, and none issues another one. -/
theorem identity_kept {actions : List (UploadAction σ)} {s : Uploads σ}
    (hmeet : StepsMeet uploadStep OpensAlone uploadsInit actions)
    (hrun : exec uploadStep uploadsInit actions = some s) :
    ∀ c ∈ s.closed, c.KeepsIdentity :=
  (exec_invariant IdentityInv.step hmeet identityInv_init hrun).closed

/-- Two sessions, one after the other, each with its own notification. -/
theorem identity_kept_in_turn :
    ∃ s, exec uploadStep (uploadsInit : Uploads Bool)
        [.open false (some (ascii "fw_file")) true ⟨true, 3⟩, .write false [1], .close false,
          .open true (some (ascii "art_file")) true ⟨true, 3⟩, .close true] = some s ∧
      s.closed = [⟨some (ascii "fw_file"), 3, [.close 3, .notisfy (.flash .firmware)]⟩,
        ⟨some (ascii "art_file"), 3, [.close 3, .notisfy (.flash .art)]⟩] ∧
      ∀ c ∈ s.closed, c.KeepsIdentity := by
  obtain ⟨s, hrun, hclosed⟩ : ∃ s ∈ exec uploadStep (uploadsInit : Uploads Bool)
        [.open false (some (ascii "fw_file")) true ⟨true, 3⟩, .write false [1], .close false,
          .open true (some (ascii "art_file")) true ⟨true, 3⟩, .close true],
      s.closed = [⟨some (ascii "fw_file"), 3, [.close 3, .notisfy (.flash .firmware)]⟩,
        ⟨some (ascii "art_file"), 3, [.close 3, .notisfy (.flash .art)]⟩] := by decide
  refine ⟨s, hrun, hclosed, identity_kept ?_ hrun⟩
  exact ⟨⟨.firmware, rfl, fun _ u hu => by cases hu⟩, trivial, trivial,
    ⟨.art, rfl, fun other u hu => by cases other <;> cases hu⟩, trivial, trivial⟩

/-- A session opens its file for the firmware, another one opens its file for the art
partition, then the first one closes: the art partition is notified. A session with an
unknown field closes without the error notification. -/
theorem art_notified_for_firmware :
    (∃ s, exec uploadStep (uploadsInit : Uploads Bool)
        [.open false (some (ascii "fw_file")) true ⟨true, 3⟩,
          .open true (some (ascii "art_file")) true ⟨true, 4⟩, .close false] = some s ∧
      ∃ c ∈ s.closed, ¬ c.KeepsIdentity) ∧
    ∃ s, exec uploadStep (uploadsInit : Uploads Bool)
        [.open false (some (ascii "other")) true ⟨true, 3⟩, .close false] = some s ∧
      ∃ c ∈ s.closed, ¬ c.KeepsIdentity := by
  obtain ⟨s, hrun, hart⟩ : ∃ s ∈ exec uploadStep (uploadsInit : Uploads Bool)
        [.open false (some (ascii "fw_file")) true ⟨true, 3⟩,
          .open true (some (ascii "art_file")) true ⟨true, 4⟩, .close false],
      ⟨some (ascii "fw_file"), 3, [.close 3, .notisfy (.flash .art)]⟩ ∈ s.closed := by decide
  obtain ⟨t, hrun', hsilent⟩ : ∃ s ∈ exec uploadStep (uploadsInit : Uploads Bool)
        [.open false (some (ascii "other")) true ⟨true, 3⟩, .close false],
      ⟨some (ascii "other"), -1, []⟩ ∈ s.closed := by decide
  refine ⟨⟨s, hrun, _, hart, ?_⟩, t, hrun', _, hsilent, ?_⟩
  · intro h
    exact absurd (h.own (.flash .art) (by decide)) (by decide)
  · intro h
    exact absurd (h.issued (.inr (by decide))) (by decide)

end RtBoot
