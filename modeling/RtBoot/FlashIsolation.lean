import Mathlib.Logic.Function.Basic
import RtBoot.Ramfs
import RtBoot.Run
import RtBoot.UploadMain

/-!
# A Flash Job beside Later Uploads

`upload_close` asks the flash thread to burn an image and returns. The flash thread opens
the image file when it gets to it, and reads it in pieces of `0x1000` bytes, programming
each before it reads the next. Meanwhile the web server goes on with other sessions, and
`upload_open` unlinks all four image files before it creates one.

The two threads are interleaved here call by call: the calls of the job, and the calls of
the callbacks of any number of sessions (`RtBoot.UploadMain`), on one ram file system
(`RtBoot.Ramfs`). Once the job has its file open, the descriptor table protects it. Before
that, nothing does: the request names a path, and what stands under it when the job opens
it is what is burnt.

## Main results

* `BurnInv.step`: one call of either thread keeps the job's file, as long as no later
  upload gets at it.
* `job_isolated`: in every such interleaving the job programs the file as it was at the
  notification, and reads nothing that was freed.
* `job_burns_later_upload`: without the condition it burns another session's file.
-/

namespace RtBoot

/-- The file of a request: `open_file`. -/
def imagePath : FlashKind → String
  | .firmware => "/tmp/firmware.bin"
  | .uboot => "/tmp/uboot.bin"
  | .art => "/tmp/art.bin"
  | .full => "/tmp/full.bin"

/-- Where the job is. -/
inductive JobPhase
  | waiting
  | reading (fd : ℤ)
  | writing (fd : ℤ) (buffer : List UInt8)
  | finished
  deriving DecidableEq, Repr

/-- The file system, the web server and the job. `pending` are the calls the running
`upload_open` has still to make, `session` the descriptors of the sessions; `programmed` is
what the job has passed to `sfud_write` so far, and `freedRead` says that it read memory
that was freed. -/
structure BurnState (σ : Type*) where
  fs : Ramfs
  fileType : ℤ
  session : σ → Option ℤ
  pending : List (σ × UploadCall)
  job : JobPhase
  programmed : List UInt8
  freedRead : Bool

/-- A step of one of the threads. `upload_open` starts, or makes its next call (`web`);
`upload_write` and `upload_close` make one call of the file system each. -/
inductive BurnAction (σ : Type*)
  | uploadOpen (who : σ) (name : Option (List UInt8)) (hasFilename pathAlloc : Bool)
  | web (alloc : DfsAlloc)
  | uploadWrite (who : σ) (data : List UInt8) (alloc : DfsAlloc)
  | uploadClose (who : σ)
  | jobOpen (alloc : DfsAlloc)
  | jobRead
  | jobWrite
  deriving DecidableEq, Repr

/-- A call of the web server on the file system, and what it returns. -/
def webCall (fs : Ramfs) (alloc : DfsAlloc) : UploadCall → Option (Ramfs × ℤ)
  | .unlink path => some (fs.unlink path alloc, 0)
  | .open path => some (fs.open path .truncate alloc)
  | .write fd data => (fs.write fd data alloc).map fun fs' => (fs', data.length)
  | .close fd => some (fs.close fd, 0)
  | .notisfy _ => some (fs, 0)

/-- The calls of a callback, one after the other. -/
def webCalls (fs : Ramfs) (alloc : DfsAlloc) (calls : List UploadCall) : Option Ramfs :=
  calls.foldlM (fun fs call => (webCall fs alloc call).map Prod.fst) fs

variable {σ : Type*} {content : List UInt8} {fs fs' : Ramfs} {path q : String} {fd : ℤ}
  {s t : BurnState σ} {kind : FlashKind} {d : DfsFd} {session' : σ → Option ℤ} {alloc : DfsAlloc}
  {who : σ}

/-- One step. The web server runs one callback at a time. -/
def burnStep [DecidableEq σ] (kind : FlashKind) (s : BurnState σ) :
    BurnAction σ → Option (BurnState σ)
  | .uploadOpen who name hasFilename pathAlloc =>
      if s.pending = [] ∧ s.session who = none then
        let r := uploadOpen s.fileType name hasFilename ⟨pathAlloc, -1⟩
        some { s with
          fileType := r.fileType
          session := Function.update s.session who (some (-1))
          pending := r.calls.map fun call => (who, call) }
      else none
  | .web alloc =>
      match s.pending with
      | [] => none
      | (who, call) :: rest =>
          (webCall s.fs alloc call).map fun r =>
            { s with
              fs := r.1
              -- a session whose `open` failed is closed
              session :=
                match call with
                | .open _ => Function.update s.session who (if r.2 < 0 then none else some r.2)
                | _ => s.session
              pending := rest }
  | .uploadWrite who data alloc =>
      if s.pending = [] then
        (s.session who).bind fun fd =>
          (webCalls s.fs alloc (uploadWrite fd data)).map fun fs => { s with fs := fs }
      else none
  | .uploadClose who =>
      if s.pending = [] then
        (s.session who).bind fun fd =>
          (webCalls s.fs .granted (uploadClose s.fileType fd)).map fun fs =>
            { s with fs := fs, session := Function.update s.session who none }
      else none
  | .jobOpen alloc =>
      match s.job with
      | .waiting =>
          let r := s.fs.open (imagePath kind) .readOnly alloc
          some { s with fs := r.1, job := if r.2 < 0 then .finished else .reading r.2 }
      | _ => none
  | .jobRead =>
      match s.job with
      | .reading fd =>
          match s.fs.read fd 0x1000 with
          | (none, fs) => some { s with fs := fs, job := .finished, freedRead := true }
          | (some [], fs) => some { s with fs := fs.close fd, job := .finished }
          | (some buffer, fs) => some { s with fs := fs, job := .writing fd buffer }
      | _ => none
  | .jobWrite =>
      match s.job with
      | .writing fd buffer =>
          some { s with programmed := s.programmed ++ buffer, job := .reading fd }
      | _ => none

/-! ### Isolation -/

/-- The moment of the notification: the request's file is there with its contents, nobody
has it open, and the later sessions have not begun. -/
structure Notified (kind : FlashKind) (content : List UInt8) (s : BurnState σ) : Prop where
  wf : s.fs.WF
  file : ∃ id, s.fs.root (imagePath kind) = some id ∧ s.fs.entry id = some content ∧
    ∀ n d, s.fs.fds n = some d → d.path ≠ imagePath kind ∧ d.dirent ≠ id
  sessions : ∀ who, s.session who = none
  idle : s.pending = []
  waiting : s.job = .waiting
  programmed : s.programmed = []
  clean : s.freedRead = false

/-- **Isolation.** What the job has programmed is the beginning of the contents, all of
them when it has finished, and it has not read freed memory. -/
structure Isolated (content : List UInt8) (s : BurnState σ) : Prop where
  begins : s.programmed <+: content
  complete : s.job = .finished → s.programmed = content
  clean : s.freedRead = false

/-- The path a call of `upload_open` is about. -/
def UploadCall.path? : UploadCall → Option String
  | .unlink path => some path
  | .open path => some path
  | _ => none

/-- The descriptor has been read to its end. -/
def Ramfs.allRead (fs : Ramfs) (fd : ℤ) : Bool :=
  (fs.fds fd).all fun d => d.pos == d.size

/-- A call on the job's path leaves the job alone: before the job has opened its file only
a call that fails for lack of memory does, afterwards every call whose check for open
descriptors is made, or that comes when the file has been read. -/
def jobSpared (s : BurnState σ) (alloc : DfsAlloc) : Bool :=
  match s.job with
  | .waiting => alloc == .refused
  | .reading fd => alloc != .unchecked || s.fs.allRead fd
  | .writing fd _ => alloc != .unchecked || s.fs.allRead fd
  | .finished => true

/-- The condition on a step: a call of `upload_open` on the job's path leaves the job alone,
and the job's own `open` gets its memory and a descriptor. -/
def LeavesJobAlone (kind : FlashKind) (s : BurnState σ) : BurnAction σ → Prop
  | .web alloc =>
      (s.pending.head?.bind fun c => c.2.path?) = some (imagePath kind) →
        jobSpared s alloc = true
  | .jobOpen alloc => alloc ≠ .refused ∧ s.fs.fdAlloc.isSome
  | _ => True

instance (kind : FlashKind) (s : BurnState σ) : ∀ a, Decidable (LeavesJobAlone kind s a)
  | .web _ => inferInstanceAs (Decidable (_ → _))
  | .jobOpen _ => inferInstanceAs (Decidable (_ ∧ _))
  | .uploadOpen _ _ _ _ => .isTrue trivial
  | .uploadWrite _ _ _ => .isTrue trivial
  | .uploadClose _ => .isTrue trivial
  | .jobRead => .isTrue trivial
  | .jobWrite => .isTrue trivial

/-! ### The job's file -/

/-- Before the job has opened it: the file stands under its path, and no descriptor is on
it. -/
structure FileAt (fs : Ramfs) (path : String) (content : List UInt8) (id : ℕ) : Prop where
  root : fs.root path = some id
  entry : fs.entry id = some content
  closed : ∀ n d, fs.fds n = some d → d.path ≠ path ∧ d.dirent ≠ id

theorem FileAt.spares {id : ℕ} (h : FileAt fs path content id) (hs : fs.Spares fs' path id) :
    FileAt fs' path content id := by
  refine ⟨hs.root.trans h.root, hs.entry.trans h.entry, ?_⟩
  intro n d hd
  constructor
  · intro hp
    obtain ⟨d', hd', hp'⟩ := hs.paths n d hd hp
    exact (h.closed n d' hd').1 hp'
  · intro hid
    exact (h.closed n d (hs.opens n d hd hid)).2 hid

/-- No other name stands for the file. -/
theorem FileAt.only {id : ℕ}
    (h : FileAt fs path content id) (hwf : fs.WF) (q : String) (hq : fs.root q = some id) :
    q = path :=
  hwf.root_inj q path id hq h.root

/-- While the job has it open with bytes left to read: the entry is live with its contents,
the job's descriptor is the only one on it, and no other name stands for it. -/
structure EntryHeld (fs : Ramfs) (path : String) (content : List UInt8) (fd : ℤ) (id : ℕ) :
    Prop where
  entry : fs.entry id = some content
  alone : ∀ n d, fs.fds n = some d → d.dirent = id → n = fd
  only : ∀ q, fs.root q = some id → q = path

theorem EntryHeld.spares
    {id : ℕ} (h : EntryHeld fs path content fd id) (hs : fs.Spares fs' path id) :
    EntryHeld fs' path content fd id :=
  ⟨hs.entry.trans h.entry, fun n d hd hid => h.alone n d (hs.opens n d hd hid) hid,
    fun q hq => h.only q (hs.only q hq)⟩

/-- The job's descriptor `d`, number `fd`, on its file. -/
structure Holding (fs : Ramfs) (session : σ → Option ℤ) (path : String)
    (content : List UInt8) (fd : ℤ) (d : DfsFd) : Prop where
  fd_eq : fs.fds fd = some d
  path_eq : d.path = path
  size_eq : d.size = content.length
  pos_le : d.pos ≤ d.size
  unshared : ∀ who, session who ≠ some fd
  held : d.pos < d.size → EntryHeld fs path content fd d.dirent

/-- What holds of the job in each phase. -/
def JobInv (path : String) (content : List UInt8) (s : BurnState σ) : Prop :=
  match s.job with
  | .waiting => s.programmed = [] ∧ ∃ id, FileAt s.fs path content id
  | .reading fd => ∃ d, Holding s.fs s.session path content fd d ∧
      s.programmed = content.take d.pos
  | .writing fd buffer => ∃ d, Holding s.fs s.session path content fd d ∧
      s.programmed ++ buffer = content.take d.pos
  | .finished => s.programmed = content

/-- The descriptors of the sessions are in the table, each belongs to one session, and the
calls `upload_open` has still to make are `unlink` and `open`. -/
structure SessionInv (s : BurnState σ) : Prop where
  wf : s.fs.WF
  taken : ∀ who n, s.session who = some n → 0 ≤ n → (s.fs.fds n).isSome
  own : ∀ who who' n, s.session who = some n → s.session who' = some n → 0 ≤ n → who = who'
  calls : ∀ c ∈ s.pending, (∃ path, c.2 = .unlink path) ∨ ∃ path, c.2 = .open path

/-- What holds between the steps. -/
structure BurnInv (kind : FlashKind) (content : List UInt8) (s : BurnState σ) : Prop where
  sessions : SessionInv s
  job : JobInv (imagePath kind) content s
  clean : s.freedRead = false

theorem Notified.burnInv (h : Notified kind content s) : BurnInv kind content s := by
  refine ⟨⟨h.wf, ?_, ?_, ?_⟩, ?_, h.clean⟩
  · intro who n hn
    exact absurd hn (by simp [h.sessions who])
  · intro who who' n hn
    exact absurd hn (by simp [h.sessions who])
  · intro c hc
    exact absurd hc (by simp [h.idle])
  · obtain ⟨id, hroot, hentry, hclosed⟩ := h.file
    simp only [JobInv, h.waiting]
    exact ⟨h.programmed, id, hroot, hentry, hclosed⟩

/-! ### Steps of the web server -/

/-- A step that spares what the job still needs of its file keeps the job's descriptor. -/
theorem Holding.frame {session : σ → Option ℤ} (h : Holding fs session path content fd d)
    (hfd : fs'.fds fd = some d) (hsession : ∀ who, session' who ≠ some fd)
    (hspares : d.pos < d.size → fs.Spares fs' path d.dirent) :
    Holding fs' session' path content fd d :=
  ⟨hfd, h.path_eq, h.size_eq, h.pos_le, hsession, fun hlt => (h.held hlt).spares (hspares hlt)⟩

/-- A step of the web server keeps what holds of the job when it spares the file the job
has not opened yet, and the descriptor of a job that has. -/
theorem JobInv.frame
    (h : JobInv path content s) (hjob : t.job = s.job) (hprog : t.programmed = s.programmed)
    (hwait : s.job = .waiting → ∀ id, FileAt s.fs path content id → s.fs.Spares t.fs path id)
    (hhold : ∀ fd d, (s.job = .reading fd ∨ ∃ buffer, s.job = .writing fd buffer) →
      Holding s.fs s.session path content fd d → Holding t.fs t.session path content fd d) :
    JobInv path content t := by
  unfold JobInv at h ⊢
  rw [hjob, hprog]
  cases hphase : s.job with
  | waiting =>
      rw [hphase] at h
      obtain ⟨hempty, id, hfile⟩ := h
      exact ⟨hempty, id, hfile.spares (hwait hphase id hfile)⟩
  | reading fd =>
      rw [hphase] at h
      obtain ⟨d, hd, hcontent⟩ := h
      exact ⟨d, hhold fd d (.inl hphase) hd, hcontent⟩
  | writing fd buffer =>
      rw [hphase] at h
      obtain ⟨d, hd, hcontent⟩ := h
      exact ⟨d, hhold fd d (.inr ⟨buffer, hphase⟩) hd, hcontent⟩
  | finished =>
      rw [hphase] at h
      exact h

/-- What the condition says of a call on the job's path, before and after its `open`. -/
theorem jobSpared_cases (h : jobSpared s alloc = true) :
    (s.job = .waiting → alloc = .refused) ∧
      ∀ fd d, (s.job = .reading fd ∨ ∃ buffer, s.job = .writing fd buffer) →
        s.fs.fds fd = some d → alloc ≠ .unchecked ∨ d.pos = d.size := by
  unfold jobSpared at h
  constructor
  · intro hphase
    rw [hphase] at h
    simpa using h
  · rintro fd d (hphase | ⟨buffer, hphase⟩) hd
    all_goals
      rw [hphase] at h
      simpa [Ramfs.allRead, hd] using h

/-- A call on the path of a file that the job is still reading finds it open, and checks that. -/
theorem Holding.guarded (hd : Holding s.fs s.session path content fd d) (hwf : s.fs.WF)
    (hspared : jobSpared s alloc = true)
    (hphase : s.job = .reading fd ∨ ∃ buffer, s.job = .writing fd buffer) (hlt : d.pos < d.size) :
    s.fs.fdIsOpen path = true ∧ alloc ≠ .unchecked := by
  constructor
  · rw [← hd.path_eq]
    exact hwf.fdIsOpen hd.fd_eq
  · rcases (jobSpared_cases hspared).2 fd d hphase hd.fd_eq with hne | heq
    · exact hne
    · omega

/-- `unlink` in `upload_open` keeps what holds of the job. -/
theorem JobInv.unlink (h : JobInv path content s) (hwf : s.fs.WF)
    (hok : q = path → jobSpared s alloc = true)
    (hfs : t.fs = s.fs.unlink q alloc) (hsession : t.session = s.session)
    (hjob : t.job = s.job) (hprog : t.programmed = s.programmed) : JobInv path content t := by
  refine h.frame hjob hprog ?_ ?_
  · intro hphase id hfile
    rw [hfs]
    by_cases hq : q = path
    · have hrefused := (jobSpared_cases (hok hq)).1 hphase
      rw [Ramfs.unlink, if_pos hrefused]
      exact .refl _ _ _
    · exact Ramfs.spares_unlink hq (hfile.only hwf) alloc
  · intro fd d hphase hd
    refine hd.frame (by rw [hfs, Ramfs.unlink_fds, hd.fd_eq])
      (by rw [hsession]; exact hd.unshared) ?_
    intro hlt
    rw [hfs]
    by_cases hq : q = path
    · obtain ⟨hopen, hchecked⟩ := hd.guarded hwf (hok hq) hphase hlt
      rw [hq, Ramfs.unlink_of_isOpen hopen hchecked]
      exact .refl _ _ _
    · exact Ramfs.spares_unlink hq (hd.held hlt).only alloc

/-- `open` leaves the descriptors in use, and hands out the number of none of them. -/
theorem Ramfs.open_keeps_fd (hwf : fs.WF)
    (hd : fs.fds fd = some d) (q : String) (mode : OpenMode) (alloc : DfsAlloc) :
    (fs.open q mode alloc).1.fds fd = some d ∧ (fs.open q mode alloc).2 ≠ fd := by
  rcases fs.open_fds q mode alloc with heq | ⟨n, e, hfree, -, hn, heq⟩
  · have hmem := hwf.table fd d hd
    rw [heq]
    refine ⟨hd, ?_⟩
    rintro rfl
    exact absurd hmem (by simp [fdNumbers])
  · have hne : fd ≠ n := by
      rintro rfl
      exact absurd hd (by simp [hfree])
    rw [heq, hn, Function.update_of_ne hne]
    exact ⟨hd, hne.symm⟩

/-- `open` in `upload_open` keeps what holds of the job. -/
theorem JobInv.open [DecidableEq σ] (h : JobInv path content s) (hwf : s.fs.WF)
    (hok : q = path → jobSpared s alloc = true) (hfs : t.fs = (s.fs.open q .truncate alloc).1)
    (hsession : t.session = Function.update s.session who
      (if (s.fs.open q .truncate alloc).2 < 0 then none
       else some (s.fs.open q .truncate alloc).2))
    (hjob : t.job = s.job) (hprog : t.programmed = s.programmed) : JobInv path content t := by
  refine h.frame hjob hprog ?_ ?_
  · intro hphase id hfile
    rw [hfs]
    by_cases hq : q = path
    · have hrefused := (jobSpared_cases (hok hq)).1 hphase
      rw [Ramfs.open, if_pos hrefused]
      exact .refl _ _ _
    · exact Ramfs.spares_open hq (hwf.root_lt path id hfile.root) (hfile.only hwf) _ alloc
  · intro fd d hphase hd
    -- the number handed out is not the job's
    obtain ⟨hkept, hne⟩ := Ramfs.open_keeps_fd hwf hd.fd_eq q .truncate alloc
    refine hd.frame (hfs ▸ hkept) ?_ ?_
    · intro other
      rw [hsession]
      by_cases hother : other = who
      · subst hother
        rw [Function.update_self]
        split
        · simp
        · simpa using hne
      · rw [Function.update_of_ne hother]
        exact hd.unshared other
    · intro hlt
      rw [hfs]
      by_cases hq : q = path
      · obtain ⟨hopen, hchecked⟩ := hd.guarded hwf (hok hq) hphase hlt
        rw [hq, Ramfs.open_of_isOpen hopen hchecked]
        exact .refl _ _ _
      · exact Ramfs.spares_open hq (hwf.dirent_lt fd d hd.fd_eq) (hd.held hlt).only _ alloc

/-- The calls `upload_open` makes are `unlink` and `open`. -/
theorem uploadOpen_calls {fileType : ℤ} {name : Option (List UInt8)} {hasFilename : Bool}
    {answer : OpenAnswer} {call : UploadCall}
    (h : call ∈ (uploadOpen fileType name hasFilename answer).calls) :
    (∃ path, call = .unlink path) ∨ ∃ path, call = .open path := by
  rw [uploadOpen] at h
  rcases hname : getFileName fileType name with ⟨fileType', _ | file⟩
  · rw [hname] at h
    exact absurd h List.not_mem_nil
  · rw [hname] at h
    dsimp only at h
    split_ifs at h
    · exact absurd h List.not_mem_nil
    · exact absurd h List.not_mem_nil
    all_goals
      simp only [List.mem_cons, List.not_mem_nil, or_false] at h
      rcases h with rfl | rfl | rfl | rfl | rfl
      all_goals first | exact .inl ⟨_, rfl⟩ | exact .inr ⟨_, rfl⟩

/-- What `upload_write` does to the file system. -/
theorem webCalls_uploadWrite (fs : Ramfs) (alloc : DfsAlloc) (fd : ℤ) (data : List UInt8) :
    webCalls fs alloc (uploadWrite fd data) =
      if fd < 0 then some fs else fs.write fd data alloc := by
  by_cases h : fd < 0 <;> simp [webCalls, uploadWrite, webCall, h, Function.comp_def]

/-- What `upload_close` does to the file system. -/
theorem webCalls_uploadClose (fs : Ramfs) (alloc : DfsAlloc) (fileType fd : ℤ) :
    webCalls fs alloc (uploadClose fileType fd) =
      some (if fd < 0 then fs else fs.close fd) := by
  by_cases h : fd < 0 <;> simp [webCalls, uploadClose, webCall, h]

/-- A number a session has is not the job's, so no descriptor under it is on the file. -/
theorem BurnInv.other (h : BurnInv kind content s) (hwho : s.session who = some fd)
    (hspares : ∀ id, (∀ d, s.fs.fds fd = some d → d.dirent ≠ id) →
      s.fs.Spares fs' (imagePath kind) id)
    (hfds : ∀ n, n ≠ fd → fs'.fds n = s.fs.fds n)
    (hsession : ∀ other n, session' other = some n → s.session other = some n) :
    JobInv (imagePath kind) content { s with fs := fs', session := session' } := by
  refine h.job.frame rfl rfl ?_ ?_
  · intro _ id hfile
    exact hspares id fun d hd => (hfile.closed fd d hd).2
  · intro fd' d _ hd
    have hne : fd' ≠ fd := by
      rintro rfl
      exact hd.unshared who hwho
    refine hd.frame ((hfds fd' hne).trans hd.fd_eq) ?_ ?_
    · intro other hother
      exact hd.unshared other (hsession other fd' hother)
    · intro hlt
      refine hspares d.dirent ?_
      intro d' hd' hid
      exact hne ((hd.held hlt).alone fd d' hd' hid).symm

/-- A number that was free is no session's. -/
theorem SessionInv.ne_of_free (h : SessionInv s) {m n : ℤ}
    (hfree : s.fs.fds n = none) (hm : s.session who = some m) (hpos : 0 ≤ m) : m ≠ n := by
  rintro rfl
  have htaken := h.taken who m hm hpos
  simp [hfree] at htaken

/-- Moving the position of the job's descriptor keeps the tables and the sessions. -/
theorem SessionInv.seek (h : SessionInv s) (hd : s.fs.fds fd = some d) (pos : ℕ) (job : JobPhase) :
    SessionInv { s with
      fs := { s.fs with fds := Function.update s.fs.fds fd (some { d with pos := pos }) }
      job := job } := by
  refine ⟨h.wf.addFd (d := { d with pos := pos }) (h.wf.table fd d hd) (h.wf.dirent_lt fd d hd) _,
    ?_, h.own, h.calls⟩
  intro who n hn hpos
  by_cases hnfd : n = fd
  · subst hnfd
    simp
  · simpa [Function.update_of_ne hnfd] using h.taken who n hn hpos

variable [DecidableEq σ]

/-- The start of `upload_open` changes neither the file system nor a descriptor. -/
theorem BurnInv.startOpen (h : BurnInv kind content s) {name : Option (List UInt8)}
    {hasFilename pathAlloc : Bool}
    (hstep : burnStep kind s (.uploadOpen who name hasFilename pathAlloc) = some t) :
    BurnInv kind content t := by
  simp only [burnStep, Option.ite_none_right_eq_some, Option.some.injEq] at hstep
  obtain ⟨-, rfl⟩ := hstep
  have hsession : ∀ other n, Function.update s.session who (some (-1)) other = some n →
      0 ≤ n → s.session other = some n := by
    intro other n hn hpos
    by_cases hother : other = who
    · subst hother
      obtain rfl : -1 = n := by simpa using hn
      exact absurd hpos (by decide)
    · simpa [Function.update_of_ne hother] using hn
  refine ⟨⟨h.sessions.wf, ?_, ?_, ?_⟩, ?_, h.clean⟩
  · intro other n hn hpos
    exact h.sessions.taken other n (hsession other n hn hpos) hpos
  · intro other other' n hn hn' hpos
    exact h.sessions.own other other' n (hsession other n hn hpos) (hsession other' n hn' hpos) hpos
  · rintro ⟨_, call⟩ hc
    obtain ⟨call', hcall, heq⟩ := List.mem_map.mp hc
    obtain ⟨-, rfl⟩ := Prod.mk.inj heq
    exact uploadOpen_calls hcall
  · refine h.job.frame rfl rfl (fun _ id _ => .refl _ _ _) ?_
    intro fd d _ hd
    refine hd.frame hd.fd_eq ?_ (fun _ => .refl _ _ _)
    intro other hother
    have hpos := nonneg_of_mem_fdNumbers (h.sessions.wf.table fd d hd.fd_eq)
    exact hd.unshared other (hsession other fd hother hpos)

/-- Which numbers the sessions have after one of them has called `open`: the number handed
out, which was free, and those they had. -/
theorem SessionInv.session_open (h : SessionInv s) (hopen : s.fs.open q .truncate alloc = (fs, fd))
    {other : σ} {n : ℤ}
    (hn : Function.update s.session who (if fd < 0 then none else some fd) other = some n)
    (hpos : 0 ≤ n) :
    (other = who ∧ (fs.fds n).isSome ∧ s.fs.fds n = none) ∨
      (s.session other = some n ∧ (fs.fds n).isSome ∧ (s.fs.fds n).isSome) := by
  have hfds := s.fs.open_fds q .truncate alloc
  rw [hopen] at hfds
  dsimp only at hfds
  by_cases hother : other = who
  · subst hother
    rw [Function.update_self] at hn
    split_ifs at hn with hneg
    obtain rfl : fd = n := Option.some.inj hn
    rcases hfds with heq | ⟨m, e, hfree, -, rfl, heq⟩
    · exact absurd (Prod.mk.inj heq).2 (by omega)
    · exact .inl ⟨rfl, by simp [heq], hfree⟩
  · rw [Function.update_of_ne hother] at hn
    have htaken := h.taken other n hn hpos
    rcases hfds with heq | ⟨m, e, hfree, -, -, heq⟩
    · rw [(Prod.mk.inj heq).1]
      exact .inr ⟨hn, htaken, htaken⟩
    · refine .inr ⟨hn, ?_, htaken⟩
      simpa [heq, Function.update_of_ne (h.ne_of_free hfree hn hpos)] using htaken

/-- An `open` of the web server keeps the tables and the sessions. -/
theorem SessionInv.open (h : SessionInv s) (hopen : s.fs.open q .truncate alloc = (fs, fd))
    (who : σ) {rest : List (σ × UploadCall)}
    (hcalls : ∀ c ∈ rest, (∃ path, c.2 = .unlink path) ∨ ∃ path, c.2 = .open path) :
    SessionInv { s with
      fs := fs
      session := Function.update s.session who (if fd < 0 then none else some fd)
      pending := rest } := by
  refine ⟨?_, ?_, ?_, hcalls⟩
  · have hwf := h.wf.open q .truncate alloc
    rwa [hopen] at hwf
  · intro other n hn hpos
    rcases h.session_open hopen hn hpos with ⟨-, hsome, -⟩ | ⟨-, hsome, -⟩ <;> exact hsome
  · intro other other' n hn hn' hpos
    rcases h.session_open hopen hn hpos with ⟨rfl, -, hfree⟩ | ⟨hold, -, htaken⟩
    · rcases h.session_open hopen hn' hpos with ⟨rfl, -, -⟩ | ⟨-, -, htaken⟩
      · rfl
      · simp [hfree] at htaken
    · rcases h.session_open hopen hn' hpos with ⟨rfl, -, hfree⟩ | ⟨hold', -, -⟩
      · simp [hfree] at htaken
      · exact h.own other other' n hold hold' hpos

/-- A call of `upload_open` that leaves the job alone keeps the invariant. -/
theorem BurnInv.web (h : BurnInv kind content s) (hok : LeavesJobAlone kind s (.web alloc))
    (hstep : burnStep kind s (.web alloc) = some t) : BurnInv kind content t := by
  cases hpending : s.pending with
  | nil => simp [burnStep, hpending] at hstep
  | cons c rest =>
      obtain ⟨who, call⟩ := c
      simp only [burnStep, hpending, Option.map_eq_some_iff] at hstep
      obtain ⟨⟨fs, fd⟩, hcall, rfl⟩ := hstep
      have hcalls : ∀ c ∈ rest, (∃ path, c.2 = .unlink path) ∨ ∃ path, c.2 = .open path :=
        fun c hc => h.sessions.calls c (hpending ▸ List.mem_cons_of_mem _ hc)
      have hok' : ∀ q, call.path? = some q → q = imagePath kind → jobSpared s alloc = true := by
        rintro q hq rfl
        exact hok (by simp [hpending, hq])
      rcases h.sessions.calls (who, call) (hpending ▸ List.mem_cons_self) with
        ⟨q, hq⟩ | ⟨q, hq⟩
      · obtain rfl : call = .unlink q := hq
        obtain ⟨rfl, rfl⟩ := Prod.mk.inj (Option.some.inj hcall)
        refine ⟨⟨h.sessions.wf.unlink q alloc, ?_, h.sessions.own, hcalls⟩, ?_, h.clean⟩
        · simpa using h.sessions.taken
        · exact h.job.unlink h.sessions.wf (hok' q rfl) rfl rfl rfl rfl
      · obtain rfl : call = .open q := hq
        obtain hopen : s.fs.open q .truncate alloc = (fs, fd) := Option.some.inj hcall
        have hfs : fs = (s.fs.open q .truncate alloc).1 := by rw [hopen]
        have hfd : fd = (s.fs.open q .truncate alloc).2 := by rw [hopen]
        refine ⟨h.sessions.open hopen who hcalls, ?_, h.clean⟩
        exact h.job.open h.sessions.wf (hok' q rfl) hfs (by rw [← hfd]) rfl rfl

/-- The write of a later upload keeps the invariant. -/
theorem BurnInv.write (h : BurnInv kind content s) {data : List UInt8}
    (hstep : burnStep kind s (.uploadWrite who data alloc) = some t) :
    BurnInv kind content t := by
  simp only [burnStep, Option.ite_none_right_eq_some, Option.bind_eq_some_iff,
    Option.map_eq_some_iff] at hstep
  obtain ⟨-, fd, hwho, fs, hcalls, rfl⟩ := hstep
  rw [webCalls_uploadWrite] at hcalls
  split_ifs at hcalls with hneg
  · obtain rfl : s.fs = fs := Option.some.inj hcalls
    exact h
  · have hw : s.fs.write fd data alloc = some fs := hcalls
    refine ⟨⟨h.sessions.wf.write hw, ?_, h.sessions.own, h.sessions.calls⟩, ?_, h.clean⟩
    · intro other n hn hpos
      exact (Ramfs.write_fds hw n).2 (h.sessions.taken other n hn hpos)
    · exact h.other hwho (fun id hother => Ramfs.spares_write hother hw)
        (fun n => (Ramfs.write_fds hw n).1) (fun _ _ hn => hn)

/-- The end of a later upload keeps the invariant. -/
theorem BurnInv.close (h : BurnInv kind content s)
    (hstep : burnStep kind s (.uploadClose who) = some t) : BurnInv kind content t := by
  simp only [burnStep, Option.ite_none_right_eq_some, Option.bind_eq_some_iff,
    Option.map_eq_some_iff] at hstep
  obtain ⟨-, fd, hwho, fs, hcalls, rfl⟩ := hstep
  have hsession : ∀ other n, Function.update s.session who none other = some n →
      other ≠ who ∧ s.session other = some n := by
    intro other n hn
    by_cases hother : other = who
    · subst hother
      simp at hn
    · exact ⟨hother, by simpa [Function.update_of_ne hother] using hn⟩
  have hfs : fs = s.fs ∨ fs = s.fs.close fd := by
    rw [webCalls_uploadClose, Option.some.injEq] at hcalls
    split_ifs at hcalls
    · exact .inl hcalls.symm
    · exact .inr hcalls.symm
  have hwf : fs.WF := by
    rcases hfs with rfl | rfl
    · exact h.sessions.wf
    · exact h.sessions.wf.close fd
  have hfds : ∀ n, n ≠ fd → fs.fds n = s.fs.fds n := by
    intro n hn
    rcases hfs with rfl | rfl
    · rfl
    · exact Function.update_of_ne hn _ _
  refine ⟨⟨hwf, ?_, ?_, h.sessions.calls⟩, ?_, h.clean⟩
  · intro other n hn hpos
    obtain ⟨hne, hn⟩ := hsession other n hn
    have hfd : n ≠ fd := by
      rintro rfl
      exact hne (h.sessions.own other who n hn hwho hpos)
    rw [hfds n hfd]
    exact h.sessions.taken other n hn hpos
  · intro other other' n hn hn' hpos
    exact h.sessions.own other other' n (hsession other n hn).2 (hsession other' n hn').2 hpos
  · refine h.other hwho ?_ hfds (fun other n hn => (hsession other n hn).2)
    intro id hother
    rcases hfs with rfl | rfl
    · exact .refl _ _ _
    · exact Ramfs.spares_close hother

/-! ### Steps of the job -/

/-- A job that gets its descriptor has it on the file of the notification. -/
theorem BurnInv.jobOpen (h : BurnInv kind content s) (hok : LeavesJobAlone kind s (.jobOpen alloc))
    (hstep : burnStep kind s (.jobOpen alloc) = some t) : BurnInv kind content t := by
  obtain ⟨hrefused, hfree⟩ := hok
  obtain ⟨n, hn⟩ := Option.isSome_iff_exists.mp hfree
  obtain ⟨hnone, hmem⟩ := Ramfs.fdAlloc_eq_some hn
  have hjob := h.job
  unfold JobInv at hjob
  cases hphase : s.job with
  | waiting =>
      rw [hphase] at hjob
      obtain ⟨hprog, id, hfile⟩ := hjob
      have hclosed : s.fs.fdIsOpen (imagePath kind) = false := by
        simp only [Ramfs.fdIsOpen, List.any_eq_false]
        intro m _
        cases hm : s.fs.fds m with
        | none => simp
        | some d => simpa using (hfile.closed m d hm).1
      have hopen : s.fs.open (imagePath kind) .readOnly alloc = ({ s.fs with
          fds := Function.update s.fs.fds n
            (some ⟨imagePath kind, id, content.length, 0⟩) }, n) := by
        simp [Ramfs.open, hrefused, hn, hclosed, hfile.root, hfile.entry]
      have hpos : ¬ n < 0 := Int.not_lt.mpr (nonneg_of_mem_fdNumbers hmem)
      simp only [burnStep, hphase, hopen, if_neg hpos, Option.some.injEq] at hstep
      subst hstep
      refine ⟨⟨?_, ?_, h.sessions.own, h.sessions.calls⟩, ?_, h.clean⟩
      · exact h.sessions.wf.addFd hmem (h.sessions.wf.root_lt _ id hfile.root) _
      · intro who m hm hpos
        have hne := h.sessions.ne_of_free hnone hm hpos
        simpa [Function.update_of_ne hne] using h.sessions.taken who m hm hpos
      · refine ⟨_, ⟨Function.update_self _ _ _, rfl, rfl, Nat.zero_le _, ?_, ?_⟩, by simp [hprog]⟩
        · intro who hwho
          exact h.sessions.ne_of_free hnone hwho (by omega) rfl
        · intro _
          refine ⟨hfile.entry, ?_, hfile.only h.sessions.wf⟩
          intro m d hd hid
          by_contra hne
          exact (hfile.closed m d (by simpa [Function.update_of_ne hne] using hd)).2 hid
  | reading fd => simp [burnStep, hphase] at hstep
  | writing fd buffer => simp [burnStep, hphase] at hstep
  | finished => simp [burnStep, hphase] at hstep

/-- A read of the job gets the next bytes of the file, or finds that there are none left. -/
theorem BurnInv.jobRead (h : BurnInv kind content s) (hstep : burnStep kind s .jobRead = some t) :
    BurnInv kind content t := by
  have hjob := h.job
  unfold JobInv at hjob
  cases hphase : s.job with
  | reading fd =>
      rw [hphase] at hjob
      obtain ⟨d, hd, hprog⟩ := hjob
      have hread := Ramfs.read_eq hd.fd_eq hd.size_eq (fun hlt => (hd.held hlt).entry) 0x1000
      have hseek := h.sessions.seek hd.fd_eq
        (d.pos + ((content.drop d.pos).take 0x1000).length)
      have hsize := hd.size_eq
      have hpos := hd.pos_le
      simp only [burnStep, hphase, hread] at hstep
      cases hchunk : (content.drop d.pos).take 0x1000 with
      | nil =>
          -- nothing left: the whole file has been programmed
          have hend : content.length ≤ d.pos := by
            have hlen := congrArg List.length hchunk
            rw [List.length_take, List.length_drop, List.length_nil] at hlen
            omega
          rw [hchunk] at hstep hseek
          obtain rfl := Option.some.inj hstep
          have hclosed := hseek .finished
          refine ⟨⟨hclosed.wf.close fd, ?_, hclosed.own, hclosed.calls⟩, ?_, h.clean⟩
          · intro who n hn hpos
            have hne : n ≠ fd := by
              rintro rfl
              exact hd.unshared who hn
            have htaken := hclosed.taken who n hn hpos
            simpa [Ramfs.close, Function.update_of_ne hne] using htaken
          · change s.programmed = content
            rw [hprog, List.take_of_length_le hend]
      | cons b rest =>
          rw [hchunk] at hstep hseek
          obtain rfl := Option.some.inj hstep
          refine ⟨hseek _, ?_, h.clean⟩
          refine ⟨_, ⟨Function.update_self _ _ _, hd.path_eq, hd.size_eq, ?_, hd.unshared, ?_⟩, ?_⟩
          · change d.pos + (b :: rest).length ≤ d.size
            rw [← hchunk, List.length_take, List.length_drop]
            omega
          · intro hlt
            have hheld := hd.held (by
              change d.pos + (b :: rest).length < d.size at hlt
              omega)
            refine ⟨hheld.entry, ?_, hheld.only⟩
            intro n e he hid
            by_contra hne
            exact hne (hheld.alone n e (by simpa [Function.update_of_ne hne] using he) hid)
          · change s.programmed ++ b :: rest = content.take (d.pos + (b :: rest).length)
            rw [hprog, ← hchunk, List.take_add, List.length_take, ← List.take_take,
              List.take_length]
  | waiting => simp [burnStep, hphase] at hstep
  | writing fd buffer => simp [burnStep, hphase] at hstep
  | finished => simp [burnStep, hphase] at hstep

/-- What the job programs is what it has read. -/
theorem BurnInv.jobWrite (h : BurnInv kind content s) (hstep : burnStep kind s .jobWrite = some t) :
    BurnInv kind content t := by
  have hjob := h.job
  unfold JobInv at hjob
  cases hphase : s.job with
  | writing fd buffer =>
      rw [hphase] at hjob
      simp only [burnStep, hphase, Option.some.injEq] at hstep
      subst hstep
      obtain ⟨d, hd, hprog⟩ := hjob
      exact ⟨⟨h.sessions.wf, h.sessions.taken, h.sessions.own, h.sessions.calls⟩,
        ⟨d, hd, hprog⟩, h.clean⟩
  | waiting => simp [burnStep, hphase] at hstep
  | reading fd => simp [burnStep, hphase] at hstep
  | finished => simp [burnStep, hphase] at hstep

/-- Every step that leaves the job alone keeps the invariant. -/
theorem BurnInv.step {a : BurnAction σ} (hok : LeavesJobAlone kind s a) (h : BurnInv kind content s)
    (hstep : burnStep kind s a = some t) : BurnInv kind content t := by
  cases a with
  | uploadOpen who name hasFilename pathAlloc => exact h.startOpen hstep
  | web alloc => exact h.web hok hstep
  | uploadWrite who data alloc => exact h.write hstep
  | uploadClose who => exact h.close hstep
  | jobOpen alloc => exact h.jobOpen hok hstep
  | jobRead => exact h.jobRead hstep
  | jobWrite => exact h.jobWrite hstep

omit [DecidableEq σ] in
/-- In every phase the job has programmed a beginning of the file. -/
theorem BurnInv.isolated (h : BurnInv kind content s) : Isolated content s := by
  have hjob := h.job
  unfold JobInv at hjob
  cases hphase : s.job with
  | waiting =>
      rw [hphase] at hjob
      exact ⟨by simp [hjob.1], fun hf => by simp [hphase] at hf, h.clean⟩
  | reading fd =>
      rw [hphase] at hjob
      obtain ⟨d, -, hprog⟩ := hjob
      exact ⟨hprog ▸ List.take_prefix _ _, fun hf => by simp [hphase] at hf, h.clean⟩
  | writing fd buffer =>
      rw [hphase] at hjob
      obtain ⟨d, -, hprog⟩ := hjob
      have hbegins : s.programmed <+: content.take d.pos := hprog ▸ List.prefix_append _ _
      exact ⟨hbegins.trans ( List.take_prefix _ _), fun hf => by simp [hphase] at hf, h.clean⟩
  | finished =>
      rw [hphase] at hjob
      exact ⟨hjob ▸ List.prefix_refl _, fun _ => hjob, h.clean⟩

/-- **A flash job is isolated from later uploads that do not get at its file before it has
opened it.** In every interleaving of the job with any number of later sessions whose steps
all leave the job alone, the job programs the file as it was at its notification, and never
reads freed memory. -/
theorem job_isolated {kind : FlashKind} {content : List UInt8} {s t : BurnState σ}
    (hs : Notified kind content s) {actions : List (BurnAction σ)}
    (hmeet : StepsMeet (burnStep kind) (LeavesJobAlone kind) s actions)
    (hrun : exec (burnStep kind) s actions = some t) : Isolated content t :=
  (exec_invariant BurnInv.step hmeet hs.burnInv hrun).isolated

/-- The firmware file `[1]` has just been notified. -/
def notifiedState : BurnState Unit where
  fs :=
    { root := fun path => if path = "/tmp/firmware.bin" then some 0 else none
      entry := fun id => if id = 0 then some [1] else none
      fresh := 1
      fds := fun _ => none }
  fileType := 0
  session := fun _ => none
  pending := []
  job := .waiting
  programmed := []
  freedRead := false

theorem notifiedState_notified : Notified .firmware [1] notifiedState where
  wf := by
    refine ⟨fun n d h => absurd h (by simp [notifiedState]),
      fun n d h => absurd h (by simp [notifiedState]), ?_, ?_⟩
    · intro path id h
      simp only [notifiedState, Option.ite_none_right_eq_some, Option.some.injEq] at h
      exact h.2 ▸ Nat.zero_lt_one
    · intro path path' id h h'
      simp only [notifiedState, Option.ite_none_right_eq_some] at h h'
      exact h.1.trans h'.1.symm
  file := ⟨0, rfl, rfl, fun n d h => absurd h (by simp [notifiedState])⟩
  sessions := fun _ => rfl
  idle := rfl
  waiting := rfl
  programmed := rfl
  clean := rfl

/-- A later session uploads another firmware file: it opens it, writes a byte and closes. -/
def laterUpload : List (BurnAction Unit) :=
  [.uploadOpen () (some (ascii "fw_file")) true true, .web .granted, .web .granted,
    .web .granted, .web .granted, .web .granted, .uploadWrite () [2] .granted,
    .uploadClose ()]

/-- The job opens its file before the later session comes: the session's `open` is refused,
and the job burns its file. -/
theorem job_isolated_opened_first :
    ∃ t, exec (burnStep .firmware) notifiedState
        (.jobOpen .granted :: laterUpload.take 6 ++ [.jobRead, .jobWrite, .jobRead]) = some t ∧
      t.job = .finished ∧ Isolated [1] t := by
  obtain ⟨t, hrun, hjob⟩ : ∃ t ∈ exec (burnStep .firmware) notifiedState
      (.jobOpen .granted :: laterUpload.take 6 ++ [.jobRead, .jobWrite, .jobRead]),
      t.job = .finished := by decide +kernel
  exact ⟨t, hrun, hjob, job_isolated notifiedState_notified (by decide +kernel) hrun⟩

/-- The later session comes between the notification and the job's `open`: the job burns
the later session's byte. -/
theorem job_burns_later_upload :
    ∃ t, exec (burnStep .firmware) notifiedState
        (laterUpload ++ [.jobOpen .granted, .jobRead, .jobWrite, .jobRead]) = some t ∧
      t.programmed = [2] ∧ ¬ Isolated [1] t := by
  obtain ⟨t, hrun, hprog⟩ : ∃ t ∈ exec (burnStep .firmware) notifiedState
      (laterUpload ++ [.jobOpen .granted, .jobRead, .jobWrite, .jobRead]),
      t.programmed = [2] := by decide +kernel
  refine ⟨t, hrun, hprog, ?_⟩
  intro h
  have hbegins := h.begins
  rw [hprog] at hbegins
  exact absurd hbegins (by decide)

end RtBoot
