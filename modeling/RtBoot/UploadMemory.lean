import RtBoot.Run
import RtBoot.UploadOwns

/-!
# The Heap under Uploads

Uploads follow each other on one heap. A session is opened by `webnet_module_upload_open`; its
handler reads and goes round its loop, and may be called again; when the phase of the session
is `WEB_PHASE_CLOSE`, `_webnet_module_upload_close` ends it. A step is a stretch of the handler
between two points of its loop: the read, the head of the loop with the header parser, the
opening of a file behind a header, and the search for the end of the data with
`_handle_section`. The bytes that arrive, the point at which the connection breaks, and the
answers of the allocator and of `open` come with the steps.

`HeapKept` says that the heap is in order: no block was misused, and every block in the ledger
is held by the session, was there before the uploads, or was freed exactly once and not
accessed afterwards; and when no session is open, the heap is as it was.

## Main results

* `heapKept_iff`: a run of uploads keeps the heap in order exactly when each of its steps
  meets `StepBalanced`, which is decided before the step.
* `firmware_upload_loses_path`: a plain upload of a firmware image does not.
-/

namespace RtBoot

open HeapM

/-! ### The handler -/

/-- How far the handler is: it is not running, it is at the head of its loop, behind a part
header, or at a stretch of data, with the bytes ahead. -/
inductive UploadPc
  | idle
  | top (w : List UInt8)
  | start (w : List UInt8)
  | data (w : List UInt8)
  deriving DecidableEq

/-- The bytes ahead of the handler. -/
def UploadPc.window : UploadPc → List UInt8
  | .idle => []
  | .top w => w
  | .start w => w
  | .data w => w

/-- A web session in the hands of the receiver. -/
structure HeapSession where
  upload : HeapUpload
  buffer : List UInt8
  phaseClose : Bool
  pc : UploadPc
  deriving DecidableEq

/-- `rt_strstr(content_type, "boundary=")`, and what stands behind it. -/
def boundaryOf (contentType : CString) : Option CString :=
  (memstr (ascii "boundary=") contentType.bytes).map fun i => contentType.drop (i + 9)

/-- `"--"`, which is put before the boundary. -/
def dashes : CString :=
  ⟨ascii "--", by decide⟩

/-- `make boundary`: the block is not checked, and without a boundary the pointer is not
set. -/
def makeBoundary (granted : Bool) : Option CString → HeapM (Option HeapString)
  | none => return none
  | some boundary => do
      let p ← malloc granted
      let b ← deref p
      return some ⟨b, dashes.append boundary⟩

/-- `webnet_module_upload_open`, with the bytes of the body that came with the request header.
A request without a content type has a null pointer for it. -/
def webnetModuleUploadOpen (contentType : Option CString) (buffer : List UInt8)
    (sessionGranted boundaryGranted : Bool) : HeapM (Option HeapSession) := do
  match ← malloc sessionGranted with
  | none => return none
  | some b =>
      match contentType with
      | none => throw .null
      | some contentType =>
          let boundary ← makeBoundary boundaryGranted (boundaryOf contentType)
          access (some b)
          return some ⟨⟨b, boundary, none, none, none, false, 0⟩, buffer, false, .idle⟩

namespace HeapSession

/-- `read stream`: unless the buffer holds the closing boundary, bytes are read or the
connection turns out to be broken. -/
def read (s : HeapSession) (data : Option (List UInt8)) (granted : Bool) :
    HeapM (Option HeapSession) := do
  let boundary ← s.upload.readBoundary
  s.upload.memstrs granted
  if (RtBoot.memstrs s.buffer (lastBoundary boundary)).isSome then
    return some { s with pc := .top s.buffer }
  else
    match data with
    | none => return some { s with phaseClose := true, pc := .top s.buffer }
    | some data => return some { s with pc := .top (s.buffer ++ data) }

/-- Whether the handler has to return for more data. -/
def needsMore (s : HeapSession) (boundary : CString) (w : List UInt8) (granted : Bool) :
    HeapM Bool :=
  if w.length < sessionBufsz / 3 then do
    s.upload.memstrs granted
    return (RtBoot.memstrs w (lastBoundary boundary)).isNone
  else return false

/-- The header parser at the head of the loop. -/
def parse (s : HeapSession) (w : List UInt8) (a : HeaderAnswers) : HeapM (Option HeapSession) := do
  let (upload, rest) ← s.upload.parseHeader w a
  match rest with
  | none => return some { s with upload, pc := .data w }
  | some rest => return some { s with upload, pc := .start rest }

/-- The head of the loop. -/
def top (s : HeapSession) (granted : Bool) (a : HeaderAnswers) :
    List UInt8 → HeapM (Option HeapSession)
  | [] => return some { s with buffer := [], pc := .idle }
  | c :: w => do
      let boundary ← s.upload.readBoundary
      if strBeginWithStrs (c :: w) (lastBoundary boundary) then
        return some { s with phaseClose := true, pc := .idle }
      else
        let more ← s.needsMore boundary (c :: w) granted
        if more then return some { s with buffer := c :: w, pc := .idle }
        else s.parse (c :: w) a

/-- Behind a part header. -/
def start (s : HeapSession) (answer : OpenAnswer) (w : List UInt8) :
    HeapM (Option HeapSession) := do
  let upload ← s.upload.startSection answer
  return some { s with upload, pc := .data w }

/-- A stretch of data. -/
def data (s : HeapSession) (past : ℕ → UInt8) (granted valueGranted : Bool) (w : List UInt8) :
    HeapM (Option HeapSession) := do
  let k ← s.upload.nextPossibleBoundary past w granted
  let upload ← s.upload.handleSection (w.take k) valueGranted
  return some { s with upload, pc := .top (w.drop k) }

/-- `webnet_session_close`. -/
def close (s : HeapSession) : HeapM (Option HeapSession) := do
  s.upload.close
  return none

end HeapSession

/-! ### Runs of uploads -/

/-- A step, with what the surroundings answer during it. -/
inductive HeapAction
  | open (contentType : Option CString) (buffer : List UInt8)
      (sessionGranted boundaryGranted : Bool)
  | read (data : Option (List UInt8)) (granted : Bool)
  | top (granted : Bool) (answers : HeaderAnswers)
  | start (answer : OpenAnswer)
  | data (granted valueGranted : Bool)
  | close
  deriving DecidableEq

/-- A read delivers at least one byte and at most as many as the buffer has room for. -/
def ReadFits (buffer : List UInt8) (data : Option (List UInt8)) : Prop :=
  ∀ bytes ∈ data, bytes.length ≠ 0 ∧ bytes.length ≤ sessionBufsz - buffer.length - 1
  deriving Decidable

/-- The part of the code an action of a session runs, if it can be taken where the handler
is. -/
def HeapSession.program (s : HeapSession) (past : ℕ → UInt8) :
    UploadPc → HeapAction → Option (HeapM (Option HeapSession))
  | .idle, .read data granted =>
      if s.phaseClose = false ∧ ReadFits s.buffer data then some (s.read data granted) else none
  | .idle, .close => if s.phaseClose then some s.close else none
  | .top w, .top granted answers => some (s.top granted answers w)
  | .start w, .start answer => some (s.start answer w)
  | .data w, .data granted valueGranted => some (s.data past granted valueGranted w)
  | _, _ => none

/-- The part of the code an action runs, if it can be taken. -/
def uploadProgram (past : ℕ → UInt8) :
    Option HeapSession → HeapAction → Option (HeapM (Option HeapSession))
  | none, .open contentType buffer sessionGranted boundaryGranted =>
      some (webnetModuleUploadOpen contentType buffer sessionGranted boundaryGranted)
  | none, _ => none
  | some s, action => s.program past s.pc action

/-- The heap, the upload in progress, and the misuse that put an end to it all. -/
structure UploadHeap where
  heap : Heap
  session : Option HeapSession
  misuse : Option Misuse

/-- Before the first upload. -/
def uploadHeapInit (heap : Heap) : UploadHeap :=
  ⟨heap, none, none⟩

/-- A program is run on the heap. -/
def UploadHeap.perform (s : UploadHeap) (x : HeapM (Option HeapSession)) : UploadHeap :=
  match x s.heap with
  | .error m => { s with misuse := some m }
  | .ok (session, heap) => { s with heap, session }

/-- One step. -/
def uploadHeapStep (past : ℕ → UInt8) (s : UploadHeap) (a : HeapAction) : Option UploadHeap :=
  if s.misuse.isSome then none else (uploadProgram past s.session a).map s.perform

/-- The blocks of the upload in progress. -/
def sessionBlocks : Option HeapSession → Multiset ℕ
  | none => 0
  | some s => s.upload.blocks

/-- The heap is in order, when `before` was the heap before the uploads. -/
structure HeapKept (before : Heap) (s : UploadHeap) : Prop where
  noMisuse : s.misuse = none
  accounted : ∀ b, .alloc b ∈ s.heap.log →
    b ∈ sessionBlocks s.session ∨ b ∈ before.live ∨ FreedOnce s.heap.log b
  unchanged : s.session = none → s.heap.live = before.live

/-! ### The condition on a step -/

/-- A new session has a content type to look for its boundary in, and a block for the boundary
if there is one. -/
def OpenBalanced (contentType : Option CString) (sessionGranted boundaryGranted : Bool) : Prop :=
  sessionGranted = true →
    ∃ str ∈ contentType, (boundaryOf str).isSome = true → boundaryGranted = true
  deriving Decidable

/-- At the head of the loop the boundary is set; a short window is searched with a block of
its own; and a part header that is parsed can be read and has room for its name. -/
def TopBalanced (u : HeapUpload) (granted : Bool) (a : HeaderAnswers) (w : List UInt8) : Prop :=
  w ≠ [] → ∃ str ∈ u.boundary, strBeginWithStrs w (lastBoundary str.text) = false →
    (w.length < sessionBufsz / 3 → granted = true) ∧
      (¬ needsMore str.text w → ∀ rest ∈ skipBoundary str.text w, HeaderBalanced u a rest)
  deriving Decidable

/-- A stretch of data is found with the boundary and a block of its own, and storing a value
loses none. -/
def DataBalanced (u : HeapUpload) (past : ℕ → UInt8) (granted valueGranted : Bool)
    (w : List UInt8) : Prop :=
  ∃ str ∈ u.boundary, SearchGranted str.text w granted ∧
    SectionBalanced u (w.take (dataEnd past str.text w)) valueGranted
  deriving Decidable

/-- The condition on a step, in terms of the session before it. -/
def StepBalanced (past : ℕ → UInt8) : Option HeapSession → HeapAction → Prop
  | _, .open contentType _ sessionGranted boundaryGranted =>
      OpenBalanced contentType sessionGranted boundaryGranted
  | none, _ => True
  | some s, .read _ granted => s.upload.boundary.isSome = true ∧ granted = true
  | some s, .top granted answers => TopBalanced s.upload granted answers s.pc.window
  | some s, .start answer => StartBalanced s.upload answer
  | some s, .data granted valueGranted =>
      DataBalanced s.upload past granted valueGranted s.pc.window
  | some s, .close => s.upload.boundary.isSome = true

instance (past : ℕ → UInt8) : ∀ s a, Decidable (StepBalanced past s a)
  | none, .open _ _ _ _ => inferInstanceAs (Decidable (OpenBalanced _ _ _))
  | some _, .open _ _ _ _ => inferInstanceAs (Decidable (OpenBalanced _ _ _))
  | none, .read _ _ => .isTrue trivial
  | none, .top _ _ => .isTrue trivial
  | none, .start _ => .isTrue trivial
  | none, .data _ _ => .isTrue trivial
  | none, .close => .isTrue trivial
  | some _, .read _ _ => inferInstanceAs (Decidable (_ ∧ _))
  | some _, .top _ _ => inferInstanceAs (Decidable (TopBalanced _ _ _ _))
  | some _, .start _ => inferInstanceAs (Decidable (StartBalanced _ _))
  | some _, .data _ _ => inferInstanceAs (Decidable (DataBalanced _ _ _ _ _))
  | some _, .close => inferInstanceAs (Decidable (_ = true))

/-! ### What a step does -/

section Open

variable {P : Multiset ℕ} {granted : Bool} {contentType : Option CString}

theorem owns_makeBoundary {boundary : Option CString}
    (h : boundary.isSome = true → granted = true) :
    Owns P (makeBoundary granted boundary) fun str L => L = ptrBlocks (strPtr str) + P := by
  cases boundary with
  | none => exact Owns.pure (zero_add P).symm
  | some boundary =>
      obtain rfl := h rfl
      refine owns_malloc_true.bind ?_
      rintro _ _ ⟨b, rfl, rfl⟩
      refine (owns_deref (by simp)).bind ?_
      rintro _ _ ⟨rfl, rfl⟩
      exact Owns.pure rfl

theorem faults_makeBoundary (boundary : CString) :
    Faults P (makeBoundary false (some boundary)) := by
  refine owns_malloc_false.faults_bind ?_
  rintro _ _ ⟨rfl, rfl⟩
  exact faults_deref_none.bind

theorem owns_open {sessionGranted : Bool} (buffer : List UInt8)
    (h : OpenBalanced contentType sessionGranted granted) :
    Owns 0 (webnetModuleUploadOpen contentType buffer sessionGranted granted)
      fun t L => L = sessionBlocks t := by
  cases sessionGranted with
  | false =>
      refine owns_malloc_false.bind ?_
      rintro _ _ ⟨rfl, rfl⟩
      exact Owns.pure rfl
  | true =>
      obtain ⟨contentType, rfl, hboundary⟩ := h rfl
      refine owns_malloc_true.bind ?_
      rintro _ _ ⟨b, rfl, rfl⟩
      refine (owns_makeBoundary hboundary).bind ?_
      rintro str _ rfl
      refine (owns_access (by simp)).bind ?_
      rintro _ _ rfl
      refine Owns.pure ?_
      simp only [sessionBlocks, HeapUpload.blocks, strPtr, tableBlocks, Option.map_none,
        ptrBlocks_none]
      abel

theorem faults_open {sessionGranted : Bool} (buffer : List UInt8)
    (h : ¬ OpenBalanced contentType sessionGranted granted) :
    Faults 0 (webnetModuleUploadOpen contentType buffer sessionGranted granted) := by
  obtain ⟨hsession, hnone⟩ := Classical.not_imp.mp h
  subst hsession
  refine owns_malloc_true.faults_bind ?_
  rintro _ _ ⟨b, rfl, rfl⟩
  cases contentType with
  | none => exact faults_throw _
  | some contentType =>
      have h : ¬ ((boundaryOf contentType).isSome = true → granted = true) :=
        fun hboundary => hnone ⟨contentType, rfl, hboundary⟩
      obtain ⟨hfound, hgranted⟩ := Classical.not_imp.mp h
      obtain ⟨boundary, hboundary⟩ := Option.isSome_iff_exists.mp hfound
      dsimp only
      rw [hboundary, Bool.eq_false_iff.mpr hgranted]
      exact (faults_makeBoundary boundary).bind

end Open

section Handler

variable {s : HeapSession} {past : ℕ → UInt8} {granted : Bool} {a : HeaderAnswers}
  {str : HeapString} {w : List UInt8}

theorem owns_read (hstr : s.upload.boundary = some str) (data : Option (List UInt8)) :
    Owns s.upload.blocks (s.read data true) fun t L => L = sessionBlocks t := by
  refine (owns_readBoundary hstr).bind ?_
  rintro _ _ ⟨rfl, rfl⟩
  refine (owns_memstrs hstr).bind ?_
  rintro _ _ rfl
  split_ifs
  · exact Owns.pure rfl
  · cases data with
    | none => exact Owns.pure rfl
    | some data => exact Owns.pure rfl

theorem faults_read (data : Option (List UInt8))
    (h : ¬ (s.upload.boundary.isSome = true ∧ granted = true)) :
    Faults s.upload.blocks (s.read data granted) := by
  cases hstr : s.upload.boundary with
  | none => exact (faults_readBoundary hstr).bind
  | some str =>
      have hgranted : granted = false := Bool.eq_false_iff.mpr fun hgranted =>
        h ⟨by rw [hstr]; rfl, hgranted⟩
      refine (owns_readBoundary hstr).faults_bind ?_
      rintro _ _ ⟨rfl, rfl⟩
      rw [hgranted]
      exact (faults_memstrs hstr).bind

theorem owns_needsMore (hstr : s.upload.boundary = some str)
    (h : w.length < sessionBufsz / 3 → granted = true) :
    Owns s.upload.blocks (s.needsMore str.text w granted)
      fun more L => (more = true ↔ needsMore str.text w) ∧ L = s.upload.blocks := by
  rw [HeapSession.needsMore, needsMore]
  split_ifs with hshort
  · obtain rfl := h hshort
    refine (owns_memstrs hstr).bind ?_
    rintro _ _ rfl
    exact Owns.pure ⟨by simp [hshort], rfl⟩
  · exact Owns.pure ⟨by simp [hshort], rfl⟩

theorem faults_needsMore (hstr : s.upload.boundary = some str)
    (h : ¬ (w.length < sessionBufsz / 3 → granted = true)) :
    Faults s.upload.blocks (s.needsMore str.text w granted) := by
  obtain ⟨hshort, hgranted⟩ := Classical.not_imp.mp h
  rw [HeapSession.needsMore, if_pos hshort, Bool.eq_false_iff.mpr hgranted]
  exact (faults_memstrs hstr).bind

theorem owns_top (h : TopBalanced s.upload granted a w) :
    Owns s.upload.blocks (s.top granted a w) fun t L => L = sessionBlocks t := by
  cases w with
  | nil => exact Owns.pure rfl
  | cons c w =>
      obtain ⟨str, hstr, h⟩ := h (List.cons_ne_nil c w)
      refine (owns_readBoundary hstr).bind ?_
      rintro _ _ ⟨rfl, rfl⟩
      split_ifs with hlast
      · exact Owns.pure rfl
      · obtain ⟨hshort, hheader⟩ := h (Bool.eq_false_iff.mpr hlast)
        refine (owns_needsMore hstr hshort).bind ?_
        rintro more _ ⟨hmore, rfl⟩
        split_ifs with hret
        · exact Owns.pure rfl
        · refine (owns_parseHeader hstr (hheader (mt hmore.mpr hret))).bind ?_
          rintro ⟨u, rest⟩ _ rfl
          cases rest with
          | none => exact Owns.pure rfl
          | some rest => exact Owns.pure rfl

theorem faults_top (h : ¬ TopBalanced s.upload granted a w) :
    Faults s.upload.blocks (s.top granted a w) := by
  obtain ⟨hne, h⟩ := Classical.not_imp.mp h
  obtain ⟨c, w, rfl⟩ := List.exists_cons_of_ne_nil hne
  cases hstr : s.upload.boundary with
  | none => exact (faults_readBoundary hstr).bind
  | some str =>
      obtain ⟨hlast, h⟩ := Classical.not_imp.mp fun hstr' => h ⟨str, hstr, hstr'⟩
      refine (owns_readBoundary hstr).faults_bind ?_
      rintro _ _ ⟨rfl, rfl⟩
      rw [hlast]
      by_cases hshort : (c :: w).length < sessionBufsz / 3 → granted = true
      · obtain ⟨hmore, h⟩ := Classical.not_imp.mp fun hheader => h ⟨hshort, hheader⟩
        refine (owns_needsMore hstr hshort).faults_bind ?_
        rintro more _ ⟨hiff, rfl⟩
        rw [Bool.eq_false_iff.mpr (mt hiff.mp hmore)]
        simp only [not_forall] at h
        obtain ⟨rest, hrest, h⟩ := h
        exact (faults_parseHeader hstr hlast hrest h).bind
      · exact (faults_needsMore hstr hshort).bind

theorem owns_start {answer : OpenAnswer} (h : StartBalanced s.upload answer) (w : List UInt8) :
    Owns s.upload.blocks (s.start answer w) fun t L => L = sessionBlocks t := by
  refine (owns_startSection h).bind ?_
  rintro u _ rfl
  exact Owns.pure rfl

theorem spoils_start {answer : OpenAnswer} (h : ¬ StartBalanced s.upload answer)
    (w : List UInt8) : Spoils s.upload.blocks (s.start answer w) sessionBlocks :=
  (spoils_startSection h).bind_pure fun _ => rfl

theorem owns_data {valueGranted : Bool} (h : DataBalanced s.upload past granted valueGranted w) :
    Owns s.upload.blocks (s.data past granted valueGranted w)
      fun t L => L = sessionBlocks t := by
  obtain ⟨str, hstr, hsearch, hsection⟩ := h
  refine (owns_nextPossibleBoundary hstr past hsearch).bind ?_
  rintro _ _ ⟨rfl, rfl⟩
  refine (owns_handleSection hsection).bind ?_
  rintro u _ rfl
  exact Owns.pure rfl

theorem spoils_data {valueGranted : Bool}
    (h : ¬ DataBalanced s.upload past granted valueGranted w) :
    Spoils s.upload.blocks (s.data past granted valueGranted w) sessionBlocks := by
  cases hstr : s.upload.boundary with
  | none => exact (faults_readBoundary hstr).bind.bind.spoils
  | some str =>
      by_cases hsearch : SearchGranted str.text w granted
      · refine (owns_nextPossibleBoundary hstr past hsearch).spoils_bind ?_
        rintro _ _ ⟨rfl, rfl⟩
        refine (spoils_handleSection fun hsection => h ⟨str, hstr, hsearch, hsection⟩).bind_pure ?_
        exact fun _ => rfl
      · exact (faults_nextPossibleBoundary hstr past hsearch).bind.spoils

theorem owns_closeSession (hstr : s.upload.boundary = some str) :
    Owns s.upload.blocks s.close fun t L => L = sessionBlocks t := by
  refine ((owns_close hstr).pre (add_zero _).symm).bind ?_
  rintro _ _ rfl
  exact Owns.pure rfl

theorem faults_closeSession (hstr : s.upload.boundary = none) :
    Faults s.upload.blocks s.close := by
  rw [← add_zero s.upload.blocks]
  exact (faults_close hstr).bind

end Handler

section Step

variable {past : ℕ → UInt8} {session : Option HeapSession} {action : HeapAction}
  {x : HeapM (Option HeapSession)}

/-- **A step** is one of six stretches of the code. -/
theorem uploadProgram_cases (hx : uploadProgram past session action = some x) :
    (∃ contentType buffer sessionGranted boundaryGranted, session = none ∧
      action = .open contentType buffer sessionGranted boundaryGranted ∧
      x = webnetModuleUploadOpen contentType buffer sessionGranted boundaryGranted) ∨
    ∃ s, session = some s ∧
      ((∃ data granted, action = .read data granted ∧ x = s.read data granted) ∨
      (∃ granted a, action = .top granted a ∧ x = s.top granted a s.pc.window) ∨
      (∃ answer, action = .start answer ∧ x = s.start answer s.pc.window) ∨
      (∃ granted valueGranted, action = .data granted valueGranted ∧
        x = s.data past granted valueGranted s.pc.window) ∨
      (action = .close ∧ x = s.close)) := by
  cases session with
  | none =>
      cases action with
      | «open» => exact .inl ⟨_, _, _, _, rfl, rfl, (Option.some.inj hx).symm⟩
      | _ => cases hx
  | some s =>
      refine .inr ⟨s, rfl, ?_⟩
      rw [uploadProgram] at hx
      cases hpc : s.pc with
      | idle =>
          rw [hpc] at hx
          cases action with
          | read data granted =>
              obtain ⟨-, ⟨⟩⟩ := Option.ite_none_right_eq_some.mp hx
              exact .inl ⟨_, _, rfl, rfl⟩
          | close =>
              obtain ⟨-, ⟨⟩⟩ := Option.ite_none_right_eq_some.mp hx
              exact .inr (.inr (.inr (.inr ⟨rfl, rfl⟩)))
          | _ => cases hx
      | top w =>
          rw [hpc] at hx
          cases action with
          | top granted a => exact .inr (.inl ⟨_, _, rfl, (Option.some.inj hx).symm⟩)
          | _ => cases hx
      | start w =>
          rw [hpc] at hx
          cases action with
          | start answer => exact .inr (.inr (.inl ⟨_, rfl, (Option.some.inj hx).symm⟩))
          | _ => cases hx
      | data w =>
          rw [hpc] at hx
          cases action with
          | data granted valueGranted =>
              exact .inr (.inr (.inr (.inl ⟨_, _, rfl, (Option.some.inj hx).symm⟩)))
          | _ => cases hx

/-- A step that meets the condition turns the blocks of the session into those of the session
after it. -/
theorem owns_uploadProgram (hx : uploadProgram past session action = some x)
    (h : StepBalanced past session action) :
    Owns (sessionBlocks session) x fun t L => L = sessionBlocks t := by
  obtain ⟨contentType, buffer, sessionGranted, boundaryGranted, rfl, rfl, rfl⟩ |
    ⟨s, rfl, ⟨data, granted, rfl, rfl⟩ | ⟨granted, a, rfl, rfl⟩ | ⟨answer, rfl, rfl⟩ |
      ⟨granted, valueGranted, rfl, rfl⟩ | ⟨rfl, rfl⟩⟩ := uploadProgram_cases hx
  · exact owns_open buffer h
  · obtain ⟨hset, rfl⟩ := h
    obtain ⟨str, hstr⟩ := Option.isSome_iff_exists.mp hset
    exact owns_read hstr data
  · exact owns_top h
  · exact owns_start h _
  · exact owns_data h
  · obtain ⟨str, hstr⟩ := Option.isSome_iff_exists.mp h
    exact owns_closeSession hstr

/-- One that does not ends in a misuse or loses a block. -/
theorem spoils_uploadProgram (hx : uploadProgram past session action = some x)
    (h : ¬ StepBalanced past session action) :
    Spoils (sessionBlocks session) x sessionBlocks := by
  obtain ⟨contentType, buffer, sessionGranted, boundaryGranted, rfl, rfl, rfl⟩ |
    ⟨s, rfl, ⟨data, granted, rfl, rfl⟩ | ⟨granted, a, rfl, rfl⟩ | ⟨answer, rfl, rfl⟩ |
      ⟨granted, valueGranted, rfl, rfl⟩ | ⟨rfl, rfl⟩⟩ := uploadProgram_cases hx
  · exact (faults_open buffer h).spoils
  · exact (faults_read data h).spoils
  · exact (faults_top h).spoils
  · exact spoils_start h _
  · exact spoils_data h
  · have hstr : s.upload.boundary = none := Option.not_isSome_iff_eq_none.mp h
    exact (faults_closeSession hstr).spoils

end Step

/-! ### Runs -/

/-- Without a misuse so far, the heap holds the blocks of the session and the blocks `R`. -/
def HoldsOnly (R : Multiset ℕ) (s : UploadHeap) : Prop :=
  s.misuse = none ∧ s.heap.live = sessionBlocks s.session + R

/-- The heap is out of order for good: there was a misuse, or besides the blocks `R` one is
live that no session holds. -/
def Spoilt (R : Multiset ℕ) (s : UploadHeap) : Prop :=
  s.misuse ≠ none ∨ ∃ b L, HoldsOnly (b ::ₘ L + R) s

section Run

variable {past : ℕ → UInt8} {R : Multiset ℕ} {s t : UploadHeap} {action : HeapAction}

theorem uploadHeapStep_eq_some (h : uploadHeapStep past s action = some t) :
    s.misuse = none ∧ ∃ x, uploadProgram past s.session action = some x ∧ t = s.perform x := by
  rw [uploadHeapStep] at h
  split_ifs at h with hmisuse
  obtain ⟨x, hx, rfl⟩ := Option.map_eq_some_iff.mp h
  exact ⟨Option.not_isSome_iff_eq_none.mp hmisuse, x, hx, rfl⟩

/-- A balanced step holds no further blocks. -/
theorem HoldsOnly.step (hs : HoldsOnly R s) (hstep : uploadHeapStep past s action = some t)
    (h : StepBalanced past s.session action) : HoldsOnly R t := by
  obtain ⟨hmisuse, x, hx, rfl⟩ := uploadHeapStep_eq_some hstep
  obtain ⟨session, heap, L, hrun, hlive, rfl⟩ := owns_uploadProgram hx h s.heap R hs.2
  rw [UploadHeap.perform, hrun]
  exact ⟨hmisuse, hlive⟩

theorem HoldsOnly.spoilt_step (hs : HoldsOnly R s) (hstep : uploadHeapStep past s action = some t)
    (h : ¬ StepBalanced past s.session action) : Spoilt R t := by
  obtain ⟨hmisuse, x, hx, rfl⟩ := uploadHeapStep_eq_some hstep
  obtain ⟨m, hrun⟩ | ⟨session, heap, b, hrun, hlive⟩ :=
    spoils_uploadProgram hx h s.heap R hs.2
  · rw [UploadHeap.perform, hrun]
    exact .inl (Option.some_ne_none m)
  · rw [UploadHeap.perform, hrun]
    exact .inr ⟨b, 0, hmisuse, hlive⟩

/-- A block that is lost stays lost. -/
theorem Spoilt.step (hs : Spoilt R s) (hstep : uploadHeapStep past s action = some t) :
    Spoilt R t := by
  obtain hmisuse | ⟨b, L, hs⟩ := hs
  · exact absurd (uploadHeapStep_eq_some hstep).1 hmisuse
  · by_cases h : StepBalanced past s.session action
    · exact .inr ⟨b, L, hs.step hstep h⟩
    · obtain hmisuse | ⟨c, L', ht⟩ := hs.spoilt_step hstep h
      · exact .inl hmisuse
      · refine .inr ⟨b, c ::ₘ L' + L, ?_⟩
        convert ht using 1
        simp only [← Multiset.singleton_add]
        abel

/-- **A run** whose steps all meet the condition holds no more than it should; any other one is
spoilt from the step on that does not. -/
theorem holdsOnly_or_spoilt {actions : List HeapAction} (hs : HoldsOnly R s)
    (hrun : exec (uploadHeapStep past) s actions = some t) :
    (StepsMeet (uploadHeapStep past) (fun s a => StepBalanced past s.session a) s actions ∧
      HoldsOnly R t) ∨
    (¬ StepsMeet (uploadHeapStep past) (fun s a => StepBalanced past s.session a) s actions ∧
      Spoilt R t) := by
  induction actions generalizing s with
  | nil =>
      obtain rfl : s = t := Option.some.inj hrun
      exact .inl ⟨trivial, hs⟩
  | cons action actions ih =>
      obtain ⟨u, hstep, hrest⟩ := exec_cons_eq_some.mp hrun
      by_cases h : StepBalanced past s.session action
      · rw [StepsMeet, hstep]
        simp only [h, true_and]
        exact ih (hs.step hstep h) hrest
      · refine .inr ⟨fun hmeet => h hmeet.head, ?_⟩
        exact exec_invariant_of_step (fun hu hstep => hu.step hstep) (hs.spoilt_step hstep h) hrest

/-- When the heap holds the session and what was there before, every block is accounted
for. -/
theorem HoldsOnly.heapKept {before : Heap} (h : HoldsOnly before.live t) : HeapKept before t where
  noMisuse := h.1
  accounted := by
    intro b halloc
    by_cases hb : b ∈ t.heap.live
    · rw [h.2, Multiset.mem_add] at hb
      exact hb.imp_right .inl
    · exact .inr (.inr (t.heap.freedOnce_of_not_mem halloc hb))
  unchanged := by
    intro hsession
    rw [h.2, hsession]
    exact zero_add _

/-- A block that is lost is not accounted for. -/
theorem Spoilt.not_heapKept {before : Heap} (h : Spoilt before.live t) :
    ¬ HeapKept before t := by
  intro hkept
  obtain hmisuse | ⟨b, L, -, hlive⟩ := h
  · exact hmisuse hkept.noMisuse
  · have hb : b ∈ t.heap.live := by simp [hlive]
    -- a live block is live once, so the session and the heap before do not have it as well
    have hnodup := t.heap.nodup
    rw [hlive, Multiset.cons_add, Multiset.add_cons, Multiset.nodup_cons] at hnodup
    have hother : b ∉ sessionBlocks t.session ∧ b ∉ L ∧ b ∉ before.live := by
      simpa [not_or] using hnodup.1
    obtain hsession | hbefore | hfreed := hkept.accounted b ((t.heap.mem_live b).mp hb).1
    · exact hother.1 hsession
    · exact hother.2.2 hbefore
    · exact t.heap.not_freedOnce_of_mem hb hfreed

end Run

/-- **The heap under any number of uploads**, whatever their bodies, reads, allocations and
disconnections: it is in order after a run exactly when every step of the run met its
condition. -/
theorem heapKept_iff (past : ℕ → UInt8) (before : Heap) {actions : List HeapAction}
    {t : UploadHeap} (hrun : exec (uploadHeapStep past) (uploadHeapInit before) actions = some t) :
    HeapKept before t ↔
      StepsMeet (uploadHeapStep past) (fun s a => StepBalanced past s.session a)
        (uploadHeapInit before) actions := by
  have hinit : HoldsOnly before.live (uploadHeapInit before) := ⟨rfl, (zero_add _).symm⟩
  obtain ⟨hmeet, hholds⟩ | ⟨hmeet, hspoilt⟩ := holdsOnly_or_spoilt hinit hrun
  · exact iff_of_true hholds.heapKept hmeet
  · exact iff_of_false hspoilt.not_heapKept hmeet

/-- The bytes of a part with the given header lines and content, between the boundaries. -/
def onePartBody (header content : String) : List UInt8 :=
  ascii "--x\r\n" ++ ascii header ++ ascii "\r\n\r\n" ++ ascii content ++ ascii "\r\n--x--\r\n"

/-- The header lines of a file part. -/
def fileHeader (field : String) : String :=
  "Content-Disposition: form-data; name=\"" ++ field ++
    "\"; filename=\"f\"\r\nContent-Type: b"

/-- The allocator grants everything, and moves the blocks that grow. -/
def allGranted : HeaderAnswers :=
  ⟨true, true, .moved, true, true⟩

/-- An upload of one part that arrives as a whole: it is opened, read, taken apart and closed.
`open` answers with `fd`. -/
def oneUpload (header content : String) (fd : ℤ) : List HeapAction :=
  [.open (some (.upToNul (ascii "multipart/form-data; boundary=x"))) (onePartBody header content)
      true true,
    .read none true, .top true allGranted, .start ⟨true, fd⟩, .data true true,
    .top true allGranted, .close]

/-- Two uploads for fields that are not known keep the heap in order. -/
theorem heapKept_unknown_fields :
    ∃ t, exec (uploadHeapStep fun _ => 0) (uploadHeapInit .empty)
        (oneUpload (fileHeader "a") "DATA" 3 ++ oneUpload (fileHeader "b") "DATA" 3) = some t ∧
      t.session = none ∧ HeapKept .empty t := by
  have hdone : ((exec (uploadHeapStep fun _ => 0) (uploadHeapInit .empty)
      (oneUpload (fileHeader "a") "DATA" 3 ++ oneUpload (fileHeader "b") "DATA" 3)).any
        fun t => t.session.isNone) = true := by
    decide +kernel
  obtain ⟨t, ht, hsession⟩ := (Option.any_eq_true _ _).mp hdone
  exact ⟨t, ht, Option.isNone_iff_eq_none.mp hsession,
    (heapKept_iff _ _ ht).mpr (by decide +kernel)⟩

/-- **A firmware upload** that succeeds leaves one block behind, that of the path. -/
theorem firmware_upload_loses_path :
    ∃ t, exec (uploadHeapStep fun _ => 0) (uploadHeapInit .empty)
        (oneUpload (fileHeader "fw_file") "DATA" 3) = some t ∧
      t.session = none ∧ t.misuse = none ∧ ¬ HeapKept .empty t := by
  have hleft : ((exec (uploadHeapStep fun _ => 0) (uploadHeapInit .empty)
      (oneUpload (fileHeader "fw_file") "DATA" 3)).any
        fun t => t.session.isNone && t.misuse.isNone && t.heap.live.card == 1) = true := by
    decide +kernel
  obtain ⟨t, ht, hleft⟩ := (Option.any_eq_true _ _).mp hleft
  simp only [Bool.and_eq_true, Option.isNone_iff_eq_none, beq_iff_eq] at hleft
  obtain ⟨⟨hsession, hmisuse⟩, hcard⟩ := hleft
  refine ⟨t, ht, hsession, hmisuse, ?_⟩
  intro hkept
  rw [hkept.unchanged hsession] at hcard
  cases hcard

-- When the file cannot be opened, the session is used after it was freed.
example : (exec (uploadHeapStep fun _ => 0) (uploadHeapInit .empty)
    ((oneUpload (fileHeader "fw_file") "DATA" (-1)).take 4)).map UploadHeap.misuse =
      some (some (.dangling 0)) := by
  decide +kernel

-- A form field of two lines loses the block of the field's name.
example : (exec (uploadHeapStep fun _ => 0) (uploadHeapInit .empty)
    (oneUpload "Content-Disposition: form-data; name=\"a\"" "1\r\n2" 3)).map
      (fun t => (t.session, t.heap.live.card)) = some (none, 1) := by
  decide +kernel

end RtBoot
