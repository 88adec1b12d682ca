import Mathlib.Data.Fintype.Basic
import RtBoot.Event
import RtBoot.Flash
import RtBoot.Run

/-!
# The Flash Thread and its Requests

The flash thread (`board_flash_thread_entry`) waits for request flags on
`board_flash_event` and runs one job per receive; any other thread requests a job with
one of the `board_flash_*_notisfy` functions. This module puts the two together as one
transition system (`flashStep`): a state holds the event object, the thread's position
in its loop, the status word, and the log of what was requested and which jobs were
started, in order.

A receive takes every raised flag at once (`RT_EVENT_FLAG_CLEAR` clears the whole set
asked for), but the `else if` chain behind it starts a single job. So a request survives
a receive only when it is the one the chain picks.

## Main results

* `FlashInv`: as long as no receive finds two requests raised, every request that has not
  been served is still raised, or is the one the thread is about to serve.
* `requests_served_of_single`: in every run whose receives find at most one request,
  whenever the thread is idle every request has been followed by a job of its kind.
* `thread_becomes_idle`: when the requests stop, the thread does become idle.
* `art_request_lost`: a run in which a request is dropped.
-/

namespace RtBoot

instance : Fintype FlashKind :=
  ⟨{.firmware, .uboot, .art, .full}, fun k => by cases k <;> decide⟩

/-- The event bit of a request: `1 << BOARD_FLASH_EVENT_*`. -/
def FlashKind.eventBit : FlashKind → BitVec 32
  | .firmware => 1 <<< 0
  | .uboot => 1 <<< 1
  | .art => 1 <<< 2
  | .full => 1 <<< 3

/-- The set of flags the thread asks for: all four requests. -/
def flashEventMask : BitVec 32 :=
  FlashKind.eventBit .firmware ||| FlashKind.eventBit .uboot ||| FlashKind.eventBit .art |||
    FlashKind.eventBit .full

/-- The `else if` chain on the received flags: the job it starts. -/
def dispatchKind (flag : BitVec 32) : Option FlashKind :=
  if flag &&& FlashKind.eventBit .firmware ≠ 0 then some .firmware
  else if flag &&& FlashKind.eventBit .uboot ≠ 0 then some .uboot
  else if flag &&& FlashKind.eventBit .art ≠ 0 then some .art
  else if flag &&& FlashKind.eventBit .full ≠ 0 then some .full
  else none

/-- Where the thread stands: before its chip check, before a receive, suspended in the
receive, resumed by a send, behind the receive, in a job, or returned. -/
inductive ThreadPc
  | entry
  | recv
  | suspended
  | resumed (flag : BitVec 32)
  | dispatch (flag : BitVec 32)
  | job (kind : FlashKind)
  | exited
  deriving DecidableEq, Repr

/-- An entry of the log: a request was made, or a job was started. -/
inductive FlashLog
  | notified (kind : FlashKind)
  | started (kind : FlashKind)
  deriving DecidableEq, Repr

/-- The state of the flash subsystem. -/
structure FlashState where
  event : Event Unit
  pc : ThreadPc
  status : ℤ
  log : List FlashLog
  deriving DecidableEq, Repr

/-- An action: a request by another thread, or the next step of the flash thread. The
step that ends a job stores the status the job leaves. -/
inductive FlashAction
  | notify (kind : FlashKind)
  | thread (jobStatus : ℤ)
  deriving DecidableEq, Repr

/-- `board_flash_*_notisfy`: reset a positive status and raise the request's flag. When
the flash thread was suspended on the event, the send resumes it. -/
def boardFlashNotisfy (s : FlashState) (kind : FlashKind) : FlashState :=
  let r := rtEventSend s.event kind.eventBit
  { event := r.1
    pc := match r.2 with
      | w :: _ => .resumed w.eventSet
      | [] => s.pc
    status := if s.status > 0 then 0 else s.status
    log := s.log ++ [.notified kind] }

/-- The next step of `board_flash_thread_entry`. `capacity` is the size of the chip the
driver found, if it found one. A suspended or finished thread takes no step. -/
def threadStep (capacity : Option ℕ) (s : FlashState) (jobStatus : ℤ) : Option FlashState :=
  match s.pc with
  | .entry =>
      match capacity.bind fun c => flashLayout (c / 1024 / 1024) with
      | none => some { s with pc := .exited, status := -1 }
      | some _ => some { s with pc := .recv }
  | .recv =>
      match rtEventRecv s.event () flashEventMask .orClear true with
      | (event, .received flag) => some { s with event, pc := .dispatch flag }
      | (event, .suspended) => some { s with event, pc := .suspended }
      | (event, .failed) => some { s with event, pc := .dispatch 0 }
  | .suspended => none
  | .resumed flag => some { s with pc := .dispatch flag }
  | .dispatch flag =>
      match dispatchKind flag with
      | some kind =>
          some { s with pc := .job kind, status := 0, log := s.log ++ [.started kind] }
      | none => some { s with pc := .recv }
  | .job _ => some { s with pc := .recv, status := jobStatus }
  | .exited => none

/-- One step of the flash subsystem. -/
def flashStep (capacity : Option ℕ) (s : FlashState) : FlashAction → Option FlashState
  | .notify kind => some (boardFlashNotisfy s kind)
  | .thread jobStatus => threadStep capacity s jobStatus

/-- The state `board_flash_thread_init` leaves: no request, the thread not yet run. -/
def flashInit : FlashState :=
  ⟨⟨0, []⟩, .entry, 0, []⟩

/-- The thread has nothing to do: it is suspended in its receive, or has returned. -/
def FlashState.Idle (s : FlashState) : Prop :=
  s.pc = .suspended ∨ s.pc = .exited
  deriving Decidable

/-- The request is raised and not yet received. -/
def FlashState.Pending (s : FlashState) (kind : FlashKind) : Prop :=
  s.event.set &&& kind.eventBit ≠ 0
  deriving Decidable

/-- **No request is lost**: every request in the log is followed by the start of a job of
its kind. -/
def RequestsServed (log : List FlashLog) : Prop :=
  ∀ before kind after, log = before ++ .notified kind :: after → .started kind ∈ after

/-! ### Flags -/

/-- The position of a request's flag. -/
def FlashKind.index : FlashKind → ℕ
  | .firmware => 0
  | .uboot => 1
  | .art => 2
  | .full => 3

theorem eventBit_eq_twoPow (k : FlashKind) : k.eventBit = BitVec.twoPow 32 k.index := by
  cases k <;> rfl

/-- Testing a request's flag reads the bit at its position. -/
theorem and_eventBit_ne_zero (set : BitVec 32) (k : FlashKind) :
    set &&& k.eventBit ≠ 0 ↔ set.getLsbD k.index = true := by
  rw [eventBit_eq_twoPow, BitVec.and_twoPow]
  cases h : set.getLsbD k.index with
  | false => simp
  | true =>
      simp only [if_true, iff_true]
      rw [← eventBit_eq_twoPow]
      cases k <;> decide

theorem getLsbD_eventBit (j k : FlashKind) :
    j.eventBit.getLsbD k.index = decide (j = k) := by
  cases j <;> cases k <;> decide

theorem getLsbD_flashEventMask (k : FlashKind) :
    flashEventMask.getLsbD k.index = true := by
  cases k <;> decide

/-- The flags the thread asks for are exactly the four requests. -/
theorem exists_index_of_getLsbD_flashEventMask {i : ℕ}
    (h : flashEventMask.getLsbD i = true) : ∃ k : FlashKind, k.index = i := by
  have hi : i < 32 := BitVec.lt_of_getLsbD h
  have hall : ∀ j : Fin 32, flashEventMask.getLsbD j = true → j.val < 4 := by decide
  have h4 : i < 4 := hall ⟨i, hi⟩ h
  obtain rfl | rfl | rfl | rfl : i = 0 ∨ i = 1 ∨ i = 2 ∨ i = 3 := by omega
  exacts [⟨.firmware, rfl⟩, ⟨.uboot, rfl⟩, ⟨.art, rfl⟩, ⟨.full, rfl⟩]

/-- No request is raised exactly when the receive finds nothing. -/
theorem and_flashEventMask_eq_zero (set : BitVec 32) :
    set &&& flashEventMask = 0 ↔ ∀ k : FlashKind, ¬ set &&& k.eventBit ≠ 0 := by
  constructor
  · intro h k hk
    rw [and_eventBit_ne_zero] at hk
    have := congrArg (fun v => v.getLsbD k.index) h
    simp [BitVec.getLsbD_and, hk, getLsbD_flashEventMask] at this
  · intro h
    refine BitVec.eq_of_getLsbD_eq ?_
    intro i _
    rw [BitVec.getLsbD_and]
    by_contra hne
    have hmask : flashEventMask.getLsbD i = true := by
      by_contra hm
      simp [hm] at hne
    obtain ⟨k, rfl⟩ := exists_index_of_getLsbD_flashEventMask hmask
    have hk := h k
    rw [and_eventBit_ne_zero] at hk
    simp [hk] at hne

/-- When exactly one request is raised, the receive hands out its flag alone. -/
theorem and_flashEventMask_eq_eventBit {set : BitVec 32} {k : FlashKind}
    (hk : set &&& k.eventBit ≠ 0) (hone : ∀ j : FlashKind, set &&& j.eventBit ≠ 0 → j = k) :
    set &&& flashEventMask = k.eventBit := by
  refine BitVec.eq_of_getLsbD_eq ?_
  intro i _
  rw [BitVec.getLsbD_and]
  by_cases hmask : flashEventMask.getLsbD i = true
  · obtain ⟨j, rfl⟩ := exists_index_of_getLsbD_flashEventMask hmask
    rw [getLsbD_eventBit, hmask, Bool.and_true]
    by_cases hj : set.getLsbD j.index = true
    · rw [hj, hone j ((and_eventBit_ne_zero set j).mpr hj)]
      simp
    · have hne : k ≠ j := by
        rintro rfl
        exact hj ((and_eventBit_ne_zero set k).mp hk)
      simp [hj, hne]
  · have hbit : k.eventBit.getLsbD i = false := by
      by_contra hb
      rw [Bool.not_eq_false, eventBit_eq_twoPow, BitVec.getLsbD_twoPow] at hb
      have hi : k.index = i := by simpa using (Bool.and_eq_true_iff.mp hb).2
      exact hmask (hi ▸ getLsbD_flashEventMask k)
    simp [hmask, hbit]

/-- Raising a flag adds that request and no other. -/
theorem or_eventBit_and_ne_zero (set : BitVec 32) (j k : FlashKind) :
    (set ||| j.eventBit) &&& k.eventBit ≠ 0 ↔ set &&& k.eventBit ≠ 0 ∨ j = k := by
  rw [and_eventBit_ne_zero, and_eventBit_ne_zero, BitVec.getLsbD_or, getLsbD_eventBit]
  simp

/-- Clearing the set the thread asks for leaves no request raised. -/
theorem and_not_flashEventMask (set : BitVec 32) (k : FlashKind) :
    ¬ (set &&& ~~~flashEventMask) &&& k.eventBit ≠ 0 := by
  rw [and_eventBit_ne_zero, BitVec.getLsbD_and, BitVec.getLsbD_not, getLsbD_flashEventMask]
  simp

/-- A single flag is dispatched to its own request. -/
theorem dispatchKind_eventBit (k : FlashKind) : dispatchKind k.eventBit = some k := by
  cases k <;> decide

/-! ### What one step does -/

theorem eventBit_ne_zero (k : FlashKind) : k.eventBit ≠ 0#32 := by
  cases k <;> decide

/-- The thread's receive: take every raised request, or be suspended. -/
theorem rtEventRecv_flash (event : Event Unit) :
    rtEventRecv event () flashEventMask .orClear true =
      if event.set &&& flashEventMask ≠ 0 then
        ({ event with set := event.set &&& ~~~flashEventMask },
          .received (event.set &&& flashEventMask))
      else
        ({ event with
            suspendThread := event.suspendThread ++ [⟨(), flashEventMask, .orClear⟩] },
          .suspended) := by
  have hmask : flashEventMask ≠ 0#32 := by decide
  by_cases h : event.set &&& flashEventMask = 0#32 <;>
    simp [rtEventRecv, EventOption.orClear, hmask, h]

/-- A request made while the thread is not suspended raises its flag. -/
theorem rtEventSend_of_not_suspended {event : Event Unit} (h : event.suspendThread = [])
    (k : FlashKind) :
    rtEventSend event k.eventBit = (⟨event.set ||| k.eventBit, []⟩, []) := by
  simp [rtEventSend, eventBit_ne_zero, h, sendLoop]

/-- A request made while the thread is suspended, and so nothing else is raised, is
handed to the thread. -/
theorem rtEventSend_of_suspended {event : Event Unit}
    (h : event.suspendThread = [⟨(), flashEventMask, .orClear⟩])
    (hquiet : ∀ j : FlashKind, ¬ event.set &&& j.eventBit ≠ 0) (k : FlashKind) :
    rtEventSend event k.eventBit =
      (⟨(event.set ||| k.eventBit) &&& ~~~k.eventBit, []⟩,
        [⟨(), k.eventBit, .orClear⟩]) := by
  have hbit : flashEventMask &&& (event.set ||| k.eventBit) = k.eventBit := by
    rw [BitVec.and_comm]
    refine and_flashEventMask_eq_eventBit ?_ ?_
    · exact (or_eventBit_and_ne_zero _ _ _).mpr (.inr rfl)
    · intro j hj
      rcases (or_eventBit_and_ne_zero _ _ _).mp hj with hj | rfl
      · exact absurd hj (hquiet j)
      · rfl
  simp [rtEventSend, eventBit_ne_zero, h, sendLoop, Waiter.resume, EventOption.orClear, hbit]

/-! ### Outstanding requests -/

/-- The request was made and no job of its kind has been started since. -/
def Owed (log : List FlashLog) (k : FlashKind) : Prop :=
  ∃ before after, log = before ++ .notified k :: after ∧ .started k ∉ after

theorem requestsServed_iff (log : List FlashLog) :
    RequestsServed log ↔ ∀ k, ¬ Owed log k := by
  constructor
  · rintro h k ⟨before, after, hlog, hne⟩
    exact hne (h before k after hlog)
  · intro h before k after hlog
    by_contra hne
    exact h k ⟨before, after, hlog, hne⟩

/-- A further log entry leaves a request outstanding only if it was, unless it is that
request itself. -/
theorem Owed.of_snoc {log : List FlashLog} {x : FlashLog} {k : FlashKind}
    (h : Owed (log ++ [x]) k) : x = .notified k ∨ (Owed log k ∧ x ≠ .started k) := by
  obtain ⟨before, after, hlog, hne⟩ := h
  rcases List.eq_nil_or_concat after with rfl | ⟨init, y, rfl⟩
  · left
    have := congrArg List.getLast? hlog
    simpa using this
  · right
    rw [List.concat_eq_append] at hlog hne
    rw [← List.cons_append, ← List.append_assoc] at hlog
    obtain ⟨hlog', hx⟩ := List.append_inj' hlog rfl
    obtain rfl : x = y := by simpa using hx
    refine ⟨⟨before, init, hlog', fun hm => hne ?_⟩, fun hx => hne ?_⟩
    · exact List.mem_append_left _ hm
    · simp [hx]

/-! ### The invariant -/

/-- The condition on a step: the chip is one the thread supports, and a receive finds at
most one request raised. -/
def SingleRequest (capacity : Option ℕ) (s : FlashState) : FlashAction → Prop
  | .notify _ => True
  | .thread _ =>
      (s.pc = .entry → (capacity.bind fun c => flashLayout (c / 1024 / 1024)).isSome) ∧
        (s.pc = .recv → ∀ j k, s.Pending j → s.Pending k → j = k)

instance (capacity : Option ℕ) (s : FlashState) :
    ∀ a, Decidable (SingleRequest capacity s a)
  | .notify _ => .isTrue trivial
  | .thread _ => inferInstanceAs (Decidable (_ ∧ _))

/-- What holds while no receive finds two requests: the thread is on the waiting list
exactly when it is suspended, and then nothing is raised; the flags it was handed are
those of one request; and every outstanding request is raised or in its hands. -/
structure FlashInv (s : FlashState) : Prop where
  queue : s.event.suspendThread =
    if s.pc = .suspended then [⟨(), flashEventMask, .orClear⟩] else []
  quiet : s.pc = .suspended → ∀ k, ¬ s.Pending k
  single : ∀ flag, s.pc = .resumed flag ∨ s.pc = .dispatch flag → ∃ k : FlashKind,
    flag = k.eventBit
  running : s.pc ≠ .exited
  owed : ∀ k, Owed s.log k →
    s.Pending k ∨ s.pc = .resumed k.eventBit ∨ s.pc = .dispatch k.eventBit

theorem flashInv_init : FlashInv flashInit where
  queue := rfl
  quiet := by simp [flashInit]
  single := by simp [flashInit]
  running := by simp [flashInit]
  owed := by
    rintro k ⟨before, after, hlog, -⟩
    simp [flashInit] at hlog

variable {s t : FlashState} {capacity : Option ℕ}

/-- A request keeps the invariant. -/
theorem FlashInv.notify (h : FlashInv s) (k : FlashKind) :
    FlashInv (boardFlashNotisfy s k) := by
  by_cases hs : s.pc = .suspended
  · have hq : s.event.suspendThread = [⟨(), flashEventMask, .orClear⟩] := by
      rw [h.queue, if_pos hs]
    have hsend := rtEventSend_of_suspended hq (h.quiet hs) k
    refine ⟨?_, ?_, ?_, ?_, ?_⟩
    · simp [boardFlashNotisfy, hsend]
    · simp [boardFlashNotisfy, hsend]
    · intro flag hflag
      refine ⟨k, ?_⟩
      simpa [boardFlashNotisfy, hsend, eq_comm] using hflag
    · simp [boardFlashNotisfy, hsend]
    · intro j hj
      rcases Owed.of_snoc hj with hjk | ⟨hj, -⟩
      · obtain rfl : k = j := by simpa using hjk
        right; left
        simp [boardFlashNotisfy, hsend]
      · -- nothing was outstanding while the thread was suspended
        rcases h.owed j hj with hp | hp | hp
        · exact absurd hp (h.quiet hs j)
        · rw [hs] at hp; exact absurd hp (by simp)
        · rw [hs] at hp; exact absurd hp (by simp)
  · have hq : s.event.suspendThread = [] := by rw [h.queue, if_neg hs]
    have hsend := rtEventSend_of_not_suspended hq k
    have hpc : (boardFlashNotisfy s k).pc = s.pc := by simp [boardFlashNotisfy, hsend]
    have hset : (boardFlashNotisfy s k).event.set = s.event.set ||| k.eventBit := by
      simp [boardFlashNotisfy, hsend]
    refine ⟨?_, ?_, ?_, ?_, ?_⟩
    · rw [hpc, if_neg hs]
      simp [boardFlashNotisfy, hsend]
    · rw [hpc]
      intro hs'
      exact absurd hs' hs
    · rw [hpc]
      exact h.single
    · rw [hpc]
      exact h.running
    · intro j hj
      rw [hpc, FlashState.Pending, hset, or_eventBit_and_ne_zero]
      rcases Owed.of_snoc hj with hjk | ⟨hj, -⟩
      · obtain rfl : k = j := by simpa using hjk
        exact .inl (.inr rfl)
      · rcases h.owed j hj with hp | hp
        · exact .inl (.inl hp)
        · exact .inr hp

/-- A receive keeps the invariant when it finds at most one request. -/
theorem FlashInv.recv {jobStatus : ℤ} (h : FlashInv s) (hpc : s.pc = .recv)
    (hone : ∀ j k, s.Pending j → s.Pending k → j = k)
    (hstep : threadStep capacity s jobStatus = some t) : FlashInv t := by
  have hq : s.event.suspendThread = [] := by rw [h.queue, hpc, if_neg (by simp)]
  have hlive : ∀ k, Owed s.log k → s.Pending k := by
    intro k hk
    simpa [hpc] using h.owed k hk
  rw [threadStep, hpc] at hstep
  simp only [rtEventRecv_flash] at hstep
  by_cases hnone : s.event.set &&& flashEventMask = 0
  · have hquiet := (and_flashEventMask_eq_zero _).mp hnone
    simp only [hnone, ne_eq, not_true_eq_false, if_false, Option.some.injEq] at hstep
    subst hstep
    exact ⟨by simp [hq], fun _ => hquiet, by simp, by simp,
      fun k hk => absurd (hlive k hk) (hquiet k)⟩
  · simp only [hnone, ne_eq, not_false_eq_true, if_true, Option.some.injEq] at hstep
    subst hstep
    -- some request is raised, and by the condition it is the only one
    obtain ⟨k, hk⟩ : ∃ k, s.Pending k := by
      by_contra hno
      exact hnone ((and_flashEventMask_eq_zero _).mpr fun k hk => hno ⟨k, hk⟩)
    have hflag : s.event.set &&& flashEventMask = k.eventBit :=
      and_flashEventMask_eq_eventBit hk fun j hj => hone j k hj hk
    refine ⟨by simp [hq], by simp, fun flag hf => ⟨k, ?_⟩, by simp, fun j hj => ?_⟩
    · rw [← hflag]
      simpa [eq_comm] using hf
    · obtain rfl := hone j k (hlive j hj) hk
      exact .inr (.inr (by rw [← hflag]))

/-- A step of the thread keeps the invariant when it meets the condition. -/
theorem FlashInv.thread {jobStatus : ℤ}
    (h : FlashInv s) (hone : SingleRequest capacity s (.thread jobStatus))
    (hstep : threadStep capacity s jobStatus = some t) : FlashInv t := by
  obtain ⟨hentry, hrecv⟩ := hone
  cases hpc : s.pc with
  | entry =>
      obtain ⟨l, hl⟩ := Option.isSome_iff_exists.mp (hentry hpc)
      rw [threadStep, hpc] at hstep
      simp only [hl, Option.some.injEq] at hstep
      subst hstep
      exact ⟨by simpa [hpc] using h.queue, by simp, by simp, by simp,
        fun k hk => by simpa [FlashState.Pending, hpc] using h.owed k hk⟩
  | recv => exact h.recv hpc (hrecv hpc) hstep
  | suspended => simp [threadStep, hpc] at hstep
  | resumed flag =>
      rw [threadStep, hpc] at hstep
      simp only [Option.some.injEq] at hstep
      subst hstep
      exact ⟨by simpa [hpc] using h.queue, by simp,
        fun flag' hf => h.single flag' (.inl (by simpa [hpc] using hf)), by simp,
        fun k hk => by simpa [FlashState.Pending, hpc] using h.owed k hk⟩
  | dispatch flag =>
      -- the flag is that of one request, so the chain starts exactly that job
      obtain ⟨k, rfl⟩ := h.single flag (.inr hpc)
      rw [threadStep, hpc] at hstep
      simp only [dispatchKind_eventBit, Option.some.injEq] at hstep
      subst hstep
      refine ⟨by simpa [hpc] using h.queue, by simp, by simp, by simp, fun j hj => ?_⟩
      obtain ⟨hj, hne⟩ := (Owed.of_snoc hj).resolve_left (by simp)
      refine .inl ((h.owed j hj).resolve_right ?_)
      simp only [hpc, reduceCtorEq, false_or, ThreadPc.dispatch.injEq]
      intro hjk
      have := congrArg dispatchKind hjk
      rw [dispatchKind_eventBit, dispatchKind_eventBit, Option.some.injEq] at this
      exact hne (by rw [this])
  | job k =>
      rw [threadStep, hpc] at hstep
      simp only [Option.some.injEq] at hstep
      subst hstep
      exact ⟨by simpa [hpc] using h.queue, by simp, by simp, by simp,
        fun k hk => by simpa [FlashState.Pending, hpc] using h.owed k hk⟩
  | exited => exact absurd hpc h.running

/-- One step of the flash subsystem keeps the invariant when it meets the condition. -/
theorem FlashInv.step {a : FlashAction} (h : FlashInv s) (hone : SingleRequest capacity s a)
    (hstep : flashStep capacity s a = some t) : FlashInv t := by
  cases a with
  | notify k =>
      obtain rfl : boardFlashNotisfy s k = t := by simpa [flashStep] using hstep
      exact h.notify k
  | thread jobStatus => exact h.thread hone hstep

/-- An idle thread owes nothing. -/
theorem FlashInv.requestsServed (h : FlashInv s) (hidle : s.Idle) :
    RequestsServed s.log := by
  have hs : s.pc = .suspended := hidle.resolve_right h.running
  rw [requestsServed_iff]
  intro k hk
  rcases h.owed k hk with hp | hp | hp
  · exact h.quiet hs k hp
  all_goals
    rw [hs] at hp
    exact absurd hp (by simp)

/-! ### The thread becomes idle -/

/-- The thread alone, its jobs ending well, reaches an idle state. -/
def ReachesIdle (capacity : Option ℕ) (s : FlashState) : Prop :=
  ∃ n t, exec (flashStep capacity) s (List.replicate n (.thread 100)) = some t ∧ t.Idle

theorem ReachesIdle.of_idle (h : s.Idle) :
    ReachesIdle capacity s :=
  ⟨0, s, rfl, h⟩

theorem ReachesIdle.of_step
    (hstep : threadStep capacity s 100 = some t) (h : ReachesIdle capacity t) :
    ReachesIdle capacity s := by
  obtain ⟨n, u, hrun, hidle⟩ := h
  refine ⟨n + 1, u, ?_, hidle⟩
  rw [List.replicate_succ, exec_cons_eq_some]
  exact ⟨t, hstep, hrun⟩

/-- Before a receive that finds nothing, the thread is one step from being suspended. -/
theorem reachesIdle_of_recv_quiet
    (hpc : s.pc = .recv) (hquiet : s.event.set &&& flashEventMask = 0) :
    ReachesIdle capacity s := by
  refine .of_step (t := { s with
    event := ⟨s.event.set, s.event.suspendThread ++ [⟨(), flashEventMask, .orClear⟩]⟩
    pc := .suspended }) ?_ (.of_idle (.inl rfl))
  rw [threadStep, hpc]
  simp [rtEventRecv_flash, hquiet]

/-- Behind a receive the thread carries out at most one job and comes back to the
receive, with the flags as they are. -/
theorem reachesIdle_of_dispatch {flag : BitVec 32} (hpc : s.pc = .dispatch flag)
    (hrecv : ∀ t : FlashState, t.pc = .recv → t.event = s.event → ReachesIdle capacity t) :
    ReachesIdle capacity s := by
  cases hk : dispatchKind flag with
  | none =>
      refine .of_step (t := { s with pc := .recv }) ?_ (hrecv _ rfl rfl)
      rw [threadStep, hpc]
      simp [hk]
  | some k =>
      refine .of_step
        (t := { s with pc := .job k, status := 0, log := s.log ++ [.started k] }) ?_
        (.of_step rfl (hrecv _ rfl rfl))
      rw [threadStep, hpc]
      simp [hk]

theorem reachesIdle_of_recv (hpc : s.pc = .recv) :
    ReachesIdle capacity s := by
  by_cases hquiet : s.event.set &&& flashEventMask = 0#32
  · exact reachesIdle_of_recv_quiet hpc hquiet
  · -- the receive clears every request, so the next one finds nothing
    refine .of_step (t := { s with
      event := ⟨s.event.set &&& ~~~flashEventMask, s.event.suspendThread⟩
      pc := .dispatch (s.event.set &&& flashEventMask) }) ?_
      (reachesIdle_of_dispatch rfl fun t ht hev => reachesIdle_of_recv_quiet ht ?_)
    · rw [threadStep, hpc]
      simp [rtEventRecv_flash, hquiet]
    · rw [hev, and_flashEventMask_eq_zero]
      intro k
      exact and_not_flashEventMask s.event.set k

/-- **The thread becomes idle**, from every state, once no further request is made. -/
theorem thread_becomes_idle (capacity : Option ℕ) (s : FlashState) :
    ReachesIdle capacity s := by
  cases hpc : s.pc with
  | entry =>
      cases hl : capacity.bind fun c => flashLayout (c / 1024 / 1024) with
      | none =>
          refine .of_step (t := { s with pc := .exited, status := -1 }) ?_
            (.of_idle (.inr rfl))
          rw [threadStep, hpc]
          simp [hl]
      | some l =>
          refine .of_step (t := { s with pc := .recv }) ?_ (reachesIdle_of_recv rfl)
          rw [threadStep, hpc]
          simp [hl]
  | recv => exact reachesIdle_of_recv hpc
  | suspended => exact .of_idle (.inl hpc)
  | resumed flag =>
      refine .of_step (t := { s with pc := .dispatch flag }) ?_
        (reachesIdle_of_dispatch rfl fun t ht _ => reachesIdle_of_recv ht)
      rw [threadStep, hpc]
  | dispatch flag => exact reachesIdle_of_dispatch hpc fun t ht _ => reachesIdle_of_recv ht
  | job k =>
      refine .of_step (t := { s with pc := .recv, status := 100 }) ?_ (reachesIdle_of_recv rfl)
      rw [threadStep, hpc]
  | exited => exact .of_idle (.inr hpc)

/-! ### Requests along runs -/

/-- **No request is lost while no receive finds two.** In every run whose steps all meet
`SingleRequest`, whenever the thread is idle every request has been followed by a job of
its kind; and from every state reached the thread, left alone, becomes idle, with every
request served if the condition held on the way. -/
theorem requests_served_of_single {capacity : Option ℕ} {as : List FlashAction}
    {s : FlashState} (hmeet : StepsMeet (flashStep capacity) (SingleRequest capacity) flashInit as)
    (hrun : exec (flashStep capacity) flashInit as = some s) :
    (s.Idle → RequestsServed s.log) ∧
      ∃ n t, exec (flashStep capacity) s (List.replicate n (.thread 100)) = some t ∧ t.Idle ∧
        (StepsMeet (flashStep capacity) (SingleRequest capacity) s
            (List.replicate n (.thread 100)) → RequestsServed t.log) := by
  have hinv : FlashInv s :=
    exec_invariant (fun hone hi hs => hi.step hone hs) hmeet flashInv_init hrun
  obtain ⟨n, t, hrest, hidle⟩ := thread_becomes_idle capacity s
  refine ⟨hinv.requestsServed, n, t, hrest, hidle, ?_⟩
  intro hmeet'
  have hinv' : FlashInv t :=
    exec_invariant (fun hone hi hs => hi.step hone hs) hmeet' hinv hrest
  exact hinv'.requestsServed hidle

/-- On a 2 MB chip a u-boot request that reaches the suspended thread is served. -/
theorem requests_served_uboot :
    ∃ s, exec (flashStep (some (2 * 1024 * 1024))) flashInit
        [.thread 0, .thread 0, .notify .uboot, .thread 0, .thread 0, .thread 100, .thread 0]
          = some s ∧ s.Idle ∧ .notified .uboot ∈ s.log ∧ RequestsServed s.log := by
  refine ⟨⟨⟨0, [⟨(), flashEventMask, .orClear⟩]⟩, .suspended, 100,
    [.notified .uboot, .started .uboot]⟩, by decide, by decide, by decide, ?_⟩
  have hmeet : StepsMeet (flashStep (some (2 * 1024 * 1024)))
      (SingleRequest (some (2 * 1024 * 1024))) flashInit
      [.thread 0, .thread 0, .notify .uboot, .thread 0, .thread 0, .thread 100, .thread 0] := by
    decide
  exact (requests_served_of_single hmeet (by decide)).1 (by decide)

/-- A run that loses a request: while the firmware job runs, u-boot and art are requested;
one receive takes both flags and only the u-boot job is started. The thread ends up
suspended, and the art job was never started. -/
theorem art_request_lost :
    ∃ s, exec (flashStep (some (2 * 1024 * 1024))) flashInit
        [.thread 0, .thread 0, .notify .firmware, .thread 0, .thread 0, .notify .uboot,
          .notify .art, .thread 100, .thread 0, .thread 0, .thread 100, .thread 0]
          = some s ∧ s.Idle ∧ ¬ s.Pending .art ∧ .notified .art ∈ s.log ∧
        .started .art ∉ s.log ∧ ¬ RequestsServed s.log := by
  refine ⟨⟨⟨0, [⟨(), flashEventMask, .orClear⟩]⟩, .suspended, 100,
    [.notified .firmware, .started .firmware, .notified .uboot, .notified .art,
      .started .uboot]⟩, by decide, by decide, by decide, by decide, by decide, ?_⟩
  intro h
  exact absurd (h [.notified .firmware, .started .firmware, .notified .uboot] .art
    [.started .uboot] rfl) (by decide)

end RtBoot
