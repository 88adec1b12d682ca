import Mathlib.Data.BitVec
import RtBoot.FairRun
import RtBoot.Semaphore

/-!
# Console Input

How a character gets from the UART to the shell. `finsh_getchar` reads the device and waits on
the semaphore `rx_sem` whenever the read came up empty. A read that comes up short enables the
receive interrupt of the UART. The interrupt handler disables it again, as long as somebody
is to be told, and releases the semaphore.

The model has every access of either side to the UART and the semaphore as a step of its own.
Characters may come in at any moment. The handler may start between any two steps of the
shell when the interrupt is enabled and the FIFO holds a character; the shell does not run
while the handler does. Setting and clearing a bit of a register is a read and a write, with
whatever happens in between.

The invariant ties four things together: the interrupt enable bit, the tokens in the
semaphore, the position of the shell and the position of the handler. Behind a read that came
up empty, the bit is set or there is a token, up to the moment the shell waits.

## Main results

* `Wakes.step`: every step keeps the invariant.
* `Console.rank`: what every step of shell or handler lowers until a character is returned.
* `console_no_lost_wakeup`: **no lost wake-up**, and every character that fits the FIFO is
  returned, in order and once.
-/

namespace RtBoot

/-- `QCA_LSUART_IER_ERBFI_MASK`. -/
def ierErbfiMask : BitVec 32 :=
  1#32

/-- Where the shell is: outside `finsh_getchar`; in `rt_qca953x_lsuart_read`, in front of
`qca953x_lsuart_tstc`, of reading the character, of reading the interrupt enable register and
of writing it with the value read; in front of `rt_sem_take`, or in it. -/
inductive ShellPc
  | idle
  | tstc
  | readRbr
  | readIer
  | writeIer (value : BitVec 32)
  | takeSem
  | inTake
  deriving DecidableEq

/-- Where `rt_qca953x_lsuart_irq_handler` is: not running; in front of reading the interrupt
identification, of reading the line status, of reading and writing the interrupt enable
register, of `rx_indicate`; or, where nobody is to be told, in the loop that drops
characters. -/
inductive HandlerPc
  | idle
  | readIir
  | readLsr
  | readIer
  | writeIer (value : BitVec 32)
  | rxIndicate
  | tstc
  | readRbr
  deriving DecidableEq

/-- The receive side of the UART, the shell and the handler. `accepted` are the characters the
FIFO took and `returned` those that `finsh_getchar` returned. -/
structure Console where
  fifo : List UInt8
  ier : BitVec 32
  rxSem : Semaphore 65536
  /-- A callback is installed: `rx_indicate` is not `RT_NULL`. -/
  rxIndicate : Bool
  shell : ShellPc
  handler : HandlerPc
  accepted : List UInt8
  returned : List UInt8
  deriving DecidableEq

/-- The receive interrupt is enabled. -/
def Console.rxEnabled (s : Console) : Bool :=
  s.ier &&& ierErbfiMask != 0

/-- The next step of the shell. Reading the data register of an empty FIFO gives nothing that
was received; a zero stands for it. -/
def Console.shellStep (s : Console) : Option Console :=
  match s.shell with
  | .idle => some { s with shell := .tstc }
  | .tstc =>
      if s.fifo = [] then some { s with shell := .readIer } else some { s with shell := .readRbr }
  | .readRbr =>
      match s.fifo with
      | [] => some { s with shell := .idle, returned := s.returned ++ [0] }
      | ch :: fifo =>
          some { s with fifo := fifo, shell := .idle, returned := s.returned ++ [ch] }
  | .readIer => some { s with shell := .writeIer s.ier }
  | .writeIer value => some { s with ier := value ||| ierErbfiMask, shell := .takeSem }
  | .takeSem => some { s with rxSem := s.rxSem.take, shell := .inTake }
  | .inTake => if s.rxSem.waiting then none else some { s with shell := .tstc }

/-- The next step of the handler. The callback is `finsh_rx_ind`. -/
def Console.handlerStep (s : Console) : Option Console :=
  match s.handler with
  | .idle => none
  | .readIir => some { s with handler := .readLsr }
  | .readLsr =>
      if s.fifo = [] then some { s with handler := .idle }
      else if s.rxIndicate then some { s with handler := .readIer }
      else some { s with handler := .tstc }
  | .readIer => some { s with handler := .writeIer s.ier }
  | .writeIer value => some { s with ier := value &&& ~~~ierErbfiMask, handler := .rxIndicate }
  | .rxIndicate => some { s with rxSem := s.rxSem.release, handler := .idle }
  | .tstc =>
      if s.fifo = [] then some { s with handler := .idle }
      else some { s with handler := .readRbr }
  | .readRbr => some { s with fifo := s.fifo.tail, handler := .tstc }

/-- The steps: a character comes in, the interrupt is taken, the handler and the shell go
on. -/
inductive ConsoleAction
  | arrive (ch : UInt8)
  | interrupt
  | handler
  | shell
  deriving DecidableEq

/-- The steps of the processor. -/
def ConsoleAction.Own : ConsoleAction → Prop
  | .arrive _ => False
  | _ => True

/-- One step, with a FIFO of `fifoSize` characters. One that does not fit is lost. -/
def consoleStep (fifoSize : ℕ) (s : Console) : ConsoleAction → Option Console
  | .arrive ch =>
      if s.fifo.length < fifoSize then
        some { s with fifo := s.fifo ++ [ch], accepted := s.accepted ++ [ch] }
      else some s
  | .interrupt =>
      if s.handler = .idle ∧ s.rxEnabled = true ∧ s.fifo ≠ [] then
        some { s with handler := .readIir }
      else none
  | .handler => s.handlerStep
  | .shell => if s.handler = .idle then s.shellStep else none

/-- A start: neither side is in the middle of anything, the callback is installed, and the
semaphore is not about to overflow. What the registers and the FIFO hold does not matter. -/
structure Console.Starts (s : Console) : Prop where
  shell : s.shell = .idle
  handler : s.handler = .idle
  waiting : s.rxSem.waiting = false
  tokens : s.rxSem.value + 2 < 65536
  callback : s.rxIndicate = true
  accepted : s.accepted = s.fifo
  returned : s.returned = []

/-- **No wake-up is lost.** When the shell is blocked on its semaphore, and then the count is
zero, and the FIFO holds a character: the receive interrupt is enabled, so that the handler is
due. Within the handler it is enabled too, up to the write that comes right before
`rx_indicate` releases the semaphore. -/
structure NoLostWakeup (s : Console) : Prop where
  due : s.rxSem.waiting = true → s.fifo ≠ [] → s.handler = .idle → s.rxEnabled = true
  running : s.rxSem.waiting = true → s.fifo ≠ [] → s.handler ≠ .idle →
    s.rxEnabled = true ∨ s.handler = .rxIndicate

/-! ### The enable bit -/

variable {value : BitVec 32} {s t : Console} {a : ConsoleAction} {n : ℕ}

theorem rxEnabled_of_set (h : s.ier = value ||| ierErbfiMask) :
    s.rxEnabled = true := by
  have hbit : (s.ier &&& ierErbfiMask).getLsbD 0 = true := by
    rw [h, BitVec.getLsbD_and, BitVec.getLsbD_or]
    simp [ierErbfiMask]
  refine bne_iff_ne.mpr ?_
  intro hzero
  rw [hzero] at hbit
  cases hbit

theorem rxEnabled_of_clear (h : s.ier = value &&& ~~~ierErbfiMask) : s.rxEnabled = false := by
  have hmask : ~~~ierErbfiMask &&& ierErbfiMask = 0#32 := by decide
  rw [Console.rxEnabled, h, BitVec.and_assoc, hmask, BitVec.and_zero]
  rfl

/-! ### The steps -/

/-- All that a step can be. The loop that drops characters and the read of an empty FIFO are not
followed any further: with a callback installed neither happens. -/
inductive ConsoleStep (s : Console) : ConsoleAction → Console → Prop
  | arrive (ch : UInt8) :
      ConsoleStep s (.arrive ch)
        { s with fifo := s.fifo ++ [ch], accepted := s.accepted ++ [ch] }
  | lose (ch : UInt8) : ConsoleStep s (.arrive ch) s
  | interrupt (hidle : s.handler = .idle) (henabled : s.rxEnabled = true) :
      ConsoleStep s .interrupt { s with handler := .readIir }
  | readIir (hpc : s.handler = .readIir) : ConsoleStep s .handler { s with handler := .readLsr }
  | readLsrEmpty (hpc : s.handler = .readLsr) (hfifo : s.fifo = []) :
      ConsoleStep s .handler { s with handler := .idle }
  | readLsr (hpc : s.handler = .readLsr) (hcallback : s.rxIndicate = true) :
      ConsoleStep s .handler { s with handler := .readIer }
  | handlerReadIer (hpc : s.handler = .readIer) :
      ConsoleStep s .handler { s with handler := .writeIer s.ier }
  | handlerWriteIer (value : BitVec 32) (hpc : s.handler = .writeIer value) :
      ConsoleStep s .handler
        { s with ier := value &&& ~~~ierErbfiMask, handler := .rxIndicate }
  | rxIndicate (hpc : s.handler = .rxIndicate) :
      ConsoleStep s .handler { s with rxSem := s.rxSem.release, handler := .idle }
  | drop (t : Console)
      (hpc : s.rxIndicate = false ∨ s.handler = .tstc ∨ s.handler = .readRbr) :
      ConsoleStep s .handler t
  | getchar (hidle : s.handler = .idle) (hpc : s.shell = .idle) :
      ConsoleStep s .shell { s with shell := .tstc }
  | tstcEmpty (hidle : s.handler = .idle) (hpc : s.shell = .tstc) (hfifo : s.fifo = []) :
      ConsoleStep s .shell { s with shell := .readIer }
  | tstc (hidle : s.handler = .idle) (hpc : s.shell = .tstc) (hfifo : s.fifo ≠ []) :
      ConsoleStep s .shell { s with shell := .readRbr }
  | readRbrEmpty (hpc : s.shell = .readRbr) (hfifo : s.fifo = []) (t : Console) :
      ConsoleStep s .shell t
  | readRbr (hidle : s.handler = .idle) (hpc : s.shell = .readRbr) (ch : UInt8)
      (fifo : List UInt8) (hfifo : s.fifo = ch :: fifo) :
      ConsoleStep s .shell
        { s with fifo := fifo, shell := .idle, returned := s.returned ++ [ch] }
  | readIer (hidle : s.handler = .idle) (hpc : s.shell = .readIer) :
      ConsoleStep s .shell { s with shell := .writeIer s.ier }
  | writeIer (hidle : s.handler = .idle) (value : BitVec 32) (hpc : s.shell = .writeIer value) :
      ConsoleStep s .shell { s with ier := value ||| ierErbfiMask, shell := .takeSem }
  | takeSem (hidle : s.handler = .idle) (hpc : s.shell = .takeSem) :
      ConsoleStep s .shell { s with rxSem := s.rxSem.take, shell := .inTake }
  | inTake (hidle : s.handler = .idle) (hpc : s.shell = .inTake)
      (hwait : s.rxSem.waiting = false) : ConsoleStep s .shell { s with shell := .tstc }

theorem handlerStep_cases (h : s.handlerStep = some t) :
    ConsoleStep s .handler t := by
  unfold Console.handlerStep at h
  split at h
  case h_1 => cases h
  case h_2 hpc =>
    cases h
    exact .readIir hpc
  case h_3 hpc =>
    split_ifs at h with hfifo hcallback <;> cases h
    · exact .readLsrEmpty hpc hfifo
    · exact .readLsr hpc hcallback
    · exact .drop _ (.inl (Bool.not_eq_true _ ▸ hcallback))
  case h_4 hpc =>
    cases h
    exact .handlerReadIer hpc
  case h_5 value hpc =>
    cases h
    exact .handlerWriteIer value hpc
  case h_6 hpc =>
    cases h
    exact .rxIndicate hpc
  case h_7 hpc => exact .drop _ (.inr (.inl hpc))
  case h_8 hpc => exact .drop _ (.inr (.inr hpc))

theorem shellStep_cases (hidle : s.handler = .idle) (h : s.shellStep = some t) :
    ConsoleStep s .shell t := by
  unfold Console.shellStep at h
  split at h
  case h_1 hpc =>
    cases h
    exact .getchar hidle hpc
  case h_2 hpc =>
    split_ifs at h with hfifo <;> cases h
    · exact .tstcEmpty hidle hpc hfifo
    · exact .tstc hidle hpc hfifo
  case h_3 hpc =>
    split at h
    · exact .readRbrEmpty hpc ‹_› _
    · cases h
      exact .readRbr hidle hpc _ _ ‹_›
  case h_4 hpc =>
    cases h
    exact .readIer hidle hpc
  case h_5 value hpc =>
    cases h
    exact .writeIer hidle value hpc
  case h_6 hpc =>
    cases h
    exact .takeSem hidle hpc
  case h_7 hpc =>
    split_ifs at h with hwait
    cases h
    exact .inTake hidle hpc (Bool.not_eq_true _ ▸ hwait)

/-- What each step of the console can be. -/
theorem consoleStep_cases {fifoSize : ℕ}
    (h : consoleStep fifoSize s a = some t) : ConsoleStep s a t := by
  cases a with
  | arrive ch =>
      simp only [consoleStep] at h
      split_ifs at h <;> cases h
      · exact .arrive ch
      · exact .lose ch
  | interrupt =>
      obtain ⟨⟨hidle, henabled, -⟩, ⟨⟩⟩ := Option.ite_none_right_eq_some.mp h
      exact .interrupt hidle henabled
  | handler => exact handlerStep_cases h
  | shell =>
      obtain ⟨hidle, hstep⟩ := Option.ite_none_right_eq_some.mp h
      exact shellStep_cases hidle hstep

/-! ### The invariant -/

/-- A token that the handler is going to release, or is about to: the interrupt is enabled, or
the handler has just disabled it. -/
def Console.coming (s : Console) : ℕ :=
  if s.rxEnabled = true ∨ s.handler = .rxIndicate then 1 else 0

/-- The token that the shell is about to take. -/
def ShellPc.owed : ShellPc → ℕ
  | .takeSem => 1
  | _ => 0

/-- The interrupt stays enabled up to the handler's write. -/
def HandlerPc.Ok (enabled : Bool) : HandlerPc → Prop
  | .idle => True
  | .readIir | .readLsr | .readIer | .writeIer _ => enabled = true
  | .rxIndicate => enabled = false
  | .tstc | .readRbr => False

/-- What holds in every state, with `n` the tokens there can be between two reads. -/
structure Wakes (n : ℕ) (s : Console) : Prop where
  callback : s.rxIndicate = true
  handler : s.handler.Ok s.rxEnabled
  waiting : s.rxSem.waiting = true → s.shell = .inTake ∧ 0 < s.coming
  take : s.shell = .takeSem → 0 < s.rxSem.value + s.coming
  tokens : s.rxSem.value + s.coming ≤ n + s.shell.owed
  fetch : s.shell = .readRbr → s.fifo ≠ []
  stream : s.accepted = s.returned ++ s.fifo

theorem ShellPc.owed_le_one (pc : ShellPc) : pc.owed ≤ 1 := by
  cases pc with
  | takeSem => exact le_rfl
  | _ => exact Nat.zero_le _

theorem Console.coming_le_one (s : Console) : s.coming ≤ 1 := by
  unfold coming
  split <;> omega

theorem Console.coming_of_rxEnabled (h : s.rxEnabled = true) : s.coming = 1 :=
  if_pos (.inl h)

theorem Console.coming_of_rxIndicate (h : s.handler = .rxIndicate) : s.coming = 1 :=
  if_pos (.inr h)

/-- A step of the handler, or its start, that leaves the enable bit and the semaphore alone. -/
theorem Wakes.setHandler (h : Wakes n s) {pc : HandlerPc}
    (hok : pc.Ok s.rxEnabled) (hne : s.handler ≠ .rxIndicate) (hpc : pc ≠ .rxIndicate) :
    Wakes n { s with handler := pc } := by
  have hcoming : { s with handler := pc }.coming = s.coming := by
    simp only [Console.coming, hne, hpc, or_false]
    rfl
  exact ⟨h.callback, hok, fun hwait => ⟨(h.waiting hwait).1, hcoming ▸ (h.waiting hwait).2⟩,
    fun hshell => hcoming ▸ h.take hshell, hcoming ▸ h.tokens, h.fetch, h.stream⟩

/-- A step of the shell to another place in front of the semaphore, that leaves the enable bit
and the semaphore alone. -/
theorem Wakes.setShell (h : Wakes n s) {pc : ShellPc}
    (hwait : s.rxSem.waiting = false) (howed : s.shell.owed = 0) (hpc : pc.owed = 0)
    (hfetch : pc = .readRbr → s.fifo ≠ []) : Wakes n { s with shell := pc } where
  callback := h.callback
  handler := h.handler
  waiting := fun hw => absurd hw (by rw [hwait]; decide)
  take := by
    rintro rfl
    cases hpc
  tokens := by
    have htokens := h.tokens
    rw [howed] at htokens
    exact htokens.trans (Nat.le_add_right _ _)
  fetch := hfetch
  stream := h.stream

/-- The shell waits only within `rt_sem_take`. -/
theorem Wakes.not_waiting (h : Wakes n s) (hpc : s.shell ≠ .inTake) :
    s.rxSem.waiting = false := by
  by_contra hw
  exact hpc (h.waiting (Bool.not_eq_false _ ▸ hw)).1

/-- The handler drops no character. -/
theorem Wakes.not_drop (h : Wakes n s) :
    ¬ (s.rxIndicate = false ∨ s.handler = .tstc ∨ s.handler = .readRbr) := by
  have hok := h.handler
  rintro (hnone | hpc | hpc)
  · exact absurd h.callback (by rw [hnone]; decide)
  · rw [hpc] at hok
    exact hok
  · rw [hpc] at hok
    exact hok

/-- The handler disables the interrupt: the token is still to come. -/
theorem Wakes.handlerWriteIer (h : Wakes n s) (hpc : s.handler = .writeIer value) :
    Wakes n { s with ier := value &&& ~~~ierErbfiMask, handler := .rxIndicate } := by
  have henabled : s.rxEnabled = true := by
    have := h.handler
    rwa [hpc] at this
  have hcoming : { s with ier := value &&& ~~~ierErbfiMask, handler := .rxIndicate }.coming =
      s.coming := by
    rw [Console.coming_of_rxIndicate rfl, Console.coming_of_rxEnabled henabled]
  exact ⟨h.callback, rxEnabled_of_clear rfl,
    fun hwait => ⟨(h.waiting hwait).1, hcoming ▸ (h.waiting hwait).2⟩,
    fun hshell => hcoming ▸ h.take hshell, hcoming ▸ h.tokens, h.fetch, h.stream⟩

/-- The handler releases the semaphore: the token that was to come is there. -/
theorem Wakes.rxIndicate (hn : n + 1 < 65536) (h : Wakes n s) (hpc : s.handler = .rxIndicate) :
    Wakes n { s with rxSem := s.rxSem.release, handler := .idle } := by
  have hdisabled : s.rxEnabled = false := by
    have := h.handler
    rwa [hpc] at this
  have hcoming : s.coming = 1 := Console.coming_of_rxIndicate hpc
  have hnone : { s with rxSem := s.rxSem.release, handler := .idle }.coming = 0 := by
    refine if_neg ?_
    rintro (henabled | hpc')
    · exact Bool.false_ne_true (hdisabled.symm.trans henabled)
    · cases hpc'
  have htokens := h.tokens
  have howed : s.shell.owed ≤ 1 := s.shell.owed_le_one
  have hmore : s.rxSem.release.value ≤ s.rxSem.value + s.coming ∧
      (s.shell = .takeSem → 0 < s.rxSem.release.value) := by
    cases hwait : s.rxSem.waiting with
    | true =>
        have hshell := (h.waiting hwait).1
        rw [Semaphore.release_value_of_waiting hwait, hshell]
        exact ⟨Nat.zero_le _, nofun⟩
    | false =>
        rw [Semaphore.release_value hwait (by omega), hcoming]
        exact ⟨le_rfl, fun _ => Nat.succ_pos _⟩
  refine ⟨h.callback, trivial, ?_, ?_, ?_, h.fetch, h.stream⟩
  · intro hwait
    exact absurd hwait (by rw [Semaphore.release_waiting]; decide)
  · intro hshell
    rw [hnone]
    exact hmore.2 hshell
  · rw [hnone]
    exact hmore.1.trans htokens

/-- The shell enables the interrupt in front of `rt_sem_take`. -/
theorem Wakes.writeIer (h : Wakes n s) (hidle : s.handler = .idle)
    (hpc : s.shell = .writeIer value) :
    Wakes n { s with ier := value ||| ierErbfiMask, shell := .takeSem } := by
  have hwait := h.not_waiting (by rw [hpc]; nofun)
  have hcoming : { s with ier := value ||| ierErbfiMask, shell := .takeSem }.coming = 1 :=
    Console.coming_of_rxEnabled (rxEnabled_of_set rfl)
  have htokens := h.tokens
  rw [hpc] at htokens
  refine ⟨h.callback, ?_, ?_, ?_, ?_, nofun, h.stream⟩
  · change s.handler.Ok _
    rw [hidle]
    trivial
  · intro hw
    exact absurd hw (by rw [hwait]; decide)
  · intro _
    rw [hcoming]
    exact Nat.succ_pos _
  · rw [hcoming]
    change s.rxSem.value + 1 ≤ n + 1
    change s.rxSem.value + s.coming ≤ n + 0 at htokens
    omega

/-- The shell takes a token, or waits for the one that is to come. -/
theorem Wakes.takeSem (hn : 0 < n) (h : Wakes n s)
    (hpc : s.shell = .takeSem) : Wakes n { s with rxSem := s.rxSem.take, shell := .inTake } := by
  have htake := h.take hpc
  have htokens := h.tokens
  have htaken := s.rxSem.take_tokens
  have hone := s.coming_le_one
  rw [hpc] at htokens
  change s.rxSem.value + s.coming ≤ n + 1 at htokens
  refine ⟨h.callback, h.handler, ?_, nofun, ?_, nofun, h.stream⟩
  · intro hwait
    have hzero := s.rxSem.take.value_eq_zero hwait
    rw [hzero, Semaphore.passed_of_waiting hwait] at htaken
    refine ⟨rfl, ?_⟩
    change 0 < s.coming
    omega
  · change s.rxSem.take.value + s.coming ≤ n + 0
    cases hwait : s.rxSem.take.waiting with
    | true =>
        have hzero := s.rxSem.take.value_eq_zero hwait
        omega
    | false =>
        rw [Semaphore.passed_of_not_waiting hwait] at htaken
        omega

/-- Every step keeps the invariant. -/
theorem Wakes.step (hn : 0 < n) (hn' : n + 1 < 65536) (h : Wakes n s) (hstep : ConsoleStep s a t) :
    Wakes n t := by
  have hok := h.handler
  cases hstep with
  | arrive ch =>
      refine ⟨h.callback, h.handler, h.waiting, h.take, h.tokens, ?_, ?_⟩
      · intro _
        exact List.append_ne_nil_of_right_ne_nil _ (List.cons_ne_nil _ _)
      · change s.accepted ++ [ch] = s.returned ++ (s.fifo ++ [ch])
        rw [h.stream, List.append_assoc]
  | lose ch => exact h
  | interrupt hidle henabled =>
      exact h.setHandler henabled (by rw [hidle]; nofun) nofun
  | readIir hpc =>
      rw [hpc] at hok
      exact h.setHandler hok (by rw [hpc]; nofun) nofun
  | readLsrEmpty hpc hfifo => exact h.setHandler trivial (by rw [hpc]; nofun) nofun
  | readLsr hpc hcallback =>
      rw [hpc] at hok
      exact h.setHandler hok (by rw [hpc]; nofun) nofun
  | handlerReadIer hpc =>
      rw [hpc] at hok
      exact h.setHandler hok (by rw [hpc]; nofun) nofun
  | handlerWriteIer value hpc => exact h.handlerWriteIer hpc
  | rxIndicate hpc => exact h.rxIndicate hn' hpc
  | drop _ hpc => exact absurd hpc h.not_drop
  | getchar hidle hpc =>
      exact h.setShell (h.not_waiting (by rw [hpc]; nofun)) (by rw [hpc]; rfl) rfl nofun
  | tstcEmpty hidle hpc hfifo =>
      exact h.setShell (h.not_waiting (by rw [hpc]; nofun)) (by rw [hpc]; rfl) rfl nofun
  | tstc hidle hpc hfifo =>
      exact h.setShell (h.not_waiting (by rw [hpc]; nofun)) (by rw [hpc]; rfl) rfl fun _ => hfifo
  | readRbrEmpty hpc hfifo => exact absurd hfifo (h.fetch hpc)
  | readRbr hidle hpc ch fifo hfifo =>
      have hshell := h.setShell (h.not_waiting (by rw [hpc]; nofun)) (by rw [hpc]; rfl)
        (show ShellPc.idle.owed = 0 from rfl) nofun
      refine ⟨hshell.callback, hshell.handler, hshell.waiting, hshell.take, hshell.tokens, nofun,
        ?_⟩
      change s.accepted = s.returned ++ [ch] ++ fifo
      rw [h.stream, hfifo, List.append_assoc]
      rfl
  | readIer hidle hpc =>
      exact h.setShell (h.not_waiting (by rw [hpc]; nofun)) (by rw [hpc]; rfl) rfl nofun
  | writeIer hidle value hpc => exact h.writeIer hidle hpc
  | takeSem hidle hpc => exact h.takeSem hn hpc
  | inTake hidle hpc hwait => exact h.setShell hwait (by rw [hpc]; rfl) rfl nofun

/-- Where the invariant holds, no wakeup is lost. -/
theorem Wakes.noLostWakeup (h : Wakes n s) : NoLostWakeup s := by
  have hcoming : s.rxSem.waiting = true → s.rxEnabled = true ∨ s.handler = .rxIndicate := by
    intro hwait
    by_contra hnot
    have hpos := (h.waiting hwait).2
    rw [Console.coming, if_neg hnot] at hpos
    exact absurd hpos (Nat.lt_irrefl 0)
  constructor
  · intro hwait _ hidle
    exact (hcoming hwait).resolve_right (by rw [hidle]; nofun)
  · intro hwait _ _
    exact hcoming hwait

theorem Console.Starts.wakes (h : s.Starts) : Wakes (s.rxSem.value + 1) s where
  callback := h.callback
  handler := by
    rw [h.handler]
    trivial
  waiting := fun hw => absurd hw (by rw [h.waiting]; decide)
  take := fun hpc => absurd (h.shell.symm.trans hpc) nofun
  tokens := (Nat.add_le_add_left s.coming_le_one _).trans (Nat.le_add_right _ _)
  fetch := fun hpc => absurd (h.shell.symm.trans hpc) nofun
  stream := by rw [h.accepted, h.returned, List.nil_append]

/-! ### Progress -/

/-- The steps of the handler still to come, its start included while the interrupt is
enabled. -/
def Console.handlerRank (s : Console) : ℕ :=
  match s.handler with
  | .idle => if s.rxEnabled then 7 else 0
  | .readIir => 6
  | .readLsr => 5
  | .readIer => 4
  | .writeIer _ => 3
  | .rxIndicate => 2
  | .tstc | .readRbr => 0

/-- The steps of the shell up to the next character, with a character in the FIFO. Enabling the
interrupt calls for the handler once more. -/
def ShellPc.rank : ShellPc → ℕ
  | .readRbr => 1
  | .tstc => 2
  | .idle => 3
  | .inTake => 3
  | .takeSem => 4
  | .writeIer _ => 12
  | .readIer => 13

/-- What the steps of shell and handler lower until a character is returned. -/
def Console.rank (s : Console) : ℕ :=
  s.handlerRank + s.shell.rank

theorem Console.handlerRank_le (h : s.handler = .idle) : s.handlerRank ≤ 7 := by
  rw [handlerRank, h]
  dsimp only
  split <;> omega

/-- Every step of the processor returns a character or lowers the rank, as long as the FIFO
holds a character. -/
theorem Wakes.rank_lt (h : Wakes n s)
    (hfifo : s.fifo ≠ []) (hown : a.Own) (hstep : ConsoleStep s a t) :
    s.returned.length < t.returned.length ∨ t.rank < s.rank := by
  have hok := h.handler
  cases hstep with
  | arrive ch => cases hown
  | lose ch => cases hown
  | interrupt hidle henabled =>
      refine .inr (Nat.add_lt_add_right ?_ _)
      rw [Console.handlerRank, Console.handlerRank, hidle]
      dsimp only
      rw [if_pos henabled]
      omega
  | readLsrEmpty hpc hempty => exact absurd hempty hfifo
  | readIir hpc | readLsr hpc | handlerReadIer hpc | handlerWriteIer value hpc =>
      refine .inr (Nat.add_lt_add_right ?_ _)
      rw [Console.handlerRank, Console.handlerRank, hpc]
      dsimp only
      omega
  | rxIndicate hpc =>
      rw [hpc] at hok
      have hdisabled : { s with rxSem := s.rxSem.release, handler := .idle }.rxEnabled = false :=
        hok
      refine .inr (Nat.add_lt_add_right ?_ _)
      rw [Console.handlerRank, Console.handlerRank, hpc]
      dsimp only
      rw [hdisabled]
      decide
  | drop _ hpc => exact absurd hpc h.not_drop
  | readRbrEmpty hpc hempty => exact absurd hempty hfifo
  | readRbr hidle hpc ch fifo hhead =>
      left
      simp
  | tstcEmpty hidle hpc hempty => exact absurd hempty hfifo
  | getchar hidle hpc | tstc hidle hpc _ | readIer hidle hpc | takeSem hidle hpc
  | inTake hidle hpc _ =>
      refine .inr (Nat.add_lt_add_left ?_ _)
      rw [hpc]
      dsimp only [ShellPc.rank]
      omega
  | writeIer hidle value hpc =>
      have hrank := Console.handlerRank_le
        (s := { s with ier := value ||| ierErbfiMask, shell := .takeSem }) hidle
      right
      rw [Console.rank, Console.rank, hpc]
      dsimp only [ShellPc.rank]
      omega

/-- As long as the FIFO holds a character, the processor has a step to take. -/
theorem Wakes.enabled {fifoSize : ℕ} (h : Wakes n s) (hfifo : s.fifo ≠ []) :
    ∃ a : ConsoleAction, a.Own ∧ consoleStep fifoSize s a ≠ none := by
  cases hpc : s.handler with
  | idle =>
      cases hwait : s.rxSem.waiting with
      | true =>
          refine ⟨.interrupt, trivial, ?_⟩
          rw [consoleStep, if_pos ⟨hpc, h.noLostWakeup.due hwait hfifo hpc, hfifo⟩]
          exact Option.some_ne_none _
      | false =>
          refine ⟨.shell, trivial, ?_⟩
          rw [consoleStep, if_pos hpc, Console.shellStep]
          split
          case h_2 => split <;> exact Option.some_ne_none _
          case h_3 => split <;> exact Option.some_ne_none _
          case h_7 =>
            rw [hwait]
            exact Option.some_ne_none _
          all_goals exact Option.some_ne_none _
  | readLsr =>
      refine ⟨.handler, trivial, ?_⟩
      rw [consoleStep, Console.handlerStep, hpc]
      dsimp only
      split_ifs <;> exact Option.some_ne_none _
  | tstc => exact absurd (.inr (.inl hpc)) h.not_drop
  | readIir | readIer | writeIer | rxIndicate | readRbr =>
      refine ⟨.handler, trivial, ?_⟩
      rw [consoleStep, Console.handlerStep, hpc]
      exact Option.some_ne_none _

/-- Characters that come in leave the rank as it is. -/
theorem ConsoleStep.rank_eq (hown : ¬ a.Own) (hstep : ConsoleStep s a t) : t.rank = s.rank := by
  cases hstep with
  | arrive ch => rfl
  | lose ch => rfl
  | _ => exact absurd trivial hown

/-- Characters are only added, to those accepted and to those returned. -/
theorem Wakes.grows (h : Wakes n s) (hstep : ConsoleStep s a t) :
    s.accepted <+: t.accepted ∧ s.returned.length ≤ t.returned.length := by
  cases hstep with
  | arrive ch => exact ⟨List.prefix_append _ _, le_rfl⟩
  | readRbr hidle hpc ch fifo hfifo =>
      refine ⟨List.prefix_rfl, ?_⟩
      dsimp only
      rw [List.length_append]
      exact Nat.le_add_right _ _
  | drop _ hpc => exact absurd hpc h.not_drop
  | readRbrEmpty hpc hfifo => exact absurd hfifo (h.fetch hpc)
  | _ => exact ⟨List.prefix_rfl, le_rfl⟩

section
variable {n fifoSize : ℕ} (r : InfiniteRun (consoleStep fifoSize))

/-- A fair run returns one more character, if there is one. -/
theorem returned_grows (hn : 0 < n) (hn' : n + 1 < 65536) (hfair : r.Fair ConsoleAction.Own)
    {i : ℕ} (hi : Wakes n (r.state i)) (hmore : (r.state i).fifo ≠ []) :
    ∃ j ≥ i, (r.state i).returned.length < (r.state j).returned.length := by
  obtain ⟨k, hk⟩ : ∃ k, k = (r.state i).returned.length := ⟨_, rfl⟩
  have hlength : ∀ {s : Console}, Wakes n s →
      s.accepted.length = s.returned.length + s.fifo.length := by
    intro s hs
    rw [hs.stream, List.length_append]
  -- Short of the goal the characters returned are `k`, and more were accepted.
  have hfifo : ∀ {s : Console}, Wakes n s → k < s.accepted.length → ¬ k < s.returned.length →
      s.fifo ≠ [] := by
    intro s hs hacc hnot hnil
    have := hlength hs
    rw [hnil, List.length_nil] at this
    omega
  rw [← hk]
  refine r.eventually_of_rank hfair
    (fun s => Wakes n s ∧ k < s.accepted.length ∧ k ≤ s.returned.length)
    (fun s => k < s.returned.length) Console.rank ?_ ?_ ?_ ?_ ?_
  · rintro s a t ⟨hs, hacc, hret⟩ hstep
    have hgrows := hs.grows (consoleStep_cases hstep)
    exact ⟨hs.step hn hn' (consoleStep_cases hstep), hacc.trans_le hgrows.1.length_le,
      hret.trans hgrows.2⟩
  · rintro s ⟨hs, hacc, -⟩ hnot
    exact hs.enabled (hfifo hs hacc hnot)
  · rintro s a t ⟨hs, hacc, hret⟩ hnot hown hstep
    exact (hs.rank_lt (hfifo hs hacc hnot) hown (consoleStep_cases hstep)).imp_left hret.trans_lt
  · rintro s a t ⟨hs, -⟩ - hown hstep
    exact .inr ((consoleStep_cases hstep).rank_eq hown).le
  · refine ⟨hi, ?_, hk.le⟩
    have := hlength hi
    have := List.length_pos_of_ne_nil hmore
    omega

/-- The invariant along a run, and the characters accepted so far. -/
theorem Wakes.later (hn : 0 < n) (hn' : n + 1 < 65536) {i j : ℕ} (hij : i ≤ j)
    (hi : Wakes n (r.state i)) :
    Wakes n (r.state j) ∧ (r.state i).accepted <+: (r.state j).accepted := by
  have hstep : ∀ {s a t}, (Wakes n s ∧ (r.state i).accepted <+: s.accepted) →
      consoleStep fifoSize s a = some t →
      Wakes n t ∧ (r.state i).accepted <+: t.accepted := by
    rintro s a t ⟨hs, hacc⟩ hstep
    exact ⟨hs.step hn hn' (consoleStep_cases hstep),
      hacc.trans (hs.grows (consoleStep_cases hstep)).1⟩
  exact r.invariant hstep hij ⟨hi, List.prefix_rfl⟩

/-- A fair run returns every character that was accepted. -/
theorem returned_all (hn : 0 < n) (hn' : n + 1 < 65536) (hfair : r.Fair ConsoleAction.Own)
    {i : ℕ} (hi : Wakes n (r.state i)) {m : ℕ} (hm : m ≤ (r.state i).accepted.length) :
    ∃ j ≥ i, m ≤ (r.state j).returned.length := by
  induction m with
  | zero => exact ⟨i, le_rfl, Nat.zero_le _⟩
  | succ m ih =>
      obtain ⟨j, hij, hj⟩ := ih (Nat.le_of_succ_le hm)
      obtain ⟨hwakes, hacc⟩ := hi.later r hn hn' hij
      by_cases hfifo : (r.state j).fifo = []
      · refine ⟨j, hij, ?_⟩
        have hstream := hwakes.stream
        rw [hfifo, List.append_nil] at hstream
        rw [← hstream]
        exact hm.trans hacc.length_le
      · obtain ⟨k, hjk, hk⟩ := returned_grows r hn hn' hfair hwakes hfifo
        exact ⟨k, hij.trans hjk, by omega⟩

end

/-- **Console input.** In every run from a start, whatever the interleaving: no wake-up is lost in
any state, and the characters returned, followed by those in the FIFO, are those the FIFO took.
If the processor does not stand still, every character that the FIFO took is returned, in order
and once. -/
theorem console_no_lost_wakeup {fifoSize : ℕ} (r : InfiniteRun (consoleStep fifoSize))
    (hstart : (r.state 0).Starts) :
    (∀ i, NoLostWakeup (r.state i)) ∧
      (∀ i, (r.state i).accepted = (r.state i).returned ++ (r.state i).fifo) ∧
      (r.Fair ConsoleAction.Own →
        ∀ i, ∃ j ≥ i, (r.state i).accepted <+: (r.state j).returned) := by
  have hn : 0 < (r.state 0).rxSem.value + 1 := Nat.succ_pos _
  have hn' : (r.state 0).rxSem.value + 1 + 1 < 65536 := hstart.tokens
  have hwakes : ∀ i, Wakes ((r.state 0).rxSem.value + 1) (r.state i) :=
    fun i => (hstart.wakes.later r hn hn' (Nat.zero_le i)).1
  refine ⟨fun i => (hwakes i).noLostWakeup, fun i => (hwakes i).stream, ?_⟩
  intro hfair i
  obtain ⟨j, hij, hj⟩ := returned_all r hn hn' hfair (hwakes i) le_rfl
  refine ⟨j, hij, ?_⟩
  -- Both are beginnings of what is accepted by then.
  have hreturned : (r.state j).returned <+: (r.state j).accepted := by
    rw [(hwakes j).stream]
    exact List.prefix_append _ _
  exact List.prefix_of_prefix_length_le ((hwakes i).later r hn hn' hij).2 hreturned hj

/-- The console as it is set up: an empty FIFO, the receive interrupt enabled. -/
def consoleInit : Console :=
  ⟨[], ierErbfiMask, .ofValue 0, true, .idle, .idle, [], []⟩

/-- A character comes in behind the shell's test, and the handler runs between the read and the
write of the interrupt enable register. -/
def consoleRun : List ConsoleAction :=
  [.shell, .shell, .arrive 97, .shell, .interrupt] ++ List.replicate 5 .handler ++
    List.replicate 10 .shell

/-- The law at one input. -/
theorem console_no_lost_wakeup_a :
    ∃ j, [97] <+: ((InfiniteRun.ofExec (consoleStep 16) consoleInit consoleRun
      (by decide)).state j).returned := by
  obtain ⟨-, -, hlive⟩ := console_no_lost_wakeup
    (InfiniteRun.ofExec (consoleStep 16) consoleInit consoleRun (by decide))
    ⟨rfl, rfl, rfl, by decide, rfl, rfl, rfl⟩
  obtain ⟨j, -, hj⟩ := hlive (InfiniteRun.ofExec_fair (by decide) rfl (by
    intro a ha
    cases a with
    | arrive ch => cases ha
    | _ => rfl)) 20
  exact ⟨j, hj⟩

end RtBoot
