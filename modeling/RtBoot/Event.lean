import Mathlib.Data.BitVec
import Mathlib.Tactic.Common

/-!
# Event Objects

The kernel's event object (`struct rt_event`) is a set of 32 flags together with the
list of threads suspended on it. `rt_event_send` raises flags and resumes every
suspended thread whose condition they meet; `rt_event_recv` takes flags that are
already raised, or suspends the caller. Both run with interrupts disabled, so each is
one step for every other thread.

A thread waits for all flags of a set (`RT_EVENT_FLAG_AND`) or for any of them
(`RT_EVENT_FLAG_OR`), and may ask that what it receives is cleared
(`RT_EVENT_FLAG_CLEAR`). The two functions clear differently: a receive that finds
flags raised clears the *whole set it asked for*, a send that resumes a waiting thread
clears what that thread received.
-/

namespace RtBoot

/-- The option bits of a receive. -/
structure EventOption where
  flagAnd : Bool
  flagOr : Bool
  flagClear : Bool
  deriving DecidableEq, Repr

/-- `RT_EVENT_FLAG_OR | RT_EVENT_FLAG_CLEAR`. -/
def EventOption.orClear : EventOption :=
  ⟨false, true, true⟩

/-- A thread suspended on an event object, with its `event_set` and `event_info`. -/
structure Waiter (τ : Type*) where
  thread : τ
  eventSet : BitVec 32
  eventInfo : EventOption
  deriving DecidableEq, Repr

/-- An event object: the raised flags and the suspended threads in waiting order. -/
structure Event (τ : Type*) where
  set : BitVec 32
  suspendThread : List (Waiter τ)
  deriving DecidableEq, Repr

variable {τ : Type*}

/-- What the send loop does with one suspended thread while the flags `set` are raised:
`some w'` when the thread is resumed, with the event set it is resumed with. -/
def Waiter.resume (w : Waiter τ) (set : BitVec 32) : Option (Waiter τ) :=
  if w.eventInfo.flagAnd then
    if w.eventSet &&& set = w.eventSet then some w else none
  else if w.eventInfo.flagOr then
    if w.eventSet &&& set ≠ 0 then some { w with eventSet := w.eventSet &&& set } else none
  else none

/-- The loop of `rt_event_send` over the suspended threads: the flags left, the threads
still suspended, and the threads resumed. -/
def sendLoop : BitVec 32 → List (Waiter τ) → BitVec 32 × List (Waiter τ) × List (Waiter τ)
  | set, [] => (set, [], [])
  | set, w :: ws =>
      match w.resume set with
      | some w' =>
          let r := sendLoop (if w'.eventInfo.flagClear then set &&& ~~~w'.eventSet else set) ws
          (r.1, r.2.1, w' :: r.2.2)
      | none =>
          let r := sendLoop set ws
          (r.1, w :: r.2.1, r.2.2)

/-- `rt_event_send`: raise the flags `set` and resume the threads they satisfy. Sending
no flag at all is refused. -/
def rtEventSend (event : Event τ) (set : BitVec 32) : Event τ × List (Waiter τ) :=
  if set = 0 then (event, [])
  else
    let r := sendLoop (event.set ||| set) event.suspendThread
    (⟨r.1, r.2.1⟩, r.2.2)

/-- How a receive ends: with the flags received, with an error, or with the caller
suspended. -/
inductive RecvResult
  | received (recved : BitVec 32)
  | failed
  | suspended
  deriving DecidableEq, Repr

/-- `rt_event_recv`, with the thread waiting forever (`wait`) or not at all, on an object
that queues its threads first come, first served. -/
def rtEventRecv (event : Event τ) (thread : τ) (set : BitVec 32) (option : EventOption)
    (wait : Bool) : Event τ × RecvResult :=
  if set = 0 then (event, .failed)
  else
    let ok :=
      if option.flagAnd then event.set &&& set == set
      else if option.flagOr then event.set &&& set != 0
      else false
    if ok then
      ({ event with set := if option.flagClear then event.set &&& ~~~set else event.set },
        .received (event.set &&& set))
    else if wait then
      ({ event with suspendThread := event.suspendThread ++ [⟨thread, set, option⟩] },
        .suspended)
    else (event, .failed)

end RtBoot
