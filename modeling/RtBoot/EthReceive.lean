import RtBoot.Ethernet

/-!
# Receiving Frames

When the receive thread waits for the next message, is there no frame left in the ring?
The thread empties the ring until `lwip_eth_rx` gives it no `pbuf`. That happens when the
current descriptor is empty, and then all are; but it also happens when no `pbuf` can be
allocated, with frames behind the one that is lost.

The invariant says that a thread in front of `rt_mb_recv`, or suspended in it, leaves no
frame in the ring unless there is a message in the mailbox, or the MAC or the handler is
on the way to post one. It is kept by every step but a failed allocation.

## Main results

* `RxInv.step`: every step that meets `KeepsDraining` keeps the invariant.
* `frames_not_stranded`: **no frame is stranded** in any run of such steps.
* `frame_stranded`: a failed allocation strands a frame.
-/

namespace RtBoot

/-! ### The invariant -/

/-- The handler is going to post to the mailbox. -/
def IrqPc.InRx : IrqPc → Prop
  | .txRead b | .txAck b | .txCallback b => b = true
  | .rxOfRead | .rxOfClear | .rxRead | .rxAck | .rxCallback => True
  | .idle => False

instance : ∀ irq : IrqPc, Decidable irq.InRx
  | .txRead b | .txAck b | .txCallback b => inferInstanceAs (Decidable (b = true))
  | .rxOfRead | .rxOfClear | .rxRead | .rxAck | .rxCallback => .isTrue trivial
  | .idle => .isFalse id

/-- A message is on the way: the MAC has stored a frame, the interrupt is raised, or the
handler serves it. -/
def RxSide.Announced (rx : RxSide) (irq : IrqPc) : Prop :=
  rx.stored = true ∨ 0 < rx.packets ∨ rx.overflow = true ∨ irq.InRx

/-- The descriptor the thread empties next. -/
def RxSide.head (rx : RxSide) : Fin configDescrNum :=
  match rx.thread with
  | .advance _ => slotAt rx.ring.currdescnum 1
  | _ => rx.ring.currdescnum

/-- What holds while the thread is at `pc`: `frames` are those in the ring, and `coming`
says that a message is on the way. -/
def RxPc.Ok (pc : RxPc) (mailbox : ℕ) (frames : List EthFrame) (coming : Prop) : Prop :=
  match pc with
  | .recv => 0 < mailbox ∨ frames = [] ∨ coming
  | .suspended => mailbox = 0 ∧ (frames = [] ∨ coming)
  | .take | .free _ => frames ≠ []
  | _ => True

/-- The ring holds the queue `frames`. -/
structure RxInv (rx : RxSide) (irq : IrqPc) (frames : List EthFrame) : Prop where
  linked : rx.ring.Linked
  queue : RingQueue rx.ring.content rx.head rx.ring.dma frames
  ok : rx.thread.Ok rx.mailbox frames (rx.Announced irq)

/-- The invariant holds at the start. -/
theorem rxInv_init (txbuffs rxbuffs : Fin configDescrNum → EthFrame) :
    RxInv (ethInit txbuffs rxbuffs).rx .idle [] where
  linked := linked_dmaClean rxbuffs
  queue := ringQueue_nil (content_dmaClean rxbuffs) _
  ok := .inl Nat.one_pos

/-- More frames, as long as a message for them is on the way. -/
theorem RxPc.Ok.coming {pc : RxPc} {mailbox : ℕ} {frames frames' : List EthFrame}
    {coming coming' : Prop} (h : pc.Ok mailbox frames coming)
    (hframes : frames ≠ [] → frames' ≠ []) (hcoming : coming') :
    pc.Ok mailbox frames' coming' := by
  cases pc with
  | recv => exact .inr (.inr hcoming)
  | suspended => exact ⟨h.1, .inr hcoming⟩
  | take => exact hframes h
  | free f => exact hframes h
  | _ => trivial

theorem RxPc.Ok.mono {pc : RxPc} {mailbox : ℕ} {frames : List EthFrame} {coming coming' : Prop}
    (h : pc.Ok mailbox frames coming) (himp : coming → coming') :
    pc.Ok mailbox frames coming' := by
  cases pc with
  | recv => exact h.imp_right (Or.imp_right himp)
  | suspended => exact h.imp_right (Or.imp_right himp)
  | take => exact h
  | free f => exact h
  | _ => trivial

section
variable {rx rx' : RxSide} {irq irq' : IrqPc} {frames : List EthFrame} {f : EthFrame}

/-- The handler may move on, as long as it does not forget to post. -/
theorem RxInv.withIrq (h : RxInv rx irq frames) (hirq : irq.InRx → irq'.InRx) :
    RxInv rx irq' frames :=
  { h with ok := h.ok.mono (Or.imp_right (Or.imp_right (Or.imp_right hirq))) }

/-! ### The thread -/

/-- A `pbuf` that is not allocated is no reason to stop, except if nothing is lost by it. -/
def RxSide.MayStop (rx : RxSide) : Prop :=
  rx.ring.isEmpty rx.ring.currdescnum = true ∨ 0 < rx.mailbox ∨ rx.stored = true ∨
    0 < rx.packets ∨ rx.overflow = true
  deriving Decidable

/-- If the current descriptor is empty, the ring is. -/
theorem RingQueue.eq_nil {r : DmaRing} {head tail : Fin configDescrNum}
    (h : RingQueue r.content head tail frames) (hempty : r.isEmpty head = true) :
    frames = [] := by
  have hhead := h.head_eq
  rwa [DmaRing.content_eq_none.mpr hempty, eq_comm, List.head?_eq_none_iff] at hhead

/-- The receive thread keeps the invariant. -/
theorem RxInv.thread (h : RxInv rx irq frames) {allocated : Bool}
    (hstop : ∀ f, rx.thread = .alloc f → f.length = 0 ∨ allocated = false → rx.MayStop)
    (hs : rxThreadStep rx allocated = some rx') : ∃ frames', RxInv rx' irq frames' := by
  obtain ⟨hlinked, hqueue, hok⟩ := h
  unfold rxThreadStep at hs
  unfold RxSide.head at hqueue
  cases hpc : rx.thread with
  | recv =>
      rw [hpc] at hs hqueue hok
      dsimp only at hs
      split at hs
      case isTrue hmail =>
        obtain rfl := Option.some.inj hs
        exact ⟨frames, hlinked, hqueue, hmail, hok.resolve_left (by omega)⟩
      case isFalse hmail =>
        obtain rfl := Option.some.inj hs
        exact ⟨frames, hlinked, hqueue, trivial⟩
  | suspended => rw [hpc] at hs; cases hs
  | link =>
      rw [hpc] at hs hqueue
      obtain rfl := Option.some.inj hs
      exact ⟨frames, hlinked, hqueue, trivial⟩
  | look =>
      rw [hpc] at hs hqueue
      obtain rfl := Option.some.inj hs
      cases hempty : rx.ring.isEmpty rx.ring.currdescnum with
      | true => exact ⟨frames, hlinked, hqueue, .inr (.inl (hqueue.eq_nil hempty))⟩
      | false =>
          refine ⟨frames, hlinked, hqueue, ?_⟩
          rintro rfl
          have hnone := DmaRing.content_eq_none.mp hqueue.head_eq
          rw [hempty] at hnone
          cases hnone
  | take =>
      rw [hpc] at hs hqueue hok
      obtain rfl := Option.some.inj hs
      exact ⟨frames, hlinked, hqueue, hok⟩
  | free f =>
      rw [hpc] at hs hqueue hok
      obtain rfl := Option.some.inj hs
      obtain ⟨g, rest, rfl⟩ := List.exists_cons_of_ne_nil hok
      refine ⟨rest, hlinked.setConfig, ?_, trivial⟩
      change RingQueue (rx.ring.setConfig _ _).content (slotAt rx.ring.currdescnum 1) _ rest
      rw [DmaRing.content_setConfig_empty (by decide)]
      exact hqueue.pop
  | advance f =>
      rw [hpc] at hs hqueue
      obtain rfl := Option.some.inj hs
      exact ⟨frames, ⟨hlinked.dataAddr, hlinked.nextDesc⟩, hqueue, trivial⟩
  | alloc f =>
      rw [hpc] at hs hqueue
      obtain rfl := Option.some.inj hs
      by_cases hgot : f.length ≠ 0 ∧ allocated = true
      · rw [if_pos hgot]
        exact ⟨frames, hlinked, hqueue, trivial⟩
      · rw [if_neg hgot]
        refine ⟨frames, hlinked, hqueue, ?_⟩
        rw [not_and_or, ne_eq, not_not, Bool.not_eq_true] at hgot
        rcases hstop f hpc hgot with hempty | hmail | hcoming
        · exact .inr (.inl (hqueue.eq_nil hempty))
        · exact .inl hmail
        · exact .inr (.inr (hcoming.imp_right (Or.imp_right .inl)))

/-! ### The MAC -/

/-- A frame that arrives keeps the invariant. -/
theorem RxInv.arrive (h : RxInv rx irq frames) (hs : rxArrive rx f = some rx') :
    ∃ frames', RxInv rx' irq frames' := by
  obtain ⟨⟨-, hempty⟩, ⟨⟩⟩ := Option.ite_none_right_eq_some.mp hs
  have hnone := DmaRing.content_eq_none.mpr hempty
  have hcontent := h.linked.content_copyTo (f := f) hnone
  have hlinked : ((rx.ring.copyTo rx.ring.dma f).setConfig rx.ring.dma (lengthConfig f)).Linked :=
    DmaRing.Linked.setConfig ⟨h.linked.dataAddr, h.linked.nextDesc⟩
  obtain ⟨g, hqueue⟩ : ∃ g, RingQueue
      ((rx.ring.copyTo rx.ring.dma f).setConfig rx.ring.dma (lengthConfig f)).content rx.head
      (rx.ring.descrtable rx.ring.dma).nextDesc (frames ++ [g]) := by
    rw [DmaRing.content_setConfig, lengthConfig_not_empty, hcontent, h.linked.nextDesc]
    exact ⟨_, h.queue.push hnone⟩
  exact ⟨frames ++ [g], ⟨hlinked.dataAddr, hlinked.nextDesc⟩, hqueue,
    h.ok.coming (fun _ => by simp) (.inl rfl)⟩

/-- The interrupt keeps the invariant. -/
theorem RxInv.raise (h : RxInv rx irq frames) (hs : rxRaise rx = some rx') :
    RxInv rx' irq frames := by
  obtain ⟨-, ⟨⟩⟩ := Option.ite_none_right_eq_some.mp hs
  exact { h with ok := h.ok.coming id (.inr (.inl (Nat.succ_pos _))) }

/-- An overflow keeps the invariant. -/
theorem RxInv.overflow (h : RxInv rx irq frames) (hs : rxOverflow rx = some rx') :
    RxInv rx' irq frames := by
  obtain ⟨-, ⟨⟩⟩ := Option.ite_none_right_eq_some.mp hs
  exact { h with ok := h.ok.coming id (.inr (.inr (.inl rfl))) }

/-! ### The handler -/

/-- Posting to the mailbox. -/
theorem RxInv.ready (h : RxInv rx irq frames) : RxInv (ethDeviceReady rx) irq' frames := by
  obtain ⟨hlinked, hqueue, hok⟩ := h
  unfold RxSide.head at hqueue
  unfold ethDeviceReady
  split
  case isTrue hfull =>
    have hmail : 0 < rx.mailbox := by rw [hfull]; decide
    refine ⟨hlinked, hqueue, ?_⟩
    cases hpc : rx.thread <;> rw [hpc] at hok
    case recv => exact .inl hmail
    case suspended => exact absurd hok.1 (by omega)
    all_goals exact hok
  case isFalse =>
    cases hpc : rx.thread <;> rw [hpc] at hok hqueue
    case recv => exact ⟨hlinked, hqueue, .inl (Nat.succ_pos _)⟩
    case suspended => exact ⟨hlinked, hqueue, .inl (Nat.succ_pos _)⟩
    all_goals exact ⟨hlinked, hqueue, hok⟩

end

section
variable {s t : EthState} {a : EthAction} {frames : List EthFrame}

/-- The handler keeps the invariant. -/
theorem RxInv.handler (h : RxInv s.rx s.irq frames) (hs : irqStep s = some t) :
    RxInv t.rx t.irq frames := by
  unfold irqStep at hs
  split at hs
  case h_1 => cases hs
  case h_2 b hirq =>
    obtain rfl := Option.some.inj hs
    rw [hirq] at h
    refine h.withIrq fun hb => ?_
    dsimp only
    split <;> exact hb
  case h_3 b hirq =>
    obtain rfl := Option.some.inj hs
    rw [hirq] at h
    exact h.withIrq id
  case h_4 b hirq =>
    obtain rfl := Option.some.inj hs
    rw [hirq] at h
    refine h.withIrq fun (hb : b = true) => ?_
    dsimp only
    rw [if_pos hb]
    trivial
  case h_5 =>
    obtain rfl := Option.some.inj hs
    refine h.withIrq fun _ => ?_
    dsimp only
    split <;> trivial
  case h_6 =>
    obtain rfl := Option.some.inj hs
    exact { h with ok := h.ok.coming id (.inr (.inr (.inr trivial))) }
  case h_7 =>
    obtain rfl := Option.some.inj hs
    refine h.withIrq fun _ => ?_
    dsimp only
    split <;> trivial
  case h_8 =>
    obtain rfl := Option.some.inj hs
    exact { h with ok := h.ok.coming id (.inr (.inr (.inr trivial))) }
  case h_9 =>
    obtain rfl := Option.some.inj hs
    exact h.ready

/-- The frame the thread is about to allocate a `pbuf` for. -/
def RxPc.taken : RxPc → Option EthFrame
  | .alloc f => some f
  | _ => none

/-- The condition on the steps: when the thread gets no `pbuf` for a frame, the next
descriptor is empty, or a message is in the mailbox or on the way. -/
def KeepsDraining (s : EthState) : EthAction → Prop
  | .thread allocated =>
      ∀ f ∈ s.rx.thread.taken, f.length = 0 ∨ allocated = false → s.rx.MayStop
  | _ => True

instance decidableKeepsDraining (s : EthState) : ∀ a, Decidable (KeepsDraining s a)
  | .thread allocated =>
      inferInstanceAs (Decidable
        (∀ f ∈ s.rx.thread.taken, f.length = 0 ∨ allocated = false → s.rx.MayStop))
  | .call _ | .sender | .transmit | .setEmpty | .raiseTx | .arrive _ | .raiseRx | .overflow
  | .interrupt | .handler => .isTrue trivial

/-- **Every step that meets the condition keeps the invariant.** -/
theorem RxInv.step (h : RxInv s.rx s.irq frames) (ha : KeepsDraining s a)
    (hs : ethStep s a = some t) : ∃ frames', RxInv t.rx t.irq frames' := by
  cases a with
  | thread allocated =>
      obtain ⟨rx, hrx, rfl⟩ := Option.map_eq_some_iff.mp hs
      exact h.thread (fun f hpc => ha f (by rw [hpc]; rfl)) (EthState.onCpu_eq_some.mp hrx).2
  | arrive f =>
      obtain ⟨rx, hrx, rfl⟩ := Option.map_eq_some_iff.mp hs
      exact h.arrive hrx
  | raiseRx =>
      obtain ⟨rx, hrx, rfl⟩ := Option.map_eq_some_iff.mp hs
      exact ⟨_, h.raise hrx⟩
  | overflow =>
      obtain ⟨rx, hrx, rfl⟩ := Option.map_eq_some_iff.mp hs
      exact ⟨_, h.overflow hrx⟩
  | interrupt =>
      obtain ⟨⟨hirq, -⟩, ⟨⟩⟩ := Option.ite_none_right_eq_some.mp hs
      rw [hirq] at h
      exact ⟨_, h.withIrq False.elim⟩
  | handler => exact ⟨_, h.handler hs⟩
  | _ =>
      obtain ⟨tx, -, rfl⟩ := Option.map_eq_some_iff.mp hs
      exact ⟨_, h⟩

/-! ### Runs -/

/-- The ring holds a queue. -/
def RxSound (s : EthState) : Prop :=
  ∃ frames, RxInv s.rx s.irq frames

/-- The thread is blocked on an empty mailbox. -/
def EthState.RxBlocked (s : EthState) : Prop :=
  s.rx.thread = .suspended ∧ s.rx.mailbox = 0
  deriving Decidable

/-- No receive interrupt is raised, being raised or being served. -/
def EthState.RxQuiet (s : EthState) : Prop :=
  s.rx.stored = false ∧ s.intRx = false ∧ ¬ s.irq.InRx
  deriving Decidable

/-- **No frame is stranded**: in every run of the MAC, the handler, the receive thread and
the sender whose steps meet the condition, a thread that is blocked while no receive
interrupt is pending leaves no frame in the ring. -/
theorem frames_not_stranded (txbuffs rxbuffs : Fin configDescrNum → EthFrame)
    {as : List EthAction} (hmeet : StepsMeet ethStep KeepsDraining (ethInit txbuffs rxbuffs) as)
    (hrun : exec ethStep (ethInit txbuffs rxbuffs) as = some t) (hblocked : t.RxBlocked)
    (hquiet : t.RxQuiet) (i : Fin configDescrNum) : t.rx.ring.isEmpty i = true := by
  have hsound : RxSound t :=
    exec_invariant (fun ha ⟨_, h⟩ hs => h.step ha hs) hmeet ⟨_, rxInv_init txbuffs rxbuffs⟩ hrun
  obtain ⟨frames, hlinked, hqueue, hok⟩ := hsound
  obtain ⟨hthread, hmail⟩ := hblocked
  obtain ⟨hstored, hint, hirq⟩ := hquiet
  rw [hthread] at hok
  have hnil : frames = [] := by
    refine hok.2.resolve_right ?_
    simp only [EthState.intRx, decide_eq_false_iff_not, not_or] at hint
    rintro (hcoming | hcoming | hcoming | hcoming)
    · rw [hstored] at hcoming
      cases hcoming
    · exact hint.1 hcoming
    · exact hint.2 hcoming
    · exact hirq hcoming
  subst hnil
  exact DmaRing.content_eq_none.mp (hqueue.eq_none_of_head hqueue.head_eq i)

/-- The thread takes the first message and waits; two frames arrive, and the interrupt for
them is served. -/
def twoArrivals : List EthAction :=
  List.replicate 4 (.thread true) ++
    [.arrive [1], .raiseRx, .arrive [2], .raiseRx, .interrupt] ++ List.replicate 7 .handler

/-- With every `pbuf` allocated, both frames are received. -/
theorem frames_not_stranded_two :
    ∃ t ∈ exec ethStep (ethInit zeroBuffs zeroBuffs)
        (twoArrivals ++ List.replicate 14 (.thread true)),
      t.RxBlocked ∧ t.RxQuiet ∧ ∀ i, t.rx.ring.isEmpty i = true := by
  obtain ⟨t, hrun, hblocked, hquiet⟩ :
      ∃ t ∈ exec ethStep (ethInit zeroBuffs zeroBuffs)
        (twoArrivals ++ List.replicate 14 (.thread true)), t.RxBlocked ∧ t.RxQuiet := by
    decide +kernel
  exact ⟨t, hrun, hblocked, hquiet,
    frames_not_stranded zeroBuffs zeroBuffs (by decide +kernel) hrun hblocked hquiet⟩

/-- Without a `pbuf` for the first frame, the thread waits with the second in the ring. -/
theorem frame_stranded :
    ∃ t ∈ exec ethStep (ethInit zeroBuffs zeroBuffs)
        (twoArrivals ++ List.replicate 8 (.thread false)),
      t.RxBlocked ∧ t.RxQuiet ∧ ∃ i, t.rx.ring.isEmpty i = false := by
  decide +kernel

end

end RtBoot
