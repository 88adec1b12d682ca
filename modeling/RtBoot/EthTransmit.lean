import RtBoot.Ethernet

/-!
# Sending Frames

What `RtBoot.Ethernet` does with the frames it is given, in every run of the system.

The ring holds a queue of frames, from the descriptor the MAC has come to up to the one
the sender fills next. The sender's tail runs ahead of `tx_currdescnum` between the write
of `config` and the step to the next descriptor. A sender that has found the ring full
waits only while that is still so, or while the MAC or the handler is on the way to raise
the event: that is the part of the invariant that excludes a lost wake-up.

## Main results

* `TxInv.step`: every step keeps the invariant.
* `transmit_sound`: **the MAC sends the accepted frames, in order**; the sender writes
  nothing the MAC owns, and does not stay suspended once a descriptor has been sent and
  the interrupt has been served.
* `lwipEthTx_one_frame_iff`: `lwip_eth_tx` hands over one frame with all the bytes of a
  packet exactly if the packet has one segment.
-/

namespace RtBoot

/-! ### The invariant -/

/-- The frame the sender has not handed over yet. -/
def SenderPc.frame : SenderPc → Option EthFrame
  | .test f | .copy f | .give f | .recv f | .suspended f => some f
  | .idle | .start | .advance => none

/-- The descriptor the sender fills next. -/
def TxSide.tail (tx : TxSide) : Fin configDescrNum :=
  match tx.sender with
  | .start | .advance => slotAt tx.ring.currdescnum 1
  | _ => tx.ring.currdescnum

/-- Of the frames in the ring, those the MAC has not sent. -/
def TxPhase.unsent (phase : TxPhase) (frames : List EthFrame) : List EthFrame :=
  if phase = .sent then frames.tail else frames

/-- The handler is going to raise the event. -/
def IrqPc.InTx : IrqPc → Prop
  | .txRead _ | .txAck _ | .txCallback _ => True
  | _ => False

/-- A descriptor has been sent, and the event is still to be raised for it. -/
def TxSide.Announced (tx : TxSide) (irq : IrqPc) : Prop :=
  tx.phase = .flagged ∨ 0 < tx.status ∨ irq.InTx

/-- The event while nobody is suspended on it. -/
def CalmEvent (event : Event Unit) : Prop :=
  event = ⟨0, []⟩ ∨ event = ⟨1, []⟩

/-- What holds while the sender is at `pc`: `room` says that the current descriptor is
empty, `buff` is its buffer, and `stuck` says that the sender has reason to wait. -/
def SenderPc.Ok (pc : SenderPc) (event : Event Unit) (chain : List EthFrame) (room : Prop)
    (buff : EthFrame) (stuck : Prop) : Prop :=
  match pc with
  | .idle => chain = [] ∧ CalmEvent event
  | .test _ | .start | .advance => CalmEvent event
  | .copy _ => room ∧ CalmEvent event
  | .give f => room ∧ (∃ rest, buff = f ++ rest) ∧ CalmEvent event
  | .recv _ => (event.set ≠ 0 ∨ stuck) ∧ CalmEvent event
  | .suspended _ => stuck ∧ event = ⟨0, [⟨(), 1, .orClear⟩]⟩

variable {buff : EthFrame} {event : Event Unit} {chain : List EthFrame} {pc : SenderPc}

theorem SenderPc.Ok.mono {room room' : Prop} {stuck stuck' : Prop}
    (h : pc.Ok event chain room buff stuck) (hroom : room → room') (hstuck : stuck → stuck') :
    pc.Ok event chain room' buff stuck' := by
  cases pc with
  | copy f => exact h.imp_left hroom
  | give f => exact h.imp_left hroom
  | recv f => exact h.imp_left (Or.imp_right hstuck)
  | suspended f => exact h.imp_left hstuck
  | _ => exact h

/-- The buffer of the current descriptor. -/
def TxSide.currBuff (tx : TxSide) : EthFrame :=
  tx.ring.buffs (tx.ring.descrtable tx.ring.currdescnum).dataAddr

/-- The ring is full, or the event is on the way. -/
def TxSide.Stuck (tx : TxSide) (irq : IrqPc) (frames : List EthFrame) : Prop :=
  frames.length = configDescrNum ∨ tx.Announced irq

/-- The next step of the sender writes to a buffer or a descriptor of the MAC. -/
def TxSide.WritesMac (tx : TxSide) : Prop :=
  match tx.sender with
  | .copy _ => ∃ j, tx.ring.isEmpty j = false ∧
      (tx.ring.descrtable j).dataAddr = (tx.ring.descrtable tx.ring.currdescnum).dataAddr
  | .give _ => tx.ring.isEmpty tx.ring.currdescnum = false
  | _ => False

/-- The ring holds the queue `frames`. -/
structure TxInv (tx : TxSide) (irq : IrqPc) (frames : List EthFrame) : Prop where
  linked : tx.ring.Linked
  queue : RingQueue tx.ring.content tx.ring.dma tx.tail frames
  ledger : tx.accepted = tx.sent ++ tx.phase.unsent frames
  busy : tx.phase = .sent → frames ≠ []
  order : tx.submitted = tx.accepted ++ (tx.sender.frame.toList ++ tx.chain)
  size : ∀ f ∈ tx.sender.frame.toList ++ tx.chain, f.length ≤ 2048
  ok : tx.sender.Ok tx.event tx.chain (tx.ring.content tx.ring.currdescnum = none) tx.currBuff
    (tx.Stuck irq frames)

theorem txInv_init (txbuffs rxbuffs : Fin configDescrNum → EthFrame) :
    TxInv (ethInit txbuffs rxbuffs).tx .idle [] where
  linked := linked_dmaClean txbuffs
  queue := ringQueue_nil (content_dmaClean txbuffs) _
  ledger := rfl
  busy := nofun
  order := rfl
  size _ hf := absurd hf List.not_mem_nil
  ok := ⟨rfl, .inl rfl⟩

section
variable {tx tx' : TxSide} {irq irq' : IrqPc} {frames : List EthFrame} {f : EthFrame}

/-- The handler may move on, as long as it does not forget to raise the event. -/
theorem TxInv.withIrq (h : TxInv tx irq frames) (hirq : irq.InTx → irq'.InTx) :
    TxInv tx irq' frames :=
  { h with
    ok := h.ok.mono id (Or.imp_right (Or.imp_right (Or.imp_right hirq))) }

/-! ### The sender -/

/-- `lwip_eth_tx` comes to a segment, with nothing half done behind it. -/
theorem txInv_nextSegment (hlinked : tx.ring.Linked)
    (hqueue : RingQueue tx.ring.content tx.ring.dma tx.ring.currdescnum frames)
    (hledger : tx.accepted = tx.sent ++ tx.phase.unsent frames)
    (hbusy : tx.phase = .sent → frames ≠ []) (horder : tx.submitted = tx.accepted ++ chain)
    (hsize : ∀ f ∈ chain, f.length ≤ 2048) (hcalm : CalmEvent tx.event) :
    TxInv (tx.nextSegment chain) irq frames := by
  cases chain with
  | nil => exact ⟨hlinked, hqueue, hledger, hbusy, horder, hsize, rfl, hcalm⟩
  | cons g chain => exact ⟨hlinked, hqueue, hledger, hbusy, horder, hsize, hcalm⟩

/-- A call of the sender keeps the invariant. -/
theorem TxInv.call (h : TxInv tx irq frames)
    (hsize : ∀ f ∈ chain, f.length ≤ 2048) (hs : lwipEthTx tx chain = some tx') :
    TxInv tx' irq frames := by
  unfold lwipEthTx at hs
  split at hs
  case isFalse => cases hs
  case isTrue hidle =>
    obtain rfl := Option.some.inj hs
    obtain ⟨hlinked, hqueue, hledger, hbusy, horder, -, hok⟩ := h
    rw [TxSide.tail, hidle] at hqueue
    rw [hidle] at horder hok
    obtain ⟨hchain, hcalm⟩ := hok
    refine txInv_nextSegment hlinked hqueue hledger hbusy ?_ hsize hcalm
    rw [horder, hchain]
    simp [SenderPc.frame]

/-- Testing the descriptor keeps the invariant. -/
theorem TxInv.test (h : TxInv tx irq frames) (hpc : tx.sender = .test f) :
    TxInv { tx with
      sender := if tx.ring.isEmpty tx.ring.currdescnum then .copy f else .recv f } irq frames := by
  obtain ⟨hlinked, hqueue, hledger, hbusy, horder, hsize, hok⟩ := h
  rw [TxSide.tail, hpc] at hqueue
  rw [hpc] at horder hsize hok
  cases hempty : tx.ring.isEmpty tx.ring.currdescnum with
  | true =>
      exact ⟨hlinked, hqueue, hledger, hbusy, horder, hsize,
        DmaRing.content_eq_none.mpr hempty, hok⟩
  | false =>
      -- the descriptor at the tail is not empty, so the ring is full
      have hfull : frames.length = configDescrNum := by
        refine Nat.le_antisymm hqueue.le (Nat.le_of_not_lt fun hlt => ?_)
        have hnone := DmaRing.content_eq_none.mp (hqueue.tail_eq_none_iff.mpr hlt)
        rw [hempty] at hnone
        cases hnone
      exact ⟨hlinked, hqueue, hledger, hbusy, horder, hsize, .inr (.inl hfull), hok⟩

/-- Copying the segment keeps the invariant. -/
theorem TxInv.copy (h : TxInv tx irq frames) (hpc : tx.sender = .copy f) :
    TxInv { tx with ring := tx.ring.copyTo tx.ring.currdescnum f, sender := .give f } irq
      frames := by
  obtain ⟨hlinked, hqueue, hledger, hbusy, horder, hsize, hok⟩ := h
  rw [TxSide.tail, hpc] at hqueue
  rw [hpc] at horder hsize hok
  obtain ⟨hroom, hcalm⟩ := hok
  have hcontent := hlinked.content_copyTo (f := f) hroom
  refine ⟨⟨hlinked.dataAddr, hlinked.nextDesc⟩, ?_, hledger, hbusy, horder, hsize, ?_⟩
  · change RingQueue (tx.ring.copyTo _ f).content _ _ _
    rw [hcontent]
    exact hqueue
  · refine ⟨?_, ⟨_, Function.update_self _ _ _⟩, hcalm⟩
    change (tx.ring.copyTo _ f).content _ = none
    rw [hcontent]
    exact hroom

/-- Handing over the descriptor keeps the invariant. -/
theorem TxInv.give (h : TxInv tx irq frames) (hpc : tx.sender = .give f) :
    TxInv { tx with
      ring := tx.ring.setConfig tx.ring.currdescnum (lengthConfig f)
      accepted := tx.accepted ++ [f]
      sender := .start } irq (frames ++ [f]) := by
  obtain ⟨hlinked, hqueue, hledger, hbusy, horder, hsize, hok⟩ := h
  rw [TxSide.tail, hpc] at hqueue
  rw [hpc] at horder hsize hok
  obtain ⟨hroom, ⟨rest, hbuff⟩, hcalm⟩ := hok
  have hlen : f.length ≤ 2048 := hsize f (by simp [SenderPc.frame])
  have hcontent := DmaRing.content_setConfig_length (by omega) hbuff
  refine ⟨hlinked.setConfig, ?_, ?_, fun _ => by simp, ?_, ?_, hcalm⟩
  · change RingQueue (tx.ring.setConfig _ _).content _ (slotAt _ 1) _
    rw [hcontent]
    exact hqueue.push hroom
  · change tx.accepted ++ [f] = tx.sent ++ tx.phase.unsent (frames ++ [f])
    rw [hledger, List.append_assoc]
    unfold TxPhase.unsent
    split
    case isTrue hsent => rw [List.tail_append_of_ne_nil (hbusy hsent)]
    case isFalse => rfl
  · change tx.submitted = tx.accepted ++ [f] ++ tx.chain
    rw [horder, List.append_assoc]
    rfl
  · intro g hg
    exact hsize g (List.mem_append_right _ hg)

/-- Going to the next segment keeps the invariant. -/
theorem TxInv.advance (h : TxInv tx irq frames) (hpc : tx.sender = .advance) :
    TxInv (TxSide.nextSegment
      { tx with ring := { tx.ring with currdescnum := slotAt tx.ring.currdescnum 1 } } tx.chain)
      irq frames := by
  obtain ⟨hlinked, hqueue, hledger, hbusy, horder, hsize, hok⟩ := h
  rw [TxSide.tail, hpc] at hqueue
  rw [hpc] at horder hsize hok
  exact txInv_nextSegment ⟨hlinked.dataAddr, hlinked.nextDesc⟩ hqueue hledger hbusy horder hsize hok

/-- Waiting for the event: with the event raised the sender goes on, otherwise it is
suspended with reason. -/
theorem TxInv.recv (h : TxInv tx irq frames) (hpc : tx.sender = .recv f)
    (hs : senderStep tx = some tx') : TxInv tx' irq frames := by
  obtain ⟨hlinked, hqueue, hledger, hbusy, horder, hsize, hok⟩ := h
  rw [TxSide.tail, hpc] at hqueue
  rw [hpc] at horder hsize hok
  obtain ⟨hstuck, hevent | hevent⟩ := hok
  · have hrecv : senderStep tx =
        some { tx with event := ⟨0, [⟨(), 1, .orClear⟩]⟩, sender := .suspended f } := by
      rw [senderStep, hpc, hevent]
      rfl
    obtain rfl := Option.some.inj (hrecv.symm.trans hs)
    have hstuck : tx.Stuck irq frames := hstuck.resolve_left (by simp [hevent])
    exact ⟨hlinked, hqueue, hledger, hbusy, horder, hsize, hstuck, rfl⟩
  · have hrecv : senderStep tx = some { tx with event := ⟨0, []⟩, sender := .test f } := by
      rw [senderStep, hpc, hevent]
      rfl
    obtain rfl := Option.some.inj (hrecv.symm.trans hs)
    exact ⟨hlinked, hqueue, hledger, hbusy, horder, hsize, .inl rfl⟩

/-- Every step of the sender. -/
theorem TxInv.sender (h : TxInv tx irq frames) (hs : senderStep tx = some tx') :
    ∃ frames', TxInv tx' irq frames' := by
  cases hpc : tx.sender with
  | recv f => exact ⟨_, h.recv hpc hs⟩
  | idle => rw [senderStep, hpc] at hs; cases hs
  | suspended f => rw [senderStep, hpc] at hs; cases hs
  | test f =>
      rw [senderStep, hpc] at hs
      exact ⟨_, Option.some.inj hs ▸ h.test hpc⟩
  | copy f =>
      rw [senderStep, hpc] at hs
      exact ⟨_, Option.some.inj hs ▸ h.copy hpc⟩
  | give f =>
      rw [senderStep, hpc] at hs
      exact ⟨_, Option.some.inj hs ▸ h.give hpc⟩
  | start =>
      rw [senderStep, hpc] at hs
      obtain ⟨hlinked, hqueue, hledger, hbusy, horder, hsize, hok⟩ := h
      rw [TxSide.tail, hpc] at hqueue
      rw [hpc] at horder hsize hok
      obtain rfl := Option.some.inj hs
      exact ⟨frames, hlinked, hqueue, hledger, hbusy, horder, hsize, hok⟩
  | advance =>
      rw [senderStep, hpc] at hs
      exact ⟨_, Option.some.inj hs ▸ h.advance hpc⟩

/-! ### The MAC -/

/-- The MAC sending a frame keeps the invariant. -/
theorem TxInv.transmit (h : TxInv tx irq frames) (hs : txTransmit tx = some tx') :
    TxInv tx' irq frames := by
  unfold txTransmit at hs
  split at hs
  case isFalse => cases hs
  case isTrue hown =>
    obtain rfl := Option.some.inj hs
    obtain ⟨hphase, hown⟩ := hown
    have hhead := h.queue.head_eq
    rw [DmaRing.content_eq_some.mpr ⟨hown, rfl⟩] at hhead
    obtain ⟨rest, rfl⟩ : ∃ rest, frames = tx.ring.packet tx.ring.dma :: rest :=
      List.head?_eq_some_iff.mp hhead.symm
    have hledger := h.ledger
    rw [TxPhase.unsent, hphase, if_neg (by decide)] at hledger
    refine { h with ledger := ?_, busy := fun _ => by simp, ok := h.ok.mono id ?_ }
    · change tx.accepted = tx.sent ++ [_] ++ rest
      rw [hledger, List.append_assoc]
      rfl
    · rintro (hfull | hflag | hlater)
      · exact .inl hfull
      · rw [hphase] at hflag
        cases hflag
      · exact .inr (.inr hlater)

/-- The MAC freeing a descriptor keeps the invariant. -/
theorem TxInv.setEmpty (h : TxInv tx irq frames) (hs : txSetEmpty tx = some tx') :
    ∃ frames', TxInv tx' irq frames' := by
  unfold txSetEmpty at hs
  split at hs
  case isFalse => cases hs
  case isTrue hphase =>
    obtain rfl := Option.some.inj hs
    obtain ⟨f, rest, rfl⟩ := List.exists_cons_of_ne_nil (h.busy hphase)
    have hcontent := DmaRing.content_setConfig_empty (r := tx.ring) (i := tx.ring.dma)
      (or_isEmpty (tx.ring.descrtable tx.ring.dma).config)
    have hledger := h.ledger
    rw [TxPhase.unsent, hphase, if_pos rfl] at hledger
    have hlinked := h.linked.setConfig (i := tx.ring.dma)
      (c := (tx.ring.descrtable tx.ring.dma).config ||| dmadescIsEmpty)
    refine ⟨rest, ⟨hlinked.dataAddr, hlinked.nextDesc⟩, ?_, hledger, nofun, h.order, h.size, ?_⟩
    · change RingQueue (tx.ring.setConfig _ _).content _ tx.tail rest
      rw [hcontent, h.linked.nextDesc]
      exact h.queue.pop
    · change tx.sender.Ok tx.event tx.chain
        ((tx.ring.setConfig _ _).content tx.ring.currdescnum = none)
        (tx.ring.buffs ((tx.ring.setConfig _ _).descrtable _).dataAddr) _
      rw [hcontent, (DmaRing.setConfig_links _).1]
      refine h.ok.mono (fun hroom => ?_) fun _ => .inr (.inl rfl)
      rw [Function.update_apply, hroom, ite_self]

/-- The interrupt keeps the invariant. -/
theorem TxInv.raise (h : TxInv tx irq frames) (hs : txRaise tx = some tx') :
    TxInv tx' irq frames := by
  unfold txRaise at hs
  split at hs
  case isFalse => cases hs
  case isTrue hphase =>
    obtain rfl := Option.some.inj hs
    have hledger := h.ledger
    rw [TxPhase.unsent, hphase, if_neg (by decide)] at hledger
    exact
      { h with
        ledger := hledger
        busy := nofun
        ok := h.ok.mono id fun _ => .inr (.inr (.inl (Nat.succ_pos _))) }

/-! ### The handler -/

/-- Once the event is raised, a sender that is about to wait will not. -/
theorem SenderPc.Ok.raised
    {room : Prop} {stuck stuck' : Prop} (h : pc.Ok event chain room buff stuck)
    (hpc : ∀ f, pc ≠ .suspended f) : pc.Ok ⟨1, []⟩ chain room buff stuck' := by
  have hcalm : CalmEvent ⟨1, []⟩ := .inr rfl
  cases pc with
  | idle => exact ⟨h.1, hcalm⟩
  | copy f => exact ⟨h.1, hcalm⟩
  | give f => exact ⟨h.1, h.2.1, hcalm⟩
  | recv f => exact ⟨.inl (by decide), hcalm⟩
  | suspended f => exact absurd rfl (hpc f)
  | _ => exact hcalm

theorem SenderPc.Ok.calm {room : Prop} {stuck : Prop} (h : pc.Ok event chain room buff stuck)
    (hpc : ∀ f, pc ≠ .suspended f) : CalmEvent event := by
  cases pc with
  | suspended f => exact absurd rfl (hpc f)
  | idle => exact h.2
  | copy f => exact h.2
  | give f => exact h.2.2
  | recv f => exact h.2
  | _ => exact h

/-- Raising the event resumes a suspended sender. -/
theorem boardEthSendActive_suspended (hpc : tx.sender = .suspended f)
    (hevent : tx.event = ⟨0, [⟨(), 1, .orClear⟩]⟩) :
    boardEthSendActive tx = { tx with event := ⟨0, []⟩, sender := .test f } := by
  rw [boardEthSendActive, hpc, hevent]
  rfl

theorem boardEthSendActive_calm (hevent : CalmEvent tx.event) :
    boardEthSendActive tx = { tx with event := ⟨1, []⟩ } := by
  rcases hevent with hevent | hevent
  all_goals
    rw [boardEthSendActive, hevent]
    rfl

/-- `board_eth_send_active` keeps the invariant. -/
theorem TxInv.active (h : TxInv tx irq frames) : TxInv (boardEthSendActive tx) irq' frames := by
  by_cases hpc : ∃ f, tx.sender = .suspended f
  · obtain ⟨f, hpc⟩ := hpc
    obtain ⟨hlinked, hqueue, hledger, hbusy, horder, hsize, hok⟩ := h
    rw [TxSide.tail, hpc] at hqueue
    rw [hpc] at horder hsize hok
    rw [boardEthSendActive_suspended hpc hok.2]
    exact ⟨hlinked, hqueue, hledger, hbusy, horder, hsize, .inl rfl⟩
  · have hpc : ∀ f, tx.sender ≠ .suspended f := fun f hf => hpc ⟨f, hf⟩
    rw [boardEthSendActive_calm (h.ok.calm hpc)]
    exact { h with ok := h.ok.raised hpc }

end

section
variable {s t : EthState} {a a : EthAction} {frames : List EthFrame} {f : EthFrame} {tx : TxSide}

/-- The handler keeps the invariant. -/
theorem TxInv.handler (h : TxInv s.tx s.irq frames) (hs : irqStep s = some t) :
    TxInv t.tx t.irq frames := by
  unfold irqStep at hs
  split at hs
  case h_1 => cases hs
  case h_2 hirq =>
    obtain rfl := Option.some.inj hs
    refine h.withIrq fun _ => ?_
    dsimp only
    split <;> trivial
  case h_3 hirq =>
    obtain rfl := Option.some.inj hs
    exact { h with ok := h.ok.mono id fun _ => .inr (.inr (.inr trivial)) }
  case h_4 hirq =>
    obtain rfl := Option.some.inj hs
    exact h.active
  all_goals
    rename_i hirq
    rw [hirq] at h
    obtain rfl := Option.some.inj hs
    exact h.withIrq False.elim

/-- The frames of a call fit into the buffers. -/
def EthAction.Fits : EthAction → Prop
  | .call chain => ∀ f ∈ chain, f.length ≤ 2048
  | _ => True

/-- **Every step keeps the invariant.** -/
theorem TxInv.step (h : TxInv s.tx s.irq frames) (ha : a.Fits) (hs : ethStep s a = some t) :
    ∃ frames', TxInv t.tx t.irq frames' := by
  cases a with
  | call chain =>
      obtain ⟨tx, htx, rfl⟩ := Option.map_eq_some_iff.mp hs
      exact ⟨_, h.call ha (EthState.onCpu_eq_some.mp htx).2⟩
  | sender =>
      obtain ⟨tx, htx, rfl⟩ := Option.map_eq_some_iff.mp hs
      exact h.sender (EthState.onCpu_eq_some.mp htx).2
  | transmit =>
      obtain ⟨tx, htx, rfl⟩ := Option.map_eq_some_iff.mp hs
      exact ⟨_, h.transmit htx⟩
  | setEmpty =>
      obtain ⟨tx, htx, rfl⟩ := Option.map_eq_some_iff.mp hs
      exact h.setEmpty htx
  | raiseTx =>
      obtain ⟨tx, htx, rfl⟩ := Option.map_eq_some_iff.mp hs
      exact ⟨_, h.raise htx⟩
  | interrupt =>
      have hs : irqEnter s = some t := hs
      unfold irqEnter at hs
      split at hs
      case isFalse => cases hs
      case isTrue hirq =>
        obtain rfl := Option.some.inj hs
        rw [hirq.1] at h
        exact ⟨_, h.withIrq False.elim⟩
  | handler => exact ⟨_, h.handler hs⟩
  | _ =>
      obtain ⟨rx, -, rfl⟩ := Option.map_eq_some_iff.mp hs
      exact ⟨_, h⟩

/-! ### Runs -/

/-- The part of the invariant that is about no particular queue. -/
def TxSound (s : EthState) : Prop :=
  ∃ frames, TxInv s.tx s.irq frames

/-- Soundness holds along every run. -/
theorem txSound_of_run {txbuffs rxbuffs : Fin configDescrNum → EthFrame} {as : List EthAction}
    (hfits : ∀ a ∈ as, a.Fits) (hrun : exec ethStep (ethInit txbuffs rxbuffs) as = some t) :
    TxSound t :=
  exec_invariant (fun ha ⟨_, h⟩ hs => h.step ha hs) (stepsMeet_of_forall_mem hfits)
    ⟨_, txInv_init txbuffs rxbuffs⟩ hrun

/-- The sender does not write what the MAC owns. -/
theorem TxSound.not_writesMac (h : TxSound s) : ¬ s.tx.WritesMac := by
  obtain ⟨frames, h⟩ := h
  have hok := h.ok
  unfold TxSide.WritesMac
  cases hpc : s.tx.sender with
  | copy f =>
      rw [hpc] at hok
      rintro ⟨j, hj, hbuff⟩
      rw [h.linked.dataAddr, h.linked.dataAddr] at hbuff
      have hempty := DmaRing.content_eq_none.mp hok.1
      rw [← hbuff, hj] at hempty
      cases hempty
  | give f =>
      rw [hpc] at hok
      intro hfull
      have hempty := DmaRing.content_eq_none.mp hok.1
      rw [hfull] at hempty
      cases hempty
  | _ => exact id

/-- Accepted frames that are not sent yet keep the MAC busy. -/
theorem TxSound.mac_busy (h : TxSound s) (hleft : s.tx.sent ≠ s.tx.accepted) :
    ∃ a ∈ [EthAction.transmit, .setEmpty, .raiseTx], (ethStep s a).isSome := by
  obtain ⟨frames, h⟩ := h
  cases hphase : s.tx.phase with
  | sent => exact ⟨.setEmpty, by simp, by simp [ethStep, txSetEmpty, hphase]⟩
  | flagged => exact ⟨.raiseTx, by simp, by simp [ethStep, txRaise, hphase]⟩
  | poll =>
      have hne : frames ≠ [] := by
        rintro rfl
        refine hleft ?_
        rw [h.ledger, hphase]
        exact (List.append_nil _).symm
      obtain ⟨f, rest, rfl⟩ := List.exists_cons_of_ne_nil hne
      have hown := (DmaRing.content_eq_some.mp h.queue.head_eq).1
      exact ⟨.transmit, by simp, by simp [ethStep, txTransmit, hphase, hown]⟩

/-- **A suspended sender has reason to be**: if some descriptor is empty, it has been sent
so late that the interrupt for it is still to be served. -/
theorem TxSound.announced (h : TxSound s) (hpc : s.tx.sender = .suspended f)
    {i : Fin configDescrNum} (hempty : s.tx.ring.isEmpty i = true) : s.tx.Announced s.irq := by
  obtain ⟨frames, h⟩ := h
  have hok := h.ok
  rw [hpc] at hok
  refine hok.1.resolve_left fun hfull => ?_
  have htail := h.queue.tail_eq_none_of_eq_none (DmaRing.content_eq_none.mpr hempty)
  rw [h.queue.tail_eq_none_iff] at htail
  omega

/-! ### The sender goes on -/

/-- The steps of the handler and of the sender alone. -/
def EthAction.IsCpu : EthAction → Prop
  | .interrupt | .handler | .sender => True
  | _ => False

/-- The sender is suspended with `f`, or about to try again. -/
def TxSide.Waits (tx : TxSide) (f : EthFrame) : Prop :=
  tx.sender = .suspended f ∨ tx.sender = .test f

theorem EthAction.IsCpu.fits (h : a.IsCpu) : a.Fits := by
  cases a with
  | call => exact absurd h id
  | _ => trivial

/-- What serving interrupts leaves of the sending side. -/
structure Served (tx tx' : TxSide) (f : EthFrame) : Prop where
  ring : tx'.ring = tx.ring
  phase : tx'.phase = tx.phase
  accepted : tx'.accepted = tx.accepted
  chain : tx'.chain = tx.chain
  waits : tx'.Waits f

/-- Interrupts served one after the other. -/
theorem Served.trans {tx' tx'' : TxSide} (h : Served tx tx' f)
    (h' : Served tx' tx'' f) : Served tx tx'' f :=
  ⟨h'.ring.trans h.ring, h'.phase.trans h.phase, h'.accepted.trans h.accepted,
    h'.chain.trans h.chain, h'.waits⟩

/-- The part of the handler about receiving comes to its end. -/
theorem rx_returns (s : EthState) (hirq : s.irq = .rxRead) :
    ∃ t, Reaches ethStep EthAction.IsCpu s t ∧ t.irq = .idle ∧ t.tx = s.tx := by
  obtain ⟨tx, rx, irq⟩ := s
  dsimp only at hirq
  subst hirq
  -- by induction on the packets counted
  obtain ⟨n, hn⟩ : ∃ n, rx.packets = n := ⟨_, rfl⟩
  induction n generalizing rx with
  | zero =>
      refine ⟨⟨tx, ethDeviceReady rx, .idle⟩, ?_, rfl, rfl⟩
      refine .of_step (a := .handler) trivial (t := ⟨tx, rx, .rxCallback⟩) ?_ ?_
      · simp [ethStep, irqStep, hn]
      · exact .of_step (a := .handler) trivial rfl (.refl _)
  | succ n ih =>
      obtain ⟨t, hreach, ht⟩ := ih { rx with packets := rx.packets - 1 } (by simp [hn])
      refine ⟨t, ?_, ht⟩
      refine .of_step (a := .handler) trivial (t := ⟨tx, rx, .rxAck⟩) ?_ ?_
      · simp [ethStep, irqStep, hn]
      · exact .of_step (a := .handler) trivial rfl hreach

/-- Behind the part about sending, the handler returns and leaves that side alone. -/
theorem irq_returns (s : EthState) (hirq : ¬ s.irq.InTx) :
    ∃ t, Reaches ethStep EthAction.IsCpu s t ∧ t.irq = .idle ∧ t.tx = s.tx := by
  obtain ⟨tx, rx, irq⟩ := s
  -- every place leads to the loop over the packets, or past it
  have hread : ∀ rx : RxSide, ∃ t, Reaches ethStep EthAction.IsCpu ⟨tx, rx, .rxRead⟩ t ∧
      t.irq = .idle ∧ t.tx = tx := fun rx => rx_returns ⟨tx, rx, .rxRead⟩ rfl
  have hclear : ∃ t, Reaches ethStep EthAction.IsCpu ⟨tx, rx, .rxOfClear⟩ t ∧
      t.irq = .idle ∧ t.tx = tx := by
    obtain ⟨t, hreach, ht⟩ := hread { rx with overflow := false }
    exact ⟨t, .of_step (a := .handler) trivial rfl hreach, ht⟩
  cases irq with
  | txRead => exact absurd trivial hirq
  | txAck => exact absurd trivial hirq
  | txCallback => exact absurd trivial hirq
  | idle => exact ⟨_, .refl _, rfl, rfl⟩
  | rxOfRead =>
      cases hof : rx.overflow with
      | true =>
          obtain ⟨t, hreach, ht⟩ := hclear
          refine ⟨t, .of_step (a := .handler) trivial ?_ hreach, ht⟩
          simp [ethStep, irqStep, hof]
      | false =>
          obtain ⟨t, hreach, ht⟩ := hread rx
          refine ⟨t, .of_step (a := .handler) trivial ?_ hreach, ht⟩
          simp [ethStep, irqStep, hof]
  | rxOfClear => exact hclear
  | rxRead => exact hread rx
  | rxAck =>
      obtain ⟨t, hreach, ht⟩ := hread { rx with packets := rx.packets - 1 }
      exact ⟨t, .of_step (a := .handler) trivial rfl hreach, ht⟩
  | rxCallback => exact ⟨_, .of_step (a := .handler) trivial rfl (.refl _), rfl, rfl⟩

/-- Raising the event, seen from a sender that waits. -/
theorem served_active (hwaits : tx.Waits f) :
    Served tx (boardEthSendActive tx) f := by
  unfold boardEthSendActive
  split
  case h_1 g hsend hsender =>
    rcases hwaits with hpc | hpc
    · obtain rfl : f = g := SenderPc.suspended.inj (hpc.symm.trans hsender)
      exact ⟨rfl, rfl, rfl, rfl, .inr rfl⟩
    · cases hpc.symm.trans hsender
  case h_2 => exact ⟨rfl, rfl, rfl, rfl, hwaits⟩

theorem status_boardEthSendActive (tx : TxSide) : (boardEthSendActive tx).status = tx.status := by
  unfold boardEthSendActive
  split <;> rfl

/-- From the callback the handler returns. -/
theorem callback_returns (tx : TxSide) (rx : RxSide) (b : Bool) (hwaits : tx.Waits f) :
    ∃ t, Reaches ethStep EthAction.IsCpu ⟨tx, rx, .txCallback b⟩ t ∧ t.irq = .idle ∧
      t.tx.status = tx.status ∧ Served tx t.tx f := by
  obtain ⟨t, hreach, hidle, htx⟩ :=
    irq_returns ⟨boardEthSendActive tx, rx, if b then .rxOfRead else .idle⟩
      (by cases b <;> exact id)
  refine ⟨t, .of_step (a := .handler) trivial rfl hreach, hidle, ?_, ?_⟩
  · rw [htx, status_boardEthSendActive]
  · rw [htx]
    exact served_active hwaits

/-- From the loop over `TX_STATUS` the handler returns with the count at zero. -/
theorem txRead_returns (tx : TxSide) (rx : RxSide) (b : Bool) (hwaits : tx.Waits f) :
    ∃ t, Reaches ethStep EthAction.IsCpu ⟨tx, rx, .txRead b⟩ t ∧ t.irq = .idle ∧
      t.tx.status = 0 ∧ Served tx t.tx f := by
  obtain ⟨n, hn⟩ : ∃ n, tx.status = n := ⟨_, rfl⟩
  induction n generalizing tx with
  | zero =>
      obtain ⟨t, hreach, hidle, hstatus, hserved⟩ := callback_returns tx rx b hwaits
      refine ⟨t, .of_step (a := .handler) trivial ?_ hreach, hidle, hstatus.trans hn, hserved⟩
      simp [ethStep, irqStep, hn]
  | succ n ih =>
      obtain ⟨t, hreach, hidle, hstatus, hserved⟩ :=
        ih { tx with status := tx.status - 1 } hwaits (by simp [hn])
      refine ⟨t, ?_, hidle, hstatus,
        ⟨hserved.ring, hserved.phase, hserved.accepted, hserved.chain, hserved.waits⟩⟩
      refine .of_step (a := .handler) trivial (t := ⟨tx, rx, .txAck b⟩) ?_ ?_
      · simp [ethStep, irqStep, hn]
      · exact .of_step (a := .handler) trivial rfl hreach

/-- With nothing more to come from the MAC, the processor serves the interrupts and comes to
rest. -/
theorem irq_settles (s : EthState) (hwaits : s.tx.Waits f) :
    ∃ t, Reaches ethStep EthAction.IsCpu s t ∧ t.irq = .idle ∧ t.tx.status = 0 ∧
      Served s.tx t.tx f := by
  obtain ⟨tx, rx, irq⟩ := s
  have hidle : ∀ tx rx, TxSide.Waits tx f →
      ∃ t, Reaches ethStep EthAction.IsCpu ⟨tx, rx, .idle⟩ t ∧ t.irq = .idle ∧
        t.tx.status = 0 ∧ Served tx t.tx f := by
    intro tx rx hwaits
    rcases Nat.eq_zero_or_pos tx.status with hstatus | hstatus
    · exact ⟨_, .refl _, rfl, hstatus, ⟨rfl, rfl, rfl, rfl, hwaits⟩⟩
    · obtain ⟨t, hreach, ht⟩ := txRead_returns tx rx (EthState.intRx ⟨tx, rx, .idle⟩) hwaits
      refine ⟨t, .of_step (a := .interrupt) trivial ?_ hreach, ht⟩
      simp [ethStep, irqEnter, EthState.intTx, hstatus]
  by_cases hirq : irq.InTx
  case neg =>
    obtain ⟨⟨tx', rx', irq'⟩, hreach, hidle', htx⟩ := irq_returns ⟨tx, rx, irq⟩ hirq
    dsimp only at hidle' htx
    subst hidle' htx
    obtain ⟨u, hreach', hu⟩ := hidle tx' rx' hwaits
    exact ⟨u, hreach.trans hreach', hu⟩
  case pos =>
    cases irq with
    | txRead b => exact txRead_returns tx rx b hwaits
    | txAck b =>
        obtain ⟨t, hreach, hirq', hstatus, hserved⟩ :=
          txRead_returns { tx with status := tx.status - 1 } rx b hwaits
        exact ⟨t, .of_step (a := .handler) trivial rfl hreach, hirq', hstatus,
          ⟨hserved.ring, hserved.phase, hserved.accepted, hserved.chain, hserved.waits⟩⟩
    | txCallback b =>
        obtain ⟨⟨tx', rx', irq'⟩, hreach, hidle', -, hserved⟩ := callback_returns tx rx b hwaits
        dsimp only at hidle' hserved
        subst hidle'
        obtain ⟨u, hreach', hirq', hstatus, hserved'⟩ := hidle tx' rx' hserved.waits
        exact ⟨u, hreach.trans hreach', hirq', hstatus, hserved.trans hserved'⟩
    | _ => exact absurd hirq id

/-- **The sender goes on**: once a descriptor has been sent and counted, the processor alone
serves the interrupt, resumes the sender, and has its frame accepted. -/
theorem TxSound.accepts (h : TxSound s) (hwaits : s.tx.Waits f)
    {i : Fin configDescrNum} (hempty : s.tx.ring.isEmpty i = true)
    (hphase : s.tx.phase ≠ .flagged) :
    ∃ t, Reaches ethStep EthAction.IsCpu s t ∧ t.tx.accepted = s.tx.accepted ++ [f] ∧
      t.tx.chain = s.tx.chain ∧ t.tx.sender = .start ∧ t.irq = .idle := by
  obtain ⟨t, hreach, hidle, hstatus, hserved⟩ := irq_settles s hwaits
  have ht : TxSound t := hreach.invariant (fun ha ⟨_, h⟩ hs => h.step ha.fits hs) h
  have hempty' : t.tx.ring.isEmpty i = true := by rwa [hserved.ring]
  have htest : t.tx.sender = .test f := by
    refine hserved.waits.resolve_left fun hsusp => ?_
    rcases ht.announced hsusp hempty' with hflag | hcount | hirq
    · exact hphase (hserved.phase ▸ hflag)
    · omega
    · rw [hidle] at hirq
      exact hirq
  have hcurr : t.tx.ring.isEmpty t.tx.ring.currdescnum = true := by
    obtain ⟨frames, hinv⟩ := ht
    have htail := hinv.queue.tail_eq_none_of_eq_none (DmaRing.content_eq_none.mpr hempty')
    rw [TxSide.tail, htest] at htail
    exact DmaRing.content_eq_none.mp htail
  obtain ⟨tx, rx, irq⟩ := t
  dsimp only at hidle htest hcurr hserved
  subst hidle
  refine ⟨⟨{ tx with
    ring := (tx.ring.copyTo tx.ring.currdescnum f).setConfig tx.ring.currdescnum (lengthConfig f)
    accepted := tx.accepted ++ [f]
    sender := .start }, rx, .idle⟩, hreach.trans ?_, ?_, hserved.chain, rfl, rfl⟩
  · refine .of_step (a := .sender) trivial (t := ⟨{ tx with sender := .copy f }, rx, .idle⟩) ?_
      (.of_step (a := .sender) trivial rfl (.of_step (a := .sender) trivial rfl (.refl _)))
    simp [ethStep, EthState.onCpu, senderStep, htest, hcurr]
  · rw [← hserved.accepted]

/-- The steps other than new calls. -/
def EthAction.NotCall (a : EthAction) : Prop :=
  ∀ chain, a ≠ .call chain

theorem EthAction.NotCall.fits (h : a.NotCall) : a.Fits := by
  cases a with
  | call chain => exact absurd rfl (h chain)
  | _ => trivial

theorem EthAction.IsCpu.notCall (h : a.IsCpu) : a.NotCall := by
  rintro chain rfl
  exact h

/-- The MAC may come to rest with a descriptor sent. -/
def MacSettles (s : EthState) : Prop :=
  ∃ tx : TxSide, Reaches ethStep EthAction.NotCall s { s with tx } ∧ tx.phase = .poll ∧
    (∃ i, tx.ring.isEmpty i = true) ∧ tx.sender = s.tx.sender ∧ tx.chain = s.tx.chain

/-- A step of the MAC on the way there. -/
theorem MacSettles.of_step (tx : TxSide) (ha : a.NotCall)
    (hstep : ethStep s a = some { s with tx }) (hsender : tx.sender = s.tx.sender)
    (hchain : tx.chain = s.tx.chain) (h : MacSettles { s with tx }) : MacSettles s := by
  obtain ⟨tx', hreach, hphase, hempty, hsender', hchain'⟩ := h
  exact ⟨tx', .of_step ha hstep hreach, hphase, hempty, hsender'.trans hsender,
    hchain'.trans hchain⟩

/-- Left to itself, the MAC comes to rest with a descriptor sent. -/
theorem mac_settles (s : EthState) : MacSettles s := by
  obtain ⟨tx, rx, irq⟩ := s
  -- behind the frame, the flag and the count
  have hsent : ∀ tx : TxSide, tx.phase = .sent → MacSettles ⟨tx, rx, irq⟩ := by
    intro tx hphase
    have hcontent := DmaRing.content_setConfig_empty (r := tx.ring) (i := tx.ring.dma)
      (or_isEmpty (tx.ring.descrtable tx.ring.dma).config)
    have hempty := (congrFun hcontent tx.ring.dma).trans (Function.update_self _ _ _)
    let ring : DmaRing :=
      { tx.ring.setConfig tx.ring.dma ((tx.ring.descrtable tx.ring.dma).config ||| dmadescIsEmpty)
        with dma := (tx.ring.descrtable tx.ring.dma).nextDesc }
    refine .of_step { tx with ring, phase := .flagged } (a := .setEmpty) nofun ?_ rfl rfl
      (.of_step { tx with ring, status := tx.status + 1, phase := .poll } (a := .raiseTx) nofun rfl
        rfl rfl ⟨_, .refl _, rfl, ⟨tx.ring.dma, DmaRing.content_eq_none.mp hempty⟩, rfl, rfl⟩)
    rw [ethStep, txSetEmpty, if_pos hphase]
    rfl
  have hpoll : ∀ tx : TxSide, tx.phase = .poll → MacSettles ⟨tx, rx, irq⟩ := by
    intro tx hphase
    by_cases hempty : ∃ i, tx.ring.isEmpty i = true
    · exact ⟨tx, .refl _, hphase, hempty, rfl, rfl⟩
    · have hown : tx.ring.isEmpty tx.ring.dma = false :=
        Bool.eq_false_iff.mpr fun h => hempty ⟨_, h⟩
      refine .of_step { tx with sent := tx.sent ++ [tx.ring.packet tx.ring.dma], phase := .sent }
        (a := .transmit) nofun ?_ rfl rfl (hsent _ rfl)
      rw [ethStep, txTransmit, if_pos ⟨hphase, hown⟩]
      rfl
  cases hphase : tx.phase with
  | sent => exact hsent tx hphase
  | poll => exact hpoll tx hphase
  | flagged =>
      refine .of_step { tx with status := tx.status + 1, phase := .poll } (a := .raiseTx) nofun ?_
        rfl rfl (hpoll _ rfl)
      rw [ethStep, txRaise, if_pos hphase]
      rfl

/-- A sender that waits gets its frame accepted. -/
theorem TxSound.reaches_start (h : TxSound s) (hwaits : s.tx.Waits f) :
    ∃ t, Reaches ethStep EthAction.NotCall s t ∧ t.tx.chain = s.tx.chain ∧
      t.tx.sender = .start ∧ t.irq = .idle := by
  obtain ⟨tx, hreach, hphase, ⟨i, hempty⟩, hsender, hchain⟩ := mac_settles s
  have hsound : TxSound { s with tx } :=
    hreach.invariant (fun ha ⟨_, h⟩ hs => h.step ha.fits hs) h
  have hwaits' : tx.Waits f := by rwa [TxSide.Waits, hsender]
  obtain ⟨t, hreach', -, hchain', hstart, hidle⟩ :=
    hsound.accepts hwaits' hempty (by rw [hphase]; decide)
  exact ⟨t, hreach.trans (hreach'.mono fun ha => ha.notCall), hchain'.trans hchain, hstart, hidle⟩

/-- From every segment `lwip_eth_tx` goes on to its end. -/
theorem TxSound.returns (h : TxSound s) (hs : s = ⟨tx.nextSegment chain, s.rx, .idle⟩) :
    ∃ t, Reaches ethStep EthAction.NotCall s t ∧ t.tx.sender = .idle := by
  induction chain generalizing s tx with
  | nil => exact ⟨s, .refl _, by rw [hs]; rfl⟩
  | cons f chain ih =>
      obtain ⟨⟨tx', rx', irq'⟩, hreach, hchain, hstart, hidle⟩ :=
        h.reaches_start (f := f) (.inr (by rw [hs]; rfl))
      dsimp only at hchain hstart hidle
      subst hidle
      have hchain : tx'.chain = chain := hchain.trans (by rw [hs]; rfl)
      -- two more steps lead to the next segment
      have hnext : Reaches ethStep EthAction.NotCall ⟨tx', rx', .idle⟩
          ⟨TxSide.nextSegment { tx' with
            ring := { tx'.ring with currdescnum := slotAt tx'.ring.currdescnum 1 }
            sender := .advance } chain, rx', .idle⟩ := by
        refine .of_step (a := .sender) nofun
          (t := ⟨{ tx' with sender := .advance }, rx', .idle⟩) ?_
          (.of_step (a := .sender) nofun ?_ (.refl _))
        · simp [ethStep, EthState.onCpu, senderStep, hstart]
        · simp [ethStep, EthState.onCpu, senderStep, hchain]
      have hsound := (hreach.trans hnext).invariant (fun ha ⟨_, h⟩ hs => h.step ha.fits hs) h
      obtain ⟨t, hreach', ht⟩ := ih hsound rfl
      exact ⟨t, (hreach.trans hnext).trans hreach', ht⟩

/-! ### The main results -/

/-- What holds in every state: the MAC has sent the frames accepted, in order, and is busy as
long as some are left; frames are accepted in the order in which they were submitted; the
sender writes nothing the MAC owns; and a sender that is suspended while a descriptor has
been sent and counted has the interrupt before it, and is resumed by it. -/
structure TransmitSound (s : EthState) : Prop where
  in_order : s.tx.sent <+: s.tx.accepted
  busy : s.tx.sent ≠ s.tx.accepted →
    ∃ a ∈ [EthAction.transmit, .setEmpty, .raiseTx], (ethStep s a).isSome
  submitted : s.tx.accepted <+: s.tx.submitted
  owner : ¬ s.tx.WritesMac
  announced : ∀ f i, s.tx.sender = .suspended f → s.tx.ring.isEmpty i = true →
    s.tx.phase ≠ .flagged → s.intTx = true ∨ s.irq.InTx
  accepts : ∀ f i, s.tx.sender = .suspended f → s.tx.ring.isEmpty i = true →
    s.tx.phase ≠ .flagged →
      ∃ t, Reaches ethStep EthAction.IsCpu s t ∧ t.tx.accepted = s.tx.accepted ++ [f]

theorem TxSound.transmitSound (h : TxSound s) : TransmitSound s := by
  obtain ⟨frames, hinv⟩ := id h
  refine ⟨⟨_, hinv.ledger.symm⟩, h.mac_busy, ⟨_, hinv.order.symm⟩, h.not_writesMac, ?_, ?_⟩
  · intro f i hpc hempty hphase
    refine ((h.announced hpc hempty).resolve_left hphase).imp_left fun hstatus => ?_
    simpa [EthState.intTx] using hstatus
  · intro f i hpc hempty hphase
    obtain ⟨t, hreach, haccepted, -⟩ := h.accepts (.inl hpc) hempty hphase
    exact ⟨t, hreach, haccepted⟩

/-- **Sending is sound** in every run of the system, whatever is sent in frames of at most
2048 bytes. -/
theorem transmit_sound (txbuffs rxbuffs : Fin configDescrNum → EthFrame) {as : List EthAction}
    (hfits : ∀ a ∈ as, a.Fits) (hrun : exec ethStep (ethInit txbuffs rxbuffs) as = some t) :
    TransmitSound t :=
  (txSound_of_run hfits hrun).transmitSound

/-- One frame is sent, and the interrupt for it is served. -/
theorem transmit_sound_served :
    ∃ t, exec ethStep (ethInit zeroBuffs zeroBuffs)
        [.call [[1, 2]], .sender, .sender, .sender, .transmit, .sender, .setEmpty, .sender,
          .raiseTx, .interrupt, .handler, .handler, .handler, .handler] = some t ∧
      TransmitSound t := by
  obtain ⟨t, hrun⟩ := Option.isSome_iff_exists.mp (by decide +kernel :
    (exec ethStep (ethInit zeroBuffs zeroBuffs)
      [.call [[1, 2]], .sender, .sender, .sender, .transmit, .sender, .setEmpty, .sender, .raiseTx,
        .interrupt, .handler, .handler, .handler, .handler]).isSome = true)
  refine ⟨t, hrun, transmit_sound zeroBuffs zeroBuffs ?_ hrun⟩
  simp [EthAction.Fits]

/-! ### Packets of several segments -/

/-- When `lwip_eth_tx` has returned, all it was given has been accepted. -/
theorem TxSound.accepted_eq (h : TxSound s) (hidle : s.tx.sender = .idle) :
    s.tx.accepted = s.tx.submitted := by
  obtain ⟨frames, h⟩ := h
  have hok := h.ok
  rw [hidle] at hok
  rw [h.order, hidle, hok.1]
  simp [SenderPc.frame]

theorem submitted_nextSegment (tx : TxSide) (chain : List EthFrame) :
    (tx.nextSegment chain).submitted = tx.submitted := by
  cases chain <;> rfl

theorem submitted_senderStep {tx' : TxSide} (hs : senderStep tx = some tx') :
    tx'.submitted = tx.submitted := by
  unfold senderStep at hs
  cases hpc : tx.sender <;> rw [hpc] at hs
  case idle => cases hs
  case suspended => cases hs
  case advance =>
    obtain rfl := Option.some.inj hs
    exact submitted_nextSegment _ _
  case recv =>
    dsimp only at hs
    split at hs
    all_goals
      obtain rfl := Option.some.inj hs
      rfl
  all_goals
    obtain rfl := Option.some.inj hs
    rfl

theorem submitted_boardEthSendActive (tx : TxSide) :
    (boardEthSendActive tx).submitted = tx.submitted := by
  unfold boardEthSendActive
  split <;> rfl

/-- Frames are submitted by calls only. -/
theorem submitted_eq (ha : a.NotCall) (hs : ethStep s a = some t) :
    t.tx.submitted = s.tx.submitted := by
  cases a with
  | call chain => exact absurd rfl (ha chain)
  | sender =>
      obtain ⟨tx, htx, rfl⟩ := Option.map_eq_some_iff.mp hs
      exact submitted_senderStep (EthState.onCpu_eq_some.mp htx).2
  | transmit =>
      obtain ⟨tx, htx, rfl⟩ := Option.map_eq_some_iff.mp hs
      obtain ⟨-, ⟨⟩⟩ := Option.ite_none_right_eq_some.mp htx
      rfl
  | setEmpty =>
      obtain ⟨tx, htx, rfl⟩ := Option.map_eq_some_iff.mp hs
      obtain ⟨-, ⟨⟩⟩ := Option.ite_none_right_eq_some.mp htx
      rfl
  | raiseTx =>
      obtain ⟨tx, htx, rfl⟩ := Option.map_eq_some_iff.mp hs
      obtain ⟨-, ⟨⟩⟩ := Option.ite_none_right_eq_some.mp htx
      rfl
  | interrupt =>
      obtain ⟨-, ⟨⟩⟩ := Option.ite_none_right_eq_some.mp hs
      rfl
  | handler =>
      have hs : irqStep s = some t := hs
      unfold irqStep at hs
      split at hs
      case h_1 => cases hs
      case h_4 =>
        obtain rfl := Option.some.inj hs
        exact submitted_boardEthSendActive _
      all_goals
        obtain rfl := Option.some.inj hs
        rfl
  | _ =>
      obtain ⟨rx, -, rfl⟩ := Option.map_eq_some_iff.mp hs
      rfl

/-- **One frame for a packet of one segment**: a call of `lwip_eth_tx` returns, and has then
handed over one frame with all the bytes of the packet exactly if the packet is a single
segment. -/
theorem lwipEthTx_one_frame_iff (txbuffs rxbuffs : Fin configDescrNum → EthFrame)
    {before : List EthAction} (hfits : ∀ a ∈ before, a.Fits)
    (hs : exec ethStep (ethInit txbuffs rxbuffs) before = some s) {chain : List EthFrame}
    (htotal : chain.flatten.length ≤ 1514) {u : EthState}
    (hcall : ethStep s (.call chain) = some u) :
    (∃ t, Reaches ethStep EthAction.NotCall u t ∧ t.tx.sender = .idle) ∧
      ∀ t, Reaches ethStep EthAction.NotCall u t → t.tx.sender = .idle →
        (t.tx.accepted = s.tx.accepted ++ [chain.flatten] ↔ chain.length = 1) := by
  have hsound : TxSound s := txSound_of_run hfits hs
  have hsize : EthAction.Fits (.call chain) := by
    intro f hf
    have hle := (List.sublist_flatten_of_mem hf).length_le
    omega
  have hsound' : TxSound u := by
    obtain ⟨_, hinv⟩ := hsound
    exact hinv.step hsize hcall
  obtain ⟨tx, htx, rfl⟩ := Option.map_eq_some_iff.mp hcall
  obtain ⟨hirq, htx⟩ := EthState.onCpu_eq_some.mp htx
  obtain ⟨hidle, ⟨⟩⟩ := Option.ite_none_right_eq_some.mp htx
  refine ⟨hsound'.returns (by rw [hirq]), fun t hreach ht => ?_⟩
  have haccepted : t.tx.accepted = s.tx.accepted ++ chain := by
    have hsubmitted := hreach.invariant
      (I := fun v => v.tx.submitted = s.tx.submitted ++ chain)
      (fun ha hv hstep => (submitted_eq ha hstep).trans hv) (submitted_nextSegment _ _)
    have hsound'' := hreach.invariant (fun ha ⟨_, h⟩ hstep => h.step ha.fits hstep) hsound'
    rw [hsound''.accepted_eq ht, hsubmitted, hsound.accepted_eq hidle]
  rw [haccepted, List.append_cancel_left_eq]
  constructor
  · intro h
    rw [h, List.length_singleton]
  · intro h
    obtain ⟨f, rfl⟩ := List.length_eq_one_iff.mp h
    simp

/-- A packet of one segment. -/
theorem lwipEthTx_one_frame_single :
    ∃ u ∈ ethStep (ethInit zeroBuffs zeroBuffs) (.call [[1, 2]]),
      ∀ t, Reaches ethStep EthAction.NotCall u t → t.tx.sender = .idle →
        t.tx.accepted = [[1, 2]] := by
  have hstart : exec ethStep (ethInit zeroBuffs zeroBuffs) [] =
      some (ethInit zeroBuffs zeroBuffs) := rfl
  obtain ⟨u, hcall⟩ : ∃ u, ethStep (ethInit zeroBuffs zeroBuffs) (.call [[1, 2]]) = some u :=
    ⟨_, rfl⟩
  refine ⟨u, hcall, fun t hreach ht => ?_⟩
  have hiff := lwipEthTx_one_frame_iff zeroBuffs zeroBuffs (fun _ h => absurd h List.not_mem_nil)
    hstart (show [[1, 2]].flatten.length ≤ 1514 by decide) hcall
  exact (hiff.2 t hreach ht).mpr rfl

/-- A packet of two segments goes out as two frames. -/
theorem segments_sent_apart :
    ∃ t ∈ exec ethStep (ethInit zeroBuffs zeroBuffs)
        (.call [[1], [2]] :: List.replicate 10 .sender),
      t.tx.sender = .idle ∧ t.tx.accepted = [[1], [2]] ∧ t.tx.accepted ≠ [[1, 2]] := by
  decide +kernel

end

end RtBoot
