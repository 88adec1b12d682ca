import RtBoot.Ethernet
import RtBoot.Run
import RtBoot.WriteBack

/-!
# Publishing a Frame to the DMA Engine

`ag71xx_eth_send` once more, on a machine whose data cache the DMA engine does not see.
The table is aligned to a cache line and a descriptor fills one; a buffer is made of whole
lines. What the processor stores to a descriptor or a buffer stays in the cache until
`arch_dcache_flush`, and what it reads may be old until `arch_dcache_invalidate`. The engine
reads descriptors and buffers in memory, and writes descriptors there.

The function flushes the descriptor first and the buffer behind it. In between, memory shows
a descriptor that belongs to the engine and a buffer that still holds what was sent from it
the last time. As long as the engine does not come to the descriptor in that moment, every
frame it sends is the packet that was submitted.

## Main results

* `Publishes.step`: every step but a send in that moment keeps the invariant.
* `sent_eq_submitted`: **every frame sent is the packet submitted** in any run of such steps.
* `stale_frame_sent`: a run that sends the old contents of a buffer.
-/

namespace RtBoot

/-- Where `ag71xx_eth_send` is: not called; in front of the invalidation of the descriptor,
of the test of its flag, of copying the packet, of storing `config`, of flushing the
descriptor, of flushing the buffer, of starting the DMA, or of going on to the next
descriptor. -/
inductive SendPc
  | idle
  | invalidate (packet : EthFrame)
  | test (packet : EthFrame)
  | copy (packet : EthFrame)
  | config (packet : EthFrame)
  | flushDesc (packet : EthFrame)
  | flushBuff (packet : EthFrame)
  | start
  | advance
  deriving DecidableEq

/-- Descriptors and buffers with the cache in front of them, the descriptor the software has
come to and the one the engine has come to, whether the engine has sent that and not yet
marked it empty, the packets accepted and the frames sent. -/
structure PublishState where
  desc : WriteBack (Fin configDescrNum) DmaDesc
  buff : WriteBack (Fin configDescrNum) EthFrame
  currdescnum : Fin configDescrNum
  dma : Fin configDescrNum
  sending : Bool
  sender : SendPc
  submitted : List EthFrame
  sent : List EthFrame

/-- The ring as it stands in memory, which is what the engine sees. -/
def PublishState.ring (s : PublishState) : DmaRing :=
  ⟨s.desc.mem, s.buff.mem, s.currdescnum, s.dma⟩

/-- The state `ag71xx_dma_clean_tx` leaves. -/
def publishInit (buffs : Fin configDescrNum → EthFrame) : PublishState where
  desc := ⟨(dmaClean buffs).descrtable, fun _ => none⟩
  buff := ⟨buffs, fun _ => none⟩
  currdescnum := (dmaClean buffs).currdescnum
  dma := (dmaClean buffs).dma
  sending := false
  sender := .idle
  submitted := []
  sent := []

/-- The next step of `ag71xx_eth_send`. A descriptor that is not empty makes it return
`-1`. -/
def ag71xxEthSendStep (s : PublishState) : Option PublishState :=
  let curr := s.currdescnum
  let data := (s.desc.load curr).dataAddr
  match s.sender with
  | .idle => none
  | .invalidate f => some { s with desc := s.desc.invalidate curr, sender := .test f }
  | .test f =>
      if (s.desc.load curr).config &&& dmadescIsEmpty != 0 then
        some { s with
          desc := s.desc.fill curr
          sender := .copy f
          submitted := s.submitted ++ [f] }
      else some { s with desc := s.desc.fill curr, sender := .idle }
  | .copy f =>
      some { s with
        buff := s.buff.store data (f ++ (s.buff.load data).drop f.length)
        sender := .config f }
  | .config f =>
      some { s with
        desc := s.desc.store curr { s.desc.load curr with config := lengthConfig f }
        sender := .flushDesc f }
  | .flushDesc f => some { s with desc := s.desc.flush curr, sender := .flushBuff f }
  | .flushBuff _ =>
      some { s with desc := s.desc.fill curr, buff := s.buff.flush data, sender := .start }
  | .start => some { s with sender := .advance }
  | .advance => some { s with currdescnum := slotAt curr 1, sender := .idle }

/-- The steps: a call of `ag71xx_eth_send`, its next step, the engine sends the descriptor it
has come to, and marks it empty and moves on. -/
inductive PublishAction
  | send (packet : EthFrame)
  | cpu
  | transmit
  | setEmpty
  deriving DecidableEq

/-- One step. The engine needs no more than a descriptor in memory that is not empty. -/
def publishStep (s : PublishState) : PublishAction → Option PublishState
  | .send f => if s.sender = .idle then some { s with sender := .invalidate f } else none
  | .cpu => ag71xxEthSendStep s
  | .transmit =>
      if s.sending = false ∧ s.ring.isEmpty s.dma = false then
        some { s with sent := s.sent ++ [s.ring.packet s.dma], sending := true }
      else none
  | .setEmpty =>
      let desc := s.desc.mem s.dma
      if s.sending then
        some { s with
          desc := s.desc.busWrite s.dma { desc with config := desc.config ||| dmadescIsEmpty }
          dma := desc.nextDesc
          sending := false }
      else none

/-- **Every frame sent is the packet submitted**, in the order of the calls. -/
def SentSubmitted (s : PublishState) : Prop :=
  s.sent = s.submitted.take s.sent.length
  deriving Decidable

/-- The descriptor is flushed and its buffer is not. -/
def SendPc.BetweenFlushes : SendPc → Prop
  | .flushBuff _ => True
  | _ => False

instance : ∀ pc : SendPc, Decidable pc.BetweenFlushes
  | .flushBuff _ => .isTrue trivial
  | .idle | .invalidate _ | .test _ | .copy _ | .config _ | .flushDesc _ | .start | .advance =>
      .isFalse id

/-- The condition: packets fit a buffer, and the engine does not send the current descriptor
between the flush of the descriptor and the flush of its buffer. -/
def PublishAction.Ordered (s : PublishState) : PublishAction → Prop
  | .send f => f.length ≤ 2048
  | .transmit => ¬ (s.sender.BetweenFlushes ∧ s.dma = s.currdescnum)
  | _ => True

instance (s : PublishState) : ∀ a : PublishAction, Decidable (a.Ordered s)
  | .send f => inferInstanceAs (Decidable (f.length ≤ 2048))
  | .transmit => inferInstanceAs (Decidable (¬ (s.sender.BetweenFlushes ∧ s.dma = s.currdescnum)))
  | .cpu | .setEmpty => .isTrue trivial

/-! ### The invariant -/

/-- The packet that is accepted and not yet in the ring. -/
def SendPc.pending : SendPc → List EthFrame
  | .copy f | .config f | .flushDesc f | .flushBuff f => [f]
  | _ => []

/-- The descriptor that is filled next. -/
def PublishState.tail (s : PublishState) : Fin configDescrNum :=
  match s.sender with
  | .start | .advance => slotAt s.currdescnum 1
  | _ => s.currdescnum

/-- The contents of the ring in memory, without a descriptor whose buffer is still to be
flushed. -/
def PublishState.published (s : PublishState) : Fin configDescrNum → Option EthFrame :=
  match s.sender with
  | .flushBuff _ => Function.update s.ring.content s.currdescnum none
  | _ => s.ring.content

/-- What holds of the current descriptor while `ag71xx_eth_send` is at its next step. -/
def PublishState.Sending (s : PublishState) : Prop :=
  let buffered (f : EthFrame) := ∃ rest, s.buff.load s.currdescnum = f ++ rest
  match s.sender with
  | .invalidate f => f.length ≤ 2048
  | .test f => f.length ≤ 2048 ∧ s.desc.line s.currdescnum = none
  | .copy f => f.length ≤ 2048 ∧ s.ring.content s.currdescnum = none
  | .config f => f.length ≤ 2048 ∧ s.ring.content s.currdescnum = none ∧ buffered f
  | .flushDesc f =>
      f.length ≤ 2048 ∧ s.ring.content s.currdescnum = none ∧ buffered f ∧
        (s.desc.load s.currdescnum).config = lengthConfig f
  | .flushBuff f =>
      f.length ≤ 2048 ∧ buffered f ∧ (s.desc.mem s.currdescnum).config = lengthConfig f
  | _ => True

/-- A descriptor with its own buffer and the link to the next one. -/
def DmaDesc.LinkedAt (d : DmaDesc) (i : Fin configDescrNum) : Prop :=
  d.dataAddr = i ∧ d.nextDesc = slotAt i 1

/-- The memory holds the queue `frames`, which together with what is sent and what is on the
way is all that was submitted. -/
structure Publishes (s : PublishState) (frames : List EthFrame) : Prop where
  linked : s.desc.Holds fun i d => d.LinkedAt i
  queue : RingQueue s.published s.dma s.tail frames
  ledger : s.submitted =
    s.sent ++ ((if s.sending then frames.tail else frames) ++ s.sender.pending)
  busy : s.sending = true → frames ≠ []
  ok : s.Sending

theorem publishes_init (buffs : Fin configDescrNum → EthFrame) :
    Publishes (publishInit buffs) [] where
  linked := ⟨fun _ => ⟨rfl, rfl⟩, fun _ _ h => absurd h (by simp [publishInit])⟩
  queue := ringQueue_nil (content_dmaClean buffs) _
  ledger := rfl
  busy h := absurd h Bool.false_ne_true
  ok := trivial

/-- Writing the buffer of a descriptor that belongs to the engine. -/
theorem content_setBuff {r : DmaRing} (hlinked : ∀ i, (r.descrtable i).LinkedAt i)
    {i : Fin configDescrNum} {f : EthFrame} (hlen : f.length < 2 ^ 12)
    (hconfig : (r.descrtable i).config = lengthConfig f) (rest : EthFrame) :
    DmaRing.content { r with buffs := Function.update r.buffs i (f ++ rest) } =
      Function.update r.content i (some f) := by
  funext j
  rcases eq_or_ne j i with rfl | hne
  · rw [Function.update_self, DmaRing.content_eq_some]
    constructor
    · simp only [DmaRing.isEmpty, hconfig, lengthConfig_not_empty, bne_self_eq_false]
    · simp only [DmaRing.packet, (hlinked j).1, Function.update_self, hconfig, lengthConfig_size]
      rw [Nat.mod_eq_of_lt hlen, List.take_left]
  · have hbuff : (r.descrtable j).dataAddr ≠ i := by rwa [(hlinked j).1]
    rw [Function.update_of_ne hne]
    simp only [DmaRing.content, DmaRing.isEmpty, DmaRing.packet, Function.update_of_ne hbuff]
    rfl

/-- Flushing a descriptor with a new `config` writes that `config` to memory. -/
theorem flush_eq_setConfig {s : PublishState} {i : Fin configDescrNum} {c : BitVec 32}
    (hmem : (s.desc.mem i).LinkedAt i) (hload : (s.desc.load i).LinkedAt i)
    (hconfig : (s.desc.load i).config = c) :
    (s.desc.flush i).mem = (s.ring.setConfig i c).descrtable := by
  have hdesc : s.desc.load i = { s.desc.mem i with config := c } := by
    obtain ⟨hdata, hnext⟩ := hload
    dsimp only
    rw [hmem.1, hmem.2]
    generalize s.desc.load i = d at hdata hnext hconfig
    obtain ⟨data, config, next⟩ := d
    dsimp only at hdata hnext hconfig
    rw [hdata, hnext, hconfig]
  exact congrArg (Function.update s.desc.mem i) hdesc

section
variable {s t : PublishState} {frames : List EthFrame}

/-- Flushing the descriptor publishes nothing as long as its buffer is left out. -/
theorem content_flushDesc {f : EthFrame} (hlinked : s.desc.Holds fun i d => d.LinkedAt i)
    (hempty : s.ring.content s.currdescnum = none)
    (hconfig : (s.desc.load s.currdescnum).config = lengthConfig f) :
    Function.update
        (DmaRing.content { s.ring with descrtable := (s.desc.flush s.currdescnum).mem })
        s.currdescnum none =
      s.ring.content := by
  rw [flush_eq_setConfig (hlinked.mem s.currdescnum) (hlinked.load _) hconfig]
  change Function.update (s.ring.setConfig s.currdescnum (lengthConfig f)).content _ _ = _
  rw [DmaRing.content_setConfig, Function.update_idem, ← hempty, Function.update_eq_self]

/-- The packet on the way joins the end of the queue. -/
theorem queue_joins {sending : Bool} (hbusy : sending = true → frames ≠ []) (f : EthFrame) :
    (if sending then frames.tail else frames) ++ [f] =
      if sending then (frames ++ [f]).tail else frames ++ [f] := by
  cases sending with
  | false => rfl
  | true => exact (List.tail_append_of_ne_nil (hbusy rfl)).symm

/-- **A step of `ag71xx_eth_send`** keeps the invariant; it adds a frame to the queue when it
flushes the buffer. -/
theorem Publishes.cpu (h : Publishes s frames) (hs : ag71xxEthSendStep s = some t) :
    ∃ frames', Publishes t frames' := by
  obtain ⟨hlinked, hqueue, hledger, hbusy, hok⟩ := h
  have hdata : (s.desc.load s.currdescnum).dataAddr = s.currdescnum := (hlinked.load _).1
  unfold PublishState.published PublishState.tail at hqueue
  unfold PublishState.Sending at hok
  unfold ag71xxEthSendStep at hs
  dsimp only at hs
  rw [hdata] at hs
  cases hpc : s.sender with
  | idle => rw [hpc] at hs; cases hs
  | invalidate f =>
      rw [hpc] at hs hqueue hledger hok
      obtain rfl := Option.some.inj hs
      exact ⟨frames, hlinked.invalidate, hqueue, hledger, hbusy, hok,
        WriteBack.line_invalidate_self _ _⟩
  | test f =>
      rw [hpc] at hs hqueue hledger hok
      dsimp only at hs
      obtain ⟨hlen, hline⟩ := hok
      rw [WriteBack.load_of_line_eq_none _ _ hline] at hs
      split at hs
      case isTrue hempty =>
        obtain rfl := Option.some.inj hs
        refine ⟨frames, hlinked.fill, hqueue, ?_, hbusy, hlen, ?_⟩
        · simp only [hledger, SendPc.pending, List.append_nil, List.append_assoc]
        · exact DmaRing.content_eq_none.mpr hempty
      case isFalse hfull =>
        obtain rfl := Option.some.inj hs
        exact ⟨frames, hlinked.fill, hqueue, hledger, hbusy, trivial⟩
  | copy f =>
      rw [hpc] at hs hqueue hledger hok
      obtain rfl := Option.some.inj hs
      exact ⟨frames, hlinked, hqueue, hledger, hbusy, hok.1, hok.2, _,
        WriteBack.load_store_self _ _ _⟩
  | config f =>
      rw [hpc] at hs hqueue hledger hok
      obtain rfl := Option.some.inj hs
      refine ⟨frames, hlinked.store ⟨rfl, (hlinked.load _).2⟩, hqueue, hledger, hbusy, hok.1,
        hok.2.1, hok.2.2, ?_⟩
      exact congrArg DmaDesc.config (WriteBack.load_store_self _ _ _)
  | flushDesc f =>
      rw [hpc] at hs hqueue hledger hok
      obtain rfl := Option.some.inj hs
      obtain ⟨hlen, hempty, hbuffered, hconfig⟩ := hok
      rw [← content_flushDesc hlinked hempty hconfig] at hqueue
      refine ⟨frames, hlinked.flush, hqueue, hledger, hbusy, hlen, hbuffered, ?_⟩
      rw [WriteBack.mem_flush_self]
      exact hconfig
  | flushBuff f =>
      rw [hpc] at hs hqueue hledger hok
      obtain rfl := Option.some.inj hs
      obtain ⟨hlen, ⟨rest, hbuffered⟩, hconfig⟩ := hok
      have hcontent := content_setBuff (r := s.ring) hlinked.mem
        (show f.length < 2 ^ 12 by omega) hconfig rest
      refine ⟨frames ++ [f], hlinked.fill, ?_, ?_, ?_, trivial⟩
      · have hpush := hqueue.push (x := f) (Function.update_self ..)
        rw [Function.update_idem, ← hcontent, ← hbuffered] at hpush
        exact hpush
      · rw [hledger, SendPc.pending, queue_joins hbusy f]
        exact congrArg (s.sent ++ ·) (List.append_nil _).symm
      · intro _
        exact List.append_ne_nil_of_right_ne_nil _ (List.cons_ne_nil _ _)
  | start =>
      rw [hpc] at hs hqueue hledger hok
      obtain rfl := Option.some.inj hs
      exact ⟨frames, hlinked, hqueue, hledger, hbusy, trivial⟩
  | advance =>
      rw [hpc] at hs hqueue hledger hok
      obtain rfl := Option.some.inj hs
      exact ⟨frames, hlinked, hqueue, hledger, hbusy, trivial⟩

/-- The engine's next frame is the first of the queue, unless it is the one whose buffer is
still to be flushed. -/
theorem Publishes.published_dma (h : Publishes s frames)
    (hordered : ¬ (s.sender.BetweenFlushes ∧ s.dma = s.currdescnum)) :
    s.ring.content s.dma = frames.head? := by
  rw [← h.queue.head_eq, PublishState.published]
  cases hpc : s.sender with
  | flushBuff f =>
      have hne : s.dma ≠ s.currdescnum := fun heq => hordered ⟨by rw [hpc]; trivial, heq⟩
      exact (Function.update_of_ne hne _ _).symm
  | _ => rfl

/-- **The engine sends**: the first frame of the queue. -/
theorem Publishes.transmit (h : Publishes s frames)
    (hordered : ¬ (s.sender.BetweenFlushes ∧ s.dma = s.currdescnum))
    (hs : publishStep s .transmit = some t) : Publishes t frames := by
  obtain ⟨⟨hsending, hfull⟩, ⟨⟩⟩ := Option.ite_none_right_eq_some.mp hs
  have hhead := h.published_dma hordered
  rw [DmaRing.content_eq_some.mpr ⟨hfull, rfl⟩] at hhead
  obtain ⟨rest, rfl⟩ := List.head?_eq_some_iff.mp hhead.symm
  refine ⟨h.linked, h.queue, ?_, fun _ => List.cons_ne_nil _ _, h.ok⟩
  rw [h.ledger, hsending]
  simp

/-- The engine has come to a descriptor other than the current one, when that is empty or
its buffer is still to be flushed. -/
theorem Publishes.dma_ne (h : Publishes s frames) (hframes : frames ≠ [])
    (hcurr : s.published s.currdescnum = none) : s.currdescnum ≠ s.dma := by
  intro heq
  rw [heq, h.queue.head_eq, List.head?_eq_none_iff] at hcurr
  exact hframes hcurr

/-- **The engine marks a descriptor empty**: the queue loses its first frame. -/
theorem Publishes.setEmpty (h : Publishes s frames) (hs : publishStep s .setEmpty = some t) :
    ∃ frames', Publishes t frames' := by
  obtain ⟨hsending, ⟨⟩⟩ := Option.ite_none_right_eq_some.mp hs
  have hne := h.dma_ne (h.busy hsending)
  obtain ⟨hlinked, hqueue, hledger, hbusy, hok⟩ := h
  obtain ⟨g, rest, rfl⟩ := List.exists_cons_of_ne_nil (hbusy hsending)
  have hcontent := DmaRing.content_setConfig_empty (r := s.ring) (i := s.dma)
    (or_isEmpty (s.desc.mem s.dma).config)
  have hnone : s.ring.content s.currdescnum = none →
      (s.ring.setConfig s.dma ((s.desc.mem s.dma).config ||| dmadescIsEmpty)).content
        s.currdescnum = none := by
    intro hcurr
    rw [hcontent, Function.update_apply]
    split
    · rfl
    · exact hcurr
  have hpop := hqueue.pop
  rw [← (hlinked.mem s.dma).2] at hpop
  refine ⟨rest, hlinked.busWrite (hlinked.mem s.dma), ?_, ?_, ?_, ?_⟩
  · unfold PublishState.published PublishState.tail at hpop ⊢
    unfold PublishState.published at hne
    cases hpc : s.sender with
    | flushBuff f =>
        rw [hpc] at hpop hne
        rw [Function.update_comm (hne (Function.update_self ..)), ← hcontent] at hpop
        exact hpop
    | _ =>
        rw [hpc] at hpop
        rw [← hcontent] at hpop
        exact hpop
  · rw [hledger, hsending]
    rfl
  · intro h
    exact absurd h Bool.false_ne_true
  · unfold PublishState.Sending at hok ⊢
    unfold PublishState.published at hne
    cases hpc : s.sender with
    | copy f =>
        rw [hpc] at hok
        exact ⟨hok.1, hnone hok.2⟩
    | config f =>
        rw [hpc] at hok
        exact ⟨hok.1, hnone hok.2.1, hok.2.2⟩
    | flushDesc f =>
        rw [hpc] at hok hne
        refine ⟨hok.1, hnone hok.2.1, hok.2.2.1, ?_⟩
        rw [WriteBack.load_busWrite_of_ne _ _ (hne hok.2.1)]
        exact hok.2.2.2
    | flushBuff f =>
        rw [hpc] at hok hne
        refine ⟨hok.1, hok.2.1, ?_⟩
        exact (congrArg DmaDesc.config
          (Function.update_of_ne (hne (Function.update_self ..)) _ _)).trans hok.2.2
    | _ =>
        rw [hpc] at hok
        exact hok

/-- **Every step** that meets the condition keeps the invariant. -/
theorem Publishes.step {a : PublishAction} (ha : a.Ordered s) (h : Publishes s frames)
    (hs : publishStep s a = some t) : ∃ frames', Publishes t frames' := by
  cases a with
  | send f =>
      obtain ⟨hidle, ⟨⟩⟩ := Option.ite_none_right_eq_some.mp hs
      obtain ⟨hlinked, hqueue, hledger, hbusy, -⟩ := h
      unfold PublishState.published PublishState.tail at hqueue
      rw [hidle] at hqueue hledger
      exact ⟨frames, hlinked, hqueue, hledger, hbusy, ha⟩
  | cpu => exact h.cpu hs
  | transmit => exact ⟨frames, h.transmit ha hs⟩
  | setEmpty => exact h.setEmpty hs

/-- The invariant says that what is sent is what was submitted. -/
theorem Publishes.sentSubmitted (h : Publishes s frames) : SentSubmitted s := by
  rw [SentSubmitted, h.ledger, List.take_left]

end

/-- **Publication of frames.** In every run of calls of `ag71xx_eth_send` with packets of at
most `2048` bytes and of steps of the DMA engine, in any order, whatever the buffers held
before: as long as the engine never sends the current descriptor between the flush of the
descriptor and the flush of its buffer, every frame it has sent is the packet that was
submitted, in order. -/
theorem sent_eq_submitted (buffs : Fin configDescrNum → EthFrame) {as : List PublishAction}
    (hmeet : StepsMeet publishStep (fun s a => a.Ordered s) (publishInit buffs) as)
    {t : PublishState} (hrun : exec publishStep (publishInit buffs) as = some t) :
    SentSubmitted t := by
  have hstep : ∀ {s a t}, PublishAction.Ordered s a → (∃ frames, Publishes s frames) →
      publishStep s a = some t → ∃ frames, Publishes t frames := by
    rintro s a t ha ⟨frames, h⟩ hs
    exact h.step ha hs
  obtain ⟨frames, h⟩ := exec_invariant hstep hmeet ⟨[], publishes_init buffs⟩ hrun
  exact h.sentSubmitted

/-- A whole call on an empty descriptor. -/
def sendWhole (f : EthFrame) : List PublishAction :=
  .send f :: List.replicate 8 .cpu

/-- Two packets, each sent when its call has returned. -/
theorem sent_eq_submitted_two :
    ∃ t, exec publishStep (publishInit fun _ => [0, 0])
        (sendWhole [1] ++ [.transmit, .setEmpty] ++ sendWhole [2] ++ [.transmit]) = some t ∧
      SentSubmitted t := by
  obtain ⟨t, hrun⟩ := Option.isSome_iff_exists.mp
    (show (exec publishStep (publishInit fun _ => [0, 0]) (sendWhole [1] ++
      [.transmit, .setEmpty] ++ sendWhole [2] ++ [.transmit])).isSome by decide)
  exact ⟨t, hrun, sent_eq_submitted _ (by decide) hrun⟩

/-- The engine is sending the first packet while the second one is submitted, and comes to
its descriptor between the two flushes: it sends the old contents of the buffer. -/
theorem stale_frame_sent :
    ∃ t, exec publishStep (publishInit fun _ => [0, 0])
        (sendWhole [1] ++ [.transmit] ++ .send [2] :: List.replicate 5 .cpu ++
          [.setEmpty, .transmit]) = some t ∧
      t.submitted = [[1], [2]] ∧ t.sent = [[1], [0]] ∧ ¬ SentSubmitted t :=
  ⟨_, rfl, rfl, rfl, by decide⟩

end RtBoot
