import RtBoot.Event
import RtBoot.Ring
import RtBoot.Run

/-!
# The Ethernet Driver

The MAC and the driver share two rings of eight descriptors, one to send and one to
receive. A descriptor belongs to the MAC or to the software by one flag of its `config`
word. The MAC counts what it has sent and received in two status registers, which raise
the interrupt as long as they are not zero; the handler reads the interrupt status once,
counts both registers down to zero, raises the event a sender waits for, and posts to the
mailbox the receive thread waits on.

Four parties take turns here, one small step at a time:

* the sender: `lwip_eth_tx`, which calls `board_eth_send` for each segment of a packet, and
  in it `ag71xx_eth_send` until it accepts the segment;
* the receive thread: `eth_rx_thread_entry`, with `lwip_eth_rx` and `board_eth_recv`;
* the interrupt handler `ag71xx_eth_irq_handler`, with its two callbacks; the threads do
  not run while it does;
* the MAC, which does not wait for anybody. It sends the descriptor it has come to once
  that is its own, then marks it empty, then raises the count; it stores what arrives in
  the descriptor it has come to if that is empty.

Memory is coherent, interrupts are enabled from the start on, and the functions of the
kernel (`rt_event_send`, `rt_event_recv`, `rt_mb_send`, `rt_mb_recv`) are single steps, as
they run with interrupts disabled. The state begins where `lwip_eth_device_init` has
returned: its last call posts a first message to the mailbox.
-/

namespace RtBoot

/-! ### Descriptors and rings -/

/-- The bytes of a frame, or of a segment of a packet. -/
abbrev EthFrame : Type :=
  List (BitVec 8)

/-- `CONFIG_TX_DESCR_NUM` and `CONFIG_RX_DESCR_NUM`. -/
abbrev configDescrNum : ℕ :=
  8

/-- `AG71XX_DMADESC_IS_EMPTY`. -/
def dmadescIsEmpty : BitVec 32 :=
  0x80000000

/-- `AG71XX_DMADESC_PKT_SIZE_MASK`. -/
def dmadescPktSizeMask : BitVec 32 :=
  0xfff

/-- `struct ag71xx_dma_desc`: the buffer is given by its number, the next descriptor by its
index. -/
structure DmaDesc where
  dataAddr : Fin configDescrNum
  config : BitVec 32
  nextDesc : Fin configDescrNum
  deriving DecidableEq

/-- A descriptor table with its buffers, the descriptor the software has come to, and the
one the MAC has come to. -/
structure DmaRing where
  descrtable : Fin configDescrNum → DmaDesc
  buffs : Fin configDescrNum → EthFrame
  currdescnum : Fin configDescrNum
  dma : Fin configDescrNum

/-- `ag71xx_dma_clean_tx` and `ag71xx_dma_clean_rx`, with the buffers as they were
allocated, and the MAC set to the first descriptor. -/
def dmaClean (buffs : Fin configDescrNum → EthFrame) : DmaRing where
  descrtable i := ⟨i, dmadescIsEmpty, slotAt i 1⟩
  buffs := buffs
  currdescnum := ⟨0, by decide⟩
  dma := ⟨0, by decide⟩

/-- The empty flag of a descriptor. -/
def DmaRing.isEmpty (r : DmaRing) (i : Fin configDescrNum) : Bool :=
  (r.descrtable i).config &&& dmadescIsEmpty != 0

/-- The bytes of a descriptor's buffer up to the length in its `config`. -/
def DmaRing.packet (r : DmaRing) (i : Fin configDescrNum) : EthFrame :=
  (r.buffs (r.descrtable i).dataAddr).take ((r.descrtable i).config &&& dmadescPktSizeMask).toNat

/-- Copy a frame into the buffer of a descriptor. -/
def DmaRing.copyTo (r : DmaRing) (i : Fin configDescrNum) (f : EthFrame) : DmaRing :=
  { r with
    buffs := Function.update r.buffs (r.descrtable i).dataAddr
      (f ++ (r.buffs (r.descrtable i).dataAddr).drop f.length) }

/-- Write the `config` of a descriptor. -/
def DmaRing.setConfig (r : DmaRing) (i : Fin configDescrNum) (config : BitVec 32) : DmaRing :=
  { r with descrtable := Function.update r.descrtable i { r.descrtable i with config } }

/-- The `config` of a descriptor that holds `f`. -/
def lengthConfig (f : EthFrame) : BitVec 32 :=
  BitVec.ofNat 32 f.length &&& dmadescPktSizeMask

/-! ### Sending -/

/-- Where the sender is: outside, in the test of the current descriptor, in front of
copying the frame, of writing `config`, of starting the DMA, of moving on to the next
descriptor, of waiting for the event, or suspended on it. -/
inductive SenderPc
  | idle
  | test (f : EthFrame)
  | copy (f : EthFrame)
  | give (f : EthFrame)
  | start
  | advance
  | recv (f : EthFrame)
  | suspended (f : EthFrame)
  deriving DecidableEq

/-- Where the MAC is in sending a descriptor. -/
inductive TxPhase
  | poll
  | sent
  | flagged
  deriving DecidableEq

/-- The state of the sending side: the ring, the MAC and the packets it has counted, the
event, the sender with the segments behind the current one, and the frames handed to
`lwip_eth_tx`, accepted by `ag71xx_eth_send` and sent by the MAC. -/
structure TxSide where
  ring : DmaRing
  phase : TxPhase
  status : ℕ
  event : Event Unit
  sender : SenderPc
  chain : List EthFrame
  submitted : List EthFrame
  accepted : List EthFrame
  sent : List EthFrame

/-- The loop of `lwip_eth_tx` comes to the next segment, or returns. -/
def TxSide.nextSegment (tx : TxSide) : List EthFrame → TxSide
  | [] => { tx with sender := .idle, chain := [] }
  | f :: chain => { tx with sender := .test f, chain }

/-- `lwip_eth_tx` is called with a chain of segments. -/
def lwipEthTx (tx : TxSide) (chain : List EthFrame) : Option TxSide :=
  if tx.sender = .idle then
    some (TxSide.nextSegment { tx with submitted := tx.submitted ++ chain } chain)
  else none

/-- The next step of the sender. -/
def senderStep (tx : TxSide) : Option TxSide :=
  let curr := tx.ring.currdescnum
  match tx.sender with
  | .idle => none
  | .test f => some { tx with sender := if tx.ring.isEmpty curr then .copy f else .recv f }
  | .copy f => some { tx with ring := tx.ring.copyTo curr f, sender := .give f }
  | .give f =>
      some { tx with
        ring := tx.ring.setConfig curr (lengthConfig f)
        accepted := tx.accepted ++ [f]
        sender := .start }
  | .start => some { tx with sender := .advance }
  | .advance =>
      some (TxSide.nextSegment { tx with ring := { tx.ring with currdescnum := slotAt curr 1 } }
        tx.chain)
  | .recv f =>
      match rtEventRecv tx.event () 1 .orClear true with
      | (event, .suspended) => some { tx with event, sender := .suspended f }
      | (event, _) => some { tx with event, sender := .test f }
  | .suspended _ => none

/-- `board_eth_send_active`: raise the event; a suspended sender tries again. -/
def boardEthSendActive (tx : TxSide) : TxSide :=
  match rtEventSend tx.event 1, tx.sender with
  | (event, _ :: _), .suspended f => { tx with event, sender := .test f }
  | (event, _), _ => { tx with event }

/-- The MAC sends the descriptor it has come to, once that is its own. -/
def txTransmit (tx : TxSide) : Option TxSide :=
  if tx.phase = .poll ∧ tx.ring.isEmpty tx.ring.dma = false then
    some { tx with sent := tx.sent ++ [tx.ring.packet tx.ring.dma], phase := .sent }
  else none

/-- It marks the descriptor empty and moves on. -/
def txSetEmpty (tx : TxSide) : Option TxSide :=
  let desc := tx.ring.descrtable tx.ring.dma
  if tx.phase = .sent then
    some { tx with
      ring := { tx.ring.setConfig tx.ring.dma (desc.config ||| dmadescIsEmpty) with
        dma := desc.nextDesc }
      phase := .flagged }
  else none

/-- It raises the count. -/
def txRaise (tx : TxSide) : Option TxSide :=
  if tx.phase = .flagged then some { tx with status := tx.status + 1, phase := .poll } else none

/-! ### Receiving -/

/-- Where the receive thread is: in front of `rt_mb_recv` or suspended in it, in front of
the check of the link, of the test of the current descriptor, of copying the packet, of
marking the descriptor empty, of moving on, or of allocating a `pbuf`. -/
inductive RxPc
  | recv
  | suspended
  | link
  | look
  | take
  | free (f : EthFrame)
  | advance (f : EthFrame)
  | alloc (f : EthFrame)
  deriving DecidableEq

/-- `RT_LWIP_ETHTHREAD_MBOX_SIZE`. -/
def eththreadMboxSize : ℕ :=
  8

/-- The state of the receiving side: the ring, whether the MAC has stored a frame and not
yet counted it, the frames counted, the overflow flag, the messages in the mailbox, and
the receive thread. -/
structure RxSide where
  ring : DmaRing
  stored : Bool
  packets : ℕ
  overflow : Bool
  mailbox : ℕ
  thread : RxPc

/-- The next step of the receive thread; `allocated` says whether `pbuf_alloc` succeeds.
A frame without bytes, like a failed allocation, gives no `pbuf`, and the thread waits for
the next message. -/
def rxThreadStep (rx : RxSide) (allocated : Bool) : Option RxSide :=
  let curr := rx.ring.currdescnum
  match rx.thread with
  | .recv =>
      if rx.mailbox = 0 then some { rx with thread := .suspended }
      else some { rx with mailbox := rx.mailbox - 1, thread := .link }
  | .suspended => none
  | .link => some { rx with thread := .look }
  | .look => some { rx with thread := if rx.ring.isEmpty curr then .recv else .take }
  | .take => some { rx with thread := .free (rx.ring.packet curr) }
  | .free f =>
      some { rx with ring := rx.ring.setConfig curr dmadescIsEmpty, thread := .advance f }
  | .advance f =>
      some { rx with ring := { rx.ring with currdescnum := slotAt curr 1 }, thread := .alloc f }
  | .alloc f =>
      some { rx with thread := if f.length ≠ 0 ∧ allocated then .look else .recv }

/-- `eth_device_ready`: post to the mailbox, unless it is full; a suspended thread looks
again. -/
def ethDeviceReady (rx : RxSide) : RxSide :=
  if rx.mailbox = eththreadMboxSize then rx
  else
    { rx with
      mailbox := rx.mailbox + 1
      thread := if rx.thread = .suspended then .recv else rx.thread }

/-- The MAC stores a frame in the descriptor it has come to and moves on. -/
def rxArrive (rx : RxSide) (f : EthFrame) : Option RxSide :=
  let dma := rx.ring.dma
  if rx.stored = false ∧ rx.ring.isEmpty dma then
    some { rx with
      ring := { (rx.ring.copyTo dma f).setConfig dma (lengthConfig f) with
        dma := (rx.ring.descrtable dma).nextDesc }
      stored := true }
  else none

/-- It counts the frame. -/
def rxRaise (rx : RxSide) : Option RxSide :=
  if rx.stored then some { rx with packets := rx.packets + 1, stored := false } else none

/-- A frame arrives while the descriptor the MAC has come to is not empty. -/
def rxOverflow (rx : RxSide) : Option RxSide :=
  if rx.stored = false ∧ rx.ring.isEmpty rx.ring.dma = false then
    some { rx with overflow := true }
  else none

/-! ### The interrupt handler -/

/-- Where the handler is: not running; in the loop that counts `TX_STATUS` down, in front
of a read or a write; in front of the callback of the sender; then the same for receiving,
behind the overflow flag. While it is in the part about sending, `rx` says whether the
interrupt status it read asks for the part about receiving. -/
inductive IrqPc
  | idle
  | txRead (rx : Bool)
  | txAck (rx : Bool)
  | txCallback (rx : Bool)
  | rxOfRead
  | rxOfClear
  | rxRead
  | rxAck
  | rxCallback
  deriving DecidableEq

/-- The whole system. -/
structure EthState where
  tx : TxSide
  rx : RxSide
  irq : IrqPc

/-- `AG71XX_INT_TX` in the interrupt status. -/
def EthState.intTx (s : EthState) : Bool :=
  0 < s.tx.status

/-- `AG71XX_INT_RX` in the interrupt status. -/
def EthState.intRx (s : EthState) : Bool :=
  0 < s.rx.packets ∨ s.rx.overflow

/-- The interrupt is taken: the handler reads the interrupt status. -/
def irqEnter (s : EthState) : Option EthState :=
  if s.irq = .idle ∧ (s.intTx ∨ s.intRx) then
    some { s with irq := if s.intTx then .txRead s.intRx else .rxOfRead }
  else none

/-- The next step of `ag71xx_eth_irq_handler`. -/
def irqStep (s : EthState) : Option EthState :=
  match s.irq with
  | .idle => none
  | .txRead rx => some { s with irq := if 0 < s.tx.status then .txAck rx else .txCallback rx }
  | .txAck rx => some { s with tx := { s.tx with status := s.tx.status - 1 }, irq := .txRead rx }
  | .txCallback rx =>
      some { s with tx := boardEthSendActive s.tx, irq := if rx then .rxOfRead else .idle }
  | .rxOfRead => some { s with irq := if s.rx.overflow then .rxOfClear else .rxRead }
  | .rxOfClear => some { s with rx := { s.rx with overflow := false }, irq := .rxRead }
  | .rxRead => some { s with irq := if 0 < s.rx.packets then .rxAck else .rxCallback }
  | .rxAck => some { s with rx := { s.rx with packets := s.rx.packets - 1 }, irq := .rxRead }
  | .rxCallback => some { s with rx := ethDeviceReady s.rx, irq := .idle }

/-! ### The system -/

/-- The steps of the system. -/
inductive EthAction
  | call (chain : List EthFrame)
  | sender
  | transmit
  | setEmpty
  | raiseTx
  | arrive (f : EthFrame)
  | raiseRx
  | overflow
  | thread (allocated : Bool)
  | interrupt
  | handler
  deriving DecidableEq

/-- A step of a thread, which needs the processor. -/
def EthState.onCpu {α : Type*} (s : EthState) (o : Option α) : Option α :=
  if s.irq = .idle then o else none

theorem EthState.onCpu_eq_some {α : Type*} {s : EthState} {o : Option α} {x : α} :
    s.onCpu o = some x ↔ s.irq = .idle ∧ o = some x := by
  unfold EthState.onCpu
  split <;> simp_all

/-- One step of the system. -/
def ethStep (s : EthState) : EthAction → Option EthState
  | .call chain => (s.onCpu (lwipEthTx s.tx chain)).map ({ s with tx := · })
  | .sender => (s.onCpu (senderStep s.tx)).map ({ s with tx := · })
  | .transmit => (txTransmit s.tx).map ({ s with tx := · })
  | .setEmpty => (txSetEmpty s.tx).map ({ s with tx := · })
  | .raiseTx => (txRaise s.tx).map ({ s with tx := · })
  | .arrive f => (rxArrive s.rx f).map ({ s with rx := · })
  | .raiseRx => (rxRaise s.rx).map ({ s with rx := · })
  | .overflow => (rxOverflow s.rx).map ({ s with rx := · })
  | .thread allocated => (s.onCpu (rxThreadStep s.rx allocated)).map ({ s with rx := · })
  | .interrupt => irqEnter s
  | .handler => irqStep s

/-- The state `lwip_eth_device_init` leaves, with whatever the buffers contain. -/
def ethInit (txbuffs rxbuffs : Fin configDescrNum → EthFrame) : EthState where
  tx :=
    { ring := dmaClean txbuffs, phase := .poll, status := 0, event := ⟨0, []⟩, sender := .idle,
      chain := [], submitted := [], accepted := [], sent := [] }
  rx :=
    { ring := dmaClean rxbuffs, stored := false, packets := 0, overflow := false, mailbox := 1,
      thread := .recv }
  irq := .idle

/-- Buffers of zeros. -/
def zeroBuffs : Fin configDescrNum → EthFrame := fun _ =>
  List.replicate 2048 0

/-! ### The contents of a ring -/

/-- What a descriptor holds: nothing if it is marked empty. -/
def DmaRing.content (r : DmaRing) (i : Fin configDescrNum) : Option EthFrame :=
  if r.isEmpty i then none else some (r.packet i)

/-- The descriptors are linked in a ring and have a buffer each. -/
structure DmaRing.Linked (r : DmaRing) : Prop where
  dataAddr : ∀ i, (r.descrtable i).dataAddr = i
  nextDesc : ∀ i, (r.descrtable i).nextDesc = slotAt i 1

section
variable {r : DmaRing} {i : Fin configDescrNum} {f : EthFrame} {c : BitVec 32}

theorem DmaRing.content_eq_none : r.content i = none ↔ r.isEmpty i = true := by
  unfold DmaRing.content
  split <;> simp_all

theorem DmaRing.content_eq_some : r.content i = some f ↔ r.isEmpty i = false ∧ r.packet i = f := by
  unfold DmaRing.content
  split <;> simp_all

theorem linked_dmaClean (buffs : Fin configDescrNum → EthFrame) : (dmaClean buffs).Linked :=
  ⟨fun _ => rfl, fun _ => rfl⟩

theorem content_dmaClean (buffs : Fin configDescrNum → EthFrame) (i : Fin configDescrNum) :
    (dmaClean buffs).content i = none := by
  have hflag : (dmadescIsEmpty &&& dmadescIsEmpty != 0) = true := by decide
  exact DmaRing.content_eq_none.mpr hflag

/-- Writing a `config` leaves the buffers and the links. -/
theorem DmaRing.setConfig_links (j : Fin configDescrNum) :
    ((r.setConfig i c).descrtable j).dataAddr = (r.descrtable j).dataAddr ∧
      ((r.setConfig i c).descrtable j).nextDesc = (r.descrtable j).nextDesc := by
  rcases eq_or_ne j i with rfl | hne
  · simp [DmaRing.setConfig]
  · simp [DmaRing.setConfig, Function.update_of_ne hne]

theorem DmaRing.Linked.setConfig (h : r.Linked) : (r.setConfig i c).Linked :=
  ⟨fun j => (DmaRing.setConfig_links j).1.trans (h.dataAddr j),
    fun j => (DmaRing.setConfig_links j).2.trans (h.nextDesc j)⟩

/-- Copying into the buffer of an empty descriptor changes the content of none. -/
theorem DmaRing.Linked.content_copyTo (h : r.Linked) (hempty : r.content i = none) :
    (r.copyTo i f).content = r.content := by
  have hflag : (r.copyTo i f).isEmpty = r.isEmpty := rfl
  funext j
  rcases eq_or_ne j i with rfl | hne
  · rw [hempty, DmaRing.content_eq_none, hflag, ← DmaRing.content_eq_none, hempty]
  · have hbuff : (r.descrtable j).dataAddr ≠ (r.descrtable i).dataAddr := by
      rwa [h.dataAddr, h.dataAddr]
    have hpacket : (r.copyTo i f).packet j = r.packet j := by
      simp only [DmaRing.packet, DmaRing.copyTo, Function.update_of_ne hbuff]
    rw [DmaRing.content, DmaRing.content, hflag, hpacket]

/-- Writing a `config` changes the content of that descriptor. -/
theorem DmaRing.content_setConfig :
    (r.setConfig i c).content = Function.update r.content i
      (if c &&& dmadescIsEmpty != 0 then none
        else some ((r.buffs (r.descrtable i).dataAddr).take (c &&& dmadescPktSizeMask).toNat)) := by
  funext j
  rcases eq_or_ne j i with rfl | hne
  · simp [DmaRing.content, DmaRing.isEmpty, DmaRing.packet, DmaRing.setConfig]
  · have hdesc : (r.setConfig i c).descrtable j = r.descrtable j := Function.update_of_ne hne _ _
    rw [Function.update_of_ne hne, DmaRing.content, DmaRing.content, DmaRing.isEmpty,
      DmaRing.isEmpty, DmaRing.packet, DmaRing.packet, hdesc]
    rfl

theorem lengthConfig_not_empty (f : EthFrame) : lengthConfig f &&& dmadescIsEmpty = 0 := by
  rw [lengthConfig, BitVec.and_assoc]
  exact BitVec.and_zero

theorem lengthConfig_size (f : EthFrame) :
    (lengthConfig f &&& dmadescPktSizeMask).toNat = f.length % 2 ^ 12 := by
  rw [lengthConfig, BitVec.and_assoc, BitVec.and_self, BitVec.toNat_and, BitVec.toNat_ofNat]
  have hmask : dmadescPktSizeMask.toNat = 2 ^ 12 - 1 := rfl
  rw [hmask, Nat.and_two_pow_sub_one_eq_mod]
  omega

/-- Marking a descriptor empty. -/
theorem DmaRing.content_setConfig_empty (h : c &&& dmadescIsEmpty ≠ 0) :
    (r.setConfig i c).content = Function.update r.content i none := by
  rw [DmaRing.content_setConfig, if_pos (bne_iff_ne.mpr h)]

/-- Giving the descriptor whose buffer begins with `f` to the other side. -/
theorem DmaRing.content_setConfig_length {rest : EthFrame} (hlen : f.length < 2 ^ 12)
    (hbuff : r.buffs (r.descrtable i).dataAddr = f ++ rest) :
    (r.setConfig i (lengthConfig f)).content = Function.update r.content i (some f) := by
  rw [DmaRing.content_setConfig, lengthConfig_not_empty, lengthConfig_size, hbuff,
    Nat.mod_eq_of_lt hlen, List.take_left]
  rfl

theorem or_isEmpty (c : BitVec 32) : (c ||| dmadescIsEmpty) &&& dmadescIsEmpty ≠ 0 := by
  have hself : (c ||| dmadescIsEmpty) &&& dmadescIsEmpty = dmadescIsEmpty := by
    refine BitVec.eq_of_getLsbD_eq fun j _ => ?_
    rw [BitVec.getLsbD_and, BitVec.getLsbD_or]
    cases c.getLsbD j <;> simp
  rw [hself]
  decide

end

end RtBoot
