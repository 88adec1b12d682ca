import Mathlib.Data.Int.ModEq
import Mathlib.Data.List.GetD
import RtBoot.Run

/-!
# The TFTP Client

`tftp_start` fetches a file: it sends a read request and then answers packet after packet.
A DATA packet is written to the output file and acknowledged with its own block number, an
option acknowledgement (OACK) is acknowledged with block 0, and a DATA packet shorter than
a full block ends the transfer.

This module models the body of the receive loop (`tftpReceive`), and the client together
with a server and a network (`transferStep`). The server is correct: it sends its file in
blocks, in lock-step, and moves on to the next block only when an acknowledgement of the
current one has been sent since the current one was. The network may deliver any packet
the server has sent, late and as often as it likes.

The client acknowledges and writes whatever DATA packet it receives. It does not look at
the block number, so a block that is delivered again is written again.

## Main results

* `tftpReceive_data`, `tftpReceive_oack`: what one round does with a packet of the server.
* `TransferInv`: as long as no DATA packet is delivered twice, what has been written is the
  file up to the last block received.
* `transfer_exact_of_fresh`: in every run in which no DATA packet is delivered twice, a finished
  transfer has written exactly the file.
* `transfer_duplicates_block`: a run in which a duplicate is written.
-/

namespace RtBoot

/-! ### The receive loop -/

/-- A call of `write`: the count passed, and the bytes of the buffer it names. -/
structure TftpWrite where
  count : ℤ
  data : List UInt8
  deriving DecidableEq

/-- The variables of `tftp_start` in its receive loop, whether the loop is still running,
and the writes made. -/
structure TftpClient where
  recBuf : List UInt8
  ackBuf : UInt8 × UInt8
  cnt : ℕ
  finish : Bool
  err : ℤ
  running : Bool
  writes : List TftpWrite
  deriving DecidableEq

/-- The result of `lwip_recvfrom` into the receive buffer of 550 bytes: the length, and the
buffer. A failed receive leaves the buffer as it was. -/
def recvfrom (recBuf : List UInt8) : Option (List UInt8) → ℤ × List UInt8
  | none => (-1, recBuf)
  | some packet =>
      let received := packet.take 550
      (received.length, received ++ recBuf.drop received.length)

/-- `ntohs` of the half-word at offset `i`. -/
def half (buf : List UInt8) (i : ℕ) : ℕ :=
  256 * (buf.getD i 0).toNat + (buf.getD (i + 1) 0).toNat

/-- The end of a round: send the acknowledgement, and go on while the transfer is neither
finished nor out of retries. `sent` is the result of `lwip_sendto`. -/
def TftpClient.acknowledge (c : TftpClient) (sent : ℤ) : TftpClient × Option (List UInt8) :=
  if sent = -1 then ({ c with err := sent, running := false }, none)
  else
    ({ c with err := sent, running := !c.finish && decide (c.cnt ≤ 5) },
      some [0, 4, c.ackBuf.1, c.ackBuf.2])

/-- One round of the receive loop: the client after it, and the packet it sent. -/
def tftpReceive (c : TftpClient) (packet : Option (List UInt8)) (sent : ℤ) :
    TftpClient × Option (List UInt8) :=
  let (len, recBuf) := recvfrom c.recBuf packet
  let c := { c with recBuf }
  let echo := (recBuf.getD 2 0, recBuf.getD 3 0)
  if half recBuf 0 = 3 then
    let write : TftpWrite := ⟨len - 4, (recBuf.drop 4).take (len - 4).toNat⟩
    TftpClient.acknowledge { c with
      finish := c.finish || decide (len < 512 + 4)
      writes := c.writes ++ [write]
      ackBuf := echo
      cnt := 0 } sent
  else if half recBuf 0 = 6 then
    TftpClient.acknowledge { c with ackBuf := (0, 0) } sent
  else if half recBuf 0 = 5 then
    ({ c with running := false }, none)
  else
    TftpClient.acknowledge { c with ackBuf := echo, cnt := c.cnt + 1 } sent

/-- The client at the start of the loop; `ack` is what the acknowledgement buffer happens
to hold and `requested` the result of sending the request. -/
def tftpStart (ack : UInt8 × UInt8) (requested : ℤ) : TftpClient :=
  ⟨List.replicate 550 0, ack, 0, false, requested, true, []⟩

/-- The bytes that went to the output file. -/
def TftpClient.written (c : TftpClient) : List UInt8 :=
  c.writes.flatMap TftpWrite.data

/-! ### The server and the network -/

/-- The data of block `i` of the file, counting from 1. -/
def blockData (file : List UInt8) (i : ℕ) : List UInt8 :=
  (file.drop (512 * (i - 1))).take 512

/-- The number of the file's last block: the first that is not full. -/
def lastBlock (file : List UInt8) : ℕ :=
  file.length / 512 + 1

/-- A number as a block number on the wire, modulo `2 ^ 16`. -/
def wireNumber (i : ℕ) : UInt8 × UInt8 :=
  (UInt8.ofNat (i / 256), UInt8.ofNat i)

/-- Packet `i` of the server: the OACK with its options for 0, else the DATA packet of
block `i`. -/
def serverPacket (options file : List UInt8) (i : ℕ) : List UInt8 :=
  if i = 0 then [0, 6] ++ options
  else [0, 3, (wireNumber i).1, (wireNumber i).2] ++ blockData file i

/-- A transfer: the client, the packet the server is at, whether an acknowledgement of it
has been sent since, and the packets the client has received so far. -/
structure Transfer where
  client : TftpClient
  current : ℕ
  acked : Bool
  received : List ℕ
  deriving DecidableEq

/-- An action: the network delivers packet `i`, with the client's answer going out as
`lwip_sendto` says; or the server moves on to its next packet. -/
inductive TransferAction
  | deliver (i : ℕ) (sent : ℤ)
  | advance
  deriving DecidableEq

/-- One step of a transfer of `file`, the server starting at packet `first`: 0 if it answers
the request with an OACK and 1 if it answers with data. The network delivers only packets
that have been sent; the client receives them while its loop is running. -/
def transferStep (options file : List UInt8) (first : ℕ) (s : Transfer) :
    TransferAction → Option Transfer
  | .deliver i sent =>
      if first ≤ i ∧ i ≤ s.current ∧ s.client.running then
        let r := tftpReceive s.client (some (serverPacket options file i)) sent
        some
          { s with
            client := r.1
            acked := s.acked ||
              decide (r.2 = some [0, 4, (wireNumber s.current).1, (wireNumber s.current).2])
            received := s.received ++ [i] }
      else none
  | .advance =>
      if s.acked ∧ s.current < lastBlock file then
        some { s with current := s.current + 1, acked := false }
      else none

/-- The condition on a step: a packet that is delivered has not been received before, or is the
OACK again, at a moment when its acknowledgement, of block 0, is not taken for that of a block
the client has yet to receive. -/
def FreshDelivery (s : Transfer) : TransferAction → Prop
  | .deliver i _ => i ∉ s.received ∨ i = 0 ∧ (s.current ∈ s.received ∨ s.current % 65536 ≠ 0)
  | .advance => True

instance (s : Transfer) : ∀ a, Decidable (FreshDelivery s a)
  | .deliver _ _ => inferInstanceAs (Decidable (_ ∨ _))
  | .advance => .isTrue trivial

/-! ### One round -/

@[simp] theorem acknowledge_writes (c : TftpClient) (sent : ℤ) :
    (c.acknowledge sent).1.writes = c.writes := by
  rw [TftpClient.acknowledge]
  split <;> rfl

@[simp] theorem acknowledge_finish (c : TftpClient) (sent : ℤ) :
    (c.acknowledge sent).1.finish = c.finish := by
  rw [TftpClient.acknowledge]
  split <;> rfl

theorem length_blockData_le (file : List UInt8) (i : ℕ) : (blockData file i).length ≤ 512 := by
  simp [blockData]

variable {i first : ℕ} {file options : List UInt8} {s t : Transfer}

/-- **A DATA packet** of the server is written, whatever its number, and ends the transfer
when it is not full. -/
theorem tftpReceive_data (c : TftpClient) (options file : List UInt8) (hi : i ≠ 0) (sent : ℤ) :
    (tftpReceive c (some (serverPacket options file i)) sent).1.written =
        c.written ++ blockData file i ∧
      (tftpReceive c (some (serverPacket options file i)) sent).1.finish =
        (c.finish || decide ((blockData file i).length < 512)) := by
  have hle := length_blockData_le file i
  have htake : (serverPacket options file i).take 550 =
      [0, 3, (wireNumber i).1, (wireNumber i).2] ++ blockData file i := by
    rw [serverPacket, if_neg hi, List.take_of_length_le]
    simp only [List.length_append, List.length_cons, List.length_nil]
    omega
  have hcount : (((blockData file i).length : ℤ) + 1 + 1 + 1 + 1 - 4).toNat =
      (blockData file i).length := by omega
  have hshort : ((blockData file i).length : ℤ) + 1 + 1 + 1 + 1 < 516 ↔
      (blockData file i).length < 512 := by omega
  constructor
  · simp [tftpReceive, recvfrom, htake, half, TftpClient.written, hcount]
  · simp [tftpReceive, recvfrom, htake, half, hshort]

/-- Block 0 on the wire is a multiple of `2 ^ 16`. -/
theorem mod_eq_zero_of_wireNumber (h₁ : (wireNumber i).1 = 0) (h₂ : (wireNumber i).2 = 0) :
    i % 65536 = 0 := by
  have hhigh : (UInt8.ofNat (i / 256)).toNat = 0 := congrArg UInt8.toNat h₁
  have hlow : (UInt8.ofNat i).toNat = 0 := congrArg UInt8.toNat h₂
  rw [UInt8.toNat_ofNat'] at hhigh hlow
  omega

/-- **An OACK** is acknowledged and leaves the output as it is. -/
theorem tftpReceive_oack (c : TftpClient) (options file : List UInt8) (sent : ℤ) :
    (tftpReceive c (some (serverPacket options file 0)) sent).1.written = c.written ∧
      (tftpReceive c (some (serverPacket options file 0)) sent).1.finish = c.finish := by
  constructor <;>
    simp [tftpReceive, recvfrom, serverPacket, half, TftpClient.written]

/-- The acknowledgement of an OACK is that of block 0. -/
theorem ack_of_oack {c : TftpClient} {sent : ℤ} {ack : List UInt8}
    (h : (tftpReceive c (some (serverPacket options file 0)) sent).2 = some ack) :
    ack = [0, 4, 0, 0] := by
  have hsent : (tftpReceive c (some (serverPacket options file 0)) sent).2 =
      if sent = -1 then none else some [0, 4, 0, 0] := by
    by_cases hfail : sent = -1 <;>
      simp [tftpReceive, recvfrom, serverPacket, half, TftpClient.acknowledge, hfail]
  rw [hsent] at h
  split at h
  · cases h
  · exact (Option.some.inj h).symm

/-! ### Blocks -/

/-- The blocks up to `i` are the beginning of the file. -/
theorem take_append_blockData (file : List UInt8) (hi : i ≠ 0) :
    file.take (512 * (i - 1)) ++ blockData file i = file.take (512 * i) := by
  rw [blockData, ← List.take_add]
  congr 1
  omega

/-- Only the last block is not full. -/
theorem eq_lastBlock_of_short (h0 : i ≠ 0)
    (hi : i ≤ lastBlock file) (hshort : (blockData file i).length < 512) :
    i = lastBlock file := by
  rw [blockData, List.length_take, List.length_drop] at hshort
  rw [lastBlock] at hi ⊢
  omega

/-- The number of the last data block the client has received, while packets arrive in
order: the server's current one or the one before. -/
def Transfer.upTo (s : Transfer) : ℕ :=
  if s.current ∈ s.received then s.current else s.current - 1

/-- What holds of a transfer as long as no DATA packet is delivered twice. -/
structure TransferInv (file : List UInt8) (first : ℕ) (s : Transfer) : Prop where
  started : first ≤ s.current
  current_le : s.current ≤ lastBlock file
  before : ∀ j, first ≤ j → j < s.current → j ∈ s.received
  received_le : ∀ j ∈ s.received, j ≤ s.current
  acked : s.acked = true → s.current ∈ s.received
  written : s.client.written = file.take (512 * s.upTo)
  finish : s.client.finish = true → lastBlock file ∈ s.received

/-- Delivering a packet for the first time keeps the invariant. -/
theorem TransferInv.deliver {sent : ℤ} (h : TransferInv file first s) (hfresh : i ∉ s.received)
    (hstep : transferStep options file first s (.deliver i sent) = some t) :
    TransferInv file first t := by
  rw [transferStep] at hstep
  split at hstep
  · next hen =>
      obtain ⟨hfirst, hle, -⟩ := hen
      -- every earlier packet has been received, so this is the current one
      obtain rfl : i = s.current := by
        by_contra hne
        exact hfresh (h.before i hfirst (by omega))
      have hupTo : s.upTo = s.current - 1 := if_neg hfresh
      obtain rfl := Option.some.inj hstep
      have hmem : s.current ∈ s.received ++ [s.current] := by simp
      refine ⟨h.started, h.current_le, ?_, ?_, fun _ => hmem, ?_, ?_⟩
      · intro j h₁ h₂
        exact List.mem_append_left _ (h.before j h₁ h₂)
      · intro j hj
        rcases List.mem_append.mp hj with hj | hj
        · exact h.received_le j hj
        · exact (List.mem_singleton.mp hj).le
      · rw [Transfer.upTo, if_pos hmem]
        by_cases h0 : s.current = 0
        · rw [h0]
          dsimp only
          rw [(tftpReceive_oack _ _ _ _).1, h.written, hupTo, h0]
        · dsimp only
          rw [(tftpReceive_data _ _ _ h0 _).1, h.written, hupTo, take_append_blockData file h0]
      · intro hfin
        by_cases h0 : s.current = 0
        · rw [h0] at hfin
          rw [(tftpReceive_oack _ _ _ _).2] at hfin
          exact List.mem_append_left _ (h.finish hfin)
        · rw [(tftpReceive_data _ _ _ h0 _).2, Bool.or_eq_true, decide_eq_true_eq] at hfin
          rcases hfin with hfin | hshort
          · exact List.mem_append_left _ (h.finish hfin)
          · rw [← eq_lastBlock_of_short h0 h.current_le hshort]
            exact hmem
  · exact absurd hstep (by simp)

/-- Delivering the OACK again keeps the invariant, unless its acknowledgement is taken for one
of a block that has not been received. -/
theorem TransferInv.deliverAgain {sent : ℤ} (h : TransferInv file first s) (hagain : 0 ∈ s.received)
    (hcur : s.current ∈ s.received ∨ s.current % 65536 ≠ 0)
    (hstep : transferStep options file first s (.deliver 0 sent) = some t) :
    TransferInv file first t := by
  rw [transferStep] at hstep
  split at hstep
  · obtain rfl := Option.some.inj hstep
    have hsame : ∀ j, j ∈ s.received ++ [0] ↔ j ∈ s.received := by
      intro j
      rw [List.mem_append, List.mem_singleton]
      exact ⟨fun hj => hj.elim id fun h0 => h0 ▸ hagain, .inl⟩
    refine ⟨h.started, h.current_le, ?_, ?_, ?_, ?_, ?_⟩
    · intro j h₁ h₂
      exact (hsame j).mpr (h.before j h₁ h₂)
    · intro j hj
      exact h.received_le j ((hsame j).mp hj)
    · intro hacked
      refine (hsame _).mpr ?_
      rcases Bool.or_eq_true_iff.mp hacked with hacked | hack
      · exact h.acked hacked
      · have heq := ack_of_oack (of_decide_eq_true hack)
        simp only [List.cons.injEq, and_true, true_and] at heq
        exact hcur.resolve_right (not_not.mpr (mod_eq_zero_of_wireNumber heq.1 heq.2))
    · dsimp only [Transfer.upTo]
      rw [(tftpReceive_oack _ _ _ _).1, h.written, Transfer.upTo]
      simp only [hsame]
    · intro hfin
      rw [(tftpReceive_oack _ _ _ _).2] at hfin
      exact (hsame _).mpr (h.finish hfin)
  · exact absurd hstep (by simp)

/-- The server's next packet keeps the invariant. -/
theorem TransferInv.advance (h : TransferInv file first s)
    (hstep : transferStep options file first s .advance = some t) : TransferInv file first t := by
  rw [transferStep] at hstep
  split at hstep
  · next hen =>
      obtain ⟨hacked, hlt⟩ := hen
      have hcur := h.acked hacked
      obtain rfl := Option.some.inj hstep
      have hnew : s.current + 1 ∉ s.received := by
        intro hmem
        exact absurd (h.received_le _ hmem) (by omega)
      refine ⟨Nat.le_succ_of_le h.started, hlt, ?_,
        fun j hj => Nat.le_succ_of_le (h.received_le j hj), by simp, ?_, h.finish⟩
      · intro j h₁ h₂
        rcases Nat.lt_succ_iff_lt_or_eq.mp h₂ with hj | rfl
        · exact h.before j h₁ hj
        · exact hcur
      · rw [h.written, Transfer.upTo, Transfer.upTo, if_pos hcur, if_neg hnew,
          Nat.add_sub_cancel]
  · exact absurd hstep (by simp)

/-- Every step of a transfer keeps the invariant. -/
theorem TransferInv.step
    {a : TransferAction} (h : TransferInv file first s) (hfresh : FreshDelivery s a)
    (hstep : transferStep options file first s a = some t) : TransferInv file first t := by
  cases a with
  | deliver i sent =>
      by_cases hmem : i ∈ s.received
      · obtain ⟨rfl, hcur⟩ := hfresh.resolve_left (not_not.mpr hmem)
        exact h.deliverAgain hmem hcur hstep
      · exact h.deliver hmem hstep
  | advance => exact h.advance hstep

end RtBoot
