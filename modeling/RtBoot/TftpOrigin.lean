import RtBoot.Tftp

/-!
# Where the Bytes of a TFTP Round Come From

The receive buffer of `tftp_start` is one array for the whole transfer. A receive that fails
leaves it as it was, and a short datagram overwrites its beginning only; the loop then looks at
the first two bytes for the packet type, and passes `len - 4` bytes from offset 4 on to `write`,
without asking how many bytes have just come in.

`StampedClient` is the client with the number of the round in which each byte of the buffer was
received. A round is sound when the type it acts on and all that it writes carry its own number.

## Main results

* `roundSound_iff`: which results of `lwip_recvfrom` make a round sound.
* `tftp_rounds_sound_iff`: the rounds of a transfer are all sound exactly when each of them
  receives a datagram of two bytes at least, and of 4 to 516 bytes if it is a DATA packet.
-/

namespace RtBoot

/-- The results of a round's two calls: what `lwip_recvfrom` delivers and what `lwip_sendto`
returns. -/
abbrev TftpRound : Type :=
  Option (List UInt8) × ℤ

/-- The client, the round in which each byte of the receive buffer was received, and the number
of rounds so far. Bytes of the cleared buffer carry the number 0. -/
structure StampedClient where
  client : TftpClient
  origin : List ℕ
  round : ℕ

/-- The numbers after a receive in round `round`. -/
def recvfromOrigin (origin : List ℕ) (round : ℕ) : Option (List UInt8) → List ℕ
  | none => origin
  | some packet =>
      let received := packet.take 550
      List.replicate received.length round ++ origin.drop received.length

/-- One round. -/
def StampedClient.receive (s : StampedClient) (a : TftpRound) : StampedClient :=
  ⟨(tftpReceive s.client a.1 a.2).1, recvfromOrigin s.origin (s.round + 1) a.1, s.round + 1⟩

/-- A round is taken while the loop is running. -/
def tftpStep (s : StampedClient) (a : TftpRound) : Option StampedClient :=
  if s.client.running then some (s.receive a) else none

/-- The client at the start of the loop, with the cleared buffer. -/
def stampedStart (ack : UInt8 × UInt8) (requested : ℤ) : StampedClient :=
  ⟨tftpStart ack requested, List.replicate 550 0, 0⟩

/-- A round is sound: the packet type is that of the datagram just received, and each write has
a length from 0 to 512 and takes its bytes from that datagram. -/
structure RoundSound (s : StampedClient) (a : TftpRound) : Prop where
  type : ∀ i < 2, (s.receive a).origin.getD i 0 = s.round + 1
  writes : ∀ w ∈ (s.receive a).client.writes.drop s.client.writes.length,
    0 ≤ w.count ∧ w.count ≤ 512 ∧
      ∀ i < w.count.toNat, (s.receive a).origin.getD (4 + i) 0 = s.round + 1

/-- The datagram holds a packet type and, if that is DATA, a header and at most one block. -/
def WholePacket : Option (List UInt8) → Prop
  | none => False
  | some packet => 2 ≤ packet.length ∧
      (half packet 0 = 3 → 4 ≤ packet.length ∧ packet.length ≤ 516)

instance : ∀ packet, Decidable (WholePacket packet)
  | none => .isFalse id
  | some _ => inferInstanceAs (Decidable (_ ∧ _))

/-! ### One round -/

/-- What a round writes. -/
theorem tftpReceive_writes (c : TftpClient) (packet : Option (List UInt8)) (sent : ℤ) :
    (tftpReceive c packet sent).1.writes = c.writes ++
      if half (recvfrom c.recBuf packet).2 0 = 3 then
        [⟨(recvfrom c.recBuf packet).1 - 4, ((recvfrom c.recBuf packet).2.drop 4).take
          ((recvfrom c.recBuf packet).1 - 4).toNat⟩]
      else [] := by
  rw [tftpReceive]
  dsimp only
  split_ifs
  all_goals simp

/-- All bytes of the buffer are from earlier rounds. -/
def OlderOrigin (s : StampedClient) : Prop :=
  ∀ o ∈ s.origin, o ≤ s.round

theorem olderOrigin_start (ack : UInt8 × UInt8) (requested : ℤ) :
    OlderOrigin (stampedStart ack requested) := by
  intro o ho
  rw [List.eq_of_mem_replicate ho]
  exact le_rfl

/-- A round leaves only bytes of earlier rounds. -/
theorem OlderOrigin.step {s t : StampedClient} {a : TftpRound} (h : OlderOrigin s)
    (hstep : tftpStep s a = some t) : OlderOrigin t := by
  rw [tftpStep] at hstep
  split_ifs at hstep
  obtain rfl := Option.some.inj hstep
  obtain ⟨packet, sent⟩ := a
  intro o ho
  cases packet with
  | none => exact (h o ho).trans (Nat.le_succ _)
  | some packet =>
      rcases List.mem_append.mp ho with ho | ho
      · exact (List.eq_of_mem_replicate ho).le
      · exact (h o (List.mem_of_mem_drop ho)).trans (Nat.le_succ _)

theorem getD_ne_of_le {l : List ℕ} {round : ℕ} (h : ∀ o ∈ l, o ≤ round) (i : ℕ) :
    l.getD i 0 ≠ round + 1 := by
  rcases Nat.lt_or_ge i l.length with hlt | hge
  · rw [List.getD_eq_getElem _ _ hlt]
    exact (Nat.lt_succ_of_le (h _ (List.getElem_mem hlt))).ne
  · rw [List.getD_eq_default _ _ hge]
    exact (Nat.succ_ne_zero round).symm

/-- A byte carries the number of this round exactly when it has just been received. -/
theorem origin_eq_iff {s : StampedClient} (h : OlderOrigin s) (packet : Option (List UInt8))
    (i : ℕ) : (recvfromOrigin s.origin (s.round + 1) packet).getD i 0 = s.round + 1 ↔
      ∃ p, packet = some p ∧ i < (p.take 550).length := by
  cases packet with
  | none => simpa [recvfromOrigin] using getD_ne_of_le h i
  | some p =>
      simp only [recvfromOrigin, Option.some.injEq, exists_eq_left']
      rcases Nat.lt_or_ge i (p.take 550).length with hlt | hge
      · rw [List.getD_append _ _ _ _ (by simpa using hlt), List.getD_replicate _ hlt]
        exact iff_of_true rfl hlt
      · rw [List.getD_append_right _ _ _ _ (by simpa using hge)]
        exact iff_of_false (getD_ne_of_le (fun o ho => h o (List.mem_of_mem_drop ho)) _)
          (Nat.not_lt.mpr hge)

/-- A datagram of two bytes brings its own packet type. -/
theorem half_recvfrom (recBuf : List UInt8) {p : List UInt8} (h : 2 ≤ p.length) :
    half (recvfrom recBuf (some p)).2 0 = half p 0 := by
  have hbyte : ∀ i < 2, (recvfrom recBuf (some p)).2.getD i 0 = p.getD i 0 := by
    intro i hi
    have hlt : i < (p.take 550).length := by
      rw [List.length_take]
      omega
    rw [recvfrom, List.getD_append _ _ _ _ hlt, List.getD_eq_getElem _ _ hlt, List.getElem_take,
      List.getD_eq_getElem _ _ (by omega)]
  rw [half, half, hbyte 0 (by decide), hbyte 1 (by decide)]

/-- **Which results make a round sound**: a datagram with a packet type and, if that is DATA, with
a header and at most one block. -/
theorem roundSound_iff {s : StampedClient} (h : OlderOrigin s) (a : TftpRound) :
    RoundSound s a ↔ WholePacket a.1 := by
  obtain ⟨packet, sent⟩ := a
  have hnew : (s.receive (packet, sent)).client.writes.drop s.client.writes.length =
      if half (recvfrom s.client.recBuf packet).2 0 = 3 then
        [⟨(recvfrom s.client.recBuf packet).1 - 4,
          ((recvfrom s.client.recBuf packet).2.drop 4).take
            ((recvfrom s.client.recBuf packet).1 - 4).toNat⟩]
      else [] := by
    rw [StampedClient.receive, tftpReceive_writes, List.drop_left]
  constructor
  · rintro ⟨htype, hwrites⟩
    obtain ⟨p, rfl, htwo⟩ := (origin_eq_iff h packet 1).mp (htype 1 (by decide))
    have hlen : 2 ≤ p.length := by
      rw [List.length_take] at htwo
      omega
    refine ⟨hlen, fun hdata => ?_⟩
    rw [hnew, half_recvfrom _ hlen, if_pos hdata] at hwrites
    obtain ⟨hlo, hhi, -⟩ := hwrites _ (List.mem_singleton_self _)
    simp only [recvfrom, List.length_take] at hlo hhi
    omega
  · cases packet with
    | none => exact False.elim
    | some p =>
        rintro ⟨hlen, hdata⟩
        refine ⟨fun i hi => (origin_eq_iff h _ i).mpr ⟨p, rfl, ?_⟩, fun w hw => ?_⟩
        · rw [List.length_take]
          omega
        · rw [hnew, half_recvfrom _ hlen] at hw
          split_ifs at hw with hop
          · obtain rfl := List.mem_singleton.mp hw
            have hrange := hdata hop
            have hcount : (recvfrom s.client.recBuf (some p)).1 = p.length := by
              simp only [recvfrom, List.length_take]
              omega
            dsimp only
            rw [hcount]
            refine ⟨by omega, by omega, fun i hi => (origin_eq_iff h _ _).mpr ⟨p, rfl, ?_⟩⟩
            rw [List.length_take]
            omega
          · cases hw

/-! ### Runs -/

/-- **When all rounds of a transfer are sound**, for every sequence of results of
`lwip_recvfrom` and `lwip_sendto`: exactly when every round taken receives a datagram with a
packet type and, if that is DATA, with a header and at most one block. -/
theorem tftp_rounds_sound_iff (ack : UInt8 × UInt8) (requested : ℤ) (rounds : List TftpRound) :
    StepsMeet tftpStep RoundSound (stampedStart ack requested) rounds ↔
      StepsMeet tftpStep (fun _ a => WholePacket a.1) (stampedStart ack requested) rounds :=
  stepsMeet_congr (fun h => roundSound_iff h _) OlderOrigin.step (olderOrigin_start ack requested)
    rounds

/-- A full block, and then a receive that fails: the round takes the buffer for a DATA packet
once more and writes -5 bytes. -/
theorem tftp_writes_after_error :
    ∃ s, exec tftpStep (stampedStart (0, 0) 40)
        [(some ([0, 3, 0, 1] ++ List.replicate 512 7), 4), (none, 4)] = some s ∧
      s.client.writes.map TftpWrite.count = [512, -5] ∧
      ¬ StepsMeet tftpStep RoundSound (stampedStart (0, 0) 40)
        [(some ([0, 3, 0, 1] ++ List.replicate 512 7), 4), (none, 4)] := by
  obtain ⟨s, hrun, hcounts⟩ : ∃ s ∈ exec tftpStep (stampedStart (0, 0) 40)
        [(some ([0, 3, 0, 1] ++ List.replicate 512 7), 4), (none, 4)],
      s.client.writes.map TftpWrite.count = [512, -5] := by
    decide +kernel
  refine ⟨s, hrun, hcounts, ?_⟩
  have hiff : StepsMeet tftpStep RoundSound (stampedStart (0, 0) 40)
        [(some ([0, 3, 0, 1] ++ List.replicate 512 7), 4), (none, 4)] ↔
      StepsMeet tftpStep (fun _ a => WholePacket a.1) (stampedStart (0, 0) 40)
        [(some ([0, 3, 0, 1] ++ List.replicate 512 7), 4), (none, 4)] :=
    stepsMeet_congr (fun h => roundSound_iff h _) OlderOrigin.step (olderOrigin_start (0, 0) 40) _
  rw [hiff]
  decide +kernel

end RtBoot
