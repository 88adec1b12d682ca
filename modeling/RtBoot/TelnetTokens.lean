import RtBoot.Telnet

/-!
# Read Tokens of the Telnet Server

`telnet_read` takes a token from `read_notice` before it looks into the receive ring, so there
has to be one token for every byte. `process_rx` puts a byte into the ring at two places. For a
plain byte it releases the semaphore whether the ring took the byte or not; for a doubled `IAC`
it never does. As long as the ring has room for every plain byte, and for no doubled `IAC`,
tokens and bytes stay together.

## Main results

* `Balanced.step`: every such step keeps tokens and bytes together, those in the middle of an
  insertion or a read included.
* `tokensMatch_of_run`: **tokens match bytes** in every run of such steps.
* `doubledIac_without_token`: a byte that the reader waits for although it is there.
-/

namespace RtBoot

/-- `process_rx` has put a byte into the ring and not yet released the semaphore. -/
def ProcessRxPc.Inserting : ProcessRxPc → Prop
  | .notice _ => True
  | _ => False

instance : ∀ pc : ProcessRxPc, Decidable pc.Inserting
  | .notice _ => .isTrue trivial
  | .idle => .isFalse id
  | .loop _ => .isFalse id

/-- **Tokens match bytes.** With no read and no insertion in progress the value of
`read_notice` is the number of bytes in the ring; no read has returned the NUL for an empty
ring; and a read is suspended only while no byte is waiting. -/
structure TokensMatch (s : Telnet) : Prop where
  count : s.reader = .idle → ¬ s.receiver.Inserting → s.readNotice.value = s.rxRingbuffer.length
  noFiller : none ∉ s.returned
  noBlock : s.readNotice.waiting = true → ¬ s.receiver.Inserting → s.rxRingbuffer = []

/-- What an effect of `process_rx` must meet: the ring refuses a doubled `IAC`, for which there
is no token, and takes a plain byte, for which there is one. -/
def RxEffect.Tokened (s : Telnet) : RxEffect → Prop
  | .putchar _ => ¬ s.HasRoom
  | .putcharNotice _ => s.HasRoom
  | _ => True

instance (s : Telnet) : ∀ e : RxEffect, Decidable (e.Tokened s)
  | .putchar _ => inferInstanceAs (Decidable (¬ _))
  | .putcharNotice _ => inferInstanceAs (Decidable (Telnet.HasRoom s))
  | .skip => .isTrue trivial
  | .sendOption _ _ => .isTrue trivial

/-- The step brings a token with every byte that the ring takes, and no other token. -/
def Tokened (s : Telnet) (a : TelnetAction) : Prop :=
  a = .process → s.nextEffect.Tokened s

instance (s : Telnet) (a : TelnetAction) : Decidable (Tokened s a) :=
  inferInstanceAs (Decidable (_ → _))

/-! ### The invariant -/

/-- The tokens that `process_rx` is about to release. -/
def ProcessRxPc.pending : ProcessRxPc → ℕ
  | .notice _ => 1
  | _ => 0

/-- The tokens that a read in progress has taken. -/
def Telnet.inRead (s : Telnet) : ℕ :=
  match s.reader with
  | .idle => 0
  | .take => s.readNotice.passed

/-- Every byte in the ring has a token: in the semaphore, taken by the read in progress or still
to be released. -/
structure Balanced (s : Telnet) : Prop where
  tokens : s.readNotice.value + s.inRead + s.receiver.pending = s.rxRingbuffer.length
  bounded : s.rxRingbuffer.length ≤ rxBufferSize
  idle : s.reader = .idle → s.readNotice.waiting = false
  noFiller : none ∉ s.returned

theorem balanced_init : Balanced telnetInit :=
  ⟨rfl, Nat.zero_le _, fun _ => rfl, List.not_mem_nil⟩

theorem ProcessRxPc.pending_of_not_inserting {pc : ProcessRxPc} (h : ¬ pc.Inserting) :
    pc.pending = 0 := by
  cases pc with
  | notice => exact absurd trivial h
  | _ => rfl

/-- With a token for every byte, tokens match bytes. -/
theorem Balanced.tokensMatch {s : Telnet} (h : Balanced s) : TokensMatch s where
  count := by
    intro hidle hins
    have htokens := h.tokens
    rw [ProcessRxPc.pending_of_not_inserting hins, Telnet.inRead, hidle] at htokens
    exact htokens
  noFiller := h.noFiller
  noBlock := by
    intro hwait hins
    have hreader : s.reader = .take := by
      cases hpc : s.reader with
      | idle => exact absurd hwait (by rw [h.idle hpc]; decide)
      | take => rfl
    have htokens := h.tokens
    rw [ProcessRxPc.pending_of_not_inserting hins, Telnet.inRead, hreader,
      s.readNotice.value_eq_zero hwait] at htokens
    dsimp only at htokens
    rw [Semaphore.passed_of_waiting hwait] at htokens
    exact List.length_eq_zero_iff.mp htokens.symm

/-- A step that leaves ring, semaphore and reader alone, and no token to be released. -/
theorem Balanced.of_eq {s t : Telnet} (h : Balanced s) (hring : t.rxRingbuffer = s.rxRingbuffer)
    (hnotice : t.readNotice = s.readNotice) (hreader : t.reader = s.reader)
    (hreturned : t.returned = s.returned) (hpc : t.receiver.pending = s.receiver.pending) :
    Balanced t where
  tokens := by
    have := h.tokens
    rwa [Telnet.inRead, ← hnotice, ← hreader, ← hpc, ← hring] at this
  bounded := hring ▸ h.bounded
  idle := by
    rw [hnotice, hreader]
    exact h.idle
  noFiller := hreturned ▸ h.noFiller

/-- A round of the loop of `process_rx`. -/
theorem Balanced.byte {s : Telnet} (h : Balanced s) {data : UInt8} (rest : List UInt8)
    (hpc : s.receiver.pending = 0) (heff : (rxSwitch s.state data).2.Tokened s) :
    Balanced (s.processByte data rest) := by
  unfold Telnet.processByte
  dsimp only
  split
  case h_1 => exact h.of_eq rfl rfl rfl rfl hpc.symm
  case h_2 ch hsw =>
    -- The ring is full and the state the only thing that changes.
    rw [hsw] at heff
    rw [Telnet.putchar_of_not_hasRoom (s := { s with state := (rxSwitch s.state data).1 }) heff]
    exact h.of_eq rfl rfl rfl rfl hpc.symm
  case h_3 ch hsw =>
    rw [hsw] at heff
    rw [Telnet.putchar_of_hasRoom (s := { s with state := (rxSwitch s.state data).1 }) heff]
    have hroom : s.rxRingbuffer.length < rxBufferSize := heff
    constructor
    · change s.readNotice.value + s.inRead + 1 = (s.rxRingbuffer ++ [ch]).length
      have htokens := h.tokens
      rw [List.length_append, List.length_singleton]
      omega
    · change (s.rxRingbuffer ++ [ch]).length ≤ rxBufferSize
      rw [List.length_append, List.length_singleton]
      omega
    · exact h.idle
    · exact h.noFiller
  case h_4 => exact h.of_eq rfl rfl rfl rfl hpc.symm

/-- A release of the semaphore. -/
theorem Balanced.notice {s : Telnet} (h : Balanced s) {rest : List UInt8}
    (hpc : s.receiver = .notice rest) :
    Balanced { s with readNotice := s.readNotice.release, receiver := .loop rest } := by
  have htokens := h.tokens
  have hsmall : s.readNotice.value + 1 < 65536 := by
    have hbound : s.rxRingbuffer.length ≤ 256 := h.bounded
    omega
  refine ⟨?_, h.bounded, fun _ => Semaphore.release_waiting _, h.noFiller⟩
  rw [hpc, Telnet.inRead] at htokens
  change s.readNotice.release.value + (match s.reader with
    | .idle => 0
    | .take => s.readNotice.release.passed) + 0 = s.rxRingbuffer.length
  cases hreader : s.reader with
  | idle =>
      have := Semaphore.release_value (h.idle hreader) hsmall
      rw [hreader] at htokens
      dsimp only [ProcessRxPc.pending] at htokens ⊢
      omega
  | take =>
      have := Semaphore.release_tokens hsmall
      rw [hreader] at htokens
      dsimp only [ProcessRxPc.pending] at htokens ⊢
      omega

/-- The call of a read. -/
theorem Balanced.read {s : Telnet} (h : Balanced s) (hidle : s.reader = .idle) :
    Balanced { s with reader := .take, readNotice := s.readNotice.take } := by
  refine ⟨?_, h.bounded, nofun, h.noFiller⟩
  have htokens := h.tokens
  rw [Telnet.inRead, hidle] at htokens
  change s.readNotice.take.value + s.readNotice.take.passed + s.receiver.pending = _
  rw [Semaphore.take_tokens]
  exact htokens

/-- The end of a read: it finds the byte that its token stands for. -/
theorem Balanced.get {s : Telnet} (h : Balanced s) (hpc : s.reader = .take)
    (hwait : s.readNotice.waiting = false) : Balanced s.readRing := by
  have htokens := h.tokens
  rw [Telnet.inRead, hpc] at htokens
  dsimp only at htokens
  rw [Semaphore.passed_of_not_waiting hwait] at htokens
  unfold Telnet.readRing
  split
  case h_1 hring =>
    rw [hring, List.length_nil] at htokens
    omega
  case h_2 ch ring hring =>
    have hbound := h.bounded
    rw [hring, List.length_cons] at htokens hbound
    refine ⟨?_, Nat.le_of_succ_le hbound, fun _ => hwait, ?_⟩
    · change s.readNotice.value + 0 + s.receiver.pending = ring.length
      omega
    · simpa using h.noFiller

/-- Every step that brings a token with each byte keeps tokens and bytes together. -/
theorem Balanced.step {s t : Telnet} {a : TelnetAction} (hok : Tokened s a) (h : Balanced s)
    (hstep : telnetStep s a = some t) : Balanced t := by
  cases telnetStep_cases hstep with
  | accept hidle => exact h.of_eq rfl rfl rfl rfl rfl
  | recv chunk hidle => exact h.of_eq rfl rfl rfl rfl (by rw [hidle]; rfl)
  | byte data rest hpc =>
      have heff := hok rfl
      rw [Telnet.nextEffect, hpc] at heff
      exact h.byte rest (by rw [hpc]; rfl) heff
  | notice rest hpc => exact h.notice hpc
  | done indicated hpc => exact h.of_eq rfl rfl rfl rfl (by rw [hpc]; rfl)
  | read hidle => exact h.read hidle
  | get hpc hwait => exact h.get hpc hwait

/-- **Tokens match bytes** in every run in which the ring refuses each doubled `IAC` and takes
each plain byte. -/
theorem tokensMatch_of_run (as : List TelnetAction) {s : Telnet}
    (hmeet : StepsMeet telnetStep Tokened telnetInit as)
    (hrun : exec telnetStep telnetInit as = some s) : TokensMatch s := by
  have hstep : ∀ {s a t}, Tokened s a → Balanced s → telnetStep s a = some t → Balanced t :=
    fun hok h hs => h.step hok hs
  exact (exec_invariant hstep hmeet balanced_init hrun).tokensMatch

/-- A read that waits for the first byte, and one that follows the second. -/
theorem tokensMatch_two :
    ∃ s, exec telnetStep telnetInit
        [.read, .recv [97, 98], .process, .process, .get, .process, .process, .process, .read,
          .get] = some s ∧
      s.returned = [some 97, some 98] ∧ TokensMatch s :=
  ⟨_, rfl, rfl, tokensMatch_of_run [.read, .recv [97, 98], .process, .process, .get, .process,
    .process, .process, .read, .get] (by decide) rfl⟩

/-- A doubled `IAC`: a byte in the ring, no token, and a read that waits all the same. -/
theorem doubledIac_without_token :
    ∃ s, exec telnetStep telnetInit
        [.recv [255, 255], .process, .process, .process, .read] = some s ∧
      s.receiver = .idle ∧ s.rxRingbuffer = [255] ∧ s.readNotice.waiting = true ∧
      ¬ TokensMatch s :=
  ⟨_, rfl, rfl, rfl, rfl, fun h => List.cons_ne_nil _ _ (h.noBlock rfl id)⟩

end RtBoot
