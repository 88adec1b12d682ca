import RtBoot.TftpOrigin

/-!
# What `tftp_start` Returns

`tftp_start` returns its variable `err`, cut to the signed byte of an `err_t`. The variable holds
the result of the last `lwip_sendto`, and nothing else is ever stored to it in the loop: not when
the transfer is finished, not when the server sends an ERROR, and not when there have been too
many retries. `lwip_sendto` returns the number of bytes sent, or -1.

`tftpStartResult` is the function with the reason it comes to its end, whether the last block has
been received, and the results of the sends it made.

## Main results

* `roundExit_eq_none_iff`: the reasons are those of the loop.
* `tftpStartResult_err`: the value of `err` is settled by whether a send failed, and whether the
  request is answered by an ERROR.
* `tftp_results_differ_iff`: when the results of a transfer that has come to its last block and
  of one that has failed are different.
-/

namespace RtBoot

/-- Why `tftp_start` comes to its end. -/
inductive TftpExit
  | openFailed
  | socketFailed
  | sendFailed
  | serverError
  | finished
  | retriesOut
  deriving DecidableEq

/-- A call of `tftp_start`: the results of `open` and `lwip_socket`, the name of the remote file
as it is kept in its array of 128 bytes, the result of sending the request, what the buffer of the
acknowledgement happens to hold, and the rounds of the loop. -/
structure TftpCall where
  fd : ℤ
  socket : ℤ
  remoteFile : List UInt8
  short : remoteFile.length ≤ 127
  requested : ℤ
  ackBuf : UInt8 × UInt8
  rounds : List TftpRound

/-- The length of the request: two bytes of type, the name, and the options. -/
def TftpCall.requestLen (call : TftpCall) : ℤ :=
  call.remoteFile.length + 32

/-- `lwip_sendto` returns the number of bytes it was given, or -1. -/
def TftpCall.SendsReturn (call : TftpCall) : Prop :=
  (call.requested = -1 ∨ call.requested = call.requestLen) ∧
    ∀ a ∈ call.rounds, a.2 = -1 ∨ a.2 = 4
  deriving Decidable

/-- The first packet that comes is an ERROR. -/
def TftpCall.AnsweredByError (call : TftpCall) : Prop :=
  ∃ bytes sent rounds, call.rounds = (some (0 :: 5 :: bytes), sent) :: rounds

/-- How a call ended: the reason, `err` and `finish` at the end, and what the sends returned that
it made, the request first. -/
structure TftpResult where
  exit : TftpExit
  err : ℤ
  finish : Bool
  sends : List ℤ
  deriving DecidableEq

/-- The value returned, `err` as an `err_t`. -/
def TftpResult.value (r : TftpResult) : ℤ :=
  r.err.bmod 256

/-- Why the loop is left after a round, if it is. -/
def roundExit (c : TftpClient) (a : TftpRound) : Option TftpExit :=
  if half (recvfrom c.recBuf a.1).2 0 = 5 then some .serverError
  else if a.2 = -1 then some .sendFailed
  else if (tftpReceive c a.1 a.2).1.finish then some .finished
  else if 5 < (tftpReceive c a.1 a.2).1.cnt then some .retriesOut
  else none

/-- The receive loop. There is no result while the loop is still waiting for a packet, and no
acknowledgement is sent for an ERROR. -/
def tftpLoop : List ℤ → TftpClient → List TftpRound → Option TftpResult
  | _, _, [] => none
  | sends, c, a :: rounds =>
      let next := (tftpReceive c a.1 a.2).1
      let sends := if half (recvfrom c.recBuf a.1).2 0 = 5 then sends else sends ++ [a.2]
      match roundExit c a with
      | some exit => some ⟨exit, next.err, next.finish, sends⟩
      | none => tftpLoop sends next rounds

/-- `tftp_start`. -/
def tftpStartResult (call : TftpCall) : Option TftpResult :=
  if call.fd < 0 then some ⟨.openFailed, -1, false, []⟩
  else if call.socket < 0 then some ⟨.socketFailed, -1, false, []⟩
  else if call.requested = -1 then some ⟨.sendFailed, -1, false, [-1]⟩
  else tftpLoop [call.requested] (tftpStart call.ackBuf call.requested) call.rounds

/-! ### Reasons -/

section
variable {c : TftpClient} {a : TftpRound} {sends : List ℤ} {rounds : List TftpRound}
  {r : TftpResult}

/-- What a round that sends an acknowledgement does to `err`, and whether it goes on. -/
theorem tftpReceive_of_not_error (h : half (recvfrom c.recBuf a.1).2 0 ≠ 5) :
    (tftpReceive c a.1 a.2).1.err = a.2 ∧
      ((tftpReceive c a.1 a.2).1.running ↔ a.2 ≠ -1 ∧
        (tftpReceive c a.1 a.2).1.finish = false ∧ (tftpReceive c a.1 a.2).1.cnt ≤ 5) := by
  have hack : ∀ c' : TftpClient, (c'.acknowledge a.2).1.err = a.2 ∧
      ((c'.acknowledge a.2).1.running ↔ a.2 ≠ -1 ∧ (c'.acknowledge a.2).1.finish = false ∧
        (c'.acknowledge a.2).1.cnt ≤ 5) := by
    intro c'
    rw [TftpClient.acknowledge]
    split_ifs with hsent
    · simp [hsent]
    · simp [hsent]
  rw [tftpReceive]
  dsimp only
  rw [if_neg h]
  split_ifs
  all_goals exact hack _

/-- An ERROR leaves `err` and `finish`, and ends the loop. -/
theorem tftpReceive_of_error (h : half (recvfrom c.recBuf a.1).2 0 = 5) :
    (tftpReceive c a.1 a.2).1.err = c.err ∧ (tftpReceive c a.1 a.2).1.finish = c.finish ∧
      (tftpReceive c a.1 a.2).1.running = false := by
  rw [tftpReceive]
  dsimp only
  rw [if_neg (by rw [h]; decide), if_neg (by rw [h]; decide), if_pos h]
  exact ⟨rfl, rfl, rfl⟩

/-- The loop goes on exactly when there is no reason to leave it. -/
theorem roundExit_eq_none_iff : roundExit c a = none ↔ (tftpReceive c a.1 a.2).1.running := by
  rw [roundExit]
  by_cases herror : half (recvfrom c.recBuf a.1).2 0 = 5
  · rw [if_pos herror, (tftpReceive_of_error herror).2.2]
    simp
  · rw [if_neg herror, (tftpReceive_of_not_error herror).2]
    by_cases hsent : a.2 = -1
    · simp [hsent]
    · cases hfinish : (tftpReceive c a.1 a.2).1.finish with
      | true => simp [hsent]
      | false => simp [hsent]

/-- **One round of the loop.** An ERROR ends it and leaves `err`; otherwise an acknowledgement is
sent, whose result becomes `err`, and the loop ends or, if it was sent, may go on. -/
theorem tftpLoop_cons (h : tftpLoop sends c (a :: rounds) = some r) :
    (half (recvfrom c.recBuf a.1).2 0 = 5 ∧ r.err = c.err ∧ r.finish = c.finish ∧
        r.sends = sends) ∨
      (half (recvfrom c.recBuf a.1).2 0 ≠ 5 ∧
        (r.err = a.2 ∧ r.sends = sends ++ [a.2] ∨
          a.2 ≠ -1 ∧ (tftpReceive c a.1 a.2).1.err = a.2 ∧
            tftpLoop (sends ++ [a.2]) (tftpReceive c a.1 a.2).1 rounds = some r)) := by
  rw [tftpLoop] at h
  by_cases herror : half (recvfrom c.recBuf a.1).2 0 = 5
  · obtain ⟨herr, hfinish, -⟩ := tftpReceive_of_error herror
    have hexit : roundExit c a = some .serverError := if_pos herror
    simp only [hexit, if_pos herror] at h
    obtain rfl := Option.some.inj h
    exact .inl ⟨herror, herr, hfinish, rfl⟩
  obtain ⟨herr, hgo⟩ := tftpReceive_of_not_error herror
  refine .inr ⟨herror, ?_⟩
  simp only [if_neg herror] at h
  cases hexit : roundExit c a with
  | none =>
      rw [hexit] at h
      exact .inr ⟨(hgo.mp (roundExit_eq_none_iff.mp hexit)).1, herr, h⟩
  | some exit =>
      rw [hexit] at h
      obtain rfl := Option.some.inj h
      exact .inl ⟨herr, rfl⟩

/-- What a call comes to once an acknowledgement was tried: `err` is -1 if a send failed, and 4
otherwise. -/
def AckErr (r : TftpResult) : Prop :=
  -1 ∈ r.sends ∧ r.err = -1 ∨ -1 ∉ r.sends ∧ r.err = 4

theorem ackErr_of_sent (hsends : -1 ∉ sends) (hreturn : a.2 = -1 ∨ a.2 = 4)
    (herr : r.err = a.2) (h : r.sends = sends ++ [a.2]) : AckErr r := by
  rw [AckErr, h, herr]
  rcases hreturn with hfail | hfour
  · exact .inl ⟨by simp [hfail], hfail⟩
  · exact .inr ⟨by simp [hsends, hfour], hfour⟩

/-- **The loop by its sends.** Once an acknowledgement has been sent, `err` is 4 until a send
fails, which ends the loop. -/
theorem tftpLoop_ackErr (hreturn : ∀ a ∈ rounds, a.2 = -1 ∨ a.2 = 4) (hsends : -1 ∉ sends)
    (herr : c.err = 4) (h : tftpLoop sends c rounds = some r) : AckErr r := by
  induction rounds generalizing sends c with
  | nil => cases h
  | cons a rounds ih =>
      have hsent := hreturn a List.mem_cons_self
      obtain ⟨-, herr', -, heq⟩ | ⟨-, ⟨hend, heq⟩ | ⟨hok, herr', hloop⟩⟩ := tftpLoop_cons h
      · exact .inr ⟨heq ▸ hsends, herr'.trans herr⟩
      · exact ackErr_of_sent hsends hsent hend heq
      · have hfour := hsent.resolve_left hok
        exact ih (fun b hb => hreturn b (List.mem_cons_of_mem _ hb)) (by simp [hsends, hfour])
          (herr'.trans hfour) hloop

end

/-- The first packet is taken for an ERROR exactly if it is one: nothing stands in the buffer
before. -/
theorem half_first_eq_five_iff (packet : Option (List UInt8)) :
    half (recvfrom (List.replicate 550 0) packet).2 0 = 5 ↔
      ∃ bytes, packet = some (0 :: 5 :: bytes) := by
  rcases packet with - | - | ⟨b, - | ⟨b', bytes⟩⟩
  · exact iff_of_false (by decide +kernel) (by simp)
  · exact iff_of_false (by decide +kernel) (by simp)
  · have hhalf : half (recvfrom (List.replicate 550 0) (some [b])).2 0 = 256 * b.toNat + 0 := rfl
    rw [hhalf]
    exact iff_of_false (by omega) (by simp)
  · have hhalf : half (recvfrom (List.replicate 550 0) (some (b :: b' :: bytes))).2 0 =
        256 * b.toNat + b'.toNat := rfl
    have hlt := b'.toNat_lt
    rw [hhalf]
    constructor
    · intro h
      obtain rfl : b = 0 := UInt8.toNat_inj.mp (by rw [UInt8.toNat_zero]; omega)
      obtain rfl : b' = 5 := UInt8.toNat_inj.mp (by simpa using h)
      exact ⟨bytes, rfl⟩
    · rintro ⟨_, ⟨⟩⟩
      rfl

/-- **`err` is settled by the sends and the first packet**: an ERROR in answer to the request
leaves what sending the request returned. -/
theorem tftpStartResult_err {call : TftpCall} {r : TftpResult} (hreturn : call.SendsReturn)
    (h : tftpStartResult call = some r)
    (hopened : r.finish = true ∨ r.exit ≠ .openFailed ∧ r.exit ≠ .socketFailed) :
    -1 ∉ r.sends ∧ call.AnsweredByError ∧ r.err = call.requestLen ∧ r.finish = false ∨
      (-1 ∉ r.sends → ¬ call.AnsweredByError) ∧ AckErr r := by
  rw [tftpStartResult] at h
  split_ifs at h with hfd hsock hreq
  · cases h
    simp at hopened
  · cases h
    simp at hopened
  · cases h
    exact .inr ⟨fun hnot => absurd (List.mem_singleton_self _) hnot, .inl ⟨by simp, rfl⟩⟩
  have hrequest : -1 ∉ [call.requested] := by simpa using Ne.symm hreq
  cases hrounds : call.rounds with
  | nil =>
      rw [hrounds] at h
      cases h
  | cons a rounds =>
      rw [hrounds] at h
      have hack := hreturn.2
      rw [hrounds] at hack
      have hfirst := half_first_eq_five_iff a.1
      obtain ⟨herror, herr, hfinish, heq⟩ | ⟨herror, hrest⟩ := tftpLoop_cons h
      · obtain ⟨bytes, hbytes⟩ := hfirst.mp herror
        exact .inl ⟨heq ▸ hrequest, ⟨bytes, a.2, rounds, by rw [hrounds, ← hbytes]⟩,
          herr.trans (hreturn.1.resolve_left hreq), hfinish⟩
      · refine .inr ⟨?_, ?_⟩
        · rintro - ⟨bytes, sent, rounds', heq⟩
          rw [hrounds] at heq
          cases heq
          exact herror (hfirst.mpr ⟨bytes, rfl⟩)
        have hsent := hack a List.mem_cons_self
        obtain ⟨hend, heq⟩ | ⟨hok, herr, hloop⟩ := hrest
        · exact ackErr_of_sent hrequest hsent hend heq
        · have hfour := hsent.resolve_left hok
          exact tftpLoop_ackErr (fun b hb => hack b (List.mem_cons_of_mem _ hb))
            (by simpa [hfour] using hrequest) (herr.trans hfour) hloop

/-- The length of a request, as an `err_t`, is none of the other values. -/
theorem bmod_requestLen (call : TftpCall) :
    call.requestLen.bmod 256 ≠ 4 ∧ call.requestLen.bmod 256 ≠ -1 := by
  have hshort := call.short
  rw [TftpCall.requestLen, Int.bmod_def]
  omega

/-- **When the results tell success from failure.** For every two calls in which `lwip_sendto`
returns as it does, of which the first has received its last block and the second has ended by an
ERROR of the server, a failed send or too many retries: the values returned differ exactly when
all sends of the first succeeded, and a send of the second failed or its request was answered by
an ERROR; or when a send of the first failed, the one of its last acknowledgement, and none of the
second. -/
theorem tftp_results_differ_iff {call₁ call₂ : TftpCall} {r₁ r₂ : TftpResult}
    (hsends₁ : call₁.SendsReturn) (hsends₂ : call₂.SendsReturn)
    (h₁ : tftpStartResult call₁ = some r₁) (h₂ : tftpStartResult call₂ = some r₂)
    (hlast : r₁.finish = true)
    (hfailed : r₂.exit = .serverError ∨ r₂.exit = .sendFailed ∨ r₂.exit = .retriesOut) :
    r₁.value ≠ r₂.value ↔
      (-1 ∉ r₁.sends ∧ (-1 ∈ r₂.sends ∨ call₂.AnsweredByError)) ∨
        (-1 ∈ r₁.sends ∧ -1 ∉ r₂.sends) := by
  have hfour : (4 : ℤ).bmod 256 = 4 := by decide
  have hminus : (-1 : ℤ).bmod 256 = -1 := by decide
  obtain ⟨hlen, hlen'⟩ := bmod_requestLen call₂
  have hopened : r₂.exit ≠ .openFailed ∧ r₂.exit ≠ .socketFailed := by
    rcases hfailed with h | h | h <;> simp [h]
  have herr₁ : AckErr r₁ := by
    obtain ⟨-, -, -, hfinish⟩ | ⟨-, hack⟩ := tftpStartResult_err hsends₁ h₁ (.inl hlast)
    · exact absurd (hfinish.symm.trans hlast) Bool.false_ne_true
    · exact hack
  rw [TftpResult.value, TftpResult.value]
  obtain ⟨hno, herror, herr, -⟩ | ⟨hno, hack⟩ :=
    tftpStartResult_err hsends₂ h₂ (.inr hopened)
  · rcases herr₁ with ⟨hmem, herr₁⟩ | ⟨hmem, herr₁⟩
    · simp [herr₁, herr, hmem, hno, hminus, hlen'.symm]
    · simp [herr₁, herr, hmem, herror, hfour, hlen.symm]
  · rcases herr₁ with ⟨hmem, herr₁⟩ | ⟨hmem, herr₁⟩ <;>
      rcases hack with ⟨hmem₂, herr₂⟩ | ⟨hmem₂, herr₂⟩
    · simp [herr₁, herr₂, hmem, hmem₂]
    · simp [herr₁, herr₂, hmem, hmem₂, hfour, hminus]
    · simp [herr₁, herr₂, hmem, hmem₂, hfour, hminus]
    · simp [herr₁, herr₂, hmem, hmem₂, hno hmem₂]

/-- A call whose files and sockets are there: the request for a file `a` is sent, and then come
`rounds`. -/
def callWith (rounds : List TftpRound) : TftpCall where
  fd := 3
  socket := 0
  remoteFile := [0x61]
  short := by decide
  requested := 33
  ackBuf := (0, 0)
  rounds := rounds

/-- A file of three bytes, against a call whose first acknowledgement cannot be sent. -/
theorem tftp_results_differ_send :
    ∃ r₁ r₂, tftpStartResult (callWith [(some [0, 3, 0, 1, 1, 2, 3], 4)]) = some r₁ ∧
      tftpStartResult (callWith [(some [0, 6], -1)]) = some r₂ ∧ r₁.finish = true ∧
      r₂.exit = .sendFailed ∧ r₁.value ≠ r₂.value := by
  have hfile : tftpStartResult (callWith [(some [0, 3, 0, 1, 1, 2, 3], 4)]) =
      some ⟨.finished, 4, true, [33, 4]⟩ := by decide +kernel
  have hsend : tftpStartResult (callWith [(some [0, 6], -1)]) =
      some ⟨.sendFailed, -1, false, [33, -1]⟩ := by decide +kernel
  refine ⟨_, _, hfile, hsend, rfl, rfl, ?_⟩
  exact (tftp_results_differ_iff (by decide) (by decide) hfile hsend rfl (.inr (.inl rfl))).mpr
    (.inl ⟨by decide, .inl (by decide)⟩)

/-- A file of three bytes, received as a whole, against a transfer that the server breaks off
with an ERROR after its OACK: both calls return 4. -/
theorem tftp_error_returns_success :
    ∃ r₁ r₂, tftpStartResult (callWith [(some [0, 3, 0, 1, 1, 2, 3], 4)]) = some r₁ ∧
      tftpStartResult (callWith [(some [0, 6], 4), (some [0, 5, 0, 1], 4)]) = some r₂ ∧
      r₁.finish = true ∧ r₂.exit = .serverError ∧ r₁.value = r₂.value := by
  exact ⟨⟨.finished, 4, true, [33, 4]⟩, ⟨.serverError, 4, false, [33, 4]⟩, by decide +kernel,
    by decide +kernel, rfl, rfl, rfl⟩

end RtBoot
