import RtBoot.DhcpOptions

/-!
# What a DHCP Reply Depends On

`dhcp_server_recv` copies the datagram into a buffer of 1500 bytes that it has just allocated,
and then works on the buffer: the header is read at fixed offsets and the options up to the end
of the buffer, whatever the length of the datagram. Behind the datagram stands what the memory
was last used for. Two runs that differ in nothing but that can take one datagram for different
messages.

A datagram settles the answer by itself when its header is refused, or when the header is all
there and the searches for the message type and the requested address come to an end inside the
datagram, or behind the buffer. `OptionDetermined` says this of a search, round by round.

## Main results

* `OptionDetermined.congr`: then the search, and what is read of the option it finds, is the same
  in both runs.
* `exists_stale_of_not_determined`: otherwise two contents of the buffer lead it to different
  ends.
* `reply_determined_iff`: which datagrams settle the answer.
-/

namespace RtBoot

/-- The datagram, with zeros behind it. -/
def DhcpInput.datagram (x : DhcpInput) : Payload := fun i =>
  x.bytes.getD i 0

/-- The datagram, in a buffer that held `stale`. -/
def DhcpInput.on (x : DhcpInput) (stale : ℕ → UInt8) : DhcpInput :=
  { x with stale }

/-- Two runs of the handler that differ only in the old contents of the buffer do the same,
whatever the state of the server and whatever stands behind the buffer. -/
def ReplyDetermined (x : DhcpInput) : Prop :=
  ∀ (netif : Netif) (fuel : ℕ) (s : DhcpState) (stale stale' : ℕ → UInt8),
    (∀ i, 1500 ≤ i → stale i = stale' i) →
      dhcpServerRecv netif fuel s (x.on stale) = dhcpServerRecv netif fuel s (x.on stale')

/-- The datagram passes the length check and gets its buffer. -/
def Accepted (x : DhcpInput) : Prop :=
  44 ≤ x.len ∧ x.len ≤ x.bytes.length ∧ x.bytes.length ≤ 1500 ∧ x.bufAlloc = true
  deriving Decidable

/-- The magic cookie in front of the options. -/
def magicCookie : List UInt8 :=
  [0x63, 0x82, 0x53, 0x63]

/-- The header is refused for a byte that is in the datagram. -/
def HeaderRefused (x : DhcpInput) : Prop :=
  x.datagram 0 ≠ 1 ∨ 6 < msgHlen x.datagram ∨
    ∃ k < 4, 236 + k < x.bytes.length ∧ x.datagram (236 + k) ≠ magicCookie.getD k 0

/-- A search for an option in a buffer whose first `n` bytes are those of `msg` comes to its end
without a byte between these and the end of the buffer. The length of an option in the last two
bytes of the buffer does not matter, since the search ends behind it in any case. -/
def OptionDetermined (msg : Payload) (n : ℕ) (option : UInt8) : ℕ → ℕ → Prop
  | 0, _ => True
  | rounds + 1, pos =>
      1500 ≤ pos ∨ (pos < n ∧ (msg pos = 255 ∨
        if msg pos = option then ∀ i ∈ callerReads option pos, i < n ∨ 1500 ≤ i
        else 1498 ≤ pos ∨ (pos + 1 < n ∧
          OptionDetermined msg n option rounds (pos + ((msg (pos + 1)).toNat + 2)))))

instance decidableOptionDetermined (msg : Payload) (n : ℕ) (option : UInt8) :
    ∀ rounds pos, Decidable (OptionDetermined msg n option rounds pos)
  | 0, _ => isTrue trivial
  | rounds + 1, _ =>
      haveI := decidableOptionDetermined msg n option rounds
      inferInstanceAs (Decidable (_ ∨ _))

/-- The header is in the datagram, and so is what the searches come to: the message type and,
for a DISCOVER or a REQUEST, the requested address. A hardware address of no bytes matches any
node, and the requested address is then not needed. -/
structure MessageDetermined (x : DhcpInput) : Prop where
  header : dhcpOptionsOfs ≤ x.bytes.length
  type : OptionDetermined x.datagram x.bytes.length 53 (1500 - dhcpOptionsOfs) dhcpOptionsOfs
  request : msgHlen x.datagram ≠ 0 →
    ∀ opt ∈ dhcpServerOptionFind x.datagram dhcpOptionsOfs (1500 - dhcpOptionsOfs) 53,
      (x.datagram (opt + 2) = 1 ∨ x.datagram (opt + 2) = 3 ∨ 1500 ≤ opt + 2) →
        OptionDetermined x.datagram x.bytes.length 50 (1500 - dhcpOptionsOfs) dhcpOptionsOfs

/-! ### Searches -/

section
variable {msg buf buf' : Payload} {n : ℕ} {option : UInt8} {rounds pos : ℕ}

theorem optionLoop_of_le {stop : ℕ} (h : stop ≤ pos) :
    optionLoop buf option stop rounds pos = none := by
  cases rounds with
  | zero => rfl
  | succ rounds => rw [optionLoop, if_neg (by omega)]

/-- **A search that is determined** comes to the same option in both buffers, and what callers
read of its value is in the datagram or behind the buffer. -/
theorem OptionDetermined.congr (h : OptionDetermined msg n option rounds pos)
    (hbuf : ∀ i < n, buf i = msg i) (hbuf' : ∀ i < n, buf' i = msg i) :
    optionLoop buf option 1500 rounds pos = optionLoop buf' option 1500 rounds pos ∧
      ∀ opt ∈ optionLoop buf option 1500 rounds pos, ∀ i ∈ callerReads option opt,
        i < n ∨ 1500 ≤ i := by
  induction rounds generalizing pos with
  | zero => simp [optionLoop]
  | succ rounds ih =>
      rcases h with hend | ⟨hlt, h⟩
      · simp [optionLoop_of_le hend]
      rw [optionLoop, optionLoop, hbuf pos hlt, hbuf' pos hlt]
      rcases h with hend | h
      · simp [hend]
      by_cases hopen : pos < 1500 ∧ msg pos ≠ 255
      · simp only [if_pos hopen]
        split_ifs at h with hfound
        · simpa [hfound] using h
        · simp only [if_neg hfound]
          rcases h with hlast | ⟨hlen, h⟩
          · simp [optionLoop_of_le (show 1500 ≤ pos + ((buf (pos + 1)).toNat + 2) by omega),
              optionLoop_of_le (show 1500 ≤ pos + ((buf' (pos + 1)).toNat + 2) by omega)]
          · rw [hbuf _ hlen, hbuf' _ hlen]
            exact ih h
      · simp [if_neg hopen]

/-- **A search that is not determined** comes to the bytes behind the datagram, at an option or
in the value of the option it finds. -/
theorem cases_of_not_optionDetermined (h : ¬ OptionDetermined msg n option rounds pos)
    (hzero : ∀ i, n ≤ i → msg i = 0) (hrounds : 1500 ≤ pos + rounds) :
    (∃ p r, n ≤ p ∧ p < 1500 ∧ ∀ buf : Payload, (∀ i < p, buf i = msg i) →
        optionLoop buf option 1500 rounds pos = optionLoop buf option 1500 (r + 1) p) ∨
      ∃ p, (∀ buf : Payload, (∀ i < n, buf i = msg i) →
          optionLoop buf option 1500 rounds pos = some p) ∧
        ∃ i ∈ callerReads option p, n ≤ i ∧ i < 1500 := by
  induction rounds generalizing pos with
  | zero => exact absurd trivial h
  | succ rounds ih =>
      rw [OptionDetermined, not_or, not_and, Nat.not_le] at h
      obtain ⟨hpos, h⟩ := h
      rcases Nat.lt_or_ge pos n with hlt | hge
      · specialize h hlt
        rw [not_or] at h
        obtain ⟨hopen, h⟩ := h
        have hstep : ∀ buf : Payload, (∀ i < n, buf i = msg i) →
            optionLoop buf option 1500 (rounds + 1) pos =
              if msg pos = option then some pos
              else optionLoop buf option 1500 rounds (pos + ((buf (pos + 1)).toNat + 2)) := by
          intro buf hbuf
          rw [optionLoop, hbuf pos hlt, if_pos ⟨hpos, hopen⟩]
        split_ifs at h with hfound
        · push Not at h
          refine .inr ⟨pos, fun buf hbuf => ?_, h⟩
          rw [hstep buf hbuf, if_pos hfound]
        · simp only [if_neg hfound] at hstep
          rw [not_or, not_and, Nat.not_le] at h
          obtain ⟨hlast, h⟩ := h
          rcases Nat.lt_or_ge (pos + 1) n with hlen | hlen
          · rcases ih (h hlen) (by omega) with ⟨p, r, hp, hp', hwalk⟩ | ⟨p, hwalk, hi⟩
            · refine .inl ⟨p, r, hp, hp', fun buf hbuf => ?_⟩
              rw [hstep buf fun i hi => hbuf i (hi.trans_le hp), hbuf _ (hlen.trans_le hp)]
              exact hwalk buf hbuf
            · refine .inr ⟨p, fun buf hbuf => ?_, hi⟩
              rw [hstep buf hbuf, hbuf _ hlen]
              exact hwalk buf hbuf
          · -- the length byte is the first behind the datagram, and zero
            obtain ⟨r, rfl⟩ : ∃ r, rounds = r + 1 := ⟨rounds - 1, by omega⟩
            refine .inl ⟨pos + 2, r, by omega, by omega, fun buf hbuf => ?_⟩
            rw [hstep buf fun i hi => hbuf i (by omega), hbuf _ (by omega), hzero _ hlen]
            rfl
      · exact .inl ⟨pos, rounds, hge, hpos, fun _ _ => rfl⟩

end

section
variable {x : DhcpInput} {stale stale' : ℕ → UInt8} {i opt : ℕ} {buf buf' : Payload}

theorem payload_of_lt (h : i < x.bytes.length) :
    (x.on stale).payload i = x.datagram i :=
  (List.getD_eq_getElem _ _ h).trans (List.getD_eq_getElem _ _ h).symm

theorem payload_of_le (h : x.bytes.length ≤ i) :
    (x.on stale).payload i = stale i :=
  List.getD_eq_default _ _ h

theorem datagram_of_le (h : x.bytes.length ≤ i) : x.datagram i = 0 :=
  List.getD_eq_default _ _ h

/-- The bytes before `p` are the datagram's and zeros, when the buffer held zeros there. -/
theorem payload_eq_datagram {p : ℕ} (h : ∀ i < p, x.bytes.length ≤ i → stale i = 0) :
    ∀ i < p, (x.on stale).payload i = x.datagram i := by
  intro i hi
  rcases Nat.lt_or_ge i x.bytes.length with hlt | hge
  · exact payload_of_lt hlt
  · rw [payload_of_le hge, datagram_of_le hge, h i hi hge]

/-- **Two contents of the buffer** for a search that is not determined: with the one it finds
the option; with the other it does not, or finds it with a value that differs. -/
theorem exists_stale_of_not_determined {option : UInt8} (hcode : option ≠ 255)
    (h : ¬ OptionDetermined x.datagram x.bytes.length option (1500 - dhcpOptionsOfs)
      dhcpOptionsOfs) :
    ∃ (stale stale' : ℕ → UInt8) (opt : ℕ),
      (∀ i, 1500 ≤ i → stale i = 3 ∧ stale' i = 3) ∧
      dhcpServerOptionFind (x.on stale).payload dhcpOptionsOfs
        (1500 - dhcpOptionsOfs) option = some opt ∧
      ((dhcpServerOptionFind (x.on stale').payload dhcpOptionsOfs
          (1500 - dhcpOptionsOfs) option = none ∧
          ∀ i, opt < i → (x.on stale).payload i = 3) ∨
        (dhcpServerOptionFind (x.on stale').payload dhcpOptionsOfs
          (1500 - dhcpOptionsOfs) option = some opt ∧
          ∃ i ∈ callerReads option opt, (x.on stale).payload i = 3 ∧
            (x.on stale').payload i = 0)) := by
  rcases cases_of_not_optionDetermined h (fun _ => datagram_of_le) (by decide) with
    ⟨p, r, hn, hp, hwalk⟩ | ⟨p, hwalk, i, hi, hn, hi'⟩
  · refine ⟨fun i => if i < p then 0 else if i = p then option else 3,
      fun i => if i < p then 0 else if i = p then 255 else 3, p, fun i hi => ?_, ?_, .inl ⟨?_, ?_⟩⟩
    · simp only [if_neg (show ¬ i < p by omega), if_neg (show i ≠ p by omega), and_self]
    · refine (hwalk _ (payload_eq_datagram fun i hi _ => if_pos hi)).trans ?_
      rw [optionLoop, payload_of_le hn]
      simp [hp, hcode]
    · refine (hwalk _ (payload_eq_datagram fun i hi _ => if_pos hi)).trans ?_
      rw [optionLoop, payload_of_le hn]
      simp
    · intro i hi
      rw [payload_of_le (by omega)]
      simp only [if_neg (show ¬ i < p by omega), if_neg (show i ≠ p by omega)]
  · refine ⟨fun _ => 3, fun i => if i < 1500 then 0 else 3, p, fun i hi => ?_, ?_, .inr ⟨?_, i, hi,
      payload_of_le hn, ?_⟩⟩
    · simp only [if_neg (show ¬ i < 1500 by omega), and_self]
    · exact hwalk _ fun i hi => payload_of_lt hi
    · exact hwalk _ fun i hi => payload_of_lt hi
    · rw [payload_of_le hn, if_pos hi']

/-! ### Header and reply -/

theorem wordByte_readIp (buf : Payload) (i : ℕ) {k : ℕ} (hk : k < 4) :
    wordByte (readIp buf i) k = (buf (i + k)).toBitVec := by
  have h := wordByte_load32 (fun a => (buf (i + a.toNat)).toBitVec) 0 hk
  obtain rfl | rfl | rfl | rfl : k = 0 ∨ k = 1 ∨ k = 2 ∨ k = 3 := by omega
  all_goals exact h

/-- Addresses that differ in a byte. -/
theorem readIp_ne {j : ℕ} (hij : i ≤ j) (hji : j < i + 4)
    (h : buf j ≠ buf' j) : readIp buf i ≠ readIp buf' i := by
  obtain ⟨k, rfl⟩ := Nat.exists_eq_add_of_le hij
  intro heq
  have hbyte := congrArg (fun w => wordByte w k) heq
  simp only [wordByte_readIp _ _ (show k < 4 by omega)] at hbyte
  exact h (UInt8.toBitVec_inj.mp hbyte)

theorem readIp_congr (h : ∀ k < 4, buf (i + k) = buf' (i + k)) :
    readIp buf i = readIp buf' i := by
  rw [readIp, readIp, ← h 1 (by decide), ← h 2 (by decide), ← h 3 (by decide)]
  have := h 0 (by decide)
  rw [Nat.add_zero] at this
  rw [this]

theorem msgChaddr_congr (h : ∀ i < dhcpOptionsOfs, buf i = buf' i) :
    msgChaddr buf = msgChaddr buf' := by
  refine List.map_congr_left fun i hi => h _ ?_
  rw [List.mem_range] at hi
  rw [dhcpOptionsOfs]
  omega

/-- A reply is made of the header and the options. -/
theorem makeReply_congr (h : ∀ i < dhcpOptionsOfs, buf i = buf' i)
    (netif : Netif) (yiaddr : BitVec 32) (options : List UInt8) :
    makeReply netif buf yiaddr options = makeReply netif buf' yiaddr options := by
  refine List.map_congr_left fun i hi => ?_
  rw [List.mem_range] at hi
  rcases Nat.lt_or_ge i dhcpOptionsOfs with hlt | hge
  · simp only [replyPayload, putBytes, h i hlt]
  · obtain ⟨k, rfl⟩ := Nat.exists_eq_add_of_le hge
    rw [replyPayload, replyPayload, putBytes_add _ _ (by omega), putBytes_add _ _ (by omega)]

/-! ### The handler -/

/-- The handler, for a datagram with a good header. -/
theorem dhcpServerRecv_of_header (hacc : Accepted x) (hop : x.payload 0 = 1)
    (hcookie : readIp x.payload 236 = 0x63825363) (hhlen : msgHlen x.payload ≤ 6)
    (netif : Netif) (fuel : ℕ) (s : DhcpState) :
    dhcpServerRecv netif fuel s x =
      match dhcpServerOptionFind x.payload dhcpOptionsOfs (1500 - dhcpOptionsOfs) 53 with
      | none => .ok s
      | some opt =>
          handleMessage netif fuel s x x.payload (1500 - dhcpOptionsOfs) (x.payload (opt + 2)) := by
  obtain ⟨hlen, -, hfits, hbuf⟩ := hacc
  rw [dhcpServerRecv]
  exact (if_neg (by rw [hbuf]; simp; omega)).trans (if_neg (by simp [hop, hcookie]; omega))

/-- With a hardware address of no bytes, the lookup finds the first node. -/
theorem dhcpClientFind_of_hlen_zero (h : msgHlen buf = 0) (server : DhcpServer)
    (len : ℕ) : dhcpClientFind server buf len = server.nodeList.head? := by
  rw [dhcpClientFind, dhcpClientFindByMac, h]
  cases hnodes : server.nodeList with
  | nil =>
      simp only [List.find?_nil, dhcpClientFindByIp, hnodes, List.head?_nil]
      split <;> rfl
  | cons node nodes => simp

/-- The handler depends on the header and on what the lookup finds. -/
theorem handleMessage_congr {s : DhcpState} {len : ℕ} {type : UInt8}
    (hhead : ∀ i < dhcpOptionsOfs, buf i = buf' i) (hfind : type = 1 ∨ type = 3 →
      dhcpClientFind s.server buf len = dhcpClientFind s.server buf' len)
    (netif : Netif) (fuel : ℕ) :
    handleMessage netif fuel s (x.on stale) buf len type =
      handleMessage netif fuel s (x.on stale') buf' len type := by
  have hreply := makeReply_congr hhead
  have hchaddr := msgChaddr_congr hhead
  have hhlen : msgHlen buf = msgHlen buf' := congrArg UInt8.toNat (hhead 2 (by decide))
  rw [handleMessage, handleMessage]
  by_cases hone : type = 1
  · have halloc : dhcpClientAlloc fuel s.server (x.on stale) buf len =
        dhcpClientAlloc fuel s.server (x.on stale') buf' len := by
      rw [dhcpClientAlloc, dhcpClientAlloc, hfind (.inl hone), hchaddr, hhlen]
      rfl
    simp only [if_pos hone, halloc, hreply]
  by_cases hthree : type = 3
  · simp only [if_neg hone, if_pos hthree, hfind (.inr hthree), hreply]
  · simp only [if_neg hone, if_neg hthree, hchaddr, hhlen]

/-- A search in the buffer that is determined. -/
theorem dhcpServerOptionFind_congr {option : UInt8}
    (h : OptionDetermined x.datagram x.bytes.length option (1500 - dhcpOptionsOfs) dhcpOptionsOfs)
    (hbuf : ∀ i < x.bytes.length, buf i = x.datagram i) :
    dhcpServerOptionFind buf dhcpOptionsOfs (1500 - dhcpOptionsOfs) option =
        dhcpServerOptionFind x.datagram dhcpOptionsOfs (1500 - dhcpOptionsOfs) option ∧
      ∀ opt ∈ dhcpServerOptionFind x.datagram dhcpOptionsOfs (1500 - dhcpOptionsOfs) option,
        ∀ i ∈ callerReads option opt, i < x.bytes.length ∨ 1500 ≤ i :=
  ⟨(h.congr hbuf fun _ _ => rfl).1, (h.congr (fun _ _ => rfl) fun _ _ => rfl).2⟩

/-- A datagram whose header is refused is dropped. -/
theorem HeaderRefused.recv (h : HeaderRefused x) (hacc : Accepted x) (netif : Netif) (fuel : ℕ)
    (s : DhcpState) : dhcpServerRecv netif fuel s (x.on stale) = .ok s := by
  have hlen : 44 ≤ x.bytes.length := hacc.1.trans hacc.2.1
  have hbad : (x.on stale).payload 0 ≠ 1 ∨ readIp (x.on stale).payload 236 ≠ 0x63825363 ∨
      6 < msgHlen (x.on stale).payload := by
    rcases h with hop | hhlen | ⟨k, hk, hlt, hne⟩
    · left
      rwa [payload_of_lt (by omega)]
    · right; right
      rwa [msgHlen, payload_of_lt (by omega)]
    · right; left
      intro heq
      have hbyte := wordByte_readIp (x.on stale).payload 236 hk
      rw [heq, payload_of_lt hlt] at hbyte
      have hcookie : ∀ k < 4, wordByte 0x63825363 k = (magicCookie.getD k 0).toBitVec := by decide
      rw [hcookie k hk] at hbyte
      exact hne (UInt8.toBitVec_inj.mp hbyte).symm
  rw [dhcpServerRecv, if_pos hbad, ite_self]

/-- **A message that is determined** is handled in the same way in both runs. -/
theorem MessageDetermined.congr (h : MessageDetermined x) (hacc : Accepted x)
    (hpast : ∀ i, 1500 ≤ i → stale i = stale' i) (netif : Netif) (fuel : ℕ) (s : DhcpState) :
    dhcpServerRecv netif fuel s (x.on stale) = dhcpServerRecv netif fuel s (x.on stale') := by
  have hmsg : ∀ stale, ∀ i < x.bytes.length, (x.on stale).payload i = x.datagram i :=
    fun _ _ hi => payload_of_lt hi
  have hsame : ∀ i, i < x.bytes.length ∨ 1500 ≤ i →
      (x.on stale).payload i = (x.on stale').payload i := by
    rintro i (hi | hi)
    · rw [hmsg _ i hi, hmsg _ i hi]
    · have hge : x.bytes.length ≤ i := hacc.2.2.1.trans hi
      rw [payload_of_le hge, payload_of_le hge, hpast i hi]
  have hhead : ∀ i < dhcpOptionsOfs, (x.on stale).payload i = (x.on stale').payload i :=
    fun i hi => hsame i (.inl (hi.trans_le h.header))
  have hcookie := readIp_congr (i := 236) fun k hk =>
    hhead (236 + k) (by rw [dhcpOptionsOfs]; omega)
  have hhlen : msgHlen (x.on stale).payload = msgHlen (x.on stale').payload :=
    congrArg UInt8.toNat (hhead 2 (by decide))
  have htype := fun stale => dhcpServerOptionFind_congr h.type (hmsg stale)
  rw [dhcpServerRecv, dhcpServerRecv, hhead 0 (by decide), hcookie, hhlen, (htype stale).1,
    (htype stale').1]
  refine if_congr Iff.rfl rfl (if_congr Iff.rfl rfl ?_)
  cases hopt : dhcpServerOptionFind x.datagram dhcpOptionsOfs (1500 - dhcpOptionsOfs) 53 with
  | none => rfl
  | some opt =>
      have hread := (htype stale).2 opt hopt (opt + 2) List.mem_cons_self
      dsimp only
      rw [hsame _ hread]
      refine handleMessage_congr hhead (fun hkind => ?_) netif fuel
      by_cases hzero : msgHlen x.datagram = 0
      · have hzero' : ∀ stale, msgHlen (x.on stale).payload = 0 := fun stale =>
          (congrArg UInt8.toNat (hmsg stale 2 ((by decide : 2 < dhcpOptionsOfs).trans_le
            h.header))).trans hzero
        rw [dhcpClientFind_of_hlen_zero (hzero' _), dhcpClientFind_of_hlen_zero (hzero' _)]
      · have hasks : x.datagram (opt + 2) = 1 ∨ x.datagram (opt + 2) = 3 ∨ 1500 ≤ opt + 2 := by
          rcases hread with hin | hout
          · rw [hmsg _ _ hin] at hkind
            exact hkind.imp_right .inl
          · exact .inr (.inr hout)
        have hreq := fun stale =>
          dhcpServerOptionFind_congr (h.request hzero opt hopt hasks) (hmsg stale)
        rw [dhcpClientFind, dhcpClientFind, msgChaddr_congr hhead, hhlen, (hreq stale).1,
          (hreq stale').1]
        cases hip : dhcpServerOptionFind x.datagram dhcpOptionsOfs (1500 - dhcpOptionsOfs) 50 with
        | none => rfl
        | some opt' =>
            dsimp only
            rw [readIp_congr fun k hk => hsame _ ((hreq stale).2 opt' hip _ ?_)]
            exact List.mem_range'_1.mpr ⟨Nat.le_add_right _ _, Nat.add_lt_add_left hk _⟩

/-! ### Two runs that differ -/

/-- A REQUEST is always answered. -/
theorem handleMessage_request (x : DhcpInput) (buf : Payload) (len : ℕ) (netif : Netif)
    (fuel : ℕ) (s : DhcpState) : ∃ reply,
      handleMessage netif fuel s x buf len 3 = .ok { s with sent := s.sent ++ [reply] } := by
  rw [handleMessage, if_neg (by decide), if_pos rfl]
  cases dhcpClientFind s.server buf len with
  | none => exact ⟨_, rfl⟩
  | some node => exact ⟨_, rfl⟩

/-- Where one run comes to a REQUEST and the other to nothing, the two differ. -/
theorem not_determined_of_request (stale stale' : ℕ → UInt8) (hacc : Accepted x)
    (hpast : ∀ i, 1500 ≤ i → stale i = stale' i)
    (hop : (x.on stale).payload 0 = 1) (hcookie : readIp (x.on stale).payload 236 = 0x63825363)
    (hhlen : msgHlen (x.on stale).payload ≤ 6)
    (hopt : dhcpServerOptionFind (x.on stale).payload dhcpOptionsOfs (1500 - dhcpOptionsOfs) 53 =
      some opt) (htype : (x.on stale).payload (opt + 2) = 3)
    (hother : ∀ netif fuel s, dhcpServerRecv netif fuel s (x.on stale') = .ok s) :
    ¬ ReplyDetermined x := by
  intro h
  have hrun := h ⟨0, 0⟩ 0 (dhcpServerStart 0 0) stale stale' hpast
  obtain ⟨reply, hreply⟩ := handleMessage_request (x.on stale) (x.on stale).payload
    (1500 - dhcpOptionsOfs) ⟨0, 0⟩ 0 (dhcpServerStart 0 0)
  have hacc' : Accepted (x.on stale) := hacc
  rw [hother, dhcpServerRecv_of_header hacc' hop hcookie hhlen, hopt] at hrun
  dsimp only at hrun
  rw [htype, hreply] at hrun
  have hsent := congrArg DhcpState.sent (Except.ok.inj hrun)
  cases hsent

/-- Where the lookup finds a node in one run and none in the other, the two differ. -/
theorem handleMessage_ne {len : ℕ} {type : UInt8} {s : DhcpState}
    {node : DhcpNode} (hkind : type = 1 ∨ type = 3)
    (hfind : dhcpClientFind s.server buf len = some node)
    (hfind' : dhcpClientFind s.server buf' len = none)
    (hfree : dhcpClientFindByIp s.server s.server.current = none)
    (hother : s.server.current ≠ node.ipaddr) (netif : Netif) :
    handleMessage netif 1 s (x.on stale) buf len type ≠
      handleMessage netif 1 s (x.on stale') buf' len type := by
  intro h
  have hsingle : ∀ {r r' : List UInt8}, s.sent ++ [r] = s.sent ++ [r'] → r = r' :=
    fun h => List.singleton_inj.mp (List.append_cancel_left h)
  rcases hkind with rfl | rfl
  · simp only [handleMessage, if_true, dhcpClientAlloc, hfind, hfind', allocAgain, hfree] at h
    by_cases hnode : (x.on stale').nodeAlloc = true
    · simp only [hnode, if_true, Except.ok.injEq, DhcpState.mk.injEq] at h
      have hip := congrArg replyYiaddr (hsingle h.2)
      rw [replyYiaddr_makeReply, replyYiaddr_makeReply] at hip
      exact hother hip.symm
    · simp only [hnode, Bool.false_eq_true, if_false, Except.ok.injEq, DhcpState.mk.injEq] at h
      simp at h
  · simp only [handleMessage, if_neg (by decide : ¬ (3 : UInt8) = 1), if_true, hfind, hfind',
      Except.ok.injEq, DhcpState.mk.injEq, true_and] at h
    have htype := congrArg replyType (hsingle h)
    rw [replyType_makeReply _ _ _ (by simp [leaseOptions]),
      replyType_makeReply _ _ _ (by simp [nakOptions])] at htype
    simp [leaseOptions, nakOptions] at htype

/-- A header that is not refused is a good one, when the buffer held what is missing of the
cookie. -/
theorem header_of_not_refused (stale : ℕ → UInt8) (hacc : Accepted x) (hgood : ¬ HeaderRefused x)
    (hrest : ∀ k < 4, x.bytes.length ≤ 236 + k → stale (236 + k) = magicCookie.getD k 0) :
    (x.on stale).payload 0 = 1 ∧ readIp (x.on stale).payload 236 = 0x63825363 ∧
      msgHlen (x.on stale).payload ≤ 6 := by
  rw [HeaderRefused, not_or, not_or, not_not, Nat.not_lt] at hgood
  obtain ⟨hop, hhlen, hcookie⟩ := hgood
  push Not at hcookie
  have hlen : 44 ≤ x.bytes.length := hacc.1.trans hacc.2.1
  refine ⟨?_, readIp_eq_of_bytes fun k hk => ?_, ?_⟩
  · rw [payload_of_lt (by omega), hop]
  · have hbytes : ipBytes 0x63825363 = magicCookie := by decide
    simp only [hbytes]
    rw [hbytes] at hk
    have hbyte : (x.on stale).payload (236 + k) = magicCookie.getD k 0 := by
      rcases Nat.lt_or_ge (236 + k) x.bytes.length with hlt | hge
      · rw [payload_of_lt hlt, hcookie k hk hlt]
      · rw [payload_of_le hge, hrest k hk hge]
    rw [hbyte, List.getD_eq_getElem _ _ hk]
  · rw [msgHlen, payload_of_lt (by omega)]
    exact hhlen

/-- **A datagram without the whole header** that is not refused: with the rest of the header and
a REQUEST in the buffer it is answered, with zeros it is not. -/
theorem not_determined_of_short (hacc : Accepted x) (hgood : ¬ HeaderRefused x)
    (hshort : x.bytes.length < dhcpOptionsOfs) : ¬ ReplyDetermined x := by
  rw [dhcpOptionsOfs] at hshort
  obtain ⟨hop, hcookie, hhlen⟩ := header_of_not_refused
    (fun i => if i < 240 then magicCookie.getD (i - 236) 0 else if i = 240 then 53 else 3)
    hacc hgood (fun k hk _ => by rw [if_pos (by omega), Nat.add_sub_cancel_left])
  have hopt : dhcpServerOptionFind (x.on fun i => if i < 240 then magicCookie.getD (i - 236) 0
      else if i = 240 then 53 else 3).payload dhcpOptionsOfs (1500 - dhcpOptionsOfs) 53 =
        some dhcpOptionsOfs := by
    rw [dhcpServerOptionFind, show 1500 - dhcpOptionsOfs = 1259 + 1 from rfl, optionLoop,
      payload_of_le (by rw [dhcpOptionsOfs]; omega)]
    simp [dhcpOptionsOfs]
  refine not_determined_of_request _ (fun i => if i < 1500 then 0 else 3) hacc ?_ hop hcookie hhlen
    hopt ?_ ?_
  · intro i hi
    rw [if_neg (by omega), if_neg (by omega), if_neg (by omega)]
  · rw [payload_of_le (by rw [dhcpOptionsOfs]; omega)]
    rfl
  · intro netif fuel s
    have hlast : (x.on fun i => if i < 1500 then 0 else 3).payload 239 = 0 := by
      rw [payload_of_le (by omega)]
      rfl
    have hbad : readIp (x.on fun i => if i < 1500 then 0 else 3).payload 236 ≠ 0x63825363 := by
      intro heq
      have hbyte := wordByte_readIp (x.on fun i => if i < 1500 then 0 else 3).payload 236
        (by decide : 3 < 4)
      rw [heq, hlast] at hbyte
      exact absurd hbyte (by decide)
    rw [dhcpServerRecv]
    split_ifs with _ hheader
    · rfl
    · rfl
    · exact absurd (.inr (.inl hbad)) hheader

/-- **A message type that is not determined** is that of a REQUEST in one run, and in the other
there is none, or one that is not handled. -/
theorem not_determined_of_type (hacc : Accepted x) (hgood : ¬ HeaderRefused x)
    (hheader : dhcpOptionsOfs ≤ x.bytes.length)
    (h : ¬ OptionDetermined x.datagram x.bytes.length 53 (1500 - dhcpOptionsOfs) dhcpOptionsOfs) :
    ¬ ReplyDetermined x := by
  have hhead := fun stale => header_of_not_refused stale hacc hgood fun k hk hge =>
    absurd hheader (by rw [dhcpOptionsOfs]; omega)
  obtain ⟨stale, stale', opt, hpast, hopt, hother⟩ := exists_stale_of_not_determined (by decide) h
  obtain ⟨hop, hcookie, hhlen⟩ := hhead stale
  obtain ⟨hop', hcookie', hhlen'⟩ := hhead stale'
  have hacc' : Accepted (x.on stale') := hacc
  have htype : (x.on stale).payload (opt + 2) = 3 := by
    rcases hother with ⟨-, hrest⟩ | ⟨-, i, hi, hthree, -⟩
    · exact hrest _ (by omega)
    · obtain rfl := List.mem_singleton.mp hi
      exact hthree
  refine not_determined_of_request stale stale' hacc
    (fun i hi => (hpast i hi).1.trans (hpast i hi).2.symm) hop hcookie hhlen hopt htype ?_
  intro netif fuel s
  rw [dhcpServerRecv_of_header hacc' hop' hcookie' hhlen']
  rcases hother with ⟨hnone, -⟩ | ⟨hsome, i, hi, -, hzero⟩
  · rw [hnone]
  · obtain rfl := List.mem_singleton.mp hi
    rw [hsome]
    dsimp only
    rw [hzero]
    rfl

/-- A hardware address that differs in its first byte does not match. -/
theorem take_map_succ_ne {hlen : ℕ} (h : hlen ≠ 0) :
    ((msgChaddr buf).map (· + 1)).take hlen ≠ (msgChaddr buf).take hlen := by
  obtain ⟨k, rfl⟩ := Nat.exists_eq_succ_of_ne_zero h
  intro heq
  have hfirst := congrArg List.head? heq
  have hsucc : ∀ a : UInt8, a + 1 ≠ a := fun a h => by simp at h
  simp [msgChaddr, List.range_succ_eq_map, hsucc] at hfirst

/-- With threes behind the buffer, a message type that is determined and asks for an address is
the same in every run. -/
theorem exists_type_of_asks (hacc : Accepted x)
    (htype : OptionDetermined x.datagram x.bytes.length 53 (1500 - dhcpOptionsOfs) dhcpOptionsOfs)
    (hopt : dhcpServerOptionFind x.datagram dhcpOptionsOfs (1500 - dhcpOptionsOfs) 53 = some opt)
    (hasks : x.datagram (opt + 2) = 1 ∨ x.datagram (opt + 2) = 3 ∨ 1500 ≤ opt + 2) :
    ∃ type : UInt8, (type = 1 ∨ type = 3) ∧
      ∀ stale, (∀ i, 1500 ≤ i → stale i = 3) → (x.on stale).payload (opt + 2) = type := by
  rcases (dhcpServerOptionFind_congr htype fun _ _ => rfl).2 opt hopt (opt + 2)
    List.mem_cons_self with hin | hout
  · refine ⟨x.datagram (opt + 2), ?_, fun stale _ => payload_of_lt hin⟩
    exact hasks.imp_right fun h => h.resolve_right (Nat.not_le.mpr (hin.trans_le hacc.2.2.1))
  · exact ⟨3, .inr rfl, fun stale hstale =>
      (payload_of_le (hacc.2.2.1.trans hout)).trans (hstale _ hout)⟩

/-- The handler, for a message with a good header and a type that is determined. -/
theorem dhcpServerRecv_of_determined (hacc : Accepted x) (hgood : ¬ HeaderRefused x)
    (hheader : dhcpOptionsOfs ≤ x.bytes.length)
    (htype : OptionDetermined x.datagram x.bytes.length 53 (1500 - dhcpOptionsOfs) dhcpOptionsOfs)
    (hopt : dhcpServerOptionFind x.datagram dhcpOptionsOfs (1500 - dhcpOptionsOfs) 53 = some opt)
    (stale : ℕ → UInt8) (netif : Netif) (fuel : ℕ) (s : DhcpState) :
    dhcpServerRecv netif fuel s (x.on stale) = handleMessage netif fuel s (x.on stale)
      (x.on stale).payload (1500 - dhcpOptionsOfs) ((x.on stale).payload (opt + 2)) := by
  have hacc' : Accepted (x.on stale) := hacc
  obtain ⟨hop, hcookie, hle⟩ := header_of_not_refused stale hacc hgood
    fun k hk hge => absurd hheader (by rw [dhcpOptionsOfs]; omega)
  rw [dhcpServerRecv_of_header hacc' hop hcookie hle,
    (dhcpServerOptionFind_congr htype fun _ hi => payload_of_lt hi).1, hopt]

/-- **A requested address that is not determined** is that of another client's node in one run,
and not in the other. -/
theorem not_determined_of_request_ip (hacc : Accepted x) (hgood : ¬ HeaderRefused x)
    (hheader : dhcpOptionsOfs ≤ x.bytes.length)
    (htype : OptionDetermined x.datagram x.bytes.length 53 (1500 - dhcpOptionsOfs) dhcpOptionsOfs)
    (hhlen : msgHlen x.datagram ≠ 0)
    (hopt : dhcpServerOptionFind x.datagram dhcpOptionsOfs (1500 - dhcpOptionsOfs) 53 = some opt)
    (hasks : x.datagram (opt + 2) = 1 ∨ x.datagram (opt + 2) = 3 ∨ 1500 ≤ opt + 2)
    (h : ¬ OptionDetermined x.datagram x.bytes.length 50 (1500 - dhcpOptionsOfs) dhcpOptionsOfs) :
    ¬ ReplyDetermined x := by
  obtain ⟨stale, stale', req, hpast, hreq, hother⟩ := exists_stale_of_not_determined (by decide) h
  obtain ⟨type, hkind, htypes⟩ := exists_type_of_asks hacc htype hopt hasks
  -- a server with one node, of another client, that has the address requested in the first run
  let ip := readIp (x.on stale).payload (req + 2)
  let s : DhcpState := ⟨⟨[⟨(msgChaddr x.datagram).map (· + 1), ip⟩], ip + 1, ip + 1, ip + 1⟩, []⟩
  have hmac : ∀ stale, dhcpClientFindByMac s.server (msgChaddr (x.on stale).payload)
      (msgHlen (x.on stale).payload) = none := by
    intro stale
    have hhead : ∀ i < dhcpOptionsOfs, (x.on stale).payload i = x.datagram i :=
      fun i hi => payload_of_lt (hi.trans_le hheader)
    have hhlen' : msgHlen (x.on stale).payload = msgHlen x.datagram :=
      congrArg UInt8.toNat (hhead 2 (by decide))
    rw [msgChaddr_congr hhead, hhlen']
    exact List.find?_eq_none.mpr (by simpa [s] using take_map_succ_ne hhlen)
  have hsucc : ip + 1 ≠ ip := fun h => by simp at h
  intro hdet
  have hrun := hdet ⟨0, 0⟩ 1 s stale stale'
    fun i hi => (hpast i hi).1.trans (hpast i hi).2.symm
  have hrecv := dhcpServerRecv_of_determined hacc hgood hheader htype hopt
  rw [hrecv stale, hrecv stale', htypes stale fun i hi => (hpast i hi).1,
    htypes stale' fun i hi => (hpast i hi).2] at hrun
  have hfind : dhcpClientFind s.server (x.on stale).payload (1500 - dhcpOptionsOfs) =
      some ⟨(msgChaddr x.datagram).map (· + 1), ip⟩ := by
    rw [dhcpClientFind, hmac, hreq]
    exact List.find?_cons_of_pos (by simp [ip])
  refine handleMessage_ne hkind hfind ?_ ?_ ?_ ⟨0, 0⟩ hrun
  · rw [dhcpClientFind, hmac]
    rcases hother with ⟨hnone, -⟩ | ⟨hsome, i, hi, hthree, hzero⟩
    · rw [hnone]
    · rw [hsome]
      have hi : req + 2 ≤ i ∧ i < req + 2 + 4 := List.mem_range'_1.mp hi
      have hne : ip ≠ readIp (x.on stale').payload (req + 2) :=
        readIp_ne hi.1 hi.2 (by rw [hthree, hzero]; decide)
      exact List.find?_eq_none.mpr (by simpa [s] using hne)
  · exact List.find?_eq_none.mpr (by simp [s])
  · exact hsucc

/-- **Which datagrams settle the answer.** For every datagram that passes the length check: two
runs of the handler that differ only in the old contents of the buffer send the same reply, or
none, and end in the same state, whatever the state of the server, exactly when the header is
refused, or the message is determined. -/
theorem reply_determined_iff (hacc : Accepted x) :
    ReplyDetermined x ↔ HeaderRefused x ∨ MessageDetermined x := by
  constructor
  · intro h
    by_cases hgood : HeaderRefused x
    · exact .inl hgood
    have hheader : dhcpOptionsOfs ≤ x.bytes.length := by
      by_contra hshort
      exact not_determined_of_short hacc hgood (Nat.not_le.mp hshort) h
    have htype : OptionDetermined x.datagram x.bytes.length 53 (1500 - dhcpOptionsOfs)
        dhcpOptionsOfs := by
      by_contra hnot
      exact not_determined_of_type hacc hgood hheader hnot h
    refine .inr ⟨hheader, htype, fun hhlen opt hopt hasks => ?_⟩
    by_contra hnot
    exact not_determined_of_request_ip hacc hgood hheader htype hhlen hopt hasks hnot h
  · rintro (hrefused | hmessage) netif fuel s stale stale' hpast
    · rw [hrefused.recv hacc, hrefused.recv hacc]
    · exact hmessage.congr hacc hpast netif fuel s

end

/-- A DISCOVER that ends with the end byte. -/
theorem reply_determined_discover :
    ReplyDetermined (clientDatagram [2, 0, 0, 0, 0, 0xA] [53, 1, 1, 255]) :=
  (reply_determined_iff (by decide +kernel)).mpr
    (.inr ⟨by decide +kernel, by decide +kernel, by decide +kernel⟩)

/-- A datagram that ends behind the first part of the header. -/
def shortDatagram : DhcpInput where
  len := 44
  bytes := [1, 1, 6, 0] ++ List.replicate 24 0 ++ [2, 0, 0, 0, 0, 0xB] ++ List.replicate 10 0
  stale := fun _ => 0
  bufAlloc := true
  nodeAlloc := true
  nodeStale := List.replicate 6 0

/-- In a buffer that held the REQUEST of client A, a datagram of 44 bytes of client B is answered;
in a buffer of zeros it is dropped. -/
theorem reply_from_stale_request :
    (dhcpServerRecv ⟨0xC0A80101, 0xFFFFFF00⟩ 10 (dhcpServerStart 0xC0A80102 0xC0A801FE)
        (shortDatagram.on
          (clientDatagram [2, 0, 0, 0, 0, 0xA] [53, 1, 3, 255]).datagram)).map
        (fun s => s.sent.map replyType) = .ok [6] ∧
      dhcpServerRecv ⟨0xC0A80101, 0xFFFFFF00⟩ 10 (dhcpServerStart 0xC0A80102 0xC0A801FE)
        (shortDatagram.on fun _ => 0) = .ok (dhcpServerStart 0xC0A80102 0xC0A801FE) ∧
      ¬ ReplyDetermined shortDatagram := by
  have hanswered : (dhcpServerRecv ⟨0xC0A80101, 0xFFFFFF00⟩ 10
      (dhcpServerStart 0xC0A80102 0xC0A801FE) (shortDatagram.on
        (clientDatagram [2, 0, 0, 0, 0, 0xA] [53, 1, 3, 255]).datagram)).map
        (fun s => s.sent.map replyType) = .ok [6] := by
    decide +kernel
  have hdropped : dhcpServerRecv ⟨0xC0A80101, 0xFFFFFF00⟩ 10
      (dhcpServerStart 0xC0A80102 0xC0A801FE) (shortDatagram.on fun _ => 0) =
        .ok (dhcpServerStart 0xC0A80102 0xC0A801FE) := by
    decide +kernel
  refine ⟨hanswered, hdropped, fun h => ?_⟩
  have hsame := h ⟨0xC0A80101, 0xFFFFFF00⟩ 10 (dhcpServerStart 0xC0A80102 0xC0A801FE)
    (clientDatagram [2, 0, 0, 0, 0, 0xA] [53, 1, 3, 255]).datagram (fun _ => 0)
    fun i hi => datagram_of_le (le_trans (by decide +kernel) hi)
  rw [hsame, hdropped] at hanswered
  cases hanswered

end RtBoot
