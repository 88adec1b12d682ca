import Mathlib.Data.List.Flatten
import RtBoot.Run
import RtBoot.Semaphore

/-!
# The Telnet Server

`process_rx` decodes what a telnet client sends, byte by byte, with a state that survives from
one receive chunk to the next: data bytes go to the receive ring, an `IAC` starts a command,
and a command to negotiate an option takes one more byte and is refused. `telnet_read`, called
by the shell from a thread of its own, takes the bytes out of the ring; the semaphore
`read_notice` tells it that there is one.

The model has both threads and every interleaving of their steps. Putting a byte into the ring
and getting one out of it are single steps (both hold `rx_ringbuffer_lock`), and so are taking
and releasing the semaphore (interrupts are off).

`TelnetItem` is the grammar of what a client may send: data, a doubled `IAC`, two-byte
commands, negotiations, and subnegotiations between `IAC SB` and `IAC SE`. `process_rx` has no
state for the last: it drops `IAC SB` as a command of two bytes, and what follows is data to
it.

## Main results

* `decoded_encodeItems`: what `process_rx` makes of a stream, item by item.
* `appended_eq_userData_iff`: exactly when the ring gets the user's data and nothing else.
-/

namespace RtBoot

/-- `RX_BUFFER_SIZE`. -/
def rxBufferSize : ℕ :=
  256

/-- `TX_BUFFER_SIZE`. -/
def txBufferSize : ℕ :=
  4096

/-- `ISO_cr`. -/
def isoCr : UInt8 :=
  0x0d

/-- `TELNET_IAC`. -/
def telnetIac : UInt8 :=
  255

/-- `TELNET_WILL`. -/
def telnetWill : UInt8 :=
  251

/-- `TELNET_WONT`. -/
def telnetWont : UInt8 :=
  252

/-- `TELNET_DO`. -/
def telnetDo : UInt8 :=
  253

/-- `TELNET_DONT`. -/
def telnetDont : UInt8 :=
  254

/-- The values of `telnet->state`. Nothing sets `STATE_CLOSE`. -/
inductive TelnetState
  | stateNormal
  | stateIac
  | stateWill
  | stateWont
  | stateDo
  | stateDont
  | stateClose
  deriving DecidableEq, Repr

/-- What `process_rx` does with a byte besides changing its state: nothing, put it into the
receive ring, put it there and release `read_notice`, or answer a negotiation. -/
inductive RxEffect
  | skip
  | putchar (ch : UInt8)
  | putcharNotice (ch : UInt8)
  | sendOption (option value : UInt8)
  deriving DecidableEq, Repr

/-- The `switch` of `process_rx` over the state, for one byte. -/
def rxSwitch (state : TelnetState) (data : UInt8) : TelnetState × RxEffect :=
  match state with
  | .stateIac =>
      if data = telnetIac then (.stateNormal, .putchar data)
      else if data = telnetWill then (.stateWill, .skip)
      else if data = telnetWont then (.stateWont, .skip)
      else if data = telnetDo then (.stateDo, .skip)
      else if data = telnetDont then (.stateDont, .skip)
      else (.stateNormal, .skip)
  | .stateWill | .stateWont => (.stateNormal, .sendOption telnetDont data)
  | .stateDo | .stateDont => (.stateNormal, .sendOption telnetWont data)
  | .stateNormal =>
      if data = telnetIac then (.stateIac, .skip)
      else if data ≠ isoCr then (.stateNormal, .putcharNotice data)
      else (.stateNormal, .skip)
  | .stateClose => (.stateClose, .skip)

/-! ### The session -/

/-- Where `process_rx` is: not called, in front of the next round of its loop, or in front of
`rt_sem_release` within a round. The bytes are those still to come. -/
inductive ProcessRxPc
  | idle
  | loop (data : List UInt8)
  | notice (data : List UInt8)
  deriving DecidableEq, Repr

/-- Where `telnet_read` is: not called, or in `rt_sem_take` and, once that has returned, in
front of the access to the ring. -/
inductive TelnetReadPc
  | idle
  | take
  deriving DecidableEq, Repr

/-- `struct telnet_session` with the two threads. The rings are bounded queues. Besides the
state of the program: what was sent to the client, the lengths given to `rx_indicate`, and the
results of `telnet_read`, where `none` is the NUL for an empty ring. `received` and `appended`
are the bytes that came from the client since the connection was made and those that went into
the receive ring since. -/
structure Telnet where
  rxRingbuffer : List UInt8
  txRingbuffer : List UInt8
  state : TelnetState
  readNotice : Semaphore 65536
  receiver : ProcessRxPc
  reader : TelnetReadPc
  sent : List UInt8
  indicated : List ℕ
  returned : List (Option UInt8)
  received : List UInt8
  appended : List UInt8
  deriving DecidableEq

/-- The session `telnet_server` creates. -/
def telnetInit : Telnet where
  rxRingbuffer := []
  txRingbuffer := []
  state := .stateNormal
  readNotice := .ofValue 0
  receiver := .idle
  reader := .idle
  sent := []
  indicated := []
  returned := []
  received := []
  appended := []

/-- The receive ring has room for a byte. -/
def Telnet.HasRoom (s : Telnet) : Prop :=
  s.rxRingbuffer.length < rxBufferSize
  deriving Decidable

/-- `rt_ringbuffer_putchar` on the receive ring: refused when the ring is full. -/
def Telnet.putchar (s : Telnet) (ch : UInt8) : Telnet :=
  if s.HasRoom then
    { s with rxRingbuffer := s.rxRingbuffer ++ [ch], appended := s.appended ++ [ch] }
  else s

/-- `send_option_to_client`: what fits goes into the transmit ring, and the ring is sent. -/
def Telnet.sendOptionToClient (s : Telnet) (option value : UInt8) : Telnet :=
  let space := txBufferSize - s.txRingbuffer.length
  let tx := s.txRingbuffer ++ [telnetIac, option, value].take space
  { s with txRingbuffer := [], sent := s.sent ++ tx }

/-- One round of the loop of `process_rx`, up to `rt_sem_release` where there is one. -/
def Telnet.processByte (s : Telnet) (data : UInt8) (rest : List UInt8) : Telnet :=
  let r := rxSwitch s.state data
  let s' := { s with state := r.1 }
  match r.2 with
  | .skip => { s' with receiver := .loop rest }
  | .putchar ch => { s'.putchar ch with receiver := .loop rest }
  | .putcharNotice ch => { s'.putchar ch with receiver := .notice rest }
  | .sendOption option value => { s'.sendOptionToClient option value with receiver := .loop rest }

/-- The next step of `process_rx`. -/
def Telnet.processRx (s : Telnet) : Option Telnet :=
  match s.receiver with
  | .idle => none
  | .loop (data :: rest) => some (s.processByte data rest)
  | .notice rest => some { s with readNotice := s.readNotice.release, receiver := .loop rest }
  | .loop [] =>
      let rxLength := s.rxRingbuffer.length
      if 0 < rxLength then
        some { s with receiver := .idle, indicated := s.indicated ++ [rxLength] }
      else some { s with receiver := .idle }

/-- The end of a `telnet_read` of one byte, behind `rt_sem_take`. -/
def Telnet.readRing (s : Telnet) : Telnet :=
  match s.rxRingbuffer with
  | [] => { s with reader := .idle, returned := s.returned ++ [none] }
  | ch :: ring => { s with
      rxRingbuffer := ring
      reader := .idle
      returned := s.returned ++ [some ch] }

/-- The steps: a connection is made, `process_rx` is called with a chunk and takes its next
step, `telnet_read` is called and, not suspended, goes on. -/
inductive TelnetAction
  | accept
  | recv (chunk : List UInt8)
  | process
  | read
  | get
  deriving DecidableEq

/-- One step. -/
def telnetStep (s : Telnet) : TelnetAction → Option Telnet
  | .accept =>
      if s.receiver = .idle then
        some { s with state := .stateNormal, received := [], appended := [] }
      else none
  | .recv chunk =>
      if s.receiver = .idle then
        some { s with receiver := .loop chunk, received := s.received ++ chunk }
      else none
  | .process => s.processRx
  | .read =>
      if s.reader = .idle then
        some { s with reader := .take, readNotice := s.readNotice.take }
      else none
  | .get => if s.reader = .take ∧ s.readNotice.waiting = false then some s.readRing else none

/-- All that a step can be. -/
inductive TelnetStep (s : Telnet) : TelnetAction → Telnet → Prop
  | accept (hidle : s.receiver = .idle) :
      TelnetStep s .accept { s with state := .stateNormal, received := [], appended := [] }
  | recv (chunk : List UInt8) (hidle : s.receiver = .idle) :
      TelnetStep s (.recv chunk)
        { s with receiver := .loop chunk, received := s.received ++ chunk }
  | byte (data : UInt8) (rest : List UInt8) (hpc : s.receiver = .loop (data :: rest)) :
      TelnetStep s .process (s.processByte data rest)
  | notice (rest : List UInt8) (hpc : s.receiver = .notice rest) :
      TelnetStep s .process
        { s with readNotice := s.readNotice.release, receiver := .loop rest }
  | done (indicated : List ℕ) (hpc : s.receiver = .loop []) :
      TelnetStep s .process { s with receiver := .idle, indicated := indicated }
  | read (hidle : s.reader = .idle) :
      TelnetStep s .read { s with reader := .take, readNotice := s.readNotice.take }
  | get (hpc : s.reader = .take) (hwait : s.readNotice.waiting = false) :
      TelnetStep s .get s.readRing

/-- What each step of the server can be. -/
theorem telnetStep_cases {s t : Telnet} {a : TelnetAction} (h : telnetStep s a = some t) :
    TelnetStep s a t := by
  cases a with
  | accept =>
      obtain ⟨hidle, ⟨⟩⟩ := Option.ite_none_right_eq_some.mp h
      exact .accept hidle
  | recv chunk =>
      obtain ⟨hidle, ⟨⟩⟩ := Option.ite_none_right_eq_some.mp h
      exact .recv chunk hidle
  | read =>
      obtain ⟨hidle, ⟨⟩⟩ := Option.ite_none_right_eq_some.mp h
      exact .read hidle
  | get =>
      obtain ⟨⟨hpc, hwait⟩, ⟨⟩⟩ := Option.ite_none_right_eq_some.mp h
      exact .get hpc hwait
  | process =>
      change s.processRx = some t at h
      unfold Telnet.processRx at h
      split at h
      case h_1 => cases h
      case h_2 data rest hpc =>
        cases h
        exact .byte data rest hpc
      case h_3 rest hpc =>
        cases h
        exact .notice rest hpc
      case h_4 hpc =>
        dsimp only at h
        split at h <;> cases h
        · exact .done _ hpc
        · exact .done s.indicated hpc

/-- What the next step of `process_rx` does with a byte. -/
def Telnet.nextEffect (s : Telnet) : RxEffect :=
  match s.receiver with
  | .loop (data :: _) => (rxSwitch s.state data).2
  | _ => .skip

/-- The byte an effect puts into the ring. -/
def RxEffect.bytes : RxEffect → List UInt8
  | .putchar ch => [ch]
  | .putcharNotice ch => [ch]
  | _ => []

/-- A byte that the step puts into the ring finds room there. -/
def RingHasRoom (s : Telnet) (a : TelnetAction) : Prop :=
  a = .process → s.nextEffect.bytes ≠ [] → s.HasRoom
  deriving Decidable

/-! ### Decoding a stream -/

/-- The state behind a stream. -/
def decodeState (state : TelnetState) (stream : List UInt8) : TelnetState :=
  stream.foldl (fun st data => (rxSwitch st data).1) state

/-- What a stream puts into the ring, as long as there is room. -/
def decoded (state : TelnetState) : List UInt8 → List UInt8
  | [] => []
  | data :: stream =>
      (rxSwitch state data).2.bytes ++ decoded (rxSwitch state data).1 stream

theorem decodeState_append (state : TelnetState) (xs ys : List UInt8) :
    decodeState state (xs ++ ys) = decodeState (decodeState state xs) ys :=
  List.foldl_append

theorem decoded_append (state : TelnetState) (xs ys : List UInt8) :
    decoded state (xs ++ ys) = decoded state xs ++ decoded (decodeState state xs) ys := by
  induction xs generalizing state with
  | nil => rfl
  | cons data xs ih =>
      rw [List.cons_append, decoded, decoded, ih, List.append_assoc]
      rfl

/-- The bytes that `process_rx` has still to take. -/
def ProcessRxPc.rest : ProcessRxPc → List UInt8
  | .idle => []
  | .loop data => data
  | .notice data => data

/-- The session has come to some point of the stream: state and ring are those that the bytes
up to there lead to. -/
def Decodes (s : Telnet) : Prop :=
  ∃ past, s.received = past ++ s.receiver.rest ∧ s.state = decodeState .stateNormal past ∧
    s.appended = decoded .stateNormal past

theorem Telnet.putchar_of_hasRoom {s : Telnet} (h : s.HasRoom) (ch : UInt8) :
    s.putchar ch =
      { s with rxRingbuffer := s.rxRingbuffer ++ [ch], appended := s.appended ++ [ch] } :=
  if_pos h

theorem Telnet.putchar_of_not_hasRoom {s : Telnet} (h : ¬ s.HasRoom) (ch : UInt8) :
    s.putchar ch = s :=
  if_neg h

/-- What a round of the loop does to the fields that decoding is about. -/
theorem Telnet.processByte_decode {s : Telnet} {data : UInt8} (rest : List UInt8)
    (hroom : (rxSwitch s.state data).2.bytes ≠ [] → s.HasRoom) :
    (s.processByte data rest).received = s.received ∧
      (s.processByte data rest).receiver.rest = rest ∧
      (s.processByte data rest).state = (rxSwitch s.state data).1 ∧
      (s.processByte data rest).appended = s.appended ++ (rxSwitch s.state data).2.bytes := by
  have hput : ∀ ch, (rxSwitch s.state data).2.bytes = [ch] →
      { s with state := (rxSwitch s.state data).1 }.HasRoom := by
    intro ch hch
    exact hroom (hch ▸ List.cons_ne_nil _ _)
  unfold processByte
  dsimp only
  split
  case h_1 heff => exact ⟨rfl, rfl, rfl, by rw [heff]; exact (List.append_nil _).symm⟩
  case h_2 ch heff =>
    rw [Telnet.putchar_of_hasRoom (hput ch (by rw [heff]; rfl)), heff]
    exact ⟨rfl, rfl, rfl, rfl⟩
  case h_3 ch heff =>
    rw [Telnet.putchar_of_hasRoom (hput ch (by rw [heff]; rfl)), heff]
    exact ⟨rfl, rfl, rfl, rfl⟩
  case h_4 heff => exact ⟨rfl, rfl, rfl, by rw [heff]; exact (List.append_nil _).symm⟩

/-- A step other than a new connection and a round of the loop leaves alone what decoding is
about, up to bytes that come in. -/
theorem Decodes.of_eq {s t : Telnet} (h : Decodes s) (new : List UInt8)
    (hrest : t.receiver.rest = s.receiver.rest ++ new) (hreceived : t.received = s.received ++ new)
    (hstate : t.state = s.state) (happended : t.appended = s.appended) : Decodes t := by
  obtain ⟨past, hpast, hdec, happ⟩ := h
  refine ⟨past, ?_, hstate.trans hdec, happended.trans happ⟩
  rw [hreceived, hpast, hrest, List.append_assoc]

/-- Every step keeps to the stream, as long as the ring has room. -/
theorem Decodes.step {s t : Telnet} {a : TelnetAction} (hroom : RingHasRoom s a)
    (h : Decodes s) (hstep : telnetStep s a = some t) : Decodes t := by
  cases telnetStep_cases hstep with
  | accept hidle =>
      refine ⟨[], ?_, rfl, rfl⟩
      change [] = [] ++ s.receiver.rest
      rw [hidle]
      rfl
  | recv chunk hidle => exact h.of_eq chunk (by rw [hidle]; rfl) rfl rfl rfl
  | notice rest hpc =>
      exact h.of_eq [] (by rw [hpc, List.append_nil]; rfl) (List.append_nil _).symm rfl rfl
  | done indicated hpc => exact h.of_eq [] (by rw [hpc]; rfl) (List.append_nil _).symm rfl rfl
  | read hidle => exact h.of_eq [] (List.append_nil _).symm (List.append_nil _).symm rfl rfl
  | get hpc hwait =>
      unfold Telnet.readRing
      split <;> exact h.of_eq [] (List.append_nil _).symm (List.append_nil _).symm rfl rfl
  | byte data rest hpc =>
      obtain ⟨past, hpast, hdec, happ⟩ := h
      have hroom' : (rxSwitch s.state data).2.bytes ≠ [] → s.HasRoom := by
        have := hroom rfl
        rwa [Telnet.nextEffect, hpc] at this
      obtain ⟨hreceived, hrest, hstate, happended⟩ := Telnet.processByte_decode rest hroom'
      refine ⟨past ++ [data], ?_, ?_, ?_⟩
      · rw [hreceived, hrest, hpast, hpc, List.append_assoc]
        rfl
      · rw [hstate, decodeState_append, hdec]
        rfl
      · rw [happended, decoded_append, happ, hdec]
        simp only [decoded, List.append_nil]

/-- The session along a run. -/
theorem decodes_of_run {as : List TelnetAction} {s : Telnet}
    (hroom : StepsMeet telnetStep RingHasRoom telnetInit as)
    (hrun : exec telnetStep telnetInit as = some s) : Decodes s := by
  have hstep : ∀ {s a t}, RingHasRoom s a → Decodes s → telnetStep s a = some t → Decodes t :=
    fun hroom h hstep => h.step hroom hstep
  exact exec_invariant hstep hroom ⟨[], rfl, rfl, rfl⟩ hrun

/-! ### What a client sends -/

/-- The verbs of an option negotiation. -/
inductive TelnetVerb
  | will
  | wont
  | doOption
  | dont
  deriving DecidableEq, Repr

/-- The byte of a verb. -/
def TelnetVerb.code : TelnetVerb → UInt8
  | .will => telnetWill
  | .wont => telnetWont
  | .doOption => telnetDo
  | .dont => telnetDont

/-- The begin of a subnegotiation. The source has no name for it. -/
def telnetSb : UInt8 :=
  250

/-- The end of a subnegotiation. -/
def telnetSe : UInt8 :=
  240

/-- The items of a stream: a data byte other than `IAC`, the data byte 255, a command from
`NOP` to `GA`, the negotiation of an option, and a subnegotiation with its option and
parameters. -/
inductive TelnetItem
  | data (b : {b : UInt8 // b ≠ telnetIac})
  | doubledIac
  | command (c : {c : UInt8 // 241 ≤ c ∧ c ≤ 249})
  | negotiation (verb : TelnetVerb) (option : UInt8)
  | subnegotiation (content : List UInt8)

/-- A byte within data or a subnegotiation: `IAC` is doubled. -/
def escaped (b : UInt8) : List UInt8 :=
  if b = telnetIac then [telnetIac, telnetIac] else [b]

/-- The bytes of an item. -/
def TelnetItem.encode : TelnetItem → List UInt8
  | .data b => [b.1]
  | .doubledIac => [telnetIac, telnetIac]
  | .command c => [telnetIac, c.1]
  | .negotiation verb option => [telnetIac, verb.code, option]
  | .subnegotiation content =>
      [telnetIac, telnetSb] ++ content.flatMap escaped ++ [telnetIac, telnetSe]

/-- The bytes of a stream. -/
def encodeItems (items : List TelnetItem) : List UInt8 :=
  items.flatMap TelnetItem.encode

/-- The data byte of an item. -/
def TelnetItem.dataBytes : TelnetItem → List UInt8
  | .data b => [b.1]
  | .doubledIac => [telnetIac]
  | _ => []

/-- The data of a stream, without carriage returns. -/
def userData (items : List TelnetItem) : List UInt8 :=
  (items.flatMap TelnetItem.dataBytes).filter (· ≠ isoCr)

/-- The content of a subnegotiation, without carriage returns: what should not be
delivered. -/
def TelnetItem.leaked : TelnetItem → List UInt8
  | .subnegotiation content => content.filter (· ≠ isoCr)
  | _ => []

/-- What `process_rx` makes of an item in its normal state. -/
def TelnetItem.delivered (item : TelnetItem) : List UInt8 :=
  item.dataBytes.filter (· ≠ isoCr) ++ item.leaked

/-- A byte within data or a subnegotiation. -/
theorem decode_escaped (b : UInt8) :
    decodeState .stateNormal (escaped b) = .stateNormal ∧
      decoded .stateNormal (escaped b) = [b].filter (· ≠ isoCr) := by
  unfold escaped
  by_cases hiac : b = telnetIac
  · subst hiac
    decide
  · by_cases hcr : b = isoCr
    · subst hcr
      decide
    · simp [hiac, hcr, decodeState, decoded, rxSwitch, RxEffect.bytes]

/-- The content of a subnegotiation, read as data. -/
theorem decode_content (content : List UInt8) :
    decodeState .stateNormal (content.flatMap escaped) = .stateNormal ∧
      decoded .stateNormal (content.flatMap escaped) = content.filter (· ≠ isoCr) := by
  induction content with
  | nil => exact ⟨rfl, rfl⟩
  | cons b content ih =>
      obtain ⟨hstate, hbytes⟩ := decode_escaped b
      rw [List.flatMap_cons, decodeState_append, decoded_append, hstate, hbytes, ih.1, ih.2,
        ← List.filter_append]
      exact ⟨rfl, rfl⟩

/-- What `process_rx` makes of an item: it is back in its normal state behind it. -/
theorem TelnetItem.decode_encode (item : TelnetItem) :
    decodeState .stateNormal item.encode = .stateNormal ∧
      decoded .stateNormal item.encode = item.delivered := by
  cases item with
  | data b =>
      have hplain : escaped b.1 = [b.1] := if_neg b.2
      have hdec := decode_escaped b.1
      rw [hplain] at hdec
      exact ⟨hdec.1, hdec.2.trans (List.append_nil _).symm⟩
  | doubledIac => decide
  | command c =>
      obtain ⟨c, hlow, hhigh⟩ := c
      have hne : ∀ v : UInt8, 249 < v → c ≠ v := by
        rintro v hv rfl
        exact absurd hhigh (UInt8.not_le.mpr hv)
      have hstep : rxSwitch .stateIac c = (.stateNormal, .skip) := by
        simp only [rxSwitch, hne telnetIac (by decide), hne telnetWill (by decide),
          hne telnetWont (by decide), hne telnetDo (by decide), hne telnetDont (by decide),
          if_false]
      simp [encode, decodeState, decoded, delivered, dataBytes, leaked, hstep, RxEffect.bytes,
        show rxSwitch .stateNormal telnetIac = (.stateIac, .skip) from rfl]
  | negotiation verb option => cases verb <;> exact ⟨rfl, rfl⟩
  | subnegotiation content =>
      obtain ⟨hstate, hbytes⟩ := decode_content content
      -- `IAC SB` leads back to the normal state, and so does `IAC SE`.
      have hopen : decodeState .stateNormal [telnetIac, telnetSb] = .stateNormal ∧
          decoded .stateNormal [telnetIac, telnetSb] = [] := by decide
      have hclose : decodeState .stateNormal [telnetIac, telnetSe] = .stateNormal ∧
          decoded .stateNormal [telnetIac, telnetSe] = [] := by decide
      rw [encode, decodeState_append, decodeState_append, decoded_append, decoded_append,
        decodeState_append, hopen.1, hopen.2, hstate, hbytes, hclose.1, hclose.2]
      exact ⟨rfl, by simp [delivered, dataBytes, leaked]⟩

/-- What `process_rx` makes of a stream. -/
theorem decoded_encodeItems (items : List TelnetItem) :
    decoded .stateNormal (encodeItems items) = items.flatMap TelnetItem.delivered := by
  induction items with
  | nil => rfl
  | cons item items ih =>
      obtain ⟨hstate, hbytes⟩ := item.decode_encode
      rw [encodeItems, List.flatMap_cons, decoded_append, hstate, hbytes, List.flatMap_cons, ← ih,
        encodeItems]

/-- What is delivered is the user's data, plus what leaks. -/
theorem length_delivered (items : List TelnetItem) :
    (items.flatMap TelnetItem.delivered).length =
      (userData items).length + (items.flatMap TelnetItem.leaked).length := by
  induction items with
  | nil => rfl
  | cons item items ih =>
      simp only [List.flatMap_cons, List.length_append, ih, userData, TelnetItem.delivered,
        List.filter_append]
      omega

/-- Nothing else is delivered exactly if nothing leaks. -/
theorem delivered_eq_userData_iff (items : List TelnetItem) :
    items.flatMap TelnetItem.delivered = userData items ↔ ∀ item ∈ items, item.leaked = [] := by
  constructor
  · intro h
    have hlen := length_delivered items
    rw [h] at hlen
    have hnil : items.flatMap TelnetItem.leaked = [] := List.length_eq_zero_iff.mp (by omega)
    exact List.flatMap_eq_nil_iff.mp hnil
  · intro h
    rw [userData, List.filter_flatMap]
    refine List.flatMap_congr fun item hitem => ?_
    rw [TelnetItem.delivered, h item hitem, List.append_nil]

/-- The item brings no byte but carriage returns in a subnegotiation. -/
def TelnetItem.Quiet : TelnetItem → Prop
  | .subnegotiation content => ∀ b ∈ content, b = isoCr
  | _ => True

theorem TelnetItem.leaked_eq_nil_iff (item : TelnetItem) : item.leaked = [] ↔ item.Quiet := by
  cases item with
  | subnegotiation content =>
      rw [leaked, Quiet, List.filter_eq_nil_iff]
      simp only [decide_eq_true_eq, not_not]
  | _ => exact iff_of_true rfl trivial

/-- **What reaches the receive ring.** For every stream, split into chunks in any way, and every
interleaving with the reader in which the ring has room: the ring gets exactly the stream's
data without carriage returns if and only if no subnegotiation has a byte other than carriage
returns. -/
theorem appended_eq_userData_iff (as : List TelnetAction) {s : Telnet} {items : List TelnetItem}
    (hroom : StepsMeet telnetStep RingHasRoom telnetInit as)
    (hrun : exec telnetStep telnetInit as = some s) (hidle : s.receiver = .idle)
    (hstream : s.received = encodeItems items) :
    s.appended = userData items ↔ ∀ item ∈ items, item.Quiet := by
  obtain ⟨past, hpast, -, happ⟩ := decodes_of_run hroom hrun
  rw [hidle] at hpast
  have hall : past = encodeItems items := by
    rw [← hstream, hpast]
    exact (List.append_nil past).symm
  rw [happ, hall, decoded_encodeItems, delivered_eq_userData_iff]
  exact forall₂_congr fun item _ => item.leaked_eq_nil_iff

/-- A doubled `IAC` and a negotiation split between chunks, a command, and a subnegotiation of
a carriage return, with a read in between. -/
def mixedRun : List TelnetAction :=
  .recv [108, 13, 255] :: List.replicate 5 .process ++ [.read, .get] ++
    .recv [255, 255, 253] :: List.replicate 4 .process ++
    .recv [1, 255, 241, 115, 255, 250, 13, 255, 240] :: List.replicate 11 .process

theorem appended_eq_userData_mixed :
    ∃ s, exec telnetStep telnetInit mixedRun = some s ∧
      s.appended = userData [.data ⟨108, by decide⟩, .data ⟨13, by decide⟩, .doubledIac,
        .negotiation .doOption 1, .command ⟨241, by decide⟩, .data ⟨115, by decide⟩,
        .subnegotiation [13]] := by
  refine ⟨_, rfl, (appended_eq_userData_iff mixedRun (by decide) rfl rfl rfl).mpr ?_⟩
  simp [TelnetItem.Quiet, isoCr]

/-- A client that names its terminal: the shell gets the option, the code and the name. -/
theorem subnegotiation_reaches_ring :
    ∃ s, exec telnetStep telnetInit
        (.recv (encodeItems [.subnegotiation [24, 0, 120, 116]]) :: List.replicate 13 .process) =
        some s ∧
      s.receiver = .idle ∧ s.appended = [24, 0, 120, 116] ∧
      userData [.subnegotiation [24, 0, 120, 116]] = [] :=
  ⟨_, rfl, rfl, rfl, rfl⟩

end RtBoot
