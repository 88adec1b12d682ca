import Mathlib.Data.List.GetD
import RtBoot.Memory
import RtBoot.Run

/-!
# The DHCP Server

`dhcp_server_recv` answers one datagram: a DISCOVER with an OFFER, a REQUEST with an ACK or
a NAK, a RELEASE by dropping the client's node. The server keeps a list of nodes, one for
each lease, and a cursor `current` into its pool of addresses.

The datagram is copied into a fresh buffer of 1500 bytes and answered in place. The search
for options runs over the whole buffer, whatever the length of the datagram, so the model
reads a payload as a function from offsets to bytes: those of the datagram, and behind them
what memory happened to hold (`stale`).

A client is looked up by its hardware address and, failing that, by the address it asks
for. The second lookup finds the node of *any* client, and the reply hands out that node's
address.

## Main results

* `dhcpClientFind_own`: when a client without a lease does not ask for a leased address, a
  lookup finds its own node or none.
* `LeaseInv`: nodes have distinct hardware addresses and distinct addresses, and every
  OFFER and ACK sent so far carries the address of the client's own node.
* `leases_unique`: in every run whose messages ask for no foreign lease, no two clients are
  sent the same address.
* `lease_handed_out_twice`: a run in which two are.
-/

namespace RtBoot

/-! ### Payloads -/

/-- What stands at each offset from the start of the buffer. -/
abbrev Payload : Type :=
  ℕ → UInt8

/-- The four bytes of an address, in network order. -/
def ipBytes (ip : BitVec 32) : List UInt8 :=
  [0, 1, 2, 3].map fun k => UInt8.ofBitVec (wordByte ip k)

/-- The address at offset `i`. -/
def readIp (buf : Payload) (i : ℕ) : BitVec 32 :=
  (buf i).toBitVec ++ (buf (i + 1)).toBitVec ++ (buf (i + 2)).toBitVec ++ (buf (i + 3)).toBitVec

/-- Write bytes at offset `i`. -/
def putBytes (buf : Payload) (i : ℕ) (bytes : List UInt8) : Payload := fun j =>
  if i ≤ j then bytes.getD (j - i) (buf j) else buf j

/-- `DHCP_OPTIONS_OFS`. -/
def dhcpOptionsOfs : ℕ :=
  240

/-- The first six bytes of `msg->chaddr`. -/
def msgChaddr (buf : Payload) : List UInt8 :=
  (List.range 6).map fun i => buf (28 + i)

/-- `msg->hlen`. -/
def msgHlen (buf : Payload) : ℕ :=
  (buf 2).toNat

/-- The loop of `dhcp_server_option_find`: skip from option to option until one has the
code, or the end is reached. Each round moves on by at least two bytes, so as many rounds
as there are bytes are enough. -/
def optionLoop (buf : Payload) (option : UInt8) (stop : ℕ) : ℕ → ℕ → Option ℕ
  | 0, _ => none
  | rounds + 1, pos =>
      if pos < stop ∧ buf pos ≠ 255 then
        if buf pos = option then some pos
        else optionLoop buf option stop rounds (pos + ((buf (pos + 1)).toNat + 2))
      else none

/-- `dhcp_server_option_find` in the `len` bytes from `pos` on. -/
def dhcpServerOptionFind (buf : Payload) (pos len : ℕ) (option : UInt8) : Option ℕ :=
  optionLoop buf option (pos + len) len pos

/-! ### The server -/

/-- `struct dhcp_client_node`. -/
structure DhcpNode where
  chaddr : List UInt8
  ipaddr : BitVec 32
  deriving DecidableEq

/-- `struct dhcp_server`: the leases and the pool. -/
structure DhcpServer where
  nodeList : List DhcpNode
  start : BitVec 32
  stop : BitVec 32
  current : BitVec 32
  deriving DecidableEq

/-- The interface the server answers on. -/
structure Netif where
  ipAddr : BitVec 32
  netmask : BitVec 32

/-- A datagram, with what the handler finds in its surroundings: the old contents of the
buffer, the results of its two allocations, and the old contents of a new node. `len` is
the length of the first part of the datagram. -/
structure DhcpInput where
  len : ℕ
  bytes : List UInt8
  stale : ℕ → UInt8
  bufAlloc : Bool
  nodeAlloc : Bool
  nodeStale : List UInt8

/-- The buffer after `pbuf_copy`. -/
def DhcpInput.payload (x : DhcpInput) : Payload := fun i =>
  x.bytes.getD i (x.stale i)

/-- The server and the replies it has sent. -/
structure DhcpState where
  server : DhcpServer
  sent : List (List UInt8)
  deriving DecidableEq

/-- Why a handler does not return. -/
inductive DhcpHalt
  | searching
  | nullPointer
  deriving DecidableEq

/-- `dhcp_client_find_by_mac`. -/
def dhcpClientFindByMac (server : DhcpServer) (chaddr : List UInt8) (hlen : ℕ) :
    Option DhcpNode :=
  server.nodeList.find? fun node => node.chaddr.take hlen = chaddr.take hlen

/-- `dhcp_client_find_by_ip`. -/
def dhcpClientFindByIp (server : DhcpServer) (ip : BitVec 32) : Option DhcpNode :=
  server.nodeList.find? fun node => node.ipaddr = ip

/-- `dhcp_client_find`: by hardware address, then by requested address. -/
def dhcpClientFind (server : DhcpServer) (buf : Payload) (len : ℕ) : Option DhcpNode :=
  match dhcpClientFindByMac server (msgChaddr buf) (msgHlen buf) with
  | some node => some node
  | none =>
      match dhcpServerOptionFind buf dhcpOptionsOfs len 50 with
      | some opt => dhcpClientFindByIp server (readIp buf (opt + 2))
      | none => none

/-- The loop at `dhcp_alloc_again`: move `current` on to an address without a lease. -/
def allocAgain : ℕ → DhcpServer → Option DhcpServer
  | 0, _ => none
  | fuel + 1, server =>
      match dhcpClientFindByIp server server.current with
      | none => some server
      | some _ =>
          let ipaddr := server.current + 1
          allocAgain fuel
            { server with current := if server.stop < ipaddr then server.start else ipaddr }

/-- `dhcp_client_alloc`: the two lookups of `dhcp_client_find`, then a new node. Only
`hlen` bytes of its hardware address are written. -/
def dhcpClientAlloc (fuel : ℕ) (server : DhcpServer) (x : DhcpInput) (buf : Payload)
    (len : ℕ) : Except DhcpHalt (DhcpServer × Option DhcpNode) :=
  match dhcpClientFind server buf len with
  | some node => .ok (server, some node)
  | none =>
      match allocAgain fuel server with
      | none => .error .searching
      | some server =>
          if x.nodeAlloc then
            let node : DhcpNode :=
              ⟨(msgChaddr buf).take (msgHlen buf) ++ (x.nodeStale.take 6).drop (msgHlen buf),
                server.current⟩
            .ok ({ server with nodeList := node :: server.nodeList }, some node)
          else .ok (server, none)

/-- The loop of the RELEASE branch. It steps twice in a round: `before` are the nodes it has
passed, the last of them without looking at it. Unlinking a node that is not the first also
unlinks the one it did not look at. -/
def releaseLoop (chaddr : List UInt8) (hlen : ℕ) :
    List DhcpNode → List DhcpNode → Except DhcpHalt (List DhcpNode)
  | before, [] => .ok before
  | before, node :: rest =>
      if node.chaddr.take hlen = chaddr.take hlen then .ok (before.dropLast ++ rest)
      else
        match rest with
        | [] => .error .nullPointer
        | skipped :: rest => releaseLoop chaddr hlen (before ++ [node, skipped]) rest

/-- The options of an OFFER (`type` 2) or an ACK (`type` 5). -/
def leaseOptions (netif : Netif) (type : UInt8) : List UInt8 :=
  [53, 1, type, 54, 4] ++ ipBytes netif.ipAddr ++ [51, 4] ++ ipBytes 0x80510100 ++
    [1, 4] ++ ipBytes netif.netmask ++ [6, 4] ++ ipBytes netif.ipAddr ++
    [3, 4] ++ ipBytes netif.ipAddr ++ [255]

/-- The options of a NAK. -/
def nakOptions (netif : Netif) : List UInt8 :=
  [53, 1, 6, 54, 4] ++ ipBytes netif.ipAddr ++ [255]

/-- Turn the request in the buffer into a reply. -/
def replyPayload (netif : Netif) (buf : Payload) (yiaddr : BitVec 32)
    (options : List UInt8) : Payload :=
  let buf := putBytes buf 0 [2]
  let buf := putBytes buf 3 [0]
  let buf := putBytes buf 8 [0, 0]
  let buf := putBytes buf 20 (ipBytes netif.ipAddr)
  let buf := putBytes buf 44 [0]
  let buf := putBytes buf 108 [0]
  let buf := putBytes buf 236 [0x63, 0x82, 0x53, 0x63]
  let buf := putBytes buf 16 (ipBytes yiaddr)
  putBytes buf dhcpOptionsOfs options

/-- The bytes that are sent: the reply, cut behind its options. -/
def makeReply (netif : Netif) (buf : Payload) (yiaddr : BitVec 32) (options : List UInt8) :
    List UInt8 :=
  (List.range (dhcpOptionsOfs + options.length)).map (replyPayload netif buf yiaddr options)

/-- The part of `dhcp_server_recv` behind the checks of the header, for a message of type
`msgType`. -/
def handleMessage (netif : Netif) (fuel : ℕ) (s : DhcpState) (x : DhcpInput) (buf : Payload)
    (len : ℕ) (msgType : UInt8) : Except DhcpHalt DhcpState :=
  if msgType = 1 then
    match dhcpClientAlloc fuel s.server x buf len with
    | .error halt => .error halt
    | .ok (server, none) => .ok { s with server }
    | .ok (server, some node) =>
        .ok ⟨server, s.sent ++ [makeReply netif buf node.ipaddr (leaseOptions netif 2)]⟩
  else if msgType = 3 then
    match dhcpClientFind s.server buf len with
    | some node =>
        .ok { s with sent := s.sent ++ [makeReply netif buf node.ipaddr (leaseOptions netif 5)] }
    | none => .ok { s with sent := s.sent ++ [makeReply netif buf 0 (nakOptions netif)] }
  else if msgType = 7 then
    match releaseLoop (msgChaddr buf) (msgHlen buf) [] s.server.nodeList with
    | .error halt => .error halt
    | .ok nodeList => .ok { s with server := { s.server with nodeList } }
  else .ok s

/-- `dhcp_server_recv`. A datagram that fails a check is dropped. -/
def dhcpServerRecv (netif : Netif) (fuel : ℕ) (s : DhcpState) (x : DhcpInput) :
    Except DhcpHalt DhcpState :=
  if x.len < 44 ∨ x.bufAlloc = false ∨ 1500 < x.bytes.length then .ok s
  else if x.payload 0 ≠ 1 ∨ readIp x.payload 236 ≠ 0x63825363 ∨ 6 < msgHlen x.payload then .ok s
  else
    match dhcpServerOptionFind x.payload dhcpOptionsOfs (1500 - dhcpOptionsOfs) 53 with
    | none => .ok s
    | some opt =>
        handleMessage netif fuel s x x.payload (1500 - dhcpOptionsOfs) (x.payload (opt + 2))

/-- One message, handled to completion. -/
def dhcpStep (netif : Netif) (fuel : ℕ) (s : DhcpState) (x : DhcpInput) : Option DhcpState :=
  (dhcpServerRecv netif fuel s x).toOption

/-- The server `dhcp_server_start` sets up. -/
def dhcpServerStart (start stop : BitVec 32) : DhcpState :=
  ⟨⟨[], start, stop, start⟩, []⟩

/-! ### Replies -/

/-- The message type of a reply, the value of its first option. -/
def replyType (r : List UInt8) : UInt8 :=
  r.getD (dhcpOptionsOfs + 2) 0

/-- The address a reply hands out. -/
def replyYiaddr (r : List UInt8) : BitVec 32 :=
  readIp (fun i => r.getD i 0) 16

/-- The hardware address of the client a reply is meant for. -/
def replyChaddr (r : List UInt8) : List UInt8 :=
  msgChaddr fun i => r.getD i 0

/-- The reply is an OFFER or an ACK. -/
def IsGrant (r : List UInt8) : Prop :=
  replyType r = 2 ∨ replyType r = 5
  deriving Decidable

variable {buf : Payload} {netif : Netif} {node : DhcpNode} {s t : DhcpState} {x : DhcpInput}
  {server : DhcpServer} {fuel : ℕ}

theorem putBytes_of_lt {i j : ℕ} (bytes : List UInt8) (h : j < i) :
    putBytes buf i bytes j = buf j := by
  rw [putBytes, if_neg (by omega)]

theorem putBytes_of_le {i j : ℕ} {bytes : List UInt8}
    (h : i + bytes.length ≤ j) : putBytes buf i bytes j = buf j := by
  rw [putBytes, if_pos (by omega), List.getD_eq_default _ _ (by omega)]

theorem putBytes_add (buf : Payload) (i : ℕ) {k : ℕ} {bytes : List UInt8} (h : k < bytes.length) :
    putBytes buf i bytes (i + k) = bytes[k] := by
  rw [putBytes, if_pos (by omega), Nat.add_sub_cancel_left, List.getD_eq_getElem _ _ h]

@[simp] theorem length_ipBytes (ip : BitVec 32) : (ipBytes ip).length = 4 :=
  rfl

/-- An address is read back from its bytes. -/
theorem readIp_eq_of_bytes {i : ℕ} {ip : BitVec 32}
    (h : ∀ (k : ℕ) (hk : k < (ipBytes ip).length), buf (i + k) = (ipBytes ip)[k]) :
    readIp buf i = ip := by
  have h₀ := h 0 (by simp)
  rw [Nat.add_zero] at h₀
  rw [readIp, h₀, h 1 (by simp), h 2 (by simp), h 3 (by simp)]
  exact append_wordByte ip

theorem getD_makeReply {yiaddr : BitVec 32}
    {options : List UInt8} {i : ℕ} (h : i < dhcpOptionsOfs + options.length) :
    (makeReply netif buf yiaddr options).getD i 0 = replyPayload netif buf yiaddr options i := by
  rw [makeReply, List.getD_eq_getElem _ _ (by simpa using h), List.getElem_map, List.getElem_range]

/-- A reply carries the address it was made with. -/
theorem replyYiaddr_makeReply (netif : Netif) (buf : Payload) (yiaddr : BitVec 32)
    (options : List UInt8) : replyYiaddr (makeReply netif buf yiaddr options) = yiaddr := by
  refine readIp_eq_of_bytes ?_
  intro k hk
  have hk4 : k < 4 := hk
  rw [getD_makeReply (by rw [dhcpOptionsOfs]; omega), replyPayload,
    putBytes_of_lt _ (by rw [dhcpOptionsOfs]; omega), putBytes_add _ _ hk]

/-- A reply is for the client that sent the request. -/
theorem replyChaddr_makeReply (netif : Netif) (buf : Payload) (yiaddr : BitVec 32)
    (options : List UInt8) :
    replyChaddr (makeReply netif buf yiaddr options) = msgChaddr buf := by
  refine List.map_congr_left ?_
  intro k hk
  have hk : k < 6 := List.mem_range.mp hk
  dsimp only
  rw [getD_makeReply (by rw [dhcpOptionsOfs]; omega), replyPayload,
    putBytes_of_lt _ (by rw [dhcpOptionsOfs]; omega), putBytes_of_le (by simp; omega),
    putBytes_of_lt _ (by omega), putBytes_of_lt _ (by omega), putBytes_of_lt _ (by omega),
    putBytes_of_le (by simp; omega), putBytes_of_le (by simp; omega),
    putBytes_of_le (by simp; omega), putBytes_of_le (by simp; omega)]

/-- The type of a reply is the third byte of its options. -/
theorem replyType_makeReply (netif : Netif) (buf : Payload) (yiaddr : BitVec 32)
    {options : List UInt8} (h : 2 < options.length) :
    replyType (makeReply netif buf yiaddr options) = options[2] := by
  rw [replyType, getD_makeReply (by omega), replyPayload, putBytes_add _ _ h]

/-! ### Messages and lookups -/

/-- The server takes the datagram for a DISCOVER or a REQUEST with a hardware address of six
bytes. Where its search for the type is exact, the datagram is one. -/
def IsClientMessage (x : DhcpInput) : Prop :=
  msgHlen x.payload = 6 ∧
    ∃ opt ∈ dhcpServerOptionFind x.payload dhcpOptionsOfs (1500 - dhcpOptionsOfs) 53,
      x.payload (opt + 2) = 1 ∨ x.payload (opt + 2) = 3
  deriving Decidable

/-- The condition on a message: if its client has no node, then the address it asks for, if
any, has no node either. -/
def NoForeignRequest (s : DhcpState) (x : DhcpInput) : Prop :=
  dhcpClientFindByMac s.server (msgChaddr x.payload) (msgHlen x.payload) = none →
    ∀ opt ∈ dhcpServerOptionFind x.payload dhcpOptionsOfs (1500 - dhcpOptionsOfs) 50,
      dhcpClientFindByIp s.server (readIp x.payload (opt + 2)) = none
  deriving Decidable

/-- What holds of the leases and the replies as long as no message asks for a foreign
lease. -/
structure LeaseInv (s : DhcpState) : Prop where
  sixBytes : ∀ node ∈ s.server.nodeList, node.chaddr.length = 6
  chaddrs : (s.server.nodeList.map DhcpNode.chaddr).Nodup
  ipaddrs : (s.server.nodeList.map DhcpNode.ipaddr).Nodup
  grants : ∀ r ∈ s.sent, IsGrant r →
    ∃ node ∈ s.server.nodeList, node.chaddr = replyChaddr r ∧ node.ipaddr = replyYiaddr r

@[simp] theorem length_msgChaddr (buf : Payload) : (msgChaddr buf).length = 6 := by
  simp [msgChaddr]

/-- With six bytes compared, a node is found by its hardware address. -/
theorem LeaseInv.findByMac_eq_some (h : LeaseInv s)
    (hfind : dhcpClientFindByMac s.server (msgChaddr buf) 6 = some node) :
    node ∈ s.server.nodeList ∧ node.chaddr = msgChaddr buf := by
  have hmem := List.mem_of_find?_eq_some hfind
  have heq : node.chaddr.take 6 = (msgChaddr buf).take 6 := by
    simpa using List.find?_some hfind
  rw [List.take_of_length_le (h.sixBytes node hmem).le,
    List.take_of_length_le (length_msgChaddr buf).le] at heq
  exact ⟨hmem, heq⟩

/-- **A lookup finds the client's own node or none**, when the message asks for no foreign
lease. -/
theorem dhcpClientFind_own (h : LeaseInv s)
    (hlen : msgHlen x.payload = 6) (hreq : NoForeignRequest s x)
    (hfind : dhcpClientFind s.server x.payload (1500 - dhcpOptionsOfs) = some node) :
    node ∈ s.server.nodeList ∧ node.chaddr = msgChaddr x.payload := by
  rw [dhcpClientFind] at hfind
  cases hmac : dhcpClientFindByMac s.server (msgChaddr x.payload) (msgHlen x.payload) with
  | some own =>
      rw [hmac] at hfind
      obtain rfl : own = node := Option.some.inj hfind
      rw [hlen] at hmac
      exact h.findByMac_eq_some hmac
  | none =>
      rw [hmac] at hfind
      cases hopt : dhcpServerOptionFind x.payload dhcpOptionsOfs (1500 - dhcpOptionsOfs) 50 with
      | none => simp [hopt] at hfind
      | some opt => simp [hopt, hreq hmac opt hopt] at hfind

/-- A client for which the lookup finds nothing has no node. -/
theorem chaddr_notMem_of_find_eq_none {len : ℕ} (hfind : dhcpClientFind server buf len = none) :
    msgChaddr buf ∉ server.nodeList.map DhcpNode.chaddr := by
  intro hmem
  obtain ⟨node, hnode, heq⟩ := List.mem_map.mp hmem
  have hmac : dhcpClientFindByMac server (msgChaddr buf) (msgHlen buf) = none := by
    rw [dhcpClientFind] at hfind
    cases hmac : dhcpClientFindByMac server (msgChaddr buf) (msgHlen buf) with
    | none => rfl
    | some own => simp [hmac] at hfind
  have := List.find?_eq_none.mp hmac node hnode
  rw [heq] at this
  simp at this

/-- The allocation loop changes nothing but the cursor, and ends on an address without a
lease. -/
theorem allocAgain_spec {server' : DhcpServer} (h : allocAgain fuel server = some server') :
    server'.nodeList = server.nodeList ∧ server'.start = server.start ∧
      server'.stop = server.stop ∧ server'.current ∉ server'.nodeList.map DhcpNode.ipaddr := by
  induction fuel generalizing server with
  | zero => simp [allocAgain] at h
  | succ fuel ih =>
      rw [allocAgain] at h
      cases hfind : dhcpClientFindByIp server server.current with
      | some node =>
          simp only [hfind] at h
          exact (ih h :)
      | none =>
          simp only [hfind, Option.some.injEq] at h
          subst h
          refine ⟨rfl, rfl, rfl, ?_⟩
          intro hmem
          obtain ⟨node, hnode, heq⟩ := List.mem_map.mp hmem
          have := List.find?_eq_none.mp hfind node hnode
          simp [heq] at this

/-- The server takes the message for one that asks for an address. -/
def IsDiscover (x : DhcpInput) : Prop :=
  ∃ opt ∈ dhcpServerOptionFind x.payload dhcpOptionsOfs (1500 - dhcpOptionsOfs) 53,
    x.payload (opt + 2) = 1
  deriving Decidable

/-- The server takes the datagram for a DISCOVER or a REQUEST, whatever the length of its hardware
address. -/
def IsAddressMessage (x : DhcpInput) : Prop :=
  ∃ opt ∈ dhcpServerOptionFind x.payload dhcpOptionsOfs (1500 - dhcpOptionsOfs) 53,
    x.payload (opt + 2) = 1 ∨ x.payload (opt + 2) = 3
  deriving Decidable

/-- The hardware address of a new node: only `hlen` bytes of it are written. -/
def newChaddr (x : DhcpInput) : List UInt8 :=
  (msgChaddr x.payload).take (msgHlen x.payload) ++ (x.nodeStale.take 6).drop (msgHlen x.payload)

/-- **What a message can do**: it is dropped; it is answered from the node the lookup finds,
or with a NAK; or it is a DISCOVER for which the lookup finds nothing, and the cursor moves
on to a free address, for which there is memory for a node or not. -/
theorem dhcpStep_cases_of_address
    (hmsg : IsAddressMessage x) (hstep : dhcpStep netif fuel s x = some t) :
    t = s ∨
    (∃ node options, dhcpClientFind s.server x.payload (1500 - dhcpOptionsOfs) = some node ∧
      t = { s with sent := s.sent ++ [makeReply netif x.payload node.ipaddr options] }) ∨
    t = { s with sent := s.sent ++ [makeReply netif x.payload 0 (nakOptions netif)] } ∨
    ∃ server, IsDiscover x ∧
      dhcpClientFind s.server x.payload (1500 - dhcpOptionsOfs) = none ∧
      allocAgain fuel s.server = some server ∧
      (t = { s with server } ∨ ∃ options,
        t = ⟨{ server with nodeList := ⟨newChaddr x, server.current⟩ :: server.nodeList },
          s.sent ++ [makeReply netif x.payload server.current options]⟩) := by
  obtain ⟨opt, hopt, htype⟩ := hmsg
  have hdiscover : x.payload (opt + 2) = 1 → IsDiscover x := fun h => ⟨opt, hopt, h⟩
  rw [Option.mem_def] at hopt
  have hrecv : dhcpServerRecv netif fuel s x = .ok t := by
    rw [dhcpStep] at hstep
    cases hr : dhcpServerRecv netif fuel s x with
    | error halt => simp [hr, Except.toOption] at hstep
    | ok t' => rw [hr] at hstep; exact congrArg _ (Option.some.inj hstep)
  rw [dhcpServerRecv] at hrecv
  split_ifs at hrecv
  · exact .inl (Except.ok.inj hrecv).symm
  · exact .inl (Except.ok.inj hrecv).symm
  · simp only [hopt] at hrecv
    rcases htype with htype | htype
    · rw [htype, handleMessage, if_pos rfl, dhcpClientAlloc] at hrecv
      cases hfind : dhcpClientFind s.server x.payload (1500 - dhcpOptionsOfs) with
      | some node =>
          simp only [hfind, Except.ok.injEq] at hrecv
          exact .inr (.inl ⟨node, _, rfl, hrecv.symm⟩)
      | none =>
          cases halloc : allocAgain fuel s.server with
          | none => simp [hfind, halloc] at hrecv
          | some server =>
              refine .inr (.inr (.inr ⟨server, hdiscover htype, rfl, rfl, ?_⟩))
              simp only [hfind, halloc] at hrecv
              by_cases hnode : x.nodeAlloc = true
              · simp only [hnode, if_true, Except.ok.injEq] at hrecv
                exact .inr ⟨_, hrecv.symm⟩
              · simp only [hnode, Bool.false_eq_true, if_false, Except.ok.injEq] at hrecv
                exact .inl hrecv.symm
    · rw [htype, handleMessage, if_neg (by decide), if_pos rfl] at hrecv
      cases hfind : dhcpClientFind s.server x.payload (1500 - dhcpOptionsOfs) with
      | some node =>
          simp only [hfind, Except.ok.injEq] at hrecv
          exact .inr (.inl ⟨node, _, rfl, hrecv.symm⟩)
      | none =>
          simp only [hfind, Except.ok.injEq] at hrecv
          exact .inr (.inr (.inl hrecv.symm))

/-- With a hardware address of six bytes, the new node is the client's. -/
theorem dhcpStep_cases (hmsg : IsClientMessage x) (hstep : dhcpStep netif fuel s x = some t) :
    t = s ∨
    (∃ node options, dhcpClientFind s.server x.payload (1500 - dhcpOptionsOfs) = some node ∧
      t = { s with sent := s.sent ++ [makeReply netif x.payload node.ipaddr options] }) ∨
    t = { s with sent := s.sent ++ [makeReply netif x.payload 0 (nakOptions netif)] } ∨
    ∃ server, IsDiscover x ∧
      dhcpClientFind s.server x.payload (1500 - dhcpOptionsOfs) = none ∧
      allocAgain fuel s.server = some server ∧
      (t = { s with server } ∨ ∃ options,
        t = ⟨{ server with
            nodeList := ⟨msgChaddr x.payload, server.current⟩ :: server.nodeList },
          s.sent ++ [makeReply netif x.payload server.current options]⟩) := by
  have hchaddr : newChaddr x = msgChaddr x.payload := by
    rw [newChaddr, hmsg.1, List.take_of_length_le (length_msgChaddr _).le,
      List.drop_eq_nil_of_le (by simp), List.append_nil]
  rw [← hchaddr]
  exact dhcpStep_cases_of_address hmsg.2 hstep

/-! ### The invariant -/

theorem leaseInv_start (start stop : BitVec 32) : LeaseInv (dhcpServerStart start stop) := by
  constructor <;> simp [dhcpServerStart]

/-- A reply that, if it grants an address, grants that of the client's own node. -/
theorem LeaseInv.send (h : LeaseInv s) {reply : List UInt8}
    (hreply : IsGrant reply → ∃ node ∈ s.server.nodeList, node.chaddr = replyChaddr reply ∧
      node.ipaddr = replyYiaddr reply) : LeaseInv { s with sent := s.sent ++ [reply] } := by
  refine ⟨h.sixBytes, h.chaddrs, h.ipaddrs, ?_⟩
  intro r hr hgrant
  rcases List.mem_append.mp hr with hr | hr
  · exact h.grants r hr hgrant
  · obtain rfl := List.mem_singleton.mp hr
    exact hreply hgrant

/-- Sending the address of the client's own node. -/
theorem LeaseInv.sendGrant (h : LeaseInv s)
    (hnode : node ∈ s.server.nodeList) (hown : node.chaddr = msgChaddr buf) (netif : Netif)
    (options : List UInt8) :
    LeaseInv { s with sent := s.sent ++ [makeReply netif buf node.ipaddr options] } := by
  refine h.send ?_
  intro _
  exact ⟨node, hnode, by rw [replyChaddr_makeReply, hown], by rw [replyYiaddr_makeReply]⟩

/-- Sending a NAK grants nothing. -/
theorem LeaseInv.sendNak (h : LeaseInv s) (netif : Netif) (buf : Payload) :
    LeaseInv { s with sent := s.sent ++ [makeReply netif buf 0 (nakOptions netif)] } := by
  refine h.send ?_
  intro hgrant
  rw [IsGrant, replyType_makeReply netif buf 0 (by simp [nakOptions])] at hgrant
  exact absurd hgrant (by simp [nakOptions])

/-- A new node for a client that has none, with an address nobody has. -/
theorem LeaseInv.addNode (h : LeaseInv s) (hlist : server.nodeList = s.server.nodeList)
    (hsix : node.chaddr.length = 6) (hmac : node.chaddr ∉ s.server.nodeList.map DhcpNode.chaddr)
    (hip : node.ipaddr ∉ s.server.nodeList.map DhcpNode.ipaddr) :
    LeaseInv { s with server := { server with nodeList := node :: server.nodeList } } := by
  simp only [hlist]
  refine ⟨?_, ?_, ?_, ?_⟩
  · intro x hx
    rcases List.mem_cons.mp hx with rfl | hx
    · exact hsix
    · exact h.sixBytes x hx
  · exact List.nodup_cons.mpr ⟨hmac, h.chaddrs⟩
  · exact List.nodup_cons.mpr ⟨hip, h.ipaddrs⟩
  · intro r hr hgrant
    obtain ⟨x, hx, hxr⟩ := h.grants r hr hgrant
    exact ⟨x, List.mem_cons_of_mem _ hx, hxr⟩

theorem LeaseInv.moveCursor (h : LeaseInv s)
    (hlist : server.nodeList = s.server.nodeList) : LeaseInv { s with server } :=
  ⟨by rw [hlist]; exact h.sixBytes, by rw [hlist]; exact h.chaddrs,
    by rw [hlist]; exact h.ipaddrs, by simp only [hlist]; exact h.grants⟩

/-- One message keeps the invariant, when it meets the condition. -/
theorem LeaseInv.step (h : LeaseInv s) (hmsg : IsClientMessage x) (hreq : NoForeignRequest s x)
    (hstep : dhcpStep netif fuel s x = some t) : LeaseInv t := by
  rcases dhcpStep_cases hmsg hstep with
    rfl | ⟨node, options, hfind, rfl⟩ | rfl | ⟨server, -, hfind, halloc, ht⟩
  · exact h
  · obtain ⟨hnode, hown⟩ := dhcpClientFind_own h hmsg.1 hreq hfind
    exact h.sendGrant hnode hown netif _
  · exact h.sendNak netif _
  · obtain ⟨hlist, -, -, hfree⟩ := allocAgain_spec halloc
    rcases ht with rfl | ⟨options, rfl⟩
    · exact h.moveCursor hlist
    · have hadd : LeaseInv { s with server := { server with
          nodeList := ⟨msgChaddr x.payload, server.current⟩ :: server.nodeList } } :=
        h.addNode hlist (length_msgChaddr _) (chaddr_notMem_of_find_eq_none hfind)
          (hlist ▸ hfree)
      exact hadd.sendGrant List.mem_cons_self rfl netif _

/-- Two clients whose replies carry the same address are the same client. -/
theorem LeaseInv.unique (h : LeaseInv s) {r r' : List UInt8} (hr : r ∈ s.sent)
    (hr' : r' ∈ s.sent) (hg : IsGrant r) (hg' : IsGrant r')
    (hip : replyYiaddr r = replyYiaddr r') : replyChaddr r = replyChaddr r' := by
  obtain ⟨node, hnode, hmac, hnip⟩ := h.grants r hr hg
  obtain ⟨node', hnode', hmac', hnip'⟩ := h.grants r' hr' hg'
  have heq : node = node' := List.inj_on_of_nodup_map h.ipaddrs hnode hnode'
    (hnip.trans (hip.trans hnip'.symm))
  rw [← hmac, ← hmac', heq]

/-! ### Runs -/

/-- **No two clients are sent the same address** in any run of DISCOVER and REQUEST messages
in which no client without a node asks for the address of a node: OFFERs and ACKs with the
same address went to the same hardware address. -/
theorem leases_unique {netif : Netif} {fuel : ℕ} {start stop : BitVec 32}
    {inputs : List DhcpInput} {s : DhcpState} (hmsg : ∀ x ∈ inputs, IsClientMessage x)
    (hmeet : StepsMeet (dhcpStep netif fuel) NoForeignRequest (dhcpServerStart start stop) inputs)
    (hrun : exec (dhcpStep netif fuel) (dhcpServerStart start stop) inputs = some s) :
    ∀ r ∈ s.sent, ∀ r' ∈ s.sent, IsGrant r → IsGrant r' → replyYiaddr r = replyYiaddr r' →
      replyChaddr r = replyChaddr r' := by
  have hinv : LeaseInv s := exec_invariant (fun hok hi hs => hi.step hok.1 hok.2 hs)
    (hmeet.and_of_forall_mem hmsg) (leaseInv_start start stop) hrun
  intro r hr r' hr' hg hg' hip
  exact hinv.unique hr hr' hg hg' hip

/-- A datagram of a client: the header with its hardware address, and options. -/
def clientDatagram (chaddr options : List UInt8) : DhcpInput where
  len := dhcpOptionsOfs + options.length
  bytes := [1, 1, 6, 0] ++ List.replicate 24 0 ++ chaddr ++ List.replicate 202 0 ++
    [0x63, 0x82, 0x53, 0x63] ++ options
  stale := fun _ => 0
  bufAlloc := true
  nodeAlloc := true
  nodeStale := List.replicate 6 0

/-- Two clients that ask for nothing are offered two addresses. -/
theorem leases_unique_two :
    ∃ s, exec (dhcpStep ⟨0xC0A80101, 0xFFFFFF00⟩ 10) (dhcpServerStart 0xC0A80102 0xC0A801FE)
        [clientDatagram [2, 0, 0, 0, 0, 0xA] [53, 1, 1, 255],
          clientDatagram [2, 0, 0, 0, 0, 0xB] [53, 1, 1, 255]] = some s ∧ s.sent.length = 2 ∧
      ∀ r ∈ s.sent, ∀ r' ∈ s.sent, IsGrant r → IsGrant r' → replyYiaddr r = replyYiaddr r' →
        replyChaddr r = replyChaddr r' := by
  obtain ⟨s, hrun, hlen⟩ : ∃ s ∈ exec (dhcpStep ⟨0xC0A80101, 0xFFFFFF00⟩ 10)
        (dhcpServerStart 0xC0A80102 0xC0A801FE)
        [clientDatagram [2, 0, 0, 0, 0, 0xA] [53, 1, 1, 255],
          clientDatagram [2, 0, 0, 0, 0, 0xB] [53, 1, 1, 255]], s.sent.length = 2 := by
    decide +kernel
  exact ⟨s, hrun, hlen, leases_unique (by decide +kernel) (by decide +kernel) hrun⟩

/-- Client A is offered 192.168.1.2; then client B, which has no lease, asks for that address
in its DISCOVER and is offered it as well. -/
theorem lease_handed_out_twice :
    ∃ s, exec (dhcpStep ⟨0xC0A80101, 0xFFFFFF00⟩ 10) (dhcpServerStart 0xC0A80102 0xC0A801FE)
        [clientDatagram [2, 0, 0, 0, 0, 0xA] [53, 1, 1, 255],
          clientDatagram [2, 0, 0, 0, 0, 0xB] [53, 1, 1, 50, 4, 192, 168, 1, 2, 255]] = some s ∧
      ∃ r ∈ s.sent, ∃ r' ∈ s.sent, IsGrant r ∧ IsGrant r' ∧
        replyYiaddr r = replyYiaddr r' ∧ replyChaddr r ≠ replyChaddr r' := by
  have hrun : ∃ s ∈ exec (dhcpStep ⟨0xC0A80101, 0xFFFFFF00⟩ 10)
        (dhcpServerStart 0xC0A80102 0xC0A801FE)
        [clientDatagram [2, 0, 0, 0, 0, 0xA] [53, 1, 1, 255],
          clientDatagram [2, 0, 0, 0, 0, 0xB] [53, 1, 1, 50, 4, 192, 168, 1, 2, 255]],
      ∃ r ∈ s.sent, ∃ r' ∈ s.sent, IsGrant r ∧ IsGrant r' ∧
        replyYiaddr r = replyYiaddr r' ∧ replyChaddr r ≠ replyChaddr r' := by
    decide +kernel
  exact hrun

end RtBoot
