import RtBoot.Dhcp

/-!
# The Lease Table and the Pool

The server hands out the addresses from `start` to `end`, in turn: `current` moves on until
it finds an address without a node, and goes back to `start` behind `end`. This module is
about the table that results. Its nodes have different hardware addresses and different
addresses, whatever the clients ask for; nodes stay; and a client that has a node is sent
that node's address. The addresses come from the pool as long as the cursor does, and the
cursor leaves the pool in one case only. The step from one address to the next is taken in
32 bits before it is compared with `end`, so when the pool ends with 255.255.255.255 the
address behind its end is 0.0.0.0, which is not greater than `end`.

## Main results

* `allocAgain_pool`: where the cursor can stop.
* `LeaseTable.step`: what one message keeps.
* `lease_table_kept`: the table after every message of a run.
* `lease_outside_pool`: a run that leaves the pool.
-/

namespace RtBoot

/-- The lease table: nodes have different hardware addresses and different addresses, and
these and the cursor are in the pool. -/
structure LeaseTable (s : DhcpState) : Prop where
  sixBytes : ∀ node ∈ s.server.nodeList, node.chaddr.length = 6
  chaddrs : (s.server.nodeList.map DhcpNode.chaddr).Nodup
  ipaddrs : (s.server.nodeList.map DhcpNode.ipaddr).Nodup
  inPool : ∀ node ∈ s.server.nodeList,
    s.server.start ≤ node.ipaddr ∧ node.ipaddr ≤ s.server.stop
  cursor : s.server.start ≤ s.server.current ∧ s.server.current ≤ s.server.stop

/-- What a message that leads from `s` to `t` keeps: the nodes stay, and an OFFER or ACK it is
answered with carries the address of the client's own node, if the client has one. -/
structure LeasesKept (s t : DhcpState) : Prop where
  nodes : ∀ node ∈ s.server.nodeList, node ∈ t.server.nodeList
  replies : ∃ new, t.sent = s.sent ++ new ∧ ∀ r ∈ new, IsGrant r →
    ∀ node ∈ t.server.nodeList, node.chaddr = replyChaddr r → replyYiaddr r = node.ipaddr

/-- The condition on a message. It matters for a pool that ends with 255.255.255.255 and does
not begin with 0.0.0.0: a DISCOVER for which the lookup finds nothing comes only while some
address from the cursor on has no node. -/
def PoolNotOverrun (s : DhcpState) (x : DhcpInput) : Prop :=
  s.server.stop = 0xFFFFFFFF → s.server.start ≠ 0 → IsDiscover x →
    dhcpClientFind s.server x.payload (1500 - dhcpOptionsOfs) = none →
      ∃ ip, s.server.current ≤ ip ∧ dhcpClientFindByIp s.server ip = none

/-! ### The cursor -/

variable {fuel : ℕ} {x : DhcpInput} {s : DhcpState} {netif : Netif}

/-- The cursor stops in the pool, if it does not have to move past 255.255.255.255. -/
theorem allocAgain_pool {server server' : DhcpServer}
    (halloc : allocAgain fuel server = some server')
    (hlo : server.start ≤ server.current) (hhi : server.current ≤ server.stop)
    (hroom : server.stop = 0xFFFFFFFF → server.start ≠ 0 →
      ∃ ip, server.current ≤ ip ∧ dhcpClientFindByIp server ip = none) :
    server.start ≤ server'.current ∧ server'.current ≤ server.stop := by
  induction fuel generalizing server with
  | zero => simp [allocAgain] at halloc
  | succ fuel ih =>
      rw [allocAgain] at halloc
      cases hfind : dhcpClientFindByIp server server.current with
      | none =>
          simp only [hfind, Option.some.injEq] at halloc
          subst halloc
          exact ⟨hlo, hhi⟩
      | some node =>
          simp only [hfind] at halloc
          -- a free address from the cursor on lies behind the cursor
          have hbehind : ∀ ip, server.current ≤ ip → dhcpClientFindByIp server ip = none →
              server.current < ip := by
            intro ip hle hfree
            have hne : server.current ≠ ip := by
              rintro rfl
              simp [hfind] at hfree
            bv_omega
          have hlo' : server.start ≤
              if server.stop < server.current + 1 then server.start else server.current + 1 := by
            split
            · exact BitVec.le_refl _
            · by_cases hstart : server.start = 0
              · rw [hstart]
                bv_omega
              · by_cases hmax : server.stop = 0xFFFFFFFF
                · obtain ⟨ip, hip, hfree⟩ := hroom hmax hstart
                  have := hbehind ip hip hfree
                  bv_omega
                · bv_omega
          have hhi' : (if server.stop < server.current + 1 then server.start
              else server.current + 1) ≤ server.stop := by
            split <;> bv_omega
          have hroom' : server.stop = 0xFFFFFFFF → server.start ≠ 0 →
              ∃ ip, (if server.stop < server.current + 1 then server.start
                else server.current + 1) ≤ ip ∧ dhcpClientFindByIp server ip = none := by
            intro hmax hstart
            obtain ⟨ip, hip, hfree⟩ := hroom hmax hstart
            have := hbehind ip hip hfree
            refine ⟨ip, ?_, hfree⟩
            split <;> bv_omega
          exact (ih halloc hlo' hhi' hroom' :)

/-! ### One message -/

/-- A client with a node is found by its hardware address. -/
theorem LeaseTable.find_eq (h : LeaseTable s)
    (hlen : msgHlen x.payload = 6) {node found : DhcpNode} (hnode : node ∈ s.server.nodeList)
    (hown : node.chaddr = msgChaddr x.payload)
    (hfind : dhcpClientFind s.server x.payload (1500 - dhcpOptionsOfs) = some found) :
    found = node := by
  have hsix : ∀ n ∈ s.server.nodeList, n.chaddr.take 6 = n.chaddr := fun n hn =>
    List.take_of_length_le (h.sixBytes n hn).le
  rw [dhcpClientFind, hlen] at hfind
  cases hmac : dhcpClientFindByMac s.server (msgChaddr x.payload) 6 with
  | none =>
      have := List.find?_eq_none.mp hmac node hnode
      simp [hown] at this
  | some own =>
      rw [hmac] at hfind
      obtain rfl : own = found := Option.some.inj hfind
      have hmem := List.mem_of_find?_eq_some hmac
      have heq : own.chaddr.take 6 = (msgChaddr x.payload).take 6 := by
        simpa using List.find?_some hmac
      rw [hsix own hmem, ← hown, hsix node hnode] at heq
      exact List.inj_on_of_nodup_map h.chaddrs hmem hnode heq

/-- **One message keeps the lease table**, when it meets the condition. -/
theorem LeaseTable.step {t : DhcpState}
    (h : LeaseTable s) (hmsg : IsClientMessage x) (hpool : PoolNotOverrun s x)
    (hstep : dhcpStep netif fuel s x = some t) : LeaseTable t ∧ LeasesKept s t := by
  rcases dhcpStep_cases hmsg hstep with
    rfl | ⟨found, options, hfind, rfl⟩ | rfl | ⟨server, hdiscover, hfind, halloc, ht⟩
  · exact ⟨h, fun _ hn => hn, [], by simp, fun r hr => absurd hr List.not_mem_nil⟩
  · refine ⟨⟨h.sixBytes, h.chaddrs, h.ipaddrs, h.inPool, h.cursor⟩, fun _ hn => hn, _, rfl, ?_⟩
    intro r hr _ node hnode hown
    obtain rfl := List.mem_singleton.mp hr
    rw [replyChaddr_makeReply] at hown
    rw [replyYiaddr_makeReply, h.find_eq hmsg.1 hnode hown hfind]
  · refine ⟨⟨h.sixBytes, h.chaddrs, h.ipaddrs, h.inPool, h.cursor⟩, fun _ hn => hn, _, rfl, ?_⟩
    intro r hr hgrant
    obtain rfl := List.mem_singleton.mp hr
    rw [IsGrant, replyType_makeReply netif x.payload 0 (by simp [nakOptions])] at hgrant
    exact absurd hgrant (by simp [nakOptions])
  · obtain ⟨hlist, hstart, hstop, hfree⟩ := allocAgain_spec halloc
    obtain ⟨hlo, hhi⟩ := allocAgain_pool halloc h.cursor.1 h.cursor.2
      fun hmax hne => hpool hmax hne hdiscover hfind
    rcases ht with rfl | ⟨options, rfl⟩
    · refine ⟨⟨?_, ?_, ?_, ?_, ?_⟩, ?_, [], by simp, fun r hr => absurd hr List.not_mem_nil⟩
      · simpa only [hlist] using h.sixBytes
      · simpa only [hlist] using h.chaddrs
      · simpa only [hlist] using h.ipaddrs
      · simpa only [hlist, hstart, hstop] using h.inPool
      · simpa only [hstart, hstop] using ⟨hlo, hhi⟩
      · simpa only [hlist] using fun _ hn => hn
    · have hnew := chaddr_notMem_of_find_eq_none hfind
      rw [hlist] at hfree
      simp only [hlist, hstart, hstop]
      refine ⟨⟨?_, ?_, ?_, ?_, ⟨hlo, hhi⟩⟩, fun _ hn => List.mem_cons_of_mem _ hn, _, rfl, ?_⟩
      · intro node hnode
        rcases List.mem_cons.mp hnode with rfl | hnode
        · exact length_msgChaddr _
        · exact h.sixBytes node hnode
      · exact List.nodup_cons.mpr ⟨hnew, h.chaddrs⟩
      · exact List.nodup_cons.mpr ⟨hfree, h.ipaddrs⟩
      · intro node hnode
        rcases List.mem_cons.mp hnode with rfl | hnode
        · exact ⟨hlo, hhi⟩
        · exact h.inPool node hnode
      · -- the client's only node is the new one
        intro r hr _ node hnode hown
        obtain rfl := List.mem_singleton.mp hr
        rw [replyChaddr_makeReply] at hown
        rw [replyYiaddr_makeReply]
        rcases List.mem_cons.mp hnode with rfl | hnode
        · rfl
        · exact absurd (List.mem_map.mpr ⟨node, hnode, hown⟩) hnew

/-! ### Runs -/

theorem leaseTable_start {start stop : BitVec 32} (h : start ≤ stop) :
    LeaseTable (dhcpServerStart start stop) :=
  ⟨by simp [dhcpServerStart], by simp [dhcpServerStart], by simp [dhcpServerStart],
    by simp [dhcpServerStart], BitVec.le_refl _, h⟩

/-- **The lease table after every message.** In every run of DISCOVER and REQUEST messages in
which the cursor does not have to move past 255.255.255.255, after every message the nodes
have different hardware addresses and different addresses of the pool, the cursor is in the
pool, the nodes from before are still there, and every OFFER or ACK to a client that has a
node carries that node's address. -/
theorem lease_table_kept {netif : Netif} {fuel : ℕ} {start stop : BitVec 32}
    (hpool : start ≤ stop) {inputs : List DhcpInput} {x : DhcpInput} {s t : DhcpState}
    (hmsg : ∀ y ∈ inputs ++ [x], IsClientMessage y)
    (hmeet : StepsMeet (dhcpStep netif fuel) PoolNotOverrun (dhcpServerStart start stop)
      (inputs ++ [x]))
    (hrun : exec (dhcpStep netif fuel) (dhcpServerStart start stop) inputs = some s)
    (hstep : dhcpStep netif fuel s x = some t) : LeaseTable t ∧ LeasesKept s t := by
  have hmeet' := hmeet.and_of_forall_mem hmsg
  obtain ⟨hbefore, hlast⟩ := hmeet'.of_append hrun
  have htable : LeaseTable s := exec_invariant (fun hok hi hs => (hi.step hok.1 hok.2 hs).1)
    hbefore (leaseTable_start hpool) hrun
  exact htable.step hlast.head.1 hlast.head.2 hstep

/-- No message moves the ends of the pool. -/
theorem dhcpStep_stop {t : DhcpState}
    (hmsg : IsClientMessage x) (hstep : dhcpStep netif fuel s x = some t) :
    t.server.stop = s.server.stop := by
  rcases dhcpStep_cases hmsg hstep with
    rfl | ⟨_, _, -, rfl⟩ | rfl | ⟨server, -, -, halloc, rfl | ⟨_, rfl⟩⟩
  · rfl
  · rfl
  · rfl
  · exact (allocAgain_spec halloc).2.2.1
  · exact (allocAgain_spec halloc).2.2.1

/-- Every run with a pool that does not end with 255.255.255.255 meets the condition. -/
theorem stepsMeet_of_stop_ne (hstop : s.server.stop ≠ 0xFFFFFFFF) {inputs : List DhcpInput}
    (hmsg : ∀ x ∈ inputs, IsClientMessage x) :
    StepsMeet (dhcpStep netif fuel) PoolNotOverrun s inputs := by
  induction inputs generalizing s with
  | nil => trivial
  | cons x inputs ih =>
      refine ⟨fun hmax => absurd hmax hstop, ?_⟩
      cases hs : dhcpStep netif fuel s x with
      | none => trivial
      | some t =>
          refine ih ?_ fun y hy => hmsg y (List.mem_cons_of_mem _ hy)
          rw [dhcpStep_stop (hmsg x List.mem_cons_self) hs]
          exact hstop

/-- Two clients in a pool of 253 addresses. -/
theorem lease_table_kept_two :
    ∃ s t, exec (dhcpStep ⟨0xC0A80101, 0xFFFFFF00⟩ 10) (dhcpServerStart 0xC0A80102 0xC0A801FE)
        [clientDatagram [2, 0, 0, 0, 0, 0xA] [53, 1, 1, 255]] = some s ∧
      dhcpStep ⟨0xC0A80101, 0xFFFFFF00⟩ 10 s
        (clientDatagram [2, 0, 0, 0, 0, 0xB] [53, 1, 1, 255]) = some t ∧
      t.server.nodeList.length = 2 ∧ LeaseTable t ∧ LeasesKept s t := by
  obtain ⟨s, hrun, t, hstep, hlen⟩ : ∃ s ∈ exec (dhcpStep ⟨0xC0A80101, 0xFFFFFF00⟩ 10)
        (dhcpServerStart 0xC0A80102 0xC0A801FE)
        [clientDatagram [2, 0, 0, 0, 0, 0xA] [53, 1, 1, 255]],
      ∃ t ∈ dhcpStep ⟨0xC0A80101, 0xFFFFFF00⟩ 10 s
        (clientDatagram [2, 0, 0, 0, 0, 0xB] [53, 1, 1, 255]),
      t.server.nodeList.length = 2 := by decide +kernel
  have hmsg : ∀ y ∈ [clientDatagram [2, 0, 0, 0, 0, 0xA] [53, 1, 1, 255]] ++
      [clientDatagram [2, 0, 0, 0, 0, 0xB] [53, 1, 1, 255]], IsClientMessage y := by
    decide +kernel
  exact ⟨s, t, hrun, hstep, hlen,
    lease_table_kept (by decide) hmsg (stepsMeet_of_stop_ne (by decide) hmsg) hrun hstep⟩

/-- The pool is the single address 255.255.255.255. Client A is offered it; for client B the
cursor moves on to 0.0.0.0, which has no node. -/
theorem lease_outside_pool :
    ∃ s, exec (dhcpStep ⟨0xC0A80101, 0xFFFFFF00⟩ 10) (dhcpServerStart 0xFFFFFFFF 0xFFFFFFFF)
        [clientDatagram [2, 0, 0, 0, 0, 0xA] [53, 1, 1, 255],
          clientDatagram [2, 0, 0, 0, 0, 0xB] [53, 1, 1, 255]] = some s ∧
      s.server.nodeList = [⟨[2, 0, 0, 0, 0, 0xB], 0⟩, ⟨[2, 0, 0, 0, 0, 0xA], 0xFFFFFFFF⟩] ∧
      ¬ LeaseTable s := by
  obtain ⟨s, hrun, hnodes, hstart⟩ : ∃ s ∈ exec (dhcpStep ⟨0xC0A80101, 0xFFFFFF00⟩ 10)
        (dhcpServerStart 0xFFFFFFFF 0xFFFFFFFF)
        [clientDatagram [2, 0, 0, 0, 0, 0xA] [53, 1, 1, 255],
          clientDatagram [2, 0, 0, 0, 0, 0xB] [53, 1, 1, 255]],
      s.server.nodeList = [⟨[2, 0, 0, 0, 0, 0xB], 0⟩, ⟨[2, 0, 0, 0, 0, 0xA], 0xFFFFFFFF⟩] ∧
      s.server.start = 0xFFFFFFFF := by decide +kernel
  refine ⟨s, hrun, hnodes, ?_⟩
  intro h
  have hlow := (h.inPool ⟨[2, 0, 0, 0, 0, 0xB], 0⟩ (by simp [hnodes])).1
  rw [hstart] at hlow
  exact absurd hlow (by decide)

end RtBoot
