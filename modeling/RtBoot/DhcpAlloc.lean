import RtBoot.DhcpPool

/-!
# Running out of Addresses

`dhcp_client_alloc` moves `current` from address to address until it finds one without a node.
There is nothing else that ends the search. As long as only DISCOVERs and REQUESTs come in,
nodes are never removed, and the addresses in front of the cursor are all taken; so a free
address is found ahead of the cursor, in as many moves as the pool has addresses at most. When
every address of the pool is taken, the cursor goes round for ever.

A pool that ends with 255.255.255.255 is different: there the cursor leaves the pool behind its
end, and the search ends on the next address of the whole address space that is free.

## Main results

* `allocAgain_isSome`, `allocAgain_eq_none`: when the search ends.
* `CursorInv`: what is behind the cursor, in every state reached.
* `alloc_returns_iff`: when `dhcp_client_alloc` returns as it should.
-/

namespace RtBoot

/-- Every address of the pool has a node. -/
def PoolFull (server : DhcpServer) : Prop :=
  ∀ ip, server.start ≤ ip → ip ≤ server.stop → dhcpClientFindByIp server ip ≠ none

/-- The number of addresses of the pool. -/
def poolSize (server : DhcpServer) : ℕ :=
  server.stop.toNat - server.start.toNat + 1

/-- What is wanted of `dhcp_client_alloc`: it returns; when the client is not known and the
pool is full it returns no node; and when the pool is not full it examines no more addresses
than the pool has. -/
structure AllocReturns (server : DhcpServer) (x : DhcpInput) : Prop where
  terminates : ∃ fuel r,
    dhcpClientAlloc fuel server x x.payload (1500 - dhcpOptionsOfs) = .ok r
  full : PoolFull server →
    dhcpClientFind server x.payload (1500 - dhcpOptionsOfs) = none → ∃ fuel server',
      dhcpClientAlloc fuel server x x.payload (1500 - dhcpOptionsOfs) = .ok (server', none)
  bounded : ¬ PoolFull server → ∃ r,
    dhcpClientAlloc (poolSize server) server x x.payload (1500 - dhcpOptionsOfs) = .ok r

/-! ### The search -/

/-- Where the cursor moves from an address that is taken. -/
def nextCursor (server : DhcpServer) : BitVec 32 :=
  if server.stop < server.current + 1 then server.start else server.current + 1

variable {server : DhcpServer} {x : DhcpInput}

theorem allocAgain_of_free (h : dhcpClientFindByIp server server.current = none) (fuel : ℕ) :
    allocAgain (fuel + 1) server = some server := by
  rw [allocAgain, h]

theorem allocAgain_of_taken (h : dhcpClientFindByIp server server.current ≠ none) (fuel : ℕ) :
    allocAgain (fuel + 1) server =
      allocAgain fuel { server with current := nextCursor server } := by
  obtain ⟨node, hnode⟩ := Option.ne_none_iff_exists'.mp h
  rw [allocAgain, hnode]
  rfl

/-- The search ends on a free address `d` ahead, if the cursor does not turn back before. -/
theorem allocAgain_isSome {d fuel : ℕ}
    (hfree : dhcpClientFindByIp server (addr server.current d) = none)
    (hahead : ∀ k < d, ¬ server.stop < addr server.current k + 1)
    (hfuel : d < fuel) : (allocAgain fuel server).isSome := by
  induction d generalizing server fuel with
  | zero =>
      obtain ⟨fuel, rfl⟩ := Nat.exists_eq_add_of_le' hfuel
      rw [addr_zero] at hfree
      rw [allocAgain_of_free hfree]
      rfl
  | succ d ih =>
      obtain ⟨fuel, rfl⟩ := Nat.exists_eq_add_of_le' (Nat.one_le_of_lt hfuel)
      by_cases hcur : dhcpClientFindByIp server server.current = none
      · rw [allocAgain_of_free hcur]
        rfl
      · have hnext : nextCursor server = addr server.current 1 := by
          have := hahead 0 (Nat.succ_pos d)
          rw [addr_zero] at this
          exact if_neg this
        have hmove : ∀ k, addr (addr server.current 1) k = addr server.current (k + 1) := by
          intro k
          rw [addr_addr, Nat.add_comm]
        rw [allocAgain_of_taken hcur, hnext]
        refine ih ?_ ?_ (by omega)
        · exact (congrArg (dhcpClientFindByIp server) (hmove d)).trans hfree
        · intro k hk
          dsimp only
          rw [hmove]
          exact hahead (k + 1) (by omega)

/-- The distance of an address from the cursor. -/
theorem addr_toNat_sub (current ip : BitVec 32) : addr current (ip - current).toNat = ip := by
  rw [addr, BitVec.ofNat_toNat, BitVec.setWidth_eq, add_sub_cancel]

/-- Where every address the cursor comes to is taken, the search does not end. -/
theorem allocAgain_eq_none {P : BitVec 32 → Prop}
    (htaken : ∀ ip, P ip → dhcpClientFindByIp server ip ≠ none)
    (hnext : ∀ ip, P ip → P (nextCursor { server with current := ip }))
    (hcur : P server.current) (fuel : ℕ) : allocAgain fuel server = none := by
  induction fuel generalizing server with
  | zero => rfl
  | succ fuel ih =>
      rw [allocAgain_of_taken (htaken _ hcur)]
      exact ih (fun ip hip => htaken ip hip) (fun ip hip => hnext ip hip) (hnext _ hcur)

/-! ### Behind the cursor -/

/-- What holds of the cursor in every state reached by DISCOVERs and REQUESTs: behind it every
address of the pool is taken, and it is in the pool, as long as the pool is not full or does
not end with 255.255.255.255. -/
structure CursorInv (server : DhcpServer) : Prop where
  behind : PoolFull server ∨ ∀ ip, server.start ≤ ip → ip < server.current →
    dhcpClientFindByIp server ip ≠ none
  inPool : server.stop ≠ 0xFFFFFFFF ∨ ¬ PoolFull server →
    server.start ≤ server.current ∧ server.current ≤ server.stop

section
variable {server server' : DhcpServer}

/-- A pool that is not full has a free address at the cursor or behind it. -/
theorem CursorInv.exists_free (h : CursorInv server) (hfull : ¬ PoolFull server) :
    ∃ ip, server.current ≤ ip ∧ ip ≤ server.stop ∧ dhcpClientFindByIp server ip = none := by
  unfold PoolFull at hfull
  push Not at hfull
  obtain ⟨ip, hlo, hhi, hfree⟩ := hfull
  refine ⟨ip, ?_, hhi, hfree⟩
  rcases h.behind with hall | hbehind
  · exact absurd hfree (hall ip hlo hhi)
  · by_contra hlt
    exact hbehind ip hlo (BitVec.not_le.mp hlt) hfree

/-- The cursor moves on from an address that is taken. -/
theorem CursorInv.next (h : CursorInv server) (hends : server.start ≤ server.stop)
    (hcur : dhcpClientFindByIp server server.current ≠ none) :
    CursorInv { server with current := nextCursor server } := by
  by_cases hfull : PoolFull server
  · refine ⟨.inl hfull, fun hor => ?_⟩
    have hstop : server.stop ≠ 0xFFFFFFFF := hor.resolve_right (not_not.mpr hfull)
    obtain ⟨hlo, hhi⟩ := h.inPool (.inl hstop)
    dsimp only
    rw [nextCursor]
    split
    · exact ⟨BitVec.le_refl _, hends⟩
    · constructor <;> bv_omega
  · obtain ⟨ip, hle, hhi, hfree⟩ := h.exists_free hfull
    obtain ⟨hlo, -⟩ := h.inPool (.inr hfull)
    have hbehind := h.behind.resolve_left hfull
    have hne : server.current ≠ ip := by
      rintro rfl
      exact hcur hfree
    have hnext : nextCursor server = server.current + 1 := if_neg (by bv_omega)
    rw [hnext]
    refine ⟨.inr fun ip' hlo' hlt => ?_, fun _ => ?_⟩
    · by_cases heq : ip' = server.current
      · rw [heq]
        exact hcur
      · exact hbehind ip' hlo' (by dsimp only at hlt; bv_omega)
    · dsimp only
      constructor <;> bv_omega

/-- The search keeps what holds of the cursor. -/
theorem CursorInv.allocAgain (h : CursorInv server) (hends : server.start ≤ server.stop)
    {fuel : ℕ} (halloc : allocAgain fuel server = some server') : CursorInv server' := by
  induction fuel generalizing server with
  | zero => cases halloc
  | succ fuel ih =>
      by_cases hcur : dhcpClientFindByIp server server.current = none
      · rw [allocAgain_of_free hcur] at halloc
        obtain rfl := Option.some.inj halloc
        exact h
      · rw [allocAgain_of_taken hcur] at halloc
        exact ih (h.next hends hcur) hends halloc

/-- **In a pool that is not full** the search ends before every address has been examined. -/
theorem CursorInv.isSome_of_not_full (h : CursorInv server) (hfull : ¬ PoolFull server) :
    (RtBoot.allocAgain (poolSize server) server).isSome := by
  obtain ⟨ip, hle, hhi, hfree⟩ := h.exists_free hfull
  obtain ⟨hlo, -⟩ := h.inPool (.inr hfull)
  have hdist : (ip - server.current).toNat = ip.toNat - server.current.toNat := by bv_omega
  refine allocAgain_isSome (d := (ip - server.current).toNat) ?_ ?_ ?_
  · rwa [addr_toNat_sub]
  · intro k hk
    rw [hdist] at hk
    rw [BitVec.lt_def, addr]
    bv_omega
  · rw [hdist, poolSize]
    bv_omega

/-- **In a full pool** the search does not end, if the pool does not end with
255.255.255.255. -/
theorem CursorInv.eq_none_of_full (h : CursorInv server) (hends : server.start ≤ server.stop)
    (hfull : PoolFull server) (hstop : server.stop ≠ 0xFFFFFFFF) (fuel : ℕ) :
    RtBoot.allocAgain fuel server = none := by
  refine allocAgain_eq_none (P := fun ip => server.start ≤ ip ∧ ip ≤ server.stop)
    (fun ip hip => hfull ip hip.1 hip.2) ?_ (h.inPool (.inl hstop)) fuel
  rintro ip ⟨hlo, hhi⟩
  rw [nextCursor]
  dsimp only
  split
  · exact ⟨BitVec.le_refl _, hends⟩
  · constructor <;> bv_omega

/-- The cursor of a pool that ends with 255.255.255.255 goes through all addresses. -/
theorem allocAgain_isSome_of_stop (hstop : server.stop = 0xFFFFFFFF) {ip : BitVec 32}
    (hfree : dhcpClientFindByIp server ip = none) :
    (RtBoot.allocAgain ((ip - server.current).toNat + 1) server).isSome := by
  refine allocAgain_isSome (d := (ip - server.current).toNat) ?_ ?_ (Nat.lt_succ_self _)
  · rwa [addr_toNat_sub]
  · intro k _
    rw [hstop]
    bv_omega

theorem dhcpClientFindByIp_cons_ne_none {node : DhcpNode} {ip : BitVec 32}
    (h : dhcpClientFindByIp server ip ≠ none) :
    dhcpClientFindByIp { server with nodeList := node :: server.nodeList } ip ≠ none := by
  rw [dhcpClientFindByIp, List.find?_cons]
  split
  · simp
  · exact h

/-- A new node takes an address more. -/
theorem CursorInv.addNode (h : CursorInv server) (node : DhcpNode) :
    CursorInv { server with nodeList := node :: server.nodeList } := by
  have hmore : PoolFull server →
      PoolFull { server with nodeList := node :: server.nodeList } :=
    fun hfull ip hlo hhi => dhcpClientFindByIp_cons_ne_none (hfull ip hlo hhi)
  refine ⟨?_, fun hor => h.inPool (hor.imp_right fun hnot => mt hmore hnot)⟩
  rcases h.behind with hfull | hbehind
  · exact .inl (hmore hfull)
  · exact .inr fun ip hlo hlt => dhcpClientFindByIp_cons_ne_none (hbehind ip hlo hlt)

end

/-- One message keeps the ends of the pool and what holds of the cursor. -/
theorem CursorInv.step {netif : Netif} {fuel : ℕ} {s t : DhcpState} (hmsg : IsAddressMessage x)
    (h : s.server.start ≤ s.server.stop ∧ CursorInv s.server)
    (hstep : dhcpStep netif fuel s x = some t) :
    t.server.start ≤ t.server.stop ∧ CursorInv t.server := by
  obtain ⟨hends, hinv⟩ := h
  rcases dhcpStep_cases_of_address hmsg hstep with
    rfl | ⟨_, _, -, rfl⟩ | rfl | ⟨server, -, -, halloc, ht⟩
  · exact ⟨hends, hinv⟩
  · exact ⟨hends, hinv⟩
  · exact ⟨hends, hinv⟩
  · obtain ⟨-, hstart, hstop, -⟩ := allocAgain_spec halloc
    have hends' : server.start ≤ server.stop := by rwa [hstart, hstop]
    have hinv' := hinv.allocAgain hends halloc
    rcases ht with rfl | ⟨_, rfl⟩
    · exact ⟨hends', hinv'⟩
    · exact ⟨hends', hinv'.addNode _⟩

theorem cursorInv_start {start stop : BitVec 32} (h : start ≤ stop) :
    CursorInv (dhcpServerStart start stop).server :=
  ⟨.inr fun _ hlo hlt => absurd hlo (BitVec.not_le.mpr hlt), fun _ => ⟨BitVec.le_refl _, h⟩⟩

/-! ### The law -/

/-- `dhcp_client_alloc` behind its lookups. -/
theorem dhcpClientAlloc_of_unknown
    (hfind : dhcpClientFind server x.payload (1500 - dhcpOptionsOfs) = none) (fuel : ℕ) :
    (allocAgain fuel server = none →
      dhcpClientAlloc fuel server x x.payload (1500 - dhcpOptionsOfs) = .error .searching) ∧
    ((allocAgain fuel server).isSome → ∃ server' node,
      dhcpClientAlloc fuel server x x.payload (1500 - dhcpOptionsOfs) = .ok (server', node) ∧
        node.isSome = x.nodeAlloc) := by
  rw [dhcpClientAlloc, hfind]
  cases halloc : allocAgain fuel server with
  | none => simp
  | some server' =>
      cases hnode : x.nodeAlloc with
      | true => simp
      | false => simp

/-- A full pool and an unknown client: `dhcp_client_alloc` returns as it should exactly when there
is no memory for a node, and the search has left a pool that ends with 255.255.255.255 for a free
address outside. -/
theorem CursorInv.allocReturns_of_full_iff
    (hinv : CursorInv server) (hends : server.start ≤ server.stop) (hfull : PoolFull server)
    (hfind : dhcpClientFind server x.payload (1500 - dhcpOptionsOfs) = none) :
    AllocReturns server x ↔ server.stop = 0xFFFFFFFF ∧ x.nodeAlloc = false ∧
      ∃ ip, dhcpClientFindByIp server ip = none := by
  have halloc := dhcpClientAlloc_of_unknown hfind
  constructor
  · rintro ⟨-, hreturns, -⟩
    obtain ⟨fuel, server', hret⟩ := hreturns hfull hfind
    have hsome : RtBoot.allocAgain fuel server ≠ none := by
      intro hnone
      rw [(halloc fuel).1 hnone] at hret
      cases hret
    refine ⟨?_, ?_, ?_⟩
    · by_contra hstop
      exact hsome (hinv.eq_none_of_full hends hfull hstop fuel)
    · obtain ⟨server'', node, hret', hnode⟩ :=
        (halloc fuel).2 (Option.isSome_iff_ne_none.mpr hsome)
      obtain ⟨-, rfl⟩ := Prod.mk.inj (Except.ok.inj (hret'.symm.trans hret))
      exact hnode.symm
    · by_contra hall
      push Not at hall
      exact hsome (allocAgain_eq_none (P := fun _ => True) (fun ip _ => hall ip)
        (fun _ _ => trivial) trivial fuel)
  · rintro ⟨hstop, hnode, ip, hfree⟩
    obtain ⟨server', node, hret, hnone⟩ := (halloc _).2 (allocAgain_isSome_of_stop hstop hfree)
    rw [hnode, Option.isSome_eq_false_iff, Option.isNone_iff_eq_none] at hnone
    rw [hnone] at hret
    exact ⟨⟨_, _, hret⟩, fun _ _ => ⟨_, _, hret⟩, fun hnot => absurd hfull hnot⟩

/-- **When `dhcp_client_alloc` returns as it should**, in every state reached by DISCOVERs and
REQUESTs from a pool with `start` not behind `end`: exactly when the client is known, or the
pool is not full, or there is no memory for a node and the search has left a pool that ends
with 255.255.255.255 for a free address outside. -/
theorem alloc_returns_iff {netif : Netif} {fuel : ℕ} {start stop : BitVec 32}
    (hpool : start ≤ stop) {s : DhcpState}
    (hreach : Reaches (dhcpStep netif fuel) IsAddressMessage (dhcpServerStart start stop) s)
    (x : DhcpInput) :
    AllocReturns s.server x ↔
      (dhcpClientFind s.server x.payload (1500 - dhcpOptionsOfs)).isSome ∨
        ¬ PoolFull s.server ∨
        (s.server.stop = 0xFFFFFFFF ∧ x.nodeAlloc = false ∧
          ∃ ip, dhcpClientFindByIp s.server ip = none) := by
  obtain ⟨hends, hinv⟩ : s.server.start ≤ s.server.stop ∧ CursorInv s.server :=
    hreach.invariant (I := fun t => t.server.start ≤ t.server.stop ∧ CursorInv t.server)
      CursorInv.step ⟨hpool, cursorInv_start hpool⟩
  cases hfind : dhcpClientFind s.server x.payload (1500 - dhcpOptionsOfs) with
  | some node =>
      have hknown : ∀ fuel, dhcpClientAlloc fuel s.server x x.payload (1500 - dhcpOptionsOfs) =
          .ok (s.server, some node) := fun fuel => by rw [dhcpClientAlloc, hfind]
      refine iff_of_true ⟨⟨0, _, hknown 0⟩, fun _ hnone => ?_, fun _ => ⟨_, hknown _⟩⟩ (.inl rfl)
      rw [hfind] at hnone
      cases hnone
  | none =>
      simp only [Option.isSome_none, Bool.false_eq_true, false_or]
      by_cases hfull : PoolFull s.server
      · simp only [hfull, not_true_eq_false, false_or]
        exact hinv.allocReturns_of_full_iff hends hfull hfind
      · obtain ⟨server', node, hret, -⟩ :=
          (dhcpClientAlloc_of_unknown hfind _).2 (hinv.isSome_of_not_full hfull)
        exact iff_of_true
          ⟨⟨_, _, hret⟩, fun hf => absurd hf hfull, fun _ => ⟨_, hret⟩⟩ (.inl hfull)

/-- A pool of two addresses, of which one is taken. -/
theorem alloc_returns_second :
    ∃ s, exec (dhcpStep ⟨0xC0A80101, 0xFFFFFF00⟩ 10) (dhcpServerStart 0xC0A80102 0xC0A80103)
        [clientDatagram [2, 0, 0, 0, 0, 0xA] [53, 1, 1, 255]] = some s ∧
      s.server.nodeList.length = 1 ∧
      AllocReturns s.server (clientDatagram [2, 0, 0, 0, 0, 0xB] [53, 1, 1, 255]) := by
  obtain ⟨s, hrun, hlen, hfree, hlo, hhi⟩ : ∃ s ∈ exec (dhcpStep ⟨0xC0A80101, 0xFFFFFF00⟩ 10)
        (dhcpServerStart 0xC0A80102 0xC0A80103)
        [clientDatagram [2, 0, 0, 0, 0, 0xA] [53, 1, 1, 255]],
      s.server.nodeList.length = 1 ∧ dhcpClientFindByIp s.server 0xC0A80103 = none ∧
        s.server.start ≤ 0xC0A80103 ∧ 0xC0A80103 ≤ s.server.stop := by decide +kernel
  have hreach : Reaches (dhcpStep ⟨0xC0A80101, 0xFFFFFF00⟩ 10) IsAddressMessage
      (dhcpServerStart 0xC0A80102 0xC0A80103) s := ⟨_, by decide +kernel, hrun⟩
  refine ⟨s, hrun, hlen, (alloc_returns_iff (by decide) hreach _).mpr ?_⟩
  exact .inr (.inl fun hfull => hfull _ hlo hhi hfree)

/-- The pool is the single address 192.168.1.2. Client A is offered it; the search for an
address for client B does not end. -/
theorem alloc_searches_forever :
    ∃ s, exec (dhcpStep ⟨0xC0A80101, 0xFFFFFF00⟩ 10) (dhcpServerStart 0xC0A80102 0xC0A80102)
        [clientDatagram [2, 0, 0, 0, 0, 0xA] [53, 1, 1, 255]] = some s ∧
      (∀ fuel, dhcpClientAlloc fuel s.server (clientDatagram [2, 0, 0, 0, 0, 0xB] [53, 1, 1, 255])
        (clientDatagram [2, 0, 0, 0, 0, 0xB] [53, 1, 1, 255]).payload (1500 - dhcpOptionsOfs) =
          .error .searching) ∧
      ¬ AllocReturns s.server (clientDatagram [2, 0, 0, 0, 0, 0xB] [53, 1, 1, 255]) := by
  obtain ⟨s, hrun, htaken, hnext, hcur, hfind⟩ : ∃ s ∈ exec
        (dhcpStep ⟨0xC0A80101, 0xFFFFFF00⟩ 10) (dhcpServerStart 0xC0A80102 0xC0A80102)
        [clientDatagram [2, 0, 0, 0, 0, 0xA] [53, 1, 1, 255]],
      dhcpClientFindByIp s.server 0xC0A80102 ≠ none ∧
        nextCursor { s.server with current := 0xC0A80102 } = 0xC0A80102 ∧
        s.server.current = 0xC0A80102 ∧
        dhcpClientFind s.server (clientDatagram [2, 0, 0, 0, 0, 0xB] [53, 1, 1, 255]).payload
          (1500 - dhcpOptionsOfs) = none := by decide +kernel
  have hnone : ∀ fuel, allocAgain fuel s.server = none :=
    allocAgain_eq_none (P := (· = 0xC0A80102)) (by rintro _ rfl; exact htaken)
      (by rintro _ rfl; exact hnext) hcur
  have hsearch := fun fuel => (dhcpClientAlloc_of_unknown hfind fuel).1 (hnone fuel)
  refine ⟨s, hrun, hsearch, fun hret => ?_⟩
  obtain ⟨fuel, r, hr⟩ := hret.terminates
  rw [hsearch fuel] at hr
  cases hr

end RtBoot
