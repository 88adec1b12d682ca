import Mathlib.Algebra.Group.Nat.Even
import RtBoot.Dhcp

/-!
# Releasing a Lease

On a RELEASE the server looks for the client's node and unlinks it. The loop moves its cursor
on twice in a round, once in its body and once in its head, so it looks only at every other
node. What follows from that depends on where the node stands: in the first place it is
removed as it should be; in any other even place the node in front of it, which the loop has
passed without looking, is unlinked with it; in an odd place it is not found. And when the
loop runs out of nodes right after looking at one, its second move reads through a null
pointer.

`releaseLoopFreeing` is the loop with the node that is freed behind it.

## Main results

* `releaseLoopFreeing_cases`: what the loop can do.
* `release_exact_iff`: when a RELEASE removes exactly the client's node.
-/

namespace RtBoot

/-- The loop of the RELEASE branch, with the node it stops at, which is then freed. -/
def releaseLoopFreeing (chaddr : List UInt8) (hlen : ℕ) :
    List DhcpNode → List DhcpNode → Except DhcpHalt (List DhcpNode × Option DhcpNode)
  | before, [] => .ok (before, none)
  | before, node :: rest =>
      if node.chaddr.take hlen = chaddr.take hlen then .ok (before.dropLast ++ rest, some node)
      else
        match rest with
        | [] => .error .nullPointer
        | skipped :: rest => releaseLoopFreeing chaddr hlen (before ++ [node, skipped]) rest

theorem releaseLoopFreeing_map_fst (chaddr : List UInt8) (hlen : ℕ) (before nodes : List DhcpNode) :
    (releaseLoopFreeing chaddr hlen before nodes).map Prod.fst =
      releaseLoop chaddr hlen before nodes := by
  fun_induction releaseLoopFreeing chaddr hlen before nodes with
  | case1 before => rfl
  | case2 before node rest hmatch => rw [releaseLoop.eq_def]; simp [hmatch, Except.map]
  | case3 before node hmatch => rw [releaseLoop.eq_def]; simp [hmatch, Except.map]
  | case4 before node hmatch skipped rest ih => rw [ih, releaseLoop.eq_3, if_neg hmatch]

/-- The datagram passes the checks of the header and is a RELEASE. -/
def IsRelease (x : DhcpInput) : Prop :=
  ¬ (x.len < 44 ∨ x.bufAlloc = false ∨ 1500 < x.bytes.length) ∧
    ¬ (x.payload 0 ≠ 1 ∨ readIp x.payload 236 ≠ 0x63825363 ∨ 6 < msgHlen x.payload) ∧
    ∃ opt ∈ dhcpServerOptionFind x.payload dhcpOptionsOfs (1500 - dhcpOptionsOfs) 53,
      x.payload (opt + 2) = 7
  deriving Decidable

/-- A RELEASE is handled exactly: the handler returns, the client's node is gone, the others
are as they were and in their order, and the node that was freed is the client's, if it had
one. -/
structure ReleaseExact (netif : Netif) (fuel : ℕ) (s : DhcpState) (x : DhcpInput) : Prop where
  handled : dhcpServerRecv netif fuel s x = .ok { s with
    server := { s.server with
      nodeList := s.server.nodeList.filter fun node => node.chaddr ≠ msgChaddr x.payload } }
  freed : (releaseLoopFreeing (msgChaddr x.payload) (msgHlen x.payload) []
      s.server.nodeList).map Prod.snd =
    .ok (s.server.nodeList.find? fun node => node.chaddr = msgChaddr x.payload)

/-- The handler, for a RELEASE. -/
theorem dhcpServerRecv_release {x : DhcpInput} (h : IsRelease x) (netif : Netif) (fuel : ℕ)
    (s : DhcpState) :
    dhcpServerRecv netif fuel s x =
      (releaseLoopFreeing (msgChaddr x.payload) (msgHlen x.payload) [] s.server.nodeList).map
        fun r => { s with server := { s.server with nodeList := r.1 } } := by
  obtain ⟨hlength, hheader, opt, hopt, htype⟩ := h
  rw [Option.mem_def] at hopt
  rw [dhcpServerRecv, if_neg hlength, if_neg hheader, hopt]
  simp only [htype, handleMessage, ← releaseLoopFreeing_map_fst]
  rw [if_neg (by decide), if_neg (by decide), if_pos trivial]
  cases releaseLoopFreeing (msgChaddr x.payload) (msgHlen x.payload) [] s.server.nodeList with
  | error halt => rfl
  | ok r => rfl

/-! ### The loop -/

section
variable {mac : List UInt8} {hlen : ℕ} {before nodes nodes' : List DhcpNode}
  {freed : Option DhcpNode}

/-- **What the loop can do**: it frees nothing and leaves the list, or it frees a node that
matches, and then the list is shorter by two unless that node was the first. -/
theorem releaseLoopFreeing_cases
    (h : releaseLoopFreeing mac hlen before nodes = .ok (nodes', freed)) :
    (freed = none ∧ nodes' = before ++ nodes) ∨
      (freed.isSome ∧ (before ≠ [] → nodes'.length + 2 = before.length + nodes.length)) := by
  fun_induction releaseLoopFreeing mac hlen before nodes with
  | case1 before =>
      obtain ⟨rfl, rfl⟩ := Prod.mk.inj (Except.ok.inj h)
      exact .inl ⟨rfl, (List.append_nil _).symm⟩
  | case2 before node rest hmatch =>
      obtain ⟨rfl, rfl⟩ := Prod.mk.inj (Except.ok.inj h)
      refine .inr ⟨rfl, fun hne => ?_⟩
      have hpos := List.length_pos_iff.mpr hne
      rw [List.length_append, List.length_dropLast, List.length_cons]
      omega
  | case3 before node hmatch => cases h
  | case4 before node hmatch skipped rest ih =>
      rcases ih h with ⟨rfl, rfl⟩ | ⟨hsome, hlen⟩
      · exact .inl ⟨rfl, by simp⟩
      · refine .inr ⟨hsome, fun _ => ?_⟩
        have := hlen (by simp)
        simp only [List.length_append, List.length_cons, List.length_nil] at this ⊢
        omega

/-- Without a matching node, an even number of nodes is passed and left alone, and behind an
odd number the loop reads through a null pointer. -/
theorem releaseLoopFreeing_of_no_match (before : List DhcpNode)
    (h : ∀ node ∈ nodes, node.chaddr.take hlen ≠ mac.take hlen) :
    releaseLoopFreeing mac hlen before nodes =
      if Even nodes.length then .ok (before ++ nodes, none) else .error .nullPointer := by
  fun_induction releaseLoopFreeing mac hlen before nodes with
  | case1 before => simp
  | case2 before node rest hmatch => exact absurd hmatch (h node List.mem_cons_self)
  | case3 before node hmatch => simp
  | case4 before node hmatch skipped rest ih =>
      have heven : Even (node :: skipped :: rest).length ↔ Even rest.length := by
        simp [Nat.even_add_one]
      rw [ih fun x hx => h x (List.mem_cons_of_mem _ (List.mem_cons_of_mem _ hx))]
      simp only [heven, List.append_assoc, List.cons_append, List.nil_append]

end

/-! ### The law -/

variable {nodes : List DhcpNode} {mac : List UInt8}

/-- Of different hardware addresses one node has the client's, so the others are one fewer. -/
theorem length_filter_chaddr
    (hdistinct : (nodes.map DhcpNode.chaddr).Nodup) {node : DhcpNode} (hmem : node ∈ nodes)
    (hmac : node.chaddr = mac) :
    (nodes.filter fun n => n.chaddr ≠ mac).length + 1 = nodes.length := by
  have hothers : nodes.filter (fun n => n.chaddr ≠ mac) = nodes.erase node := by
    rw [(List.Nodup.of_map _ hdistinct).erase_eq_filter]
    refine List.filter_congr fun n hn => ?_
    have hiff : n.chaddr = mac ↔ n = node :=
      ⟨fun h => List.inj_on_of_nodup_map hdistinct hn hmem (h.trans hmac.symm),
        fun h => h ▸ hmac⟩
    by_cases h : n = node
    · simp [h, hmac]
    · simp [mt hiff.mp h, h]
  have hpos := List.length_pos_of_mem hmem
  rw [hothers, List.length_erase_of_mem hmem]
  omega

/-- A loop that frees a node and leaves one node fewer has stopped at the first. -/
theorem first_of_exact {nodes' : List DhcpNode} {freed : Option DhcpNode}
    (hmatch : ∀ node ∈ nodes, node.chaddr.take 6 = mac.take 6 ↔ node.chaddr = mac)
    (hloop : releaseLoopFreeing mac 6 [] nodes = .ok (nodes', freed))
    (hlength : nodes'.length + 1 = nodes.length) (hfreed : freed.isSome) :
    ∃ node rest, nodes = node :: rest ∧ node.chaddr = mac := by
  cases nodes with
  | nil => cases hlength
  | cons first rest =>
      refine ⟨first, rest, rfl, ?_⟩
      by_contra hne
      rw [releaseLoopFreeing.eq_def] at hloop
      simp only [mt (hmatch first List.mem_cons_self).mp hne, if_false] at hloop
      cases rest with
      | nil => cases hloop
      | cons skipped rest =>
          rcases releaseLoopFreeing_cases hloop with ⟨rfl, -⟩ | ⟨-, htwo⟩
          · cases hfreed
          · have := htwo (by simp)
            simp only [List.nil_append, List.length_cons, List.length_nil] at this hlength
            omega

/-- The loop is exact on a list whose first node is the client's. -/
theorem releaseLoopFreeing_first {node : DhcpNode} {rest : List DhcpNode}
    (hdistinct : ((node :: rest).map DhcpNode.chaddr).Nodup) (hmac : node.chaddr = mac) :
    releaseLoopFreeing mac 6 [] (node :: rest) =
      .ok ((node :: rest).filter (fun n => n.chaddr ≠ mac),
        (node :: rest).find? fun n => n.chaddr = mac) := by
  have hothers : (node :: rest).filter (fun n => n.chaddr ≠ mac) = rest := by
    rw [List.map_cons, List.nodup_cons] at hdistinct
    rw [List.filter_cons_of_neg (by simp [hmac]), List.filter_eq_self]
    intro n hn
    have hne : n.chaddr ≠ mac :=
      fun h => hdistinct.1 (List.mem_map.mpr ⟨n, hn, h.trans hmac.symm⟩)
    simpa using hne
  rw [hothers, List.find?_cons_of_pos (by simp [hmac]), releaseLoopFreeing.eq_def]
  simp only [hmac, if_true]
  rfl

/-- **When the loop is exact**: when the client's node is the first, or there is none and the
number of nodes is even. -/
theorem releaseLoopFreeing_exact_iff
    (hmatch : ∀ node ∈ nodes, node.chaddr.take 6 = mac.take 6 ↔ node.chaddr = mac)
    (hdistinct : (nodes.map DhcpNode.chaddr).Nodup) :
    releaseLoopFreeing mac 6 [] nodes =
        .ok (nodes.filter (fun node => node.chaddr ≠ mac),
          nodes.find? fun node => node.chaddr = mac) ↔
      (∃ node rest, nodes = node :: rest ∧ node.chaddr = mac) ∨
        (Even nodes.length ∧ ∀ node ∈ nodes, node.chaddr ≠ mac) := by
  constructor
  · intro hloop
    by_cases hany : ∃ node ∈ nodes, node.chaddr = mac
    · obtain ⟨node, hnode, hmac⟩ := hany
      exact .inl (first_of_exact hmatch hloop (length_filter_chaddr hdistinct hnode hmac)
        (by simpa using ⟨node, hnode, hmac⟩))
    · have hnone : ∀ node ∈ nodes, node.chaddr ≠ mac :=
        fun node hnode hmac => hany ⟨node, hnode, hmac⟩
      refine .inr ⟨?_, hnone⟩
      by_contra hodd
      rw [releaseLoopFreeing_of_no_match _ fun node hnode =>
        mt (hmatch node hnode).mp (hnone node hnode), if_neg hodd] at hloop
      cases hloop
  · rintro (⟨node, rest, rfl, hmac⟩ | ⟨heven, hnone⟩)
    · exact releaseLoopFreeing_first hdistinct hmac
    · have hall : nodes.filter (fun node => node.chaddr ≠ mac) = nodes :=
        List.filter_eq_self.mpr (by simpa using hnone)
      have hfind : (nodes.find? fun node => node.chaddr = mac) = none :=
        List.find?_eq_none.mpr (by simpa using hnone)
      rw [hall, hfind, releaseLoopFreeing_of_no_match _ fun node hnode =>
        mt (hmatch node hnode).mp (hnone node hnode), if_pos heven, List.nil_append]

/-- A RELEASE is handled exactly when the loop is exact. -/
theorem releaseExact_iff_loop {netif : Netif} {fuel : ℕ} {s : DhcpState} {x : DhcpInput}
    (hrelease : IsRelease x) :
    ReleaseExact netif fuel s x ↔
      releaseLoopFreeing (msgChaddr x.payload) (msgHlen x.payload) [] s.server.nodeList =
        .ok (s.server.nodeList.filter (fun node => node.chaddr ≠ msgChaddr x.payload),
          s.server.nodeList.find? fun node => node.chaddr = msgChaddr x.payload) := by
  have hrecv := dhcpServerRecv_release hrelease netif fuel s
  constructor
  · rintro ⟨hhandled, hfreed⟩
    cases hloop : releaseLoopFreeing (msgChaddr x.payload) (msgHlen x.payload) []
        s.server.nodeList with
    | error halt =>
        rw [hloop] at hfreed
        cases hfreed
    | ok r =>
        rw [hloop] at hrecv hfreed
        have hnodes : r.1 =
            s.server.nodeList.filter fun node => node.chaddr ≠ msgChaddr x.payload :=
          congrArg (fun t => t.server.nodeList) (Except.ok.inj (hrecv.symm.trans hhandled))
        exact congrArg _ (Prod.ext hnodes (Except.ok.inj hfreed))
  · intro hloop
    rw [hloop] at hrecv
    exact ⟨hrecv, by rw [hloop]; rfl⟩

/-- **When a RELEASE is exact.** For every list of nodes with different hardware addresses and
every RELEASE with a hardware address of six bytes: exactly when the client's node is the
first, or the client has none and the number of nodes is even. -/
theorem release_exact_iff {netif : Netif} {fuel : ℕ} {s : DhcpState} {x : DhcpInput}
    (hsix : ∀ node ∈ s.server.nodeList, node.chaddr.length = 6)
    (hdistinct : (s.server.nodeList.map DhcpNode.chaddr).Nodup) (hrelease : IsRelease x)
    (hlen : msgHlen x.payload = 6) :
    ReleaseExact netif fuel s x ↔
      (∃ node rest, s.server.nodeList = node :: rest ∧ node.chaddr = msgChaddr x.payload) ∨
        (Even s.server.nodeList.length ∧
          ∀ node ∈ s.server.nodeList, node.chaddr ≠ msgChaddr x.payload) := by
  have hmatch : ∀ node ∈ s.server.nodeList,
      node.chaddr.take 6 = (msgChaddr x.payload).take 6 ↔ node.chaddr = msgChaddr x.payload := by
    intro node hnode
    rw [List.take_of_length_le (hsix node hnode).le,
      List.take_of_length_le (length_msgChaddr x.payload).le]
  rw [releaseExact_iff_loop hrelease, hlen, releaseLoopFreeing_exact_iff hmatch hdistinct]

/-- A server with leases of the clients A, B and C, in the order of the list. -/
def threeLeases : DhcpState :=
  ⟨⟨[⟨[2, 0, 0, 0, 0, 0xA], 0xC0A80104⟩, ⟨[2, 0, 0, 0, 0, 0xB], 0xC0A80103⟩,
    ⟨[2, 0, 0, 0, 0, 0xC], 0xC0A80102⟩], 0xC0A80102, 0xC0A801FE, 0xC0A80104⟩, []⟩

/-- The RELEASE of client A, whose node is the first. -/
theorem release_exact_first :
    ReleaseExact ⟨0xC0A80101, 0xFFFFFF00⟩ 10 threeLeases
      (clientDatagram [2, 0, 0, 0, 0, 0xA] [53, 1, 7, 255]) :=
  (release_exact_iff (by decide) (by decide) (by decide +kernel) (by decide)).mpr
    (.inl ⟨_, _, rfl, by decide⟩)

/-- The RELEASE of client C removes the node of client B as well. -/
theorem release_unlinks_neighbour :
    dhcpServerRecv ⟨0xC0A80101, 0xFFFFFF00⟩ 10 threeLeases
        (clientDatagram [2, 0, 0, 0, 0, 0xC] [53, 1, 7, 255]) =
      .ok { threeLeases with server := { threeLeases.server with
        nodeList := [⟨[2, 0, 0, 0, 0, 0xA], 0xC0A80104⟩] } } ∧
      ¬ ReleaseExact ⟨0xC0A80101, 0xFFFFFF00⟩ 10 threeLeases
        (clientDatagram [2, 0, 0, 0, 0, 0xC] [53, 1, 7, 255]) := by
  have hrecv : dhcpServerRecv ⟨0xC0A80101, 0xFFFFFF00⟩ 10 threeLeases
        (clientDatagram [2, 0, 0, 0, 0, 0xC] [53, 1, 7, 255]) =
      .ok { threeLeases with server := { threeLeases.server with
        nodeList := [⟨[2, 0, 0, 0, 0, 0xA], 0xC0A80104⟩] } } := by
    rw [dhcpServerRecv_release (by decide +kernel)]
    decide +kernel
  refine ⟨hrecv, fun h => ?_⟩
  have hlists := congrArg (fun t => t.server.nodeList.length)
    (Except.ok.inj (hrecv.symm.trans h.handled))
  exact absurd hlists (by decide)

end RtBoot
