import Mathlib.Data.List.Basic
import Mathlib.Tactic.Common
import RtBoot.Ethernet

/-!
# Handing a Frame to lwIP

`lwip_eth_rx` takes the frame out of the descriptor ring into a static buffer
(`board_eth_recv`), asks lwIP for a `pbuf` of its length, and copies it there. A `pbuf` from
the pool is a chain of segments when the frame is longer than a buffer of the pool
(`pbuf_alloc`). The copy fills the first segment; the others keep what their buffers held
before.

## Main results

* `pbufAllocPool_spec`: the chain `pbuf_alloc` builds, and the bytes of its segments.
* `lwipEthRx_intact_iff`: exactly when the chain holds the frame.
-/

namespace RtBoot

/-- `CONFIG_ETH_BUFSIZE`. -/
def configEthBufsize : ℕ :=
  2048

/-! ### Buffers of the pool -/

/-- A segment of a packet: its payload area, and the number of bytes in it and in the chain
from it on. -/
structure Pbuf where
  payload : EthFrame
  len : ℕ
  totLen : ℕ
  deriving DecidableEq

/-- The bytes of a segment. -/
def Pbuf.bytes (q : Pbuf) : EthFrame :=
  q.payload.take q.len

/-- The pool: the payload areas that `memp_malloc` hands out next, with what they hold, all
of the size `PBUF_POOL_BUFSIZE_ALIGNED`. -/
structure PbufPool where
  bufsize : ℕ
  areas : List EthFrame
  length_eq : ∀ area ∈ areas, area.length = bufsize

/-- The bytes that `pbuf_alloc` puts into one segment: the size of a buffer, as a `u16_t`. -/
def PbufPool.segment (pool : PbufPool) : ℕ :=
  pool.bufsize % 65536

theorem PbufPool.segment_le (pool : PbufPool) :
    ∀ area ∈ pool.areas, pool.segment ≤ area.length := by
  intro area harea
  rw [pool.length_eq area harea]
  exact Nat.mod_le _ _

/-- The loop of `pbuf_alloc` for `PBUF_POOL` without an offset: segments from the pool until
no byte remains, and no chain at all when the pool runs out. -/
def pbufAllocPool (segment : ℕ) : ℕ → List EthFrame → Option (List Pbuf)
  | _, [] => none
  | remLen, area :: areas =>
      let qlen := min remLen segment
      if 0 < remLen - qlen then
        (pbufAllocPool segment (remLen - qlen) areas).map (⟨area, qlen, remLen⟩ :: ·)
      else some [⟨area, qlen, remLen⟩]

/-- `pbuf_alloc(PBUF_RAW, length, PBUF_POOL)`; the length is a `u16_t`. -/
def pbufAlloc (pool : PbufPool) (length : ℕ) : Option (List Pbuf) :=
  pbufAllocPool pool.segment (length % 65536) pool.areas

/-! ### Receiving -/

/-- `ag71xx_eth_recv`: the buffer of the current descriptor with the length in its `config`,
unless the descriptor is empty. -/
def ag71xxEthRecv (r : DmaRing) : Option (EthFrame × ℕ) :=
  let desc := r.descrtable r.currdescnum
  if r.isEmpty r.currdescnum then none
  else some (r.buffs desc.dataAddr, (desc.config &&& dmadescPktSizeMask).toNat)

/-- `ag71xx_eth_free_pkt`: give the descriptor back and go on to the next one. -/
def ag71xxEthFreePkt (r : DmaRing) : DmaRing :=
  { r.setConfig r.currdescnum dmadescIsEmpty with currdescnum := slotAt r.currdescnum 1 }

/-- `board_eth_recv`: copy the frame to `ip_buffer`. The result is the ring, the buffer, and
`ip_length`. -/
def boardEthRecv (r : DmaRing) (ipBuffer : EthFrame) : DmaRing × EthFrame × ℕ :=
  match ag71xxEthRecv r with
  | none => (r, ipBuffer, 0)
  | some (buffer, length) =>
      (ag71xxEthFreePkt r, buffer.take length ++ ipBuffer.drop length, length)

/-- `lwip_eth_rx`: the chain it returns, given the ring, the contents of the static buffer
and the pool. -/
def lwipEthRx (pool : PbufPool) (r : DmaRing) (tempBuffer : EthFrame) : Option (List Pbuf) :=
  match boardEthRecv r tempBuffer with
  | (_, tempBuffer, length) =>
      if length ≠ 0 then
        match pbufAlloc pool length with
        | some (p :: q) =>
            some ({ p with payload := tempBuffer.take p.len ++ p.payload.drop p.len } :: q)
        | _ => none
      else none

/-- **An intact packet.** The total length is that of the frame, and the segments together
hold its bytes. -/
structure Intact (frame : EthFrame) (chain : List Pbuf) : Prop where
  totLen : chain.head?.map Pbuf.totLen = some frame.length
  payload : (chain.map Pbuf.bytes).flatten = frame

/-- What the buffers of the pool behind the first one hold in the places of the frame's
bytes from `segment` on. -/
def PbufPool.stale (pool : PbufPool) (length : ℕ) : EthFrame :=
  ((pool.areas.tail.map (List.take pool.segment)).flatten).take (length - pool.segment)

/-! ### The chain -/

variable {chain : List Pbuf} {r : DmaRing} {frame tempBuffer : EthFrame} {pool : PbufPool}

/-- **The chain of `pbuf_alloc`.** Its first segment has the first buffer of the pool and as
many bytes as fit; the others hold what the next buffers held. -/
theorem pbufAllocPool_spec {segment remLen : ℕ} {areas : List EthFrame}
    (hareas : ∀ area ∈ areas, segment ≤ area.length)
    (h : pbufAllocPool segment remLen areas = some chain) :
    ∃ area rest, areas.head? = some area ∧ chain = ⟨area, min remLen segment, remLen⟩ :: rest ∧
      (rest.map Pbuf.bytes).flatten =
        ((areas.tail.map (List.take segment)).flatten).take (remLen - segment) := by
  induction areas generalizing remLen chain with
  | nil => cases h
  | cons area areas ih =>
      rw [pbufAllocPool] at h
      split at h
      case isTrue hmore =>
        obtain ⟨rest, hrest, rfl⟩ := Option.map_eq_some_iff.mp h
        refine ⟨area, rest, rfl, rfl, ?_⟩
        obtain ⟨next, rest', hhead, rfl, hbytes⟩ :=
          ih (fun a ha => hareas a (List.mem_cons_of_mem _ ha)) hrest
        obtain ⟨areas', rfl⟩ : ∃ areas', areas = next :: areas' := by
          cases areas with
          | nil => cases hhead
          | cons a areas' => exact ⟨areas', by rw [Option.some.inj hhead]⟩
        have hnext : segment ≤ next.length := hareas next (by simp)
        have hmin : min remLen segment = segment := by omega
        rw [hmin] at hbytes ⊢
        rw [List.tail_cons] at hbytes
        rw [List.map_cons, List.flatten_cons, hbytes, List.tail_cons, List.map_cons,
          List.flatten_cons, List.take_append, List.take_take, List.length_take,
          Nat.min_eq_left hnext]
        rfl
      case isFalse hlast =>
        obtain rfl := Option.some.inj h
        have hmin : remLen - segment = 0 := by omega
        exact ⟨area, [], rfl, rfl, by simp [hmin]⟩

/-- A chain is there exactly when the buffers of the pool have room. -/
theorem isSome_pbufAllocPool_iff {segment remLen : ℕ} {areas : List EthFrame} :
    (pbufAllocPool segment remLen areas).isSome ↔
      areas ≠ [] ∧ remLen ≤ areas.length * segment := by
  induction areas generalizing remLen with
  | nil => simp [pbufAllocPool]
  | cons area areas ih =>
      rw [pbufAllocPool, List.length_cons, Nat.add_mul, Nat.one_mul]
      split
      case isTrue hmore =>
        rw [Option.isSome_map, ih]
        constructor
        · rintro ⟨-, hroom⟩
          exact ⟨List.cons_ne_nil _ _, by omega⟩
        · rintro ⟨-, hroom⟩
          refine ⟨?_, by omega⟩
          rintro rfl
          rw [List.length_nil, Nat.zero_mul] at hroom
          omega
      case isFalse hlast =>
        exact iff_of_true rfl ⟨List.cons_ne_nil _ _, by omega⟩

/-- A frame in a buffer of the ring, with the length in its descriptor. -/
theorem ag71xxEthRecv_of_content (hbuffs : ∀ i, (r.buffs i).length = configEthBufsize)
    (hframe : r.content r.currdescnum = some frame) (hlen : frame.length < configEthBufsize) :
    ∃ buffer, ag71xxEthRecv r = some (buffer, frame.length) ∧
      buffer.take frame.length = frame := by
  obtain ⟨hempty, hpacket⟩ := DmaRing.content_eq_some.mp hframe
  have hlength : ((r.descrtable r.currdescnum).config &&& dmadescPktSizeMask).toNat =
      frame.length := by
    have htake := congrArg List.length hpacket
    rw [DmaRing.packet, List.length_take, hbuffs] at htake
    omega
  refine ⟨r.buffs (r.descrtable r.currdescnum).dataAddr, ?_, ?_⟩
  · simp only [ag71xxEthRecv, hempty, hlength, Bool.false_eq_true, if_false]
  · rw [← hlength]
    exact hpacket

theorem boardEthRecv_of_content (hbuffs : ∀ i, (r.buffs i).length = configEthBufsize)
    (hframe : r.content r.currdescnum = some frame) (hlen : frame.length < configEthBufsize)
    (ipBuffer : EthFrame) :
    boardEthRecv r ipBuffer =
      (ag71xxEthFreePkt r, frame ++ ipBuffer.drop frame.length, frame.length) := by
  obtain ⟨buffer, hrecv, hbuffer⟩ := ag71xxEthRecv_of_content hbuffs hframe hlen
  simp only [boardEthRecv, hrecv, hbuffer]

/-- `lwip_eth_rx` returns a chain for a frame that is not empty exactly when the pool has
room for it. -/
theorem isSome_lwipEthRx_iff (hbuffs : ∀ i, (r.buffs i).length = configEthBufsize)
    (hframe : r.content r.currdescnum = some frame) (hpos : 1 ≤ frame.length)
    (hmax : frame.length ≤ 1600) :
    (lwipEthRx pool r tempBuffer).isSome ↔ frame.length ≤ pool.areas.length * pool.segment := by
  have hroom : (pbufAlloc pool frame.length).isSome ↔
      frame.length ≤ pool.areas.length * pool.segment := by
    rw [pbufAlloc, Nat.mod_eq_of_lt (by omega), isSome_pbufAllocPool_iff]
    refine ⟨And.right, fun h => ⟨?_, h⟩⟩
    intro hnil
    rw [hnil, List.length_nil, Nat.zero_mul] at h
    omega
  rw [← hroom, lwipEthRx, boardEthRecv_of_content hbuffs hframe (by rw [configEthBufsize]; omega)]
  dsimp only
  rw [if_pos (by omega)]
  cases halloc : pbufAlloc pool frame.length with
  | none => rfl
  | some chain =>
      cases chain with
      | nil =>
          obtain ⟨_, _, _, hcons, _⟩ := pbufAllocPool_spec pool.segment_le halloc
          cases hcons
      | cons p rest => rfl

/-- What `lwip_eth_rx` returns for a frame that is not empty: the chain of `pbuf_alloc` with
the beginning of the frame in its first segment. -/
theorem lwipEthRx_eq_some (hbuffs : ∀ i, (r.buffs i).length = configEthBufsize)
    (hframe : r.content r.currdescnum = some frame) (hlen : frame.length < configEthBufsize)
    (h : lwipEthRx pool r tempBuffer = some chain) :
    ∃ p rest, pbufAlloc pool frame.length = some (p :: rest) ∧
      chain = { p with payload :=
        (frame ++ tempBuffer.drop frame.length).take p.len ++ p.payload.drop p.len } :: rest := by
  rw [lwipEthRx, boardEthRecv_of_content hbuffs hframe hlen] at h
  dsimp only at h
  split at h
  · split at h
    · next p rest halloc => exact ⟨p, rest, halloc, (Option.some.inj h).symm⟩
    · cases h
  · cases h

/-- The chain has the length of the frame, holds its bytes as far as they fit one segment,
and behind them what the buffers held. -/
theorem lwipEthRx_bytes (hbuffs : ∀ i, (r.buffs i).length = configEthBufsize)
    (hframe : r.content r.currdescnum = some frame) (hmax : frame.length ≤ 1600)
    (h : lwipEthRx pool r tempBuffer = some chain) :
    chain.head?.map Pbuf.totLen = some frame.length ∧
      (chain.map Pbuf.bytes).flatten =
        frame.take (min frame.length pool.segment) ++ pool.stale frame.length := by
  obtain ⟨p, rest, halloc, rfl⟩ := lwipEthRx_eq_some hbuffs hframe
    (by rw [configEthBufsize]; omega) h
  rw [pbufAlloc, Nat.mod_eq_of_lt (by omega)] at halloc
  obtain ⟨area, rest', -, hcons, hrest⟩ := pbufAllocPool_spec pool.segment_le halloc
  obtain ⟨rfl, rfl⟩ := List.cons.inj hcons
  have hfirst : ∀ (old : EthFrame) (m : ℕ), m ≤ frame.length →
      ((frame ++ tempBuffer.drop frame.length).take m ++ old.drop m).take m = frame.take m := by
    intro old m hm
    rw [List.take_append_of_le_length hm, List.take_append_of_le_length (by simp; omega),
      List.take_take, Nat.min_self]
  refine ⟨rfl, ?_⟩
  rw [List.map_cons, List.flatten_cons, hrest, Pbuf.bytes, hfirst _ _ (Nat.min_le_left _ _)]
  rfl

/-- **Received frames.** For every ring whose current descriptor holds a frame of at most
`1600` bytes, every size and content of the pool's buffers, and every old content of the
static buffer, a chain that `lwip_eth_rx` returns is the frame exactly when the frame fits
one buffer of the pool, or the further buffers happen to hold the rest of it already. -/
theorem lwipEthRx_intact_iff (pool : PbufPool) {r : DmaRing} {tempBuffer frame : EthFrame}
    {chain : List Pbuf} (hbuffs : ∀ i, (r.buffs i).length = configEthBufsize)
    (hframe : r.content r.currdescnum = some frame) (hmax : frame.length ≤ 1600)
    (hchain : lwipEthRx pool r tempBuffer = some chain) :
    Intact frame chain ↔
      frame.length ≤ pool.segment ∨ pool.stale frame.length = frame.drop pool.segment := by
  obtain ⟨htot, hbytes⟩ := lwipEthRx_bytes hbuffs hframe hmax hchain
  have hdrop : frame.drop (min frame.length pool.segment) = frame.drop pool.segment := by
    rcases Nat.le_total frame.length pool.segment with hle | hle
    · rw [Nat.min_eq_left hle, List.drop_of_length_le hle, List.drop_length]
    · rw [Nat.min_eq_right hle]
  constructor
  · intro hintact
    have h := hbytes.symm.trans hintact.payload
    rw [← hdrop]
    exact .inr (List.append_cancel_left (h.trans (List.take_append_drop _ _).symm))
  · intro hcond
    have hstale : pool.stale frame.length = frame.drop pool.segment := by
      rcases hcond with hle | hstale
      · rw [PbufPool.stale, Nat.sub_eq_zero_of_le hle, List.take_zero, List.drop_of_length_le hle]
      · exact hstale
    refine ⟨htot, ?_⟩
    rw [hbytes, hstale, ← hdrop, List.take_append_drop]

/-! ### One buffer, and two -/

/-- A ring whose descriptors all hold the frame. -/
def ringHolding (f : EthFrame) : DmaRing :=
  { dmaClean fun _ => f ++ List.replicate (configEthBufsize - f.length) 0 with
    descrtable := fun i => ⟨i, lengthConfig f, slotAt i 1⟩ }

theorem ringHolding_spec {f : EthFrame} (hlen : f.length ≤ 1600) :
    (∀ i, ((ringHolding f).buffs i).length = configEthBufsize) ∧
      (ringHolding f).content (ringHolding f).currdescnum = some f := by
  constructor
  · intro i
    change (f ++ List.replicate (configEthBufsize - f.length) 0).length = configEthBufsize
    rw [List.length_append, List.length_replicate, configEthBufsize]
    omega
  · refine DmaRing.content_eq_some.mpr ⟨?_, ?_⟩
    · simp [DmaRing.isEmpty, ringHolding, lengthConfig_not_empty]
    · simp only [DmaRing.packet, ringHolding, dmaClean, lengthConfig_size]
      rw [Nat.mod_eq_of_lt (by omega), List.take_left]

/-- Buffers of the pool that hold zeros. -/
def zeroPool (bufsize count : ℕ) : PbufPool where
  bufsize := bufsize
  areas := List.replicate count (List.replicate bufsize 0)
  length_eq := by
    intro area harea
    rw [List.eq_of_mem_replicate harea, List.length_replicate]

/-- A frame of three bytes in a buffer of `1516`, the size the configuration gives. -/
theorem lwipEthRx_intact_short :
    ∃ chain, lwipEthRx (zeroPool 1516 1) (ringHolding [1, 2, 3]) (List.replicate 1600 0) =
        some chain ∧ Intact [1, 2, 3] chain := by
  have hmax : List.length [(1 : BitVec 8), 2, 3] ≤ 1600 := by decide
  obtain ⟨hbuffs, hframe⟩ := ringHolding_spec hmax
  obtain ⟨chain, hchain⟩ := Option.isSome_iff_exists.mp
    ((isSome_lwipEthRx_iff hbuffs hframe (by decide) hmax).mpr
      (show 3 ≤ (zeroPool 1516 1).areas.length * (zeroPool 1516 1).segment by decide))
  exact ⟨chain, hchain,
    (lwipEthRx_intact_iff (zeroPool 1516 1) hbuffs hframe hmax hchain).mpr (.inl (by decide))⟩

/-- A frame of `1518` bytes and two buffers of `1516`: the last two bytes are those of the
second buffer. -/
theorem lwipEthRx_loses_tail :
    ∃ chain, lwipEthRx (zeroPool 1516 2) (ringHolding (List.replicate 1518 0xA5))
        (List.replicate 1600 0) = some chain ∧
      ¬ Intact (List.replicate 1518 0xA5) chain := by
  have hlen : (List.replicate 1518 (0xA5 : BitVec 8)).length = 1518 := List.length_replicate
  have hmax : (List.replicate 1518 (0xA5 : BitVec 8)).length ≤ 1600 := by omega
  obtain ⟨hbuffs, hframe⟩ := ringHolding_spec hmax
  have hroom : 1518 ≤ (zeroPool 1516 2).areas.length * (zeroPool 1516 2).segment := by decide
  rw [← hlen] at hroom
  obtain ⟨chain, hchain⟩ := Option.isSome_iff_exists.mp
    ((isSome_lwipEthRx_iff hbuffs hframe (by omega) hmax).mpr hroom)
  refine ⟨chain, hchain, ?_⟩
  intro hintact
  have hbytes := (lwipEthRx_bytes hbuffs hframe hmax hchain).2
  rw [hintact.payload, hlen] at hbytes
  -- a stale byte is none of the frame's
  have hzero : (zeroPool 1516 2).stale 1518 = [0, 0] := by decide
  have hmem : (0 : BitVec 8) ∈ List.replicate 1518 (0xA5 : BitVec 8) := by
    rw [hbytes, hzero]
    exact List.mem_append_right _ List.mem_cons_self
  exact absurd (List.eq_of_mem_replicate hmem) (by decide)

end RtBoot
