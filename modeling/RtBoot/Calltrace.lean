import RtBoot.Memory

/-!
# The Crash Unwinder

`calltrace_irq` prints the chain of return addresses at an exception. It has no frame
pointers to follow, so it reads the code: from a return address it goes down word by word
until it has met an instruction that adjusts the stack pointer and one that saves the return
address. They give the size of the frame and the slot of the caller's return address, and
the search goes on from there. An instruction that loads the upper half of `$gp` marks the
first function of the chain.

The search from the saved `ra` and those that follow differ in how they read the slot and in
what the marker does, and only the latter are guarded: a return address is not followed when
it is outside the address segment of the image, below the image, or above its end.

Memory is total: a word can be read at every address. The loop over the code may go round
all of memory, so it has fuel; the results say for which inputs some fuel is enough.

## Main results

* `scanLoop_sound`, `scanLoop_complete`: the loop over the code against what it searches,
  stated without the loop (`ScanEnds`).
* `calltraceIrq_safe_iff`: the unwinder ends and reads no word outside the image iff every
  search of the chain ends inside it (`Unwinds`).
-/

namespace RtBoot

/-! ### The model -/

/-- The instructions the unwinder knows, with their immediate operand. -/
inductive Inst where
  /-- `addiu $sp, $sp, imm`: the stack pointer is adjusted. -/
  | adduiSp (imm : BitVec 16)
  /-- `sw $ra, imm($sp)`: the return address is saved. -/
  | swRa (imm : BitVec 16)
  /-- `lui $gp, imm`: the marker. -/
  | luiGp
  | other
  deriving DecidableEq, Repr

/-- The switch on the upper half of the instruction word. -/
def decodeInst (word : BitVec 32) : Inst :=
  if word &&& 0xFFFF0000 = 0x27BD0000 then .adduiSp (word.setWidth 16)
  else if word &&& 0xFFFF0000 = 0xAFBF0000 then .swRa (word.setWidth 16)
  else if word &&& 0xFFFF0000 = 0x3C1C0000 then .luiGp
  else .other

/-- `abs((short)imm)` as an `rt_size_t`. -/
def absShort (imm : BitVec 16) : BitVec 32 :=
  BitVec.ofNat 32 imm.toInt.natAbs

/-- `(short)imm` as an `rt_size_t`. -/
def signedShort (imm : BitVec 16) : BitVec 32 :=
  imm.signExtend 32

/-- What is known of a frame: the slot of the return address and the size, zero as long as
they are unknown. -/
structure Frame where
  raOffset : BitVec 32
  stackSize : BitVec 32
  deriving DecidableEq, Repr

/-- Nothing is known. -/
def Frame.unknown : Frame :=
  ⟨0, 0⟩

/-- The condition that ends the search. -/
def Frame.Complete (f : Frame) : Prop :=
  f.raOffset ≠ 0 ∧ f.stackSize ≠ 0
  deriving Decidable

/-- What an instruction adds; `slot` reads the operand of the save. -/
def Frame.step (slot : BitVec 16 → BitVec 32) (f : Frame) : Inst → Frame
  | .adduiSp imm => { f with stackSize := absShort imm }
  | .swRa imm => { f with raOffset := slot imm }
  | _ => f

/-- How a search ends: with what is known, at the marker or not, after which reads. -/
structure ScanEnd where
  frame : Frame
  marker : Bool
  reads : List (BitVec 32)
  deriving DecidableEq, Repr

/-- The loop over the code, from `a` down. -/
def scanLoop (slot : BitVec 16 → BitVec 32) (m : Mem) : ℕ → BitVec 32 → Frame → Option ScanEnd
  | 0, _, _ => none
  | fuel + 1, a, f =>
      if f.Complete then some ⟨f, false, []⟩
      else if decodeInst (load32 m a) = .luiGp then some ⟨f, true, [a]⟩
      else
        (scanLoop slot m fuel (a - 4) (f.step slot (decodeInst (load32 m a)))).map fun e =>
          { e with reads := a :: e.reads }

/-- The part of `rtboot_data` the unwinder uses. -/
structure ImageData where
  relocationBase : BitVec 32
  relocationOffset : BitVec 32
  rtbootLength : BitVec 32

/-- A line of output. Addresses are printed with their place in the linked image. -/
inductive TraceLine where
  | calltrace (pc ref : BitVec 32)
  | ra (depth : ℕ) (ra ref : BitVec 32)
  | foundFlag
  deriving DecidableEq, Repr

/-- The line for a return address. -/
def raLine (img : ImageData) (depth : ℕ) (ra : BitVec 32) : TraceLine :=
  .ra depth ra (ra - img.relocationOffset)

/-- What a run returns, prints and reads of the code. -/
structure TraceResult where
  depth : ℕ
  lines : List TraceLine
  reads : List (BitVec 32)
  deriving DecidableEq, Repr

/-- What was printed and read before a result. -/
def TraceResult.after (r : TraceResult) (lines : List TraceLine) (reads : List (BitVec 32)) :
    TraceResult :=
  { r with lines := lines ++ r.lines, reads := reads ++ r.reads }

/-- The condition of the loop over the frames: `ra` is in the segment `KSEG0`. -/
def InKseg0 (ra : BitVec 32) : Prop :=
  ra ≠ 0 ∧ 0x80000000 < ra ∧ ra < 0xA0000000
  deriving Decidable

/-- The guard inside the loop: `ra` is below the image or above its end. -/
def ImageData.Beyond (img : ImageData) (ra : BitVec 32) : Prop :=
  ra < img.relocationBase ∨ img.relocationBase + img.rtbootLength < ra
  deriving Decidable

/-- The loop over the frames, with `left` of them to go. -/
def traceLoop (img : ImageData) (m : Mem) (fuel : ℕ) :
    ℕ → ℕ → BitVec 32 → BitVec 32 → Option TraceResult
  | 0, depth, _, _ => some ⟨depth, [], []⟩
  | left + 1, depth, ra, sp =>
      if InKseg0 ra then
        if img.Beyond ra then some ⟨depth, [raLine img depth ra], []⟩
        else
          match scanLoop absShort m fuel ra .unknown with
          | none => none
          | some e =>
              if e.marker then some ⟨depth + 1, [raLine img depth ra, .foundFlag], e.reads⟩
              else
                (traceLoop img m fuel left (depth + 1) (load32 m (sp + e.frame.raOffset))
                  (sp + e.frame.stackSize)).map (·.after [raLine img depth ra] e.reads)
      else some ⟨depth, [], []⟩

/-- The registers saved at the exception. -/
structure SavedRegs where
  pc : BitVec 32
  ra : BitVec 32
  sp : BitVec 32

/-- `ra` after the first search: unchanged when its slot was not found. -/
def callerRa (m : Mem) (f : Frame) (s : SavedRegs) : BitVec 32 :=
  if f.raOffset ≠ 0 then load32 m (s.sp + f.raOffset) else s.ra

/-- `sp` after the first search. -/
def callerSp (f : Frame) (s : SavedRegs) : BitVec 32 :=
  if f.stackSize ≠ 0 then s.sp + f.stackSize else s.sp

/-- `calltrace_irq`, for `size = 8` frames. The first search ends at the marker without
returning. -/
def calltraceIrq (img : ImageData) (m : Mem) (fuel : ℕ) (s : SavedRegs) : Option TraceResult :=
  match scanLoop signedShort m fuel s.ra .unknown with
  | none => none
  | some e =>
      (traceLoop img m fuel 7 1 (callerRa m e.frame s) (callerSp e.frame s)).map
        (·.after [.calltrace s.pc (s.pc - img.relocationOffset), raLine img 0 s.ra] e.reads)

/-! ### What a search looks for -/

section Scan
variable (slot : BitVec 16 → BitVec 32) (m : Mem) (a : BitVec 32)

/-- The address `i` words below `a`. -/
def wordBelow (a : BitVec 32) (i : ℕ) : BitVec 32 :=
  a - BitVec.ofNat 32 (4 * i)

/-- The instruction `i` words below `a`. -/
def instBelow (i : ℕ) : Inst :=
  decodeInst (load32 m (wordBelow a i))

/-- What the `n` words from `a` down say of the frame: the lowest adjustment and the lowest
save among them. -/
def frameAfter : ℕ → Frame
  | 0 => .unknown
  | n + 1 => (frameAfter n).step slot (instBelow m a n)

/-- The last of the `n` words from `a` down is the marker. -/
def markerAt : ℕ → Bool
  | 0 => false
  | n + 1 => instBelow m a n = .luiGp

/-- `n` words from `a` down are enough: the last of them is the marker, or they give both the
slot and the size. -/
def Enough (n : ℕ) : Prop :=
  markerAt m a n = true ∨ (frameAfter slot m a n).Complete

/-- `n` is the least number of words that is enough. -/
structure ScanEnds (n : ℕ) : Prop where
  enough : Enough slot m a n
  least : ∀ i < n, ¬ Enough slot m a i

/-- The end of a search that takes `n` words. -/
def scanEnd (n : ℕ) : ScanEnd :=
  ⟨frameAfter slot m a n, markerAt m a n, (List.range n).map (wordBelow a)⟩

end Scan

/-! ### The loop over the code -/

variable {a : BitVec 32} {fuel : ℕ}

section Scan
variable {slot : BitVec 16 → BitVec 32} {m : Mem} {a : BitVec 32}

/-- No words below is the address itself. -/
theorem wordBelow_zero (a : BitVec 32) : wordBelow a 0 = a := by
  simp [wordBelow]

/-- One word further down. -/
theorem wordBelow_sub (a : BitVec 32) (i : ℕ) : wordBelow a i - 4 = wordBelow a (i + 1) := by
  rw [wordBelow, wordBelow, Nat.mul_succ, BitVec.ofNat_add, BitVec.sub_sub]
  rfl

/-- One round of the loop, `i` words down. -/
theorem scanLoop_succ (fuel i : ℕ) :
    scanLoop slot m (fuel + 1) (wordBelow a i) (frameAfter slot m a i) =
      if (frameAfter slot m a i).Complete then some ⟨frameAfter slot m a i, false, []⟩
      else if markerAt m a (i + 1) then some ⟨frameAfter slot m a (i + 1), true, [wordBelow a i]⟩
      else
        (scanLoop slot m fuel (wordBelow a (i + 1)) (frameAfter slot m a (i + 1))).map fun e =>
          { e with reads := wordBelow a i :: e.reads } := by
  rw [scanLoop, wordBelow_sub]
  by_cases hmark : instBelow m a i = .luiGp
  · have hsame : frameAfter slot m a (i + 1) = frameAfter slot m a i := by
      rw [frameAfter, hmark]
      rfl
    have hbool : markerAt m a (i + 1) = true := decide_eq_true hmark
    rw [instBelow] at hmark
    rw [hsame, if_pos hmark, if_pos hbool]
  · have hbool : ¬ markerAt m a (i + 1) = true := fun h => hmark (of_decide_eq_true h)
    rw [if_neg hbool, frameAfter]
    rw [instBelow] at hmark ⊢
    rw [if_neg hmark]

/-- The loop `i` words down, when `k` more are enough. -/
theorem scanLoop_complete_from {i k : ℕ} (h : ScanEnds slot m a (i + k))
    (hmark : markerAt m a i = false) (hfuel : k ≤ fuel) :
    scanLoop slot m (fuel + 1) (wordBelow a i) (frameAfter slot m a i) =
      some ⟨frameAfter slot m a (i + k), markerAt m a (i + k),
        (List.range' i k).map (wordBelow a)⟩ := by
  induction k generalizing i fuel with
  | zero =>
      have hcomplete : (frameAfter slot m a i).Complete := by
        refine h.enough.resolve_left ?_
        rw [Nat.add_zero, hmark]
        exact Bool.false_ne_true
      rw [scanLoop_succ, if_pos hcomplete, Nat.add_zero, hmark]
      rfl
  | succ k ih =>
      have hopen : ¬ (frameAfter slot m a i).Complete :=
        fun hc => h.least i (by omega) (.inr hc)
      rw [scanLoop_succ, if_neg hopen]
      by_cases hnext : markerAt m a (i + 1) = true
      · -- the marker is enough, so it is the last word
        have hk : k = 0 := by
          by_contra hne
          exact h.least (i + 1) (by omega) (.inl hnext)
        subst hk
        rw [if_pos hnext, Nat.zero_add, hnext]
        rfl
      · obtain ⟨fuel, rfl⟩ := Nat.exists_eq_add_of_le' (show 1 ≤ fuel by omega)
        have hstep := ih (i := i + 1) (by rwa [Nat.add_right_comm, Nat.add_assoc])
          (Bool.eq_false_of_not_eq_true hnext) (show k ≤ fuel by omega)
        rw [if_neg hnext, hstep, Option.map_some, Nat.add_right_comm, Nat.add_assoc,
          List.range'_succ, List.map_cons]

/-- The converse: a search that ends, ends where the least number of words is enough. -/
theorem scanLoop_sound_from {i : ℕ} {e : ScanEnd} (hleast : ∀ j < i, ¬ Enough slot m a j)
    (h : scanLoop slot m fuel (wordBelow a i) (frameAfter slot m a i) = some e) :
    ∃ n, ScanEnds slot m a n := by
  induction fuel generalizing i e with
  | zero => cases h
  | succ fuel ih =>
      rw [scanLoop_succ] at h
      by_cases hcomplete : (frameAfter slot m a i).Complete
      · exact ⟨i, .inr hcomplete, hleast⟩
      rw [if_neg hcomplete] at h
      by_cases henough : Enough slot m a i
      · exact ⟨i, henough, hleast⟩
      have hleast' : ∀ j < i + 1, ¬ Enough slot m a j := by
        intro j hj
        rcases Nat.lt_succ_iff_lt_or_eq.mp hj with hlt | rfl
        · exact hleast j hlt
        · exact henough
      by_cases hnext : markerAt m a (i + 1) = true
      · exact ⟨i + 1, .inl hnext, hleast'⟩
      · rw [if_neg hnext] at h
        obtain ⟨e', he', -⟩ := Option.map_eq_some_iff.mp h
        exact ih hleast' he'

/-- **The loop finds what it searches**, with fuel for one round more than there are words. -/
theorem scanLoop_complete {n : ℕ} (h : ScanEnds slot m a n) (hfuel : n < fuel) :
    scanLoop slot m fuel a .unknown = some (scanEnd slot m a n) := by
  obtain ⟨fuel, rfl⟩ := Nat.exists_eq_add_of_le' (Nat.zero_lt_of_lt hfuel)
  have hfrom := scanLoop_complete_from (i := 0) (k := n) (by rwa [Nat.zero_add]) rfl
    (Nat.le_of_lt_succ hfuel)
  rw [wordBelow_zero, Nat.zero_add, ← List.range_eq_range'] at hfrom
  exact hfrom

/-- More fuel does not change how a search ends. -/
theorem scanLoop_mono {fuel' : ℕ} {f : Frame} {e : ScanEnd}
    (h : scanLoop slot m fuel a f = some e) (hle : fuel ≤ fuel') :
    scanLoop slot m fuel' a f = some e := by
  induction fuel generalizing fuel' a f e with
  | zero => cases h
  | succ fuel ih =>
      obtain ⟨fuel', rfl⟩ := Nat.exists_eq_add_of_le' (Nat.le_trans (Nat.le_add_left 1 fuel) hle)
      rw [scanLoop] at h ⊢
      by_cases hcomplete : f.Complete
      · rwa [if_pos hcomplete] at h ⊢
      rw [if_neg hcomplete] at h ⊢
      by_cases hmark : decodeInst (load32 m a) = .luiGp
      · rwa [if_pos hmark] at h ⊢
      rw [if_neg hmark] at h ⊢
      obtain ⟨e', he', rfl⟩ := Option.map_eq_some_iff.mp h
      rw [ih he' (by omega), Option.map_some]

/-- **A search that ends** has found what it searches. -/
theorem scanLoop_sound {e : ScanEnd} (h : scanLoop slot m fuel a .unknown = some e) :
    ∃ n, ScanEnds slot m a n ∧ e = scanEnd slot m a n := by
  have hleast : ∀ j < 0, ¬ Enough slot m a j := fun j hj => absurd hj (Nat.not_lt_zero j)
  obtain ⟨n, hn⟩ := scanLoop_sound_from hleast (by rwa [wordBelow_zero])
  refine ⟨n, hn, ?_⟩
  have hmore := scanLoop_mono h (Nat.le_max_left fuel (n + 1))
  have hend := scanLoop_complete hn (Nat.lt_of_lt_of_le (Nat.lt_succ_self n)
    (Nat.le_max_right fuel (n + 1)))
  exact Option.some.inj (hmore.symm.trans hend)

end Scan

/-! ### The chain of frames -/

/-- The word at `a` lies inside the relocated image. -/
def ImageData.Holds (img : ImageData) (a : BitVec 32) : Prop :=
  img.relocationBase.toNat ≤ a.toNat ∧
    a.toNat + 4 ≤ img.relocationBase.toNat + img.rtbootLength.toNat

/-- A search from `a` takes `n` words, all of them inside the image. -/
structure SearchInside (img : ImageData) (slot : BitVec 16 → BitVec 32) (m : Mem)
    (a : BitVec 32) (n : ℕ) : Prop where
  ends : ScanEnds slot m a n
  inside : ∀ i < n, img.Holds (wordBelow a i)

/-- From `ra` and `sp` on, for the frames left: a return address that is followed leads to a
search inside the image, and unless that ends at the marker, so does the caller's, which is
taken from its slot in the stack. -/
def Unwinds (img : ImageData) (m : Mem) : ℕ → BitVec 32 → BitVec 32 → Prop
  | 0, _, _ => True
  | left + 1, ra, sp => InKseg0 ra → ¬ img.Beyond ra →
      ∃ n, SearchInside img absShort m ra n ∧
        (markerAt m ra n = false →
          Unwinds img m left (load32 m (sp + (frameAfter absShort m ra n).raOffset))
            (sp + (frameAfter absShort m ra n).stackSize))

variable {slot : BitVec 16 → BitVec 32}

section Chain
variable {img : ImageData} {m : Mem}

/-- A search inside the image reads only the image. -/
theorem SearchInside.reads {n : ℕ}
    (h : SearchInside img slot m a n) : ∀ x ∈ (scanEnd slot m a n).reads, img.Holds x := by
  intro x hx
  obtain ⟨i, hi, rfl⟩ := List.mem_map.mp hx
  exact h.inside i (List.mem_range.mp hi)

/-- A search whose reads are all inside. -/
theorem searchInside_of_reads {n : ℕ}
    (hends : ScanEnds slot m a n) (h : ∀ x ∈ (scanEnd slot m a n).reads, img.Holds x) :
    SearchInside img slot m a n :=
  ⟨hends, fun i hi => h _ (List.mem_map.mpr ⟨i, List.mem_range.mpr hi, rfl⟩)⟩

/-! #### One frame -/

section Frame
variable {fuel left depth : ℕ} {ra sp : BitVec 32}

/-- Outside KSEG0 the trace ends. -/
theorem traceLoop_outside (hkseg : ¬ InKseg0 ra) :
    traceLoop img m fuel (left + 1) depth ra sp = some ⟨depth, [], []⟩ :=
  if_neg hkseg

/-- Beyond the text it ends with the address printed. -/
theorem traceLoop_beyond (hkseg : InKseg0 ra) (hbeyond : img.Beyond ra) :
    traceLoop img m fuel (left + 1) depth ra sp = some ⟨depth, [raLine img depth ra], []⟩ := by
  rw [traceLoop, if_pos hkseg, if_pos hbeyond]

/-- Elsewhere it searches the prologue and goes on. -/
theorem traceLoop_search (hkseg : InKseg0 ra) (hbeyond : ¬ img.Beyond ra) :
    traceLoop img m fuel (left + 1) depth ra sp =
      (scanLoop absShort m fuel ra .unknown).bind fun e =>
        if e.marker then some ⟨depth + 1, [raLine img depth ra, .foundFlag], e.reads⟩
        else
          (traceLoop img m fuel left (depth + 1) (load32 m (sp + e.frame.raOffset))
            (sp + e.frame.stackSize)).map (·.after [raLine img depth ra] e.reads) := by
  rw [traceLoop, if_pos hkseg, if_neg hbeyond]
  cases scanLoop absShort m fuel ra .unknown with
  | none => rfl
  | some e => rfl

end Frame

/-! #### Whole chains -/

/-- A chain that ends and reads no word outside the image is one of searches inside. -/
theorem traceLoop_sound {left depth : ℕ} {ra sp : BitVec 32} {r : TraceResult}
    (h : traceLoop img m fuel left depth ra sp = some r) (hreads : ∀ x ∈ r.reads, img.Holds x) :
    Unwinds img m left ra sp := by
  induction left generalizing depth ra sp r with
  | zero => trivial
  | succ left ih =>
      intro hkseg hbeyond
      rw [traceLoop_search hkseg hbeyond] at h
      obtain ⟨e, hscan, hrest⟩ := Option.bind_eq_some_iff.mp h
      obtain ⟨n, hends, rfl⟩ := scanLoop_sound hscan
      by_cases hmark : markerAt m ra n = true
      · obtain rfl := Option.some.inj ((if_pos hmark).symm.trans hrest)
        refine ⟨n, searchInside_of_reads hends hreads, fun hfalse => ?_⟩
        rw [hmark] at hfalse
        cases hfalse
      · obtain ⟨r', hr', rfl⟩ := Option.map_eq_some_iff.mp ((if_neg hmark).symm.trans hrest)
        refine ⟨n, searchInside_of_reads hends fun x hx => ?_, fun _ => ih hr' fun x hx => ?_⟩
        · exact hreads x (List.mem_append_left _ hx)
        · exact hreads x (List.mem_append_right _ hx)

/-- A chain of searches inside ends, at the latest with its last frame. -/
theorem traceLoop_complete {left : ℕ} {ra sp : BitVec 32} (h : Unwinds img m left ra sp)
    (depth : ℕ) :
    ∃ enough, ∀ fuel ≥ enough, ∃ r, traceLoop img m fuel left depth ra sp = some r ∧
      r.depth ≤ depth + left ∧ ∀ x ∈ r.reads, img.Holds x := by
  induction left generalizing depth ra sp with
  | zero => exact ⟨0, fun fuel _ => ⟨⟨depth, [], []⟩, rfl, Nat.le_refl _, List.forall_mem_nil _⟩⟩
  | succ left ih =>
      by_cases hkseg : InKseg0 ra
      · by_cases hbeyond : img.Beyond ra
        · exact ⟨0, fun fuel _ => ⟨_, traceLoop_beyond hkseg hbeyond, Nat.le_add_right _ _,
            List.forall_mem_nil _⟩⟩
        · obtain ⟨n, hsearch, hrest⟩ := h hkseg hbeyond
          by_cases hmark : markerAt m ra n = true
          · refine ⟨n + 1, fun fuel hfuel => ⟨⟨depth + 1, [raLine img depth ra, .foundFlag],
              (scanEnd absShort m ra n).reads⟩, ?_, Nat.add_le_add_left (by omega) _,
              hsearch.reads⟩⟩
            rw [traceLoop_search hkseg hbeyond, scanLoop_complete hsearch.ends hfuel]
            exact if_pos hmark
          · obtain ⟨enough, hloop⟩ := ih (hrest (Bool.eq_false_of_not_eq_true hmark)) (depth + 1)
            refine ⟨max enough (n + 1), fun fuel hfuel => ?_⟩
            obtain ⟨r, hr, hdepth, hreads⟩ := hloop fuel (by omega)
            refine ⟨r.after [raLine img depth ra] (scanEnd absShort m ra n).reads, ?_, ?_, ?_⟩
            · rw [traceLoop_search hkseg hbeyond, scanLoop_complete hsearch.ends (by omega)]
              exact (if_neg hmark).trans (Option.map_eq_some_iff.mpr ⟨r, hr, rfl⟩)
            · exact Nat.le_trans hdepth (by omega)
            · intro x hx
              rcases List.mem_append.mp hx with hx | hx
              · exact hsearch.reads x hx
              · exact hreads x hx
      · exact ⟨0, fun fuel _ => ⟨_, traceLoop_outside hkseg, Nat.le_add_right _ _,
          List.forall_mem_nil _⟩⟩

end Chain

/-- The unwinder is safe on an input: it ends after at most eight frames, and every word of
code it reads is inside the image. -/
def CalltraceSafe (img : ImageData) (m : Mem) (s : SavedRegs) : Prop :=
  ∃ fuel r, calltraceIrq img m fuel s = some r ∧ r.depth ≤ 8 ∧ ∀ x ∈ r.reads, img.Holds x

/-- A search reads the word it starts from. -/
theorem SearchInside.start {img : ImageData} {m : Mem} {n : ℕ} (h : SearchInside img slot m a n) :
    img.Holds a := by
  have hpos : 0 < n := by
    rcases Nat.eq_zero_or_pos n with rfl | hpos
    · rcases h.ends.enough with hmark | hcomplete
      · exact absurd hmark Bool.false_ne_true
      · exact absurd rfl hcomplete.1
    · exact hpos
  have := h.inside 0 hpos
  rwa [wordBelow_zero] at this

/-- What a safe run says of its first search and of the frames behind it. -/
theorem CalltraceSafe.searches {img : ImageData} {m : Mem} {s : SavedRegs}
    (h : CalltraceSafe img m s) :
    ∃ n, SearchInside img signedShort m s.ra n ∧
      Unwinds img m 7 (callerRa m (frameAfter signedShort m s.ra n) s)
        (callerSp (frameAfter signedShort m s.ra n) s) := by
  obtain ⟨fuel, r, hrun, -, hreads⟩ := h
  rw [calltraceIrq] at hrun
  cases hscan : scanLoop signedShort m fuel s.ra .unknown with
  | none =>
      rw [hscan] at hrun
      cases hrun
  | some e =>
      obtain ⟨n, hends, rfl⟩ := scanLoop_sound hscan
      rw [hscan] at hrun
      obtain ⟨r', hr', rfl⟩ := Option.map_eq_some_iff.mp hrun
      refine ⟨n, searchInside_of_reads hends fun x hx => ?_, traceLoop_sound hr' fun x hx => ?_⟩
      · exact hreads x (List.mem_append_left _ hx)
      · exact hreads x (List.mem_append_right _ hx)

/-- **When the unwinder is safe**: the search from the saved `ra` ends inside the image, and
so do those from the return addresses it finds in the stack and follows. -/
theorem calltraceIrq_safe_iff (img : ImageData) (m : Mem) (s : SavedRegs) :
    CalltraceSafe img m s ↔
      ∃ n, SearchInside img signedShort m s.ra n ∧
        Unwinds img m 7 (callerRa m (frameAfter signedShort m s.ra n) s)
          (callerSp (frameAfter signedShort m s.ra n) s) := by
  refine ⟨CalltraceSafe.searches, ?_⟩
  rintro ⟨n, hsearch, hchain⟩
  obtain ⟨enough, hloop⟩ := traceLoop_complete hchain 1
  obtain ⟨r, hr, hdepth, hreads⟩ := hloop (max enough (n + 1)) (Nat.le_max_left _ _)
  refine ⟨max enough (n + 1), r.after [.calltrace s.pc (s.pc - img.relocationOffset),
    raLine img 0 s.ra] (scanEnd signedShort m s.ra n).reads, ?_, hdepth, ?_⟩
  · rw [calltraceIrq, scanLoop_complete hsearch.ends (by omega)]
    exact Option.map_eq_some_iff.mpr ⟨r, hr, rfl⟩
  · intro x hx
    rcases List.mem_append.mp hx with hx | hx
    · exact hsearch.reads x hx
    · exact hreads x hx

-- a function of four words whose caller is not known
example : (calltraceIrq ⟨0x80100000, 0, 16⟩
      (memOf 0x80100000 (be32 0x27BDFFE8 ++ be32 0xAFBF0014 ++ be32 0 ++ be32 0)) 5
      ⟨0x80100008, 0x8010000C, 0x80200000⟩).map (fun r => (r.depth, r.reads)) =
    some (1, [0x8010000C, 0x80100008, 0x80100004, 0x80100000]) := by
  decide +kernel

/-- The saved `ra` is not checked: when it is zero, the word at address zero is read. -/
theorem calltraceIrq_reads_null :
    ¬ CalltraceSafe ⟨0x83F00000, 0x03F00000, 0x00080000⟩ (fun _ => 0)
      ⟨0x83F00100, 0, 0x83E00000⟩ := by
  intro h
  obtain ⟨n, hsearch, -⟩ := h.searches
  exact absurd hsearch.start.1 (by decide)

end RtBoot
