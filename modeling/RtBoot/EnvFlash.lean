import RtBoot.Env

/-!
# The Environment in Flash

The environment survives a reboot as an image in flash: the header `E N V NUL`, then the
strings of the nodes one behind the other, each with its terminator, then zeros.
`env_save` packs the list into such an image and `env_init` walks an image from NUL to
NUL and rebuilds the list.

A pointer into a buffer is modelled as what the buffer holds from there to its end: the
pointer is at the end when nothing is left, and a read or write that would leave the
buffer makes the function return `none`. The reader stands on the terminator of the
previous string (at first the NUL of the header) and stops where the next byte is a NUL
as well.

## Main results

* `saveLoop_eq`: the writer lays the strings out behind the header, when they fit.
* `envInitLoop_packed`: the reader adds exactly those strings.
* `envInit_envSave`: after any calls of `env_set` and `env_unset` on a store that came
  from blank flash, saving and booting rebuilds the store.
-/

namespace RtBoot

/-- `ENV_ENABLE`. -/
def envEnable : BitVec 32 :=
  1

/-- The four header bytes `E`, `N`, `V` and NUL. -/
def envHeader : List UInt8 :=
  [0x45, 0x4E, 0x56, 0x00]

/-- `env_is_end`: both bytes at the pointer are NUL. The second is read only behind a
NUL. -/
def envIsEnd : List UInt8 → Option Bool
  | [] => none
  | b :: rest =>
      if b = 0 then rest.head?.map fun c => decide (c = 0) else some false

/-- The loop of `env_init` from `ptr` on, before its allocation number `k`. A failed
allocation ends it early, with the nodes added so far. -/
def envInitLoop (alloc : ℕ → Bool) (k : ℕ) (ptr : List UInt8) (ctb : EnvCtb) :
    Option EnvCtb :=
  match ptr with
  | [] => some ctb
  | b :: rest =>
      match envIsEnd (b :: rest) with
      | none => none
      | some true => some ctb
      | some false =>
          match CString.read rest with
          | none => none
          | some data =>
              if alloc k then
                envInitLoop alloc (k + 1) (rest.drop data.strlen) (envNodeAdd ctb data)
              else
                some ctb
termination_by ptr.length
decreasing_by
  rw [List.length_drop, List.length_cons]
  omega

/-- `env_init` on the table `ctb`: `flag` and `length` are what the board reports, `flash`
is what `board_get_env_read` puts into the buffer of `length` bytes, and `alloc k` is the
result of allocation number `k`. -/
def envInit (flag length : BitVec 32) (flash : List UInt8) (alloc : ℕ → Bool)
    (ctb : EnvCtb) : Option EnvCtb :=
  let ctb := { ctb with flag, length := if flag = envEnable then length else ctb.length }
  if ctb.length = 0 ∨ alloc 0 = false then some ctb
  else
    let ctb := { ctb with free := ctb.length - 4 }
    match flash with
    | b₀ :: b₁ :: b₂ :: b₃ :: rest =>
        if [b₀, b₁, b₂, b₃] ≠ envHeader then some ctb
        else envInitLoop alloc 1 (b₃ :: rest) ctb
    | _ => none

/-- Store `bytes` in the buffer at offset `i`; `none` when they do not fit. -/
def storeAt (buf : List UInt8) (i : ℕ) (bytes : List UInt8) : Option (List UInt8) :=
  if i + bytes.length ≤ buf.length then
    some (buf.take i ++ bytes ++ buf.drop (i + bytes.length))
  else none

/-- The loop of `env_save`: copy the strings, each with its terminator, up to the first
that would reach the end of the buffer. -/
def saveLoop : List CString → ℕ → List UInt8 → Option (List UInt8)
  | [], _, buf => some buf
  | node :: nodes, ptr, buf =>
      if ptr + node.strlen < buf.length then
        (storeAt buf ptr (node.bytes ++ [0])).bind (saveLoop nodes (ptr + node.strlen + 1))
      else some buf

/-- `env_save`: the image handed to `board_get_env_write`, if any. The outer `none` is a
store outside the buffer. -/
def envSave (alloc : Bool) (ctb : EnvCtb) : Option (Option (List UInt8)) :=
  if ctb.length = 0 ∨ alloc = false then some none
  else
    (storeAt (List.replicate ctb.length.toNat 0) 0 envHeader).bind fun buf =>
      (saveLoop ctb.head 4 buf).map some

/-! ### Writing -/

/-- The strings one behind the other, each with its terminator. -/
def packed (nodes : List CString) : List UInt8 :=
  nodes.flatMap fun node => node.bytes ++ [0]

@[simp] theorem packed_nil : packed [] = [] :=
  rfl

theorem packed_cons (node : CString) (nodes : List CString) :
    packed (node :: nodes) = node.bytes ++ 0 :: packed nodes := by
  simp [packed]

theorem length_packed (nodes : List CString) : (packed nodes).length = storedBytes nodes := by
  induction nodes with
  | nil => rfl
  | cons node nodes ih =>
      rw [packed_cons, List.length_append, List.length_cons, ih, storedBytes_cons, CString.strlen]
      omega

/-- A store at the end of what has been written so far takes the place of zeros. -/
theorem storeAt_zeros (written bytes : List UInt8) {n : ℕ} (h : bytes.length ≤ n) :
    storeAt (written ++ List.replicate n 0) written.length bytes =
      some (written ++ bytes ++ List.replicate (n - bytes.length) 0) := by
  rw [storeAt, if_pos (by simpa using h), List.take_left]
  simp [List.drop_append]

theorem storeAt_envHeader {n : ℕ} (h : 4 ≤ n) :
    storeAt (List.replicate n 0) 0 envHeader = some (envHeader ++ List.replicate (n - 4) 0) :=
  storeAt_zeros [] envHeader h

variable {nodes : List CString} {ctb : EnvCtb} {alloc : ℕ → Bool} {length : BitVec 32}

/-- **The writer lays out the strings** behind what has been written, if they fit. -/
theorem saveLoop_eq {n : ℕ} (h : storedBytes nodes ≤ n) (written : List UInt8) :
    saveLoop nodes written.length (written ++ List.replicate n 0) =
      some (written ++ packed nodes ++ List.replicate (n - storedBytes nodes) 0) := by
  induction nodes generalizing written n with
  | nil => simp [saveLoop]
  | cons node nodes ih =>
      rw [storedBytes_cons] at h
      have hlen : (node.bytes ++ [0]).length = node.strlen + 1 := by simp [CString.strlen]
      have hfit : written.length + node.strlen < (written ++ List.replicate n 0).length := by
        rw [List.length_append, List.length_replicate]
        omega
      have hnext : written.length + node.strlen + 1 = (written ++ (node.bytes ++ [0])).length := by
        rw [List.length_append, hlen]
        omega
      rw [saveLoop, if_pos hfit, storeAt_zeros _ _ (by rw [hlen]; omega), Option.bind_some, hnext,
        hlen, ih (by omega), storedBytes_cons, Nat.sub_sub]
      simp [packed_cons]

/-- **A store that fits is written completely**: the header, the strings, zeros. -/
theorem envSave_eq (hfit : storedBytes ctb.head + 4 ≤ ctb.length.toNat) :
    envSave true ctb = some (some (envHeader ++ packed ctb.head ++
      List.replicate (ctb.length.toNat - 4 - storedBytes ctb.head) 0)) := by
  have hlen : ctb.length ≠ 0 := by
    intro h
    rw [h] at hfit
    exact absurd hfit (by simp)
  have hloop : saveLoop ctb.head 4 (envHeader ++ List.replicate (ctb.length.toNat - 4) 0) = _ :=
    saveLoop_eq (by omega) envHeader
  rw [envSave, if_neg (by simpa using hlen), storeAt_envHeader (by omega), Option.bind_some, hloop,
    Option.map_some]

/-! ### Reading -/

/-- One round of the reader over a non-empty string and its terminator. -/
theorem envInitLoop_string {s : CString} (hs : s.bytes ≠ []) (alloc : ℕ → Bool) (k : ℕ)
    (rest : List UInt8) (ctb : EnvCtb) :
    envInitLoop alloc k (0 :: (s.bytes ++ 0 :: rest)) ctb =
      if alloc k then envInitLoop alloc (k + 1) (0 :: rest) (envNodeAdd ctb s) else some ctb := by
  -- the first byte of the string is not a NUL, so this is not the end
  have hend : envIsEnd (0 :: (s.bytes ++ 0 :: rest)) = some false := by
    obtain ⟨b, bs, hb⟩ := List.exists_cons_of_ne_nil hs
    have hb0 : b ≠ 0 := fun h => s.noNul (by simp [hb, h])
    simp [envIsEnd, hb, hb0]
  have hdrop : (s.bytes ++ 0 :: rest).drop s.strlen = 0 :: rest := List.drop_left
  rw [envInitLoop, hend]
  simp only [CString.read_append, hdrop]

/-- **The reader adds the packed strings.** From the terminator in front of non-empty
strings that are packed one behind the other, with a further NUL behind the last. -/
theorem envInitLoop_packed (halloc : ∀ k, alloc k = true) (hne : ∀ node ∈ nodes, node.bytes ≠ [])
    (k : ℕ) (rest : List UInt8) (ctb : EnvCtb) :
    envInitLoop alloc k (0 :: (packed nodes ++ 0 :: rest)) ctb =
      some (nodes.foldl envNodeAdd ctb) := by
  induction nodes generalizing k ctb with
  | nil => simp [envInitLoop, envIsEnd]
  | cons node nodes ih =>
      have hcons : packed (node :: nodes) ++ 0 :: rest =
          node.bytes ++ 0 :: (packed nodes ++ 0 :: rest) := by simp [packed_cons]
      rw [hcons, envInitLoop_string (hne node List.mem_cons_self), if_pos (halloc k),
        ih (fun node hnode => hne node (List.mem_cons_of_mem _ hnode)), List.foldl_cons]

/-! ### The round trip -/

/-- What `env_set` and `env_unset` leave of a store that came from blank flash: the region
stays the same, the counters follow the list, and no string is empty. -/
structure EnvOnFlash (length : BitVec 32) (ctb : EnvCtb) : Prop where
  flag : ctb.flag = envEnable
  region : ctb.length = length
  account : EnvAccount (length - 4) ctb
  nonempty : ∀ node ∈ ctb.head, node.bytes ≠ []

theorem envEntry_ne_nil (name data : CString) : (envEntry name data).bytes ≠ [] := by
  simp [envEntry, eqSign]

theorem EnvOnFlash.nodeAdd (h : EnvOnFlash length ctb)
    {node : CString} (hnode : node.bytes ≠ []) : EnvOnFlash length (envNodeAdd ctb node) := by
  refine ⟨h.flag, h.region, h.account.nodeAdd node, ?_⟩
  intro x hx
  rcases List.mem_append.mp hx with hx | hx
  · exact h.nonempty x hx
  · exact List.mem_singleton.mp hx ▸ hnode

theorem EnvOnFlash.unset (h : EnvOnFlash length ctb)
    (past : ℕ → ℕ → UInt8) (name : CString) : EnvOnFlash length (envUnset past ctb name) := by
  have hregion : (envUnset past ctb name).flag = ctb.flag ∧
      (envUnset past ctb name).length = ctb.length := by
    rw [envUnset]
    split
    · rw [envNodeDelete]
      split <;> exact ⟨rfl, rfl⟩
    · exact ⟨rfl, rfl⟩
  refine ⟨hregion.1.trans h.flag, hregion.2.trans h.region, h.account.unset past name,
    fun node hnode => ?_⟩
  rw [envUnset_head] at hnode
  exact h.nonempty node (List.mem_of_mem_eraseP hnode)

/-- `env_set` and `env_unset` keep the invariant. -/
theorem EnvOnFlash.step {ctb' : EnvCtb} {call : EnvCall}
    (h : EnvOnFlash length ctb) (hstep : envStep ctb call = some ctb') :
    EnvOnFlash length ctb' :=
  envStep_rule (h.unset call.past call.name)
    (fun data hmid => hmid.nodeAdd (envEntry_ne_nil call.name data)) hstep

/-- The table from which `env_init` adds the strings it finds. -/
def bootTable (length : BitVec 32) : EnvCtb :=
  ⟨envEnable, length, length - 4, 0, []⟩

theorem envOnFlash_bootTable (length : BitVec 32) : EnvOnFlash length (bootTable length) :=
  ⟨rfl, rfl, ⟨rfl, by simp [bootTable]⟩, by simp [bootTable]⟩

/-- Blank flash leaves the empty table. -/
theorem envInit_blank {flash : List UInt8}
    {blank : EnvCtb} (hlen : length ≠ 0) (halloc : ∀ k, alloc k = true)
    (hflash : ¬ envHeader <+: flash)
    (h : envInit envEnable length flash alloc EnvCtb.reset = some blank) :
    blank = bootTable length := by
  simp only [envInit, EnvCtb.reset, if_true, hlen, halloc, Bool.true_eq_false, or_self,
    if_false] at h
  split at h
  · next b₀ b₁ b₂ b₃ rest =>
      split at h
      · exact (Option.some.inj h).symm
      · next hne =>
          have heq : [b₀, b₁, b₂, b₃] = envHeader := not_ne_iff.mp hne
          exact absurd ⟨rest, by rw [← heq]; rfl⟩ hflash
  · exact absurd h (by simp)

/-- Behind the header the reader starts from the empty table. -/
theorem envInit_header (hlen : length ≠ 0) (halloc : alloc 0 = true) (rest : List UInt8) :
    envInit envEnable length (envHeader ++ rest) alloc EnvCtb.reset =
      envInitLoop alloc 1 (0 :: rest) (bootTable length) := by
  simp only [envInit, EnvCtb.reset, envHeader, List.cons_append, List.nil_append, if_true, hlen,
    halloc, Bool.true_eq_false, or_self, if_false, ne_eq, not_true_eq_false]
  rfl

/-- A packed image is read into the table of its strings. -/
theorem envInit_packed (hlen : length ≠ 0) (halloc : ∀ k, alloc k = true)
    (hne : ∀ node ∈ nodes, node.bytes ≠ []) (rest : List UInt8) :
    envInit envEnable length (envHeader ++ packed nodes ++ 0 :: rest) alloc EnvCtb.reset =
      some (nodes.foldl envNodeAdd (bootTable length)) := by
  rw [List.append_assoc, envInit_header hlen (halloc 0)]
  exact envInitLoop_packed halloc hne 1 rest (bootTable length)

theorem foldl_envNodeAdd (h : EnvOnFlash length ctb) (hne : ∀ node ∈ nodes, node.bytes ≠ []) :
    EnvOnFlash length (nodes.foldl envNodeAdd ctb) ∧
      (nodes.foldl envNodeAdd ctb).head = ctb.head ++ nodes := by
  induction nodes generalizing ctb with
  | nil => exact ⟨h, by simp⟩
  | cons node nodes ih =>
      have hadd := h.nodeAdd (hne node List.mem_cons_self)
      obtain ⟨hflash, hhead⟩ := ih hadd fun x hx => hne x (List.mem_cons_of_mem _ hx)
      refine ⟨hflash, ?_⟩
      rw [List.foldl_cons, hhead, envNodeAdd, List.append_assoc]
      rfl

/-- A table on a region is determined by its list: the counters follow it. -/
theorem EnvOnFlash.eq_of_head {ctb' : EnvCtb}
    (h : EnvOnFlash length ctb) (h' : EnvOnFlash length ctb') (hhead : ctb.head = ctb'.head) :
    ctb = ctb' := by
  have hfree : ctb.free = ctb'.free := by
    have := h.account.free.trans h'.account.free.symm
    rw [hhead] at this
    exact add_right_cancel this
  have hcount : ctb.count = ctb'.count := by
    rw [h.account.count, h'.account.count, hhead]
  have hflag : ctb.flag = ctb'.flag := h.flag.trans h'.flag.symm
  have hlength : ctb.length = ctb'.length := h.region.trans h'.region.symm
  cases ctb
  cases ctb'
  simp_all

/-- **The environment survives a reboot.** Start from what `env_init` leaves on flash
without a header, carry out any calls of `env_set` and `env_unset` (successful or not in
their allocations), and let the strings and one NUL fit behind the header. Then `env_save`
writes an image of the region's length, and `env_init` on that image rebuilds the same
table: the same strings in the same order, the same `count` and the same `free`. -/
theorem envInit_envSave {length : BitVec 32} {flash : List UInt8} {blank ctb : EnvCtb}
    {calls : List EnvCall} {alloc : ℕ → Bool} (halloc : ∀ k, alloc k = true)
    (hflash : ¬ envHeader <+: flash)
    (hblank : envInit envEnable length flash alloc EnvCtb.reset = some blank)
    (hrun : exec envStep blank calls = some ctb) (hfit : storedBytes ctb.head + 5 ≤ length.toNat) :
    ∃ image, envSave true ctb = some (some image) ∧ image.length = length.toNat ∧
      envInit envEnable length image alloc EnvCtb.reset = some ctb := by
  have hlen : length ≠ 0 := by
    rintro rfl
    simp at hfit
  have hctb : EnvOnFlash length ctb := by
    rw [envInit_blank hlen halloc hflash hblank] at hrun
    exact exec_invariant_of_step EnvOnFlash.step (envOnFlash_bootTable length) hrun
  -- at least one zero is left behind the last terminator
  obtain ⟨n, hn⟩ : ∃ n, length.toNat - 4 - storedBytes ctb.head = n + 1 :=
    ⟨length.toNat - storedBytes ctb.head - 5, by omega⟩
  refine ⟨envHeader ++ packed ctb.head ++ 0 :: List.replicate n 0, ?_, ?_, ?_⟩
  · rw [envSave_eq (by rw [hctb.region]; omega), hctb.region, hn, List.replicate_succ]
  · simp [length_packed, envHeader]
    omega
  · rw [envInit_packed hlen halloc hctb.nonempty]
    obtain ⟨hfold, hhead⟩ := foldl_envNodeAdd (envOnFlash_bootTable length) hctb.nonempty
    exact congrArg some (hfold.eq_of_head hctb (by rw [hhead]; rfl))

/-- Erased flash on the board's region of `0x2000` bytes. -/
theorem envInit_erased :
    envInit envEnable 0x2000 (List.replicate 0x2000 0xFF) (fun _ => true) EnvCtb.reset =
      some (bootTable 0x2000) := by
  rw [List.replicate_succ, List.replicate_succ, List.replicate_succ, List.replicate_succ]
  rfl

/-- On the board's region of `0x2000` bytes of erased flash, `a=1` survives a reboot. -/
theorem envInit_envSave_one :
    ∃ ctb image,
      envInit envEnable 0x2000 (List.replicate 0x2000 0xFF) (fun _ => true) EnvCtb.reset =
        some (bootTable 0x2000) ∧
      exec envStep (bootTable 0x2000)
        [⟨⟨[0x61], by decide⟩, some ⟨[0x31], by decide⟩, fun _ _ => 0, true⟩] = some ctb ∧
      envSave true ctb = some (some image) ∧
      envInit envEnable 0x2000 image (fun _ => true) EnvCtb.reset = some ctb := by
  have hrun : exec envStep (bootTable 0x2000)
      [⟨⟨[0x61], by decide⟩, some ⟨[0x31], by decide⟩, fun _ _ => 0, true⟩] = some _ := rfl
  have hflash : ¬ envHeader <+: List.replicate 0x2000 (0xFF : UInt8) := by
    rw [List.replicate_succ, envHeader, List.cons_prefix_cons]
    intro h
    exact absurd h.1 (by decide)
  obtain ⟨image, hsave, -, hinit⟩ :=
    envInit_envSave (fun _ => rfl) hflash envInit_erased hrun (by decide)
  exact ⟨_, image, envInit_erased, hrun, hsave, hinit⟩

end RtBoot
