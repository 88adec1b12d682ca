import RtBoot.EnvParse

/-!
# The Space the Environment Takes

`env_node_add` and `env_node_delete` keep the number of free bytes of the flash region in
a 32-bit word that nothing compares with what is to be stored. As a word the balance is
always right (`EnvAccount`). Over the natural numbers it is right as long as the strings
fit the region, and that is exactly when `env_save` can write them all.

## Main results

* `EnvOnFlash.space_iff`: the balance over the natural numbers says that the strings fit.
* `EnvOnFlash.space_step_iff`: a call keeps it exactly when what it stores fits.
* `env_space_iff_fits`: along every run from a saved image.
-/

namespace RtBoot

/-- The balance of the region over the natural numbers: header, free bytes and strings. -/
def EnvSpace (ctb : EnvCtb) : Prop :=
  4 + ctb.free.toNat + storedBytes ctb.head = ctb.length.toNat
  deriving Decidable

/-- What an `env_set` is about to store fits the region, once the name's own node is gone;
an `env_unset` stores nothing. -/
def EnvFits (ctb : EnvCtb) (call : EnvCall) : Prop :=
  match call.value with
  | none => True
  | some data =>
      4 + storedBytes (ctb.head.eraseP fun node => IsNodeOf call.name node) +
        (call.name.strlen + data.strlen + 2) ≤ ctb.length.toNat

instance (ctb : EnvCtb) (call : EnvCall) : Decidable (EnvFits ctb call) :=
  match h : call.value with
  | none => .isTrue (by rw [EnvFits, h]; trivial)
  | some data =>
      decidable_of_iff (4 + storedBytes (ctb.head.eraseP fun node => IsNodeOf call.name node) +
        (call.name.strlen + data.strlen + 2) ≤ ctb.length.toNat) (by rw [EnvFits, h])

/-- The image `env_save` writes has the whole list in it. -/
def SavedCompletely (ctb : EnvCtb) : Prop :=
  envSave true ctb =
    some (some (envHeader ++ packed ctb.head ++ List.replicate ctb.free.toNat 0))

/-! ### The balance -/

theorem storedBytes_le_of_sublist {xs ys : List CString} (h : xs.Sublist ys) :
    storedBytes xs ≤ storedBytes ys := by
  induction h with
  | slnil => exact Nat.le_refl _
  | cons y _ ih =>
      rw [storedBytes_cons]
      omega
  | cons_cons x _ ih =>
      rw [storedBytes_cons, storedBytes_cons]
      omega

variable {length : BitVec 32} {ctb : EnvCtb}

/-- **The balance says that the strings fit.** -/
theorem EnvOnFlash.space_iff (h : EnvOnFlash length ctb)
    (hlen : 4 ≤ length.toNat) : EnvSpace ctb ↔ 4 + storedBytes ctb.head ≤ length.toNat := by
  rw [EnvSpace, h.region]
  constructor
  · intro hspace
    omega
  · intro hfit
    have hlt : length.toNat < 2 ^ 32 := length.isLt
    have hstored : (BitVec.ofNat 32 (storedBytes ctb.head)).toNat = storedBytes ctb.head := by
      rw [BitVec.toNat_ofNat, Nat.mod_eq_of_lt (by omega)]
    have hroom : (length - 4).toNat = length.toNat - 4 :=
      BitVec.toNat_sub_of_le (BitVec.le_def.mpr hlen)
    have hfree : ctb.free = length - 4 - BitVec.ofNat 32 (storedBytes ctb.head) :=
      eq_sub_of_add_eq h.account.free
    have hle : BitVec.ofNat 32 (storedBytes ctb.head) ≤ length - 4 := by
      rw [BitVec.le_def, hstored, hroom]
      omega
    rw [hfree, BitVec.toNat_sub_of_le hle, hstored, hroom]
    omega

/-- A balanced store is written completely. -/
theorem EnvSpace.savedCompletely (hspace : EnvSpace ctb) :
    SavedCompletely ctb := by
  rw [EnvSpace] at hspace
  have hfree : ctb.length.toNat - 4 - storedBytes ctb.head = ctb.free.toNat := by omega
  rw [SavedCompletely, envSave_eq (by omega), hfree]

/-- **A call keeps the balance exactly when what it stores fits.** -/
theorem EnvOnFlash.space_step_iff {ctb' : EnvCtb} {call : EnvCall}
    (h : EnvOnFlash length ctb) (hlen : 4 ≤ length.toNat) (hspace : EnvSpace ctb)
    (halloc : call.alloc = true) (hstep : envStep ctb call = some ctb') :
    EnvSpace ctb' ↔ EnvFits ctb call := by
  have hfit := (h.space_iff hlen).mp hspace
  rw [(h.step hstep).space_iff hlen, EnvFits, h.region]
  rw [envStep] at hstep
  cases hv : call.value with
  | none =>
      simp only [hv, Option.some.injEq] at hstep
      have hle := storedBytes_le_of_sublist
        (List.eraseP_sublist (p := fun node => decide (IsNodeOf call.name node)) (l := ctb.head))
      rw [← hstep, envUnset_head]
      exact iff_of_true (by omega) trivial
  | some data =>
      simp only [hv, Option.some.injEq, halloc] at hstep
      rw [← hstep, envSet_head, storedBytes_append, storedBytes_cons, storedBytes_nil,
        strlen_envEntry]
      simp only
      omega

/-! ### Saved images -/

theorem storeAt_eq_some {buf bytes buf' : List UInt8} {i : ℕ}
    (h : storeAt buf i bytes = some buf') :
    buf'.length = buf.length ∧ buf'.take i = buf.take i := by
  rw [storeAt] at h
  split at h
  · next hfit =>
      obtain rfl := Option.some.inj h
      have hi : (buf.take i).length = i := List.length_take_of_le (by omega)
      constructor
      · simp only [List.length_append, hi, List.length_drop]
        omega
      · rw [List.append_assoc, List.take_left' hi]
  · exact absurd h (by simp)

/-- The writer keeps the length of its buffer, and the bytes in front of its pointer. -/
theorem saveLoop_eq_some {nodes : List CString} {i : ℕ} {buf buf' : List UInt8}
    (h : saveLoop nodes i buf = some buf') :
    buf'.length = buf.length ∧ buf'.take i = buf.take i := by
  induction nodes generalizing i buf with
  | nil =>
      obtain rfl := Option.some.inj h
      exact ⟨rfl, rfl⟩
  | cons node nodes ih =>
      rw [saveLoop] at h
      split at h
      · obtain ⟨mid, hmid, hrest⟩ := Option.bind_eq_some_iff.mp h
        obtain ⟨hlen, htake⟩ := storeAt_eq_some hmid
        obtain ⟨hlen', htake'⟩ := ih hrest
        refine ⟨hlen'.trans hlen, ?_⟩
        have hmin : min i (i + node.strlen + 1) = i := by omega
        have := congrArg (List.take i) htake'
        rw [List.take_take, List.take_take, hmin] at this
        exact this.trans htake
      · obtain rfl := Option.some.inj h
        exact ⟨rfl, rfl⟩

/-- A saved image has the length of its region and begins with the header. -/
theorem envSave_eq_some {image : List UInt8} (h : envSave true ctb = some (some image)) :
    image.length = ctb.length.toNat ∧ envHeader <+: image := by
  rw [envSave] at h
  split at h
  · exact absurd h (by simp)
  · obtain ⟨buf, hbuf, hmap⟩ := Option.bind_eq_some_iff.mp h
    obtain ⟨image', hloop, himage⟩ := Option.map_eq_some_iff.mp hmap
    obtain rfl := Option.some.inj himage
    obtain ⟨hlen, htake⟩ := saveLoop_eq_some hloop
    rw [storeAt] at hbuf
    split at hbuf
    · obtain rfl := Option.some.inj hbuf
      constructor
      · rw [hlen]
        simp only [List.take_zero, List.nil_append, List.length_append, List.length_drop,
          List.length_replicate] at *
        omega
      · refine List.prefix_iff_eq_take.mpr ?_
        exact htake.symm
    · exact absurd hbuf (by simp)

/-- A closed image is read into a balanced store. -/
theorem envInit_closed {image : List UInt8} {alloc : ℕ → Bool}
    (halloc : ∀ k, alloc k = true) (hlen : image.length = length.toNat)
    (hheader : envHeader <+: image) (hclosed : Closed (image.drop 3)) :
    ∃ start, envInit envEnable length image alloc EnvCtb.reset = some start ∧
      EnvOnFlash length start ∧ EnvSpace start := by
  obtain ⟨rest, rfl⟩ := hheader
  have hlen' : 4 + rest.length = length.toNat := by
    rw [← hlen, List.length_append]
    rfl
  have hne : length ≠ 0 := by
    rintro rfl
    simp at hlen'
  have hclosed' : Closed (0 :: rest) := hclosed
  have hstored := storedBytes_envStrings_lt hclosed'
  obtain ⟨hflash, hhead⟩ :=
    foldl_envNodeAdd (envOnFlash_bootTable length) (envStrings_ne_nil rest)
  refine ⟨_, ?_, hflash, ?_⟩
  · rw [envInit_header hne (halloc 0), envInitLoop_strings _ hclosed' fun _ _ => halloc _]
  · rw [hflash.space_iff (by omega), hhead]
    simp only [bootTable, List.nil_append]
    omega

/-! ### Along runs -/

/-- **The balance along every run.** Start `env_init` on an image that `env_save` wrote
and that is closed inside the region, with every allocation succeeding. Then the balance
holds over the natural numbers in every state that a sequence of `env_set` and
`env_unset` calls goes through exactly when each `env_set` is made while what it stores
fits; and every balanced store is written completely by `env_save`. -/
theorem env_space_iff_fits {length : BitVec 32} {stored : EnvCtb} {image : List UInt8}
    {alloc : ℕ → Bool} (halloc : ∀ k, alloc k = true) (hlength : stored.length = length)
    (hsave : envSave true stored = some (some image)) (hclosed : Closed (image.drop 3)) :
    ∃ start, envInit envEnable length image alloc EnvCtb.reset = some start ∧
      ∀ calls : List EnvCall, (∀ call ∈ calls, call.alloc = true) →
        (StepsMeet envStep EnvFits start calls ↔
          ∀ done ctb, done <+: calls → exec envStep start done = some ctb →
            EnvSpace ctb ∧ SavedCompletely ctb) := by
  obtain ⟨hlen, hheader⟩ := envSave_eq_some hsave
  rw [hlength] at hlen
  obtain ⟨start, hinit, hflash, hspace⟩ := envInit_closed halloc hlen hheader hclosed
  have hfour : 4 ≤ length.toNat := by
    rw [← hlen]
    exact hheader.length_le
  refine ⟨start, hinit, fun calls hcalls => ?_⟩
  have hexact : ∀ {ctb : EnvCtb} {call : EnvCall}, call.alloc = true →
      EnvOnFlash length ctb ∧ EnvSpace ctb →
      (EnvFits ctb call ↔
        ∀ ctb', envStep ctb call = some ctb' → EnvOnFlash length ctb' ∧ EnvSpace ctb') := by
    rintro ctb call hcall ⟨hon, hs⟩
    constructor
    · intro hfits ctb' hstep
      exact ⟨hon.step hstep, (hon.space_step_iff hfour hs hcall hstep).mpr hfits⟩
    · intro hall
      obtain ⟨ctb', hstep⟩ : ∃ ctb', envStep ctb call = some ctb' := by
        rw [envStep]
        cases call.value with
        | none => exact ⟨_, rfl⟩
        | some data => exact ⟨_, rfl⟩
      exact (hon.space_step_iff hfour hs hcall hstep).mp (hall ctb' hstep).2
  rw [stepsMeet_iff_forall_reached hexact hcalls ⟨hflash, hspace⟩]
  constructor
  · intro hall done ctb hpre hrun
    obtain ⟨-, hs⟩ := hall done ctb hpre hrun
    exact ⟨hs, hs.savedCompletely⟩
  · intro hall done ctb hpre hrun
    exact ⟨exec_invariant_of_step EnvOnFlash.step hflash hrun, (hall done ctb hpre hrun).1⟩

/-- The image of an empty store on the board's region of `0x2000` bytes. -/
theorem envSave_bootTable :
    envSave true (bootTable 0x2000) = some (some (envHeader ++ List.replicate 0x1FFC 0)) :=
  envSave_eq (by decide)

theorem closed_blank : Closed ((envHeader ++ List.replicate 0x1FFC 0).drop 3) :=
  ⟨[], List.replicate 0x1FFB 0, rfl⟩

/-- From the image of an empty store, setting `a` to `1` and dropping it again keeps the
balance throughout. -/
theorem env_space_of_blank :
    ∃ start, envInit envEnable 0x2000 (envHeader ++ List.replicate 0x1FFC 0) (fun _ => true)
        EnvCtb.reset = some start ∧
      ∀ done ctb, done <+: [(⟨⟨[0x61], by decide⟩, some ⟨[0x31], by decide⟩, fun _ _ => 0, true⟩ :
          EnvCall), ⟨⟨[0x61], by decide⟩, none, fun _ _ => 0, true⟩] →
        exec envStep start done = some ctb → EnvSpace ctb ∧ SavedCompletely ctb := by
  obtain ⟨start, hinit, hall⟩ :=
    env_space_iff_fits (fun _ => rfl) rfl envSave_bootTable closed_blank
  refine ⟨start, hinit, (hall _ (by simp)).mp ?_⟩
  obtain rfl : bootTable 0x2000 = start := by
    rw [envInit_header (by decide) rfl] at hinit
    exact Option.some.inj ((envInitLoop_nul _ _ _ _).symm.trans hinit)
  exact ⟨by decide, trivial, trivial⟩

/-- A string that is as long as the board's region. -/
def longValue : CString :=
  ⟨List.replicate 0x2000 0x62, fun h => absurd (List.eq_of_mem_replicate h) (by decide)⟩

/-- From the image of an empty store, setting `a` to a string of `0x2000` bytes makes
`free` wrap below zero, and `env_save` leaves the string out. -/
theorem env_space_overrun :
    ∃ start ctb, envSave true (bootTable 0x2000) =
        some (some (envHeader ++ List.replicate 0x1FFC 0)) ∧
      envInit envEnable 0x2000 (envHeader ++ List.replicate 0x1FFC 0) (fun _ => true)
        EnvCtb.reset = some start ∧
      exec envStep start [⟨⟨[0x61], by decide⟩, some longValue, fun _ _ => 0, true⟩] = some ctb ∧
      ctb.free = -7 ∧ ¬ EnvSpace ctb ∧
      envSave true ctb = some (some (envHeader ++ List.replicate 0x1FFC 0)) := by
  have hlen : longValue.strlen = 0x2000 := List.length_replicate
  have hentry : (envEntry ⟨[0x61], by decide⟩ longValue).strlen = 0x2002 := by
    rw [strlen_envEntry, hlen]
    rfl
  have hfree : (envNodeAdd (bootTable 0x2000) (envEntry ⟨[0x61], by decide⟩ longValue)).free =
      -7 := by
    rw [envNodeAdd, hentry]
    rfl
  have hregion : (envNodeAdd (bootTable 0x2000) (envEntry ⟨[0x61], by decide⟩ longValue)).length =
      0x2000 := rfl
  have hhead : (envNodeAdd (bootTable 0x2000) (envEntry ⟨[0x61], by decide⟩ longValue)).head =
      [envEntry ⟨[0x61], by decide⟩ longValue] := rfl
  have hsize : (0x2000 : BitVec 32).toNat = 0x2000 := rfl
  refine ⟨bootTable 0x2000, envNodeAdd (bootTable 0x2000) (envEntry ⟨[0x61], by decide⟩ longValue),
    envSave_bootTable, ?_, rfl, hfree, ?_, ?_⟩
  · rw [envInit_header (by decide) rfl]
    exact envInitLoop_nul _ _ _ _
  · intro hspace
    have hwrap : (-7 : BitVec 32).toNat = 0xFFFFFFF9 := rfl
    rw [EnvSpace, hfree, hregion, hwrap, hsize] at hspace
    omega
  · rw [envSave, hregion, hhead, if_neg (by decide), hsize, storeAt_envHeader (by decide),
      Option.bind_some, saveLoop, hentry, if_neg]
    · rfl
    · rw [List.length_append, List.length_replicate]
      decide

end RtBoot
