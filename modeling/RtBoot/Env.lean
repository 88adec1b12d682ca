import Mathlib.Data.BitVec
import Mathlib.Data.Finset.Card
import Mathlib.Data.Finset.Dedup
import Mathlib.Data.List.Nodup
import Mathlib.Tactic.Ring
import RtBoot.CString
import RtBoot.Run

/-!
# The Environment Store

The boot loader keeps its variables in a singly linked list of `name=value` strings
(`env_t`) under a control table (`env_ctb`) that counts the nodes and the bytes still
free in the flash region. `env_set` deletes the node of the name, if there is one, and
appends a new one; `env_unset` only deletes; `env_get` returns a pointer behind the `=`.

All three find a node with `env_node_search`, which reads the byte at offset
`strlen(name)` of each node before it compares anything. For a name longer than the
node's string this read is behind the node's terminator, so what it returns is given to
the model from outside (`past`, one block of unknown bytes per node). The comparison that
follows stops at the terminator at the latest: the result of a search does not depend on
those bytes (`envNodeSearch_eq`).

## Main results

* `envNodeSearch_eq`: a search finds the first node that begins with `name=`.
* `EnvMap`: the list, seen as a finite map from names to values; `EnvMap.set` and
  `EnvMap.unset`: the two operations update that map.
* `env_finite_map`: along every run, `env_get` returns what the last operation on the
  name left (and, for a name with an `=`, exactly when), node names are distinct, and the
  count is the number of set names.
* `env_get_of_never_set`: looking up a name with an `=` may find the tail of a value.
-/

namespace RtBoot

/-- The control table `global_env_ctb`. -/
structure EnvCtb where
  flag : BitVec 32
  length : BitVec 32
  free : BitVec 32
  count : BitVec 32
  head : List CString
  deriving DecidableEq

/-- The table before `env_init`, as the C start-up code leaves it. -/
def EnvCtb.reset : EnvCtb :=
  ⟨0, 0, 0, 0, []⟩

/-- The string `=`. -/
def eqSign : CString :=
  ⟨[0x3D], by decide⟩

/-- The data of a node: `name`, `=` and `data`, as the three `rt_strcat` calls leave it. -/
def envEntry (name data : CString) : CString :=
  (name.append eqSign).append data

/-- `env_node_add`: append the node; account for its bytes and count it. -/
def envNodeAdd (ctb : EnvCtb) (newNode : CString) : EnvCtb :=
  { ctb with
    head := ctb.head ++ [newNode]
    free := ctb.free - BitVec.ofNat 32 (newNode.strlen + 1)
    count := ctb.count + 1 }

/-- `env_node_delete` of the node at position `i` of the list. -/
def envNodeDelete (ctb : EnvCtb) (i : ℕ) : EnvCtb :=
  match ctb.head[i]? with
  | none => ctb
  | some delNode =>
      { ctb with
        head := ctb.head.eraseIdx i
        free := ctb.free + BitVec.ofNat 32 (delNode.strlen + 1)
        count := ctb.count - 1 }

/-- `env_node_search`: the position of the first node whose data has an `=` at offset
`strlen(name)` and agrees with `name` before it. `past i` is what memory holds behind
node `i`. -/
def envNodeSearch (past : ℕ → ℕ → UInt8) (name : CString) : List CString → Option ℕ
  | [] => none
  | node :: rest =>
      if node.byteAt (past 0) name.strlen = 0x3D ∧
          memcmp (node.byteAt (past 0)) (name.byteAt fun _ => 0) 0 name.strlen = 0 then
        some 0
      else
        (envNodeSearch (fun i => past (i + 1)) name rest).map (· + 1)

/-- The first half of `env_set`, and all of `env_unset`: drop the name's node. -/
def envUnset (past : ℕ → ℕ → UInt8) (ctb : EnvCtb) (name : CString) : EnvCtb :=
  match envNodeSearch past name ctb.head with
  | some node => envNodeDelete ctb node
  | none => ctb

/-- `env_set`, with the result of its allocation. The old node is gone by the time the
new one is allocated. -/
def envSet (past : ℕ → ℕ → UInt8) (alloc : Bool) (ctb : EnvCtb) (name data : CString) :
    EnvCtb :=
  let ctb := envUnset past ctb name
  if alloc then envNodeAdd ctb (envEntry name data) else ctb

/-- `env_get`: the string behind the `=` of the name's node. -/
def envGet (past : ℕ → ℕ → UInt8) (ctb : EnvCtb) (name : CString) : Option CString :=
  match envNodeSearch past name ctb.head with
  | some i => (ctb.head[i]?).map fun node => node.drop (name.strlen + 1)
  | none => none

/-- A call of `env_set` (with a value) or `env_unset` (without), with what memory holds
behind the nodes and whether the allocation succeeds. -/
structure EnvCall where
  name : CString
  value : Option CString
  past : ℕ → ℕ → UInt8
  alloc : Bool

/-- One call on the store. -/
def envStep (ctb : EnvCtb) (call : EnvCall) : Option EnvCtb :=
  match call.value with
  | some data => some (envSet call.past call.alloc ctb call.name data)
  | none => some (envUnset call.past ctb call.name)

variable {call : EnvCall} {ctb ctb' : EnvCtb} {name node : CString} {nodes : List CString}
  {room : BitVec 32} {f : CString → Option CString} {calls : List EnvCall}

/-- What unsetting a name keeps, and adding a `name=value` string to a store, every call keeps. -/
theorem envStep_rule {P : EnvCtb → Prop} (hunset : P (envUnset call.past ctb call.name))
    (hadd : ∀ {mid : EnvCtb} (data : CString), P mid → P (envNodeAdd mid (envEntry call.name data)))
    (hstep : envStep ctb call = some ctb') : P ctb' := by
  rw [envStep] at hstep
  cases hv : call.value with
  | none =>
      simp only [hv, Option.some.injEq] at hstep
      exact hstep ▸ hunset
  | some data =>
      simp only [hv, Option.some.injEq] at hstep
      subst hstep
      rw [envSet]
      split
      · exact hadd data hunset
      · exact hunset

/-! ### Searching -/

/-- The node's string begins with `name=`. -/
def IsNodeOf (name node : CString) : Prop :=
  (name.append eqSign).bytes <+: node.bytes
  deriving Decidable

theorem isNodeOf_iff :
    IsNodeOf name node ↔ ∃ data, node = envEntry name data := by
  constructor
  · rintro ⟨rest, hrest⟩
    have hr : 0 ∉ rest := fun h => node.noNul (hrest ▸ List.mem_append_right _ h)
    exact ⟨⟨rest, hr⟩, CString.ext hrest.symm⟩
  · rintro ⟨data, rfl⟩
    exact ⟨data.bytes, rfl⟩

/-- The test of the search loop, whatever lies behind the node. -/
theorem search_test_iff (past : ℕ → UInt8) (name node : CString) :
    (node.byteAt past name.strlen = 0x3D ∧
      memcmp (node.byteAt past) (name.byteAt fun _ => 0) 0 name.strlen = 0) ↔
      IsNodeOf name node := by
  rw [memcmp_byteAt_eq_zero_iff]
  constructor
  · rintro ⟨hsign, rest, hrest⟩
    have hlen : node.strlen = name.strlen + rest.length := by
      rw [CString.strlen, ← hrest, List.length_append]
      rfl
    cases rest with
    | nil =>
        -- the node is the name itself, so the byte read is its terminator
        have : name.strlen = node.strlen := by simpa using hlen.symm
        rw [this, CString.byteAt_strlen] at hsign
        exact absurd hsign (by decide)
    | cons b rest =>
        have hlt : name.strlen < node.strlen := by
          rw [hlen, List.length_cons]
          omega
        have hb := CString.byteAt_of_lt hlt past
        rw [hsign, ← hrest, CString.strlen, List.getElem?_append_right (Nat.le_refl _)] at hb
        obtain rfl : b = 0x3D := by simpa using hb
        exact ⟨rest, by simpa [eqSign] using hrest⟩
  · rintro ⟨rest, hrest⟩
    have hbytes : node.bytes = name.bytes ++ 0x3D :: rest := by
      simpa [eqSign] using hrest.symm
    refine ⟨?_, ⟨_, hbytes.symm⟩⟩
    have hlt : name.strlen < node.strlen := by
      rw [CString.strlen, CString.strlen, hbytes, List.length_append, List.length_cons]
      omega
    have hb := CString.byteAt_of_lt hlt past
    rw [hbytes, CString.strlen, List.getElem?_append_right (Nat.le_refl _)] at hb
    simpa [CString.strlen] using hb.symm

/-- **A search finds the first node that begins with `name=`**, independently of what
memory holds behind the nodes. -/
theorem envNodeSearch_eq (past : ℕ → ℕ → UInt8) (name : CString) (nodes : List CString) :
    envNodeSearch past name nodes = nodes.findIdx? fun node => IsNodeOf name node := by
  induction nodes generalizing past with
  | nil => rfl
  | cons node rest ih =>
      simp only [envNodeSearch, search_test_iff, ih, List.findIdx?_cons, decide_eq_true_eq]

theorem envUnset_head (past : ℕ → ℕ → UInt8) (ctb : EnvCtb) (name : CString) :
    (envUnset past ctb name).head = ctb.head.eraseP fun node => IsNodeOf name node := by
  rw [envUnset, envNodeSearch_eq, List.eraseP_eq_eraseIdx]
  cases hi : ctb.head.findIdx? fun node => IsNodeOf name node with
  | none => rfl
  | some i =>
      obtain ⟨hlt, -⟩ := List.findIdx?_eq_some_iff_getElem.mp hi
      simp [envNodeDelete, List.getElem?_eq_getElem hlt]

theorem envSet_head (past : ℕ → ℕ → UInt8) (ctb : EnvCtb) (name data : CString) :
    (envSet past true ctb name data).head =
      (ctb.head.eraseP fun node => IsNodeOf name node) ++ [envEntry name data] := by
  rw [← envUnset_head past]
  rfl

/-! ### Accounting -/

/-- The bytes the nodes take in the flash image: each string with its terminator. -/
def storedBytes (nodes : List CString) : ℕ :=
  (nodes.map fun node => node.strlen + 1).sum

@[simp] theorem storedBytes_nil : storedBytes [] = 0 :=
  rfl

@[simp] theorem storedBytes_cons (node : CString) (nodes : List CString) :
    storedBytes (node :: nodes) = node.strlen + 1 + storedBytes nodes :=
  rfl

theorem storedBytes_append (xs ys : List CString) :
    storedBytes (xs ++ ys) = storedBytes xs + storedBytes ys := by
  simp [storedBytes]

theorem storedBytes_eraseIdx {i : ℕ} (h : nodes[i]? = some node) :
    storedBytes (nodes.eraseIdx i) + (node.strlen + 1) = storedBytes nodes := by
  induction nodes generalizing i with
  | nil => simp at h
  | cons x xs ih =>
      cases i with
      | zero =>
          obtain rfl : x = node := by simpa using h
          rw [List.eraseIdx_cons_zero, storedBytes_cons]
          omega
      | succ i =>
          have := ih (i := i) (by simpa using h)
          rw [List.eraseIdx_cons_succ, storedBytes_cons, storedBytes_cons]
          omega

/-- The counters agree with the list, as 32-bit words: `count` with the number of nodes,
and `free` and the bytes of the nodes together with the room there was for them. -/
structure EnvAccount (room : BitVec 32) (ctb : EnvCtb) : Prop where
  count : ctb.count = BitVec.ofNat 32 ctb.head.length
  free : ctb.free + BitVec.ofNat 32 (storedBytes ctb.head) = room

theorem EnvAccount.nodeAdd (h : EnvAccount room ctb)
    (node : CString) : EnvAccount room (envNodeAdd ctb node) := by
  obtain ⟨hc, rfl⟩ := h
  constructor
  · simp only [envNodeAdd, hc, List.length_append, List.length_singleton]
    exact (BitVec.ofNat_add _ _).symm
  · simp only [envNodeAdd, storedBytes_append, storedBytes_cons, storedBytes_nil, Nat.add_zero,
      BitVec.ofNat_add _ (node.strlen + 1)]
    ring

theorem EnvAccount.nodeDelete (h : EnvAccount room ctb)
    (i : ℕ) : EnvAccount room (envNodeDelete ctb i) := by
  cases hi : ctb.head[i]? with
  | none =>
      simp only [envNodeDelete, hi]
      exact h
  | some node =>
      obtain ⟨hc, rfl⟩ := h
      have hlt : i < ctb.head.length := (List.getElem?_eq_some_iff.mp hi).1
      have hlen : ctb.head.length = ctb.head.length - 1 + 1 := by omega
      constructor
      · simp only [envNodeDelete, hi, hc, List.length_eraseIdx_of_lt hlt]
        rw [hlen, BitVec.ofNat_add, Nat.add_sub_cancel]
        exact add_sub_cancel_right _ _
      · simp only [envNodeDelete, hi]
        rw [← storedBytes_eraseIdx hi, BitVec.ofNat_add _ (node.strlen + 1)]
        ring

theorem EnvAccount.unset (h : EnvAccount room ctb)
    (past : ℕ → ℕ → UInt8) (name : CString) : EnvAccount room (envUnset past ctb name) := by
  rw [envUnset]
  split
  · exact h.nodeDelete _
  · exact h

/-- Every call keeps the counters right. -/
theorem EnvAccount.step (h : EnvAccount room ctb) (hstep : envStep ctb call = some ctb') :
    EnvAccount room ctb' :=
  envStep_rule (h.unset call.past call.name) (fun _ hmid => hmid.nodeAdd _) hstep

/-! ### The list as a finite map -/

/-- The name of a node: its string up to the first `=`. -/
def nodeName (node : CString) : CString :=
  ⟨node.bytes.takeWhile (· ≠ 0x3D), fun h => node.noNul (List.takeWhile_subset _ h)⟩

theorem nodeName_envEntry (h : 0x3D ∉ name.bytes) (data : CString) :
    nodeName (envEntry name data) = name := by
  ext1
  have hall : ∀ b ∈ name.bytes, decide (b ≠ 0x3D) = true := by
    intro b hb
    exact decide_eq_true fun h0 => h (h0 ▸ hb)
  have hbytes : (envEntry name data).bytes = name.bytes ++ 0x3D :: data.bytes := by
    simp [envEntry, eqSign]
  have htake : (nodeName (envEntry name data)).bytes =
      (envEntry name data).bytes.takeWhile (· ≠ 0x3D) := rfl
  rw [htake, hbytes, List.takeWhile_append_of_pos hall]
  simp

theorem isNodeOf_envEntry {m : CString} (hm : 0x3D ∉ m.bytes) (h : 0x3D ∉ name.bytes)
    (data : CString) : IsNodeOf m (envEntry name data) ↔ name = m := by
  constructor
  · intro hnode
    obtain ⟨data', hdata⟩ := isNodeOf_iff.mp hnode
    rw [← nodeName_envEntry h data, hdata, nodeName_envEntry hm]
  · rintro rfl
    exact isNodeOf_iff.mpr ⟨data, rfl⟩

theorem strlen_envEntry (name data : CString) :
    (envEntry name data).strlen = name.strlen + data.strlen + 1 := by
  simp only [envEntry, eqSign, CString.strlen, CString.append_bytes, List.length_append,
    List.length_singleton]
  omega

theorem envEntry_drop (name data : CString) :
    (envEntry name data).drop (name.strlen + 1) = data := by
  ext1
  simp [envEntry, eqSign, CString.strlen, List.drop_append]

theorem envEntry_injective (name : CString) : Function.Injective (envEntry name) := by
  intro data data' h
  rw [← envEntry_drop name data, h, envEntry_drop]

/-- The nodes hold the finite map `f`: each is a `name=value` string, no two with the
same name, and they are the pairs of `f`. -/
structure EnvMap (nodes : List CString) (f : CString → Option CString) : Prop where
  entries : ∀ node ∈ nodes, ∃ name data, 0x3D ∉ name.bytes ∧ node = envEntry name data
  nodup : (nodes.map nodeName).Nodup
  mem : ∀ name data, 0x3D ∉ name.bytes → (envEntry name data ∈ nodes ↔ f name = some data)

theorem envMap_nil : EnvMap [] fun _ => none :=
  ⟨by simp, by simp, by simp⟩

/-- The search finds the name's own node, and no other. -/
theorem EnvMap.isNodeOf_iff_nodeName (h : EnvMap nodes f) (hname : 0x3D ∉ name.bytes)
    (hnode : node ∈ nodes) : IsNodeOf name node ↔ nodeName node = name := by
  obtain ⟨name', data, hname', rfl⟩ := h.entries node hnode
  rw [isNodeOf_envEntry hname hname', nodeName_envEntry hname']

/-- Dropping the first node of the name drops every node of the name. -/
theorem EnvMap.eraseP_eq_filter (h : EnvMap nodes f) (hname : 0x3D ∉ name.bytes) :
    (nodes.eraseP fun node => IsNodeOf name node) =
      nodes.filter fun node => nodeName node ≠ name := by
  have hiff : ∀ node ∈ nodes, (IsNodeOf name node ↔ nodeName node = name) :=
    fun node hnode => h.isNodeOf_iff_nodeName hname hnode
  have hnodup := h.nodup
  clear h
  induction nodes with
  | nil => rfl
  | cons x xs ih =>
      rw [List.map_cons, List.nodup_cons] at hnodup
      have hx := hiff x List.mem_cons_self
      by_cases hp : nodeName x = name
      · -- the names behind it differ from that of the first node, so the filter keeps them
        rw [List.eraseP_cons_of_pos (by simpa using hx.mpr hp), List.filter_cons_of_neg (by simpa)]
        refine (List.filter_eq_self.mpr ?_).symm
        intro y hy
        simpa using fun hyn => hnodup.1 (List.mem_map.mpr ⟨y, hy, hyn.trans hp.symm⟩)
      · rw [List.eraseP_cons_of_neg (by simpa using fun h => hp (hx.mp h)),
          List.filter_cons_of_pos (by simpa),
          ih (fun y hy => hiff y (List.mem_cons_of_mem _ hy)) hnodup.2]

/-- **`env_unset` removes the name from the map.** -/
theorem EnvMap.unset (h : EnvMap nodes f) (hname : 0x3D ∉ name.bytes) :
    EnvMap (nodes.eraseP fun node => IsNodeOf name node) (Function.update f name none) := by
  rw [h.eraseP_eq_filter hname]
  refine ⟨fun node hnode => h.entries node (List.mem_of_mem_filter hnode), ?_, ?_⟩
  · exact h.nodup.sublist (List.filter_sublist.map nodeName)
  · intro m data hm
    rw [List.mem_filter, h.mem m data hm, nodeName_envEntry hm]
    by_cases hmn : m = name
    · simp [hmn]
    · simp [hmn]

/-- **`env_set` gives the name its value.** -/
theorem EnvMap.set (h : EnvMap nodes f) (hname : 0x3D ∉ name.bytes) (data : CString) :
    EnvMap ((nodes.eraseP fun node => IsNodeOf name node) ++ [envEntry name data])
      (Function.update f name (some data)) := by
  have hun := h.unset hname
  refine ⟨?_, ?_, ?_⟩
  · intro node hnode
    rcases List.mem_append.mp hnode with hnode | hnode
    · exact hun.entries node hnode
    · exact ⟨name, data, hname, List.mem_singleton.mp hnode⟩
  · rw [List.map_append, List.map_singleton, nodeName_envEntry hname, List.nodup_append]
    refine ⟨hun.nodup, List.nodup_singleton _, ?_⟩
    rintro m hm m' hm'
    obtain rfl : m' = name := List.mem_singleton.mp hm'
    obtain ⟨node, hnode, rfl⟩ := List.mem_map.mp hm
    rw [h.eraseP_eq_filter hname, List.mem_filter] at hnode
    simpa using hnode.2
  · intro m v hm
    rw [List.mem_append, hun.mem m v hm, List.mem_singleton]
    by_cases hmn : m = name
    · subst hmn
      rw [Function.update_self, Function.update_self, (envEntry_injective m).eq_iff,
        Option.some.injEq]
      simp [eq_comm]
    · rw [Function.update_of_ne hmn, Function.update_of_ne hmn]
      have hne : envEntry m v ≠ envEntry name data := fun heq => hmn (by
        rw [← nodeName_envEntry hm v, heq, nodeName_envEntry hname])
      simp [hne]

/-- **`env_get` reads the map.** -/
theorem EnvMap.get (h : EnvMap ctb.head f) (past : ℕ → ℕ → UInt8) (hname : 0x3D ∉ name.bytes) :
    envGet past ctb name = f name := by
  rw [envGet, envNodeSearch_eq]
  cases hi : ctb.head.findIdx? fun node => IsNodeOf name node with
  | none =>
      have hno : ∀ node ∈ ctb.head, ¬ IsNodeOf name node := by
        simpa using List.findIdx?_eq_none_iff.mp hi
      cases hf : f name with
      | none => rfl
      | some data =>
          exact absurd (isNodeOf_iff.mpr ⟨data, rfl⟩) (hno _ ((h.mem name data hname).mpr hf))
  | some i =>
      obtain ⟨hlt, hnode, -⟩ := List.findIdx?_eq_some_iff_getElem.mp hi
      obtain ⟨data, hdata⟩ := isNodeOf_iff.mp (of_decide_eq_true hnode)
      have hmem : envEntry name data ∈ ctb.head := hdata ▸ List.getElem_mem hlt
      simp [List.getElem?_eq_getElem hlt, hdata, envEntry_drop, (h.mem name data hname).mp hmem]

/-! ### The map along runs -/

/-- What the last call on `name` leaves: the value of an `env_set`, nothing for an
`env_unset`, and nothing when there is no call on it. -/
def lastValue (calls : List EnvCall) (name : CString) : Option CString :=
  match (calls.filter fun call => call.name = name).getLast? with
  | some call => call.value
  | none => none

/-- The names that are set: those of the calls whose last call was an `env_set`. -/
def setNames (calls : List EnvCall) : Finset CString :=
  (calls.map EnvCall.name).toFinset.filter fun name => (lastValue calls name).isSome

theorem lastValue_concat (calls : List EnvCall) (call : EnvCall) :
    lastValue (calls ++ [call]) = Function.update (lastValue calls) call.name call.value := by
  funext name
  by_cases h : call.name = name
  · subst h
    simp [lastValue]
  · rw [Function.update_of_ne (Ne.symm h)]
    simp [lastValue, h]

theorem mem_setNames :
    name ∈ setNames calls ↔ ∃ data, lastValue calls name = some data := by
  rw [setNames, Finset.mem_filter, Option.isSome_iff_exists]
  refine ⟨fun h => h.2, fun h => ⟨?_, h⟩⟩
  obtain ⟨data, hdata⟩ := h
  rw [lastValue] at hdata
  split at hdata
  · next call hlast =>
      have hmem := List.mem_of_getLast? hlast
      rw [List.mem_filter] at hmem
      rw [List.mem_toFinset]
      exact List.mem_map.mpr ⟨call, hmem.1, of_decide_eq_true hmem.2⟩
  · exact absurd hdata (by simp)

/-- The nodes are as many as the names the map gives a value. -/
theorem EnvMap.length_eq_card (h : EnvMap nodes f) {names : Finset CString}
    (hnames : ∀ name, name ∈ names ↔ 0x3D ∉ name.bytes ∧ ∃ data, f name = some data) :
    nodes.length = names.card := by
  have hset : (nodes.map nodeName).toFinset = names := by
    ext name
    rw [List.mem_toFinset, List.mem_map, hnames]
    constructor
    · rintro ⟨node, hnode, rfl⟩
      obtain ⟨name, data, hname, rfl⟩ := h.entries node hnode
      rw [nodeName_envEntry hname]
      exact ⟨hname, data, (h.mem name data hname).mp hnode⟩
    · rintro ⟨hname, data, hdata⟩
      exact ⟨envEntry name data, (h.mem name data hname).mpr hdata, nodeName_envEntry hname data⟩
  rw [← hset, List.toFinset_card_of_nodup h.nodup, List.length_map]

/-- One call updates the map. -/
theorem EnvMap.step
    (h : EnvMap ctb.head f) (hname : 0x3D ∉ call.name.bytes) (halloc : call.alloc = true)
    (hstep : envStep ctb call = some ctb') :
    EnvMap ctb'.head (Function.update f call.name call.value) := by
  rw [envStep] at hstep
  cases hv : call.value with
  | none =>
      simp only [hv, Option.some.injEq] at hstep
      rw [← hstep, envUnset_head]
      exact h.unset hname
  | some data =>
      simp only [hv, Option.some.injEq, halloc] at hstep
      rw [← hstep, envSet_head]
      exact h.set hname data

/-- After a run the store maps names to last values. -/
theorem envMap_of_run {empty : EnvCtb} (hempty : empty.head = [])
    (hnames : ∀ call ∈ calls, 0x3D ∉ call.name.bytes) (halloc : ∀ call ∈ calls, call.alloc = true)
    (hrun : exec envStep empty calls = some ctb) : EnvMap ctb.head (lastValue calls) := by
  induction calls using List.reverseRecOn generalizing ctb with
  | nil =>
      obtain rfl : empty = ctb := Option.some.inj hrun
      rw [hempty]
      exact envMap_nil
  | append_singleton calls call ih =>
      obtain ⟨mid, hmid, hlast⟩ := exec_append_eq_some.mp hrun
      obtain ⟨_, hstep, hnil⟩ := exec_cons_eq_some.mp hlast
      obtain rfl := Option.some.inj hnil
      have hmap := ih (fun c hc => hnames c (List.mem_append_left _ hc))
        (fun c hc => halloc c (List.mem_append_left _ hc)) hmid
      rw [lastValue_concat]
      exact hmap.step (hnames call (by simp)) (halloc call (by simp)) hstep

/-- The memory the nodes take on the heap: a link, the string and its terminator. -/
def heapBytes (nodes : List CString) : ℕ :=
  (nodes.map fun node => 4 + node.strlen + 1).sum

theorem length_le_heapBytes (nodes : List CString) : 5 * nodes.length ≤ heapBytes nodes := by
  induction nodes with
  | nil => exact Nat.le_refl _
  | cons node nodes ih =>
      have : heapBytes (node :: nodes) = 4 + node.strlen + 1 + heapBytes nodes := rfl
      rw [this, List.length_cons]
      omega

/-- A name with a value is one of the calls' names. -/
theorem exists_call_of_lastValue {data : CString}
    (h : lastValue calls name = some data) : ∃ call ∈ calls, call.name = name :=
  List.mem_map.mp (List.mem_toFinset.mp (Finset.mem_filter.mp (mem_setNames.mpr ⟨data, h⟩)).1)

/-- A search finds nothing exactly when no pair of the map, written out, begins with `m=`. -/
theorem EnvMap.get_eq_none_iff
    (h : EnvMap ctb.head f) (hf : ∀ name data, f name = some data → 0x3D ∉ name.bytes)
    (past : ℕ → ℕ → UInt8) (m : CString) :
    envGet past ctb m = none ↔
      ∀ name data, f name = some data → ¬ IsNodeOf m (envEntry name data) := by
  have hnodes : ctb.head.findIdx? (fun node => IsNodeOf m node) = none ↔
      ∀ node ∈ ctb.head, ¬ IsNodeOf m node := by
    simp [List.findIdx?_eq_none_iff]
  have hget : envGet past ctb m = none ↔
      ctb.head.findIdx? (fun node => IsNodeOf m node) = none := by
    rw [envGet, envNodeSearch_eq]
    cases hi : ctb.head.findIdx? fun node => IsNodeOf m node with
    | none => simp
    | some i =>
        obtain ⟨hlt, -⟩ := List.findIdx?_eq_some_iff_getElem.mp hi
        simp [List.getElem?_eq_getElem hlt]
  rw [hget, hnodes]
  constructor
  · intro hno name data hdata
    exact hno _ ((h.mem name data (hf name data hdata)).mpr hdata)
  · intro hno node hnode
    obtain ⟨name, data, hname, rfl⟩ := h.entries node hnode
    exact hno name data ((h.mem name data hname).mp hnode)

/-- **The environment is a finite map.** From an empty store, after any sequence of
`env_set` and `env_unset` calls on names without `=` in which allocation succeeds (so that
the nodes fit a 32-bit address space), `env_get` of `m` returns what the last call on `m`
left exactly when `m` has no `=` either, or no variable that is set has a value with which
`name=value` begins with `m=`; no two nodes have the same name, and `count` is the number of
names that are set. -/
theorem env_finite_map {calls : List EnvCall} {empty ctb : EnvCtb}
    (hempty : empty.head = []) (hcount : empty.count = 0)
    (hnames : ∀ call ∈ calls, 0x3D ∉ call.name.bytes) (halloc : ∀ call ∈ calls, call.alloc = true)
    (hrun : exec envStep empty calls = some ctb) (hheap : heapBytes ctb.head ≤ 2 ^ 32) :
    (∀ past m, envGet past ctb m = lastValue calls m ↔ 0x3D ∉ m.bytes ∨
        ∀ name data, lastValue calls name = some data → ¬ IsNodeOf m (envEntry name data)) ∧
      (ctb.head.map nodeName).Nodup ∧ ctb.count.toNat = (setNames calls).card := by
  have hmap := envMap_of_run hempty hnames halloc hrun
  have hset : ∀ name data, lastValue calls name = some data → 0x3D ∉ name.bytes := by
    intro name data hdata
    obtain ⟨call, hcall, rfl⟩ := exists_call_of_lastValue hdata
    exact hnames call hcall
  refine ⟨fun past m => ?_, hmap.nodup, ?_⟩
  · by_cases hm : 0x3D ∉ m.bytes
    · exact iff_of_true (hmap.get past hm) (.inl hm)
    · have hnone : lastValue calls m = none :=
        Option.eq_none_iff_forall_ne_some.mpr fun data hdata => hm (hset m data hdata)
      rw [hnone, hmap.get_eq_none_iff hset, or_iff_right hm]
  · have hacc : EnvAccount empty.free ctb :=
      exec_invariant_of_step EnvAccount.step ⟨by simp [hempty, hcount], by simp [hempty]⟩ hrun
    have hlen := length_le_heapBytes ctb.head
    rw [hacc.count, BitVec.toNat_ofNat, Nat.mod_eq_of_lt (by omega)]
    refine hmap.length_eq_card fun name =>
      ⟨fun h => ?_, fun h => mem_setNames.mpr h.2⟩
    obtain ⟨data, hdata⟩ := mem_setNames.mp h
    exact ⟨hset name data hdata, data, hdata⟩

/-- Setting `a` to `1` and then to `2`, and setting and dropping `ab`, leaves one node. -/
theorem env_finite_map_two_names :
    ∃ ctb, exec envStep EnvCtb.reset
        [⟨⟨[0x61], by decide⟩, some ⟨[0x31], by decide⟩, fun _ _ => 0, true⟩,
          ⟨⟨[0x61, 0x62], by decide⟩, some ⟨[0x33], by decide⟩, fun _ _ => 0, true⟩,
          ⟨⟨[0x61], by decide⟩, some ⟨[0x32], by decide⟩, fun _ _ => 0x3D, true⟩,
          ⟨⟨[0x61, 0x62], by decide⟩, none, fun _ _ => 0x3D, true⟩] = some ctb ∧
      envGet (fun _ _ => 0x3D) ctb ⟨[0x61], by decide⟩ = some ⟨[0x32], by decide⟩ ∧
      ctb.count.toNat = 1 := by
  have hrun : exec envStep EnvCtb.reset
      [⟨⟨[0x61], by decide⟩, some ⟨[0x31], by decide⟩, fun _ _ => 0, true⟩,
        ⟨⟨[0x61, 0x62], by decide⟩, some ⟨[0x33], by decide⟩, fun _ _ => 0, true⟩,
        ⟨⟨[0x61], by decide⟩, some ⟨[0x32], by decide⟩, fun _ _ => 0x3D, true⟩,
        ⟨⟨[0x61, 0x62], by decide⟩, none, fun _ _ => 0x3D, true⟩] = some _ := rfl
  obtain ⟨hget, -, hcount⟩ := env_finite_map rfl rfl (by simp) (by simp) hrun (by decide)
  exact ⟨_, hrun, ((hget _ _).mpr (.inl (by decide))).trans (by decide),
    hcount.trans (by decide)⟩

/-- `a` is set to `b=c`, and nothing else is set: looking up `a=b` finds `c`. -/
theorem env_get_of_never_set :
    ∃ ctb, exec envStep EnvCtb.reset
        [⟨⟨[0x61], by decide⟩, some ⟨[0x62, 0x3D, 0x63], by decide⟩, fun _ _ => 0, true⟩] =
          some ctb ∧
      envGet (fun _ _ => 0) ctb ⟨[0x61, 0x3D, 0x62], by decide⟩ = some ⟨[0x63], by decide⟩ ∧
      lastValue
        [⟨⟨[0x61], by decide⟩, some ⟨[0x62, 0x3D, 0x63], by decide⟩, fun _ _ => 0, true⟩]
        ⟨[0x61, 0x3D, 0x62], by decide⟩ = none :=
  ⟨_, rfl, by decide, by decide⟩

end RtBoot
