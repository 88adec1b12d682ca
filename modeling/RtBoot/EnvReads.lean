import RtBoot.EnvFlash

/-!
# What the Environment Calls Read

`env_node_search` reads the byte at offset `strlen(name)` of a node before it compares the
node with the name. Whether that byte is the node's depends on the node's length alone, so
a long name takes the search out of every shorter string in front of its own node.

The calls are modelled a second time with the bytes they read: those of the stored
strings, of the string of the node being built, and of the two arguments. The links of the
list and the literal `=` are not bytes of strings and are left out.

## Main results

* `envNodeSearchReading_snd`: the search that records its reads is the search.
* `env_reads_inside_iff`: `env_get`, `env_set` and `env_unset` stay inside the strings of
  the store and their arguments exactly when no node in front of the name's own is shorter
  than the name.
-/

namespace RtBoot

/-- A byte that a call reads: at an offset of the data of node `i`, of the data of the node
that `env_set` is building, of the name, or of the value. -/
inductive EnvRead where
  | node (i off : ℕ)
  | fresh (off : ℕ)
  | name (off : ℕ)
  | data (off : ℕ)
  deriving DecidableEq

/-- The offsets that `rt_strlen`, or any other walk to the terminator, reads. -/
def CString.walk (s : CString) : List ℕ :=
  List.range (s.strlen + 1)

theorem CString.mem_walk {s : CString} {j : ℕ} : j ∈ s.walk ↔ j ≤ s.strlen := by
  rw [walk, List.mem_range, Nat.lt_succ_iff]

/-- The three calls, with the value and the result of the allocation of an `env_set`. -/
inductive EnvOp where
  | get
  | set (data : CString) (alloc : Bool)
  | unset

/-- `env_node_search` from node `i` on, with the bytes it reads. -/
def envNodeSearchReading (past : ℕ → ℕ → UInt8) (name : CString) :
    ℕ → List CString → List EnvRead × Option ℕ
  | _, [] => ([], none)
  | i, node :: rest =>
      let data := node.byteAt (past i)
      let nameLen := name.walk.map EnvRead.name ++ [.node i name.strlen]
      let compared :=
        if data name.strlen = 0x3D then
          (memcmpReads data (name.byteAt fun _ => 0) 0 name.strlen).flatMap fun j =>
            [.node i j, .name j]
        else []
      if data name.strlen = 0x3D ∧ memcmp data (name.byteAt fun _ => 0) 0 name.strlen = 0 then
        (nameLen ++ compared, some i)
      else
        let later := envNodeSearchReading past name (i + 1) rest
        (nameLen ++ compared ++ later.1, later.2)

/-- What `env_unset`, and the first half of `env_set`, read: the search, and the string of
the node that `env_node_delete` takes off the account. -/
def envUnsetReads (past : ℕ → ℕ → UInt8) (nodes : List CString) (name : CString) :
    List EnvRead :=
  let search := envNodeSearchReading past name 0 nodes
  match search.2 with
  | none => search.1
  | some i =>
      match nodes[i]? with
      | none => search.1
      | some node => search.1 ++ node.walk.map (EnvRead.node i)

/-- What building the node `name=data` reads: three calls of `rt_strcat`, each of which
first looks for the end of what is there, and the `rt_strlen` of `env_node_add`. -/
def envEntryReads (name data : CString) : List EnvRead :=
  [.fresh 0] ++ name.walk.map EnvRead.name ++ name.walk.map EnvRead.fresh ++
    (name.append eqSign).walk.map EnvRead.fresh ++ data.walk.map EnvRead.data ++
    (envEntry name data).walk.map EnvRead.fresh

/-- The bytes a call reads. -/
def EnvOp.reads (past : ℕ → ℕ → UInt8) (nodes : List CString) (name : CString) :
    EnvOp → List EnvRead
  | .get =>
      let search := envNodeSearchReading past name 0 nodes
      if search.2.isSome then search.1 ++ name.walk.map EnvRead.name else search.1
  | .set data alloc =>
      envUnsetReads past nodes name ++ name.walk.map EnvRead.name ++ data.walk.map EnvRead.data ++
        if alloc then envEntryReads name data else []
  | .unset => envUnsetReads past nodes name

/-- The byte belongs to the string of some node or to an argument of the call; the node
being built has room for `name=data` and its terminator. -/
def EnvRead.Inside (nodes : List CString) (name : CString) (op : EnvOp) : EnvRead → Prop
  | .node i off => ∃ node, nodes[i]? = some node ∧ off ≤ node.strlen
  | .fresh off =>
      match op with
      | .set value _ => off ≤ (envEntry name value).strlen
      | _ => False
  | .name off => off ≤ name.strlen
  | .data off =>
      match op with
      | .set value _ => off ≤ value.strlen
      | _ => False

/-! ### The search -/

/-- **Recording the reads does not change the search.** -/
theorem envNodeSearchReading_snd (past : ℕ → ℕ → UInt8) (name : CString) (i : ℕ)
    (nodes : List CString) :
    (envNodeSearchReading past name i nodes).2 =
      (envNodeSearch (fun j => past (i + j)) name nodes).map (i + ·) := by
  induction nodes generalizing i with
  | nil => rfl
  | cons node rest ih =>
      by_cases htest : node.byteAt (past i) name.strlen = 0x3D ∧
          memcmp (node.byteAt (past i)) (name.byteAt fun _ => 0) 0 name.strlen = 0
      · simp only [envNodeSearchReading, envNodeSearch, Nat.add_zero, if_pos htest,
          Option.map_some]
      · have hindex : ∀ j, i + 1 + j = i + (j + 1) := Nat.add_right_comm i 1
        simp only [envNodeSearchReading, envNodeSearch, Nat.add_zero, if_neg htest, ih, hindex,
          Option.map_map, Function.comp_def]

section
variable {nodes : List CString} {name : CString} {op : EnvOp}

theorem inside_name_walk : ∀ r ∈ name.walk.map EnvRead.name, r.Inside nodes name op := by
  intro r hr
  obtain ⟨j, hj, rfl⟩ := List.mem_map.mp hr
  exact CString.mem_walk.mp hj

theorem inside_fresh_walk {s data : CString} {alloc : Bool}
    (hs : s.strlen ≤ (envEntry name data).strlen) :
    ∀ r ∈ s.walk.map EnvRead.fresh, r.Inside nodes name (.set data alloc) := by
  intro r hr
  obtain ⟨j, hj, rfl⟩ := List.mem_map.mp hr
  exact (CString.mem_walk.mp hj).trans hs

theorem inside_data_walk {data : CString} {alloc : Bool} :
    ∀ r ∈ data.walk.map EnvRead.data, r.Inside nodes name (.set data alloc) := by
  intro r hr
  obtain ⟨j, hj, rfl⟩ := List.mem_map.mp hr
  exact CString.mem_walk.mp hj

theorem inside_node_walk {i : ℕ} {node : CString} (hi : nodes[i]? = some node) :
    ∀ r ∈ node.walk.map (EnvRead.node i), r.Inside nodes name op := by
  intro r hr
  obtain ⟨j, hj, rfl⟩ := List.mem_map.mp hr
  exact ⟨node, hi, CString.mem_walk.mp hj⟩

/-- The comparison behind an `=` stays inside the node and the name. -/
theorem inside_compared {i : ℕ} {node : CString} (hi : nodes[i]? = some node) (past : ℕ → UInt8) :
    ∀ r ∈ (memcmpReads (node.byteAt past) (name.byteAt fun _ => 0) 0 name.strlen).flatMap
      (fun j => [EnvRead.node i j, .name j]), r.Inside nodes name op := by
  intro r hr
  obtain ⟨j, hj, hr⟩ := List.mem_flatMap.mp hr
  obtain ⟨hnode, hname⟩ := mem_memcmpReads_byteAt hj
  rw [List.mem_cons, List.mem_singleton] at hr
  rcases hr with rfl | rfl
  · exact ⟨node, hi, hnode⟩
  · exact hname

variable (name op) in
/-- The reads at one node are inside exactly when the node is as long as the name. -/
theorem inside_node_iff {i : ℕ} {node : CString} (hi : nodes[i]? = some node) (past : ℕ → UInt8) :
    (∀ r ∈ name.walk.map EnvRead.name ++ [.node i name.strlen] ++
        (if node.byteAt past name.strlen = 0x3D then
          (memcmpReads (node.byteAt past) (name.byteAt fun _ => 0) 0 name.strlen).flatMap fun j =>
            [EnvRead.node i j, .name j]
        else []), r.Inside nodes name op) ↔ name.strlen ≤ node.strlen := by
  constructor
  · intro hall
    obtain ⟨node', hi', hle⟩ := hall (.node i name.strlen) (by simp)
    obtain rfl : node = node' := Option.some.inj (hi.symm.trans hi')
    exact hle
  · intro hle r hr
    rcases List.mem_append.mp hr with hr | hr
    · rcases List.mem_append.mp hr with hr | hr
      · exact inside_name_walk r hr
      · obtain rfl := List.mem_singleton.mp hr
        exact ⟨node, hi, hle⟩
    · split at hr
      · exact inside_compared hi past r hr
      · exact absurd hr List.not_mem_nil

/-- The node of a name is longer than the name. -/
theorem IsNodeOf.strlen_lt {node : CString} (h : IsNodeOf name node) :
    name.strlen < node.strlen := by
  have hle : (name.append eqSign).bytes.length ≤ node.bytes.length := h.length_le
  simp only [CString.append_bytes, List.length_append] at hle
  exact hle

variable (op) in
/-- **Where the search reads.** It stays inside the strings exactly when no node that it
passes is shorter than the name. -/
theorem search_inside_iff {i : ℕ} {rest : List CString} (hrest : nodes.drop i = rest)
    (past : ℕ → ℕ → UInt8) :
    (∀ r ∈ (envNodeSearchReading past name i rest).1, r.Inside nodes name op) ↔
      ∀ node ∈ rest.takeWhile (fun node => ¬ IsNodeOf name node), name.strlen ≤ node.strlen := by
  induction rest generalizing i with
  | nil => simp [envNodeSearchReading]
  | cons node rest ih =>
      have hi : nodes[i]? = some node := by
        rw [← List.head?_drop, hrest, List.head?_cons]
      have hnext : nodes.drop (i + 1) = rest := by
        rw [← List.drop_drop, hrest, List.drop_one, List.tail_cons]
      have hnode := inside_node_iff name op hi (past i)
      simp only [envNodeSearchReading, search_test_iff]
      by_cases hfound : IsNodeOf name node
      · have hle : name.strlen ≤ node.strlen := hfound.strlen_lt.le
        rw [if_pos hfound, List.takeWhile_cons_of_neg (by simpa using hfound)]
        exact iff_of_true (hnode.mpr hle) (by simp)
      · rw [if_neg hfound, List.takeWhile_cons_of_pos (by simpa using hfound),
          List.forall_mem_append, hnode, ih hnext, List.forall_mem_cons]

/-! ### The calls -/

theorem envUnsetReads_inside_iff (past : ℕ → ℕ → UInt8) :
    (∀ r ∈ envUnsetReads past nodes name, r.Inside nodes name op) ↔
      ∀ r ∈ (envNodeSearchReading past name 0 nodes).1, r.Inside nodes name op := by
  rw [envUnsetReads]
  split
  · rfl
  · split
    · rfl
    · next hi =>
        rw [List.forall_mem_append]
        exact and_iff_left (inside_node_walk hi)

/-- Building a node stays inside its arguments and the node. -/
theorem envEntryReads_inside (data : CString) (alloc : Bool) :
    ∀ r ∈ envEntryReads name data, r.Inside nodes name (.set data alloc) := by
  have hname : name.strlen ≤ (envEntry name data).strlen := by
    rw [strlen_envEntry]
    omega
  have hsign : (name.append eqSign).strlen ≤ (envEntry name data).strlen :=
    ( List.prefix_append _ data.bytes).length_le
  have hfirst : ∀ r ∈ [EnvRead.fresh 0], r.Inside nodes name (.set data alloc) :=
    List.forall_mem_singleton.mpr (Nat.zero_le _)
  rw [envEntryReads]
  simp only [List.forall_mem_append]
  exact ⟨⟨⟨⟨⟨hfirst, inside_name_walk⟩, inside_fresh_walk hname⟩, inside_fresh_walk hsign⟩,
    inside_data_walk⟩, inside_fresh_walk (Nat.le_refl _)⟩

end

/-- **Which lookups stay inside the store.** For every store, every name and each of the
three calls: the call reads only bytes of the strings of the nodes and of its arguments
exactly when no node in front of the name's own is shorter than the name. -/
theorem env_reads_inside_iff (past : ℕ → ℕ → UInt8) (ctb : EnvCtb) (name : CString) (op : EnvOp) :
    (∀ r ∈ op.reads past ctb.head name, r.Inside ctb.head name op) ↔
      ∀ node ∈ ctb.head.takeWhile (fun node => ¬ IsNodeOf name node),
        name.strlen ≤ node.strlen := by
  rw [← search_inside_iff op List.drop_zero past]
  cases op with
  | get =>
      rw [EnvOp.reads]
      split
      · rw [List.forall_mem_append]
        exact and_iff_left inside_name_walk
      · rfl
  | unset => exact envUnsetReads_inside_iff past
  | set data alloc =>
      have hentry : ∀ r ∈ (if alloc then envEntryReads name data else []),
          r.Inside ctb.head name (.set data alloc) := by
        split
        · exact envEntryReads_inside data alloc
        · simp
      rw [EnvOp.reads, List.forall_mem_append, List.forall_mem_append, List.forall_mem_append,
        and_iff_left hentry, and_iff_left inside_data_walk, and_iff_left inside_name_walk,
        envUnsetReads_inside_iff]

/-- On erased flash, after `a` was set to `1`, `env_get("abcd")` reads offset 4 of the
node `a=1`, whose terminator is at offset 3. -/
theorem env_get_reads_outside :
    ∃ start ctb, envInit envEnable 0x2000 (List.replicate 0x2000 0xFF) (fun _ => true)
        EnvCtb.reset = some start ∧
      exec envStep start
        [⟨⟨[0x61], by decide⟩, some ⟨[0x31], by decide⟩, fun _ _ => 0, true⟩] = some ctb ∧
      EnvRead.node 0 4 ∈
        EnvOp.get.reads (fun _ _ => 0) ctb.head ⟨[0x61, 0x62, 0x63, 0x64], by decide⟩ ∧
      ¬ (EnvRead.node 0 4).Inside ctb.head ⟨[0x61, 0x62, 0x63, 0x64], by decide⟩ .get := by
  refine ⟨_, _, envInit_erased, rfl, by decide, ?_⟩
  rintro ⟨node, hnode, hoff⟩
  obtain rfl : envEntry ⟨[0x61], by decide⟩ ⟨[0x31], by decide⟩ = node := Option.some.inj hnode
  exact absurd hoff (by decide)

end RtBoot
