import RtBoot.EnvFlash

/-!
# Setting a Variable, All or Nothing

`env_set` unlinks and frees the node of the name before it asks for the memory of the new
one. When there is none, the old value is gone and nothing is in its place. And since it
appends, a second node of the same name, which flash content or names with `=` in them can
bring about, hides the value just set.

A store with at most one node of the name and enough memory is safe. The theorem of this
module says what else is, over every store: nothing was there to lose, the second node
already has the new value, or (the last case) the store looks the same afterwards because
the node that was deleted had a copy behind it.

## Main results

* `envGet_eq`: a lookup is the first node of the name.
* `envUnset_eq`: dropping a name, on the nodes in front of and behind its first node.
* `envSet_atomic_iff`: which calls of `env_set` are all-or-nothing.
-/

namespace RtBoot

/-- Every lookup, the count and the free bytes are the same. -/
structure SameStore (ctb ctb' : EnvCtb) : Prop where
  get : ∀ past name, envGet past ctb' name = envGet past ctb name
  count : ctb'.count = ctb.count
  free : ctb'.free = ctb.free

/-- After `env_set`, the name has the value or the store is as it was. -/
def AllOrNothing (past : ℕ → ℕ → UInt8) (alloc : Bool) (ctb : EnvCtb) (name data : CString) :
    Prop :=
  (∀ past', envGet past' (envSet past alloc ctb name data) name = some data) ∨
    SameStore ctb (envSet past alloc ctb name data)

/-- The nodes of a name, in their order. -/
def nodesOf (name : CString) (nodes : List CString) : List CString :=
  nodes.filter fun node => IsNodeOf name node

/-- Nobody notices that the first node of the name went and `name=data` came: the next node
of the name is a copy of it, the new one has its length, every other name that the two
strings answer to was answered from in front of them, and whatever name the new string
answers to had an answer. -/
def Unnoticed (name data : CString) (nodes : List CString) : Prop :=
  ∃ before node between after,
    nodes = before ++ node :: (between ++ node :: after) ∧
      IsNodeOf name node ∧ (∀ x ∈ before ++ between, ¬ IsNodeOf name x) ∧
      BitVec.ofNat 32 node.strlen = BitVec.ofNat 32 (envEntry name data).strlen ∧
      (∀ m, IsNodeOf m node → (∃ x ∈ between, IsNodeOf m x) → ∃ x ∈ before, IsNodeOf m x) ∧
      ∀ m, IsNodeOf m (envEntry name data) → ∃ x ∈ nodes, IsNodeOf m x

/-! ### Lookups -/

/-- **A lookup is the first node of the name.** -/
theorem envGet_eq (past : ℕ → ℕ → UInt8) (ctb : EnvCtb) (name : CString) :
    envGet past ctb name =
      (ctb.head.find? fun node => IsNodeOf name node).map fun node =>
        node.drop (name.strlen + 1) := by
  rw [envGet, envNodeSearch_eq]
  cases hi : ctb.head.findIdx? fun node => IsNodeOf name node with
  | none =>
      have hno := List.findIdx?_eq_none_iff.mp hi
      rw [List.find?_eq_none.mpr (by simpa using hno)]
      rfl
  | some i =>
      rw [List.find?_eq_getElem?_findIdx]
      obtain ⟨hlt, -, -⟩ := List.findIdx?_eq_some_iff_getElem.mp hi
      obtain rfl := (List.findIdx?_eq_some_iff_findIdx_eq.mp hi).2
      rfl

variable {name node data : CString} {ctb : EnvCtb} {after before : List CString}

/-- Two nodes of one name with the same value are the same string. -/
theorem eq_of_drop_eq {x y : CString} (hx : IsNodeOf name x) (hy : IsNodeOf name y)
    (h : x.drop (name.strlen + 1) = y.drop (name.strlen + 1)) : x = y := by
  obtain ⟨d, rfl⟩ := isNodeOf_iff.mp hx
  obtain ⟨d', rfl⟩ := isNodeOf_iff.mp hy
  rw [envEntry_drop, envEntry_drop] at h
  rw [h]

/-- Lookups agree exactly when the first nodes do. -/
theorem envGet_eq_envGet_iff (past : ℕ → ℕ → UInt8) (ctb ctb' : EnvCtb) (name : CString) :
    envGet past ctb name = envGet past ctb' name ↔
      (ctb.head.find? fun node => IsNodeOf name node) =
        ctb'.head.find? fun node => IsNodeOf name node := by
  rw [envGet_eq, envGet_eq]
  refine ⟨fun h => ?_, fun h => by rw [h]⟩
  cases hx : ctb.head.find? fun node => IsNodeOf name node with
  | none =>
      rw [hx, Option.map_none] at h
      exact (Option.map_eq_none_iff.mp h.symm).symm
  | some x =>
      rw [hx, Option.map_some] at h
      obtain ⟨y, hy, heq⟩ := Option.map_eq_some_iff.mp h.symm
      have hxn : IsNodeOf name x := by simpa using List.find?_some hx
      have hyn : IsNodeOf name y := by simpa using List.find?_some hy
      rw [hy, eq_of_drop_eq hxn hyn heq.symm]

/-- Behind the first node that satisfies `p`, the next one. -/
theorem find?_eraseP {α : Type*} (p : α → Bool) (l : List α) :
    (l.eraseP p).find? p = (l.filter p)[1]? := by
  induction l with
  | nil => rfl
  | cons x xs ih =>
      cases hx : p x with
      | true =>
          rw [List.eraseP_cons_of_pos hx, List.filter_cons_of_pos hx, List.getElem?_cons_succ,
            ← List.head?_eq_getElem?, List.head?_filter]
      | false =>
          have hneg : ¬ p x = true := by simp [hx]
          rw [List.eraseP_cons_of_neg hneg, List.filter_cons_of_neg hneg, ← ih,
            List.find?_cons_of_neg hneg]

/-- What a lookup of the name finds after `env_set`: its second node, else the new one. -/
theorem find?_envSet (past : ℕ → ℕ → UInt8) (alloc : Bool) (ctb : EnvCtb) (name data : CString) :
    ((envSet past alloc ctb name data).head.find? fun node => IsNodeOf name node) =
      ((nodesOf name ctb.head)[1]?).or (if alloc then some (envEntry name data) else none) := by
  have hself : IsNodeOf name (envEntry name data) := isNodeOf_iff.mpr ⟨data, rfl⟩
  cases alloc with
  | false =>
      have hhead : (envSet past false ctb name data).head = (envUnset past ctb name).head := rfl
      rw [hhead, envUnset_head, find?_eraseP]
      simp [nodesOf]
  | true =>
      rw [envSet_head, List.find?_append, find?_eraseP]
      simp [nodesOf, hself]

/-- The name has the new value exactly when the node found then is the new string. -/
theorem envGet_envSet_iff (past past' : ℕ → ℕ → UInt8) (alloc : Bool) (ctb : EnvCtb)
    (name data : CString) :
    envGet past' (envSet past alloc ctb name data) name = some data ↔
      (nodesOf name ctb.head)[1]? = some (envEntry name data) ∨
        (nodesOf name ctb.head)[1]? = none ∧ alloc = true := by
  have hself : IsNodeOf name (envEntry name data) := isNodeOf_iff.mpr ⟨data, rfl⟩
  rw [envGet_eq, find?_envSet]
  cases hsecond : (nodesOf name ctb.head)[1]? with
  | none => cases alloc <;> simp [envEntry_drop]
  | some second =>
      have hmem := List.mem_of_getElem? hsecond
      rw [nodesOf, List.mem_filter] at hmem
      have hof : IsNodeOf name second := of_decide_eq_true hmem.2
      rw [Option.some_or, Option.map_some]
      constructor
      · intro h
        rw [← envEntry_drop name data] at h
        exact .inl (congrArg some (eq_of_drop_eq hof hself (Option.some.inj h)))
      · rintro (h | ⟨h, -⟩)
        · rw [Option.some.inj h, envEntry_drop]
        · exact absurd h (by simp)

/-! ### The store after dropping a name -/

theorem nodesOf_eq_nil_iff {nodes : List CString} :
    nodesOf name nodes = [] ↔ ∀ x ∈ nodes, ¬ IsNodeOf name x := by
  simp [nodesOf, List.filter_eq_nil_iff]

theorem envUnset_of_nodesOf_nil
    (h : nodesOf name ctb.head = []) (past : ℕ → ℕ → UInt8) : envUnset past ctb name = ctb := by
  have hno : (ctb.head.findIdx? fun node => IsNodeOf name node) = none :=
    List.findIdx?_eq_none_iff.mpr (by simpa using nodesOf_eq_nil_iff.mp h)
  rw [envUnset, envNodeSearch_eq, hno]

/-- **Dropping a name**, on the nodes in front of and behind its first node. -/
theorem envUnset_eq (hhead : ctb.head = before ++ node :: after) (hnode : IsNodeOf name node)
    (hbefore : ∀ x ∈ before, ¬ IsNodeOf name x) (past : ℕ → ℕ → UInt8) :
    envUnset past ctb name =
      { ctb with
        head := before ++ after
        free := ctb.free + BitVec.ofNat 32 (node.strlen + 1)
        count := ctb.count - 1 } := by
  have hbefore' : ∀ x ∈ before, (decide (IsNodeOf name x)) = false := by simpa using hbefore
  have hidx : (ctb.head.findIdx? fun x => IsNodeOf name x) = some before.length := by
    rw [hhead, List.findIdx?_append, List.findIdx?_eq_none_iff.mpr hbefore', List.findIdx?_cons]
    simp [hnode]
  have hget : ctb.head[before.length]? = some node := by simp [hhead]
  have herase : ctb.head.eraseIdx before.length = before ++ after := by
    simp [hhead, List.eraseIdx_append_of_length_le]
  rw [envUnset, envNodeSearch_eq, hidx]
  simp only [envNodeDelete, hget, herase]

/-- A store that has a node of the name, split at the first. -/
theorem exists_first_node {nodes : List CString} (h : nodesOf name nodes ≠ []) :
    ∃ before node after, nodes = before ++ node :: after ∧ IsNodeOf name node ∧
      (∀ x ∈ before, ¬ IsNodeOf name x) ∧
      nodesOf name nodes = node :: nodesOf name after := by
  cases hfind : nodes.find? fun node => IsNodeOf name node with
  | none =>
      have hno : ∀ x ∈ nodes, ¬ IsNodeOf name x := by simpa using hfind
      exact absurd (nodesOf_eq_nil_iff.mpr hno) h
  | some node =>
      obtain ⟨hnode, before, after, rfl, hbefore⟩ := List.find?_eq_some_iff_append.mp hfind
      have hbefore' : ∀ x ∈ before, ¬ IsNodeOf name x := by simpa using hbefore
      have hnode' : IsNodeOf name node := by simpa using hnode
      refine ⟨before, node, after, rfl, hnode', hbefore', ?_⟩
      have hnil : nodesOf name before = [] := nodesOf_eq_nil_iff.mpr hbefore'
      rw [nodesOf] at hnil ⊢
      rw [List.filter_append, hnil, List.nil_append, List.filter_cons_of_pos (by simpa), nodesOf]

/-! ### All or nothing -/

/-- With a copy of the dropped node behind it, every lookup finds what it found. -/
theorem Unnoticed.find?_eq {between : List CString}
    (hshadow : ∀ m, IsNodeOf m node → (∃ x ∈ between, IsNodeOf m x) → ∃ x ∈ before, IsNodeOf m x)
    (hanswer : ∀ m, IsNodeOf m (envEntry name data) →
      ∃ x ∈ before ++ node :: (between ++ node :: after), IsNodeOf m x) (m : CString) :
    ((before ++ (between ++ node :: after) ++ [envEntry name data]).find? fun x => IsNodeOf m x) =
      (before ++ node :: (between ++ node :: after)).find? fun x => IsNodeOf m x := by
  simp only [List.append_assoc, List.find?_append, List.find?_cons, List.find?_nil]
  cases hbefore : before.find? fun x => IsNodeOf m x with
  | some x => rfl
  | none =>
      have hbefore' : ∀ x ∈ before, ¬ IsNodeOf m x := by simpa using hbefore
      by_cases hnode : IsNodeOf m node
      · have hbetween : (between.find? fun x => IsNodeOf m x) = none := by
          refine List.find?_eq_none.mpr fun x hx hxm => ?_
          obtain ⟨y, hy, hym⟩ := hshadow m hnode ⟨x, hx, of_decide_eq_true hxm⟩
          exact hbefore' y hy hym
        simp [hbetween, hnode]
      · cases hrest :
            (between.find? fun x => IsNodeOf m x).or (after.find? fun x => IsNodeOf m x) with
        | some x =>
            rw [Option.or_eq_some_iff] at hrest
            rcases hrest with hx | ⟨hnone, hx⟩
            · simp [hnode, hx]
            · simp [hnode, hnone, hx]
        | none =>
            -- no node answered to `m`, so neither does the new string
            obtain ⟨hb, ha⟩ := Option.or_eq_none_iff.mp hrest
            have hentry : ¬ IsNodeOf m (envEntry name data) := by
              intro hm
              obtain ⟨x, hx, hxm⟩ := hanswer m hm
              simp only [List.mem_append, List.mem_cons] at hx
              simp only [List.find?_eq_none, decide_eq_true_eq] at ha hb
              rcases hx with hx | rfl | hx | rfl | hx
              · exact hbefore' x hx hxm
              · exact hnode hxm
              · exact hb x hx hxm
              · exact hnode hxm
              · exact ha x hx hxm
            simp [hnode, hb, ha, hentry]

/-- Exchanging a node for another leaves the free bytes when the two have one length. -/
theorem exchanged_free_iff (free : BitVec 32) (m n : ℕ) :
    free + BitVec.ofNat 32 (m + 1) - BitVec.ofNat 32 (n + 1) = free ↔
      BitVec.ofNat 32 m = BitVec.ofNat 32 n := by
  rw [sub_eq_iff_eq_add, add_right_inj, BitVec.ofNat_add m 1, BitVec.ofNat_add n 1, add_left_inj]

/-- An unnoticed exchange leaves the store as it was. -/
theorem Unnoticed.sameStore (h : Unnoticed name data ctb.head) (past : ℕ → ℕ → UInt8) :
    SameStore ctb (envSet past true ctb name data) := by
  obtain ⟨before, node, between, after, hhead, hnode, hno, hlen, hshadow, hanswer⟩ := h
  have hbefore : ∀ x ∈ before, ¬ IsNodeOf name x := fun x hx => hno x (List.mem_append_left _ hx)
  have hset : envSet past true ctb name data =
      envNodeAdd (envUnset past ctb name) (envEntry name data) := rfl
  rw [hset, envUnset_eq hhead hnode hbefore past]
  refine ⟨fun past' m => ?_, ?_, ?_⟩
  · rw [envGet_eq_envGet_iff]
    simp only [envNodeAdd]
    rw [hhead]
    rw [hhead] at hanswer
    exact Unnoticed.find?_eq hshadow hanswer m
  · exact sub_add_cancel ctb.count 1
  · exact (exchanged_free_iff ctb.free _ _).mpr hlen

/-- Without memory for the new node, the loss of the old one shows in the count. -/
theorem not_sameStore_of_no_memory
    (h : nodesOf name ctb.head ≠ []) (past : ℕ → ℕ → UInt8) (data : CString) :
    ¬ SameStore ctb (envSet past false ctb name data) := by
  intro hsame
  obtain ⟨before, node, after, hhead, hnode, hbefore, -⟩ := exists_first_node h
  have hset : envSet past false ctb name data = envUnset past ctb name := rfl
  have hcount := hsame.count
  rw [hset, envUnset_eq hhead hnode hbefore past] at hcount
  exact absurd (sub_eq_self.mp hcount) (by decide)

/-- A search that finds the same although the node it would stop at has gone, and is not
between, stopped in front of it when it can stop between. -/
theorem exists_before_of_find?_eq {α : Type*} {p : α → Bool} {before between rest rest' : List α}
    {a x : α} (h : (before ++ (between ++ rest)).find? p = (before ++ a :: rest').find? p)
    (ha : p a) (hnot : a ∉ between) (hx : x ∈ between) (hpx : p x) : ∃ y ∈ before, p y := by
  by_contra hno
  have hb : before.find? p = none :=
    List.find?_eq_none.mpr fun y hy hpy => hno ⟨y, hy, hpy⟩
  simp only [List.find?_append, hb, Option.none_or] at h
  cases hbt : between.find? p with
  | none => exact List.find?_eq_none.mp hbt x hx hpx
  | some y =>
      rw [hbt, Option.some_or, List.find?_cons_of_pos ha] at h
      obtain rfl := Option.some.inj h
      exact hnot (List.mem_of_find?_eq_some hbt)

/-- A store that is as it was, though it had two nodes of the name, did not notice. -/
theorem SameStore.unnoticed {past : ℕ → ℕ → UInt8}
    (h : SameStore ctb (envSet past true ctb name data))
    {second : CString} (hhead : ctb.head = before ++ node :: after)
    (hnode : IsNodeOf name node) (hbefore : ∀ x ∈ before, ¬ IsNodeOf name x)
    (hnodes : nodesOf name ctb.head = node :: nodesOf name after)
    (hsecond : (nodesOf name ctb.head)[1]? = some second) : Unnoticed name data ctb.head := by
  have hset : envSet past true ctb name data =
      envNodeAdd (envUnset past ctb name) (envEntry name data) := rfl
  have hfind : ∀ m, ((envSet past true ctb name data).head.find? fun x => IsNodeOf m x) =
      ctb.head.find? fun x => IsNodeOf m x :=
    fun m => (envGet_eq_envGet_iff past _ _ m).mp (h.get past m)
  -- the second node of the name is found now, and the first was found before
  obtain rfl : second = node := by
    have hname := hfind name
    have hfirst : (ctb.head.find? fun x => IsNodeOf name x) = some node := by
      rw [← List.head?_filter]
      exact congrArg List.head? hnodes
    rw [find?_envSet, hsecond, hfirst] at hname
    exact Option.some.inj hname
  have hafter : nodesOf name after ≠ [] := by
    intro hnil
    rw [hnodes, hnil] at hsecond
    exact absurd hsecond (by simp)
  obtain ⟨between, node', rest, rfl, hnode', hbetween, hnodes'⟩ := exists_first_node hafter
  obtain rfl : node' = second := by
    rw [hnodes, hnodes'] at hsecond
    exact Option.some.inj hsecond
  have hhead' : (envSet past true ctb name data).head =
      before ++ (between ++ node' :: rest) ++ [envEntry name data] := by
    rw [hset, envUnset_eq hhead hnode hbefore past]
    rfl
  refine ⟨before, node', between, rest, hhead, hnode, ?_, ?_, ?_, ?_⟩
  · intro x hx
    exact (List.mem_append.mp hx).elim (hbefore x) (hbetween x)
  · have hfree := h.free
    rw [hset, envUnset_eq hhead hnode hbefore past] at hfree
    exact (exchanged_free_iff ctb.free _ _).mp hfree
  · rintro m hm ⟨x, hx, hxm⟩
    -- else the lookup of `m` has moved from the node to one between it and its copy
    have hfirst := hfind m
    rw [hhead', hhead, List.append_assoc, List.append_assoc] at hfirst
    have hnot : node' ∉ between := fun hmem => hbetween _ hmem hnode
    obtain ⟨y, hy, hym⟩ :=
      exists_before_of_find?_eq hfirst (decide_eq_true hm) hnot hx (decide_eq_true hxm)
    exact ⟨y, hy, of_decide_eq_true hym⟩
  · intro m hm
    have hsome : ((envSet past true ctb name data).head.find? fun x => IsNodeOf m x).isSome := by
      rw [List.find?_isSome, hhead']
      exact ⟨_, by simp, decide_eq_true hm⟩
    rw [hfind m, List.find?_isSome] at hsome
    obtain ⟨x, hx, hxm⟩ := hsome
    exact ⟨x, hx, of_decide_eq_true hxm⟩

/-- **When setting a variable is all-or-nothing.** For every store, name, value and either
result of the allocation: the name has the value afterwards or the whole store is as it
was, exactly when there was no node of the name, or the second node of the name already
has the value, or the allocation succeeds and the node of the name was the only one (or
its going is not noticed). -/
theorem envSet_atomic_iff (past : ℕ → ℕ → UInt8) (alloc : Bool) (ctb : EnvCtb)
    (name data : CString) :
    AllOrNothing past alloc ctb name data ↔
      nodesOf name ctb.head = [] ∨
        (nodesOf name ctb.head)[1]? = some (envEntry name data) ∨
        alloc = true ∧
          ((nodesOf name ctb.head).length = 1 ∨ Unnoticed name data ctb.head) := by
  constructor
  · intro h
    by_cases hnil : nodesOf name ctb.head = []
    · exact .inl hnil
    obtain ⟨before, node, after, hhead, hnode, hbefore, hnodes⟩ := exists_first_node hnil
    have hone : (nodesOf name ctb.head)[1]? = none → (nodesOf name ctb.head).length = 1 := by
      intro hnone
      have := List.getElem?_eq_none_iff.mp hnone
      have := List.length_pos_iff.mpr hnil
      omega
    rcases h with h | h
    · have hnew := (envGet_envSet_iff past past alloc ctb name data).mp (h past)
      rcases hnew with hsecond | ⟨hnone, ha⟩
      · exact .inr (.inl hsecond)
      · exact .inr (.inr ⟨ha, .inl (hone hnone)⟩)
    · cases alloc with
      | false => exact absurd h (not_sameStore_of_no_memory hnil past data)
      | true =>
          cases hsecond : (nodesOf name ctb.head)[1]? with
          | none => exact .inr (.inr ⟨rfl, .inl (hone hsecond)⟩)
          | some second =>
              exact .inr (.inr ⟨rfl, .inr (h.unnoticed hhead hnode hbefore hnodes hsecond)⟩)
  · have hsets : ((nodesOf name ctb.head)[1]? = some (envEntry name data) ∨
        (nodesOf name ctb.head)[1]? = none ∧ alloc = true) →
          AllOrNothing past alloc ctb name data :=
      fun h => .inl fun past' => (envGet_envSet_iff past past' alloc ctb name data).mpr h
    rintro (h | h | ⟨rfl, h | h⟩)
    · cases alloc with
      | false =>
          have hset : envSet past false ctb name data = ctb := envUnset_of_nodesOf_nil h past
          rw [AllOrNothing, hset]
          exact .inr ⟨fun _ _ => rfl, rfl, rfl⟩
      | true => exact hsets (.inr ⟨by rw [h]; rfl, rfl⟩)
    · exact hsets (.inl h)
    · exact hsets (.inr ⟨List.getElem?_eq_none_iff.mpr h.le, rfl⟩)
    · exact .inr (h.sameStore past)

/-- On erased flash, after `a` was set to `1`, setting it to `2` without memory loses it. -/
theorem envSet_loses_value :
    ∃ ctb, exec envStep (bootTable 0x2000)
        [⟨⟨[0x61], by decide⟩, some ⟨[0x31], by decide⟩, fun _ _ => 0, true⟩] = some ctb ∧
      envGet (fun _ _ => 0) ctb ⟨[0x61], by decide⟩ = some ⟨[0x31], by decide⟩ ∧
      envGet (fun _ _ => 0)
        (envSet (fun _ _ => 0) false ctb ⟨[0x61], by decide⟩ ⟨[0x32], by decide⟩)
        ⟨[0x61], by decide⟩ = none ∧
      ¬ AllOrNothing (fun _ _ => 0) false ctb ⟨[0x61], by decide⟩ ⟨[0x32], by decide⟩ := by
  have hgone : envGet (fun _ _ => 0) (envSet (fun _ _ => 0) false
      (envNodeAdd (bootTable 0x2000) (envEntry ⟨[0x61], by decide⟩ ⟨[0x31], by decide⟩))
      ⟨[0x61], by decide⟩ ⟨[0x32], by decide⟩) ⟨[0x61], by decide⟩ = none := by
    decide
  refine ⟨_, rfl, by decide, hgone, ?_⟩
  rintro (h | h)
  · exact absurd ((h fun _ _ => 0).symm.trans hgone) (by simp)
  · exact absurd h.count (by decide)

end RtBoot
