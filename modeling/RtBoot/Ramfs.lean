import Mathlib.Data.Int.Notation
import Mathlib.Data.List.Basic
import Mathlib.Logic.Function.Basic
import Mathlib.Tactic.Common

/-!
# The Ram File System under `/tmp`

The uploaded images live in a ram file system (`dfs_ramfs.c`) behind the descriptor table
of the virtual file system (`dfs.c`, `dfs_file.c`, `dfs_posix.c`). This module models the
calls the web server and the flash thread make: `open`, `read`, `write`, `close` and
`unlink`.

An entry of the file system is an object on its heap; it is named here by a number that is
never used again, so that a descriptor on an entry that was freed can be told from one on
a live entry. The virtual file system refuses to open or unlink a path some descriptor is
open on (`fd_is_open`). That check copies the path first, and a copy that cannot be
allocated counts as "not open"; `DfsAlloc` keeps this apart from the failures that make
the call fail.

## Main results

* `Ramfs.unlink_of_isOpen` and `Ramfs.open_of_isOpen`: an open path is protected.
* `Ramfs.Spares`: what a call leaves alone of an entry that is not its own, with one lemma
  for each call.
-/

namespace RtBoot

/-- An open descriptor: `path`, `data`, `size` and `pos` of `struct dfs_fd`. -/
structure DfsFd where
  path : String
  dirent : ℕ
  size : ℕ
  pos : ℕ
  deriving DecidableEq, Repr

/-- The ram file system and the descriptor table. `root` is the list of entries under the
root, at most one for each name; `entry` holds the contents of the entries that are not
freed, and `fresh` is the first number not used for an entry yet. -/
structure Ramfs where
  root : String → Option ℕ
  entry : ℕ → Option (List UInt8)
  fresh : ℕ
  fds : ℤ → Option DfsFd

/-- What the heap answers to the allocations of a call: all are granted, one is refused
and the call fails, or the only one refused is the copy of the path in `fd_is_open`. -/
inductive DfsAlloc
  | granted
  | refused
  | unchecked
  deriving DecidableEq, Repr

/-- The two ways files are opened: `O_RDONLY`, and `O_WRONLY | O_CREAT | O_TRUNC`. -/
inductive OpenMode
  | readOnly
  | truncate
  deriving DecidableEq, Repr

/-! ### The calls -/

/-- The numbers of the descriptor table (`DFS_FD_MAX` is 6). -/
def fdNumbers : List ℤ :=
  [0, 1, 2, 3, 4, 5]

/-- `fd_alloc`: the first free entry of the descriptor table. -/
def Ramfs.fdAlloc (fs : Ramfs) : Option ℤ :=
  fdNumbers.find? fun n => (fs.fds n).isNone

/-- `fd_is_open`: some descriptor is open on the path. -/
def Ramfs.fdIsOpen (fs : Ramfs) (path : String) : Bool :=
  fdNumbers.any fun n => (fs.fds n).any fun d => d.path == path

/-- `open`. The file system afterwards, and the descriptor or `-1`. -/
def Ramfs.open (fs : Ramfs) (path : String) (mode : OpenMode) (alloc : DfsAlloc) : Ramfs × ℤ :=
  if alloc = .refused then (fs, -1)
  else
    match fs.fdAlloc with
    | none => (fs, -1)
    | some n =>
        if alloc = .granted ∧ fs.fdIsOpen path then (fs, -1)
        else
          match fs.root path, mode with
          | none, .readOnly => (fs, -1)
          | none, .truncate =>
              ({ root := Function.update fs.root path (some fs.fresh)
                 entry := Function.update fs.entry fs.fresh (some [])
                 fresh := fs.fresh + 1
                 fds := Function.update fs.fds n (some ⟨path, fs.fresh, 0, 0⟩) }, n)
          | some id, .readOnly =>
              ({ fs with
                 fds := Function.update fs.fds n
                   (some ⟨path, id, ((fs.entry id).getD []).length, 0⟩) }, n)
          | some id, .truncate =>
              ({ fs with
                 entry := Function.update fs.entry id (some [])
                 fds := Function.update fs.fds n (some ⟨path, id, 0, 0⟩) }, n)

/-- `read`. The bytes read, `none` when the read touches memory that is not the entry's
any more, and the file system afterwards. A bad descriptor reads nothing. -/
def Ramfs.read (fs : Ramfs) (fd : ℤ) (count : ℕ) : Option (List UInt8) × Ramfs :=
  match fs.fds fd with
  | none => (some [], fs)
  | some d =>
      let length := if count < d.size - d.pos then count else d.size - d.pos
      let fs' := { fs with
        fds := Function.update fs.fds fd (some { d with pos := d.pos + length }) }
      if 0 < length then
        match fs.entry d.dirent with
        | none => (none, fs')
        | some data =>
            if d.pos + length ≤ data.length then (some ((data.drop d.pos).take length), fs')
            else (none, fs')
      else (some [], fs')

/-- `write`. A bad descriptor or a refused enlargement writes nothing; a write through an
entry that was freed has no defined result. -/
def Ramfs.write (fs : Ramfs) (fd : ℤ) (buf : List UInt8) (alloc : DfsAlloc) : Option Ramfs :=
  match fs.fds fd with
  | none => some fs
  | some d =>
      match fs.entry d.dirent with
      | none => none
      | some data =>
          if d.size < buf.length + d.pos then
            if alloc = .refused then some fs
            else some { fs with
              entry := Function.update fs.entry d.dirent (some (data.take d.pos ++ buf))
              fds := Function.update fs.fds fd (some { d with
                size := d.pos + buf.length
                pos := d.pos + buf.length }) }
          else some { fs with
            entry := Function.update fs.entry d.dirent
              (some (data.take d.pos ++ buf ++ data.drop (d.pos + buf.length)))
            fds := Function.update fs.fds fd (some { d with pos := d.pos + buf.length }) }

/-- `close`. -/
def Ramfs.close (fs : Ramfs) (fd : ℤ) : Ramfs :=
  { fs with fds := Function.update fs.fds fd none }

/-- `unlink`. The entry and its contents are freed. -/
def Ramfs.unlink (fs : Ramfs) (path : String) (alloc : DfsAlloc) : Ramfs :=
  if alloc = .refused then fs
  else if alloc = .granted ∧ fs.fdIsOpen path then fs
  else
    match fs.root path with
    | none => fs
    | some id => { fs with
        root := Function.update fs.root path none
        entry := Function.update fs.entry id none }

/-! ### Well-formed tables -/

/-- What every call keeps: descriptors are numbers of the table, entries have been handed
out, and no entry stands under two names. -/
structure Ramfs.WF (fs : Ramfs) : Prop where
  table : ∀ n d, fs.fds n = some d → n ∈ fdNumbers
  dirent_lt : ∀ n d, fs.fds n = some d → d.dirent < fs.fresh
  root_lt : ∀ path id, fs.root path = some id → id < fs.fresh
  root_inj : ∀ path path' id, fs.root path = some id → fs.root path' = some id → path = path'

variable {d : DfsFd} {fs fs' : Ramfs} {n fd : ℤ} {alloc : DfsAlloc} {buf : List UInt8}
  {path : String} {id : ℕ}

/-- A path some descriptor is open on is open. -/
theorem Ramfs.WF.fdIsOpen (h : fs.WF) (hd : fs.fds n = some d) : fs.fdIsOpen d.path = true := by
  refine List.any_eq_true.mpr ⟨n, h.table n d hd, ?_⟩
  simp [hd]

theorem nonneg_of_mem_fdNumbers (h : n ∈ fdNumbers) : 0 ≤ n := by
  simp only [fdNumbers, List.mem_cons, List.not_mem_nil, or_false] at h
  omega

/-- `fd_alloc` returns a free number of the table. -/
theorem Ramfs.fdAlloc_eq_some (h : fs.fdAlloc = some n) :
    fs.fds n = none ∧ n ∈ fdNumbers := by
  refine ⟨?_, List.mem_of_find?_eq_some h⟩
  simpa using List.find?_some h

/-- The calls `open` can be: refused, a new entry, or a descriptor on the entry of the
path, truncated or not. -/
theorem Ramfs.open_cases (fs : Ramfs) (path : String) (mode : OpenMode) (alloc : DfsAlloc) :
    fs.open path mode alloc = (fs, -1) ∨
    ∃ n, fs.fds n = none ∧ n ∈ fdNumbers ∧ alloc ≠ .refused ∧
      (alloc = .granted → fs.fdIsOpen path = false) ∧
      ((fs.root path = none ∧ mode = .truncate ∧
          fs.open path mode alloc =
            ({ root := Function.update fs.root path (some fs.fresh)
               entry := Function.update fs.entry fs.fresh (some [])
               fresh := fs.fresh + 1
               fds := Function.update fs.fds n (some ⟨path, fs.fresh, 0, 0⟩) }, n)) ∨
        (∃ id, fs.root path = some id ∧ mode = .readOnly ∧
          fs.open path mode alloc =
            ({ fs with
               fds := Function.update fs.fds n
                 (some ⟨path, id, ((fs.entry id).getD []).length, 0⟩) }, n)) ∨
        ∃ id, fs.root path = some id ∧ mode = .truncate ∧
          fs.open path mode alloc =
            ({ fs with
               entry := Function.update fs.entry id (some [])
               fds := Function.update fs.fds n (some ⟨path, id, 0, 0⟩) }, n)) := by
  rw [Ramfs.open]
  split
  · exact .inl rfl
  · rename_i hrefused
    cases hn : fs.fdAlloc with
    | none => exact .inl rfl
    | some n =>
        obtain ⟨hfree, hmem⟩ := Ramfs.fdAlloc_eq_some hn
        dsimp only
        split
        · exact .inl rfl
        · rename_i hbusy
          have hopen : alloc = .granted → fs.fdIsOpen path = false := by
            intro hg
            simpa [hg] using hbusy
          cases hroot : fs.root path with
          | none =>
              cases mode with
              | readOnly => exact .inl rfl
              | truncate => exact .inr ⟨n, hfree, hmem, hrefused, hopen, .inl ⟨rfl, rfl, rfl⟩⟩
          | some id =>
              cases mode with
              | readOnly =>
                  exact .inr ⟨n, hfree, hmem, hrefused, hopen, .inr (.inl ⟨id, rfl, rfl, rfl⟩)⟩
              | truncate =>
                  exact .inr ⟨n, hfree, hmem, hrefused, hopen, .inr (.inr ⟨id, rfl, rfl, rfl⟩)⟩

/-- `unlink` does nothing, or frees the entry of a path on which no descriptor was seen. -/
theorem Ramfs.unlink_cases (fs : Ramfs) (path : String) (alloc : DfsAlloc) :
    fs.unlink path alloc = fs ∨
    ∃ id, fs.root path = some id ∧ alloc ≠ .refused ∧
      (alloc = .granted → fs.fdIsOpen path = false) ∧
      fs.unlink path alloc = { fs with
        root := Function.update fs.root path none
        entry := Function.update fs.entry id none } := by
  rw [Ramfs.unlink]
  split
  · exact .inl rfl
  · rename_i hrefused
    split
    · exact .inl rfl
    · rename_i hbusy
      cases hroot : fs.root path with
      | none => exact .inl rfl
      | some id =>
          refine .inr ⟨id, rfl, hrefused, ?_, rfl⟩
          intro hg
          simpa [hg] using hbusy

/-- A write does nothing, or changes the contents of its own entry and its own descriptor. -/
theorem Ramfs.write_cases (h : fs.write fd buf alloc = some fs') :
    fs' = fs ∨
    ∃ d data size pos, fs.fds fd = some d ∧
      fs' = { fs with
        entry := Function.update fs.entry d.dirent (some data)
        fds := Function.update fs.fds fd (some { d with size := size, pos := pos }) } := by
  rw [Ramfs.write] at h
  cases hd : fs.fds fd with
  | none =>
      simp only [hd, Option.some.injEq] at h
      exact .inl h.symm
  | some d =>
      cases hentry : fs.entry d.dirent with
      | none => simp [hd, hentry] at h
      | some data =>
          simp only [hd, hentry] at h
          split_ifs at h
          · exact .inl (Option.some.inj h).symm
          · exact .inr ⟨d, _, _, _, rfl, (Option.some.inj h).symm⟩
          · exact .inr ⟨d, _, d.size, _, rfl, (Option.some.inj h).symm⟩

/-! ### An open path is protected -/

/-- A path that is open is not unlinked, unless the check has no memory. -/
theorem Ramfs.unlink_of_isOpen (hopen : fs.fdIsOpen path = true) (halloc : alloc ≠ .unchecked) :
    fs.unlink path alloc = fs := by
  rcases fs.unlink_cases path alloc with h | ⟨id, -, hne, hchecked, -⟩
  · exact h
  · cases alloc with
    | granted => exact absurd (hchecked rfl) (by simp [hopen])
    | refused => exact absurd rfl hne
    | unchecked => exact absurd rfl halloc

/-- A path that is open is not opened again, unless the check has no memory. -/
theorem Ramfs.open_of_isOpen {mode : OpenMode}
    (hopen : fs.fdIsOpen path = true) (halloc : alloc ≠ .unchecked) :
    fs.open path mode alloc = (fs, -1) := by
  rcases fs.open_cases path mode alloc with h | ⟨n, -, -, hne, hchecked, -⟩
  · exact h
  · cases alloc with
    | granted => exact absurd (hchecked rfl) (by simp [hopen])
    | refused => exact absurd rfl hne
    | unchecked => exact absurd rfl halloc

/-! ### What the calls do to the descriptor table -/

@[simp] theorem Ramfs.unlink_fds (fs : Ramfs) (path : String) (alloc : DfsAlloc) :
    (fs.unlink path alloc).fds = fs.fds := by
  rcases fs.unlink_cases path alloc with h | ⟨id, -, -, -, h⟩ <;> rw [h]

/-- `open` fails and changes nothing, or takes one free number of the table. -/
theorem Ramfs.open_fds (fs : Ramfs) (path : String) (mode : OpenMode) (alloc : DfsAlloc) :
    fs.open path mode alloc = (fs, -1) ∨
    ∃ n d, fs.fds n = none ∧ n ∈ fdNumbers ∧ (fs.open path mode alloc).2 = n ∧
      (fs.open path mode alloc).1.fds = Function.update fs.fds n (some d) := by
  rcases fs.open_cases path mode alloc with
    h | ⟨n, hfree, hn, -, -, ⟨-, -, h⟩ | ⟨id, -, -, h⟩ | ⟨id, -, -, h⟩⟩
  · exact .inl h
  all_goals exact .inr ⟨n, _, hfree, hn, by rw [h], by rw [h]⟩

/-- A write keeps which numbers of the table are taken, and changes one descriptor only. -/
theorem Ramfs.write_fds (h : fs.write fd buf alloc = some fs') (n : ℤ) :
    (n ≠ fd → fs'.fds n = fs.fds n) ∧ ((fs.fds n).isSome → (fs'.fds n).isSome) := by
  rcases Ramfs.write_cases h with rfl | ⟨d, data, size, pos, hd, rfl⟩
  · exact ⟨fun _ => rfl, id⟩
  · refine ⟨fun hne => Function.update_of_ne hne _ _, ?_⟩
    intro hsome
    by_cases hn : n = fd
    · subst hn
      simp
    · simpa [Function.update_of_ne hn] using hsome

/-- What is open after `close` was open before. -/
theorem Ramfs.fds_of_close (h : (fs.close fd).fds n = some d) : fs.fds n = some d := by
  by_cases hn : n = fd
  · subst hn
    simp [Ramfs.close] at h
  · simpa [Ramfs.close, Function.update_of_ne hn] using h

/-! ### Calls keep the tables well-formed -/

/-- Removing a file keeps it well formed. -/
theorem Ramfs.WF.unlink (h : fs.WF) (path : String) (alloc : DfsAlloc) :
    (fs.unlink path alloc).WF := by
  rcases fs.unlink_cases path alloc with heq | ⟨id, -, -, -, heq⟩
  · rw [heq]
    exact h
  · have hroot : ∀ q i, (fs.unlink path alloc).root q = some i → fs.root q = some i := by
      intro q i hq
      rw [heq] at hq
      by_cases hqp : q = path
      · subst hqp
        simp at hq
      · simpa [Function.update_of_ne hqp] using hq
    have hfresh : (fs.unlink path alloc).fresh = fs.fresh := by rw [heq]
    refine ⟨?_, ?_, ?_, ?_⟩
    · simpa using h.table
    · simpa [hfresh] using h.dirent_lt
    · intro q i hq
      rw [hfresh]
      exact h.root_lt q i (hroot q i hq)
    · intro q q' i hq hq'
      exact h.root_inj q q' i (hroot q i hq) (hroot q' i hq')

/-- A descriptor put into a free number of the table keeps it well-formed, when its entry
has been handed out. -/
theorem Ramfs.WF.addFd (h : fs.WF) (hn : n ∈ fdNumbers)
    (hd : d.dirent < fs.fresh) (entry : ℕ → Option (List UInt8)) :
    ({ fs with entry := entry, fds := Function.update fs.fds n (some d) } : Ramfs).WF := by
  refine ⟨?_, ?_, h.root_lt, h.root_inj⟩
  · intro m d' hm
    by_cases hmn : m = n
    · subst hmn
      exact hn
    · exact h.table m d' (by simpa [Function.update_of_ne hmn] using hm)
  · intro m d' hm
    by_cases hmn : m = n
    · subst hmn
      obtain rfl : d = d' := by simpa using hm
      exact hd
    · exact h.dirent_lt m d' (by simpa [Function.update_of_ne hmn] using hm)

/-- A new entry under a free name keeps the tables well-formed. -/
theorem Ramfs.WF.addEntry (h : fs.WF) (path : String) (entry : ℕ → Option (List UInt8)) :
    ({ fs with
        root := Function.update fs.root path (some fs.fresh)
        entry := entry
        fresh := fs.fresh + 1 } : Ramfs).WF := by
  have hroot : ∀ q i, Function.update fs.root path (some fs.fresh) q = some i →
      (q = path ∧ i = fs.fresh) ∨ (fs.root q = some i ∧ i < fs.fresh) := by
    intro q i hq
    by_cases hqp : q = path
    · subst hqp
      exact .inl ⟨rfl, by simpa using hq.symm⟩
    · rw [Function.update_of_ne hqp] at hq
      exact .inr ⟨hq, h.root_lt q i hq⟩
  refine ⟨h.table, ?_, ?_, ?_⟩
  · intro n d hd
    exact Nat.lt_succ_of_lt (h.dirent_lt n d hd)
  · intro q i hq
    rcases hroot q i hq with ⟨-, rfl⟩ | ⟨-, hlt⟩
    · exact Nat.lt_succ_self _
    · exact Nat.lt_succ_of_lt hlt
  · intro q q' i hq hq'
    rcases hroot q i hq with ⟨rfl, rfl⟩ | ⟨hq, hlt⟩
    · rcases hroot q' _ hq' with ⟨rfl, -⟩ | ⟨-, hlt⟩
      · rfl
      · exact absurd hlt (Nat.lt_irrefl _)
    · rcases hroot q' i hq' with ⟨-, rfl⟩ | ⟨hq', -⟩
      · exact absurd hlt (Nat.lt_irrefl _)
      · exact h.root_inj q q' i hq hq'

/-- Opening keeps the file system well formed. -/
theorem Ramfs.WF.open (h : fs.WF) (path : String) (mode : OpenMode)
    (alloc : DfsAlloc) : (fs.open path mode alloc).1.WF := by
  rcases fs.open_cases path mode alloc with
    heq | ⟨n, -, hn, -, -, ⟨-, -, heq⟩ | ⟨id, hid, -, heq⟩ | ⟨id, hid, -, heq⟩⟩
  · rw [heq]
    exact h
  · rw [heq]
    exact (h.addEntry path fs.entry).addFd hn (Nat.lt_succ_self _) _
  · rw [heq]
    exact h.addFd hn (h.root_lt path id hid) _
  · rw [heq]
    exact h.addFd hn (h.root_lt path id hid) _

/-- Writing keeps it well formed. -/
theorem Ramfs.WF.write (h : fs.WF) (hw : fs.write fd buf alloc = some fs') : fs'.WF := by
  rcases Ramfs.write_cases hw with rfl | ⟨d, data, size, pos, hd, rfl⟩
  · exact h
  · exact h.addFd (d := { d with size := size, pos := pos }) (h.table fd d hd)
      (h.dirent_lt fd d hd) _

/-- Closing keeps it well formed. -/
theorem Ramfs.WF.close (h : fs.WF) (fd : ℤ) : (fs.close fd).WF :=
  ⟨fun n d hd => h.table n d (fds_of_close hd), fun n d hd => h.dirent_lt n d (fds_of_close hd),
    h.root_lt, h.root_inj⟩

/-! ### Sparing an entry -/

/-- Between two states of the file system nothing happened to the entry `id` that stands
under `path`: not to its contents, its name, or the descriptors on it. -/
structure Ramfs.Spares (fs fs' : Ramfs) (path : String) (id : ℕ) : Prop where
  entry : fs'.entry id = fs.entry id
  root : fs'.root path = fs.root path
  only : ∀ q, fs'.root q = some id → fs.root q = some id
  opens : ∀ n d, fs'.fds n = some d → d.dirent = id → fs.fds n = some d
  keeps : ∀ n d, fs.fds n = some d → d.dirent = id → fs'.fds n = some d
  paths : ∀ n d, fs'.fds n = some d → d.path = path → ∃ d', fs.fds n = some d' ∧ d'.path = path

theorem Ramfs.Spares.refl (fs : Ramfs) (path : String) (id : ℕ) : fs.Spares fs path id :=
  ⟨rfl, rfl, fun _ h => h, fun _ _ h _ => h, fun _ _ h _ => h, fun _ d h hd => ⟨d, h, hd⟩⟩

/-- Putting a descriptor on another entry and with another path into a number of the table
that is free, or held by such a descriptor, spares the entry. -/
theorem Ramfs.spares_addFd (hfree : ∀ d, fs.fds n = some d → d.dirent ≠ id) (hd : d.dirent ≠ id)
    (hpath : d.path = path → ∃ d', fs.fds n = some d' ∧ d'.path = path)
    {entry : ℕ → Option (List UInt8)} (hentry : entry id = fs.entry id) :
    fs.Spares { fs with entry := entry, fds := Function.update fs.fds n (some d) } path id := by
  refine ⟨hentry, rfl, fun _ h => h, ?_, ?_, ?_⟩
  · intro m d' hm hid
    by_cases hmn : m = n
    · subst hmn
      obtain rfl : d = d' := by simpa using hm
      exact absurd hid hd
    · simpa [Function.update_of_ne hmn] using hm
  · intro m d' hm hid
    by_cases hmn : m = n
    · subst hmn
      exact absurd hid (hfree d' hm)
    · simpa [Function.update_of_ne hmn] using hm
  · intro m d' hm hp
    by_cases hmn : m = n
    · subst hmn
      obtain rfl : d = d' := by simpa using hm
      exact hpath hp
    · exact ⟨d', by simpa [Function.update_of_ne hmn] using hm, hp⟩

/-- Unlinking another path spares the entry. -/
theorem Ramfs.spares_unlink {q : String} (hq : q ≠ path)
    (honly : ∀ q', fs.root q' = some id → q' = path) (alloc : DfsAlloc) :
    fs.Spares (fs.unlink q alloc) path id := by
  rcases fs.unlink_cases q alloc with heq | ⟨i, hi, -, -, heq⟩
  · rw [heq]
    exact .refl fs path id
  · have hne : id ≠ i := by
      rintro rfl
      exact hq (honly q hi)
    rw [heq]
    refine ⟨Function.update_of_ne hne _ _, Function.update_of_ne hq.symm _ _, ?_,
      fun _ _ h _ => h, fun _ _ h _ => h, fun _ d h hd => ⟨d, h, hd⟩⟩
    intro q' hq'
    by_cases hqq : q' = q
    · subst hqq
      simp at hq'
    · simpa [Function.update_of_ne hqq] using hq'

/-- Opening another path spares the entry. -/
theorem Ramfs.spares_open {q : String} (hq : q ≠ path)
    (hid : id < fs.fresh) (honly : ∀ q', fs.root q' = some id → q' = path) (mode : OpenMode)
    (alloc : DfsAlloc) : fs.Spares (fs.open q mode alloc).1 path id := by
  rcases fs.open_cases q mode alloc with
    heq | ⟨n, hfree, hn, -, -, ⟨-, -, heq⟩ | ⟨i, hi, -, heq⟩ | ⟨i, hi, -, heq⟩⟩
  · rw [heq]
    exact .refl fs path id
  · have hne : id ≠ fs.fresh := Nat.ne_of_lt hid
    have hfd : fs.Spares { fs with
        entry := Function.update fs.entry fs.fresh (some [])
        fds := Function.update fs.fds n (some ⟨q, fs.fresh, 0, 0⟩) } path id :=
      Ramfs.spares_addFd (by simp [hfree]) hne.symm (fun h => absurd h hq)
        (Function.update_of_ne hne (some []) fs.entry)
    rw [heq]
    refine ⟨hfd.entry, Function.update_of_ne hq.symm _ _, ?_, hfd.opens, hfd.keeps, hfd.paths⟩
    intro q' hq'
    by_cases hqq : q' = q
    · subst hqq
      exact absurd (by simpa using hq') hne.symm
    · simpa [Function.update_of_ne hqq] using hq'
  all_goals
    have hne : i ≠ id := by
      rintro rfl
      exact hq (honly q hi)
    rw [heq]
    refine Ramfs.spares_addFd (by simp [hfree]) hne (fun h => absurd h hq) ?_
  · rfl
  · exact Function.update_of_ne hne.symm _ _

/-- Writing through a descriptor on another entry spares the entry. -/
theorem Ramfs.spares_write (hother : ∀ d, fs.fds fd = some d → d.dirent ≠ id)
    (hw : fs.write fd buf alloc = some fs') : fs.Spares fs' path id := by
  rcases Ramfs.write_cases hw with rfl | ⟨d, data, size, pos, hd, rfl⟩
  · exact .refl _ path id
  · have hne := hother d hd
    exact Ramfs.spares_addFd (d := { d with size := size, pos := pos }) hother hne
      (fun h => ⟨d, hd, h⟩) (Function.update_of_ne hne.symm _ _)

/-- Closing a descriptor on another entry spares the entry. -/
theorem Ramfs.spares_close
    (hother : ∀ d, fs.fds fd = some d → d.dirent ≠ id) : fs.Spares (fs.close fd) path id := by
  refine ⟨rfl, rfl, fun _ h => h, fun n d hd _ => Ramfs.fds_of_close hd, ?_,
    fun n d hd hp => ⟨d, Ramfs.fds_of_close hd, hp⟩⟩
  intro n d hd hid
  have hn : n ≠ fd := by
    rintro rfl
    exact hother d hd hid
  simpa [Ramfs.close, Function.update_of_ne hn] using hd

/-! ### Reading -/

/-- A read through a descriptor whose entry holds `data` gets the next bytes of `data`. -/
theorem Ramfs.read_eq {data : List UInt8} (hd : fs.fds fd = some d) (hsize : d.size = data.length)
    (hentry : d.pos < d.size → fs.entry d.dirent = some data) (count : ℕ) :
    fs.read fd count = (some ((data.drop d.pos).take count), { fs with
      fds := Function.update fs.fds fd
        (some { d with pos := d.pos + ((data.drop d.pos).take count).length }) }) := by
  have hlen : (if count < d.size - d.pos then count else d.size - d.pos) =
      ((data.drop d.pos).take count).length := by
    rw [List.length_take, List.length_drop, ← hsize]
    split <;> omega
  simp only [Ramfs.read, hd, hlen]
  split
  · rename_i hpos
    rw [List.length_take, List.length_drop, ← hsize] at hpos
    rw [hentry (by omega)]
    have hle : d.pos + ((data.drop d.pos).take count).length ≤ data.length := by
      rw [List.length_take, List.length_drop]
      omega
    have htake : (data.drop d.pos).take ((data.drop d.pos).take count).length =
        (data.drop d.pos).take count := by
      rw [List.take_eq_take_iff, List.length_take]
      omega
    simp only [hle, if_true, htake]
  · rename_i hpos
    have hnil : (data.drop d.pos).take count = [] := List.length_eq_zero_iff.mp (by omega)
    rw [hnil]

end RtBoot
