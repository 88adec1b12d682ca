import RtBoot.UploadHeap

/-!
# What the Upload Functions Do to the Heap

For each function of the receiver there is a condition on its arguments under which it runs
without misuse and leaves the session holding exactly the blocks it leads to (`Owns`). Where
the condition fails, the function ends in a misuse or loses a block (`Faults`, `Spoils`).

## Main results

* `owns_close`: the teardown frees everything the session holds.
* `owns_parseHeader`, `faults_parseHeader`: a part header keeps the heap unless it cannot be
  read or the name table cannot grow.
* `owns_startSection`, `spoils_startSection`: when a file is opened the block of its path is
  lost, and when it cannot be opened the session is used after it was freed.
* `owns_handleSection`, `spoils_handleSection`: storing a value loses the one before it.
-/

namespace RtBoot

open HeapM

/-! ### Strings and searches keep the heap -/

section Search

variable {P : Multiset ℕ} {s : HeapUpload} {str : HeapString}

theorem owns_strdup (text : CString) (granted : Bool) :
    Owns P (strdup text granted) fun str L => L = ptrBlocks (strPtr str) + P := by
  refine (owns_malloc granted).bind ?_
  rintro p _ rfl
  cases p with
  | none => exact Owns.pure rfl
  | some b =>
      refine (owns_access (by simp)).bind ?_
      rintro _ _ rfl
      exact Owns.pure rfl

theorem owns_strdupSome (granted : Bool) (text : Option CString) :
    Owns P (strdupSome granted text) fun str L => L = ptrBlocks (strPtr str) + P := by
  cases text with
  | none => exact Owns.pure (zero_add P).symm
  | some text => exact owns_strdup text granted

theorem HeapUpload.block_mem (s : HeapUpload) : s.block ∈ s.blocks := by
  simp [HeapUpload.blocks]

theorem HeapUpload.boundary_mem (hstr : s.boundary = some str) : str.block ∈ s.blocks := by
  simp [HeapUpload.blocks, hstr, strPtr]

theorem owns_readBoundary (hstr : s.boundary = some str) :
    Owns s.blocks s.readBoundary fun boundary L => boundary = str.text ∧ L = s.blocks := by
  refine (owns_access s.block_mem).bind ?_
  rintro _ _ rfl
  rw [hstr]
  refine (owns_access (HeapUpload.boundary_mem hstr)).bind ?_
  rintro _ _ rfl
  exact Owns.pure ⟨rfl, rfl⟩

theorem faults_readBoundary (hstr : s.boundary = none) : Faults s.blocks s.readBoundary := by
  refine (owns_access s.block_mem).faults_bind ?_
  rintro _ _ rfl
  rw [hstr]
  exact faults_throw _

theorem owns_memstrs (hstr : s.boundary = some str) :
    Owns s.blocks (s.memstrs true) fun _ L => L = s.blocks := by
  refine (owns_readBoundary hstr).bind ?_
  rintro _ _ ⟨rfl, rfl⟩
  refine owns_malloc_true.bind ?_
  rintro _ _ ⟨b, rfl, rfl⟩
  refine (owns_access (by simp)).bind ?_
  rintro _ _ rfl
  exact owns_free (some b) _ rfl

/-- The block for the search is not checked. -/
theorem faults_memstrs (hstr : s.boundary = some str) : Faults s.blocks (s.memstrs false) := by
  refine (owns_readBoundary hstr).faults_bind ?_
  rintro _ _ ⟨rfl, rfl⟩
  refine owns_malloc_false.faults_bind ?_
  rintro _ _ ⟨rfl, rfl⟩
  exact faults_access_none.bind

end Search

/-! ### The header parser -/

variable {str : HeapString} {w : List UInt8} {e : HeapNameEntry}

section Header

variable {P : Multiset ℕ} {a : HeaderAnswers} {table : Option NameTable}

theorem HeapUpload.blocks_filename (s : HeapUpload) :
    s.blocks = ptrBlocks (strPtr s.filename) + { s with filename := none }.blocks := by
  simp only [HeapUpload.blocks, strPtr, Option.map_none, ptrBlocks_none]
  abel

theorem HeapUpload.blocks_contentType (s : HeapUpload) :
    s.blocks = ptrBlocks (strPtr s.contentType) + { s with contentType := none }.blocks := by
  simp only [HeapUpload.blocks, strPtr, Option.map_none, ptrBlocks_none]
  abel

theorem HeapUpload.blocks_nameEntries (s : HeapUpload) :
    s.blocks = tableBlocks s.nameEntries + { s with nameEntries := none }.blocks := by
  simp only [HeapUpload.blocks, tableBlocks]
  abel

theorem entriesBlocks_concat (es : List HeapNameEntry) (e : HeapNameEntry) :
    entriesBlocks (es ++ [e]) = entriesBlocks es + e.blocks := by
  simp [entriesBlocks]

theorem owns_endSection (s : HeapUpload) :
    Owns s.blocks s.endSection fun t L => L = t.blocks ∧ t.nameEntries = s.nameEntries := by
  rw [HeapUpload.endSection]
  split_ifs
  · refine (owns_free _ _ s.blocks_filename).bind ?_
    rintro _ _ rfl
    refine (owns_free _ _ (HeapUpload.blocks_contentType _)).bind ?_
    rintro _ _ rfl
    exact Owns.pure ⟨rfl, rfl⟩
  · exact Owns.pure ⟨rfl, rfl⟩

/-- The name table can take one more entry: the allocator grants it, and the count does not
return to zero. -/
def CanGrow (a : HeaderAnswers) (table : Option NameTable) : Prop :=
  a.nameEntries ≠ .refused ∧ (table.isSome = true → (tableEntries table).length % 65536 ≠ 65535)
  deriving Decidable

theorem owns_growTable (h : CanGrow a table) :
    Owns (tableBlocks table + P) (growTable a.nameEntries table)
      fun p L => ∃ b, p = some b ∧ L = {b} + entriesBlocks (tableEntries table) + P := by
  obtain ⟨hgranted, hcount⟩ := h
  cases table with
  | none =>
      rw [growTable, bne_iff_ne.mpr hgranted]
      refine owns_malloc_true.mono ?_
      rintro _ _ ⟨b, rfl, rfl⟩
      exact ⟨b, rfl, by simp [tableBlocks, tableEntries, entriesBlocks]⟩
  | some t =>
      have hcount : t.entries.length % 65536 ≠ 65535 := hcount rfl
      rw [growTable, if_neg (by omega), tableBlocks, add_assoc]
      refine (owns_realloc hgranted).mono ?_
      rintro _ _ ⟨b, rfl, rfl⟩
      exact ⟨b, rfl, (add_assoc _ _ _).symm⟩

/-- Otherwise the pointer to the table is null. -/
theorem owns_growTable_null (h : ¬ CanGrow a table) :
    Owns (tableBlocks table + P) (growTable a.nameEntries table) fun p _ => p = none := by
  cases table with
  | none =>
      have hrefused : a.nameEntries = .refused := by simpa [CanGrow] using h
      rw [growTable, hrefused]
      exact owns_malloc_false.mono fun _ _ hp => hp.1
  | some t =>
      rw [growTable]
      split_ifs with hcount
      · refine (owns_free (some t.block) (entriesBlocks t.entries + P) (add_assoc _ _ _)).bind ?_
        rintro _ _ rfl
        exact Owns.pure rfl
      · have hrefused : a.nameEntries = .refused := by
          by_contra hgranted
          refine h ⟨hgranted, fun _ => ?_⟩
          change t.entries.length % 65536 ≠ 65535
          omega
        rw [hrefused]
        exact owns_realloc_refused.mono fun _ _ hp => hp.1

/-- **A name is added** to a table that can take it. -/
theorem owns_addName (h : CanGrow a table) (name : CString) :
    Owns (tableBlocks table + P) (addName a table name)
      fun table' L => L = tableBlocks table' + P := by
  refine (owns_growTable h).bind ?_
  rintro _ _ ⟨b, rfl, rfl⟩
  refine (owns_strdup nameKey a.name).bind ?_
  rintro nameStr _ rfl
  refine (owns_deref (by simp)).bind ?_
  rintro _ _ ⟨rfl, rfl⟩
  refine (owns_strdup name a.value).bind ?_
  rintro valueStr _ rfl
  refine (owns_access (by simp)).bind ?_
  rintro _ _ rfl
  refine Owns.pure ?_
  simp only [tableBlocks, entriesBlocks_concat, HeapNameEntry.blocks]
  abel

/-- The pointer to the table is not checked. -/
theorem faults_addName (h : ¬ CanGrow a table) (name : CString) :
    Faults (tableBlocks table + P) (addName a table name) := by
  refine (owns_growTable_null h).faults_bind ?_
  rintro _ _ rfl
  refine (owns_strdup nameKey a.name).faults_bind ?_
  rintro _ _ rfl
  exact faults_deref_none.bind

theorem owns_takeStrings (s : HeapUpload) (h : PartHeader) :
    Owns s.blocks (s.takeStrings h a)
      fun t L => L = t.blocks ∧ t.nameEntries = s.nameEntries := by
  refine (owns_free _ _ s.blocks_filename).bind ?_
  rintro _ _ rfl
  refine (owns_free _ _ (HeapUpload.blocks_contentType _)).bind ?_
  rintro _ _ rfl
  refine (owns_strdupSome a.filename h.filename).bind ?_
  rintro filename _ rfl
  refine (owns_strdupSome a.contentType h.contentType).bind ?_
  rintro contentType _ rfl
  refine Owns.pure ⟨?_, rfl⟩
  rw [HeapUpload.blocks_contentType { s with filename, contentType },
    HeapUpload.blocks_filename { s with filename, contentType := none }]

/-- **A part header keeps the heap**, if the name it adds has room. -/
theorem owns_startPart (s : HeapUpload) {h : PartHeader}
    (hname : h.name.isSome = true → CanGrow a s.nameEntries) :
    Owns s.blocks (s.startPart h a) fun t L => L = t.blocks := by
  refine (owns_takeStrings s h).bind ?_
  rintro t _ ⟨rfl, ht⟩
  rw [← ht] at hname
  cases hn : h.name with
  | none => exact Owns.pure rfl
  | some name =>
      rw [t.blocks_nameEntries]
      refine (owns_addName (hname (by rw [hn]; rfl)) name).bind ?_
      rintro table _ rfl
      exact Owns.pure (HeapUpload.blocks_nameEntries { t with nameEntries := table }).symm

theorem faults_startPart (s : HeapUpload) {h : PartHeader} (hname : h.name.isSome = true)
    (hgrow : ¬ CanGrow a s.nameEntries) : Faults s.blocks (s.startPart h a) := by
  obtain ⟨name, hname⟩ := Option.isSome_iff_exists.mp hname
  refine (owns_takeStrings s h).faults_bind ?_
  rintro t _ ⟨rfl, ht⟩
  rw [hname, t.blocks_nameEntries]
  exact (faults_addName (ht ▸ hgrow) name).bind

/-- What the parser needs of the lines of a header: they can be read, and there is room for
the name. -/
def LinesBalanced (s : HeapUpload) (a : HeaderAnswers) : Except Fault Header → Prop
  | .error _ => False
  | .ok .ranOut => True
  | .ok (.ended h _) => h.name.isSome = true → CanGrow a s.nameEntries

instance (s : HeapUpload) (a : HeaderAnswers) : ∀ lines, Decidable (LinesBalanced s a lines)
  | .error _ => .isFalse id
  | .ok .ranOut => .isTrue trivial
  | .ok (.ended _ _) => inferInstanceAs (Decidable (_ → _))

/-- The condition on the header behind a boundary line. -/
def HeaderBalanced (s : HeapUpload) (a : HeaderAnswers) (rest : List UInt8) : Prop :=
  LinesBalanced s a (headerLines rest.length .empty rest)
  deriving Decidable

/-- **The header parser keeps the heap** on a window that begins with a part. -/
theorem owns_parseHeader {s : HeapUpload} (hstr : s.boundary = some str)
    (hheader : ∀ rest ∈ skipBoundary str.text w, HeaderBalanced s a rest) :
    Owns s.blocks (s.parseHeader w a) fun r L => L = r.1.blocks := by
  refine (owns_readBoundary hstr).bind ?_
  rintro _ _ ⟨rfl, rfl⟩
  split_ifs
  · exact Owns.pure rfl
  · cases hskip : skipBoundary str.text w with
    | none => exact Owns.pure rfl
    | some rest =>
        have hrest := hheader rest hskip
        rw [HeaderBalanced] at hrest
        refine (owns_endSection s).bind ?_
        rintro t _ ⟨rfl, ht⟩
        cases hlines : headerLines rest.length .empty rest with
        | error fault =>
            rw [hlines] at hrest
            exact hrest.elim
        | ok header =>
            cases header with
            | ranOut => exact Owns.pure rfl
            | ended h after =>
                rw [hlines, LinesBalanced, ← ht] at hrest
                refine (owns_startPart t hrest).bind ?_
                rintro u _ rfl
                exact Owns.pure rfl

theorem faults_parseHeader {s : HeapUpload} (hstr : s.boundary = some str)
    {rest : List UInt8} (hlast : strBeginWithStrs w (lastBoundary str.text) = false)
    (hskip : skipBoundary str.text w = some rest) (hheader : ¬ HeaderBalanced s a rest) :
    Faults s.blocks (s.parseHeader w a) := by
  refine (owns_readBoundary hstr).faults_bind ?_
  rintro _ _ ⟨rfl, rfl⟩
  rw [hlast, hskip]
  refine (owns_endSection s).faults_bind ?_
  rintro t _ ⟨rfl, ht⟩
  rw [HeaderBalanced] at hheader
  cases hlines : headerLines rest.length .empty rest with
  | error fault => exact faults_throw _
  | ok header =>
      rw [hlines] at hheader
      cases header with
      | ranOut => exact absurd trivial hheader
      | ended h after =>
          obtain ⟨hname, hgrow⟩ := Classical.not_imp.mp hheader
          exact (faults_startPart t hname (ht ▸ hgrow)).bind

end Header

/-! ### The teardown -/

section Teardown

variable {P : Multiset ℕ} {s : HeapUpload}

theorem owns_freeEntries {table : ℕ} (htable : table ∈ P) (entries : List HeapNameEntry) :
    Owns (entriesBlocks entries + P) (freeEntries table entries) fun _ L => L = P := by
  induction entries with
  | nil => exact Owns.pure (zero_add P)
  | cons e es ih =>
      have hblocks : entriesBlocks (e :: es) + P = ptrBlocks (strPtr e.value) +
          (ptrBlocks (strPtr e.name) + (entriesBlocks es + P)) := by
        rw [entriesBlocks, List.map_cons, List.sum_cons, HeapNameEntry.blocks, entriesBlocks]
        abel
      refine (owns_access (Multiset.mem_add.mpr (.inr htable))).bind ?_
      rintro _ _ rfl
      refine (owns_free _ _ hblocks).bind ?_
      rintro _ _ rfl
      refine (owns_free _ _ rfl).bind ?_
      rintro _ _ rfl
      exact ih

theorem owns_freeTable (table : Option NameTable) :
    Owns (tableBlocks table + P) (freeTable table) fun _ L => L = P := by
  cases table with
  | none => exact Owns.pure (zero_add P)
  | some t =>
      have hblocks : tableBlocks (some t) + P = entriesBlocks t.entries + ({t.block} + P) := by
        rw [tableBlocks]
        abel
      rw [hblocks]
      refine (owns_freeEntries (by simp) t.entries).bind ?_
      rintro _ _ rfl
      exact owns_free (some t.block) _ rfl

theorem owns_freeBoundary (hstr : s.boundary = some str) :
    Owns (ptrBlocks (strPtr s.boundary) + P) s.freeBoundary fun _ L => L = P := by
  rw [HeapUpload.freeBoundary, hstr]
  exact owns_free (some str.block) _ rfl

/-- **The teardown** frees the blocks of the session, and only those. -/
theorem owns_close (hstr : s.boundary = some str) :
    Owns (s.blocks + P) s.close fun _ L => L = P := by
  have hblocks : s.blocks + P = ptrBlocks (strPtr s.filename) +
      (ptrBlocks (strPtr s.contentType) + (ptrBlocks (strPtr s.boundary) +
        (tableBlocks s.nameEntries + (ptrBlocks (some s.block) + P)))) := by
    rw [HeapUpload.blocks, ptrBlocks_some]
    abel
  refine (owns_access (Multiset.mem_add.mpr (.inl s.block_mem))).bind ?_
  rintro _ _ rfl
  refine (owns_free _ _ hblocks).bind ?_
  rintro _ _ rfl
  refine (owns_free _ _ rfl).bind ?_
  rintro _ _ rfl
  refine (owns_freeBoundary hstr).bind ?_
  rintro _ _ rfl
  refine (owns_freeTable s.nameEntries).bind ?_
  rintro _ _ rfl
  exact owns_free _ _ rfl

/-- A boundary pointer that was never set is freed all the same. -/
theorem faults_close (hstr : s.boundary = none) : Faults (s.blocks + P) s.close := by
  have hblocks : s.blocks + P = ptrBlocks (strPtr s.filename) +
      (ptrBlocks (strPtr s.contentType) + ({s.block} + tableBlocks s.nameEntries + P)) := by
    rw [HeapUpload.blocks, hstr, strPtr, Option.map_none, ptrBlocks_none]
    abel
  refine (owns_access (Multiset.mem_add.mpr (.inl s.block_mem))).faults_bind ?_
  rintro _ _ rfl
  refine (owns_free _ _ hblocks).faults_bind ?_
  rintro _ _ rfl
  refine (owns_free _ _ rfl).faults_bind ?_
  rintro _ _ rfl
  refine Faults.bind ?_
  rw [HeapUpload.freeBoundary, hstr]
  exact faults_throw _

end Teardown

/-! ### The callbacks -/

section Callbacks

variable {P : Multiset ℕ} {s : HeapUpload} {entries : List HeapNameEntry}

/-- The entry at which the search for a name stops: the first one that has the name, or whose
name is the null pointer. -/
def stopsAt (name : CString) (entries : List HeapNameEntry) : Option HeapNameEntry :=
  entries.find? fun e =>
    match e.name with
    | none => true
    | some str => str.text.bytes.map toLower == name.bytes.map toLower

theorem mem_entriesBlocks {b : ℕ}
    (he : e ∈ entries) (hb : b ∈ e.blocks) : b ∈ entriesBlocks entries := by
  induction entries with
  | nil => cases he
  | cons f es ih =>
      rw [entriesBlocks, List.map_cons, List.sum_cons, Multiset.mem_add]
      obtain rfl | he := List.mem_cons.mp he
      · exact .inl hb
      · exact .inr (ih he)

theorem owns_getNameentry {table : ℕ} {name : CString}
    (htable : table ∈ P) (hentries : ∀ e ∈ entries, ∀ b ∈ e.blocks, b ∈ P)
    (hstop : ∀ e ∈ stopsAt name entries, e.name.isSome = true) :
    Owns P (getNameentry table name entries)
      fun str L => str = (stopsAt name entries).bind HeapNameEntry.value ∧ L = P := by
  induction entries with
  | nil => exact Owns.pure ⟨rfl, rfl⟩
  | cons e es ih =>
      refine (owns_access htable).bind ?_
      rintro _ _ rfl
      rw [stopsAt, List.find?_cons] at hstop ⊢
      cases hname : e.name with
      | none =>
          rw [hname] at hstop
          exact absurd (hstop e rfl) (by simp [hname])
      | some str =>
          have hstr : str.block ∈ e.blocks := by simp [HeapNameEntry.blocks, hname, strPtr]
          rw [hname] at hstop
          dsimp only at hstop ⊢
          refine (owns_access (hentries e List.mem_cons_self _ hstr)).bind ?_
          rintro _ _ rfl
          cases hmatch : str.text.bytes.map toLower == name.bytes.map toLower with
          | true => exact Owns.pure ⟨rfl, rfl⟩
          | false =>
              rw [hmatch] at hstop
              exact ih (fun f hf => hentries f (List.mem_cons_of_mem e hf)) hstop

/-- The search follows the null pointer it stops at. -/
theorem faults_getNameentry {table : ℕ} {name : CString} (htable : table ∈ P)
    (hentries : ∀ e ∈ entries, ∀ b ∈ e.blocks, b ∈ P)
    (hstop : stopsAt name entries = some e) (hnull : e.name = none) :
    Faults P (getNameentry table name entries) := by
  induction entries with
  | nil => cases hstop
  | cons f es ih =>
      refine (owns_access htable).faults_bind ?_
      rintro _ _ rfl
      rw [stopsAt, List.find?_cons] at hstop
      cases hname : f.name with
      | none => exact faults_throw _
      | some str =>
          have hstr : str.block ∈ f.blocks := by simp [HeapNameEntry.blocks, hname, strPtr]
          rw [hname] at hstop
          dsimp only at hstop ⊢
          refine (owns_access (hentries f List.mem_cons_self _ hstr)).faults_bind ?_
          rintro _ _ rfl
          cases hmatch : str.text.bytes.map toLower == name.bytes.map toLower with
          | true =>
              rw [hmatch] at hstop
              obtain rfl := Option.some.inj hstop
              exact absurd hname (by simp [hnull])
          | false =>
              rw [hmatch] at hstop
              exact ih (fun f hf => hentries f (List.mem_cons_of_mem _ hf)) hstop

/-- The entry `get_file_name` stops at. -/
def HeapUpload.nameEntry (s : HeapUpload) : Option HeapNameEntry :=
  stopsAt nameKey (tableEntries s.nameEntries)

/-- The session's name entry is one of the four fields. -/
def HeapUpload.fieldKnown (s : HeapUpload) : Bool :=
  match s.nameEntry.bind HeapNameEntry.value with
  | none => false
  | some str => (RtBoot.getFileName 0 (some str.text.bytes)).2.isSome

theorem HeapUpload.mem_blocks_of_entry {t : NameTable} (ht : s.nameEntries = some t)
    (he : e ∈ t.entries) {b : ℕ} (hb : b ∈ e.blocks) : b ∈ s.blocks := by
  have := mem_entriesBlocks he hb
  simp [HeapUpload.blocks, ht, tableBlocks, this]

theorem HeapUpload.table_mem {t : NameTable} (ht : s.nameEntries = some t) :
    t.block ∈ s.blocks := by
  simp [HeapUpload.blocks, ht, tableBlocks]

theorem owns_getFileName (hname : ∀ e ∈ s.nameEntry, e.name.isSome = true) :
    Owns s.blocks s.getFileName fun known L => known = s.fieldKnown ∧ L = s.blocks := by
  refine (owns_access s.block_mem).bind ?_
  rintro _ _ rfl
  rw [HeapUpload.fieldKnown]
  rw [HeapUpload.nameEntry] at hname ⊢
  cases ht : s.nameEntries with
  | none => exact Owns.pure ⟨rfl, rfl⟩
  | some t =>
      rw [ht] at hname
      refine (owns_getNameentry (HeapUpload.table_mem ht)
        (fun e he b hb => HeapUpload.mem_blocks_of_entry ht he hb) hname).bind ?_
      rintro _ _ ⟨rfl, rfl⟩
      dsimp only [tableEntries]
      cases hstop : stopsAt nameKey t.entries with
      | none => exact Owns.pure ⟨rfl, rfl⟩
      | some e =>
          rw [Option.bind_some]
          cases hvalue : e.value with
          | none => exact Owns.pure ⟨rfl, rfl⟩
          | some str =>
              have hstr : str.block ∈ e.blocks := by
                simp [HeapNameEntry.blocks, hvalue, strPtr]
              have he : e ∈ t.entries := List.mem_of_find?_eq_some hstop
              refine (owns_access (HeapUpload.mem_blocks_of_entry ht he hstr)).bind ?_
              rintro _ _ rfl
              exact Owns.pure ⟨rfl, rfl⟩

theorem faults_getFileName (he : s.nameEntry = some e)
    (hnull : e.name = none) : Faults s.blocks s.getFileName := by
  refine (owns_access s.block_mem).faults_bind ?_
  rintro _ _ rfl
  rw [HeapUpload.nameEntry] at he
  cases ht : s.nameEntries with
  | none =>
      rw [ht] at he
      cases he
  | some t =>
      rw [ht] at he
      exact (faults_getNameentry (HeapUpload.table_mem ht)
        (fun e he b hb => HeapUpload.mem_blocks_of_entry ht he hb) he hnull).bind

/-- The condition on the step behind a part header: when a file is about to be opened, the
search for its name entry meets no null pointer, and the path of a known field is refused. -/
def StartBalanced (s : HeapUpload) (answer : OpenAnswer) : Prop :=
  s.inFile = true → s.fileOpened = false →
    (∀ e ∈ s.nameEntry, e.name.isSome = true) ∧
      (s.fieldKnown = true → answer.pathAlloc = false)
  deriving Decidable

variable {answer : OpenAnswer}

theorem owns_uploadOpen (hname : ∀ e ∈ s.nameEntry, e.name.isSome = true)
    (hpath : s.fieldKnown = true → answer.pathAlloc = false) :
    Owns s.blocks (s.uploadOpen answer) fun _ L => L = s.blocks := by
  refine (owns_getFileName hname).bind ?_
  rintro _ _ ⟨rfl, rfl⟩
  split_ifs with hknown
  · rw [HeapUpload.openPath, hpath (Bool.and_eq_true_iff.mp hknown).1]
    refine owns_malloc_false.bind ?_
    rintro _ _ ⟨rfl, rfl⟩
    exact Owns.pure rfl
  · exact Owns.pure rfl

theorem owns_startSection (h : StartBalanced s answer) :
    Owns s.blocks (s.startSection answer) fun t L => L = t.blocks := by
  refine (owns_access s.block_mem).bind ?_
  rintro _ _ rfl
  split_ifs with hin hopen hopen
  · exact Owns.pure rfl
  · obtain ⟨hname, hpath⟩ := h hin (Bool.eq_false_iff.mpr hopen)
    refine (owns_uploadOpen hname hpath).bind ?_
    rintro fd _ rfl
    refine (owns_access s.block_mem).bind ?_
    rintro _ _ rfl
    exact Owns.pure rfl
  · exact Owns.pure rfl
  · exact Owns.pure rfl

section Path

variable {answer : OpenAnswer} (hpath : answer.pathAlloc = true)
include hpath

/-- The file is opened: the path is not freed. -/
theorem owns_openPath_opened (hfd : ¬ answer.fd < 0) :
    Owns s.blocks (s.openPath answer) fun _ L => ∃ b, L = {b} + s.blocks := by
  rw [HeapUpload.openPath, hpath]
  refine owns_malloc_true.bind ?_
  rintro _ _ ⟨path, rfl, rfl⟩
  refine (owns_access (by simp)).bind ?_
  rintro _ _ rfl
  rw [if_neg hfd]
  exact Owns.pure ⟨path, rfl⟩

/-- The file cannot be opened: nothing is left of the session. -/
theorem owns_openPath_failed (hstr : s.boundary = some str)
    (hfd : answer.fd < 0) : Owns s.blocks (s.openPath answer) fun _ L => L = 0 := by
  rw [HeapUpload.openPath, hpath]
  refine owns_malloc_true.bind ?_
  rintro _ _ ⟨path, rfl, rfl⟩
  refine (owns_access (by simp)).bind ?_
  rintro _ _ rfl
  rw [if_pos hfd, add_comm]
  refine (owns_close hstr).bind ?_
  rintro _ _ rfl
  refine (owns_free (some path) 0 (add_zero _).symm).bind ?_
  rintro _ _ rfl
  exact Owns.pure rfl

theorem faults_openPath (hstr : s.boundary = none) (hfd : answer.fd < 0) :
    Faults s.blocks (s.openPath answer) := by
  rw [HeapUpload.openPath, hpath]
  refine owns_malloc_true.faults_bind ?_
  rintro _ _ ⟨path, rfl, rfl⟩
  refine (owns_access (by simp)).faults_bind ?_
  rintro _ _ rfl
  rw [if_pos hfd, add_comm]
  exact (faults_close hstr).bind

end Path

/-- `upload_open` for a known field is what it does with the path. -/
theorem owns_uploadOpen_known {Q : ℤ → Multiset ℕ → Prop}
    (hname : ∀ e ∈ s.nameEntry, e.name.isSome = true) (hknown : s.fieldKnown = true)
    (hfile : s.filename.isSome = true) (hx : Owns s.blocks (s.openPath answer) Q) :
    Owns s.blocks (s.uploadOpen answer) Q := by
  refine (owns_getFileName hname).bind ?_
  rintro _ _ ⟨rfl, rfl⟩
  rw [hknown, hfile]
  exact hx

theorem faults_uploadOpen_known
    (hname : ∀ e ∈ s.nameEntry, e.name.isSome = true) (hknown : s.fieldKnown = true)
    (hfile : s.filename.isSome = true) (hx : Faults s.blocks (s.openPath answer)) :
    Faults s.blocks (s.uploadOpen answer) := by
  refine (owns_getFileName hname).faults_bind ?_
  rintro _ _ ⟨rfl, rfl⟩
  rw [hknown, hfile]
  exact hx

/-- **A path that is allocated spoils the heap**: it is lost when the file is opened, and when
it cannot be opened, the session is used after it was freed. -/
theorem spoils_startSection (h : ¬ StartBalanced s answer) :
    Spoils s.blocks (s.startSection answer) HeapUpload.blocks := by
  obtain ⟨hin, h⟩ := Classical.not_imp.mp h
  obtain ⟨hopen, h⟩ := Classical.not_imp.mp h
  refine (owns_access s.block_mem).spoils_bind ?_
  rintro _ _ rfl
  rw [if_pos hin, hopen]
  by_cases hname : ∀ e ∈ s.nameEntry, e.name.isSome = true
  · obtain ⟨hknown, hpath⟩ := Classical.not_imp.mp fun hpath => h ⟨hname, hpath⟩
    have hpath := Bool.eq_true_of_not_eq_false hpath
    have hfile : s.filename.isSome = true := (Bool.and_eq_true_iff.mp hin).1
    by_cases hfd : answer.fd < 0
    · cases hstr : s.boundary with
      | none =>
          have hx := faults_openPath hpath hstr hfd
          exact (faults_uploadOpen_known hname hknown hfile hx).bind.spoils
      | some str =>
          have hx := owns_uploadOpen_known hname hknown hfile (owns_openPath_failed hpath hstr hfd)
          refine (hx.faults_access s.block_mem ?_).spoils
          rintro _ _ rfl
          exact Multiset.notMem_zero _
    · have hx := owns_uploadOpen_known hname hknown hfile (owns_openPath_opened hpath hfd)
      refine Owns.spoils (hx.bind ?_)
      rintro fd _ ⟨path, rfl⟩
      refine (owns_access (Multiset.mem_add.mpr (.inr s.block_mem))).bind ?_
      rintro _ _ rfl
      exact Owns.pure ⟨path, rfl⟩
  · simp only [not_forall, Bool.not_eq_true, Option.isSome_eq_false_iff, Option.isNone_iff_eq_none]
      at hname
    obtain ⟨e, he, hnull⟩ := hname
    exact (faults_getFileName he hnull).bind.bind.spoils

end Callbacks

/-! ### The data -/

section Data

variable {s : HeapUpload} {str : HeapString} {granted : Bool}

/-- The search for the boundary needs its block, unless the window begins with the boundary. -/
def SearchGranted (boundary : CString) (w : List UInt8) (granted : Bool) : Prop :=
  strBeginWithStrs w (commonBoundary boundary) = true ∨ granted = true
  deriving Decidable

theorem owns_nextPossibleBoundary (hstr : s.boundary = some str) (past : ℕ → UInt8)
    (h : SearchGranted str.text w granted) :
    Owns s.blocks (s.nextPossibleBoundary past w granted)
      fun k L => k = dataEnd past str.text w ∧ L = s.blocks := by
  refine (owns_readBoundary hstr).bind ?_
  rintro _ _ ⟨rfl, rfl⟩
  rw [dataEnd]
  split_ifs with hbegin
  · refine Owns.pure ⟨?_, rfl⟩
    rw [nextPossibleBoundary, if_pos hbegin]
    rfl
  · obtain rfl := h.resolve_left hbegin
    refine (owns_memstrs hstr).bind ?_
    rintro _ _ rfl
    exact Owns.pure ⟨rfl, rfl⟩

theorem faults_nextPossibleBoundary (hstr : s.boundary = some str) (past : ℕ → UInt8)
    (h : ¬ SearchGranted str.text w granted) :
    Faults s.blocks (s.nextPossibleBoundary past w granted) := by
  obtain ⟨hbegin, hgranted⟩ := not_or.mp h
  refine (owns_readBoundary hstr).faults_bind ?_
  rintro _ _ ⟨rfl, rfl⟩
  rw [if_neg hbegin, Bool.eq_false_iff.mpr hgranted]
  exact (faults_memstrs hstr).bind

/-- The last name entry. -/
def HeapUpload.lastEntry (s : HeapUpload) : Option HeapNameEntry :=
  (tableEntries s.nameEntries).getLast?

/-- The condition on a stretch of data: a value is stored only for a name that has none, and
its block is granted. -/
def SectionBalanced (s : HeapUpload) (data : List UInt8) (granted : Bool) : Prop :=
  (s.inFile = true ∧ data.length ≠ 0) ∨ memstr crlf data = none ∨
    (granted = true ∧ ∃ e ∈ s.lastEntry, e.value = none)
  deriving Decidable

theorem lastEntry_eq_some (he : s.lastEntry = some e) :
    ∃ t, s.nameEntries = some t ∧ t.entries.getLast? = some e := by
  cases ht : s.nameEntries with
  | none =>
      rw [HeapUpload.lastEntry, ht] at he
      cases he
  | some t =>
      rw [HeapUpload.lastEntry, ht] at he
      exact ⟨t, rfl, he⟩

/-- A value that is stored takes the place of the one before it, which nothing leads to any
more. -/
theorem owns_storeValue (he : s.lastEntry = some e) (value : CString) :
    Owns s.blocks (s.storeValue value true)
      fun u L => L = ptrBlocks (strPtr e.value) + u.blocks := by
  obtain ⟨t, ht, he⟩ := lastEntry_eq_some he
  refine owns_malloc_true.bind ?_
  rintro _ _ ⟨b, rfl, rfl⟩
  rw [ht]
  dsimp only
  rw [he]
  refine (owns_access (Multiset.mem_add.mpr (.inr (HeapUpload.table_mem ht)))).bind ?_
  rintro _ _ rfl
  refine (owns_deref (by simp)).bind ?_
  rintro _ _ ⟨rfl, rfl⟩
  refine Owns.pure ?_
  have hentries : t.entries = t.entries.dropLast ++ [e] :=
    (List.dropLast_append_getLast? e he).symm
  rw [s.blocks_nameEntries, HeapUpload.blocks_nameEntries { s with nameEntries := some _ }, ht]
  dsimp only [tableBlocks]
  nth_rewrite 1 [hentries]
  rw [entriesBlocks_concat, entriesBlocks_concat]
  simp only [HeapNameEntry.blocks, strPtr, Option.map_some, ptrBlocks_some]
  abel

theorem faults_storeValue_noEntry (he : s.lastEntry = none) (value : CString) (granted : Bool) :
    Faults s.blocks (s.storeValue value granted) := by
  refine (owns_malloc granted).faults_bind ?_
  rintro p _ rfl
  rw [HeapUpload.lastEntry] at he
  cases ht : s.nameEntries with
  | none => exact faults_throw _
  | some t =>
      rw [ht] at he
      dsimp only [tableEntries] at he ⊢
      rw [he]
      exact faults_throw _

/-- The block for the value is not checked. -/
theorem faults_storeValue_refused (he : s.lastEntry = some e)
    (value : CString) : Faults s.blocks (s.storeValue value false) := by
  obtain ⟨t, ht, he⟩ := lastEntry_eq_some he
  refine owns_malloc_false.faults_bind ?_
  rintro _ _ ⟨rfl, rfl⟩
  rw [ht]
  dsimp only
  rw [he]
  refine (owns_access (HeapUpload.table_mem ht)).faults_bind ?_
  rintro _ _ rfl
  exact faults_deref_none.bind

/-- **Storing a value** keeps the heap only where there was none. -/
theorem spoils_storeValue
    (h : ¬ (granted = true ∧ ∃ e ∈ s.lastEntry, e.value = none)) (value : CString) :
    Spoils s.blocks (s.storeValue value granted) HeapUpload.blocks := by
  cases he : s.lastEntry with
  | none => exact (faults_storeValue_noEntry he value granted).spoils
  | some e =>
      cases granted with
      | false => exact (faults_storeValue_refused he value).spoils
      | true =>
          refine Owns.spoils ((owns_storeValue he value).mono ?_)
          rintro u _ rfl
          cases hvalue : e.value with
          | none => exact absurd ⟨rfl, e, he, hvalue⟩ h
          | some str => exact ⟨str.block, rfl⟩

theorem owns_handleSection {data : List UInt8} (h : SectionBalanced s data granted) :
    Owns s.blocks (s.handleSection data granted) fun t L => L = t.blocks := by
  refine (owns_access s.block_mem).bind ?_
  rintro _ _ rfl
  split_ifs with hfile
  · exact Owns.pure rfl
  · cases hline : memstr crlf data with
    | none => exact Owns.pure rfl
    | some i =>
        obtain ⟨hin, hlen⟩ | hnone | ⟨rfl, e, he, hvalue⟩ := h
        · exact absurd (by simp [hin, hlen]) hfile
        · rw [hline] at hnone
          cases hnone
        · refine (owns_storeValue he _).mono ?_
          rintro u _ rfl
          rw [hvalue]
          exact zero_add _

theorem spoils_handleSection {data : List UInt8} (h : ¬ SectionBalanced s data granted) :
    Spoils s.blocks (s.handleSection data granted) HeapUpload.blocks := by
  obtain ⟨hfile, h⟩ := not_or.mp h
  obtain ⟨hline, hstore⟩ := not_or.mp h
  obtain ⟨i, hi⟩ := Option.ne_none_iff_exists'.mp hline
  refine (owns_access s.block_mem).spoils_bind ?_
  rintro _ _ rfl
  rw [if_neg (by simpa using hfile), hi]
  exact spoils_storeValue hstore _

end Data

end RtBoot
