import RtBoot.Heap
import RtBoot.Upload

/-!
# The Memory of an Upload Session

`wn_module_upload.c` keeps what it learns about an upload in blocks of the heap: the session
structure, the boundary string, the file name and content type of the current part, the table
of name entries, and the two strings of every entry. This module follows the blocks through
the functions of the receiver and through `upload_open` of `wn_main.c`, which allocates one
more for the path of the image file.

The decisions are those of `Upload`: the same boundary and header functions are applied to the
same windows. What is added is the heap. Every pointer names its block, every string is read
through its block, and every request for memory is answered from outside, so that a null
pointer can come out of any of them. `HeapUpload.blocks` are the blocks a session holds. What the
functions do to them is proved in `UploadOwns`.
-/

namespace RtBoot

open HeapM

/-! ### The session and its blocks -/

/-- A string in a block of its own. -/
structure HeapString where
  block : ℕ
  text : CString
  deriving DecidableEq

/-- The pointer to a string. -/
def strPtr (str : Option HeapString) : Option ℕ :=
  str.map HeapString.block

/-- `struct webnet_upload_name_entry`. -/
structure HeapNameEntry where
  name : Option HeapString
  value : Option HeapString
  deriving DecidableEq

/-- `name_entries` and the entries behind it, `name_entries_count` of them. -/
structure NameTable where
  block : ℕ
  entries : List HeapNameEntry
  deriving DecidableEq

/-- `struct webnet_module_upload_session`. The pointer `boundary` is not set when the request
names no boundary. -/
structure HeapUpload where
  block : ℕ
  boundary : Option HeapString
  filename : Option HeapString
  contentType : Option HeapString
  nameEntries : Option NameTable
  fileOpened : Bool
  userData : ℤ
  deriving DecidableEq

/-- The blocks of an entry. -/
def HeapNameEntry.blocks (e : HeapNameEntry) : Multiset ℕ :=
  ptrBlocks (strPtr e.value) + ptrBlocks (strPtr e.name)

/-- The blocks of the entries. -/
def entriesBlocks (entries : List HeapNameEntry) : Multiset ℕ :=
  (entries.map HeapNameEntry.blocks).sum

/-- The blocks of the name table. -/
def tableBlocks : Option NameTable → Multiset ℕ
  | none => 0
  | some t => {t.block} + entriesBlocks t.entries

/-- The blocks a session holds. -/
def HeapUpload.blocks (s : HeapUpload) : Multiset ℕ :=
  {s.block} + (ptrBlocks (strPtr s.boundary) + (ptrBlocks (strPtr s.filename) +
    (ptrBlocks (strPtr s.contentType) + tableBlocks s.nameEntries)))

/-- The current part is a file. -/
def HeapUpload.inFile (s : HeapUpload) : Bool :=
  s.filename.isSome && s.contentType.isSome

/-! ### Strings and searches -/

/-- `wn_strdup`. -/
def strdup (text : CString) (granted : Bool) : HeapM (Option HeapString) := do
  match ← malloc granted with
  | none => return none
  | some b =>
      access (some b)
      return some ⟨b, text⟩

/-- `wn_strdup` of a pointer that is not null. -/
def strdupSome (granted : Bool) : Option CString → HeapM (Option HeapString)
  | none => return none
  | some text => strdup text granted

namespace HeapUpload

/-- The boundary string is read. -/
def readBoundary (s : HeapUpload) : HeapM CString := do
  access (some s.block)
  match s.boundary with
  | none => throw .wild
  | some str =>
      access (some str.block)
      return str.text

/-- `memstrs`: what is searched for is put together in a block of its own, which is not
checked and is freed after the search. -/
def memstrs (s : HeapUpload) (granted : Bool) : HeapM Unit := do
  let _ ← s.readBoundary
  let substr ← malloc granted
  access substr
  free substr

/-! ### The header parser -/

/-- `end of file name section`. -/
def endSection (s : HeapUpload) : HeapM HeapUpload :=
  if s.inFile then do
    free (strPtr s.filename)
    free (strPtr s.contentType)
    return { s with filename := none, contentType := none }
  else return s

end HeapUpload

/-- What the allocator answers while the strings of a header are taken over. -/
structure HeaderAnswers where
  filename : Bool
  contentType : Bool
  nameEntries : ReallocAnswer
  name : Bool
  value : Bool
  deriving DecidableEq

/-- `add a name entry in the upload session`: the table is allocated for the first entry and
resized for the others. `name_entries_count` has 16 bits, and a table resized to nothing is
freed. -/
def growTable (answer : ReallocAnswer) : Option NameTable → HeapM (Option ℕ)
  | none => malloc (answer != .refused)
  | some t =>
      if (t.entries.length + 1) % 65536 = 0 then do
        free (some t.block)
        return none
      else realloc t.block answer

/-- The entries of a table. -/
def tableEntries : Option NameTable → List HeapNameEntry
  | none => []
  | some t => t.entries

/-- A name is added to the table, whose pointer is not checked. -/
def addName (a : HeaderAnswers) (table : Option NameTable) (name : CString) :
    HeapM (Option NameTable) := do
  let p ← growTable a.nameEntries table
  let nameStr ← strdup nameKey a.name
  let b ← deref p
  let valueStr ← strdup name a.value
  access (some b)
  return some ⟨b, tableEntries table ++ [⟨nameStr, valueStr⟩]⟩

/-- A name is added if the header has one. -/
def addNameSome (a : HeaderAnswers) (table : Option NameTable) :
    Option CString → HeapM (Option NameTable)
  | none => return table
  | some name => addName a table name

/-- The misuse a fault of the header parser is. -/
def Fault.misuse : Fault → Misuse
  | .nullPointer => .null
  | _ => .wild

namespace HeapUpload

/-- The strings of the part before are freed, those of the header are copied. -/
def takeStrings (s : HeapUpload) (h : PartHeader) (a : HeaderAnswers) : HeapM HeapUpload := do
  free (strPtr s.filename)
  free (strPtr s.contentType)
  let filename ← strdupSome a.filename h.filename
  let contentType ← strdupSome a.contentType h.contentType
  return { s with filename, contentType }

/-- The end of a header: the session takes over the strings found. -/
def startPart (s : HeapUpload) (h : PartHeader) (a : HeaderAnswers) : HeapM HeapUpload := do
  let s ← s.takeStrings h a
  let nameEntries ← addNameSome a s.nameEntries h.name
  return { s with nameEntries }

/-- `_webnet_module_upload_parse_header`. -/
def parseHeader (s : HeapUpload) (w : List UInt8) (a : HeaderAnswers) :
    HeapM (HeapUpload × Option (List UInt8)) := do
  let boundary ← s.readBoundary
  if strBeginWithStrs w (lastBoundary boundary) then
    return (s, some (w.drop (boundary.strlen + 6)))
  else
    match skipBoundary boundary w with
    | none => return (s, none)
    | some rest =>
        let s ← s.endSection
        match headerLines rest.length .empty rest with
        | .error fault => throw fault.misuse
        | .ok .ranOut => return (s, some [])
        | .ok (.ended h after) =>
            let s ← s.startPart h a
            return (s, some after)

/-! ### The teardown -/

end HeapUpload

/-- The strings of the entries are freed. -/
def freeEntries (table : ℕ) : List HeapNameEntry → HeapM Unit
  | [] => return ()
  | e :: es => do
      access (some table)
      free (strPtr e.value)
      free (strPtr e.name)
      freeEntries table es

/-- The entries and their table are freed. -/
def freeTable : Option NameTable → HeapM Unit
  | none => return ()
  | some t => do
      freeEntries t.block t.entries
      free (some t.block)

namespace HeapUpload

/-- `wn_free(upload_session->boundary)`. -/
def freeBoundary (s : HeapUpload) : HeapM Unit :=
  match s.boundary with
  | none => throw .wild
  | some str => free (some str.block)

/-- `_webnet_module_upload_close`. Calling `upload_close` reads `user_data`. -/
def close (s : HeapUpload) : HeapM Unit := do
  access (some s.block)
  free (strPtr s.filename)
  free (strPtr s.contentType)
  s.freeBoundary
  freeTable s.nameEntries
  free (some s.block)

end HeapUpload

/-! ### The callbacks -/

/-- `webnet_upload_get_nameentry`: the names are compared one after the other. -/
def getNameentry (table : ℕ) (name : CString) : List HeapNameEntry → HeapM (Option HeapString)
  | [] => return none
  | e :: es => do
      access (some table)
      match e.name with
      | none => throw .null
      | some str =>
          access (some str.block)
          if str.text.bytes.map toLower == name.bytes.map toLower then return e.value
          else getNameentry table name es

namespace HeapUpload

/-- `get_file_name`: whether the session's name entry is one of the four fields. -/
def getFileName (s : HeapUpload) : HeapM Bool := do
  access (some s.block)
  match s.nameEntries with
  | none => return false
  | some t =>
      match ← getNameentry t.block nameKey t.entries with
      | none => return false
      | some str =>
          access (some str.block)
          return (RtBoot.getFileName 0 (some str.text.bytes)).2.isSome

/-- The part of `upload_open` behind the name: the path is allocated, and freed only when the
file cannot be opened, after the session has been closed. -/
def openPath (s : HeapUpload) (answer : OpenAnswer) : HeapM ℤ := do
  match ← malloc answer.pathAlloc with
  | none => return -1
  | some path =>
      access (some path)
      if answer.fd < 0 then
        s.close
        free (some path)
        return -1
      else return answer.fd

/-- `upload_open`. -/
def uploadOpen (s : HeapUpload) (answer : OpenAnswer) : HeapM ℤ := do
  let known ← s.getFileName
  if known && s.filename.isSome then s.openPath answer
  else return -1

/-- Behind a part header: a file is opened, or one that is open is closed. -/
def startSection (s : HeapUpload) (answer : OpenAnswer) : HeapM HeapUpload := do
  access (some s.block)
  if s.inFile then
    if s.fileOpened then return s
    else
      let fd ← s.uploadOpen answer
      access (some s.block)
      return { s with userData := fd, fileOpened := true }
  else
    if s.fileOpened then return { s with userData := 0, fileOpened := false }
    else return s

/-! ### The data -/

/-- `_next_possible_boundary`: how many bytes stand before it. -/
def nextPossibleBoundary (s : HeapUpload) (past : ℕ → UInt8) (w : List UInt8) (granted : Bool) :
    HeapM ℕ := do
  let boundary ← s.readBoundary
  if strBeginWithStrs w (commonBoundary boundary) then return 0
  else
    s.memstrs granted
    return (RtBoot.nextPossibleBoundary past boundary w).getD w.length

/-- A value is stored for the last name. The pointer that was there is overwritten, and the
new one is not checked. -/
def storeValue (s : HeapUpload) (value : CString) (granted : Bool) : HeapM HeapUpload := do
  let p ← malloc granted
  match s.nameEntries with
  | none => throw .wild
  | some t =>
      match t.entries.getLast? with
      | none => throw .wild
      | some e =>
          access (some t.block)
          let b ← deref p
          return { s with nameEntries := some { t with
            entries := t.entries.dropLast ++ [{ e with value := some ⟨b, value⟩ }] } }

/-- `_handle_section`. -/
def handleSection (s : HeapUpload) (data : List UInt8) (granted : Bool) : HeapM HeapUpload := do
  access (some s.block)
  if s.inFile && data.length != 0 then return s
  else
    match memstr crlf data with
    | none => return s
    | some i => s.storeValue (.upToNul (data.take i)) granted

end HeapUpload

end RtBoot
