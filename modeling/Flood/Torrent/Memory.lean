import Flood.Lib.Slots
import Flood.LinkedList.Iterate
import Flood.Torrent.Load

/-!
# `torrent.c` on its memory

`prepare_trackers` and `prepare_info_section` as they run: a parsed value is an object at an address,
a list is a list of `list.c` whose elements are the bytes of addresses, and iterating over it moves
the cursor inside of it; the arrays are allocated from counters and written by index.

* `Object`, `Memory` — the values in memory.
* `whileNext` — `while (list_iter_has_next(..)) { list_iter_next(..); .. }`.
* `prepareTrackers`, `prepareInfoSection` — the two functions. The result is `none` where the run
  leaves what the source defines: it reads a member that the value does not hold, follows a pointer
  that points to nothing, or writes outside an array.

`prepare_info_section` first prints the value, which leaves it as it was but for the cursors of its
lists. What it prints is left out.
-/

namespace Flood.Torrent.Heap

open Flood.Lib Flood.Hashtable Flood.LinkedList Flood.Bencode

/-! ## Memory -/

/-- What a value holds, with the list or the dictionary it points to. Elements and values of keys
are addresses. -/
inductive Object where
  /-- A byte string. -/
  | string (string : BencodeString)
  /-- An integer. -/
  | integer (integer : Int)
  /-- A list. -/
  | list (list : ListT)
  /-- A dictionary. -/
  | dict (dict : Table CharPtr UInt64)

/-- The values in memory. -/
structure Memory where
  /-- The value at an address. -/
  objects : UInt64 → Option Object
  /-- No value is at the null pointer or at an odd address. -/
  aligned : ∀ p, (objects p).isSome → p.toNat % 8 = 0 ∧ p ≠ 0

namespace Memory

/-- `val->string` -/
def string (m : Memory) (p : UInt64) : Option BencodeString :=
  match m.objects p with
  | some (.string s) => some s
  | _ => none

/-- `val->integer` -/
def integer (m : Memory) (p : UInt64) : Option Int :=
  match m.objects p with
  | some (.integer n) => some n
  | _ => none

/-- `*(val->list)` -/
def list (m : Memory) (p : UInt64) : Option ListT :=
  match m.objects p with
  | some (.list l) => some l
  | _ => none

/-- `*(val->dict)` -/
def dict (m : Memory) (p : UInt64) : Option (Table CharPtr UInt64) :=
  match m.objects p with
  | some (.dict t) => some t
  | _ => none

/-- Write the list of the value at an address. -/
def setList (m : Memory) (p : UInt64) (l : ListT) : Memory where
  objects q := if q = p then (m.objects p).map fun _ => .list l else m.objects q
  aligned q hq := by
    apply m.aligned
    split_ifs at hq with hqp
    · rw [hqp, ← Option.isSome_map]
      exact hq
    · exact hq

/-- `list_iter_start(val->list)` -/
def iterStart (m : Memory) (p : UInt64) : Option Memory := do
  let l ← m.list p
  some (m.setList p (listIterStart l))

/-- `list_iter_next(val->list, &next)`; without an element `next` is not set. -/
def iterNext (m : Memory) (p : UInt64) : Option (UInt64 × Memory) := do
  let l ← m.list p
  let (data, l) ← listIterNext l
  let next ← data
  some (leWord64 next, m.setList p l)

/-- `list_get(val->list, 0, &first)`; without an element `first` is left as it is. -/
def getFirst (m : Memory) (p first : UInt64) : Option (UInt64 × Memory) := do
  let l ← m.list p
  let (data, l) ← listGet l 0
  some (data.elim first leWord64, m.setList p l)

end Memory

/-- `hashtable_get` with a string literal. -/
def lookup (dict : Table CharPtr UInt64) (key : List UInt8) : Option UInt64 :=
  dict.get hashFuncStr cmpFuncStr ⟨0, key⟩

section Loop

variable {σ : Type}

/-- Go through the elements of a list; a turn may return a code. -/
def whileNext (p : UInt64) (body : UInt64 → Memory → σ → Option (Option Int × Memory × σ)) :
    Nat → Memory → σ → Option (Option Int × Memory × σ)
  | 0, _, _ => none
  | fuel + 1, m, s => do
      let l ← m.list p
      if listIterHasNext l then do
        let (q, m) ← m.iterNext p
        let (code, m, s) ← body q m s
        match code with
        | some code => some (some code, m, s)
        | none => whileNext p body fuel m s
      else some (none, m, s)

/-- `list_iter_start`, and then the loop. A list has no more elements than nodes. -/
def forEach (p : UInt64) (body : UInt64 → Memory → σ → Option (Option Int × Memory × σ))
    (m : Memory) (s : σ) : Option (Option Int × Memory × σ) := do
  let l ← m.list p
  let m ← m.iterStart p
  whileNext p body (l.heap.length + 1) m s

end Loop

/-! ## Structures -/

/-- A slot of an array of strings; `none` is one that has not been written. -/
abbrev UrlSlot := Option (Option CharPtr)

/-- A slot of the array of files, each member `none` until it is written.
Source: `torrent.h`, `file_info_t` -/
structure FileInfo where
  /-- The number of bytes. -/
  length : Option Int
  /-- The number of segments of the path. -/
  pathSegments : Option Int
  /-- The segments. -/
  path : Option (List UrlSlot)
  deriving DecidableEq

/-- A slot that has not been written. -/
def FileInfo.unset : FileInfo := ⟨none, none, none⟩

/-- `file_info->length = length` -/
def FileInfo.setLength (length : Int) (f : FileInfo) : FileInfo := { f with length := some length }

/-- `file_info->path_segments = pathSegments` and `file_info->path = path` -/
def FileInfo.setPath (pathSegments : Int) (path : List UrlSlot) (f : FileInfo) : FileInfo :=
  { f with pathSegments := some pathSegments, path := some path }

/-- `sizeof(file_info_t)` -/
def sizeofFileInfo : Nat := 24

/-- `sizeof(char*)` -/
def sizeofPtr : Nat := 8

/-- What is known of the files.
Source: `torrent.h`, `info_section_t` -/
structure InfoSection where
  /-- How many bytes a piece has. -/
  pieceLength : Int
  /-- The hashes of the pieces. -/
  pieces : Option CharPtr
  /-- One file or many. -/
  mode : Mode
  /-- The name. -/
  fileName : Option CharPtr
  /-- The number of files, at the place of which the length is if there is only one. -/
  fileCount : Int
  /-- The files. -/
  files : List FileInfo
  deriving DecidableEq

/-- A torrent.
Source: `torrent.h`, `torrent_t` -/
structure TorrentT where
  /-- The hash of the info section. -/
  infoHash : List UInt8
  /-- The info section. -/
  info : InfoSection
  /-- The number of trackers. -/
  trackerCount : Int
  /-- Their URLs. -/
  trackerUrls : List UrlSlot
  deriving DecidableEq

/-! ## Trackers -/

/-- One turn of the loop over the announce list: the first URL of an element goes to
`tracker_urls[i]`. -/
def readTracker (bSublist : UInt64) (m : Memory) (s : Int × List UrlSlot) :
    Option (Option Int × Memory × Int × List UrlSlot) := do
  let (tracker, m) ← m.getFirst bSublist 3
  let str ← m.string tracker
  let trackerUrls ← setSlot s.2 s.1 (some str.ptr)
  some (none, m, wrap32 (s.1 + 1), trackerUrls)

/-- The URLs of the announce list: the memory, `tracker_count` and `tracker_urls`. -/
def readAnnounceList (m : Memory) (dict : Table CharPtr UInt64) :
    Option (Memory × Int × List UrlSlot) :=
  match lookup dict announceListKey with
  | some announceList => do
      let l ← m.list announceList
      let trackerCount := listLen l
      let trackerUrls := allocate (wrap32 (trackerCount + 1)) sizeofPtr none
      let trackerUrls ← setSlot trackerUrls trackerCount (some none)
      let (_, m, _, trackerUrls) ← forEach announceList readTracker m (0, trackerUrls)
      some (m, trackerCount, trackerUrls)
  | none => some (m, 0, allocate 1 sizeofPtr none)

/-- Collect the URLs of the trackers.
Source: `torrent.c`, `prepare_trackers` -/
def prepareTrackers (m : Memory) (bencode : UInt64) (t : TorrentT) : Option (Memory × TorrentT) := do
  let dict ← m.dict bencode
  let (m, trackerCount, trackerUrls) ← readAnnounceList m dict
  match lookup dict announceKey with
  | some announce => do
      let str ← m.string announce
      let trackerUrls ← setSlot trackerUrls trackerCount (some str.ptr)
      some (m, { t with trackerCount := wrap32 (trackerCount + 1), trackerUrls := trackerUrls })
  | none => some (m, { t with trackerCount := trackerCount, trackerUrls := trackerUrls })

/-! ## The info section -/

/-- One turn of the loop over the segments: a segment goes to `file_info->path[path_idx]`. -/
def readSegment (bPathStr : UInt64) (m : Memory) (s : Int × List UrlSlot) :
    Option (Option Int × Memory × Int × List UrlSlot) := do
  let str ← m.string bPathStr
  let path ← setSlot s.2 s.1 (some str.ptr)
  some (none, m, wrap32 (s.1 + 1), path)

/-- One turn of the loop over the files: a file goes to `info->files[file_idx]`. Nothing reads its
path before the segments are there. -/
def readFileInfo (bCurrFile : UInt64) (m : Memory) (s : Int × List FileInfo) :
    Option (Option Int × Memory × Int × List FileInfo) := do
  let file ← m.dict bCurrFile
  match lookup file lengthKey with
  | none => some (some (-1), m, s)
  | some bFileLength => do
      let length ← m.integer bFileLength
      let files ← updateSlot s.2 s.1 (FileInfo.setLength (wrap32 length))
      match lookup file pathKey with
      | none => some (some (-1), m, s.1, files)
      | some bPathList => do
          let l ← m.list bPathList
          if listLen l = 0 then some (some (-1), m, s.1, files)
          else do
            let pathSegments := listLen l
            let path := allocate pathSegments sizeofPtr none
            let (_, m, _, path) ← forEach bPathList readSegment m (0, path)
            let files ← updateSlot files s.1 (FileInfo.setPath pathSegments path)
            some (none, m, wrap32 (s.1 + 1), files)

/-- The name of the files, `NULL` if there is none. -/
def readName (m : Memory) (dict : Table CharPtr UInt64) : Option (Option CharPtr) :=
  match lookup dict nameKey with
  | some bName => do
      let str ← m.string bName
      some str.ptr
  | none => some none

/-- The files, or the length of the only one. -/
def readFiles (m : Memory) (dict : Table CharPtr UInt64) (info : InfoSection) :
    Option (Int × Memory × InfoSection) :=
  match lookup dict filesKey with
  | some bFiles => do
      let l ← m.list bFiles
      let fileCount := listLen l
      let files := allocate fileCount sizeofFileInfo FileInfo.unset
      let (code, m, _, files) ← forEach bFiles readFileInfo m (0, files)
      some (code.getD 0, m,
        { info with mode := .multiFile, fileCount := fileCount, files := files })
  | none =>
      match lookup dict lengthKey with
      | none => some (-1, m, { info with mode := .singleFile })
      | some bFileLength => do
          let length ← m.integer bFileLength
          some (0, m, { info with mode := .singleFile, fileCount := wrap32 length })

/-- Load the info section. The pointer to the piece length is read exactly if the lookup has not set
it.
Source: `torrent.c`, `prepare_info_section` -/
def prepareInfoSection (m : Memory) (bencode : UInt64) (info : InfoSection) :
    Option (Int × Memory × InfoSection) := do
  let dict ← m.dict bencode
  let info := { info with fileName := none, pieces := none }
  match lookup dict infoKey with
  | none => some (-1, m, info)
  | some bInfo => do
      let infoDict ← m.dict bInfo
      match lookup infoDict pieceLengthKey with
      | none => none
      | some _ => do
          let name ← readName m infoDict
          readFiles m infoDict { info with fileName := name }

end Flood.Torrent.Heap
