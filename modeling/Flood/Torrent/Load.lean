import Flood.Bencode.Spans

/-!
# `torrent.c`

Loading a torrent from the text of a metainfo file.

* `stringOf`, `integerOf`, `listOf`, `dictOf` — the members of a `bencode_value`; `none` where the
  value holds another one.
* `prepareTrackers`, `prepareInfoSection`, `loadMetainfo` — read a parsed value into a `torrent_t`;
  `none` where a member is read that the value does not hold, or a pointer is followed that no lookup
  has set.
* `torrentInitFromFile` — the whole, from the text on.

The lists and dictionaries of a parsed value are not shared, so that iterating is going through the
elements in order. An array of pointers is kept as far as it is in use.
-/

namespace Flood.Torrent

open Flood.Lib Flood.Hashtable Flood.Bencode

/-- A file of a torrent.
Source: `torrent.h`, `file_info_t` -/
structure FileInfo where
  /-- The number of bytes. -/
  length : Int
  /-- The segments of the path. -/
  path : List (Option CharPtr)
  deriving DecidableEq

/-- Is there one file, or are there many? -/
inductive Mode where
  /-- One file. -/
  | singleFile
  /-- Many files. -/
  | multiFile
  deriving DecidableEq

/-- What is known of the files.
Source: `torrent.h`, `info_section_t` -/
structure InfoSection where
  /-- How many bytes a piece has. -/
  pieceLength : Int
  /-- The hashes of the pieces. -/
  pieces : Option CharPtr
  /-- One file or many. -/
  mode : Mode
  /-- The name. -/
  fileName : Option CharPtr
  /-- The number of bytes, if there is one file. -/
  fileLength : Int
  /-- The files, if there are many. -/
  files : List FileInfo
  deriving DecidableEq

/-- A torrent.
Source: `torrent.h`, `torrent_t` -/
structure TorrentT where
  /-- The hash of the info section. -/
  infoHash : List UInt8
  /-- The info section. -/
  info : InfoSection
  /-- The URLs of the trackers. -/
  trackerUrls : List (Option CharPtr)
  deriving DecidableEq

/-! ## Reading values -/

/-- `val->string` -/
def stringOf : BencodeValue → Option BencodeString
  | .string s _ _ => some s
  | _ => none

/-- `val->integer` -/
def integerOf : BencodeValue → Option Int
  | .integer n _ _ => some n
  | _ => none

/-- `val->list` -/
def listOf : BencodeValue → Option (List BencodeValue)
  | .list elems _ _ => some elems
  | _ => none

/-- `val->dict` -/
def dictOf : BencodeValue → Option BencodeDict
  | .dict dict _ _ => some dict
  | _ => none

/-- `hashtable_get` with a string literal. -/
def lookup (dict : BencodeDict) (key : List UInt8) : Option BencodeValue :=
  dict.get hashFuncStr cmpFuncStr ⟨0, key⟩

/-- `"announce-list"` -/
def announceListKey : List UInt8 := [97, 110, 110, 111, 117, 110, 99, 101, 45, 108, 105, 115, 116]

/-- `"announce"` -/
def announceKey : List UInt8 := [97, 110, 110, 111, 117, 110, 99, 101]

/-- `"piece length"` -/
def pieceLengthKey : List UInt8 := [112, 105, 101, 99, 101, 32, 108, 101, 110, 103, 116, 104]

/-- `"name"` -/
def nameKey : List UInt8 := [110, 97, 109, 101]

/-- `"files"` -/
def filesKey : List UInt8 := [102, 105, 108, 101, 115]

/-- `"length"` -/
def lengthKey : List UInt8 := [108, 101, 110, 103, 116, 104]

/-- `"path"` -/
def pathKey : List UInt8 := [112, 97, 116, 104]

/-! ## Trackers -/

/-- The first URL of an element of the announce list. `list_get` leaves the pointer at `3` if there
is none. -/
def trackerUrl (bSublist : BencodeValue) : Option (Option CharPtr) := do
  let sublist ← listOf bSublist
  let tracker ← sublist.head?
  let str ← stringOf tracker
  some str.ptr

/-- The URLs of the announce list. -/
def announceListUrls (dict : BencodeDict) : Option (List (Option CharPtr)) :=
  match lookup dict announceListKey with
  | some announceList => do
      let sublists ← listOf announceList
      sublists.mapM trackerUrl
  | none => some []

/-- The URL of `announce`, if there is one. -/
def announceUrls (dict : BencodeDict) : Option (List (Option CharPtr)) :=
  match lookup dict announceKey with
  | some announce => do
      let str ← stringOf announce
      some [str.ptr]
  | none => some []

/-- Collect the URLs of the trackers.
Source: `torrent.c`, `prepare_trackers` -/
def prepareTrackers (bencode : BencodeValue) (t : TorrentT) : Option TorrentT := do
  let dict ← dictOf bencode
  let listed ← announceListUrls dict
  let announced ← announceUrls dict
  some { t with trackerUrls := listed ++ announced }

/-! ## The info section -/

/-- One turn of the `while` loop over the files: the file, or `none` within if the function returns
`-1`. -/
def readFileInfo (bCurrFile : BencodeValue) : Option (Option FileInfo) := do
  let file ← dictOf bCurrFile
  match lookup file lengthKey with
  | none => some none
  | some bFileLength => do
      let length ← integerOf bFileLength
      match lookup file pathKey with
      | none => some none
      | some bPathList => do
          let segments ← listOf bPathList
          if segments = [] then some none
          else do
            let path ← segments.mapM stringOf
            some (some ⟨wrap32 length, path.map BencodeString.ptr⟩)

/-- The `while` loop over the files: the code, and the files read. -/
def filesLoop : List BencodeValue → Option (Int × List FileInfo)
  | [] => some (0, [])
  | bCurrFile :: rest => do
      let file ← readFileInfo bCurrFile
      match file with
      | none => some (-1, [])
      | some file => do
          let (code, files) ← filesLoop rest
          some (code, file :: files)

/-- The name of the files, `NULL` if there is none. -/
def readName (dict : BencodeDict) : Option (Option CharPtr) :=
  match lookup dict nameKey with
  | some bName => do
      let str ← stringOf bName
      some str.ptr
  | none => some none

/-- The files, or the length of the only one. -/
def readFiles (dict : BencodeDict) (info : InfoSection) : Option (Int × InfoSection) :=
  match lookup dict filesKey with
  | some bFiles => do
      let elems ← listOf bFiles
      let (code, files) ← filesLoop elems
      some (code, { info with mode := .multiFile, files := files })
  | none =>
      match lookup dict lengthKey with
      | none => some (-1, { info with mode := .singleFile })
      | some bFileLength => do
          let length ← integerOf bFileLength
          some (0, { info with mode := .singleFile, fileLength := wrap32 length })

/-- Load the info section; the code and what is loaded. The pointer to the piece length is read
exactly if the lookup has not set it.
Source: `torrent.c`, `prepare_info_section` -/
def prepareInfoSection (bencode : BencodeValue) (info : InfoSection) :
    Option (Int × InfoSection) := do
  let dict ← dictOf bencode
  match lookup dict infoKey with
  | none => some (-1, { info with fileName := none, pieces := none })
  | some bInfo => do
      let infoDict ← dictOf bInfo
      match lookup infoDict pieceLengthKey with
      | none => none
      | some _ => do
          let name ← readName infoDict
          readFiles infoDict { info with fileName := name, pieces := none }

/-! ## The file -/

/-- `torrent_init_from_file` from the parsed value on. The code of `prepare_info_section` is not
looked at. -/
def loadMetainfo (sha1 : List UInt8 → List UInt8) (data : List UInt8) (bencode : BencodeValue)
    (t : TorrentT) : Option (Int × TorrentT) := do
  let dict ← dictOf bencode
  match lookup dict infoKey with
  | none => some (-1, t)
  | some infoSect => do
      let t ← prepareTrackers bencode
        { t with infoHash := sha1 (slice data infoSect.start infoSect.stop) }
      let (_, info) ← prepareInfoSection bencode t.info
      some (0, { t with info := info })

/-- How loading ends. -/
inductive Loading where
  /-- The function returns. -/
  | returned (code : Int) (t : TorrentT)
  /-- A member is read that the value does not hold, or a pointer that no lookup has set. -/
  | misread
  /-- The parser does not return. -/
  | parserStops (why : Stop)
  deriving DecidableEq

/-- `torrent_init_from_file` from the call of `bencode_parse` on. -/
def loadParsed (sha1 : List UInt8 → List UInt8) (data : List UInt8) (t : TorrentT) :
    Result BencodeValue → Loading
  | .stop (.code _) _ => .returned (-1) t
  | .stop why _ => .parserStops why
  | .ok bencode _ =>
      match loadMetainfo sha1 data bencode t with
      | some (code, t) => .returned code t
      | none => .misread

/-- The memory from the buffer on: the data, and what can be read beyond it. -/
def memory (data : List UInt8) (beyond : Nat → Option UInt8) (i : Nat) : Option UInt8 :=
  if h : i < data.length then some data[i] else beyond i

/-- Load a torrent; `file` is `none` if the file cannot be read.
Source: `torrent.c`, `torrent_init_from_file` -/
def torrentInitFromFile (sha1 : List UInt8 → List UInt8) (beyond : Nat → Option UInt8)
    (place : Nat → Addr) (file : Option (List UInt8)) (t : TorrentT) : Loading :=
  match file with
  | none => .returned (-1) t
  | some data =>
      loadParsed sha1 data t (bencodeParse (memory data beyond) (wrap32 data.length) place)

end Flood.Torrent
