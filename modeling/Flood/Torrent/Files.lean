import Flood.Torrent.Represents
import Flood.Torrent.Scalars

/-!
# The table of files

What `prepare_info_section` makes of an info dictionary with files, in memory.

* `readSegment_refines`, `readFileInfo_refines` — a turn of the inner loop and one of the outer loop
  write what the value says to the next slot, and nothing else; `prepareInfoSection_eq` — so does the
  whole.
* `files_eq_filesLoop` — the slots are the files that `Torrent.prepareInfoSection` loads.
* `MirrorsFiles convert m bencode elems info` — the table mirrors the elements of the list of files,
  each length converted by `convert`; `mirrors_files` — it does, with the conversion to `int`.
* `not_mirrors_files` — without the conversion it does not, nor with more files than an `int` counts.
-/

namespace Flood.Torrent.Heap

open Flood.Lib Flood.Hashtable Flood.LinkedList Flood.Bencode

variable {m : Memory} {p q bencode : UInt64} {v e : BencodeValue} {dict : BencodeDict}
  {elems : List BencodeValue} {K : Set UInt64} {info : InfoSection}

/-- The slot that holds a file. -/
def FileInfo.ofFile (f : Torrent.FileInfo) : FileInfo :=
  ⟨some f.length, some f.path.length, some (f.path.map some)⟩

/-- The slot of an element of the list of files. -/
def fileSlot (e : BencodeValue) : Option FileInfo := (Torrent.readFileInfo e).join.map FileInfo.ofFile

/-- The slot of a segment of a path. -/
def segmentSlot (e : BencodeValue) : Option UrlSlot := (stringOf e).map fun str => some str.ptr

/-- Files with paths of no more segments than an `int` counts. -/
def PathCounted (e : BencodeValue) : Prop :=
  ∀ file path segments, dictOf e = some file → Torrent.lookup file pathKey = some path →
    listOf path = some segments → (segments.length : Int) ≤ intMax

/-- A turn of the inner loop writes the segment to its slot. -/
theorem readSegment_refines (hrep : Represents m q e) (s : Int × List UrlSlot) :
    Refines K m (readSegment q m s) (fill segmentSlot e s) := by
  cases hstr : stringOf e with
  | none =>
      rw [fill_of_none (show segmentSlot e = none by rw [segmentSlot, hstr]; rfl), readSegment,
        hrep.string_none hstr]
      exact rfl
  | some str =>
      rw [fill_of_some (show segmentSlot e = some (some str.ptr) by rw [segmentSlot, hstr]; rfl),
        readSegment, hrep.string_eq hstr, Option.bind_eq_bind, Option.bind_some]
      cases setSlot s.2 s.1 (some str.ptr) with
      | none => exact rfl
      | some path => exact ⟨m, rfl, .refl K m⟩

/-- The slots of the segments. -/
theorem segmentSlots {strs : List BencodeString} (hstrs : elems.mapM stringOf = some strs) :
    List.Forall₂ (fun e slot => segmentSlot e = some slot) elems
      ((strs.map BencodeString.ptr).map some) := by
  rw [List.map_map, List.forall₂_map_right_iff]
  refine (mapM_eq_some_iff.mp hstrs).imp fun e str hstr => ?_
  rw [segmentSlot, hstr]
  rfl

/-- **The inner loop** fills the path, from the first slot to the last. -/
theorem path_filled {strs : List BencodeString} (hstrs : elems.mapM stringOf = some strs)
    (hmax : (elems.length : Int) ≤ intMax) :
    through (fill segmentSlot) elems (0, allocate elems.length sizeofPtr none) =
      some (none, (elems.length : Int), (strs.map BencodeString.ptr).map some) :=
  through_fill_allocate (segmentSlots hstrs) hmax (by decide) (by decide) none

/-- The slot of a file of the right shape. -/
theorem fileSlot_eq {file : BencodeDict} {length path : BencodeValue} {n : Int}
    {segments : List BencodeValue} {strs : List BencodeString} (hfile : dictOf e = some file)
    (hlength : Torrent.lookup file lengthKey = some length) (hn : integerOf length = some n)
    (hpath : Torrent.lookup file pathKey = some path) (hsegments : listOf path = some segments)
    (hne : segments ≠ []) (hstrs : segments.mapM stringOf = some strs) :
    fileSlot e = some ⟨some (wrap32 n), some segments.length,
      some ((strs.map BencodeString.ptr).map some)⟩ := by
  have hread : Torrent.readFileInfo e =
      some (some ⟨wrap32 n, strs.map BencodeString.ptr⟩) := by
    unfold Torrent.readFileInfo
    simp only [hfile, hlength, hn, hpath, hsegments, hstrs, Option.bind_eq_bind, Option.bind_some,
      if_neg hne]
  have hcount : (strs.map BencodeString.ptr).length = segments.length := by
    rw [List.length_map, (mapM_eq_some_iff.mp hstrs).length_eq]
  rw [fileSlot, hread, ← hcount]
  rfl

/-- **A turn of the outer loop** writes the file to its slot. Nothing at the addresses `K` is a list
of strings. -/
theorem readFileInfo_refines (hrep : Represents m q e) (he : FileShaped e) (hcount : PathCounted e)
    (hK : ∀ r w segments, Represents m r w → listOf w = some segments → segments ≠ [] →
      (∀ e ∈ segments, (stringOf e).isSome) → r ∉ K) (s : Int × List FileInfo) :
    Refines K m (readFileInfo q m s) (fill fileSlot e s) := by
  obtain ⟨file, hfile, ⟨length, hlength, hint⟩, path, hpath, segments, hsegments, hne, hstrings⟩ := he
  obtain ⟨n, hn⟩ := Option.isSome_iff_exists.mp hint
  obtain ⟨strs, hstrs⟩ := Option.isSome_iff_exists.mp (mapM_isSome hstrings)
  have hmax := hcount file path segments hfile hpath hsegments
  rw [fill_of_some (fileSlot_eq hfile hlength hn hpath hsegments hne hstrs)]
  -- the objects the turn reads
  obtain ⟨t, hdict, _, hfound⟩ := hrep.dict_eq hfile
  obtain ⟨pLength, hpLength, hrepLength⟩ := hfound lengthKey length hlength
  obtain ⟨pPath, hpPath, hrepPath⟩ := hfound pathKey path hpath
  obtain ⟨l, hl, hlen⟩ := hrepPath.listLen_eq hsegments
  rw [wrap32_natCast hmax] at hlen
  have hpos : ¬ ((segments.length : Nat) : Int) = 0 :=
    Nat.cast_ne_zero.mpr (mt List.length_eq_zero_iff.mp hne)
  -- the inner loop
  obtain ⟨m', hrun, hk⟩ : Refines K m (forEach pPath readSegment m (0, allocate segments.length
      sizeofPtr none)) (some (none, (segments.length : Int), (strs.map BencodeString.ptr).map some)) := by
    rw [← path_filled hstrs hmax]
    exact forEach_refines hrepPath hsegments (hK pPath path segments hrepPath hsegments hne hstrings)
      (fun q e m' s _ _ hrep' => readSegment_refines hrep' s) _
  -- the two writes to the slot
  have hconst : FileInfo.setPath segments.length ((strs.map BencodeString.ptr).map some) ∘
      FileInfo.setLength (wrap32 n) = fun _ => ⟨some (wrap32 n), some segments.length,
        some ((strs.map BencodeString.ptr).map some)⟩ := rfl
  have hslot := updateSlot_bind_updateSlot s.2 s.1 (FileInfo.setLength (wrap32 n))
    (FileInfo.setPath segments.length ((strs.map BencodeString.ptr).map some))
  rw [hconst, updateSlot_const] at hslot
  rw [readFileInfo, hdict, Option.bind_eq_bind, Option.bind_some, hpLength]
  dsimp only
  rw [hrepLength.integer_eq hn, Option.bind_eq_bind, Option.bind_some, hpPath]
  dsimp only
  rw [← hslot]
  cases updateSlot s.2 s.1 (FileInfo.setLength (wrap32 n)) with
  | none => exact rfl
  | some files =>
      rw [Option.bind_some, hl]
      dsimp only [Option.bind_eq_bind, Option.bind_some]
      rw [hlen, if_neg hpos, hrun]
      dsimp only [Option.bind_eq_bind, Option.bind_some]
      cases updateSlot files s.1 (FileInfo.setPath segments.length
        ((strs.map BencodeString.ptr).map some)) with
      | none => exact rfl
      | some files => exact ⟨m', rfl, hk⟩

/-! ## The info section -/

/-- A well-typed info dictionary with a piece length and files, each with a length and a path. -/
structure FilesShaped (dict : BencodeDict) (elems : List BencodeValue) : Prop where
  /-- What is there is of the right kind. -/
  wellTyped : WellTyped dict
  /-- There is a piece length. -/
  pieceLength : Torrent.lookup dict pieceLengthKey ≠ none
  /-- There are files. -/
  files : ∃ v, Torrent.lookup dict filesKey = some v ∧ listOf v = some elems
  /-- Every one is complete. -/
  shaped : ∀ e ∈ elems, FileShaped e

/-- The info section with the name and the files loaded. -/
def InfoSection.withFiles (info : InfoSection) (dict : BencodeDict) (elems : List BencodeValue)
    (files : List FileInfo) : InfoSection where
  pieceLength := info.pieceLength
  pieces := none
  mode := .multiFile
  fileName := (stringAt dict nameKey).bind BencodeString.ptr
  fileCount := wrap32 elems.length
  files := files

/-- The name is read. -/
theorem readName_eq {t : Table CharPtr UInt64} (hname : ∀ v, Torrent.lookup dict nameKey = some v →
      (stringOf v).isSome)
    (hnone : ∀ key, Torrent.lookup dict key = none → lookup t key = none)
    (hsome : ∀ key w, Torrent.lookup dict key = some w →
      ∃ q, lookup t key = some q ∧ Represents m q w) :
    readName m t = some ((stringAt dict nameKey).bind BencodeString.ptr) := by
  rw [readName, stringAt]
  cases hfound : Torrent.lookup dict nameKey with
  | none => rw [hnone nameKey hfound, Option.bind_none, Option.bind_none]
  | some w =>
      obtain ⟨q, hq, hrep⟩ := hsome nameKey w hfound
      obtain ⟨str, hstr⟩ := Option.isSome_iff_exists.mp (hname w hfound)
      rw [hq]
      dsimp only
      rw [hrep.string_eq hstr, Option.bind_some, hstr]
      rfl

/-- **The info section in memory** is that of the loop over the files. -/
theorem prepareInfoSection_eq (hrep : Represents m bencode v) (hv : infoDictOf v = some dict)
    (h : FilesShaped dict elems) (hpaths : ∀ e ∈ elems, PathCounted e) (info : InfoSection) :
    (prepareInfoSection m bencode info).map (fun r => (r.1, r.2.2)) =
      (through (fill fileSlot) elems
        (0, allocate (wrap32 elems.length) sizeofFileInfo FileInfo.unset)).map
        fun r => (r.1.getD 0, info.withFiles dict elems r.2.2) := by
  obtain ⟨metainfo, hmeta, hv⟩ := Option.bind_eq_some_iff.mp hv
  obtain ⟨bInfo, hinfo, hdict⟩ := Option.bind_eq_some_iff.mp hv
  obtain ⟨bPieceLength, hpiece⟩ := Option.ne_none_iff_exists'.mp h.pieceLength
  obtain ⟨bFiles, hfiles, helems⟩ := h.files
  -- the objects read
  obtain ⟨t, ht, _, hfound⟩ := hrep.dict_eq hmeta
  obtain ⟨pInfo, hpInfo, hrepInfo⟩ := hfound infoKey bInfo hinfo
  obtain ⟨tInfo, htInfo, hnone, hfoundInfo⟩ := hrepInfo.dict_eq hdict
  obtain ⟨pPiece, hpPiece, _⟩ := hfoundInfo pieceLengthKey bPieceLength hpiece
  obtain ⟨pFiles, hpFiles, hrepFiles⟩ := hfoundInfo filesKey bFiles hfiles
  obtain ⟨l, hl, hlen⟩ := hrepFiles.listLen_eq helems
  have hothers : ∀ e ∈ elems, stringOf e = none := fun e he => by
    obtain ⟨file, hfile, _⟩ := h.shaped e he
    obtain ⟨start, stop, rfl⟩ := eq_dict_of_dictOf hfile
    rfl
  -- no path is the list of files itself, so that the inner loop leaves the outer cursor alone
  have hloop : Refines ∅ m (forEach pFiles readFileInfo m (0, allocate (wrap32 elems.length)
      sizeofFileInfo FileInfo.unset)) (through (fill fileSlot) elems (0, allocate (wrap32 elems.length)
      sizeofFileInfo FileInfo.unset)) := by
    refine forEach_refines hrepFiles helems (Set.notMem_empty _) (fun q e m' s he hk hrep' => ?_) _
    refine readFileInfo_refines hrep' (h.shaped e he) (hpaths e he) ?_ s
    rintro r w segments hr hw hne hstrings (rfl | hmem)
    · exact (hrepFiles.keeps hk).ne_of_strings helems hr hw hothers hstrings hne rfl
    · exact hmem
  rw [prepareInfoSection, ht, Option.bind_eq_bind, Option.bind_some, hpInfo]
  dsimp only
  rw [htInfo, Option.bind_eq_bind, Option.bind_some, hpPiece]
  dsimp only
  rw [readName_eq h.wellTyped.name hnone hfoundInfo, Option.bind_some, readFiles, hpFiles]
  dsimp only
  rw [hl, Option.bind_eq_bind, Option.bind_some, hlen]
  cases hthrough : through (fill fileSlot) elems (0, allocate (wrap32 elems.length) sizeofFileInfo
      FileInfo.unset) with
  | none =>
      rw [hthrough] at hloop
      have hstop : forEach pFiles readFileInfo m (0, allocate (wrap32 elems.length) sizeofFileInfo
        FileInfo.unset) = none := hloop
      rw [hstop]
      rfl
  | some r =>
      obtain ⟨code, i, files⟩ := r
      rw [hthrough] at hloop
      obtain ⟨m', hrun, _⟩ := hloop
      rw [hrun]
      rfl

/-! ## The table -/

/-- A slot mirrors an element of the list of files, with the length converted. -/
def MirrorsFile (convert : Int → Int) (e : BencodeValue) (f : FileInfo) : Prop :=
  ∃ file length path segments, dictOf e = some file ∧ integerAt file lengthKey = some length ∧
    Torrent.lookup file pathKey = some path ∧ listOf path = some segments ∧
    f.length = some (convert length) ∧ f.pathSegments = some (segments.length : Int) ∧
    f.path = segments.mapM segmentSlot

/-- **The table mirrors the metainfo.** The run stays within its arrays and returns `0`, and there is
one file for each element, in order. -/
def MirrorsFiles (convert : Int → Int) (m : Memory) (bencode : UInt64) (elems : List BencodeValue)
    (info : InfoSection) : Prop :=
  ∃ m' info', prepareInfoSection m bencode info = some (0, m', info') ∧
    info'.fileCount = elems.length ∧ List.Forall₂ (MirrorsFile convert) elems info'.files

/-- The slot of an element mirrors it. -/
theorem mirrorsFile_of_fileSlot (he : FileShaped e) {f : FileInfo} (h : fileSlot e = some f) :
    MirrorsFile wrap32 e f := by
  obtain ⟨file, hfile, ⟨length, hlength, hint⟩, path, hpath, segments, hsegments, hne, hstrings⟩ := he
  obtain ⟨n, hn⟩ := Option.isSome_iff_exists.mp hint
  obtain ⟨strs, hstrs⟩ := Option.isSome_iff_exists.mp (mapM_isSome hstrings)
  rw [fileSlot_eq hfile hlength hn hpath hsegments hne hstrs] at h
  obtain rfl := Option.some.inj h
  refine ⟨file, n, path, segments, hfile, ?_, hpath, hsegments, rfl, rfl, ?_⟩
  · rw [integerAt, hlength, Option.bind_some, hn]
  · exact (mapM_eq_some_iff.mpr (segmentSlots hstrs)).symm

/-- **The outer loop** fills the table. -/
theorem files_filled (h : ∀ e ∈ elems, FileShaped e) (hmax : (elems.length : Int) ≤ intMax) :
    ∃ slots, List.Forall₂ (fun e f => fileSlot e = some f) elems slots ∧
      through (fill fileSlot) elems
          (0, allocate (wrap32 elems.length) sizeofFileInfo FileInfo.unset) =
        some (none, (elems.length : Int), slots) := by
  have hall : ∀ e ∈ elems, (fileSlot e).isSome := by
    intro e he
    obtain ⟨file, hfile⟩ := readFileInfo_isSome (h e he)
    rw [fileSlot, hfile]
    rfl
  obtain ⟨slots, hslots⟩ := Option.isSome_iff_exists.mp (mapM_isSome hall)
  have hslots := mapM_eq_some_iff.mp hslots
  refine ⟨slots, hslots, ?_⟩
  rw [wrap32_natCast hmax]
  exact through_fill_allocate hslots hmax (by decide) (by decide) FileInfo.unset

/-- The slots are the files that the loader of values reads. -/
theorem files_eq_filesLoop {files : List Torrent.FileInfo} {slots : List FileInfo}
    (hslots : List.Forall₂ (fun e f => fileSlot e = some f) elems slots)
    (hfiles : filesLoop elems = some (0, files)) : slots = files.map FileInfo.ofFile := by
  induction hslots generalizing files with
  | nil =>
      obtain rfl := (Prod.mk.inj (Option.some.inj hfiles)).2
      rfl
  | @cons e f elems slots hslot _ ih =>
      rw [filesLoop] at hfiles
      obtain ⟨file, hfile, hfiles⟩ := Option.bind_eq_some_iff.mp hfiles
      rw [fileSlot, hfile, Option.join_some, Option.map_eq_some_iff] at hslot
      obtain ⟨file', rfl, rfl⟩ := hslot
      obtain ⟨⟨code, rest⟩, hrest, hfiles⟩ := Option.bind_eq_some_iff.mp hfiles
      obtain ⟨rfl, rfl⟩ := Prod.mk.inj (Option.some.inj hfiles)
      rw [List.map_cons, ih hrest]

/-- The run in memory, if an `int` counts the files and the segments of each path. -/
theorem prepareInfoSection_of_counted (hrep : Represents m bencode v) (hv : infoDictOf v = some dict)
    (h : FilesShaped dict elems) (hmax : (elems.length : Int) ≤ intMax)
    (hpaths : ∀ e ∈ elems, PathCounted e) (info : InfoSection) :
    ∃ m' slots, prepareInfoSection m bencode info = some (0, m', info.withFiles dict elems slots) ∧
      List.Forall₂ (fun e f => fileSlot e = some f) elems slots := by
  obtain ⟨slots, hslots, hfill⟩ := files_filled h.shaped hmax
  have heq := prepareInfoSection_eq hrep hv h hpaths info
  rw [hfill, Option.map_some, Option.map_eq_some_iff] at heq
  obtain ⟨⟨code, m', info'⟩, hrun, hresult⟩ := heq
  obtain ⟨rfl, rfl⟩ := Prod.mk.inj hresult
  exact ⟨m', slots, hrun, hslots⟩

/-- There is no table of more files than an `int` counts. -/
theorem prepareInfoSection_of_overflow (hrep : Represents m bencode v)
    (hv : infoDictOf v = some dict) (h : FilesShaped dict elems)
    (hpaths : ∀ e ∈ elems, PathCounted e) (hne : elems ≠ []) (hneg : wrap32 elems.length < 0)
    (info : InfoSection) : prepareInfoSection m bencode info = none := by
  have halloc : allocate (wrap32 elems.length) sizeofFileInfo FileInfo.unset = [] :=
    allocate_neg hneg (fitsInt_wrap32 _).1 (by decide) (by decide) _
  have heq := prepareInfoSection_eq hrep hv h hpaths info
  rwa [halloc, through_fill_nil hne, Option.map_none, Option.map_eq_none_iff] at heq

/-- **The run in memory loads what the run on values loads**: the same name and the same files. -/
theorem prepareInfoSection_refines (hrep : Represents m bencode v) (hv : infoDictOf v = some dict)
    (h : FilesShaped dict elems) (hmax : (elems.length : Int) ≤ intMax)
    (hpaths : ∀ e ∈ elems, PathCounted e) (info : InfoSection) (info₀ : Torrent.InfoSection) :
    ∃ m' info' info₁, prepareInfoSection m bencode info = some (0, m', info') ∧
      Torrent.prepareInfoSection v info₀ = some (0, info₁) ∧ info'.fileName = info₁.fileName ∧
      info'.mode = info₁.mode ∧ info'.files = info₁.files.map FileInfo.ofFile := by
  obtain ⟨m', slots, hrun, hslots⟩ := prepareInfoSection_of_counted hrep hv h hmax hpaths info
  obtain ⟨metainfo, hmeta, hv⟩ := Option.bind_eq_some_iff.mp hv
  obtain ⟨bInfo, hinfo, hdict⟩ := Option.bind_eq_some_iff.mp hv
  obtain ⟨bPieceLength, hpiece⟩ := Option.ne_none_iff_exists'.mp h.pieceLength
  obtain ⟨bFiles, hfiles, helems⟩ := h.files
  obtain ⟨files, hloop⟩ := filesLoop_isSome h.shaped
  refine ⟨m', _, { info₀ with
    fileName := (stringAt dict nameKey).bind BencodeString.ptr
    pieces := none
    mode := .multiFile
    files := files }, hrun, ?_, rfl, rfl, files_eq_filesLoop hslots hloop⟩
  unfold Torrent.prepareInfoSection Torrent.readFiles
  simp only [hmeta, hinfo, hdict, hpiece, readName_of_typed h.wellTyped, hfiles, helems, hloop,
    Option.bind_eq_bind, Option.bind_some]

/-- The value has a well-typed info dictionary with a piece length and these files. -/
def FilesOf (v : BencodeValue) (elems : List BencodeValue) : Prop :=
  ∃ dict, infoDictOf v = some dict ∧ FilesShaped dict elems

/-- **The table of files mirrors the metainfo**, with lengths converted to `int`, if an `int` counts
the files and the segments of each path. -/
theorem mirrors_files (hrep : Represents m bencode v) (h : FilesOf v elems)
    (hmax : (elems.length : Int) ≤ intMax) (hpaths : ∀ e ∈ elems, PathCounted e)
    (info : InfoSection) : MirrorsFiles wrap32 m bencode elems info := by
  obtain ⟨dict, hv, h⟩ := h
  obtain ⟨m', slots, hrun, hslots⟩ := prepareInfoSection_of_counted hrep hv h hmax hpaths info
  refine ⟨m', _, hrun, ?_, ?_⟩
  · rw [InfoSection.withFiles, wrap32_natCast hmax]
  · exact ((List.forall₂_and_left _ _).mpr ⟨h.shaped, hslots⟩).imp fun e f hf =>
      mirrorsFile_of_fileSlot hf.1 hf.2

/-! ### Torrents of many files -/

/-- `"a"` -/
def segment : BencodeValue := .string ⟨some ⟨0, [97]⟩, 1⟩ 0 0

/-- A file of `n` bytes, the path of which is one segment. -/
def fileOf (n : Int) : BencodeValue :=
  .dict (dictWith [(lengthKey, .integer n 0 0), (pathKey, .list (List.replicate 1 segment) 0 0)]) 0 0

/-- An info dictionary with these files. -/
def infoWith (elems : List BencodeValue) : BencodeDict :=
  dictWith [(pieceLengthKey, .integer 16384 0 0), (filesKey, .list elems 0 0)]

/-- The files of a torrent of this kind are complete. -/
theorem fileShaped_fileOf (n : Int) : FileShaped (fileOf n) ∧ PathCounted (fileOf n) := by
  have hlength : Torrent.lookup (dictWith [(lengthKey, .integer n 0 0),
      (pathKey, .list (List.replicate 1 segment) 0 0)]) lengthKey = some (.integer n 0 0) := by
    rw [lookup_pair, if_neg (by decide), if_pos (by decide)]
  have hpath : Torrent.lookup (dictWith [(lengthKey, .integer n 0 0),
      (pathKey, .list (List.replicate 1 segment) 0 0)]) pathKey =
        some (.list (List.replicate 1 segment) 0 0) := by
    rw [lookup_pair, if_pos (by decide)]
  refine ⟨⟨_, rfl, ⟨_, hlength, rfl⟩, _, hpath, _, rfl, by simp, ?_⟩, ?_⟩
  · intro e he
    obtain rfl := List.eq_of_mem_replicate he
    rfl
  · intro file path segments hfile hfound hsegments
    obtain rfl := Option.some.inj hfile
    obtain rfl := Option.some.inj (hpath.symm.trans hfound)
    obtain rfl := Option.some.inj hsegments
    rw [List.length_replicate]
    decide

/-- A file of the right shape is of the right kind. -/
theorem fileTyped_of_fileShaped (he : FileShaped e) : FileTyped e := by
  obtain ⟨file, hfile, ⟨length, hlength, hint⟩, path, hpath, segments, hsegments, _, hstrings⟩ := he
  refine ⟨file, hfile, fun v hv => ?_, fun w hw => ⟨segments, ?_, hstrings⟩⟩
  · obtain rfl := Option.some.inj (hlength.symm.trans hv)
    exact hint
  · obtain rfl := Option.some.inj (hpath.symm.trans hw)
    exact hsegments

/-- Such a torrent has these files. -/
theorem filesOf_infoWith (helems : ∀ e ∈ elems, FileShaped e) :
    FilesOf (metainfoWith (infoWith elems)) elems := by
  have hpiece : Torrent.lookup (infoWith elems) pieceLengthKey = some (.integer 16384 0 0) := by
    rw [infoWith, lookup_pair, if_neg (by decide), if_pos (by decide)]
  have hfiles : Torrent.lookup (infoWith elems) filesKey = some (.list elems 0 0) := by
    rw [infoWith, lookup_pair, if_pos (by decide)]
  have hname : Torrent.lookup (infoWith elems) nameKey = none := by
    rw [infoWith, lookup_pair, if_neg (by decide), if_neg (by decide)]
  have hlength : Torrent.lookup (infoWith elems) lengthKey = none := by
    rw [infoWith, lookup_pair, if_neg (by decide), if_neg (by decide)]
  refine ⟨infoWith elems, infoDictOf_metainfoWith _, ⟨fun v hv => ?_, fun v hv => ?_,
    fun v hv => ?_, fun v hv => ?_⟩, by rw [hpiece]; simp, ⟨_, hfiles, rfl⟩, helems⟩
  · obtain rfl := Option.some.inj (hpiece.symm.trans hv)
    rfl
  · rw [hname] at hv
    cases hv
  · obtain rfl := Option.some.inj (hfiles.symm.trans hv)
    exact ⟨elems, rfl, fun e he => fileTyped_of_fileShaped (helems e he)⟩
  · rw [hlength] at hv
    cases hv

/-- Such a torrent is in some memory. -/
theorem exists_memory (n : Int) (k : Nat) (hk : k ≤ 2 ^ 32) :
    ∃ m, Represents m 8 (metainfoWith (infoWith (List.replicate k (fileOf n)))) := by
  obtain ⟨files, ps, hfiles, -⟩ := exists_list (List.replicate k 40) (by rwa [List.length_replicate])
  obtain ⟨path, ps', hpath, -⟩ := exists_list [64] (by decide)
  let cells : List (UInt64 × Object) := [(8, .dict (pointersWith [(infoKey, 16)])),
    (16, .dict (pointersWith [(pieceLengthKey, 24), (filesKey, 32)])), (24, .integer 16384),
    (32, .list files), (40, .dict (pointersWith [(lengthKey, 48), (pathKey, 56)])), (48, .integer n),
    (56, .list path), (64, .string ⟨some ⟨0, [97]⟩, 1⟩)]
  have haligned : ∀ c ∈ cells, c.1.toNat % 8 = 0 ∧ c.1 ≠ 0 := by
    simp [cells]
  let m := Memory.ofCells cells haligned
  have hsegment : Represents m 64 segment := .string rfl
  have hlength : Represents m 48 (.integer n 0 0) := .integer rfl
  have hpathList : Represents m 56 (.list (List.replicate 1 segment) 0 0) :=
    .replicate rfl hpath hsegment 0 0
  have hfile : Represents m 40 (fileOf n) :=
    .dictWith [(lengthKey, 48, .integer n 0 0), (pathKey, 56, .list (List.replicate 1 segment) 0 0)]
      rfl (List.forall_mem_cons.mpr ⟨hlength, List.forall_mem_singleton.mpr hpathList⟩) 0 0
  have hfileList : Represents m 32 (.list (List.replicate k (fileOf n)) 0 0) :=
    .replicate rfl hfiles hfile 0 0
  have hpiece : Represents m 24 (.integer 16384 0 0) := .integer rfl
  have hinfo : Represents m 16 (.dict (infoWith (List.replicate k (fileOf n))) 0 0) :=
    .dictWith [(pieceLengthKey, 24, .integer 16384 0 0),
      (filesKey, 32, .list (List.replicate k (fileOf n)) 0 0)] rfl
      (List.forall_mem_cons.mpr ⟨hpiece, List.forall_mem_singleton.mpr hfileList⟩) 0 0
  exact ⟨m, .dictWith [(infoKey, 16, .dict (infoWith (List.replicate k (fileOf n))) 0 0)] rfl
    (List.forall_mem_singleton.mpr hinfo) 0 0⟩

/-- An info section before loading. -/
def unloaded : InfoSection := ⟨0, none, .singleFile, none, 0, []⟩

/-- Files that are alike. -/
theorem filesOf_replicate (n : Int) (k : Nat) :
    FilesOf (metainfoWith (infoWith (List.replicate k (fileOf n)))) (List.replicate k (fileOf n)) ∧
      ∀ e ∈ List.replicate k (fileOf n), FileShaped e ∧ PathCounted e := by
  have hall : ∀ e ∈ List.replicate k (fileOf n), FileShaped e ∧ PathCounted e := by
    intro e he
    obtain rfl := List.eq_of_mem_replicate he
    exact fileShaped_fileOf n
  exact ⟨filesOf_infoWith fun e he => (hall e he).1, hall⟩

/-- A string of one byte. -/
def segmentOf (c : UInt8) : BencodeValue := .string ⟨some ⟨0, [c]⟩, 1⟩ 0 0

/-- A file of seven bytes, the path of which is `"b"` and `"c"`. -/
def otherFile : BencodeValue :=
  .dict (dictWith [(lengthKey, .integer 7 0 0), (pathKey, .list [segmentOf 98, segmentOf 99] 0 0)]) 0 0

/-- It is complete. -/
theorem fileShaped_otherFile : FileShaped otherFile ∧ PathCounted otherFile := by
  have hlength : Torrent.lookup (dictWith [(lengthKey, .integer 7 0 0),
      (pathKey, .list [segmentOf 98, segmentOf 99] 0 0)]) lengthKey = some (.integer 7 0 0) := by
    rw [lookup_pair, if_neg (by decide), if_pos (by decide)]
  have hpath : Torrent.lookup (dictWith [(lengthKey, .integer 7 0 0),
      (pathKey, .list [segmentOf 98, segmentOf 99] 0 0)]) pathKey =
        some (.list [segmentOf 98, segmentOf 99] 0 0) := by
    rw [lookup_pair, if_pos (by decide)]
  refine ⟨⟨_, rfl, ⟨_, hlength, rfl⟩, _, hpath, _, rfl, by simp, ?_⟩, ?_⟩
  · simp [segmentOf, stringOf]
  · intro file path segments hfile hfound hsegments
    obtain rfl := Option.some.inj hfile
    obtain rfl := Option.some.inj (hpath.symm.trans hfound)
    obtain rfl := Option.some.inj hsegments
    decide

/-- A torrent of both files is in some memory. -/
theorem exists_memory_both :
    ∃ m, Represents m 8 (metainfoWith (infoWith [fileOf 5, otherFile])) := by
  obtain ⟨files, ps, hfiles, -⟩ := exists_list [40, 72] (by decide)
  obtain ⟨path, ps', hpath, -⟩ := exists_list [64] (by decide)
  obtain ⟨path', ps'', hpath', -⟩ := exists_list [96, 104] (by decide)
  let cells : List (UInt64 × Object) := [(8, .dict (pointersWith [(infoKey, 16)])),
    (16, .dict (pointersWith [(pieceLengthKey, 24), (filesKey, 32)])), (24, .integer 16384),
    (32, .list files), (40, .dict (pointersWith [(lengthKey, 48), (pathKey, 56)])), (48, .integer 5),
    (56, .list path), (64, .string ⟨some ⟨0, [97]⟩, 1⟩),
    (72, .dict (pointersWith [(lengthKey, 80), (pathKey, 88)])), (80, .integer 7), (88, .list path'),
    (96, .string ⟨some ⟨0, [98]⟩, 1⟩), (104, .string ⟨some ⟨0, [99]⟩, 1⟩)]
  have haligned : ∀ c ∈ cells, c.1.toNat % 8 = 0 ∧ c.1 ≠ 0 := by
    simp [cells]
  let m := Memory.ofCells cells haligned
  have hpathList : Represents m 56 (.list (List.replicate 1 segment) 0 0) :=
    .ofPointers rfl hpath (.cons (.string rfl) .nil) 0 0
  have hpathList' : Represents m 88 (.list [segmentOf 98, segmentOf 99] 0 0) :=
    .ofPointers rfl hpath' (.cons (.string rfl) (.cons (.string rfl) .nil)) 0 0
  have hfile : Represents m 40 (fileOf 5) :=
    .dictWith [(lengthKey, 48, .integer 5 0 0), (pathKey, 56, .list (List.replicate 1 segment) 0 0)]
      rfl (List.forall_mem_cons.mpr ⟨.integer rfl, List.forall_mem_singleton.mpr hpathList⟩) 0 0
  have hfile' : Represents m 72 otherFile :=
    .dictWith [(lengthKey, 80, .integer 7 0 0), (pathKey, 88, .list [segmentOf 98, segmentOf 99] 0 0)]
      rfl (List.forall_mem_cons.mpr ⟨.integer rfl, List.forall_mem_singleton.mpr hpathList'⟩) 0 0
  have hfileList : Represents m 32 (.list [fileOf 5, otherFile] 0 0) :=
    .ofPointers rfl hfiles (.cons hfile (.cons hfile' .nil)) 0 0
  have hinfo : Represents m 16 (.dict (infoWith [fileOf 5, otherFile]) 0 0) :=
    .dictWith [(pieceLengthKey, 24, .integer 16384 0 0), (filesKey, 32, .list [fileOf 5, otherFile] 0 0)]
      rfl (List.forall_mem_cons.mpr ⟨.integer rfl, List.forall_mem_singleton.mpr hfileList⟩) 0 0
  exact ⟨m, .dictWith [(infoKey, 16, .dict (infoWith [fileOf 5, otherFile]) 0 0)] rfl
    (List.forall_mem_singleton.mpr hinfo) 0 0⟩

/-- Two files, of different lengths and with different paths. -/
theorem mirrors_files_example :
    ∃ m, Represents m 8 (metainfoWith (infoWith [fileOf 5, otherFile])) ∧
      MirrorsFiles wrap32 m 8 [fileOf 5, otherFile] unloaded := by
  obtain ⟨m, hrep⟩ := exists_memory_both
  have hall : ∀ e ∈ [fileOf 5, otherFile], FileShaped e ∧ PathCounted e :=
    List.forall_mem_cons.mpr ⟨fileShaped_fileOf 5, List.forall_mem_singleton.mpr fileShaped_otherFile⟩
  exact ⟨m, hrep, mirrors_files hrep (filesOf_infoWith fun e he => (hall e he).1) (by decide)
    (fun e he => (hall e he).2) unloaded⟩

/-- **The lengths are converted to `int`, and the files are counted in one.** A file of 3000000000
bytes is not mirrored as it is, and of `2 ^ 31` files there is no table. -/
theorem not_mirrors_files :
    (∃ m v, Represents m 8 v ∧ FilesOf v [fileOf 3000000000] ∧
      ¬ MirrorsFiles id m 8 [fileOf 3000000000] unloaded) ∧
    ∃ m v, Represents m 8 v ∧ FilesOf v (List.replicate (2 ^ 31) (fileOf 5)) ∧
      ¬ MirrorsFiles id m 8 (List.replicate (2 ^ 31) (fileOf 5)) unloaded := by
  constructor
  · obtain ⟨m, hrep⟩ := exists_memory 3000000000 1 (by decide)
    obtain ⟨h, hall⟩ := filesOf_replicate 3000000000 1
    refine ⟨m, _, hrep, h, ?_⟩
    rintro ⟨m', info', hrun, -, hmirror⟩
    obtain ⟨dict, hv, hshaped⟩ := h
    obtain ⟨m'', slots, hrun', hslots⟩ := prepareInfoSection_of_counted hrep hv hshaped (by decide)
      (fun e he => (hall e he).2) unloaded
    obtain ⟨-, hinfo⟩ := Prod.mk.inj (Option.some.inj (hrun.symm.trans hrun'))
    obtain rfl := (Prod.mk.inj hinfo).2
    obtain ⟨f, rest, hf, -, rfl⟩ := List.forall₂_cons_left_iff.mp hslots
    obtain ⟨f', rest', hexact, -, heq⟩ := List.forall₂_cons_left_iff.mp hmirror
    obtain ⟨rfl, -⟩ := List.cons.inj heq
    obtain ⟨file, n, -, -, hfile, hn, -, -, hlength, -⟩ := hexact
    obtain ⟨file', n', -, -, hfile', hn', -, -, hlength', -⟩ :=
      mirrorsFile_of_fileSlot (hall _ List.mem_cons_self).1 hf
    obtain rfl := Option.some.inj (hfile.symm.trans hfile')
    obtain rfl := Option.some.inj (hn.symm.trans hn')
    -- the length is not an `int`
    have hfits : wrap32 n = n := Option.some.inj (hlength'.symm.trans hlength)
    obtain rfl := Option.some.inj hfile
    have hvalue : integerAt (dictWith [(lengthKey, .integer 3000000000 0 0),
        (pathKey, .list (List.replicate 1 segment) 0 0)]) lengthKey = some 3000000000 := by
      rw [integerAt, lookup_pair, if_neg (by decide), if_pos (by decide)]
      rfl
    obtain rfl := Option.some.inj (hvalue.symm.trans hn)
    exact absurd hfits (by decide)
  · obtain ⟨m, hrep⟩ := exists_memory 5 (2 ^ 31) (by decide)
    obtain ⟨h, hall⟩ := filesOf_replicate 5 (2 ^ 31)
    refine ⟨m, _, hrep, h, ?_⟩
    rintro ⟨m', info', hrun, -⟩
    obtain ⟨dict, hv, hshaped⟩ := h
    have hneg : wrap32 (List.replicate (2 ^ 31) (fileOf 5)).length < 0 := by
      rw [List.length_replicate]
      decide
    have hne : List.replicate (2 ^ 31) (fileOf 5) ≠ [] := List.ne_nil_of_length_pos (by
      rw [List.length_replicate]
      decide)
    have hstop := prepareInfoSection_of_overflow hrep hv hshaped (fun e he => (hall e he).2) hne hneg
      unloaded
    rw [hstop] at hrun
    cases hrun

end Flood.Torrent.Heap
