import Flood.Torrent.Shape

/-!
# The scalar fields of the info section

* `WellTyped dict` — an info dictionary whose values are of the kinds the loader reads, as far as they
  are there; `Complete dict` — what else it asks for is there.
* `LoadsScalars v dict info` — `prepare_info_section` loads the fields as they are in the dictionary,
  and fails if there is no piece length.
* `loads_scalars_iff` — it does so only if the piece length is there, which it does not load: the test
  of the lookup is the wrong way round.
-/

namespace Flood.Torrent

open Flood.Lib Flood.Hashtable Flood.Bencode

variable {v : BencodeValue} {dict : BencodeDict} {info : InfoSection}

/-! ## Types -/

/-- The value of a key, if there is one, is an integer. -/
def IntegerAt (dict : BencodeDict) (key : List UInt8) : Prop :=
  ∀ v, lookup dict key = some v → (integerOf v).isSome

/-- A dictionary with a length that is an integer and a path that is a list of strings, as far as they
are there. -/
def FileTyped (v : BencodeValue) : Prop :=
  ∃ file, dictOf v = some file ∧ IntegerAt file lengthKey ∧
    ∀ path, lookup file pathKey = some path →
      ∃ segments, listOf path = some segments ∧ ∀ e ∈ segments, (stringOf e).isSome

/-- What the loader reads of an info dictionary is of the right kind, as far as it is there. -/
structure WellTyped (dict : BencodeDict) : Prop where
  /-- A piece length is an integer. -/
  pieceLength : IntegerAt dict pieceLengthKey
  /-- A name is a string. -/
  name : ∀ v, lookup dict nameKey = some v → (stringOf v).isSome
  /-- Files are a list of dictionaries. -/
  files : ∀ v, lookup dict filesKey = some v → ∃ elems, listOf v = some elems ∧ ∀ f ∈ elems, FileTyped f
  /-- A length is an integer. -/
  length : IntegerAt dict lengthKey

/-- There are files, each with a length and a path, or there is the length of one. -/
structure Complete (dict : BencodeDict) : Prop where
  /-- The files are complete. -/
  files : ∀ v, lookup dict filesKey = some v → ∃ elems, listOf v = some elems ∧ ∀ f ∈ elems, FileShaped f
  /-- Without files there is a length. -/
  length : lookup dict filesKey = none → lookup dict lengthKey ≠ none

/-- The integer under a key. -/
def integerAt (dict : BencodeDict) (key : List UInt8) : Option Int := (lookup dict key).bind integerOf

/-- The string under a key. -/
def stringAt (dict : BencodeDict) (key : List UInt8) : Option BencodeString := (lookup dict key).bind stringOf

/-- The info dictionary of a metainfo file. -/
def infoDictOf (v : BencodeValue) : Option BencodeDict := do
  let dict ← dictOf v
  let bInfo ← lookup dict infoKey
  dictOf bInfo

/-- The fields are loaded as they are in the dictionary. -/
structure ScalarsOf (dict : BencodeDict) (info : InfoSection) : Prop where
  /-- The piece length. -/
  pieceLength : integerAt dict pieceLengthKey = some info.pieceLength
  /-- The name, or `NULL`. -/
  fileName : info.fileName = (stringAt dict nameKey).bind BencodeString.ptr
  /-- There are files or there are none. -/
  mode : info.mode = .multiFile ↔ lookup dict filesKey ≠ none
  /-- The length of the only file. -/
  fileLength : info.mode = .singleFile → integerAt dict lengthKey = some info.fileLength

/-- A metainfo file with this info dictionary is loaded field by field if it has a piece length, and is
rejected if it has none. -/
structure LoadsScalars (v : BencodeValue) (dict : BencodeDict) (info : InfoSection) : Prop where
  /-- What is loaded under code `0` are the fields. -/
  loaded : integerAt dict pieceLengthKey ≠ none →
    ∀ info', prepareInfoSection v info = some (0, info') → ScalarsOf dict info'
  /-- Without a piece length nothing is read that was not found, and the code is not `0`. -/
  rejected : lookup dict pieceLengthKey = none →
    ∃ code info', prepareInfoSection v info = some (code, info') ∧ code ≠ 0

/-! ## Reading -/

/-- A key that is not there has no integer, and of one that is there it is read. -/
theorem IntegerAt.cases {key : List UInt8} (h : IntegerAt dict key) :
    lookup dict key = none ∧ integerAt dict key = none ∨
      ∃ v n, lookup dict key = some v ∧ integerOf v = some n ∧ integerAt dict key = some n := by
  unfold integerAt
  cases hfound : lookup dict key with
  | none => exact Or.inl ⟨rfl, rfl⟩
  | some v =>
      obtain ⟨n, hn⟩ := Option.isSome_iff_exists.mp (h v hfound)
      exact Or.inr ⟨v, n, rfl, hn, by rw [Option.bind_some, hn]⟩

/-- A file of the right kind is read, if it is complete. -/
theorem readFileInfo_of_typed (h : FileTyped v) :
    ∃ file, readFileInfo v = some file ∧ (file.isSome ↔ FileShaped v) := by
  by_cases hshaped : FileShaped v
  · obtain ⟨file, hfile⟩ := readFileInfo_isSome hshaped
    exact ⟨some file, hfile, iff_of_true rfl hshaped⟩
  · refine ⟨none, ?_, iff_of_false Bool.false_ne_true hshaped⟩
    obtain ⟨file, hdict, hlength, hpath⟩ := h
    unfold readFileInfo
    rw [hdict, Option.bind_eq_bind, Option.bind_some]
    rcases hlength.cases with ⟨hnone, -⟩ | ⟨bFileLength, n, hfound, hn, -⟩
    · rw [hnone]
    · rw [hfound]
      dsimp only
      rw [hn, Option.bind_eq_bind, Option.bind_some]
      cases hpathFound : lookup file pathKey with
      | none => rfl
      | some bPathList =>
          obtain ⟨segments, hsegments, hstrings⟩ := hpath bPathList hpathFound
          dsimp only
          rw [hsegments, Option.bind_eq_bind, Option.bind_some]
          refine if_pos ?_
          -- a path that is not empty would make the file complete
          by_contra hne
          exact hshaped ⟨file, hdict, ⟨bFileLength, hfound, by rw [hn]; rfl⟩, bPathList, hpathFound,
            segments, hsegments, hne, hstrings⟩

/-- Files of the right kind are read, with code `0` if they are complete. -/
theorem filesLoop_of_typed {elems : List BencodeValue} (h : ∀ f ∈ elems, FileTyped f) :
    ∃ code files, filesLoop elems = some (code, files) ∧ (code = 0 ↔ ∀ f ∈ elems, FileShaped f) := by
  induction elems with
  | nil => exact ⟨0, [], rfl, iff_of_true rfl fun f hf => absurd hf List.not_mem_nil⟩
  | cons f rest ih =>
      obtain ⟨file, hfile, hshaped⟩ := readFileInfo_of_typed (h f List.mem_cons_self)
      obtain ⟨code, files, hrest, hcode⟩ := ih fun f' hf' => h f' (List.mem_cons_of_mem f hf')
      rw [filesLoop, hfile, List.forall_mem_cons]
      cases file with
      | none =>
          exact ⟨-1, [], rfl, iff_of_false (by decide) fun hall =>
            Bool.false_ne_true (hshaped.mpr hall.1)⟩
      | some file =>
          refine ⟨code, file :: files, ?_, ?_⟩
          · rw [hrest]
            rfl
          · rw [hcode, and_iff_right (hshaped.mp rfl)]

/-- The files or the length of the only one are read, with code `0` if they are complete. -/
theorem readFiles_of_typed (h : WellTyped dict) (info : InfoSection) :
    ∃ code info', readFiles dict info = some (code, info') ∧ (code = 0 ↔ Complete dict) ∧
      info'.pieceLength = info.pieceLength ∧ info'.fileName = info.fileName ∧
      (info'.mode = .multiFile ↔ lookup dict filesKey ≠ none) ∧
      (lookup dict filesKey = none → ∀ n, integerAt dict lengthKey = some n → info'.fileLength = wrap32 n) := by
  unfold readFiles
  cases hfiles : lookup dict filesKey with
  | some bFiles =>
      obtain ⟨elems, helems, htyped⟩ := h.files bFiles hfiles
      obtain ⟨code, files, hloop, hcode⟩ := filesLoop_of_typed htyped
      have hcomplete : code = 0 ↔ Complete dict := by
        rw [hcode]
        constructor
        · intro hall
          refine ⟨fun v hv => ?_, fun hnone => absurd (hnone.symm.trans hfiles) (by simp)⟩
          obtain rfl := Option.some.inj (hfiles.symm.trans hv)
          exact ⟨elems, helems, hall⟩
        · intro hall
          obtain ⟨elems', helems', hshaped⟩ := hall.files bFiles hfiles
          obtain rfl := Option.some.inj (helems.symm.trans helems')
          exact hshaped
      refine ⟨code, { info with mode := .multiFile, files := files }, ?_, hcomplete, rfl, rfl, ?_, ?_⟩
      · simp only [helems, hloop, Option.bind_eq_bind, Option.bind_some]
      · simp
      · simp
  | none =>
      rcases h.length.cases with ⟨hnone, hint⟩ | ⟨bFileLength, n, hfound, hn, hint⟩
      · refine ⟨-1, { info with mode := .singleFile }, ?_, ?_, rfl, rfl, ?_, fun _ n hn => ?_⟩
        · simp only [hnone]
        · exact iff_of_false (by decide) fun hall => hall.length hfiles hnone
        · simp
        · rw [hint] at hn
          cases hn
      · refine ⟨0, { info with mode := .singleFile, fileLength := wrap32 n }, ?_, ?_, rfl, rfl, ?_,
          fun _ n' hn' => ?_⟩
        · simp only [hfound, hn, Option.bind_eq_bind, Option.bind_some]
        · refine iff_of_true rfl ⟨fun v hv => ?_, fun _ => by rw [hfound]; simp⟩
          rw [hfiles] at hv
          cases hv
        · simp
        · rw [hint] at hn'
          obtain rfl := Option.some.inj hn'
          rfl

/-- The name is read. -/
theorem readName_of_typed (h : WellTyped dict) :
    readName dict = some ((stringAt dict nameKey).bind BencodeString.ptr) := by
  unfold readName stringAt
  cases hfound : lookup dict nameKey with
  | none => rfl
  | some bName =>
      obtain ⟨str, hstr⟩ := Option.isSome_iff_exists.mp (h.name bName hfound)
      simp only [hstr, Option.bind_eq_bind, Option.bind_some]

/-- **When the scalar fields are loaded.** A well-typed info dictionary is loaded field by field, or
rejected for want of a piece length, iff it has a piece length and, if nothing else is missing, the
struct already held it and the length of the only file is an `int`. -/
theorem loads_scalars_iff (hv : infoDictOf v = some dict) (h : WellTyped dict) (info : InfoSection) :
    LoadsScalars v dict info ↔ ∃ n, integerAt dict pieceLengthKey = some n ∧ (Complete dict →
      info.pieceLength = n ∧
        ∀ len, lookup dict filesKey = none → integerAt dict lengthKey = some len → FitsInt len) := by
  obtain ⟨metainfo, hmeta, hv⟩ := Option.bind_eq_some_iff.mp hv
  obtain ⟨bInfo, hfound, hdict⟩ := Option.bind_eq_some_iff.mp hv
  rcases h.pieceLength.cases with ⟨hnone, hint⟩ | ⟨bPieceLength, n, hpiece, hn, hint⟩
  · -- the pointer that was not set is followed
    have hmisread : prepareInfoSection v info = none := by
      unfold prepareInfoSection
      simp only [hmeta, hfound, hdict, hnone, Option.bind_eq_bind, Option.bind_some]
    refine iff_of_false (fun hload => ?_) ?_
    · obtain ⟨code, info', hread, -⟩ := hload.rejected hnone
      rw [hmisread] at hread
      cases hread
    · rintro ⟨n, hn, -⟩
      rw [hint] at hn
      cases hn
  · obtain ⟨code, info', hread, hcode, hlength, hname, hmode, hfile⟩ := readFiles_of_typed h
      { info with fileName := (stringAt dict nameKey).bind BencodeString.ptr, pieces := none }
    have hprepare : prepareInfoSection v info = some (code, info') := by
      unfold prepareInfoSection
      simp only [hmeta, hfound, hdict, hpiece, readName_of_typed h, hread, Option.bind_eq_bind,
        Option.bind_some]
    have hsingle : info'.mode = .singleFile ↔ lookup dict filesKey = none := by
      have hnot : info'.mode = .multiFile ↔ ¬ lookup dict filesKey = none := hmode
      rw [← not_iff_not, ← hnot]
      cases info'.mode <;> simp
    constructor
    · intro hload
      refine ⟨n, hint, fun hcomplete => ?_⟩
      rw [hcode.mpr hcomplete] at hprepare
      have hscalars := hload.loaded (by rw [hint]; simp) info' hprepare
      refine ⟨?_, fun len hfiles hlen => ?_⟩
      · rw [← hlength, Option.some.inj (hint.symm.trans hscalars.pieceLength)]
      · have hstored := hscalars.fileLength (hsingle.mpr hfiles)
        rw [hfile hfiles len hlen, hlen] at hstored
        exact wrap32_eq_self_iff.mp (Option.some.inj hstored).symm
    · rintro ⟨n', hint', hcond⟩
      obtain rfl := Option.some.inj (hint.symm.trans hint')
      refine ⟨fun _ info₁ hzero => ?_, fun hnone => ?_⟩
      · rw [hprepare] at hzero
        obtain ⟨rfl, rfl⟩ := Prod.mk.inj (Option.some.inj hzero)
        have hcomplete := hcode.mp rfl
        obtain ⟨hsame, hfits⟩ := hcond hcomplete
        refine ⟨?_, hname, hmode, fun hmode' => ?_⟩
        · rw [hint, hlength, hsame]
        · have hfiles := hsingle.mp hmode'
          rcases h.length.cases with ⟨hnone, -⟩ | ⟨bLength, len, -, -, hlen⟩
          · exact absurd hnone (hcomplete.length hfiles)
          · rw [hlen, hfile hfiles len hlen, wrap32_of_fits (hfits len hfiles hlen)]
      · rw [hpiece] at hnone
        cases hnone

/-- A dictionary with these entries. -/
def dictWith (entries : List (List UInt8 × BencodeValue)) : BencodeDict :=
  entries.foldl (fun dict e => dict.put hashFuncStr cmpFuncStr ⟨1, e.1⟩ e.2) Table.init

/-- A metainfo file with this info dictionary. -/
def metainfoWith (dict : BencodeDict) : BencodeValue := .dict (dictWith [(infoKey, .dict dict 0 0)]) 0 0

/-- It has this info dictionary. -/
theorem infoDictOf_metainfoWith (dict : BencodeDict) : infoDictOf (metainfoWith dict) = some dict := by
  have hget := Table.WF.init.get_put strKeys_lawful ⟨1, infoKey⟩ ⟨0, infoKey⟩ (BencodeValue.dict dict 0 0)
  have hsame : cmpFuncStr ⟨0, infoKey⟩ ⟨1, infoKey⟩ = 0 := by decide
  rw [if_pos hsame] at hget
  unfold infoDictOf metainfoWith dictWith lookup
  rw [dictOf, Option.bind_eq_bind, Option.bind_some, List.foldl_cons, List.foldl_nil, hget,
    Option.bind_eq_bind, Option.bind_some, dictOf]

/-- The info dictionary of one file of five bytes, with pieces of 16384. -/
def oneFile : BencodeDict := dictWith [(lengthKey, .integer 5 0 0), (pieceLengthKey, .integer 16384 0 0)]

/-- Its values are of the right kind. -/
theorem wellTyped_oneFile : WellTyped oneFile := by
  have hinteger : ∀ key ∈ [pieceLengthKey, lengthKey],
      (lookup oneFile key).map (fun v => (integerOf v).isSome) = some true := by
    decide +kernel
  have hnone : ∀ key ∈ [nameKey, filesKey], (lookup oneFile key).isNone = true := by
    decide +kernel
  have htyped : ∀ key ∈ [pieceLengthKey, lengthKey], IntegerAt oneFile key := by
    intro key hkey v hv
    have hmap := hinteger key hkey
    rw [hv] at hmap
    exact Option.some.inj hmap
  have habsent : ∀ key ∈ [nameKey, filesKey], ∀ v, lookup oneFile key ≠ some v := by
    intro key hkey v hv
    have hmissing := hnone key hkey
    rw [hv] at hmissing
    exact Bool.false_ne_true hmissing
  refine ⟨htyped _ (by simp), fun v hv => ?_, fun v hv => ?_, htyped _ (by simp)⟩
  · exact absurd hv (habsent _ (by simp) v)
  · exact absurd hv (habsent _ (by simp) v)

/-- A metainfo file of one file, loaded into a struct that holds nothing. -/
theorem loads_scalars_iff_example :
    LoadsScalars (metainfoWith oneFile) oneFile unloaded.info ↔
      ∃ n, integerAt oneFile pieceLengthKey = some n ∧ (Complete oneFile →
        unloaded.info.pieceLength = n ∧
          ∀ len, lookup oneFile filesKey = none → integerAt oneFile lengthKey = some len →
            FitsInt len) :=
  loads_scalars_iff (infoDictOf_metainfoWith oneFile) wellTyped_oneFile unloaded.info

/-- Of this file the piece length is not loaded. -/
theorem piece_length_not_loaded :
    infoDictOf (metainfoWith oneFile) = some oneFile ∧ WellTyped oneFile ∧
      ¬ LoadsScalars (metainfoWith oneFile) oneFile unloaded.info := by
  refine ⟨infoDictOf_metainfoWith oneFile, wellTyped_oneFile, fun hload => ?_⟩
  have hint : integerAt oneFile pieceLengthKey = some 16384 := by decide +kernel
  have hread : (prepareInfoSection (metainfoWith oneFile) unloaded.info).map
      (fun r => (r.1, r.2.pieceLength)) = some (0, 0) := by
    decide +kernel
  obtain ⟨⟨code, info'⟩, hprepare, hfields⟩ := Option.map_eq_some_iff.mp hread
  obtain ⟨rfl, hlength⟩ := Prod.mk.inj hfields
  have hscalars := hload.loaded (by rw [hint]; simp) info' hprepare
  have hsame := hscalars.pieceLength
  rw [hint] at hsame
  have hzero : info'.pieceLength = 0 := hlength
  rw [hzero] at hsame
  exact absurd (Option.some.inj hsame) (by decide)

end Flood.Torrent
