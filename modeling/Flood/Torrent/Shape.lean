import Flood.Torrent.Load

/-!
# What loading a torrent reads

* `MetainfoShaped dict` — the dictionary of a metainfo file as the loader takes it to be.
* `LoadsSafely` — a file that parses is loaded without reading a member that a value does not hold,
  and one of another shape makes loading fail.
* `loads_safely_iff` — this holds exactly if the top level is a dictionary that has no info section or
  is of that shape: the loader checks nothing but that there is one.
-/

namespace Flood.Torrent

open Flood.Lib Flood.Hashtable Flood.Bencode

variable {sha1 : List UInt8 → List UInt8} {beyond : Nat → Option UInt8} {place : Nat → Addr}
  {data : List UInt8} {dict : BencodeDict} {v : BencodeValue} {t : TorrentT} {info : InfoSection}

/-! ## Shapes -/

/-- A list of strings, one at least. -/
def SomeStrings (v : BencodeValue) : Prop :=
  ∃ elems, listOf v = some elems ∧ elems ≠ [] ∧ ∀ e ∈ elems, (stringOf e).isSome

/-- A file: its length, and its path. -/
def FileShaped (v : BencodeValue) : Prop :=
  ∃ file, dictOf v = some file ∧
    (∃ length, lookup file lengthKey = some length ∧ (integerOf length).isSome) ∧
    ∃ path, lookup file pathKey = some path ∧ SomeStrings path

/-- An info section: a piece length, perhaps a name, and either files or the length of one. -/
structure InfoShaped (dict : BencodeDict) : Prop where
  /-- There is a piece length. -/
  pieceLength : ∃ v, lookup dict pieceLengthKey = some v ∧ (integerOf v).isSome
  /-- There may be a name. -/
  name : ∀ v, lookup dict nameKey = some v → (stringOf v).isSome
  /-- There may be files. -/
  files : ∀ v, lookup dict filesKey = some v →
    ∃ elems, listOf v = some elems ∧ ∀ f ∈ elems, FileShaped f
  /-- If there are none, there is a length. -/
  length : lookup dict filesKey = none →
    ∃ v, lookup dict lengthKey = some v ∧ (integerOf v).isSome

/-- A metainfo file: perhaps trackers, and an info section. -/
structure MetainfoShaped (dict : BencodeDict) : Prop where
  /-- There may be lists of trackers. -/
  announceList : ∀ v, lookup dict announceListKey = some v →
    ∃ sublists, listOf v = some sublists ∧ ∀ l ∈ sublists, SomeStrings l
  /-- There may be a tracker. -/
  announce : ∀ v, lookup dict announceKey = some v → (stringOf v).isSome
  /-- There is an info section. -/
  info : ∃ v infoDict, lookup dict infoKey = some v ∧ dictOf v = some infoDict ∧ InfoShaped infoDict

/-- The value of a metainfo file. -/
def WellShaped (v : BencodeValue) : Prop := ∃ dict, dictOf v = some dict ∧ MetainfoShaped dict

/-- Loading a file that parses returns, and fails if the file is not of the shape of a metainfo
file. -/
def LoadsSafely (sha1 : List UInt8 → List UInt8) (beyond : Nat → Option UInt8) (place : Nat → Addr)
    (data : List UInt8) (t : TorrentT) : Prop :=
  ∀ v pos, bencodeParse (memory data beyond) (wrap32 data.length) place = .ok v pos →
    ∃ code t', torrentInitFromFile sha1 beyond place (some data) t = .returned code t' ∧
      (¬ WellShaped v → code ≠ 0)

/-! ## Reading values of the right shape -/

/-- A list whose elements can all be read. -/
theorem mapM_isSome {α β : Type} {f : α → Option β} {xs : List α} (h : ∀ x ∈ xs, (f x).isSome) :
    (xs.mapM f).isSome := by
  induction xs with
  | nil => rfl
  | cons x xs ih =>
      obtain ⟨y, hy⟩ := Option.isSome_iff_exists.mp (h x List.mem_cons_self)
      obtain ⟨ys, hys⟩ := Option.isSome_iff_exists.mp
        (ih fun x' hx' => h x' (List.mem_cons_of_mem x hx'))
      rw [List.mapM_cons, hy, hys]
      rfl

/-- An element of the announce list. -/
theorem trackerUrl_isSome (h : SomeStrings v) : (trackerUrl v).isSome := by
  obtain ⟨elems, helems, hne, hstrings⟩ := h
  obtain ⟨url, rest, rfl⟩ := List.exists_cons_of_ne_nil hne
  obtain ⟨str, hstr⟩ := Option.isSome_iff_exists.mp (hstrings url List.mem_cons_self)
  unfold trackerUrl
  rw [helems, Option.bind_eq_bind, Option.bind_some, List.head?_cons, Option.bind_eq_bind,
    Option.bind_some, hstr]
  rfl

/-- The trackers of a metainfo file. -/
theorem prepareTrackers_isSome (hv : dictOf v = some dict) (h : MetainfoShaped dict)
    (t : TorrentT) : ∃ t', prepareTrackers v t = some t' := by
  have hlisted : (announceListUrls dict).isSome := by
    unfold announceListUrls
    split
    next announceList hfound =>
      obtain ⟨sublists, hsublists, hall⟩ := h.announceList announceList hfound
      rw [hsublists]
      exact mapM_isSome fun l hl => trackerUrl_isSome (hall l hl)
    next => rfl
  have hannounced : (announceUrls dict).isSome := by
    unfold announceUrls
    split
    next announce hfound =>
      obtain ⟨str, hstr⟩ := Option.isSome_iff_exists.mp (h.announce announce hfound)
      rw [hstr]
      rfl
    next => rfl
  obtain ⟨listed, hlisted⟩ := Option.isSome_iff_exists.mp hlisted
  obtain ⟨announced, hannounced⟩ := Option.isSome_iff_exists.mp hannounced
  unfold prepareTrackers
  simp only [hv, hlisted, hannounced, Option.bind_eq_bind, Option.bind_some]
  exact ⟨_, rfl⟩

/-- A file of the right shape is read. -/
theorem readFileInfo_isSome (h : FileShaped v) : ∃ file, readFileInfo v = some (some file) := by
  obtain ⟨file, hfile, ⟨length, hlength, hint⟩, path, hpath, segments, hsegments, hne, hstrings⟩ := h
  obtain ⟨n, hn⟩ := Option.isSome_iff_exists.mp hint
  obtain ⟨strs, hstrs⟩ := Option.isSome_iff_exists.mp (mapM_isSome hstrings)
  unfold readFileInfo
  simp only [hfile, hlength, hn, hpath, hsegments, hstrs, Option.bind_eq_bind, Option.bind_some,
    if_neg hne]
  exact ⟨_, rfl⟩

/-- Files of the right shape are read. -/
theorem filesLoop_isSome {elems : List BencodeValue} (h : ∀ f ∈ elems, FileShaped f) :
    ∃ files, filesLoop elems = some (0, files) := by
  induction elems with
  | nil => exact ⟨[], rfl⟩
  | cons f rest ih =>
      obtain ⟨file, hfile⟩ := readFileInfo_isSome (h f List.mem_cons_self)
      obtain ⟨files, hfiles⟩ := ih fun f' hf' => h f' (List.mem_cons_of_mem f hf')
      rw [filesLoop, hfile, hfiles]
      exact ⟨_, rfl⟩

/-- The info section of a metainfo file is read, with code `0`. -/
theorem prepareInfoSection_isSome (hv : dictOf v = some dict) (h : MetainfoShaped dict)
    (info : InfoSection) : ∃ info', prepareInfoSection v info = some (0, info') := by
  obtain ⟨bInfo, infoDict, hfound, hdict, hinfo⟩ := h.info
  obtain ⟨bPieceLength, hpiece, -⟩ := hinfo.pieceLength
  have hname : ∃ name, readName infoDict = some name := by
    unfold readName
    split
    next bName hfound =>
      obtain ⟨str, hstr⟩ := Option.isSome_iff_exists.mp (hinfo.name bName hfound)
      rw [hstr]
      exact ⟨_, rfl⟩
    next => exact ⟨none, rfl⟩
  have hfiles : ∀ info, ∃ info', readFiles infoDict info = some (0, info') := by
    intro info
    unfold readFiles
    split
    next bFiles hfound =>
      obtain ⟨elems, helems, hall⟩ := hinfo.files bFiles hfound
      obtain ⟨files, hfiles⟩ := filesLoop_isSome hall
      rw [helems, Option.bind_eq_bind, Option.bind_some, hfiles]
      exact ⟨_, rfl⟩
    next hnone =>
      obtain ⟨bFileLength, hlength, hint⟩ := hinfo.length hnone
      obtain ⟨n, hn⟩ := Option.isSome_iff_exists.mp hint
      simp only [hlength, hn]
      exact ⟨_, rfl⟩
  obtain ⟨name, hname⟩ := hname
  unfold prepareInfoSection
  simp only [hv, hfound, hdict, hpiece, hname, Option.bind_eq_bind, Option.bind_some]
  exact hfiles _

/-! ## Loading -/

/-- Only a dictionary holds one. -/
theorem eq_dict_of_dictOf (h : dictOf v = some dict) : ∃ start stop, v = .dict dict start stop := by
  cases v with
  | dict dict' start stop =>
      obtain rfl := Option.some.inj h
      exact ⟨start, stop, rfl⟩
  | string _ _ _ => cases h
  | integer _ _ _ => cases h
  | list _ _ _ => cases h

/-- With an info section, loading that does not misread returns `0`. -/
theorem loadMetainfo_code {code : Int} {t' : TorrentT} (hv : dictOf v = some dict)
    (hfound : lookup dict infoKey ≠ none) (h : loadMetainfo sha1 data v t = some (code, t')) :
    code = 0 := by
  obtain ⟨bInfo, hinfo⟩ := Option.ne_none_iff_exists'.mp hfound
  unfold loadMetainfo at h
  simp only [hv, hinfo, Option.bind_eq_bind, Option.bind_some, Option.bind_eq_some_iff] at h
  obtain ⟨t₁, -, r, -, h⟩ := h
  exact (congrArg Prod.fst (Option.some.inj h)).symm

/-- What is loaded under code `0` has the hash of the text of the info section. -/
theorem loadMetainfo_infoHash {t' : TorrentT} (h : loadMetainfo sha1 data v t = some (0, t')) :
    some t'.infoHash = (infoHashInput data v).map sha1 := by
  unfold loadMetainfo at h
  obtain ⟨dict, hv, h⟩ := Option.bind_eq_some_iff.mp h
  obtain ⟨start, stop, rfl⟩ := eq_dict_of_dictOf hv
  have hinput : infoHashInput data (.dict dict start stop) =
      (lookup dict infoKey).map fun info => Bencode.slice data info.start info.stop := rfl
  rw [hinput]
  split at h
  next => cases h
  next bInfo hfound =>
    obtain ⟨t₁, htrackers, h⟩ := Option.bind_eq_some_iff.mp h
    obtain ⟨r, -, h⟩ := Option.bind_eq_some_iff.mp h
    unfold prepareTrackers at htrackers
    obtain ⟨dict', -, htrackers⟩ := Option.bind_eq_some_iff.mp htrackers
    obtain ⟨listed, -, htrackers⟩ := Option.bind_eq_some_iff.mp htrackers
    obtain ⟨announced, -, htrackers⟩ := Option.bind_eq_some_iff.mp htrackers
    obtain rfl := Option.some.inj htrackers
    obtain rfl := (Prod.mk.inj (Option.some.inj h)).2
    rw [hfound]
    rfl

/-- A metainfo file is loaded. -/
theorem loadMetainfo_of_shaped (hv : dictOf v = some dict) (h : MetainfoShaped dict) :
    ∃ t', loadMetainfo sha1 data v t = some (0, t') := by
  obtain ⟨bInfo, infoDict, hfound, -⟩ := h.info
  obtain ⟨t₁, htrackers⟩ := prepareTrackers_isSome hv h
    { t with infoHash := sha1 (slice data bInfo.start bInfo.stop) }
  obtain ⟨info, hinfo⟩ := prepareInfoSection_isSome hv h t₁.info
  unfold loadMetainfo
  simp only [hv, hfound, htrackers, hinfo, Option.bind_eq_bind, Option.bind_some]
  exact ⟨_, rfl⟩

/-- What loading a file that parses comes to. -/
theorem torrentInitFromFile_of_ok {pos : Nat} {code : Int} {t' : TorrentT}
    (h : bencodeParse (memory data beyond) (wrap32 data.length) place = .ok v pos) :
    torrentInitFromFile sha1 beyond place (some data) t = .returned code t' ↔
      loadMetainfo sha1 data v t = some (code, t') := by
  rw [torrentInitFromFile, h, loadParsed]
  cases loadMetainfo sha1 data v t with
  | none => simp
  | some r => simp [Prod.ext_iff]

/-- **Loading never misreads a file that parses and rejects every other shape** exactly if the file
is a dictionary, without info section or of the shape of a metainfo file. -/
theorem loads_safely_iff (sha1 : List UInt8 → List UInt8) (beyond : Nat → Option UInt8)
    (place : Nat → Addr) (data : List UInt8) (t : TorrentT) :
    LoadsSafely sha1 beyond place data t ↔
      ∀ v pos, bencodeParse (memory data beyond) (wrap32 data.length) place = .ok v pos →
        ∃ dict, dictOf v = some dict ∧ (lookup dict infoKey = none ∨ MetainfoShaped dict) := by
  refine forall_congr' fun v => forall_congr' fun pos => imp_congr_right fun hparse => ?_
  simp only [torrentInitFromFile_of_ok hparse]
  constructor
  · rintro ⟨code, t', hload, hreject⟩
    cases hv : dictOf v with
    | none => simp [loadMetainfo, hv] at hload
    | some dict =>
        refine ⟨dict, rfl, ?_⟩
        by_cases hfound : lookup dict infoKey = none
        · exact Or.inl hfound
        · by_contra hshape
          have hwell : ¬ WellShaped v := by
            rintro ⟨dict', hv', hshaped⟩
            obtain rfl := Option.some.inj (hv.symm.trans hv')
            exact hshape (Or.inr hshaped)
          exact hreject hwell (loadMetainfo_code hv hfound hload)
  · rintro ⟨dict, hv, hnone | hshaped⟩
    · exact ⟨-1, t, by simp [loadMetainfo, hv, hnone], fun _ => by decide⟩
    · have hloads : ∃ t', loadMetainfo sha1 data v t = some (0, t') := loadMetainfo_of_shaped hv hshaped
      obtain ⟨t', hload⟩ := hloads
      exact ⟨0, t', hload, fun hbad => absurd ⟨dict, hv, hshaped⟩ hbad⟩

/-- A file that is misread parses. -/
theorem bencodeParse_of_misread
    (h : torrentInitFromFile sha1 beyond place (some data) t = .misread) :
    ∃ v pos, bencodeParse (memory data beyond) (wrap32 data.length) place = .ok v pos := by
  rw [torrentInitFromFile] at h
  cases hparse : bencodeParse (memory data beyond) (wrap32 data.length) place with
  | ok v pos => exact ⟨v, pos, rfl⟩
  | stop why pos =>
      rw [hparse] at h
      cases why <;> simp [loadParsed] at h

/-- A torrent before loading. -/
def unloaded : TorrentT := ⟨[], ⟨0, none, .singleFile, none, 0, []⟩, []⟩

/-- `d4:infodee`: without a piece length, the pointer to it is followed. -/
theorem no_piece_length_misread :
    torrentInitFromFile (fun _ => []) (fun _ => none) (fun _ => 0)
        (some [100, 52, 58, 105, 110, 102, 111, 100, 101, 101]) unloaded = .misread ∧
      ¬ LoadsSafely (fun _ => []) (fun _ => none) (fun _ => 0)
        [100, 52, 58, 105, 110, 102, 111, 100, 101, 101] unloaded := by
  have hmis : torrentInitFromFile (fun _ => []) (fun _ => none) (fun _ => 0)
      (some [100, 52, 58, 105, 110, 102, 111, 100, 101, 101]) unloaded = .misread := by
    decide +kernel
  refine ⟨hmis, fun h => ?_⟩
  obtain ⟨v, pos, hparse⟩ := bencodeParse_of_misread hmis
  obtain ⟨code, t', hload, -⟩ := h v pos hparse
  rw [hmis] at hload
  cases hload

end Flood.Torrent
