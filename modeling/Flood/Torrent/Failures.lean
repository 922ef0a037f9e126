import Flood.Torrent.Scalars

/-!
# Failing to load

* `Lacks dict` — an info dictionary without one of the keys that the loader asks for.
* `mainTorrent` — the torrent that `main` goes on with.
* `ReportsFailures` — loading returns `0` only if `prepare_info_section` did, rejects a dictionary that
  lacks a key, and `main` goes on with files that have all been read.
* `reports_failures_iff` — it does so iff nothing is lacking: the code of `prepare_info_section` is
  dropped.
-/

namespace Flood.Torrent

open Flood.Lib Flood.Hashtable Flood.Bencode

variable {sha1 : List UInt8 → List UInt8} {beyond : Nat → Option UInt8} {place : Nat → Addr}
  {data : List UInt8} {dict : BencodeDict} {v : BencodeValue} {t t' : TorrentT}
  {info info' : InfoSection} {code : Int} {pos : Nat}

/-- A file without a length, without a path, or with an empty path. -/
def FileLacks (v : BencodeValue) : Prop :=
  ∃ file, dictOf v = some file ∧ (lookup file lengthKey = none ∨ lookup file pathKey = none ∨
    ∃ path, lookup file pathKey = some path ∧ listOf path = some [])

/-- There are neither files nor the length of one, or one of the files lacks something. -/
def Lacks (dict : BencodeDict) : Prop :=
  (lookup dict filesKey = none ∧ lookup dict lengthKey = none) ∨
    ∃ bFiles elems, lookup dict filesKey = some bFiles ∧ listOf bFiles = some elems ∧
      ∃ f ∈ elems, FileLacks f

/-- The torrent that `main` goes on with; `none` if it aborts or does not get so far.
Source: `main.c`, `main` -/
def mainTorrent : Loading → Option TorrentT
  | .returned status t => if status ≠ 0 then none else some t
  | .misread => none
  | .parserStops _ => none

/-- A metainfo file with this info dictionary is loaded only if its info section is. -/
structure ReportsFailures (sha1 : List UInt8 → List UInt8) (beyond : Nat → Option UInt8)
    (place : Nat → Addr) (data : List UInt8) (v : BencodeValue) (dict : BencodeDict) (t : TorrentT) :
    Prop where
  /-- Loading returns `0` only if `prepare_info_section` did. -/
  succeeded : ∀ t', torrentInitFromFile sha1 beyond place (some data) t = .returned 0 t' →
    prepareInfoSection v t.info = some (0, t'.info)
  /-- If a key is lacking, it returns another code. -/
  rejected : Lacks dict → ∃ code t',
    torrentInitFromFile sha1 beyond place (some data) t = .returned code t' ∧ code ≠ 0
  /-- `main` goes on with a file for each element of the list. -/
  filled : ∀ t', mainTorrent (torrentInitFromFile sha1 beyond place (some data) t) = some t' →
    ∀ bFiles elems, lookup dict filesKey = some bFiles → listOf bFiles = some elems →
      t'.info.files.length = elems.length

/-! ## Reading files -/

/-- A file that is not read although no member is misread lacks something. -/
theorem fileLacks_of_readFileInfo (h : readFileInfo v = some none) : FileLacks v := by
  unfold readFileInfo at h
  obtain ⟨file, hfile, h⟩ := Option.bind_eq_some_iff.mp h
  refine ⟨file, hfile, ?_⟩
  cases hlength : lookup file lengthKey with
  | none => exact Or.inl rfl
  | some bFileLength =>
      rw [hlength] at h
      obtain ⟨length, -, h⟩ := Option.bind_eq_some_iff.mp h
      cases hpath : lookup file pathKey with
      | none => exact Or.inr (Or.inl rfl)
      | some bPathList =>
          rw [hpath] at h
          obtain ⟨segments, hsegments, h⟩ := Option.bind_eq_some_iff.mp h
          split_ifs at h with hnil
          · rw [hnil] at hsegments
            exact Or.inr (Or.inr ⟨bPathList, rfl, hsegments⟩)
          · obtain ⟨path, -, h⟩ := Option.bind_eq_some_iff.mp h
            cases Option.some.inj h

/-- Files that lack nothing are all read, unless a member is misread. -/
theorem filesLoop_of_complete {elems : List BencodeValue} {files : List FileInfo}
    (hall : ∀ f ∈ elems, ¬ FileLacks f) (h : filesLoop elems = some (code, files)) :
    code = 0 ∧ files.length = elems.length := by
  induction elems generalizing code files with
  | nil =>
      obtain ⟨rfl, rfl⟩ := Prod.mk.inj (Option.some.inj h)
      exact ⟨rfl, rfl⟩
  | cons f rest ih =>
      rw [filesLoop] at h
      obtain ⟨file, hfile, h⟩ := Option.bind_eq_some_iff.mp h
      cases file with
      | none => exact absurd (fileLacks_of_readFileInfo hfile) (hall f List.mem_cons_self)
      | some file =>
          obtain ⟨⟨code', files'⟩, hrest, h⟩ := Option.bind_eq_some_iff.mp h
          obtain ⟨rfl, rfl⟩ := Prod.mk.inj (Option.some.inj h)
          obtain ⟨hcode, hlen⟩ := ih (fun f' hf' => hall f' (List.mem_cons_of_mem f hf')) hrest
          exact ⟨hcode, congrArg Nat.succ hlen⟩

/-- Without a lack, the files or the length of the only one are read. -/
theorem readFiles_of_complete (hall : ¬ Lacks dict) (h : readFiles dict info = some (code, info')) :
    code = 0 ∧ ∀ bFiles elems, lookup dict filesKey = some bFiles → listOf bFiles = some elems →
      info'.files.length = elems.length := by
  unfold readFiles at h
  cases hfiles : lookup dict filesKey with
  | some bFiles =>
      rw [hfiles] at h
      obtain ⟨elems, helems, h⟩ := Option.bind_eq_some_iff.mp h
      obtain ⟨⟨code', files⟩, hloop, h⟩ := Option.bind_eq_some_iff.mp h
      obtain ⟨rfl, rfl⟩ := Prod.mk.inj (Option.some.inj h)
      obtain ⟨hcode, hlen⟩ := filesLoop_of_complete
        (fun f hf hlacks => hall (Or.inr ⟨bFiles, elems, hfiles, helems, f, hf, hlacks⟩)) hloop
      refine ⟨hcode, fun bFiles' elems' hfiles' helems' => ?_⟩
      obtain rfl := Option.some.inj hfiles'
      rw [Option.some.inj (helems'.symm.trans helems)]
      exact hlen
  | none =>
      rw [hfiles] at h
      cases hlength : lookup dict lengthKey with
      | none => exact absurd (Or.inl ⟨hfiles, hlength⟩) hall
      | some bFileLength =>
          rw [hlength] at h
          obtain ⟨length, -, h⟩ := Option.bind_eq_some_iff.mp h
          refine ⟨(Prod.mk.inj (Option.some.inj h)).1.symm, fun bFiles elems hfiles' => ?_⟩
          cases hfiles'

/-- Without a lack, the info section is read. -/
theorem prepareInfoSection_of_complete (hv : infoDictOf v = some dict) (hall : ¬ Lacks dict)
    (h : prepareInfoSection v info = some (code, info')) :
    code = 0 ∧ ∀ bFiles elems, lookup dict filesKey = some bFiles → listOf bFiles = some elems →
      info'.files.length = elems.length := by
  obtain ⟨metainfo, hmeta, hv⟩ := Option.bind_eq_some_iff.mp hv
  obtain ⟨bInfo, hfound, hdict⟩ := Option.bind_eq_some_iff.mp hv
  unfold prepareInfoSection at h
  simp only [hmeta, hfound, hdict, Option.bind_eq_bind, Option.bind_some] at h
  split at h
  · cases h
  · obtain ⟨name, -, h⟩ := Option.bind_eq_some_iff.mp h
    exact readFiles_of_complete hall h

/-! ## Loading -/

/-- Collecting the trackers leaves the info section. -/
theorem prepareTrackers_info (h : prepareTrackers v t = some t') : t'.info = t.info := by
  unfold prepareTrackers at h
  obtain ⟨dict, -, h⟩ := Option.bind_eq_some_iff.mp h
  obtain ⟨listed, -, h⟩ := Option.bind_eq_some_iff.mp h
  obtain ⟨announced, -, h⟩ := Option.bind_eq_some_iff.mp h
  rw [← Option.some.inj h]

/-- What is loaded is what `prepare_info_section` left, whatever its code. -/
theorem prepareInfoSection_of_loadMetainfo (hv : infoDictOf v = some dict)
    (h : loadMetainfo sha1 data v t = some (code, t')) :
    ∃ code', prepareInfoSection v t.info = some (code', t'.info) := by
  obtain ⟨metainfo, hmeta, hv⟩ := Option.bind_eq_some_iff.mp hv
  obtain ⟨bInfo, hfound, -⟩ := Option.bind_eq_some_iff.mp hv
  unfold loadMetainfo at h
  simp only [hmeta, hfound, Option.bind_eq_bind, Option.bind_some] at h
  obtain ⟨t₁, htrackers, h⟩ := Option.bind_eq_some_iff.mp h
  obtain ⟨⟨code', info'⟩, hinfo, h⟩ := Option.bind_eq_some_iff.mp h
  obtain ⟨-, rfl⟩ := Prod.mk.inj (Option.some.inj h)
  rw [prepareTrackers_info htrackers] at hinfo
  exact ⟨code', hinfo⟩

/-- An info dictionary is found. -/
theorem lookup_of_infoDictOf (hv : infoDictOf v = some dict) :
    ∃ metainfo, dictOf v = some metainfo ∧ lookup metainfo infoKey ≠ none := by
  obtain ⟨metainfo, hmeta, hv⟩ := Option.bind_eq_some_iff.mp hv
  obtain ⟨bInfo, hfound, -⟩ := Option.bind_eq_some_iff.mp hv
  exact ⟨metainfo, hmeta, by rw [hfound]; exact Option.some_ne_none bInfo⟩

/-- `main` goes on if loading returned `0`. -/
theorem mainTorrent_eq_some_iff {loading : Loading} :
    mainTorrent loading = some t ↔ loading = .returned 0 t := by
  cases loading with
  | returned status t' =>
      rw [mainTorrent, Loading.returned.injEq]
      split_ifs with hstatus
      · exact iff_of_false (by simp) fun h => hstatus h.1
      · rw [Option.some.injEq, and_iff_right (not_not.mp hstatus)]
  | misread => exact iff_of_false (by simp [mainTorrent]) (by simp)
  | parserStops why => exact iff_of_false (by simp [mainTorrent]) (by simp)

/-- **When failures are reported.** Of a metainfo file with an info dictionary loading reports that it
failed iff there is nothing to report: the dictionary has files, each with a length and a path that is
not empty, or the length of one. -/
theorem reports_failures_iff (sha1 : List UInt8 → List UInt8) (t : TorrentT)
    (hparse : bencodeParse (memory data beyond) (wrap32 data.length) place = .ok v pos)
    (hv : infoDictOf v = some dict) :
    ReportsFailures sha1 beyond place data v dict t ↔ ¬ Lacks dict := by
  have hreturned : ∀ code t', torrentInitFromFile sha1 beyond place (some data) t = .returned code t' ↔
      loadMetainfo sha1 data v t = some (code, t') := fun code t' => torrentInitFromFile_of_ok hparse
  constructor
  · intro hreports hlacks
    obtain ⟨code, t', hload, hne⟩ := hreports.rejected hlacks
    obtain ⟨metainfo, hmeta, hfound⟩ := lookup_of_infoDictOf hv
    exact hne (loadMetainfo_code hmeta hfound ((hreturned code t').mp hload))
  · intro hall
    have hread : ∀ t', torrentInitFromFile sha1 beyond place (some data) t = .returned 0 t' →
        prepareInfoSection v t.info = some (0, t'.info) := by
      intro t' hload
      obtain ⟨code, hinfo⟩ := prepareInfoSection_of_loadMetainfo hv ((hreturned 0 t').mp hload)
      rw [(prepareInfoSection_of_complete hv hall hinfo).1] at hinfo
      exact hinfo
    refine ⟨hread, fun hlacks => absurd hlacks hall, fun t' hmain => ?_⟩
    have hinfo := hread t' (mainTorrent_eq_some_iff.mp hmain)
    exact (prepareInfoSection_of_complete hv hall hinfo).2

/-- The text of a metainfo file with two files, the second of which has no path:
`d4:infod5:filesld6:lengthi1e4:pathl1:aeed6:lengthi2eee12:piece lengthi1eee`. -/
def secondPathMissing : List UInt8 :=
  [100, 52, 58, 105, 110, 102, 111, 100, 53, 58, 102, 105, 108, 101, 115, 108, 100, 54, 58, 108, 101,
    110, 103, 116, 104, 105, 49, 101, 52, 58, 112, 97, 116, 104, 108, 49, 58, 97, 101, 101, 100, 54, 58,
    108, 101, 110, 103, 116, 104, 105, 50, 101, 101, 101, 49, 50, 58, 112, 105, 101, 99, 101, 32, 108,
    101, 110, 103, 116, 104, 105, 49, 101, 101, 101]

/-- It parses, and its second file has no path. -/
theorem parse_secondPathMissing : ∃ v pos dict,
    bencodeParse (memory secondPathMissing fun _ => none) (wrap32 secondPathMissing.length)
      (fun _ => 0) = .ok v pos ∧ infoDictOf v = some dict ∧ Lacks dict := by
  have hchain : (match bencodeParse (memory secondPathMissing fun _ => none)
      (wrap32 secondPathMissing.length) (fun _ => 0) with
      | .ok v _ => (infoDictOf v).bind fun dict => (lookup dict filesKey).bind fun bFiles =>
          (listOf bFiles).bind fun elems => elems[1]?.bind fun f => (dictOf f).map fun file =>
            (lookup file pathKey).isNone
      | .stop _ _ => none) = some true := by
    decide +kernel
  cases hparse : bencodeParse (memory secondPathMissing fun _ => none)
      (wrap32 secondPathMissing.length) (fun _ => 0) with
  | stop why pos =>
      rw [hparse] at hchain
      cases hchain
  | ok v pos =>
      rw [hparse] at hchain
      obtain ⟨dict, hdict, hchain⟩ := Option.bind_eq_some_iff.mp hchain
      obtain ⟨bFiles, hfiles, hchain⟩ := Option.bind_eq_some_iff.mp hchain
      obtain ⟨elems, helems, hchain⟩ := Option.bind_eq_some_iff.mp hchain
      obtain ⟨f, hf, hchain⟩ := Option.bind_eq_some_iff.mp hchain
      obtain ⟨file, hfile, hpath⟩ := Option.map_eq_some_iff.mp hchain
      exact ⟨v, pos, dict, rfl, hdict, Or.inr ⟨bFiles, elems, hfiles, helems, f,
        List.mem_of_getElem? hf, file, hfile, Or.inr (Or.inl (Option.isNone_iff_eq_none.mp hpath))⟩⟩

/-- Of this file it is not reported that it failed to load. -/
theorem reports_failures_iff_example : ∃ v pos dict,
    bencodeParse (memory secondPathMissing fun _ => none) (wrap32 secondPathMissing.length)
      (fun _ => 0) = .ok v pos ∧ infoDictOf v = some dict ∧
      (ReportsFailures (fun _ => []) (fun _ => none) (fun _ => 0) secondPathMissing v dict unloaded ↔
        ¬ Lacks dict) := by
  obtain ⟨v, pos, dict, hparse, hv, -⟩ := parse_secondPathMissing
  exact ⟨v, pos, dict, hparse, hv, reports_failures_iff (fun _ => []) unloaded hparse hv⟩

/-- Loading it returns `0`, and `main` goes on with one of its two files. -/
theorem half_filled_table : ∃ v pos dict t',
    bencodeParse (memory secondPathMissing fun _ => none) (wrap32 secondPathMissing.length)
      (fun _ => 0) = .ok v pos ∧ infoDictOf v = some dict ∧
      mainTorrent (torrentInitFromFile (fun _ => []) (fun _ => none) (fun _ => 0)
        (some secondPathMissing) unloaded) = some t' ∧ t'.info.files.length = 1 ∧
      ¬ ReportsFailures (fun _ => []) (fun _ => none) (fun _ => 0) secondPathMissing v dict
        unloaded := by
  obtain ⟨v, pos, dict, hparse, hv, hlacks⟩ := parse_secondPathMissing
  have hmain : (mainTorrent (torrentInitFromFile (fun _ => []) (fun _ => none) (fun _ => 0)
      (some secondPathMissing) unloaded)).map (fun t => t.info.files.length) = some 1 := by
    decide +kernel
  obtain ⟨t', hmain, hlen⟩ := Option.map_eq_some_iff.mp hmain
  refine ⟨v, pos, dict, t', hparse, hv, hmain, hlen, fun hreports => ?_⟩
  obtain ⟨code, t'', hload, hne⟩ := hreports.rejected hlacks
  rw [mainTorrent_eq_some_iff.mp hmain, Loading.returned.injEq] at hload
  exact hne hload.1.symm

end Flood.Torrent
