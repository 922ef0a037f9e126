import Flood.Torrent.Load
import Flood.Lib.Runs
import Mathlib.Algebra.Order.BigOperators.Group.List

/-!
# `file_manager.c`

Which files a piece is written to.

* `fileManagerInit`, `fileManagerWritePiece` — a file manager, and the files that the loop over the
  files takes to overlap with a piece.
* `ClassifiesExactly` — these are the files that have a byte of the piece.
* `OffsetSuffices` — from the first file that is as long as the piece is far from the beginning, the
  offset that the loop keeps is good enough.
* `classifies_exactly_iff` — the second is when the first holds. The offset is moved on behind files
  that overlap only, and ranges that merely touch are taken to overlap.
-/

namespace Flood.Torrent

open Flood.Lib

/-- A file manager. No file is opened: the descriptors stay as they are.
Source: `file_manager.h`, `file_manager_t` -/
structure FileManagerT where
  /-- The torrent. -/
  torrent : TorrentT
  /-- Where the files go. -/
  basepath : List UInt8
  /-- The number of files. -/
  nfiles : Nat
  /-- A descriptor for each file, `-1` if it is not open. -/
  descriptors : List Int

/-- A file manager for a torrent.
Source: `file_manager.c`, `file_manager_init` -/
def fileManagerInit (t : TorrentT) (basepath : List UInt8) : FileManagerT where
  torrent := t
  basepath := basepath
  nfiles := if t.info.mode = .singleFile then 1 else t.info.files.length
  descriptors := List.replicate (if t.info.mode = .singleFile then 1 else t.info.files.length) (-1)

/-- The test of the loop over the files. -/
def overlap (startbyte endbyte fStart fEnd : Int) : Bool :=
  (fStart ≥ startbyte && fStart ≤ endbyte) || (fEnd ≥ startbyte && fEnd ≤ endbyte) ||
    (fStart < startbyte && fEnd > endbyte)

/-- The loop over the `n` files from file `i` on: whether each overlaps; `none` if there is no such
file. -/
def overlapLoop (files : List FileInfo) (startbyte endbyte : Int) :
    Nat → Nat → Int → Option (List Bool)
  | 0, _, _ => some []
  | n + 1, i, offset => do
      let f ← files[i]?
      let fEnd := wrap32 (offset + f.length)
      if overlap startbyte endbyte offset fEnd then do
        let rest ← overlapLoop files startbyte endbyte n (i + 1) (wrap32 (offset + f.length))
        some (true :: rest)
      else do
        let rest ← overlapLoop files startbyte endbyte n (i + 1) offset
        some (false :: rest)

/-- Write a piece: whether each file overlaps with it. Nothing is written yet.
Source: `file_manager.c`, `file_manager_write_piece` -/
def fileManagerWritePiece (fm : FileManagerT) (piece piecelen : Int) : Option (List Bool) :=
  let startbyte := wrap32 (piece * piecelen)
  let endbyte := wrap32 (wrap32 (piece + 1) * piecelen)
  if fm.torrent.info.mode = .singleFile then some []
  else overlapLoop fm.torrent.info.files startbyte endbyte fm.nfiles 0 0

/-! ## The files of a piece -/

/-- A byte of the file, whose first is the byte `fStart` of the torrent, is one of the bytes from
`startbyte` up to `endbyte`. -/
def Meets (startbyte endbyte fStart length : Int) : Prop :=
  ∃ b, fStart ≤ b ∧ b < fStart + length ∧ startbyte ≤ b ∧ b < endbyte

/-- Where a file starts behind these. -/
def endOf (files : List FileInfo) : Int := (files.map FileInfo.length).sum

/-- The files that are taken to overlap with the piece are those that have a byte of it. -/
def ClassifiesExactly (fm : FileManagerT) (piece piecelen : Int) : Prop :=
  ∃ flags, fileManagerWritePiece fm piece piecelen = some flags ∧
    flags.length = fm.torrent.info.files.length ∧
    ∀ pre f post, fm.torrent.info.files = pre ++ f :: post →
      (flags[pre.length]? = some true ↔
        Meets (piece * piecelen) ((piece + 1) * piecelen) (endOf pre) f.length)

/-- If no file is as long as `startbyte`, the files end there at the latest. Else the first that is has
no file before it that reaches beyond `startbyte` and itself does; and a file behind it that starts up
to `endbyte`, counted from the start of that first one, is not empty and starts before `endbyte`. -/
structure OffsetSuffices (startbyte endbyte : Int) (files : List FileInfo) : Prop where
  /-- No file is so long. -/
  short : (∀ f ∈ files, f.length < startbyte) → endOf files ≤ startbyte
  /-- The first that is so long. -/
  long : ∀ pre f post, files = pre ++ f :: post → (∀ g ∈ pre, g.length < startbyte) →
    startbyte ≤ f.length → endOf pre ≤ startbyte ∧ startbyte < endOf pre + f.length ∧
      ∀ mid g rest, post = mid ++ g :: rest → f.length + endOf mid ≤ endbyte →
        0 < g.length ∧ endOf pre + f.length + endOf mid < endbyte

variable {files : List FileInfo} {f : FileInfo} {startbyte endbyte offset fStart length : Int}

@[simp] theorem endOf_nil : endOf [] = 0 := rfl

@[simp] theorem endOf_cons (f : FileInfo) (files : List FileInfo) :
    endOf (f :: files) = f.length + endOf files := by
  rw [endOf, List.map_cons, List.sum_cons, ← endOf]

/-- Files of no negative length do not end before they start. -/
theorem endOf_nonneg (h : ∀ f ∈ files, 0 ≤ f.length) : 0 ≤ endOf files :=
  List.sum_nonneg (List.forall_mem_map.mpr h)

/-- Two ranges, one of them not empty, have a byte in common iff each starts before the other ends and
the other is not empty either. -/
theorem meets_iff (h : startbyte < endbyte) :
    Meets startbyte endbyte fStart length ↔
      fStart < endbyte ∧ startbyte < fStart + length ∧ 0 < length := by
  constructor
  · rintro ⟨b, hb⟩
    omega
  · rintro ⟨hstart, hend, hpos⟩
    refine ⟨max fStart startbyte, ?_⟩
    omega

/-- The test is that of two closed ranges. -/
theorem overlap_iff (h : startbyte < endbyte) {fEnd : Int} (hf : fStart ≤ fEnd) :
    overlap startbyte endbyte fStart fEnd = true ↔ fStart ≤ endbyte ∧ startbyte ≤ fEnd := by
  unfold overlap
  simp only [Bool.or_eq_true, Bool.and_eq_true, decide_eq_true_eq]
  omega

/-! ## The loop -/

/-- The loop, on a list of files and with exact sums. -/
def flagsFrom (startbyte endbyte : Int) : Int → List FileInfo → List Bool
  | _, [] => []
  | offset, f :: files =>
      if offset ≤ endbyte ∧ startbyte ≤ offset + f.length then
        true :: flagsFrom startbyte endbyte (offset + f.length) files
      else false :: flagsFrom startbyte endbyte offset files

/-- There is a flag for each file. -/
theorem length_flagsFrom (offset : Int) (files : List FileInfo) :
    (flagsFrom startbyte endbyte offset files).length = files.length := by
  induction files generalizing offset with
  | nil => rfl
  | cons f files ih =>
      rw [flagsFrom]
      split_ifs <;> rw [List.length_cons, List.length_cons, ih]

/-- No sum overflows if the last does not. -/
theorem overlapLoop_eq (h : startbyte < endbyte) {pre post : List FileInfo} (hoff : 0 ≤ offset)
    (hlen : ∀ f ∈ post, 0 ≤ f.length) (hfits : offset + endOf post ≤ intMax) :
    overlapLoop (pre ++ post) startbyte endbyte post.length pre.length offset =
      some (flagsFrom startbyte endbyte offset post) := by
  induction post generalizing pre offset with
  | nil => rfl
  | cons f post ih =>
      have hf := hlen f List.mem_cons_self
      have hrest : ∀ g ∈ post, 0 ≤ g.length := fun g hg => hlen g (List.mem_cons_of_mem f hg)
      have hnonneg := endOf_nonneg hrest
      rw [endOf_cons] at hfits
      have hwrap : wrap32 (offset + f.length) = offset + f.length :=
        wrap32_of_fits ⟨by unfold intMin; omega, by omega⟩
      have hget : (pre ++ f :: post)[pre.length]? = some f := by
        rw [List.getElem?_append_right le_rfl, Nat.sub_self, List.getElem?_cons_zero]
      have happend : pre ++ f :: post = (pre ++ [f]) ++ post := by
        rw [List.append_assoc, List.singleton_append]
      have hnext : pre.length + 1 = (pre ++ [f]).length := by
        rw [List.length_append, List.length_singleton]
      rw [List.length_cons, overlapLoop, hget, Option.bind_eq_bind, Option.bind_some, hwrap,
        flagsFrom]
      by_cases hover : offset ≤ endbyte ∧ startbyte ≤ offset + f.length
      · have htest := (overlap_iff h (by omega : offset ≤ offset + f.length)).mpr hover
        rw [if_pos htest, if_pos hover, happend, hnext, ih (by omega) hrest (by omega)]
        rfl
      · have htest := mt (overlap_iff h (by omega : offset ≤ offset + f.length)).mp hover
        rw [if_neg htest, if_neg hover, happend, hnext, ih hoff hrest (by omega)]
        rfl

/-- The flags from `offset` on are those of files that start at `fStart`. -/
def FlagsAgree (startbyte endbyte offset fStart : Int) (files : List FileInfo) : Prop :=
  ∀ pre f post, files = pre ++ f :: post →
    ((flagsFrom startbyte endbyte offset files)[pre.length]? = some true ↔
      Meets startbyte endbyte (fStart + endOf pre) f.length)

/-- The first file, and the others. -/
theorem flagsAgree_cons_iff :
    FlagsAgree startbyte endbyte offset fStart (f :: files) ↔
      if offset ≤ endbyte ∧ startbyte ≤ offset + f.length then
        Meets startbyte endbyte fStart f.length ∧
          FlagsAgree startbyte endbyte (offset + f.length) (fStart + f.length) files
      else
        ¬ Meets startbyte endbyte fStart f.length ∧
          FlagsAgree startbyte endbyte offset (fStart + f.length) files := by
  unfold FlagsAgree
  rw [forall_split_cons, flagsFrom]
  split_ifs <;> simp [Int.add_assoc]

/-- **Behind the first file that is taken to overlap**, the flags agree as long as the files that the
loop reaches are not empty and start before the end of the piece. -/
theorem flagsAgree_behind_iff (h : startbyte < endbyte) (hlo : startbyte ≤ offset)
    (hle : offset ≤ fStart) (hlen : ∀ f ∈ files, 0 ≤ f.length) :
    FlagsAgree startbyte endbyte offset fStart files ↔
      ∀ mid g rest, files = mid ++ g :: rest → offset + endOf mid ≤ endbyte →
        0 < g.length ∧ fStart + endOf mid < endbyte := by
  induction files generalizing offset fStart with
  | nil =>
      refine iff_of_true ?_ ?_
      · intro pre f post hsplit
        exact absurd hsplit (by simp)
      · intro mid g rest hsplit
        exact absurd hsplit (by simp)
  | cons f files ih =>
      have hf := hlen f List.mem_cons_self
      have hrest : ∀ g ∈ files, 0 ≤ g.length := fun g hg => hlen g (List.mem_cons_of_mem f hg)
      rw [flagsAgree_cons_iff, forall_split_cons, meets_iff h]
      simp only [endOf_nil, endOf_cons, add_zero, ← Int.add_assoc]
      by_cases hover : offset ≤ endbyte
      · rw [if_pos ⟨hover, by omega⟩, ih (by omega) (by omega) hrest]
        refine and_congr ?_ Iff.rfl
        constructor
        · rintro ⟨hstart, -, hpos⟩ -
          exact ⟨hpos, hstart⟩
        · intro hfirst
          obtain ⟨hpos, hstart⟩ := hfirst hover
          exact ⟨hstart, by omega, hpos⟩
      · -- the loop stays behind the piece
        rw [if_neg fun hboth => hover hboth.1, ih hlo (by omega) hrest]
        refine iff_of_true ⟨fun hmeets => by omega, fun mid g rest hsplit hreach => ?_⟩
          ⟨fun hreach => absurd hreach hover, fun mid g rest hsplit hreach => ?_⟩
        all_goals
          have hmid : 0 ≤ endOf mid := endOf_nonneg fun f' hf' =>
            hrest f' (hsplit ▸ List.mem_append_left _ hf')
          omega

/-- Either all files are short, or there is a first that is not. -/
theorem short_or_first (startbyte : Int) (files : List FileInfo) :
    (∀ f ∈ files, f.length < startbyte) ∨
      ∃ pre f post, files = pre ++ f :: post ∧ (∀ g ∈ pre, g.length < startbyte) ∧
        startbyte ≤ f.length := by
  induction files with
  | nil => exact .inl fun f hf => absurd hf List.not_mem_nil
  | cons f files ih =>
      by_cases hf : f.length < startbyte
      · rcases ih with hall | ⟨pre, g, post, rfl, hpre, hg⟩
        · exact .inl (List.forall_mem_cons.mpr ⟨hf, hall⟩)
        · exact .inr ⟨f :: pre, g, post, rfl, List.forall_mem_cons.mpr ⟨hf, hpre⟩, hg⟩
      · exact .inr ⟨[], f, files, rfl, fun g hg => absurd hg List.not_mem_nil, not_lt.mp hf⟩

/-- `OffsetSuffices` for files that start at `fStart`. -/
def SufficesFrom (startbyte endbyte fStart : Int) (files : List FileInfo) : Prop :=
  ((∀ f ∈ files, f.length < startbyte) → fStart + endOf files ≤ startbyte) ∧
    ∀ pre f post, files = pre ++ f :: post → (∀ g ∈ pre, g.length < startbyte) →
      startbyte ≤ f.length → fStart + endOf pre ≤ startbyte ∧
        startbyte < fStart + endOf pre + f.length ∧
        ∀ mid g rest, post = mid ++ g :: rest → f.length + endOf mid ≤ endbyte →
          0 < g.length ∧ fStart + endOf pre + f.length + endOf mid < endbyte

/-- Then they do not start behind `startbyte`. -/
theorem SufficesFrom.le (h : SufficesFrom startbyte endbyte fStart files)
    (hlen : ∀ f ∈ files, 0 ≤ f.length) : fStart ≤ startbyte := by
  rcases short_or_first startbyte files with hall | ⟨pre, f, post, rfl, hpre, hf⟩
  · have hle := h.1 hall
    have hnonneg := endOf_nonneg hlen
    omega
  · have hle := (h.2 pre f post rfl hpre hf).1
    have hnonneg : 0 ≤ endOf pre := endOf_nonneg fun g hg => hlen g (List.mem_append_left _ hg)
    omega

/-- Behind a short file. -/
theorem sufficesFrom_cons_of_lt (hf : f.length < startbyte) :
    SufficesFrom startbyte endbyte fStart (f :: files) ↔
      SufficesFrom startbyte endbyte (fStart + f.length) files := by
  have hnot : ¬ startbyte ≤ f.length := not_le.mpr hf
  unfold SufficesFrom
  rw [forall_split_cons]
  simp only [List.forall_mem_cons, hf, true_and, hnot, false_implies, imp_true_iff, endOf_cons,
    ← Int.add_assoc]

/-- At a file that is not short. -/
theorem sufficesFrom_cons_of_le (hf : startbyte ≤ f.length) :
    SufficesFrom startbyte endbyte fStart (f :: files) ↔
      fStart ≤ startbyte ∧ startbyte < fStart + f.length ∧
        ∀ mid g rest, files = mid ++ g :: rest → f.length + endOf mid ≤ endbyte →
          0 < g.length ∧ fStart + f.length + endOf mid < endbyte := by
  have hnot : ¬ f.length < startbyte := not_lt.mpr hf
  unfold SufficesFrom
  rw [forall_split_cons]
  simp only [List.forall_mem_cons, hnot, false_and, false_implies, imp_true_iff, true_and, and_true,
    List.not_mem_nil, hf, true_implies, endOf_nil, add_zero]

/-- **Up to the first file that is taken to overlap**, the offset is zero. -/
theorem flagsAgree_iff (h : startbyte < endbyte) (hend : 0 ≤ endbyte) (hpos : 0 ≤ fStart)
    (hle : fStart ≤ startbyte) (hlen : ∀ f ∈ files, 0 ≤ f.length) :
    FlagsAgree startbyte endbyte 0 fStart files ↔ SufficesFrom startbyte endbyte fStart files := by
  induction files generalizing fStart with
  | nil =>
      refine iff_of_true ?_ ⟨fun _ => by simpa using hle, ?_⟩
      · intro pre f post hsplit
        exact absurd hsplit (by simp)
      · intro pre f post hsplit
        exact absurd hsplit (by simp)
  | cons f files ih =>
      have hf := hlen f List.mem_cons_self
      have hrest : ∀ g ∈ files, 0 ≤ g.length := fun g hg => hlen g (List.mem_cons_of_mem f hg)
      rw [flagsAgree_cons_iff, meets_iff h, Int.zero_add]
      by_cases hshort : f.length < startbyte
      · rw [if_neg (by omega), sufficesFrom_cons_of_lt hshort]
        constructor
        · rintro ⟨hnot, hagree⟩
          have hnext : fStart + f.length ≤ startbyte := by
            by_contra hbeyond
            exact hnot ⟨by omega, by omega, by omega⟩
          exact (ih (by omega) hnext hrest).mp hagree
        · intro hsuff
          have hnext := hsuff.le hrest
          exact ⟨by omega, (ih (by omega) hnext hrest).mpr hsuff⟩
      · have hlong := not_lt.mp hshort
        have hbehind : f.length ≤ fStart + f.length := by omega
        rw [if_pos ⟨hend, hlong⟩, sufficesFrom_cons_of_le hlong,
          flagsAgree_behind_iff h hlong hbehind hrest]
        constructor
        · rintro ⟨⟨-, hreach, -⟩, hagree⟩
          exact ⟨hle, hreach, hagree⟩
        · rintro ⟨-, hreach, hagree⟩
          exact ⟨⟨by omega, hreach, by omega⟩, hagree⟩

/-! ## The pieces -/

/-- The bounds of a piece are computed without overflow. -/
theorem wrap32_piece {piece piecelen : Int} (hpiece : 0 ≤ piece) (hpos : 0 < piecelen)
    (hend : (piece + 1) * piecelen ≤ intMax) :
    wrap32 (piece * piecelen) = piece * piecelen ∧
      wrap32 (wrap32 (piece + 1) * piecelen) = (piece + 1) * piecelen := by
  have hstart : 0 ≤ piece * piecelen := Int.mul_nonneg hpiece hpos.le
  have hsum : (piece + 1) * piecelen = piece * piecelen + piecelen := by ring
  have hindex : piece + 1 ≤ (piece + 1) * piecelen := by nlinarith
  have hfits : ∀ n : Int, 0 ≤ n → n ≤ intMax → wrap32 n = n := fun n hlo hhi =>
    wrap32_of_fits ⟨by unfold intMin; omega, hhi⟩
  rw [hfits (piece + 1) (by omega) (by omega)]
  exact ⟨hfits _ hstart (by omega), hfits _ (by omega) hend⟩

/-- **When a piece is matched to its files.** In multi-file mode, the loop takes those files to overlap
with a piece that have a byte of it, iff the offset that it keeps suffices. -/
theorem classifies_exactly_iff {t : TorrentT} {piece piecelen : Int} (basepath : List UInt8)
    (hmode : t.info.mode = .multiFile) (hlen : ∀ f ∈ t.info.files, 0 ≤ f.length)
    (htotal : endOf t.info.files ≤ intMax) (hpiece : 0 ≤ piece) (hpos : 0 < piecelen)
    (hend : (piece + 1) * piecelen ≤ intMax) :
    ClassifiesExactly (fileManagerInit t basepath) piece piecelen ↔
      OffsetSuffices (piece * piecelen) ((piece + 1) * piecelen) t.info.files := by
  obtain ⟨hstartbyte, hendbyte⟩ := wrap32_piece hpiece hpos hend
  have hstart : 0 ≤ piece * piecelen := Int.mul_nonneg hpiece hpos.le
  have hlt : piece * piecelen < (piece + 1) * piecelen := by
    have hsum : (piece + 1) * piecelen = piece * piecelen + piecelen := by ring
    omega
  have hloop := @overlapLoop_eq _ _ 0 hlt [] t.info.files le_rfl hlen (by omega)
  have hmulti : ¬ t.info.mode = .singleFile := by
    rw [hmode]
    decide
  have hwrite : fileManagerWritePiece (fileManagerInit t basepath) piece piecelen =
      some (flagsFrom (piece * piecelen) ((piece + 1) * piecelen) 0 t.info.files) := by
    rw [fileManagerWritePiece, hstartbyte, hendbyte]
    rw [fileManagerInit, if_neg hmulti, if_neg hmulti]
    exact hloop
  have hagree : ClassifiesExactly (fileManagerInit t basepath) piece piecelen ↔
      FlagsAgree (piece * piecelen) ((piece + 1) * piecelen) 0 0 t.info.files := by
    unfold ClassifiesExactly FlagsAgree
    rw [hwrite]
    simp only [Option.some.injEq, exists_eq_left', length_flagsFrom, Int.zero_add]
    exact and_iff_right rfl
  rw [hagree, flagsAgree_iff hlt (by omega) le_rfl hstart hlen]
  unfold SufficesFrom
  simp only [Int.zero_add]
  exact ⟨fun h => ⟨h.1, h.2⟩, fun h => ⟨h.short, h.long⟩⟩

/-- A torrent of files of these lengths. -/
def filesOf (lengths : List Int) : TorrentT where
  infoHash := []
  info := ⟨0, none, .multiFile, none, 0, lengths.map fun n => ⟨n, []⟩⟩
  trackerUrls := []

/-- The first piece of two files. -/
theorem classifies_exactly_iff_example :
    ClassifiesExactly (fileManagerInit (filesOf [10, 10]) []) 0 5 ↔
      OffsetSuffices (0 * 5) ((0 + 1) * 5) (filesOf [10, 10]).info.files :=
  classifies_exactly_iff [] rfl (by decide) (by decide) (by decide) (by decide) (by decide)

/-- **Of two files of ten bytes, neither is taken to overlap with the bytes 15 to 19.** -/
theorem last_piece_missed :
    ¬ ClassifiesExactly (fileManagerInit (filesOf [10, 10]) []) 3 5 := by
  rintro ⟨flags, hwrite, -, hall⟩
  have hflags : fileManagerWritePiece (fileManagerInit (filesOf [10, 10]) []) 3 5 =
      some [false, false] := by decide
  obtain rfl := Option.some.inj (hflags.symm.trans hwrite)
  have hsecond := hall [⟨10, []⟩] ⟨10, []⟩ [] rfl
  have hmeets : Meets (3 * 5) ((3 + 1) * 5) (endOf [⟨10, []⟩]) 10 := ⟨15, by decide⟩
  exact absurd (hsecond.mpr hmeets) (by decide)

end Flood.Torrent
