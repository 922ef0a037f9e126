import Flood.Bencode.Cuts

/-!
# Lengths of strings

The length of a string is read as an `int`, which wraps.

* `copyLoop_of_le`, `copyLoop_of_lt` — copying with enough bytes behind the colon and with too few.
* `LengthHonoured` — a string is returned with the length it declares, or not at all.
* `LengthFits` — the declared length is less than the largest `int`, or as an `int` it is still more
  than what remains.
* `lengthHonoured_iff` — the second is when the first holds; `length_wraps` — `4294967297:a` is a
  string of one byte.
-/

namespace Flood.Bencode

open Flood.Lib

variable {string : Nat → Option UInt8} {place : Nat → Addr} {bs : List UInt8} {pos : Nat}

/-- A string is returned with the length that stands before the colon and with as many bytes, which
are those behind the colon, all of them in the buffer. A longer length than that of what remains
makes it fail. -/
structure LengthHonoured (string : Nat → Option UInt8) (size : Nat) (place : Nat → Addr) (pos : Nat)
    (first : UInt8) : Prop where
  /-- What is returned. -/
  returned : ∀ v pos', bParseString string size place pos first (pos + 1) = .ok v pos' →
    ∃ digits payload addr, (∀ d ∈ digits, isDigit d = true) ∧
      Reads string pos (digits ++ 58 :: payload) ∧ payload.length = decimal digits ∧
      v = .string ⟨some ⟨addr, payload⟩, decimal digits⟩ pos (pos' - 1) ∧
      pos' = pos + digits.length + 1 + payload.length ∧ (payload ≠ [] → pos' ≤ size)
  /-- What fails. -/
  failed : ∀ digits, (∀ d ∈ digits, isDigit d = true) → Reads string pos (digits ++ [58]) →
    size - (pos + digits.length + 1) < decimal digits →
    (bParseString string size place pos first (pos + 1)).Fails

/-- The declared length is less than the largest `int`; or, modulo `2 ^ 32`, it is still more than what
remains, and nothing remains if it is the largest `int`. -/
def LengthFits (size pos : Nat) (digits : List UInt8) : Prop :=
  (decimal digits : Int) < intMax ∨
    ((size - (pos + digits.length + 1) : Nat) : Int) < numeral digits ∧
      (numeral digits = intMax → size ≤ pos + digits.length + 1)

/-- One digit is a small number. -/
theorem decimal_lt_of_length {digits : List UInt8} (hd : ∀ d ∈ digits, isDigit d = true)
    (h : digits.length ≤ 1) : decimal digits < 10 := by
  match digits, h with
  | [], _ => decide
  | [d], _ =>
      have hval : decimal [d] = digitVal d := by simp [decimal]
      rw [hval]
      exact digitVal_lt (hd d List.mem_cons_self)

/-- A number that is no larger than an `int` is read as it is. -/
theorem numeral_of_le {digits : List UInt8} (h : (decimal digits : Int) ≤ intMax) :
    numeral digits = decimal digits :=
  wrap32_natCast h

/-- The digits in front of a colon at a digit: there is one. -/
theorem exists_digits {first : UInt8} (hfirst : string pos = some first)
    (hdigit : isDigit first = true) {digits : List UInt8} (hr : Reads string pos (digits ++ [58])) :
    ∃ ds, digits = first :: ds := by
  cases digits with
  | nil =>
      obtain ⟨h, -⟩ := hr
      rw [hfirst] at h
      rw [Option.some.inj h] at hdigit
      exact absurd hdigit (by decide)
  | cons d ds =>
      have h := hr.1
      rw [hfirst] at h
      exact ⟨ds, by rw [Option.some.inj h]⟩

/-- Bytes that are in the buffer are copied. -/
theorem copyLoop_of_le (hbytes : Reads string 0 bs) {block : Bool} {n k : Nat}
    (hk : k + n ≤ bs.length) (hblock : 0 < n → block = true) :
    ∃ bytes, copyLoop string bs.length block n k = .ok bytes (k + n) := by
  have hdrop := (hbytes.drop (by omega : k ≤ bs.length)).take n
  rw [Nat.zero_add] at hdrop
  have hlength : ((bs.drop k).take n).length = n := by
    rw [List.length_take, List.length_drop]
    omega
  have hcopy := @copyLoop_complete string bs.length block k _ hdrop (by rw [hlength]; omega)
    (fun hne => hblock (by have := List.length_pos_iff.mpr hne; omega))
  rw [hlength] at hcopy
  exact ⟨_, hcopy⟩

/-- Copying more bytes than there are fails. -/
theorem copyLoop_of_lt (hbytes : Reads string 0 bs) {block : Bool} {n k : Nat}
    (hn : bs.length - k < n) (hblock : k < bs.length → block = true) :
    (copyLoop string bs.length block n k).Fails := by
  have hdrop : Reads string k (bs.drop k) := by
    by_cases hk : k ≤ bs.length
    · have := hbytes.drop hk
      rwa [Nat.zero_add] at this
    · rw [List.drop_of_length_le (by omega)]
      exact trivial
  refine copyLoop_cut hdrop ?_ ?_ fun hlt => hblock (by exact_mod_cast hlt)
  · rw [List.length_drop]
    omega
  · rwa [List.length_drop]

/-- Without a block, nothing can be copied. -/
theorem copyLoop_nullDeref (hbytes : Reads string 0 bs) {n k : Nat} (hn : 0 < n)
    (hk : k < bs.length) : copyLoop string bs.length false n k = .stop .nullDeref k := by
  obtain ⟨n, rfl⟩ : ∃ m, n = m + 1 := ⟨n - 1, by omega⟩
  have hdrop := hbytes.drop hk.le
  rw [List.drop_eq_getElem_cons hk, Nat.zero_add] at hdrop
  rw [copyLoop, eofCheck_of_lt (by exact_mod_cast hk), readByte_of_eq hdrop.1, Result.bind_ok,
    if_neg Bool.false_ne_true]

/-- A large number has a second digit. -/
theorem ne_nil_of_intMax_le {first : UInt8} {ds : List UInt8}
    (hd : ∀ d ∈ first :: ds, isDigit d = true) (h : ¬ (decimal (first :: ds) : Int) < intMax) :
    ds ≠ [] := by
  rintro rfl
  have := decimal_lt_of_length hd le_rfl
  unfold intMax at h
  omega

/-- For a length that is less than the largest `int` there is a block. -/
theorem allocated_of_lt {digits : List UInt8} (h : (decimal digits : Int) < intMax) :
    allocated (numeral digits) = true := by
  have hnum := numeral_of_le h.le
  exact (allocated_iff (fitsInt_numeral _)).mpr ⟨by omega, by omega⟩

section AtDigit

variable {first : UInt8}

/-- A length that is honoured fits. -/
theorem LengthHonoured.fits (hbytes : Reads string 0 bs) (hsize : (bs.length : Int) ≤ intMax)
    (hfirst : string pos = some first) (hdigit : isDigit first = true)
    (h : LengthHonoured string bs.length place pos first) {digits : List UInt8}
    (hd : ∀ d ∈ digits, isDigit d = true) (hr : Reads string pos (digits ++ [58]))
    (hin : pos + digits.length < bs.length) : LengthFits bs.length pos digits := by
  obtain ⟨ds, rfl⟩ := exists_digits hfirst hdigit hr
  by_contra hfits
  unfold LengthFits at hfits
  push Not at hfits
  obtain ⟨hlarge, hsmall⟩ := hfits
  obtain ⟨c, q, -, hfails⟩ := h.failed _ hd hr (by omega)
  rw [bParseString_digits hd hr (fun _ => by exact_mod_cast hin)] at hfails
  by_cases hrem : numeral (first :: ds) ≤ ((bs.length - (pos + (first :: ds).length + 1) : Nat) : Int)
  · -- as an `int` the length is so small that the string is returned
    have hblock : 0 < (numeral (first :: ds)).toNat → allocated (numeral (first :: ds)) = true := by
      intro hn
      exact (allocated_iff (fitsInt_numeral _)).mpr ⟨by omega, by omega⟩
    have hle : pos + (first :: ds).length + 1 + (numeral (first :: ds)).toNat ≤ bs.length := by omega
    obtain ⟨bytes, hcopy⟩ := copyLoop_of_le hbytes hle hblock
    rw [hcopy] at hfails
    cases hfails
  · -- it is the largest `int`, and there is no block
    obtain ⟨hmax, hlt⟩ := hsmall (by omega)
    rw [hmax, allocated_intMax, copyLoop_nullDeref hbytes (by decide) hlt] at hfails
    cases hfails

/-- A string whose length fits is returned with that length. -/
theorem returned_of_fits (hfirst : string pos = some first) (hdigit : isDigit first = true)
    (h : ∀ digits, (∀ d ∈ digits, isDigit d = true) → Reads string pos (digits ++ [58]) →
      pos + digits.length < bs.length → LengthFits bs.length pos digits)
    {v : BencodeValue} {pos' : Nat}
    (hv : bParseString string bs.length place pos first (pos + 1) = .ok v pos') :
    ∃ digits payload addr, (∀ d ∈ digits, isDigit d = true) ∧
      Reads string pos (digits ++ 58 :: payload) ∧ payload.length = decimal digits ∧
      v = .string ⟨some ⟨addr, payload⟩, decimal digits⟩ pos (pos' - 1) ∧
      pos' = pos + digits.length + 1 + payload.length ∧ (payload ≠ [] → pos' ≤ bs.length) := by
  obtain ⟨ds, bytes, hd, hr, hin, hlength, hend, hblock, rfl⟩ := bParseString_inv hdigit hfirst hv
  by_cases hsmall : (decimal (first :: ds) : Int) < intMax
  · have hnum := numeral_of_le hsmall.le
    rw [if_pos (allocated_of_lt hsmall)]
    refine ⟨_, _, _, hd, hr, by omega, by rw [hnum], hend, fun hne => ?_⟩
    exact_mod_cast (hblock hne).1
  · -- a numeral with a second digit, whose length as an `int` is more than what remains
    exfalso
    have hin' := hin (ne_nil_of_intMax_le hd hsmall)
    rw [List.append_cons] at hr
    have hfits := (h _ hd (reads_append.mp hr).1 (by exact_mod_cast hin')).resolve_left hsmall
    have hne : bytes ≠ [] := fun hnil => by
      rw [hnil, List.length_nil] at hlength
      omega
    have hle := (hblock hne).1
    omega

/-- A string whose length fits, but is longer than what remains, is not returned. -/
theorem failed_of_fits (hbytes : Reads string 0 bs) (hpos : pos < bs.length)
    (hfirst : string pos = some first) (hdigit : isDigit first = true)
    (h : ∀ digits, (∀ d ∈ digits, isDigit d = true) → Reads string pos (digits ++ [58]) →
      pos + digits.length < bs.length → LengthFits bs.length pos digits)
    {digits : List UInt8} (hd : ∀ d ∈ digits, isDigit d = true)
    (hr : Reads string pos (digits ++ [58]))
    (hrem : bs.length - (pos + digits.length + 1) < decimal digits) :
    (bParseString string bs.length place pos first (pos + 1)).Fails := by
  obtain ⟨ds, rfl⟩ := exists_digits hfirst hdigit hr
  by_cases hin : ds ≠ [] → pos + (first :: ds).length < bs.length
  · rw [bParseString_digits hd hr (fun hne => by exact_mod_cast hin hne)]
    by_cases hsmall : (decimal (first :: ds) : Int) < intMax
    · have hnum := numeral_of_le hsmall.le
      exact (copyLoop_of_lt hbytes (by omega) fun _ => allocated_of_lt hsmall).bind
    · obtain ⟨hlt, hmax⟩ := (h _ hd hr (hin (ne_nil_of_intMax_le hd hsmall))).resolve_left hsmall
      refine (copyLoop_of_lt hbytes (by omega) fun hcolon => ?_).bind
      exact (allocated_iff (fitsInt_numeral _)).mpr
        ⟨by omega, fun h => absurd (hmax h) (not_le.mpr hcolon)⟩
  · -- the digits go on up to the end of the buffer
    push Not at hin
    rw [List.length_cons] at hin
    have hrd : Reads string (pos + 1) ds := (reads_append.mp hr.2).1
    exact (digitLoop_cut hrd (fun d h => hd d (List.mem_cons_of_mem first h)) hin.1
      (by push_cast; omega) (by omega) (by push_cast; omega)).bind

end AtDigit

/-- **Lengths are honoured iff they fit.** For a string whose first digit stands at `pos`, in any
buffer and whatever stands behind it. -/
theorem lengthHonoured_iff (hbytes : Reads string 0 bs) (hsize : (bs.length : Int) ≤ intMax)
    (hpos : pos < bs.length) {first : UInt8} (hfirst : string pos = some first)
    (hdigit : isDigit first = true) :
    LengthHonoured string bs.length place pos first ↔
      ∀ digits, (∀ d ∈ digits, isDigit d = true) → Reads string pos (digits ++ [58]) →
        pos + digits.length < bs.length → LengthFits bs.length pos digits := by
  constructor
  · intro h digits hd hr hin
    exact h.fits hbytes hsize hfirst hdigit hd hr hin
  · intro h
    constructor
    · intro v pos' hv
      exact returned_of_fits hfirst hdigit h hv
    · intro digits hd hr hrem
      exact failed_of_fits hbytes hpos hfirst hdigit h hd hr hrem

/-- `lengthHonoured_iff` on `1:a`. -/
theorem lengthHonoured_iff_example : LengthHonoured (only [49, 58, 97]) 3 (fun _ => 0) 0 49 := by
  refine (@lengthHonoured_iff _ _ [49, 58, 97] _ (reads_only _) (by decide) (by decide) _ rfl
    rfl).mpr ?_
  intro digits hd hr hin
  obtain ⟨ds, rfl⟩ := exists_digits rfl rfl hr
  cases ds with
  | nil => exact .inl (by decide)
  | cons d ds =>
      -- the byte behind the first digit is the colon
      have hcolon : some 58 = some d := hr.2.1
      have hdigit := hd d (List.mem_cons_of_mem _ List.mem_cons_self)
      rw [← Option.some.inj hcolon] at hdigit
      exact absurd hdigit (by decide)

/-- **A length wraps.** `4294967297:a` is returned as a string of one byte. -/
theorem length_wraps :
    ¬ LengthHonoured (only [52, 50, 57, 52, 57, 54, 55, 50, 57, 55, 58, 97]) 12 (fun _ => 0) 0 52 := by
  intro h
  have hr := (reads_append.mp (reads_only ([52, 50, 57, 52, 57, 54, 55, 50, 57, 55, 58] ++ [97]))).1
  obtain ⟨c, q, -, hfails⟩ := h.failed [52, 50, 57, 52, 57, 54, 55, 50, 57, 55]
    (List.all_eq_true.mp rfl) hr
    (by decide)
  have hnum : numeral [52, 50, 57, 52, 57, 54, 55, 50, 57, 55] = 1 := by decide
  have hdigits := @bParseString_digits _ 12 (fun _ => 0) 0 0 52
    [50, 57, 52, 57, 54, 55, 50, 57, 55] (List.all_eq_true.mp rfl) hr (fun _ => by decide)
  have hbytes := reads_only [52, 50, 57, 52, 57, 54, 55, 50, 57, 55, 58, 97]
  obtain ⟨bytes, hcopy⟩ := @copyLoop_of_le _ _ hbytes (allocated 1) 1 11 (by decide) fun _ => rfl
  rw [hnum] at hdigits
  rcases Result.bind_eq_stop_iff.mp (hdigits.symm.trans hfails) with hstop | ⟨_, _, -, hstop⟩
  · exact absurd (hcopy.symm.trans hstop) (by simp)
  · cases hstop

end Flood.Bencode
