import Flood.Bencode.Encoding
import Flood.Bencode.Grammar

/-!
# Integers

An integer is a `long long`, but it is read, counted and printed as an `int`.

* `integerText n` — the canonical text of a number.
* `bParseAny_integerText`, `bToString_integer` — what is read and written is the number as an `int`.
* `ExactInteger n` — the number is read and written as it is, and no step on the way overflows.
* `exactInteger_iff` — so it is exactly for the numbers that are no larger than an `int`, up to sign;
  `length_not_exact` — for a file of three gigabytes it is not.
-/

namespace Flood.Bencode

open Flood.Lib Flood.Hashtable

/-- The canonical text of a number: `i`, the number in decimal, `e`. -/
def integerText (n : Int) : List UInt8 :=
  105 :: ((if n < 0 then [45] else []) ++ printNat n.natAbs ++ [101])

/-- It is the text of a syntax tree. -/
theorem bytes_integer (n : Int) :
    (Syn.integer (decide (n < 0)) (printNat n.natAbs)).bytes = integerText n := by
  rw [Syn.bytes, integerText]
  simp only [decide_eq_true_eq]

/-- The digits of a number, with its sign, are read as the number modulo `2 ^ 32`. -/
theorem integerOf_printNat (n : Int) :
    integerOf (decide (n < 0)) (printNat n.natAbs) = wrap32 n := by
  unfold integerOf
  rw [numeral, decimal_printNat]
  by_cases hneg : n < 0
  · rw [if_pos (decide_eq_true hneg), wrap32_eq_wrap32_iff]
    have hwrap := wrap32_eq_wrap32_iff.mp (wrap32_wrap32 (n.natAbs : Int))
    omega
  · rw [if_neg (by simpa using hneg)]
    congr 1
    omega

/-- **The text of a number is read as the number modulo `2 ^ 32`**, wherever it stands. -/
theorem bParseAny_integerText (n : Int) {string : Nat → Option UInt8} {len : Int}
    {place : Nat → Addr} {depth pos : Nat} (hr : Reads string pos (integerText n))
    (hlen : (pos + (integerText n).length : Int) ≤ len) (hdepth : (integerText n).length ≤ depth) :
    bParseAny string len place depth pos =
      .ok (.integer (wrap32 n) pos (stopOf pos (integerText n)))
        (pos + (integerText n).length) := by
  rw [← bytes_integer] at hr hlen hdepth
  have hspelled : Spelled (.integer (decide (n < 0)) (printNat n.natAbs)) :=
    .integer fun c => isDigit_of_mem_printNat
  have hparse := @bParseAny_complete string len place _ hspelled depth hdepth pos hr hlen
  rwa [Syn.value, integerOf_printNat, bytes_integer] at hparse

/-- **A number is written as the text of the number modulo `2 ^ 32`.** -/
theorem bToString_integer (qsort : Qsort) (n start stop : Int) (b : Buffer) :
    bToString qsort (.integer n start stop) b = b.write (integerText (wrap32 n)) := by
  rw [bToString_eq (.integer trivial) (.integer trivial), describe_integer, integerSyn, bytes_integer]

/-! ## Exact integers -/

/-- A number is read and written as it is, and no step on the way overflows. -/
structure ExactInteger (n : Int) : Prop where
  /-- Wherever its text stands in a buffer, the number is parsed. -/
  parsed : ∀ (string : Nat → Option UInt8) (len : Int) (place : Nat → Addr) (depth pos : Nat),
    Reads string pos (integerText n) → (pos + (integerText n).length : Int) ≤ len →
    (integerText n).length ≤ depth →
    ∃ start stop, bParseAny string len place depth pos =
      .ok (.integer n start stop) (pos + (integerText n).length)
  /-- Its text is written. -/
  written : ∀ (qsort : Qsort) (start stop : Int) (b : Buffer),
    bToString qsort (.integer n start stop) b = b.write (integerText n)
  /-- `num * 10` and `num * 10 + (string[*pos] - '0')` are `int`s at every digit. -/
  accumulated : ∀ before d behind, printNat n.natAbs = before ++ d :: behind →
    FitsInt (before.foldl addDigit 0 * 10) ∧ FitsInt (before.foldl addDigit 0 * 10 + digitVal d)
  /-- `num * -1` is an `int`. -/
  negated : n < 0 → FitsInt ((printNat n.natAbs).foldl addDigit 0 * -1)
  /-- `-n` is an `int` in `declen`. -/
  counted : wrap32 n < 0 → FitsInt (-wrap32 n)

/-- A number that is read as it is is an `int`. -/
theorem ExactInteger.fits {n : Int} (h : ExactInteger n) : FitsInt n := by
  have hr := reads_only (integerText n)
  obtain ⟨start, stop, hparse⟩ := h.parsed (only (integerText n)) (integerText n).length
    (fun _ => 0) (integerText n).length 0 hr (by omega) le_rfl
  rw [bParseAny_integerText n hr (by omega) le_rfl, Result.ok.injEq, BencodeValue.integer.injEq]
    at hparse
  exact wrap32_eq_self_iff.mp hparse.1.1

/-- **Integers are exact iff they are no larger than an `int`**, up to sign. -/
theorem exactInteger_iff (n : Int) : ExactInteger n ↔ (n.natAbs : Int) ≤ intMax := by
  constructor
  · intro h
    have hfits := h.fits
    have hneg := h.counted
    rw [wrap32_of_fits hfits] at hneg
    unfold FitsInt intMin intMax at hfits hneg
    unfold intMax
    omega
  · intro h
    have hfits : FitsInt n := ⟨by unfold intMin; unfold intMax at h; omega, by omega⟩
    have hwrap := wrap32_of_fits hfits
    have hnum : ∀ before behind, printNat n.natAbs = before ++ behind →
        before.foldl addDigit 0 = decimal before ∧ decimal before ≤ n.natAbs := by
      intro before behind hsplit
      have hle := decimal_le_append before behind
      rw [← hsplit, decimal_printNat] at hle
      have hfold : before.foldl addDigit 0 = numeral before := foldl_addDigit [] before
      refine ⟨?_, hle⟩
      rw [hfold, numeral]
      exact wrap32_of_fits ⟨by unfold intMin; omega, by omega⟩
    refine ⟨?_, ?_, ?_, ?_, ?_⟩
    · intro string len place depth pos hr hlen hdepth
      have hparse := @bParseAny_integerText n string len place depth pos hr hlen hdepth
      rw [hwrap] at hparse
      exact ⟨_, _, hparse⟩
    · intro qsort start stop b
      rw [bToString_integer, hwrap]
    · intro before d behind hsplit
      obtain ⟨hacc, -⟩ := hnum before (d :: behind) hsplit
      obtain ⟨-, hle⟩ := hnum (before ++ [d]) behind (by rw [hsplit, List.append_cons])
      rw [decimal_append_singleton] at hle
      rw [hacc]
      unfold FitsInt intMin
      omega
    · intro hneg
      obtain ⟨hacc, -⟩ := hnum (printNat n.natAbs) [] (List.append_nil _).symm
      rw [hacc, decimal_printNat]
      unfold FitsInt intMin
      unfold intMax at h ⊢
      omega
    · intro hneg
      rw [hwrap]
      unfold FitsInt intMin
      unfold intMax at h ⊢
      omega

/-- **The length of a file of three gigabytes is not exact**, though it is a `long long`. -/
theorem length_not_exact :
    -9223372036854775808 ≤ (3000000000 : Int) ∧ (3000000000 : Int) ≤ 9223372036854775807 ∧
      ¬ ExactInteger 3000000000 :=
  ⟨by decide, by decide, fun h => absurd h.fits (by unfold FitsInt intMax; omega)⟩

end Flood.Bencode
