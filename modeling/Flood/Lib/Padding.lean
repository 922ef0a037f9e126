import Flood.Lib.Layout

/-!
# Blocks that are filled in part

A block of zeros, of which the first bytes have been overwritten.

* `padTo` — the block.
* `getElem?_padTo_take`, `slice_padTo_take` — its bytes, and its fields.
* `padTo_take_eq_iff` — where the last byte shows that all of it has arrived.
-/

namespace Flood.Lib

variable {n k : Nat} {bs bs' : List UInt8}

/-- The first bytes of a block of `n`, which was zero before. -/
def padTo (n : Nat) (bs : List UInt8) : List UInt8 := bs ++ List.replicate (n - bs.length) 0

/-- A block of `n` bytes, of which the first `k` have arrived, byte by byte. -/
theorem getElem?_padTo_take (hbs : bs.length = n) (i : Nat) :
    (padTo n (bs.take k))[i]? = if i < k then bs[i]? else if i < n then some 0 else none := by
  have hlen : (bs.take k).length = min k n := by rw [List.length_take, hbs]
  unfold padTo
  by_cases hi : i < k
  · rw [if_pos hi]
    by_cases hin : i < n
    · rw [List.getElem?_append_left (by omega), List.getElem?_take_of_lt hi]
    · rw [List.getElem?_append_right (by omega), List.getElem?_eq_none (by omega : bs.length ≤ i)]
      apply List.getElem?_eq_none
      simp
      omega
  · rw [if_neg hi, List.getElem?_append_right (by omega), List.getElem?_replicate, hlen]
    congr 1
    simp
    omega

/-- **A field of a block** that has arrived in part has arrived in part. -/
theorem slice_padTo_take {i m : Nat} (hbs : bs.length = n) (him : i + m ≤ n) (k : Nat) :
    slice (padTo n (bs.take k)) i m = padTo m ((slice bs i m).take (k - i)) := by
  have hslice : (slice bs i m).length = m := by
    simp [slice]
    omega
  apply List.ext_getElem?
  intro j
  rw [getElem?_padTo_take hslice, slice, slice, List.getElem?_take, List.getElem?_drop,
    getElem?_padTo_take hbs, List.getElem?_take, List.getElem?_drop]
  split_ifs
  all_goals first
    | rfl
    | omega

/-- A block that ends in a byte that is not zero has arrived whole, or not at all. -/
theorem padTo_take_eq_iff {c : UInt8} (hbs : bs.length = n + 1)
    (hbs' : bs'.length = n + 1) (hlast : bs'[n]? = some c) (hc : c ≠ 0) :
    padTo (n + 1) (bs.take k) = bs' ↔ n + 1 ≤ k ∧ bs = bs' := by
  constructor
  · intro h
    have hn := getElem?_padTo_take hbs n (k := k)
    rw [h, hlast] at hn
    by_cases hk : n < k
    · rw [List.take_of_length_le (by omega)] at h
      refine ⟨hk, ?_⟩
      simpa [padTo, hbs] using h
    · rw [if_neg hk, if_pos n.lt_succ_self] at hn
      exact absurd (Option.some.inj hn) hc
  · rintro ⟨hk, rfl⟩
    rw [List.take_of_length_le (by omega)]
    simp [padTo, hbs]

end Flood.Lib
