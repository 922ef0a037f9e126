import Mathlib.Data.List.Basic
import Mathlib.Tactic.Common

/-!
# Stores at offsets of a block

A block of bytes that is filled by stores at fixed offsets.

* `storeAt`, `storeAll` — one store, and several; `none` where the block ends.
* `slice` — the bytes from an offset on.
* `Tiles` — the stores lie one behind the other.
* `storeAll_of_tiles` — then they leave their bytes, one behind the other.
* `slice_of_tiles`, `covered_of_tiles` — each is found at its offset, and every byte is in one of
  them only.
-/

namespace Flood.Lib

variable {block bytes : List UInt8} {stores : List (Nat × List UInt8)} {i j k n : Nat}

/-- Store bytes at an offset of a block; `none` if they do not fit. -/
def storeAt (i : Nat) (bytes block : List UInt8) : Option (List UInt8) :=
  if i + bytes.length ≤ block.length then
    some (block.take i ++ bytes ++ block.drop (i + bytes.length))
  else none

/-- Several stores, in order. -/
def storeAll (stores : List (Nat × List UInt8)) (block : List UInt8) : Option (List UInt8) :=
  stores.foldlM (fun block s => storeAt s.1 s.2 block) block

/-- The `n` bytes from an offset on. -/
def slice (block : List UInt8) (i n : Nat) : List UInt8 := (block.drop i).take n

/-- The stores fill what lies between two offsets, one behind the other. -/
def Tiles : Nat → List (Nat × List UInt8) → Nat → Prop
  | i, [], j => i = j
  | i, s :: stores, j => s.1 = i ∧ Tiles (i + s.2.length) stores j

/-- They end where their lengths end. -/
theorem Tiles.end_eq (h : Tiles i stores j) :
    i + (stores.flatMap Prod.snd).length = j := by
  induction stores generalizing i with
  | nil => exact h
  | cons s stores ih =>
      rw [List.flatMap_cons, List.length_append, ← Nat.add_assoc]
      exact ih h.2

/-- **What stores leave that fill a block from an offset on.** -/
theorem storeAll_of_tiles (h : Tiles i stores block.length) :
    storeAll stores block = some (block.take i ++ stores.flatMap Prod.snd) := by
  induction stores generalizing i block with
  | nil =>
      rw [show i = block.length from h, List.take_length, List.flatMap_nil, List.append_nil]
      rfl
  | cons s stores ih =>
      have hend := h.2.end_eq
      have hfit : s.1 + s.2.length ≤ block.length := by
        rw [h.1]
        omega
      have hlen : (block.take i ++ s.2).length = i + s.2.length := by
        rw [List.length_append, List.length_take, Nat.min_eq_left (by omega)]
      have hkept : (block.take i ++ s.2 ++ block.drop (i + s.2.length)).length = block.length := by
        rw [List.length_append, hlen, List.length_drop]
        omega
      have hrest : storeAll stores (block.take i ++ s.2 ++ block.drop (i + s.2.length)) =
          some ((block.take i ++ s.2 ++ block.drop (i + s.2.length)).take (i + s.2.length) ++
            stores.flatMap Prod.snd) := ih (hkept.symm ▸ h.2)
      rw [← hlen, List.take_left, hlen, List.append_assoc (block.take i) s.2 (stores.flatMap _)]
        at hrest
      rw [storeAll, List.foldlM_cons, storeAt, if_pos hfit, h.1, List.flatMap_cons]
      exact hrest

/-- **Each store is found at its offset.** -/
theorem slice_of_tiles {pre : List UInt8} (h : Tiles i stores j) (hpre : pre.length = i)
    {s : Nat × List UInt8} (hs : s ∈ stores) :
    slice (pre ++ stores.flatMap Prod.snd) s.1 s.2.length = s.2 := by
  induction stores generalizing i pre with
  | nil => exact absurd hs List.not_mem_nil
  | cons s' stores ih =>
      rw [List.flatMap_cons]
      rcases List.mem_cons.mp hs with rfl | hs
      · rw [slice, h.1, ← hpre, List.drop_left, List.take_left]
      · rw [← List.append_assoc]
        exact ih h.2 (by rw [List.length_append, hpre]) hs

/-- Every byte between the two offsets is in a store. -/
theorem covered_of_tiles (h : Tiles i stores j) (hi : i ≤ n) (hj : n < j) :
    ∃ s ∈ stores, s.1 ≤ n ∧ n < s.1 + s.2.length := by
  induction stores generalizing i with
  | nil => exact absurd hi (Nat.not_le.mpr (Nat.lt_of_lt_of_eq hj (Eq.symm h)))
  | cons s stores ih =>
      by_cases hn : n < i + s.2.length
      · exact ⟨s, List.mem_cons_self, h.1.symm ▸ hi, h.1.symm ▸ hn⟩
      · obtain ⟨s', hs', hin⟩ := ih h.2 (Nat.not_lt.mp hn)
        exact ⟨s', List.mem_cons_of_mem s hs', hin⟩

end Flood.Lib
