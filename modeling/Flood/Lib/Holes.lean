import Mathlib.Data.List.Nodup

/-!
# Heaps with holes

A heap whose freed cells are holes.

* `release h as` — the heap with holes at the addresses `as`; `getElem?_release_of_notMem` — the other
  cells stay.
* `countP_release` — each of them is one cell less.
-/

namespace Flood.Lib

variable {N : Type} {h : List (Option N)} {as bs : List Nat} {a : Nat}

/-- Leave holes at some addresses. -/
def release (h : List (Option N)) (as : List Nat) : List (Option N) :=
  as.foldl (fun h a => h.set a none) h

@[simp] theorem release_nil : release h [] = h := rfl

theorem release_cons : release h (a :: as) = release (h.set a none) as := rfl

/-- First the one addresses, then the others. -/
theorem release_append : release h (as ++ bs) = release (release h as) bs :=
  List.foldl_append

@[simp] theorem length_release : (release h as).length = h.length := by
  induction as generalizing h with
  | nil => rfl
  | cons a as ih => rw [release_cons, ih, List.length_set]

/-- The other cells stay. -/
theorem getElem?_release_of_notMem (ha : a ∉ as) : (release h as)[a]? = h[a]? := by
  induction as generalizing h with
  | nil => rfl
  | cons b as ih =>
      rw [List.mem_cons, not_or] at ha
      rw [release_cons, ih ha.2, List.getElem?_set_ne (Ne.symm ha.1)]

/-- There is nothing at the addresses. -/
theorem join_getElem?_release_of_mem (ha : a ∈ as) : (release h as)[a]?.join = none := by
  induction as generalizing h with
  | nil => exact absurd ha List.not_mem_nil
  | cons b as ih =>
      rw [release_cons]
      by_cases hmem : a ∈ as
      · exact ih hmem
      · obtain rfl : a = b := by simpa [hmem] using ha
        rw [getElem?_release_of_notMem hmem, List.getElem?_set_self']
        cases h[a]? <;> rfl

/-- A cell is left iff it was there and is none of those released. -/
theorem join_getElem?_release_eq_some_iff {n : N} :
    (release h as)[a]?.join = some n ↔ h[a]?.join = some n ∧ a ∉ as := by
  by_cases ha : a ∈ as
  · simp [join_getElem?_release_of_mem ha, ha]
  · simp [getElem?_release_of_notMem ha, ha]

/-- **Each address released is one cell less**, if they are different and there is a cell at each. -/
theorem countP_release (hnd : as.Nodup) (hlive : ∀ a ∈ as, ∃ n, h[a]?.join = some n) :
    (release h as).countP Option.isSome + as.length = h.countP Option.isSome := by
  induction as generalizing h with
  | nil => rfl
  | cons a as ih =>
      obtain ⟨hnot, hnd⟩ := List.nodup_cons.mp hnd
      obtain ⟨n, hn⟩ := hlive a List.mem_cons_self
      have hcell : h[a]? = some (some n) := Option.join_eq_some_iff.mp hn
      obtain ⟨hlt, hget⟩ := List.getElem?_eq_some_iff.mp hcell
      have hrest : ∀ b ∈ as, ∃ n, (h.set a none)[b]?.join = some n := by
        intro b hb
        have hne : a ≠ b := fun hab => hnot (by rwa [hab])
        rw [List.getElem?_set_ne hne]
        exact hlive b (List.mem_cons_of_mem a hb)
      have hcount := List.countP_set (p := Option.isSome) (l := h) (i := a) (a := none) hlt
      rw [hget] at hcount
      have hpos : 0 < h.countP Option.isSome :=
        List.countP_pos_iff.mpr ⟨some n, List.mem_of_getElem? hcell, rfl⟩
      have hsum := ih hnd hrest
      rw [release_cons, List.length_cons]
      simp only [Option.isSome_some, if_true, Option.isSome_none] at hcount
      simp only [Bool.false_eq_true, if_false, Nat.add_zero] at hcount
      omega

/-- Before anything is released all cells are there. -/
theorem countP_map_some (h : List N) : (h.map some).countP Option.isSome = h.length := by
  simp [List.countP_map]

end Flood.Lib
