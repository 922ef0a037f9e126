import Mathlib.Data.List.Pairwise
import Mathlib.Tactic.Common

/-!
# Sorting with a comparison function

A sort that is given one comparison and is meant to sort by another.

* `Compares cmp` — `cmp` compares as C functions do: a sign, its opposite the other way round.
* `sortBy cmp` — a sort by a comparison; `thenBy` — a comparison, and another where the first finds no
  difference.
* `Respects cmp cmp' l` — what `cmp'` puts before, `cmp` does, among the elements of `l`.
* `Compares.sorted_of_respects` — then a list sorted by `cmp` is sorted by `cmp'`.
* `respects_of_sorted` — if every list sorted by `cmp` is, and so one that is sorted against `cmp'`
  where `cmp` leaves a choice, what `cmp'` puts before, `cmp` does.
-/

namespace Flood.Lib

variable {α : Type} {cmp cmp' : α → α → Int}

/-- A comparison: negative where the first argument comes first, zero where neither does. -/
structure Compares (cmp : α → α → Int) : Prop where
  /-- The other way round, the sign is the other. -/
  neg : ∀ a b, cmp b a = -cmp a b
  /-- Not behind is transitive. -/
  trans : ∀ {a b c}, cmp a b ≤ 0 → cmp b c ≤ 0 → cmp a c ≤ 0

namespace Compares

/-- Nothing comes before itself. -/
theorem self (h : Compares cmp) (a : α) : cmp a a = 0 := by
  have := h.neg a a
  omega

/-- Comparing the other way round. -/
theorem reverse (h : Compares cmp) : Compares fun a b => cmp b a where
  neg a b := h.neg b a
  trans hab hbc := h.trans hbc hab

/-- What comes before stays before what is not before it. -/
theorem lt_of_lt_of_le (h : Compares cmp) {a b c : α} (hab : cmp a b < 0) (hbc : cmp b c ≤ 0) :
    cmp a c < 0 := by
  by_contra hac
  have hca := h.neg a c
  have hba := h.neg a b
  have hle := h.trans hbc (by omega : cmp c a ≤ 0)
  omega

/-- What is not behind stays before. -/
theorem lt_of_le_of_lt (h : Compares cmp) {a b c : α} (hab : cmp a b ≤ 0) (hbc : cmp b c < 0) :
    cmp a c < 0 := by
  by_contra hac
  have hca := h.neg a c
  have hcb := h.neg b c
  have hle := h.trans (by omega : cmp c a ≤ 0) hab
  omega

/-- Neither before nor behind is transitive. -/
theorem eq_trans (h : Compares cmp) {a b c : α} (hab : cmp a b = 0) (hbc : cmp b c = 0) :
    cmp a c = 0 := by
  have hle := h.trans (Int.le_of_eq hab) (Int.le_of_eq hbc)
  have hge := h.reverse.trans (by rw [h.neg, hab]; decide) (by rw [h.neg, hbc]; decide)
  have hca := h.neg a c
  omega

end Compares

/-! ## Sorting -/

/-- Sort by a comparison. -/
def sortBy (cmp : α → α → Int) (l : List α) : List α := l.mergeSort fun a b => decide (cmp a b ≤ 0)

/-- The elements stay the same. -/
theorem sortBy_perm (cmp : α → α → Int) (l : List α) : (sortBy cmp l).Perm l :=
  List.mergeSort_perm l _

/-- The list is sorted. -/
theorem pairwise_sortBy (h : Compares cmp) (l : List α) :
    (sortBy cmp l).Pairwise fun a b => cmp a b ≤ 0 := by
  have hsorted := @List.pairwise_mergeSort α (fun a b => decide (cmp a b ≤ 0)) ?trans ?total l
  case trans =>
    intro a b c hab hbc
    exact decide_eq_true (h.trans (of_decide_eq_true hab) (of_decide_eq_true hbc))
  case total =>
    intro a b
    rw [Bool.or_eq_true, decide_eq_true_eq, decide_eq_true_eq, h.neg a b]
    omega
  exact hsorted.imp fun hab => of_decide_eq_true hab

/-- One comparison, and another where it finds no difference. -/
def thenBy (cmp cmp' : α → α → Int) (a b : α) : Int := if cmp a b = 0 then cmp' a b else cmp a b

/-- Not behind: before by the first, or not behind by the second. -/
theorem thenBy_le_iff {a b : α} : thenBy cmp cmp' a b ≤ 0 ↔ cmp a b < 0 ∨ cmp a b = 0 ∧ cmp' a b ≤ 0 := by
  unfold thenBy
  split_ifs with heq
  · rw [heq]
    simp
  · omega

/-- Two comparisons in turn are a comparison. -/
theorem Compares.thenBy (h : Compares cmp) (h' : Compares cmp') : Compares (thenBy cmp cmp') where
  neg a b := by
    unfold Lib.thenBy
    rw [h.neg a b, h'.neg a b]
    split_ifs <;> omega
  trans {a b c} hab hbc := by
    rw [thenBy_le_iff] at hab hbc ⊢
    rcases hab with hab | ⟨hab, hab'⟩
    · rcases hbc with hbc | ⟨hbc, -⟩
      · exact .inl (h.lt_of_lt_of_le hab (Int.le_of_lt hbc))
      · exact .inl (h.lt_of_lt_of_le hab (Int.le_of_eq hbc))
    · rcases hbc with hbc | ⟨hbc, hbc'⟩
      · exact .inl (h.lt_of_le_of_lt (Int.le_of_eq hab) hbc)
      · exact .inr ⟨h.eq_trans hab hbc, h'.trans hab' hbc'⟩

/-! ## Sorting by one comparison to sort by another -/

/-- Among the elements of `l`, what `cmp'` puts before, `cmp` does. -/
def Respects (cmp cmp' : α → α → Int) (l : List α) : Prop :=
  ∀ a ∈ l, ∀ b ∈ l, cmp' a b < 0 → cmp a b < 0

/-- **Sorted by the one, sorted by the other**, if the other finds a difference everywhere. -/
theorem Compares.sorted_of_respects (h : Compares cmp) (h' : Compares cmp') {l : List α}
    (hrespects : Respects cmp cmp' l) (hne : l.Pairwise fun a b => cmp' a b ≠ 0)
    (hsorted : l.Pairwise fun a b => cmp a b ≤ 0) : l.Pairwise fun a b => cmp' a b < 0 := by
  refine (hsorted.and hne).imp_of_mem fun {a b} ha hb ⟨hle, hne⟩ => ?_
  by_contra hab
  have hba := h.neg a b
  have hba' := h'.neg a b
  have hcmp := hrespects b hb a ha (by omega)
  omega

/-- **Sorted by the other even where the one leaves a choice**: what the other puts before, the one
does. -/
theorem respects_of_sorted (h : Compares cmp) (h' : Compares cmp') {l : List α}
    (hsorted : (sortBy (thenBy cmp fun a b => cmp' b a) l).Pairwise fun a b => cmp' a b < 0) :
    Respects cmp cmp' l := by
  have hperm := sortBy_perm (thenBy cmp fun a b => cmp' b a) l
  have hpair := pairwise_sortBy (h.thenBy h'.reverse) l
  have hbefore : (sortBy (thenBy cmp fun a b => cmp' b a) l).Pairwise
      fun a b => cmp' a b < 0 → cmp a b < 0 := by
    refine hpair.imp fun {a b} hab hlt => ?_
    have hba := h'.neg a b
    rcases thenBy_le_iff.mp hab with hab | ⟨-, hge⟩
    · exact hab
    · omega
  have hbehind : (sortBy (thenBy cmp fun a b => cmp' b a) l).Pairwise
      fun a b => cmp' b a < 0 → cmp b a < 0 := by
    refine hsorted.imp fun {a b} hab hlt => ?_
    have hba := h'.neg a b
    omega
  have hall := List.Pairwise.forall_of_forall_of_flip
    (fun a _ hlt => absurd hlt (by rw [h'.self a]; decide)) hbefore hbehind
  intro a ha b hb
  exact hall (hperm.mem_iff.mpr ha) (hperm.mem_iff.mpr hb)

end Flood.Lib
