import Mathlib.Data.List.TakeWhile
import Mathlib.Tactic.Common
import Flood.Lib.Compare

/-!
# C strings

A C string in memory is read up to its first NUL.

* `cstr bs` — what a C program reads of the bytes `bs`, a NUL standing behind them.
* `strcmp a b` — the difference of the first bytes in which two strings differ, the end of a string
  counting as a NUL.
* `strcmp_eq_zero_iff`, `strcmp_neg`, `strcmp_trans` — on NUL-free strings it is a comparison: zero
  on equal strings only, antisymmetric, transitive. `compares_strcmp` puts it together.
-/

namespace Flood.Lib

/-- The bytes before the first NUL. -/
def cstr (bs : List UInt8) : List UInt8 := bs.takeWhile (· != 0)

/-- No byte is a NUL. -/
def NulFree (bs : List UInt8) : Prop := ∀ c ∈ bs, c ≠ 0

instance (bs : List UInt8) : Decidable (NulFree bs) := List.decidableBAll (fun c => c ≠ 0) bs

/-- What is read has no NUL. -/
theorem nulFree_cstr (bs : List UInt8) : NulFree (cstr bs) := by
  intro c hc
  simpa using List.mem_takeWhile_imp hc

/-- A NUL-free string is read whole. -/
theorem cstr_of_nulFree {bs : List UInt8} (h : NulFree bs) : cstr bs = bs := by
  rw [cstr, List.takeWhile_eq_self_iff]
  intro c hc
  simpa using h c hc

/-- Behind NUL-free bytes a string goes on. -/
theorem cstr_append {bs : List UInt8} (h : NulFree bs) (rest : List UInt8) :
    cstr (bs ++ rest) = bs ++ cstr rest := by
  unfold cstr
  apply List.takeWhile_append_of_pos
  intro c hc
  exact bne_iff_ne.mpr (h c hc)

@[simp] theorem cstr_cstr (bs : List UInt8) : cstr (cstr bs) = cstr bs :=
  cstr_of_nulFree (nulFree_cstr bs)

/-- No more is read than is there. -/
theorem length_cstr_le (bs : List UInt8) : (cstr bs).length ≤ bs.length :=
  (List.takeWhile_sublist _).length_le

/-- Compare two NUL-free strings.
Source: C standard library, `strcmp` -/
def strcmp : List UInt8 → List UInt8 → Int
  | [], [] => 0
  | [], b :: _ => -b.toNat
  | a :: _, [] => a.toNat
  | a :: as, b :: bs => if a = b then strcmp as bs else (a.toNat : Int) - b.toNat

@[simp] theorem strcmp_self (a : List UInt8) : strcmp a a = 0 := by
  induction a with
  | nil => rfl
  | cons c a ih => rw [strcmp, if_pos rfl, ih]

/-- Comparing the other way round changes the sign. -/
theorem strcmp_neg (a b : List UInt8) : strcmp b a = -strcmp a b := by
  induction a generalizing b with
  | nil => cases b <;> simp [strcmp]
  | cons c a ih =>
      cases b with
      | nil => simp [strcmp]
      | cons d b =>
          rw [strcmp, strcmp]
          by_cases hcd : c = d
          · rw [if_pos hcd, if_pos hcd.symm, ih]
          · rw [if_neg hcd, if_neg (Ne.symm hcd)]
            omega

/-- Different bytes differ as numbers. -/
theorem toNat_ne {c d : UInt8} (h : c ≠ d) : c.toNat ≠ d.toNat := fun hcd =>
  h (UInt8.toNat_inj.mp hcd)

/-- The first byte of a NUL-free string counts. -/
theorem NulFree.toNat_pos {c : UInt8} {bs : List UInt8} (h : NulFree (c :: bs)) : 0 < c.toNat :=
  Nat.pos_of_ne_zero (toNat_ne (h c List.mem_cons_self))

/-- The rest of a NUL-free string is NUL-free. -/
theorem NulFree.tail {c : UInt8} {bs : List UInt8} (h : NulFree (c :: bs)) : NulFree bs :=
  fun d hd => h d (List.mem_cons_of_mem c hd)

/-- **Only equal NUL-free strings compare equal.** -/
theorem strcmp_eq_zero_iff {a b : List UInt8} (ha : NulFree a) (hb : NulFree b) :
    strcmp a b = 0 ↔ a = b := by
  refine ⟨fun h => ?_, fun h => h ▸ strcmp_self a⟩
  induction a generalizing b with
  | nil =>
      cases b with
      | nil => rfl
      | cons d b =>
          have := hb.toNat_pos
          rw [strcmp] at h
          omega
  | cons c a ih =>
      cases b with
      | nil =>
          have := ha.toNat_pos
          rw [strcmp] at h
          omega
      | cons d b =>
          rw [strcmp] at h
          split_ifs at h with hcd
          · rw [hcd, ih ha.tail hb.tail h]
          · have := toNat_ne hcd
            omega

/-- **Not greater than is transitive.** -/
theorem strcmp_trans {a b c : List UInt8} (ha : NulFree a) (hb : NulFree b) (hc : NulFree c)
    (hab : strcmp a b ≤ 0) (hbc : strcmp b c ≤ 0) : strcmp a c ≤ 0 := by
  induction a generalizing b c with
  | nil => cases c <;> simp [strcmp]
  | cons x a ih =>
      cases b with
      | nil =>
          have := ha.toNat_pos
          rw [strcmp] at hab
          omega
      | cons y b =>
          cases c with
          | nil =>
              have := hb.toNat_pos
              rw [strcmp] at hbc
              omega
          | cons z c =>
              rw [strcmp] at hab hbc ⊢
              by_cases hxy : x = y
              · subst hxy
                rw [if_pos rfl] at hab
                by_cases hxz : x = z
                · rw [if_pos hxz] at hbc ⊢
                  exact ih ha.tail hb.tail hc.tail hab hbc
                · rwa [if_neg hxz] at hbc ⊢
              · have hne := toNat_ne hxy
                rw [if_neg hxy] at hab
                by_cases hyz : y = z
                · subst hyz
                  rwa [if_neg hxy]
                · rw [if_neg hyz] at hbc
                  have hxz : x ≠ z := by
                    rintro rfl
                    omega
                  rw [if_neg hxz]
                  omega

/-- **Comparing NUL-free strings of things** is a comparison. -/
theorem compares_strcmp {α : Type} {str : α → List UInt8} (h : ∀ a, NulFree (str a)) :
    Compares fun a b => strcmp (str a) (str b) where
  neg a b := strcmp_neg (str a) (str b)
  trans hab hbc := strcmp_trans (h _) (h _) (h _) hab hbc

end Flood.Lib
