import Flood.Lib.Word
import Mathlib.Data.List.Forall2

/-!
# Arrays on the heap

An array is the list of its slots, and an index is an `int`.

* `allocate` — `malloc` of a number of slots. The size is computed in 64 bits, and no block is larger
  than `ptrdiffMax`; a null pointer has no slots.
* `slot`, `setSlot`, `updateSlot` — reading and writing by index; `none` outside the array.
* `through` — a loop over a sequence whose body may return a code.
* `through_fill` — a loop that writes what it reads of each element to the next slot fills the
  array, `through_fill_allocate` — also one that was made for them; `of_through_fill` — a loop that
  completes had slots for all elements.
-/

namespace Flood.Lib

variable {α β σ : Type} {a xs r : List α} {x y : α} {i : Int} {g : β → Option α} {vs : List β}

/-! ## Slots -/

/-- The largest number of bytes that `malloc` gives. -/
def ptrdiffMax : Nat := 9223372036854775807

/-- `malloc(count * size)` -/
def allocate (count : Int) (size : Nat) (unset : α) : List α :=
  let bytes := (count * size % 18446744073709551616).toNat
  if bytes ≤ ptrdiffMax then List.replicate (bytes / size) unset else []

/-- `a[i]` -/
def slot (a : List α) (i : Int) : Option α := if 0 ≤ i then a[i.toNat]? else none

/-- `a[i] = x` -/
def setSlot (a : List α) (i : Int) (x : α) : Option (List α) :=
  if 0 ≤ i ∧ i < a.length then some (a.set i.toNat x) else none

/-- Write members of `a[i]`. -/
def updateSlot (a : List α) (i : Int) (f : α → α) : Option (List α) := do
  let x ← slot a i
  setSlot a i (f x)

/-- A block that is not too large. -/
theorem allocate_natCast {n size : Nat} (hsize : 0 < size) (h : n * size ≤ ptrdiffMax) (x : α) :
    allocate n size x = List.replicate n x := by
  have hbytes : ((n : Int) * size % 18446744073709551616).toNat = n * size := by
    unfold ptrdiffMax at h
    rw [← Nat.cast_mul]
    omega
  rw [allocate, hbytes, if_pos h, Nat.mul_div_cancel n hsize]

/-- There are as many slots as an `int` counts. -/
theorem allocate_of_le_intMax {n size : Nat} (h : (n : Int) ≤ intMax) (hsize : 0 < size)
    (hsmall : size ≤ 1073741824) (x : α) : allocate n size x = List.replicate n x := by
  have hn : n ≤ 2147483647 := by
    unfold intMax at h
    omega
  apply allocate_natCast hsize
  calc n * size ≤ 2147483647 * 1073741824 := Nat.mul_le_mul hn hsmall
    _ ≤ ptrdiffMax := by decide

/-- A negative number of slots is a block that is too large. -/
theorem allocate_neg {count : Int} {size : Nat} (hneg : count < 0) (hlo : intMin ≤ count)
    (hsize : 0 < size) (hsmall : size ≤ 1073741824) (x : α) : allocate count size x = [] := by
  have hlt : count * size < 0 := mul_neg_of_neg_of_pos hneg (Nat.cast_pos.mpr hsize)
  have hge : intMin * 1073741824 ≤ count * size := by
    calc intMin * 1073741824 ≤ intMin * (size : Int) :=
          mul_le_mul_of_nonpos_left (Nat.cast_le.mpr hsmall) (by decide)
      _ ≤ count * size := mul_le_mul_of_nonneg_right hlo (Nat.cast_nonneg size)
  unfold intMin at hge
  have hbytes : ¬ (count * size % 18446744073709551616).toNat ≤ ptrdiffMax := by
    unfold ptrdiffMax
    omega
  rw [allocate, if_neg hbytes]

/-- Reading the slot behind the first ones. -/
theorem slot_seam (xs r : List α) (x : α) : slot (xs ++ x :: r) xs.length = some x := by
  rw [slot, if_pos (Int.natCast_nonneg _), Int.toNat_natCast,
    List.getElem?_append_right le_rfl, Nat.sub_self, List.getElem?_cons_zero]

/-- Writing the slot behind the first ones. -/
theorem setSlot_seam (xs r : List α) (x y : α) :
    setSlot (xs ++ x :: r) xs.length y = some (xs ++ y :: r) := by
  have hin : (0 : Int) ≤ xs.length ∧ (xs.length : Int) < (xs ++ x :: r).length := by
    rw [List.length_append, List.length_cons]
    omega
  rw [setSlot, if_pos hin, Int.toNat_natCast, List.set_append_right _ _ le_rfl, Nat.sub_self,
    List.set_cons_zero]

/-- A write that is defined is within the array. -/
theorem setSlot_eq_some_iff {a' : List α} :
    setSlot a i x = some a' ↔ (0 ≤ i ∧ i < a.length) ∧ a' = a.set i.toNat x := by
  rw [setSlot]
  split_ifs with h
  · rw [Option.some.injEq, and_iff_right h, eq_comm]
  · exact iff_of_false (by simp) fun hin => h hin.1

/-- Members are written exactly where the slot can be. -/
theorem updateSlot_eq (a : List α) (i : Int) (f : α → α) :
    updateSlot a i f =
      if 0 ≤ i ∧ i < a.length then some (a.modify i.toNat f) else none := by
  rw [updateSlot, slot]
  split_ifs with hi hin
  · have hlt : i.toNat < a.length := by omega
    rw [List.getElem?_eq_getElem hlt, Option.bind_eq_bind, Option.bind_some, setSlot, if_pos hin,
      List.modify_eq_set_getElem?, List.getElem?_eq_getElem hlt]
    rfl
  · rw [List.getElem?_eq_none (by omega)]
    rfl
  · exact absurd ‹_› (by omega)
  · rfl

/-- Writing members of a slot in two steps. -/
theorem updateSlot_bind_updateSlot (a : List α) (i : Int) (f g : α → α) :
    (updateSlot a i f).bind (fun a => updateSlot a i g) = updateSlot a i (g ∘ f) := by
  rw [updateSlot_eq, updateSlot_eq]
  split_ifs with hin
  · rw [Option.bind_some, updateSlot_eq, List.length_modify, if_pos hin, List.modify_modify_eq]
  · rfl

/-- Writing all members of a slot. -/
theorem updateSlot_const (a : List α) (i : Int) (x : α) :
    updateSlot a i (fun _ => x) = setSlot a i x := by
  rw [updateSlot_eq, setSlot]
  split_ifs with hin
  · rw [List.modify_eq_set_getElem?, List.getElem?_eq_getElem (by omega)]
    rfl
  · rfl

/-! ## Loops -/

/-- A loop over a sequence, up to the first turn that returns a code. -/
def through (f : β → σ → Option (Option Int × σ)) : List β → σ → Option (Option Int × σ)
  | [], s => some (none, s)
  | v :: vs, s => do
      let (code, s) ← f v s
      match code with
      | some code => some (some code, s)
      | none => through f vs s

/-- Write what `g` reads of an element to the next slot. -/
def fill (g : β → Option α) (v : β) (s : Int × List α) : Option (Option Int × Int × List α) := do
  let x ← g v
  let a ← setSlot s.2 s.1 x
  some (none, wrap32 (s.1 + 1), a)

/-- A turn that reads `x`. -/
theorem fill_of_some {v : β} (h : g v = some x) (s : Int × List α) :
    fill g v s = (setSlot s.2 s.1 x).map fun a => (none, wrap32 (s.1 + 1), a) := by
  rw [fill, h, Option.map_eq_bind]
  rfl

/-- A turn that reads nothing. -/
theorem fill_of_none {v : β} (h : g v = none) (s : Int × List α) : fill g v s = none := by
  rw [fill, h]
  rfl

/-- Reading all elements. -/
theorem mapM_eq_some_iff {ys : List α} :
    vs.mapM g = some ys ↔ List.Forall₂ (fun v y => g v = some y) vs ys := by
  induction vs generalizing ys with
  | nil =>
      rw [List.mapM_nil, List.forall₂_nil_left_iff, eq_comm]
      exact Option.some_inj
  | cons v vs ih =>
      rw [List.mapM_cons, Option.bind_eq_bind, Option.bind_eq_some_iff, List.forall₂_cons_left_iff]
      refine exists_congr fun y => ?_
      constructor
      · rintro ⟨hy, h⟩
        obtain ⟨zs, hzs, h⟩ := Option.bind_eq_some_iff.mp h
        exact ⟨zs, hy, ih.mp hzs, (Option.some.inj h).symm⟩
      · rintro ⟨zs, hy, hzs, rfl⟩
        rw [ih.mpr hzs]
        exact ⟨hy, rfl⟩

/-- **Filling.** What is read of the elements is written behind the first slots, in order. -/
theorem through_fill {ys : List α} (hg : List.Forall₂ (fun v y => g v = some y) vs ys)
    (hroom : vs.length ≤ r.length) (hmax : ((xs.length + vs.length : Nat) : Int) ≤ intMax) :
    through (fill g) vs (xs.length, xs ++ r) =
      some (none, ((xs.length + vs.length : Nat) : Int), xs ++ ys ++ r.drop vs.length) := by
  induction hg generalizing xs r with
  | nil => simp [through]
  | @cons v y vs zs hy _ ih =>
      cases r with
      | nil => exact absurd hroom (by simp)
      | cons x r =>
          rw [List.length_cons] at hroom hmax
          have hnext : wrap32 ((xs.length : Int) + 1) = ((xs ++ [y]).length : Nat) := by
            rw [List.length_append, List.length_singleton, ← Nat.cast_succ]
            exact wrap32_natCast (le_trans (Nat.cast_le.mpr (by omega)) hmax)
          have hturn : fill g v (xs.length, xs ++ x :: r) =
              some (none, (((xs ++ [y]).length : Nat) : Int), (xs ++ [y]) ++ r) := by
            rw [fill_of_some hy, setSlot_seam, Option.map_some, hnext, List.append_assoc,
              List.singleton_append]
          have hrest := @ih (xs ++ [y]) r (Nat.le_of_succ_le_succ hroom) (by
            rw [List.length_append, List.length_singleton]
            exact le_trans (Nat.cast_le.mpr (by omega)) hmax)
          rw [through, hturn, Option.bind_eq_bind, Option.bind_some]
          dsimp only
          rw [hrest, List.length_append, List.length_singleton, List.length_cons,
            List.drop_succ_cons, Nat.add_assoc, Nat.add_comm 1]
          simp

/-- **Filling a new array** with as many slots as elements. -/
theorem through_fill_allocate {ys : List α} {size : Nat}
    (hg : List.Forall₂ (fun v y => g v = some y) vs ys) (hmax : (vs.length : Int) ≤ intMax)
    (hsize : 0 < size) (hsmall : size ≤ 1073741824) (x : α) :
    through (fill g) vs (0, allocate vs.length size x) = some (none, (vs.length : Int), ys) := by
  have hfill := @through_fill _ _ [] (List.replicate vs.length x) _ _ _ hg
    (by rw [List.length_replicate]) (by rwa [List.length_nil, Nat.zero_add])
  rw [allocate_of_le_intMax hmax hsize hsmall]
  simpa using hfill

/-- An array without slots takes nothing. -/
theorem through_fill_nil (hne : vs ≠ []) : through (fill g) vs (i, []) = none := by
  obtain ⟨v, vs, rfl⟩ := List.exists_cons_of_ne_nil hne
  have hturn : fill g v (i, []) = none := by
    cases hx : g v with
    | none => exact fill_of_none hx _
    | some x =>
        rw [fill_of_some hx, setSlot, if_neg (fun h => by simp at h; omega)]
        rfl
  rw [through, hturn]
  rfl

/-- **A loop that completes** has read every element and had a slot for each. -/
theorem of_through_fill {s : Option Int × Int × List α} (h : through (fill g) vs (i, a) = some s)
    (hi : 0 ≤ i) (hmax : (a.length : Int) ≤ intMax) :
    (∀ v ∈ vs, (g v).isSome) ∧ (vs = [] ∨ i + vs.length ≤ a.length) := by
  induction vs generalizing i a with
  | nil => exact ⟨fun v hv => absurd hv List.not_mem_nil, .inl rfl⟩
  | cons v vs ih =>
      rw [through, Option.bind_eq_bind, Option.bind_eq_some_iff] at h
      obtain ⟨turn, hturn, h⟩ := h
      rw [fill, Option.bind_eq_bind, Option.bind_eq_some_iff] at hturn
      obtain ⟨x, hx, hturn⟩ := hturn
      obtain ⟨a', ha, hturn⟩ := Option.bind_eq_some_iff.mp hturn
      obtain rfl := Option.some.inj hturn
      obtain ⟨⟨_, hlt⟩, rfl⟩ := setSlot_eq_some_iff.mp ha
      have hlt : i < a.length := hlt
      have hnext : wrap32 (i + 1) = i + 1 := by
        apply wrap32_of_fits
        unfold FitsInt intMin
        omega
      have hrest : through (fill g) vs (i + 1, a.set i.toNat x) = some s := hnext ▸ h
      obtain ⟨hall, hroom⟩ := ih hrest (by omega) (by rwa [List.length_set])
      refine ⟨List.forall_mem_cons.mpr ⟨by rw [hx]; rfl, hall⟩, .inr ?_⟩
      rw [List.length_set] at hroom
      rw [List.length_cons]
      rcases hroom with rfl | hroom
      · rw [List.length_nil]
        omega
      · omega

end Flood.Lib
