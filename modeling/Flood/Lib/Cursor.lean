import Mathlib.Data.List.Nodup
import Mathlib.Tactic.Common

/-!
# A cursor in a growing sequence

A cursor walks along a sequence while elements are put into it. `Cursor start delivered seq cur`
says where it stands: `seq` is the sequence now, `cur` is the element it delivers next (`none` at
the end), `delivered` is what it has delivered so far, and `start` is the sequence it was started
on.

* `Cursor.started`, `Cursor.insert`, `Cursor.next` — starting, putting an element in anywhere, and
  delivering one. An element put in right before the one that comes next is behind the cursor.
* `Cursor.sublist`, `Cursor.finished` — what is delivered stands in the sequence in that order; at
  the end it includes what was there at the start.
-/

namespace Flood.Lib

variable {α : Type} {start delivered seq u v l r : List α} {cur : Option α} {a b : α}

/-- The cursor cuts the sequence: what it has delivered is before the cut, and what it has not
delivered of the start is behind it. -/
def Cursor (start delivered seq : List α) (cur : Option α) : Prop :=
  ∃ l r, seq = l ++ r ∧ cur = r.head? ∧ delivered.Sublist l ∧ start.Sublist (delivered ++ r)

namespace Cursor

/-- A cursor at the first element. -/
theorem started (seq : List α) : Cursor seq [] seq seq.head? :=
  ⟨[], seq, rfl, rfl, List.Sublist.refl _, List.Sublist.refl _⟩

/-- **Putting an element in**, anywhere. -/
theorem insert (hc : Cursor start delivered (u ++ v) cur) (b : α) :
    Cursor start delivered (u ++ b :: v) cur := by
  obtain ⟨l, r, hseq, hcur, hdone, hstart⟩ := hc
  rcases List.append_eq_append_iff.mp hseq with ⟨w, rfl, rfl⟩ | ⟨w, rfl, rfl⟩
  · -- at the cut or before it
    refine ⟨u ++ b :: w, r, by simp, hcur, hdone.trans ?_, hstart⟩
    exact (List.sublist_cons_self b w).append_left u
  · cases w with
    | nil =>
        refine ⟨l ++ [b], v, by simp, by simpa using hcur, ?_, by simpa using hstart⟩
        exact hdone.trans (List.sublist_append_left l [b])
    | cons c w =>
        -- behind the element that comes next
        refine ⟨l, c :: (w ++ b :: v), by simp, hcur, hdone, hstart.trans ?_⟩
        refine List.Sublist.append_left ?_ delivered
        exact ((List.sublist_cons_self b v).append_left w).cons_cons c

/-- **Delivering an element**: the cursor goes on to the one behind it. -/
theorem next (hc : Cursor start delivered seq (some a)) :
    ∃ l r, seq = l ++ a :: r ∧ Cursor start (delivered ++ [a]) seq r.head? := by
  obtain ⟨l, r, rfl, hcur, hdone, hstart⟩ := hc
  obtain ⟨r, rfl⟩ : ∃ r', r = a :: r' := by
    cases r with
    | nil => exact absurd hcur (by simp)
    | cons c r =>
        obtain rfl := Option.some.inj hcur
        exact ⟨r, rfl⟩
  refine ⟨l, r, rfl, l ++ [a], r, by simp, rfl, ?_, by simpa using hstart⟩
  exact hdone.append_right [a]

/-- What is delivered stands in the sequence in that order. -/
theorem sublist (hc : Cursor start delivered seq cur) : delivered.Sublist seq := by
  obtain ⟨l, r, rfl, _, hdone, _⟩ := hc
  exact hdone.trans (List.sublist_append_left l r)

/-- **At the end** all that was there at the start is delivered. -/
theorem finished (hc : Cursor start delivered seq none) : start.Sublist delivered := by
  obtain ⟨l, r, rfl, hcur, _, hstart⟩ := hc
  obtain rfl := List.head?_eq_none_iff.mp hcur.symm
  rwa [List.append_nil] at hstart

end Cursor

end Flood.Lib
