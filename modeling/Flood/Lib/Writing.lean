import Mathlib.Data.List.Basic
import Mathlib.Tactic.Common

/-!
# Writing one element of a list

A heap of nodes, an array of slots and a table of threads are lists, and a step of a program writes
one element that is there.

* `getElem?_set_of_some` — the elements after the write.
* `map_getElem?_set` — a write that keeps what is read of its element keeps what is read of all.
* `set_of_getElem?` — writing what is there; `modify_of_getElem?` — modifying is a write.
-/

namespace Flood.Lib

variable {α β : Type} {l : List α} {i : Nat} {x y : α}

/-- The elements after writing one that is there. -/
theorem getElem?_set_of_some (h : l[i]? = some x) (y : α) (j : Nat) :
    (l.set i y)[j]? = if i = j then some y else l[j]? := by
  rw [List.getElem?_set]
  split_ifs with hij hlt
  · rfl
  · exact absurd (List.getElem?_eq_some_iff.mp h).1 hlt
  · rfl

/-- A write that keeps what `f` reads of its element keeps what `f` reads of every element. -/
theorem map_getElem?_set {f : α → β} (h : l[i]? = some x) (hf : f y = f x) (j : Nat) :
    ((l.set i y)[j]?).map f = (l[j]?).map f := by
  rw [getElem?_set_of_some h]
  split_ifs with hij
  · rw [← hij, h, Option.map_some, Option.map_some, hf]
  · rfl

/-- Writing what is there changes nothing. -/
theorem set_of_getElem? (h : l[i]? = some x) : l.set i x = l := by
  apply List.ext_getElem?
  intro j
  rw [getElem?_set_of_some h]
  split_ifs with hij
  · rw [← hij, h]
  · rfl

/-- Modifying an element is writing the modified element. -/
theorem modify_of_getElem? (h : l[i]? = some x) (f : α → α) : l.modify i f = l.set i (f x) := by
  apply List.ext_getElem?
  intro j
  rw [List.getElem?_modify, getElem?_set_of_some h]
  split_ifs with hij
  · rw [← hij, h]
    rfl
  · exact Option.map_id' ..

end Flood.Lib
