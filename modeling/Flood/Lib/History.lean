import Mathlib.Data.List.Induction
import Mathlib.Tactic.Common

/-!
# Histories of map operations

A finite map over keys compared by `cf`, as a function, and what a history of operations makes of
it and hears back.

* `MapOp`, `MapOp.apply`, `MapOp.reply` — the operations, their effect and their answer.
* `valueAfter cf ops k` — the value of `k` after the history `ops`.
* `valueAfter_eq_some_iff` — it is the value of the last put of `k` that no remove of `k` and no
  later put follows.
* `replies`, `getElem?_replies` — the answers of a history, each given by the history before it.
-/

namespace Flood.Lib

variable {K V : Type} {cf : K → K → Int}

/-- An operation on a map. -/
inductive MapOp (K V : Type) where
  /-- Associate a key with a value. -/
  | put (key : K) (val : V)
  /-- Look a key up. -/
  | get (key : K)
  /-- Remove a key. -/
  | remove (key : K)

/-- The answer to an operation. -/
inductive MapReply (V : Type) where
  /-- A put answers `1` if the key was present, else `0`. -/
  | put (code : Int)
  /-- A look-up answers the value, if there is one. -/
  | get (val : Option V)
  /-- A remove answers the value removed, if there was one. -/
  | remove (val : Option V)
  deriving DecidableEq

namespace MapOp

/-- The map after an operation. -/
def apply (cf : K → K → Int) (m : K → Option V) : MapOp K V → K → Option V
  | put key val, k => if cf k key = 0 then some val else m k
  | get _, k => m k
  | remove key, k => if cf k key = 0 then none else m k

/-- The answer of a map to an operation. -/
def reply (m : K → Option V) : MapOp K V → MapReply V
  | put key _ => .put (if (m key).isSome then 1 else 0)
  | get key => .get (m key)
  | remove key => .remove (m key)

/-- The operation puts or removes a key that compares equal to `k`. -/
def Touches (cf : K → K → Int) (k : K) : MapOp K V → Prop
  | put key _ => cf k key = 0
  | get _ => False
  | remove key => cf k key = 0

/-- An operation that does not touch a key leaves its value. -/
theorem apply_of_not_touches {op : MapOp K V} {k : K} (h : ¬ op.Touches cf k)
    (m : K → Option V) : op.apply cf m k = m k := by
  cases op with
  | put key val => exact if_neg h
  | get key => rfl
  | remove key => exact if_neg h

end MapOp

/-- The map that a history makes of the empty one. -/
def valueAfter (cf : K → K → Int) (ops : List (MapOp K V)) : K → Option V :=
  ops.foldl (MapOp.apply cf) fun _ => none

@[simp] theorem valueAfter_nil (k : K) : valueAfter cf ([] : List (MapOp K V)) k = none := rfl

/-- The last operation is applied last. -/
theorem valueAfter_append_singleton (ops : List (MapOp K V)) (op : MapOp K V) :
    valueAfter cf (ops ++ [op]) = op.apply cf (valueAfter cf ops) := by
  rw [valueAfter, List.foldl_append]
  rfl

/-- **A key has the value of the last put of it that no operation on it follows.** -/
theorem valueAfter_eq_some_iff {ops : List (MapOp K V)} {k : K} {v : V} :
    valueAfter cf ops k = some v ↔
      ∃ pre key post, ops = pre ++ .put key v :: post ∧ cf k key = 0 ∧
        ∀ op ∈ post, ¬ op.Touches cf k := by
  constructor
  · intro h
    induction ops using List.reverseRecOn with
    | nil => exact absurd h (by simp)
    | append_singleton ops op ih =>
        rw [valueAfter_append_singleton] at h
        by_cases ht : op.Touches cf k
        · -- the last operation decides: it is a put
          cases op with
          | put key val =>
              rw [MapOp.apply, if_pos (show cf k key = 0 from ht)] at h
              obtain rfl := Option.some.inj h
              exact ⟨ops, key, [], rfl, ht, by simp⟩
          | get key => exact absurd ht id
          | remove key =>
              rw [MapOp.apply, if_pos (show cf k key = 0 from ht)] at h
              exact absurd h (by simp)
        · rw [MapOp.apply_of_not_touches ht] at h
          obtain ⟨pre, key, post, rfl, hkey, hpost⟩ := ih h
          refine ⟨pre, key, post ++ [op], by simp, hkey, ?_⟩
          intro op' hop'
          rcases List.mem_append.mp hop' with hop' | hop'
          · exact hpost op' hop'
          · rwa [List.mem_singleton.mp hop']
  · rintro ⟨pre, key, post, rfl, hkey, hpost⟩
    induction post using List.reverseRecOn with
    | nil => rw [valueAfter_append_singleton, MapOp.apply, if_pos hkey]
    | append_singleton post op ih =>
        rw [← List.cons_append, ← List.append_assoc, valueAfter_append_singleton,
          MapOp.apply_of_not_touches (hpost op (by simp))]
        exact ih fun op' hop' => hpost op' (List.mem_append_left _ hop')

/-- The answers of a history, from the map `m` on. -/
def replies (cf : K → K → Int) : (K → Option V) → List (MapOp K V) → List (MapReply V)
  | _, [] => []
  | m, op :: ops => op.reply m :: replies cf (op.apply cf m) ops

/-- Every operation is answered. -/
@[simp] theorem length_replies (m : K → Option V) (ops : List (MapOp K V)) :
    (replies cf m ops).length = ops.length := by
  induction ops generalizing m with
  | nil => rfl
  | cons op ops ih => rw [replies, List.length_cons, List.length_cons, ih]

/-- Each answer is that of the map the history before it has made. -/
theorem getElem?_replies (m : K → Option V) (ops : List (MapOp K V)) (i : Nat) :
    (replies cf m ops)[i]? =
      (ops[i]?).map fun op => op.reply ((ops.take i).foldl (MapOp.apply cf) m) := by
  induction ops generalizing m i with
  | nil => rfl
  | cons op ops ih =>
      cases i with
      | zero => rfl
      | succ i => exact ih (op.apply cf m) i

end Flood.Lib
