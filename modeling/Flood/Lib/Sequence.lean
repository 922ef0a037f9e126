import Mathlib.Data.List.Induction
import Mathlib.Data.List.InsertIdx
import Mathlib.Tactic.Common

/-!
# Sequences with indexed access

The abstract sequence a linked list stands for: its operations, what they make of it and what they
answer. Indices are integers, since a caller may pass a negative one.

* `SeqOp`, `SeqOp.apply`, `SeqOp.reply` — the operations, their effect and their answer.
* `seqAfter ops` — the sequence a history makes of the empty one, `seqReplies` its answers.
-/

namespace Flood.Lib

variable {α β : Type}

/-- An operation on a sequence. -/
inductive SeqOp (α : Type) where
  /-- Put an element behind the last. -/
  | append (x : α)
  /-- Put an element before the first. -/
  | prepend (x : α)
  /-- Put an element at an index. -/
  | insert (idx : Int) (x : α)
  /-- Remove the last element. -/
  | truncate
  /-- Read the element at an index. -/
  | get (idx : Int)

/-- The answer to an operation. -/
inductive SeqReply (α : Type) where
  /-- Appending and prepending answer nothing. -/
  | done
  /-- Inserting and truncating answer whether they did it. -/
  | ok (success : Bool)
  /-- Reading answers the element, if there is one. -/
  | elem (x : Option α)
  deriving DecidableEq

namespace SeqOp

/-- The elements an operation brings along. -/
def elems : SeqOp α → List α
  | append x => [x]
  | prepend x => [x]
  | insert _ x => [x]
  | truncate => []
  | get _ => []

/-- The operation with its element replaced. -/
def map (f : α → β) : SeqOp α → SeqOp β
  | append x => append (f x)
  | prepend x => prepend (f x)
  | insert idx x => insert idx (f x)
  | truncate => truncate
  | get idx => get idx

/-- The sequence after an operation. -/
def apply (xs : List α) : SeqOp α → List α
  | append x => xs ++ [x]
  | prepend x => x :: xs
  | insert idx x => if 0 ≤ idx ∧ idx ≤ xs.length then xs.insertIdx idx.toNat x else xs
  | truncate => xs.dropLast
  | get _ => xs

/-- The answer of a sequence to an operation. -/
def reply (xs : List α) : SeqOp α → SeqReply α
  | append _ => .done
  | prepend _ => .done
  | insert idx _ => .ok (0 ≤ idx ∧ idx ≤ xs.length)
  | truncate => .ok (xs ≠ [])
  | get idx => .elem (if 0 ≤ idx then xs[idx.toNat]? else none)

end SeqOp

/-- The sequence that a history makes of the empty one. -/
def seqAfter (ops : List (SeqOp α)) : List α := ops.foldl SeqOp.apply []

/-- The answers of a history, from the sequence `xs` on. -/
def seqReplies : List α → List (SeqOp α) → List (SeqReply α)
  | _, [] => []
  | xs, op :: ops => op.reply xs :: seqReplies (op.apply xs) ops

@[simp] theorem seqAfter_nil : seqAfter ([] : List (SeqOp α)) = [] := rfl

/-- The last operation is applied last. -/
theorem seqAfter_append_singleton (ops : List (SeqOp α)) (op : SeqOp α) :
    seqAfter (ops ++ [op]) = op.apply (seqAfter ops) := by
  rw [seqAfter, List.foldl_append]
  rfl

/-- Appending one element over and over. -/
theorem seqAfter_replicate_append (k : Nat) (x : α) :
    seqAfter (List.replicate k (.append x)) = List.replicate k x := by
  induction k with
  | zero => rfl
  | succ k ih =>
      rw [List.replicate_succ', seqAfter_append_singleton, ih, List.replicate_succ']
      rfl

/-- An operation adds one element at most. -/
theorem SeqOp.length_apply_le (xs : List α) (op : SeqOp α) :
    (op.apply xs).length ≤ xs.length + 1 := by
  cases op with
  | append x => simp [apply]
  | prepend x => simp [apply]
  | insert idx x =>
      rw [apply]
      split_ifs
      · exact List.length_insertIdx_le_succ
      · exact Nat.le_succ _
  | truncate => simp [apply]; omega
  | get idx => exact Nat.le_succ _

/-- A history makes no more elements than it has operations. -/
theorem length_seqAfter_le (ops : List (SeqOp α)) : (seqAfter ops).length ≤ ops.length := by
  induction ops using List.reverseRecOn with
  | nil => exact Nat.le_refl _
  | append_singleton ops op ih =>
      rw [seqAfter_append_singleton, List.length_append, List.length_singleton]
      exact Nat.le_trans (op.length_apply_le _) (Nat.succ_le_succ ih)

/-- An index into a list cuts it. -/
theorem exists_cut {l : List α} {i : Nat} (hi : i < l.length) :
    ∃ l₁ c l₂, l = l₁ ++ c :: l₂ ∧ l₁.length = i := by
  refine ⟨l.take i, l[i], l.drop (i + 1), ?_, ?_⟩
  · rw [List.getElem_cons_drop, List.take_append_drop]
  · rw [List.length_take, Nat.min_eq_left (Nat.le_of_lt hi)]

/-- Inserting at the seam of two sequences. -/
theorem insertIdx_length_append (xs ys : List α) (x : α) :
    (xs ++ ys).insertIdx xs.length x = xs ++ x :: ys := by
  induction xs with
  | nil => rfl
  | cons y xs ih =>
      rw [List.cons_append, List.length_cons, List.insertIdx_succ_cons, ih]
      rfl

end Flood.Lib
