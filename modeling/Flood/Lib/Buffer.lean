import Mathlib.Data.List.Basic
import Mathlib.Tactic.Common

/-!
# Writing to a buffer

A block of bytes that is written from its beginning on.

* `Buffer.write` — write bytes behind the ones written before; `none` where the block ends.
* `Buffer.eq_of_write` — a write is known by its bytes.
* `Buffer.write_bind_write` — writing twice is writing once.
* `Buffer.foldlM_write` — a loop that writes is one write.
* `Buffer.write_eq_some_iff` — when a write succeeds, and what it leaves.
-/

namespace Flood.Lib

/-- A block, cut at the index of the next byte. -/
structure Buffer where
  /-- The bytes that have been written. -/
  written : List UInt8
  /-- The bytes of the block behind them. -/
  rest : List UInt8
  deriving DecidableEq

namespace Buffer

variable {α : Type} {b b' : Buffer} {bytes bytes' : List UInt8}

/-- Nothing has been written. -/
def ofBlock (block : List UInt8) : Buffer := ⟨[], block⟩

/-- The index of the next byte. -/
def i (b : Buffer) : Nat := b.written.length

/-- The block. -/
def dst (b : Buffer) : List UInt8 := b.written ++ b.rest

/-- Write bytes at the index, and move it behind them. -/
def write (bytes : List UInt8) (b : Buffer) : Option Buffer :=
  if bytes.length ≤ b.rest.length then some ⟨b.written ++ bytes, b.rest.drop bytes.length⟩ else none

/-- A write succeeds where the block has room. -/
theorem write_eq_some_iff :
    b.write bytes = some b' ↔
      bytes.length ≤ b.rest.length ∧ b' = ⟨b.written ++ bytes, b.rest.drop bytes.length⟩ := by
  unfold write
  split_ifs with hfit
  · rw [Option.some.injEq, and_iff_right hfit, eq_comm]
  · exact iff_of_false (by simp) fun h => hfit h.1

/-- Only writing the same bytes does the same to every block. -/
theorem eq_of_write (h : ∀ b : Buffer, b.write bytes = b.write bytes') : bytes = bytes' := by
  have hsame := h (.ofBlock (List.replicate (bytes.length + bytes'.length) 0))
  have hroom : ∀ {n k : Nat}, n ≤ k → n ≤ (ofBlock (List.replicate k 0)).rest.length := by
    intro n k hle
    rwa [ofBlock, List.length_replicate]
  have hleft := write_eq_some_iff.mpr ⟨hroom (Nat.le_add_right bytes.length bytes'.length), rfl⟩
  have hright := write_eq_some_iff.mpr ⟨hroom (Nat.le_add_left bytes'.length bytes.length), rfl⟩
  rw [hleft, hright, Option.some.injEq, Buffer.mk.injEq] at hsame
  exact hsame.1

/-- Writing nothing. -/
@[simp] theorem write_nil (b : Buffer) : b.write [] = some b := by
  rw [write_eq_some_iff, List.append_nil]
  exact ⟨Nat.zero_le _, rfl⟩

/-- **Writing twice is writing once.** -/
theorem write_bind_write (bytes bytes' : List UInt8) (b : Buffer) :
    ((b.write bytes).bind fun b => b.write bytes') = b.write (bytes ++ bytes') := by
  unfold write
  by_cases hfirst : bytes.length ≤ b.rest.length
  · rw [if_pos hfirst, Option.bind_some, List.length_drop, List.length_append, List.append_assoc,
      List.drop_drop]
    exact if_congr (by omega) rfl rfl
  · have hall : ¬ (bytes ++ bytes').length ≤ b.rest.length := by
      rw [List.length_append]
      omega
    rw [if_neg hfirst, if_neg hall, Option.bind_none]

/-- **A loop that writes is one write.** -/
theorem foldlM_write {f : Buffer → α → Option Buffer} {g : α → List UInt8} {l : List α}
    (h : ∀ x ∈ l, ∀ b, f b x = b.write (g x)) (b : Buffer) :
    l.foldlM f b = b.write (l.flatMap g) := by
  induction l generalizing b with
  | nil => exact (write_nil b).symm
  | cons x l ih =>
      have hrest := ih fun y hy => h y (List.mem_cons_of_mem x hy)
      rw [List.foldlM_cons, h x List.mem_cons_self, List.flatMap_cons, ← write_bind_write]
      exact Option.bind_congr fun b' _ => hrest b'

end Buffer

end Flood.Lib
