import Flood.LinkedList.Refine

/-!
# Runs of the list

Finite sequences of `list_append`, `list_prepend`, `list_insert`, `list_truncate` and `list_get`
from `list_new`.

* `step_spec` — one operation completes on any list; as long as an `int` counts the elements it
  does to the sequence, and answers, what it should.
* `Refines` — a run answers as a sequence does, and the list at its end holds that sequence.
* `run_refines_sequence` — every run does that whose sequence stays within `INT_MAX` elements, and
  `not_refines_of_overflow` is the run that leaves it.
-/

namespace Flood.LinkedList

open Flood.Lib

variable {list list' : ListT} {ps : List Nat} {xs : List Elem} {op : SeqOp Elem}
  {ops : List (SeqOp Elem)}

/-- Carry out one operation. -/
def step (list : ListT) : SeqOp Elem → Option (SeqReply Elem × ListT)
  | .append data => (listAppend list data).map fun list => (.done, list)
  | .prepend data => (listPrepend list data).map fun list => (.done, list)
  | .insert idx data => (listInsert list idx data).map fun s => (.ok s.1, s.2)
  | .truncate => (listTruncate list).map fun s => (.ok s.1, s.2)
  | .get idx => (listGet list idx).map fun s => (.elem s.1, s.2)

/-- Carry out operations in order, collecting the answers. -/
def run (list : ListT) : List (SeqOp Elem) → Option (List (SeqReply Elem) × ListT)
  | [] => some ([], list)
  | op :: ops => do
      let (reply, list) ← step list op
      let (replies, list) ← run list ops
      some (reply :: replies, list)

/-- The operation on the elements it copies: `n` bytes of each object. -/
def copied (n : Nat) (op : SeqOp Elem) : SeqOp Elem := op.map (List.take n)

/-- The objects of the operation have at least `n` bytes. -/
def Supplies (n : Nat) (op : SeqOp Elem) : Prop := ∀ data ∈ op.elems, n ≤ data.length

instance (n : Nat) (op : SeqOp Elem) : Decidable (Supplies n op) :=
  inferInstanceAs (Decidable (∀ data ∈ op.elems, n ≤ data.length))

/-! ## One operation -/

/-- With the counter at zero and few elements there are none. -/
theorem Linked.appended_eq (hl : Linked list ps xs) (hmax : (xs.length : Int) ≤ intMax)
    (x : Elem) : appended list xs x = xs ++ [x] := by
  rw [appended, hl.len_eq hmax]
  split_ifs with hz
  · rw [List.length_eq_zero_iff.mp (Int.natCast_eq_zero.mp hz)]
    rfl
  · rfl

/-- With the counter at zero and few elements there are none. -/
theorem Linked.prepended_eq (hl : Linked list ps xs) (hmax : (xs.length : Int) ≤ intMax)
    (x : Elem) : prepended list xs x = x :: xs := by
  rw [prepended, hl.len_eq hmax]
  split_ifs with hz
  · rw [List.length_eq_zero_iff.mp (Int.natCast_eq_zero.mp hz)]
  · rfl

/-- **One operation on the heap.** It completes, whatever the list holds; while an `int` counts the
elements it changes and answers the sequence as it should. -/
theorem step_spec (hl : Linked list ps xs) (hd : Supplies list.elemSize op) :
    ∃ reply list' ps' xs', step list op = some (reply, list') ∧ Linked list' ps' xs' ∧
      Effect list list' (callsOf list op) ∧
      ((xs.length : Int) ≤ intMax → xs' = (copied list.elemSize op).apply xs ∧
        reply = (copied list.elemSize op).reply xs) := by
  cases op with
  | append data =>
      obtain ⟨list', hrun, ⟨ps', hl'⟩, he⟩ := listAppend_spec hl (hd data List.mem_cons_self)
      rw [step, hrun]
      exact ⟨_, _, _, _, rfl, hl', he, fun hmax => ⟨hl.appended_eq hmax _, rfl⟩⟩
  | prepend data =>
      obtain ⟨list', hrun, ⟨ps', hl'⟩, he⟩ := listPrepend_spec hl (hd data List.mem_cons_self)
      rw [step, hrun]
      exact ⟨_, _, _, _, rfl, hl', he, fun hmax => ⟨hl.prepended_eq hmax _, rfl⟩⟩
  | insert idx data =>
      obtain ⟨ok, list', ps', xs', hrun, hl', he, hseq⟩ :=
        listInsert_spec idx hl (hd data List.mem_cons_self)
      rw [step, hrun]
      exact ⟨_, _, _, _, rfl, hl', he, hseq⟩
  | truncate =>
      obtain ⟨ok, list', ps', xs', hrun, hl', he, hseq⟩ := listTruncate_spec hl
      rw [step, hrun]
      exact ⟨_, _, _, _, rfl, hl', he, hseq⟩
  | get idx =>
      obtain ⟨val, list', hrun, hl', he, hseq⟩ := listGet_spec idx hl
      rw [step, hrun]
      exact ⟨_, _, _, _, rfl, hl', he, fun hmax => ⟨rfl, hseq hmax⟩⟩

/-! ## Whole runs -/

/-- A run of one more operation at the front. -/
theorem run_cons {reply : SeqReply Elem} (hstep : step list op = some (reply, list')) :
    run list (op :: ops) = (run list' ops).map fun s => (reply :: s.1, s.2) := by
  rw [run, hstep]
  cases hrun : run list' ops <;> simp [hrun]

/-- A run of which every sequence on the way stays within `INT_MAX` elements. -/
theorem run_spec (hl : Linked list ps xs) (hd : ∀ op ∈ ops, Supplies list.elemSize op)
    (hmax : ∀ pre post, ops = pre ++ post →
      ((((pre.map (copied list.elemSize)).foldl SeqOp.apply xs).length : Int) ≤ intMax)) :
    ∃ list' ps', run list ops =
        some (seqReplies xs (ops.map (copied list.elemSize)), list') ∧
      Linked list' ps' ((ops.map (copied list.elemSize)).foldl SeqOp.apply xs) := by
  induction ops generalizing list ps xs with
  | nil => exact ⟨list, ps, rfl, hl⟩
  | cons op ops ih =>
      obtain ⟨reply, list₁, ps₁, xs₁, hstep, hl₁, he, hseq⟩ :=
        step_spec hl (hd op List.mem_cons_self)
      obtain ⟨rfl, rfl⟩ := hseq (hmax [] (op :: ops) rfl)
      have hd₁ : ∀ op' ∈ ops, Supplies list₁.elemSize op' := fun op' hop' => by
        rw [he.elemSize]
        exact hd op' (List.mem_cons_of_mem _ hop')
      obtain ⟨list', ps', hrun, hl'⟩ := ih hl₁ hd₁ fun pre post hpre => by
        rw [he.elemSize]
        exact hmax (op :: pre) post (by rw [hpre]; rfl)
      rw [he.elemSize] at hrun hl'
      refine ⟨list', ps', ?_, hl'⟩
      rw [run_cons hstep, hrun]
      rfl

/-- The list holds the sequence: in both directions, in its counter and in its ends. -/
structure Holds (list : ListT) (xs : List Elem) : Prop where
  /-- Following `next` from `head` gives the sequence. -/
  forward : forward list = some xs
  /-- Following `prev` from `tail` gives its reverse. -/
  backward : backward list = some xs.reverse
  /-- The counter is its length. -/
  len : listLen list = xs.length
  /-- The head is null exactly when it is empty. -/
  head : list.head = none ↔ xs = []
  /-- The tail is null exactly when it is empty. -/
  tail : list.tail = none ↔ xs = []

/-- The nodes of a list that an `int` counts hold the sequence. -/
theorem Linked.holds (hl : Linked list ps xs) (hmax : (xs.length : Int) ≤ intMax) :
    Holds list xs where
  forward := forward_spec hl
  backward := backward_spec hl
  len := hl.len_eq hmax
  head := by
    rw [hl.chain.head_eq, List.head?_eq_none_iff, ← List.length_eq_zero_iff, hl.length_eq,
      List.length_eq_zero_iff]
  tail := by
    rw [hl.chain.tail_eq, List.getLast?_eq_none_iff, ← List.length_eq_zero_iff, hl.length_eq,
      List.length_eq_zero_iff]

/-- The run from `list_new` with elements of `n` bytes answers as the sequence of the copied
elements does, and the list at its end holds that sequence. -/
def Refines (n : Nat) (ops : List (SeqOp Elem)) : Prop :=
  ∃ list, run (listNew n) ops = some (seqReplies [] (ops.map (copied n)), list) ∧
    Holds list (seqAfter (ops.map (copied n)))

/-- **The doubly linked list refines a sequence.** Every run from `list_new` whose objects have the
size of an element and whose sequence never has more than `INT_MAX` elements completes, answers
every operation as the sequence does, and leaves a list that holds the sequence. -/
theorem run_refines_sequence (n : Nat) (ops : List (SeqOp Elem))
    (hd : ∀ op ∈ ops, Supplies n op)
    (hmax : ∀ pre post, ops = pre ++ post →
      ((seqAfter (pre.map (copied n))).length : Int) ≤ intMax) :
    Refines n ops := by
  obtain ⟨list, ps, hrun, hl⟩ := run_spec (Linked.listNew n) hd hmax
  exact ⟨list, hrun, hl.holds (hmax ops [] (List.append_nil ops).symm)⟩

/-- Few operations never make more than `INT_MAX` elements. -/
theorem length_seqAfter_le_intMax {n : Nat} (hfew : (ops.length : Int) ≤ intMax)
    (pre post : List (SeqOp Elem)) (hpre : ops = pre ++ post) :
    ((seqAfter (pre.map (copied n))).length : Int) ≤ intMax := by
  have hle := length_seqAfter_le (pre.map (copied n))
  have hlen := congrArg List.length hpre
  rw [List.length_append] at hlen
  rw [List.length_map] at hle
  exact le_trans (Nat.cast_le.mpr (hle.trans (hlen ▸ Nat.le_add_right _ _))) hfew

/-- A run through every operation, with an index out of range and both walks of `list_get`. -/
theorem run_refines_sequence_example :
    Refines 1 [.append [1], .append [2], .prepend [3], .insert 1 [4], .insert 9 [5], .get 0,
      .get 3, .truncate] := by
  apply run_refines_sequence
  · decide
  · exact length_seqAfter_le_intMax (by decide)

/-! ## Beyond `INT_MAX` elements -/

/-- Appending one element over and over, until the counter has been around once. -/
theorem run_replicate_append {data : Elem} {j k : Nat}
    (hl : Linked list ps (List.replicate j (data.take list.elemSize)))
    (hd : list.elemSize ≤ data.length) (hjk : j + k ≤ 2 ^ 32) :
    ∃ replies list' ps', run list (List.replicate k (.append data)) = some (replies, list') ∧
      Linked list' ps' (List.replicate (j + k) (data.take list.elemSize)) := by
  induction k generalizing list ps j with
  | zero => exact ⟨[], list, ps, rfl, hl⟩
  | succ k ih =>
      obtain ⟨list₁, hrun, ⟨ps₁, hl₁⟩, he⟩ := listAppend_spec hl hd
      have happend : appended list (List.replicate j (data.take list.elemSize))
          (data.take list.elemSize) = List.replicate (j + 1) (data.take list.elemSize) := by
        rw [appended]
        split_ifs with hz
        · rcases hl.of_len_zero hz with hnil | hfull
          · rw [List.replicate_eq_nil_iff] at hnil
            rw [hnil]
            rfl
          · rw [List.length_replicate] at hfull
            omega
        · rw [List.replicate_succ']
      rw [happend, ← he.elemSize] at hl₁
      obtain ⟨replies, list', ps', hrest, hl'⟩ := ih hl₁ (he.elemSize ▸ hd) (by omega)
      refine ⟨.done :: replies, list', ps', ?_, ?_⟩
      · rw [List.replicate_succ, run_cons (show step list (.append data) = some (.done, list₁) by
          rw [step, hrun]; rfl), hrest]
        rfl
      · rw [he.elemSize] at hl'
        rwa [show j + (k + 1) = j + 1 + k by omega]

/-- The counter of one element more than `INT_MAX` is not their number. -/
theorem not_refines_of_overflow : ¬ Refines 1 (List.replicate (2 ^ 31) (.append [0])) := by
  rintro ⟨list, hrun, hh⟩
  have hl : Linked (listNew 1) [] (List.replicate 0 (([0] : Elem).take (listNew 1).elemSize)) :=
    Linked.listNew 1
  obtain ⟨replies, list', ps', hrun', hl'⟩ :=
    run_replicate_append hl (Nat.le_refl 1) (show 0 + 2 ^ 31 ≤ 2 ^ 32 by decide)
  rw [hrun] at hrun'
  obtain ⟨rfl, rfl⟩ := Prod.mk.inj (Option.some.inj hrun')
  have hcount : wrap32 (2 ^ 31) = (2 ^ 31 : Int) := by
    have hlen := hh.len
    rw [List.map_replicate, show copied 1 (.append [0]) = .append [0] from rfl,
      seqAfter_replicate_append, List.length_replicate, listLen, hl'.len,
      List.length_replicate] at hlen
    exact_mod_cast hlen
  exact absurd hcount (by decide)

end Flood.LinkedList
