import Flood.LinkedList.Runs

/-!
# Iterating over the list

* `listEach_spec` — `list_each` reaches the end of the list, or stops before.
* `Stands list ps k` — an iteration stands at the `k`-th node; `listIterNext_spec` — a step of it
  delivers the `k`-th element and stands at the next node.
-/

namespace Flood.LinkedList

open Flood.Lib

variable {list list' : ListT} {ps : List Nat} {xs : List Elem} {k : Nat}

/-- `list_each` reaches the end of a list, or stops before. -/
theorem eachLoop_spec {fn : Nat → Elem → Int} {fuel i : Nat} {p : Option Nat}
    (hs : Chain (slotLink ListNode.next) list.heap p ps)
    (hlive : ∀ a ∈ ps, ∃ n, list.node (some a) = some n) (hfuel : ps.length ≤ fuel) :
    eachLoop list fn fuel i p = some () := by
  induction ps generalizing p fuel i with
  | nil =>
      rw [Chain, Seg.nil_iff] at hs
      subst hs
      cases fuel <;> rfl
  | cons a ps ih =>
      rw [Chain, Seg.cons_iff] at hs
      obtain ⟨rfl, o, ho, hs⟩ := hs
      obtain ⟨n, hn⟩ := hlive a List.mem_cons_self
      rw [ListT.node_eq_some_iff.mp hn] at ho
      obtain rfl := Option.some.inj ho
      cases fuel with
      | zero => exact absurd hfuel (by simp)
      | succ fuel =>
          rw [eachLoop, hn, Option.bind_eq_bind, Option.bind_some]
          split_ifs
          · rfl
          · exact ih hs (fun b hb => hlive b (List.mem_cons_of_mem _ hb))
              (Nat.le_of_succ_le_succ hfuel)

/-- The nodes of a list are live. -/
theorem Linked.live (hl : Linked list ps xs) (a : Nat) (ha : a ∈ ps) :
    ∃ n, list.node (some a) = some n := by
  obtain ⟨n, hn, _⟩ := hl.node_of_mem ha
  exact ⟨n, hn⟩

/-- **`list_each`** completes. -/
theorem listEach_spec (hl : Linked list ps xs) (fn : Nat → Elem → Int) :
    listEach list fn = some list := by
  rw [listEach, eachLoop_spec hl.chain.forward hl.live (Chain.length_le hl.chain.forward)]
  rfl

/-- An iteration stands at the `k`-th node, or behind the last. -/
def Stands (list : ListT) (ps : List Nat) (k : Nat) : Prop := list.currNode = ps[k]?

/-- An iteration that has just started stands at the first node. -/
theorem stands_zero (hl : Linked list ps xs) (hstart : list.currNode = list.head) :
    Stands list ps 0 := by
  rw [Stands, hstart, hl.chain.head_eq, List.head?_eq_getElem?]

/-- An iteration has more to deliver exactly if it does not stand behind the last node. -/
theorem listIterHasNext_iff (hl : Linked list ps xs) (hs : Stands list ps k) :
    listIterHasNext list = true ↔ k < xs.length := by
  rw [listIterHasNext, hs, ← hl.length_eq]
  simp

/-- `list_iter_next` at a live node delivers its element and follows its link. -/
theorem listIterNext_node {a : Nat} {n : ListNode} (hcur : list.currNode = some a)
    (hn : list.node (some a) = some n) (hsize : n.data.length = list.elemSize) :
    listIterNext list = some (some n.data, { list with currNode := n.next }) := by
  rw [listIterNext, hcur]
  show (do let node ← list.node (some a); _) = _
  rw [hn, Option.bind_eq_bind, Option.bind_some, if_pos hsize.ge, ← hsize, List.take_length]

/-- `list_iter_next` at a node of the list delivers its element and advances to the next node. -/
theorem listIterNext_linked {l r : List Nat} {a : Nat} (hl : Linked list (l ++ a :: r) xs)
    (hcur : list.currNode = some a) :
    ∃ x, xs[l.length]? = some x ∧
      listIterNext list = some (some x, { list with currNode := r.head? }) := by
  obtain ⟨n, hn, hnext, _⟩ := hl.node_eq
  have hdata := hl.data_eq hn
  refine ⟨n.data, hdata, ?_⟩
  rw [listIterNext_node hcur hn (hl.size _ (List.mem_of_getElem? hdata)), hnext]

/-- `list_iter_next` at the end of the list delivers nothing. -/
theorem listIterNext_null (hcur : list.currNode = none) :
    listIterNext list = some (none, list) := by
  rw [listIterNext, hcur]

/-- **`list_iter_next`** delivers the element of the node it stands at, or nothing, and advances by
one. -/
theorem listIterNext_spec (hl : Linked list ps xs) (hs : Stands list ps k) :
    ∃ list', listIterNext list = some (xs[k]?, list') ∧ Linked list' ps xs ∧
      Stands list' ps (k + 1) ∧ list'.mutex = list.mutex ∧ list'.elemSize = list.elemSize := by
  have hcur : list.currNode = ps[k]? := hs
  have hcount := hl.length_eq
  rcases Nat.lt_or_ge k ps.length with hlt | hge
  · obtain ⟨l, a, r, rfl, rfl⟩ := exists_cut hlt
    rw [List.getElem?_append_right le_rfl, Nat.sub_self, List.getElem?_cons_zero] at hcur
    obtain ⟨x, hx, hnext⟩ := listIterNext_linked hl hcur
    refine ⟨{ list with currNode := r.head? }, by rw [hnext, hx], hl.congr rfl rfl rfl rfl rfl,
      ?_, rfl, rfl⟩
    show r.head? = (l ++ a :: r)[l.length + 1]?
    rw [List.getElem?_append_right (Nat.le_add_right _ 1), Nat.add_sub_cancel_left,
      List.getElem?_cons_succ, List.head?_eq_getElem?]
  · rw [List.getElem?_eq_none hge] at hcur
    rw [List.getElem?_eq_none (hcount ▸ hge)]
    refine ⟨list, listIterNext_null hcur, hl, ?_, rfl, rfl⟩
    rw [Stands, List.getElem?_eq_none (Nat.le_succ_of_le hge), hcur]

end Flood.LinkedList
