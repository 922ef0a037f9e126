import Flood.LinkedList.Memory
import Mathlib.Data.List.Basic

/-!
# The sequence a list on the heap holds

* `Linked list ps xs` — the nodes `ps`, linked in both directions between the ends of `list`, hold
  the elements `xs`, and the counter is the `int` that counts them.
* `Linked.insert`, `Linked.dropLast` — what linking a node in and unlinking the last one make of the
  sequence, given what the writes made of the nodes.
* `walk_spec`, `nodeAt_spec` — the walks end at the node they count to, from either end.
* `forward_spec`, `backward_spec` — reading the list along `next` and along `prev`.
-/

namespace Flood.LinkedList

open Flood.Lib

variable {list list' : ListT} {ps l r : List Nat} {xs ys : List Elem} {x : Elem} {a b : Nat}
  {n m : ListNode} {p q : Option Nat} {link : ListNode → Option Nat}

/-! ## Reading and writing nodes -/

namespace ListT

/-- The list with a node written. -/
def write (list : ListT) (a : Nat) (n : ListNode) : ListT :=
  { list with heap := list.heap.set a (some n) }

/-- The list with a node allocated. -/
def alloc (list : ListT) (n : ListNode) : ListT := { list with heap := list.heap ++ [some n] }

/-- A pointer to a live node is followed to what the heap has there. -/
theorem node_eq_some_iff : list.node (some a) = some n ↔ list.heap[a]? = some (some n) := by
  show list.heap[a]?.join = some n ↔ _
  rw [Option.join_eq_some_iff]

/-- A live node is inside the heap. -/
theorem lt_of_node (hn : list.node (some a) = some n) : a < list.heap.length :=
  (List.getElem?_eq_some_iff.mp (node_eq_some_iff.mp hn)).1

/-- Only the heap matters. -/
theorem node_congr (hh : list'.heap = list.heap) (p : Option Nat) : list'.node p = list.node p := by
  rw [node, node, hh]

/-- The nodes after a write. -/
theorem node_write (hm : list.node (some a) = some m) :
    (list.write a n).node (some b) = if a = b then some n else list.node (some b) := by
  show (list.heap.set a (some n))[b]?.join = _
  rw [getElem?_set_of_some (node_eq_some_iff.mp hm)]
  split_ifs
  · rfl
  · rfl

/-- The nodes after an allocation. -/
theorem node_alloc : (list.alloc n).node (some b) =
    if b = list.heap.length then some n else list.node (some b) := by
  show (list.heap ++ [some n])[b]?.join = if _ then _ else list.heap[b]?.join
  split_ifs with hb
  · rw [hb, List.getElem?_concat_length]
    rfl
  · rcases Nat.lt_or_ge b list.heap.length with hlt | hge
    · rw [List.getElem?_append_left hlt]
    · rw [List.getElem?_eq_none (by simp; omega), List.getElem?_eq_none hge]

/-- Writing through a pointer to a live node. -/
theorem modify_eq (hn : list.node (some a) = some n) (f : ListNode → ListNode) :
    list.modify (some a) f = some (list.write a (f n)) := by
  show (do let n ← list.heap[a]?.join; _) = _
  rw [show list.heap[a]?.join = some n from hn]
  rfl

/-- Freeing a live node. -/
theorem free_eq (hn : list.node (some a) = some n) :
    list.free (some a) = some { list with heap := list.heap.set a none } := by
  show (do let _ ← list.heap[a]?.join; _) = _
  rw [show list.heap[a]?.join = some n from hn]
  rfl

end ListT

/-! ## The sequence held -/

/-- The link field of a slot of the heap; a freed node has none. -/
def slotLink (link : ListNode → Option Nat) (slot : Option ListNode) : Option Nat := slot.bind link

/-- The nodes `ps` of the list hold the elements `xs`. -/
structure Linked (list : ListT) (ps : List Nat) (xs : List Elem) : Prop where
  /-- The nodes are linked in both directions between the ends. -/
  chain : DoubleChain (slotLink ListNode.next) (slotLink ListNode.prev) list.heap list.head
    list.tail ps
  /-- The nodes are live and have the elements. -/
  data : ps.map (fun a => (list.node (some a)).map ListNode.data) = xs.map some
  /-- An element has the size the list was made for. -/
  size : ∀ x ∈ xs, x.length = list.elemSize
  /-- The counter is the `int` that counts the elements. -/
  len : list.len = wrap32 xs.length
  /-- There are no more elements than an `int` counts before it is zero again. -/
  bound : xs.length ≤ 2 ^ 32

namespace Linked

/-- There are as many nodes as elements. -/
theorem length_eq (hl : Linked list ps xs) : ps.length = xs.length := by
  simpa using congrArg List.length hl.data

/-- The nodes are live. -/
theorem node_of_mem (hl : Linked list ps xs) (ha : a ∈ ps) :
    ∃ n, list.node (some a) = some n ∧ n.data ∈ xs := by
  have hmem : (list.node (some a)).map ListNode.data ∈ xs.map some := by
    rw [← hl.data]
    exact List.mem_map_of_mem ha
  obtain ⟨x, hx, hdata⟩ := List.mem_map.mp hmem
  obtain ⟨n, hn, rfl⟩ := Option.map_eq_some_iff.mp hdata.symm
  exact ⟨n, hn, hx⟩

/-- A node points to its two neighbours. -/
theorem node_eq (hl : Linked list (l ++ a :: r) xs) :
    ∃ n, list.node (some a) = some n ∧ n.next = r.head? ∧ n.prev = l.getLast? := by
  obtain ⟨n, hn, _⟩ := hl.node_of_mem (List.mem_append_right l List.mem_cons_self)
  obtain ⟨o, ho, hnext, hprev⟩ := hl.chain.links
  rw [ListT.node_eq_some_iff.mp hn] at ho
  obtain rfl := Option.some.inj ho
  exact ⟨n, hn, hnext, hprev⟩

/-- A node has the element at its place. -/
theorem data_eq (hl : Linked list (l ++ a :: r) xs) (hn : list.node (some a) = some n) :
    xs[l.length]? = some n.data := by
  have hdata := congrArg (·[l.length]?) hl.data
  simp only [List.getElem?_map, List.getElem?_append_right le_rfl, Nat.sub_self,
    List.getElem?_cons_zero, Option.map_some, hn] at hdata
  cases hx : xs[l.length]? with
  | none => exact absurd hdata (by simp [hx])
  | some x =>
      rw [hx, Option.map_some] at hdata
      rw [Option.some.inj (Option.some.inj hdata)]

/-- The fresh list holds nothing. -/
theorem listNew (elemSize : Nat) : Linked (listNew elemSize) [] [] where
  chain := .nil
  data := rfl
  size := by simp
  len := rfl
  bound := Nat.zero_le _

/-- **Linking a node in.** The new node `b` points to its neighbours, the neighbours point to it,
and the other links and the elements are kept. -/
theorem insert (hl : Linked list (l ++ r) (xs ++ ys)) (hlen : l.length = xs.length)
    (hnew : list'.node (some b) = some ⟨x, r.head?, l.getLast?⟩)
    (hold : ∀ a ∈ l ++ r, ∀ n, list.node (some a) = some n → list'.node (some a) = some
      ⟨n.data, if l.getLast? = some a then some b else n.next,
        if r.head? = some a then some b else n.prev⟩)
    (hhead : list'.head = if l = [] then some b else list.head)
    (htail : list'.tail = if r = [] then some b else list.tail)
    (hcount : list'.len = wrap32 (list.len + 1)) (hsize : list'.elemSize = list.elemSize)
    (hx : x.length = list.elemSize) (hbound : (xs ++ ys).length < 2 ^ 32) :
    Linked list' (l ++ b :: r) (xs ++ x :: ys) := by
  have hslot : ∀ a ∈ l ++ r, ∃ n, list.heap[a]? = some (some n) ∧ list'.heap[a]? = some (some
      ⟨n.data, if l.getLast? = some a then some b else n.next,
        if r.head? = some a then some b else n.prev⟩) := by
    intro a ha
    obtain ⟨n, hn, _⟩ := hl.node_of_mem ha
    exact ⟨n, ListT.node_eq_some_iff.mp hn, ListT.node_eq_some_iff.mp (hold a ha n hn)⟩
  have hdata : ∀ a ∈ l ++ r, (list'.node (some a)).map ListNode.data =
      (list.node (some a)).map ListNode.data := by
    intro a ha
    obtain ⟨n, hn, _⟩ := hl.node_of_mem ha
    rw [hold a ha n hn, hn]
    rfl
  constructor
  · rw [hhead, htail]
    refine hl.chain.insert ?_ ?_ ⟨_, ListT.node_eq_some_iff.mp hnew, rfl, rfl⟩
    · intro a ha
      obtain ⟨n, hn, hn'⟩ := hslot a ha
      rw [hn, hn']
      split_ifs with hla <;> simp [slotLink]
    · intro a ha
      obtain ⟨n, hn, hn'⟩ := hslot a ha
      rw [hn, hn']
      split_ifs with hra <;> simp [slotLink]
  · have hmap := hl.data
    rw [List.map_append, List.map_append, ← List.map_congr_left fun a ha =>
      hdata a (List.mem_append_left r ha), ← List.map_congr_left fun a ha =>
      hdata a (List.mem_append_right l ha)] at hmap
    obtain ⟨hxs, hys⟩ := List.append_inj hmap (by simpa using hlen)
    rw [List.map_append, List.map_cons, hxs, hys, hnew]
    simp
  · intro y hy
    rw [hsize]
    rcases List.mem_append.mp hy with hy | hy
    · exact hl.size y (List.mem_append_left ys hy)
    · rcases List.mem_cons.mp hy with rfl | hy
      · exact hx
      · exact hl.size y (List.mem_append_right xs hy)
  · rw [hcount, hl.len, wrap32_wrap32_add]
    congr 1
    simp
    ring
  · simp only [List.length_append, List.length_cons] at hbound ⊢
    omega

/-- A single node that points nowhere. -/
theorem single (hnew : list'.node (some b) = some ⟨x, none, none⟩) (hhead : list'.head = some b)
    (htail : list'.tail = some b) (hcount : list'.len = 1) (hx : x.length = list'.elemSize) :
    Linked list' [b] [x] := by
  constructor
  · rw [hhead, htail]
    have hslot := ListT.node_eq_some_iff.mp hnew
    exact ⟨.cons hslot (.nil none), .cons hslot (.nil none)⟩
  · rw [List.map_singleton, hnew]
    rfl
  · simpa using hx
  · rw [hcount, List.length_singleton]
    exact (wrap32_of_fits (by decide)).symm
  · simp

/-- **Unlinking the last node.** The node before it, if any, becomes the last. -/
theorem dropLast (hl : Linked list (l ++ [b]) (xs ++ [x]))
    (hold : ∀ a ∈ l, ∀ n, list.node (some a) = some n → list'.node (some a) = some
      { n with next := if l.getLast? = some a then none else n.next })
    (hhead : list'.head = if l = [] then none else list.head) (htail : list'.tail = l.getLast?)
    (hcount : list'.len = wrap32 (list.len - 1)) (hsize : list'.elemSize = list.elemSize) :
    Linked list' l xs := by
  have hslot : ∀ a ∈ l, ∃ n, list.heap[a]? = some (some n) ∧ list'.heap[a]? = some (some
      { n with next := if l.getLast? = some a then none else n.next }) := by
    intro a ha
    obtain ⟨n, hn, _⟩ := hl.node_of_mem (List.mem_append_left [b] ha)
    exact ⟨n, ListT.node_eq_some_iff.mp hn, ListT.node_eq_some_iff.mp (hold a ha n hn)⟩
  have hdata : ∀ a ∈ l, (list'.node (some a)).map ListNode.data =
      (list.node (some a)).map ListNode.data := by
    intro a ha
    obtain ⟨n, hn, _⟩ := hl.node_of_mem (List.mem_append_left [b] ha)
    rw [hold a ha n hn, hn]
    rfl
  constructor
  · rw [hhead, htail]
    refine hl.chain.dropLast ?_ ?_
    · intro a ha
      obtain ⟨n, hn, hn'⟩ := hslot a ha
      rw [hn, hn']
      split_ifs with hla <;> simp [slotLink]
    · intro a ha
      obtain ⟨n, hn, hn'⟩ := hslot a ha
      rw [hn, hn']
      simp [slotLink]
  · have hmap := hl.data
    rw [List.map_append, List.map_append, ← List.map_congr_left hdata] at hmap
    exact (List.append_inj' hmap rfl).1
  · intro y hy
    rw [hsize]
    exact hl.size y (List.mem_append_left [x] hy)
  · rw [hcount, hl.len, sub_eq_add_neg, wrap32_wrap32_add]
    congr 1
    simp
  · have hbound := hl.bound
    rw [List.length_append] at hbound
    exact le_trans (Nat.le_add_right _ _) hbound

/-- A change that keeps the nodes, the ends, the size and the counter. -/
theorem congr (hl : Linked list ps xs) (hheap : list'.heap = list.heap)
    (hhead : list'.head = list.head) (htail : list'.tail = list.tail)
    (hsize : list'.elemSize = list.elemSize) (hlen : list'.len = list.len) :
    Linked list' ps xs where
  chain := by
    rw [hheap, hhead, htail]
    exact hl.chain
  data := by
    simp only [ListT.node_congr hheap]
    exact hl.data
  size := by
    rw [hsize]
    exact hl.size
  len := by rw [hlen, hl.len]
  bound := hl.bound

/-- Allocating keeps the sequence. -/
theorem alloc (hl : Linked list ps xs) (n : ListNode) : Linked (list.alloc n) ps xs := by
  have hold : ∀ a ∈ ps, (list.alloc n).heap[a]? = list.heap[a]? := by
    intro a ha
    obtain ⟨m, hm, _⟩ := hl.node_of_mem ha
    exact List.getElem?_append_left (ListT.lt_of_node hm)
  constructor
  · refine hl.chain.frame ?_ ?_
    · intro a ha
      rw [hold a ha]
    · intro a ha
      rw [hold a ha]
  · rw [← hl.data]
    refine List.map_congr_left fun a ha => ?_
    show ((list.alloc n).heap[a]?.join).map _ = (list.heap[a]?.join).map _
    rw [hold a ha]
  · exact hl.size
  · exact hl.len
  · exact hl.bound

/-! ### The counter -/

/-- A positive counter counts the elements. -/
theorem length_of_pos (hl : Linked list ps xs) (hpos : 0 < list.len) :
    (xs.length : Int) = list.len := by
  have hlen := hl.len
  have hbound := hl.bound
  unfold wrap32 at hlen
  split_ifs at hlen <;> omega

/-- A counter of no more elements than an `int` counts is their number. -/
theorem len_eq (hl : Linked list ps xs) (hmax : (xs.length : Int) ≤ intMax) :
    list.len = xs.length := by
  rw [hl.len]
  apply wrap32_of_fits
  unfold FitsInt intMin
  exact ⟨by omega, hmax⟩

/-- Only an empty list or a full one has the counter zero. -/
theorem of_len_zero (hl : Linked list ps xs) (hz : list.len = 0) :
    xs = [] ∨ xs.length = 2 ^ 32 := by
  have hbound := hl.bound
  rw [hl.len, wrap32_eq_zero_iff] at hz
  rw [← List.length_eq_zero_iff]
  omega

end Linked

/-! ## Walks -/

/-- A walk of as many steps as a segment has nodes ends where the segment does. -/
theorem walk_spec (hs : Seg (slotLink link) list.heap p ps q)
    (hlive : ∀ a ∈ ps, ∃ n, list.node (some a) = some n) :
    walk list link ps.length p = some q := by
  induction ps generalizing p with
  | nil =>
      rw [Seg.nil_iff] at hs
      subst hs
      rfl
  | cons a ps ih =>
      rw [Seg.cons_iff] at hs
      obtain ⟨rfl, o, ho, hs⟩ := hs
      obtain ⟨n, hn⟩ := hlive a List.mem_cons_self
      rw [ListT.node_eq_some_iff.mp hn] at ho
      obtain rfl := Option.some.inj ho
      rw [List.length_cons, walk, hn]
      exact ih hs fun b hb => hlive b (List.mem_cons_of_mem _ hb)

/-- **Either walk ends at the node it counts to.** -/
theorem nodeAt_spec (hl : Linked list (l ++ a :: r) xs) (hlen : list.len = xs.length) :
    nodeAt list l.length = some (some a) := by
  have hlive : ∀ b ∈ l ++ a :: r, ∃ n, list.node (some b) = some n := fun b hb => by
    obtain ⟨n, hn, _⟩ := hl.node_of_mem hb
    exact ⟨n, hn⟩
  have hcount := hl.length_eq
  rw [List.length_append, List.length_cons] at hcount
  rw [nodeAt]
  split_ifs
  · obtain ⟨q, hq, ha⟩ := Seg.append_iff.mp hl.chain.forward
    obtain ⟨rfl, _⟩ := Seg.cons_iff.mp ha
    rw [Int.toNat_natCast]
    exact walk_spec hq fun b hb => hlive b (List.mem_append_left _ hb)
  · have hback := hl.chain.backward
    rw [List.reverse_append, List.reverse_cons, List.append_assoc, List.singleton_append] at hback
    obtain ⟨q, hq, ha⟩ := Seg.append_iff.mp hback
    obtain ⟨rfl, _⟩ := Seg.cons_iff.mp ha
    have hsteps : (list.len - (l.length : Int) - 1).toNat = r.reverse.length := by
      rw [hlen, List.length_reverse]
      omega
    rw [hsteps]
    exact walk_spec hq fun b hb =>
      hlive b (List.mem_append_right _ (List.mem_cons_of_mem _ (List.mem_reverse.mp hb)))

/-- Follow a link to the null pointer and collect the elements. -/
def follow (list : ListT) (link : ListNode → Option Nat) :
    Nat → Option Nat → Option (List Elem)
  | _, none => some []
  | 0, some _ => none
  | fuel + 1, some a => do
      let node ← list.node (some a)
      let rest ← follow list link fuel (link node)
      some (node.data :: rest)

/-- The elements along `next` from the head. -/
def forward (list : ListT) : Option (List Elem) :=
  follow list ListNode.next list.heap.length list.head

/-- The elements along `prev` from the tail. -/
def backward (list : ListT) : Option (List Elem) :=
  follow list ListNode.prev list.heap.length list.tail

/-- Follow a link to the null pointer and collect the nodes with their elements. -/
def followNodes (list : ListT) (link : ListNode → Option Nat) :
    Nat → Option Nat → Option (List (Nat × Elem))
  | _, none => some []
  | 0, some _ => none
  | fuel + 1, some a => do
      let node ← list.node (some a)
      let rest ← followNodes list link fuel (link node)
      some ((a, node.data) :: rest)

/-- The elements collected are those of the nodes collected. -/
theorem follow_eq_followNodes (fuel : Nat) (p : Option Nat) :
    follow list link fuel p = (followNodes list link fuel p).map (List.map Prod.snd) := by
  induction fuel generalizing p with
  | zero => cases p <;> rfl
  | succ fuel ih =>
      cases p with
      | none => rfl
      | some a =>
          rw [follow, followNodes]
          cases list.node (some a) with
          | none => rfl
          | some node =>
              simp only [Option.bind_eq_bind, Option.bind_some]
              rw [ih]
              cases followNodes list link fuel (link node) <;> rfl

/-- Following a chain of live nodes collects them. -/
theorem followNodes_spec {fuel : Nat} (hs : Chain (slotLink link) list.heap p ps)
    (hdata : ps.map (fun a => (list.node (some a)).map ListNode.data) = xs.map some)
    (hfuel : ps.length ≤ fuel) : followNodes list link fuel p = some (ps.zip xs) := by
  induction ps generalizing p xs fuel with
  | nil =>
      rw [Chain, Seg.nil_iff] at hs
      subst hs
      cases fuel <;> rfl
  | cons a ps ih =>
      rw [Chain, Seg.cons_iff] at hs
      obtain ⟨rfl, o, ho, hs⟩ := hs
      cases xs with
      | nil => exact absurd hdata (by simp)
      | cons x xs =>
          cases fuel with
          | zero => exact absurd hfuel (by simp)
          | succ fuel =>
              simp only [List.map_cons, List.cons.injEq] at hdata
              obtain ⟨n, hn, rfl⟩ := Option.map_eq_some_iff.mp hdata.1
              rw [ListT.node_eq_some_iff.mp hn] at ho
              obtain rfl := Option.some.inj ho
              have hrest : followNodes list link fuel (link n) = some (ps.zip xs) :=
                ih hs hdata.2 (Nat.le_of_succ_le_succ hfuel)
              rw [followNodes, hn]
              show (do let rest ← followNodes list link fuel (link n); some ((a, n.data) :: rest)) = _
              rw [hrest]
              rfl

/-- Following a chain of live nodes delivers their elements. -/
theorem follow_spec {fuel : Nat} (hs : Chain (slotLink link) list.heap p ps)
    (hdata : ps.map (fun a => (list.node (some a)).map ListNode.data) = xs.map some)
    (hfuel : ps.length ≤ fuel) : follow list link fuel p = some xs := by
  have hlen : xs.length ≤ ps.length := by simpa using (congrArg List.length hdata).ge
  rw [follow_eq_followNodes, followNodes_spec hs hdata hfuel, Option.map_some,
    List.map_snd_zip hlen]

/-- Following `next` from the head gives the sequence. -/
theorem forward_spec (hl : Linked list ps xs) : forward list = some xs :=
  follow_spec hl.chain.forward hl.data (Chain.length_le hl.chain.forward)

/-- Following `prev` from the tail gives its reverse. -/
theorem backward_spec (hl : Linked list ps xs) : backward list = some xs.reverse := by
  refine follow_spec hl.chain.backward ?_ (Chain.length_le hl.chain.backward)
  rw [List.map_reverse, hl.data, List.map_reverse]

end Flood.LinkedList
