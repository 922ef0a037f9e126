import Flood.Lib.Cursor
import Flood.Lib.Runs
import Flood.LinkedList.Iterate

/-!
# Iterating over a list while elements are added

One thread starts an iteration and then calls `list_iter_next`, `list_append`, `list_prepend`,
`list_insert` and `list_get` in any order. The iteration's node is a raw pointer that the other
calls write around.

* `Iteration.step` — one call; it records the nodes delivered, with the elements.
* `nodes`, `visited` — the nodes of a list in list order, and the elements `list_each` visits.
* `Delivers list calls` — what the iteration over `list` delivers when it is done: nodes of the list
  as it then is, in list order, none twice, among them every node that `list` had.
* `Standing.step` — one call moves the abstract cursor of `Lib/Cursor.lean`; `delivers_of_room` —
  hence every iteration delivers so during which no element is added to a full list.
  `not_delivers_full` is one that fills the list.
-/

namespace Flood.LinkedList

open Flood.Lib

/-- A node and its element. -/
abbrev Entry := Nat × Elem

/-- A call of the thread that iterates. -/
inductive CursorCall where
  /-- `list_iter_next` -/
  | next
  /-- `list_append` -/
  | append (data : Elem)
  /-- `list_prepend` -/
  | prepend (data : Elem)
  /-- `list_insert` -/
  | insert (idx : Int) (data : Elem)
  /-- `list_get` -/
  | get (idx : Int)
  deriving DecidableEq

/-- The objects a call brings along. -/
def CursorCall.elems : CursorCall → List Elem
  | next => []
  | append data => [data]
  | prepend data => [data]
  | insert _ data => [data]
  | get _ => []

/-- The list, and the nodes delivered so far with their elements. -/
structure Iteration where
  /-- The list. -/
  list : ListT
  /-- The deliveries in order. -/
  delivered : List Entry

namespace Iteration

/-- The iteration with the list changed by another operation. -/
def withList (it : Iteration) (list : ListT) : Iteration := { it with list := list }

/-- The iteration after `list_iter_next` read `data`. -/
def deliver (it : Iteration) (data : Option Elem) (list : ListT) : Iteration where
  list := list
  delivered := it.delivered ++ (it.list.currNode.toList.zip data.toList)

/-- Carry out one call. -/
def step (it : Iteration) : CursorCall → Option Iteration
  | .next => (listIterNext it.list).map fun s => it.deliver s.1 s.2
  | .append data => (listAppend it.list data).map it.withList
  | .prepend data => (listPrepend it.list data).map it.withList
  | .insert idx data => (listInsert it.list idx data).map fun s => it.withList s.2
  | .get idx => (listGet it.list idx).map fun s => it.withList s.2

end Iteration

/-- `list_iter_start`, and then the calls in order. -/
def iterate (list : ListT) (calls : List CursorCall) : Option Iteration :=
  calls.foldlM Iteration.step ⟨listIterStart list, []⟩

variable {list list' : ListT} {ps : List Nat} {xs : List Elem} {calls : List CursorCall} {c : CursorCall}
  {it : Iteration} {start entries : List Entry} {data : Elem}

/-! ## What a list holds, and what `list_each` visits -/

/-- The nodes of the list in list order, with their elements. -/
def nodes (list : ListT) : Option (List Entry) :=
  followNodes list ListNode.next list.heap.length list.head

/-- The elements on which the loop of `list_each` calls `fn`. -/
def visitedFrom (list : ListT) (fn : Nat → Elem → Int) :
    Nat → Nat → Option Nat → Option (List Elem)
  | _, _, none => some []
  | 0, _, some _ => none
  | fuel + 1, i, some a => do
      let node ← list.node (some a)
      if fn i node.data ≠ 0 then some [node.data]
      else do
        let rest ← visitedFrom list fn fuel (i + 1) node.next
        some (node.data :: rest)

/-- The elements on which `list_each` calls `fn`. -/
def visited (list : ListT) (fn : Nat → Elem → Int) : Option (List Elem) :=
  visitedFrom list fn list.heap.length 0 list.head

/-- The visits are those of the loop of `list_each`. -/
theorem eachLoop_eq_visitedFrom (fn : Nat → Elem → Int) (fuel i : Nat) (p : Option Nat) :
    eachLoop list fn fuel i p = (visitedFrom list fn fuel i p).map fun _ => () := by
  induction fuel generalizing i p with
  | zero => cases p <;> rfl
  | succ fuel ih =>
      cases p with
      | none => rfl
      | some a =>
          rw [eachLoop, visitedFrom]
          cases list.node (some a) with
          | none => rfl
          | some node =>
              simp only [Option.bind_eq_bind, Option.bind_some]
              split_ifs
              · rfl
              · rw [ih]
                cases visitedFrom list fn fuel (i + 1) node.next <;> rfl

/-- `list_each` completes exactly if its visits do. -/
theorem listEach_eq_visited (fn : Nat → Elem → Int) :
    listEach list fn = (visited list fn).map fun _ => list := by
  rw [listEach, eachLoop_eq_visitedFrom, Option.bind_eq_bind, visited]
  cases visitedFrom list fn list.heap.length 0 list.head <;> rfl

/-- A callback that never stops is called on every element that following `next` collects. -/
theorem visitedFrom_eq_follow {fn : Nat → Elem → Int} (hfn : ∀ i x, fn i x = 0)
    (fuel i : Nat) (p : Option Nat) :
    visitedFrom list fn fuel i p = follow list ListNode.next fuel p := by
  induction fuel generalizing i p with
  | zero => cases p <;> rfl
  | succ fuel ih =>
      cases p with
      | none => rfl
      | some a =>
          rw [visitedFrom, follow]
          cases list.node (some a) with
          | none => rfl
          | some node =>
              simp only [Option.bind_eq_bind, Option.bind_some, hfn, ne_eq, not_true, if_false]
              rw [ih]

/-- **What `list_each` visits** if its callback never stops. -/
theorem visited_eq_forward {fn : Nat → Elem → Int} (hfn : ∀ i x, fn i x = 0) :
    visited list fn = forward list :=
  visitedFrom_eq_follow hfn _ _ _

/-- The nodes `entries`, with these elements, are the list's. -/
def Holding (list : ListT) (entries : List Entry) : Prop :=
  Linked list (entries.map Prod.fst) (entries.map Prod.snd)

/-- Every list holds its nodes paired with its elements. -/
theorem Linked.holding (hl : Linked list ps xs) : Holding list (ps.zip xs) := by
  rw [Holding, List.map_fst_zip hl.length_eq.le, List.map_snd_zip hl.length_eq.ge]
  exact hl

/-- The nodes of the list are those it holds. -/
theorem Holding.nodes_eq (hh : Holding list entries) : nodes list = some entries := by
  rw [nodes, followNodes_spec hh.chain.forward hh.data (Chain.length_le hh.chain.forward),
    ← List.zip_of_prod rfl rfl]

/-- No node is held twice. -/
theorem Holding.nodup (hh : Holding list entries) : (entries.map Prod.fst).Nodup := hh.chain.nodup

/-! ## One call -/

/-- An element has room: the counter is not zero, or the list is empty. -/
def HasRoom (list : ListT) : Prop := listEmpty list = true → list.head = none

instance (list : ListT) : Decidable (HasRoom list) :=
  inferInstanceAs (Decidable (listEmpty list = true → list.head = none))

/-- A list with room whose counter is zero holds nothing. -/
theorem Holding.of_len_zero (hh : Holding list entries) (hroom : HasRoom list)
    (hz : list.len = 0) : entries = [] := by
  have hhead := hroom (decide_eq_true hz)
  rw [hh.chain.head_eq, List.head?_eq_none_iff] at hhead
  exact List.map_eq_nil_iff.mp hhead

/-- A node with an element is added somewhere; an iteration under way is left alone. -/
def Added (list list' : ListT) (entries : List Entry) : Prop :=
  ∃ u v e, entries = u ++ v ∧ Holding list' (u ++ e :: v) ∧ list'.currNode = list.currNode ∧
    list'.elemSize = list.elemSize

/-- `list_append` adds a node. -/
theorem listAppend_added (hh : Holding list entries) (hroom : HasRoom list)
    (hd : list.elemSize ≤ data.length) :
    ∃ list', listAppend list data = some list' ∧ Added list list' entries := by
  by_cases hz : list.len = 0
  · obtain rfl := hh.of_len_zero hroom hz
    obtain ⟨list', hrun, hl', he⟩ := listAppend_zero hd hz
    exact ⟨list', hrun, [], [], (list.heap.length, data.take list.elemSize), rfl, hl', he.currNode,
      he.elemSize⟩
  · obtain ⟨list', hrun, hl', he⟩ := listAppend_linked hh hd hz
    refine ⟨list', hrun, entries, [], (list.heap.length, data.take list.elemSize), by simp, ?_,
      he.currNode, he.elemSize⟩
    rw [Holding, List.map_append, List.map_append]
    exact hl'

/-- `list_prepend` adds a node. -/
theorem listPrepend_added (hh : Holding list entries) (hroom : HasRoom list)
    (hd : list.elemSize ≤ data.length) :
    ∃ list', listPrepend list data = some list' ∧ Added list list' entries := by
  by_cases hz : list.len = 0
  · rw [listPrepend_zero hd hz]
    exact listAppend_added hh hroom hd
  · obtain ⟨list', hrun, hl', he⟩ := listPrepend_linked hh hd hz
    exact ⟨list', hrun, [], entries, (list.heap.length, data.take list.elemSize), rfl, hl',
      he.currNode, he.elemSize⟩

/-- The part of `list_insert` strictly inside the list adds a node. -/
theorem insertMiddle_added {idx : Int} (hh : Holding list entries)
    (hd : list.elemSize ≤ data.length) (hlo : 0 < idx) (hhi : idx < list.len) :
    ∃ list', insertMiddle list idx data = some list' ∧ Added list list' entries := by
  have hlen := hh.length_of_pos (lt_trans hlo hhi)
  rw [List.length_map] at hlen
  obtain ⟨i, rfl⟩ := Int.eq_ofNat_of_zero_le hlo.le
  -- the walk ends at the entry that the new node is linked in before
  obtain ⟨u, e, v, rfl, rfl⟩ : ∃ u e v, entries = u ++ e :: v ∧ u.length = i :=
    exists_cut (by omega)
  have hne : u.map Prod.fst ≠ [] := by
    intro hnil
    rw [List.map_eq_nil_iff.mp hnil] at hlo
    exact absurd hlo (by simp)
  rw [Holding, List.map_append, List.map_append, List.map_cons] at hh
  have hlt : (((u.map Prod.fst).length : Nat) : Int) < list.len := by rwa [List.length_map]
  obtain ⟨list', hrun, hl', he⟩ := insertMiddle_linked hh (by simp) hd hne hlt
  rw [List.length_map] at hrun
  refine ⟨list', hrun, u, e :: v, (list.heap.length, data.take list.elemSize), rfl, ?_, he.currNode,
    he.elemSize⟩
  rw [Holding, List.map_append, List.map_append]
  exact hl'

/-- `list_insert` adds a node, or leaves the list as it is. -/
theorem listInsert_added (idx : Int) (hh : Holding list entries) (hroom : HasRoom list)
    (hd : list.elemSize ≤ data.length) :
    ∃ ok list', listInsert list idx data = some (ok, list') ∧
      (Added list list' entries ∨ list' = list) := by
  rw [listInsert]
  by_cases hout : idx < 0 ∨ idx > list.len
  · rw [if_pos hout]
    exact ⟨false, list, rfl, .inr rfl⟩
  · rw [if_neg hout]
    obtain ⟨hlo, hhi⟩ := not_or.mp hout
    by_cases hlast : idx = list.len
    · obtain ⟨list', hrun, hadd⟩ := listAppend_added hh hroom hd
      rw [if_pos hlast, hrun]
      exact ⟨true, list', rfl, .inl hadd⟩
    · rw [if_neg hlast]
      by_cases hfirst : idx = 0
      · obtain ⟨list', hrun, hadd⟩ := listPrepend_added hh hroom hd
        rw [if_pos hfirst, hrun]
        exact ⟨true, list', rfl, .inl hadd⟩
      · obtain ⟨list', hrun, hadd⟩ := insertMiddle_added hh hd
          (lt_of_le_of_ne (not_lt.mp hlo) (Ne.symm hfirst))
          (lt_of_le_of_ne (not_lt.mp hhi) hlast)
        rw [if_neg hfirst, hrun]
        exact ⟨true, list', rfl, .inl hadd⟩

/-! ## Where an iteration stands -/

/-- The list holds `entries`, and its pointer is the abstract cursor's. -/
structure Standing (n : Nat) (start entries : List Entry) (it : Iteration) : Prop where
  /-- The nodes of the list. -/
  holds : Holding it.list entries
  /-- The size of an element. -/
  size : it.list.elemSize = n
  /-- The node that comes next. -/
  cursor : ∃ cur, it.list.currNode = cur.map Prod.fst ∧ Cursor start it.delivered entries cur

namespace Standing

variable {n : Nat}

/-- `list_iter_start` puts the cursor before the first node. -/
theorem started (hh : Holding list entries) :
    Standing list.elemSize entries entries ⟨listIterStart list, []⟩ where
  holds := hh.congr rfl rfl rfl rfl rfl
  size := rfl
  cursor := by
    refine ⟨entries.head?, ?_, Cursor.started entries⟩
    show list.head = _
    rw [hh.chain.head_eq, List.head?_map]

/-- An added node moves the cursor's cut. -/
theorem added (hs : Standing n start entries it) (ha : Added it.list list' entries) :
    ∃ entries', Standing n start entries' (it.withList list') ∧
      entries'.length ≤ entries.length + 1 := by
  obtain ⟨u, v, e, rfl, hh, hnode, hsize⟩ := ha
  obtain ⟨cur, hcur, hc⟩ := hs.cursor
  refine ⟨u ++ e :: v, ⟨hh, hsize.trans hs.size, cur, hnode.trans hcur, hc.insert e⟩, ?_⟩
  rw [List.length_append, List.length_append, List.length_cons, Nat.add_assoc]

/-- `list_iter_next` moves the cursor. -/
theorem next (hs : Standing n start entries it) :
    ∃ it', it.step .next = some it' ∧ Standing n start entries it' := by
  obtain ⟨cur, hcur, hc⟩ := hs.cursor
  rw [Iteration.step]
  cases cur with
  | none =>
      have hnull : it.list.currNode = none := hcur
      rw [listIterNext_null hnull]
      refine ⟨_, rfl, hs.holds, hs.size, none, hcur, ?_⟩
      show Cursor start (it.delivered ++ it.list.currNode.toList.zip []) entries none
      rwa [hnull, List.zip_nil_right, List.append_nil]
  | some e =>
      have hnode : it.list.currNode = some e.1 := hcur
      obtain ⟨l, r, rfl, hc'⟩ := hc.next
      have hh := hs.holds
      rw [Holding, List.map_append, List.map_cons, List.map_append, List.map_cons] at hh
      obtain ⟨x, hx, hnext⟩ := listIterNext_linked hh hnode
      have hxe : x = e.2 := by simpa using hx.symm
      subst hxe
      rw [hnext]
      refine ⟨_, rfl, hs.holds.congr rfl rfl rfl rfl rfl, hs.size, r.head?, ?_, ?_⟩
      · show (r.map Prod.fst).head? = _
        rw [List.head?_map]
      · show Cursor start (it.delivered ++ it.list.currNode.toList.zip [e.2]) _ _
        rw [hnode]
        exact hc'

/-- **One call.** It completes and keeps the cursor's invariant; it adds one node at most, and none
if it brings no object along. -/
theorem step (hs : Standing n start entries it) (hd : ∀ data ∈ c.elems, n ≤ data.length)
    (hroom : c.elems ≠ [] → HasRoom it.list) :
    ∃ it' entries', it.step c = some it' ∧ Standing n start entries' it' ∧
      entries'.length ≤ entries.length + 1 ∧ (c.elems = [] → entries' = entries) := by
  cases c with
  | next =>
      obtain ⟨it', hrun, hs'⟩ := hs.next
      exact ⟨it', entries, hrun, hs', Nat.le_succ _, fun _ => rfl⟩
  | append data =>
      have hdata := hs.size.symm ▸ hd data List.mem_cons_self
      obtain ⟨list', hrun, ha⟩ := listAppend_added hs.holds (hroom (List.cons_ne_nil _ _)) hdata
      obtain ⟨entries', hs', hle⟩ := hs.added ha
      exact ⟨_, entries', by rw [Iteration.step, hrun]; rfl, hs', hle,
        fun h => absurd h (List.cons_ne_nil _ _)⟩
  | prepend data =>
      have hdata := hs.size.symm ▸ hd data List.mem_cons_self
      obtain ⟨list', hrun, ha⟩ := listPrepend_added hs.holds (hroom (List.cons_ne_nil _ _)) hdata
      obtain ⟨entries', hs', hle⟩ := hs.added ha
      exact ⟨_, entries', by rw [Iteration.step, hrun]; rfl, hs', hle,
        fun h => absurd h (List.cons_ne_nil _ _)⟩
  | insert idx data =>
      have hdata := hs.size.symm ▸ hd data List.mem_cons_self
      obtain ⟨ok, list', hrun, ha⟩ :=
        listInsert_added idx hs.holds (hroom (List.cons_ne_nil _ _)) hdata
      have hs' : ∃ entries', Standing n start entries' (it.withList list') ∧
          entries'.length ≤ entries.length + 1 := by
        rcases ha with ha | rfl
        · exact hs.added ha
        · exact ⟨entries, hs, Nat.le_succ _⟩
      obtain ⟨entries', hs', hle⟩ := hs'
      exact ⟨_, entries', by rw [Iteration.step, hrun]; rfl, hs', hle,
        fun h => absurd h (List.cons_ne_nil _ _)⟩
  | get idx =>
      obtain ⟨val, list', hrun, hh', he, _⟩ := listGet_spec idx hs.holds
      obtain ⟨cur, hcur, hc⟩ := hs.cursor
      exact ⟨it.withList list', entries, by rw [Iteration.step, hrun]; rfl,
        ⟨hh', he.elemSize.trans hs.size, cur, he.currNode.trans hcur, hc⟩, Nat.le_succ _,
        fun _ => rfl⟩

end Standing

/-! ## Whole iterations -/

/-- **Delivery.** The calls after `list_iter_start` complete. When there is nothing more to deliver,
the nodes delivered stand in the list in that order, none is delivered twice, and those the
iteration started with are among them; if nothing was added meanwhile, the elements delivered are
the list's, which a `list_each` that never stops visits. -/
def Delivers (list : ListT) (calls : List CursorCall) : Prop :=
  ∃ it start final, iterate list calls = some it ∧ nodes list = some start ∧
    nodes it.list = some final ∧
    (listIterHasNext it.list = false →
      it.delivered.Sublist final ∧ (it.delivered.map Prod.fst).Nodup ∧ start ⊆ it.delivered ∧
      ((∀ c ∈ calls, c.elems = []) → it.delivered = start ∧
        ∀ fn, (∀ i x, fn i x = 0) → visited list fn = some (it.delivered.map Prod.snd)))

/-- The calls that bring an object along find room for it. -/
def FindsRoom (list : ListT) (calls : List CursorCall) : Prop :=
  StepsMeet Iteration.step ⟨listIterStart list, []⟩ calls fun it c =>
    c.elems ≠ [] → HasRoom it.list

/-- The run invariant: the iteration stands somewhere, and in the nodes it started on if no call
brings anything along. -/
def Underway (n : Nat) (start : List Entry) (calls : List CursorCall) (it : Iteration) : Prop :=
  ∃ entries, Standing n start entries it ∧ ((∀ c ∈ calls, c.elems = []) → entries = start)

/-- One of the calls keeps the run invariant. -/
theorem Underway.step {n : Nat} (hu : Underway n start calls it) (hc : c ∈ calls)
    (hd : ∀ data ∈ c.elems, n ≤ data.length) (hroom : c.elems ≠ [] → HasRoom it.list) :
    ∃ it', it.step c = some it' ∧ Underway n start calls it' := by
  obtain ⟨entries, hs, hkeep⟩ := hu
  obtain ⟨it', entries', hrun, hs', _, hsame⟩ := hs.step hd hroom
  exact ⟨it', hrun, entries', hs', fun h => (hsame (h c hc)).trans (hkeep h)⟩

/-- **Every iteration delivers** that adds no element to a full list. -/
theorem delivers_of_room (hl : Linked list ps xs)
    (hd : ∀ c ∈ calls, ∀ data ∈ c.elems, list.elemSize ≤ data.length)
    (hroom : FindsRoom list calls) : Delivers list calls := by
  have hh := hl.holding
  have hstart : Underway list.elemSize (ps.zip xs) calls ⟨listIterStart list, []⟩ :=
    ⟨_, Standing.started hh, fun _ => rfl⟩
  obtain ⟨it, hrun, entries, hs, hkeep⟩ :=
    exists_run_of_stepsMeet hstart (fun it c hc hu hok => hu.step hc (hd c hc) hok) hroom
  refine ⟨it, ps.zip xs, entries, hrun, hh.nodes_eq, hs.holds.nodes_eq, fun hend => ?_⟩
  obtain ⟨cur, hcur, hc⟩ := hs.cursor
  obtain rfl : cur = none := by
    rw [listIterHasNext, hcur] at hend
    simpa using hend
  refine ⟨hc.sublist, (hc.sublist.map _).nodup hs.holds.nodup, hc.finished.subset, fun h => ?_⟩
  have heq : it.delivered = ps.zip xs := by
    have hsub := hc.sublist
    rw [hkeep h] at hsub
    exact hsub.antisymm hc.finished
  refine ⟨heq, fun fn hfn => ?_⟩
  rw [visited_eq_forward hfn, forward_spec hl, heq, List.map_snd_zip hl.length_eq.ge]

/-! ### Short iterations -/

/-- A list of fewer than `2 ^ 32` elements has room. -/
theorem Holding.hasRoom (hh : Holding list entries) (hlt : entries.length < 2 ^ 32) :
    HasRoom list := by
  intro hempty
  have hz : list.len = 0 := of_decide_eq_true hempty
  rw [hh.len, wrap32_eq_zero_iff, List.length_map] at hz
  have hnil : entries = [] := List.length_eq_zero_iff.mp (by omega)
  rw [hh.chain.head_eq, hnil]
  rfl

/-- Few calls find room. -/
theorem Standing.stepsMeet {n : Nat} (hs : Standing n start entries it)
    (hd : ∀ c ∈ calls, ∀ data ∈ c.elems, n ≤ data.length)
    (hfew : entries.length + calls.length ≤ 2 ^ 32) :
    StepsMeet Iteration.step it calls fun it c => c.elems ≠ [] → HasRoom it.list := by
  induction calls generalizing it entries with
  | nil => exact stepsMeet_nil
  | cons c calls ih =>
      rw [List.length_cons] at hfew
      have hroom : HasRoom it.list := hs.holds.hasRoom (by omega)
      obtain ⟨it', entries', hrun, hs', hle, _⟩ := hs.step (hd c List.mem_cons_self) fun _ => hroom
      rw [stepsMeet_cons_iff]
      refine ⟨fun _ => hroom, fun it₁ hrun₁ => ?_⟩
      obtain rfl := Option.some.inj (hrun.symm.trans hrun₁)
      exact ih hs' (fun c hc => hd c (List.mem_cons_of_mem _ hc)) (by omega)

/-- An iteration of few calls over a list of few elements finds room. -/
theorem Linked.findsRoom (hl : Linked list ps xs)
    (hd : ∀ c ∈ calls, ∀ data ∈ c.elems, list.elemSize ≤ data.length)
    (hfew : ps.length + calls.length ≤ 2 ^ 32) : FindsRoom list calls := by
  refine (Standing.started hl.holding).stepsMeet hd (le_trans (Nat.add_le_add_right ?_ _) hfew)
  rw [List.length_zip]
  exact Nat.min_le_left _ _

/-- Two elements: the first is delivered, one is put before the second, at which the iteration then
stands, and one behind it. -/
theorem delivers_of_room_example :
    ∃ list, run (listNew 1) [.append [1], .append [2]] = some ([.done, .done], list) ∧
      Delivers list [.next, .insert 1 [3], .append [4], .get 0, .next, .next] := by
  obtain ⟨list, ps, hrun, hl⟩ := run_spec (Linked.listNew 1)
    (show ∀ op ∈ [SeqOp.append [1], SeqOp.append [2]], Supplies 1 op by decide)
    (length_seqAfter_le_intMax (by decide))
  have hsize : list.elemSize = 1 := by simpa using (hl.size [1] List.mem_cons_self).symm
  have hd : ∀ c ∈ [CursorCall.next, .insert 1 [3], .append [4], .get 0, .next, .next],
      ∀ data ∈ c.elems, list.elemSize ≤ data.length := by
    rw [hsize]
    decide
  refine ⟨list, hrun, delivers_of_room hl hd (hl.findsRoom hd ?_)⟩
  rw [hl.length_eq]
  decide

/-! ## Filling the list -/

/-- With the counter at zero only the new node is written. -/
theorem linkLast_zero_node {a b : Nat} {x : Elem} (hz : list.len = 0)
    (hnew : list.node (some b) = some ⟨x, none, none⟩) (hrun : linkLast list b = some list')
    (hne : b ≠ a) : list'.node (some a) = list.node (some a) := by
  have hnew' : ((list.setHead (some b)).setTail (some b)).node (some b) = some ⟨x, none, none⟩ :=
    hnew
  rw [linkLast, if_pos hz, ListT.modify_eq hnew'] at hrun
  obtain rfl := Option.some.inj hrun
  exact (ListT.node_write hnew').trans (if_neg hne)

/-- `list_append` on a counter of zero leaves the old nodes in memory as they are. -/
theorem listAppend_zero_node {a : Nat} (hd : list.elemSize ≤ data.length) (hz : list.len = 0)
    (hrun : listAppend list data = some list') (hlt : a < list.heap.length) :
    list'.node (some a) = list.node (some a) := by
  have hzc : (created list data).len = 0 := hz
  rw [listAppend_eq hd, Option.map_eq_some_iff] at hrun
  obtain ⟨list₁, hlink, rfl⟩ := hrun
  have hkept := linkLast_zero_node hzc node_created hlink (Nat.ne_of_gt hlt)
  refine Eq.trans hkept (ListT.node_alloc.trans (if_neg (Nat.ne_of_lt hlt)))

/-- Prepending over and over, until the counter has been around once, while the iteration stands at
the last node. -/
theorem exists_prepends {n k : Nat} {u : List Entry} {e : Entry}
    (hs : Standing n start (u ++ [e]) it) (hd : n ≤ data.length)
    (hfew : u.length + 1 + k ≤ 2 ^ 32) :
    ∃ it' u', (List.replicate k (CursorCall.prepend data)).foldlM Iteration.step it = some it' ∧
      Standing n start (u' ++ [e]) it' ∧ u'.length = u.length + k ∧
      it'.list.currNode = it.list.currNode ∧ it'.delivered = it.delivered := by
  induction k generalizing it u with
  | zero => exact ⟨it, u, rfl, hs, rfl, rfl, rfl⟩
  | succ k ih =>
      have hlen : (u ++ [e]).length = u.length + 1 := by simp
      have hz : it.list.len ≠ 0 := by
        intro hz
        have hnil := hs.holds.of_len_zero (hs.holds.hasRoom (by omega)) hz
        exact absurd hnil (by simp)
      obtain ⟨list', hrun, hl', he⟩ := listPrepend_linked hs.holds (hs.size.symm ▸ hd) hz
      obtain ⟨cur, hcur, hc⟩ := hs.cursor
      have hs' : Standing n start ((it.list.heap.length, data.take it.list.elemSize) :: u ++ [e])
          (it.withList list') :=
        ⟨hl', he.elemSize.trans hs.size, cur, he.currNode.trans hcur, Cursor.insert (u := []) hc _⟩
      obtain ⟨it', u', hrest, hs'', hlen', hcur', hdone⟩ :=
        ih hs' (by rw [List.length_cons]; omega)
      refine ⟨it', u', ?_, hs'', ?_, hcur'.trans he.currNode, hdone⟩
      · rw [List.replicate_succ, List.foldlM_cons, Iteration.step, hrun]
        exact hrest
      · rw [hlen', List.length_cons]
        omega

/-- **A list filled during an iteration loses its nodes**, and the iteration delivers one of them. -/
theorem not_delivers_full :
    ∃ list, listAppend (listNew 1) [0] = some list ∧
      ¬ Delivers list (List.replicate (2 ^ 32 - 1) (.prepend [1]) ++ [.append [2], .next]) := by
  obtain ⟨list, hrun, hl, he⟩ :=
    listAppend_zero (show (listNew 1).elemSize ≤ ([0] : Elem).length by decide) rfl
  refine ⟨list, hrun, ?_⟩
  have hsize : list.elemSize = 1 := he.elemSize
  have hh : Holding list ([] ++ [((listNew 1).heap.length, [0])]) := hl
  have hs := Standing.started hh
  rw [hsize] at hs
  obtain ⟨it₁, u, hrun₁, hs₁, hlen, hcur₁, hdone₁⟩ :=
    exists_prepends hs (show 1 ≤ ([1] : Elem).length by decide)
      (show 0 + 1 + (2 ^ 32 - 1) ≤ 2 ^ 32 by decide)
  -- the counter is zero again
  have hz : it₁.list.len = 0 := by
    rw [hs₁.holds.len, wrap32_eq_zero_iff, List.length_map, List.length_append, hlen]
    rfl
  obtain ⟨list₂, happend, hl₂, he₂⟩ :=
    listAppend_zero (show it₁.list.elemSize ≤ ([2] : Elem).length by rw [hs₁.size]; decide) hz
  -- the node that comes next is one of those lost
  have hnode₁ := hs₁.holds
  rw [Holding, List.map_append, List.map_append] at hnode₁
  obtain ⟨n, hn, hnext, _⟩ := Linked.node_eq (r := []) hnode₁
  have hlt := ListT.lt_of_node hn
  have hn₂ : list₂.node (some (listNew 1).heap.length) = some n := by
    rw [listAppend_zero_node (by rw [hs₁.size]; decide) hz happend hlt]
    exact hn
  have hcur₂ : list₂.currNode = some (listNew 1).heap.length := by
    rw [he₂.currNode, hcur₁]
    show list.head = _
    rw [hl.chain.head_eq]
    rfl
  have hdata := hs₁.holds.size n.data (by
    rw [List.map_append]
    exact List.mem_of_getElem? (hnode₁.data_eq hn))
  have hsize₂ : n.data.length = list₂.elemSize := hdata.trans he₂.elemSize.symm
  have hread := listIterNext_node hcur₂ hn₂ hsize₂
  rw [hnext] at hread
  -- so the iteration delivers a node that is not in the list
  have hdone : iterate list (List.replicate (2 ^ 32 - 1) (.prepend [1]) ++ [.append [2], .next]) =
      some ⟨{ list₂ with currNode := none }, [((listNew 1).heap.length, n.data)]⟩ := by
    rw [iterate, List.foldlM_append, hrun₁]
    show (do let it ← it₁.step (.append [2]); let it ← it.step .next; some it) = _
    rw [Iteration.step, happend]
    show (do let it ← (it₁.withList list₂).step .next; some it) = _
    rw [Iteration.step, show (it₁.withList list₂).list = list₂ from rfl, hread]
    show some (Iteration.mk _ (it₁.delivered ++ list₂.currNode.toList.zip [n.data])) = _
    rw [hcur₂, hdone₁]
    rfl
  rintro ⟨it, before, after, hit, _, hafter, hdeliver⟩
  obtain rfl := Option.some.inj (hdone.symm.trans hit)
  have hheld : Holding { list₂ with currNode := none }
      [(it₁.list.heap.length, ([2] : Elem).take it₁.list.elemSize)] := hl₂.congr rfl rfl rfl rfl rfl
  obtain rfl := Option.some.inj (hheld.nodes_eq.symm.trans hafter)
  obtain ⟨hsub, _⟩ := hdeliver rfl
  have hmem := hsub.subset (List.mem_singleton_self _)
  have heq := congrArg Prod.fst (List.mem_singleton.mp hmem)
  exact absurd heq hlt.ne

end Flood.LinkedList
