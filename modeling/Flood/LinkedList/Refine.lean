import Flood.LinkedList.Repr

/-!
# What one list operation does

One spec for each operation of `list.c`, on a list whose nodes hold a sequence (`Linked`): the
operation completes, and `Linked` says which nodes hold which sequence afterwards. `Effect` is what
it did beside that: the calls it made on the mutex, and what it left alone.

While the counter is positive the operations are those of a sequence. `list_append` and
`list_prepend` on a counter of zero start the list anew: `listAppend_zero`.
-/

namespace Flood.LinkedList

open Flood.Lib

variable {list list' : ListT} {ps l r : List Nat} {xs ys : List Elem} {x data : Elem} {a b : Nat}
  {n : ListNode} {idx : Int}

/-- Beside the sequence: the calls made on the mutex, and what is left alone. -/
structure Effect (list list' : ListT) (calls : List MutexCall) : Prop where
  /-- The calls made. -/
  mutex : list'.mutex = list.mutex ++ calls
  /-- The element size is kept. -/
  elemSize : list'.elemSize = list.elemSize
  /-- An iteration under way is kept. -/
  currNode : list'.currNode = list.currNode

/-- The calls of an operation that locks the mutex and unlocks it again. -/
def paired : List MutexCall := [.lock, .unlock]

/-- The bytes copied have the size of an element. -/
theorem length_copy (hd : list.elemSize ≤ data.length) :
    (data.take list.elemSize).length = list.elemSize := by
  rw [List.length_take, Nat.min_eq_left hd]

/-! ## `create_node` -/

/-- The list with the mutex locked and a node made for the element. -/
def created (list : ListT) (data : Elem) : ListT :=
  list.lock.alloc ⟨data.take list.elemSize, none, none⟩

/-- `create_node` of an object that is large enough. -/
theorem createNode_eq (hd : list.elemSize ≤ data.length) :
    createNode list.lock data = some (list.heap.length, created list data) := by
  rw [createNode, if_pos (show list.lock.elemSize ≤ data.length from hd)]
  rfl

/-- The new node points nowhere. -/
theorem node_created :
    (created list data).node (some list.heap.length) =
      some ⟨data.take list.elemSize, none, none⟩ :=
  ListT.node_alloc.trans (if_pos rfl)

/-- The new node is not one of the list's. -/
theorem Linked.notMem_new (hl : Linked list ps xs) : list.heap.length ∉ ps := by
  intro hmem
  obtain ⟨n, hn, _⟩ := hl.node_of_mem hmem
  exact absurd (ListT.lt_of_node hn) (Nat.lt_irrefl _)

/-- Creating a node keeps the sequence. -/
theorem Linked.created (hl : Linked list ps xs) (data : Elem) :
    Linked (created list data) ps xs := by
  have hlock : Linked list.lock ps xs := hl.congr rfl rfl rfl rfl rfl
  exact hlock.alloc _

/-! ## Linking the new node in -/

/-- The nodes after two writes. -/
theorem ListT.node_write_write {m : ListNode} {n' m' : ListNode} (ha : list.node (some a) = some n)
    (hb : list.node (some b) = some m) {c : Nat} :
    ((list.write a n').write b m').node (some c) =
      if b = c then some m' else if a = c then some n' else list.node (some c) := by
  have hb' : ∃ k, (list.write a n').node (some b) = some k := by
    rw [ListT.node_write ha]
    split_ifs
    · exact ⟨_, rfl⟩
    · exact ⟨_, hb⟩
  obtain ⟨k, hk⟩ := hb'
  rw [ListT.node_write hk, ListT.node_write ha]

/-- A list whose counter is not zero is neither empty nor full. -/
theorem Linked.of_len_ne (hl : Linked list ps xs) (hz : list.len ≠ 0) :
    ps ≠ [] ∧ xs.length < 2 ^ 32 := by
  have hlen := hl.len
  have hbound := hl.bound
  have hcount := hl.length_eq
  constructor
  · rintro rfl
    rw [← hcount] at hlen
    exact hz (hlen.trans (wrap32_of_fits (by decide)))
  · apply lt_of_le_of_ne hbound
    intro hfull
    rw [hfull] at hlen
    exact hz (hlen.trans (by decide))

/-- With the counter at zero, the new node becomes the only one. -/
theorem linkLast_zero (hz : list.len = 0) (hnew : list.node (some b) = some ⟨x, none, none⟩)
    (hx : x.length = list.elemSize) :
    ∃ list', linkLast list b = some list' ∧ Linked list'.incLen [b] [x] ∧
      Effect list list' [] := by
  have hnew' : ((list.setHead (some b)).setTail (some b)).node (some b) = some ⟨x, none, none⟩ :=
    hnew
  refine ⟨((list.setHead (some b)).setTail (some b)).write b ⟨x, none, none⟩, ?_, ?_, ?_⟩
  · rw [linkLast, if_pos hz, ListT.modify_eq hnew']
  · apply Linked.single
    · exact (ListT.node_write hnew').trans (if_pos rfl)
    · rfl
    · rfl
    · show wrap32 (list.len + 1) = 1
      rw [hz]
      exact wrap32_of_fits (by decide)
    · exact hx
  · exact ⟨(List.append_nil _).symm, rfl, rfl⟩

/-- With the counter at zero, there is no difference between the two ends. -/
theorem linkFirst_zero (hz : list.len = 0) : linkFirst list b = linkLast list b := by
  rw [linkFirst, linkLast, if_pos hz, if_pos hz]

/-- The new node becomes the last. -/
theorem linkLast_spec (hl : Linked list ps xs) (hz : list.len ≠ 0)
    (hnew : list.node (some b) = some ⟨x, none, none⟩) (hb : b ∉ ps)
    (hx : x.length = list.elemSize) :
    ∃ list', linkLast list b = some list' ∧ Linked list'.incLen (ps ++ [b]) (xs ++ [x]) ∧
      Effect list list' [] := by
  obtain ⟨hne, hlt⟩ := hl.of_len_ne hz
  obtain ⟨l, t, rfl⟩ := (List.eq_nil_or_concat ps).resolve_left hne
  rw [List.concat_eq_append] at *
  have htail : list.tail = some t := by rw [hl.chain.tail_eq, List.getLast?_concat]
  obtain ⟨last, hlast, hnext, _⟩ := hl.node_eq
  have htb : t ≠ b := by
    rintro rfl
    exact hb (by simp)
  have hnew' : (list.write t { last with next := some b }).node (some b) =
      some ⟨x, none, none⟩ := by
    rw [ListT.node_write hlast, if_neg htb, hnew]
  refine ⟨((list.write t { last with next := some b }).write b ⟨x, none, list.tail⟩).setTail
    (some b), ?_, ?_, ?_⟩
  · rw [linkLast, if_neg hz, htail, ListT.modify_eq hlast, Option.bind_eq_bind, Option.bind_some,
      ListT.modify_eq hnew']
    rw [← htail]
    rfl
  · have hnil : Linked list ((l ++ [t]) ++ []) (xs ++ []) := by simpa using hl
    refine hnil.insert hl.length_eq ?_ ?_ ?_ ?_ rfl rfl hx (by simpa using hlt)
    · refine (ListT.node_write_write hlast hnew).trans ?_
      rw [if_pos rfl, htail, List.getLast?_concat]
      rfl
    · intro a ha n hn
      refine (ListT.node_write_write hlast hnew).trans ?_
      rw [if_neg (by rintro rfl; exact hb (by simpa using ha)), List.getLast?_concat]
      by_cases hta : t = a
      · subst hta
        rw [hlast] at hn
        obtain rfl := Option.some.inj hn
        simp
      · simp [hta, hn]
    · rw [if_neg (by simp)]
      rfl
    · rw [if_pos rfl]
      rfl
  · exact ⟨(List.append_nil _).symm, rfl, rfl⟩

/-- The new node becomes the first. -/
theorem linkFirst_spec (hl : Linked list ps xs) (hz : list.len ≠ 0)
    (hnew : list.node (some b) = some ⟨x, none, none⟩) (hb : b ∉ ps)
    (hx : x.length = list.elemSize) :
    ∃ list', linkFirst list b = some list' ∧ Linked list'.incLen (b :: ps) (x :: xs) ∧
      Effect list list' [] := by
  obtain ⟨hne, hlt⟩ := hl.of_len_ne hz
  obtain ⟨f, r, rfl⟩ := List.exists_cons_of_ne_nil hne
  have hhead : list.head = some f := by rw [hl.chain.head_eq, List.head?_cons]
  obtain ⟨first, hfirst, _, hprev⟩ := Linked.node_eq (l := []) hl
  have hfb : f ≠ b := by
    rintro rfl
    exact hb List.mem_cons_self
  have hnew' : (list.write f { first with prev := some b }).node (some b) =
      some ⟨x, none, none⟩ := by
    rw [ListT.node_write hfirst, if_neg hfb, hnew]
  refine ⟨((list.write f { first with prev := some b }).write b ⟨x, list.head, none⟩).setHead
    (some b), ?_, ?_, ?_⟩
  · rw [linkFirst, if_neg hz, hhead, ListT.modify_eq hfirst, Option.bind_eq_bind, Option.bind_some,
      ListT.modify_eq hnew']
    rw [← hhead]
    rfl
  · have hnil : Linked list ([] ++ f :: r) ([] ++ xs) := hl
    refine hnil.insert rfl ?_ ?_ ?_ ?_ rfl rfl hx hlt
    · refine (ListT.node_write_write hfirst hnew).trans ?_
      rw [if_pos rfl, hhead]
      rfl
    · intro a ha n hn
      refine (ListT.node_write_write hfirst hnew).trans ?_
      rw [if_neg (by rintro rfl; exact hb (by simpa using ha)), List.head?_cons]
      by_cases hfa : f = a
      · subst hfa
        rw [hfirst] at hn
        obtain rfl := Option.some.inj hn
        simp
      · simp [hfa, hn]
    · rw [if_pos rfl]
      rfl
    · rw [if_neg (by simp)]
      rfl
  · exact ⟨(List.append_nil _).symm, rfl, rfl⟩

/-- The new node comes before the node `c`, which is not the first. -/
theorem linkBefore_spec {c : Nat} (hl : Linked list (l ++ c :: r) (xs ++ ys))
    (hlen : l.length = xs.length) (hne : l ≠ []) (hlt : (xs ++ ys).length < 2 ^ 32)
    (hnew : list.node (some b) = some ⟨x, none, none⟩) (hb : b ∉ l ++ c :: r)
    (hx : x.length = list.elemSize) :
    ∃ list', linkBefore list (some c) b = some list' ∧
      Linked list'.incLen (l ++ b :: c :: r) (xs ++ x :: ys) ∧ Effect list list' [] := by
  have hnodup := hl.chain.nodup
  obtain ⟨old, hold, _, hprev⟩ := hl.node_eq
  obtain ⟨k, t, rfl⟩ := (List.eq_nil_or_concat l).resolve_left hne
  rw [List.concat_eq_append] at *
  rw [List.getLast?_concat] at hprev
  have hl' : Linked list (k ++ t :: c :: r) (xs ++ ys) := by simpa using hl
  obtain ⟨before, hbefore, _⟩ := hl'.node_eq
  have htb : t ≠ b := by
    rintro rfl
    exact hb (by simp)
  have hcb : c ≠ b := by
    rintro rfl
    exact hb (by simp)
  have htc : t ≠ c := by
    rintro rfl
    exact (List.disjoint_of_nodup_append hnodup) (by simp) List.mem_cons_self
  have hold' : (list.write t { before with next := some b }).node (some c) = some old := by
    rw [ListT.node_write hbefore, if_neg htc, hold]
  have hnew' : (list.write t { before with next := some b }).node (some b) =
      some ⟨x, none, none⟩ := by
    rw [ListT.node_write hbefore, if_neg htb, hnew]
  have hold'' : ((list.write t { before with next := some b }).write b ⟨x, some c, some t⟩).node
      (some c) = some old := by
    rw [ListT.node_write hnew', if_neg hcb.symm, hold']
  refine ⟨((list.write t { before with next := some b }).write b ⟨x, some c, some t⟩).write c
    { old with prev := some b }, ?_, ?_, ?_⟩
  · rw [linkBefore, hold, Option.bind_eq_bind, Option.bind_some, hprev, ListT.modify_eq hbefore,
      Option.bind_eq_bind, Option.bind_some, hold', Option.bind_some, hprev,
      ListT.modify_eq hnew', Option.bind_some, ListT.modify_eq hold'']
  · refine hl.insert hlen ?_ ?_ ?_ ?_ rfl rfl hx hlt
    · refine (ListT.node_write hold'').trans ?_
      rw [if_neg hcb, ListT.node_write hnew', if_pos rfl, List.getLast?_concat]
      rfl
    · intro a ha n hn
      refine (ListT.node_write hold'').trans ?_
      rw [ListT.node_write_write hbefore hnew,
        if_neg (show b ≠ a by rintro rfl; exact hb ha), List.getLast?_concat, List.head?_cons]
      by_cases hca : c = a
      · subst hca
        rw [hold] at hn
        obtain rfl := Option.some.inj hn
        simp [htc]
      · by_cases hta : t = a
        · subst hta
          rw [hbefore] at hn
          obtain rfl := Option.some.inj hn
          simp [hca]
        · simp [hca, hta, hn]
    · rw [if_neg (by simp)]
      rfl
    · rw [if_neg (by simp)]
      rfl
  · exact ⟨(List.append_nil _).symm, rfl, rfl⟩

/-! ## Taking the last node off -/

/-- A freed node is gone; the others are not touched. -/
theorem node_free (hab : a ≠ b) :
    ({ list with heap := list.heap.set a none } : ListT).node (some b) = list.node (some b) := by
  show (list.heap.set a none)[b]?.join = list.heap[b]?.join
  rw [List.getElem?_set_ne hab]

/-- `list_truncate` up to the unlock removes the last element. -/
theorem unlinkLast_spec (hl : Linked list (l ++ [b]) (xs ++ [x])) (hpos : 0 < list.len) :
    ∃ list₁ list', unlinkLast list = some list₁ ∧ list₁.free list.tail = some list' ∧
      Linked list'.decLen l xs ∧ Effect list list' [] := by
  have hnodup := hl.chain.nodup
  have htail : list.tail = some b := by rw [hl.chain.tail_eq, List.getLast?_concat]
  obtain ⟨last, hlast, _, hprev⟩ := hl.node_eq
  have hcount := hl.length_eq
  have hlen := hl.length_of_pos hpos
  simp only [List.length_append, List.length_singleton] at hcount hlen
  by_cases hone : list.len = 1
  · obtain rfl : l = [] := List.length_eq_zero_iff.mp (by omega)
    have hlast' : ((list.setHead none).setTail none).node (some b) = some last := hlast
    refine ⟨(list.setHead none).setTail none, _, ?_, htail ▸ ListT.free_eq hlast', ?_, ?_⟩
    · rw [unlinkLast, if_pos hone]
    · exact hl.dropLast (by simp) rfl rfl rfl rfl
    · exact ⟨(List.append_nil _).symm, rfl, rfl⟩
  · obtain ⟨k, t, rfl⟩ := (List.eq_nil_or_concat l).resolve_left fun hnil => by
      rw [hnil, List.length_nil] at hcount
      omega
    rw [List.concat_eq_append] at *
    rw [List.getLast?_concat] at hprev
    have hl' : Linked list (k ++ t :: [b]) (xs ++ [x]) := by simpa using hl
    obtain ⟨before, hbefore, _⟩ := hl'.node_eq
    have htb : t ≠ b := by
      rintro rfl
      exact (List.disjoint_of_nodup_append hnodup) (by simp) List.mem_cons_self
    have hbefore' : (list.setTail (some t)).node (some t) = some before := hbefore
    have hlast' : ((list.setTail (some t)).write t { before with next := none }).node (some b) =
        some last := by
      rw [ListT.node_write hbefore', if_neg htb]
      exact hlast
    refine ⟨(list.setTail (some t)).write t { before with next := none }, _, ?_,
      htail ▸ ListT.free_eq hlast', ?_, ?_⟩
    · rw [unlinkLast, if_neg hone, htail, hlast, Option.bind_eq_bind, Option.bind_some, hprev,
        ListT.modify_eq hbefore']
    · refine hl.dropLast ?_ ?_ ?_ rfl rfl
      · intro a ha n hn
        have hba : b ≠ a := by
          rintro rfl
          exact (List.disjoint_of_nodup_append hnodup) ha List.mem_cons_self
        refine (node_free hba).trans ?_
        rw [ListT.node_write hbefore', List.getLast?_concat]
        by_cases hta : t = a
        · subst hta
          rw [hbefore] at hn
          obtain rfl := Option.some.inj hn
          simp
        · simp only [hta, if_false, Option.some.injEq]
          exact hn
      · rw [if_neg (by simp)]
        rfl
      · rw [List.getLast?_concat]
        rfl
    · exact ⟨(List.append_nil _).symm, rfl, rfl⟩

/-! ## The operations -/

/-- An operation that locks, links a node in and unlocks. -/
theorem Effect.paired {list₁ : ListT} (he : Effect (created list data) list₁ []) :
    Effect list list₁.incLen.unlock paired where
  mutex := by
    show list₁.mutex ++ [.unlock] = _
    rw [he.mutex, List.append_nil]
    exact List.append_assoc _ _ _
  elemSize := he.elemSize
  currNode := he.currNode

/-- What appending makes of the sequence: with the counter at zero it starts anew. -/
def appended (list : ListT) (xs : List Elem) (x : Elem) : List Elem :=
  if list.len = 0 then [x] else xs ++ [x]

/-- What prepending makes of the sequence: with the counter at zero it starts anew. -/
def prepended (list : ListT) (xs : List Elem) (x : Elem) : List Elem :=
  if list.len = 0 then [x] else x :: xs

/-- `list_append` of an object that is large enough. -/
theorem listAppend_eq (hd : list.elemSize ≤ data.length) :
    listAppend list data =
      (linkLast (created list data) list.heap.length).map fun list => list.incLen.unlock := by
  rw [listAppend, createNode_eq hd, Option.map_eq_bind]
  rfl

/-- `list_prepend` of an object that is large enough. -/
theorem listPrepend_eq (hd : list.elemSize ≤ data.length) :
    listPrepend list data =
      (linkFirst (created list data) list.heap.length).map fun list => list.incLen.unlock := by
  rw [listPrepend, createNode_eq hd, Option.map_eq_bind]
  rfl

/-- `list_append` while the counter is not zero: the new node is the last. -/
theorem listAppend_linked (hl : Linked list ps xs) (hd : list.elemSize ≤ data.length)
    (hz : list.len ≠ 0) :
    ∃ list', listAppend list data = some list' ∧
      Linked list' (ps ++ [list.heap.length]) (xs ++ [data.take list.elemSize]) ∧
      Effect list list' paired := by
  have hzc : (created list data).len ≠ 0 := hz
  obtain ⟨list₁, hrun, hl₁, he⟩ :=
    linkLast_spec (hl.created data) hzc node_created hl.notMem_new (length_copy hd)
  rw [listAppend_eq hd, hrun]
  exact ⟨_, rfl, hl₁.congr rfl rfl rfl rfl rfl, he.paired⟩

/-- `list_append` on a counter of zero: the new node is the only one. -/
theorem listAppend_zero (hd : list.elemSize ≤ data.length) (hz : list.len = 0) :
    ∃ list', listAppend list data = some list' ∧
      Linked list' [list.heap.length] [data.take list.elemSize] ∧ Effect list list' paired := by
  have hzc : (created list data).len = 0 := hz
  obtain ⟨list₁, hrun, hl₁, he⟩ := linkLast_zero hzc node_created (length_copy hd)
  rw [listAppend_eq hd, hrun]
  exact ⟨_, rfl, hl₁.congr rfl rfl rfl rfl rfl, he.paired⟩

/-- **`list_append`.** -/
theorem listAppend_spec (hl : Linked list ps xs) (hd : list.elemSize ≤ data.length) :
    ∃ list', listAppend list data = some list' ∧
      (∃ ps', Linked list' ps' (appended list xs (data.take list.elemSize))) ∧
      Effect list list' paired := by
  rw [appended]
  by_cases hz : list.len = 0
  · obtain ⟨list', hrun, hl', he⟩ := listAppend_zero hd hz
    rw [if_pos hz]
    exact ⟨list', hrun, ⟨_, hl'⟩, he⟩
  · obtain ⟨list', hrun, hl', he⟩ := listAppend_linked hl hd hz
    rw [if_neg hz]
    exact ⟨list', hrun, ⟨_, hl'⟩, he⟩

/-- `list_prepend` while the counter is not zero: the new node is the first. -/
theorem listPrepend_linked (hl : Linked list ps xs) (hd : list.elemSize ≤ data.length)
    (hz : list.len ≠ 0) :
    ∃ list', listPrepend list data = some list' ∧
      Linked list' (list.heap.length :: ps) (data.take list.elemSize :: xs) ∧
      Effect list list' paired := by
  have hzc : (created list data).len ≠ 0 := hz
  obtain ⟨list₁, hrun, hl₁, he⟩ :=
    linkFirst_spec (hl.created data) hzc node_created hl.notMem_new (length_copy hd)
  rw [listPrepend_eq hd, hrun]
  exact ⟨_, rfl, hl₁.congr rfl rfl rfl rfl rfl, he.paired⟩

/-- On a counter of zero it does not matter at which end the element is put. -/
theorem listPrepend_zero (hd : list.elemSize ≤ data.length) (hz : list.len = 0) :
    listPrepend list data = listAppend list data := by
  have hzc : (created list data).len = 0 := hz
  rw [listPrepend_eq hd, listAppend_eq hd, linkFirst_zero hzc]

/-- **`list_prepend`.** -/
theorem listPrepend_spec (hl : Linked list ps xs) (hd : list.elemSize ≤ data.length) :
    ∃ list', listPrepend list data = some list' ∧
      (∃ ps', Linked list' ps' (prepended list xs (data.take list.elemSize))) ∧
      Effect list list' paired := by
  rw [prepended]
  by_cases hz : list.len = 0
  · obtain ⟨list', hrun, hl', he⟩ := listAppend_zero hd hz
    rw [if_pos hz, listPrepend_zero hd hz]
    exact ⟨list', hrun, ⟨_, hl'⟩, he⟩
  · obtain ⟨list', hrun, hl', he⟩ := listPrepend_linked hl hd hz
    rw [if_neg hz]
    exact ⟨list', hrun, ⟨_, hl'⟩, he⟩

/-- `list_insert` strictly inside the list: the new node comes before the one at the index. -/
theorem insertMiddle_linked {c : Nat} (hl : Linked list (l ++ c :: r) (xs ++ ys))
    (hlen : l.length = xs.length) (hd : list.elemSize ≤ data.length) (hlo : l ≠ [])
    (hhi : (l.length : Int) < list.len) :
    ∃ list', insertMiddle list l.length data = some list' ∧
      Linked list' (l ++ list.heap.length :: c :: r) (xs ++ data.take list.elemSize :: ys) ∧
      Effect list list' paired := by
  have hpos : 0 < list.len := lt_of_le_of_lt (Int.natCast_nonneg _) hhi
  have hlc := hl.created data
  have hat : nodeAt (created list data) l.length = some (some c) :=
    nodeAt_spec hlc (hl.length_of_pos hpos).symm
  obtain ⟨_, hlt⟩ := hl.of_len_ne hpos.ne'
  obtain ⟨list₁, hrun, hl₁, he⟩ :=
    linkBefore_spec hlc hlen hlo hlt node_created hl.notMem_new (length_copy hd)
  refine ⟨list₁.incLen.unlock, ?_, hl₁.congr rfl rfl rfl rfl rfl, he.paired⟩
  rw [insertMiddle, createNode_eq hd, Option.bind_eq_bind, Option.bind_some]
  show (do let node ← nodeAt (created list data) l.length; _) = _
  rw [hat, Option.bind_eq_bind, Option.bind_some, hrun]
  rfl

/-- `list_insert` strictly inside the list. -/
theorem insertMiddle_spec (hl : Linked list ps xs) (hd : list.elemSize ≤ data.length)
    (hlo : 0 < idx) (hhi : idx < list.len) :
    ∃ list', insertMiddle list idx data = some list' ∧
      (∃ ps', Linked list' ps' (xs.insertIdx idx.toNat (data.take list.elemSize))) ∧
      Effect list list' paired := by
  have hcount := hl.length_eq
  have hlen := hl.length_of_pos (lt_trans hlo hhi)
  obtain ⟨i, rfl⟩ := Int.eq_ofNat_of_zero_le hlo.le
  -- cut both sequences at the index
  obtain ⟨l, c, r, rfl, rfl⟩ : ∃ l c r, ps = l ++ c :: r ∧ l.length = i := exists_cut (by omega)
  obtain ⟨ys, y, zs, rfl, hly⟩ : ∃ ys y zs, xs = ys ++ y :: zs ∧ ys.length = l.length :=
    exists_cut (by omega)
  have hne : l ≠ [] := by
    rintro rfl
    exact absurd hlo (by simp)
  obtain ⟨list', hrun, hl', he⟩ := insertMiddle_linked hl hly.symm hd hne hhi
  refine ⟨list', hrun, ⟨l ++ list.heap.length :: c :: r, ?_⟩, he⟩
  rw [Int.toNat_natCast, ← hly, insertIdx_length_append]
  exact hl'

/-- The calls an operation makes on the mutex. -/
def callsOf (list : ListT) : SeqOp Elem → List MutexCall
  | .append _ => paired
  | .prepend _ => paired
  | .insert idx _ => if idx < 0 ∨ idx > list.len then [] else paired
  | .truncate => if list.len < 1 then [.lock] else paired
  | .get idx => if idx < 0 ∨ idx ≥ list.len then [] else paired

/-- **`list_insert`.** -/
theorem listInsert_spec (idx : Int) (hl : Linked list ps xs) (hd : list.elemSize ≤ data.length) :
    ∃ ok list' ps' xs', listInsert list idx data = some (ok, list') ∧ Linked list' ps' xs' ∧
      Effect list list' (callsOf list (.insert idx data)) ∧
      ((xs.length : Int) ≤ intMax →
        xs' = (SeqOp.insert idx (data.take list.elemSize)).apply xs ∧
        SeqReply.ok ok = (SeqOp.insert idx (data.take list.elemSize)).reply xs) := by
  rw [listInsert, callsOf, SeqOp.apply, SeqOp.reply]
  by_cases hout : idx < 0 ∨ idx > list.len
  · rw [if_pos hout, if_pos hout]
    refine ⟨false, list, ps, xs, rfl, hl, ⟨(List.append_nil _).symm, rfl, rfl⟩, fun hmax => ?_⟩
    have hlen := hl.len_eq hmax
    have hrange : ¬ (0 ≤ idx ∧ idx ≤ xs.length) := by omega
    rw [if_neg hrange]
    exact ⟨rfl, by simp [hrange]⟩
  · rw [if_neg hout, if_neg hout]
    have hlo : 0 ≤ idx := by omega
    have hhi : idx ≤ list.len := by omega
    have hin : (xs.length : Int) ≤ intMax → 0 ≤ idx ∧ idx ≤ xs.length := fun hmax =>
      ⟨hlo, hl.len_eq hmax ▸ hhi⟩
    by_cases hlast : idx = list.len
    · obtain ⟨list', hrun, ⟨ps', hl'⟩, he⟩ := listAppend_spec hl hd
      rw [if_pos hlast, hrun]
      refine ⟨true, list', ps', _, rfl, hl', he, fun hmax => ?_⟩
      rw [if_pos (hin hmax), hlast, hl.len_eq hmax, Int.toNat_natCast, List.insertIdx_length_self]
      refine ⟨?_, by simp⟩
      rw [appended, hl.len_eq hmax]
      split_ifs with hz
      · rw [List.length_eq_zero_iff.mp (Int.natCast_eq_zero.mp hz)]
        rfl
      · rfl
    · rw [if_neg hlast]
      by_cases hfirst : idx = 0
      · obtain ⟨list', hrun, ⟨ps', hl'⟩, he⟩ := listPrepend_spec hl hd
        rw [if_pos hfirst, hrun]
        refine ⟨true, list', ps', _, rfl, hl', he, fun hmax => ?_⟩
        rw [if_pos (hin hmax), hfirst, prepended, if_neg (by omega)]
        exact ⟨rfl, by simp⟩
      · obtain ⟨list', hrun, ⟨ps', hl'⟩, he⟩ :=
          insertMiddle_spec hl hd (lt_of_le_of_ne hlo (Ne.symm hfirst)) (lt_of_le_of_ne hhi hlast)
        rw [if_neg hfirst, hrun]
        refine ⟨true, list', ps', _, rfl, hl', he, fun hmax => ?_⟩
        rw [if_pos (hin hmax)]
        exact ⟨rfl, by simp [hin hmax]⟩

/-- **`list_truncate`.** -/
theorem listTruncate_spec (hl : Linked list ps xs) :
    ∃ ok list' ps' xs', listTruncate list = some (ok, list') ∧ Linked list' ps' xs' ∧
      Effect list list' (callsOf list .truncate) ∧
      ((xs.length : Int) ≤ intMax →
        xs' = SeqOp.truncate.apply xs ∧ SeqReply.ok ok = SeqOp.truncate.reply xs) := by
  rw [listTruncate, callsOf, SeqOp.apply, SeqOp.reply]
  by_cases hshort : list.len < 1
  · rw [if_pos hshort, if_pos hshort]
    refine ⟨false, list.lock, ps, xs, rfl, hl.congr rfl rfl rfl rfl rfl, ⟨rfl, rfl, rfl⟩,
      fun hmax => ?_⟩
    have hlen := hl.len_eq hmax
    obtain rfl : xs = [] := List.length_eq_zero_iff.mp (by omega)
    exact ⟨rfl, by simp⟩
  · rw [if_neg hshort, if_neg hshort]
    have hpos : 0 < list.len := by omega
    have hlen := hl.length_of_pos hpos
    have hcount := hl.length_eq
    obtain ⟨l, b, rfl⟩ := (List.eq_nil_or_concat ps).resolve_left fun hnil => by
      rw [hnil, List.length_nil] at hcount
      omega
    obtain ⟨ys, y, rfl⟩ := (List.eq_nil_or_concat xs).resolve_left fun hnil => by
      rw [hnil, List.length_nil] at hlen
      omega
    rw [List.concat_eq_append, List.concat_eq_append] at hl
    rw [List.concat_eq_append]
    have hlock : Linked list.lock (l ++ [b]) (ys ++ [y]) := hl.congr rfl rfl rfl rfl rfl
    obtain ⟨list₁, list', hunlink, hfree, hl', he⟩ := unlinkLast_spec hlock hpos
    refine ⟨true, list'.decLen.unlock, l, ys, ?_, hl'.congr rfl rfl rfl rfl rfl,
      ⟨?_, he.elemSize, he.currNode⟩, fun _ => ⟨?_, ?_⟩⟩
    · rw [hunlink, Option.bind_eq_bind, Option.bind_some]
      show (do let rest ← list₁.free list.lock.tail; _) = _
      rw [hfree]
      rfl
    · show list'.mutex ++ [.unlock] = _
      rw [he.mutex, List.append_nil]
      exact List.append_assoc _ _ _
    · rw [List.dropLast_concat]
    · simp

/-- **`list_get`.** -/
theorem listGet_spec (idx : Int) (hl : Linked list ps xs) :
    ∃ val list', listGet list idx = some (val, list') ∧ Linked list' ps xs ∧
      Effect list list' (callsOf list (.get idx)) ∧
      ((xs.length : Int) ≤ intMax → SeqReply.elem val = (SeqOp.get idx).reply xs) := by
  rw [listGet, callsOf, SeqOp.reply]
  by_cases hout : idx < 0 ∨ idx ≥ list.len
  · rw [if_pos hout, if_pos hout]
    refine ⟨none, list, rfl, hl, ⟨(List.append_nil _).symm, rfl, rfl⟩, fun hmax => ?_⟩
    have hlen := hl.len_eq hmax
    split_ifs with hlo
    · rw [List.getElem?_eq_none (by omega)]
    · rfl
  · rw [if_neg hout, if_neg hout]
    have hlo : 0 ≤ idx := by omega
    have hlen := hl.length_of_pos (by omega)
    have hcount := hl.length_eq
    obtain ⟨i, rfl⟩ := Int.eq_ofNat_of_zero_le hlo
    have hi : i < ps.length := by omega
    obtain ⟨l, c, r, rfl, rfl⟩ := exists_cut hi
    have hlock : Linked list.lock (l ++ c :: r) xs := hl.congr rfl rfl rfl rfl rfl
    have hat : nodeAt list.lock l.length = some (some c) := nodeAt_spec hlock hlen.symm
    obtain ⟨n, hn, _⟩ := hl.node_eq
    have hdata := hl.data_eq hn
    have hsize := hl.size _ (List.mem_of_getElem? hdata)
    refine ⟨some n.data, list.lock.unlock, ?_, hlock.congr rfl rfl rfl rfl rfl,
      ⟨List.append_assoc _ _ _, rfl, rfl⟩, fun _ => ?_⟩
    · rw [hat, Option.bind_eq_bind, Option.bind_some, hn, Option.bind_eq_bind, Option.bind_some,
        if_pos hsize.ge, ← hsize, List.take_length]
    · rw [if_pos hlo, Int.toNat_natCast, hdata]

end Flood.LinkedList
