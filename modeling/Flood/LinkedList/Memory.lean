import Flood.Lib.DoubleChain
import Flood.Lib.Sequence
import Flood.Lib.Word

/-!
# `list.c` on its heap

The list as the source stores it: nodes with pointers in both directions, a pointer to each end and
a counter. A node's address is its position in `heap`; a freed node leaves a hole there. An element
is the bytes of one object of the caller's.

The mutex is a log of the calls made on it. What the calls do to a thread that makes them is the
subject of `LinkedList/Locking.lean`.

A result `none` means that the run leaves what the source defines: it follows a pointer that is null
or freed, or copies more bytes than the caller's object has.
-/

namespace Flood.LinkedList

open Flood.Lib

/-- The bytes of an element. -/
abbrev Elem := List UInt8

/-- A node.
Source: `list.h`, `list_node` -/
structure ListNode where
  /-- The copy of the element. -/
  data : Elem
  /-- The node after this one; `none` is `NULL`. -/
  next : Option Nat
  /-- The node before this one. -/
  prev : Option Nat
  deriving DecidableEq

/-- A call on a mutex. -/
inductive MutexCall where
  /-- `pthread_mutex_lock` -/
  | lock
  /-- `pthread_mutex_unlock` -/
  | unlock
  deriving DecidableEq

/-- The list with the nodes it owns.
Source: `list.h`, `list_t` -/
structure ListT where
  /-- The first node. -/
  head : Option Nat
  /-- The last node. -/
  tail : Option Nat
  /-- The node an iteration delivers next. -/
  currNode : Option Nat
  /-- The number of bytes of an element. -/
  elemSize : Nat
  /-- The counter of elements. -/
  len : Int
  /-- The calls made on the mutex so far. -/
  mutex : List MutexCall
  /-- The allocated nodes. -/
  heap : List (Option ListNode)
  deriving DecidableEq

namespace ListT

/-- The node a pointer points to. -/
def node (list : ListT) (p : Option Nat) : Option ListNode := do
  let a ← p
  list.heap[a]?.join

/-- Write fields of the node a pointer points to. -/
def modify (list : ListT) (p : Option Nat) (f : ListNode → ListNode) : Option ListT := do
  let a ← p
  let n ← list.heap[a]?.join
  some { list with heap := list.heap.set a (some (f n)) }

/-- `free` of the node a pointer points to. -/
def free (list : ListT) (p : Option Nat) : Option ListT := do
  let a ← p
  let _ ← list.heap[a]?.join
  some { list with heap := list.heap.set a none }

/-- `list->head = p` -/
def setHead (list : ListT) (p : Option Nat) : ListT := { list with head := p }

/-- `list->tail = p` -/
def setTail (list : ListT) (p : Option Nat) : ListT := { list with tail := p }

/-- `list->len++` -/
def incLen (list : ListT) : ListT := { list with len := wrap32 (list.len + 1) }

/-- `list->len--` -/
def decLen (list : ListT) : ListT := { list with len := wrap32 (list.len - 1) }

/-- `pthread_mutex_lock(&(list->mutex))` -/
def lock (list : ListT) : ListT := { list with mutex := list.mutex ++ [.lock] }

/-- `pthread_mutex_unlock(&(list->mutex))` -/
def unlock (list : ListT) : ListT := { list with mutex := list.mutex ++ [.unlock] }

end ListT

/-- An empty list of elements of `elemSize` bytes.
Source: `list.c`, `list_new` -/
def listNew (elemSize : Nat) : ListT where
  head := none
  tail := none
  currNode := none
  elemSize := elemSize
  len := 0
  mutex := []
  heap := []

/-- The counter.
Source: `list.c`, `list_len` -/
def listLen (list : ListT) : Int := list.len

/-- Is the counter zero?
Source: `list.c`, `list_empty` -/
def listEmpty (list : ListT) : Bool := list.len = 0

/-- A node with a copy of the element and no neighbours; its address and the list.
Source: `list.c`, `create_node` -/
def createNode (list : ListT) (data : Elem) : Option (Nat × ListT) :=
  if list.elemSize ≤ data.length then
    some (list.heap.length,
      { list with heap := list.heap ++ [some ⟨data.take list.elemSize, none, none⟩] })
  else none

/-- `list_append` between `create_node` and `list->len++`: link the new node in as the last. -/
def linkLast (list : ListT) (newNode : Nat) : Option ListT :=
  if list.len = 0 then
    ((list.setHead (some newNode)).setTail (some newNode)).modify (some newNode)
      fun n => { n with next := none, prev := none }
  else do
    let list ← list.modify list.tail fun n => { n with next := some newNode }
    let list ← list.modify (some newNode) fun n => { n with next := none, prev := list.tail }
    some (list.setTail (some newNode))

/-- Append an element.
Source: `list.c`, `list_append` -/
def listAppend (list : ListT) (data : Elem) : Option ListT := do
  let (newNode, list) ← createNode list.lock data
  let list ← linkLast list newNode
  some list.incLen.unlock

/-- `list_prepend` between `create_node` and `list->len++`: link the new node in as the first. -/
def linkFirst (list : ListT) (newNode : Nat) : Option ListT :=
  if list.len = 0 then
    ((list.setHead (some newNode)).setTail (some newNode)).modify (some newNode)
      fun n => { n with next := none, prev := none }
  else do
    let list ← list.modify list.head fun n => { n with prev := some newNode }
    let list ← list.modify (some newNode) fun n => { n with next := list.head, prev := none }
    some (list.setHead (some newNode))

/-- Prepend an element.
Source: `list.c`, `list_prepend` -/
def listPrepend (list : ListT) (data : Elem) : Option ListT := do
  let (newNode, list) ← createNode list.lock data
  let list ← linkFirst list newNode
  some list.incLen.unlock

/-- `for (int i = 0; i < n; i++) node = node->link;`, with `next` or `prev` for `link`. -/
def walk (list : ListT) (link : ListNode → Option Nat) : Nat → Option Nat → Option (Option Nat)
  | 0, p => some p
  | n + 1, p => do
      let node ← list.node p
      walk list link n (link node)

/-- The walk of `list_insert` and `list_get`: from the head if `idx <= mid`, else from the tail. -/
def nodeAt (list : ListT) (idx : Int) : Option (Option Nat) :=
  if idx ≤ list.len.tdiv 2 then walk list ListNode.next idx.toNat list.head
  else walk list ListNode.prev (list.len - idx - 1).toNat list.tail

/-- The four pointer writes of `list_insert`: link the new node in before `node`. -/
def linkBefore (list : ListT) (node : Option Nat) (newNode : Nat) : Option ListT := do
  let old ← list.node node
  let list ← list.modify old.prev fun n => { n with next := some newNode }
  let old ← list.node node
  let list ← list.modify (some newNode) fun n => { n with next := node, prev := old.prev }
  list.modify node fun n => { n with prev := some newNode }

/-- `list_insert` from the lock on. -/
def insertMiddle (list : ListT) (idx : Int) (data : Elem) : Option ListT := do
  let (newNode, list) ← createNode list.lock data
  let node ← nodeAt list idx
  let list ← linkBefore list node newNode
  some list.incLen.unlock

/-- Insert an element at an index: whether the index was in range, and the list.
Source: `list.c`, `list_insert` -/
def listInsert (list : ListT) (idx : Int) (data : Elem) : Option (Bool × ListT) :=
  if idx < 0 ∨ idx > list.len then some (false, list)
  else if idx = list.len then (listAppend list data).map fun list => (true, list)
  else if idx = 0 then (listPrepend list data).map fun list => (true, list)
  else (insertMiddle list idx data).map fun list => (true, list)

/-- `list_truncate` between the length check and `free`: take the last node off the list. -/
def unlinkLast (list : ListT) : Option ListT :=
  if list.len = 1 then some ((list.setHead none).setTail none)
  else do
    let delNode ← list.node list.tail
    (list.setTail delNode.prev).modify delNode.prev fun n => { n with next := none }

/-- Remove the last element: whether there was one, and the list. The early return leaves the mutex
locked.
Source: `list.c`, `list_truncate` -/
def listTruncate (list : ListT) : Option (Bool × ListT) :=
  if list.len < 1 then some (false, list.lock)
  else do
    let rest ← unlinkLast list.lock
    let rest ← rest.free list.tail
    some (true, rest.decLen.unlock)

/-- Read the element at an index: the bytes copied to `*data`, or `none` with `false` returned; and
the list.
Source: `list.c`, `list_get` -/
def listGet (list : ListT) (idx : Int) : Option (Option Elem × ListT) :=
  if idx < 0 ∨ idx ≥ list.len then some (none, list)
  else do
    let node ← nodeAt list.lock idx
    let node ← list.node node
    if list.elemSize ≤ node.data.length then
      some (some (node.data.take list.elemSize), list.lock.unlock)
    else none

/-! ## Iteration -/

/-- The loop of `list_each`, from index `i` on: call `fn` on each element until it returns a
non-zero code. -/
def eachLoop (list : ListT) (fn : Nat → Elem → Int) : Nat → Nat → Option Nat → Option Unit
  | _, _, none => some ()
  | 0, _, some _ => none
  | fuel + 1, i, some a => do
      let node ← list.node (some a)
      if fn i node.data ≠ 0 then some () else eachLoop list fn fuel (i + 1) node.next

/-- Call `fn` on each element; `fn` leaves the list alone.
Source: `list.c`, `list_each` -/
def listEach (list : ListT) (fn : Nat → Elem → Int) : Option ListT := do
  let _ ← eachLoop list fn list.heap.length 0 list.head
  some list

/-- Start at the first element.
Source: `list.c`, `list_iter_start` -/
def listIterStart (list : ListT) : ListT := { list with currNode := list.head }

/-- Lock the mutex and start at the first element.
Source: `list.c`, `list_iter_start_safe` -/
def listIterStartSafe (list : ListT) : ListT := listIterStart list.lock

/-- Is there an element to deliver?
Source: `list.c`, `list_iter_has_next` -/
def listIterHasNext (list : ListT) : Bool := list.currNode.isSome

/-- Deliver an element, if there is one, and advance.
Source: `list.c`, `list_iter_next` -/
def listIterNext (list : ListT) : Option (Option Elem × ListT) :=
  match list.currNode with
  | none => some (none, list)
  | some a => do
      let node ← list.node (some a)
      if list.elemSize ≤ node.data.length then
        some (some (node.data.take list.elemSize), { list with currNode := node.next })
      else none

/-- Unlock the mutex.
Source: `list.c`, `list_iter_stop_safe` -/
def listIterStopSafe (list : ListT) : ListT := list.unlock

end Flood.LinkedList
