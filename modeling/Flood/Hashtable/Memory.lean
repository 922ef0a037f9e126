import Flood.Hashtable.Table

/-!
# `hashtable.c` on its heap

The table as the source stores it: an array of pointers to entries, each entry with the pointer
to the next one. An entry's address is its position in `heap`; `calloc` appends, nothing is ever
freed by `put`, `get` and `remove`. The mutex, which every operation takes at its start and
releases on every path, plays no part in a run of one thread and is left out.

A result `none` means that the run leaves what the source defines: it follows a pointer that is
null or not allocated, indexes outside the array, fails to allocate, or is still walking a chain
after as many steps as there are entries (so it walks a cycle). `Hashtable/Refine.lean` proves
that none of this happens to a table built by the operations.
-/

namespace Flood.Hashtable

open Flood.Lib

variable {K V : Type}

/-- An entry node.
Source: `hashtable.h`, `hashtable_entry` -/
structure Entry (K V : Type) where
  /-- The key. -/
  key : K
  /-- The value. -/
  val : V
  /-- The next entry of the chain; `none` is `NULL`. -/
  next : Option Nat

/-- The table with the entries it owns.
Source: `hashtable.h`, `hashtable_t` -/
structure HashtableT (K V : Type) where
  /-- The counter the source calls the size. -/
  size : Int
  /-- The number of slots of `table`. -/
  cap : Int
  /-- The first entry of each chain. -/
  table : List (Option Nat)
  /-- Hashes a key. -/
  hashFunc : K → UInt32
  /-- Compares two keys; `0` means equal. -/
  cmpFunc : K → K → Int
  /-- The allocated entries. -/
  heap : List (Entry K V)

/-- `calloc(1, sizeof(hashtable_entry*) * n)`. A negative `n` becomes a size no allocator can
satisfy when it is converted to `size_t`. -/
def callocTable (n : Int) : Option (List (Option Nat)) :=
  if n < 0 then none else some (List.replicate n.toNat none)

/-- An empty table of 16 slots.
Source: `hashtable.c`, `hashtable_init` -/
def hashtableInit (hf : K → UInt32) (cf : K → K → Int) : HashtableT K V where
  size := 0
  cap := 16
  table := List.replicate 16 none
  hashFunc := hf
  cmpFunc := cf
  heap := []

/-- The `while` loop of `hashtable_get`: the value of the first entry from `e` on whose key
compares equal. -/
def getLoop (ht : HashtableT K V) (key : K) : Nat → Option Nat → Option (Option V)
  | _, none => some none
  | 0, some _ => none
  | fuel + 1, some e => do
      let entry ← ht.heap[e]?
      if ht.cmpFunc key entry.key = 0 then some (some entry.val)
      else getLoop ht key fuel entry.next

/-- Returns `1` with `*dst = v` (`some v`), or `0` (`none`).
Source: `hashtable.c`, `hashtable_get` -/
def hashtableGet (ht : HashtableT K V) (key : K) : Option (Option V) := do
  let e ← ht.table[slotOf ht.hashFunc key ht.cap]?
  getLoop ht key ht.heap.length e

/-- The `while (e->next != NULL)` loop of `ht_insert`: the last entry of the chain from `e`. -/
def lastLoop (heap : List (Entry K V)) : Nat → Nat → Option Nat
  | 0, _ => none
  | fuel + 1, e => do
      let entry ← heap[e]?
      match entry.next with
      | none => some e
      | some next => lastLoop heap fuel next

/-- Append the node at `entry` to its chain in `table`.
Source: `hashtable.c`, `ht_insert` -/
def htInsert (hf : K → UInt32) (heap : List (Entry K V)) (table : List (Option Nat)) (size : Int)
    (entry : Nat) : Option (List (Entry K V) × List (Option Nat)) := do
  let node ← heap[entry]?
  let index := slotOf hf node.key size
  let heap := heap.set entry { node with next := none }
  match ← table[index]? with
  | none => some (heap, table.set index (some entry))
  | some e => do
      let last ← lastLoop heap heap.length e
      let lastNode ← heap[last]?
      some (heap.set last { lastNode with next := some entry }, table)

/-- The inner loop of `grow_table`: re-insert the chain from `e` on. The next pointer is read
before `ht_insert` clears it. -/
def growChain (hf : K → UInt32) (newcap : Int) :
    Nat → Option Nat → List (Entry K V) × List (Option Nat) →
      Option (List (Entry K V) × List (Option Nat))
  | _, none, s => some s
  | 0, some _, _ => none
  | fuel + 1, some e, (heap, newtable) => do
      let node ← heap[e]?
      let s ← htInsert hf heap newtable newcap e
      growChain hf newcap fuel node.next s

/-- The outer loop of `grow_table`, over the slots of the old array. -/
def growSlots (hf : K → UInt32) (newcap : Int) :
    List (Option Nat) → List (Entry K V) × List (Option Nat) →
      Option (List (Entry K V) × List (Option Nat))
  | [], s => some s
  | e :: table, s => do
      let s ← growChain hf newcap s.1.length e s
      growSlots hf newcap table s

/-- Move every entry to an array of twice the size.
Source: `hashtable.c`, `grow_table` -/
def growTable (ht : HashtableT K V) : Option (HashtableT K V) := do
  let newcap := wrap32 (ht.cap * 2)
  let newtable ← callocTable newcap
  let (heap, newtable) ←
    growSlots ht.hashFunc newcap (ht.table.take ht.cap.toNat) (ht.heap, newtable)
  some { ht with cap := newcap, table := newtable, heap := heap }

/-- A fresh entry.
Source: `hashtable.c`, `new_entry` -/
def newEntry (key : K) (val : V) : Entry K V := ⟨key, val, none⟩

/-- The `while` loop of `hashtable_put`: overwrite the value of an entry with the key and return
`1`, or link a new entry behind the last one and return `0`. -/
def putLoop (ht : HashtableT K V) (key : K) (val : V) :
    Nat → Option Nat → Option Nat → Option (Int × HashtableT K V)
  | _, last, none => do
      let last ← last
      let lastNode ← ht.heap[last]?
      some (0, { ht with
        heap := ht.heap.set last { lastNode with next := some ht.heap.length } ++
          [newEntry key val] })
  | 0, _, some _ => none
  | fuel + 1, _, some e => do
      let entry ← ht.heap[e]?
      if ht.cmpFunc key entry.key = 0 then
        some (1, { ht with heap := ht.heap.set e { entry with val := val } })
      else putLoop ht key val fuel (some e) entry.next

/-- `hashtable_put` from the computation of the slot on. -/
def putEntry (ht : HashtableT K V) (key : K) (val : V) : Option (Int × HashtableT K V) := do
  let index := slotOf ht.hashFunc key ht.cap
  match ← ht.table[index]? with
  | none => some (0, { ht with
      table := ht.table.set index (some ht.heap.length)
      heap := ht.heap ++ [newEntry key val] })
  | some e => putLoop ht key val ht.heap.length none (some e)

/-- Associate a key with a value; the code returned and the table afterwards. `0.75 * cap` is
exact in `double`, so the comparison is one of integers.
Source: `hashtable.c`, `hashtable_put` -/
def hashtablePut (ht : HashtableT K V) (key : K) (val : V) : Option (Int × HashtableT K V) := do
  let ht ← if 3 * ht.cap ≤ 4 * ht.size then growTable ht else some ht
  putEntry { ht with size := wrap32 (ht.size + 1) } key val

/-- The `while` loop of `hashtable_remove`: unlink the first entry with the key, at the head of
its chain or behind `prev`. -/
def removeLoop (ht : HashtableT K V) (key : K) (index : Nat) :
    Nat → Option Nat → Option Nat → Option (Option V × HashtableT K V)
  | _, _, none => some (none, ht)
  | 0, _, some _ => none
  | fuel + 1, prev, some e => do
      let entry ← ht.heap[e]?
      if ht.cmpFunc key entry.key = 0 then
        match prev with
        | none => some (some entry.val, { ht with table := ht.table.set index entry.next })
        | some prev => do
            let prevNode ← ht.heap[prev]?
            some (some entry.val,
              { ht with heap := ht.heap.set prev { prevNode with next := entry.next } })
      else removeLoop ht key index fuel (some e) entry.next

/-- Remove a key: returns `1` with `*dst = v` (`some v`), or `0` (`none`), and the table. The
counter is decremented before the key is looked for.
Source: `hashtable.c`, `hashtable_remove` -/
def hashtableRemove (ht : HashtableT K V) (key : K) : Option (Option V × HashtableT K V) := do
  let index := slotOf ht.hashFunc key ht.cap
  let ht := { ht with size := wrap32 (ht.size - 1) }
  match ← ht.table[index]? with
  | none => some (none, ht)
  | some e => removeLoop ht key index ht.heap.length none (some e)

/-- The counter.
Source: `hashtable.c`, `hashtable_size` -/
def hashtableSize (ht : HashtableT K V) : Int := ht.size

/-! ## Iteration -/

/-- An iterator: the slot to scan next and the entry to deliver next.
Source: `hashtable.h`, `hashtable_iter_t` -/
structure HashtableIter where
  /-- The slot after the chain being walked. -/
  index : Nat
  /-- The entry that comes next. -/
  next : Option Nat

/-- `while (index < cap && (next = table[index++]) == NULL);` -/
def scanSlots (ht : HashtableT K V) : Nat → Nat → Option HashtableIter
  | 0, _ => none
  | fuel + 1, index =>
      if (index : Int) < ht.cap then do
        match ← ht.table[index]? with
        | none => scanSlots ht fuel (index + 1)
        | some e => some ⟨index + 1, some e⟩
      else some ⟨index, none⟩

/-- Start iterating.
Source: `hashtable.c`, `hashtable_iterator` -/
def hashtableIterator (ht : HashtableT K V) : Option HashtableIter :=
  scanSlots ht (ht.cap.toNat + 1) 0

/-- Is there an entry to deliver?
Source: `hashtable.c`, `hashtable_iter_has_next` -/
def hashtableIterHasNext (iter : HashtableIter) : Bool := iter.next.isSome

/-- Deliver an entry and advance: `some (some (key, val), iter)`, or nothing delivered at the end.
Source: `hashtable.c`, `hashtable_iter_next` -/
def hashtableIterNext (ht : HashtableT K V) (iter : HashtableIter) :
    Option (Option (K × V) × HashtableIter) :=
  match iter.next with
  | none => some (none, iter)
  | some e => do
      let entry ← ht.heap[e]?
      let iter ← match entry.next with
        | none => scanSlots ht (ht.cap.toNat + 1) iter.index
        | some next => some { iter with next := some next }
      some (some (entry.key, entry.val), iter)

/-- `while (hashtable_iter_has_next(&iter)) hashtable_iter_next(&iter, &key, &val);` — the pairs
delivered, in order. -/
def iterLoop (ht : HashtableT K V) : Nat → HashtableIter → Option (List (K × V))
  | 0, iter => if hashtableIterHasNext iter then none else some []
  | fuel + 1, iter =>
      if hashtableIterHasNext iter then do
        let (pair, iter) ← hashtableIterNext ht iter
        let pairs ← iterLoop ht fuel iter
        some (pair.toList ++ pairs)
      else some []

/-- The pairs a full iteration delivers. -/
def iterate (ht : HashtableT K V) : Option (List (K × V)) := do
  let iter ← hashtableIterator ht
  iterLoop ht ht.heap.length iter

/-- What a callback returns to stop the iteration. Any other code continues it.
Source: `hashtable.h`, `HASHTABLE_ITER_STOP` -/
def iterStop : Int := 0

/-- A callback: it is given a key, a value and what `arg` points to, which it may change.
Source: `hashtable.h`, `hashtable_foreach_func` -/
abbrev ForeachFunc (K V A : Type) := K → V → A → Int × A

/-- The `while` loop of `hashtable_foreach`, along the chain from `e` on: whether the callback has
stopped it, the count, and what `arg` points to. -/
def foreachChain {A : Type} (ht : HashtableT K V) (ifn : ForeachFunc K V A) :
    Nat → Option Nat → Int → A → Option (Bool × Int × A)
  | _, none, count, arg => some (false, count, arg)
  | 0, some _, _, _ => none
  | fuel + 1, some e, count, arg => do
      let entry ← ht.heap[e]?
      match ifn entry.key entry.val arg with
      | (code, arg) =>
          if code = iterStop then some (true, count, arg)
          else foreachChain ht ifn fuel entry.next (wrap32 (count + 1)) arg

/-- The `for` loop of `hashtable_foreach`, from slot `i` on. -/
def foreachSlots {A : Type} (ht : HashtableT K V) (ifn : ForeachFunc K V A) :
    Nat → Nat → Int → A → Option (Int × A)
  | 0, _, _, _ => none
  | fuel + 1, i, count, arg =>
      if (i : Int) < ht.cap then do
        let e ← ht.table[i]?
        match ← foreachChain ht ifn ht.heap.length e count arg with
        | (true, count, arg) => some (count, arg)
        | (false, count, arg) => foreachSlots ht ifn fuel (i + 1) count arg
      else some (count, arg)

/-- Hand the pairs to a callback: the count returned, and what `arg` points to afterwards.
Source: `hashtable.c`, `hashtable_foreach` -/
def hashtableForeach {A : Type} (ht : HashtableT K V) (ifn : ForeachFunc K V A) (arg : A) :
    Option (Int × A) :=
  foreachSlots ht ifn (ht.cap.toNat + 1) 0 0 arg

end Flood.Hashtable
