import Flood.Client.Availability
import Flood.Client.Discovery
import Flood.Lib.Monitor
import Flood.LinkedList.Locking

/-!
# The threads of a client

All threads that use the list of peers, each at the grain of the calls it makes: the threads of
`peer_thread_routine`, those of the trackers, which call `client_find_peer`, and `main`. They share
the list, its mutex, and its one cursor `curr_node`.

* `Thread` — where a thread is. Each loop over the list is a `scan` with its own `Job`: it locks the
  mutex, rewinds the cursor, tests and advances it, looks at the element, and unlocks the mutex. An
  `append` locks the mutex, makes a node, links it in, counts it, and unlocks the mutex. The bitfields
  are not guarded: an `update` frees, allocates, copies and measures one, a `merge` combines one byte by
  byte, and they may take turns.
* `move` — the next move of a thread; `Moves` the same as a relation, one case a move; `moveAll` — moves of
  one thread in a row.
* `Shared.handled` — a record of the reports dealt with, which no move reads; `listed` are the
  pointers put into the list, `outstanding` the reports a thread has not dealt with yet.
* `swarm` — the program; `started` — its threads before any has moved.
-/

namespace Flood.Client.Swarm

open Flood.Lib Flood.LinkedList Flood.Peer
open Flood.Tracker (DiscoveredPeer)

/-! ## The shared state -/

/-- A report that was dealt with. -/
structure Handled where
  /-- The thread that did. -/
  tracker : Nat
  /-- The report. -/
  report : DiscoveredPeer
  /-- The peer made for it; `none` if an element was taken for the peer reported. -/
  addr : Option UInt64

/-- What the threads share. -/
structure Shared where
  /-- The client. -/
  client : ClientT
  /-- The reports dealt with, in order. No move reads this record. -/
  handled : List Handled
  /-- The peers whose bitfield is a block that has been freed. -/
  freed : List UInt64

namespace Shared

/-- `c->peers` -/
def list (s : Shared) : ListT := s.client.peers

/-- The list replaced. -/
def withList (s : Shared) (list : ListT) : Shared :=
  { s with client := { s.client with peers := list } }

/-- More reports dealt with. -/
def note (s : Shared) (more : List Handled) : Shared := { s with handled := s.handled ++ more }

/-- The pointers put into the list, in order. -/
def listed (s : Shared) : List UInt64 := s.handled.filterMap Handled.addr

/-- The elements these are in the list. -/
def elems (s : Shared) : List Elem := s.listed.map leBytes64

/-- The peer a pointer points to. -/
def peer (s : Shared) (p : UInt64) : Option PeerT := s.client.blocks.lookup p

/-- A peer allocated. -/
def alloc (s : Shared) (p : UInt64) (q : PeerT) : Shared :=
  { s with client := { s.client with blocks := s.client.blocks ++ [(p, q)] } }

/-- The peer that a pointer points to replaced. -/
def setPeer (s : Shared) (p : UInt64) (q : PeerT) : Shared :=
  { s with client := { s.client with
      blocks := s.client.blocks.map fun b => if b.1 = p then (b.1, q) else b } }

/-- Free the bitfield of a peer, which still points to it. -/
def free (s : Shared) (p : UInt64) : Shared := { s with freed := p :: s.freed }

/-- Let the bitfield of a peer point to another block. -/
def renew (s : Shared) (p : UInt64) : Shared := { s with freed := s.freed.filter (· ≠ p) }

/-- `p->bitfield[i]`; a block that has been freed, or is too short, is not to be read. -/
def byteAt (s : Shared) (p : UInt64) (i : Nat) : Option UInt8 :=
  if p ∈ s.freed then none
  else do
    let q ← s.peer p
    let bits ← q.bitfield
    bits[i]?

/-- The pointer points to the peer, and the bitfield of the peer, if it has one, has not been freed. -/
structure Holds (s : Shared) (p : UInt64) (q : PeerT) : Prop where
  /-- The peer. -/
  peer : s.peer p = some q
  /-- Its bitfield. -/
  live : p ∉ s.freed

/-- Write to the peer that a pointer points to. -/
def modifyPeer (s : Shared) (p : UInt64) (f : PeerT → Option PeerT) : Option Shared := do
  let q ← s.peer p
  let q ← f q
  some (s.setPeer p q)

end Shared

/-! ## Bitfields, step by step -/

/-- `master_bitfield = calloc(1, length)`. There is no block for a negative length. -/
def callocMaster (master : Master) (length : Int) : Master :=
  { master with bitfield := if 0 ≤ length then some (List.replicate length.toNat 0) else none }

/-- `master_bitfield[i] |= byte` -/
def orByte (master : Master) (i : Nat) (byte : UInt8) : Option Master := do
  let bits ← master.bitfield
  let old ← bits[i]?
  some { master with bitfield := some (bits.set i (old ||| byte)) }

/-- `memcpy(peer->bitfield, new_bitfield, new_len)` -/
def copyBitfield (msg : PeerMessage) (q : PeerT) : Option PeerT := do
  let bits ← q.bitfield
  if msg.word0.toNat ≤ msg.bitfield.length ∧ msg.word0.toNat ≤ bits.length then
    some { q with bitfield := some (msg.bitfield.take msg.word0.toNat ++ bits.drop msg.word0.toNat) }
  else none

/-- `peer->bitfield[array_idx] |= mask` -/
def markBit (idx : UInt32) (q : PeerT) : Option PeerT := do
  let bits ← q.bitfield
  let byte ← bits[(idx / 8).toNat]?
  some { q with bitfield := some (bits.set (idx / 8).toNat (byte ||| maskOf idx)) }

/-! ## The threads -/

/-- What a loop over the list is for, with its variables. -/
inductive Job where
  /-- `peer_thread_routine`: find a new peer. -/
  | select
  /-- `calculate_total_availability`: combine the bitfields. -/
  | count (master : Master)
  /-- `main`: count the new peers. -/
  | unchecked (count : Int)
  /-- `client_find_peer`: find an element for a report, the first of those a tracker has left. -/
  | find (report : DiscoveredPeer) (rest : List DiscoveredPeer)
  deriving DecidableEq

/-- Where a thread is in a loop over the list. -/
inductive Stage where
  /-- Before `list_iter_start_safe`. -/
  | enter
  /-- In `list_iter_start_safe`, with the mutex locked. -/
  | rewind
  /-- Before `list_iter_has_next`. -/
  | test
  /-- Before `list_iter_next`. -/
  | fetch
  /-- In the body, with an element. -/
  | look (data : Elem)
  /-- Before `list_iter_stop_safe`; `hit` is the pointer the loop was left with. -/
  | stop (hit : Option UInt64)
  deriving DecidableEq

/-- Where a thread is in the body of the loop of `calculate_total_availability`, with a bitfield. -/
inductive MergeStage where
  /-- Before `calloc(1, p->bitfield_length)`. -/
  | calloc
  /-- Before `master_len = p->bitfield_length`. -/
  | measure
  /-- Before `p->bitfield_length == master_len`. -/
  | compare
  /-- Before byte `i` is combined. -/
  | combine (i : Nat)
  deriving DecidableEq

/-- Where a thread is in `peer_update_bitfield`. -/
inductive UpdateStage where
  /-- Before `free(peer->bitfield)`, and the test for it. -/
  | free
  /-- Before `malloc(new_len)`. -/
  | malloc
  /-- Before `memcpy`. -/
  | copy
  /-- Before `peer->bitfield_length = new_len`. -/
  | length
  deriving DecidableEq

/-- Where a thread is in `list_append`. -/
inductive AppendStage where
  /-- Before the mutex is locked. -/
  | enter
  /-- Before `create_node`. -/
  | create
  /-- Before the node is linked in. -/
  | link (node : Nat)
  /-- Before `list->len++`. -/
  | count
  /-- Before the mutex is unlocked. -/
  | release
  deriving DecidableEq

/-- Where a thread is. -/
inductive Thread where
  /-- `peer_thread_routine`: at the top of the loop. -/
  | idle
  /-- In a loop over the list; `seen` are the elements passed over, which no move reads. -/
  | scan (job : Job) (stage : Stage) (seen : List Elem)
  /-- In the body of a loop that combines bitfields, with an element. -/
  | merge (master : Master) (stage : MergeStage) (data : Elem) (seen : List Elem)
  /-- `calculate_total_availability`: before the bits are counted. -/
  | tally (master : Master)
  /-- `peer_thread_routine`: before `selected->status = PEER_STATUS_IN_USE`. -/
  | claim (p : UInt64)
  /-- `peer_communication`: before its loop. -/
  | connect (p : UInt64)
  /-- `peer_communication`: in its loop. -/
  | talk (p : UInt64)
  /-- In `peer_update_bitfield`, with a message. -/
  | update (p : UInt64) (msg : PeerMessage) (stage : UpdateStage)
  /-- In `peer_update_bitfield_index`, behind the test of the length. -/
  | mark (p : UInt64) (idx : UInt32)
  /-- `main`: at the top of the loop. -/
  | watch
  /-- A tracker with reports left. -/
  | track (rest : List DiscoveredPeer)
  /-- `client_find_peer`: behind the loop. -/
  | allocate (report : DiscoveredPeer) (rest : List DiscoveredPeer)
  /-- In `list_append`. -/
  | append (stage : AppendStage) (report : DiscoveredPeer) (p : UInt64) (rest : List DiscoveredPeer)
  deriving DecidableEq

/-- What the environment answers to a thread. -/
inductive Input where
  /-- Nothing. -/
  | step
  /-- `malloc` returns a block. -/
  | malloc (block : Block)
  /-- `malloc` returns room for a bitfield, and this is what it holds. -/
  | room (junk : List UInt8)
  /-- No socket, no connection, or no good handshake. -/
  | refused
  /-- A good handshake. -/
  | accepted
  /-- The peer sends a message. -/
  | message (msg : PeerMessage)

/-- What the body of a loop does with an element. -/
inductive Looked where
  /-- The loop goes on, with its variables. -/
  | pass (job : Job)
  /-- The loop is left with a pointer. -/
  | hit (p : UInt64)
  /-- The bitfield is combined. -/
  | merge (master : Master)

/-- The body of a loop. -/
def Job.look (s : Shared) (data : Elem) : Job → Option Looked
  | .select => do
      let q ← s.peer (leWord64 data)
      some (if q.status = .new then .hit (leWord64 data) else .pass .select)
  | .count master => do
      let q ← s.peer (leWord64 data)
      some (if q.bitfieldLength < 1 ∨ q.bitfield = none then .pass (.count master) else .merge master)
  | .unchecked n => do
      let q ← s.peer (leWord64 data)
      some (.pass (.unchecked (if q.status = .new then wrap32 (n + 1) else n)))
  | .find report rest =>
      some (if leWord (data.take 4) = report.ip then .hit (leWord64 data)
        else .pass (.find report rest))

/-- Where a bitfield begins to be combined. -/
def mergeStart (master : Master) : MergeStage := if master.bitfield = none then .calloc else .compare

/-- A scan before its lock. -/
def scanFor (job : Job) : Thread := .scan job .enter []

/-- Where the thread is behind the loop. -/
def Job.after : Job → Option UInt64 → Thread
  | .select, some p => .claim p
  | .select, none => scanFor (.count ⟨none, 0⟩)
  | .count master, _ => .tally master
  | .unchecked _, _ => .watch
  | .find _ rest, some _ => .track rest
  | .find report rest, none => .allocate report rest

/-- The report dealt with by the loop itself. -/
def Job.noted (t : Nat) : Job → Option UInt64 → List Handled
  | .find report _, some _ => [⟨t, report, none⟩]
  | _, _ => []

/-- The next move of thread `t`. `peer_communication` returns only from before its loop. Every statement
that reads or writes a bitfield or its length is a move of its own, and so is every byte that is combined;
the halves of a condition are tested at once, and `memcpy` is one move.
Source: `client.c`, `client_find_peer`; `client.c`, `peer_communication`; `client.c`,
`peer_thread_routine`; `client.c`, `calculate_total_availability`; `peer.c`, `peer_update_bitfield`;
`peer.c`, `peer_update_bitfield_index`; `main.c`, `main` -/
def move (t : Nat) (s : Shared) : Thread → Input → Option (Move Shared Thread)
  | .idle, .step => some (.go s (if listLen s.list = 0 then .idle else scanFor .select))
  | .scan job .enter seen, .step =>
      some (.acquire (s.withList s.list.lock) (.scan job .rewind seen))
  | .scan job .rewind seen, .step =>
      some (.go (s.withList (listIterStart s.list)) (.scan job .test seen))
  | .scan job .test seen, .step =>
      some (.go s (.scan job (if listIterHasNext s.list then .fetch else .stop none) seen))
  | .scan job .fetch seen, .step => do
      let (data, list) ← listIterNext s.list
      let data ← data
      some (.go (s.withList list) (.scan job (.look data) seen))
  | .scan job (.look data) seen, .step => do
      let looked ← job.look s data
      match looked with
      | .pass job => some (.go s (.scan job .test (seen ++ [data])))
      | .hit p => some (.go s (.scan job (.stop (some p)) seen))
      | .merge master => some (.go s (.merge master (mergeStart master) data seen))
  | .scan job (.stop hit) _, .step =>
      some (.release ((s.withList (listIterStopSafe s.list)).note (job.noted t hit)) (job.after hit))
  | .merge master .calloc data seen, .step => do
      let q ← s.peer (leWord64 data)
      some (.go s (.merge (callocMaster master q.bitfieldLength) .measure data seen))
  | .merge master .measure data seen, .step => do
      let q ← s.peer (leWord64 data)
      some (.go s (.merge { master with len := UInt32.ofInt q.bitfieldLength } .compare data seen))
  | .merge master .compare data seen, .step => do
      let q ← s.peer (leWord64 data)
      some (.go s (if UInt32.ofInt q.bitfieldLength = master.len then .merge master (.combine 0) data seen
        else .scan (.count master) .test (seen ++ [data])))
  | .merge master (.combine i) data seen, .step =>
      if i < master.len.toNat then do
        let byte ← s.byteAt (leWord64 data) i
        let master ← orByte master i byte
        some (.go s (.merge master (.combine (i + 1)) data seen))
      else some (.go s (.scan (.count master) .test (seen ++ [data])))
  | .tally master, .step =>
      if master.len.toNat ≤ (master.bitfield.getD []).length then some (.go s .idle) else none
  | .claim p, .step => do
      let s ← s.modifyPeer p fun q => some { q with status := .inUse }
      some (.go s (.connect p))
  | .connect p, .refused => do
      let s ← s.modifyPeer p fun q => some { q with status := .bad }
      some (.go s (scanFor (.count ⟨none, 0⟩)))
  | .connect p, .accepted => some (.go s (.talk p))
  | .talk p, .message msg =>
      match msg.type with
      | .msgBitfield => some (.go s (.update p msg .free))
      | .msgHave => do
          let q ← s.peer p
          some (.go s (if msg.word0 / 8 ≥ UInt32.ofInt q.bitfieldLength then .talk p
            else .mark p msg.word0))
      | _ => do
          let s ← s.modifyPeer p fun q => handleMessage q msg
          some (.go s (.talk p))
  | .update p msg .free, .step => do
      let q ← s.peer p
      if q.bitfield = none then some (.go s (.update p msg .malloc))
      else if p ∈ s.freed then none
      else some (.go (s.free p) (.update p msg .malloc))
  | .update p msg .malloc, .room junk =>
      if junk.length = msg.word0.toNat then do
        let s ← s.modifyPeer p fun q => some { q with bitfield := some junk }
        some (.go (s.renew p) (.update p msg .copy))
      else none
  | .update p msg .copy, .step =>
      if p ∈ s.freed then none
      else do
        let s ← s.modifyPeer p (copyBitfield msg)
        some (.go s (.update p msg .length))
  | .update p msg .length, .step => do
      let s ← s.modifyPeer p fun q => some { q with bitfieldLength := intOfUInt msg.word0 }
      some (.go s (.talk p))
  | .mark p idx, .step =>
      if p ∈ s.freed then none
      else do
        let s ← s.modifyPeer p (markBit idx)
        some (.go s (.talk p))
  | .watch, .step => some (.go s (scanFor (.unchecked 0)))
  | .track (report :: rest), .step => some (.go s (scanFor (.find report rest)))
  | .allocate report rest, .malloc block =>
      if s.peer block.addr = none then
        some (.go (s.alloc block.addr (newPeer report.ip report.port block.status))
          (.append .enter report block.addr rest))
      else none
  | .append .enter report p rest, .step =>
      some (.acquire (s.withList s.list.lock) (.append .create report p rest))
  | .append .create report p rest, .step => do
      let (node, list) ← createNode s.list (leBytes64 p)
      some (.go (s.withList list) (.append (.link node) report p rest))
  | .append (.link node) report p rest, .step => do
      let list ← linkLast s.list node
      some (.go (s.withList list) (.append .count report p rest))
  | .append .count report p rest, .step =>
      some (.go ((s.withList s.list.incLen).note [⟨t, report, some p⟩])
        (.append .release report p rest))
  | .append .release _ _ rest, .step => some (.release (s.withList s.list.unlock) (.track rest))
  | _, _ => none

/-- Does the thread have the mutex? -/
def Thread.inside : Thread → Bool
  | .scan _ .enter _ => false
  | .scan _ _ _ => true
  | .merge _ _ _ _ => true
  | .append .enter _ _ _ => false
  | .append _ _ _ _ => true
  | _ => false

/-- The reports a loop is for, with those left. -/
def Job.outstanding : Job → List DiscoveredPeer
  | .find report rest => report :: rest
  | _ => []

/-- The reports a thread has not dealt with. -/
def Thread.outstanding : Thread → List DiscoveredPeer
  | .scan job _ _ => job.outstanding
  | .track rest => rest
  | .allocate report rest => report :: rest
  | .append .release _ _ rest => rest
  | .append _ report _ rest => report :: rest
  | _ => []

/-- The peer a thread has allocated and not yet put into the list. -/
def Thread.pending : Thread → List UInt64
  | .append .release _ _ _ => []
  | .append _ _ p _ => [p]
  | _ => []

/-! ## Peers -/

variable {t : Nat} {s s' : Shared} {l l' : Thread} {i : Input} {mv : Move Shared Thread}
  {p a : UInt64} {q q' : PeerT}

/-- The peers after one is replaced. -/
theorem peer_setPeer (hq : s.peer p = some q) (q' : PeerT) (a : UInt64) :
    (s.setPeer p q').peer a = if a = p then some q' else s.peer a := by
  have hlookup : ∀ blocks : List (UInt64 × PeerT),
      (blocks.map fun b => if b.1 = p then (b.1, q') else b).lookup a =
        if a = p then (blocks.lookup p).map fun _ => q' else blocks.lookup a := by
    intro blocks
    induction blocks with
    | nil => simp
    | cons b blocks ih =>
        rw [List.map_cons, List.lookup_cons, List.lookup_cons, List.lookup_cons, ih]
        by_cases hap : a = p
        · subst hap
          by_cases hb : b.1 = a
          · simp [hb]
          · simp [hb, beq_false_of_ne (Ne.symm hb)]
        · by_cases hb : b.1 = p
          · simp [hb, hap, beq_false_of_ne hap]
          · simp [hb, hap]
  refine (hlookup s.client.blocks).trans ?_
  rw [show s.client.blocks.lookup p = some q from hq]
  rfl

/-- The peers after one is allocated. -/
theorem peer_alloc (hp : s.peer p = none) (q : PeerT) (a : UInt64) :
    (s.alloc p q).peer a = if a = p then some q else s.peer a := by
  show (s.client.blocks ++ [(p, q)]).lookup a = _
  rw [List.lookup_append]
  by_cases hap : a = p
  · subst hap
    rw [show s.client.blocks.lookup a = none from hp]
    simp
  · simp [hap, Shared.peer, List.lookup_cons, beq_false_of_ne hap]

/-! ## The moves one by one -/

/-- The moves of thread `t`. -/
inductive Moves (t : Nat) (s : Shared) : Thread → Input → Move Shared Thread → Prop
  | empty : listLen s.list = 0 → Moves t s .idle .step (.go s .idle)
  | begin : listLen s.list ≠ 0 → Moves t s .idle .step (.go s (scanFor .select))
  | lock (job : Job) (seen : List Elem) : Moves t s (.scan job .enter seen) .step
      (.acquire (s.withList s.list.lock) (.scan job .rewind seen))
  | rewind (job : Job) (seen : List Elem) : Moves t s (.scan job .rewind seen) .step
      (.go (s.withList (listIterStart s.list)) (.scan job .test seen))
  | more (job : Job) (seen : List Elem) : listIterHasNext s.list = true →
      Moves t s (.scan job .test seen) .step (.go s (.scan job .fetch seen))
  | ended (job : Job) (seen : List Elem) : listIterHasNext s.list = false →
      Moves t s (.scan job .test seen) .step (.go s (.scan job (.stop none) seen))
  | fetch (job : Job) (seen : List Elem) {data : Elem} {list : ListT} :
      listIterNext s.list = some (some data, list) →
      Moves t s (.scan job .fetch seen) .step (.go (s.withList list) (.scan job (.look data) seen))
  | pass (job : Job) (seen : List Elem) {data : Elem} {job' : Job} :
      job.look s data = some (.pass job') → Moves t s (.scan job (.look data) seen) .step
        (.go s (.scan job' .test (seen ++ [data])))
  | hit (job : Job) (seen : List Elem) {data : Elem} {p : UInt64} :
      job.look s data = some (.hit p) → Moves t s (.scan job (.look data) seen) .step
        (.go s (.scan job (.stop (some p)) seen))
  | merge (job : Job) (seen : List Elem) {data : Elem} {master : Master} :
      job.look s data = some (.merge master) → Moves t s (.scan job (.look data) seen) .step
        (.go s (.merge master (mergeStart master) data seen))
  | calloc (master : Master) (data : Elem) (seen : List Elem) {q : PeerT} :
      s.peer (leWord64 data) = some q → Moves t s (.merge master .calloc data seen) .step
        (.go s (.merge (callocMaster master q.bitfieldLength) .measure data seen))
  | measure (master : Master) (data : Elem) (seen : List Elem) {q : PeerT} :
      s.peer (leWord64 data) = some q → Moves t s (.merge master .measure data seen) .step
        (.go s (.merge { master with len := UInt32.ofInt q.bitfieldLength } .compare data seen))
  | same (master : Master) (data : Elem) (seen : List Elem) {q : PeerT} :
      s.peer (leWord64 data) = some q → UInt32.ofInt q.bitfieldLength = master.len →
      Moves t s (.merge master .compare data seen) .step
        (.go s (.merge master (.combine 0) data seen))
  | differ (master : Master) (data : Elem) (seen : List Elem) {q : PeerT} :
      s.peer (leWord64 data) = some q → UInt32.ofInt q.bitfieldLength ≠ master.len →
      Moves t s (.merge master .compare data seen) .step
        (.go s (.scan (.count master) .test (seen ++ [data])))
  | combine (master : Master) (i : Nat) (data : Elem) (seen : List Elem) {byte : UInt8}
      {master' : Master} : i < master.len.toNat → s.byteAt (leWord64 data) i = some byte →
      orByte master i byte = some master' → Moves t s (.merge master (.combine i) data seen) .step
        (.go s (.merge master' (.combine (i + 1)) data seen))
  | combined (master : Master) (i : Nat) (data : Elem) (seen : List Elem) :
      master.len.toNat ≤ i → Moves t s (.merge master (.combine i) data seen) .step
        (.go s (.scan (.count master) .test (seen ++ [data])))
  | tally (master : Master) : master.len.toNat ≤ (master.bitfield.getD []).length →
      Moves t s (.tally master) .step (.go s .idle)
  | unlock (job : Job) (seen : List Elem) (hit : Option UInt64) :
      Moves t s (.scan job (.stop hit) seen) .step
        (.release ((s.withList (listIterStopSafe s.list)).note (job.noted t hit)) (job.after hit))
  | claim {p : UInt64} {q : PeerT} : s.peer p = some q → Moves t s (.claim p) .step
      (.go (s.setPeer p { q with status := .inUse }) (.connect p))
  | refuse {p : UInt64} {q : PeerT} : s.peer p = some q → Moves t s (.connect p) .refused
      (.go (s.setPeer p { q with status := .bad }) (scanFor (.count ⟨none, 0⟩)))
  | accept (p : UInt64) : Moves t s (.connect p) .accepted (.go s (.talk p))
  | replace (p : UInt64) {msg : PeerMessage} : msg.type = .msgBitfield →
      Moves t s (.talk p) (.message msg) (.go s (.update p msg .free))
  | beyond {p : UInt64} {q : PeerT} {msg : PeerMessage} : msg.type = .msgHave → s.peer p = some q →
      UInt32.ofInt q.bitfieldLength ≤ msg.word0 / 8 →
      Moves t s (.talk p) (.message msg) (.go s (.talk p))
  | within {p : UInt64} {q : PeerT} {msg : PeerMessage} : msg.type = .msgHave → s.peer p = some q →
      msg.word0 / 8 < UInt32.ofInt q.bitfieldLength →
      Moves t s (.talk p) (.message msg) (.go s (.mark p msg.word0))
  | hear {p : UInt64} {q q' : PeerT} {msg : PeerMessage} : msg.type ≠ .msgBitfield →
      msg.type ≠ .msgHave → s.peer p = some q → handleMessage q msg = some q' →
      Moves t s (.talk p) (.message msg) (.go (s.setPeer p q') (.talk p))
  | null {p : UInt64} {q : PeerT} (msg : PeerMessage) : s.peer p = some q → q.bitfield = none →
      Moves t s (.update p msg .free) .step (.go s (.update p msg .malloc))
  | free {p : UInt64} {q : PeerT} (msg : PeerMessage) : s.peer p = some q → q.bitfield ≠ none →
      p ∉ s.freed → Moves t s (.update p msg .free) .step (.go (s.free p) (.update p msg .malloc))
  | malloc {p : UInt64} {q : PeerT} (msg : PeerMessage) {junk : List UInt8} :
      junk.length = msg.word0.toNat → s.peer p = some q →
      Moves t s (.update p msg .malloc) (.room junk)
        (.go ((s.setPeer p { q with bitfield := some junk }).renew p) (.update p msg .copy))
  | copy {p : UInt64} {q q' : PeerT} (msg : PeerMessage) : p ∉ s.freed → s.peer p = some q →
      copyBitfield msg q = some q' →
      Moves t s (.update p msg .copy) .step (.go (s.setPeer p q') (.update p msg .length))
  | length {p : UInt64} {q : PeerT} (msg : PeerMessage) : s.peer p = some q →
      Moves t s (.update p msg .length) .step
        (.go (s.setPeer p { q with bitfieldLength := intOfUInt msg.word0 }) (.talk p))
  | mark {p : UInt64} {q q' : PeerT} (idx : UInt32) : p ∉ s.freed → s.peer p = some q →
      markBit idx q = some q' → Moves t s (.mark p idx) .step (.go (s.setPeer p q') (.talk p))
  | watch : Moves t s .watch .step (.go s (scanFor (.unchecked 0)))
  | report (report : DiscoveredPeer) (rest : List DiscoveredPeer) :
      Moves t s (.track (report :: rest)) .step (.go s (scanFor (.find report rest)))
  | alloc (report : DiscoveredPeer) (rest : List DiscoveredPeer) {block : Block} :
      s.peer block.addr = none → Moves t s (.allocate report rest) (.malloc block)
        (.go (s.alloc block.addr (newPeer report.ip report.port block.status))
          (.append .enter report block.addr rest))
  | lockAppend (report : DiscoveredPeer) (p : UInt64) (rest : List DiscoveredPeer) :
      Moves t s (.append .enter report p rest) .step
        (.acquire (s.withList s.list.lock) (.append .create report p rest))
  | create (report : DiscoveredPeer) (p : UInt64) (rest : List DiscoveredPeer) {node : Nat}
      {list : ListT} : createNode s.list (leBytes64 p) = some (node, list) →
      Moves t s (.append .create report p rest) .step
        (.go (s.withList list) (.append (.link node) report p rest))
  | link (report : DiscoveredPeer) (p : UInt64) (rest : List DiscoveredPeer) {node : Nat}
      {list : ListT} : linkLast s.list node = some list →
      Moves t s (.append (.link node) report p rest) .step
        (.go (s.withList list) (.append .count report p rest))
  | count (report : DiscoveredPeer) (p : UInt64) (rest : List DiscoveredPeer) :
      Moves t s (.append .count report p rest) .step
        (.go ((s.withList s.list.incLen).note [⟨t, report, some p⟩])
          (.append .release report p rest))
  | unlockAppend (report : DiscoveredPeer) (p : UInt64) (rest : List DiscoveredPeer) :
      Moves t s (.append .release report p rest) .step
        (.release (s.withList s.list.unlock) (.track rest))

/-- Writing to a peer. -/
theorem modifyPeer_eq_some_iff {p : UInt64} {f : PeerT → Option PeerT} :
    s.modifyPeer p f = some s' ↔ ∃ q q', s.peer p = some q ∧ f q = some q' ∧ s' = s.setPeer p q' := by
  rw [Shared.modifyPeer]
  simp only [Option.bind_eq_bind, Option.bind_eq_some_iff, Option.some.injEq]
  constructor
  · rintro ⟨q, hq, q', hq', rfl⟩
    exact ⟨q, q', hq, hq', rfl⟩
  · rintro ⟨q, q', hq, hq', rfl⟩
    exact ⟨q, hq, q', hq', rfl⟩

/-- **What a thread can do next.** -/
theorem moves_of_move (h : move t s l i = some mv) : Moves t s l i mv := by
  rw [move.eq_def] at h
  split at h
  · -- the top of `peer_thread_routine`
    obtain rfl := Option.some.inj h
    split_ifs with hlen
    · exact .empty hlen
    · exact .begin hlen
  · obtain rfl := Option.some.inj h
    exact .lock ..
  · obtain rfl := Option.some.inj h
    exact .rewind ..
  · obtain rfl := Option.some.inj h
    split_ifs with hnext
    · exact .more _ _ hnext
    · exact .ended _ _ (Bool.eq_false_iff.mpr hnext)
  · simp only [Option.bind_eq_bind, Option.bind_eq_some_iff, Option.some.injEq] at h
    obtain ⟨⟨_, list⟩, hnext, data, rfl, rfl⟩ := h
    exact .fetch _ _ hnext
  · rw [Option.bind_eq_bind, Option.bind_eq_some_iff] at h
    obtain ⟨looked, hlook, h⟩ := h
    cases looked with
    | pass job =>
        obtain rfl := Option.some.inj h
        exact .pass _ _ hlook
    | hit p =>
        obtain rfl := Option.some.inj h
        exact .hit _ _ hlook
    | merge master =>
        obtain rfl := Option.some.inj h
        exact .merge _ _ hlook
  · obtain rfl := Option.some.inj h
    exact .unlock ..
  · rw [Option.bind_eq_bind, Option.bind_eq_some_iff] at h
    obtain ⟨q, hq, h⟩ := h
    obtain rfl := Option.some.inj h
    exact .calloc _ _ _ hq
  · rw [Option.bind_eq_bind, Option.bind_eq_some_iff] at h
    obtain ⟨q, hq, h⟩ := h
    obtain rfl := Option.some.inj h
    exact .measure _ _ _ hq
  · rw [Option.bind_eq_bind, Option.bind_eq_some_iff] at h
    obtain ⟨q, hq, h⟩ := h
    obtain rfl := Option.some.inj h
    split_ifs with hlen
    · exact .same _ _ _ hq hlen
    · exact .differ _ _ _ hq hlen
  · split_ifs at h with hi
    · simp only [Option.bind_eq_bind, Option.bind_eq_some_iff, Option.some.injEq] at h
      obtain ⟨byte, hbyte, master', hmaster, rfl⟩ := h
      exact .combine _ _ _ _ hi hbyte hmaster
    · obtain rfl := Option.some.inj h
      exact .combined _ _ _ _ (not_lt.mp hi)
  · split_ifs at h with hlen
    obtain rfl := Option.some.inj h
    exact .tally _ hlen
  · rw [Option.bind_eq_bind, Option.bind_eq_some_iff] at h
    obtain ⟨s', hs, h⟩ := h
    obtain ⟨q, q', hq, hstatus, rfl⟩ := modifyPeer_eq_some_iff.mp hs
    obtain rfl := Option.some.inj hstatus
    obtain rfl := Option.some.inj h
    exact .claim hq
  · rw [Option.bind_eq_bind, Option.bind_eq_some_iff] at h
    obtain ⟨s', hs, h⟩ := h
    obtain ⟨q, q', hq, hstatus, rfl⟩ := modifyPeer_eq_some_iff.mp hs
    obtain rfl := Option.some.inj hstatus
    obtain rfl := Option.some.inj h
    exact .refuse hq
  · obtain rfl := Option.some.inj h
    exact .accept _
  · -- a message
    split at h
    · rename_i htype
      obtain rfl := Option.some.inj h
      exact .replace _ htype
    · rename_i htype
      rw [Option.bind_eq_bind, Option.bind_eq_some_iff] at h
      obtain ⟨q, hq, h⟩ := h
      obtain rfl := Option.some.inj h
      split_ifs with hout
      · exact .beyond htype hq hout
      · exact .within htype hq (UInt32.not_le.mp hout)
    · rename_i hbitfield hhave
      rw [Option.bind_eq_bind, Option.bind_eq_some_iff] at h
      obtain ⟨s', hs, h⟩ := h
      obtain ⟨q, q', hq, hmsg, rfl⟩ := modifyPeer_eq_some_iff.mp hs
      obtain rfl := Option.some.inj h
      exact .hear hbitfield hhave hq hmsg
  · rw [Option.bind_eq_bind, Option.bind_eq_some_iff] at h
    obtain ⟨q, hq, h⟩ := h
    split_ifs at h with hnull hfreed
    · obtain rfl := Option.some.inj h
      exact .null _ hq hnull
    · obtain rfl := Option.some.inj h
      exact .free _ hq hnull hfreed
  · split_ifs at h with hlen
    rw [Option.bind_eq_bind, Option.bind_eq_some_iff] at h
    obtain ⟨s', hs, h⟩ := h
    obtain ⟨q, q', hq, hjunk, rfl⟩ := modifyPeer_eq_some_iff.mp hs
    obtain rfl := Option.some.inj hjunk
    obtain rfl := Option.some.inj h
    exact .malloc _ hlen hq
  · split_ifs at h with hfreed
    rw [Option.bind_eq_bind, Option.bind_eq_some_iff] at h
    obtain ⟨s', hs, h⟩ := h
    obtain ⟨q, q', hq, hcopy, rfl⟩ := modifyPeer_eq_some_iff.mp hs
    obtain rfl := Option.some.inj h
    exact .copy _ hfreed hq hcopy
  · rw [Option.bind_eq_bind, Option.bind_eq_some_iff] at h
    obtain ⟨s', hs, h⟩ := h
    obtain ⟨q, q', hq, hlen, rfl⟩ := modifyPeer_eq_some_iff.mp hs
    obtain rfl := Option.some.inj hlen
    obtain rfl := Option.some.inj h
    exact .length _ hq
  · split_ifs at h with hfreed
    rw [Option.bind_eq_bind, Option.bind_eq_some_iff] at h
    obtain ⟨s', hs, h⟩ := h
    obtain ⟨q, q', hq, hmark, rfl⟩ := modifyPeer_eq_some_iff.mp hs
    obtain rfl := Option.some.inj h
    exact .mark _ hfreed hq hmark
  · obtain rfl := Option.some.inj h
    exact .watch
  · obtain rfl := Option.some.inj h
    exact .report ..
  · split_ifs at h with hfresh
    obtain rfl := Option.some.inj h
    exact .alloc _ _ hfresh
  · obtain rfl := Option.some.inj h
    exact .lockAppend ..
  · rw [Option.bind_eq_bind, Option.bind_eq_some_iff] at h
    obtain ⟨⟨node, list⟩, hnode, h⟩ := h
    obtain rfl := Option.some.inj h
    exact .create _ _ _ hnode
  · rw [Option.bind_eq_bind, Option.bind_eq_some_iff] at h
    obtain ⟨list, hlink, h⟩ := h
    obtain rfl := Option.some.inj h
    exact .link _ _ _ hlink
  · obtain rfl := Option.some.inj h
    exact .count ..
  · obtain rfl := Option.some.inj h
    exact .unlockAppend ..
  · exact absurd h (by simp)

/-- And each of these it can do. -/
theorem move_of_moves (h : Moves t s l i mv) : move t s l i = some mv := by
  cases h <;> simp_all [move, Shared.modifyPeer]

/-- Moves of thread `t` that leave the mutex alone. -/
def moveAll (t : Nat) (st : Shared × Thread) (inputs : List Input) : Option (Shared × Thread) :=
  inputs.foldlM (fun st input =>
    match move t st.1 st.2 input with
    | some (.go s thread) => some (s, thread)
    | _ => none) st

/-- One move after the other. -/
theorem moveAll_cons (inputs : List Input)
    (h : Moves t s l i (.go s' l')) : moveAll t (s, l) (i :: inputs) = moveAll t (s', l') inputs := by
  rw [moveAll, List.foldlM_cons, move_of_moves h]
  rfl

/-- Moves, and then moves. -/
theorem moveAll_append {st st' : Shared × Thread} {before : List Input}
    (h : moveAll t st before = some st') (inputs : List Input) :
    moveAll t st (before ++ inputs) = moveAll t st' inputs := by
  rw [moveAll, List.foldlM_append, show before.foldlM _ st = some st' from h]
  rfl

/-- Behind a loop a thread stands outside. -/
theorem inside_after (job : Job) (hit : Option UInt64) : (job.after hit).inside = false := by
  cases job <;> cases hit <;> rfl

/-- **The program**: a thread stands inside from its lock to its unlock. -/
def swarm : Program Shared Thread Input where
  move := move
  inside := Thread.inside
  acquires := by
    intro t s s' l l' i h
    cases moves_of_move h with
    | lock job seen => exact ⟨rfl, rfl⟩
    | lockAppend report p rest => exact ⟨rfl, rfl⟩
  releases := by
    intro t s s' l l' i h
    cases moves_of_move h with
    | unlock job seen hit => exact ⟨rfl, inside_after job hit⟩
    | unlockAppend report p rest => exact ⟨rfl, rfl⟩
  goes := by
    intro t s s' l l' i h
    cases moves_of_move h <;> rfl

/-- Moves of one thread in a row are a run of the program. -/
theorem foldlM_of_moveAll {m : Monitor Shared Thread} {inputs : List Input} (hl : m.threads[t]? = some l)
    (h : moveAll t (m.shared, l) inputs = some (s', l')) :
    (inputs.map fun i => (t, i)).foldlM swarm.step m = some ⟨m.owner, s', m.threads.set t l'⟩ := by
  induction inputs generalizing m l with
  | nil =>
      obtain ⟨rfl, rfl⟩ := Prod.mk.inj (Option.some.inj h)
      rw [set_of_getElem? hl]
      rfl
  | cons i inputs ih =>
      rw [moveAll, List.foldlM_cons, Option.bind_eq_bind, Option.bind_eq_some_iff] at h
      obtain ⟨⟨s₁, l₁⟩, hmove, hrest⟩ := h
      cases hmv : move t m.shared l i with
      | none =>
          rw [hmv] at hmove
          exact absurd hmove (by simp)
      | some mv =>
          rw [hmv] at hmove
          cases mv with
          | go s₂ l₂ =>
              obtain ⟨rfl, rfl⟩ := Prod.mk.inj (Option.some.inj hmove)
              have hstep : swarm.step m (t, i) = some ⟨m.owner, s₂, m.threads.set t l₂⟩ :=
                Program.step_go hl hmv
              have hl₂ := (getElem?_set_of_some hl l₂ t).trans (if_pos rfl)
              have hrun := @ih l₂ ⟨m.owner, s₂, m.threads.set t l₂⟩ hl₂ hrest
              rw [List.map_cons, List.foldlM_cons, hstep, Option.bind_eq_bind, Option.bind_some, hrun,
                List.set_set]
          | _ => exact absurd hmove (by simp)

/-- A thread before its first move: a peer thread, `main`, or a tracker with all it will report. -/
def Thread.Initial : Thread → Prop
  | .idle => True
  | .watch => True
  | .track _ => True
  | _ => False

/-- The client of `client_init`, and threads that have not moved.
Source: `main.c`, `main` -/
def started (threads : List Thread) : Monitor Shared Thread := Monitor.start ⟨clientInit, [], []⟩ threads

end Flood.Client.Swarm
