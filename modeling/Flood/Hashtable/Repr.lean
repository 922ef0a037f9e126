import Flood.Hashtable.Memory
import Flood.Lib.Chain

/-!
# Heap tables that represent tables

* `Linked heap table chains` — slot `i` of the array starts the null-terminated chain of addresses
  `chains[i]`, and no address is in two chains. Each chain is acyclic because it ends.
* `Repr ht t` — the heap table `ht` represents the table `t`: the chains read as `t.buckets`.
* `getLoop_spec`, `putLoop_spec`, `removeLoop_spec` — the loops along one chain, by induction along
  it, with the frame "addresses elsewhere are untouched".
* `hashtableGet_spec`, `putEntry_spec`, `hashtableRemove_spec` — on a table that represents `t`, no
  operation leaves defined behaviour, and the result represents the result of the operation on `t`.
-/

namespace Flood.Hashtable

open Flood.Lib

variable {K V : Type}

/-! ## Reading a chain of addresses -/

/-- The key and value of an entry. -/
def Entry.pair (e : Entry K V) : K × V := (e.key, e.val)

/-- The pairs stored at a list of addresses. -/
def pairsAt (heap : List (Entry K V)) (ps : List Nat) : List (K × V) :=
  ps.filterMap fun a => (heap[a]?).map Entry.pair

variable {heap heap' : List (Entry K V)} {ps qs : List Nat} {p : Option Nat}

@[simp] theorem pairsAt_nil : pairsAt heap [] = [] := rfl

/-- The first address is read first. -/
theorem pairsAt_cons {a : Nat} {e : Entry K V} (h : heap[a]? = some e) :
    pairsAt heap (a :: ps) = e.pair :: pairsAt heap ps := by
  simp [pairsAt, h]

@[simp] theorem pairsAt_append :
    pairsAt heap (ps ++ qs) = pairsAt heap ps ++ pairsAt heap qs :=
  List.filterMap_append ..

/-- Reading depends on the pairs stored at the addresses read. -/
theorem pairsAt_congr (h : ∀ a ∈ ps, (heap'[a]?).map Entry.pair = (heap[a]?).map Entry.pair) :
    pairsAt heap' ps = pairsAt heap ps :=
  List.filterMap_congr h

/-- Reading depends on the entries at the addresses read. -/
theorem pairsAt_frame (h : ∀ a ∈ ps, heap'[a]? = heap[a]?) :
    pairsAt heap' ps = pairsAt heap ps :=
  pairsAt_congr fun a ha => by rw [h a ha]

/-- Redirecting an entry changes no pair. -/
theorem pair_relink {a : Nat} {e : Entry K V} (h : heap[a]? = some e) (q : Option Nat) (b : Nat) :
    ((heap.set a { e with next := q })[b]?).map Entry.pair = (heap[b]?).map Entry.pair := by
  have hpair : Entry.pair { e with next := q } = e.pair := rfl
  exact map_getElem?_set h hpair b

/-- Reading chain after chain is reading the concatenation. -/
theorem flatten_map_pairsAt (chains : List (List Nat)) :
    (chains.map (pairsAt heap)).flatten = pairsAt heap chains.flatten := by
  induction chains with
  | nil => rfl
  | cons ps chains ih => rw [List.map_cons, List.flatten_cons, ih, List.flatten_cons, pairsAt_append]

/-! ## Representation -/

/-- The slots of the array are the starts of disjoint chains. -/
structure Linked (heap : List (Entry K V)) (table : List (Option Nat))
    (chains : List (List Nat)) : Prop where
  /-- One chain for each slot. -/
  length_eq : table.length = chains.length
  /-- Slot `i` starts chain `i`. -/
  chain : ∀ (i : Nat) (p : Option Nat) (ps : List Nat),
    table[i]? = some p → chains[i]? = some ps → Chain Entry.next heap p ps
  /-- No address is in two chains. -/
  disjoint : ∀ (i j : Nat) (ps qs : List Nat) (a : Nat),
    chains[i]? = some ps → chains[j]? = some qs → a ∈ ps → a ∈ qs → i = j

/-- The heap table `ht`, with functions `hf` and `cf`, represents the table `t`. -/
structure Repr (hf : K → UInt32) (cf : K → K → Int) (ht : HashtableT K V) (t : Table K V) :
    Prop where
  /-- The counters agree. -/
  size_eq : ht.size = t.size
  /-- The capacities agree. -/
  cap_eq : ht.cap = t.cap
  /-- The capacity is an `int`. -/
  cap_fits : FitsInt t.cap
  /-- The table hashes with `hf`. -/
  hashFunc_eq : ht.hashFunc = hf
  /-- The table compares with `cf`. -/
  cmpFunc_eq : ht.cmpFunc = cf
  /-- The chains read as the buckets. -/
  linked : ∃ chains, Linked ht.heap ht.table chains ∧ t.buckets = chains.map (pairsAt ht.heap)

variable {table : List (Option Nat)} {chains : List (List Nat)}

/-- The chain of a slot. -/
theorem Linked.exists_chain (hl : Linked heap table chains) {i : Nat} (hi : i < table.length) :
    ∃ p ps, table[i]? = some p ∧ chains[i]? = some ps ∧ Chain Entry.next heap p ps := by
  have hic : i < chains.length := hl.length_eq ▸ hi
  exact ⟨table[i], chains[i], List.getElem?_eq_getElem hi, List.getElem?_eq_getElem hic,
    hl.chain i _ _ (List.getElem?_eq_getElem hi) (List.getElem?_eq_getElem hic)⟩

/-- The chains are those of the heap and the array. -/
theorem Linked.unique {chains' : List (List Nat)} (hl : Linked heap table chains)
    (hl' : Linked heap table chains') : chains = chains' := by
  refine List.ext_getElem (hl.length_eq.symm.trans hl'.length_eq) fun i hi hi' => ?_
  have hat := List.getElem?_eq_getElem (l := table) (i := i) (hl.length_eq ▸ hi)
  exact Chain.unique (hl.chain i _ _ hat (List.getElem?_eq_getElem hi))
    (hl'.chain i _ _ hat (List.getElem?_eq_getElem hi'))

/-- The chains visit no address twice, so they have no more addresses than there are entries. -/
theorem Linked.nodup_flatten (hl : Linked heap table chains) : chains.flatten.Nodup := by
  refine List.nodup_flatten.mpr ⟨fun ps hps => ?_, ?_⟩
  · obtain ⟨i, hi⟩ := List.mem_iff_getElem?.mp hps
    obtain ⟨hlt, _⟩ := List.getElem?_eq_some_iff.mp hi
    obtain ⟨q, qs, _, hqs, hc⟩ := hl.exists_chain (hl.length_eq ▸ hlt)
    rw [hi] at hqs
    exact Option.some.inj hqs ▸ hc.nodup
  · rw [List.pairwise_iff_getElem]
    intro i j hi hj hij a ha hb
    have := hl.disjoint i j _ _ a (List.getElem?_eq_getElem hi) (List.getElem?_eq_getElem hj) ha hb
    omega

/-- The addresses of the chains are allocated. -/
theorem Linked.lt_of_mem (hl : Linked heap table chains) {i a : Nat} (hps : chains[i]? = some ps)
    (ha : a ∈ ps) : a < heap.length := by
  obtain ⟨hlt, _⟩ := List.getElem?_eq_some_iff.mp hps
  obtain ⟨q, qs, _, hqs, hc⟩ := hl.exists_chain (hl.length_eq ▸ hlt)
  rw [hps] at hqs
  obtain rfl := Option.some.inj hqs
  exact hc.lt_of_mem ha

/-- The addresses of all chains are allocated. -/
theorem Linked.lt_of_mem_flatten (hl : Linked heap table chains) {a : Nat} (ha : a ∈ chains.flatten) :
    a < heap.length := by
  obtain ⟨ps, hps, hmem⟩ := List.mem_flatten.mp ha
  obtain ⟨i, hi⟩ := List.mem_iff_getElem?.mp hps
  exact hl.lt_of_mem hi hmem

/-- All addresses of the chains together are no more than the entries. -/
theorem Linked.length_flatten_le (hl : Linked heap table chains) :
    chains.flatten.length ≤ heap.length := by
  have hsub : chains.flatten ⊆ List.range heap.length :=
    fun a ha => List.mem_range.mpr (hl.lt_of_mem_flatten ha)
  have hle := (hl.nodup_flatten.subperm hsub).length_le
  rwa [List.length_range] at hle

/-- A pair is read at each address. -/
theorem Linked.length_pairsAt (hl : Linked heap table chains) :
    (pairsAt heap chains.flatten).length = chains.flatten.length := by
  refine List.filterMap_length_eq_length.mpr fun a ha => ?_
  rw [List.getElem?_eq_getElem (hl.lt_of_mem_flatten ha)]
  rfl

/-- A chain is replaced by one that shares no address with the other chains, which are not written. -/
theorem Linked.replace (hl : Linked heap table chains) {i : Nat} (p' : Option Nat)
    {ps' : List Nat} (hps : chains[i]? = some ps) (hc : Chain Entry.next heap' p' ps')
    (hother : ∀ j qs, chains[j]? = some qs → i ≠ j → ∀ a ∈ qs, a ∉ ps' ∧ heap'[a]? = heap[a]?) :
    Linked heap' (table.set i p') (chains.set i ps') := by
  have hilt : i < chains.length := (List.getElem?_eq_some_iff.mp hps).1
  constructor
  case length_eq => rw [List.length_set, List.length_set, hl.length_eq]
  case chain =>
    intro j q qs hq hqs
    by_cases hij : i = j
    · subst hij
      rw [List.getElem?_set_self (hl.length_eq ▸ hilt)] at hq
      rw [List.getElem?_set_self hilt] at hqs
      rw [← Option.some.inj hq, ← Option.some.inj hqs]
      exact hc
    · rw [List.getElem?_set_ne hij] at hq hqs
      refine (hl.chain j q qs hq hqs).frame fun a ha => ?_
      rw [(hother j qs hqs hij a ha).2]
  case disjoint =>
    intro j k qs rs a hqs hrs ha hb
    rw [getElem?_set_of_some hps] at hqs hrs
    split_ifs at hqs hrs with hij hik hik
    · exact hij.symm.trans hik
    · obtain rfl := Option.some.inj hqs
      exact absurd ha (hother k rs hrs hik a hb).1
    · obtain rfl := Option.some.inj hrs
      exact absurd hb (hother j qs hqs hij a ha).1
    · exact hl.disjoint j k qs rs a hqs hrs ha hb

/-- **Changing one chain.** If the chain of slot `i` becomes `ps'`, made of its old addresses and
freshly allocated ones, and nothing changes at addresses outside the old chain, then the slots
still start disjoint chains and the other chains still read the same. -/
theorem Linked.set_chain (hl : Linked heap table chains) {i : Nat} (p' : Option Nat)
    {ps' : List Nat} (hps : chains[i]? = some ps) (hc : Chain Entry.next heap' p' ps')
    (hframe : ∀ a, a ∉ ps → a < heap.length → heap'[a]? = heap[a]?)
    (hnew : ∀ a ∈ ps', a ∈ ps ∨ heap.length ≤ a) :
    Linked heap' (table.set i p') (chains.set i ps') ∧
      (chains.set i ps').map (pairsAt heap') =
        (chains.map (pairsAt heap)).set i (pairsAt heap' ps') := by
  have hother : ∀ j qs, chains[j]? = some qs → i ≠ j → ∀ a ∈ qs, heap'[a]? = heap[a]? :=
    fun j qs hqs hij a ha => hframe a (fun hap => hij (hl.disjoint i j ps qs a hps hqs hap ha))
      (hl.lt_of_mem hqs ha)
  obtain ⟨hilt, _⟩ := List.getElem?_eq_some_iff.mp hps
  constructor
  · refine hl.replace p' hps hc fun j qs hqs hij a ha => ⟨fun hap => ?_, hother j qs hqs hij a ha⟩
    -- an address of `ps'` would be in the old chain too, or not allocated
    rcases hnew a hap with hold | hge
    · exact hij (hl.disjoint i j ps qs a hps hqs hold ha)
    · exact absurd (hl.lt_of_mem hqs ha) (not_lt.mpr hge)
  · apply List.ext_getElem?
    intro j
    by_cases hij : i = j
    · subst hij
      rw [List.getElem?_map, List.getElem?_set_self hilt, List.getElem?_set_self (by simpa)]
      rfl
    · rw [List.getElem?_map, List.getElem?_set_ne hij, List.getElem?_set_ne hij,
        List.getElem?_map]
      cases hqs : chains[j]? with
      | none => rfl
      | some qs =>
          rw [Option.map_some, Option.map_some, pairsAt_frame (hother j qs hqs hij)]

/-! ## Looking up -/

/-- A key that no entry has so far, nor the next one. -/
theorem lookup_concat {cf : K → K → Int} {key : K} {a : Nat} {entry : Entry K V}
    (hnot : lookup cf key (pairsAt heap ps) = none) (hentry : heap[a]? = some entry)
    (hkey : cf key entry.key ≠ 0) : lookup cf key (pairsAt heap (ps ++ [a])) = none := by
  rw [pairsAt_append, lookup_append, hnot, pairsAt_cons hentry]
  simp [lookup, Entry.pair, hkey]

/-- The loop of `hashtable_get` looks the key up among the pairs of the chain it walks. -/
theorem getLoop_spec (ht : HashtableT K V) (key : K) {fuel : Nat} {e : Option Nat}
    (hc : Chain Entry.next ht.heap e ps) (hfuel : ps.length ≤ fuel) :
    getLoop ht key fuel e = some (lookup ht.cmpFunc key (pairsAt ht.heap ps)) := by
  induction ps generalizing fuel e with
  | nil =>
      rw [Chain, Seg.nil_iff] at hc
      subst hc
      cases fuel <;> rfl
  | cons a ps ih =>
      obtain ⟨rfl, entry, hentry, hc⟩ := Seg.cons_iff.mp hc
      obtain ⟨fuel, rfl, hfuel'⟩ := exists_fuel hfuel
      have hrec := ih hc hfuel'
      rw [pairsAt_cons hentry]
      simp only [getLoop, hentry, Option.bind_eq_bind, Option.bind_some, lookup, Entry.pair, hrec]
      split_ifs with hkey <;> simp [hkey]

variable {hf : K → UInt32} {cf : K → K → Int} {ht : HashtableT K V} {t : Table K V}

/-- The slot of a key, in the table and in its representation. -/
theorem Repr.slotOf_eq (hr : Repr hf cf ht t) (key : K) :
    slotOf ht.hashFunc key ht.cap = bucketIndex hf key t.cap := by
  rw [hr.hashFunc_eq, hr.cap_eq]

/-- The array slot of a key starts the chain that reads as the key's bucket. -/
theorem Repr.exists_chain (hr : Repr hf cf ht t) (hw : t.WF hf cf) (hl : Linked ht.heap ht.table chains)
    (hb : t.buckets = chains.map (pairsAt ht.heap)) (key : K) :
    ∃ p ps, ht.table[slotOf ht.hashFunc key ht.cap]? = some p ∧
      chains[slotOf ht.hashFunc key ht.cap]? = some ps ∧ Chain Entry.next ht.heap p ps ∧
      t.bucket hf key = pairsAt ht.heap ps := by
  have hget := hw.getElem?_bucket key
  rw [← hr.slotOf_eq, hb, List.getElem?_map] at hget
  obtain ⟨ps, hps, hread⟩ := Option.map_eq_some_iff.mp hget
  obtain ⟨hlt, _⟩ := List.getElem?_eq_some_iff.mp hps
  obtain ⟨p, qs, hp, hqs, hc⟩ := hl.exists_chain (hl.length_eq ▸ hlt)
  rw [hps] at hqs
  obtain rfl := Option.some.inj hqs
  exact ⟨p, ps, hp, hps, hc, hread.symm⟩

/-- **`hashtable_get` is the lookup of the table it represents.** -/
theorem hashtableGet_spec (hr : Repr hf cf ht t) (hw : t.WF hf cf) (key : K) :
    hashtableGet ht key = some (t.get hf cf key) := by
  obtain ⟨chains, hl, hb⟩ := hr.linked
  obtain ⟨p, ps, hp, _, hc, hread⟩ := hr.exists_chain hw hl hb key
  simp only [hashtableGet, hp, Option.bind_eq_bind, Option.bind_some]
  rw [getLoop_spec ht key hc hc.length_le, Table.get, hread, hr.cmpFunc_eq]

/-! ## Putting -/

/-- The code of a put: was the key there? -/
def putCode (old : Option V) : Int := if old.isSome then 1 else 0

/-- The loop of `hashtable_put`, standing at `e` behind the entries at `pre`, none of which has the
key: the chain afterwards reads as the insertion, and only addresses of the chain are written. -/
theorem putLoop_spec (ht : HashtableT K V) (key : K) (val : V) {fuel : Nat} {pre rest : List Nat}
    {p e : Option Nat} (hpre : Seg Entry.next ht.heap p pre e)
    (hrest : Chain Entry.next ht.heap e rest) (hne : pre ++ rest ≠ [])
    (hnot : lookup ht.cmpFunc key (pairsAt ht.heap pre) = none) (hfuel : rest.length ≤ fuel) :
    ∃ heap' ps',
      putLoop ht key val fuel pre.getLast? e =
        some (putCode (lookup ht.cmpFunc key (pairsAt ht.heap (pre ++ rest))),
          { ht with heap := heap' }) ∧
      Chain Entry.next heap' p ps' ∧
      pairsAt heap' ps' = upsert ht.cmpFunc key val (pairsAt ht.heap (pre ++ rest)) ∧
      (∀ a, a ∉ pre ++ rest → a < ht.heap.length → heap'[a]? = ht.heap[a]?) ∧
      (∀ a ∈ ps', a ∈ pre ++ rest ∨ ht.heap.length ≤ a) := by
  induction rest generalizing pre e fuel with
  | nil =>
      rw [Chain, Seg.nil_iff] at hrest
      subst hrest
      rw [List.append_nil] at hne ⊢
      -- the end of the chain: link a new entry behind the last one
      obtain ⟨init, l, rfl⟩ : ∃ init l, pre = init ++ [l] :=
        ⟨pre.dropLast, pre.getLast hne, (List.dropLast_append_getLast hne).symm⟩
      have hllast : l ∈ init ++ [l] := List.mem_append_right init List.mem_cons_self
      obtain ⟨lastNode, hlast⟩ := hpre.isSome_of_mem hllast
      set relinked := ht.heap.set l { lastNode with next := some ht.heap.length } with hrelinked
      have hlen : relinked.length = ht.heap.length := List.length_set
      have hfresh : (relinked ++ [newEntry key val])[ht.heap.length]? = some (newEntry key val) := by
        rw [← hlen]
        exact List.getElem?_concat_length
      have hkeep : ∀ a < ht.heap.length, (relinked ++ [newEntry key val])[a]? = relinked[a]? :=
        fun a ha => List.getElem?_append_left (hlen ▸ ha)
      refine ⟨relinked ++ [newEntry key val], init ++ [l] ++ [ht.heap.length], ?_, ?_, ?_, ?_, ?_⟩
      · rw [hnot]
        cases fuel <;> simp [putLoop, hlast, putCode, hrelinked]
      · exact Seg.append_iff.mpr ⟨some ht.heap.length,
          (hpre.relink (Chain.notMem_of_concat hpre) rfl).alloc _,
          Seg.cons_iff.mpr ⟨rfl, newEntry key val, hfresh, Seg.nil_iff.mpr rfl⟩⟩
      · have hsame : pairsAt (relinked ++ [newEntry key val]) (init ++ [l]) =
            pairsAt ht.heap (init ++ [l]) := by
          refine pairsAt_congr fun a ha => ?_
          rw [hkeep a (hpre.lt_of_mem ha)]
          exact pair_relink hlast _ a
        rw [upsert_of_lookup_eq_none hnot, pairsAt_append, hsame, pairsAt_cons hfresh]
        rfl
      · intro a ha halt
        rw [hkeep a halt, hrelinked, List.getElem?_set_ne]
        rintro rfl
        exact ha hllast
      · intro a ha
        rcases List.mem_append.mp ha with ha | ha
        · exact .inl ha
        · exact .inr (List.mem_singleton.mp ha).ge
  | cons a rest ih =>
      obtain ⟨rfl, entry, hentry, hrest'⟩ := Seg.cons_iff.mp hrest
      obtain ⟨fuel, rfl, hfuel'⟩ := exists_fuel hfuel
      by_cases hkey : ht.cmpFunc key entry.key = 0
      · -- found: the value is overwritten in place
        have hwhole : Chain Entry.next ht.heap p (pre ++ a :: rest) :=
          Seg.append_iff.mpr ⟨_, hpre, hrest⟩
        have hnd := hwhole.nodup
        rw [List.nodup_append, List.nodup_cons] at hnd
        obtain ⟨_, ⟨hrest_a, _⟩, hdisj⟩ := hnd
        have hpre_a : a ∉ pre := fun h => hdisj a h a List.mem_cons_self rfl
        have halt := hwhole.lt_of_mem (List.mem_append_right pre List.mem_cons_self)
        have hkeep : ∀ b, b ≠ a → (ht.heap.set a { entry with val := val })[b]? = ht.heap[b]? :=
          fun b hb => List.getElem?_set_ne (Ne.symm hb)
        refine ⟨ht.heap.set a { entry with val := val }, pre ++ a :: rest, ?_, ?_, ?_, ?_, ?_⟩
        · rw [pairsAt_append, lookup_append, hnot, pairsAt_cons hentry]
          simp [putLoop, hentry, hkey, lookup, Entry.pair, putCode]
        · exact hwhole.set_of_next_eq hentry rfl
        · rw [pairsAt_append, pairsAt_append, upsert_append_of_lookup_eq_none hnot,
            pairsAt_cons hentry, pairsAt_cons (List.getElem?_set_self halt),
            pairsAt_frame fun b hb => hkeep b (fun h => hpre_a (h ▸ hb)),
            pairsAt_frame fun b hb => hkeep b (fun h => hrest_a (h ▸ hb))]
          simp [upsert, Entry.pair, hkey]
        · intro b hb _
          exact hkeep b fun h => hb (h ▸ List.mem_append_right pre List.mem_cons_self)
        · exact fun b hb => .inl hb
      · -- not here: go on with one more entry behind
        have := ih (hpre.concat hentry) hrest' (by simp) (lookup_concat hnot hentry hkey) hfuel'
        rw [List.append_assoc, List.singleton_append] at this
        simpa [putLoop, hentry, hkey] using this

/-- The representation does not read the counter. -/
theorem Repr.setSize (hr : Repr hf cf ht t) (size : Int) :
    Repr hf cf { ht with size := size } { t with size := size } :=
  { hr with size_eq := rfl }

/-- The invariant does not read the counter. -/
theorem Table.WF.setSize (hw : t.WF hf cf) (size : Int) : ({ t with size := size } : Table K V).WF hf cf :=
  { hw with }

/-- **Rewriting one chain of the heap rewrites one chain of the table.** -/
theorem Repr.update (hr : Repr hf cf ht t) (key : K)
    (hl : Linked ht.heap ht.table chains) (hb : t.buckets = chains.map (pairsAt ht.heap))
    (hps : chains[slotOf ht.hashFunc key ht.cap]? = some ps)
    {p' : Option Nat} {ps' : List Nat} {f : List (K × V) → List (K × V)}
    (hc : Chain Entry.next heap' p' ps') (hread : pairsAt heap' ps' = f (pairsAt ht.heap ps))
    (hframe : ∀ a, a ∉ ps → a < ht.heap.length → heap'[a]? = ht.heap[a]?)
    (hnew : ∀ a ∈ ps', a ∈ ps ∨ ht.heap.length ≤ a) :
    Repr hf cf
      { ht with heap := heap', table := ht.table.set (slotOf ht.hashFunc key ht.cap) p' }
      (t.update hf key t.size f) := by
  obtain ⟨hl', hmap⟩ := hl.set_chain p' hps hc hframe hnew
  have hslot : t.buckets[slotOf ht.hashFunc key ht.cap]? = some (pairsAt ht.heap ps) := by
    rw [hb, List.getElem?_map, hps]
    rfl
  constructor
  case size_eq => rw [Table.size_update, hr.size_eq]
  case cap_eq => rw [Table.cap_update, hr.cap_eq]
  case cap_fits =>
    rw [Table.cap_update]
    exact hr.cap_fits
  case hashFunc_eq => exact hr.hashFunc_eq
  case cmpFunc_eq => exact hr.cmpFunc_eq
  case linked =>
    refine ⟨_, hl', ?_⟩
    rw [Table.buckets_update, ← hr.slotOf_eq, modify_of_getElem? hslot, hmap, ← hb, hread]

/-- `hashtable_put` after growing: the chain of the key gets the new value or a new entry. -/
theorem putEntry_spec (hr : Repr hf cf ht t) (hw : t.WF hf cf) (key : K) (val : V) :
    ∃ ht', putEntry ht key val = some (putCode (t.get hf cf key), ht') ∧
      Repr hf cf ht' (t.update hf key t.size (upsert cf key val)) := by
  obtain ⟨chains, hl, hb⟩ := hr.linked
  obtain ⟨p, ps, hp, hps, hc, hread⟩ := hr.exists_chain hw hl hb key
  rw [Table.get, hread]
  cases p with
  | none =>
      -- an empty chain
      obtain rfl : ps = [] := Chain.unique hc (.nil none)
      have hfresh : (ht.heap ++ [newEntry key val])[ht.heap.length]? = some (newEntry key val) :=
        List.getElem?_concat_length
      have hc' : Chain Entry.next (ht.heap ++ [newEntry key val]) (some ht.heap.length)
          [ht.heap.length] :=
        Seg.cons_iff.mpr ⟨rfl, _, hfresh, Seg.nil_iff.mpr rfl⟩
      refine ⟨_, ?_, hr.update key hl hb hps hc' ?_ ?_ ?_⟩
      · simp [putEntry, hp, putCode, lookup]
      · rw [pairsAt_cons hfresh]
        rfl
      · intro a _ halt
        rw [List.getElem?_append_left halt]
      · intro a ha
        exact .inr (List.mem_singleton.mp ha).ge
  | some e =>
      have hne : ([] : List Nat) ++ ps ≠ [] := by
        rintro rfl
        exact absurd (Seg.nil_iff.mp hc) (by simp)
      obtain ⟨heap', ps', hrun, hc', hread', hframe, hnew⟩ :=
        putLoop_spec ht key val (.nil (some e)) hc hne rfl hc.length_le
      rw [List.nil_append] at hrun hread' hframe hnew
      refine ⟨{ ht with heap := heap' }, ?_, ?_⟩
      · simpa [putEntry, hp, hr.cmpFunc_eq] using hrun
      · have := hr.update key hl hb hps hc' (f := upsert cf key val)
          (by rw [hread', hr.cmpFunc_eq]) hframe hnew
        rwa [set_of_getElem? hp] at this

/-! ## Removing -/

/-- The loop of `hashtable_remove`, standing at `e` behind the entries at `pre`, none of which has
the key: what it returns, and the array and heap it leaves. -/
theorem removeLoop_spec (ht : HashtableT K V) (key : K) (index : Nat) {fuel : Nat}
    {pre rest : List Nat} {p e : Option Nat} (hp : ht.table[index]? = some p)
    (hpre : Seg Entry.next ht.heap p pre e) (hrest : Chain Entry.next ht.heap e rest)
    (hnot : lookup ht.cmpFunc key (pairsAt ht.heap pre) = none) (hfuel : rest.length ≤ fuel) :
    ∃ heap' p' ps',
      removeLoop ht key index fuel pre.getLast? e =
        some (lookup ht.cmpFunc key (pairsAt ht.heap (pre ++ rest)),
          { ht with heap := heap', table := ht.table.set index p' }) ∧
      Chain Entry.next heap' p' ps' ∧
      pairsAt heap' ps' = erase ht.cmpFunc key (pairsAt ht.heap (pre ++ rest)) ∧
      (∀ a, a ∉ pre ++ rest → heap'[a]? = ht.heap[a]?) ∧ (∀ a ∈ ps', a ∈ pre ++ rest) := by
  induction rest generalizing pre e fuel with
  | nil =>
      rw [Chain, Seg.nil_iff] at hrest
      subst hrest
      -- the end of the chain: nothing is unlinked
      refine ⟨ht.heap, p, pre, ?_, hpre, ?_, fun _ _ => rfl, ?_⟩
      · rw [List.append_nil, hnot, set_of_getElem? hp]
        cases fuel <;> rfl
      · have := erase_append_of_lookup_eq_none hnot []
        rw [List.append_nil] at this ⊢
        rw [this]
        simp [erase]
      · intro a ha
        rwa [List.append_nil]
  | cons a rest ih =>
      obtain ⟨rfl, entry, hentry, hrest'⟩ := Seg.cons_iff.mp hrest
      obtain ⟨fuel, rfl, hfuel'⟩ := exists_fuel hfuel
      by_cases hkey : ht.cmpFunc key entry.key = 0
      · -- found: the entry before it, or the slot, is redirected past it
        have hfound : lookup ht.cmpFunc key (pairsAt ht.heap (pre ++ a :: rest)) = some entry.val := by
          rw [pairsAt_append, lookup_append, hnot, pairsAt_cons hentry]
          simp [lookup, Entry.pair, hkey]
        have herase : erase ht.cmpFunc key (pairsAt ht.heap (pre ++ a :: rest)) =
            pairsAt ht.heap pre ++ pairsAt ht.heap rest := by
          rw [pairsAt_append, erase_append_of_lookup_eq_none hnot _, pairsAt_cons hentry]
          simp [erase, Entry.pair, hkey]
        rw [hfound, herase]
        rcases List.eq_nil_or_concat pre with rfl | ⟨init, l, rfl⟩
        · rw [Seg.nil_iff] at hpre
          subst hpre
          refine ⟨ht.heap, entry.next, rest, ?_, hrest', rfl, fun _ _ => rfl, ?_⟩
          · simp [removeLoop, hentry, hkey]
          · intro b hb
            exact List.mem_cons_of_mem _ hb
        · rw [List.concat_eq_append] at *
          have hnd := Chain.nodup (Seg.append_iff.mpr ⟨_, hpre, hrest⟩)
          have hlinit : l ∉ init := by
            intro h
            rw [List.append_assoc, List.nodup_append] at hnd
            exact hnd.2.2 l h l (by simp) rfl
          have hlrest : l ∉ rest := by
            intro h
            rw [List.nodup_append] at hnd
            exact hnd.2.2 l (by simp) l (List.mem_cons_of_mem _ h) rfl
          obtain ⟨prevNode, hprev⟩ :=
            hpre.isSome_of_mem (List.mem_append_right init List.mem_cons_self)
          refine ⟨ht.heap.set l { prevNode with next := entry.next }, p, init ++ [l] ++ rest,
            ?_, ?_, ?_, ?_, ?_⟩
          · rw [set_of_getElem? hp]
            simp [removeLoop, hentry, hkey, hprev]
          · exact Seg.append_iff.mpr ⟨entry.next, hpre.relink hlinit rfl,
              hrest'.set_of_notMem hlrest _⟩
          · rw [pairsAt_append]
            congr 1
            all_goals exact pairsAt_congr fun b _ => pair_relink hprev _ b
          · intro b hb
            refine List.getElem?_set_ne ?_
            rintro rfl
            exact hb (by simp)
          · intro b hb
            rcases List.mem_append.mp hb with h | h
            · exact List.mem_append_left _ h
            · exact List.mem_append_right _ (List.mem_cons_of_mem _ h)
      · -- not here: go on with one more entry behind
        have := ih (hpre.concat hentry) hrest' (lookup_concat hnot hentry hkey) hfuel'
        rw [List.append_assoc, List.singleton_append] at this
        simpa [removeLoop, hentry, hkey] using this

/-- **`hashtable_remove` is the removal of the table it represents.** -/
theorem hashtableRemove_spec (hr : Repr hf cf ht t) (hw : t.WF hf cf) (key : K) :
    ∃ ht', hashtableRemove ht key = some (t.get hf cf key, ht') ∧
      Repr hf cf ht' (t.remove hf cf key) := by
  have hr' := hr.setSize (wrap32 (t.size - 1))
  have hw' := hw.setSize (wrap32 (t.size - 1))
  obtain ⟨chains, hl, hb⟩ := hr'.linked
  obtain ⟨p, ps, hp, hps, hc, hread⟩ := hr'.exists_chain hw' hl hb key
  have hget : t.get hf cf key = lookup cf key (pairsAt ht.heap ps) := by
    rw [Table.get]
    exact congrArg _ hread
  obtain ⟨heap', p', ps', hrun, hc', hread', hframe, hnew⟩ :=
    removeLoop_spec { ht with size := wrap32 (t.size - 1) } key _ hp (.nil p) hc rfl hc.length_le
  rw [List.nil_append] at hrun hread' hframe hnew
  refine ⟨_, ?_, hr'.update key hl hb hps hc' (f := erase cf key)
    (by rw [hread', hr'.cmpFunc_eq]) (fun a ha _ => hframe a ha) (fun a ha => .inl (hnew a ha))⟩
  have hp' : ht.table[slotOf ht.hashFunc key ht.cap]? = some p := hp
  rw [hget]
  cases p with
  | none =>
      -- the empty chain, for which the source has a branch of its own
      obtain rfl : ps = [] := Chain.unique hc (.nil none)
      obtain rfl : ps' = [] := List.eq_nil_iff_forall_not_mem.mpr
        fun a ha => absurd (hnew a ha) List.not_mem_nil
      rw [removeLoop] at hrun
      simp only [Option.some.injEq, Prod.mk.injEq] at hrun
      simp [hashtableRemove, hp', hr.size_eq, lookup, ← hrun.2]
  | some e => simpa [hashtableRemove, hp', hr.size_eq, hr.cmpFunc_eq] using hrun

end Flood.Hashtable
