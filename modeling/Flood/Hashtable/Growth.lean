import Flood.Hashtable.Refine

/-!
# Growing loses nothing

What `grow_table` makes of the nodes of a table, node by node.

* `Chained ht chains` — the slots of the table start the chains `chains`, which end and share no node,
  and every node is in the slot of its key. So it is in every table that the operations build
  (`Chained.of_repr`).
* `Lossless ht ht' chains chains'` — the table `ht'` has twice the slots and the nodes of `ht`, each in
  the slot of its key, those of one old slot and one new slot in their old order.
* `grow_lossless` — growing is lossless as long as the doubled capacity is an `int`; `not_lossless` is
  a table of `2 ^ 30` slots, `colliding (2 ^ 30)`.
-/

namespace Flood.Hashtable

open Flood.Lib

variable {K V : Type} {hf : K → UInt32} {cf : K → K → Int} {ht ht' : HashtableT K V}
  {chains chains' : List (List Nat)} {ps : List Nat} {t : Table K V}

/-- The slots of the table start disjoint chains that end, and every entry is in the slot of its
key. -/
structure Chained (ht : HashtableT K V) (chains : List (List Nat)) : Prop where
  /-- The array has `cap` slots. -/
  capacity : (ht.table.length : Int) = ht.cap
  /-- The slots start the chains. -/
  linked : Linked ht.heap ht.table chains
  /-- An entry is in the slot of its key. -/
  placed : ∀ (i : Nat) (ps : List Nat) (a : Nat) (e : Entry K V), chains[i]? = some ps → a ∈ ps →
    ht.heap[a]? = some e → hashFunction (intOfUInt (ht.hashFunc e.key)) ht.cap = i

/-- The table `ht'` with the chains `chains'` is the table `ht` with the chains `chains`, grown. -/
structure Lossless (ht ht' : HashtableT K V) (chains chains' : List (List Nat)) : Prop where
  /-- The capacity is doubled. -/
  cap : ht'.cap = 2 * ht.cap
  /-- The rest of the table is what it was. -/
  rest : ht'.size = ht.size ∧ ht'.hashFunc = ht.hashFunc ∧ ht'.cmpFunc = ht.cmpFunc
  /-- The chains end and share no node, and every entry is in the slot of its key. -/
  chained : Chained ht' chains'
  /-- There is such a slot, whatever the hash. -/
  inside : 0 < ht.cap → ∀ hash, 0 ≤ hashFunction hash ht'.cap ∧ hashFunction hash ht'.cap < 2 * ht.cap
  /-- The nodes of the table are the same. -/
  nodes : chains'.flatten.Perm chains.flatten
  /-- They hold the same keys and values. -/
  pairs : ∀ a : Nat, (ht'.heap[a]?).map Entry.pair = (ht.heap[a]?).map Entry.pair
  /-- Nothing else is written. -/
  others : ∀ a, a ∉ chains.flatten → ht'.heap[a]? = ht.heap[a]?
  /-- The nodes of an old slot and a new slot have the same order in both. -/
  order : ∀ (i j : Nat) (ps qs : List Nat), chains[i]? = some ps → chains'[j]? = some qs →
    qs.filter (· ∈ ps) = ps.filter (· ∈ qs)

/-! ## Slots -/

/-- The slot of a key is what `hash_function` says, also for a negative hash. -/
theorem natCast_slotOf (hf : K → UInt32) (key : K) {size : Int} (hpos : 0 < size) :
    (slotOf hf key size : Int) = hashFunction (intOfUInt (hf key)) size := by
  unfold slotOf
  exact Int.toNat_of_nonneg (hashFunction_mem _ hpos).1

/-- The tables that the operations build are chained. -/
theorem Chained.of_repr (hr : Repr hf cf ht t) (hw : t.WF hf cf) : ∃ chains, Chained ht chains := by
  obtain ⟨chains, hl, hb⟩ := hr.linked
  refine ⟨chains, ?_, hl, fun i ps a e hps ha he => ?_⟩
  · rw [hl.length_eq, hr.cap_eq, ← hw.length_buckets, hb, List.length_map]
  · have hbucket : t.buckets[i]? = some (pairsAt ht.heap ps) := by
      rw [hb, List.getElem?_map, hps, Option.map_some]
    have hmem : e.pair ∈ pairsAt ht.heap ps := by
      refine List.mem_filterMap.mpr ⟨a, ha, ?_⟩
      rw [he, Option.map_some]
    have hslot : slotOf hf e.key t.cap = i := hw.placed i _ hbucket e.pair hmem
    rw [hr.hashFunc_eq, hr.cap_eq, ← natCast_slotOf hf e.key (Nat.cast_pos.mpr hw.cap_pos), hslot]

/-! ## Chains -/

/-- The elements of one of several disjoint lists, picked from all of them. -/
theorem filter_flatten_mem (hnd : chains.flatten.Nodup) (hps : ps ∈ chains) :
    chains.flatten.filter (· ∈ ps) = ps := by
  obtain ⟨l, r, rfl⟩ := List.append_of_mem hps
  rw [List.flatten_append, List.flatten_cons, List.nodup_append] at hnd
  obtain ⟨-, hright, hleft⟩ := hnd
  rw [List.nodup_append] at hright
  have hl : l.flatten.filter (· ∈ ps) = [] := by
    rw [List.filter_eq_nil_iff]
    intro a ha hmem
    exact hleft a ha a (List.mem_append_left _ (of_decide_eq_true hmem)) rfl
  have hr : r.flatten.filter (· ∈ ps) = [] := by
    rw [List.filter_eq_nil_iff]
    intro a ha hmem
    exact hright.2.2 a (of_decide_eq_true hmem) a ha rfl
  have hself : ps.filter (· ∈ ps) = ps :=
    List.filter_eq_self.mpr fun a ha => decide_eq_true ha
  rw [List.flatten_append, List.flatten_cons, List.filter_append, List.filter_append, hl, hr, hself,
    List.nil_append, List.append_nil]

/-- A chain of the new array: the nodes of its index, in the order of the old chains. -/
theorem getElem?_spread {idx : Nat → Nat} {n j : Nat} {qs : List Nat}
    (hqs : (spread idx (List.replicate n []) chains.flatten)[j]? = some qs) :
    qs = chains.flatten.filter fun a => idx a = j := by
  have hspread : spread idx (List.replicate n []) chains.flatten =
      distribute idx n chains.flatten := rfl
  rw [hspread, getElem?_distribute, Option.ite_none_right_eq_some] at hqs
  exact (Option.some.inj hqs.2).symm

/-- The nodes that an old chain and a new chain share have one order. -/
theorem filter_filter_comm {P : Nat → Prop} [DecidablePred P] (hnd : chains.flatten.Nodup)
    (hps : ps ∈ chains) : (chains.flatten.filter P).filter (· ∈ ps) =
      ps.filter (· ∈ chains.flatten.filter P) := by
  have hmem : ∀ a ∈ ps, a ∈ chains.flatten := fun a ha => List.mem_flatten.mpr ⟨ps, hps, ha⟩
  calc (chains.flatten.filter P).filter (· ∈ ps)
      = (chains.flatten.filter (· ∈ ps)).filter P := List.filter_comm _ _ _
    _ = ps.filter P := by rw [filter_flatten_mem hnd hps]
    _ = ps.filter (· ∈ chains.flatten.filter P) := by
        refine List.filter_congr fun a ha => decide_eq_decide.mpr ?_
        rw [List.mem_filter, decide_eq_true_iff]
        exact ⟨fun hP => ⟨hmem a ha, hP⟩, fun h => h.2⟩

/-! ## Growing -/

/-- **Growing is lossless** as long as the doubled capacity is an `int`. -/
theorem grow_lossless (h : Chained ht chains) (hmax : 2 * ht.cap ≤ intMax) :
    ∃ ht' chains', growTable ht = some ht' ∧ Lossless ht ht' chains chains' := by
  obtain ⟨heap', table', hrun, hl', hframe, hpair⟩ := growTable_linked h.linked h.capacity hmax
  have hnd := h.linked.nodup_flatten
  -- where there is a node there is a slot
  have hpos : ∀ a ∈ chains.flatten, 0 < ht.cap := by
    intro a ha
    obtain ⟨ps, hps, -⟩ := List.mem_flatten.mp ha
    rw [← h.capacity, h.linked.length_eq]
    exact Nat.cast_pos.mpr (List.length_pos_of_mem hps)
  have hdouble := two_mul_cap h.capacity
  refine ⟨_, spread (idxAt ht.hashFunc ht.heap (2 * ht.cap)) (List.replicate (2 * ht.table.length) [])
    chains.flatten, hrun, ?_⟩
  constructor
  case cap => rfl
  case rest => exact ⟨rfl, rfl, rfl⟩
  case inside => exact fun hcap hash => hashFunction_mem hash (mul_pos two_pos hcap)
  case pairs => exact hpair
  case others => exact hframe
  case order =>
    intro i j ps qs hps hqs
    rw [getElem?_spread hqs]
    exact filter_filter_comm hnd (List.mem_of_getElem? hps)
  case nodes =>
    refine distribute_flatten_perm fun a ha => ?_
    rw [hdouble]
    exact h.linked.idxAt_lt ha (Nat.le_mul_of_pos_left _ Nat.two_pos)
  case chained =>
    refine ⟨?_, hl', fun j qs a e hqs ha he => ?_⟩
    · show (table'.length : Int) = 2 * ht.cap
      rw [hl'.length_eq, length_spread, List.length_replicate, hdouble]
    · rw [getElem?_spread hqs, List.mem_filter, decide_eq_true_iff] at ha
      obtain ⟨hmem, hidx⟩ := ha
      have hread : idxAt ht.hashFunc heap' (2 * ht.cap) a = j := (idxAt_congr (hpair a)).trans hidx
      have he' : heap'[a]? = some e := he
      rw [idxAt, he', Option.elim_some] at hread
      rw [← hread]
      exact (natCast_slotOf ht.hashFunc e.key (mul_pos two_pos (hpos a hmem))).symm

/-! ## Colliding keys -/

/-- A table of `n` slots, all empty but the first, which holds two keys. The second hashes to the
smallest `int`. -/
def colliding (n : Nat) : HashtableT UInt32 Nat where
  size := 2
  cap := n
  table := (List.replicate n none).set 0 (some 0)
  hashFunc := id
  cmpFunc := fun a b => if a = b then 0 else 1
  heap := [⟨0, 10, some 1⟩, ⟨2147483648, 20, none⟩]

/-- The chains of `colliding`. -/
def collidingChains (n : Nat) : List (List Nat) := (List.replicate n []).set 0 [0, 1]

/-- Powers of two up to `2 ^ 31` make the two keys collide. -/
theorem chained_colliding {n : Nat} (hn : 0 < n) (hdvd : (n : Int) ∣ 2147483648) :
    Chained (colliding n) (collidingChains n) := by
  have hchain : Chain Entry.next (colliding n).heap (some 0) [0, 1] :=
    .cons rfl (.cons rfl (.nil none))
  have hempty : (List.replicate n ([] : List Nat))[0]? = some [] := by
    rw [List.getElem?_replicate, if_pos hn]
  -- both hashes are multiples of the capacity
  have hzero : ∀ key : UInt32, (n : Int) ∣ intOfUInt key →
      hashFunction (intOfUInt key) n = 0 := by
    intro key hd
    rw [hashFunction, Int.tmod_eq_zero_of_dvd hd]
    rfl
  have hslot : ∀ e ∈ (colliding n).heap,
      hashFunction (intOfUInt ((colliding n).hashFunc e.key)) (colliding n).cap = 0 := by
    intro e he
    rcases List.mem_cons.mp he with rfl | he
    · refine hzero 0 ?_
      have hfirst : intOfUInt 0 = 0 := by decide
      rw [hfirst]
      exact dvd_zero _
    · obtain rfl := List.mem_singleton.mp he
      refine hzero 2147483648 ?_
      have hsecond : intOfUInt 2147483648 = -2147483648 := by decide
      rw [hsecond]
      exact dvd_neg.mpr hdvd
  constructor
  case capacity =>
    show ((((List.replicate n (none : Option Nat)).set 0 (some 0)).length : Nat) : Int) = n
    rw [List.length_set, List.length_replicate]
  case linked =>
    -- the two nodes are freshly allocated behind an empty heap
    refine (Linked.set_chain (.replicate [] n) (some 0) hempty hchain (fun a _ ha => ?_)
      fun a _ => .inr (Nat.zero_le a)).1
    exact absurd ha (Nat.not_lt_zero a)
  case placed =>
    intro i ps a e hps ha he
    rw [hslot e (List.mem_of_getElem? he)]
    cases i with
    | zero => rfl
    | succ i =>
        rw [collidingChains, List.getElem?_set_ne (Nat.succ_ne_zero i).symm] at hps
        obtain rfl := List.eq_of_mem_replicate (List.mem_of_getElem? hps)
        exact absurd ha List.not_mem_nil

/-- Two keys in one slot, one of them of a negative hash, stay in one slot. -/
theorem grow_lossless_example : ∃ ht' chains', growTable (colliding 2) = some ht' ∧
    Lossless (colliding 2) ht' (collidingChains 2) chains' :=
  grow_lossless (chained_colliding Nat.two_pos ⟨1073741824, rfl⟩) (by decide)

/-- With `2 ^ 30` slots the doubled capacity is no `int`, and the array cannot be allocated. -/
theorem not_lossless : Chained (colliding 1073741824) (collidingChains 1073741824) ∧
    FitsInt (colliding 1073741824).cap ∧
    ¬ ∃ ht' chains', growTable (colliding 1073741824) = some ht' ∧
      Lossless (colliding 1073741824) ht' (collidingChains 1073741824) chains' := by
  have hcap : (colliding 1073741824).cap = 1073741824 := rfl
  have hfits : FitsInt (colliding 1073741824).cap := by
    rw [hcap]
    norm_num [FitsInt, intMin, intMax]
  have hmax : ¬ 2 * (colliding 1073741824).cap ≤ intMax := by
    rw [hcap]
    norm_num [intMax]
  have hnone := growTable_eq_none hfits.2 hmax
  refine ⟨chained_colliding (by norm_num) (by norm_num), hfits, ?_⟩
  rintro ⟨ht', chains', hrun, -⟩
  rw [hnone] at hrun
  exact absurd hrun.symm (Option.some_ne_none _)

end Flood.Hashtable
