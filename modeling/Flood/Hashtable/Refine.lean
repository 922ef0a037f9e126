import Flood.Hashtable.Repr

/-!
# The pointer code computes the table operations

* `htInsert_spec`, `growChain_spec`, `growSlots_spec` — moving nodes to the new array, one node,
  one chain, all slots: only links are written, and the chains not yet moved are untouched.
* `growTable_linked` — `grow_table` spreads the chains over twice as many slots while the doubled
  capacity is an `int`; `growTable_eq_none` — it fails otherwise.
* `growTable_spec` — so it is the growth of the table.
* `hashtablePut_spec` — `hashtable_put` is the insertion into the table.
* `scanSlots_spec`, `IterAt.iterLoop`, `iterate_spec` — a full iteration delivers the entries of the
  table in order.
-/

namespace Flood.Hashtable

open Flood.Lib

variable {K V : Type} {heap heap' : List (Entry K V)} {ps qs : List Nat} {p : Option Nat}
variable {table : List (Option Nat)} {chains : List (List Nat)}
variable {hf : K → UInt32} {cf : K → K → Int} {ht : HashtableT K V} {t : Table K V}

/-! ## Growing -/

/-- The bucket, in a table of size `newcap`, of the key stored at an address. -/
def idxAt (hf : K → UInt32) (heap : List (Entry K V)) (newcap : Int) (a : Nat) : Nat :=
  (heap[a]?).elim 0 fun e => slotOf hf e.key newcap

/-- The bucket depends on the key stored, not on the link. -/
theorem idxAt_congr {newcap : Int} {a : Nat}
    (h : (heap'[a]?).map Entry.pair = (heap[a]?).map Entry.pair) :
    idxAt hf heap' newcap a = idxAt hf heap newcap a := by
  have hkey : (heap'[a]?).map Entry.key = (heap[a]?).map Entry.key := by
    have := congrArg (Option.map Prod.fst) h
    simpa [Option.map_map, Function.comp_def, Entry.pair] using this
  have hread : ∀ h : List (Entry K V),
      idxAt hf h newcap a = ((h[a]?).map Entry.key).elim 0 fun k => slotOf hf k newcap := by
    intro h
    unfold idxAt
    cases h[a]? <;> rfl
  rw [hread, hread, hkey]

/-- The loop of `ht_insert` ends at the last address of the chain. -/
theorem lastLoop_spec {fuel e a : Nat} (hc : Chain Entry.next heap (some e) (ps ++ [a]))
    (hfuel : (ps ++ [a]).length ≤ fuel) : lastLoop heap fuel e = some a := by
  induction ps generalizing e fuel with
  | nil =>
      obtain ⟨hea, entry, hentry, hend⟩ := Seg.cons_iff.mp hc
      obtain rfl := Option.some.inj hea
      obtain ⟨fuel, rfl, -⟩ := exists_fuel hfuel
      simp [lastLoop, hentry, Seg.nil_iff.mp hend]
  | cons b ps ih =>
      obtain ⟨heb, entry, hentry, hrest⟩ := Seg.cons_iff.mp hc
      obtain rfl := Option.some.inj heb
      obtain ⟨fuel, rfl, hfuel'⟩ := exists_fuel hfuel
      cases hnext : entry.next with
      | none =>
          -- a null pointer would end the chain before `a`
          rw [hnext] at hrest
          cases ps <;> exact absurd (Seg.cons_iff.mp hrest).1 (by simp)
      | some next =>
          rw [hnext] at hrest
          simpa [lastLoop, hentry, hnext] using ih hrest hfuel'

/-- A node that is in no chain is appended to one, and only that chain and the node are written. -/
theorem Linked.append_node (hl : Linked heap table chains) {i a : Nat} (p' : Option Nat)
    (hps : chains[i]? = some ps) (hout : a ∉ chains.flatten)
    (hc : Chain Entry.next heap' p' (ps ++ [a]))
    (hframe : ∀ b, b ≠ a → b ∉ ps → heap'[b]? = heap[b]?) :
    Linked heap' (table.set i p') (chains.set i (ps ++ [a])) := by
  refine hl.replace p' hps hc fun j qs hqs hij b hb => ?_
  have hbps : b ∉ ps := fun h => hij (hl.disjoint i j ps qs b hps hqs h hb)
  have hba : b ≠ a := by
    rintro rfl
    exact hout (List.mem_flatten.mpr ⟨qs, List.mem_of_getElem? hqs, hb⟩)
  refine ⟨fun h => ?_, hframe b hba hbps⟩
  rcases List.mem_append.mp h with h | h
  · exact hbps h
  · exact hba (List.mem_singleton.mp h)

/-- **`ht_insert`** moves the node at `a`, so far in no chain of the new array, to the end of its
chain there. Only links are written, at `a` and at addresses of the new chains. -/
theorem htInsert_spec {newcap : Int} {a i : Nat} {node : Entry K V} (hl : Linked heap table chains)
    (hnode : heap[a]? = some node) (hout : a ∉ chains.flatten)
    (hi : slotOf hf node.key newcap = i) (hslot : i < table.length) :
    ∃ (heap' : List (Entry K V)) (table' : List (Option Nat)),
      htInsert hf heap table newcap a = some (heap', table') ∧
      Linked heap' table' (chains.modify i (· ++ [a])) ∧
      (∀ b, b ≠ a → b ∉ chains.flatten → heap'[b]? = heap[b]?) ∧
      (∀ b : Nat, (heap'[b]?).map Entry.pair = (heap[b]?).map Entry.pair) := by
  obtain ⟨p, ps, hp, hps, hc⟩ := hl.exists_chain hslot
  have halt := (List.getElem?_eq_some_iff.mp hnode).1
  have hmem : ∀ b ∈ ps, b ∈ chains.flatten := fun b hb =>
    List.mem_flatten.mpr ⟨ps, List.mem_of_getElem? hps, hb⟩
  have haps : a ∉ ps := fun h => hout (hmem a h)
  set cleared := heap.set a { node with next := none } with hcleared
  have hclear_ne : ∀ b : Nat, b ≠ a → cleared[b]? = heap[b]? :=
    fun b hb => List.getElem?_set_ne (Ne.symm hb)
  have hclear_pair : ∀ b : Nat, (cleared[b]?).map Entry.pair = (heap[b]?).map Entry.pair :=
    pair_relink hnode none
  -- the chain does not see the cleared node, which is a chain of its own
  have hcc : Chain Entry.next cleared p ps := hc.set_of_notMem haps _
  have hend : Chain Entry.next cleared (some a) [a] :=
    Seg.cons_iff.mpr ⟨rfl, _, List.getElem?_set_self halt, Seg.nil_iff.mpr rfl⟩
  rw [modify_of_getElem? hps]
  cases p with
  | none =>
      obtain rfl : ps = [] := Chain.unique hc (.nil none)
      refine ⟨cleared, table.set i (some a), ?_, ?_, fun b hb _ => hclear_ne b hb, hclear_pair⟩
      · simp [htInsert, hnode, hi, hp, hcleared]
      · exact hl.append_node (some a) hps hout hend fun b hb _ => hclear_ne b hb
  | some e =>
      obtain ⟨init, l, rfl⟩ := hc.eq_concat
      have hllast : l ∈ init ++ [l] := List.mem_append_right init List.mem_cons_self
      obtain ⟨lastNode, hlast⟩ := hcc.isSome_of_mem hllast
      have hla : l ≠ a := fun h => haps (h ▸ hllast)
      have hframe : ∀ b, b ≠ a → b ∉ init ++ [l] →
          (cleared.set l { lastNode with next := some a })[b]? = heap[b]? := by
        intro b hba hb
        have hlb : l ≠ b := fun h => hb (h ▸ hllast)
        rw [List.getElem?_set_ne hlb, hclear_ne b hba]
      have hlinked := hl.append_node (some e) hps hout
        (Seg.append_iff.mpr ⟨some a, hcc.relink hcc.notMem_of_concat rfl,
          hend.set_of_notMem (mt List.mem_singleton.mp hla) _⟩) hframe
      rw [set_of_getElem? hp] at hlinked
      refine ⟨_, table, ?_, hlinked, fun b hba hb => hframe b hba fun h => hb (hmem b h), ?_⟩
      · have hrun := lastLoop_spec hcc hcc.length_le
        simp only [htInsert, hnode, hi, hp, Option.bind_eq_bind, Option.bind_some, ← hcleared, hrun,
          hlast]
      · exact fun b => (pair_relink hlast _ b).trans (hclear_pair b)

/-- Append each address to the chain of its index. -/
def spread (idx : Nat → Nat) (chains : List (List Nat)) (ps : List Nat) : List (List Nat) :=
  ps.foldl (fun chains a => chains.modify (idx a) (· ++ [a])) chains

@[simp] theorem spread_nil (idx : Nat → Nat) : spread idx chains [] = chains := rfl

@[simp] theorem spread_cons (idx : Nat → Nat) (a : Nat) :
    spread idx chains (a :: ps) = spread idx (chains.modify (idx a) (· ++ [a])) ps := rfl

@[simp] theorem spread_append (idx : Nat → Nat) :
    spread idx chains (ps ++ qs) = spread idx (spread idx chains ps) qs :=
  List.foldl_append ..

@[simp] theorem length_spread (idx : Nat → Nat) : (spread idx chains ps).length = chains.length := by
  induction ps generalizing chains with
  | nil => rfl
  | cons a ps ih => rw [spread_cons, ih, List.length_modify]

/-- An appended address is new or was there. -/
theorem mem_flatten_modify {i a b : Nat} (h : b ∈ (chains.modify i (· ++ [a])).flatten) :
    b = a ∨ b ∈ chains.flatten := by
  obtain ⟨qs, hqs, hb⟩ := List.mem_flatten.mp h
  obtain ⟨j, hj⟩ := List.mem_iff_getElem?.mp hqs
  rw [List.getElem?_modify] at hj
  obtain ⟨rs, hrs, rfl⟩ := Option.map_eq_some_iff.mp hj
  have hmem : ∀ c ∈ rs, c ∈ chains.flatten := fun c hc =>
    List.mem_flatten.mpr ⟨rs, List.mem_of_getElem? hrs, hc⟩
  split_ifs at hb
  · rcases List.mem_append.mp hb with hb | hb
    · exact .inr (hmem b hb)
    · exact .inl (List.mem_singleton.mp hb)
  · exact .inr (hmem b hb)

/-- The addresses after spreading were there or are spread. -/
theorem mem_flatten_spread {idx : Nat → Nat} {b : Nat} (h : b ∈ (spread idx chains ps).flatten) :
    b ∈ ps ∨ b ∈ chains.flatten := by
  induction ps generalizing chains with
  | nil => exact .inr h
  | cons a ps ih =>
      rcases ih h with hb | hb
      · exact .inl (List.mem_cons_of_mem a hb)
      · rcases mem_flatten_modify hb with rfl | hb
        · exact .inl List.mem_cons_self
        · exact .inr hb

/-- **The inner loop of `grow_table`** spreads the chain it walks over the new chains. -/
theorem growChain_spec {newcap : Int} {fuel : Nat} {e : Option Nat}
    (hc : Chain Entry.next heap e ps) (hl : Linked heap table chains)
    (hout : ∀ a ∈ ps, a ∉ chains.flatten)
    (hslot : ∀ a ∈ ps, idxAt hf heap newcap a < table.length) (hfuel : ps.length ≤ fuel) :
    ∃ (heap' : List (Entry K V)) (table' : List (Option Nat)),
      growChain hf newcap fuel e (heap, table) = some (heap', table') ∧
      Linked heap' table' (spread (idxAt hf heap newcap) chains ps) ∧
      (∀ b, b ∉ ps → b ∉ chains.flatten → heap'[b]? = heap[b]?) ∧
      (∀ b : Nat, (heap'[b]?).map Entry.pair = (heap[b]?).map Entry.pair) := by
  induction ps generalizing heap table chains fuel e with
  | nil =>
      rw [Chain, Seg.nil_iff] at hc
      subst hc
      refine ⟨heap, table, ?_, hl, fun _ _ _ => rfl, fun _ => rfl⟩
      cases fuel <;> rfl
  | cons a ps ih =>
      have hnd := hc.nodup
      rw [List.nodup_cons] at hnd
      obtain ⟨rfl, node, hnode, hc'⟩ := Seg.cons_iff.mp hc
      obtain ⟨fuel, rfl, hfuel'⟩ := exists_fuel hfuel
      obtain ⟨i, hi⟩ : ∃ i, idxAt hf heap newcap a = i := ⟨_, rfl⟩
      have hi' : slotOf hf node.key newcap = i := by rw [← hi, idxAt, hnode, Option.elim_some]
      have halt := hslot a List.mem_cons_self
      rw [hi] at halt
      obtain ⟨heap₁, table₁, hrun, hl₁, hframe₁, hpair₁⟩ :=
        htInsert_spec hl hnode (hout a List.mem_cons_self) hi' halt
      -- the rest of the old chain is not touched by the insertion
      have hrest : ∀ b ∈ ps, heap₁[b]? = heap[b]? := fun b hb =>
        hframe₁ b (fun h => hnd.1 (h ▸ hb)) (hout b (List.mem_cons_of_mem a hb))
      have hidx : idxAt hf heap₁ newcap = idxAt hf heap newcap :=
        funext fun b => idxAt_congr (hpair₁ b)
      have hlen : table₁.length = table.length := by
        rw [hl₁.length_eq, List.length_modify, hl.length_eq]
      obtain ⟨heap₂, table₂, hrun₂, hl₂, hframe₂, hpair₂⟩ :=
        ih (hc'.frame fun b hb => by rw [hrest b hb]) hl₁
          (by
            intro b hb hmem
            rcases mem_flatten_modify hmem with rfl | hmem
            · exact hnd.1 hb
            · exact hout b (List.mem_cons_of_mem a hb) hmem)
          (by
            intro b hb
            rw [hidx, hlen]
            exact hslot b (List.mem_cons_of_mem a hb))
          hfuel'
      refine ⟨heap₂, table₂, ?_, ?_, ?_, ?_⟩
      · simp only [growChain, hnode, hrun, hrun₂, Option.bind_eq_bind, Option.bind_some]
      · rwa [hidx, ← hi] at hl₂
      · intro b hb hbout
        have hba : b ≠ a := fun h => hb (h ▸ List.mem_cons_self)
        rw [hframe₂ b (fun h => hb (List.mem_cons_of_mem a h)), hframe₁ b hba hbout]
        intro h
        exact (mem_flatten_modify h).elim hba hbout
      · intro b
        rw [hpair₂ b, hpair₁ b]

/-- **The outer loop of `grow_table`** spreads the old chains, slot after slot. -/
theorem growSlots_spec {newcap : Int} {slots : List (Option Nat)} {old : List (List Nat)}
    (hold : List.Forall₂ (Chain Entry.next heap) slots old) (hnd : old.flatten.Nodup)
    (hl : Linked heap table chains) (hout : ∀ a ∈ old.flatten, a ∉ chains.flatten)
    (hslot : ∀ a ∈ old.flatten, idxAt hf heap newcap a < table.length) :
    ∃ (heap' : List (Entry K V)) (table' : List (Option Nat)),
      growSlots hf newcap slots (heap, table) = some (heap', table') ∧
      Linked heap' table' (spread (idxAt hf heap newcap) chains old.flatten) ∧
      (∀ b, b ∉ old.flatten → b ∉ chains.flatten → heap'[b]? = heap[b]?) ∧
      (∀ b : Nat, (heap'[b]?).map Entry.pair = (heap[b]?).map Entry.pair) := by
  induction old generalizing slots heap table chains with
  | nil =>
      obtain rfl := List.forall₂_nil_right_iff.mp hold
      exact ⟨heap, table, rfl, hl, fun _ _ _ => rfl, fun _ => rfl⟩
  | cons ps old ih =>
      obtain ⟨e, slots, hc, hold', rfl⟩ := List.forall₂_cons_right_iff.mp hold
      rw [List.flatten_cons] at hnd hout hslot
      obtain ⟨_, hndo, hsep⟩ := List.nodup_append.mp hnd
      obtain ⟨heap₁, table₁, hrun, hl₁, hframe₁, hpair₁⟩ :=
        growChain_spec hc hl (fun a ha => hout a (List.mem_append_left _ ha))
          (fun a ha => hslot a (List.mem_append_left _ ha)) hc.length_le
      -- the chains of the other slots are not touched
      have hrest : ∀ a ∈ old.flatten, heap₁[a]? = heap[a]? := fun a ha =>
        hframe₁ a (fun h => hsep a h a ha rfl) (hout a (List.mem_append_right _ ha))
      have hold₁ : List.Forall₂ (Chain Entry.next heap₁) slots old := by
        rw [List.forall₂_iff_get] at hold' ⊢
        refine ⟨hold'.1, fun i hi hi' => (hold'.2 i hi hi').frame fun a ha => ?_⟩
        rw [hrest a (List.mem_flatten.mpr ⟨_, List.get_mem _ _, ha⟩)]
      have hidx : idxAt hf heap₁ newcap = idxAt hf heap newcap :=
        funext fun b => idxAt_congr (hpair₁ b)
      have hlen : table₁.length = table.length := by
        rw [hl₁.length_eq, length_spread, hl.length_eq]
      obtain ⟨heap₂, table₂, hrun₂, hl₂, hframe₂, hpair₂⟩ :=
        ih hold₁ hndo hl₁
          (by
            intro a ha hmem
            rcases mem_flatten_spread hmem with h | h
            · exact hsep a h a ha rfl
            · exact hout a (List.mem_append_right _ ha) h)
          (by
            intro a ha
            rw [hidx, hlen]
            exact hslot a (List.mem_append_right _ ha))
      refine ⟨heap₂, table₂, ?_, ?_, fun b hb hbout => ?_, fun b => (hpair₂ b).trans (hpair₁ b)⟩
      · simp only [growSlots, hrun, hrun₂, Option.bind_eq_bind, Option.bind_some]
      · rwa [hidx, ← spread_append, ← List.flatten_cons] at hl₂
      · rw [List.flatten_cons, List.mem_append, not_or] at hb
        rw [hframe₂ b hb.2 fun h => (mem_flatten_spread h).elim hb.1 hbout, hframe₁ b hb.1 hbout]

/-- The chains start one after the other at the slots. -/
theorem Linked.forall₂ (hl : Linked heap table chains) :
    List.Forall₂ (Chain Entry.next heap) table chains := by
  rw [List.forall₂_iff_get]
  refine ⟨hl.length_eq, fun i hi hi' => ?_⟩
  exact hl.chain i _ _ (List.getElem?_eq_getElem hi) (List.getElem?_eq_getElem hi')

/-- Reading the addresses of one index is selecting the pairs read by index. -/
theorem pairsAt_filter {newcap : Int} {j : Nat} (hps : ∀ a ∈ ps, a < heap.length) :
    pairsAt heap (ps.filter fun a => idxAt hf heap newcap a = j) =
      (pairsAt heap ps).filter fun e => slotOf hf e.1 newcap = j := by
  induction ps with
  | nil => rfl
  | cons a ps ih =>
      have hlt := hps a List.mem_cons_self
      have hnode := List.getElem?_eq_getElem hlt
      have hidx : idxAt hf heap newcap a = slotOf hf heap[a].key newcap := by
        rw [idxAt, hnode, Option.elim_some]
      have hrec := ih fun b hb => hps b (List.mem_cons_of_mem a hb)
      rw [pairsAt_cons hnode, List.filter_cons, List.filter_cons, ← hrec, hidx]
      by_cases h : slotOf hf heap[a].key newcap = j
      · have hpair : slotOf hf (Entry.pair heap[a]).1 newcap = j := h
        rw [if_pos (decide_eq_true h), if_pos (decide_eq_true hpair), pairsAt_cons hnode]
      · have hpair : ¬ slotOf hf (Entry.pair heap[a]).1 newcap = j := h
        rw [if_neg (by rwa [decide_eq_true_iff]), if_neg (by rwa [decide_eq_true_iff])]

/-- Spreading over new chains reads as distributing over new buckets. -/
theorem map_spread_replicate {newcap n : Nat} (hps : ∀ a ∈ ps, a < heap.length) :
    (spread (idxAt hf heap newcap) (List.replicate n []) ps).map (pairsAt heap) =
      distribute (fun e => bucketIndex hf e.1 newcap) n (pairsAt heap ps) := by
  apply List.ext_getElem?
  intro j
  have hspread : spread (idxAt hf heap newcap) (List.replicate n []) ps =
      distribute (idxAt hf heap newcap) n ps := rfl
  rw [List.getElem?_map, hspread, getElem?_distribute, getElem?_distribute]
  split_ifs with hj
  · rw [Option.map_some, pairsAt_filter hps]
  · rfl

/-- Empty slots start empty chains. -/
theorem Linked.replicate (heap : List (Entry K V)) (n : Nat) :
    Linked heap (List.replicate n none) (List.replicate n []) := by
  refine ⟨by simp, fun i p ps hp hps => ?_, fun i j ps qs a hps _ ha => ?_⟩
  · obtain rfl := (List.mem_replicate.mp (List.mem_of_getElem? hp)).2
    obtain rfl := (List.mem_replicate.mp (List.mem_of_getElem? hps)).2
    exact .nil none
  · obtain rfl := (List.mem_replicate.mp (List.mem_of_getElem? hps)).2
    exact absurd ha List.not_mem_nil

/-- The doubled capacity is twice the number of slots. -/
theorem two_mul_cap (hcap : (ht.table.length : Int) = ht.cap) :
    2 * ht.cap = ((2 * ht.table.length : Nat) : Int) := by
  rw [← hcap]
  push_cast
  rfl

/-- Where there is an entry there is a slot, and in an array that is no smaller there is one for it. -/
theorem Linked.idxAt_lt (hl : Linked heap table chains) {a n : Nat} (ha : a ∈ chains.flatten)
    (hle : table.length ≤ n) : idxAt hf heap n a < n := by
  obtain ⟨ps, hps, -⟩ := List.mem_flatten.mp ha
  have hpos : 0 < table.length := by
    rw [hl.length_eq]
    exact List.length_pos_of_mem hps
  rw [idxAt, List.getElem?_eq_getElem (hl.lt_of_mem_flatten ha), Option.elim_some]
  exact slotOf_lt (lt_of_lt_of_le hpos hle)

/-- **`grow_table`** spreads the chains over the slots of an array of twice the size, as long as the
doubled capacity is an `int`. Only links are written, and only of the entries of the table. -/
theorem growTable_linked (hl : Linked ht.heap ht.table chains) (hcap : (ht.table.length : Int) = ht.cap)
    (hmax : 2 * ht.cap ≤ intMax) :
    ∃ (heap' : List (Entry K V)) (table' : List (Option Nat)),
      growTable ht = some { ht with cap := 2 * ht.cap, table := table', heap := heap' } ∧
      Linked heap' table' (spread (idxAt ht.hashFunc ht.heap (2 * ht.cap))
        (List.replicate (2 * ht.table.length) []) chains.flatten) ∧
      (∀ b, b ∉ chains.flatten → heap'[b]? = ht.heap[b]?) ∧
      (∀ b : Nat, (heap'[b]?).map Entry.pair = (ht.heap[b]?).map Entry.pair) := by
  have hdouble := two_mul_cap hcap
  have hnewcap : wrap32 (ht.cap * 2) = 2 * ht.cap := by
    rw [mul_comm, hdouble]
    exact wrap32_natCast (hdouble ▸ hmax)
  have hcalloc : callocTable (2 * ht.cap) = some (List.replicate (2 * ht.table.length) none) := by
    rw [hdouble, callocTable, if_neg (not_lt.mpr (Int.natCast_nonneg _)), Int.toNat_natCast]
  have htake : ht.table.take ht.cap.toNat = ht.table := by
    refine List.take_of_length_le ?_
    rw [← hcap, Int.toNat_natCast]
  have hempty : ∀ a, a ∉ (List.replicate (2 * ht.table.length) ([] : List Nat)).flatten := by
    intro a ha
    simp at ha
  have hslot : ∀ a ∈ chains.flatten, idxAt ht.hashFunc ht.heap (2 * ht.cap) a <
      (List.replicate (2 * ht.table.length) (none : Option Nat)).length := by
    intro a ha
    rw [List.length_replicate, hdouble]
    exact hl.idxAt_lt ha (Nat.le_mul_of_pos_left _ Nat.two_pos)
  obtain ⟨heap', table', hrun, hl', hframe, hpair⟩ :=
    growSlots_spec hl.forall₂ hl.nodup_flatten (.replicate _ (2 * ht.table.length))
      (fun a _ => hempty a) hslot
  refine ⟨heap', table', ?_, hl', fun b hb => hframe b hb (hempty b), hpair⟩
  simp only [growTable, hnewcap, hcalloc, htake, hrun, Option.bind_eq_bind, Option.bind_some]

/-- A capacity that cannot double makes the allocation fail. -/
theorem growTable_eq_none (hfits : ht.cap ≤ intMax) (hmax : ¬ 2 * ht.cap ≤ intMax) :
    growTable ht = none := by
  have hneg : wrap32 (ht.cap * 2) < 0 := by
    unfold intMax at hfits hmax
    unfold wrap32
    split_ifs <;> omega
  simp only [growTable, callocTable, if_pos hneg, Option.bind_eq_bind, Option.bind_none]

/-- **`grow_table`** is the growth of the table, as long as the doubled capacity is an `int`. -/
theorem growTable_spec (hr : Repr hf cf ht t) (hw : t.WF hf cf) (hcap : 2 * (t.cap : Int) ≤ intMax) :
    ∃ ht', growTable ht = some ht' ∧ Repr hf cf ht' (t.grow hf) := by
  obtain ⟨chains, hl, hb⟩ := hr.linked
  have hlen : ht.table.length = t.cap := by
    rw [hl.length_eq, ← hw.length_buckets, hb, List.length_map]
  have hlt : ∀ a ∈ chains.flatten, a < ht.heap.length := fun a ha => hl.lt_of_mem_flatten ha
  obtain ⟨heap', table', hrun, hl', -, hpair⟩ :=
    growTable_linked hl (by rw [hlen, hr.cap_eq]) (by rwa [hr.cap_eq])
  have hdouble : 2 * ht.cap = ((t.cap * 2 : Nat) : Int) := by
    rw [hr.cap_eq]
    push_cast
    ring
  rw [hlen, hdouble, hr.hashFunc_eq, Nat.mul_comm 2] at hl'
  refine ⟨_, hrun, ?_⟩
  constructor
  case size_eq => exact hr.size_eq
  case cap_eq => rw [Table.grow, hdouble]
  case cap_fits =>
    rw [Table.grow]
    exact fitsInt_natCast (by push_cast; omega)
  case hashFunc_eq => exact hr.hashFunc_eq
  case cmpFunc_eq => exact hr.cmpFunc_eq
  case linked =>
    refine ⟨_, hl', ?_⟩
    have hread : pairsAt ht.heap chains.flatten = t.entries := by
      rw [Table.entries, hb, flatten_map_pairsAt]
    have hmap : ∀ L : List (List Nat), L.map (pairsAt heap') = L.map (pairsAt ht.heap) :=
      fun L => List.map_congr_left fun ps _ => pairsAt_congr fun a _ => hpair a
    rw [Table.grow, hmap, map_spread_replicate hlt, hread]

/-- `hashtable_put` grows if it has to, counts, and puts. -/
theorem hashtablePut_eq (ht : HashtableT K V) (key : K) (val : V) :
    hashtablePut ht key val =
      (if 3 * ht.cap ≤ 4 * ht.size then growTable ht else some ht).bind fun ht =>
        putEntry { ht with size := wrap32 (ht.size + 1) } key val := by
  unfold hashtablePut
  split_ifs <;> rfl

/-- **`hashtable_put` is the insertion into the table it represents**, as long as the capacity it
grows to is an `int`. -/
theorem hashtablePut_spec (hk : LawfulKeys hf cf) (hr : Repr hf cf ht t) (hw : t.WF hf cf)
    (key : K) (val : V) (hcap : t.Full → 2 * (t.cap : Int) ≤ intMax) :
    ∃ ht', hashtablePut ht key val = some (putCode (t.get hf cf key), ht') ∧
      Repr hf cf ht' (t.put hf cf key val) := by
  obtain ⟨ht₁, hroom, hr₁⟩ : ∃ ht₁,
      (if 3 * ht.cap ≤ 4 * ht.size then growTable ht else some ht) = some ht₁ ∧
        Repr hf cf ht₁ (t.room hf) := by
    rw [hr.cap_eq, hr.size_eq, Table.room]
    split_ifs with hfull hfull' hfull'
    · exact growTable_spec hr hw (hcap hfull)
    · exact absurd hfull hfull'
    · exact absurd hfull' hfull
    · exact ⟨ht, rfl, hr⟩
  have hw₁ := hw.room hk
  obtain ⟨ht', hrun, hr'⟩ := putEntry_spec (hr₁.setSize (wrap32 (t.size + 1)))
    (hw₁.setSize (wrap32 (t.size + 1))) key val
  have hget : ({ t.room hf with size := wrap32 (t.size + 1) } : Table K V).get hf cf key =
      t.get hf cf key := hw.get_room hk key
  rw [hget] at hrun
  refine ⟨ht', ?_, hr'⟩
  rw [hashtablePut_eq, hroom, Option.bind_some, hr₁.size_eq, Table.size_room, hrun]

/-- A put that has to grow past the largest `int` fails. -/
theorem hashtablePut_eq_none (hr : Repr hf cf ht t) (key : K) (val : V) (hfull : t.Full)
    (hcap : ¬ 2 * (t.cap : Int) ≤ intMax) : hashtablePut ht key val = none := by
  have hif : 3 * ht.cap ≤ 4 * ht.size := by
    rw [hr.cap_eq, hr.size_eq]
    exact hfull
  rw [hashtablePut_eq, if_pos hif, growTable_eq_none (hr.cap_eq ▸ hr.cap_fits.2) (hr.cap_eq ▸ hcap), Option.bind_none]

/-- The fresh table represents the empty one. -/
theorem Repr.init (hf : K → UInt32) (cf : K → K → Int) :
    Repr hf cf (hashtableInit hf cf : HashtableT K V) Table.init where
  size_eq := rfl
  cap_eq := rfl
  cap_fits := by norm_num [Table.init, FitsInt, intMin, intMax]
  hashFunc_eq := rfl
  cmpFunc_eq := rfl
  linked := ⟨List.replicate 16 [], .replicate [] 16, by rw [List.map_replicate]; rfl⟩

/-! ## Iterating -/

/-- The iterator still has to deliver the entries at `as`: the rest of a chain, then the chains of
the slots from `index` on. It stands on an entry as long as there is one. -/
def IterAt (ht : HashtableT K V) (chains : List (List Nat)) (iter : HashtableIter)
    (as : List Nat) : Prop :=
  ∃ ps, Chain Entry.next ht.heap iter.next ps ∧ as = ps ++ (chains.drop iter.index).flatten ∧
    (iter.next = none → as = [])

/-- The iterator has a next entry as long as there is one to deliver. -/
theorem IterAt.hasNext_iff {iter : HashtableIter} {as : List Nat} (h : IterAt ht chains iter as) :
    hashtableIterHasNext iter = true ↔ as ≠ [] := by
  obtain ⟨ps, hc, has, hend⟩ := h
  rw [hashtableIterHasNext]
  cases hnext : iter.next with
  | none => simp [hend hnext]
  | some e =>
      rw [hnext] at hc
      cases ps with
      | nil => exact absurd (Seg.nil_iff.mp hc) (by simp)
      | cons a ps => simp [has]

/-- The scan for a non-empty slot skips empty chains only. -/
theorem scanSlots_spec (hl : Linked ht.heap ht.table chains) (hcap : ht.cap = chains.length)
    (fuel index : Nat) (hfuel : chains.length < fuel + index) (hindex : index ≤ chains.length) :
    ∃ iter, scanSlots ht fuel index = some iter ∧
      IterAt ht chains iter (chains.drop index).flatten := by
  induction fuel generalizing index with
  | zero => omega
  | succ fuel ih =>
      rw [scanSlots, hcap]
      by_cases hlt : index < chains.length
      · rw [if_pos (by exact_mod_cast hlt)]
        obtain ⟨p, ps, hp, hps, hc⟩ := hl.exists_chain (hl.length_eq ▸ hlt)
        have hdrop : (chains.drop index).flatten = ps ++ (chains.drop (index + 1)).flatten := by
          rw [List.drop_eq_getElem_cons hlt, List.flatten_cons]
          rw [List.getElem?_eq_getElem hlt] at hps
          rw [Option.some.inj hps]
        simp only [hp, Option.bind_eq_bind, Option.bind_some]
        cases p with
        | none =>
            obtain rfl : ps = [] := Chain.unique hc (.nil none)
            rw [hdrop]
            exact ih (index + 1) (by omega) hlt
        | some e => exact ⟨⟨index + 1, some e⟩, rfl, ps, hc, hdrop, by simp⟩
      · rw [if_neg (by exact_mod_cast hlt), List.drop_eq_nil_of_le (by omega)]
        exact ⟨⟨index, none⟩, rfl, [], .nil none, by simp [List.drop_eq_nil_of_le (not_lt.mp hlt)],
          fun _ => rfl⟩

/-- `hashtable_iter_next` delivers the first remaining entry. -/
theorem IterAt.iterNext (hl : Linked ht.heap ht.table chains) (hcap : ht.cap = chains.length)
    {iter : HashtableIter} {a : Nat} {as : List Nat} (h : IterAt ht chains iter (a :: as)) :
    ∃ entry iter', ht.heap[a]? = some entry ∧
      hashtableIterNext ht iter = some (some entry.pair, iter') ∧ IterAt ht chains iter' as := by
  obtain ⟨ps, hc, has, hend⟩ := h
  cases hnext : iter.next with
  | none => exact absurd (hend hnext) (by simp)
  | some e =>
      rw [hnext] at hc
      cases ps with
      | nil => exact absurd (Seg.nil_iff.mp hc) (by simp)
      | cons b ps =>
          obtain ⟨rfl, rfl⟩ := List.cons.inj has
          obtain ⟨heb, entry, hentry, hrest⟩ := Seg.cons_iff.mp hc
          obtain rfl := Option.some.inj heb
          cases hnext' : entry.next with
          | none =>
              rw [hnext'] at hrest
              obtain rfl : ps = [] := Chain.unique hrest (.nil none)
              by_cases hindex : iter.index ≤ chains.length
              · obtain ⟨iter', hscan, hat⟩ := scanSlots_spec hl hcap
                  (ht.cap.toNat + 1) iter.index (by omega) hindex
                refine ⟨entry, iter', hentry, ?_, hat⟩
                simp only [hashtableIterNext, hnext, hentry, hnext', hscan, Option.bind_eq_bind,
                  Option.bind_some, Entry.pair]
              · refine ⟨entry, ⟨iter.index, none⟩, hentry, ?_, [], .nil none, rfl, fun _ => ?_⟩
                · have hpast : ¬ (iter.index : Int) < ht.cap := by omega
                  simp only [hashtableIterNext, hnext, hentry, hnext', scanSlots, if_neg hpast,
                    Option.bind_eq_bind, Option.bind_some, Entry.pair]
                · rw [List.drop_eq_nil_of_le (by omega)]
                  rfl
          | some next =>
              refine ⟨entry, { iter with next := some next }, hentry, ?_, ps, ?_, rfl, by simp⟩
              · simp only [hashtableIterNext, hnext, hentry, hnext', Option.bind_eq_bind,
                  Option.bind_some, Entry.pair]
              · rwa [hnext'] at hrest

/-- The iteration delivers the remaining entries in order. -/
theorem IterAt.iterLoop (hl : Linked ht.heap ht.table chains) (hcap : ht.cap = chains.length)
    {as : List Nat} {fuel : Nat} {iter : HashtableIter} (h : IterAt ht chains iter as)
    (hfuel : as.length ≤ fuel) : iterLoop ht fuel iter = some (pairsAt ht.heap as) := by
  induction as generalizing fuel iter with
  | nil =>
      have hno : hashtableIterHasNext iter = false := by
        rw [Bool.eq_false_iff, Ne, h.hasNext_iff]
        simp
      cases fuel <;> simp [Hashtable.iterLoop, hno]
  | cons a as ih =>
      obtain ⟨fuel, rfl, hfuel'⟩ := exists_fuel hfuel
      have hyes : hashtableIterHasNext iter = true := h.hasNext_iff.mpr (by simp)
      obtain ⟨entry, iter', hentry, hnext, h'⟩ := h.iterNext hl hcap
      rw [pairsAt_cons hentry]
      simp only [Hashtable.iterLoop, hyes, if_true, hnext, ih h' hfuel',
        Option.bind_eq_bind, Option.bind_some, Option.toList_some, List.singleton_append]

/-- The array has one chain for each unit of capacity. -/
theorem Repr.cap_eq_length (hr : Repr hf cf ht t) (hw : t.WF hf cf)
    (hb : t.buckets = chains.map (pairsAt ht.heap)) : ht.cap = chains.length := by
  rw [hr.cap_eq, ← hw.length_buckets, hb, List.length_map]

/-- **A full iteration delivers the entries of the table, bucket by bucket.** -/
theorem iterate_spec (hr : Repr hf cf ht t) (hw : t.WF hf cf) : iterate ht = some t.entries := by
  obtain ⟨chains, hl, hb⟩ := hr.linked
  have hcap := hr.cap_eq_length hw hb
  obtain ⟨iter, hscan, hat⟩ := scanSlots_spec hl hcap (ht.cap.toNat + 1) 0
    (by omega) (Nat.zero_le _)
  have hloop := hat.iterLoop hl hcap hl.length_flatten_le
  rw [List.drop_zero, ← flatten_map_pairsAt, ← hb] at hloop
  simp only [iterate, hashtableIterator, hscan, Option.bind_eq_bind, Option.bind_some]
  exact hloop

end Flood.Hashtable
