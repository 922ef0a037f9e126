import Flood.Lib.Assoc
import Flood.Lib.Word
import Mathlib.Data.List.Flatten
import Mathlib.Data.List.Basic
import Mathlib.Algebra.BigOperators.Group.List.Basic

/-!
# The hash table as an array of chains

`hashtable.c` with the pointers abstracted away: a bucket is the list of its `(key, value)` pairs
in chain order. `Hashtable/Memory.lean` has the source's pointer code and `Hashtable/Refine.lean`
shows that it computes these operations.

* `hashFunction`, `bucketIndex` — the bucket of a key, for hashes that are negative as `int` too.
* `Table.get`, `Table.put`, `Table.remove`, `Table.grow` — the operations. `size` is the counter
  of the source, which is *not* the number of entries in general.
* `Table.WF` — the invariant: every entry sits in the bucket of its key, and no bucket holds two
  entries whose keys compare equal. The operations keep it (`Table.WF.put`, `.remove`, `.grow`).
* `Table.get_put`, `Table.get_remove`, `Table.get_grow` — the table is a finite map.
* `Table.length_entries_put`, `Table.length_entries_remove` — how the number of entries changes.
-/

namespace Flood.Hashtable

open Flood.Lib

variable {K V W : Type}

/-! ## Bucket indices -/

/-- The bucket of a hash in a table of the given size.
Source: `hashtable.c`, `hash_function` -/
def hashFunction (hash tablesize : Int) : Int :=
  let ret := hash.tmod tablesize
  if ret < 0 then ret * -1 else ret

/-- The bucket index is within the table, also for negative hashes. -/
theorem hashFunction_mem (hash : Int) {tablesize : Int} (h : 0 < tablesize) :
    0 ≤ hashFunction hash tablesize ∧ hashFunction hash tablesize < tablesize := by
  have hlt := Int.tmod_lt_of_pos hash h
  have hgt := Int.lt_tmod_of_pos hash h
  simp only [hashFunction]
  split_ifs with hneg <;> omega

/-- The hash and comparison functions of a table fit together: comparing equal is an equivalence,
and keys that compare equal have equal hashes. -/
structure LawfulKeys (hf : K → UInt32) (cf : K → K → Int) : Prop extends KeyEquiv cf where
  /-- Keys that compare equal hash alike. -/
  hash : ∀ {a b}, cf a b = 0 → hf a = hf b

/-- The slot of a key in an array of the given size: `hash_function(ht->hash_func(key), size)`. -/
def slotOf (hf : K → UInt32) (key : K) (size : Int) : Nat :=
  (hashFunction (intOfUInt (hf key)) size).toNat

/-- A key's slot exists. -/
theorem slotOf_lt {hf : K → UInt32} {k : K} {cap : Nat} (h : 0 < cap) : slotOf hf k cap < cap := by
  have := hashFunction_mem (intOfUInt (hf k)) (by omega : (0 : Int) < cap)
  unfold slotOf
  omega

/-- Keys that hash alike share their slot. -/
theorem slotOf_congr {K' : Type} {hf : K → UInt32} {hf' : K' → UInt32} {a : K} {b : K'}
    (h : hf a = hf' b) (size : Int) : slotOf hf a size = slotOf hf' b size := by
  unfold slotOf
  rw [h]

-- Unfolded, the slot makes the elaborator compute with 32-bit literals.
attribute [irreducible] slotOf

/-- The bucket of a key in a table with `cap` buckets. -/
abbrev bucketIndex (hf : K → UInt32) (k : K) (cap : Nat) : Nat := slotOf hf k cap

/-- Keys that compare equal share their bucket. -/
theorem LawfulKeys.bucketIndex_eq {hf : K → UInt32} {cf : K → K → Int} (hk : LawfulKeys hf cf)
    {a b : K} (h : cf a b = 0) (cap : Nat) : bucketIndex hf a cap = bucketIndex hf b cap := by
  exact slotOf_congr (hk.hash h) cap

/-! ## Distributing over chains -/

section Distribute

variable {α : Type}

/-- Where every element of chain `j` has index `off + j`, the elements of index `off + i` are, in
order, chain `i`. The list of chains may start at any bucket `off`, for the induction. -/
theorem filter_flatten (idx : α → Nat) (L : List (List α)) (off i : Nat)
    (hL : ∀ j b, L[j]? = some b → ∀ e ∈ b, idx e = off + j) :
    L.flatten.filter (fun e => idx e = off + i) = L.getD i [] := by
  induction L generalizing off i with
  | nil => rfl
  | cons b L ih =>
      have hb : ∀ e ∈ b, idx e = off := fun e he => hL 0 b rfl e he
      have htail : ∀ j b', L[j]? = some b' → ∀ e ∈ b', idx e = (off + 1) + j :=
        fun j b' hj e he => (hL (j + 1) b' hj e he).trans (by omega)
      rw [List.flatten_cons, List.filter_append]
      cases i with
      | zero =>
          have hnone : L.flatten.filter (fun e => idx e = off + 0) = [] := by
            rw [List.filter_eq_nil_iff]
            intro e he
            obtain ⟨b', hb', he'⟩ := List.mem_flatten.mp he
            obtain ⟨j, hj⟩ := List.mem_iff_getElem?.mp hb'
            have := htail j b' hj e he'
            simp only [decide_eq_true_eq]
            omega
          rw [hnone, List.append_nil, List.getD_cons_zero, List.filter_eq_self]
          intro e he
          simp [hb e he]
      | succ i =>
          have hnone : b.filter (fun e => idx e = off + (i + 1)) = [] := by
            rw [List.filter_eq_nil_iff]
            intro e he
            simp only [decide_eq_true_eq, hb e he]
            omega
          have := ih (off + 1) i htail
          rw [hnone, List.nil_append, List.getD_cons_succ, ← this]
          refine List.filter_congr fun e _ => ?_
          rw [show off + 1 + i = off + (i + 1) by omega]

/-- The elements after replacing one of a list of chains: the others stay. -/
theorem exists_flatten_modify {L : List (List α)} {i : Nat} {b : List α} (hb : L[i]? = some b) :
    ∃ others, L.flatten.Perm (b ++ others) ∧
      ∀ f : List α → List α, (L.modify i f).flatten.Perm (f b ++ others) := by
  obtain ⟨hlt, hget⟩ := List.getElem?_eq_some_iff.mp hb
  refine ⟨(L.take i).flatten ++ (L.drop (i + 1)).flatten, ?_, ?_⟩
  · have hsplit := List.take_append_drop i L
    rw [List.drop_eq_getElem_cons hlt, hget] at hsplit
    rw [← hsplit, List.flatten_append, List.flatten_cons, hsplit]
    exact List.perm_append_comm_assoc _ _ _
  · intro f
    rw [List.modify_eq_take_cons_drop hlt, hget, List.flatten_append, List.flatten_cons]
    exact List.perm_append_comm_assoc _ _ _

/-- Distribute elements over `cap` empty chains, appending each to the chain of its index. -/
def distribute (idx : α → Nat) (cap : Nat) (es : List α) : List (List α) :=
  es.foldl (fun bs e => bs.modify (idx e) (· ++ [e])) (List.replicate cap [])

variable {idx : α → Nat} {cap : Nat}

/-- The last element is distributed last. -/
theorem distribute_append_singleton (es : List α) (e : α) :
    distribute idx cap (es ++ [e]) = (distribute idx cap es).modify (idx e) (· ++ [e]) := by
  simp [distribute]

/-- Chain `j` of the distributed elements: those of index `j`, in their old order. -/
theorem getElem?_distribute (es : List α) (j : Nat) :
    (distribute idx cap es)[j]? =
      if j < cap then some (es.filter fun e => idx e = j) else none := by
  induction es using List.reverseRecOn with
  | nil => simp [distribute, List.getElem?_replicate]
  | append_singleton es e ih =>
      rw [distribute_append_singleton, List.getElem?_modify, ih]
      by_cases hj : j < cap <;> by_cases he : idx e = j
      all_goals simp [hj, he, List.filter_append]

/-- There are `cap` chains. -/
@[simp] theorem length_distribute (es : List α) : (distribute idx cap es).length = cap := by
  induction es using List.reverseRecOn with
  | nil => simp [distribute]
  | append_singleton es e ih => rw [distribute_append_singleton, List.length_modify, ih]

/-- Distributing loses nothing and adds nothing, if every index is one of a chain. -/
theorem distribute_flatten_perm {es : List α} (hidx : ∀ e ∈ es, idx e < cap) :
    (distribute idx cap es).flatten.Perm es := by
  induction es using List.reverseRecOn with
  | nil => simp [distribute]
  | append_singleton es e ih =>
      have ih := ih fun d hd => hidx d (List.mem_append_left [e] hd)
      have hlt : idx e < (distribute idx cap es).length := by simpa using hidx e (by simp)
      have hsplit := List.take_append_drop (idx e) (distribute idx cap es)
      rw [List.drop_eq_getElem_cons hlt] at hsplit
      rw [← hsplit] at ih
      rw [distribute_append_singleton, List.modify_eq_take_cons_drop hlt]
      simp only [List.flatten_append, List.flatten_cons, List.append_assoc] at ih ⊢
      refine List.Perm.trans ?_ (ih.append_right [e])
      simp only [List.append_assoc]
      exact (List.perm_append_comm.append_left _).append_left _

end Distribute

/-! ## The operations -/

/-- A hash table: the counter, the capacity and the chains. -/
structure Table (K V : Type) where
  /-- The `size` field. -/
  size : Int
  /-- The `cap` field. -/
  cap : Nat
  /-- The chain of each bucket, from its first node on. -/
  buckets : List (List (K × V))

namespace Table

/-- An empty table. -/
def init : Table K V := ⟨0, 16, List.replicate 16 []⟩

/-- All entries, in the order iteration delivers them: bucket by bucket, along each chain. -/
def entries (t : Table K V) : List (K × V) := t.buckets.flatten

variable (hf : K → UInt32) (cf : K → K → Int)

/-- The chain in which a key is looked for. -/
def bucket (t : Table K V) (k : K) : List (K × V) :=
  t.buckets.getD (bucketIndex hf k t.cap) []

/-- Look a key up in its chain. -/
def get (t : Table K V) (k : K) : Option V := lookup cf k (t.bucket hf k)

/-- Double the number of buckets. -/
def grow (t : Table K V) : Table K V :=
  { t with
    cap := t.cap * 2
    buckets := distribute (fun e => bucketIndex hf e.1 (t.cap * 2)) (t.cap * 2) t.entries }

/-- The counter has reached three quarters of the capacity. -/
def Full (t : Table K V) : Prop := 3 * (t.cap : Int) ≤ 4 * t.size

instance (t : Table K V) : Decidable t.Full := inferInstanceAs (Decidable (_ ≤ _))

/-- The table a put works on, after growing if the counter asks for it. -/
def room (t : Table K V) : Table K V := if t.Full then t.grow hf else t

/-- Rewrite the chain of a key and set the counter. -/
def update (t : Table K V) (k : K) (size : Int) (f : List (K × V) → List (K × V)) :
    Table K V :=
  { t with size := size, buckets := t.buckets.modify (bucketIndex hf k t.cap) f }

/-- Overwrite the value of a key, or append a new entry to its chain. -/
def put (t : Table K V) (k : K) (v : V) : Table K V :=
  (t.room hf).update hf k (wrap32 (t.size + 1)) (upsert cf k v)

/-- Unlink the entry of a key. -/
def remove (t : Table K V) (k : K) : Table K V :=
  t.update hf k (wrap32 (t.size - 1)) (erase cf k)

/-! ## The invariant -/

/-- The invariant of the chains. -/
structure WF (t : Table K V) : Prop where
  /-- There is a bucket. -/
  cap_pos : 0 < t.cap
  /-- The array has `cap` slots. -/
  length_buckets : t.buckets.length = t.cap
  /-- Every entry is in the bucket of its key. -/
  placed : ∀ i b, t.buckets[i]? = some b → ∀ e ∈ b, bucketIndex hf e.1 t.cap = i
  /-- No chain holds two entries with the same key. -/
  distinct : ∀ b ∈ t.buckets, Distinct cf b

variable {hf cf} {t : Table K V} {k k' : K} {v : V}

/-- A fresh table satisfies the invariant. -/
theorem WF.init : (Table.init : Table K V).WF hf cf where
  cap_pos := Nat.zero_lt_succ 15
  length_buckets := rfl
  placed i b hb e he := by
    have hmem := List.mem_of_getElem? hb
    rw [Table.init, List.mem_replicate] at hmem
    exact absurd (hmem.2 ▸ he) List.not_mem_nil
  distinct b hb := by
    rw [Table.init, List.mem_replicate] at hb
    exact hb.2 ▸ List.Pairwise.nil

/-- The slot of a key holds its chain. -/
theorem WF.getElem?_bucket (h : t.WF hf cf) (k : K) :
    t.buckets[bucketIndex hf k t.cap]? = some (t.bucket hf k) := by
  have hlt : bucketIndex hf k t.cap < t.buckets.length := by
    rw [h.length_buckets]
    exact slotOf_lt h.cap_pos
  rw [bucket, List.getD_eq_getElem?_getD, List.getElem?_eq_getElem hlt, Option.getD_some]

/-- A chain is the entries of its bucket, in iteration order. -/
theorem WF.bucket_eq_filter (h : t.WF hf cf) (k : K) :
    t.bucket hf k =
      t.entries.filter fun e => bucketIndex hf e.1 t.cap = bucketIndex hf k t.cap := by
  have := filter_flatten (fun e => bucketIndex hf e.1 t.cap) t.buckets 0 (bucketIndex hf k t.cap)
    (fun j b hb e he => by
      rw [Nat.zero_add]
      exact h.placed j b hb e he)
  simp only [Nat.zero_add] at this
  exact this.symm

/-- Looking a key up in its chain is looking it up among all entries. -/
theorem WF.get_eq_lookup (hk : LawfulKeys hf cf) (h : t.WF hf cf) (k : K) :
    t.get hf cf k = lookup cf k t.entries := by
  rw [get, h.bucket_eq_filter]
  refine lookup_filter fun e _ hke => ?_
  simp [hk.bucketIndex_eq hke]

/-- No two entries of a table have the same key. -/
theorem WF.distinct_entries (hk : LawfulKeys hf cf) (h : t.WF hf cf) : Distinct cf t.entries := by
  refine List.pairwise_flatten.mpr ⟨h.distinct, ?_⟩
  rw [List.pairwise_iff_getElem]
  intro i j hi hj hij a ha b hb hab
  have hia := h.placed i _ (List.getElem?_eq_getElem hi) a ha
  have hjb := h.placed j _ (List.getElem?_eq_getElem hj) b hb
  have := hk.bucketIndex_eq hab t.cap
  omega

/-! ## Changing one chain -/

@[simp] theorem size_update (size : Int) (f : List (K × V) → List (K × V)) :
    (t.update hf k size f).size = size := rfl

@[simp] theorem cap_update (size : Int) (f : List (K × V) → List (K × V)) :
    (t.update hf k size f).cap = t.cap := rfl

@[simp] theorem buckets_update (size : Int) (f : List (K × V) → List (K × V)) :
    (t.update hf k size f).buckets = t.buckets.modify (bucketIndex hf k t.cap) f := rfl

/-- The slots after rewriting one chain. -/
theorem WF.getElem?_update (h : t.WF hf cf) (k : K) (size : Int)
    (f : List (K × V) → List (K × V)) (i : Nat) :
    (t.update hf k size f).buckets[i]? =
      if bucketIndex hf k t.cap = i then some (f (t.bucket hf k)) else t.buckets[i]? := by
  rw [update, List.getElem?_modify]
  split_ifs with hi
  · rw [← hi, h.getElem?_bucket]
    rfl
  · cases t.buckets[i]? <;> rfl

/-- Rewriting the chain of one bucket keeps the invariant if the new chain holds only keys of
that bucket, all distinct. -/
theorem WF.update (h : t.WF hf cf) {size : Int} {f : List (K × V) → List (K × V)} (k : K)
    (hplaced : ∀ e ∈ f (t.bucket hf k), bucketIndex hf e.1 t.cap = bucketIndex hf k t.cap)
    (hdist : Distinct cf (f (t.bucket hf k))) : (t.update hf k size f).WF hf cf where
  cap_pos := h.cap_pos
  length_buckets := by
    rw [Table.update, List.length_modify]
    exact h.length_buckets
  placed i b hb e he := by
    rw [h.getElem?_update] at hb
    split_ifs at hb with hi
    · obtain rfl := Option.some.inj hb
      exact (hplaced e he).trans hi
    · exact h.placed i b hb e he
  distinct b hb := by
    obtain ⟨i, hi⟩ := List.mem_iff_getElem?.mp hb
    rw [h.getElem?_update] at hi
    split_ifs at hi with hki
    · exact Option.some.inj hi ▸ hdist
    · exact h.distinct b (List.mem_of_getElem? hi)

/-- The chain of a key after rewriting the chain of another. -/
theorem WF.bucket_update (h : t.WF hf cf) (k k' : K) (size : Int)
    (f : List (K × V) → List (K × V)) :
    (t.update hf k size f).bucket hf k' =
      if bucketIndex hf k t.cap = bucketIndex hf k' t.cap then f (t.bucket hf k)
      else t.bucket hf k' := by
  have hget := h.getElem?_update k size f (bucketIndex hf k' t.cap)
  have hold := h.getElem?_bucket k'
  rw [bucket, List.getD_eq_getElem?_getD]
  change ((t.update hf k size f).buckets[bucketIndex hf k' t.cap]?).getD [] = _
  rw [hget]
  split_ifs
  · rfl
  · rw [hold]
    rfl

/-- The number of entries after rewriting one chain. -/
theorem WF.length_entries_update (h : t.WF hf cf) (k : K) (size : Int)
    (f : List (K × V) → List (K × V)) :
    (t.update hf k size f).entries.length + (t.bucket hf k).length =
      t.entries.length + (f (t.bucket hf k)).length := by
  obtain ⟨others, hold, hnew⟩ := exists_flatten_modify (h.getElem?_bucket k)
  have hlength := (hnew f).length_eq
  rw [Table.entries, Table.update, Table.entries, hold.length_eq, hlength, List.length_append,
    List.length_append]
  omega

/-! ## Growing -/

/-- Growing keeps the invariant. -/
theorem WF.grow (hk : LawfulKeys hf cf) (h : t.WF hf cf) : (t.grow hf).WF hf cf where
  cap_pos := by
    have := h.cap_pos
    simp only [Table.grow]
    omega
  length_buckets := length_distribute _
  placed i b hb e he := by
    simp only [Table.grow, getElem?_distribute] at hb ⊢
    split_ifs at hb with hi
    obtain rfl := Option.some.inj hb
    simpa using (List.mem_filter.mp he).2
  distinct b hb := by
    obtain ⟨i, hi⟩ := List.mem_iff_getElem?.mp hb
    simp only [Table.grow, getElem?_distribute] at hi
    split_ifs at hi with hlt
    obtain rfl := Option.some.inj hi
    exact (h.distinct_entries hk).filter _

/-- Growing keeps the entries. -/
theorem WF.grow_entries_perm (h : t.WF hf cf) : (t.grow hf).entries.Perm t.entries :=
  distribute_flatten_perm fun _ _ => slotOf_lt (Nat.mul_pos h.cap_pos Nat.two_pos)

/-- Making room keeps the invariant. -/
theorem WF.room (hk : LawfulKeys hf cf) (h : t.WF hf cf) : (t.room hf).WF hf cf := by
  unfold Table.room
  split_ifs
  · exact h.grow hk
  · exact h

/-- Making room keeps the entries. -/
theorem WF.room_entries_perm (h : t.WF hf cf) : (t.room hf).entries.Perm t.entries := by
  unfold Table.room
  split_ifs
  · exact h.grow_entries_perm
  · exact List.Perm.refl _

/-- Making room does not touch the counter. -/
@[simp] theorem size_room (t : Table K V) : (t.room hf).size = t.size := by
  unfold room
  split_ifs <;> rfl

/-- **Growing keeps the map.** -/
theorem WF.get_grow (hk : LawfulKeys hf cf) (h : t.WF hf cf) (k : K) :
    (t.grow hf).get hf cf k = t.get hf cf k := by
  rw [(h.grow hk).get_eq_lookup hk, h.get_eq_lookup hk]
  exact lookup_perm hk.toKeyEquiv ((h.grow hk).distinct_entries hk) h.grow_entries_perm

/-- Making room keeps the map. -/
theorem WF.get_room (hk : LawfulKeys hf cf) (h : t.WF hf cf) (k : K) :
    (t.room hf).get hf cf k = t.get hf cf k := by
  unfold Table.room
  split_ifs
  · exact h.get_grow hk k
  · rfl

/-! ## Putting and removing -/

/-- The keys of a chain belong to its bucket. -/
theorem WF.bucketIndex_of_mem_bucket (h : t.WF hf cf) {e : K × V} (he : e ∈ t.bucket hf k) :
    bucketIndex hf e.1 t.cap = bucketIndex hf k t.cap :=
  h.placed _ _ (h.getElem?_bucket k) e he

/-- A chain has distinct keys. -/
theorem WF.distinct_bucket (h : t.WF hf cf) (k : K) : Distinct cf (t.bucket hf k) :=
  h.distinct _ (List.mem_of_getElem? (h.getElem?_bucket k))

/-- Putting keeps the invariant. -/
theorem WF.put (hk : LawfulKeys hf cf) (h : t.WF hf cf) (k : K) (v : V) :
    (t.put hf cf k v).WF hf cf := by
  have hr := h.room hk
  refine hr.update k (fun e he => ?_) ((hr.distinct_bucket k).upsert hk.toKeyEquiv)
  rcases key_mem_upsert he with hek | ⟨w, hw⟩
  · rw [hek]
  · exact hr.bucketIndex_of_mem_bucket (e := (e.1, w)) hw

/-- Removing keeps the invariant. -/
theorem WF.remove (h : t.WF hf cf) (k : K) : (t.remove hf cf k).WF hf cf :=
  h.update k (fun _ he => h.bucketIndex_of_mem_bucket (erase_sublist.subset he))
    (h.distinct_bucket k).erase

/-- **Putting updates the map at one key.** -/
theorem WF.get_put (hk : LawfulKeys hf cf) (h : t.WF hf cf) (k k' : K) (v : V) :
    (t.put hf cf k v).get hf cf k' = if cf k' k = 0 then some v else t.get hf cf k' := by
  have hr := h.room hk
  rw [← h.get_room hk k', get, get, Table.put, hr.bucket_update]
  split_ifs with hi hkk hkk
  · rw [lookup_upsert hk.toKeyEquiv, if_pos hkk]
  · rw [lookup_upsert hk.toKeyEquiv, if_neg hkk, bucket, bucket, hi]
  · exact absurd (hk.bucketIndex_eq hkk _).symm hi
  · rfl

/-- **Removing erases the map at one key.** -/
theorem WF.get_remove (hk : LawfulKeys hf cf) (h : t.WF hf cf) (k k' : K) :
    (t.remove hf cf k).get hf cf k' = if cf k' k = 0 then none else t.get hf cf k' := by
  rw [get, get, Table.remove, h.bucket_update]
  split_ifs with hi hkk hkk
  · rw [lookup_erase hk.toKeyEquiv (h.distinct_bucket k), if_pos hkk]
  · rw [lookup_erase hk.toKeyEquiv (h.distinct_bucket k), if_neg hkk, bucket, bucket, hi]
  · exact absurd (hk.bucketIndex_eq hkk _).symm hi
  · rfl

/-- A put counts one more. -/
@[simp] theorem size_put (k : K) (v : V) : (t.put hf cf k v).size = wrap32 (t.size + 1) := rfl

/-- A put adds an entry iff the key was absent. -/
theorem WF.length_entries_put (hk : LawfulKeys hf cf) (h : t.WF hf cf) (k : K) (v : V) :
    (t.put hf cf k v).entries.length =
      t.entries.length + if t.get hf cf k = none then 1 else 0 := by
  have hlen := (h.room hk).length_entries_update k (wrap32 (t.size + 1)) (upsert cf k v)
  have hget : lookup cf k ((t.room hf).bucket hf k) = t.get hf cf k := h.get_room hk k
  rw [length_upsert, hget, h.room_entries_perm.length_eq, ← Table.put] at hlen
  omega

/-- Putting an absent key adds its entry. -/
theorem WF.entries_put_of_none (hk : LawfulKeys hf cf) (h : t.WF hf cf) {k : K} (v : V)
    (hget : t.get hf cf k = none) : (t.put hf cf k v).entries.Perm ((k, v) :: t.entries) := by
  have hlookup : lookup cf k ((t.room hf).bucket hf k) = none := (h.get_room hk k).trans hget
  obtain ⟨others, hold, hnew⟩ := exists_flatten_modify ((h.room hk).getElem?_bucket k)
  have hput := hnew (upsert cf k v)
  rw [upsert_of_lookup_eq_none hlookup, List.append_assoc] at hput
  exact hput.trans <| List.perm_middle.trans <| .cons _ (hold.symm.trans h.room_entries_perm)

/-- Putting a present key replaces the value of its entry. -/
theorem WF.entries_put_of_some (hk : LawfulKeys hf cf) (h : t.WF hf cf) {k : K} (v : V) {w : V}
    (hget : t.get hf cf k = some w) :
    ∃ a others, cf k a = 0 ∧ t.entries.Perm ((a, w) :: others) ∧
      (t.put hf cf k v).entries.Perm ((a, v) :: others) := by
  have hlookup : lookup cf k ((t.room hf).bucket hf k) = some w := (h.get_room hk k).trans hget
  obtain ⟨others, hold, hnew⟩ := exists_flatten_modify ((h.room hk).getElem?_bucket k)
  obtain ⟨a, l₁, l₂, hka, hbucket, hupsert⟩ := upsert_of_lookup_eq_some (v := v) hlookup
  have hput := hnew (upsert cf k v)
  rw [hupsert, List.append_assoc, List.cons_append] at hput
  rw [hbucket, List.append_assoc, List.cons_append] at hold
  exact ⟨a, l₁ ++ (l₂ ++ others), hka, h.room_entries_perm.symm.trans (hold.trans List.perm_middle),
    hput.trans List.perm_middle⟩

/-- Several puts keep the invariant. -/
theorem WF.foldl_put (hk : LawfulKeys hf cf) (h : t.WF hf cf) (es : List (K × V)) :
    (es.foldl (fun t e => t.put hf cf e.1 e.2) t).WF hf cf := by
  induction es generalizing t with
  | nil => exact h
  | cons e es ih => exact ih (h.put hk e.1 e.2)

/-- Putting keys that are new, each of them once, adds their entries. -/
theorem WF.entries_foldl_put (hk : LawfulKeys hf cf) (h : t.WF hf cf) {es : List (K × V)}
    (hes : Distinct cf (es ++ t.entries)) :
    (es.foldl (fun t e => t.put hf cf e.1 e.2) t).entries.Perm (es ++ t.entries) := by
  induction es generalizing t with
  | nil => exact .refl _
  | cons e es ih =>
      have hnew := (List.pairwise_cons.mp hes).1
      have hget : t.get hf cf e.1 = none := by
        rw [h.get_eq_lookup hk, lookup_eq_none_iff]
        exact fun a ha => hnew a (List.mem_append_right es ha)
      have hput : (es ++ (t.put hf cf e.1 e.2).entries).Perm (e :: (es ++ t.entries)) :=
        ((h.entries_put_of_none hk e.2 hget).append_left es).trans List.perm_middle
      have hdistinct : Distinct cf (es ++ (t.put hf cf e.1 e.2).entries) :=
        hput.symm.pairwise hes fun hab hba => hab (hk.symm hba)
      exact (ih (h.put hk e.1 e.2) hdistinct).trans hput

/-- The keys after a put: the key put, and old ones. -/
theorem WF.key_mem_put (hk : LawfulKeys hf cf) (h : t.WF hf cf) {k : K} {v : V} {e : K × V}
    (he : e ∈ (t.put hf cf k v).entries) : e.1 = k ∨ ∃ w, (e.1, w) ∈ t.entries := by
  cases hget : t.get hf cf k with
  | none =>
      rcases List.mem_cons.mp ((h.entries_put_of_none hk v hget).mem_iff.mp he) with rfl | he
      · exact .inl rfl
      · exact .inr ⟨e.2, he⟩
  | some w =>
      obtain ⟨a, others, -, hold, hnew⟩ := h.entries_put_of_some hk v hget
      rcases List.mem_cons.mp (hnew.mem_iff.mp he) with rfl | he
      · exact .inr ⟨w, hold.mem_iff.mpr List.mem_cons_self⟩
      · exact .inr ⟨e.2, hold.mem_iff.mpr (List.mem_cons_of_mem _ he)⟩

/-- The keys after several puts: the keys put, and old ones. -/
theorem WF.key_mem_foldl_put (hk : LawfulKeys hf cf) (h : t.WF hf cf) {es : List (K × V)}
    {e : K × V} (he : e ∈ (es.foldl (fun t e => t.put hf cf e.1 e.2) t).entries) :
    ∃ w, (e.1, w) ∈ es ++ t.entries := by
  induction es generalizing t with
  | nil => exact ⟨e.2, he⟩
  | cons a es ih =>
      obtain ⟨w, hw⟩ := ih (h.put hk a.1 a.2) he
      rcases List.mem_append.mp hw with hw | hw
      · exact ⟨w, List.mem_cons_of_mem _ (List.mem_append_left _ hw)⟩
      · rcases h.key_mem_put hk hw with hkey | ⟨u, hu⟩
        · exact ⟨a.2, List.mem_cons.mpr (.inl (Prod.ext hkey rfl))⟩
        · exact ⟨u, List.mem_cons_of_mem _ (List.mem_append_right _ hu)⟩

/-- A remove drops an entry iff the key was present. -/
theorem WF.length_entries_remove (h : t.WF hf cf) (k : K) :
    (t.remove hf cf k).entries.length + (if t.get hf cf k = none then 0 else 1) =
      t.entries.length := by
  have hlen := h.length_entries_update k (wrap32 (t.size - 1)) (erase cf k)
  have hera : (erase cf k (t.bucket hf k)).length +
      (if lookup cf k (t.bucket hf k) = none then 0 else 1) = (t.bucket hf k).length := length_erase
  rw [← Table.remove] at hlen
  rw [← get] at hera
  omega

/-- Looking up by keys that compare equal. -/
theorem get_congr (hk : LawfulKeys hf cf) (h : cf k k' = 0) : t.get hf cf k = t.get hf cf k' := by
  rw [get, get, bucket, bucket, hk.bucketIndex_eq h]
  exact lookup_congr hk.toKeyEquiv h

/-! ## Mapping keys and values -/

section Map

variable {K' V' : Type} {hf' : K' → UInt32} {cf' : K' → K' → Int} (f : K → K') (g : V → V')

/-- Replace every key and every value, in place. -/
def map (t : Table K V) : Table K' V' :=
  ⟨t.size, t.cap, t.buckets.map (List.map (Prod.map f g))⟩

@[simp] theorem size_map : (t.map f g).size = t.size := rfl

@[simp] theorem cap_map : (t.map f g).cap = t.cap := rfl

/-- Replacing twice. -/
theorem map_map {K'' V'' : Type} (f' : K' → K'') (g' : V' → V'') (t : Table K V) :
    (t.map f g).map f' g' = t.map (f' ∘ f) (g' ∘ g) := by
  rw [map, map, map, List.map_map]
  congr 2
  funext chain
  rw [Function.comp_apply, List.map_map, Prod.map_comp_map]

@[simp] theorem map_init : (Table.init : Table K V).map f g = Table.init := by
  rw [map, init, List.map_replicate]
  rfl

@[simp] theorem entries_init : (Table.init : Table K V).entries = [] := rfl

/-- The entries are mapped one by one. -/
@[simp] theorem entries_map : (t.map f g).entries = t.entries.map (Prod.map f g) := by
  rw [entries, entries, map, List.map_flatten]

variable {f g}

/-- Distributing mapped elements. -/
theorem distribute_map {α β : Type} {idx : α → Nat} {idx' : β → Nat} {h : α → β}
    (hidx : ∀ e, idx' (h e) = idx e) (cap : Nat) (es : List α) :
    distribute idx' cap (es.map h) = (distribute idx cap es).map (List.map h) := by
  apply List.ext_getElem?
  intro j
  rw [List.getElem?_map, getElem?_distribute, getElem?_distribute]
  split_ifs with hj
  · rw [Option.map_some, List.filter_map]
    congr 3
    funext e
    simp [hidx]
  · rfl

section

variable (hhf : ∀ k, hf' (f k) = hf k)
include hhf

/-- Mapped keys stay in their buckets. -/
theorem bucket_map (k : K) :
    (t.map f g).bucket hf' (f k) = (t.bucket hf k).map (Prod.map f g) := by
  have hslot : bucketIndex hf' (f k) t.cap = bucketIndex hf k t.cap := slotOf_congr (hhf k) t.cap
  rw [bucket, bucket, cap_map, hslot, map, List.getD_eq_getElem?_getD, List.getD_eq_getElem?_getD,
    List.getElem?_map]
  cases t.buckets[bucketIndex hf k t.cap]? <;> rfl

/-- Growing a mapped table. -/
theorem grow_map : (t.map f g).grow hf' = (t.grow hf).map f g := by
  have hidx : ∀ e : K × V,
      bucketIndex hf' (Prod.map f g e).1 (t.cap * 2) = bucketIndex hf e.1 (t.cap * 2) :=
    fun e => slotOf_congr (hhf e.1) _
  rw [grow, grow, entries_map, cap_map, distribute_map hidx]
  rfl

/-- Making room in a mapped table. -/
theorem room_map : (t.map f g).room hf' = (t.room hf).map f g := by
  have hfull : (t.map f g).Full ↔ t.Full := Iff.rfl
  rw [room, room]
  by_cases h : t.Full
  · rw [if_pos h, if_pos (hfull.mpr h), grow_map hhf]
  · rw [if_neg h, if_neg (mt hfull.mp h)]

variable (hcf : ∀ a b, cf' (f a) (f b) = cf a b)
include hcf

/-- **Looking up in a mapped table.** -/
theorem get_map (k : K) : (t.map f g).get hf' cf' (f k) = (t.get hf cf k).map g := by
  rw [get, get, bucket_map hhf, lookup_map f g (hcf k)]

omit hhf hcf in
/-- Rewriting a chain of a mapped table. -/
theorem update_map (size : Int) {k : K} {F : List (K × V) → List (K × V)}
    {F' : List (K' × V') → List (K' × V')}
    (hF : ∀ b, F' (b.map (Prod.map f g)) = (F b).map (Prod.map f g))
    (hslot : bucketIndex hf' (f k) t.cap = bucketIndex hf k t.cap) :
    (t.map f g).update hf' (f k) size F' = (t.update hf k size F).map f g := by
  have hmodify : ∀ (i : Nat) (L : List (List (K × V))),
      (L.map (List.map (Prod.map f g))).modify i F' =
        (L.modify i F).map (List.map (Prod.map f g)) := by
    intro i L
    apply List.ext_getElem?
    intro j
    rw [List.getElem?_modify, List.getElem?_map, List.getElem?_map, List.getElem?_modify]
    cases L[j]? with
    | none => rfl
    | some b =>
        simp only [Option.map_some, Option.map_eq_map]
        split_ifs
        · rw [hF]
        · rfl
  have hcap : (t.map f g).cap = t.cap := rfl
  have hb : (t.map f g).buckets = t.buckets.map (List.map (Prod.map f g)) := rfl
  rw [update, update, hcap, hslot, hb, hmodify]
  generalize t.buckets.modify _ F = L
  rfl

/-- **Putting into a mapped table.** -/
theorem put_map (k : K) (v : V) :
    (t.map f g).put hf' cf' (f k) (g v) = (t.put hf cf k v).map f g := by
  rw [put, put, room_map hhf, size_map]
  exact update_map (wrap32 (t.size + 1)) (fun b => upsert_map f g (hcf k)) (slotOf_congr (hhf k) _)

end

end Map

end Table

end Flood.Hashtable
