import Flood.Hashtable.Free
import Flood.Hashtable.Iterate
import Flood.Lib.Sweep

/-!
# Iterating over a table while it changes

One thread starts an iteration and then calls `hashtable_iter_next`, `hashtable_put`, `hashtable_get`
and `hashtable_remove` in any order. An entry that is removed is unlinked and not freed, so an iterator
that stands on it goes on from there.

* `Iteration.step` — one call; it records the pairs delivered.
* `Moved` — what a call that does not grow the table does to the chains and to whatever an iterator
  still has before it: at most one entry is put in, or one that is gone is taken out.
  `Moved.append`, `Moved.take` and `Moved.keep` are the three ways to write the heap.
* `putLoop_cases`, `removeLoop_cases` — the loops write the heap in these ways; `moved_step` — so does
  a call.
* `iterNext_cases` — what `hashtable_iter_next` delivers, and where the iterator goes.
* `Standing` — the iterator is a sweep over the entries. `iteration_stable` — an iteration during which
  the table does not grow comes to an end, and delivers every key that is not removed during it once,
  with the value it then has. When the table grows, an iteration may deliver a key twice and miss
  another, as the last example does.
-/

namespace Flood.Hashtable

open Flood.Lib

variable {K V : Type}

/-- A call of the thread that iterates. -/
inductive IterCall (K V : Type) where
  /-- `hashtable_iter_next` -/
  | next
  /-- `hashtable_put`, `hashtable_get` or `hashtable_remove` -/
  | op (op : MapOp K V)

/-- Is it `hashtable_iter_next`? -/
def IterCall.isNext : IterCall K V → Bool
  | .next => true
  | .op _ => false

/-- Is it `hashtable_put`? -/
def IterCall.isPut : IterCall K V → Bool
  | .op (.put _ _) => true
  | .next | .op (.get _) | .op (.remove _) => false

/-- The table, the iterator, and the pairs delivered so far. -/
structure Iteration (K V : Type) where
  /-- The table. -/
  table : HashtableT K V
  /-- The iterator. -/
  iter : HashtableIter
  /-- The deliveries in order. -/
  delivered : List (K × V)

/-- Carry out one call. -/
def Iteration.step (it : Iteration K V) : IterCall K V → Option (Iteration K V)
  | .next => (hashtableIterNext it.table it.iter).map fun s =>
      { it with iter := s.2, delivered := it.delivered ++ s.1.toList }
  | .op op => (Hashtable.step it.table op).map fun s => { it with table := s.2 }

/-- The call does not make the table grow. -/
def HasRoom (it : Iteration K V) : IterCall K V → Prop
  | .op (.put _ _) => 4 * it.table.size < 3 * it.table.cap
  | .next | .op (.get _) | .op (.remove _) => True

instance (it : Iteration K V) : DecidablePred (HasRoom it)
  | .op (.put _ _) => inferInstanceAs (Decidable (_ < _))
  | .next | .op (.get _) | .op (.remove _) => isTrue trivial

/-- The key is not removed by any of the calls. -/
def Unremoved (cf : K → K → Int) (calls : List (IterCall K V)) (key : K) : Prop :=
  ∀ k, IterCall.op (.remove k) ∈ calls → cf k key ≠ 0

variable {hf : K → UInt32} {cf : K → K → Int} {ht ht' : HashtableT K V} {t : Table K V}
  {heap heap' : List (Entry K V)} {table table' : List (Option Nat)} {chains chains' : List (List Nat)}
  {ps u v : List Nat} {p' : Option Nat} {i a n : Nat} {new : Option Nat} {gone : Nat → Prop}

/-! ## What a call does to the chains -/

/-- The chains are those of the heap written anew, in which an iterator goes on as before, but for one
entry. -/
structure Moved (new : Option Nat) (gone : Nat → Prop) (heap heap' : List (Entry K V))
    (table' : List (Option Nat)) (chains chains' : List (List Nat)) : Prop where
  /-- The slots start disjoint chains. -/
  linked : Linked heap' table' chains'
  /-- There are as many. -/
  length_eq : chains'.length = chains.length
  /-- The entries have the keys they had. -/
  keys : ∀ a < heap.length, (heap'[a]?).map Entry.key = (heap[a]?).map Entry.key
  /-- A new entry was not allocated, and is in the table. -/
  fresh : ∀ b, new = some b → heap.length ≤ b ∧ b ∈ chains'.flatten
  /-- The rest of a chain, and the chains from a slot on. -/
  ahead : ∀ (p : Option Nat) (qs : List Nat) (k : Nat), Chain Entry.next heap p qs →
    (qs ++ (chains.drop k).flatten).Nodup →
    ∃ qs', Chain Entry.next heap' p qs' ∧
      Changed new gone (qs ++ (chains.drop k).flatten) (qs' ++ (chains'.drop k).flatten)

/-- The chains from a slot on, after one of them is replaced. -/
theorem flatten_drop_set (hps : chains[i]? = some ps) (ps' : List Nat) (k : Nat) :
    (((chains.set i ps').drop k).flatten = (chains.drop k).flatten) ∨
      ∃ x y, (chains.drop k).flatten = x ++ ps ++ y ∧
        ((chains.set i ps').drop k).flatten = x ++ ps' ++ y := by
  rw [List.drop_set]
  by_cases hik : i < k
  · exact .inl (by rw [if_pos hik])
  · refine .inr ⟨((chains.drop k).take (i - k)).flatten, ((chains.drop k).drop (i - k + 1)).flatten,
      ?_, ?_⟩
    all_goals
      have hget : (chains.drop k)[i - k]? = some ps := by
        rw [List.getElem?_drop, Nat.add_sub_cancel' (not_lt.mp hik), hps]
      obtain ⟨hlt, hat⟩ := List.getElem?_eq_some_iff.mp hget
    · conv_lhs => rw [← List.take_append_drop (i - k) (chains.drop k),
        List.drop_eq_getElem_cons hlt, hat]
      simp
    · rw [if_neg hik, List.set_eq_take_append_cons_drop, if_pos hlt]
      simp

/-- **An entry is put in** at the end of a chain. A walk that comes to the last entry of the chain comes
to the new one too. -/
theorem Moved.append (hl : Linked heap table chains) (hps : chains[i]? = some ps)
    (hc : Chain Entry.next heap' p' (ps ++ [n])) (hn : heap.length ≤ n)
    (hkeys : ∀ a < heap.length, (heap'[a]?).map Entry.key = (heap[a]?).map Entry.key)
    (hframe : ∀ a, a ∉ ps → a < heap.length → heap'[a]? = heap[a]?)
    (hwalk : ∀ p qs, Chain Entry.next heap p qs → Chain Entry.next heap' p qs ∨
      (∃ l ∈ ps, l ∈ qs) ∧ Chain Entry.next heap' p (qs ++ [n])) :
    Moved (some n) gone heap heap' (table.set i p') chains (chains.set i (ps ++ [n])) where
  linked := by
    refine (hl.set_chain p' hps hc hframe fun b hb => ?_).1
    rcases List.mem_append.mp hb with hb | hb
    · exact .inl hb
    · exact .inr (List.mem_singleton.mp hb ▸ hn)
  length_eq := List.length_set
  keys := hkeys
  fresh b hb := by
    obtain rfl := Option.some.inj hb
    have hlt := (List.getElem?_eq_some_iff.mp hps).1
    refine ⟨hn, List.mem_flatten.mpr ⟨ps ++ [n], List.mem_set hlt _, ?_⟩⟩
    exact List.mem_append_right ps List.mem_cons_self
  ahead p qs k hqs hnd := by
    rcases hwalk p qs hqs with hqs' | ⟨⟨l, hlps, hlqs⟩, hqs'⟩
    · refine ⟨qs, hqs', Changed.append_left ?_ qs⟩
      rcases flatten_drop_set hps (ps ++ [n]) k with hsame | ⟨x, y, hold, hnew⟩
      · rw [hsame]
        exact .same _
      · rw [hold, hnew, List.append_assoc x, List.append_assoc x, List.append_assoc ps,
          ← List.append_assoc x, ← List.append_assoc x]
        exact .put rfl
    · refine ⟨qs ++ [n], hqs', ?_⟩
      rcases flatten_drop_set hps (ps ++ [n]) k with hsame | ⟨x, y, hold, -⟩
      · rw [hsame, List.append_assoc]
        exact .put rfl
      · -- the walk is on a chain it is before
        rw [hold] at hnd
        exact absurd rfl ((List.nodup_append.mp hnd).2.2 l hlqs l (by simp [hlps]))

/-- **An entry is taken out** of a chain. A walk goes around it, or has it before it still. -/
theorem Moved.take (hl : Linked heap table chains) (hps : chains[i]? = some (u ++ a :: v))
    (hc : Chain Entry.next heap' p' (u ++ v)) (hgone : gone a)
    (hkeys : ∀ a < heap.length, (heap'[a]?).map Entry.key = (heap[a]?).map Entry.key)
    (hframe : ∀ b, b ∉ u ++ a :: v → b < heap.length → heap'[b]? = heap[b]?)
    (hwalk : ∀ p qs, Chain Entry.next heap p qs → Chain Entry.next heap' p qs ∨
      ∃ x y, qs = x ++ a :: y ∧ Chain Entry.next heap' p (x ++ y)) :
    Moved none gone heap heap' (table.set i p') chains (chains.set i (u ++ v)) where
  linked := by
    refine (hl.set_chain p' hps hc hframe fun b hb => .inl ?_).1
    rcases List.mem_append.mp hb with hb | hb
    · exact List.mem_append_left _ hb
    · exact List.mem_append_right _ (List.mem_cons_of_mem a hb)
  length_eq := List.length_set
  keys := hkeys
  fresh b hb := absurd hb.symm (Option.some_ne_none b)
  ahead p qs k hqs hnd := by
    rcases hwalk p qs hqs with hqs' | ⟨x, y, rfl, hqs'⟩
    · refine ⟨qs, hqs', Changed.append_left ?_ qs⟩
      rcases flatten_drop_set hps (u ++ v) k with hsame | ⟨x, y, hold, hnew⟩
      · rw [hsame]
        exact .same _
      · have htake : Changed none gone (u ++ a :: v) (u ++ v) := .take hgone
        rw [hold, hnew]
        exact (htake.append_left x).append_right y
    · refine ⟨x ++ y, hqs', ?_⟩
      rcases flatten_drop_set hps (u ++ v) k with hsame | ⟨w, z, hold, -⟩
      · rw [hsame]
        exact Changed.append_right (.take hgone) _
      · -- the walk is on a chain it is before
        rw [hold] at hnd
        exact absurd rfl ((List.nodup_append.mp hnd).2.2 a (by simp) a (by simp))

/-- No link is written. -/
theorem Moved.keep (hl : Linked heap table chains)
    (hnext : ∀ a : Nat, (heap'[a]?).map Entry.next = (heap[a]?).map Entry.next)
    (hkeys : ∀ a < heap.length, (heap'[a]?).map Entry.key = (heap[a]?).map Entry.key) :
    Moved none gone heap heap' table chains chains where
  linked :=
    ⟨hl.length_eq, fun i p ps hp hps => (hl.chain i p ps hp hps).frame fun a _ => hnext a, hl.disjoint⟩
  length_eq := rfl
  keys := hkeys
  fresh b hb := absurd hb.symm (Option.some_ne_none b)
  ahead _ qs _ hqs _ := ⟨qs, hqs.frame fun a _ => hnext a, .same _⟩

/-- What was in the table is in it, or gone. -/
theorem Moved.live (hm : Moved new gone heap heap' table' chains chains')
    (hl : Linked heap table chains) {b : Nat} (hb : b ∈ chains.flatten) :
    b ∈ chains'.flatten ∨ gone b := by
  obtain ⟨qs, hqs, hc⟩ := hm.ahead none [] 0 (.nil none) (by simpa using hl.nodup_flatten)
  obtain rfl : qs = [] := Chain.unique hqs (.nil none)
  exact hc.mem_or_gone hb

/-! ## The loops -/

/-- **The loop of `hashtable_put`** overwrites a value, or links a new entry behind the last one. -/
theorem putLoop_cases {key : K} {val : V} {fuel : Nat} {pre rest : List Nat} {p e : Option Nat}
    {code : Int} (hpre : Seg Entry.next ht.heap p pre e) (hrest : Chain Entry.next ht.heap e rest)
    (hne : pre ++ rest ≠ []) (h : putLoop ht key val fuel pre.getLast? e = some (code, ht')) :
    (∃ a entry, ht.heap[a]? = some entry ∧
      ht' = { ht with heap := ht.heap.set a { entry with val := val } }) ∨
    ∃ init l node, pre ++ rest = init ++ [l] ∧ ht.heap[l]? = some node ∧
      ht' = { ht with
        heap := ht.heap.set l { node with next := some ht.heap.length } ++ [newEntry key val] } := by
  induction rest generalizing pre e fuel with
  | nil =>
      rw [Chain, Seg.nil_iff] at hrest
      subst hrest
      rw [List.append_nil] at hne ⊢
      obtain ⟨init, l, rfl⟩ : ∃ init l, pre = init ++ [l] :=
        ⟨pre.dropLast, pre.getLast hne, (List.dropLast_append_getLast hne).symm⟩
      obtain ⟨node, hnode⟩ := hpre.isSome_of_mem (List.mem_append_right init List.mem_cons_self)
      refine .inr ⟨init, l, node, rfl, hnode, ?_⟩
      cases fuel <;> simp [putLoop, hnode] at h <;> exact h.2.symm
  | cons a rest ih =>
      obtain ⟨rfl, entry, hentry, hrest'⟩ := Seg.cons_iff.mp hrest
      cases fuel with
      | zero => exact absurd h (by simp [putLoop])
      | succ fuel =>
          by_cases hkey : ht.cmpFunc key entry.key = 0
          · simp [putLoop, hentry, hkey] at h
            exact .inl ⟨a, entry, hentry, h.2.symm⟩
          · have hpre' := hpre.concat hentry
            have := @ih fuel _ _ hpre' hrest' (by simp)
              (by simpa [putLoop, hentry, hkey] using h)
            rwa [List.append_assoc, List.singleton_append] at this

/-- **The loop of `hashtable_remove`** changes nothing, or redirects what points to an entry with the
key. -/
theorem removeLoop_cases {key : K} {index fuel : Nat} {pre rest : List Nat} {p e : Option Nat}
    {val : Option V} (hpre : Seg Entry.next ht.heap p pre e) (hrest : Chain Entry.next ht.heap e rest)
    (h : removeLoop ht key index fuel pre.getLast? e = some (val, ht')) :
    ht' = ht ∨ ∃ u a v entry, pre ++ rest = u ++ a :: v ∧ ht.heap[a]? = some entry ∧
      ht.cmpFunc key entry.key = 0 ∧
      (u = [] ∧ ht' = { ht with table := ht.table.set index entry.next } ∨
        ∃ init l node, u = init ++ [l] ∧ ht.heap[l]? = some node ∧
          ht' = { ht with heap := ht.heap.set l { node with next := entry.next } }) := by
  induction rest generalizing pre e fuel with
  | nil =>
      rw [Chain, Seg.nil_iff] at hrest
      subst hrest
      cases fuel <;> simp [removeLoop] at h <;> exact .inl h.2.symm
  | cons a rest ih =>
      obtain ⟨rfl, entry, hentry, hrest'⟩ := Seg.cons_iff.mp hrest
      cases fuel with
      | zero => exact absurd h (by simp [removeLoop])
      | succ fuel =>
          by_cases hkey : ht.cmpFunc key entry.key = 0
          · refine .inr ⟨pre, a, rest, entry, rfl, hentry, hkey, ?_⟩
            rcases List.eq_nil_or_concat pre with rfl | ⟨init, l, rfl⟩
            · simp [removeLoop, hentry, hkey] at h
              exact .inl ⟨rfl, h.2.symm⟩
            · rw [List.concat_eq_append] at *
              obtain ⟨node, hnode⟩ :=
                hpre.isSome_of_mem (List.mem_append_right init List.mem_cons_self)
              simp [removeLoop, hentry, hkey, hnode] at h
              exact .inr ⟨init, l, node, rfl, hnode, h.2.symm⟩
          · have hpre' := hpre.concat hentry
            have := @ih fuel _ _ hpre' hrest'
              (by simpa [removeLoop, hentry, hkey] using h)
            rwa [List.append_assoc, List.singleton_append] at this

/-! ## The calls -/

/-- The entry at the address has a key that is removed. -/
def Gone (cf : K → K → Int) (removed : K → Prop) (heap : List (Entry K V)) (a : Nat) : Prop :=
  ∃ entry, heap[a]? = some entry ∧ ∃ k, removed k ∧ cf k entry.key = 0

variable {removed : K → Prop}

/-- What a write does to the keys. -/
theorem keys_set {e e' : Entry K V} (he : heap[a]? = some e) (hkey : e'.key = e.key)
    (more : List (Entry K V)) :
    ∀ b < heap.length, ((heap.set a e' ++ more)[b]?).map Entry.key = (heap[b]?).map Entry.key := by
  intro b hb
  rw [List.getElem?_append_left (by rwa [List.length_set])]
  exact map_getElem?_set he hkey b

/-- **A put that does not grow the table** puts in one entry at most. -/
theorem moved_put (hr : Repr hf cf ht t) (hw : t.WF hf cf) (hl : Linked ht.heap ht.table chains)
    {key : K} {val : V} {code : Int} (hroom : 4 * ht.size < 3 * ht.cap)
    (h : hashtablePut ht key val = some (code, ht')) :
    ∃ new chains', Moved new gone ht.heap ht'.heap ht'.table chains chains' := by
  obtain ⟨chains₁, hl₁, hb⟩ := hr.linked
  obtain rfl := hl.unique hl₁
  obtain ⟨p, ps, hp, hps, hc, -⟩ := hr.exists_chain hw hl hb key
  rw [hashtablePut_eq, if_neg (not_le.mpr hroom), Option.bind_some] at h
  simp only [putEntry, hp, Option.bind_eq_bind, Option.bind_some] at h
  cases p with
  | none =>
      -- the first entry of a slot
      obtain ⟨-, rfl⟩ := Prod.mk.inj (Option.some.inj h)
      obtain rfl : ps = [] := Chain.unique hc (.nil none)
      have hfresh : (ht.heap ++ [newEntry key val])[ht.heap.length]? = some (newEntry key val) :=
        List.getElem?_concat_length
      refine ⟨some ht.heap.length, _, Moved.append hl hps
        (Seg.cons_iff.mpr ⟨rfl, _, hfresh, Seg.nil_iff.mpr rfl⟩) le_rfl (fun a ha => ?_)
        (fun a _ ha => List.getElem?_append_left ha) fun p qs hqs => .inl (hqs.alloc _)⟩
      rw [List.getElem?_append_left ha]
  | some e =>
      have hne : ([] : List Nat) ++ ps ≠ [] := by
        rintro rfl
        exact absurd (Seg.nil_iff.mp hc) (by simp)
      rcases @putLoop_cases _ _ { ht with size := wrap32 (ht.size + 1) } _ _ _ _ [] _ _ _ _
        (.nil (some e)) hc hne h with
        ⟨a, entry, hentry, rfl⟩ | ⟨init, l, node, hsplit, hnode, rfl⟩
      · have hold : ht.heap[a]? = some entry := hentry
        have hnext : ∀ b : Nat, ((ht.heap.set a { entry with val := val })[b]?).map Entry.next =
            (ht.heap[b]?).map Entry.next :=
          map_getElem?_set hold (rfl : Entry.next { entry with val := val } = entry.next)
        have hkeys : ∀ b : Nat, ((ht.heap.set a { entry with val := val })[b]?).map Entry.key =
            (ht.heap[b]?).map Entry.key :=
          map_getElem?_set hold (rfl : Entry.key { entry with val := val } = entry.key)
        exact ⟨none, chains, Moved.keep hl hnext fun b _ => hkeys b⟩
      · -- a new entry behind the last one
        rw [List.nil_append] at hsplit
        subst hsplit
        have hwalk := fun (p : Option Nat) qs (hqs : Chain Entry.next ht.heap p qs) =>
          @Chain.append_node _ _ _ _ _ _ _ { node with next := some ht.heap.length }
            (newEntry key val) hqs hnode (hc.next_of_concat hnode) rfl rfl
        have hchain := ((hwalk _ _ hc).resolve_left fun h => h.1 (by simp)).2
        have hmoved := @Moved.append _ _ _ _ _ _ _ _ _ _ gone hl hps hchain le_rfl
          (keys_set hnode (rfl : Entry.key { node with next := some ht.heap.length } = node.key) _)
          (fun a ha hlt => ?_) fun p qs hqs => ?_
        · rw [set_of_getElem? hp] at hmoved
          exact ⟨_, _, hmoved⟩
        · rw [List.getElem?_append_left (by rwa [List.length_set]), List.getElem?_set_ne]
          rintro rfl
          exact ha (by simp)
        · rcases hwalk p qs hqs with ⟨-, hsame⟩ | ⟨hmem, hmore⟩
          · exact .inl hsame
          · exact .inr ⟨⟨l, by simp, hmem⟩, hmore⟩

/-- **A remove** takes out one entry at most, which has the key. -/
theorem moved_remove (hr : Repr hf cf ht t) (hw : t.WF hf cf) (hl : Linked ht.heap ht.table chains)
    {key : K} {val : Option V} (hgone : removed key) (h : hashtableRemove ht key = some (val, ht')) :
    ∃ chains', Moved none (Gone cf removed ht.heap) ht.heap ht'.heap ht'.table chains chains' := by
  obtain ⟨chains₁, hl₁, hb⟩ := hr.linked
  obtain rfl := hl.unique hl₁
  obtain ⟨p, ps, hp, hps, hc, -⟩ := hr.exists_chain hw hl hb key
  simp only [hashtableRemove, hp, Option.bind_eq_bind, Option.bind_some] at h
  have hsame : Moved none (Gone cf removed ht.heap) ht.heap ht.heap ht.table chains chains :=
    Moved.keep hl (fun _ => rfl) fun _ _ => rfl
  cases p with
  | none =>
      obtain ⟨-, rfl⟩ := Prod.mk.inj (Option.some.inj h)
      exact ⟨chains, hsame⟩
  | some e =>
      rcases @removeLoop_cases _ _ { ht with size := wrap32 (ht.size - 1) } _ _ _ _ [] _ _ _ _
        (.nil (some e)) hc h with rfl | ⟨u, a, v, entry, hsplit, hentry, hkey, hways⟩
      · exact ⟨chains, hsame⟩
      · rw [List.nil_append] at hsplit
        subst hsplit
        have hout : Gone cf removed ht.heap a :=
          ⟨entry, hentry, key, hgone, by rw [← hr.cmpFunc_eq]; exact hkey⟩
        obtain ⟨q, hu, hv⟩ := Seg.append_iff.mp hc
        obtain ⟨rfl, entry', hentry', hrest⟩ := Seg.cons_iff.mp hv
        obtain rfl := Option.some.inj (hentry.symm.trans hentry')
        rcases hways with ⟨rfl, rfl⟩ | ⟨init, l, node, rfl, hnode, rfl⟩
        · -- the slot is redirected
          exact ⟨_, Moved.take hl hps hrest hout (fun _ _ => rfl) (fun _ _ _ => rfl)
            fun _ _ hqs => .inl hqs⟩
        · -- the entry before it is
          have hnd := hc.nodup
          have hlinit : l ∉ init := fun hmem => by
            rw [List.append_assoc, List.nodup_append] at hnd
            exact hnd.2.2 l hmem l (by simp) rfl
          have hlv : l ∉ v := fun hmem =>
            (List.nodup_append.mp hnd).2.2 l (by simp) l (List.mem_cons_of_mem a hmem) rfl
          have hchain := Seg.append_iff.mpr ⟨entry.next,
            hu.relink hlinit (rfl : Entry.next { node with next := entry.next } = entry.next),
            hrest.set_of_notMem hlv _⟩
          have hkeys := keys_set hnode
            (rfl : Entry.key { node with next := entry.next } = node.key) []
          rw [List.append_nil] at hkeys
          have hmoved := Moved.take hl hps hchain hout hkeys
            (fun b hb _ => ?_) fun p qs hqs => hqs.skip hnode (hu.next_of_concat hnode) hentry rfl
          · rw [set_of_getElem? hp] at hmoved
            exact ⟨_, hmoved⟩
          · rw [List.getElem?_set_ne]
            rintro rfl
            exact hb (by simp)

/-- **A call that does not grow the table** puts in one entry at most, and only if it is a put, or takes out
one that is gone. -/
theorem moved_step {op : MapOp K V} {reply : MapReply V} (hr : Repr hf cf ht t) (hw : t.WF hf cf)
    (hl : Linked ht.heap ht.table chains)
    (hroom : ∀ key val, op = .put key val → 4 * ht.size < 3 * ht.cap)
    (hremoved : ∀ key, op = .remove key → removed key) (h : step ht op = some (reply, ht')) :
    ∃ new chains', Moved new (Gone cf removed ht.heap) ht.heap ht'.heap ht'.table chains chains' ∧
      new.toList.length ≤ if (IterCall.op op).isPut then 1 else 0 := by
  cases op with
  | put key val =>
      rw [step, Option.bind_eq_bind, Option.bind_eq_some_iff] at h
      obtain ⟨⟨code, ht₁⟩, hput, hret⟩ := h
      obtain ⟨-, rfl⟩ := Prod.mk.inj (Option.some.inj hret)
      obtain ⟨new, chains', hm⟩ := moved_put hr hw hl (hroom key val rfl) hput
      refine ⟨new, chains', hm, ?_⟩
      cases new <;> simp [IterCall.isPut]
  | get key =>
      rw [step, Option.bind_eq_bind, Option.bind_eq_some_iff] at h
      obtain ⟨val, -, hret⟩ := h
      obtain ⟨-, rfl⟩ := Prod.mk.inj (Option.some.inj hret)
      exact ⟨none, chains, Moved.keep hl (fun _ => rfl) fun _ _ => rfl, by simp⟩
  | remove key =>
      rw [step, Option.bind_eq_bind, Option.bind_eq_some_iff] at h
      obtain ⟨⟨val, ht₁⟩, hremove, hret⟩ := h
      obtain ⟨-, rfl⟩ := Prod.mk.inj (Option.some.inj hret)
      obtain ⟨chains', hm⟩ := moved_remove hr hw hl (hremoved key rfl) hremove
      exact ⟨none, chains', hm, by simp⟩

/-! ## The iteration -/

/-- The iterator is a sweep over the entries, which has delivered those at `seen`. No more than `most` are
delivered in all, and `nexts` calls have been made for them. -/
structure Standing (hf : K → UInt32) (cf : K → K → Int) (removed : K → Prop) (heap₀ : List (Entry K V))
    (start : List Nat) (most nexts : Nat) (it : Iteration K V) (t : Table K V)
    (chains : List (List Nat)) (seen ahead : List Nat) : Prop where
  /-- The table on the heap represents this one. -/
  repr : Repr hf cf it.table t
  /-- It is well-formed. -/
  wf : t.WF hf cf
  /-- The slots start these chains. -/
  linked : Linked it.table.heap it.table.table chains
  /-- What the iterator still has before it. -/
  stands : IterAt it.table chains it.iter ahead
  /-- An iterator without a next entry has come to the end of the array. -/
  last : it.iter.next = none → chains.length ≤ it.iter.index
  /-- It delivers nothing twice, and misses only what is gone. -/
  sweep : Sweep start (Gone cf removed it.table.heap) seen ahead
  /-- The keys delivered. -/
  keys : it.delivered.map Prod.fst = (pairsAt it.table.heap seen).map Prod.fst
  /-- What it has met is in the table, or gone. -/
  live : ∀ a ∈ seen ++ ahead, a ∈ chains.flatten ∨ Gone cf removed it.table.heap a
  /-- The entries there were at the start have the keys they had. -/
  kept : ∀ a ∈ start, (it.table.heap[a]?).map Entry.key = (heap₀[a]?).map Entry.key
  /-- How many there are in all. -/
  bound : seen.length + ahead.length ≤ most
  /-- Each call has delivered one, but at the end. -/
  goesOn : it.iter.next = none ∨ nexts ≤ seen.length

/-- A scan that finds no entry has come to the end of the array. -/
theorem index_of_scanSlots {fuel index : Nat} {iter : HashtableIter}
    (h : scanSlots ht fuel index = some iter) (hnone : iter.next = none) : ht.cap ≤ iter.index := by
  induction fuel generalizing index with
  | zero => exact absurd h (by simp [scanSlots])
  | succ fuel ih =>
      rw [scanSlots] at h
      split_ifs at h with hlt
      · simp only [Option.bind_eq_bind, Option.bind_eq_some_iff] at h
        obtain ⟨p, -, h⟩ := h
        cases p with
        | none => exact ih h
        | some e =>
            rw [← Option.some.inj h] at hnone
            exact absurd hnone (Option.some_ne_none e)
      · rw [← Option.some.inj h]
        exact not_lt.mp hlt

/-- What an iterator that stands on an entry delivers, and where it goes. -/
theorem iterNext_cases {iter iter' : HashtableIter} {pair : Option (K × V)} {e : Nat}
    (he : iter.next = some e) (h : hashtableIterNext ht iter = some (pair, iter')) :
    ∃ entry, ht.heap[e]? = some entry ∧ pair = some entry.pair ∧
      (scanSlots ht (ht.cap.toNat + 1) iter.index = some iter' ∨ iter'.next = entry.next ∧
        entry.next ≠ none) := by
  simp only [hashtableIterNext, he, Option.bind_eq_bind, Option.bind_eq_some_iff] at h
  obtain ⟨entry, hentry, h⟩ := h
  refine ⟨entry, hentry, ?_⟩
  cases hnext : entry.next with
  | none =>
      rw [hnext] at h
      obtain ⟨iter₁, hscan, hret⟩ := Option.bind_eq_some_iff.mp h
      obtain ⟨rfl, rfl⟩ := Prod.mk.inj (Option.some.inj hret)
      exact ⟨rfl, .inl hscan⟩
  | some next =>
      rw [hnext] at h
      obtain ⟨rfl, rfl⟩ := Prod.mk.inj (Option.some.inj h)
      exact ⟨rfl, .inr ⟨rfl, Option.some_ne_none next⟩⟩

/-- An iterator that has delivered its last entry has come to the end of the array. -/
theorem index_of_iterNext {iter iter' : HashtableIter} {pair : Option (K × V)}
    (h : hashtableIterNext ht iter = some (pair, iter')) (hsome : iter.next ≠ none)
    (hnone : iter'.next = none) : ht.cap ≤ iter'.index := by
  obtain ⟨e, he⟩ := Option.ne_none_iff_exists'.mp hsome
  obtain ⟨entry, -, -, hscan | ⟨hnext, hmore⟩⟩ := iterNext_cases he h
  · exact index_of_scanSlots hscan hnone
  · exact absurd (hnext.symm.trans hnone) hmore

/-- What is gone is allocated. -/
theorem Gone.lt (h : Gone cf removed heap a) : a < heap.length := by
  obtain ⟨entry, hentry, -⟩ := h
  exact (List.getElem?_eq_some_iff.mp hentry).1

/-- What is gone stays so. -/
theorem Moved.stays (hm : Moved new gone heap heap' table' chains chains')
    (h : Gone cf removed heap a) : Gone cf removed heap' a := by
  have hkey := hm.keys a h.lt
  obtain ⟨entry, hentry, k, hk, hcf⟩ := h
  rw [hentry, Option.map_some, Option.map_eq_some_iff] at hkey
  obtain ⟨entry', hentry', hkey⟩ := hkey
  exact ⟨entry', hentry', k, hk, by rwa [hkey]⟩

/-- Reading keys depends on the keys stored. -/
theorem map_fst_pairsAt_congr
    (h : ∀ a ∈ ps, (heap'[a]?).map Entry.key = (heap[a]?).map Entry.key) :
    (pairsAt heap' ps).map Prod.fst = (pairsAt heap ps).map Prod.fst := by
  have hread : ∀ h : List (Entry K V),
      (pairsAt h ps).map Prod.fst = ps.filterMap fun a => (h[a]?).map Entry.key := by
    intro h
    rw [pairsAt, List.map_filterMap]
    refine List.filterMap_congr fun a _ => ?_
    rw [Option.map_map]
    rfl
  rw [hread, hread]
  exact List.filterMap_congr h

namespace Standing

variable {heap₀ : List (Entry K V)} {start seen ahead : List Nat} {most nexts : Nat}
  {it it' : Iteration K V}

/-- What the iterator has met is allocated. -/
theorem lt_of_mem (hs : Standing hf cf removed heap₀ start most nexts it t chains seen ahead)
    (ha : a ∈ seen ++ ahead) : a < it.table.heap.length :=
  (hs.live a ha).elim hs.linked.lt_of_mem_flatten Gone.lt

/-- **A call that changes the table.** -/
theorem op (hk : LawfulKeys hf cf)
    (hs : Standing hf cf removed heap₀ start most nexts it t chains seen ahead) {op : MapOp K V}
    (hroom : HasRoom it (.op op)) (hremoved : ∀ key, op = .remove key → removed key) :
    ∃ it', it.step (.op op) = some it' ∧ ∃ t chains ahead, Standing hf cf removed heap₀ start
      (most + if (IterCall.op op).isPut then 1 else 0) nexts it' t chains seen ahead := by
  have hput : ∀ key val, op = .put key val → 4 * it.table.size < 3 * it.table.cap := by
    rintro key val rfl
    exact hroom
  obtain ⟨ht', hstep, hr'⟩ := step_spec op hk hs.repr hs.wf fun key val hop hfull => by
    have hlt := hput key val hop
    rw [hs.repr.size_eq, hs.repr.cap_eq] at hlt
    exact absurd hfull (not_le.mpr hlt)
  obtain ⟨new, chains', hm, hnew⟩ := moved_step hs.repr hs.wf hs.linked hput hremoved hstep
  obtain ⟨ps, hc, rfl, hend⟩ := hs.stands
  have hnd := (List.nodup_append.mp hs.sweep.nodup).2.1
  obtain ⟨ps', hc', hchanged⟩ := hm.ahead it.iter.next ps it.iter.index hc hnd
  have hfresh : ∀ b, new = some b → b ∉ seen ++ (ps ++ (chains.drop it.iter.index).flatten) :=
    fun b hb hmem => absurd (hs.lt_of_mem hmem) (not_lt.mpr (hm.fresh b hb).1)
  have hstill : ∀ a ∈ seen ++ (ps ++ (chains.drop it.iter.index).flatten),
      a ∈ chains'.flatten ∨ Gone cf removed ht'.heap a := by
    intro a ha
    rcases hs.live a ha with hlive | hgone
    · exact (hm.live hs.linked hlive).imp_right hm.stays
    · exact .inr (hm.stays hgone)
  refine ⟨{ it with table := ht' }, by simp [Iteration.step, hstep], t.step hf cf op, chains',
    ps' ++ (chains'.drop it.iter.index).flatten, ?_⟩
  constructor
  case repr => exact hr'
  case wf => exact hs.wf.step hk op
  case linked => exact hm.linked
  case stands =>
    refine ⟨ps', hc', rfl, fun hnone => ?_⟩
    rw [hnone] at hc'
    rw [Chain.unique hc' (.nil none), List.drop_eq_nil_of_le (hm.length_eq ▸ hs.last hnone)]
    rfl
  case last => exact fun hnone => hm.length_eq ▸ hs.last hnone
  case sweep => exact (hs.sweep.change hchanged hfresh).mono fun a => hm.stays
  case keys =>
    exact hs.keys.trans (map_fst_pairsAt_congr fun a ha =>
      hm.keys a (hs.lt_of_mem (List.mem_append_left _ ha))).symm
  case live =>
    intro a ha
    rcases List.mem_append.mp ha with ha | ha
    · exact hstill a (List.mem_append_left _ ha)
    · rcases hchanged.mem_or ha with ha | hnew
      · exact hstill a (List.mem_append_right _ ha)
      · exact .inl (hm.fresh a hnew).2
  case kept =>
    intro a ha
    rw [← hs.kept a ha]
    exact hm.keys a ((hs.sweep.covers a ha).elim hs.lt_of_mem Gone.lt)
  case bound =>
    have hlen := hchanged.length_le
    have hbound := hs.bound
    omega
  case goesOn => exact hs.goesOn

/-- **`hashtable_iter_next`.** -/
theorem next (hs : Standing hf cf removed heap₀ start most nexts it t chains seen ahead) :
    ∃ it', it.step .next = some it' ∧ ∃ seen ahead,
      Standing hf cf removed heap₀ start most (nexts + 1) it' t chains seen ahead := by
  obtain ⟨chains₁, hl₁, hb⟩ := hs.repr.linked
  obtain rfl := hs.linked.unique hl₁
  have hcap := hs.repr.cap_eq_length hs.wf hb
  cases ahead with
  | nil =>
      have hnone : it.iter.next = none := by
        have hiff := hs.stands.hasNext_iff
        rw [hashtableIterHasNext] at hiff
        simpa using hiff
      refine ⟨it, ?_, seen, [], { hs with goesOn := .inl hnone }⟩
      simp [Iteration.step, hashtableIterNext, hnone]
  | cons a ahead =>
      obtain ⟨entry, iter', hentry, hnext, hstands⟩ := hs.stands.iterNext hs.linked hcap
      have hsome : it.iter.next ≠ none := by
        have hyes := hs.stands.hasNext_iff.mpr (List.cons_ne_nil a ahead)
        rw [hashtableIterHasNext] at hyes
        intro hnone
        rw [hnone] at hyes
        exact absurd hyes (by decide)
      refine ⟨{ it with iter := iter', delivered := it.delivered ++ [entry.pair] }, ?_, seen ++ [a],
        ahead, ?_⟩
      · simp [Iteration.step, hnext]
      have hall : seen ++ [a] ++ ahead = seen ++ a :: ahead := by simp
      constructor
      case repr => exact hs.repr
      case wf => exact hs.wf
      case linked => exact hs.linked
      case stands => exact hstands
      case last =>
        intro hnone
        have hend := index_of_iterNext hnext hsome hnone
        show chains.length ≤ iter'.index
        omega
      case sweep => exact hs.sweep.next
      case keys =>
        rw [List.map_append, hs.keys, pairsAt_append, List.map_append, pairsAt_cons hentry]
        rfl
      case live =>
        rw [hall]
        exact hs.live
      case kept => exact hs.kept
      case bound =>
        have hbound := hs.bound
        simp only [List.length_append, List.length_cons, List.length_nil] at *
        omega
      case goesOn =>
        have hnexts := hs.goesOn.resolve_left hsome
        refine .inr ?_
        rw [List.length_append]
        exact Nat.add_le_add_right hnexts 1

/-- **A run** of calls that do not grow the table. -/
theorem run (hk : LawfulKeys hf cf) {calls : List (IterCall K V)}
    (hs : Standing hf cf removed heap₀ start most nexts it t chains seen ahead)
    (hroom : StepsMeet Iteration.step it calls HasRoom)
    (hremoved : ∀ key, IterCall.op (.remove key) ∈ calls → removed key) :
    ∃ it', calls.foldlM Iteration.step it = some it' ∧ ∃ t chains seen ahead,
      Standing hf cf removed heap₀ start (most + calls.countP IterCall.isPut)
        (nexts + calls.countP IterCall.isNext) it' t chains seen ahead := by
  induction calls generalizing it t chains seen ahead most nexts with
  | nil => exact ⟨it, rfl, t, chains, seen, ahead, hs⟩
  | cons call calls ih =>
      obtain ⟨hfirst, hrest⟩ := stepsMeet_cons_iff.mp hroom
      have hlater : ∀ key, IterCall.op (.remove key) ∈ calls → removed key :=
        fun key hmem => hremoved key (List.mem_cons_of_mem call hmem)
      obtain ⟨it₁, hstep, t₁, chains₁, seen₁, ahead₁, hs₁⟩ : ∃ it₁, it.step call = some it₁ ∧
          ∃ t chains seen ahead, Standing hf cf removed heap₀ start
            (most + if call.isPut then 1 else 0) (nexts + if call.isNext then 1 else 0) it₁ t chains
              seen ahead := by
        cases call with
        | next =>
            obtain ⟨it₁, hstep, seen₁, ahead₁, hs₁⟩ := hs.next
            exact ⟨it₁, hstep, t, chains, seen₁, ahead₁, hs₁⟩
        | op op =>
            obtain ⟨it₁, hstep, t₁, chains₁, ahead₁, hs₁⟩ := hs.op hk hfirst fun key hop =>
              hremoved key (hop ▸ List.mem_cons_self)
            exact ⟨it₁, hstep, t₁, chains₁, seen, ahead₁, hs₁⟩
      obtain ⟨it', hrun, t', chains', seen', ahead', hs'⟩ := ih hs₁ (hrest it₁ hstep) hlater
      refine ⟨it', ?_, t', chains', seen', ahead', ?_⟩
      · rw [List.foldlM_cons, hstep, Option.bind_eq_bind, Option.bind_some, hrun]
      · rw [List.countP_cons, List.countP_cons, Nat.add_comm (calls.countP IterCall.isPut),
          Nat.add_comm (calls.countP IterCall.isNext), ← Nat.add_assoc, ← Nat.add_assoc]
        exact hs'

/-! ## What is delivered -/

variable {key : K}

/-- The entries in the table. -/
theorem entries_eq (hs : Standing hf cf removed heap₀ start most nexts it t chains seen ahead) :
    t.entries = pairsAt it.table.heap chains.flatten := by
  obtain ⟨chains₁, hl₁, hb⟩ := hs.repr.linked
  obtain rfl := hs.linked.unique hl₁
  rw [Table.entries, hb, flatten_map_pairsAt]

/-- An entry with a key that is not removed is not gone. -/
theorem not_gone (hk : LawfulKeys hf cf) (hkey : ∀ k, removed k → cf k key ≠ 0) {entry : Entry K V}
    (he : heap[a]? = some entry) (hcf : cf key entry.key = 0) : ¬ Gone cf removed heap a := by
  rintro ⟨entry', he', k, hk', hcf'⟩
  obtain rfl := Option.some.inj (he.symm.trans he')
  exact hkey k hk' (hk.trans hcf' (hk.symm hcf))

/-- How often a key is delivered: as often as it is at the addresses met. -/
theorem countP_delivered (hs : Standing hf cf removed heap₀ start most nexts it t chains seen ahead) :
    it.delivered.countP (fun p => cf key p.1 = 0) =
      (pairsAt it.table.heap seen).countP fun p => cf key p.1 = 0 := by
  have hcount : ∀ pairs : List (K × V), pairs.countP (fun p => cf key p.1 = 0) =
      (pairs.map Prod.fst).countP fun k => cf key k = 0 := by
    intro pairs
    rw [List.countP_map]
    rfl
  rw [hcount, hcount, hs.keys]

/-- **A key that is not removed is delivered once at most.** -/
theorem countP_le_one (hk : LawfulKeys hf cf)
    (hs : Standing hf cf removed heap₀ start most nexts it t chains seen ahead)
    (hkey : ∀ k, removed k → cf k key ≠ 0) :
    it.delivered.countP (fun p => cf key p.1 = 0) ≤ 1 := by
  -- those with the key are among those in the table, which have distinct keys
  have hlive : (pairsAt it.table.heap seen).countP (fun p => cf key p.1 = 0) =
      (pairsAt it.table.heap (seen.filter (· ∈ chains.flatten))).countP
        fun p => cf key p.1 = 0 := by
    rw [pairsAt, pairsAt, List.countP_filterMap, List.countP_filterMap, List.countP_filter]
    refine List.countP_congr fun a ha => ?_
    have hmem := hs.live a (List.mem_append_left _ ha)
    cases hentry : it.table.heap[a]? with
    | none => simp
    | some entry =>
        simp only [Option.map_some, Option.getD_some, Entry.pair, Bool.and_eq_true,
          decide_eq_true_eq]
        exact ⟨fun hcf => ⟨hcf, hmem.resolve_right (not_gone hk hkey hentry hcf)⟩, fun h => h.1⟩
  have hsub : (seen.filter (· ∈ chains.flatten)).Subperm chains.flatten := by
    refine List.Nodup.subperm ((List.nodup_append.mp hs.sweep.nodup).1.filter _) fun a ha => ?_
    exact of_decide_eq_true (List.mem_filter.mp ha).2
  have hdistinct : Distinct cf (pairsAt it.table.heap (seen.filter (· ∈ chains.flatten))) := by
    have hall := hs.wf.distinct_entries hk
    rw [hs.entries_eq] at hall
    obtain ⟨l, hperm, hsublist⟩ := hsub
    have hl : Distinct cf (pairsAt it.table.heap l) := hall.sublist (hsublist.filterMap _)
    exact ((hperm.filterMap _).pairwise_iff fun h h' => h (hk.symm h')).mp hl
  rw [hs.countP_delivered, hlive]
  exact Lib.Distinct.countP_le_one hk.toKeyEquiv hdistinct key

/-- **At the end** a key that is not removed and was there at the start has been delivered. -/
theorem countP_pos (hk : LawfulKeys hf cf)
    (hs : Standing hf cf removed heap₀ start most nexts it t chains seen ahead)
    (hkey : ∀ k, removed k → cf k key ≠ 0) (hend : it.iter.next = none) {entry : Entry K V}
    (ha : a ∈ start) (hentry : heap₀[a]? = some entry) (hcf : cf key entry.key = 0) :
    0 < it.delivered.countP fun p => cf key p.1 = 0 := by
  obtain ⟨_, _, _, hnil⟩ := hs.stands
  obtain rfl := hnil hend
  have hkept := hs.kept a ha
  rw [hentry, Option.map_some, Option.map_eq_some_iff] at hkept
  obtain ⟨entry', hentry', hsame⟩ := hkept
  have hcf' : cf key entry'.key = 0 := by rw [hsame, hcf]
  have hseen := hs.sweep.mem_of_finished ha (not_gone hk hkey hentry' hcf')
  rw [hs.countP_delivered, List.countP_pos_iff]
  refine ⟨entry'.pair, List.mem_filterMap.mpr ⟨a, hseen, ?_⟩, decide_eq_true hcf'⟩
  rw [hentry', Option.map_some]

/-- **What is delivered is current.** -/
theorem delivered_current (hk : LawfulKeys hf cf)
    (hs : Standing hf cf removed heap₀ start most nexts it t chains seen ahead)
    (hkey : ∀ k, removed k → cf k key ≠ 0) {pair : K × V} (hstep : it.step .next = some it')
    (hpair : it'.delivered = it.delivered ++ [pair]) (hcf : cf key pair.1 = 0) :
    hashtableGet it.table key = some (some pair.2) := by
  obtain ⟨ps, hc, has, hend⟩ := hs.stands
  simp only [Iteration.step, Option.map_eq_some_iff] at hstep
  obtain ⟨⟨delivered, iter'⟩, hnext, rfl⟩ := hstep
  obtain rfl : delivered = some pair := by
    have hsome := List.append_cancel_left hpair
    cases delivered with
    | none => exact absurd hsome (by simp)
    | some p => rw [(List.cons.inj hsome).1]
  -- the entry delivered is the first that the iterator has before it
  cases hfirst : it.iter.next with
  | none => exact absurd hnext (by simp [hashtableIterNext, hfirst])
  | some b =>
      obtain ⟨entry, hentry, hdelivers, -⟩ := iterNext_cases hfirst hnext
      have hpair : entry.pair = pair := (Option.some.inj hdelivers).symm
      rw [hfirst] at hc
      have hmem : b ∈ seen ++ ahead := by
        rw [has]
        exact List.mem_append_right _ (List.mem_append_left _ (first_mem hc))
      have hcf' : cf key entry.key = 0 := by rw [← hpair] at hcf; exact hcf
      have hlive := (hs.live b hmem).resolve_right (not_gone hk hkey hentry hcf')
      have hin : (pair.1, pair.2) ∈ t.entries := by
        rw [hs.entries_eq]
        refine List.mem_filterMap.mpr ⟨b, hlive, ?_⟩
        rw [hentry, Option.map_some, hpair]
      rw [hashtableGet_spec hs.repr hs.wf, hs.wf.get_eq_lookup hk,
        lookup_of_mem hk.toKeyEquiv (hs.wf.distinct_entries hk) hin hcf]

end Standing

/-- **The iterator at its start** has every entry before it. -/
theorem standing_start (removed : K → Prop) {ops : List (MapOp K V)} {rs : List (MapReply V)}
    {iter : HashtableIter} {pairs : List (K × V)} (hk : LawfulKeys hf cf)
    (hrun : Hashtable.run (hashtableInit hf cf) ops = some (rs, ht))
    (hiter : hashtableIterator ht = some iter) (hpairs : iterate ht = some pairs) :
    ∃ t chains, Standing hf cf removed ht.heap chains.flatten pairs.length 0 ⟨ht, iter, []⟩ t chains []
      chains.flatten := by
  obtain ⟨t, hr, hw, -⟩ := repr_of_run hk (.init hf cf) .init hrun
  obtain ⟨chains, hl, hb⟩ := hr.linked
  have hcap := hr.cap_eq_length hw hb
  obtain ⟨iter', hscan, hstands⟩ := scanSlots_spec hl hcap (ht.cap.toNat + 1) 0 (by omega)
    (Nat.zero_le _)
  obtain rfl := Option.some.inj (hiter.symm.trans hscan)
  have hlen : pairs.length = chains.flatten.length := by
    rw [← Option.some.inj ((iterate_spec hr hw).symm.trans hpairs), Table.entries, hb,
      flatten_map_pairsAt, hl.length_pairsAt]
  refine ⟨t, chains, ?_⟩
  constructor
  case repr => exact hr
  case wf => exact hw
  case linked => exact hl
  case stands => exact hstands
  case last =>
    intro hnone
    have hend := index_of_scanSlots hiter hnone
    rwa [hcap, Int.ofNat_le] at hend
  case sweep => exact .started hl.nodup_flatten
  case keys => rfl
  case live => exact fun a ha => .inl ha
  case kept => exact fun _ _ => rfl
  case bound => rw [hlen, List.length_nil, Nat.zero_add]
  case goesOn => exact .inr (Nat.zero_le _)

/-- **Iterating while the table changes.** After every run from the fresh table, start an iteration, and
let calls that iterate, put, look up and remove follow in any order, none of which grows the table. They
all complete. The iteration has come to its end once there have been more calls of `hashtable_iter_next`
than entries at the start and puts. A key that none of them removes is delivered once at most, and at
the end once if it was in the table at the start. What is delivered for it is the value that it has. -/
theorem iteration_stable (hk : LawfulKeys hf cf) {ops : List (MapOp K V)} {rs : List (MapReply V)}
    (hrun : run (hashtableInit hf cf) ops = some (rs, ht)) {iter : HashtableIter}
    (hiter : hashtableIterator ht = some iter) {pairs : List (K × V)} (hpairs : iterate ht = some pairs)
    {calls : List (IterCall K V)} (hroom : StepsMeet Iteration.step ⟨ht, iter, []⟩ calls HasRoom) :
    ∃ it, calls.foldlM Iteration.step ⟨ht, iter, []⟩ = some it ∧
      (pairs.length + calls.countP IterCall.isPut < calls.countP IterCall.isNext →
        hashtableIterHasNext it.iter = false) ∧
      ∀ key, Unremoved cf calls key →
        it.delivered.countP (fun p => cf key p.1 = 0) ≤ 1 ∧
        (hashtableGet ht key ≠ some none → hashtableIterHasNext it.iter = false →
          it.delivered.countP (fun p => cf key p.1 = 0) = 1) ∧
        ∀ pair it', it.step .next = some it' → it'.delivered = it.delivered ++ [pair] →
          cf key pair.1 = 0 → hashtableGet it.table key = some (some pair.2) := by
  obtain ⟨t₀, chains₀, hstart⟩ :=
    standing_start (fun k => IterCall.op (.remove k) ∈ calls) hk hrun hiter hpairs
  obtain ⟨it, hcalls, t, chains, seen, ahead, hs⟩ := hstart.run hk hroom fun _ hmem => hmem
  refine ⟨it, hcalls, fun hmany => ?_, fun key hkey => ⟨hs.countP_le_one hk hkey, ?_, ?_⟩⟩
  · have hbound := hs.bound
    rcases hs.goesOn with hnone | hnexts
    · rw [hashtableIterHasNext, hnone]
      rfl
    · omega
  · intro hthere hend
    have hnone : it.iter.next = none := by
      rwa [hashtableIterHasNext, Option.isSome_eq_false_iff, Option.isNone_iff_eq_none] at hend
    refine le_antisymm (hs.countP_le_one hk hkey) ?_
    -- the entry with the key that there was at the start
    rw [hashtableGet_spec hstart.repr hstart.wf, hstart.wf.get_eq_lookup hk] at hthere
    obtain ⟨val, hval⟩ := Option.ne_none_iff_exists'.mp fun hnone => hthere (congrArg some hnone)
    obtain ⟨k, hmem, hcf⟩ := exists_mem_of_lookup hval
    rw [hstart.entries_eq] at hmem
    obtain ⟨a, ha, hread⟩ := List.mem_filterMap.mp hmem
    obtain ⟨entry, hentry, hpair⟩ := Option.map_eq_some_iff.mp hread
    refine hs.countP_pos hk hkey hnone ha hentry ?_
    rw [show entry.key = k from congrArg Prod.fst hpair]
    exact hcf
  · exact fun pair it' hstep hpair hcf => hs.delivered_current hk hkey hstep hpair hcf

/-- The theorem at an iteration over one chain, whose middle entry is removed while the iterator stands
on it. -/
theorem iteration_stable_example :
    ∃ rs ht iter it, run (hashtableInit natHash natCmp) [.put 0 0, .put 16 1, .put 32 2] = some (rs, ht) ∧
      hashtableIterator ht = some iter ∧
      [.next, .op (.remove 16), .op (.put 48 3), .next, .next, .next, .next].foldlM Iteration.step
        ⟨ht, iter, []⟩ = some it ∧
      it.delivered.countP (fun p => natCmp 32 p.1 = 0) = 1 := by
  have hall : ∃ p ∈ run (hashtableInit natHash natCmp)
        ([.put 0 0, .put 16 1, .put 32 2] : List (MapOp Nat Nat)),
      ∃ iter ∈ hashtableIterator p.2, ∃ pairs ∈ iterate p.2, pairs.length = 3 ∧
        hashtableGet p.2 32 ≠ some none ∧
        StepsMeet Iteration.step ⟨p.2, iter, []⟩
          [.next, .op (.remove 16), .op (.put 48 3), .next, .next, .next, .next] HasRoom := by
    decide +kernel
  obtain ⟨⟨rs, ht⟩, hrun, iter, hiter, pairs, hpairs, hlen, hthere, hroom⟩ := hall
  obtain ⟨it, hcalls, hend, hkey⟩ := iteration_stable natKeys_lawful hrun hiter hpairs hroom
  refine ⟨rs, ht, iter, it, hrun, hiter, hcalls, (hkey 32 ?_).2.1 hthere (hend ?_)⟩
  · intro k hk
    obtain rfl : k = 16 := by simpa using hk
    decide
  · rw [hlen]
    decide

-- The tenth of these puts makes the table grow: 16 is delivered twice, and 32 never.
example :
    let calls : List (IterCall Nat Nat) :=
      .next :: ((List.range 10).map fun i => .op (.put (i + 1) 0)) ++ List.replicate 13 .next
    ∃ p ∈ run (hashtableInit natHash natCmp) ([.put 0 0, .put 16 1, .put 32 2] : List (MapOp Nat Nat)),
    ∃ iter ∈ hashtableIterator p.2, ∃ it ∈ calls.foldlM Iteration.step ⟨p.2, iter, []⟩,
      hashtableIterHasNext it.iter = false ∧
      it.delivered.map Prod.fst = [0, 16, 1, 2, 3, 4, 5, 6, 7, 8, 9, 10, 16] := by
  decide +kernel

end Flood.Hashtable
