import Flood.Hashtable.Growth
import Flood.Hashtable.Iterate
import Flood.Lib.Holes

/-!
# Freeing the table

`hashtable_free`, which no other function calls, on what a table has allocated.

* `Allocs` — the entries, with holes where one has been freed, and the array. To read or to free what
  has been freed is `none`.
* `hashtableFree_spec` — along disjoint chains that end, each entry is read before it is freed, and
  freed once.
* `Reachable ht a` — the entry at `a` is on a chain; `reachable_iff`.
* `length_heap_put` — only a put of a new key allocates an entry; `unlinked_of_run` — only a remove
  that finds its key leaves one off all chains.
* `free_releases` — after every run, freeing is safe and leaves the entries that `hashtable_remove`
  has unlinked, which nothing points to. Freeing a second time is not safe.
-/

namespace Flood.Hashtable

open Flood.Lib

variable {K V : Type} {hf : K → UInt32} {cf : K → K → Int} {ht ht' : HashtableT K V}
  {chains : List (List Nat)} {ps : List Nat} {t : Table K V} {ops : List (MapOp K V)}

/-! ## Memory -/

/-- What a table has allocated. -/
structure Allocs (K V : Type) where
  /-- The entries; a freed one is a hole. -/
  entries : List (Option (Entry K V))
  /-- The array; `none` when it is freed. -/
  table : Option (List (Option Nat))

namespace Allocs

variable (m : Allocs K V)

/-- The entry at an address. -/
def entry (a : Nat) : Option (Entry K V) := m.entries[a]?.join

/-- `free(e)` -/
def freeEntry (a : Nat) : Option (Allocs K V) := do
  let _ ← m.entry a
  some { m with entries := m.entries.set a none }

/-- `ht->table[i]` -/
def slot (i : Nat) : Option (Option Nat) := do
  let table ← m.table
  table[i]?

/-- `free(ht->table)` -/
def freeTable : Option (Allocs K V) := do
  let _ ← m.table
  some { m with table := none }

end Allocs

/-- The allocations of a table in use. -/
def HashtableT.allocs (ht : HashtableT K V) : Allocs K V := ⟨ht.heap.map some, some ht.table⟩

/-- The `while` loop of `hashtable_free`. The next pointer is read before the entry is freed. -/
def freeChain : Nat → Option Nat → Allocs K V → Option (Allocs K V)
  | _, none, m => some m
  | 0, some _, _ => none
  | fuel + 1, some e, m => do
      let entry ← m.entry e
      let m ← m.freeEntry e
      freeChain fuel entry.next m

/-- The `for` loop of `hashtable_free`, from slot `i` on. -/
def freeSlots (cap : Int) : Nat → Nat → Allocs K V → Option (Allocs K V)
  | 0, _, _ => none
  | fuel + 1, i, m =>
      if (i : Int) < cap then do
        let e ← m.slot i
        let m ← freeChain m.entries.length e m
        freeSlots cap fuel (i + 1) m
      else some m

/-- Free the entries and the array of a table of `cap` slots.
Source: `hashtable.c`, `hashtable_free` -/
def hashtableFree (cap : Int) (m : Allocs K V) : Option (Allocs K V) := do
  let m ← freeSlots cap (cap.toNat + 1) 0 m
  m.freeTable

/-! ## One chain, and all -/

/-- The loop along a chain whose entries are all there frees them. -/
theorem freeChain_spec {heap : List (Entry K V)} {m : Allocs K V} {fuel : Nat} {e : Option Nat}
    (hc : Chain Entry.next heap e ps) (hlive : ∀ a ∈ ps, m.entry a = heap[a]?)
    (hfuel : ps.length ≤ fuel) :
    freeChain fuel e m = some { m with entries := release m.entries ps } := by
  induction ps generalizing fuel e m with
  | nil =>
      rw [Chain, Seg.nil_iff] at hc
      subst hc
      cases fuel <;> rfl
  | cons a ps ih =>
      have hnot : a ∉ ps := (List.nodup_cons.mp hc.nodup).1
      obtain ⟨rfl, entry, hentry, hc⟩ := Seg.cons_iff.mp hc
      obtain ⟨fuel, rfl, hfuel'⟩ := exists_fuel hfuel
      have hread : m.entry a = some entry := (hlive a List.mem_cons_self).trans hentry
      have hrest : ∀ b ∈ ps,
          ({ m with entries := m.entries.set a none } : Allocs K V).entry b = heap[b]? := by
        intro b hb
        have hne : a ≠ b := fun hab => hnot (by rwa [hab])
        rw [← hlive b (List.mem_cons_of_mem a hb), Allocs.entry, List.getElem?_set_ne hne, Allocs.entry]
      rw [release_cons, ← ih hc hrest hfuel']
      simp [freeChain, hread, Allocs.freeEntry]

/-- The loop over the slots frees the chains from slot `i` on. -/
theorem freeSlots_spec (hl : Linked ht.heap ht.table chains) {cap : Int}
    (hcap : cap = ht.table.length) {fuel i : Nat} {m : Allocs K V} (hi : i ≤ chains.length)
    (htable : m.table = some ht.table) (hlen : m.entries.length = ht.heap.length)
    (hlive : ∀ a ∈ (chains.drop i).flatten, m.entry a = ht.heap[a]?)
    (hfuel : chains.length < fuel + i) :
    freeSlots cap fuel i m = some { m with entries := release m.entries (chains.drop i).flatten } := by
  induction fuel generalizing i m with
  | zero => omega
  | succ fuel ih =>
      rw [freeSlots]
      split_ifs with hlt
      · have hi' : i < ht.table.length := by omega
        obtain ⟨e, ps, he, hps, hc⟩ := hl.exists_chain hi'
        have hdrop : chains.drop i = ps :: chains.drop (i + 1) := by
          obtain ⟨hlt', rfl⟩ := List.getElem?_eq_some_iff.mp hps
          exact List.drop_eq_getElem_cons hlt'
        rw [hdrop, List.flatten_cons] at hlive ⊢
        have hslot : m.slot i = some e := by
          rw [Allocs.slot, htable]
          exact he
        have hchain := freeChain_spec hc (fun a ha => hlive a (List.mem_append_left _ ha))
          (hlen ▸ hc.length_le)
        -- the chains behind share no address with this one
        have hnd : (ps ++ (chains.drop (i + 1)).flatten).Nodup := by
          have hsub := (List.drop_sublist i chains).flatten
          rw [hdrop, List.flatten_cons] at hsub
          exact hsub.nodup hl.nodup_flatten
        have hdisj := (List.nodup_append.mp hnd).2.2
        have hrest : ∀ a ∈ (chains.drop (i + 1)).flatten,
            ({ m with entries := release m.entries ps } : Allocs K V).entry a = ht.heap[a]? := by
          intro a ha
          have hnot : a ∉ ps := fun hmem => hdisj a hmem a ha rfl
          rw [← hlive a (List.mem_append_right ps ha), Allocs.entry,
            getElem?_release_of_notMem hnot, Allocs.entry]
        have hnext : i + 1 ≤ chains.length := hl.length_eq ▸ hi'
        have hloop := ih (m := { m with entries := release m.entries ps }) hnext htable
          (by rwa [length_release]) hrest (by omega)
        rw [hslot, Option.bind_eq_bind, Option.bind_some, hchain, Option.bind_eq_bind,
          Option.bind_some, hloop, release_append]
      · have hend : chains.length ≤ i := by
          have := hl.length_eq
          omega
        rw [List.drop_of_length_le hend]
        rfl

/-- **Each entry of a chain is freed once, after it has been read**, and then the array. -/
theorem hashtableFree_spec (hl : Linked ht.heap ht.table chains)
    (hcap : ht.cap = ht.table.length) :
    hashtableFree ht.cap ht.allocs = some ⟨release (ht.heap.map some) chains.flatten, none⟩ := by
  have hlive : ∀ a ∈ (chains.drop 0).flatten, ht.allocs.entry a = ht.heap[a]? := by
    intro a _
    rw [Allocs.entry, HashtableT.allocs, List.getElem?_map]
    cases ht.heap[a]? <;> rfl
  have hfuel : chains.length < ht.cap.toNat + 1 + 0 := by
    have := hl.length_eq
    omega
  have hslots := freeSlots_spec hl hcap (Nat.zero_le _) rfl (List.length_map some) hlive hfuel
  rw [hashtableFree, hslots]
  rfl

/-- The array of a freed table cannot be read again. -/
theorem hashtableFree_freed {cap : Int} (hpos : 0 < cap) (entries : List (Option (Entry K V))) :
    hashtableFree cap ⟨entries, none⟩ = none := by
  rw [hashtableFree, freeSlots, if_pos (by exact_mod_cast hpos)]
  rfl

/-! ## The entries on the chains -/

/-- The entry at an address can be reached from the array. -/
inductive Reachable (ht : HashtableT K V) : Nat → Prop
  /-- It is the first of a slot. -/
  | slot {i a : Nat} (h : ht.table[i]? = some (some a)) : Reachable ht a
  /-- It is the next of one that can be reached. -/
  | next {a b : Nat} {e : Entry K V} (h : Reachable ht a) (he : ht.heap[a]? = some e)
      (hnext : e.next = some b) : Reachable ht b

/-- The entry that a chain starts at is on it. -/
theorem first_mem {heap : List (Entry K V)} {a : Nat} (hc : Chain Entry.next heap (some a) ps) :
    a ∈ ps := by
  cases ps with
  | nil => exact absurd (Seg.nil_iff.mp hc) (Option.some_ne_none a)
  | cons b ps =>
      obtain ⟨hab, _⟩ := Seg.cons_iff.mp hc
      exact Option.some.inj hab ▸ List.mem_cons_self

/-- The next entry of one on a chain is on the chain. -/
theorem mem_of_next {heap : List (Entry K V)} {p : Option Nat} {a b : Nat} {e : Entry K V}
    (hc : Chain Entry.next heap p ps) (ha : a ∈ ps) (he : heap[a]? = some e)
    (hnext : e.next = some b) : b ∈ ps := by
  induction ps generalizing p with
  | nil => exact absurd ha List.not_mem_nil
  | cons c ps ih =>
      obtain ⟨-, entry, hentry, hrest⟩ := Seg.cons_iff.mp hc
      rcases List.mem_cons.mp ha with rfl | ha
      · obtain rfl := Option.some.inj (hentry.symm.trans he)
        rw [hnext] at hrest
        exact List.mem_cons_of_mem _ (first_mem hrest)
      · exact List.mem_cons_of_mem _ (ih hrest ha)

/-- What a chain that starts at a reachable entry consists of is reachable. -/
theorem reachable_of_mem {p : Option Nat} {a : Nat} (hc : Chain Entry.next ht.heap p ps)
    (hp : ∀ b, p = some b → Reachable ht b) (ha : a ∈ ps) : Reachable ht a := by
  induction ps generalizing p with
  | nil => exact absurd ha List.not_mem_nil
  | cons c ps ih =>
      obtain ⟨rfl, entry, hentry, hc⟩ := Seg.cons_iff.mp hc
      have hfirst : Reachable ht c := hp c rfl
      rcases List.mem_cons.mp ha with rfl | ha
      · exact hfirst
      · exact ih hc (fun b hb => .next hfirst hentry hb) ha

/-- The chain that an address is on. -/
theorem Linked.exists_chain_of_mem (hl : Linked ht.heap ht.table chains) {a : Nat}
    (ha : a ∈ chains.flatten) :
    ∃ (i : Nat) (p : Option Nat) (ps : List Nat), ht.table[i]? = some p ∧ ps ∈ chains ∧
      Chain Entry.next ht.heap p ps ∧ a ∈ ps := by
  obtain ⟨ps, hmem, ha⟩ := List.mem_flatten.mp ha
  obtain ⟨i, hps⟩ := List.mem_iff_getElem?.mp hmem
  obtain ⟨hlt, _⟩ := List.getElem?_eq_some_iff.mp hps
  obtain ⟨p, qs, hp, hqs, hc⟩ := hl.exists_chain (hl.length_eq ▸ hlt)
  obtain rfl := Option.some.inj (hps.symm.trans hqs)
  exact ⟨i, p, ps, hp, hmem, hc, ha⟩

/-- **The entries of the chains are those that can be reached.** -/
theorem reachable_iff (hl : Linked ht.heap ht.table chains) {a : Nat} :
    Reachable ht a ↔ a ∈ chains.flatten := by
  constructor
  · intro h
    induction h with
    | @slot i a h =>
        obtain ⟨hlt, _⟩ := List.getElem?_eq_some_iff.mp h
        obtain ⟨p, ps, hp, hps, hc⟩ := hl.exists_chain hlt
        obtain rfl := Option.some.inj (h.symm.trans hp)
        exact List.mem_flatten.mpr ⟨ps, List.mem_of_getElem? hps, first_mem hc⟩
    | @next a b e _ he hnext ih =>
        obtain ⟨_, p, ps, _, hmem, hc, ha⟩ := hl.exists_chain_of_mem ih
        exact List.mem_flatten.mpr ⟨ps, hmem, mem_of_next hc ha he hnext⟩
  · intro h
    obtain ⟨_, p, ps, hp, _, hc, ha⟩ := hl.exists_chain_of_mem h
    exact reachable_of_mem hc (fun b hb => .slot (hb ▸ hp)) ha

/-! ## What is allocated and what is unlinked -/

/-- The loop of `hashtable_put` allocates an entry iff it returns `0`. -/
theorem length_heap_putLoop {key : K} {val : V} {fuel : Nat} {last e : Option Nat} {code : Int}
    (h : putLoop ht key val fuel last e = some (code, ht')) :
    (ht'.heap.length : Int) = ht.heap.length + 1 - code := by
  induction fuel generalizing last e with
  | zero =>
      cases e with
      | none =>
          simp only [putLoop, Option.bind_eq_bind, Option.bind_eq_some_iff] at h
          obtain ⟨l, -, node, -, h⟩ := h
          obtain ⟨rfl, rfl⟩ := Prod.mk.inj (Option.some.inj h)
          simp
      | some e => exact absurd h (by simp [putLoop])
  | succ fuel ih =>
      cases e with
      | none =>
          simp only [putLoop, Option.bind_eq_bind, Option.bind_eq_some_iff] at h
          obtain ⟨l, -, node, -, h⟩ := h
          obtain ⟨rfl, rfl⟩ := Prod.mk.inj (Option.some.inj h)
          simp
      | some e =>
          simp only [putLoop, Option.bind_eq_bind, Option.bind_eq_some_iff] at h
          obtain ⟨entry, -, h⟩ := h
          split_ifs at h with hkey
          · obtain ⟨rfl, rfl⟩ := Prod.mk.inj (Option.some.inj h)
            simp
          · exact ih h

/-- Growing allocates no entry. -/
theorem length_heap_growTable (hr : Repr hf cf ht t) (hw : t.WF hf cf)
    (hgrow : growTable ht = some ht') : ht'.heap.length = ht.heap.length := by
  obtain ⟨chains, hchained⟩ := Chained.of_repr hr hw
  have hmax : 2 * ht.cap ≤ intMax := by
    by_contra hmax
    rw [growTable_eq_none (hr.cap_eq ▸ hr.cap_fits.2) hmax] at hgrow
    exact absurd hgrow (by simp)
  obtain ⟨heap', table', hrun, -, -, hpair⟩ :=
    growTable_linked hchained.linked hchained.capacity hmax
  obtain rfl := Option.some.inj (hgrow.symm.trans hrun)
  have hsame : heap'.map Entry.pair = ht.heap.map Entry.pair := by
    apply List.ext_getElem?
    intro b
    rw [List.getElem?_map, List.getElem?_map, hpair b]
  simpa using congrArg List.length hsame

/-- `hashtable_put` allocates an entry iff it returns `0`. -/
theorem length_heap_put (hr : Repr hf cf ht t) (hw : t.WF hf cf) {key : K} {val : V} {code : Int}
    (h : hashtablePut ht key val = some (code, ht')) :
    (ht'.heap.length : Int) = ht.heap.length + 1 - code := by
  rw [hashtablePut_eq, Option.bind_eq_some_iff] at h
  obtain ⟨ht₁, hroom, h⟩ := h
  have hlen : ht₁.heap.length = ht.heap.length := by
    split_ifs at hroom
    · exact length_heap_growTable hr hw hroom
    · rw [Option.some.inj hroom]
  rw [← hlen]
  simp only [putEntry, Option.bind_eq_bind, Option.bind_eq_some_iff] at h
  obtain ⟨p, -, h⟩ := h
  cases p with
  | none =>
      obtain ⟨rfl, rfl⟩ := Prod.mk.inj (Option.some.inj h)
      simp
  | some e =>
      have hloop : putLoop { ht₁ with size := wrap32 (ht₁.size + 1) } key val ht₁.heap.length none
          (some e) = some (code, ht') := h
      have hlen := length_heap_putLoop hloop
      exact hlen

/-- The loop of `hashtable_remove` allocates and frees nothing. -/
theorem length_heap_removeLoop {key : K} {index fuel : Nat} {prev e : Option Nat} {val : Option V}
    (h : removeLoop ht key index fuel prev e = some (val, ht')) :
    ht'.heap.length = ht.heap.length := by
  induction fuel generalizing prev e with
  | zero =>
      cases e with
      | none => rw [(Prod.mk.inj (Option.some.inj h)).2]
      | some e => exact absurd h (by simp [removeLoop])
  | succ fuel ih =>
      cases e with
      | none => rw [(Prod.mk.inj (Option.some.inj h)).2]
      | some e =>
          simp only [removeLoop, Option.bind_eq_bind, Option.bind_eq_some_iff] at h
          obtain ⟨entry, -, h⟩ := h
          split_ifs at h with hkey
          · cases prev with
            | none =>
                obtain ⟨rfl, rfl⟩ := Prod.mk.inj (Option.some.inj h)
                rfl
            | some prev =>
                simp only [Option.bind_eq_some_iff] at h
                obtain ⟨node, -, h⟩ := h
                obtain ⟨rfl, rfl⟩ := Prod.mk.inj (Option.some.inj h)
                exact List.length_set
          · exact ih h

/-- Nor does `hashtable_remove`. -/
theorem length_heap_remove {key : K} {val : Option V} (h : hashtableRemove ht key = some (val, ht')) :
    ht'.heap.length = ht.heap.length := by
  simp only [hashtableRemove, Option.bind_eq_bind, Option.bind_eq_some_iff] at h
  obtain ⟨p, -, h⟩ := h
  cases p with
  | none => rw [← (Prod.mk.inj (Option.some.inj h)).2]
  | some e =>
      have hloop : removeLoop { ht with size := wrap32 (ht.size - 1) } key
          (slotOf ht.hashFunc key ht.cap) ht.heap.length none (some e) = some (val, ht') := h
      have hlen := length_heap_removeLoop hloop
      exact hlen

/-- The answer of a remove that has found its key. -/
def removed : MapReply V → Bool
  | .remove val => val.isSome
  | .put _ | .get _ => false

/-- **One operation**: the entries on no chain become one more iff it is a remove that finds its
key. -/
theorem unlinked_step (op : MapOp K V) (hk : LawfulKeys hf cf) (hr : Repr hf cf ht t)
    (hw : t.WF hf cf) (hstep : step ht op = some (op.reply (t.get hf cf), ht')) :
    ht'.heap.length + t.entries.length =
      ht.heap.length + (t.step hf cf op).entries.length +
        (if removed (op.reply (t.get hf cf)) then 1 else 0) := by
  cases op with
  | put key val =>
      have hlen := hw.length_entries_put hk key val
      rw [step, Option.bind_eq_bind, Option.bind_eq_some_iff] at hstep
      obtain ⟨⟨code, ht₁⟩, hput, hret⟩ := hstep
      obtain ⟨hcode, rfl⟩ := Prod.mk.inj (Option.some.inj hret)
      have hheap := length_heap_put hr hw hput
      have hcode' : code = if (t.get hf cf key).isSome then 1 else 0 := MapReply.put.inj hcode
      show ht₁.heap.length + _ = _ + (t.put hf cf key val).entries.length + 0
      cases hget : t.get hf cf key with
      | none =>
          rw [hget] at hlen hcode'
          simp only [Option.isSome_none, Bool.false_eq_true, if_false] at hcode'
          rw [if_pos rfl] at hlen
          omega
      | some v =>
          rw [hget] at hlen hcode'
          simp only [Option.isSome_some, if_true] at hcode'
          rw [if_neg (Option.some_ne_none v)] at hlen
          omega
  | get key =>
      rw [step, Option.bind_eq_bind, Option.bind_eq_some_iff] at hstep
      obtain ⟨val, -, hret⟩ := hstep
      obtain ⟨-, rfl⟩ := Prod.mk.inj (Option.some.inj hret)
      rfl
  | remove key =>
      have hlen := hw.length_entries_remove key
      rw [step, Option.bind_eq_bind, Option.bind_eq_some_iff] at hstep
      obtain ⟨⟨val, ht₁⟩, hremove, hret⟩ := hstep
      obtain ⟨-, rfl⟩ := Prod.mk.inj (Option.some.inj hret)
      have hheap := length_heap_remove hremove
      show ht₁.heap.length + _ = _ + (t.remove hf cf key).entries.length +
        (if (t.get hf cf key).isSome then 1 else 0)
      cases hget : t.get hf cf key with
      | none =>
          rw [hget, if_pos rfl] at hlen
          simp only [Option.isSome_none, Bool.false_eq_true, if_false]
          omega
      | some v =>
          rw [hget, if_neg (Option.some_ne_none v)] at hlen
          simp only [Option.isSome_some, if_true]
          omega

/-- **A run**: the entries on no chain become as many more as there are removes that find their
key. -/
theorem unlinked_of_run (hk : LawfulKeys hf cf) (hr : Repr hf cf ht t) (hw : t.WF hf cf)
    {rs : List (MapReply V)} (hrun : run ht ops = some (rs, ht')) :
    ∃ t', Repr hf cf ht' t' ∧ t'.WF hf cf ∧
      ht'.heap.length + t.entries.length =
        ht.heap.length + t'.entries.length + rs.countP removed := by
  induction ops generalizing ht t rs with
  | nil =>
      obtain ⟨rfl, rfl⟩ := Prod.mk.inj (Option.some.inj hrun)
      exact ⟨t, hr, hw, rfl⟩
  | cons op ops ih =>
      obtain ⟨reply, ht₁, rs₁, hstep, hrest⟩ := exists_step_of_run hrun
      obtain ⟨ht₂, hstep', hr₁⟩ := step_spec op hk hr hw (cap_of_step hr hstep)
      obtain ⟨hreply, rfl⟩ := Prod.mk.inj (Option.some.inj (hstep.symm.trans hstep'))
      have hone := unlinked_step op hk hr hw hstep'
      obtain ⟨t', hr', hw', hmany⟩ := ih hr₁ (hw.step hk op) hrest
      refine ⟨t', hr', hw', ?_⟩
      rw [run_cons hstep, hrest] at hrun
      have hrs : reply :: rs₁ = rs := (Prod.mk.inj (Option.some.inj hrun)).1
      rw [← hrs, List.countP_cons, hreply]
      omega

/-! ## Freeing after a run -/

/-- **Freeing after a run.** After every run from the fresh table, `hashtable_free` reads nothing that
it has freed, frees nothing twice, and leaves no array. The entries it leaves are those that cannot
be reached, as many as removes of the run have found their key. To call it again is to read the
array that it has freed. -/
theorem free_releases (hk : LawfulKeys hf cf) {rs : List (MapReply V)}
    (hrun : run (hashtableInit hf cf) ops = some (rs, ht)) :
    ∃ left, hashtableFree ht.cap ht.allocs = some left ∧ left.table = none ∧
      (∀ a e, left.entry a = some e ↔ ht.heap[a]? = some e ∧ ¬ Reachable ht a) ∧
      left.entries.countP Option.isSome = rs.countP removed ∧
      hashtableFree ht.cap left = none := by
  obtain ⟨t, hr, hw, hlen⟩ := unlinked_of_run hk (.init hf cf) .init hrun
  obtain ⟨chains, hl, hb⟩ := hr.linked
  have hcap : ht.cap = ht.table.length := by
    rw [hr.cap_eq_length hw hb, hl.length_eq]
  have hpos : 0 < ht.cap := by
    rw [hr.cap_eq]
    exact_mod_cast hw.cap_pos
  refine ⟨_, hashtableFree_spec hl hcap, rfl, fun a e => ?_, ?_, hashtableFree_freed hpos _⟩
  · have hcell : (ht.heap.map some)[a]?.join = ht.heap[a]? := by
      rw [List.getElem?_map]
      cases ht.heap[a]? <;> rfl
    rw [Allocs.entry, join_getElem?_release_eq_some_iff, hcell, reachable_iff hl]
  · have hlive : ∀ a ∈ chains.flatten, ∃ e, (ht.heap.map some)[a]?.join = some e := by
      intro a ha
      have hlt := hl.lt_of_mem_flatten ha
      exact ⟨ht.heap[a], by rw [List.getElem?_map, List.getElem?_eq_getElem hlt]; rfl⟩
    have hcount := countP_release hl.nodup_flatten hlive
    rw [countP_map_some] at hcount
    -- an entry of the table for each address of the chains
    have hentries : t.entries.length = chains.flatten.length := by
      rw [Table.entries, hb, flatten_map_pairsAt, hl.length_pairsAt]
    have hinit : (Table.init : Table K V).entries.length = 0 := by
      rw [Table.entries, Table.init]
      simp
    have hfresh : (hashtableInit hf cf : HashtableT K V).heap.length = 0 := rfl
    show (release (ht.heap.map some) chains.flatten).countP Option.isSome = rs.countP removed
    omega

/-- The theorem at a run that puts, overwrites across a collision and removes. -/
theorem free_releases_example :
    ∃ rs ht, run (hashtableInit natHash natCmp)
        [.put 1 10, .put 17 20, .put 1 30, .remove 17, .remove 4] = some (rs, ht) ∧
      ∃ left, hashtableFree ht.cap ht.allocs = some left ∧ left.table = none ∧
        (∀ a e, left.entry a = some e ↔ ht.heap[a]? = some e ∧ ¬ Reachable ht a) ∧
        left.entries.countP Option.isSome = rs.countP removed ∧
        hashtableFree ht.cap left = none := by
  have hsome : (run (hashtableInit natHash natCmp) ([.put 1 10, .put 17 20, .put 1 30, .remove 17,
      .remove 4] : List (MapOp Nat Nat))).isSome = true := by
    decide +kernel
  obtain ⟨⟨rs, ht⟩, hrun⟩ := Option.isSome_iff_exists.mp hsome
  exact ⟨rs, ht, hrun, free_releases natKeys_lawful hrun⟩

end Flood.Hashtable
