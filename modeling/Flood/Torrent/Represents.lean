import Flood.Torrent.Memory
import Flood.Torrent.Scalars
import Mathlib.Data.List.Forall2
import Mathlib.Data.Set.Insert

/-!
# Values in memory

* `Represents m p v` — at the address `p` of the memory `m` is the value `v`: lists are linked, with
  the addresses of their elements, and dictionaries find what the dictionaries of `v` find.
* `Keeps K m m'` — the memories differ in the cursors and the mutexes of lists at most, and not at all
  at the addresses `K`. `Represents.keeps` — what is represented stays so.
* `Refines K m r r'` — a run in memory comes to what a run on values comes to.
* `forEach_refines` — the loop over a list refines the loop over its elements, if one turn refines
  one turn: it delivers every element once, in order, wherever the cursor was, and no turn disturbs
  it.
-/

namespace Flood.Torrent.Heap

open Flood.Lib Flood.Hashtable Flood.LinkedList Flood.Bencode

variable {σ : Type} {m m' m'' : Memory} {p q : UInt64} {v : BencodeValue} {l l' : ListT}
  {elems : List BencodeValue} {K K' : Set UInt64}

/-! ## Memories that hold the same -/

/-- Two lists with the same nodes. -/
structure SameList (l l' : ListT) : Prop where
  /-- The nodes. -/
  heap : l'.heap = l.heap
  /-- The first. -/
  head : l'.head = l.head
  /-- The last. -/
  tail : l'.tail = l.tail
  /-- The size of an element. -/
  elemSize : l'.elemSize = l.elemSize
  /-- The counter. -/
  len : l'.len = l.len

/-- `list_iter_next` moves the cursor. -/
theorem SameList.iterNext {data : Option Elem} (h : listIterNext l = some (data, l')) :
    SameList l l' := by
  unfold listIterNext at h
  split at h
  next =>
    obtain ⟨-, rfl⟩ := Prod.mk.inj (Option.some.inj h)
    exact ⟨rfl, rfl, rfl, rfl, rfl⟩
  next =>
    obtain ⟨n, -, h⟩ := Option.bind_eq_some_iff.mp h
    split_ifs at h
    obtain ⟨-, rfl⟩ := Prod.mk.inj (Option.some.inj h)
    exact ⟨rfl, rfl, rfl, rfl, rfl⟩

/-- `list_get` locks and unlocks. -/
theorem SameList.get {idx : Int} {data : Option Elem} (h : listGet l idx = some (data, l')) :
    SameList l l' := by
  unfold listGet at h
  split_ifs at h
  · obtain ⟨-, rfl⟩ := Prod.mk.inj (Option.some.inj h)
    exact ⟨rfl, rfl, rfl, rfl, rfl⟩
  · obtain ⟨p, -, h⟩ := Option.bind_eq_some_iff.mp h
    obtain ⟨n, -, h⟩ := Option.bind_eq_some_iff.mp h
    split_ifs at h
    obtain ⟨-, rfl⟩ := Prod.mk.inj (Option.some.inj h)
    exact ⟨rfl, rfl, rfl, rfl, rfl⟩

/-- Two objects that hold the same. -/
inductive SameObject : Object → Object → Prop
  | refl (o : Object) : SameObject o o
  | list {l l' : ListT} (h : SameList l l') : SameObject (.list l) (.list l')

/-- Objects that hold the same as a third. -/
theorem SameObject.trans {o o' o'' : Object} (h : SameObject o o') (h' : SameObject o' o'') :
    SameObject o o'' := by
  cases h with
  | refl _ => exact h'
  | list h =>
      cases h' with
      | refl _ => exact .list h
      | list h' => exact .list ⟨h'.heap.trans h.heap, h'.head.trans h.head, h'.tail.trans h.tail,
          h'.elemSize.trans h.elemSize, h'.len.trans h.len⟩

/-- The second memory holds what the first one does, and at the addresses `K` it is the same. -/
structure Keeps (K : Set UInt64) (m m' : Memory) : Prop where
  /-- What is held. -/
  same : ∀ p o, m.objects p = some o → ∃ o', m'.objects p = some o' ∧ SameObject o o'
  /-- What is the same. -/
  kept : ∀ p ∈ K, m'.objects p = m.objects p

namespace Keeps

/-- A memory keeps itself. -/
theorem refl (K : Set UInt64) (m : Memory) : Keeps K m m :=
  ⟨fun _ o ho => ⟨o, ho, .refl o⟩, fun _ _ => rfl⟩

/-- One change after another. -/
theorem trans (h : Keeps K m m') (h' : Keeps K m' m'') : Keeps K m m'' := by
  refine ⟨fun p o ho => ?_, fun p hp => (h'.kept p hp).trans (h.kept p hp)⟩
  obtain ⟨o', ho', hs⟩ := h.same p o ho
  obtain ⟨o'', ho'', hs'⟩ := h'.same p o' ho'
  exact ⟨o'', ho'', hs.trans hs'⟩

/-- Fewer addresses. -/
theorem mono (h : Keeps K m m') (hsub : K' ⊆ K) : Keeps K' m m' :=
  ⟨h.same, fun p hp => h.kept p (hsub hp)⟩

end Keeps

/-- The member of a value that holds a list. -/
theorem objects_of_list (hl : m.list p = some l) : m.objects p = some (.list l) := by
  unfold Memory.list at hl
  split at hl
  next o ho =>
    obtain rfl := Option.some.inj hl
    exact ho
  next => cases hl

/-- Writing a list that has the same nodes. -/
theorem keeps_setList (hl : m.list p = some l) (hsame : SameList l l') (hp : p ∉ K) :
    Keeps K m (m.setList p l') := by
  have hobj := objects_of_list hl
  constructor
  · intro q o ho
    show ∃ o', (if q = p then (m.objects p).map fun _ => Object.list l' else m.objects q) = some o' ∧ _
    by_cases hq : q = p
    · subst hq
      obtain rfl := Option.some.inj (hobj.symm.trans ho)
      rw [if_pos rfl, ho]
      exact ⟨_, rfl, .list hsame⟩
    · rw [if_neg hq]
      exact ⟨o, ho, .refl o⟩
  · rintro q hq
    refine if_neg ?_
    rintro rfl
    exact hp hq

/-- The list written. -/
theorem list_setList (hl : m.list p = some l) : (m.setList p l').list p = some l' := by
  have hobj : (m.setList p l').objects p = some (.list l') := by
    show (if p = p then _ else _) = _
    rw [if_pos rfl, objects_of_list hl]
    rfl
  rw [Memory.list, hobj]

/-! ## What is represented -/

/-- The value `v` is at the address `p`. -/
inductive Represents (m : Memory) : UInt64 → BencodeValue → Prop
  | string {p : UInt64} {s : BencodeString} {start stop : Int}
      (h : m.objects p = some (.string s)) : Represents m p (.string s start stop)
  | integer {p : UInt64} {n start stop : Int}
      (h : m.objects p = some (.integer n)) : Represents m p (.integer n start stop)
  | list {p : UInt64} {l : ListT} {ps : List Nat} {qs : List UInt64} {elems : List BencodeValue}
      {start stop : Int} (h : m.objects p = some (.list l))
      (hlinked : Linked l ps (qs.map leBytes64)) (hlen : qs.length = elems.length)
      (helems : ∀ (i : Nat) q v, qs[i]? = some q → elems[i]? = some v → Represents m q v) :
      Represents m p (.list elems start stop)
  | dict {p : UInt64} {t : Table CharPtr UInt64} {dict : BencodeDict} {start stop : Int}
      (h : m.objects p = some (.dict t))
      (hnone : ∀ key, lookup t key = none ↔ Torrent.lookup dict key = none)
      (hsome : ∀ key q v, lookup t key = some q → Torrent.lookup dict key = some v →
        Represents m q v) :
      Represents m p (.dict dict start stop)

namespace Represents

/-- **What is represented stays so** while cursors move. -/
theorem keeps (h : Represents m p v) (hk : Keeps K m m') : Represents m' p v := by
  induction h with
  | string h =>
      obtain ⟨o, ho, hs⟩ := hk.same _ _ h
      cases hs with
      | refl _ => exact .string ho
  | integer h =>
      obtain ⟨o, ho, hs⟩ := hk.same _ _ h
      cases hs with
      | refl _ => exact .integer ho
  | list h hlinked hlen _ ih =>
      obtain ⟨o, ho, hs⟩ := hk.same _ _ h
      cases hs with
      | refl _ => exact .list ho hlinked hlen ih
      | list hsame =>
          exact .list ho (hlinked.congr hsame.heap hsame.head hsame.tail hsame.elemSize hsame.len)
            hlen ih
  | dict h hnone _ ih =>
      obtain ⟨o, ho, hs⟩ := hk.same _ _ h
      cases hs with
      | refl _ => exact .dict ho hnone ih

/-- The string of a value that holds one. -/
theorem string_eq {s : BencodeString} (h : Represents m p v) (hv : stringOf v = some s) :
    m.string p = some s := by
  cases h with
  | string h =>
      obtain rfl := Option.some.inj hv
      rw [Memory.string, h]
  | integer _ => cases hv
  | list _ _ _ _ => cases hv
  | dict _ _ _ => cases hv

/-- A value that holds no string. -/
theorem string_none (h : Represents m p v) (hv : stringOf v = none) : m.string p = none := by
  cases h with
  | string _ => cases hv
  | integer h => rw [Memory.string, h]
  | list h _ _ _ => rw [Memory.string, h]
  | dict h _ _ => rw [Memory.string, h]

/-- The integer of a value that holds one. -/
theorem integer_eq {n : Int} (h : Represents m p v) (hv : integerOf v = some n) :
    m.integer p = some n := by
  cases h with
  | string _ => cases hv
  | integer h =>
      obtain rfl := Option.some.inj hv
      rw [Memory.integer, h]
  | list _ _ _ _ => cases hv
  | dict _ _ _ => cases hv

/-- The list of a value that holds one. -/
theorem list_eq (h : Represents m p v) (hv : listOf v = some elems) :
    ∃ l ps qs, m.list p = some l ∧ Linked l ps (qs.map leBytes64) ∧
      List.Forall₂ (Represents m) qs elems := by
  cases h with
  | string _ => cases hv
  | integer _ => cases hv
  | @list _ l ps qs elems' _ _ h hlinked hlen helems =>
      obtain rfl := Option.some.inj hv
      refine ⟨l, ps, qs, by rw [Memory.list, h], hlinked, ?_⟩
      rw [List.forall₂_iff_get]
      refine ⟨hlen, fun i hi hi' => helems i _ _ ?_ ?_⟩
      · exact List.getElem?_eq_getElem hi
      · exact List.getElem?_eq_getElem hi'
  | dict _ _ _ => cases hv

/-- The dictionary of a value that holds one finds what it should. -/
theorem dict_eq {dict : BencodeDict} (h : Represents m p v) (hv : dictOf v = some dict) :
    ∃ t, m.dict p = some t ∧
      (∀ key, Torrent.lookup dict key = none → lookup t key = none) ∧
      ∀ key w, Torrent.lookup dict key = some w → ∃ q, lookup t key = some q ∧ Represents m q w := by
  cases h with
  | string _ => cases hv
  | integer _ => cases hv
  | list _ _ _ _ => cases hv
  | @dict _ t dict' _ _ h hnone hsome =>
      obtain rfl := Option.some.inj hv
      refine ⟨t, by rw [Memory.dict, h], fun key hkey => (hnone key).mpr hkey, fun key w hw => ?_⟩
      cases hq : lookup t key with
      | none =>
          rw [(hnone key).mp hq] at hw
          cases hw
      | some q => exact ⟨q, rfl, hsome key q w hq hw⟩

/-- The counter of a list is the `int` that counts its elements. -/
theorem listLen_eq (h : Represents m p v) (hv : listOf v = some elems) :
    ∃ l, m.list p = some l ∧ listLen l = wrap32 elems.length := by
  obtain ⟨l, ps, qs, hl, hlinked, helems⟩ := h.list_eq hv
  refine ⟨l, hl, ?_⟩
  rw [listLen, hlinked.len, List.length_map, helems.length_eq]

end Represents

/-- A list holds the addresses of one sequence only. -/
theorem pointers_unique {ps ps' : List Nat} {qs qs' : List UInt64}
    (h : Linked l ps (qs.map leBytes64)) (h' : Linked l ps' (qs'.map leBytes64)) : qs = qs' := by
  have hmap : qs.map leBytes64 = qs'.map leBytes64 :=
    Option.some.inj ((forward_spec h).symm.trans (forward_spec h'))
  have hinj : Function.Injective leBytes64 := fun x y hxy => by
    rw [← leWord64_leBytes64 x, hxy, leWord64_leBytes64]
  exact hinj.list_map hmap

/-- **A list of strings and a list of other values are at different addresses**, unless both are
empty. -/
theorem Represents.ne_of_strings {r : UInt64} {w : BencodeValue} {strings : List BencodeValue}
    (hp : Represents m p v) (hv : listOf v = some elems) (hr : Represents m r w)
    (hw : listOf w = some strings) (hothers : ∀ e ∈ elems, stringOf e = none)
    (hstrings : ∀ e ∈ strings, (stringOf e).isSome) (hne : strings ≠ []) : p ≠ r := by
  rintro rfl
  obtain ⟨l, ps, qs, hl, hlinked, helems⟩ := hp.list_eq hv
  obtain ⟨l', ps', qs', hl', hlinked', hstrs⟩ := hr.list_eq hw
  obtain rfl := Option.some.inj (hl.symm.trans hl')
  obtain rfl := pointers_unique hlinked hlinked'
  cases hstrs with
  | nil => exact hne rfl
  | @cons q e qs strings hqs _ =>
      cases helems with
      | @cons _ e' _ elems hq _ =>
          obtain ⟨str, hstr⟩ := Option.isSome_iff_exists.mp (hstrings e List.mem_cons_self)
          have hnone := hq.string_none (hothers e' List.mem_cons_self)
          rw [hqs.string_eq hstr] at hnone
          cases hnone

/-! ## Loops -/

/-- A run in memory comes to what a run on values comes to, and is the same at the addresses `K`. -/
def Refines (K : Set UInt64) (m : Memory) (r : Option (Option Int × Memory × σ)) :
    Option (Option Int × σ) → Prop
  | none => r = none
  | some (code, s) => ∃ m', r = some (code, m', s) ∧ Keeps K m m'

/-- What a step keeps, the run after it starts from. -/
theorem Refines.of_keeps {r : Option (Option Int × Memory × σ)} {r' : Option (Option Int × σ)}
    (h : Refines K m' r r') (hk : Keeps K m m') : Refines K m r r' := by
  cases r' with
  | none => exact h
  | some s =>
      obtain ⟨m'', hr, hk'⟩ := h
      exact ⟨m'', hr, hk.trans hk'⟩

/-- `list_iter_next` in memory, at the `k`-th element. -/
theorem iterNext_spec {ps : List Nat} {qs₁ qs₂ : List UInt64} (hl : m.list p = some l)
    (hlinked : Linked l ps ((qs₁ ++ q :: qs₂).map leBytes64)) (hs : Stands l ps qs₁.length)
    (hp : p ∉ K) :
    ∃ l' m', m.iterNext p = some (q, m') ∧ Keeps K m m' ∧ m'.list p = some l' ∧
      Linked l' ps ((qs₁ ++ q :: qs₂).map leBytes64) ∧ Stands l' ps (qs₁ ++ [q]).length := by
  obtain ⟨l', hnext, hlinked', hs', -⟩ := listIterNext_spec hlinked hs
  have hdata : ((qs₁ ++ q :: qs₂).map leBytes64)[qs₁.length]? = some (leBytes64 q) := by
    rw [List.getElem?_map, List.getElem?_append_right le_rfl, Nat.sub_self,
      List.getElem?_cons_zero, Option.map_some]
  rw [hdata] at hnext
  refine ⟨l', m.setList p l', ?_, keeps_setList hl (.iterNext hnext) hp, list_setList hl, hlinked',
    ?_⟩
  · rw [Memory.iterNext, hl, Option.bind_eq_bind, Option.bind_some, hnext]
    show some (leWord64 (leBytes64 q), _) = _
    rw [leWord64_leBytes64]
  · rwa [List.length_append, List.length_singleton]

section Loop

variable {body : UInt64 → Memory → σ → Option (Option Int × Memory × σ)}
  {f : BencodeValue → σ → Option (Option Int × σ)} {m₀ : Memory}

/-- The rest of the loop over a list. The cursor stands where the turns taken end. -/
theorem whileNext_refines
    (hbody : ∀ q v m s, v ∈ elems → Keeps ∅ m₀ m → Represents m q v →
      Refines (insert p K) m (body q m s) (f v s)) (hp : p ∉ K)
    {qs₁ qs₂ : List UInt64} {ps : List Nat} {vs : List BencodeValue} {fuel : Nat} {s : σ}
    (hm : Keeps ∅ m₀ m) (hl : m.list p = some l) (hlinked : Linked l ps ((qs₁ ++ qs₂).map leBytes64))
    (hs : Stands l ps qs₁.length) (hvs : List.Forall₂ (Represents m₀) qs₂ vs)
    (hsub : ∀ v ∈ vs, v ∈ elems) (hfuel : vs.length < fuel) :
    Refines K m (whileNext p body fuel m s) (through f vs s) := by
  have hmore := listIterHasNext_iff hlinked hs
  rw [List.length_map, List.length_append] at hmore
  obtain ⟨fuel, rfl⟩ := Nat.exists_eq_succ_of_ne_zero (Nat.ne_of_gt (Nat.zero_lt_of_lt hfuel))
  induction hvs generalizing m l qs₁ fuel s with
  | nil =>
      have hend : listIterHasNext l = false := by
        rw [← Bool.not_eq_true, hmore]
        simp
      rw [whileNext, hl, Option.bind_eq_bind, Option.bind_some, hend]
      exact ⟨m, rfl, .refl K m⟩
  | @cons q v qs₂ vs hq _ ih =>
      have hnext : listIterHasNext l = true := by
        rw [hmore, List.length_cons]
        omega
      obtain ⟨l', m₁, hrun, hk, hl', hlinked', hs'⟩ := iterNext_spec hl hlinked hs hp
      have hm₁ : Keeps ∅ m₀ m₁ := hm.trans (hk.mono (Set.empty_subset K))
      have hturn := hbody q v m₁ s (hsub v List.mem_cons_self) hm₁ (hq.keeps hm₁)
      rw [whileNext, hl, Option.bind_eq_bind, Option.bind_some, hnext, if_pos rfl, hrun,
        Option.bind_eq_bind, Option.bind_some, through]
      cases hf : f v s with
      | none =>
          rw [hf] at hturn
          have hstop : body q m₁ s = none := hturn
          dsimp only
          rw [hstop]
          exact rfl
      | some t =>
          obtain ⟨code, s'⟩ := t
          rw [hf] at hturn
          obtain ⟨m₂, hbodyRun, hk₂⟩ := hturn
          have hkK : Keeps K m₁ m₂ := hk₂.mono (Set.subset_insert p K)
          dsimp only
          rw [hbodyRun]
          cases code with
          | some code => exact ⟨m₂, rfl, hk.trans hkK⟩
          | none =>
              have hl₂ : m₂.list p = some l' := by
                rw [Memory.list, hk₂.kept p (Set.mem_insert p K)]
                exact hl'
              have hlinked₂ : Linked l' ps (((qs₁ ++ [q]) ++ qs₂).map leBytes64) := by
                rwa [List.append_assoc]
              obtain ⟨fuel, rfl⟩ : ∃ n, fuel = n + 1 :=
                Nat.exists_eq_succ_of_ne_zero (by rintro rfl; simp at hfuel)
              have hmore₂ := listIterHasNext_iff hlinked₂ hs'
              rw [List.length_map, @List.length_append _ (qs₁ ++ [q])] at hmore₂
              refine Refines.of_keeps ?_ (hk.trans hkK)
              exact ih (hm₁.trans (hkK.mono (Set.empty_subset K))) hl₂ hlinked₂ hs'
                (fun v hv => hsub v (List.mem_cons_of_mem _ hv)) hmore₂ fuel
                (Nat.lt_of_succ_lt_succ hfuel)

/-- **The loop over a list** refines the loop over its elements. -/
theorem forEach_refines (hrep : Represents m p v) (hv : listOf v = some elems) (hp : p ∉ K)
    (hbody : ∀ q e m' s, e ∈ elems → Keeps ∅ m m' → Represents m' q e →
      Refines (insert p K) m' (body q m' s) (f e s)) (s : σ) :
    Refines K m (forEach p body m s) (through f elems s) := by
  obtain ⟨l, ps, qs, hl, hlinked, helems⟩ := hrep.list_eq hv
  have hstart : SameList l (listIterStart l) := ⟨rfl, rfl, rfl, rfl, rfl⟩
  have hk : Keeps K m (m.setList p (listIterStart l)) := keeps_setList hl hstart hp
  have hlinked' : Linked (listIterStart l) ps (([] ++ qs).map leBytes64) :=
    hlinked.congr rfl rfl rfl rfl rfl
  have hnodes : elems.length < l.heap.length + 1 := by
    have hle := Chain.length_le hlinked.chain.forward
    rw [hlinked.length_eq, List.length_map, helems.length_eq] at hle
    exact Nat.lt_succ_of_le hle
  have hloop := whileNext_refines hbody hp (hk.mono (Set.empty_subset K)) (list_setList hl) hlinked'
    (stands_zero hlinked' rfl) helems (fun v hv => hv) hnodes (s := s)
  rw [forEach, hl, Option.bind_eq_bind, Option.bind_some, Memory.iterStart, hl]
  exact hloop.of_keeps hk

end Loop

/-! ## Making memories -/

/-- The memory with these cells. -/
def Memory.ofCells (cells : List (UInt64 × Object))
    (h : ∀ c ∈ cells, c.1.toNat % 8 = 0 ∧ c.1 ≠ 0) : Memory where
  objects p := cells.lookup p
  aligned p hp := by
    obtain ⟨o, ho⟩ := Option.isSome_iff_exists.mp hp
    obtain ⟨before, after, rfl, _⟩ := List.lookup_eq_some_iff.mp ho
    exact h (p, o) (by simp)

/-- A dictionary in memory with these entries. -/
def pointersWith (entries : List (List UInt8 × UInt64)) : Table CharPtr UInt64 :=
  entries.foldl (fun t e => t.put hashFuncStr cmpFuncStr ⟨1, e.1⟩ e.2) Table.init

/-- Putting an entry behind the others. -/
theorem get_foldl_put {V : Type} (entries : List (List UInt8 × V)) (e : List UInt8 × V)
    (key : CharPtr) :
    ((entries ++ [e]).foldl (fun t e => t.put hashFuncStr cmpFuncStr ⟨1, e.1⟩ e.2)
        (Table.init : Table CharPtr V)).get hashFuncStr cmpFuncStr key =
      if cmpFuncStr key ⟨1, e.1⟩ = 0 then some e.2
      else (entries.foldl (fun t e => t.put hashFuncStr cmpFuncStr ⟨1, e.1⟩ e.2)
        (Table.init : Table CharPtr V)).get hashFuncStr cmpFuncStr key := by
  rw [List.foldl_append, List.foldl_cons, List.foldl_nil]
  apply Table.WF.get_put strKeys_lawful
  have hwf := Table.WF.init.foldl_put strKeys_lawful
    (entries.map fun e => ((⟨1, e.1⟩ : CharPtr), e.2))
  rwa [List.foldl_map] at hwf

/-- What a dictionary of two entries finds. -/
theorem lookup_pair (k₁ k₂ key : List UInt8) (v₁ v₂ : BencodeValue) :
    Torrent.lookup (dictWith [(k₁, v₁), (k₂, v₂)]) key =
      if cmpFuncStr ⟨0, key⟩ ⟨1, k₂⟩ = 0 then some v₂
      else if cmpFuncStr ⟨0, key⟩ ⟨1, k₁⟩ = 0 then some v₁ else none := by
  have hlast := get_foldl_put [(k₁, v₁)] (k₂, v₂) ⟨0, key⟩
  have hfirst := get_foldl_put [] (k₁, v₁) ⟨0, key⟩
  have hnone : (Table.init : BencodeDict).get hashFuncStr cmpFuncStr ⟨0, key⟩ = none :=
    Table.WF.init.get_eq_lookup strKeys_lawful _
  rw [List.nil_append, List.foldl_nil, hnone] at hfirst
  rw [hfirst] at hlast
  exact hlast

/-- A dictionary in memory and one of values that were made alike find alike. -/
theorem lookup_with (entries : List (List UInt8 × UInt64 × BencodeValue)) (key : List UInt8) :
    (lookup (pointersWith (entries.map fun e => (e.1, e.2.1))) key = none ∧
      Torrent.lookup (dictWith (entries.map fun e => (e.1, e.2.2))) key = none) ∨
    ∃ e ∈ entries, lookup (pointersWith (entries.map fun e => (e.1, e.2.1))) key = some e.2.1 ∧
      Torrent.lookup (dictWith (entries.map fun e => (e.1, e.2.2))) key = some e.2.2 := by
  induction entries using List.reverseRecOn with
  | nil =>
      refine .inl ⟨?_, ?_⟩
      · exact Table.WF.init.get_eq_lookup strKeys_lawful _
      · exact Table.WF.init.get_eq_lookup strKeys_lawful _
  | append_singleton entries e ih =>
      simp only [lookup, Torrent.lookup, pointersWith, dictWith, List.map_append, List.map_cons,
        List.map_nil, get_foldl_put] at ih ⊢
      split_ifs
      · exact .inr ⟨e, by simp, rfl, rfl⟩
      · rcases ih with hnone | ⟨e', he', hfound⟩
        · exact .inl hnone
        · exact .inr ⟨e', by simp [he'], hfound⟩

/-- Such dictionaries represent each other. -/
theorem Represents.dictWith (entries : List (List UInt8 × UInt64 × BencodeValue))
    (h : m.objects p = some (.dict (pointersWith (entries.map fun e => (e.1, e.2.1)))))
    (hentries : ∀ e ∈ entries, Represents m e.2.1 e.2.2) (start stop : Int) :
    Represents m p (.dict (dictWith (entries.map fun e => (e.1, e.2.2))) start stop) := by
  refine .dict h (fun key => ?_) fun key q v hq hv => ?_
  · rcases lookup_with entries key with ⟨hp, hd⟩ | ⟨e, _, hp, hd⟩
    · exact iff_of_true hp hd
    · exact iff_of_false (by rw [hp]; simp) (by rw [hd]; simp)
  · rcases lookup_with entries key with ⟨hp, _⟩ | ⟨e, he, hp, hd⟩
    · rw [hp] at hq
      cases hq
    · obtain rfl := Option.some.inj (hp.symm.trans hq)
      obtain rfl := Option.some.inj (hd.symm.trans hv)
      exact hentries e he

/-- There is a list of any elements that the counter does not miss. -/
theorem exists_list (qs : List UInt64) (hn : qs.length ≤ 2 ^ 32) :
    ∃ l ps, Linked l ps (qs.map leBytes64) ∧ l.elemSize = 8 := by
  induction qs using List.reverseRecOn with
  | nil => exact ⟨listNew 8, [], Linked.listNew 8, rfl⟩
  | append_singleton qs q ih =>
      rw [List.length_append, List.length_singleton] at hn
      obtain ⟨l, ps, hl, hsize⟩ := ih (by omega)
      have hlen : (leBytes64 q).length = l.elemSize := by rw [hsize, length_leBytes64]
      obtain ⟨l', _, ⟨ps', hl'⟩, heffect⟩ := listAppend_spec hl (le_of_eq hlen.symm)
      refine ⟨l', ps', ?_, heffect.elemSize.trans hsize⟩
      rw [List.take_of_length_le (le_of_eq hlen)] at hl'
      rw [List.map_append, List.map_singleton]
      unfold appended at hl'
      split_ifs at hl' with hz
      · have hnil : qs.map leBytes64 = [] := by
          refine (hl.of_len_zero hz).resolve_right fun hfull => ?_
          rw [List.length_map] at hfull
          omega
        rw [hnil]
        exact hl'
      · exact hl'

/-- A list whose elements are at these addresses. -/
theorem Represents.ofPointers {ps : List Nat} {qs : List UInt64} {elems : List BencodeValue}
    (h : m.objects p = some (.list l)) (hl : Linked l ps (qs.map leBytes64))
    (hall : List.Forall₂ (Represents m) qs elems) (start stop : Int) :
    Represents m p (.list elems start stop) := by
  refine .list h hl hall.length_eq fun i q v hq hv => ?_
  refine (List.forall₂_iff_zip.mp hall).2 (List.mem_of_getElem? (i := i) ?_)
  rw [List.getElem?_zip_eq_some]
  exact ⟨hq, hv⟩

/-- A list whose elements are all at one address. -/
theorem Represents.replicate {n : Nat} {ps : List Nat} (h : m.objects p = some (.list l))
    (hl : Linked l ps ((List.replicate n q).map leBytes64)) (hv : Represents m q v)
    (start stop : Int) : Represents m p (.list (List.replicate n v) start stop) := by
  refine .ofPointers h hl ?_ start stop
  rw [List.forall₂_iff_zip]
  refine ⟨by simp, fun hmem => ?_⟩
  obtain ⟨hq', hv'⟩ := List.of_mem_zip hmem
  rw [List.eq_of_mem_replicate hq', List.eq_of_mem_replicate hv']
  exact hv

end Flood.Torrent.Heap
