import Flood.Lib.Chain

/-!
# Doubly linked chains in a heap of nodes

Two link fields, `next` and `prev`, that hold one sequence of addresses in both directions.

* `DoubleChain next prev h head tail ps` — from `head` along `next` the addresses are `ps`, from
  `tail` along `prev` they are `ps` reversed.
* `DoubleChain.head_eq`, `DoubleChain.tail_eq`, `DoubleChain.links` — what the ends and every node
  point to.
* `DoubleChain.insert` — linking a node in, at either end or between two neighbours, as one rule;
  `DoubleChain.dropLast` — unlinking the last node.

Each rule is proved once for a singly linked chain (`Chain.insert`, `Chain.dropLast`) and used in
both directions.
-/

namespace Flood.Lib

variable {N : Type} {next prev : N → Option Nat} {h h' : List N} {p q : Option Nat}
  {ps l r : List Nat} {b : Nat}

/-! ## One direction -/

/-- A segment starts at its first address. -/
theorem Seg.start_eq (hs : Seg next h p ps q) : p = ps.head?.or q := by
  cases hs with
  | nil => rfl
  | cons _ _ => rfl

/-- A chain starts at its first address. -/
theorem Chain.start_eq (hs : Chain next h p ps) : p = ps.head? := by
  rw [Seg.start_eq hs, Option.or_none]

/-- The link of a node of a chain is the next address. -/
theorem Chain.link (hs : Chain next h p (l ++ b :: r)) :
    ∃ n, h[b]? = some n ∧ next n = r.head? := by
  obtain ⟨_, _, hb⟩ := Seg.append_iff.mp hs
  obtain ⟨_, n, hn, hr⟩ := Seg.cons_iff.mp hb
  exact ⟨n, hn, Chain.start_eq hr⟩

/-- Linking `b` in behind the addresses `l`: the last of them is redirected to `b`, and `b` points
to what comes next. -/
theorem Chain.insert (hs : Chain next h p (l ++ r))
    (hlink : ∀ a ∈ l ++ r, (h'[a]?).map next =
      if l.getLast? = some a then some (some b) else (h[a]?).map next)
    (hb : ∃ n, h'[b]? = some n ∧ next n = r.head?) :
    Chain next h' (if l = [] then some b else p) (l ++ b :: r) := by
  obtain ⟨n, hn, hbr⟩ := hb
  rcases List.eq_nil_or_concat l with rfl | ⟨l, a, rfl⟩
  · have hr : Chain next h' p r := hs.frame fun a ha => by
      rw [hlink a ha, List.getLast?_nil, if_neg (by simp)]
    rw [if_pos rfl]
    exact .cons hn (by rwa [hbr, ← Chain.start_eq hr])
  · rw [List.concat_eq_append] at hs hlink ⊢
    rw [if_neg (by simp)]
    have hnodup := hs.nodup
    rw [List.append_assoc, List.singleton_append] at hs hnodup
    obtain ⟨o, hl, har⟩ := Seg.append_iff.mp hs
    obtain ⟨rfl, m, hm, hr⟩ := Seg.cons_iff.mp har
    -- only the link of `a` is written, and `a` stands nowhere else in the chain
    have hkeep : ∀ x ∈ l ++ a :: r, x ≠ a → (h'[x]?).map next = (h[x]?).map next := by
      intro x hx hxa
      rw [hlink x (by simpa using hx), List.getLast?_concat,
        if_neg fun hax => hxa (Option.some.inj hax).symm]
    have hl' : Seg next h' p l (some a) := hl.frame fun x hx =>
      hkeep x (List.mem_append_left _ hx) fun hxa =>
        (List.disjoint_of_nodup_append hnodup) (hxa ▸ hx) List.mem_cons_self
    have hr' : Seg next h' (next m) r none := hr.frame fun x hx =>
      hkeep x (List.mem_append_right _ (List.mem_cons_of_mem _ hx)) fun hxa =>
        (List.nodup_cons.mp (List.nodup_append.mp hnodup).2.1).1 (hxa ▸ hx)
    have ha := hlink a (by simp)
    rw [List.getLast?_concat, if_pos rfl, Option.map_eq_some_iff] at ha
    obtain ⟨m', hm', hab⟩ := ha
    rw [List.append_assoc, List.singleton_append]
    refine Seg.append_iff.mpr ⟨some a, hl', .cons hm' ?_⟩
    rw [hab]
    exact .cons hn (by rwa [hbr, ← Chain.start_eq hr'])

/-- Unlinking the last node: the one before it, if any, becomes the last. -/
theorem Chain.dropLast (hs : Chain next h p (l ++ [b]))
    (hlink : ∀ a ∈ l, (h'[a]?).map next =
      if l.getLast? = some a then some none else (h[a]?).map next) :
    Chain next h' (if l = [] then none else p) l := by
  rcases List.eq_nil_or_concat l with rfl | ⟨l, a, rfl⟩
  · rw [if_pos rfl]
    exact .nil none
  · rw [List.concat_eq_append] at hs hlink ⊢
    rw [if_neg (by simp)]
    have hnodup := hs.nodup
    rw [List.append_assoc, List.singleton_append] at hs hnodup
    obtain ⟨o, hl, ha⟩ := Seg.append_iff.mp hs
    obtain ⟨rfl, _⟩ := Seg.cons_iff.mp ha
    have hl' : Seg next h' p l (some a) := hl.frame fun x hx => by
      rw [hlink x (by simp [hx]), List.getLast?_concat, if_neg]
      rintro hax
      obtain rfl := Option.some.inj hax
      exact (List.disjoint_of_nodup_append hnodup) hx List.mem_cons_self
    have hlast := hlink a (by simp)
    rw [List.getLast?_concat, if_pos rfl, Option.map_eq_some_iff] at hlast
    obtain ⟨m, hm, hnull⟩ := hlast
    refine Seg.append_iff.mpr ⟨some a, hl', .cons hm ?_⟩
    rw [hnull]
    exact .nil none

/-! ## Both directions -/

/-- The addresses `ps` are linked in both directions between `head` and `tail`. -/
structure DoubleChain (next prev : N → Option Nat) (h : List N) (head tail : Option Nat)
    (ps : List Nat) : Prop where
  /-- Along `next` from the head. -/
  forward : Chain next h head ps
  /-- Along `prev` from the tail. -/
  backward : Chain prev h tail ps.reverse

namespace DoubleChain

variable {head tail : Option Nat}

/-- Nothing is linked between two null pointers. -/
theorem nil : DoubleChain next prev h none none [] := ⟨.nil none, .nil none⟩

/-- No address is linked twice. -/
theorem nodup (hd : DoubleChain next prev h head tail ps) : ps.Nodup := hd.forward.nodup

/-- The head is the first address. -/
theorem head_eq (hd : DoubleChain next prev h head tail ps) : head = ps.head? :=
  Chain.start_eq hd.forward

/-- The tail is the last address. -/
theorem tail_eq (hd : DoubleChain next prev h head tail ps) : tail = ps.getLast? := by
  rw [Chain.start_eq hd.backward, List.head?_reverse]

/-- A node points to its two neighbours. -/
theorem links (hd : DoubleChain next prev h head tail (l ++ b :: r)) :
    ∃ n, h[b]? = some n ∧ next n = r.head? ∧ prev n = l.getLast? := by
  obtain ⟨n, hn, hnext⟩ := Chain.link hd.forward
  have hback := hd.backward
  rw [List.reverse_append, List.reverse_cons, List.append_assoc, List.singleton_append] at hback
  obtain ⟨m, hm, hprev⟩ := Chain.link hback
  rw [hn] at hm
  obtain rfl := Option.some.inj hm
  exact ⟨n, hn, hnext, by rw [hprev, List.head?_reverse]⟩

/-- The links of the addresses are all that matters. -/
theorem frame (hd : DoubleChain next prev h head tail ps)
    (hnext : ∀ a ∈ ps, (h'[a]?).map next = (h[a]?).map next)
    (hprev : ∀ a ∈ ps, (h'[a]?).map prev = (h[a]?).map prev) :
    DoubleChain next prev h' head tail ps :=
  ⟨hd.forward.frame hnext, hd.backward.frame fun a ha => hprev a (List.mem_reverse.mp ha)⟩

/-- **Linking a node in** between the addresses `l` and the addresses `r`. -/
theorem insert (hd : DoubleChain next prev h head tail (l ++ r))
    (hnext : ∀ a ∈ l ++ r, (h'[a]?).map next =
      if l.getLast? = some a then some (some b) else (h[a]?).map next)
    (hprev : ∀ a ∈ l ++ r, (h'[a]?).map prev =
      if r.head? = some a then some (some b) else (h[a]?).map prev)
    (hb : ∃ n, h'[b]? = some n ∧ next n = r.head? ∧ prev n = l.getLast?) :
    DoubleChain next prev h' (if l = [] then some b else head) (if r = [] then some b else tail)
      (l ++ b :: r) := by
  obtain ⟨n, hn, hbnext, hbprev⟩ := hb
  refine ⟨Chain.insert hd.forward hnext ⟨n, hn, hbnext⟩, ?_⟩
  have hback := hd.backward
  rw [List.reverse_append] at hback
  have hins := @Chain.insert N prev h h' tail r.reverse l.reverse b hback
    (fun a ha => by
      rw [List.getLast?_reverse]
      exact hprev a (by simpa [or_comm] using ha))
    ⟨n, hn, by rw [hbprev, List.head?_reverse]⟩
  simpa using hins

/-- **Unlinking the last node.** -/
theorem dropLast (hd : DoubleChain next prev h head tail (l ++ [b]))
    (hnext : ∀ a ∈ l, (h'[a]?).map next =
      if l.getLast? = some a then some none else (h[a]?).map next)
    (hprev : ∀ a ∈ l, (h'[a]?).map prev = (h[a]?).map prev) :
    DoubleChain next prev h' (if l = [] then none else head) l.getLast? l := by
  refine ⟨Chain.dropLast hd.forward hnext, ?_⟩
  have hback := hd.backward
  rw [List.reverse_append, List.reverse_singleton, List.singleton_append] at hback
  obtain ⟨_, m, _, hl⟩ := Seg.cons_iff.mp hback
  have hl' := @Seg.frame N prev h h' _ _ _ hl fun a ha => hprev a (List.mem_reverse.mp ha)
  rwa [Chain.start_eq hl', List.head?_reverse] at hl'

end DoubleChain

end Flood.Lib
