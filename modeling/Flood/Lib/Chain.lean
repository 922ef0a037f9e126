import Flood.Lib.Writing
import Mathlib.Data.List.Nodup
import Mathlib.Data.List.Perm.Basic
import Mathlib.Data.List.Perm.Subperm
import Mathlib.Data.Set.Basic
import Mathlib.Data.List.Range

/-!
# Singly linked chains in a heap of nodes

A heap is a list of nodes and an address is a position in it; `next` reads the link of a node
(`none` is the null pointer). The node type and `next` are arbitrary.

* `Seg next h p ps q` — following links from `p` visits the addresses `ps` in order and then
  stands at `q`. `Chain next h p ps` — the walk ends at the null pointer.
* A segment depends on the links of its own addresses only (`Seg.frame`), so writing a node
  outside it (`Seg.set_of_notMem`), changing a node but not its link (`Seg.set_of_next_eq`) and
  allocating (`Seg.alloc`) all keep it. These are the frame rules of the development.
* A chain is determined by its start (`Chain.unique`), hence acyclic (`Chain.nodup`), hence no
  longer than the heap (`Chain.length_le`): a walk that may take as many steps as there are nodes
  always reaches the end.
-/

namespace Flood.Lib

variable {N : Type} (next : N → Option Nat)

/-- Following `next` from `p` visits `ps` in order and ends at `q`. -/
inductive Seg (h : List N) : Option Nat → List Nat → Option Nat → Prop
  | nil (p : Option Nat) : Seg h p [] p
  | cons {p : Nat} {n : N} {ps : List Nat} {q : Option Nat} :
      h[p]? = some n → Seg h (next n) ps q → Seg h (some p) (p :: ps) q

/-- Following `next` from `p` visits `ps` in order and then meets the null pointer. -/
abbrev Chain (h : List N) (p : Option Nat) (ps : List Nat) : Prop := Seg next h p ps none

variable {next} {h h' : List N} {p q r : Option Nat} {ps qs : List Nat}

/-! ## Taking segments apart and putting them together -/

/-- The empty segment goes nowhere. -/
@[simp] theorem Seg.nil_iff : Seg next h p [] q ↔ p = q :=
  ⟨fun hs => by cases hs; rfl, fun hp => hp ▸ .nil p⟩

/-- A nonempty segment starts at its first address and goes on from that node's link. -/
theorem Seg.cons_iff {a : Nat} :
    Seg next h p (a :: ps) q ↔ p = some a ∧ ∃ n, h[a]? = some n ∧ Seg next h (next n) ps q := by
  constructor
  · intro hs
    cases hs with
    | cons hn hs => exact ⟨rfl, _, hn, hs⟩
  · rintro ⟨rfl, n, hn, hs⟩
    exact .cons hn hs

/-- A segment cut in two. -/
theorem Seg.append_iff :
    Seg next h p (ps ++ qs) r ↔ ∃ q, Seg next h p ps q ∧ Seg next h q qs r := by
  induction ps generalizing p with
  | nil =>
      constructor
      · intro hs
        exact ⟨p, .nil p, hs⟩
      · rintro ⟨q, hp, hq⟩
        rw [Seg.nil_iff] at hp
        exact hp ▸ hq
  | cons a ps ih =>
      simp only [List.cons_append, Seg.cons_iff, ih]
      constructor
      · rintro ⟨rfl, n, hn, q, hp, hq⟩
        exact ⟨q, ⟨rfl, n, hn, hp⟩, hq⟩
      · rintro ⟨q, ⟨rfl, n, hn, hp⟩, hq⟩
        exact ⟨rfl, n, hn, q, hp, hq⟩

/-- A segment that goes on for one more node. -/
theorem Seg.concat {a : Nat} {n : N} (hs : Seg next h p ps (some a)) (hn : h[a]? = some n) :
    Seg next h p (ps ++ [a]) (next n) :=
  Seg.append_iff.mpr ⟨some a, hs, Seg.cons_iff.mpr ⟨rfl, n, hn, .nil _⟩⟩

/-- A segment goes on where its last node's link leads. -/
theorem Seg.next_of_concat {a : Nat} {n : N} (hs : Seg next h p (ps ++ [a]) q) (hn : h[a]? = some n) :
    next n = q := by
  obtain ⟨_, -, hlast⟩ := Seg.append_iff.mp hs
  obtain ⟨rfl, m, hm, hnil⟩ := Seg.cons_iff.mp hlast
  obtain rfl := Option.some.inj (hn.symm.trans hm)
  exact Seg.nil_iff.mp hnil

/-- The addresses of a segment are allocated. -/
theorem Seg.isSome_of_mem (hs : Seg next h p ps q) {a : Nat} (ha : a ∈ ps) :
    ∃ n, h[a]? = some n := by
  induction hs with
  | nil => exact absurd ha List.not_mem_nil
  | cons hn _ ih =>
      rcases List.mem_cons.mp ha with rfl | ha
      · exact ⟨_, hn⟩
      · exact ih ha

/-- The addresses of a segment are below the end of the heap. -/
theorem Seg.lt_of_mem (hs : Seg next h p ps q) {a : Nat} (ha : a ∈ ps) : a < h.length := by
  obtain ⟨n, hn⟩ := hs.isSome_of_mem ha
  exact (List.getElem?_eq_some_iff.mp hn).1

/-! ## Frame rules -/

/-- A segment depends on the links of its own addresses only. -/
theorem Seg.frame (hs : Seg next h p ps q)
    (hl : ∀ a ∈ ps, (h'[a]?).map next = (h[a]?).map next) : Seg next h' p ps q := by
  induction hs with
  | nil p => exact .nil p
  | @cons a n ps q hn hs ih =>
      have ha := hl a List.mem_cons_self
      rw [hn, Option.map_some, Option.map_eq_some_iff] at ha
      obtain ⟨n', hn', hlink⟩ := ha
      refine .cons hn' ?_
      rw [hlink]
      exact ih fun b hb => hl b (List.mem_cons_of_mem _ hb)

/-- Writing a node outside a segment keeps it. -/
theorem Seg.set_of_notMem (hs : Seg next h p ps q) {a : Nat} (ha : a ∉ ps) (n : N) :
    Seg next (h.set a n) p ps q := by
  refine hs.frame fun b hb => ?_
  rw [List.getElem?_set_ne]
  rintro rfl
  exact ha hb

/-- Changing a node but not its link keeps every segment. -/
theorem Seg.set_of_next_eq (hs : Seg next h p ps q) {a : Nat} {n n' : N} (hn : h[a]? = some n)
    (hlink : next n' = next n) : Seg next (h.set a n') p ps q := by
  exact hs.frame fun b _ => map_getElem?_set hn hlink b

/-- Allocating keeps every segment. -/
theorem Seg.alloc (hs : Seg next h p ps q) (ns : List N) : Seg next (h ++ ns) p ps q :=
  hs.frame fun _ ha => by rw [List.getElem?_append_left (hs.lt_of_mem ha)]

/-- Redirecting the last node of a segment redirects the segment. -/
theorem Seg.relink {a : Nat} {n : N} (hs : Seg next h p (ps ++ [a]) q) (ha : a ∉ ps)
    (hlink : next n = r) : Seg next (h.set a n) p (ps ++ [a]) r := by
  have halt := hs.lt_of_mem (List.mem_append_right ps List.mem_cons_self)
  obtain ⟨b, hp, hq⟩ := Seg.append_iff.mp hs
  obtain ⟨rfl, m, _, _⟩ := Seg.cons_iff.mp hq
  refine Seg.append_iff.mpr ⟨_, hp.set_of_notMem ha n, ?_⟩
  exact Seg.cons_iff.mpr ⟨rfl, n, List.getElem?_set_self halt, Seg.nil_iff.mpr hlink⟩

/-! ## Chains are determined by their start -/

/-- Two chains from one start are one chain. -/
theorem Chain.unique (hp : Chain next h p ps) (hq : Chain next h p qs) : ps = qs := by
  induction ps generalizing p qs with
  | nil =>
      rw [Chain, Seg.nil_iff] at hp
      subst hp
      cases hq
      rfl
  | cons a ps ih =>
      obtain ⟨rfl, n, hn, hp⟩ := Seg.cons_iff.mp hp
      cases qs with
      | nil => exact absurd (Seg.nil_iff.mp hq) (by simp)
      | cons b qs =>
          obtain ⟨hab, m, hm, hq⟩ := Seg.cons_iff.mp hq
          obtain rfl := Option.some.inj hab
          rw [hn] at hm
          obtain rfl := Option.some.inj hm
          rw [ih hp hq]

/-- A chain visits no address twice: it ends, so it does not return to where it was. -/
theorem Chain.nodup (hp : Chain next h p ps) : ps.Nodup := by
  induction ps generalizing p with
  | nil => exact List.nodup_nil
  | cons a ps ih =>
      have hp' := hp
      obtain ⟨rfl, n, hn, hs⟩ := Seg.cons_iff.mp hp
      refine List.nodup_cons.mpr ⟨fun ha => ?_, ih hs⟩
      -- the part of the chain from the second visit of `a` on is the whole chain again
      obtain ⟨l, r, rfl⟩ := List.append_of_mem ha
      obtain ⟨q, _, hq⟩ := Seg.append_iff.mp hs
      obtain ⟨rfl, _⟩ := Seg.cons_iff.mp hq
      have hlen := congrArg List.length (Chain.unique hp' hq)
      simp only [List.length_cons, List.length_append] at hlen
      omega

/-- The last address of a chain is not among those before it. -/
theorem Chain.notMem_of_concat {a : Nat} (hp : Chain next h p (ps ++ [a])) : a ∉ ps := by
  have hnd := hp.nodup
  rw [List.nodup_append] at hnd
  exact fun ha => hnd.2.2 a ha a List.mem_cons_self rfl

/-- A chain that starts at a node has a last address. -/
theorem Chain.eq_concat {a : Nat} (hp : Chain next h (some a) ps) : ∃ init l, ps = init ++ [l] := by
  rcases List.eq_nil_or_concat ps with rfl | ⟨init, l, rfl⟩
  · exact absurd (Seg.nil_iff.mp hp) (Option.some_ne_none a)
  · exact ⟨init, l, List.concat_eq_append⟩

/-- A chain is no longer than the heap. -/
theorem Chain.length_le (hp : Chain next h p ps) : ps.length ≤ h.length := by
  have hsub : ps ⊆ List.range h.length :=
    fun a ha => List.mem_range.mpr (hp.lt_of_mem ha)
  have hle := (hp.nodup.subperm hsub).length_le
  rwa [List.length_range] at hle

/-- The steps of a walk to a first node and along the rest. -/
theorem exists_fuel {a fuel : Nat} (hfuel : (a :: ps).length ≤ fuel) :
    ∃ n, fuel = n + 1 ∧ ps.length ≤ n := by
  obtain ⟨n, rfl⟩ := Nat.exists_eq_add_of_le hfuel
  refine ⟨ps.length + n, ?_, Nat.le_add_right _ _⟩
  rw [List.length_cons]
  omega

end Flood.Lib
