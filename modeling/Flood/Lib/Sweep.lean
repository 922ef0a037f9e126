import Flood.Lib.Chain

/-!
# A sweep over what changes

A sweep delivers the elements ahead of it one by one, while elements are put in and taken out. It may
stand on one that has been taken out, and goes on from there.

* `Changed new gone as as'` — what a single change does to the elements ahead: none, `new` is put in
  anywhere, or one that is gone is left out. It need not be left out.
* `Sweep start gone seen ahead` — nothing is delivered twice, and of the elements that were there at
  the start only those that are gone are missed.
* `Sweep.started`, `Sweep.next`, `Sweep.change` — starting, delivering, and a change;
  `Sweep.mem_of_finished` — what is delivered in the end.
* `Chain.append_node`, `Chain.skip` — what is ahead of a walk along a chain, from wherever it stands,
  when the last node is given a next one, and when a node is unlinked.
-/

namespace Flood.Lib

variable {α : Type} {new : Option α} {gone gone' : α → Prop} {start seen ahead ahead' as as' : List α}
  {a b : α}

/-! ## A change -/

/-- What a change does to the elements ahead. -/
inductive Changed (new : Option α) (gone : α → Prop) : List α → List α → Prop
  /-- Nothing. -/
  | same (as : List α) : Changed new gone as as
  /-- The new element is put in. -/
  | put {u v : List α} {b : α} (hb : new = some b) : Changed new gone (u ++ v) (u ++ b :: v)
  /-- An element that is gone is left out. -/
  | take {u v : List α} {a : α} (ha : gone a) : Changed new gone (u ++ a :: v) (u ++ v)

namespace Changed

/-- What is ahead was ahead, or is new. -/
theorem mem_or (h : Changed new gone as as') (hb : b ∈ as') : b ∈ as ∨ new = some b := by
  cases h with
  | same => exact .inl hb
  | @put u v c hc =>
      rcases List.mem_append.mp hb with hb | hb
      · exact .inl (List.mem_append_left v hb)
      · rcases List.mem_cons.mp hb with rfl | hb
        · exact .inr hc
        · exact .inl (List.mem_append_right u hb)
  | take =>
      rcases List.mem_append.mp hb with hb | hb
      · exact .inl (List.mem_append_left _ hb)
      · exact .inl (List.mem_append_right _ (List.mem_cons_of_mem _ hb))

/-- What was ahead is ahead, or gone. -/
theorem mem_or_gone (h : Changed new gone as as') (hb : b ∈ as) : b ∈ as' ∨ gone b := by
  cases h with
  | same => exact .inl hb
  | put =>
      rcases List.mem_append.mp hb with hb | hb
      · exact .inl (List.mem_append_left _ hb)
      · exact .inl (List.mem_append_right _ (List.mem_cons_of_mem _ hb))
  | @take u v c hc =>
      rcases List.mem_append.mp hb with hb | hb
      · exact .inl (List.mem_append_left v hb)
      · rcases List.mem_cons.mp hb with rfl | hb
        · exact .inr hc
        · exact .inl (List.mem_append_right u hb)

/-- There is at most one more. -/
theorem length_le (h : Changed new gone as as') : as'.length ≤ as.length + new.toList.length := by
  cases h with
  | same => omega
  | put hb =>
      rw [hb]
      simp
      omega
  | take =>
      simp
      omega

/-- Nothing is ahead twice, if the new element was not ahead. -/
theorem nodup (h : Changed new gone as as') (hnd : as.Nodup) (hnew : ∀ b, new = some b → b ∉ as) :
    as'.Nodup := by
  cases h with
  | same => exact hnd
  | put hb => exact List.nodup_middle.mpr (List.nodup_cons.mpr ⟨hnew _ hb, hnd⟩)
  | take => exact (List.nodup_cons.mp (List.nodup_middle.mp hnd)).2

/-- What was delivered before does not matter. -/
theorem append_left (h : Changed new gone as as') (w : List α) :
    Changed new gone (w ++ as) (w ++ as') := by
  cases h with
  | same => exact .same _
  | put hb =>
      rw [← List.append_assoc, ← List.append_assoc]
      exact .put hb
  | take ha =>
      rw [← List.append_assoc, ← List.append_assoc]
      exact .take ha

/-- What comes later does not matter. -/
theorem append_right (h : Changed new gone as as') (w : List α) :
    Changed new gone (as ++ w) (as' ++ w) := by
  cases h with
  | same => exact .same _
  | put hb =>
      rw [List.append_assoc, List.append_assoc, List.cons_append]
      exact .put hb
  | take ha =>
      rw [List.append_assoc, List.append_assoc, List.cons_append]
      exact .take ha

end Changed

/-! ## The sweep -/

/-- The sweep has delivered `seen`, and the elements `ahead` lie ahead of it. -/
structure Sweep (start : List α) (gone : α → Prop) (seen ahead : List α) : Prop where
  /-- Nothing is delivered twice. -/
  nodup : (seen ++ ahead).Nodup
  /-- What is missed is gone. -/
  covers : ∀ a ∈ start, a ∈ seen ++ ahead ∨ gone a

namespace Sweep

/-- A sweep at its start. -/
theorem started (hnd : start.Nodup) : Sweep start gone [] start :=
  ⟨hnd, fun _ ha => .inl ha⟩

/-- The next element is delivered. -/
theorem next (h : Sweep start gone seen (a :: ahead)) : Sweep start gone (seen ++ [a]) ahead := by
  obtain ⟨hnd, hcovers⟩ := h
  rw [List.append_cons] at hnd hcovers
  exact ⟨hnd, hcovers⟩

/-- More is gone. -/
theorem mono (h : Sweep start gone seen ahead) (hgone : ∀ a, gone a → gone' a) :
    Sweep start gone' seen ahead :=
  ⟨h.nodup, fun a ha => (h.covers a ha).imp_right (hgone a)⟩

/-- **A change**, of elements that the sweep has not met. -/
theorem change (h : Sweep start gone seen ahead) (hc : Changed new gone ahead ahead')
    (hnew : ∀ b, new = some b → b ∉ seen ++ ahead) : Sweep start gone seen ahead' := by
  have hall := hc.append_left seen
  refine ⟨hall.nodup h.nodup hnew, fun a ha => ?_⟩
  rcases h.covers a ha with hmem | hgone
  · exact hall.mem_or_gone hmem
  · exact .inr hgone

/-- **At its end** the sweep has delivered what was there at the start and is not gone. -/
theorem mem_of_finished (h : Sweep start gone seen []) (ha : a ∈ start) (hgone : ¬ gone a) :
    a ∈ seen := by
  have hmem := (h.covers a ha).resolve_right hgone
  rwa [List.append_nil] at hmem

end Sweep

/-! ## Links that are written under a walk -/

variable {N : Type} {next : N → Option Nat} {h : List N} {p : Option Nat} {ps : List Nat} {l c : Nat}
  {m m' n : N}

/-- A walk that comes to the last node of a chain comes to the node allocated behind it. -/
theorem Chain.append_node (hc : Chain next h p ps) (hl : h[l]? = some m) (hend : next m = none)
    (hlink : next m' = some h.length) (hn : next n = none) :
    (l ∉ ps ∧ Chain next (h.set l m' ++ [n]) p ps) ∨
      (l ∈ ps ∧ Chain next (h.set l m' ++ [n]) p (ps ++ [h.length])) := by
  by_cases hmem : l ∈ ps
  · refine .inr ⟨hmem, ?_⟩
    obtain ⟨u, v, rfl⟩ := List.append_of_mem hmem
    -- the walk ends at the last node
    obtain ⟨q, hu, hv⟩ := Seg.append_iff.mp hc
    obtain ⟨rfl, k, hk, hrest⟩ := Seg.cons_iff.mp hv
    obtain rfl := Option.some.inj (hl.symm.trans hk)
    rw [hend] at hrest
    obtain rfl : v = [] := Chain.unique hrest (.nil none)
    have hfresh : (h.set l m' ++ [n])[h.length]? = some n := by
      rw [← @List.length_set _ h l m']
      exact List.getElem?_concat_length
    exact Seg.append_iff.mpr ⟨some h.length, (hc.relink hc.notMem_of_concat hlink).alloc _,
      Seg.cons_iff.mpr ⟨rfl, n, hfresh, Seg.nil_iff.mpr hn⟩⟩
  · exact .inl ⟨hmem, (hc.set_of_notMem hmem m').alloc _⟩

/-- A walk that comes to the node before one that is unlinked goes around it. A walk that does not, as one
that stands on the unlinked node, goes on as before. -/
theorem Chain.skip (hc : Chain next h p ps) (hl : h[l]? = some m) (hnext : next m = some c)
    (hn : h[c]? = some n) (hlink : next m' = next n) :
    Chain next (h.set l m') p ps ∨
      ∃ u v, ps = u ++ c :: v ∧ Chain next (h.set l m') p (u ++ v) := by
  by_cases hmem : l ∈ ps
  · refine .inr ?_
    obtain ⟨u, v, rfl⟩ := List.append_of_mem hmem
    have hnd := hc.nodup
    obtain ⟨q, hu, hv⟩ := Seg.append_iff.mp hc
    obtain ⟨rfl, k, hk, hrest⟩ := Seg.cons_iff.mp hv
    obtain rfl := Option.some.inj (hl.symm.trans hk)
    rw [hnext] at hrest
    cases v with
    | nil => exact absurd (Seg.nil_iff.mp hrest) (Option.some_ne_none c)
    | cons d v =>
        obtain ⟨hd, k', hk', hrest'⟩ := Seg.cons_iff.mp hrest
        obtain rfl := Option.some.inj hd
        obtain rfl := Option.some.inj (hn.symm.trans hk')
        have hlu : l ∉ u := fun hmem => (List.nodup_append.mp hnd).2.2 l hmem l List.mem_cons_self rfl
        have hlv : l ∉ v := fun hmem =>
          (List.nodup_cons.mp (List.nodup_append.mp hnd).2.1).1 (List.mem_cons_of_mem c hmem)
        have hlt := (List.getElem?_eq_some_iff.mp hl).1
        refine ⟨u ++ [l], v, by simp, ?_⟩
        rw [List.append_assoc]
        refine Seg.append_iff.mpr ⟨some l, hu.set_of_notMem hlu m', ?_⟩
        refine Seg.cons_iff.mpr ⟨rfl, m', List.getElem?_set_self hlt, ?_⟩
        rw [hlink]
        exact hrest'.set_of_notMem hlv m'
  · exact .inl (hc.set_of_notMem hmem m')

end Flood.Lib
