import Mathlib.Data.List.Basic
import Mathlib.Data.List.Pairwise
import Mathlib.Data.List.Perm.Basic

/-!
# Association lists under a comparison function

Keys are compared the way C does it: `cf a b = 0` means "same key", and `KeyEquiv cf` says that
this is an equivalence. Two keys that compare equal need not be equal.

* `lookup`, `upsert`, `erase` — the three operations, each one pass from the front: `upsert`
  overwrites the value of the first entry with the key in place, or appends.
* `Distinct cf l` — no two entries of `l` have the same key. `upsert` and `erase` keep it.
* `lookup_upsert`, `lookup_erase` — the finite-map laws.
* `lookup_perm` — with distinct keys the order of the entries does not matter.
-/

namespace Flood.Lib

/-- Comparing equal is an equivalence of keys. -/
structure KeyEquiv {K : Type} (cf : K → K → Int) : Prop where
  /-- A key compares equal to itself. -/
  refl : ∀ a, cf a a = 0
  /-- Comparing equal is symmetric. -/
  symm : ∀ {a b}, cf a b = 0 → cf b a = 0
  /-- Comparing equal is transitive. -/
  trans : ∀ {a b c}, cf a b = 0 → cf b c = 0 → cf a c = 0

variable {K V W : Type} (cf : K → K → Int)

/-- Keys that compare equal compare alike with every key. -/
theorem KeyEquiv.congr_right {cf : K → K → Int} (hc : KeyEquiv cf) {a b : K} (h : cf a b = 0)
    (k : K) : cf k a = 0 ↔ cf k b = 0 :=
  ⟨fun hk => hc.trans hk h, fun hk => hc.trans hk (hc.symm h)⟩

/-! ## The operations -/

/-- The value of the first entry whose key compares equal to `k`. -/
def lookup (k : K) : List (K × V) → Option V
  | [] => none
  | (a, v) :: l => if cf k a = 0 then some v else lookup k l

/-- Overwrite the value of the first entry with key `k`, or append a new entry. -/
def upsert (k : K) (v : V) : List (K × V) → List (K × V)
  | [] => [(k, v)]
  | (a, w) :: l => if cf k a = 0 then (a, v) :: l else (a, w) :: upsert k v l

/-- Drop the first entry with key `k`. -/
def erase (k : K) : List (K × V) → List (K × V)
  | [] => []
  | (a, w) :: l => if cf k a = 0 then l else (a, w) :: erase k l

/-- No two entries have keys that compare equal. -/
def Distinct (l : List (K × V)) : Prop := l.Pairwise fun a b => cf a.1 b.1 ≠ 0

variable {cf} {l : List (K × V)} {k k' : K} {v : V}

/-! ## Looking up -/

/-- Nothing is found iff no entry has the key. -/
theorem lookup_eq_none_iff : lookup cf k l = none ↔ ∀ e ∈ l, cf k e.1 ≠ 0 := by
  induction l with
  | nil => simp [lookup]
  | cons e l ih =>
      obtain ⟨a, w⟩ := e
      simp only [lookup, List.forall_mem_cons]
      split_ifs with h
      · simp [h]
      · simp [h, ih]

/-- What is found is an entry with the key. -/
theorem exists_mem_of_lookup (h : lookup cf k l = some v) : ∃ a, (a, v) ∈ l ∧ cf k a = 0 := by
  induction l with
  | nil => simp [lookup] at h
  | cons e l ih =>
      obtain ⟨a, w⟩ := e
      simp only [lookup] at h
      split_ifs at h with ha
      · exact ⟨a, by rw [Option.some.inj h]; exact List.mem_cons_self, ha⟩
      · obtain ⟨b, hb, hkb⟩ := ih h
        exact ⟨b, List.mem_cons_of_mem _ hb, hkb⟩

/-- With distinct keys every entry is found under its key. -/
theorem lookup_of_mem (hc : KeyEquiv cf) (hd : Distinct cf l) {a : K} (h : (a, v) ∈ l)
    (hk : cf k a = 0) : lookup cf k l = some v := by
  induction l with
  | nil => exact absurd h List.not_mem_nil
  | cons e l ih =>
      obtain ⟨b, w⟩ := e
      obtain ⟨hhead, htail⟩ := List.pairwise_cons.mp hd
      rcases List.mem_cons.mp h with heq | hmem
      · obtain ⟨rfl, rfl⟩ := Prod.mk.inj heq
        simp [lookup, hk]
      · have hne : cf k b ≠ 0 := fun hkb => hhead _ hmem (hc.trans (hc.symm hkb) hk)
        rw [lookup, if_neg hne, ih htail hmem]

/-- With distinct keys a key occurs once at most. -/
theorem Distinct.countP_le_one (hc : KeyEquiv cf) (hd : Distinct cf l) (k : K) :
    l.countP (fun e => cf k e.1 = 0) ≤ 1 := by
  induction l with
  | nil => exact Nat.zero_le 1
  | cons e l ih =>
      obtain ⟨hfirst, hrest⟩ := List.pairwise_cons.mp hd
      rw [List.countP_cons]
      by_cases he : cf k e.1 = 0
      · have hnone : l.countP (fun e => cf k e.1 = 0) = 0 := by
          rw [List.countP_eq_zero]
          intro f hf hkf
          exact hfirst f hf (hc.trans (hc.symm he) (of_decide_eq_true hkf))
        rw [if_pos (decide_eq_true he)]
        omega
      · rw [if_neg (by rwa [decide_eq_true_iff])]
        exact ih hrest

/-- Keys that compare equal find the same value. -/
theorem lookup_congr (hc : KeyEquiv cf) (h : cf k k' = 0) : lookup cf k l = lookup cf k' l := by
  induction l with
  | nil => rfl
  | cons e l ih =>
      have hiff : cf k e.1 = 0 ↔ cf k' e.1 = 0 :=
        ⟨fun hk => hc.trans (hc.symm h) hk, fun hk => hc.trans h hk⟩
      simp only [lookup, hiff, ih]

/-- Looking up in a concatenation. -/
theorem lookup_append (l₁ l₂ : List (K × V)) :
    lookup cf k (l₁ ++ l₂) = (lookup cf k l₁).or (lookup cf k l₂) := by
  induction l₁ with
  | nil => rfl
  | cons e l₁ ih =>
      simp only [List.cons_append, lookup]
      split_ifs with h
      · rfl
      · exact ih

/-- Entries whose keys cannot compare equal to `k` do not matter to a lookup of `k`. -/
theorem lookup_filter {p : K × V → Bool} (hp : ∀ e ∈ l, cf k e.1 = 0 → p e = true) :
    lookup cf k (l.filter p) = lookup cf k l := by
  induction l with
  | nil => rfl
  | cons e l ih =>
      obtain ⟨hhead, htail⟩ := List.forall_mem_cons.mp hp
      by_cases hk : cf k e.1 = 0
      · rw [List.filter_cons_of_pos (hhead hk)]
        simp [lookup, hk]
      · by_cases hpe : p e = true
        · rw [List.filter_cons_of_pos hpe]
          simp [lookup, hk, ih htail]
        · rw [List.filter_cons_of_neg hpe, ih htail]
          simp [lookup, hk]

/-- Mapping keys and values maps what is found, if the mapped keys compare as the keys did. -/
theorem lookup_map {K' : Type} {cf' : K' → K' → Int} (f : K → K') (g : V → W)
    (hf : ∀ a, cf' (f k) (f a) = cf k a) :
    lookup cf' (f k) (l.map (Prod.map f g)) = (lookup cf k l).map g := by
  induction l with
  | nil => rfl
  | cons e l ih =>
      simp only [List.map_cons, Prod.map, lookup, hf, ih]
      split_ifs <;> rfl

/-- Mapping keys and values commutes with insertion, if the mapped keys compare as the keys did. -/
theorem upsert_map {K' : Type} {cf' : K' → K' → Int} (f : K → K') (g : V → W)
    (hf : ∀ a, cf' (f k) (f a) = cf k a) :
    upsert cf' (f k) (g v) (l.map (Prod.map f g)) = (upsert cf k v l).map (Prod.map f g) := by
  induction l with
  | nil => rfl
  | cons e l ih =>
      simp only [List.map_cons, Prod.map, upsert, hf] at ih ⊢
      split_ifs
      · rfl
      · rw [ih]
        rfl

/-- With distinct keys the order of the entries does not matter. -/
theorem lookup_perm (hc : KeyEquiv cf) {l' : List (K × V)} (hd : Distinct cf l)
    (hp : l.Perm l') : lookup cf k l = lookup cf k l' := by
  have hd' : Distinct cf l' :=
    hp.pairwise hd fun h hba => h (hc.symm hba)
  cases h : lookup cf k l with
  | none =>
      rw [lookup_eq_none_iff] at h
      exact (lookup_eq_none_iff.mpr fun e he => h e (hp.mem_iff.mpr he)).symm
  | some v =>
      obtain ⟨a, ha, hka⟩ := exists_mem_of_lookup h
      exact (lookup_of_mem hc hd' (hp.mem_iff.mp ha) hka).symm

/-! ## Inserting -/

/-- An entry of the result is new, or old, or the old entry with the new value. -/
theorem mem_upsert {e : K × V} (h : e ∈ upsert cf k v l) :
    e = (k, v) ∨ e ∈ l ∨ ∃ w, (e.1, w) ∈ l ∧ e.2 = v := by
  induction l with
  | nil => exact .inl (List.mem_singleton.mp h)
  | cons b l ih =>
      obtain ⟨b, w⟩ := b
      simp only [upsert] at h
      split_ifs at h with hkb
      · rcases List.mem_cons.mp h with rfl | h
        · exact .inr (.inr ⟨w, List.mem_cons_self, rfl⟩)
        · exact .inr (.inl (List.mem_cons_of_mem _ h))
      · rcases List.mem_cons.mp h with rfl | h
        · exact .inr (.inl List.mem_cons_self)
        · rcases ih h with h | h | ⟨u, hu, he⟩
          · exact .inl h
          · exact .inr (.inl (List.mem_cons_of_mem _ h))
          · exact .inr (.inr ⟨u, List.mem_cons_of_mem _ hu, he⟩)

/-- The keys of the result are the old keys and possibly `k`. -/
theorem key_mem_upsert {e : K × V} (h : e ∈ upsert cf k v l) : e.1 = k ∨ ∃ w, (e.1, w) ∈ l := by
  rcases mem_upsert h with rfl | h | ⟨w, hw, _⟩
  · exact .inl rfl
  · exact .inr ⟨e.2, h⟩
  · exact .inr ⟨w, hw⟩

/-- **Inserting**: `k` now has the value `v`, and other keys have what they had. -/
theorem lookup_upsert (hc : KeyEquiv cf) :
    lookup cf k' (upsert cf k v l) = if cf k' k = 0 then some v else lookup cf k' l := by
  induction l with
  | nil => simp [upsert, lookup]
  | cons e l ih =>
      obtain ⟨a, w⟩ := e
      simp only [upsert]
      split_ifs with hka hkk hkk
      · simp [lookup, (hc.congr_right hka k').mp hkk]
      · have hne : cf k' a ≠ 0 := fun ha => hkk ((hc.congr_right hka k').mpr ha)
        simp [lookup, hne]
      · have hne : cf k' a ≠ 0 := fun ha => hka (hc.trans (hc.symm hkk) ha)
        simp [lookup, hne, ih, hkk]
      · simp only [lookup, ih, if_neg hkk]

/-- Inserting keeps the keys distinct. -/
theorem Distinct.upsert (hc : KeyEquiv cf) (hd : Distinct cf l) :
    Distinct cf (Lib.upsert cf k v l) := by
  induction l with
  | nil => exact List.pairwise_singleton _ _
  | cons e l ih =>
      obtain ⟨a, w⟩ := e
      obtain ⟨hhead, htail⟩ := List.pairwise_cons.mp hd
      simp only [Lib.upsert]
      split_ifs with hka
      · exact List.pairwise_cons.mpr ⟨hhead, htail⟩
      · refine List.pairwise_cons.mpr ⟨fun b hb => ?_, ih htail⟩
        rcases key_mem_upsert hb with hbk | ⟨u, hu⟩
        · exact fun hab => hka (hbk ▸ hc.symm hab)
        · exact hhead (b.1, u) hu

/-- Inserting adds one entry, or none when the key was there. -/
theorem length_upsert :
    (upsert cf k v l).length = l.length + if lookup cf k l = none then 1 else 0 := by
  induction l with
  | nil => simp [upsert, lookup]
  | cons e l ih =>
      by_cases hka : cf k e.1 = 0
      · simp [upsert, lookup, hka]
      · simp only [upsert, lookup, if_neg hka, List.length_cons, ih]
        omega

/-- A fresh key is appended. -/
theorem upsert_of_lookup_eq_none (h : lookup cf k l = none) : upsert cf k v l = l ++ [(k, v)] := by
  induction l with
  | nil => rfl
  | cons e l ih =>
      simp only [lookup] at h
      split_ifs at h with hka
      simp [upsert, hka, ih h]

/-- A present key keeps its entry, with the new value. -/
theorem upsert_of_lookup_eq_some {w : V} (h : lookup cf k l = some w) :
    ∃ a l₁ l₂, cf k a = 0 ∧ l = l₁ ++ (a, w) :: l₂ ∧ upsert cf k v l = l₁ ++ (a, v) :: l₂ := by
  induction l with
  | nil => simp [lookup] at h
  | cons e l ih =>
      obtain ⟨a, u⟩ := e
      simp only [lookup] at h
      split_ifs at h with hka
      · obtain rfl := Option.some.inj h
        exact ⟨a, [], l, hka, rfl, by rw [upsert, if_pos hka, List.nil_append]⟩
      · obtain ⟨b, l₁, l₂, hkb, rfl, hl⟩ := ih h
        exact ⟨b, (a, u) :: l₁, l₂, hkb, rfl, by rw [upsert, if_neg hka, hl, List.cons_append]⟩

/-- Behind entries without the key, an insertion happens in the rest. -/
theorem upsert_append_of_lookup_eq_none {l₁ l₂ : List (K × V)} (h : lookup cf k l₁ = none) :
    upsert cf k v (l₁ ++ l₂) = l₁ ++ upsert cf k v l₂ := by
  induction l₁ with
  | nil => rfl
  | cons e l₁ ih =>
      simp only [lookup] at h
      split_ifs at h with hke
      simp only [List.cons_append, upsert, if_neg hke, ih h]

/-! ## Erasing -/

/-- What is left was there. -/
theorem erase_sublist : (erase cf k l).Sublist l := by
  induction l with
  | nil => exact List.Sublist.refl _
  | cons e l ih =>
      simp only [erase]
      split_ifs with h
      · exact List.sublist_cons_self _ _
      · exact ih.cons_cons _

/-- Erasing keeps the keys distinct. -/
theorem Distinct.erase (hd : Distinct cf l) : Distinct cf (Lib.erase cf k l) :=
  hd.sublist erase_sublist

/-- **Erasing**: `k` is gone, and other keys have what they had. -/
theorem lookup_erase (hc : KeyEquiv cf) (hd : Distinct cf l) :
    lookup cf k' (erase cf k l) = if cf k' k = 0 then none else lookup cf k' l := by
  induction l with
  | nil => simp [erase, lookup]
  | cons e l ih =>
      obtain ⟨a, w⟩ := e
      obtain ⟨hhead, htail⟩ := List.pairwise_cons.mp hd
      simp only [erase]
      split_ifs with hka hkk hkk
      · -- the erased entry was the only one with this key
        rw [lookup_eq_none_iff]
        intro b hb hkb
        exact hhead b hb (hc.trans (hc.symm hka) (hc.trans (hc.symm hkk) hkb))
      · have hne : cf k' a ≠ 0 := fun ha => hkk ((hc.congr_right hka k').mpr ha)
        simp [lookup, hne]
      · have hne : cf k' a ≠ 0 := fun ha => hka (hc.trans (hc.symm hkk) ha)
        simp [lookup, hne, ih htail, hkk]
      · simp only [lookup, ih htail, if_neg hkk]

/-- Erasing drops one entry, or none when the key was absent. -/
theorem length_erase :
    (erase cf k l).length + (if lookup cf k l = none then 0 else 1) = l.length := by
  induction l with
  | nil => simp [erase, lookup]
  | cons e l ih =>
      by_cases hka : cf k e.1 = 0
      · simp [erase, lookup, hka]
      · simp only [erase, lookup, if_neg hka, List.length_cons, ← ih]
        omega

/-- Behind entries without the key, an erasure happens in the rest. -/
theorem erase_append_of_lookup_eq_none {l₁ : List (K × V)} (h : lookup cf k l₁ = none)
    (l₂ : List (K × V)) :
    erase cf k (l₁ ++ l₂) = l₁ ++ erase cf k l₂ := by
  induction l₁ with
  | nil => rfl
  | cons e l₁ ih =>
      simp only [lookup] at h
      split_ifs at h with hke
      simp only [List.cons_append, erase, if_neg hke, ih h]

end Flood.Lib
