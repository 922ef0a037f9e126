import Flood.Hashtable.Iterate

/-!
# The load factor

The table grows when its counter has reached three quarters of its capacity, and the counter counts
overwriting puts and removes that find nothing.

* `Occupied ht n` — the chains hold `n` entries.
* `LoadBounded hf cf ops` — throughout the run the entries are three quarters of the capacity at
  most, and a put that grows the table finds as many.
* `load_bounded` — a run that neither overwrites nor misses is so.
* `overwriting_grows` — putting one key over and over is not.
-/

namespace Flood.Hashtable

open Flood.Lib

variable {K V : Type} {hf : K → UInt32} {cf : K → K → Int} {ht ht' : HashtableT K V}
  {t t' : Table K V} {op : MapOp K V} {ops : List (MapOp K V)}

/-- The chains hold `n` entries. -/
def Occupied (ht : HashtableT K V) (n : Nat) : Prop :=
  ∃ pairs, iterate ht = some pairs ∧ pairs.length = n

/-- In a run from the fresh table, the entries are three quarters of the capacity at most, and a put
changes the capacity only by doubling it when they are three quarters at least. -/
structure LoadBounded (hf : K → UInt32) (cf : K → K → Int) (ops : List (MapOp K V)) : Prop where
  /-- In every state there are few entries. -/
  bounded : ∀ pre post, ops = pre ++ post → ∀ rs ht, run (hashtableInit hf cf) pre = some (rs, ht) →
    ∃ n : Nat, Occupied ht n ∧ 4 * (n : Int) ≤ 3 * ht.cap
  /-- A put that grows the table finds many. -/
  grows : ∀ pre key val post, ops = pre ++ .put key val :: post →
    ∀ rs ht, run (hashtableInit hf cf) pre = some (rs, ht) →
      ∀ code ht', hashtablePut ht key val = some (code, ht') → ht'.cap ≠ ht.cap →
        ht'.cap = 2 * ht.cap ∧ ∃ n : Nat, Occupied ht n ∧ 3 * ht.cap ≤ 4 * (n : Int)

/-! ## Tables that count right -/

/-- The counter is right, and the entries are three quarters of the capacity at most. -/
structure Table.Loaded (t : Table K V) : Prop extends t.Counted where
  /-- The load. -/
  load : 4 * t.entries.length ≤ 3 * t.cap
  /-- Three quarters of the capacity are a whole number. -/
  dvd_cap : 4 ∣ t.cap

/-- The fresh table is empty. -/
theorem Table.Loaded.init : (Table.init : Table K V).Loaded where
  toCounted := .init
  load := by
    rw [Table.entries_init]
    exact Nat.zero_le _
  dvd_cap := by
    show 4 ∣ 16
    decide

/-- The capacity after a put. -/
theorem Table.cap_put (key : K) (val : V) :
    (t.put hf cf key val).cap = if t.Full then t.cap * 2 else t.cap := by
  rw [Table.put, Table.cap_update, Table.room]
  split_ifs <;> rfl

/-- A table that counts right is full iff its entries are three quarters of its capacity. -/
theorem Table.Counted.full_iff (hc : t.Counted) : t.Full ↔ 3 * t.cap ≤ 4 * t.entries.length := by
  rw [Table.Full, hc.size_eq]
  omega

/-- **An operation that neither overwrites nor misses keeps the load.** -/
theorem Table.Loaded.step (h : t.Loaded) (hk : LawfulKeys hf cf) (hw : t.WF hf cf)
    (hgood : ¬ Miscounts (t.get hf cf) op) (hfits : FitsInt ((t.step hf cf op).cap : Int)) :
    (t.step hf cf op).Loaded := by
  have hcounted := (step_counted op hk hw h.toCounted hfits).2 hgood
  have hload := h.load
  obtain ⟨k, hcap⟩ := h.dvd_cap
  cases op with
  | put key val =>
      have hlen := hw.length_entries_put hk key val
      have hnew : (t.put hf cf key val).entries.length ≤ t.entries.length + 1 := by
        rw [hlen]
        split_ifs <;> omega
      have hpos := hw.cap_pos
      have hfull := h.full_iff
      refine ⟨hcounted, ?_, ?_⟩
      · show 4 * (t.put hf cf key val).entries.length ≤ 3 * (t.put hf cf key val).cap
        rw [Table.cap_put]
        split_ifs with hf
        · omega
        · rw [hfull] at hf
          omega
      · show 4 ∣ (t.put hf cf key val).cap
        rw [Table.cap_put]
        split_ifs
        · exact ⟨k * 2, by rw [hcap, Nat.mul_assoc]⟩
        · exact ⟨k, hcap⟩
  | get key => exact h
  | remove key =>
      have hlen := hw.length_entries_remove key
      refine ⟨hcounted, ?_, h.dvd_cap⟩
      show 4 * (t.remove hf cf key).entries.length ≤ 3 * t.cap
      omega

/-! ## Runs -/

/-- A run that neither overwrites nor misses leads to a table that counts right and is loaded. -/
theorem loaded_of_run (hk : LawfulKeys hf cf) (hr : Repr hf cf ht t) (hw : t.WF hf cf)
    (h : t.Loaded) {rs : List (MapReply V)} (hrun : run ht ops = some (rs, ht'))
    (hgood : ∀ pre op post, ops = pre ++ op :: post →
      ¬ Miscounts (pre.foldl (MapOp.apply cf) (t.get hf cf)) op) :
    ∃ t', Repr hf cf ht' t' ∧ t'.WF hf cf ∧ t'.Loaded := by
  induction ops generalizing ht t rs with
  | nil =>
      obtain ⟨_, rfl⟩ := Prod.mk.inj (Option.some.inj hrun)
      exact ⟨t, hr, hw, h⟩
  | cons op ops ih =>
      obtain ⟨reply, ht₁, rs₁, hstep, hrest⟩ := exists_step_of_run hrun
      obtain ⟨ht₂, hstep', hr₁⟩ := step_spec op hk hr hw (cap_of_step hr hstep)
      obtain ⟨_, rfl⟩ := Prod.mk.inj (Option.some.inj (hstep.symm.trans hstep'))
      rw [forall_split_cons] at hgood
      refine ih hr₁ (hw.step hk op) (h.step hk hw hgood.1 hr₁.cap_fits) hrest ?_
      intro pre op' post hsplit
      rw [hw.get_step hk]
      exact hgood.2 pre op' post hsplit

/-- The chains of a heap table hold the entries of the table it represents. -/
theorem occupied (hr : Repr hf cf ht t) (hw : t.WF hf cf) : Occupied ht t.entries.length :=
  ⟨t.entries, iterate_spec hr hw, rfl⟩

/-- **The load factor bounds the entries** in every run in which no put overwrites a key that is
present and no remove misses one that is absent. -/
theorem load_bounded (hk : LawfulKeys hf cf)
    (hgood : ∀ pre op post, ops = pre ++ op :: post → ¬ Miscounts (valueAfter cf pre) op) :
    LoadBounded hf cf ops := by
  have hreach : ∀ pre post, ops = pre ++ post → ∀ rs ht,
      run (hashtableInit hf cf) pre = some (rs, ht) →
        ∃ t, Repr hf cf ht t ∧ t.WF hf cf ∧ t.Loaded := by
    intro pre post hsplit rs ht hrun
    refine loaded_of_run hk (.init hf cf) .init .init hrun fun pre' op post' hpre => ?_
    rw [get_init]
    exact hgood pre' op (post' ++ post) (by rw [hsplit, hpre, List.append_assoc, List.cons_append])
  constructor
  · intro pre post hsplit rs ht hrun
    obtain ⟨t, hr, hw, h⟩ := hreach pre post hsplit rs ht hrun
    have hload := h.load
    refine ⟨_, occupied hr hw, ?_⟩
    rw [hr.cap_eq]
    omega
  · intro pre key val post hsplit rs ht hrun code ht' hput hgrown
    obtain ⟨t, hr, hw, h⟩ := hreach pre _ hsplit rs ht hrun
    have hstep : step ht (.put key val) = some (.put code, ht') := by
      rw [step, hput]
      rfl
    obtain ⟨ht₂, hstep', hr'⟩ := step_spec (.put key val) hk hr hw (cap_of_step hr hstep)
    obtain ⟨_, rfl⟩ := Prod.mk.inj (Option.some.inj (hstep.symm.trans hstep'))
    have hcap : ht'.cap = ((t.put hf cf key val).cap : Int) := hr'.cap_eq
    rw [Table.cap_put] at hcap
    by_cases hfull : t.Full
    · rw [if_pos hfull] at hcap
      have hmany := h.full_iff.mp hfull
      refine ⟨?_, _, occupied hr hw, ?_⟩
      · rw [hcap, hr.cap_eq]
        push_cast
        ring
      · rw [hr.cap_eq]
        omega
    · rw [if_neg hfull] at hcap
      exact absurd (hcap.trans hr.cap_eq.symm) hgrown

/-- The theorem at a run that puts a key, removes it and puts another. -/
theorem load_bounded_example :
    LoadBounded natHash natCmp ([.put 1 10, .remove 1, .put 2 20] : List (MapOp Nat Nat)) := by
  apply load_bounded natKeys_lawful
  simp only [forall_split_cons]
  refine ⟨?_, ?_, ?_, fun pre op post hsplit => absurd hsplit (by simp)⟩
  · simp [Miscounts]
  · simp [Miscounts, valueAfter, MapOp.apply, natCmp]
  · simp [Miscounts, valueAfter, MapOp.apply, natCmp]

/-- **Putting one key thirteen times** doubles the capacity of a table with one entry. -/
theorem overwriting_grows :
    LawfulKeys natHash natCmp ∧
      ¬ LoadBounded natHash natCmp (List.replicate 13 (.put 1 10) : List (MapOp Nat Nat)) := by
  refine ⟨natKeys_lawful, fun h => ?_⟩
  have hrun : (run (hashtableInit natHash natCmp)
      (List.replicate 12 (.put 1 10) : List (MapOp Nat Nat))).bind (fun s =>
        (hashtablePut s.2 1 10).map fun s' =>
          (s.2.cap, s'.2.cap, (iterate s.2).map List.length)) = some (16, 32, some 1) := by
    decide +kernel
  obtain ⟨⟨rs, ht⟩, hpre, hrun⟩ := Option.bind_eq_some_iff.mp hrun
  obtain ⟨⟨code, ht'⟩, hput, hfields⟩ := Option.map_eq_some_iff.mp hrun
  obtain ⟨hcap, hrest⟩ := Prod.mk.inj hfields
  obtain ⟨hcap', hlen⟩ := Prod.mk.inj hrest
  dsimp only at hcap hcap' hlen
  have hgrown : ht'.cap ≠ ht.cap := by
    rw [hcap, hcap']
    decide
  obtain ⟨-, n, ⟨pairs, hpairs, hn⟩, hmany⟩ :=
    h.grows (List.replicate 12 (.put 1 10)) 1 10 [] rfl rs ht hpre code ht' hput hgrown
  rw [hpairs] at hlen
  have hone : pairs.length = 1 := Option.some.inj hlen
  rw [hcap, ← hn, hone] at hmany
  omega

end Flood.Hashtable
