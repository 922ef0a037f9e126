import Flood.Hashtable.Runs

/-!
# Two ways through a hash table

The iterator and `hashtable_foreach` go through the same pairs in the same order.

* `visit ifn pairs count arg` — what a callback makes of a list of pairs.
* `hashtableForeach_spec` — `hashtable_foreach` is the visit of the entries of the table.
* `Continues`, `given` — a callback goes on through a list, and what it leaves behind;
  `visit_of_continues`, `visit_of_stop` — the two ways in which a visit ends.
* `iterate_exhaustive` — in every state of every run the iterator delivers each live pair once, and
  `hashtable_foreach` hands the same pairs to its callback and returns how many, as an `int`.
* `uncounted_pairs` — the `int` is not their number in a table of `2 ^ 31` pairs.
-/

namespace Flood.Hashtable

open Flood.Lib

variable {K V A : Type} {hf : K → UInt32} {cf : K → K → Int} {ht ht' : HashtableT K V}
  {t : Table K V} {ops : List (MapOp K V)} {ifn : ForeachFunc K V A} {pairs : List (K × V)} {arg : A}

/-! ## Visiting pairs -/

/-- Hand pairs to a callback until it stops: whether it did, how many pairs it let pass, and what
`arg` points to. -/
def visit (ifn : ForeachFunc K V A) : List (K × V) → Nat → A → Bool × Nat × A
  | [], count, arg => (false, count, arg)
  | e :: pairs, count, arg =>
      if (ifn e.1 e.2 arg).1 = iterStop then (true, count, (ifn e.1 e.2 arg).2)
      else visit ifn pairs (count + 1) (ifn e.1 e.2 arg).2

/-- What `hashtable_foreach` says of a visit. -/
def counted (s : Bool × Nat × A) : Bool × Int × A := (s.1, wrap32 s.2.1, s.2.2)

/-- A visit of two lists stops in the first, or goes on to the second. -/
theorem visit_append (pairs' : List (K × V)) (count : Nat) (arg : A) :
    visit ifn (pairs ++ pairs') count arg =
      if (visit ifn pairs count arg).1 then visit ifn pairs count arg
      else visit ifn pairs' (visit ifn pairs count arg).2.1 (visit ifn pairs count arg).2.2 := by
  induction pairs generalizing count arg with
  | nil => rfl
  | cons e pairs ih =>
      rw [List.cons_append, visit, visit]
      by_cases hstop : (ifn e.1 e.2 arg).1 = iterStop
      · rw [if_pos hstop, if_pos hstop, if_pos rfl]
      · rw [if_neg hstop, if_neg hstop]
        exact ih (count + 1) _

/-! ## The loops -/

/-- The loop along a chain visits the pairs of the chain. -/
theorem foreachChain_spec {ps : List Nat} {fuel count : Nat} {e : Option Nat}
    (hc : Chain Entry.next ht.heap e ps) (hfuel : ps.length ≤ fuel) (arg : A) :
    foreachChain ht ifn fuel e (wrap32 count) arg =
      some (counted (visit ifn (pairsAt ht.heap ps) count arg)) := by
  induction ps generalizing fuel e count arg with
  | nil =>
      obtain rfl := Seg.nil_iff.mp hc
      cases fuel <;> rfl
  | cons a ps ih =>
      obtain ⟨rfl, entry, hentry, hrest⟩ := Seg.cons_iff.mp hc
      obtain ⟨fuel, rfl, hfuel'⟩ := exists_fuel hfuel
      have hnext : wrap32 (wrap32 count + 1) = wrap32 ((count + 1 : Nat) : Int) := by
        rw [wrap32_wrap32_add, Nat.cast_succ]
      have hvisit : visit ifn (entry.pair :: pairsAt ht.heap ps) count arg =
          if (ifn entry.key entry.val arg).1 = iterStop
          then (true, count, (ifn entry.key entry.val arg).2)
          else visit ifn (pairsAt ht.heap ps) (count + 1) (ifn entry.key entry.val arg).2 := rfl
      rw [pairsAt_cons hentry, hvisit]
      simp only [foreachChain, hentry, Option.bind_eq_bind, Option.bind_some, hnext]
      by_cases hstop : (ifn entry.key entry.val arg).1 = iterStop
      · rw [if_pos hstop, if_pos hstop]
        rfl
      · rw [if_neg hstop, if_neg hstop]
        exact ih hrest hfuel' _

/-- The loop over the slots visits the pairs of the chains, slot by slot. -/
theorem foreachSlots_spec {chains : List (List Nat)} (hl : Linked ht.heap ht.table chains)
    (hcap : ht.cap = chains.length) {fuel i : Nat} (hfuel : chains.length < fuel + i)
    (hi : i ≤ chains.length) (count : Nat) (arg : A) :
    foreachSlots ht ifn fuel i (wrap32 count) arg =
      some (counted (visit ifn (pairsAt ht.heap (chains.drop i).flatten) count arg)).2 := by
  induction fuel generalizing i count arg with
  | zero => omega
  | succ fuel ih =>
      rw [foreachSlots, hcap]
      by_cases hlt : i < chains.length
      · rw [if_pos (by exact_mod_cast hlt)]
        obtain ⟨p, ps, hp, hps, hc⟩ := hl.exists_chain (hl.length_eq ▸ hlt)
        have hdrop : (chains.drop i).flatten = ps ++ (chains.drop (i + 1)).flatten := by
          rw [List.drop_eq_getElem_cons hlt, List.flatten_cons]
          rw [List.getElem?_eq_getElem hlt] at hps
          rw [Option.some.inj hps]
        rw [hdrop, pairsAt_append, visit_append]
        simp only [hp, Option.bind_eq_bind, Option.bind_some, foreachChain_spec hc hc.length_le]
        rcases hvisit : visit ifn (pairsAt ht.heap ps) count arg with ⟨stop, count', arg'⟩
        cases stop with
        | true => rfl
        | false => exact ih (by omega) hlt count' arg'
      · rw [if_neg (by exact_mod_cast hlt), List.drop_eq_nil_of_le (by omega)]
        rfl

/-- **`hashtable_foreach` visits the entries of the table**, bucket by bucket. -/
theorem hashtableForeach_spec (hr : Repr hf cf ht t) (hw : t.WF hf cf) (arg : A) :
    hashtableForeach ht ifn arg = some (counted (visit ifn t.entries 0 arg)).2 := by
  obtain ⟨chains, hl, hb⟩ := hr.linked
  have hcap := hr.cap_eq_length hw hb
  have hentries : t.entries = pairsAt ht.heap (chains.drop 0).flatten := by
    rw [Table.entries, hb, flatten_map_pairsAt, List.drop_zero]
  have hfuel : chains.length < ht.cap.toNat + 1 + 0 := by omega
  have hzero : wrap32 ((0 : Nat) : Int) = 0 := by decide
  rw [hashtableForeach, hentries, ← foreachSlots_spec hl hcap hfuel (Nat.zero_le _) 0 arg, hzero]

/-! ## Visits that end -/

/-- The callback does not stop at any pair of a list. -/
def Continues (ifn : ForeachFunc K V A) : List (K × V) → A → Prop
  | [], _ => True
  | e :: pairs, arg => (ifn e.1 e.2 arg).1 ≠ iterStop ∧ Continues ifn pairs (ifn e.1 e.2 arg).2

/-- What `arg` points to after the callback was given a list of pairs. -/
def given (ifn : ForeachFunc K V A) (pairs : List (K × V)) (arg : A) : A :=
  pairs.foldl (fun arg e => (ifn e.1 e.2 arg).2) arg

/-- A callback that does not stop is given all pairs. -/
theorem visit_of_continues {count : Nat} (h : Continues ifn pairs arg) :
    visit ifn pairs count arg = (false, count + pairs.length, given ifn pairs arg) := by
  induction pairs generalizing count arg with
  | nil => rfl
  | cons e pairs ih =>
      rw [visit, if_neg h.1, ih h.2, List.length_cons, Nat.add_right_comm, Nat.add_assoc]
      rfl

/-- A callback that stops is given the pairs up to there. -/
theorem visit_of_stop {l r : List (K × V)} {e : K × V} (h : Continues ifn l arg)
    (hstop : (ifn e.1 e.2 (given ifn l arg)).1 = iterStop) :
    visit ifn (l ++ e :: r) 0 arg = (true, l.length, given ifn (l ++ [e]) arg) := by
  rw [visit_append, visit_of_continues h, if_neg Bool.false_ne_true, visit, if_pos hstop,
    Nat.zero_add, given, given, List.foldl_append]
  rfl

/-! ## Runs -/

/-- The table that a run leads to. -/
theorem repr_of_run (hk : LawfulKeys hf cf) (hr : Repr hf cf ht t) (hw : t.WF hf cf)
    {rs : List (MapReply V)} (hrun : run ht ops = some (rs, ht')) :
    ∃ t', Repr hf cf ht' t' ∧ t'.WF hf cf ∧ t'.get hf cf = ops.foldl (MapOp.apply cf) (t.get hf cf) := by
  induction ops generalizing ht t rs with
  | nil =>
      obtain ⟨_, rfl⟩ := Prod.mk.inj (Option.some.inj hrun)
      exact ⟨t, hr, hw, rfl⟩
  | cons op ops ih =>
      obtain ⟨reply, ht₁, rs₁, hstep, hrest⟩ := exists_step_of_run hrun
      obtain ⟨ht₂, hstep', hr₁⟩ := step_spec op hk hr hw (cap_of_step hr hstep)
      obtain ⟨_, rfl⟩ := Prod.mk.inj (Option.some.inj (hstep.symm.trans hstep'))
      rw [List.foldl_cons, ← hw.get_step hk]
      exact ih hr₁ (hw.step hk op) hrest

/-- **Iteration is exhaustive and free of duplicates, in both its forms.** After every run from the
fresh table, the iterator comes to its end and has delivered, under distinct keys, what the operations
of the run have stored; `hashtable_foreach` gives these pairs in this order to a callback that
continues, or those up to the first at which it stops, and returns, as an `int`, how many it let
pass. -/
theorem iterate_exhaustive (hk : LawfulKeys hf cf) {rs : List (MapReply V)}
    (hrun : run (hashtableInit hf cf) ops = some (rs, ht)) :
    ∃ pairs, iterate ht = some pairs ∧ Distinct cf pairs ∧
      (∀ key, lookup cf key pairs = valueAfter cf ops key) ∧
      ∀ (A : Type) (ifn : ForeachFunc K V A) (arg : A),
        (Continues ifn pairs arg →
          hashtableForeach ht ifn arg = some (wrap32 pairs.length, given ifn pairs arg)) ∧
        ∀ l e r, pairs = l ++ e :: r → Continues ifn l arg →
          (ifn e.1 e.2 (given ifn l arg)).1 = iterStop →
          hashtableForeach ht ifn arg = some (wrap32 l.length, given ifn (l ++ [e]) arg) := by
  obtain ⟨t, hr, hw, hget⟩ := repr_of_run hk (.init hf cf) .init hrun
  refine ⟨t.entries, iterate_spec hr hw, hw.distinct_entries hk, fun key => ?_,
    fun A ifn arg => ⟨fun hcont => ?_, fun l e r hsplit hcont hstop => ?_⟩⟩
  · rw [← hw.get_eq_lookup hk, hget, get_init]
    rfl
  · rw [hashtableForeach_spec hr hw, visit_of_continues hcont, Nat.zero_add]
    rfl
  · rw [hashtableForeach_spec hr hw, hsplit, visit_of_stop hcont hstop]
    rfl

/-- The theorem at a run that puts, overwrites and removes. -/
theorem iterate_exhaustive_example :
    ∃ rs ht, run (hashtableInit natHash natCmp)
        [.put 1 10, .put 17 20, .put 1 30, .put 2 40, .remove 17] = some (rs, ht) ∧
      ∃ pairs, iterate ht = some pairs ∧ Distinct natCmp pairs ∧
        (∀ key, lookup natCmp key pairs =
          valueAfter natCmp [.put 1 10, .put 17 20, .put 1 30, .put 2 40, .remove 17] key) ∧
        ∀ (A : Type) (ifn : ForeachFunc Nat Nat A) (arg : A),
          (Continues ifn pairs arg →
            hashtableForeach ht ifn arg = some (wrap32 pairs.length, given ifn pairs arg)) ∧
          ∀ l e r, pairs = l ++ e :: r → Continues ifn l arg →
            (ifn e.1 e.2 (given ifn l arg)).1 = iterStop →
            hashtableForeach ht ifn arg = some (wrap32 l.length, given ifn (l ++ [e]) arg) := by
  have hsome : (run (hashtableInit natHash natCmp) ([.put 1 10, .put 17 20, .put 1 30, .put 2 40,
      .remove 17] : List (MapOp Nat Nat))).isSome = true := by
    decide +kernel
  obtain ⟨⟨rs, ht⟩, hrun⟩ := Option.isSome_iff_exists.mp hsome
  exact ⟨rs, ht, hrun, iterate_exhaustive natKeys_lawful hrun⟩

/-! ## More pairs than an `int` counts -/

/-- Put an even key and remove an odd one, again and again: the counter stays where it is, and the
table never grows. -/
def churn (n : Nat) : List (MapOp Nat Nat) :=
  (List.range n).flatMap fun i => [.put (2 * i) 0, .remove (2 * i + 1)]

/-- One run after the other. -/
theorem run_append {rs rs' : List (MapReply V)} {ht'' : HashtableT K V} {ops' : List (MapOp K V)}
    (h : run ht ops = some (rs, ht')) (h' : run ht' ops' = some (rs', ht'')) :
    run ht (ops ++ ops') = some (rs ++ rs', ht'') := by
  induction ops generalizing ht rs with
  | nil =>
      obtain ⟨rfl, rfl⟩ := Prod.mk.inj (Option.some.inj h)
      exact h'
  | cons op ops ih =>
      obtain ⟨reply, ht₁, rs₁, hstep, hrest⟩ := exists_step_of_run h
      rw [run_cons hstep, hrest] at h
      obtain ⟨rfl, -⟩ := Prod.mk.inj (Option.some.inj h)
      rw [List.cons_append, run_cons hstep, ih hrest]
      rfl

/-- Numbers compare equal if they are. -/
theorem natCmp_eq_zero_iff {a b : Nat} : natCmp a b = 0 ↔ a = b := by
  unfold natCmp
  omega

/-- The table after `n` rounds. -/
structure Churned (n : Nat) (ht : HashtableT Nat Nat) (t : Table Nat Nat) : Prop where
  /-- The heap table represents it. -/
  repr : Repr natHash natCmp ht t
  /-- It is well formed. -/
  wf : t.WF natHash natCmp
  /-- It counts no entry. -/
  size_eq : t.size = 0
  /-- It has not grown. -/
  cap_eq : t.cap = 16
  /-- It has `n` entries. -/
  length_eq : t.entries.length = n
  /-- Their keys are the even numbers put. -/
  even_of_get : ∀ key, t.get natHash natCmp key ≠ none → key % 2 = 0 ∧ key < 2 * n

/-- The put of a round makes the table count one entry. -/
theorem Churned.put {n : Nat} {ht : HashtableT Nat Nat} {t : Table Nat Nat} (h : Churned n ht t) :
    ∃ reply ht' t', step ht (.put (2 * n) 0) = some (reply, ht') ∧ Repr natHash natCmp ht' t' ∧
      t'.WF natHash natCmp ∧ t'.size = 1 ∧ t'.cap = 16 ∧ t'.entries.length = n + 1 ∧
      ∀ key, t'.get natHash natCmp key =
        if natCmp key (2 * n) = 0 then some 0 else t.get natHash natCmp key := by
  have hk := natKeys_lawful
  have hfull : ¬ t.Full := by
    rw [Table.Full, h.size_eq, h.cap_eq]
    norm_num
  have hnew : t.get natHash natCmp (2 * n) = none := by
    by_contra hold
    exact absurd (h.even_of_get _ hold).2 (lt_irrefl _)
  obtain ⟨ht', hput, hr⟩ := step_spec (.put (2 * n) 0) hk h.repr h.wf fun _ _ _ h' => absurd h' hfull
  have hlen := h.wf.length_entries_put hk (2 * n) 0
  rw [if_pos hnew, h.length_eq] at hlen
  refine ⟨_, ht', t.put natHash natCmp (2 * n) 0, hput, hr, h.wf.put hk _ _, ?_, ?_, hlen,
    fun key => h.wf.get_put hk (2 * n) key 0⟩
  · rw [Table.put, Table.size_update, h.size_eq]
    decide
  · rw [Table.put, Table.cap_update, Table.room, if_neg hfull, h.cap_eq]

/-- One round. -/
theorem Churned.round {n : Nat} {ht : HashtableT Nat Nat} {t : Table Nat Nat} (h : Churned n ht t) :
    ∃ rs ht' t', run ht [.put (2 * n) 0, .remove (2 * n + 1)] = some (rs, ht') ∧
      Churned (n + 1) ht' t' := by
  have hk := natKeys_lawful
  obtain ⟨reply, ht₁, t₁, hput, hr₁, hw₁, hsize₁, hcap₁, hlen₁, hget₁⟩ := h.put
  simp only [natCmp_eq_zero_iff] at hget₁
  obtain ⟨ht₂, hremove, hr₂⟩ := step_spec (.remove (2 * n + 1)) hk hr₁ hw₁ fun _ _ h' => nomatch h'
  have hmiss : t₁.get natHash natCmp (2 * n + 1) = none := by
    rw [hget₁, if_neg (Nat.succ_ne_self _)]
    by_contra hold
    have heven := (h.even_of_get _ hold).1
    omega
  have hlen := hw₁.length_entries_remove (2 * n + 1)
  rw [if_pos hmiss, hlen₁, Nat.add_zero] at hlen
  refine ⟨_, ht₂, t₁.remove natHash natCmp (2 * n + 1), by rw [run_cons hput, run_cons hremove]; rfl,
    hr₂, hw₁.remove _, ?_, ?_, hlen, fun key hkey => ?_⟩
  · rw [Table.remove, Table.size_update, hsize₁]
    decide
  · rw [Table.remove, Table.cap_update, hcap₁]
  · rw [hw₁.get_remove hk, hget₁] at hkey
    split_ifs at hkey with hodd heven
    · exact absurd rfl hkey
    · omega
    · have := h.even_of_get key hkey
      omega

/-- After `n` rounds the table has `n` entries, and counts none. -/
theorem run_churn (n : Nat) :
    ∃ rs ht t, run (hashtableInit natHash natCmp) (churn n) = some (rs, ht) ∧ Churned n ht t := by
  induction n with
  | zero =>
      refine ⟨[], _, Table.init, rfl, .init _ _, .init, rfl, rfl, rfl, fun key h => ?_⟩
      rw [get_init] at h
      exact absurd rfl h
  | succ n ih =>
      obtain ⟨rs, ht, t, hrun, h⟩ := ih
      obtain ⟨rs', ht', t', hround, h'⟩ := h.round
      refine ⟨rs ++ rs', ht', t', ?_, h'⟩
      rw [churn, List.range_succ, List.flatMap_append, ← churn]
      exact run_append hrun (by simpa using hround)

/-- With `2 ^ 31` pairs the number that `hashtable_foreach` returns is negative. -/
theorem uncounted_pairs :
    LawfulKeys natHash natCmp ∧
      ¬ ∀ (ops : List (MapOp Nat Nat)) (rs : List (MapReply Nat)) (ht : HashtableT Nat Nat),
        run (hashtableInit natHash natCmp) ops = some (rs, ht) →
        ∃ pairs, iterate ht = some pairs ∧
          ∀ (A : Type) (ifn : ForeachFunc Nat Nat A) (arg : A), Continues ifn pairs arg →
            hashtableForeach ht ifn arg = some ((pairs.length : Int), given ifn pairs arg) := by
  refine ⟨natKeys_lawful, fun hall => ?_⟩
  obtain ⟨rs, ht, t, hrun, h⟩ := run_churn (2 ^ 31)
  obtain ⟨pairs, hpairs, hforeach⟩ := hall _ rs ht hrun
  rw [iterate_spec h.repr h.wf] at hpairs
  obtain rfl := Option.some.inj hpairs
  have hcont : Continues (fun _ _ (_ : Unit) => (1, ())) t.entries () := by
    generalize t.entries = pairs
    induction pairs with
    | nil => trivial
    | cons e pairs ih => exact ⟨Int.one_ne_zero, ih⟩
  have hcount := hforeach Unit _ () hcont
  rw [hashtableForeach_spec h.repr h.wf, visit_of_continues hcont, Nat.zero_add, h.length_eq] at hcount
  have hwrap : wrap32 ((2 ^ 31 : Nat) : Int) = ((2 ^ 31 : Nat) : Int) :=
    (Prod.mk.inj (Option.some.inj hcount)).1
  rw [wrap32_eq_self_iff, FitsInt, intMax] at hwrap
  omega

end Flood.Hashtable
