import Flood.Hashtable.Refine
import Flood.Lib.History
import Flood.Lib.Runs

/-!
# Runs of the hash table

Finite sequences of `hashtable_put`, `hashtable_get` and `hashtable_remove` from `hashtable_init`,
on the heap.

* `step_spec`, `run_spec` — one operation, and a whole run, answer as the map does, as long as the
  capacity stays below `2 ^ 30`.
* `run_refines_map` — every run from the fresh table answers every operation by the last put of its
  key.
* `Table.Counted` — the counter agrees with the entries; `step_counted` says which operations keep it
  so, and `size_eq_live_iff` which runs do.
-/

namespace Flood.Hashtable

open Flood.Lib

variable {K V : Type}

/-- Carry out one operation. -/
def step (ht : HashtableT K V) : MapOp K V → Option (MapReply V × HashtableT K V)
  | .put key val => do
      let (code, ht) ← hashtablePut ht key val
      some (.put code, ht)
  | .get key => do
      let val ← hashtableGet ht key
      some (.get val, ht)
  | .remove key => do
      let (val, ht) ← hashtableRemove ht key
      some (.remove val, ht)

/-- Carry out operations in order, collecting the answers. -/
def run (ht : HashtableT K V) : List (MapOp K V) → Option (List (MapReply V) × HashtableT K V)
  | [] => some ([], ht)
  | op :: ops => do
      let (reply, ht) ← step ht op
      let (replies, ht) ← run ht ops
      some (reply :: replies, ht)

/-- The effect of an operation on the table it is carried out on. -/
def Table.step (hf : K → UInt32) (cf : K → K → Int) (t : Table K V) : MapOp K V → Table K V
  | .put key val => t.put hf cf key val
  | .get _ => t
  | .remove key => t.remove hf cf key

variable {hf : K → UInt32} {cf : K → K → Int} {ht ht' : HashtableT K V} {t : Table K V}
  {op : MapOp K V} {ops : List (MapOp K V)} {m : K → Option V}

/-! ## One operation -/

/-- The operations keep the invariant. -/
theorem Table.WF.step (hk : LawfulKeys hf cf) (hw : t.WF hf cf) (op : MapOp K V) :
    (t.step hf cf op).WF hf cf := by
  cases op with
  | put key val => exact hw.put hk key val
  | get key => exact hw
  | remove key => exact hw.remove key

/-- The operations change the map as they should. -/
theorem Table.WF.get_step (hk : LawfulKeys hf cf) (hw : t.WF hf cf) (op : MapOp K V) :
    (t.step hf cf op).get hf cf = op.apply cf (t.get hf cf) := by
  funext k
  cases op with
  | put key val => exact hw.get_put hk key k val
  | get key => rfl
  | remove key => exact hw.get_remove hk key k

/-- **One operation on the heap.** It answers as the map of the table does and leaves a heap table
that represents the next table, unless it is a put that grows past the largest `int`. -/
theorem step_spec (op : MapOp K V) (hk : LawfulKeys hf cf) (hr : Repr hf cf ht t)
    (hw : t.WF hf cf)
    (hcap : ∀ key val, op = .put key val → t.Full → 2 * (t.cap : Int) ≤ intMax) :
    ∃ ht', step ht op = some (op.reply (t.get hf cf), ht') ∧ Repr hf cf ht' (t.step hf cf op) := by
  cases op with
  | put key val =>
      obtain ⟨ht', hrun, hr'⟩ := hashtablePut_spec hk hr hw key val (hcap key val rfl)
      refine ⟨ht', ?_, hr'⟩
      rw [step, hrun]
      rfl
  | get key =>
      refine ⟨ht, ?_, hr⟩
      rw [step, hashtableGet_spec hr hw]
      rfl
  | remove key =>
      obtain ⟨ht', hrun, hr'⟩ := hashtableRemove_spec hr hw key
      refine ⟨ht', ?_, hr'⟩
      rw [step, hrun]
      rfl

/-- An operation that has a result did not grow past the largest `int`. -/
theorem cap_of_step (hr : Repr hf cf ht t) {reply : MapReply V}
    (hstep : step ht op = some (reply, ht')) (key : K) (val : V) (hop : op = .put key val)
    (hfull : t.Full) : 2 * (t.cap : Int) ≤ intMax := by
  by_contra hcap
  subst hop
  rw [step, hashtablePut_eq_none hr key val hfull hcap] at hstep
  exact absurd hstep (by simp)

/-! ## Whole runs -/

/-- A run of one more operation at the front. -/
theorem run_cons {reply : MapReply V} (hstep : step ht op = some (reply, ht')) :
    run ht (op :: ops) = (run ht' ops).map fun s => (reply :: s.1, s.2) := by
  rw [run, hstep]
  cases hrun : run ht' ops <;> simp [hrun]

/-- **A run answers as the map does**, if every table on its way has a capacity below `2 ^ 30`. -/
theorem run_spec (hk : LawfulKeys hf cf) (hr : Repr hf cf ht t) (hw : t.WF hf cf)
    (hcap : ∀ pre post, ops = pre ++ post → ∀ rs ht', run ht pre = some (rs, ht') →
      ht'.cap < 2 ^ 30) :
    ∃ ht', run ht ops = some (replies cf (t.get hf cf) ops, ht') := by
  induction ops generalizing ht t with
  | nil => exact ⟨ht, rfl⟩
  | cons op ops ih =>
      have hlt : (t.cap : Int) < 2 ^ 30 := hr.cap_eq ▸ hcap [] (op :: ops) rfl [] ht rfl
      obtain ⟨ht', hstep, hr'⟩ := step_spec op hk hr hw fun _ _ _ _ => by
        unfold intMax
        omega
      obtain ⟨ht'', hrun⟩ := ih hr' (hw.step hk op) fun pre post hpre rs ht'' hrun => by
        apply hcap (op :: pre) post (by rw [hpre]; rfl) (op.reply (t.get hf cf) :: rs) ht''
        rw [run_cons hstep, hrun]
        rfl
      refine ⟨ht'', ?_⟩
      rw [run_cons hstep, hrun, hw.get_step hk]
      rfl

/-- The fresh table holds nothing. -/
theorem get_init : (Table.init : Table K V).get hf cf = fun _ => none := by
  funext k
  have hbucket : ∀ i : Nat, (List.replicate 16 ([] : List (K × V))).getD i [] = [] := by
    intro i
    rw [List.getD_eq_getElem?_getD, List.getElem?_replicate]
    split_ifs <;> rfl
  rw [Table.get, Table.bucket, Table.init, hbucket]
  rfl

/-- A number as its own hash. -/
def natHash (n : Nat) : UInt32 := UInt32.ofNat n

/-- Numbers compared by subtracting. -/
def natCmp (a b : Nat) : Int := a - b

/-- Numbers are lawful keys. -/
theorem natKeys_lawful : LawfulKeys natHash natCmp where
  refl a := by rw [natCmp, Int.sub_self]
  symm h := by
    unfold natCmp at *
    omega
  trans h h' := by
    unfold natCmp at *
    omega
  hash {a b} h := by
    have hab : a = b := by
      unfold natCmp at h
      omega
    rw [hab]

/-- **The hash table refines a finite map.** Every run from the fresh table, of whatever
operations, completes while the capacity stays below `2 ^ 30`, and answers each operation as the
map made by the operations before it does. -/
theorem run_refines_map (hk : LawfulKeys hf cf) (ops : List (MapOp K V))
    (hcap : ∀ pre post, ops = pre ++ post → ∀ rs ht', run (hashtableInit hf cf) pre = some (rs, ht') →
      ht'.cap < 2 ^ 30) :
    ∃ rs ht, run (hashtableInit hf cf) ops = some (rs, ht) ∧ rs.length = ops.length ∧
      ∀ (i : Nat) (op : MapOp K V), ops[i]? = some op →
        rs[i]? = some (op.reply (valueAfter cf (ops.take i))) := by
  obtain ⟨ht, hrun⟩ := run_spec hk (.init hf cf) .init hcap
  rw [get_init] at hrun
  refine ⟨_, ht, hrun, length_replies _ ops, fun i op hop => ?_⟩
  rw [getElem?_replies, hop]
  rfl

/-- The refinement at a run that puts, overwrites across a collision, removes and looks up. -/
theorem run_refines_map_example :
    ∃ rs ht, run (hashtableInit natHash natCmp)
        [.put 1 10, .put 17 20, .put 1 30, .remove 17, .get 1, .get 17] = some (rs, ht) ∧
      rs.length = 6 ∧
      ∀ (i : Nat) (op : MapOp Nat Nat),
        [.put 1 10, .put 17 20, .put 1 30, .remove 17, .get 1, .get 17][i]? = some op →
        rs[i]? = some (op.reply (valueAfter natCmp
          ([.put 1 10, .put 17 20, .put 1 30, .remove 17, .get 1, .get 17].take i))) := by
  refine run_refines_map natKeys_lawful _ fun pre post hsplit rs ht' hrun => ?_
  have hcap : ∀ n ≤ 6, (run (hashtableInit natHash natCmp)
      (([.put 1 10, .put 17 20, .put 1 30, .remove 17, .get 1, .get 17] :
        List (MapOp Nat Nat)).take n)).map (fun s => s.2.cap) = some 16 := by
    decide +kernel
  have hlen : pre.length ≤ 6 := by
    have hsum : 6 = pre.length + post.length := by
      rw [← List.length_append, ← hsplit]
      rfl
    omega
  have hpre := hcap pre.length hlen
  rw [hsplit, List.take_left, hrun] at hpre
  have hcap' : ht'.cap = 16 := Option.some.inj hpre
  rw [hcap']
  norm_num

/-! ## The counter -/

/-- The counter is the number of pairs that a full iteration delivers, whose keys are distinct. -/
def SizeIsLive (cf : K → K → Int) (ht : HashtableT K V) : Prop :=
  ∃ pairs, iterate ht = some pairs ∧ Distinct cf pairs ∧ hashtableSize ht = pairs.length

/-- The operation puts a key that is present or removes one that is not: the source counts it all
the same. -/
def Miscounts (m : K → Option V) : MapOp K V → Prop
  | .put key _ => m key ≠ none
  | .get _ => False
  | .remove key => m key = none

/-- The counter is the number of entries, and there are no more entries than buckets. -/
structure Table.Counted (t : Table K V) : Prop where
  /-- The counter is right. -/
  size_eq : t.size = t.entries.length
  /-- The buckets are on average not more than full. -/
  length_le : t.entries.length ≤ t.cap

/-- The counter on the heap, read off the table represented. -/
theorem sizeIsLive_iff (hk : LawfulKeys hf cf) (hr : Repr hf cf ht t) (hw : t.WF hf cf) :
    SizeIsLive cf ht ↔ t.size = t.entries.length := by
  rw [SizeIsLive, iterate_spec hr hw, hashtableSize, hr.size_eq]
  constructor
  · rintro ⟨pairs, hpairs, _, hsize⟩
    rwa [Option.some.inj hpairs]
  · intro hsize
    exact ⟨t.entries, rfl, hw.distinct_entries hk, hsize⟩

/-- After making room there is a bucket more than entries. -/
theorem Table.Counted.lt_cap_room (hc : t.Counted) (hw : t.WF hf cf) :
    t.entries.length < (t.room hf).cap := by
  have hsize := hc.size_eq
  have hle := hc.length_le
  have hpos := hw.cap_pos
  rw [Table.room]
  split_ifs with hfull
  · rw [Table.grow]
    show t.entries.length < t.cap * 2
    omega
  · unfold Table.Full at hfull
    omega

/-- **One operation and the counter.** On a table that counts right, an operation keeps the count
right iff it neither overwrites nor misses; and then the table goes on counting right. -/
theorem step_counted (op : MapOp K V) (hk : LawfulKeys hf cf) (hw : t.WF hf cf) (hc : t.Counted)
    (hfits : FitsInt ((t.step hf cf op).cap : Int)) :
    ((t.step hf cf op).size = (t.step hf cf op).entries.length ↔
        ¬ Miscounts (t.get hf cf) op) ∧
      (¬ Miscounts (t.get hf cf) op → (t.step hf cf op).Counted) := by
  cases op with
  | put key val =>
      have hlen := hw.length_entries_put hk key val
      have hlt := hc.lt_cap_room hw
      have hcap : (t.put hf cf key val).cap = (t.room hf).cap := by
        rw [Table.put, Table.cap_update]
      have hsize : (t.put hf cf key val).size = t.entries.length + 1 := by
        have hmax : ((t.put hf cf key val).cap : Int) ≤ intMax := hfits.2
        rw [hcap] at hmax
        rw [Table.put, Table.size_update, hc.size_eq]
        exact wrap32_of_fits ⟨by unfold intMin; omega, by omega⟩
      show ((t.put hf cf key val).size = (t.put hf cf key val).entries.length ↔ ¬ _ ≠ _) ∧
        (¬ _ ≠ _ → (t.put hf cf key val).Counted)
      rw [hsize, hlen]
      by_cases hget : t.get hf cf key = none
      · rw [if_pos hget] at hlen
        refine ⟨by simp [hget], fun _ => ⟨?_, ?_⟩⟩
        · rw [hsize, hlen]
          push_cast
          rfl
        · rw [hlen, hcap]
          omega
      · simp [hget]
  | get key => exact ⟨⟨fun _ h => h, fun _ => hc.size_eq⟩, fun _ => hc⟩
  | remove key =>
      have hlen := hw.length_entries_remove key
      have hsize : (t.remove hf cf key).size = t.entries.length - 1 := by
        have hmax : ((t.remove hf cf key).cap : Int) ≤ intMax := hfits.2
        have hle := hc.length_le
        rw [Table.remove, Table.cap_update] at hmax
        rw [Table.remove, Table.size_update, hc.size_eq]
        exact wrap32_of_fits ⟨by unfold intMin; omega, by omega⟩
      show ((t.remove hf cf key).size = (t.remove hf cf key).entries.length ↔ ¬ _ = _) ∧
        (¬ _ = _ → (t.remove hf cf key).Counted)
      rw [hsize]
      by_cases hget : t.get hf cf key = none
      · rw [if_pos hget] at hlen
        simp only [hget, not_true_eq_false, iff_false, false_implies, and_true]
        omega
      · rw [if_neg hget] at hlen
        refine ⟨⟨fun _ => hget, fun _ => by omega⟩, fun _ => ⟨by rw [hsize]; omega, ?_⟩⟩
        rw [Table.remove, Table.cap_update, ← Table.remove]
        have hle := hc.length_le
        omega

/-- A run with a result begins with an operation with a result. -/
theorem exists_step_of_run {rs : List (MapReply V)} (hrun : run ht (op :: ops) = some (rs, ht')) :
    ∃ reply ht₁ rs₁, step ht op = some (reply, ht₁) ∧ run ht₁ ops = some (rs₁, ht') := by
  rw [run, Option.bind_eq_bind, Option.bind_eq_some_iff] at hrun
  obtain ⟨⟨reply, ht₁⟩, hstep, hrun⟩ := hrun
  rw [Option.bind_eq_bind, Option.bind_eq_some_iff] at hrun
  obtain ⟨⟨rs₁, ht₂⟩, hrest, hret⟩ := hrun
  simp only [Option.some.injEq, Prod.mk.injEq] at hret
  obtain ⟨_, rfl⟩ := hret
  exact ⟨reply, ht₁, rs₁, hstep, hrest⟩

/-- **A run and the counter**, from a table that counts right: it is right in every state of the
run iff no operation of the run overwrites or misses. -/
theorem run_counted_iff (hk : LawfulKeys hf cf) (hr : Repr hf cf ht t) (hw : t.WF hf cf)
    (hc : t.Counted) {rs : List (MapReply V)} (hrun : run ht ops = some (rs, ht')) :
    (∀ pre post, ops = pre ++ post → ∀ rs ht', run ht pre = some (rs, ht') → SizeIsLive cf ht') ↔
      ∀ pre op post, ops = pre ++ op :: post →
        ¬ Miscounts (pre.foldl (MapOp.apply cf) (t.get hf cf)) op := by
  have hlive : SizeIsLive cf ht := (sizeIsLive_iff hk hr hw).mpr hc.size_eq
  have hnil : ∀ rs ht', run ht [] = some (rs, ht') → SizeIsLive cf ht' := by
    intro rs ht' hrun
    obtain ⟨_, rfl⟩ := Prod.mk.inj (Option.some.inj hrun)
    exact hlive
  induction ops generalizing ht t rs with
  | nil =>
      constructor
      · intro _ pre op post hsplit
        exact absurd hsplit (by simp)
      · intro _ pre post hsplit
        rw [(List.append_eq_nil_iff.mp hsplit.symm).1]
        exact hnil
  | cons op ops ih =>
      obtain ⟨reply, ht₁, rs₁, hstep, hrest⟩ := exists_step_of_run hrun
      obtain ⟨ht₂, hstep', hr₁⟩ := step_spec op hk hr hw (cap_of_step hr hstep)
      obtain ⟨_, rfl⟩ := Prod.mk.inj (Option.some.inj (hstep.symm.trans hstep'))
      have hw₁ := hw.step hk op
      obtain ⟨hiff, hkeep⟩ := step_counted op hk hw hc hr₁.cap_fits
      have hruns : ∀ pre, (∀ rs ht', run ht (op :: pre) = some (rs, ht') → SizeIsLive cf ht') ↔
          ∀ rs ht', run ht₁ pre = some (rs, ht') → SizeIsLive cf ht' := by
        intro pre
        rw [run_cons hstep]
        constructor
        · intro h rs ht' hrun
          exact h (reply :: rs) ht' (by rw [hrun]; rfl)
        · intro h rs ht' hrun
          obtain ⟨⟨rs', ht''⟩, hrun', hret⟩ := Option.map_eq_some_iff.mp hrun
          obtain ⟨_, rfl⟩ := Prod.mk.inj hret
          exact h rs' ht'' hrun'
      rw [forall_prefix_cons, forall_split_cons]
      simp only [hruns, List.foldl_nil, List.foldl_cons, ← hw.get_step hk]
      constructor
      · rintro ⟨_, hall⟩
        -- the state after the operation is one of those that count right
        have hlive₁ : SizeIsLive cf ht₁ := hall [] ops rfl [] ht₁ rfl
        have hgood := hiff.mp ((sizeIsLive_iff hk hr₁ hw₁).mp hlive₁)
        refine ⟨hgood, (ih hr₁ hw₁ (hkeep hgood) hrest hlive₁ ?_).mp hall⟩
        exact hall [] ops rfl
      · rintro ⟨hgood, hall⟩
        have hc₁ := hkeep hgood
        have hlive₁ : SizeIsLive cf ht₁ := (sizeIsLive_iff hk hr₁ hw₁).mpr hc₁.size_eq
        refine ⟨hnil, (ih hr₁ hw₁ hc₁ hrest hlive₁ ?_).mpr hall⟩
        intro rs ht' hrun
        obtain ⟨_, rfl⟩ := Prod.mk.inj (Option.some.inj hrun)
        exact hlive₁

/-- The fresh table counts right. -/
theorem Table.Counted.init : (Table.init : Table K V).Counted := by
  constructor <;> rw [Table.entries, Table.init] <;> simp

/-- **When `hashtable_size` is the number of live entries.** In a run from the fresh table, it is so
in every state iff no operation of the run puts a key that is present or removes one that is
absent, by what the operations before it have stored. -/
theorem size_eq_live_iff (hk : LawfulKeys hf cf) {rs : List (MapReply V)}
    (hrun : run (hashtableInit hf cf) ops = some (rs, ht)) :
    (∀ pre post, ops = pre ++ post → ∀ rs ht', run (hashtableInit hf cf) pre = some (rs, ht') →
        SizeIsLive cf ht') ↔
      ∀ pre op post, ops = pre ++ op :: post → ¬ Miscounts (valueAfter cf pre) op := by
  have := run_counted_iff hk (.init hf cf) .init .init hrun
  rwa [get_init] at this

/-- The equivalence at a run that puts two keys and removes one. -/
theorem size_eq_live_iff_example :
    ∃ rs ht, run (hashtableInit natHash natCmp) [.put 1 10, .put 2 20, .remove 1] = some (rs, ht) ∧
      ((∀ pre post, ([.put 1 10, .put 2 20, .remove 1] : List (MapOp Nat Nat)) = pre ++ post →
          ∀ rs ht', run (hashtableInit natHash natCmp) pre = some (rs, ht') →
            SizeIsLive natCmp ht') ↔
        ∀ pre op post, ([.put 1 10, .put 2 20, .remove 1] : List (MapOp Nat Nat)) =
          pre ++ op :: post → ¬ Miscounts (valueAfter natCmp pre) op) := by
  have hsome : (run (hashtableInit natHash natCmp)
      ([.put 1 10, .put 2 20, .remove 1] : List (MapOp Nat Nat))).isSome = true := by
    decide +kernel
  obtain ⟨⟨rs, ht⟩, hrun⟩ := Option.isSome_iff_exists.mp hsome
  exact ⟨rs, ht, hrun, size_eq_live_iff natKeys_lawful hrun⟩

/-- Putting a key twice counts it twice: the size is `2`, an iteration delivers one pair. -/
theorem put_twice_not_live :
    LawfulKeys natHash natCmp ∧
      ¬ ∀ pre post, ([.put 1 10, .put 1 20] : List (MapOp Nat Nat)) = pre ++ post →
        ∀ rs ht', run (hashtableInit natHash natCmp) pre = some (rs, ht') →
          SizeIsLive natCmp ht' := by
  refine ⟨natKeys_lawful, fun hall => ?_⟩
  have hsome : ((run (hashtableInit natHash natCmp)
      ([.put 1 10, .put 1 20] : List (MapOp Nat Nat))).map fun s =>
        (hashtableSize s.2, (iterate s.2).map List.length)) = some (2, some 1) := by
    decide +kernel
  obtain ⟨⟨rs, ht⟩, hrun, hsize⟩ := Option.map_eq_some_iff.mp hsome
  obtain ⟨pairs, hpairs, _, hlive⟩ := hall _ [] (List.append_nil _).symm rs ht hrun
  obtain ⟨htwo, hone⟩ := Prod.mk.inj hsize
  rw [hpairs] at hone
  have hlen : pairs.length = 1 := Option.some.inj hone
  rw [htwo, hlen] at hlive
  exact absurd hlive (by decide)

end Flood.Hashtable
