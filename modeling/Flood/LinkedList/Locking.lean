import Flood.LinkedList.Iterate

/-!
# Locking of the list

The mutex of the list as one thread sees it, which makes the calls of the log and no other.

* `mutexAfter` — what a log of calls makes of a free mutex: held, free, or `none` once the thread
  waits for a mutex it holds itself. `Balanced` says that the log leaves the mutex free.
* `Call`, `call`, `runCalls` — the operations of `list.c`, `list_each` and the pairs
  `list_iter_start_safe` … `list_iter_stop_safe` included.
* `call_spec` — every call completes, and `logOf` is what it adds to the log.
* `balanced_iff` — a run is balanced exactly if it never truncates a list whose counter is below
  one.
-/

namespace Flood.LinkedList

open Flood.Lib

variable {list list' : ListT} {ps : List Nat} {xs : List Elem}

/-! ## The mutex -/

/-- A call on a mutex that is held (`true`) or free. A thread that locks a mutex it holds waits for
itself, and unlocking a free mutex is an error: `none`. -/
def afterCall : Bool → MutexCall → Option Bool
  | false, .lock => some true
  | true, .unlock => some false
  | true, .lock => none
  | false, .unlock => none

/-- The mutex after a log of calls, free at first. -/
def mutexAfter (log : List MutexCall) : Option Bool := log.foldlM afterCall false

/-- The log never waits for itself and leaves the mutex free. -/
def Balanced (list : ListT) : Prop := mutexAfter list.mutex = some false

instance (list : ListT) : Decidable (Balanced list) := inferInstanceAs (Decidable (_ = _))

/-- Calls on a free mutex. -/
theorem mutexAfter_append {log : List MutexCall} (hlog : mutexAfter log = some false)
    (more : List MutexCall) : mutexAfter (log ++ more) = mutexAfter more := by
  rw [mutexAfter, List.foldlM_append]
  rw [mutexAfter] at hlog
  rw [hlog]
  rfl

/-! ## Calls -/

/-- A call within an iteration. -/
inductive IterCall where
  /-- `list_iter_has_next` -/
  | hasNext
  /-- `list_iter_next` -/
  | next

/-- What a thread does with the list. -/
inductive Call where
  /-- One of the operations on the sequence. -/
  | seq (op : SeqOp Elem)
  /-- `list_each` -/
  | each (fn : Nat → Elem → Int)
  /-- `list_iter_start_safe`, some calls, and `list_iter_stop_safe`. -/
  | pair (steps : List IterCall)

/-- The list after the calls of an iteration. -/
def iterSteps (list : ListT) : List IterCall → Option ListT
  | [] => some list
  | .hasNext :: steps => iterSteps list steps
  | .next :: steps => do
      let (_, list) ← listIterNext list
      iterSteps list steps

/-- The list after a call. -/
def call (list : ListT) : Call → Option ListT
  | .seq op => (step list op).map Prod.snd
  | .each fn => listEach list fn
  | .pair steps => (iterSteps (listIterStartSafe list) steps).map listIterStopSafe

/-- The list after calls in order. -/
def runCalls (list : ListT) : List Call → Option ListT
  | [] => some list
  | c :: calls => do
      let list ← call list c
      runCalls list calls

/-- The objects passed to the call have at least `n` bytes. -/
def Call.Supplies (n : Nat) : Call → Prop
  | .seq op => LinkedList.Supplies n op
  | .each _ => True
  | .pair _ => True

/-- The calls on the mutex that a call makes. -/
def logOf (list : ListT) : Call → List MutexCall
  | .seq op => callsOf list op
  | .each _ => []
  | .pair _ => paired

/-! ## What a call adds to the log -/

/-- The calls of an iteration complete and leave the list and the mutex alone. -/
theorem iterSteps_spec {k : Nat} (hl : Linked list ps xs) (hs : Stands list ps k)
    (steps : List IterCall) :
    ∃ list', iterSteps list steps = some list' ∧ Linked list' ps xs ∧
      list'.mutex = list.mutex ∧ list'.elemSize = list.elemSize := by
  induction steps generalizing list k with
  | nil => exact ⟨list, rfl, hl, rfl, rfl⟩
  | cons s steps ih =>
      cases s with
      | hasNext => exact ih hl hs
      | next =>
          obtain ⟨list₁, hrun, hl₁, hs₁, hm₁, he₁⟩ := listIterNext_spec hl hs
          obtain ⟨list', hrest, hl', hm, he⟩ := ih hl₁ hs₁
          refine ⟨list', ?_, hl', hm.trans hm₁, he.trans he₁⟩
          rw [iterSteps, hrun]
          exact hrest

/-- **One call.** It completes on any list, and `logOf` is what it does to the mutex. -/
theorem call_spec (hl : Linked list ps xs) {c : Call} (hd : c.Supplies list.elemSize) :
    ∃ list' ps' xs', call list c = some list' ∧ Linked list' ps' xs' ∧
      list'.mutex = list.mutex ++ logOf list c ∧ list'.elemSize = list.elemSize := by
  cases c with
  | seq op =>
      obtain ⟨reply, list', ps', xs', hstep, hl', he, _⟩ := step_spec hl hd
      rw [call, hstep]
      exact ⟨list', ps', xs', rfl, hl', he.mutex, he.elemSize⟩
  | each fn => exact ⟨list, ps, xs, listEach_spec hl fn, hl, (List.append_nil _).symm, rfl⟩
  | pair steps =>
      have hstart : Linked (listIterStartSafe list) ps xs := hl.congr rfl rfl rfl rfl rfl
      obtain ⟨list₁, hrun, hl₁, hm, he⟩ :=
        iterSteps_spec hstart (stands_zero hstart rfl) steps
      rw [call, hrun]
      refine ⟨list₁.unlock, ps, xs, rfl, hl₁.congr rfl rfl rfl rfl rfl, ?_, he⟩
      show list₁.mutex ++ [.unlock] = _
      rw [hm]
      exact List.append_assoc _ _ _

/-- The call truncates. -/
def Call.Truncates : Call → Prop
  | .seq .truncate => True
  | _ => False

/-- **One call keeps the mutex free** exactly if it does not truncate a list whose counter is below
one. -/
theorem balanced_call_iff (hb : Balanced list) {c : Call}
    (hm : list'.mutex = list.mutex ++ logOf list c) :
    Balanced list' ↔ (c.Truncates → 1 ≤ list.len) := by
  rw [Balanced, hm, mutexAfter_append hb]
  have hpaired : mutexAfter paired = some false := rfl
  have hnone : mutexAfter [] = some false := rfl
  cases c with
  | seq op =>
      cases op with
      | append data => exact ⟨fun _ h => h.elim, fun _ => hpaired⟩
      | prepend data => exact ⟨fun _ h => h.elim, fun _ => hpaired⟩
      | insert idx data =>
          refine ⟨fun _ h => h.elim, fun _ => ?_⟩
          rw [logOf, callsOf]
          split_ifs
          · exact hnone
          · exact hpaired
      | truncate =>
          rw [logOf, callsOf]
          split_ifs with hshort
          · exact ⟨fun h => absurd h (by decide), fun h => absurd (h trivial) (not_le.mpr hshort)⟩
          · exact ⟨fun _ _ => not_lt.mp hshort, fun _ => hpaired⟩
      | get idx =>
          refine ⟨fun _ h => h.elim, fun _ => ?_⟩
          rw [logOf, callsOf]
          split_ifs
          · exact hnone
          · exact hpaired
  | each fn => exact ⟨fun _ h => h.elim, fun _ => hnone⟩
  | pair steps => exact ⟨fun _ h => h.elim, fun _ => hpaired⟩

/-! ## Whole runs -/

/-- In every state of the run from `list` the mutex is free and was never waited for. -/
def StaysBalanced (list : ListT) (calls : List Call) : Prop :=
  ∀ pre post list', calls = pre ++ post → runCalls list pre = some list' → Balanced list'

/-- The run from `list` truncates only where the counter is positive. -/
def TruncatesNonempty (list : ListT) (calls : List Call) : Prop :=
  ∀ pre c post list', calls = pre ++ c :: post → runCalls list pre = some list' →
    c.Truncates → 1 ≤ list'.len

/-- A run of one more call at the front. -/
theorem runCalls_cons {c : Call} {calls : List Call} (hc : call list c = some list') :
    runCalls list (c :: calls) = runCalls list' calls := by
  rw [runCalls, hc]
  rfl

/-- The state after a call, and the states after it. -/
theorem staysBalanced_cons {c : Call} {calls : List Call} (hc : call list c = some list')
    (hb : Balanced list) :
    StaysBalanced list (c :: calls) ↔ StaysBalanced list' calls := by
  constructor
  · intro h pre post list'' hpre hrun
    exact h (c :: pre) post list'' (by rw [hpre]; rfl) ((runCalls_cons hc).trans hrun)
  · intro h pre post list'' hpre hrun
    cases pre with
    | nil =>
        obtain rfl := Option.some.inj hrun
        exact hb
    | cons d pre =>
        obtain ⟨rfl, hpost⟩ := List.cons.inj hpre
        exact h pre post list'' hpost ((runCalls_cons hc).symm.trans hrun)

/-- The first call, and the calls after it. -/
theorem truncatesNonempty_cons {c : Call} {calls : List Call} (hc : call list c = some list') :
    TruncatesNonempty list (c :: calls) ↔
      (c.Truncates → 1 ≤ list.len) ∧ TruncatesNonempty list' calls := by
  constructor
  · intro h
    refine ⟨h [] c calls list rfl rfl, fun pre d post list'' hpre hrun => ?_⟩
    exact h (c :: pre) d post list'' (by rw [hpre]; rfl) ((runCalls_cons hc).trans hrun)
  · rintro ⟨hfirst, h⟩ pre d post list'' hpre hrun
    cases pre with
    | nil =>
        obtain rfl := Option.some.inj hrun
        obtain ⟨rfl, _⟩ := List.cons.inj hpre
        exact hfirst
    | cons d' pre =>
        obtain ⟨rfl, hpost⟩ := List.cons.inj hpre
        exact h pre d post list'' hpost ((runCalls_cons hc).symm.trans hrun)

/-- **Every run completes**: nothing it does depends on the mutex. -/
theorem runCalls_completes {calls : List Call} (hl : Linked list ps xs)
    (hd : ∀ c ∈ calls, c.Supplies list.elemSize) : ∃ list', runCalls list calls = some list' := by
  induction calls generalizing list ps xs with
  | nil => exact ⟨list, rfl⟩
  | cons c calls ih =>
      obtain ⟨list₁, ps₁, xs₁, hc, hl₁, _, he⟩ := call_spec hl (hd c List.mem_cons_self)
      obtain ⟨list', hrun⟩ := ih hl₁ fun d hdmem =>
        he ▸ hd d (List.mem_cons_of_mem c hdmem)
      exact ⟨list', (runCalls_cons hc).trans hrun⟩

/-- **A run from a balanced list** stays balanced exactly if it truncates only where the counter is
positive. -/
theorem staysBalanced_iff {calls : List Call} (hl : Linked list ps xs) (hb : Balanced list)
    (hd : ∀ c ∈ calls, c.Supplies list.elemSize) :
    StaysBalanced list calls ↔ TruncatesNonempty list calls := by
  induction calls generalizing list ps xs with
  | nil =>
      constructor
      · intro _ pre d post list' hpre
        exact absurd hpre (by simp)
      · intro _ pre post list' hpre hrun
        obtain ⟨rfl, _⟩ := List.append_eq_nil_iff.mp hpre.symm
        obtain rfl := Option.some.inj hrun
        exact hb
  | cons c calls ih =>
      obtain ⟨list₁, ps₁, xs₁, hc, hl₁, hm, he⟩ := call_spec hl (hd c List.mem_cons_self)
      have hcall := balanced_call_iff hb hm
      rw [truncatesNonempty_cons hc]
      by_cases hb₁ : Balanced list₁
      · rw [staysBalanced_cons hc hb, ih hl₁ hb₁ fun d hdmem =>
          he ▸ hd d (List.mem_cons_of_mem c hdmem)]
        exact ⟨fun h => ⟨hcall.mp hb₁, h⟩, fun h => h.2⟩
      · -- the call leaves the mutex locked, so neither side holds
        constructor
        · intro h
          exact absurd (h [c] calls list₁ rfl ((runCalls_cons hc).trans rfl)) hb₁
        · intro h
          exact absurd (hcall.mpr h.1) hb₁

/-- **List locking is balanced** in every state of a run from `list_new` exactly if the run never
truncates a list whose counter is below one; and every run completes. -/
theorem balanced_iff (n : Nat) (calls : List Call) (hd : ∀ c ∈ calls, c.Supplies n) :
    (∃ list, runCalls (listNew n) calls = some list) ∧
      (StaysBalanced (listNew n) calls ↔ TruncatesNonempty (listNew n) calls) :=
  ⟨runCalls_completes (Linked.listNew n) hd, staysBalanced_iff (Linked.listNew n) rfl hd⟩

/-- A run that locks and unlocks on every path but the one at fault. -/
theorem balanced_iff_example :
    (∃ list, runCalls (listNew 1) [.seq (.append [1]), .pair [.next, .hasNext], .seq (.get 5),
      .seq .truncate] = some list) ∧
      (StaysBalanced (listNew 1) [.seq (.append [1]), .pair [.next, .hasNext], .seq (.get 5),
          .seq .truncate] ↔
        TruncatesNonempty (listNew 1) [.seq (.append [1]), .pair [.next, .hasNext], .seq (.get 5),
          .seq .truncate]) := by
  apply balanced_iff
  intro c hc
  simp only [List.mem_cons, List.not_mem_nil, or_false] at hc
  rcases hc with rfl | rfl | rfl | rfl
  · exact fun data hdata => by rw [List.mem_singleton.mp hdata]; rfl
  · trivial
  · exact fun data hdata => absurd hdata List.not_mem_nil
  · exact fun data hdata => absurd hdata List.not_mem_nil

/-- Truncating the fresh list leaves the mutex held, and the thread waits for itself when it then
appends. -/
theorem truncate_leaves_locked :
    (runCalls (listNew 1) [.seq .truncate]).map (fun list => mutexAfter list.mutex) =
        some (some true) ∧
      (runCalls (listNew 1) [.seq .truncate, .seq (.append [0])]).map
        (fun list => mutexAfter list.mutex) = some none ∧
      ¬ StaysBalanced (listNew 1) [.seq .truncate] := by
  refine ⟨rfl, rfl, fun h => ?_⟩
  exact absurd (h [.seq .truncate] [] (listNew 1).lock rfl rfl) (by decide)

end Flood.LinkedList
