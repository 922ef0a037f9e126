import Flood.Client.Guarded

/-!
# Interleavings of the threads of a client

Whole runs of the threads of `Client/Swarm.lean`, in any order of moves, whatever the environment
answers.

* `Reached.invariants` — the threads are kept apart, and what they rely on holds, as long as the
  trackers report fewer peers than the counter of the list can count.
* `scans_whole` — mutual exclusion, and what a loop over the list gets to see.
* `reports_handled` — each report of each tracker is dealt with once, in order, and no peer is lost.
-/

namespace Flood.Client.Swarm

open Flood.Lib Flood.LinkedList Flood.Peer
open Flood.Tracker (DiscoveredPeer)

variable {t u : Nat} {s s' : Shared} {l l' k : Thread} {i : Input} {mv : Move Shared Thread}
  {p : UInt64} {job : Job} {seen : List Elem} {data : Elem} {threads : List Thread}
  {m m' : Monitor Shared Thread} {acts : List (Nat × Input)}

/-! ## Whole runs -/

/-- The reports thread `t` is to deal with. -/
def script (threads : List Thread) (t : Nat) : List DiscoveredPeer :=
  (threads[t]?.map Thread.outstanding).getD []

/-- How many reports there are. -/
def reportCount (threads : List Thread) : Nat := (threads.map fun l => l.outstanding.length).sum

/-- Before its first move a thread stands outside. -/
theorem Thread.Initial.inside (h : l.Initial) : l.inside = false := by
  cases l with
  | idle => rfl
  | watch => rfl
  | track rest => rfl
  | _ => exact h.elim

/-- Before its first move a thread relies on nothing. -/
theorem Thread.Initial.relies (h : l.Initial) (s : Shared) : l.Relies s := by
  cases l with
  | idle => trivial
  | watch => trivial
  | track rest => trivial
  | _ => exact h.elim

/-- At first every thread stands outside. -/
theorem apart_started (h : ∀ l ∈ threads, l.Initial) : swarm.Apart (started threads) :=
  Program.apart_start fun l hl => (h l hl).inside

/-- At first the assertions hold. -/
theorem hold_started (h : ∀ l ∈ threads, l.Initial) :
    (assertions (script threads)).Hold (started threads) where
  always :=
    { elemSize := rfl
      nodup := List.nodup_nil
      listed := fun _ hd => absurd hd List.not_mem_nil
      taken := fun _ _ _ hsplit => absurd hsplit (by simp [started, Monitor.start]) }
  free := fun _ => ⟨rfl, [], Linked.listNew 8⟩
  here := by
    intro t l hl
    have hl' : threads[t]? = some l := hl
    refine ⟨(h l (List.mem_of_getElem? hl')).relies _, ?_⟩
    rw [script, hl']
    rfl

/-- A report is dealt with or outstanding. -/
theorem Moves.length_handled (h : Moves t s l i mv) :
    mv.shared.handled.length + mv.thread.outstanding.length =
      s.handled.length + l.outstanding.length := by
  cases h with
  | pass job seen hlook =>
      exact congrArg (s.handled.length + ·) (congrArg List.length (look_pass hlook).2.2)
  | merge job seen hlook =>
      obtain ⟨rfl, _⟩ := look_merge hlook
      rfl
  | unlock job seen hit =>
      show (s.handled ++ job.noted t hit).length + (job.after hit).outstanding.length =
        s.handled.length + job.outstanding.length
      rw [List.length_append, Nat.add_assoc]
      refine congrArg (s.handled.length + ·) ?_
      cases job <;> cases hit <;>
        simp [Job.noted, Job.after, Thread.outstanding, Job.outstanding, scanFor, Nat.add_comm]
  | count report p rest =>
      show (s.handled ++ [(⟨t, report, some p⟩ : Handled)]).length + rest.length =
        s.handled.length + (report :: rest).length
      rw [List.length_append, List.length_singleton, List.length_cons, Nat.add_assoc, Nat.add_comm 1]
  | _ => rfl

/-- No more pointers are put into the list than there are reports. -/
theorem length_listed_le (hrun : acts.foldlM swarm.step (started threads) = some m) :
    m.shared.listed.length ≤ reportCount threads := by
  have hsum : m.shared.handled.length +
      (m.threads.map fun l => l.outstanding.length).sum = reportCount threads := by
    refine conserved_of_run (P := swarm) (f := fun s => s.handled.length)
      (g := fun l => l.outstanding.length) (w := fun _ => reportCount threads) ?_ ?_ hrun
    · intro t s l i mv h
      exact ⟨0, (moves_of_move h).length_handled, rfl⟩
    · exact Nat.zero_add _
  calc m.shared.listed.length ≤ m.shared.handled.length := List.length_filterMap_le _ _
    _ ≤ reportCount threads := by rw [← hsum]; exact Nat.le_add_right _ _

/-- A state of an interleaving of the threads. The trackers report fewer peers than the counter of
the list can count. -/
structure Reached (threads : List Thread) (m : Monitor Shared Thread) : Prop where
  /-- The threads have not moved. -/
  initial : ∀ l ∈ threads, l.Initial
  /-- There are not too many reports. -/
  count : reportCount threads < 2 ^ 32
  /-- Moves of theirs lead to the state. -/
  run : ∃ acts : List (Nat × Input), acts.foldlM swarm.step (started threads) = some m

/-- The list has fewer pointers than its counter can count. -/
theorem Reached.counts (h : Reached threads m) : Counts m.shared := by
  obtain ⟨acts, hrun⟩ := h.run
  exact lt_of_le_of_lt (length_listed_le hrun) h.count

/-- Moves from a state that is reached. -/
theorem Reached.append (h : Reached threads m) (hrun : acts.foldlM swarm.step m = some m') :
    Reached threads m' := by
  obtain ⟨before, hbefore⟩ := h.run
  refine ⟨h.initial, h.count, before ++ acts, ?_⟩
  rw [List.foldlM_append, hbefore]
  exact hrun

/-- **In every state that is reached** the threads are kept apart, and the assertions hold. -/
theorem Reached.invariants (h : Reached threads m) :
    swarm.Apart m ∧ (assertions (script threads)).Hold m := by
  obtain ⟨acts, hrun⟩ := h.run
  refine (sound (script threads)).hold_of_run (apart_started h.initial) (hold_started h.initial)
    ?_ hrun
  intro pre a post m' _ hrun'
  exact lt_of_le_of_lt (length_listed_le hrun') h.count

/-- A thread inside relies on the mutex being locked. -/
theorem Thread.Relies.mutex (h : l.Relies s) (hin : l.inside = true) :
    mutexAfter s.list.mutex = some true := by
  cases l with
  | scan job stage seen =>
      cases stage with
      | enter => exact absurd hin (by simp [Thread.inside])
      | _ => exact Scans.mutex h
  | merge master stage data seen => exact Scans.mutex h
  | append stage report p rest =>
      cases stage with
      | enter => exact absurd hin (by simp [Thread.inside])
      | create => exact Whole.mutex h.2
      | link node => exact h.2.1
      | count => exact h.2.1
      | release => exact Whole.mutex h.2
  | _ => exact absurd hin (by simp [Thread.inside])

/-! ## Mutual exclusion -/

/-- The calls made on the mutex say whether it is locked. -/
theorem mutexAfter_of_hold {script : Nat → List DiscoveredPeer} (hx : swarm.Apart m)
    (hh : (assertions script).Hold m) :
    mutexAfter m.shared.list.mutex = some m.owner.isSome := by
  cases howner : m.owner with
  | none => exact (hh.free howner).mutex
  | some t =>
      obtain ⟨l, hl⟩ := hx.exists_owner t howner
      exact (hh.here t l hl).1.mutex ((hx.inside_iff t l hl).mpr howner)

/-- What the mutex is for. -/
structure ScansWhole (m : Monitor Shared Thread) : Prop where
  /-- No two threads have the mutex. -/
  exclusive : ∀ (t u : Nat) (l k : Thread), m.threads[t]? = some l → m.threads[u]? = some k →
    l.inside = true → k.inside = true → t = u
  /-- No thread locks it twice, and none unlocks it that has not locked it. -/
  mutex : mutexAfter m.shared.list.mutex = some m.owner.isSome
  /-- While it is free, the list is whole. -/
  whole : m.owner = none → ∃ ps, Linked m.shared.list ps m.shared.elems
  /-- A loop that goes on gets the next element. -/
  next : ∀ (t : Nat) (job : Job) (seen : List Elem), m.threads[t]? = some (.scan job .fetch seen) →
    ∃ data list, listIterNext m.shared.list = some (some data, list) ∧
      seen ++ [data] <+: m.shared.elems
  /-- A loop that is left early has had the elements up to the pointer it is left with. -/
  left : ∀ (t : Nat) (job : Job) (seen : List Elem) (p : UInt64),
    m.threads[t]? = some (.scan job (.stop (some p)) seen) → seen ++ [leBytes64 p] <+: m.shared.elems
  /-- A loop that runs to its end has had all elements. -/
  ended : ∀ (t : Nat) (job : Job) (seen : List Elem),
    m.threads[t]? = some (.scan job (.stop none) seen) → seen = m.shared.elems

/-- **The loops over the list**, in every state of every interleaving: no two threads have the mutex,
and a loop gets the elements of the list in order, each of them once, although the cursor belongs to
the list and other threads move it too. -/
theorem scans_whole (h : Reached threads m) : ScansWhole m := by
  obtain ⟨hx, hh⟩ := h.invariants
  refine ⟨fun t u l k hl hk hin hin' => hx.eq_of_inside hl hk hin hin', mutexAfter_of_hold hx hh,
    fun hfree => (hh.free hfree).linked, fun t job seen ht => ?_, fun t job seen p ht => ?_,
      fun t job seen ht => ?_⟩
  · have hs : Scans m.shared job .fetch seen := (hh.here t _ ht).1
    obtain ⟨ps, hl, hstands, hseen, hlt⟩ := hs.stands
    obtain ⟨list, hnext, _⟩ := listIterNext_spec hl hstands
    rw [List.getElem?_eq_getElem hlt] at hnext
    exact ⟨_, list, hnext, (hs.fetch hnext).stands.choose_spec.2.2⟩
  · have hs : Scans m.shared job (.stop (some p)) seen := (hh.here t _ ht).1
    obtain ⟨ps, _, hseen, _⟩ := hs.stands
    exact hseen
  · have hs : Scans m.shared job (.stop none) seen := (hh.here t _ ht).1
    obtain ⟨ps, _, hseen⟩ := hs.stands
    exact hseen

/-- The moves of a tracker, thread 1, that puts a peer into the empty list. -/
def oneReport : List (Nat × Input) :=
  List.replicate 5 (1, .step) ++ (1, .malloc ⟨5, .new⟩) :: List.replicate 5 (1, .step)

/-- The list with the peer. -/
def oneListed : ListT where
  head := some 0
  tail := some 0
  currNode := none
  elemSize := 8
  len := 1
  mutex := [.lock, .unlock, .lock, .unlock]
  heap := [some ⟨[5, 0, 0, 0, 0, 0, 0, 0], none, none⟩]

/-- What the threads share then. -/
def oneReported : Shared :=
  ⟨⟨oneListed, [(5, newPeer 1 2 .new)]⟩, [⟨1, ⟨1, 2⟩, some 5⟩], []⟩

/-- `main` has had the one peer that a tracker has put into the list, and a peer thread waits. -/
theorem scans_whole_example :
    ScansWhole ⟨some 2, oneReported.withList { oneListed with mutex := oneListed.mutex ++ [.lock] },
      [scanFor .select, .track [], .scan (.unchecked 1) (.stop none) [leBytes64 5]]⟩ :=
  @scans_whole [.idle, .track [⟨1, 2⟩], .watch] _
    ⟨by simp [Thread.Initial], by decide,
      oneReport ++ (0, .step) :: List.replicate 7 (2, .step), rfl⟩

/-! ## Nothing is lost -/

/-- A pointer in the list points to a peer. -/
theorem Always.exists_peer (ha : Always s) (hp : p ∈ s.listed) : ∃ q, s.peer p = some q := by
  obtain ⟨d, hd, hdp⟩ := List.mem_filterMap.mp hp
  obtain ⟨q, hq, _⟩ := ha.listed d hd p hdp
  exact ⟨q, hq⟩

/-- The peers the list points to. -/
theorem entries_of_linked {ps : List Nat} (hl : Linked s.list ps s.elems)
    (hlive : ∀ p ∈ s.listed, ∃ q, s.peer p = some q) :
    ∃ es, entries s.client = some es ∧ es.map some = s.listed.map s.peer := by
  have hmap : ∀ ptrs : List UInt64, (∀ p ∈ ptrs, ∃ q, s.peer p = some q) →
      ∃ es, (ptrs.map leBytes64).mapM (fun e => s.client.blocks.lookup (leWord64 e)) = some es ∧
        es.map some = ptrs.map s.peer := by
    intro ptrs hptrs
    induction ptrs with
    | nil => exact ⟨[], rfl, rfl⟩
    | cons p ptrs ih =>
        obtain ⟨q, hq⟩ := hptrs p List.mem_cons_self
        obtain ⟨es, hes, hall⟩ := ih fun p' hp' => hptrs p' (List.mem_cons_of_mem p hp')
        refine ⟨q :: es, ?_, ?_⟩
        · rw [List.map_cons, List.mapM_cons, leWord64_leBytes64,
            show s.client.blocks.lookup p = some q from hq, hes]
          rfl
        · rw [List.map_cons, List.map_cons, hq, hall]
  obtain ⟨es, hes, hall⟩ := hmap s.listed hlive
  refine ⟨es, ?_, hall⟩
  rw [entries, show s.client.peers = s.list from rfl, forward_spec hl, Option.bind_eq_bind,
    Option.bind_some]
  exact hes

/-- A peer is put into the list, or is about to be. -/
theorem Moves.pending (h : Moves t s l i mv) :
    ∃ d : Multiset UInt64, (mv.shared.listed : Multiset UInt64) + mv.thread.pending =
        s.listed + l.pending + d ∧
      (mv.shared.client.blocks.map Prod.fst : Multiset UInt64) = s.client.blocks.map Prod.fst + d := by
  cases h with
  | unlock job seen hit =>
      refine ⟨0, ?_, (add_zero _).symm⟩
      have hlisted : (s.handled ++ job.noted t hit).filterMap Handled.addr = s.listed := by
        rw [List.filterMap_append]
        cases job <;> cases hit <;> simp [Job.noted, Shared.listed]
      have hpending : (job.after hit).pending = [] := by cases job <;> cases hit <;> rfl
      show (((s.handled ++ job.noted t hit).filterMap Handled.addr : List UInt64) : Multiset UInt64) +
        (job.after hit).pending = _
      rw [hlisted, hpending]
      exact (add_zero _).symm
  | claim hq => exact ⟨0, (add_zero _).symm, by rw [add_zero]; exact congrArg _ (addrs_setPeer ..)⟩
  | refuse hq => exact ⟨0, (add_zero _).symm, by rw [add_zero]; exact congrArg _ (addrs_setPeer ..)⟩
  | hear => exact ⟨0, (add_zero _).symm, by rw [add_zero]; exact congrArg _ (addrs_setPeer ..)⟩
  | malloc => exact ⟨0, (add_zero _).symm, by rw [add_zero]; exact congrArg _ (addrs_setPeer ..)⟩
  | copy => exact ⟨0, (add_zero _).symm, by rw [add_zero]; exact congrArg _ (addrs_setPeer ..)⟩
  | length => exact ⟨0, (add_zero _).symm, by rw [add_zero]; exact congrArg _ (addrs_setPeer ..)⟩
  | mark => exact ⟨0, (add_zero _).symm, by rw [add_zero]; exact congrArg _ (addrs_setPeer ..)⟩
  | alloc report rest hfresh =>
      rename_i block
      refine ⟨([block.addr] : List UInt64), by rw [add_assoc]; rfl, ?_⟩
      show (((s.client.blocks ++ [_]).map Prod.fst : List UInt64) : Multiset UInt64) = _
      rw [List.map_append, Multiset.coe_add]
      rfl
  | count report p rest =>
      refine ⟨0, ?_, (add_zero _).symm⟩
      show (((s.handled ++ [(⟨t, report, some p⟩ : Handled)]).filterMap Handled.addr :
        List UInt64) : Multiset UInt64) + ([] : List UInt64) = s.listed + [p] + 0
      rw [List.filterMap_append, add_zero, Multiset.coe_add, Multiset.coe_add, List.append_nil]
      rfl
  | _ => exact ⟨0, (add_zero _).symm, (add_zero _).symm⟩

/-- What has become of the reports. -/
structure ReportsHandled (threads : List Thread) (m : Monitor Shared Thread) : Prop where
  /-- A tracker has dealt with the first of its reports, each once and in order, and has the others
  left. -/
  order : ∀ (t : Nat) (l : Thread), m.threads[t]? = some l →
    m.shared.handledBy t ++ l.outstanding = script threads t
  /-- A peer that is allocated is in the list once, or a thread is about to put it there. -/
  peers : (m.shared.listed : Multiset UInt64) +
      (m.threads.map fun l => (l.pending : Multiset UInt64)).sum =
    m.shared.client.blocks.map Prod.fst
  /-- No peer is in the list twice. -/
  nodup : m.shared.listed.Nodup
  /-- A peer in the list has the address and the port of its report. -/
  listed : ∀ d ∈ m.shared.handled, ∀ p, d.addr = some p → Made m.shared d.report p
  /-- A report without a peer was taken for an element put into the list before. -/
  taken : ∀ pre d post, m.shared.handled = pre ++ d :: post → d.addr = none →
    ∃ p ∈ pre.filterMap Handled.addr, p.toUInt32 = d.report.ip
  /-- While the mutex is free, the list points to these peers and no others. -/
  entries : m.owner = none → ∃ es, entries m.shared.client = some es ∧
    es.map some = m.shared.listed.map m.shared.peer

/-- **No report is lost and none is dealt with twice**, in every state of every interleaving of the
trackers with each other and with the threads that read the list. -/
theorem reports_handled (h : Reached threads m) : ReportsHandled threads m := by
  obtain ⟨hx, hh⟩ := h.invariants
  obtain ⟨acts, hrun⟩ := h.run
  have hpeers : (m.shared.listed : Multiset UInt64) +
      (m.threads.map fun l => (l.pending : Multiset UInt64)).sum =
        m.shared.client.blocks.map Prod.fst := by
    refine conserved_of_run (P := swarm) (f := fun s => (s.listed : Multiset UInt64))
      (g := fun l => (l.pending : Multiset UInt64))
      (w := fun s => (s.client.blocks.map Prod.fst : Multiset UInt64)) ?_ ?_ hrun
    · intro t s l i mv hm
      exact (moves_of_move hm).pending
    · have hnone : ∀ l ∈ threads, (l.pending : Multiset UInt64) = 0 := by
        intro l hl
        have hinit := h.initial l hl
        cases l <;> first | rfl | exact hinit.elim
      show (0 : Multiset UInt64) + (threads.map fun l => (l.pending : Multiset UInt64)).sum = 0
      rw [zero_add]
      exact List.sum_eq_zero (by simpa using hnone)
  refine ⟨fun t l hl => (hh.here t l hl).2, hpeers, ?_, hh.always.listed, hh.always.taken,
    fun hfree => ?_⟩
  · have hnodup := Multiset.coe_nodup.mpr hh.always.nodup
    rw [← hpeers] at hnodup
    exact Multiset.coe_nodup.mp (Multiset.nodup_of_le (Multiset.le_add_right _ _) hnodup)
  · obtain ⟨ps, hl⟩ := (hh.free hfree).linked
    exact entries_of_linked hl fun p hp => hh.always.exists_peer hp

/-- A tracker that has put its one report into the list. -/
theorem reports_handled_example :
    ReportsHandled [.idle, .track [⟨1, 2⟩]] ⟨none, oneReported, [.idle, .track []]⟩ :=
  @reports_handled [.idle, .track [⟨1, 2⟩]] _
    ⟨by simp [Thread.Initial], by decide, oneReport, rfl⟩

end Flood.Client.Swarm
