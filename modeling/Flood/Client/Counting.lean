import Flood.Client.Bitfields

/-!
# The availability a thread finds

`calculate_total_availability` is a loop over the list among the other threads. While they rest it is the
function of the peers that `Client/Availability.lean` has.

* `merge_simulated` — a bitfield that no other thread writes meanwhile is combined as a whole.
* `loop_simulated` — the loop over the list is a fold over its peers.
* `count_simulated` — the loop with its lock and its unlock, from any state of a run without clashes in
  which the mutex is free and no bitfield is being replaced.
-/

namespace Flood.Client.Swarm

open Flood.Lib Flood.LinkedList Flood.Peer

variable {t : Nat} {s : Shared} {p : UInt64} {q : PeerT} {data : Elem} {master : Master}
  {threads : List Thread} {m : Monitor Shared Thread}

/-! ## One bitfield -/

/-- The bytes from one on, combined one by one. -/
theorem combine_simulated (t : Nat) {len : UInt32} {before : List UInt8} {rest pre brest : List UInt8}
    (hq : s.Holds (leWord64 data) q) (hbits : q.bitfield = some (before ++ brest))
    (hbefore : before.length = pre.length) (hrest : brest.length = rest.length)
    (hlen : len.toNat = (pre ++ rest).length) (seen : List Elem) :
    moveAll t (s, .merge ⟨some (pre ++ rest), len⟩ (.combine pre.length) data seen)
        (List.replicate (rest.length + 1) .step) =
      some (s, .scan (.count ⟨some (pre ++ orBytes rest brest), len⟩) .test (seen ++ [data])) := by
  induction rest generalizing pre before brest with
  | nil =>
      rw [List.length_nil, List.replicate_one, moveAll_cons _ (.combined _ _ _ _ (by simp [hlen]))]
      simp [moveAll, orBytes]
  | cons old rest ih =>
      cases brest with
      | nil => exact absurd hrest (by simp)
      | cons byte brest =>
          have hread : s.byteAt (leWord64 data) pre.length = some byte := by
            rw [Shared.byteAt, if_neg hq.live, hq.peer]
            simp [hbits, ← hbefore]
          have hor : orByte ⟨some (pre ++ old :: rest), len⟩ pre.length byte =
              some ⟨some ((pre ++ [old ||| byte]) ++ rest), len⟩ := by
            simp [orByte]
          have hlt : pre.length < len.toNat := by simp [hlen]
          have hnext := @ih (before ++ [byte]) (pre ++ [old ||| byte]) brest (by simp [hbits])
            (by simp [hbefore]) (by simpa using hrest) (by simp [hlen])
          rw [List.length_append, List.length_singleton] at hnext
          rw [List.length_cons, List.replicate_succ, moveAll_cons _ (.combine _ _ _ _ hlt hread hor), hnext]
          simp [orBytes]

/-- The master bitfield is made, if there is none, before lengths are compared. -/
theorem init_simulated (t : Nat) (hq : s.Holds (leWord64 data) q) (hpos : 1 ≤ q.bitfieldLength)
    (master : Master) (seen : List Elem) :
    ∃ n, moveAll t (s, .merge master (mergeStart master) data seen) (List.replicate n .step) =
      some (s, .merge (master.init q) .compare data seen) := by
  obtain ⟨bitfield, len⟩ := master
  cases bitfield with
  | none =>
      refine ⟨2, ?_⟩
      rw [List.replicate_succ, mergeStart, if_pos rfl, moveAll_cons _ (.calloc _ _ _ hq.peer),
        List.replicate_one, moveAll_cons _ (.measure _ _ _ hq.peer)]
      simp [moveAll, callocMaster, Master.init, le_trans zero_le_one hpos]
  | some bits => exact ⟨0, rfl⟩

/-- The master bitfield that is made has its length. -/
theorem Master.Whole.init (h : Master.Whole master) (hpos : 1 ≤ q.bitfieldLength)
    (hfits : FitsInt q.bitfieldLength) : Master.Whole (master.init q) := by
  obtain ⟨bitfield, len⟩ := master
  cases bitfield with
  | none =>
      show (List.replicate q.bitfieldLength.toNat (0 : UInt8)).length = _
      rw [List.length_replicate]
      exact (toNat_ofInt (le_trans zero_le_one hpos) hfits).symm
  | some bits => exact h

/-- An empty bitfield is passed. -/
theorem look_of_none (hq : s.peer (leWord64 data) = some q) (hb : block q = none) :
    Job.look s data (.count master) = some (.pass (.count master)) := by
  have hempty : q.bitfieldLength < 1 ∨ q.bitfield = none := by
    unfold block at hb
    split_ifs at hb with hlen
    · exact Or.inl hlen
    · exact Or.inr hb
  rw [Job.look, hq, Option.bind_eq_bind, Option.bind_some, if_pos hempty]

/-- Another is combined. -/
theorem look_of_block {bits : List UInt8} (hq : s.peer (leWord64 data) = some q)
    (hpos : 1 ≤ q.bitfieldLength) (hbits : q.bitfield = some bits) :
    Job.look s data (.count master) = some (.merge master) := by
  rw [Job.look, hq, Option.bind_eq_bind, Option.bind_some,
    if_neg (not_or.mpr ⟨not_lt.mpr hpos, by simp [hbits]⟩)]

/-- From the comparison of the lengths on. -/
theorem compare_simulated (t : Nat) {bits old : List UInt8} {len : UInt32}
    (hq : s.Holds (leWord64 data) q) (hstored : Stored q) (hb : block q = some bits)
    (hwhole : Master.Whole ⟨some old, len⟩) (seen : List Elem) :
    ∃ (master' : Master) (n : Nat),
      (if UInt32.ofNat bits.length = len then Master.orInto ⟨some old, len⟩ bits
        else some ⟨some old, len⟩) = some master' ∧ Master.Whole master' ∧
      moveAll t (s, .merge ⟨some old, len⟩ .compare data seen) (List.replicate n .step) =
        some (s, .scan (.count master') .test (seen ++ [data])) := by
  obtain ⟨hbits, hlen, -, hmax⟩ := hstored.of_block hb
  have hof : UInt32.ofInt q.bitfieldLength = UInt32.ofNat bits.length := by
    rw [hlen, (ofInt_natCast hmax).1]
  by_cases heq : UInt32.ofNat bits.length = len
  · have hsize : bits.length = old.length := by
      rw [← (ofInt_natCast hmax).2, heq]
      exact hwhole.symm
    have hcombine := @combine_simulated s q data t len [] old [] bits hq hbits rfl hsize hwhole.symm seen
    refine ⟨⟨some (orBytes old bits), len⟩, old.length + 1 + 1, ?_, ?_, ?_⟩
    · rw [if_pos heq, Master.orInto, if_pos (by rw [← hwhole, hsize]; rfl)]
      rfl
    · exact (length_orBytes hsize.symm).trans hwhole
    · rw [List.replicate_succ, moveAll_cons _ (.same _ _ _ hq.peer (hof.trans heq))]
      exact hcombine
  · refine ⟨⟨some old, len⟩, 1, if_neg heq, hwhole, ?_⟩
    rw [List.replicate_one, moveAll_cons _ (.differ _ _ _ hq.peer fun h => heq (hof.symm.trans h))]
    rfl

/-- **A bitfield that no other thread writes meanwhile** is combined as a whole. -/
theorem merge_simulated (t : Nat) (hq : s.Holds (leWord64 data) q) (hstored : Stored q)
    (hwhole : Master.Whole master) (seen : List Elem) :
    ∃ (master' : Master) (n : Nat), master.merge q = some master' ∧ Master.Whole master' ∧
      moveAll t (s, .scan (.count master) (.look data) seen) (List.replicate n .step) =
        some (s, .scan (.count master') .test (seen ++ [data])) := by
  cases hb : block q with
  | none =>
      refine ⟨master, 1, Master.merge_of_none hb master, hwhole, ?_⟩
      rw [List.replicate_one, moveAll_cons _ (.pass _ _ (look_of_none hq.peer hb))]
      rfl
  | some bits =>
      obtain ⟨hbits, hlen, hone, -⟩ := hstored.of_block hb
      have hpos : 1 ≤ q.bitfieldLength := by rw [hlen]; omega
      obtain ⟨n, hinit⟩ := init_simulated t hq hpos master seen
      have hwhole' := hwhole.init hpos hstored.fits
      obtain ⟨old, hold⟩ : ∃ old, master.init q = ⟨some old, (master.init q).len⟩ := by
        obtain ⟨bitfield, len⟩ := master
        cases bitfield <;> exact ⟨_, rfl⟩
      rw [hold] at hwhole'
      obtain ⟨master', k, hmerge, hwhole'', hmoves⟩ := compare_simulated t hq hstored hb hwhole' seen
      rw [← hold] at hmerge hmoves
      -- the look, the master bitfield, and then what the comparison says
      refine ⟨master', 1 + n + k, (Master.merge_of_block hstored hb master).trans hmerge, hwhole'', ?_⟩
      rw [List.replicate_add, List.replicate_add, List.append_assoc, List.replicate_one,
        List.singleton_append, moveAll_cons _ (.merge _ _ (look_of_block hq.peer hpos hbits)),
        moveAll_append hinit]
      exact hmoves

/-! ## The loop -/

/-- The cursor does not matter. -/
theorem Settled.withList (h : Settled s p) (list : ListT) : Settled (s.withList list) p :=
  ⟨h.live, h.stored⟩

/-- **The loop over the list** combines the bitfields of its peers, in order. -/
theorem loop_simulated (t : Nat) {rest pre : List UInt64} {ps : List Nat} {es : List PeerT}
    (hl : Linked s.list ps s.elems) (hstands : Stands s.list ps pre.length)
    (hlisted : s.listed = pre ++ rest) (hsettled : ∀ p ∈ rest, Settled s p)
    (hes : es.map some = rest.map s.peer) (hwhole : Master.Whole master) :
    ∃ (master' : Master) (n : Nat) (list : ListT), es.foldlM Master.merge master = some master' ∧
      moveAll t (s, .scan (.count master) .test (pre.map leBytes64)) (List.replicate n .step) =
        some (s.withList list, .scan (.count master') (.stop none) s.elems) := by
  have helems : s.elems = pre.map leBytes64 ++ rest.map leBytes64 := by
    rw [Shared.elems, hlisted, List.map_append]
  have hnext := listIterHasNext_iff hl hstands
  induction rest generalizing s pre master es with
  | nil =>
      obtain rfl := List.map_eq_nil_iff.mp hes
      have hend : listIterHasNext s.list = false := by
        rw [Bool.eq_false_iff, ne_eq, hnext, helems]
        simp
      refine ⟨master, 1, s.list, rfl, ?_⟩
      rw [List.replicate_one, moveAll_cons _ (.ended _ _ hend), helems, List.map_nil, List.append_nil]
      rfl
  | cons p rest ih =>
      obtain ⟨q, es, rfl, hq, hes'⟩ := List.map_eq_cons_iff.mp hes
      have hmore : listIterHasNext s.list = true := by
        rw [hnext, helems]
        simp
      obtain ⟨list, hfetch, hl', hstands', -, -⟩ := listIterNext_spec hl hstands
      rw [helems, show pre.length = (pre.map leBytes64).length from (List.length_map _).symm,
        List.getElem?_append_right le_rfl, Nat.sub_self] at hfetch
      -- the element, and what combining it comes to
      have hsettled' := hsettled p List.mem_cons_self
      have hholds : (s.withList list).Holds (leWord64 (leBytes64 p)) q := by
        rw [leWord64_leBytes64]
        exact ⟨hq.symm, hsettled'.live⟩
      obtain ⟨master₁, n₁, hmerge, hwhole₁, hmoves₁⟩ := merge_simulated t hholds
        (hsettled'.stored q hq.symm) hwhole (pre.map leBytes64)
      have hstands₁ : Stands (s.withList list).list ps (pre ++ [p]).length := by
        rw [List.length_append]
        exact hstands'
      obtain ⟨master', n, list', hfold, hmoves⟩ := @ih (s.withList list) master₁ (pre ++ [p]) es hl'
        hstands₁ (by rw [List.append_assoc]; exact hlisted)
        (fun a ha => (hsettled a (List.mem_cons_of_mem p ha)).withList list) hes' hwhole₁
        (by rw [List.map_append, List.append_assoc]; exact helems)
        (listIterHasNext_iff hl' hstands₁)
      refine ⟨master', 2 + n₁ + n, list', ?_, ?_⟩
      · rw [List.foldlM_cons, hmerge]
        exact hfold
      · rw [List.replicate_add, List.replicate_add, List.append_assoc, List.replicate_succ,
          List.replicate_one, List.cons_append, List.singleton_append,
          moveAll_cons _ (.more _ _ hmore), moveAll_cons _ (.fetch _ _ hfetch), moveAll_append hmoves₁]
        rw [List.map_append] at hmoves
        exact hmoves

/-- **`calculate_total_availability` while the other threads rest**: from any state of a run without
clashes in which the mutex is free and no bitfield is being replaced, the thread goes through its loop and
is left with what the sequential function finds for the peers of the list. -/
theorem count_simulated (h : Undisturbed threads m) (hfree : m.owner = none)
    (hquiet : ∀ k ∈ m.threads, k.replaced = none)
    (ht : m.threads[t]? = some (scanFor (.count ⟨none, 0⟩))) :
    ∃ (es : List PeerT) (master : Master) (n : Nat) (s' : Shared),
      entries m.shared.client = some es ∧
      calculateTotalAvailability es =
        some ((master.bitfield.getD []).foldl countByte 0, intOfUInt (master.len * 8)) ∧
      (List.replicate n (t, Input.step)).foldlM swarm.step m =
        some ⟨none, s', m.threads.set t (.tally master)⟩ ∧ s'.client.blocks = m.shared.client.blocks := by
  obtain ⟨hx, hh⟩ := h.reached.invariants
  obtain ⟨es, hentries, hes⟩ := (reports_handled h.reached).entries hfree
  obtain ⟨ps, hl⟩ := (hh.free hfree).linked
  obtain ⟨s₀, hs₀⟩ : ∃ s₀, s₀ = (m.shared.withList m.shared.list.lock).withList
      (listIterStart m.shared.list.lock) := ⟨_, rfl⟩
  have hl₀ : Linked s₀.list ps s₀.elems := by
    rw [hs₀]
    exact hl.congr rfl rfl rfl rfl rfl
  obtain ⟨master, n, list, hfold, hmoves⟩ := @loop_simulated s₀ ⟨none, 0⟩ t m.shared.listed [] ps es hl₀
    (stands_zero hl₀ (by rw [hs₀]; rfl)) (by rw [hs₀]; rfl)
    (fun p _ => by
      rw [hs₀]
      exact ((h.bitsHold.settled p fun k hk => by rw [hquiet k hk]; simp).withList _).withList _)
    (by rw [hs₀]; exact hes) rfl
  -- the lock, the loop, and the unlock
  have hlock : swarm.step m (t, .step) = some ⟨some t, m.shared.withList m.shared.list.lock,
      m.threads.set t (.scan (.count ⟨none, 0⟩) .rewind [])⟩ :=
    Program.step_eq_some_iff.mpr ⟨_, _, some t, ht, @move_of_moves t _ _ _ _ (.lock _ _),
      by rw [hfree]; rfl, rfl⟩
  have hrewound := (getElem?_set_of_some ht (.scan (.count ⟨none, 0⟩) .rewind []) t).trans (if_pos rfl)
  have hloop : moveAll t (m.shared.withList m.shared.list.lock, .scan (.count ⟨none, 0⟩) .rewind [])
      (List.replicate (n + 1) .step) =
        some (s₀.withList list, .scan (.count master) (.stop none) s₀.elems) := by
    rw [List.replicate_succ, moveAll_cons _ (.rewind _ _), ← hmoves, hs₀]
    rfl
  have hrun := foldlM_of_moveAll (m := ⟨some t, m.shared.withList m.shared.list.lock,
    m.threads.set t (.scan (.count ⟨none, 0⟩) .rewind [])⟩) hrewound hloop
  rw [List.map_replicate, List.set_set] at hrun
  have hstopped := (getElem?_set_of_some ht (.scan (.count master) (.stop none) s₀.elems) t).trans
    (if_pos rfl)
  have hunlock := Program.step_release (P := swarm) (i := Input.step) (m := ⟨some t, s₀.withList list,
    m.threads.set t (.scan (.count master) (.stop none) s₀.elems)⟩) hstopped
    (@move_of_moves t _ _ _ _ (.unlock (.count master) s₀.elems none)) rfl
  rw [List.set_set] at hunlock
  refine ⟨es, master, 1 + (n + 1) + 1, ((s₀.withList list).withList
    (listIterStopSafe (s₀.withList list).list)).note [], hentries, ?_, ?_, ?_⟩
  · rw [calculateTotalAvailability, hfold]
    rfl
  · rw [List.replicate_add, List.replicate_add, List.foldlM_append, List.foldlM_append,
      List.replicate_one, List.foldlM_cons, hlock]
    simp only [Option.bind_eq_bind, Option.bind_some, List.foldlM_nil, Option.pure_def, hrun,
      List.foldlM_cons, hunlock]
    rfl
  · rw [hs₀]
    rfl

/-- After `oneBitfield`, another thread has found no new peer. -/
def noneNew : List (Nat × Input) := oneBitfield ++ List.replicate 8 (2, .step)

/-- It finds the three pieces of the one peer. -/
theorem count_simulated_example :
    ∃ m : Monitor Shared Thread,
      noneNew.foldlM swarm.step (started [.idle, .track [⟨1, 2⟩], .idle]) = some m ∧
      ∃ (es : List PeerT) (master : Master) (n : Nat) (s' : Shared),
        entries m.shared.client = some es ∧ calculateTotalAvailability es = some (3, 16) ∧
        (List.replicate n (2, Input.step)).foldlM swarm.step m =
          some ⟨none, s', m.threads.set 2 (.tally master)⟩ := by
  have hview : (noneNew.foldlM swarm.step (started [.idle, .track [⟨1, 2⟩], .idle])).map
      (fun m => (m.owner, m.threads, decide (Clash m),
        (entries m.shared.client).bind calculateTotalAvailability)) =
      some (none, [.talk 5, .track [], scanFor (.count ⟨none, 0⟩)], false, some (3, 16)) := by
    decide +kernel
  obtain ⟨m, hrun, hm⟩ := Option.map_eq_some_iff.mp hview
  obtain ⟨howner, hthreads, hclear, hfound⟩ : m.owner = none ∧
      m.threads = [.talk 5, .track [], scanFor (.count ⟨none, 0⟩)] ∧ ¬ Clash m ∧
      (entries m.shared.client).bind calculateTotalAvailability = some (3, 16) := by
    simpa using hm
  obtain ⟨es, master, n, s', hentries, _, hcount, _⟩ :=
    @count_simulated 2 [.idle, .track [⟨1, 2⟩], .idle] m
      ⟨by simp [Thread.Initial], by decide, ⟨noneNew, hrun, by decide +kernel⟩, hclear⟩ howner
      (by rw [hthreads]; decide) (by rw [hthreads]; rfl)
  rw [hentries, Option.bind_some] at hfound
  exact ⟨m, hrun, es, master, n, s', hentries, hfound, hcount⟩

end Flood.Client.Swarm
