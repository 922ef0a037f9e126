import Flood.Client.Interleaved
import Flood.Client.Threads

/-!
# The threads of a client, scan by scan

The atomic steps of `Client/Threads.lean`, in which a thread scans the whole list at once, are what
the interleaved calls of `Client/Swarm.lean` come to.

* `Event`, `atomicStep` — the atomic steps, and a peer that is put into the list.
* `abstract` — what a state of the interleaved threads is in the atomic model; `trace` the events a
  run comes to.
* `refines_atomic` — every run of the interleaved threads is a run of the atomic ones.
* `talks_exclusively` — so no two threads talk to one peer, unless a scan selects a peer that is
  selected and not claimed.
-/

namespace Flood.Client.Swarm

open Flood.Lib Flood.LinkedList Flood.Peer
open Flood.Tracker (DiscoveredPeer)

variable {t u : Nat} {s s' : Shared} {l l' k : Thread} {i : Input} {mv : Move Shared Thread}
  {p : UInt64} {q q' : PeerT} {seen : List Elem} {data : Elem} {threads : List Thread}
  {m m' : Monitor Shared Thread} {acts : List (Nat × Input)}

/-- What happens in the atomic model. -/
inductive Event where
  /-- A thread takes a step. -/
  | act (a : Action)
  /-- A peer is put into the list, with what its memory held for a status. -/
  | arrive (status : PeerStatus)
  deriving DecidableEq

/-- One event. -/
def atomicStep (s : Threads) : Event → Option Threads
  | .act a => step s a
  | .arrive status => some { s with peers := s.peers ++ [status] }

/-- The status of the peer a pointer points to. -/
def Shared.status (s : Shared) (p : UInt64) : PeerStatus := ((s.peer p).map PeerT.status).getD (.junk 0)

/-- The statuses of the peers in the list. -/
def Shared.statuses (s : Shared) : List PeerStatus := s.listed.map s.status

/-- The place of a pointer in the list. -/
def Shared.place (s : Shared) (p : UInt64) : Nat := s.listed.idxOf p

/-- Where a thread in a loop over the list is in the atomic model. -/
def Stage.state (s : Shared) (job : Job) : Stage → ThreadState
  | .stop (some p) =>
      match job with
      | .select => .selected (s.place p)
      | _ => .idle
  | _ => .idle

/-- Where a thread is in the atomic model. -/
def Thread.state (s : Shared) : Thread → ThreadState
  | .scan job stage _ => stage.state s job
  | .claim p => .selected (s.place p)
  | .connect p => .communicating (s.place p)
  | .talk p => .communicating (s.place p)
  | .update p _ _ => .communicating (s.place p)
  | .mark p _ => .communicating (s.place p)
  | _ => .idle

/-- The state in the atomic model. -/
def abstract (m : Monitor Shared Thread) : Threads :=
  ⟨m.shared.statuses, m.threads.map (Thread.state m.shared)⟩

/-- What a move in a loop over the list comes to. A scan happens where it reads the status that ends
it, or finds the list at its end. -/
def Stage.events (t : Nat) (s : Shared) (job : Job) : Stage → List Event
  | .look data =>
      match job with
      | .select => if s.status (leWord64 data) = .new then [.act (.scan t)] else []
      | _ => []
  | .test =>
      match job with
      | .select => if listIterHasNext s.list then [] else [.act (.scan t)]
      | _ => []
  | _ => []

/-- What a move of thread `t` comes to. -/
def eventsOf (t : Nat) (s : Shared) : Thread → Input → List Event
  | .scan job stage _, .step => stage.events t s job
  | .claim _, .step => [.act (.claim t)]
  | .connect _, .refused => [.act (.leave t)]
  | .append .count _ p _, .step => [.arrive (s.status p)]
  | _, _ => []

/-- What a run comes to. -/
def trace (m : Monitor Shared Thread) : List (Nat × Input) → List Event
  | [] => []
  | a :: acts =>
      ((m.threads[a.1]?.map fun l => eventsOf a.1 m.shared l a.2).getD []) ++
        ((swarm.step m a).map fun m' => trace m' acts).getD []

/-! ## Places and statuses -/

/-- The status of a peer. -/
theorem status_eq (hq : s.peer p = some q) : s.status p = q.status := by
  rw [Shared.status, hq]
  rfl

/-- The statuses after a peer in the list is replaced. -/
theorem statuses_setPeer (hn : s.listed.Nodup) (hp : p ∈ s.listed) (hq : s.peer p = some q)
    (q' : PeerT) : (s.setPeer p q').statuses = s.statuses.set (s.place p) q'.status := by
  have hstatus : ∀ a, (s.setPeer p q').status a = if a = p then q'.status else s.status a := by
    intro a
    rw [Shared.status, peer_setPeer hq]
    split_ifs <;> rfl
  obtain ⟨pre, post, hsplit⟩ := List.append_of_mem hp
  have hnot : p ∉ pre ∧ p ∉ post := by
    rw [hsplit, List.nodup_middle, List.nodup_cons, List.mem_append, not_or] at hn
    exact hn.1
  have hplace : s.place p = pre.length := by
    rw [Shared.place, hsplit, List.idxOf_append_of_notMem hnot.1, List.idxOf_cons_self, Nat.add_zero]
  have hother : ∀ as : List UInt64, p ∉ as → as.map (s.setPeer p q').status = as.map s.status := by
    intro as hnotin
    refine List.map_congr_left fun a ha => ?_
    rw [hstatus, if_neg]
    rintro rfl
    exact hnotin ha
  show s.listed.map _ = (s.listed.map s.status).set _ _
  rw [hplace, hsplit, List.map_append, List.map_cons, hother pre hnot.1, hother post hnot.2, hstatus,
    if_pos rfl, List.map_append, List.map_cons]
  simp

/-- The statuses depend on the peers in the list. -/
theorem statuses_congr (hlisted : s'.listed = s.listed)
    (hstatus : ∀ p ∈ s.listed, s'.status p = s.status p) : s'.statuses = s.statuses := by
  rw [Shared.statuses, hlisted]
  exact List.map_congr_left hstatus

/-- A thread that is not disturbed is where it was, also while the list grows. -/
theorem state_of_extends (h : Extends s s') (hk : k.Relies s) : k.state s' = k.state s := by
  have hplace : ∀ p ∈ s.listed, s'.place p = s.place p := by
    intro p hp
    obtain ⟨more, hmore⟩ := h.handled
    rw [Shared.place, Shared.listed, ← hmore, List.filterMap_append]
    exact List.idxOf_append_of_mem hp
  cases k with
  | scan job stage seen =>
      cases stage with
      | stop hit =>
          cases hit with
          | none => rfl
          | some p =>
              cases job with
              | select => exact congrArg ThreadState.selected (hplace p (Scans.mem_listed hk).1)
              | _ => rfl
      | _ => rfl
  | claim p => exact congrArg ThreadState.selected (hplace p hk)
  | connect p => exact congrArg ThreadState.communicating (hplace p hk)
  | talk p => exact congrArg ThreadState.communicating (hplace p hk)
  | update p msg stage => exact congrArg ThreadState.communicating (hplace p hk)
  | mark p idx => exact congrArg ThreadState.communicating (hplace p hk)
  | _ => rfl

/-! ## What a scan finds -/

/-- A scan that has passed the elements before a new peer selects it. -/
theorem selectNew_of_scans {a : UInt64} (hn : s.listed.Nodup)
    (hs : Scans s .select (.look (leBytes64 a)) seen) (hnew : s.status a = .new) :
    selectNew s.statuses = some (s.place a) := by
  obtain ⟨ps, _, _, rest, hseen⟩ := hs.stands
  -- the list before, at and behind the pointer
  obtain ⟨front, post, hsplit, hfront, _⟩ := List.map_eq_append_iff.mp hseen.symm
  obtain ⟨pre, one, rfl, hpre, hone⟩ := List.map_eq_append_iff.mp hfront
  obtain ⟨b, rfl, hb⟩ := List.map_eq_singleton_iff.mp hone
  obtain rfl : b = a := by rw [← leWord64_leBytes64 b, hb, leWord64_leBytes64]
  rw [List.append_assoc] at hsplit
  have hnot : b ∉ pre := by
    rw [hsplit, List.nodup_append] at hn
    exact fun hmem => hn.2.2 b hmem b List.mem_cons_self rfl
  have hplace : s.place b = pre.length := by
    rw [Shared.place, hsplit, List.idxOf_append_of_notMem hnot]
    exact congrArg (pre.length + ·) List.idxOf_cons_self
  have hpassed : ∀ c ∈ pre, s.status c ≠ .new := by
    intro c hc
    have hmem : leBytes64 c ∈ seen := by
      rw [← hpre]
      exact List.mem_map_of_mem hc
    obtain ⟨q, hq, hne⟩ := hs.passed _ hmem
    rw [leWord64_leBytes64] at hq
    rw [status_eq hq]
    exact hne
  rw [selectNew, hplace, Shared.statuses, hsplit, List.map_append, List.findIdx?_append,
    List.findIdx?_eq_none_iff.mpr]
  · simp [hnew, List.findIdx?_cons]
  · intro status hstatus
    obtain ⟨c, hc, rfl⟩ := List.mem_map.mp hstatus
    simpa using hpassed c hc

/-- A scan that has passed all elements finds no new peer: there is none. -/
theorem selectNew_of_ended (hs : Scans s .select (.stop none) seen) : selectNew s.statuses = none := by
  obtain ⟨ps, _, hseen⟩ := hs.stands
  obtain rfl : seen = s.elems := hseen
  rw [selectNew, List.findIdx?_eq_none_iff]
  intro status hstatus
  obtain ⟨c, hc, rfl⟩ := List.mem_map.mp hstatus
  obtain ⟨q, hq, hne⟩ := hs.passed _ (List.mem_map_of_mem hc)
  rw [leWord64_leBytes64] at hq
  rw [status_eq hq]
  simpa using hne

/-- The status a scan selects. -/
theorem status_of_hit {a : UInt64} (h : Job.look s (leBytes64 a) .select = some (.hit p)) :
    s.status a = .new := by
  simp only [Job.look, Option.bind_eq_bind, Option.bind_eq_some_iff, Option.some.injEq,
    leWord64_leBytes64] at h
  obtain ⟨q, hq, h⟩ := h
  split_ifs at h with hnew
  rw [status_eq hq]
  exact hnew

/-- Writing the status that is there. -/
theorem set_place_status (hp : p ∈ s.listed) :
    s.statuses.set (s.place p) (s.status p) = s.statuses := by
  apply set_of_getElem?
  rw [Shared.statuses, List.getElem?_map, Shared.place, List.getElem?_idxOf hp]
  rfl

/-- A write that leaves the status. -/
theorem statuses_written (hn : s.listed.Nodup) (hp : p ∈ s.listed) (hq : s.peer p = some q)
    (hsame : q'.status = q.status) : (s.setPeer p q').statuses = s.statuses := by
  rw [statuses_setPeer hn hp hq, hsame, ← status_eq hq, set_place_status hp]

/-- The pointers in the list behind a loop over it. -/
theorem listed_note_noted (job : Job) (hit : Option UInt64) :
    (s.note (job.noted t hit)).listed = s.listed := by
  show (s.handled ++ job.noted t hit).filterMap Handled.addr = _
  rw [List.filterMap_append]
  cases job <;> cases hit <;> simp [Job.noted, Shared.listed]

/-- A thread behind a loop over the list is where it was. -/
theorem state_after {job : Job} {hit : Option UInt64} (h : s'.listed = s.listed) :
    (job.after hit).state s' = (Stage.stop hit).state s job := by
  cases hit with
  | none => cases job <;> rfl
  | some p =>
      cases job with
      | select => exact congrArg (fun ptrs => ThreadState.selected (ptrs.idxOf p)) h
      | _ => rfl

/-- The statuses after one more peer is put into the list. -/
theorem statuses_note {report : DiscoveredPeer} :
    (s.note [⟨t, report, some p⟩]).statuses = s.statuses ++ [s.status p] := by
  show ((s.handled ++ [(⟨t, report, some p⟩ : Handled)]).filterMap Handled.addr).map s.status = _
  rw [List.filterMap_append, List.map_append]
  rfl

/-! ## One step -/

variable {script : Nat → List DiscoveredPeer}

/-- The threads after a move of one. -/
theorem abstract_step (hh : (assertions script).Hold m) (h : Moves t m.shared l i mv)
    (owner : Option Nat) :
    abstract ⟨owner, mv.shared, m.threads.set t mv.thread⟩ =
      ⟨mv.shared.statuses, (abstract m).threads.set t (mv.thread.state mv.shared)⟩ := by
  have hsame : m.threads.map (Thread.state mv.shared) = m.threads.map (Thread.state m.shared) := by
    refine List.map_congr_left fun k hk => ?_
    obtain ⟨u, hu⟩ := List.mem_iff_getElem?.mp hk
    exact state_of_extends h.extends (hh.here u k hu).1
  rw [abstract, abstract, List.map_set, hsame]

/-- A thread in the atomic model. -/
theorem getElem?_abstract (hl : m.threads[t]? = some l) :
    (abstract m).threads[t]? = some (l.state m.shared) := by
  rw [abstract, List.getElem?_map, hl]
  rfl

/-- A move that changes nothing in the atomic model. -/
theorem abstract_stutter (hh : (assertions script).Hold m) (h : Moves t m.shared l i mv)
    (hl : m.threads[t]? = some l) (owner : Option Nat)
    (hstatuses : mv.shared.statuses = m.shared.statuses)
    (hstate : mv.thread.state mv.shared = l.state m.shared) :
    abstract ⟨owner, mv.shared, m.threads.set t mv.thread⟩ = abstract m := by
  rw [abstract_step hh h, hstatuses, hstate, set_of_getElem? (getElem?_abstract hl)]
  rfl

/-- **One move** is the events it comes to. -/
theorem atomic_of_move (hn : m.shared.listed.Nodup) (hh : (assertions script).Hold m)
    (h : Moves t m.shared l i mv) (hl : m.threads[t]? = some l) (owner : Option Nat) :
    (eventsOf t m.shared l i).foldlM atomicStep (abstract m) =
      some (abstract ⟨owner, mv.shared, m.threads.set t mv.thread⟩) := by
  have hhere := getElem?_abstract hl
  have hrelies := (hh.here t l hl).1
  have hstutter := abstract_stutter hh h hl owner
  have hstep := abstract_step hh h owner
  cases h with
  | more job seen hnext =>
      rw [hstutter rfl rfl]
      cases job with
      | select => simp [eventsOf, Stage.events, hnext]
      | _ => rfl
  | ended job seen hnext =>
      rw [hstutter rfl rfl]
      cases job with
      | select =>
          have hnone := selectNew_of_ended (Scans.ended hrelies hnext)
          have hidle : (abstract m).threads[t]? = some .idle := hhere
          have hscan : step (abstract m) (.scan t) = some (abstract m) := by
            rw [step, if_pos hidle, show selectNew (abstract m).peers = none from hnone]
          simp [eventsOf, Stage.events, hnext, atomicStep, hscan]
      | _ => rfl
  | pass job seen hlook =>
      rw [hstutter rfl rfl]
      cases job with
      | select =>
          obtain ⟨⟨q, hq, hne⟩, _⟩ := look_pass hlook
          rw [← status_eq hq] at hne
          simp [eventsOf, Stage.events, hne]
      | _ => rfl
  | @hit job seen data p hlook =>
      cases job with
      | select =>
          obtain ⟨ps, _, _, hseen⟩ := Scans.stands hrelies
          obtain ⟨a, ha, rfl⟩ :=
            exists_pointer (hseen.subset (List.mem_append_right _ List.mem_cons_self))
          obtain ⟨hpa, _⟩ := look_hit hlook
          subst hpa
          have hnew := status_of_hit hlook
          have hsel := selectNew_of_scans hn hrelies hnew
          have hidle : (abstract m).threads[t]? = some .idle := hhere
          have hscan : step (abstract m) (.scan t) = some ⟨m.shared.statuses,
              (abstract m).threads.set t (.selected (m.shared.place p))⟩ := by
            rw [step, if_pos hidle, show selectNew (abstract m).peers = _ from hsel]
            rfl
          rw [hstep]
          simp only [eventsOf, Stage.events, leWord64_leBytes64, if_pos hnew, List.foldlM_cons,
            atomicStep, hscan]
          rfl
      | _ => rw [hstutter rfl rfl]; rfl
  | merge job seen hlook =>
      obtain ⟨rfl, _⟩ := look_merge hlook
      rw [hstutter rfl rfl]
      rfl
  | unlock job seen hit =>
      have hlisted := listed_note_noted (s := m.shared.withList (listIterStopSafe m.shared.list))
        (t := t) job hit
      rw [hstutter (statuses_congr hlisted fun _ _ => rfl) (state_after hlisted)]
      rfl
  | @claim p q hq =>
      have hselected : (abstract m).threads[t]? = some (.selected (m.shared.place p)) := hhere
      rw [hstep]
      show ([Event.act (.claim t)]).foldlM atomicStep (abstract m) =
        some ⟨(m.shared.setPeer p { q with status := .inUse }).statuses, _⟩
      rw [statuses_setPeer hn hrelies hq]
      simp only [List.foldlM_cons, atomicStep, step, hselected]
      rfl
  | @refuse p q hq =>
      have hbusy : (abstract m).threads[t]? = some (.communicating (m.shared.place p)) := hhere
      rw [hstep]
      show ([Event.act (.leave t)]).foldlM atomicStep (abstract m) =
        some ⟨(m.shared.setPeer p { q with status := .bad }).statuses, _⟩
      rw [statuses_setPeer hn hrelies hq]
      simp only [List.foldlM_cons, atomicStep, step, hbusy]
      rfl
  | hear _ _ hq hmsg =>
      rw [hstutter (statuses_written hn hrelies hq (handleMessage_keeps hmsg).2.2) rfl]
      rfl
  | malloc msg _ hq =>
      rw [hstutter (statuses_written hn hrelies hq rfl) rfl]
      rfl
  | copy msg _ hq hcopy =>
      rw [hstutter (statuses_written hn hrelies hq (copyBitfield_keeps hcopy).2.2) rfl]
      rfl
  | length msg hq =>
      rw [hstutter (statuses_written hn hrelies hq rfl) rfl]
      rfl
  | mark idx _ hq hmark =>
      rw [hstutter (statuses_written hn hrelies hq (markBit_keeps hmark).2.2) rfl]
      rfl
  | @alloc report rest block hfresh =>
      have hstatus : ∀ p ∈ m.shared.listed,
          (m.shared.alloc block.addr (newPeer report.ip report.port block.status)).status p =
            m.shared.status p := by
        intro p hp
        obtain ⟨q, hq⟩ := hh.always.exists_peer hp
        rw [Shared.status, peer_alloc hfresh, if_neg]
        · rfl
        · rintro rfl
          rw [hfresh] at hq
          exact absurd hq (by simp)
      rw [hstutter (statuses_congr rfl hstatus) rfl]
      rfl
  | count report p rest =>
      rw [hstep]
      show some (⟨m.shared.statuses ++ [m.shared.status p], (abstract m).threads⟩ : Threads) =
        some ⟨((m.shared.withList m.shared.list.incLen).note [⟨t, report, some p⟩]).statuses, _⟩
      rw [statuses_note]
      exact congrArg (fun threads => some (⟨_, threads⟩ : Threads)) (set_of_getElem? hhere).symm
  | _ => rw [hstutter rfl rfl]; rfl

/-- **One step** is the events it comes to. -/
theorem atomic_of_step (h : Reached threads m) (hl : m.threads[t]? = some l)
    (hstep : swarm.step m (t, i) = some m') :
    (eventsOf t m.shared l i).foldlM atomicStep (abstract m) = some (abstract m') := by
  obtain ⟨l', mv, owner, hl', hmove, _, rfl⟩ := Program.step_eq_some_iff.mp hstep
  obtain rfl := Option.some.inj (hl.symm.trans hl')
  exact atomic_of_move (reports_handled h).nodup h.invariants.2 (moves_of_move hmove) hl owner

/-! ## Whole runs -/

/-- A step leads to a state that is reached. -/
theorem Reached.step {a : Nat × Input} (h : Reached threads m) (hstep : swarm.step m a = some m') :
    Reached threads m' := by
  have hrun : [a].foldlM swarm.step m = some m' := by
    rw [List.foldlM_cons, hstep]
    rfl
  exact h.append hrun

/-- A run from a state that is reached. -/
theorem atomic_of_run (h : Reached threads m) (hrun : acts.foldlM swarm.step m = some m') :
    (trace m acts).foldlM atomicStep (abstract m) = some (abstract m') := by
  induction acts generalizing m with
  | nil =>
      obtain rfl := Option.some.inj hrun
      rfl
  | cons a acts ih =>
      rw [List.foldlM_cons, Option.bind_eq_bind, Option.bind_eq_some_iff] at hrun
      obtain ⟨m₁, hstep, hrun⟩ := hrun
      obtain ⟨l, mv, owner, hl, hmove, howner, hm₁⟩ := Program.step_eq_some_iff.mp hstep
      rw [trace, hl, hstep, List.foldlM_append, Option.map_some, Option.getD_some,
        atomic_of_step h hl hstep]
      exact ih (h.step hstep) hrun

/-- At first nothing is in the list, and every thread is at rest. -/
theorem abstract_started (h : ∀ l ∈ threads, l.Initial) :
    abstract (started threads) = startThreads 0 threads.length := by
  have hidle : threads.map (Thread.state (started threads).shared) =
      List.replicate threads.length .idle := by
    rw [List.eq_replicate_iff, List.length_map]
    refine ⟨rfl, fun th hth => ?_⟩
    obtain ⟨l, hl, rfl⟩ := List.mem_map.mp hth
    have hinit := h l hl
    cases l <;> first | rfl | exact hinit.elim
  exact congrArg (Threads.mk []) hidle

/-- **Scans are atomic.** Every interleaving of the calls of the threads comes to a run of the atomic
steps, in which a scan selects the first new peer of the whole list at once, a claim and a return
write one status, and peers are put into the list in between. -/
theorem refines_atomic (hinit : ∀ l ∈ threads, l.Initial) (hcount : reportCount threads < 2 ^ 32)
    (hrun : acts.foldlM swarm.step (started threads) = some m) :
    (trace (started threads) acts).foldlM atomicStep (startThreads 0 threads.length) =
      some (abstract m) := by
  rw [← abstract_started hinit]
  exact atomic_of_run ⟨hinit, hcount, [], rfl⟩ hrun

/-- A peer thread takes the one peer that a tracker has put into the list. -/
theorem refines_atomic_example :
    (trace (started [.idle, .track [⟨1, 2⟩]]) (oneReport ++ List.replicate 8 (0, .step))).foldlM
        atomicStep (startThreads 0 2) =
      some (abstract ⟨none, ⟨⟨{ oneListed with mutex := oneListed.mutex ++ [.lock, .unlock] },
          [(5, newPeer 1 2 .inUse)]⟩, [⟨1, ⟨1, 2⟩, some 5⟩], []⟩, [.connect 5, .track []]⟩) :=
  @refines_atomic [.idle, .track [⟨1, 2⟩]] _ _ (by simp [Thread.Initial]) (by decide) rfl

/-! ## One thread for a peer -/

/-- The peer a thread communicates with. -/
def Thread.peer : Thread → Option UInt64
  | .connect p => some p
  | .talk p => some p
  | .update p _ _ => some p
  | .mark p _ => some p
  | _ => none

/-- No two threads communicate with one peer. -/
def Separate (m : Monitor Shared Thread) : Prop :=
  ∀ (t u : Nat) (l k : Thread) (p : UInt64), m.threads[t]? = some l → m.threads[u]? = some k →
    l.peer = some p → k.peer = some p → t = u

/-- The move selects a peer that another thread has selected and not yet claimed. -/
def Disputed (m : Monitor Shared Thread) (a : Nat × Input) : Prop :=
  ∃ (p : UInt64) (seen : List Elem) (u : Nat), a.2 = .step ∧
    m.threads[a.1]? = some (.scan .select (.look (leBytes64 p)) seen) ∧
    m.shared.status p = .new ∧ m.threads[u]? = some (.claim p)

/-- The peer a thread has selected and not yet claimed. -/
def Thread.selected : Thread → Option UInt64
  | .claim p => some p
  | _ => none

/-- The element a thread may be about to select. -/
def Thread.candidate : Thread → Option Elem
  | .scan .select (.look data) _ => some data
  | _ => none

/-- Does the environment answer nothing? -/
def Input.isStep : Input → Bool
  | .step => true
  | _ => false

/-- Which moves are disputed, by the peers that are selected. -/
theorem disputed_iff {a : Nat × Input} :
    Disputed m a ↔ a.2.isStep = true ∧ ∃ p ∈ m.threads.filterMap Thread.selected,
      m.shared.status p = .new ∧ m.threads[a.1]?.bind Thread.candidate = some (leBytes64 p) := by
  constructor
  · rintro ⟨p, seen, u, hstep, hl, hnew, hu⟩
    refine ⟨by rw [hstep]; rfl, p, ?_, hnew, by rw [hl]; rfl⟩
    exact List.mem_filterMap.mpr ⟨.claim p, List.mem_of_getElem? hu, rfl⟩
  · rintro ⟨hstep, p, hp, hnew, hdata⟩
    obtain ⟨k, hk, hsel⟩ := List.mem_filterMap.mp hp
    obtain ⟨u, hu⟩ := List.mem_iff_getElem?.mp hk
    obtain ⟨l, hl, hcand⟩ := Option.bind_eq_some_iff.mp hdata
    have hclaim : k = .claim p := by
      cases k <;> simp_all [Thread.selected]
    obtain ⟨seen, hscan⟩ : ∃ seen, l = .scan .select (.look (leBytes64 p)) seen := by
      unfold Thread.candidate at hcand
      split at hcand
      · obtain rfl := Option.some.inj hcand
        exact ⟨_, rfl⟩
      · exact absurd hcand (by simp)
    have hinput : a.2 = .step := by
      cases ha : a.2 <;> simp_all [Input.isStep]
    exact ⟨p, seen, u, hinput, hscan ▸ hl, hnew, hclaim ▸ hu⟩

instance (m : Monitor Shared Thread) (a : Nat × Input) : Decidable (Disputed m a) :=
  decidable_of_iff' _ disputed_iff

/-- An event that is not disputed keeps the invariant of the atomic model. -/
theorem inv_atomicStep {s s' : Threads} {e : Event} (hi : Inv s)
    (hu : ∀ a, e = .act a → Undisputed s a) (h : atomicStep s e = some s') : Inv s' := by
  cases e with
  | act a => exact inv_step hi (hu a rfl) h
  | arrive status =>
      obtain rfl := Option.some.inj h
      have hold : ∀ (p : Nat) (st : PeerStatus), s.peers[p]? = some st →
          (s.peers ++ [status])[p]? = some st := by
        intro p st hp
        rw [List.getElem?_append_left (List.getElem?_eq_some_iff.mp hp).1]
        exact hp
      exact ⟨hi.exclusive, fun t p ht => hold p _ (hi.selected t p ht),
        fun t p ht => hold p _ (hi.communicating t p ht)⟩

/-- A pointer is known by its place. -/
theorem eq_of_place {a : UInt64} (ha : a ∈ s.listed) (hp : p ∈ s.listed) (h : s.place a = s.place p) :
    a = p := by
  have ha' := List.getElem?_idxOf ha
  have hp' := List.getElem?_idxOf hp
  rw [show s.listed.idxOf a = s.listed.idxOf p from h, hp'] at ha'
  exact (Option.some.inj ha').symm

/-- A thread that has selected a peer in the atomic model. -/
theorem eq_claim_of_state {n : Nat} (hk : k.state s = .selected n) (hout : k.inside = false) :
    ∃ p, k = .claim p ∧ s.place p = n := by
  cases k with
  | scan job stage seen =>
      cases stage with
      | enter => exact absurd hk (by simp [Thread.state, Stage.state])
      | _ => exact absurd hout (by simp [Thread.inside])
  | claim p => exact ⟨p, rfl, ThreadState.selected.inj hk⟩
  | _ => exact absurd hk (by simp [Thread.state])

/-- A move that is not disputed comes to events that are not. -/
theorem undisputed_of_move (h : Reached threads m) (hl : m.threads[t]? = some l)
    (hmove : Moves t m.shared l i mv) (hd : ¬ Disputed m (t, i)) {a : Action}
    (ha : .act a ∈ eventsOf t m.shared l i) : Undisputed (abstract m) a := by
  obtain ⟨hx, hh⟩ := h.invariants
  have hrelies := (hh.here t l hl).1
  intro t₀ n hscan hsel u hu
  subst hscan
  cases hmove with
  | ended job seen hnext =>
      cases job with
      | select =>
          rw [show selectNew (abstract m).peers = none from
            selectNew_of_ended (Scans.ended hrelies hnext)] at hsel
          exact absurd hsel (by simp)
      | _ => exact absurd ha List.not_mem_nil
  | @hit job seen data p hlook =>
      cases job with
      | select =>
          obtain ⟨ps, _, _, hseen⟩ := Scans.stands hrelies
          obtain ⟨b, hb, rfl⟩ :=
            exists_pointer (hseen.subset (List.mem_append_right _ List.mem_cons_self))
          obtain ⟨hpb, _⟩ := look_hit hlook
          subst hpb
          have hnew := status_of_hit hlook
          rw [show selectNew (abstract m).peers = _ from
            selectNew_of_scans (reports_handled h).nodup hrelies hnew] at hsel
          obtain rfl := Option.some.inj hsel
          -- the other thread is not in a loop, since this one is
          rw [abstract, List.getElem?_map, Option.map_eq_some_iff] at hu
          obtain ⟨k, hk, hstate⟩ := hu
          have hout : k.inside = false := by
            rw [Bool.eq_false_iff]
            intro hin
            obtain rfl := hx.eq_of_inside hl hk rfl hin
            obtain rfl := Option.some.inj (hl.symm.trans hk)
            exact absurd hstate (by simp [Thread.state, Stage.state])
          obtain ⟨c, rfl, hplace⟩ := eq_claim_of_state hstate hout
          obtain rfl := eq_of_place (hh.here u _ hk).1 hb hplace
          exact hd ⟨c, seen, u, rfl, hl, hnew, hk⟩
      | _ => exact absurd ha List.not_mem_nil
  | more job seen hnext =>
      cases job with
      | select => exact absurd ha (by simp [eventsOf, Stage.events, hnext])
      | _ => exact absurd ha List.not_mem_nil
  | pass job seen hlook =>
      cases job with
      | select =>
          obtain ⟨⟨q, hq, hne⟩, _⟩ := look_pass hlook
          rw [← status_eq hq] at hne
          exact absurd ha (by simp [eventsOf, Stage.events, hne])
      | _ => exact absurd ha List.not_mem_nil
  | merge job seen hlook =>
      obtain ⟨rfl, _⟩ := look_merge hlook
      exact absurd ha List.not_mem_nil
  | _ => exact absurd ha (by simp [eventsOf, Stage.events])

/-- A move comes to one event, or to none. -/
theorem eventsOf_cases (t : Nat) (s : Shared) (l : Thread) (i : Input) :
    eventsOf t s l i = [] ∨ ∃ e, eventsOf t s l i = [e] := by
  unfold eventsOf
  split
  · unfold Stage.events
    split
    · split
      · split_ifs
        · exact Or.inr ⟨_, rfl⟩
        · exact Or.inl rfl
      · exact Or.inl rfl
    · split
      · split_ifs
        · exact Or.inl rfl
        · exact Or.inr ⟨_, rfl⟩
      · exact Or.inl rfl
    · exact Or.inl rfl
  · exact Or.inr ⟨_, rfl⟩
  · exact Or.inr ⟨_, rfl⟩
  · exact Or.inr ⟨_, rfl⟩
  · exact Or.inl rfl

/-- **A step that is not disputed** keeps the invariant of the atomic model. -/
theorem inv_abstract_step (h : Reached threads m) (hi : Inv (abstract m)) {a : Nat × Input}
    (hd : ¬ Disputed m a) (hstep : swarm.step m a = some m') : Inv (abstract m') := by
  obtain ⟨t, i⟩ := a
  obtain ⟨l, mv, owner, hl, hmove, _, _⟩ := Program.step_eq_some_iff.mp hstep
  have hrun := atomic_of_step h hl hstep
  have hund : ∀ a, Event.act a ∈ eventsOf t m.shared l i → Undisputed (abstract m) a :=
    fun a ha => undisputed_of_move h hl (moves_of_move hmove) hd ha
  rcases eventsOf_cases t m.shared l i with hnil | ⟨e, hone⟩
  · rw [hnil] at hrun
    obtain hsame := Option.some.inj hrun
    exact hsame ▸ hi
  · rw [hone] at hrun hund
    have hatomic : atomicStep (abstract m) e = some (abstract m') := by
      simpa using hrun
    exact inv_atomicStep hi (fun a ha => hund a (by rw [ha]; exact List.mem_singleton_self _)) hatomic

/-- A thread that communicates with a peer does so in the atomic model. -/
theorem state_of_peer (h : k.peer = some p) : k.state s = .communicating (s.place p) := by
  cases k with
  | connect a => exact congrArg (fun b => ThreadState.communicating (s.place b)) (Option.some.inj h)
  | talk a => exact congrArg (fun b => ThreadState.communicating (s.place b)) (Option.some.inj h)
  | update a msg stage =>
      exact congrArg (fun b => ThreadState.communicating (s.place b)) (Option.some.inj h)
  | mark a idx =>
      exact congrArg (fun b => ThreadState.communicating (s.place b)) (Option.some.inj h)
  | _ => exact absurd h (by simp [Thread.peer])

/-- A thread claims the peer it selected. -/
theorem step_claim (hl : m.threads[t]? = some (.claim p)) (hq : m.shared.peer p = some q) :
    swarm.step m (t, .step) = some ⟨m.owner, m.shared.setPeer p { q with status := .inUse },
      m.threads.set t (.connect p)⟩ := by
  have hwrite : m.shared.modifyPeer p (fun q => some { q with status := .inUse }) =
      some (m.shared.setPeer p { q with status := .inUse }) :=
    modifyPeer_eq_some_iff.mpr ⟨q, _, hq, rfl, rfl⟩
  apply Program.step_go hl
  show move t m.shared (.claim p) .step = _
  rw [move, hwrite]
  rfl

/-- A thread that has found a new peer selects it and unlocks the mutex. -/
theorem steps_select (hl : m.threads[t]? = some (.scan .select (.look (leBytes64 p)) seen))
    (hq : m.shared.peer p = some q) (hnew : q.status = .new) (howner : m.owner = some t) :
    [(t, Input.step), (t, .step)].foldlM swarm.step m =
      some ⟨none, (m.shared.withList (listIterStopSafe m.shared.list)).note [],
        m.threads.set t (.claim p)⟩ := by
  have hlook : Job.look m.shared (leBytes64 p) .select = some (.hit p) := by
    rw [Job.look, leWord64_leBytes64, hq]
    simp [hnew]
  have hfirst : swarm.step m (t, .step) =
      some ⟨m.owner, m.shared, m.threads.set t (.scan .select (.stop (some p)) seen)⟩ := by
    apply Program.step_go hl
    show move t m.shared (.scan .select (.look (leBytes64 p)) seen) .step = _
    rw [move, hlook]
    rfl
  have hsecond : swarm.step ⟨m.owner, m.shared, m.threads.set t (.scan .select (.stop (some p)) seen)⟩
      (t, .step) = some ⟨none, (m.shared.withList (listIterStopSafe m.shared.list)).note [],
        m.threads.set t (.claim p)⟩ := by
    have hstop := (getElem?_set_of_some hl (.scan .select (.stop (some p)) seen) t).trans (if_pos rfl)
    have hrelease := Program.step_release (P := swarm) (i := Input.step)
      (m := ⟨m.owner, m.shared, m.threads.set t (.scan .select (.stop (some p)) seen)⟩) hstop rfl howner
    rw [List.set_set] at hrelease
    exact hrelease
  rw [List.foldlM_cons, hfirst, Option.bind_eq_bind, Option.bind_some, List.foldlM_cons, hsecond]
  rfl

/-- **A disputed scan** can be continued to a state in which two threads communicate with one peer. -/
theorem not_separate_of_disputed (h : Reached threads m) {a : Nat × Input} (hd : Disputed m a) :
    ∃ more m', (a :: more).foldlM swarm.step m = some m' ∧ ¬ Separate m' := by
  obtain ⟨t, i⟩ := a
  obtain ⟨p, seen, u, rfl, hl, hnew, hu⟩ := hd
  obtain ⟨hx, hh⟩ := h.invariants
  obtain ⟨q, hq⟩ := hh.always.exists_peer (hh.here u _ hu).1
  rw [status_eq hq] at hnew
  have hne : t ≠ u := by
    rintro rfl
    exact absurd (Option.some.inj (hl.symm.trans hu)) (by simp)
  have hselect := steps_select hl hq hnew ((hx.inside_iff t _ hl).mp rfl)
  have hset := getElem?_set_of_some hl (.claim p)
  -- both threads are about to claim the peer: first `u` does, then `t`
  have hu₂ : (m.threads.set t (.claim p))[u]? = some (.claim p) := by
    rw [hset, if_neg hne, hu]
  have hset' := getElem?_set_of_some hu₂ (.connect p)
  have ht₃ : ((m.threads.set t (.claim p)).set u (.connect p))[t]? = some (.claim p) := by
    rw [hset', if_neg hne.symm, hset, if_pos rfl]
  have hset'' := getElem?_set_of_some ht₃ (.connect p)
  obtain ⟨s₂, hs₂⟩ : ∃ s₂, s₂ = (m.shared.withList (listIterStopSafe m.shared.list)).note [] :=
    ⟨_, rfl⟩
  have hq₂ : s₂.peer p = some q := by
    rw [hs₂]
    exact hq
  rw [← hs₂] at hselect
  have hq₃ : (s₂.setPeer p { q with status := .inUse }).peer p = some { q with status := .inUse } :=
    (peer_setPeer hq₂ _ p).trans (if_pos rfl)
  have hfirst := step_claim (m := ⟨none, s₂, m.threads.set t (.claim p)⟩) hu₂ hq₂
  have hsecond := step_claim (m := ⟨none, s₂.setPeer p { q with status := .inUse },
    (m.threads.set t (.claim p)).set u (.connect p)⟩) ht₃ hq₃
  refine ⟨[(t, .step), (u, .step), (t, .step)], ⟨none,
    (s₂.setPeer p { q with status := .inUse }).setPeer p { q with status := .inUse },
    ((m.threads.set t (.claim p)).set u (.connect p)).set t (.connect p)⟩, ?_, fun hsep => ?_⟩
  · show ([(t, Input.step), (t, Input.step)] ++ [(u, Input.step), (t, Input.step)]).foldlM
      swarm.step m = _
    rw [List.foldlM_append, hselect, Option.bind_eq_bind, Option.bind_some, List.foldlM_cons, hfirst,
      Option.bind_eq_bind, Option.bind_some, List.foldlM_cons, hsecond]
    rfl
  · refine hne (hsep t u (.connect p) (.connect p) p ?_ ?_ rfl rfl)
    · exact (hset'' t).trans (if_pos rfl)
    · exact (hset'' u).trans ((if_neg hne).trans ((hset' u).trans (if_pos rfl)))

/-- **Two threads come to one peer only by a disputed scan.** In a run without one no two threads
ever communicate with one peer, however the calls of all threads are interleaved. And a disputed scan
can always be continued to a state in which two threads do. -/
theorem talks_exclusively (hinit : ∀ l ∈ threads, l.Initial) (hcount : reportCount threads < 2 ^ 32)
    (hrun : acts.foldlM swarm.step (started threads) = some m)
    (hd : StepsMeet swarm.step (started threads) acts fun m a => ¬ Disputed m a) :
    Separate m ∧ ∀ a, Disputed m a →
      ∃ more m', (a :: more).foldlM swarm.step m = some m' ∧ ¬ Separate m' := by
  have h0 : Reached threads (started threads) := ⟨hinit, hcount, [], rfl⟩
  obtain ⟨h, hi⟩ := @invariant_of_stepsMeet _ _ swarm.step _ m acts _
    (fun m => Reached threads m ∧ Inv (abstract m))
    ⟨h0, by rw [abstract_started hinit]; exact inv_startThreads 0 _⟩
    (fun m a m' hm hok hstep => ⟨hm.1.step hstep, inv_abstract_step hm.1 hm.2 hok hstep⟩) hd hrun
  refine ⟨fun t u l k p hl hk hp hp' => ?_, fun a ha => not_separate_of_disputed h ha⟩
  refine hi.isExclusive t u (m.shared.place p) ?_ ?_
  · rw [getElem?_abstract hl, state_of_peer hp]
  · rw [getElem?_abstract hk, state_of_peer hp']

/-- A tracker puts a peer into the list, one thread selects, claims and meets it, and another scans the
list and finds no new peer. -/
def twoThreads : List (Nat × Input) :=
  oneReport ++ List.replicate 8 (0, .step) ++ (0, .accepted) :: List.replicate 7 (2, .step)

/-- One of them communicates with the peer. -/
theorem talks_exclusively_example :
    ∃ m : Monitor Shared Thread,
      twoThreads.foldlM swarm.step (started [.idle, .track [⟨1, 2⟩], .idle]) = some m ∧
      m.threads = [.talk 5, .track [], .scan .select (.stop none) [leBytes64 5]] ∧
      m.shared.listed = [5] ∧ Separate m ∧
      ∀ a, Disputed m a → ∃ more m', (a :: more).foldlM swarm.step m = some m' ∧ ¬ Separate m' :=
  ⟨_, rfl, rfl, rfl, @talks_exclusively [.idle, .track [⟨1, 2⟩], .idle] _ twoThreads
    (by simp [Thread.Initial]) (by decide) rfl (by decide +kernel)⟩

end Flood.Client.Swarm
