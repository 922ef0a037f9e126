import Flood.Tracker.Lifecycle

/-!
# Start and shutdown

`main` and the threads of the trackers: `main` starts the trackers, watches until it is interrupted, and
stops them.

* `System` — where `main` is, and the trackers, in the order in which `next` leads through them.
* `System.step` — a step of `main`, an interrupt, or a step of a thread.
* `Ordered` — what holds throughout a run: the trackers before the place where `main` is are started, or
  stopped, and the others are not.
* `returns_after` — once interrupted, `main` returns after so many steps of its own, whatever the threads do;
  it never waits for them.
* `stopped_in_order` — the trackers that are stopped are those that `main` has passed. The others go on; a
  tracker that is stopped comes to one more announce at most.
-/

namespace Flood.Client

open Flood.Lib Flood.Tracker

/-! ## The system -/

/-- Where `main` is. -/
inductive MainAt where
  /-- In the loop of `client_start_trackers`, with `tracker`. -/
  | starting (tracker : Option Nat)
  /-- In its own loop. -/
  | watching
  /-- In the loop of `client_stop_trackers`, with `tracker`. -/
  | stopping (tracker : Option Nat)
  /-- It has returned. -/
  | returned
  deriving DecidableEq

/-- `main` and the trackers. -/
structure System where
  /-- Where `main` is. -/
  main : MainAt
  /-- `continueRunning` -/
  continueRunning : Bool
  /-- The trackers. -/
  trackers : List Life

/-- What happens next. -/
inductive SystemAction where
  /-- A step of `main`. -/
  | main
  /-- The signal SIGINT. -/
  | interrupt
  /-- A step of the thread of a tracker. -/
  | thread (i : Nat) (a : LifeAction)

/-- Is it a step of `main`? -/
def SystemAction.isMain : SystemAction → Bool
  | .main => true
  | .interrupt | .thread _ _ => false

namespace System

/-- The tracker at a place in the chain; `none` is `NULL`. -/
def place (s : System) (i : Nat) : Option Nat := if i < s.trackers.length then some i else none

/-- A step of `main`.
Source: `main.c`, `main`; `client.c`, `client_start_trackers`; `client.c`, `client_stop_trackers` -/
def mainStep (s : System) : Option System :=
  match s.main with
  | .starting none => some { s with main := .watching }
  | .starting (some i) => do
      let l ← s.trackers[i]?
      some { s with trackers := s.trackers.set i l.start, main := .starting (s.place (i + 1)) }
  | .watching =>
      if s.continueRunning then some s else some { s with main := .stopping (s.place 0) }
  | .stopping none => some { s with main := .returned }
  | .stopping (some i) => do
      let l ← s.trackers[i]?
      let l ← l.stop false
      some { s with trackers := s.trackers.set i l, main := .stopping (s.place (i + 1)) }
  | .returned => none

/-- A step. When `main` has returned there are no threads any more. -/
def step (s : System) : SystemAction → Option System
  | .main => s.mainStep
  | .interrupt => if s.main = .returned then none else some { s with continueRunning := false }
  | .thread i a =>
      if s.main = .returned ∨ a.OfThread = false then none
      else do
        let l ← s.trackers[i]?
        let l ← l.step a
        some { s with trackers := s.trackers.set i l }

/-- The trackers as `client_init_trackers` makes them, before `main` starts them. -/
def started (trackers : List Life) : System where
  main := .starting (if 0 < trackers.length then some 0 else none)
  continueRunning := true
  trackers := trackers

end System

/-! ## One tracker -/

/-- The thread ends only because the tracker is stopped. -/
structure EndsStopped (l : Life) : Prop where
  /-- The announces are on schedule. -/
  schedule : l.scheme ≠ .other → l.OnSchedule
  /-- It was not told to end. -/
  cancelled : l.cancelled = false
  /-- It has ended. -/
  ended : l.routine = .ended → l.stopped = true

variable {l l' : Life} {a : LifeAction}

/-- A tracker that is started. -/
theorem EndsStopped.start (h : EndsStopped l) : EndsStopped l.start where
  schedule hscheme := (h.schedule hscheme).step .start
  cancelled := h.cancelled
  ended hend := by
    apply h.ended
    unfold Life.start at hend
    by_cases habsent : l.routine = .absent
    · simp [habsent] at hend
    · simpa [habsent] using hend

/-- It has a thread. -/
theorem routine_start (l : Life) : l.start.routine ≠ .absent := by
  unfold Life.start
  by_cases habsent : l.routine = .absent
  · simp [habsent]
  · simp [habsent]

/-- A tracker that is stopped. -/
theorem EndsStopped.stop (h : EndsStopped l) :
    ∃ l', l.stop false = some l' ∧ EndsStopped l' ∧ l'.stopped = true ∧ l'.routine = l.routine := by
  by_cases hs : l.stopped = true
  · exact ⟨l, by simp [Life.stop, hs], h, hs, rfl⟩
  · rw [Bool.not_eq_true] at hs
    refine ⟨{ l with stopped := true }, by simp [Life.stop, hs], ?_, rfl, rfl⟩
    exact ⟨fun hscheme => (h.schedule hscheme).step (.stop hs), h.cancelled, fun _ => rfl⟩

/-- A step of its thread. -/
theorem EndsStopped.thread (h : EndsStopped l) (ha : a.OfThread = true) (hstep : l.step a = some l') :
    EndsStopped l' ∧ l'.stopped = l.stopped ∧ (l'.routine = .absent ↔ l.routine = .absent) := by
  have hsteps := Life.steps_of_step hstep
  have hschedule : l'.scheme ≠ .other → l'.OnSchedule := fun hscheme =>
    (h.schedule (hsteps.constant.1 ▸ hscheme)).step hsteps
  have hgoes : l.cancelled ≠ true := by simp [h.cancelled]
  cases hsteps with
  | start => cases ha
  | stopAgain => cases ha
  | stop => cases ha
  | force => cases ha
  | finish hr hs => exact ⟨⟨hschedule, h.cancelled, fun _ => hs⟩, rfl, by simp [hr]⟩
  | cancel hc hr => exact absurd hc hgoes
  | cutUdp _ hc _ _ => exact absurd hc hgoes
  | cutHttp _ hc _ => exact absurd hc hgoes
  | cutOther _ hc _ => exact absurd hc hgoes
  | due hr _ _ _ => exact ⟨⟨hschedule, h.cancelled, nofun⟩, rfl, by simp [hr]⟩
  | skip hr _ _ _ => exact ⟨⟨hschedule, h.cancelled, nofun⟩, rfl, by simp [hr]⟩
  | udp hr _ _ => exact ⟨⟨hschedule, h.cancelled, nofun⟩, rfl, by simp [hr]⟩
  | http hr _ => exact ⟨⟨hschedule, h.cancelled, nofun⟩, rfl, by simp [hr]⟩
  | other hr _ => exact ⟨⟨hschedule, h.cancelled, nofun⟩, rfl, by simp [hr]⟩
  | rest hr _ => exact ⟨⟨hschedule, h.cancelled, nofun⟩, rfl, by simp [hr]⟩

/-- A tracker as `client_init_trackers` makes it. -/
def IsNew (l : Life) : Prop :=
  ∃ tracker scheme pollFreq, 0 < pollFreq ∧ l = .new tracker scheme pollFreq

/-- It is in order, has no thread and is not stopped. -/
theorem IsNew.endsStopped (h : IsNew l) :
    EndsStopped l ∧ l.routine = .absent ∧ l.stopped = false := by
  obtain ⟨tracker, scheme, pollFreq, hf, rfl⟩ := h
  exact ⟨⟨fun hscheme => Life.onSchedule_new tracker hscheme hf, rfl, nofun⟩, rfl, rfl⟩

/-! ## Runs -/

/-- `client_start_trackers` has not come to this tracker yet. -/
def MainAt.Before (i : Nat) : MainAt → Prop
  | .starting (some j) => j ≤ i
  | .starting none | .watching | .stopping _ | .returned => False

/-- `client_stop_trackers` has passed this tracker. -/
def MainAt.Passed (i : Nat) : MainAt → Prop
  | .stopping (some j) => i < j
  | .stopping none | .returned => True
  | .starting _ | .watching => False

namespace System

variable {s s' : System} {acts : List SystemAction} {act : SystemAction}

/-- What holds throughout a run: where `main` is decides which trackers have a thread, and which are
stopped. -/
structure Ordered (s : System) : Prop where
  /-- The tracker that `main` is at is there. -/
  inside : ∀ i, s.main = .starting (some i) ∨ s.main = .stopping (some i) → i < s.trackers.length
  /-- `main` stops trackers after an interrupt. -/
  interrupted : s.continueRunning = true →
    s.main = .watching ∨ ∃ p, s.main = .starting p
  /-- Each thread ends only because its tracker is stopped. -/
  endsStopped : ∀ (i : Nat) l, s.trackers[i]? = some l → EndsStopped l
  /-- The trackers that have no thread. -/
  absent : ∀ (i : Nat) l, s.trackers[i]? = some l → (l.routine = .absent ↔ MainAt.Before i s.main)
  /-- The trackers that are stopped. -/
  stopped : ∀ (i : Nat) l, s.trackers[i]? = some l → (l.stopped = true ↔ MainAt.Passed i s.main)

/-- The next place. -/
theorem place_eq_some_iff {i j : Nat} : s.place i = some j ↔ j = i ∧ i < s.trackers.length := by
  rw [place, Option.ite_none_right_eq_some, Option.some.injEq]
  exact ⟨fun h => ⟨h.2.symm, h.1⟩, fun h => ⟨h.2, h.1.symm⟩⟩

/-- A place that is none. -/
theorem place_eq_none_iff {i : Nat} : s.place i = none ↔ s.trackers.length ≤ i := by
  rw [place, ite_eq_right_iff]
  exact ⟨fun h => not_lt.mp fun hlt => Option.some_ne_none i (h hlt), fun h hlt => absurd hlt (not_lt.mpr h)⟩

/-- Before the place behind `i` are the trackers from there on. -/
theorem before_place {i j : Nat} (hj : j < s.trackers.length) :
    MainAt.Before j (.starting (s.place i)) ↔ i ≤ j := by
  by_cases hi : i < s.trackers.length
  · rw [place, if_pos hi]
    exact Iff.rfl
  · rw [place, if_neg hi]
    exact iff_of_false id (by omega)

/-- Those passed are the trackers up to there. -/
theorem passed_place {i j : Nat} (hj : j < s.trackers.length) :
    MainAt.Passed j (.stopping (s.place i)) ↔ j < i := by
  by_cases hi : i < s.trackers.length
  · rw [place, if_pos hi]
    exact Iff.rfl
  · rw [place, if_neg hi]
    exact iff_of_true trivial (by omega)

/-- A tracker of a list in which one is replaced. -/
theorem tracker_of_set {trackers : List Life} {i j : Nat} {l l' : Life}
    (h : (trackers.set i l')[j]? = some l) :
    (i = j ∧ l = l') ∨ (i ≠ j ∧ trackers[j]? = some l) := by
  rw [List.getElem?_set] at h
  split_ifs at h with hij hlt
  · exact .inl ⟨hij, (Option.some.inj h).symm⟩
  · exact .inr ⟨hij, h⟩

/-- A tracker takes a step that `main` has no part in. -/
theorem Ordered.thread (hs : s.Ordered) {i : Nat} {l l' : Life} (hl : s.trackers[i]? = some l)
    (hends : EndsStopped l') (hstopped : l'.stopped = l.stopped)
    (habsent : l'.routine = .absent ↔ l.routine = .absent) :
    Ordered { s with trackers := s.trackers.set i l' } where
  inside j hj := by simpa using hs.inside j hj
  interrupted := hs.interrupted
  endsStopped j l₁ hj := by
    rcases tracker_of_set hj with ⟨rfl, rfl⟩ | ⟨-, hj⟩
    · exact hends
    · exact hs.endsStopped j l₁ hj
  absent j l₁ hj := by
    rcases tracker_of_set hj with ⟨rfl, rfl⟩ | ⟨-, hj⟩
    · rw [habsent, hs.absent i l hl]
    · exact hs.absent j l₁ hj
  stopped j l₁ hj := by
    rcases tracker_of_set hj with ⟨rfl, rfl⟩ | ⟨-, hj⟩
    · rw [hstopped, hs.stopped i l hl]
    · exact hs.stopped j l₁ hj

/-- `main` goes on to another place, from which things look the same. -/
theorem Ordered.goTo (hs : s.Ordered) {main : MainAt}
    (hinside : ∀ i, main = .starting (some i) ∨ main = .stopping (some i) → i < s.trackers.length)
    (hinterrupted : s.continueRunning = true → main = .watching ∨ ∃ p, main = .starting p)
    (hbefore : ∀ i < s.trackers.length, (MainAt.Before i s.main ↔ MainAt.Before i main))
    (hpassed : ∀ i < s.trackers.length, (MainAt.Passed i s.main ↔ MainAt.Passed i main)) :
    Ordered { s with main := main } where
  inside := hinside
  interrupted := hinterrupted
  endsStopped := hs.endsStopped
  absent i l hl := (hs.absent i l hl).trans (hbefore i (List.getElem?_eq_some_iff.mp hl).1)
  stopped i l hl := (hs.stopped i l hl).trans (hpassed i (List.getElem?_eq_some_iff.mp hl).1)

/-- `main` starts a tracker, and goes on to the next. -/
theorem Ordered.start (hs : s.Ordered) {i : Nat} (hmain : s.main = .starting (some i))
    (hl : s.trackers[i]? = some l) :
    Ordered { s with trackers := s.trackers.set i l.start, main := .starting (s.place (i + 1)) } where
  inside j hj := by
    rcases hj with hj | hj
    · have hplace := (place_eq_some_iff.mp (MainAt.starting.inj hj))
      simpa [hplace.1] using hplace.2
    · cases hj
  interrupted _ := .inr ⟨_, rfl⟩
  endsStopped j l₁ hj := by
    rcases tracker_of_set hj with ⟨rfl, rfl⟩ | ⟨-, hj⟩
    · exact (hs.endsStopped i l hl).start
    · exact hs.endsStopped j l₁ hj
  absent j l₁ hj := by
    have hlt : j < s.trackers.length := by
      simpa using (List.getElem?_eq_some_iff.mp hj).1
    rw [before_place hlt]
    rcases tracker_of_set hj with ⟨rfl, rfl⟩ | ⟨hne, hj⟩
    · exact iff_of_false (routine_start l) (by omega)
    · rw [hs.absent j l₁ hj, hmain]
      show i ≤ j ↔ i + 1 ≤ j
      omega
  stopped j l₁ hj := by
    have hpassed : ¬ MainAt.Passed j s.main := by
      rw [hmain]
      exact id
    refine iff_of_false ?_ id
    rcases tracker_of_set hj with ⟨rfl, rfl⟩ | ⟨-, hj⟩
    · exact fun hst => hpassed ((hs.stopped i l hl).mp hst)
    · exact fun hst => hpassed ((hs.stopped j l₁ hj).mp hst)

/-- `main` stops a tracker, and goes on to the next. -/
theorem Ordered.stop (hs : s.Ordered) {i : Nat} (hmain : s.main = .stopping (some i))
    (hl : s.trackers[i]? = some l) (hends : EndsStopped l') (hstopped : l'.stopped = true)
    (hroutine : l'.routine = l.routine) :
    Ordered { s with trackers := s.trackers.set i l', main := .stopping (s.place (i + 1)) } where
  inside j hj := by
    rcases hj with hj | hj
    · cases hj
    · have hplace := (place_eq_some_iff.mp (MainAt.stopping.inj hj))
      simpa [hplace.1] using hplace.2
  interrupted hrun := by
    rcases hs.interrupted hrun with h | ⟨p, h⟩
    · rw [hmain] at h
      cases h
    · rw [hmain] at h
      cases h
  endsStopped j l₁ hj := by
    rcases tracker_of_set hj with ⟨rfl, rfl⟩ | ⟨-, hj⟩
    · exact hends
    · exact hs.endsStopped j l₁ hj
  absent j l₁ hj := by
    have hbefore : ¬ MainAt.Before j s.main := by
      rw [hmain]
      exact id
    refine iff_of_false ?_ id
    rcases tracker_of_set hj with ⟨rfl, rfl⟩ | ⟨-, hj⟩
    · rw [hroutine]
      exact fun habsent => hbefore ((hs.absent i l hl).mp habsent)
    · exact fun habsent => hbefore ((hs.absent j l₁ hj).mp habsent)
  stopped j l₁ hj := by
    have hlt : j < s.trackers.length := by
      simpa using (List.getElem?_eq_some_iff.mp hj).1
    rw [passed_place hlt]
    rcases tracker_of_set hj with ⟨rfl, rfl⟩ | ⟨hne, hj⟩
    · exact iff_of_true hstopped (by omega)
    · rw [hs.stopped j l₁ hj, hmain]
      show j < i ↔ j < i + 1
      omega

/-- A step of `main` makes no tracker more. -/
theorem length_mainStep (h : s.mainStep = some s') : s'.trackers.length = s.trackers.length := by
  rw [System.mainStep] at h
  split at h
  · obtain rfl := Option.some.inj h
    rfl
  · simp only [Option.bind_eq_bind, Option.bind_eq_some_iff] at h
    obtain ⟨l, -, heq⟩ := h
    obtain rfl := Option.some.inj heq
    exact List.length_set
  · split_ifs at h
    all_goals
      obtain rfl := Option.some.inj h
      rfl
  · obtain rfl := Option.some.inj h
    rfl
  · simp only [Option.bind_eq_bind, Option.bind_eq_some_iff] at h
    obtain ⟨l, -, l', -, heq⟩ := h
    obtain rfl := Option.some.inj heq
    exact List.length_set
  · cases h

/-- The steps that `main` has left, once it is interrupted. -/
def remaining (s : System) : Nat :=
  match s.main with
  | .starting (some i) => (s.trackers.length - i) + 1 + 1 + s.trackers.length + 1
  | .starting none => 1 + 1 + s.trackers.length + 1
  | .watching => 1 + s.trackers.length + 1
  | .stopping (some i) => (s.trackers.length - i) + 1
  | .stopping none => 1
  | .returned => 0

/-- **A step of `main`** is possible until it has returned, and keeps the order. After an interrupt it is one
of the last. -/
theorem Ordered.mainStep (hs : s.Ordered) (hmain : s.main ≠ .returned) :
    ∃ s', s.mainStep = some s' ∧ s'.Ordered ∧ s'.continueRunning = s.continueRunning ∧
      (s.continueRunning = false → s.remaining = s'.remaining + 1) := by
  cases hat : s.main with
  | starting tracker =>
      cases tracker with
      | none =>
          refine ⟨{ s with main := .watching }, by simp [System.mainStep, hat], hs.goTo ?_ ?_ ?_ ?_, rfl, ?_⟩
          · exact fun i hi => hi.elim nofun nofun
          · exact fun _ => .inl rfl
          · exact fun i _ => by rw [hat]; exact Iff.rfl
          · exact fun i _ => by rw [hat]; exact Iff.rfl
          · intro _
            simp only [remaining, hat]
            omega
      | some i =>
          have hi := hs.inside i (.inl hat)
          have hl := List.getElem?_eq_getElem hi
          refine ⟨{ s with
            trackers := s.trackers.set i s.trackers[i].start, main := .starting (s.place (i + 1)) },
            by simp [System.mainStep, hat, hl], hs.start hat hl, rfl, fun _ => ?_⟩
          simp only [remaining, hat, List.length_set]
          cases hplace : s.place (i + 1) with
          | none =>
              have := place_eq_none_iff.mp hplace
              simp only
              omega
          | some j =>
              obtain ⟨rfl, hlt⟩ := place_eq_some_iff.mp hplace
              simp only
              omega
  | watching =>
      by_cases hrun : s.continueRunning = true
      · refine ⟨s, by simp [System.mainStep, hat, hrun], hs, rfl, fun hstop => ?_⟩
        rw [hrun] at hstop
        cases hstop
      · refine ⟨{ s with main := .stopping (s.place 0) }, by simp [System.mainStep, hat, hrun],
          hs.goTo ?_ ?_ ?_ ?_, rfl, fun _ => ?_⟩
        · intro i hi
          rcases hi with hi | hi
          · cases hi
          · obtain ⟨rfl, hlt⟩ := place_eq_some_iff.mp (MainAt.stopping.inj hi)
            exact hlt
        · exact fun h => absurd h hrun
        · exact fun i _ => by rw [hat]; exact Iff.rfl
        · intro i hi
          rw [hat, passed_place hi]
          exact iff_of_false id (Nat.not_lt_zero i)
        · simp only [remaining, hat]
          cases hplace : s.place 0 with
          | none =>
              have := place_eq_none_iff.mp hplace
              simp only
              omega
          | some j =>
              obtain ⟨rfl, hlt⟩ := place_eq_some_iff.mp hplace
              simp only
              omega
  | stopping tracker =>
      cases tracker with
      | none =>
          refine ⟨{ s with main := .returned }, by simp [System.mainStep, hat], hs.goTo ?_ ?_ ?_ ?_, rfl, ?_⟩
          · exact fun i hi => hi.elim nofun nofun
          · intro hrun
            rcases hs.interrupted hrun with h | ⟨p, h⟩
            · exact absurd (hat.symm.trans h) nofun
            · exact absurd (hat.symm.trans h) nofun
          · exact fun i _ => by rw [hat]; exact Iff.rfl
          · exact fun i _ => by rw [hat]; exact Iff.rfl
          · intro _
            simp only [remaining, hat]
      | some i =>
          have hi := hs.inside i (.inr hat)
          have hl := List.getElem?_eq_getElem hi
          obtain ⟨l', hstop, hends, hstopped, hroutine⟩ := (hs.endsStopped i _ hl).stop
          refine ⟨{ s with trackers := s.trackers.set i l', main := .stopping (s.place (i + 1)) },
            by simp [System.mainStep, hat, hl, hstop], hs.stop hat hl hends hstopped hroutine, rfl,
            fun _ => ?_⟩
          simp only [remaining, hat, List.length_set]
          cases hplace : s.place (i + 1) with
          | none =>
              have := place_eq_none_iff.mp hplace
              simp only
              omega
          | some j =>
              obtain ⟨rfl, hlt⟩ := place_eq_some_iff.mp hplace
              simp only
              omega
  | returned => exact absurd hat hmain

/-- **A step keeps the order**, and a tracker takes a step of its own or none. What `main` has left to do
after an interrupt, it does itself. -/
theorem Ordered.step (hs : s.Ordered) (h : s.step act = some s') :
    s'.Ordered ∧ s'.trackers.length = s.trackers.length ∧
      (s.continueRunning = false → s'.continueRunning = false ∧
        s.remaining = s'.remaining + if act.isMain then 1 else 0) := by
  cases act with
  | main =>
      have hmain : s.main ≠ .returned := by
        intro hreturned
        simp [System.step, System.mainStep, hreturned] at h
      obtain ⟨s₁, hstep, hs₁, hrunning, hremaining⟩ := hs.mainStep hmain
      obtain rfl := Option.some.inj (hstep.symm.trans h)
      refine ⟨hs₁, ?_, fun hstop => ⟨hrunning.trans hstop, hremaining hstop⟩⟩
      exact length_mainStep hstep
  | interrupt =>
      rw [System.step, Option.ite_none_left_eq_some] at h
      obtain rfl := Option.some.inj h.2
      exact ⟨{ hs with interrupted := nofun }, rfl, fun _ => ⟨rfl, rfl⟩⟩
  | thread i a =>
      rw [System.step, Option.ite_none_left_eq_some] at h
      obtain ⟨hok, h⟩ := h
      push Not at hok
      simp only [Option.bind_eq_bind, Option.bind_eq_some_iff] at h
      obtain ⟨l, hl, l', hstep, heq⟩ := h
      obtain rfl := Option.some.inj heq
      have ha : a.OfThread = true := by simpa using hok.2
      obtain ⟨hends, hstopped, habsent⟩ := (hs.endsStopped i l hl).thread ha hstep
      refine ⟨hs.thread hl hends hstopped habsent, List.length_set, fun hstop => ⟨hstop, ?_⟩⟩
      simp only [remaining, List.length_set]
      rfl

/-- What a step does to one tracker. -/
theorem tracker_of_step (h : s.step act = some s') {i : Nat} {l : Life} (hl : s.trackers[i]? = some l) :
    ∃ l', s'.trackers[i]? = some l' ∧ (l' = l ∨ ∃ a, l.step a = some l') := by
  have hset : ∀ {j : Nat} {l₁ l₂ : Life} {a : LifeAction}, s.trackers[j]? = some l₁ → l₁.step a = some l₂ →
      ∃ l', (s.trackers.set j l₂)[i]? = some l' ∧ (l' = l ∨ ∃ a, l.step a = some l') := by
    intro j l₁ l₂ a hj hstep
    by_cases hij : j = i
    · subst hij
      obtain rfl := Option.some.inj (hl.symm.trans hj)
      exact ⟨l₂, List.getElem?_set_self (List.getElem?_eq_some_iff.mp hl).1, .inr ⟨a, hstep⟩⟩
    · exact ⟨l, by rw [List.getElem?_set_ne hij, hl], .inl rfl⟩
  cases act with
  | main =>
      rw [System.step, System.mainStep] at h
      split at h
      · obtain rfl := Option.some.inj h
        exact ⟨l, hl, .inl rfl⟩
      · simp only [Option.bind_eq_bind, Option.bind_eq_some_iff] at h
        obtain ⟨l₁, hj, heq⟩ := h
        obtain rfl := Option.some.inj heq
        exact hset (a := .start) hj rfl
      · split_ifs at h
        all_goals
          obtain rfl := Option.some.inj h
          exact ⟨l, hl, .inl rfl⟩
      · obtain rfl := Option.some.inj h
        exact ⟨l, hl, .inl rfl⟩
      · simp only [Option.bind_eq_bind, Option.bind_eq_some_iff] at h
        obtain ⟨l₁, hj, l₂, hstop, heq⟩ := h
        obtain rfl := Option.some.inj heq
        exact hset (a := .stop false) hj hstop
      · cases h
  | interrupt =>
      rw [System.step, Option.ite_none_left_eq_some] at h
      obtain rfl := Option.some.inj h.2
      exact ⟨l, hl, .inl rfl⟩
  | thread j a =>
      rw [System.step, Option.ite_none_left_eq_some] at h
      simp only [Option.bind_eq_bind, Option.bind_eq_some_iff] at h
      obtain ⟨-, l₁, hj, l₂, hstep, heq⟩ := h
      obtain rfl := Option.some.inj heq
      exact hset hj hstep

/-- The order holds before the start. -/
theorem ordered_started {trackers : List Life} (hnew : ∀ l ∈ trackers, IsNew l) :
    (started trackers).Ordered where
  inside i hi := by
    rcases hi with hi | hi
    · have hp := MainAt.starting.inj hi
      rw [Option.ite_none_right_eq_some] at hp
      rw [← Option.some.inj hp.2]
      exact hp.1
    · cases hi
  interrupted _ := .inr ⟨_, rfl⟩
  endsStopped i l hl := (hnew l (List.mem_of_getElem? hl)).endsStopped.1
  absent i l hl := by
    have hlt := (List.getElem?_eq_some_iff.mp hl).1
    have hpos : 0 < trackers.length := Nat.zero_lt_of_lt hlt
    refine iff_of_true (hnew l (List.mem_of_getElem? hl)).endsStopped.2.1 ?_
    rw [started, if_pos hpos]
    exact Nat.zero_le i
  stopped i l hl := by
    rw [(hnew l (List.mem_of_getElem? hl)).endsStopped.2.2]
    exact iff_of_false nofun id

/-- It holds throughout. -/
theorem ordered_of_run {trackers : List Life} (hnew : ∀ l ∈ trackers, IsNew l)
    (hrun : acts.foldlM System.step (started trackers) = some s) :
    s.Ordered ∧ s.trackers.length = trackers.length :=
  invariant_of_steps (I := fun s : System => s.Ordered ∧ s.trackers.length = trackers.length)
    ⟨ordered_started hnew, rfl⟩
    (fun _ _ _ hs hstep => ⟨(hs.1.step hstep).1, (hs.1.step hstep).2.1.trans hs.2⟩) hrun

/-- A tracker that is stopped comes to one more announce at most. -/
theorem winds_down_of_run {i : Nat} {l : Life} (hl : s.trackers[i]? = some l) (hstopped : l.stopped = true)
    (hrun : acts.foldlM System.step s = some s') :
    ∃ l', s'.trackers[i]? = some l' ∧ l'.stopped = true ∧
      l'.log.length + l'.routine.pending ≤ l.log.length + l.routine.pending := by
  refine invariant_of_steps (I := fun s : System => ∃ l', s.trackers[i]? = some l' ∧ l'.stopped = true ∧
    l'.log.length + l'.routine.pending ≤ l.log.length + l.routine.pending) ⟨l, hl, hstopped, le_rfl⟩ ?_ hrun
  rintro s₁ act s₂ ⟨l₁, hl₁, hstopped₁, hlog⟩ hstep
  obtain ⟨l₂, hl₂, rfl | ⟨a, hmove⟩⟩ := tracker_of_step hstep hl₁
  · exact ⟨l₂, hl₂, hstopped₁, hlog⟩
  · have hsteps := Life.steps_of_step hmove
    exact ⟨l₂, hl₂, hsteps.stopped hstopped₁, (hsteps.winds_down hstopped₁).2.trans hlog⟩

/-- Steps of one thread are steps of the system. -/
theorem run_thread {i : Nat} {l l' : Life} (hmain : s.main ≠ .returned) (hl : s.trackers[i]? = some l)
    {acts : List LifeAction} (hacts : ∀ a ∈ acts, a.OfThread = true)
    (hrun : acts.foldlM Life.step l = some l') :
    ∃ s', (acts.map (SystemAction.thread i)).foldlM System.step s = some s' ∧
      s'.trackers[i]? = some l' := by
  induction acts generalizing s l with
  | nil =>
      obtain rfl := Option.some.inj hrun
      exact ⟨s, rfl, hl⟩
  | cons a acts ih =>
      rw [List.foldlM_cons, Option.bind_eq_bind, Option.bind_eq_some_iff] at hrun
      obtain ⟨l₁, hstep, hrest⟩ := hrun
      obtain ⟨ha, hacts⟩ := List.forall_mem_cons.mp hacts
      have hset : (s.trackers.set i l₁)[i]? = some l₁ :=
        List.getElem?_set_self (List.getElem?_eq_some_iff.mp hl).1
      obtain ⟨s', hrun', hl'⟩ := @ih { s with trackers := s.trackers.set i l₁ } l₁ hmain hset hacts hrest
      refine ⟨s', ?_, hl'⟩
      rw [List.map_cons, List.foldlM_cons, System.step, if_neg (by simp [hmain, ha])]
      simpa [hl, hstep] using hrun'

/-- **Trackers are stopped in order.** In every run of `main` and the threads, a tracker has a thread iff
`main` has started it, and is stopped iff `main` has passed it in `client_stop_trackers`; so all of them are
when `main` has returned. Until then each other tracker of a scheme that is known, once started, can come to
one more announce, as long as its `tick` is an `int`. From then on it comes to one more at most, the one it
has begun. -/
theorem stopped_in_order {trackers : List Life} (hnew : ∀ l ∈ trackers, IsNew l)
    (hrun : acts.foldlM System.step (started trackers) = some s) {i : Nat} {l : Life}
    (hl : s.trackers[i]? = some l) :
    (l.routine = .absent ↔ s.main.Before i) ∧ (l.stopped = true ↔ s.main.Passed i) ∧
      (l.routine ≠ .absent → l.stopped = false → l.scheme ≠ .other →
        l.pollFreq * l.log.length ≤ intMax →
        ∃ (more : List LifeAction) (s' : System) (l' : Life),
          (more.map (SystemAction.thread i)).foldlM System.step s = some s' ∧
            s'.trackers[i]? = some l' ∧ l'.log.length = l.log.length + 1) ∧
      (l.stopped = true → ∀ (more : List SystemAction) (s' : System),
        more.foldlM System.step s = some s' → ∃ l', s'.trackers[i]? = some l' ∧
          l'.log.length + l'.routine.pending ≤ l.log.length + l.routine.pending) := by
  obtain ⟨hs, -⟩ := ordered_of_run hnew hrun
  have hends := hs.endsStopped i l hl
  refine ⟨hs.absent i l hl, hs.stopped i l hl, fun hthere hgoing hscheme hroom => ?_,
    fun hstopped more s' hmore => ?_⟩
  · have hnotEnded : l.routine ≠ .ended := by
      intro hend
      rw [hends.ended hend] at hgoing
      cases hgoing
    have hmain : s.main ≠ .returned := by
      intro hreturned
      have hpassed : l.stopped = true := (hs.stopped i l hl).mpr (hreturned ▸ trivial)
      rw [hgoing] at hpassed
      cases hpassed
    obtain ⟨more, l₁, hmore, hmoves, hlen⟩ :=
      (hends.schedule hscheme).canAnnounce hgoing hthere hnotEnded hroom
    obtain ⟨s₁, hrun₁, hl₁⟩ := run_thread hmain hl hmore hmoves
    exact ⟨more, s₁, l₁, hrun₁, hl₁, hlen⟩
  · obtain ⟨l', hl', -, hlog⟩ := winds_down_of_run hl hstopped hmore
    exact ⟨l', hl', hlog⟩

/-- Two trackers. -/
def twoTrackers : List Life :=
  [.new ⟨0, 0, [], true⟩ .udp 30, .new ⟨0, 0, [], true⟩ .http 30]

/-- They are new. -/
theorem twoTrackers_new : ∀ l ∈ twoTrackers, IsNew l := by
  intro l hl
  simp only [twoTrackers, List.mem_cons, List.not_mem_nil, or_false] at hl
  rcases hl with rfl | rfl
  all_goals exact ⟨_, _, 30, by decide, rfl⟩

/-- `main` starts the trackers, both announce, and it is interrupted. -/
def interrupted : List SystemAction :=
  [.main, .main, .main, .thread 0 .check, .thread 1 .check, .thread 1 (.announce silent), .interrupt]

/-- `main` stops the first tracker, which is announcing, while the second has announced. -/
def stopsFirst : List SystemAction := interrupted ++ [.main, .main]

/-- The second tracker is not stopped yet, and the first one makes the announce it has begun. -/
theorem stopped_in_order_example :
    ∃ s first second s' first', stopsFirst.foldlM System.step (started twoTrackers) = some s ∧
      s.trackers[0]? = some first ∧ first.stopped = true ∧ s.trackers[1]? = some second ∧
      second.stopped = false ∧
      [.thread 0 (.announce silent), .thread 0 .rest, .thread 0 .check].foldlM System.step s = some s' ∧
      s'.trackers[0]? = some first' ∧ first'.log.length ≤ 1 := by
  obtain ⟨s, hrun, first, second, hfirst, hsecond, hmain, hlog, s', hmore⟩ :
      ∃ s, stopsFirst.foldlM System.step (started twoTrackers) = some s ∧ ∃ first second,
        s.trackers[0]? = some first ∧ s.trackers[1]? = some second ∧ s.main = .stopping (some 1) ∧
        first.log.length + first.routine.pending = 1 ∧
        ∃ s', [.thread 0 (.announce silent), .thread 0 .rest, .thread 0 .check].foldlM System.step s =
          some s' := ⟨_, rfl, _, _, rfl, rfl, rfl, rfl, _, rfl⟩
  obtain ⟨-, hpassed, -, hdown⟩ := stopped_in_order twoTrackers_new hrun hfirst
  obtain ⟨-, hpassed', -, -⟩ := stopped_in_order twoTrackers_new hrun hsecond
  rw [hmain] at hpassed hpassed'
  have hstopped : first.stopped = true := hpassed.mpr Nat.zero_lt_one
  have hgoing : second.stopped = false := by
    rw [← Bool.not_eq_true]
    exact fun h => absurd (hpassed'.mp h) (lt_irrefl 1)
  obtain ⟨first', hfirst', hle⟩ := hdown hstopped _ s' hmore
  exact ⟨s, first, second, s', first', hrun, hfirst, hstopped, hsecond, hgoing, hmore, hfirst', by omega⟩

end System

end Flood.Client
