import Flood.Lib.Runs
import Flood.Tracker.Connection

/-!
# The life of a tracker

`tracker_start`, `tracker_stop` and the thread of `tracker_update_routine`, in any order of their steps.

* `Life` — a tracker, with where its thread is and a record of its announces.
* `Life.step` — a call of `tracker_start` or `tracker_stop`, or a step of the thread. `none` where a step is
  not possible, or undefined.
* `interrupted` — what a cancelled thread leaves of a tracker, where it ends inside of an announce.
* `announces_on_schedule` — whatever calls are made, the announces are made at the multiples of
  `poll_freq`.
* `stopped_winds_down` — after `tracker_stop` the thread takes three steps at most, and no call of
  `tracker_start` makes it announce again.
* `announces_are_calls` — between two calls of `tracker_start`, the thread not being cancelled, the
  announces are a run of `tracker_announce_udp` from a tracker without a socket.
-/

namespace Flood.Tracker

open Flood.Lib

/-! ## The functions -/

/-- The scheme of the URL. -/
inductive Scheme where
  /-- "udp" -/
  | udp
  /-- "http" -/
  | http
  /-- Any other. -/
  | other
  deriving DecidableEq

/-- Where the thread is, with the local variable `tick`. -/
inductive Routine where
  /-- It has not been created. -/
  | absent
  /-- At the test of `stopped`. -/
  | top (tick : Int)
  /-- Before `tracker_announce`. -/
  | announcing (tick : Int)
  /-- Before `tick++`. -/
  | resting (tick : Int)
  /-- It has returned, or was cancelled. -/
  | ended
  deriving DecidableEq

/-- How far a call of `tracker_announce_udp` has come when its thread ends in it. -/
inductive Reached where
  /-- Nothing is written to the tracker yet. -/
  | start
  /-- The socket is. -/
  | socket
  /-- The connection is. -/
  | connection

/-- The tracker that a call leaves whose thread is cancelled in it: at a `printf`, a `sendto` or a
`recvfrom`. `none` where the call does not come so far. -/
def interrupted (t : TrackerT) (env : Env) : Reached → Option TrackerT
  | .start => some t
  | .socket =>
      if t.sockFd = -1 ∧ (createUdpSocket env t.sockFd).1 = 0 then
        some { t with sockFd := (createUdpSocket env t.sockFd).2 }
      else none
  | .connection =>
      if t.sockFd = -1 ∧ (createUdpSocket env t.sockFd).1 = 0 ∧
          (receiveConnectResponse env.connectJunk env.connectReply).2.transactionId =
            (connectReq env).transactionId then
        some { t with
          sockFd := (createUdpSocket env t.sockFd).2
          connectionId := (receiveConnectResponse env.connectJunk env.connectReply).2.connectionId }
      else none

/-- An announce that was made, or begun. -/
structure Announced where
  /-- The tick. -/
  tick : Int
  /-- The tracker before it. -/
  before : TrackerT
  /-- What it met. -/
  env : Env

/-- A tracker and its thread. -/
structure Life where
  /-- What `tracker_announce_udp` uses of it. -/
  tracker : TrackerT
  /-- The scheme of its URL. -/
  scheme : Scheme
  /-- `poll_freq` -/
  pollFreq : Int
  /-- `stopped` -/
  stopped : Bool
  /-- Whether the thread was told to end. -/
  cancelled : Bool
  /-- Where the thread is; `update_thread` is `NULL` where there is none. -/
  routine : Routine
  /-- The announces so far, in order. No step reads this record. -/
  log : List Announced

/-- A call, or a step of the thread. -/
inductive LifeAction where
  /-- `tracker_start` -/
  | start
  /-- `tracker_stop` -/
  | stop (force : Bool)
  /-- The tests of `stopped` and of `tick`. -/
  | check
  /-- `tracker_announce` -/
  | announce (env : Env)
  /-- `tick++`, and the sleep. -/
  | rest
  /-- The thread ends because it was told to. -/
  | cancel
  /-- It does so inside of `tracker_announce`. -/
  | cancelAnnounce (env : Env) (reached : Reached)

namespace Life

/-- Start the thread, if there is none; the socket is given up in any case.
Source: `tracker.c`, `tracker_start` -/
def start (l : Life) : Life :=
  { l with
    tracker := trackerStart l.tracker
    routine := if l.routine = .absent then .top 0 else l.routine }

/-- Ask the thread to end. A thread that is not there cannot be cancelled.
Source: `tracker.c`, `tracker_stop` -/
def stop (l : Life) (force : Bool) : Option Life :=
  if l.stopped then some l
  else if force then
    if l.routine = .absent then none else some { l with cancelled := true, stopped := true }
  else some { l with stopped := true }

/-- The top of the loop of `tracker_update_routine`; a remainder by zero is undefined. -/
def check (l : Life) (tick : Int) : Option Life :=
  if l.stopped then some { l with routine := .ended }
  else if l.pollFreq = 0 then none
  else if tick.tmod l.pollFreq = 0 then some { l with routine := .announcing tick }
  else some { l with routine := .resting tick }

/-- An announce; its result is not looked at. `none` where a wild pointer is followed. With another
scheme nothing is announced.
Source: `tracker.c`, `tracker_announce` -/
def announce (l : Life) (tick : Int) (env : Env) : Option Life :=
  match l.scheme with
  | .udp =>
      if (trackerAnnounceUdp l.tracker env).code.isSome then
        some { l with
          tracker := (trackerAnnounceUdp l.tracker env).tracker
          routine := .resting tick
          log := l.log ++ [⟨tick, l.tracker, env⟩] }
      else none
  | .http => some { l with routine := .resting tick, log := l.log ++ [⟨tick, l.tracker, env⟩] }
  | .other => some { l with routine := .resting tick }

/-- The thread ends inside of an announce. -/
def interrupt (l : Life) (tick : Int) (env : Env) (reached : Reached) : Option Life :=
  match l.scheme with
  | .udp => (interrupted l.tracker env reached).map fun tracker =>
      { l with
        tracker := tracker
        routine := .ended
        log := l.log ++ [⟨tick, l.tracker, env⟩] }
  | .http => some { l with routine := .ended, log := l.log ++ [⟨tick, l.tracker, env⟩] }
  | .other => some { l with routine := .ended }

/-- A call, or a step of the thread.
Source: `tracker.c`, `tracker_update_routine` -/
def step (l : Life) : LifeAction → Option Life
  | .start => some l.start
  | .stop force => l.stop force
  | .check =>
      match l.routine with
      | .top tick => l.check tick
      | _ => none
  | .announce env =>
      match l.routine with
      | .announcing tick => l.announce tick env
      | _ => none
  | .rest =>
      match l.routine with
      | .resting tick => if tick < intMax then some { l with routine := .top (tick + 1) } else none
      | _ => none
  | .cancel =>
      if l.cancelled ∧ l.routine ≠ .ended then some { l with routine := .ended } else none
  | .cancelAnnounce env reached =>
      match l.routine with
      | .announcing tick => if l.cancelled then l.interrupt tick env reached else none
      | _ => none

/-- A tracker as `client_init_trackers` makes it. -/
def new (tracker : TrackerT) (scheme : Scheme) (pollFreq : Int) : Life where
  tracker := tracker
  scheme := scheme
  pollFreq := pollFreq
  stopped := false
  cancelled := false
  routine := .absent
  log := []

end Life

/-! ## One step -/

/-- What a step does. -/
inductive Life.Steps (l : Life) : LifeAction → Life → Prop
  | start : l.Steps .start l.start
  | stopAgain (force : Bool) : l.stopped = true → l.Steps (.stop force) l
  | stop : l.stopped = false → l.Steps (.stop false) { l with stopped := true }
  | force : l.stopped = false → l.routine ≠ .absent →
      l.Steps (.stop true) { l with cancelled := true, stopped := true }
  | finish {tick : Int} : l.routine = .top tick → l.stopped = true →
      l.Steps .check { l with routine := .ended }
  | due {tick : Int} : l.routine = .top tick → l.stopped = false → l.pollFreq ≠ 0 →
      l.pollFreq ∣ tick → l.Steps .check { l with routine := .announcing tick }
  | skip {tick : Int} : l.routine = .top tick → l.stopped = false → l.pollFreq ≠ 0 →
      ¬ l.pollFreq ∣ tick → l.Steps .check { l with routine := .resting tick }
  | udp {tick : Int} {env : Env} : l.routine = .announcing tick → l.scheme = .udp →
      (trackerAnnounceUdp l.tracker env).code ≠ none →
      l.Steps (.announce env) { l with
        tracker := (trackerAnnounceUdp l.tracker env).tracker
        routine := .resting tick
        log := l.log ++ [⟨tick, l.tracker, env⟩] }
  | http {tick : Int} {env : Env} : l.routine = .announcing tick → l.scheme = .http →
      l.Steps (.announce env)
        { l with routine := .resting tick, log := l.log ++ [⟨tick, l.tracker, env⟩] }
  | other {tick : Int} {env : Env} : l.routine = .announcing tick → l.scheme = .other →
      l.Steps (.announce env) { l with routine := .resting tick }
  | rest {tick : Int} : l.routine = .resting tick → tick < intMax →
      l.Steps .rest { l with routine := .top (tick + 1) }
  | cancel : l.cancelled = true → l.routine ≠ .ended → l.Steps .cancel { l with routine := .ended }
  | cutUdp {tick : Int} {env : Env} {reached : Reached} {tracker : TrackerT} :
      l.routine = .announcing tick → l.cancelled = true → l.scheme = .udp →
      interrupted l.tracker env reached = some tracker →
      l.Steps (.cancelAnnounce env reached) { l with
        tracker := tracker
        routine := .ended
        log := l.log ++ [⟨tick, l.tracker, env⟩] }
  | cutHttp {tick : Int} {env : Env} {reached : Reached} : l.routine = .announcing tick →
      l.cancelled = true → l.scheme = .http →
      l.Steps (.cancelAnnounce env reached)
        { l with routine := .ended, log := l.log ++ [⟨tick, l.tracker, env⟩] }
  | cutOther {tick : Int} {env : Env} {reached : Reached} : l.routine = .announcing tick →
      l.cancelled = true → l.scheme = .other →
      l.Steps (.cancelAnnounce env reached) { l with routine := .ended }

variable {l l' : Life} {a : LifeAction} {acts : List LifeAction}

/-- **The steps one by one.** -/
theorem Life.steps_of_step (h : l.step a = some l') : l.Steps a l' := by
  cases a with
  | start =>
      obtain rfl := Option.some.inj h
      exact .start
  | stop force =>
      simp only [Life.step, Life.stop] at h
      by_cases hstopped : l.stopped = true
      · rw [if_pos hstopped] at h
        obtain rfl := Option.some.inj h
        exact .stopAgain force hstopped
      · rw [if_neg hstopped] at h
        rw [Bool.not_eq_true] at hstopped
        cases force with
        | false =>
            obtain rfl := Option.some.inj h
            exact .stop hstopped
        | true =>
            rw [if_pos rfl, Option.ite_none_left_eq_some] at h
            obtain rfl := Option.some.inj h.2
            exact .force hstopped h.1
  | check =>
      simp only [Life.step] at h
      split at h
      · rename_i tick hroutine
        unfold Life.check at h
        by_cases hstopped : l.stopped = true
        · rw [if_pos hstopped] at h
          obtain rfl := Option.some.inj h
          exact .finish hroutine hstopped
        · rw [if_neg hstopped, Option.ite_none_left_eq_some] at h
          rw [Bool.not_eq_true] at hstopped
          obtain ⟨hfreq, h⟩ := h
          by_cases hdue : tick.tmod l.pollFreq = 0
          · rw [if_pos hdue] at h
            obtain rfl := Option.some.inj h
            exact .due hroutine hstopped hfreq (Int.dvd_of_tmod_eq_zero hdue)
          · rw [if_neg hdue] at h
            obtain rfl := Option.some.inj h
            exact .skip hroutine hstopped hfreq fun hdvd => hdue (Int.tmod_eq_zero_of_dvd hdvd)
      · cases h
  | announce env =>
      simp only [Life.step] at h
      split at h
      · rename_i tick hroutine
        unfold Life.announce at h
        split at h
        · rename_i hscheme
          rw [Option.ite_none_right_eq_some] at h
          obtain rfl := Option.some.inj h.2
          exact .udp hroutine hscheme (Option.isSome_iff_ne_none.mp h.1)
        · rename_i hscheme
          obtain rfl := Option.some.inj h
          exact .http hroutine hscheme
        · rename_i hscheme
          obtain rfl := Option.some.inj h
          exact .other hroutine hscheme
      · cases h
  | rest =>
      simp only [Life.step] at h
      split at h
      · rename_i tick hroutine
        rw [Option.ite_none_right_eq_some] at h
        obtain rfl := Option.some.inj h.2
        exact .rest hroutine h.1
      · cases h
  | cancel =>
      rw [Life.step, Option.ite_none_right_eq_some] at h
      obtain rfl := Option.some.inj h.2
      exact .cancel h.1.1 h.1.2
  | cancelAnnounce env reached =>
      simp only [Life.step] at h
      split at h
      · rename_i tick hroutine
        rw [Option.ite_none_right_eq_some] at h
        obtain ⟨hcancelled, h⟩ := h
        unfold Life.interrupt at h
        split at h
        · rename_i hscheme
          obtain ⟨tracker, htracker, rfl⟩ := Option.map_eq_some_iff.mp h
          exact .cutUdp hroutine hcancelled hscheme htracker
        · rename_i hscheme
          obtain rfl := Option.some.inj h
          exact .cutHttp hroutine hcancelled hscheme
        · rename_i hscheme
          obtain rfl := Option.some.inj h
          exact .cutOther hroutine hcancelled hscheme
      · cases h

/-- The URL and the frequency stay. -/
theorem Life.Steps.constant (h : l.Steps a l') : l'.scheme = l.scheme ∧ l'.pollFreq = l.pollFreq := by
  cases h <;> exact ⟨rfl, rfl⟩

/-- A tracker that is stopped stays so. -/
theorem Life.Steps.stopped (h : l.Steps a l') (hs : l.stopped = true) : l'.stopped = true := by
  cases h <;> first | exact hs | rfl

/-! ## When announces are made -/

/-- The announces are made at the multiples of the frequency, and the thread is where it would be after
as many as there are in the log. -/
structure Life.OnSchedule (l : Life) : Prop where
  /-- Something is announced. -/
  scheme : l.scheme ≠ .other
  /-- The frequency. -/
  freq : 0 < l.pollFreq
  /-- The ticks of the log. -/
  ticks : l.log.map Announced.tick = (List.range l.log.length).map fun k : Nat => l.pollFreq * k
  /-- The thread has not begun. -/
  absent : l.routine = .absent → l.log = []
  /-- The ticks before this one are over. -/
  top : ∀ tick, l.routine = .top tick → 0 ≤ tick ∧
    l.pollFreq * (l.log.length - 1) < tick ∧ tick ≤ l.pollFreq * l.log.length
  /-- It is time. -/
  announcing : ∀ tick, l.routine = .announcing tick → tick = l.pollFreq * l.log.length
  /-- This tick is over. -/
  resting : ∀ tick, l.routine = .resting tick → 0 ≤ tick ∧
    l.pollFreq * (l.log.length - 1) ≤ tick ∧ tick < l.pollFreq * l.log.length

/-- A multiple between two others that follow each other. -/
theorem eq_mul_of_dvd {f tick : Int} {n : Nat} (hdvd : f ∣ tick) (hf : 0 < f)
    (hlow : f * (n - 1) < tick) (hhigh : tick ≤ f * n) : tick = f * n := by
  obtain ⟨k, rfl⟩ := hdvd
  have h1 : (n : Int) - 1 < k := lt_of_mul_lt_mul_left hlow hf.le
  have h2 : k ≤ (n : Int) := le_of_mul_le_mul_left hhigh hf
  rw [show k = (n : Int) by omega]

/-- An announce more. -/
theorem map_tick_concat {log : List Announced} {f : Int} {entry : Announced}
    (hticks : log.map Announced.tick = (List.range log.length).map fun k : Nat => f * k)
    (hentry : entry.tick = f * log.length) :
    (log ++ [entry]).map Announced.tick =
      (List.range (log ++ [entry]).length).map fun k : Nat => f * k := by
  simp [List.range_succ, hticks, hentry]

/-- The thread goes on; nothing is announced. -/
theorem Life.OnSchedule.goesOn (hl : l.OnSchedule) {routine : Routine} (habsent : routine ≠ .absent)
    (htop : ∀ tick, routine = .top tick → 0 ≤ tick ∧
      l.pollFreq * (l.log.length - 1) < tick ∧ tick ≤ l.pollFreq * l.log.length)
    (hannouncing : ∀ tick, routine = .announcing tick → tick = l.pollFreq * l.log.length)
    (hresting : ∀ tick, routine = .resting tick → 0 ≤ tick ∧
      l.pollFreq * (l.log.length - 1) ≤ tick ∧ tick < l.pollFreq * l.log.length) :
    Life.OnSchedule { l with routine := routine } where
  scheme := hl.scheme
  freq := hl.freq
  ticks := hl.ticks
  absent h := absurd h habsent
  top := htop
  announcing := hannouncing
  resting := hresting

/-- The thread announces. -/
theorem Life.OnSchedule.announces (hl : l.OnSchedule) {tick : Int} (hr : l.routine = .announcing tick)
    (tracker : TrackerT) (env : Env) :
    Life.OnSchedule { l with
      tracker := tracker
      routine := .resting tick
      log := l.log ++ [⟨tick, l.tracker, env⟩] } where
  scheme := hl.scheme
  freq := hl.freq
  ticks := map_tick_concat hl.ticks (hl.announcing tick hr)
  absent := nofun
  top := nofun
  announcing := nofun
  resting tick' htick := by
    obtain rfl := Routine.resting.inj htick
    have hf := hl.freq
    have htick := hl.announcing tick hr
    have hnext : l.pollFreq * ((l.log.length + 1 : Nat) : Int) = tick + l.pollFreq := by
      rw [htick]
      push_cast
      ring
    have hzero : 0 ≤ l.pollFreq * (l.log.length : Int) := mul_nonneg hf.le (Int.natCast_nonneg _)
    simp only [List.length_append, List.length_singleton, hnext, mul_sub, mul_one]
    omega

/-- The thread ends inside of an announce. -/
theorem Life.OnSchedule.cut (hl : l.OnSchedule) {tick : Int} (hr : l.routine = .announcing tick)
    (tracker : TrackerT) (env : Env) :
    Life.OnSchedule { l with
      tracker := tracker
      routine := .ended
      log := l.log ++ [⟨tick, l.tracker, env⟩] } where
  scheme := hl.scheme
  freq := hl.freq
  ticks := map_tick_concat hl.ticks (hl.announcing tick hr)
  absent := nofun
  top := nofun
  announcing := nofun
  resting := nofun

/-- **A step keeps to the schedule.** -/
theorem Life.OnSchedule.step (hl : l.OnSchedule) (h : l.Steps a l') : l'.OnSchedule := by
  have hf := hl.freq
  cases h with
  | start =>
      by_cases habsent : l.routine = .absent
      · have hlog := hl.absent habsent
        have hstart : l.start =
            { { l with tracker := trackerStart l.tracker } with routine := .top 0 } := by
          simp [Life.start, habsent]
        have hsame : Life.OnSchedule { l with tracker := trackerStart l.tracker } := { hl with }
        rw [hstart]
        apply hsame.goesOn (by simp) _ (by simp) (by simp)
        intro tick htick
        obtain rfl := Routine.top.inj htick
        simp only [hlog, List.length_nil]
        omega
      · have hstart : l.start = { l with tracker := trackerStart l.tracker } := by
          simp [Life.start, habsent]
        rw [hstart]
        exact { hl with }
  | stopAgain force hs => exact hl
  | stop hs => exact { hl with }
  | force hs habsent => exact { hl with }
  | finish hr hs => exact hl.goesOn (by simp) (by simp) (by simp) (by simp)
  | due hr hs hne hdvd =>
      apply hl.goesOn (by simp) (by simp) _ (by simp)
      intro tick htick
      obtain rfl := Routine.announcing.inj htick
      obtain ⟨-, hlow, hhigh⟩ := hl.top _ hr
      exact eq_mul_of_dvd hdvd hf hlow hhigh
  | skip hr hs hne hdvd =>
      apply hl.goesOn (by simp) (by simp) (by simp)
      intro tick htick
      obtain rfl := Routine.resting.inj htick
      obtain ⟨hzero, hlow, hhigh⟩ := hl.top _ hr
      exact ⟨hzero, hlow.le, lt_of_le_of_ne hhigh fun heq => hdvd ⟨_, heq⟩⟩
  | udp hr hscheme hcode => exact hl.announces hr _ _
  | http hr hscheme => exact hl.announces hr _ _
  | other hr hscheme => exact absurd hscheme hl.scheme
  | rest hr hlt =>
      apply hl.goesOn (by simp) _ (by simp) (by simp)
      intro tick htick
      obtain rfl := Routine.top.inj htick
      obtain ⟨hzero, hlow, hhigh⟩ := hl.resting _ hr
      omega
  | cancel hc hr => exact hl.goesOn (by simp) (by simp) (by simp) (by simp)
  | cutUdp hr hc hscheme htracker => exact hl.cut hr _ _
  | cutHttp hr hc hscheme => exact hl.cut hr _ _
  | cutOther hr hc hscheme => exact absurd hscheme hl.scheme

/-- A tracker whose thread has not begun is on schedule. -/
theorem Life.onSchedule_new (tracker : TrackerT) {scheme : Scheme} (hscheme : scheme ≠ .other)
    {pollFreq : Int} (hf : 0 < pollFreq) : (Life.new tracker scheme pollFreq).OnSchedule where
  scheme := hscheme
  freq := hf
  ticks := rfl
  absent _ := rfl
  top := nofun
  announcing := nofun
  resting := nofun

/-- With another scheme nothing is announced. -/
theorem Life.Steps.unknown (h : l.Steps a l') (hl : l.scheme = .other ∧ l.log = []) :
    l'.scheme = .other ∧ l'.log = [] := by
  have hother : ∀ {scheme : Scheme}, l.scheme = scheme → scheme ≠ .other → False :=
    fun heq hne => hne (heq.symm.trans hl.1)
  cases h with
  | udp hr hscheme _ => exact (hother hscheme nofun).elim
  | http hr hscheme => exact (hother hscheme nofun).elim
  | cutUdp hr _ hscheme _ => exact (hother hscheme nofun).elim
  | cutHttp hr _ hscheme => exact (hother hscheme nofun).elim
  | _ => exact hl

/-- **Announces are made on schedule.** Whatever calls are made of a tracker, and however they interleave
with its thread, the announces are made at the multiples of the frequency, one at each, in order; with a
scheme that is neither udp nor http there are none. -/
theorem announces_on_schedule (tracker : TrackerT) (scheme : Scheme) {pollFreq : Int} (hf : 0 < pollFreq)
    (acts : List LifeAction) (hrun : acts.foldlM Life.step (Life.new tracker scheme pollFreq) = some l) :
    (scheme ≠ .other →
      l.log.map Announced.tick = (List.range l.log.length).map fun k : Nat => pollFreq * k) ∧
    (scheme = .other → l.log = []) := by
  constructor
  · intro hscheme
    have hschedule : l.OnSchedule := invariant_of_steps (Life.onSchedule_new tracker hscheme hf)
      (fun _ _ _ hl hstep => hl.step (Life.steps_of_step hstep)) hrun
    have hfreq : l.pollFreq = pollFreq := invariant_of_steps
      (I := fun l : Life => l.pollFreq = pollFreq) rfl
      (fun _ _ _ hl hstep => (Life.steps_of_step hstep).constant.2.trans hl) hrun
    rw [hschedule.ticks, hfreq]
  · rintro rfl
    exact (invariant_of_steps (I := fun l : Life => l.scheme = .other ∧ l.log = []) ⟨rfl, rfl⟩
      (fun _ _ _ hl hstep => (Life.steps_of_step hstep).unknown hl) hrun).2

/-- A tracker that is started, announces every other second, and is stopped during its second announce. -/
def twoAnnounces : List LifeAction :=
  [.start, .check, .announce silent, .rest, .check, .rest, .check, .stop false, .announce silent, .rest,
    .check]

/-- The announces are made at the ticks 0 and 2. -/
theorem announces_on_schedule_example :
    ∃ l, twoAnnounces.foldlM Life.step (Life.new ⟨0, 0, [], true⟩ .udp 2) = some l ∧
      l.log.map Announced.tick = [0, 2] := by
  obtain ⟨l, hrun, hlen⟩ : ∃ l, twoAnnounces.foldlM Life.step (Life.new ⟨0, 0, [], true⟩ .udp 2) = some l ∧
      l.log.length = 2 := ⟨_, rfl, rfl⟩
  have hticks := (announces_on_schedule ⟨0, 0, [], true⟩ .udp (by decide) twoAnnounces hrun).1 nofun
  rw [hlen] at hticks
  exact ⟨l, hrun, hticks⟩

/-! ## What a stop does -/

/-- The steps a thread can still take once its tracker is stopped. -/
def Routine.left : Routine → Nat
  | .absent => 1
  | .top _ => 1
  | .announcing _ => 3
  | .resting _ => 2
  | .ended => 0

/-- The announces among them. -/
def Routine.pending : Routine → Nat
  | .announcing _ => 1
  | _ => 0

/-- The step is one of the thread. -/
def LifeAction.OfThread : LifeAction → Bool
  | .start | .stop _ => false
  | _ => true

/-- **A step of a thread whose tracker is stopped** is one of the last. -/
theorem Life.Steps.winds_down (h : l.Steps a l') (hs : l.stopped = true) :
    (if a.OfThread then 1 else 0) + l'.routine.left ≤ l.routine.left ∧
      l'.log.length + l'.routine.pending ≤ l.log.length + l.routine.pending := by
  cases h with
  | start =>
      by_cases habsent : l.routine = .absent
      · simp [Life.start, habsent, LifeAction.OfThread, Routine.left, Routine.pending]
      · simp [Life.start, habsent, LifeAction.OfThread]
  | stopAgain force _ => exact ⟨by simp [LifeAction.OfThread], le_rfl⟩
  | stop h0 => rw [hs] at h0; cases h0
  | force h0 _ => rw [hs] at h0; cases h0
  | finish hr _ => simp [LifeAction.OfThread, hr, Routine.left, Routine.pending]
  | due hr h0 _ _ => rw [hs] at h0; cases h0
  | skip hr h0 _ _ => rw [hs] at h0; cases h0
  | udp hr _ _ => simp [LifeAction.OfThread, hr, Routine.left, Routine.pending]
  | http hr _ => simp [LifeAction.OfThread, hr, Routine.left, Routine.pending]
  | other hr _ => simp [LifeAction.OfThread, hr, Routine.left, Routine.pending]
  | cutUdp hr _ _ _ => simp [LifeAction.OfThread, hr, Routine.left, Routine.pending]
  | cutHttp hr _ _ => simp [LifeAction.OfThread, hr, Routine.left, Routine.pending]
  | cutOther hr _ _ => simp [LifeAction.OfThread, hr, Routine.left, Routine.pending]
  | rest hr _ => simp [LifeAction.OfThread, hr, Routine.left, Routine.pending]
  | cancel _ hr =>
      have hleft : 1 ≤ l.routine.left := by
        cases hroutine : l.routine with
        | ended => exact absurd hroutine hr
        | _ => simp [Routine.left]
      simpa [LifeAction.OfThread, Routine.left, Routine.pending] using hleft

/-- **A tracker that is stopped winds down.** Whatever calls follow, its thread takes three steps at most
and makes one announce at most: the one it had begun. A call of `tracker_start` makes no difference. -/
theorem stopped_winds_down (hs : l.stopped = true) (acts : List LifeAction)
    (hrun : acts.foldlM Life.step l = some l') :
    l'.stopped = true ∧ acts.countP LifeAction.OfThread + l'.routine.left ≤ l.routine.left ∧
      l'.log.length + l'.routine.pending ≤ l.log.length + l.routine.pending := by
  induction acts generalizing l with
  | nil =>
      obtain rfl := Option.some.inj hrun
      exact ⟨hs, by simp, le_rfl⟩
  | cons a acts ih =>
      rw [List.foldlM_cons, Option.bind_eq_bind, Option.bind_eq_some_iff] at hrun
      obtain ⟨l₁, hstep, hrest⟩ := hrun
      have hsteps := Life.steps_of_step hstep
      obtain ⟨hleft, hlog⟩ := hsteps.winds_down hs
      obtain ⟨hs', hleft', hlog'⟩ := ih (hsteps.stopped hs) hrest
      rw [List.countP_cons]
      exact ⟨hs', by omega, hlog'.trans hlog⟩

/-- A tracker that is stopped while its thread announces. -/
def stoppedLate : Life :=
  { Life.new ⟨3, 0, [], true⟩ .http 30 with stopped := true, routine := .announcing 60 }

/-- It is started again, and winds down. -/
theorem stopped_winds_down_example :
    ∃ l, [.announce silent, .start, .rest, .check].foldlM Life.step stoppedLate = some l ∧
      l.stopped = true ∧ 3 + l.routine.left ≤ 3 ∧ l.log.length + l.routine.pending ≤ 1 := by
  obtain ⟨l, hrun⟩ : ∃ l,
      [.announce silent, .start, .rest, .check].foldlM Life.step stoppedLate = some l := ⟨_, rfl⟩
  exact ⟨l, hrun, stopped_winds_down rfl _ hrun⟩

/-! ## Going on -/

/-- A call that receives nothing returns. -/
theorem code_silent (t : TrackerT) : (trackerAnnounceUdp t silent).code ≠ none := by
  have hannounce : ∀ t : TrackerT, (announce t silent).code = some 0 := fun t => rfl
  by_cases ht : t.sockFd = -1
  · have hsock : ¬ SocketFails silent := by decide
    rw [trackerAnnounceUdp_of_connects ht hsock]
    have hbad : (connect { t with sockFd := (createUdpSocket silent (-1)).2 } silent).code = some (-1) :=
      rfl
    simp [hbad]
  · rw [trackerAnnounceUdp_of_connected ht, hannounce]
    simp

/-- The thread can come to one more announce. -/
def Life.CanAnnounce (l : Life) : Prop :=
  ∃ (acts : List LifeAction) (l' : Life), (∀ a ∈ acts, a.OfThread = true) ∧
    acts.foldlM Life.step l = some l' ∧ l'.log.length = l.log.length + 1

/-- A step that announces nothing makes no difference. -/
theorem Life.CanAnnounce.of_step (ha : a.OfThread = true) (hstep : l.step a = some l')
    (hlog : l'.log = l.log) (h : l'.CanAnnounce) : l.CanAnnounce := by
  obtain ⟨acts, l'', hacts, hrun, hlen⟩ := h
  refine ⟨a :: acts, l'', ?_, ?_, by rw [hlen, hlog]⟩
  · simpa [ha] using hacts
  · rw [List.foldlM_cons, hstep, Option.bind_eq_bind, Option.bind_some, hrun]

/-- A thread that is about to announce can. -/
theorem Life.canAnnounce_of_announcing (hscheme : l.scheme ≠ .other) {tick : Int}
    (hr : l.routine = .announcing tick) : l.CanAnnounce := by
  obtain ⟨l', hstep, hlen⟩ : ∃ l', l.step (.announce silent) = some l' ∧
      l'.log.length = l.log.length + 1 := by
    simp only [Life.step, hr, Life.announce]
    split
    · exact ⟨_, if_pos (Option.isSome_iff_ne_none.mpr (code_silent l.tracker)), by simp⟩
    · exact ⟨_, rfl, by simp⟩
    · rename_i hother
      exact absurd hother hscheme
  refine ⟨[.announce silent], l', by simp [LifeAction.OfThread], ?_, hlen⟩
  rw [List.foldlM_cons, hstep]
  rfl

/-- Nor need it wait for ever. The induction is on the time to the next announce. -/
theorem Life.OnSchedule.canAnnounce_of_top (hl : l.OnSchedule) (hs : l.stopped = false)
    (hroom : l.pollFreq * l.log.length ≤ intMax) {tick : Int} (hr : l.routine = .top tick) :
    l.CanAnnounce := by
  obtain ⟨d, hd⟩ : ∃ d : Nat, l.pollFreq * l.log.length - tick = d :=
    ⟨(l.pollFreq * l.log.length - tick).toNat, by
      have := (hl.top tick hr).2.2
      omega⟩
  have hf : l.pollFreq ≠ 0 := ne_of_gt hl.freq
  induction d generalizing l tick with
  | zero =>
      have hdue : tick.tmod l.pollFreq = 0 :=
        Int.tmod_eq_zero_of_dvd ⟨l.log.length, by omega⟩
      have hstep : l.step .check = some { l with routine := .announcing tick } := by
        simp [Life.step, hr, Life.check, hs, hf, hdue]
      exact .of_step rfl hstep rfl (Life.canAnnounce_of_announcing hl.scheme rfl)
  | succ d ih =>
      by_cases hdue : tick.tmod l.pollFreq = 0
      · have hstep : l.step .check = some { l with routine := .announcing tick } := by
          simp [Life.step, hr, Life.check, hs, hf, hdue]
        exact .of_step rfl hstep rfl (Life.canAnnounce_of_announcing hl.scheme rfl)
      · have hskip : l.step .check = some { l with routine := .resting tick } := by
          simp [Life.step, hr, Life.check, hs, hf, hdue]
        have hlt : tick < intMax := by omega
        have hrest : Life.step { l with routine := .resting tick } .rest =
            some { l with routine := .top (tick + 1) } := by
          simp [Life.step, hlt]
        have hnext := (hl.step (Life.steps_of_step hskip)).step (Life.steps_of_step hrest)
        refine .of_step rfl hskip rfl (.of_step rfl hrest rfl ?_)
        refine ih hnext hs hroom rfl ?_ hf
        show l.pollFreq * l.log.length - (tick + 1) = d
        push_cast at hd
        omega

/-- **A tracker that is not stopped goes on**: its thread can always come to one more announce, until
`tick` is as large as an `int` can be. -/
theorem Life.OnSchedule.canAnnounce (hl : l.OnSchedule) (hs : l.stopped = false)
    (hthere : l.routine ≠ .absent) (hgoing : l.routine ≠ .ended)
    (hroom : l.pollFreq * l.log.length ≤ intMax) : l.CanAnnounce := by
  cases hr : l.routine with
  | absent => exact absurd hr hthere
  | top tick => exact hl.canAnnounce_of_top hs hroom hr
  | announcing tick => exact Life.canAnnounce_of_announcing hl.scheme hr
  | resting tick =>
      have hlt : tick < intMax := by
        have := (hl.resting tick hr).2.2
        omega
      have hrest : l.step .rest = some { l with routine := .top (tick + 1) } := by
        simp [Life.step, hr, hlt]
      have hnext := hl.step (Life.steps_of_step hrest)
      exact .of_step rfl hrest rfl (hnext.canAnnounce_of_top hs hroom rfl)
  | ended => exact absurd hr hgoing

/-! ## Between two starts -/

/-- What the announces meet. -/
def envsOf (acts : List LifeAction) : List Env :=
  acts.filterMap fun
    | .announce env => some env
    | _ => none

/-- One call more, after calls that return. -/
theorem calls_concat {t : TrackerT} {envs : List Env} (env : Env)
    (hcodes : ∀ c ∈ calls t envs, (trackerAnnounceUdp c.1 c.2).code ≠ none) :
    calls t (envs ++ [env]) = calls t envs ++ [(trackerAfter t envs, env)] ∧
      trackerAfter t (envs ++ [env]) = (trackerAnnounceUdp (trackerAfter t envs) env).tracker := by
  induction envs generalizing t with
  | nil => simp [calls, trackerAfter]
  | cons e envs ih =>
      have hcode : (trackerAnnounceUdp t e).code.isSome :=
        Option.isSome_iff_ne_none.mpr (hcodes (t, e) (by simp [calls]))
      obtain ⟨hcalls, hafter⟩ := ih fun c hc => hcodes c (by
        rw [calls, if_pos hcode]
        exact List.mem_cons_of_mem _ hc)
      constructor
      · rw [List.cons_append, calls, if_pos hcode, hcalls, calls, if_pos hcode, trackerAfter, if_pos hcode]
        rfl
      · rw [List.cons_append, trackerAfter, if_pos hcode, hafter, trackerAfter, if_pos hcode]

/-- The thread is not inside of an announce, and was not told to end. -/
structure Life.Idle (l : Life) : Prop where
  /-- What an announce writes is not written under it. -/
  between : ∀ tick, l.routine ≠ .announcing tick
  /-- It goes on. -/
  cancelled : l.cancelled = false

/-- The calls a thread that is not cancelled has made since a call of `tracker_start` for the tracker `t`,
after which the log was `log`. -/
structure Life.Since (log : List Announced) (t : TrackerT) (envs : List Env) (l : Life) : Prop where
  /-- The URL. -/
  scheme : l.scheme = .udp
  /-- It was not told to end. -/
  cancelled : l.cancelled = false
  /-- The log. -/
  log_eq : ∃ made, l.log = log ++ made ∧ made.map (fun e => (e.before, e.env)) = calls t envs
  /-- The tracker. -/
  tracker : l.tracker = trackerAfter t envs
  /-- The calls return. -/
  codes : ∀ c ∈ calls t envs, (trackerAnnounceUdp c.1 c.2).code ≠ none

/-- A step, other than a start or a stop by force, is a call more or none. -/
theorem Life.Since.step {log : List Announced} {t : TrackerT} {envs : List Env}
    (hl : l.Since log t envs) (h : l.Steps a l') (ha : a ≠ .start) (hforce : a ≠ .stop true) :
    l'.Since log t (envs ++ envsOf [a]) := by
  obtain ⟨hscheme, hcancelled, hlog, htracker, hcodes⟩ := hl
  have hgoes : l.cancelled ≠ true := by simp [hcancelled]
  cases h with
  | start => exact absurd rfl ha
  | force _ _ => exact absurd rfl hforce
  | cancel hc _ => exact absurd hc hgoes
  | cutUdp _ hc _ _ => exact absurd hc hgoes
  | cutHttp _ hc _ => exact absurd hc hgoes
  | cutOther _ hc _ => exact absurd hc hgoes
  | @udp tick env hr _ hcode =>
      obtain ⟨made, hmade, hcalls⟩ := hlog
      obtain ⟨hconcat, hafter⟩ := calls_concat env hcodes
      rw [htracker] at hcode
      refine ⟨hscheme, hcancelled, ⟨made ++ [⟨tick, l.tracker, env⟩], ?_, ?_⟩, ?_, ?_⟩
      · simp [hmade]
      · rw [List.map_append, hcalls, htracker]
        exact hconcat.symm
      · rw [htracker]
        exact hafter.symm
      · intro c hc
        rw [show envsOf [.announce env] = [env] from rfl, hconcat, List.mem_append,
          List.mem_singleton] at hc
        rcases hc with hc | rfl
        · exact hcodes c hc
        · exact hcode
  | http _ hhttp => exact absurd (hscheme.symm.trans hhttp) nofun
  | other _ hother => exact absurd (hscheme.symm.trans hother) nofun
  | _ =>
      rw [show envsOf _ = [] from rfl, List.append_nil]
      exact ⟨hscheme, hcancelled, hlog, htracker, hcodes⟩

/-- **The announces are a run.** From a call of `tracker_start` that finds no announce going on to the
next, the thread calls `tracker_announce_udp` one time after the other, from a tracker without a socket,
whatever calls of `tracker_stop` are made without force: its events are the history of these calls. -/
theorem announces_are_calls (hscheme : l.scheme = .udp) (hidle : l.Idle) (acts : List LifeAction)
    (hacts : ∀ a ∈ acts, a ≠ .start ∧ a ≠ .stop true)
    (hrun : acts.foldlM Life.step l.start = some l') :
    ∃ made, l'.log = l.log ++ made ∧
      made.map (fun e => (e.before, e.env)) = calls (trackerStart l.tracker) (envsOf acts) ∧
      made.flatMap (fun e => (trackerAnnounceUdp e.before e.env).events) =
        history (trackerStart l.tracker) (envsOf acts) ∧
      l'.tracker = trackerAfter (trackerStart l.tracker) (envsOf acts) := by
  have hsince : l'.Since l.log (trackerStart l.tracker) (envsOf acts) := by
    induction acts using List.reverseRecOn generalizing l' with
    | nil =>
        obtain rfl := Option.some.inj hrun
        exact ⟨hscheme, hidle.cancelled, ⟨[], by simp [Life.start], rfl⟩, rfl, by simp [envsOf, calls]⟩
    | append_singleton acts a ih =>
        obtain ⟨l₁, hbefore, hstep⟩ := foldlM_concat_eq_some_iff.mp hrun
        have hsince := ih (fun b hb => hacts b (List.mem_append_left _ hb)) hbefore
        obtain ⟨hstart, hforce⟩ := hacts a (by simp)
        rw [envsOf, List.filterMap_append, ← envsOf, ← envsOf]
        exact hsince.step (Life.steps_of_step hstep) hstart hforce
  obtain ⟨made, hlog, hcalls⟩ := hsince.log_eq
  refine ⟨made, hlog, hcalls, ?_, hsince.tracker⟩
  rw [history, ← hcalls, List.flatMap_map]

/-- Two announces after a start. -/
theorem announces_are_calls_example :
    ∃ l, twoAnnounces.tail.foldlM Life.step (Life.new ⟨0, 0, [], true⟩ .udp 2).start = some l ∧
      ∃ made, l.log = [] ++ made ∧
        made.map (fun e => (e.before, e.env)) = calls (trackerStart ⟨0, 0, [], true⟩) [silent, silent] ∧
        made.flatMap (fun e => (trackerAnnounceUdp e.before e.env).events) =
          history (trackerStart ⟨0, 0, [], true⟩) [silent, silent] ∧
        l.tracker = trackerAfter (trackerStart ⟨0, 0, [], true⟩) [silent, silent] := by
  obtain ⟨l, hrun⟩ : ∃ l, twoAnnounces.tail.foldlM Life.step (Life.new ⟨0, 0, [], true⟩ .udp 2).start =
      some l := ⟨_, rfl⟩
  refine ⟨l, hrun, announces_are_calls (l := Life.new ⟨0, 0, [], true⟩ .udp 2) rfl ⟨nofun, rfl⟩ _ ?_ hrun⟩
  simp [twoAnnounces]

end Flood.Tracker
