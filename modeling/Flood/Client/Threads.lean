import Flood.Lib.Runs
import Flood.Lib.Writing
import Flood.Peer.Bitfield

/-!
# Peer threads

The threads that `client_start_peer_threads` starts, each in the loop of `peer_thread_routine`, over
one list of peers.

* `step` — a thread scans the list under the mutex and selects the first new peer; it claims the peer
  it selected and enters `peer_communication`; it leaves `peer_communication`. The lock is released
  between the first two.
* `Exclusive` — no two threads communicate with one peer. `claimsNoBad` — a claim is not of a peer
  given up before.
* `Undisputed` — a scan does not select a peer that another thread has selected and not yet claimed.
* `exclusive_of_undisputed` — runs without disputed scans are exclusive, and a disputed scan can
  always be continued to a run that is not.
-/

namespace Flood.Client

open Flood.Lib Flood.Peer

/-- Where a thread is in the loop of `peer_thread_routine`. Peers are numbered by their place in the
list. -/
inductive ThreadState where
  /-- Before the scan. -/
  | idle
  /-- Between the unlock after the scan and the write of the status. -/
  | selected (p : Nat)
  /-- In `peer_communication`. -/
  | communicating (p : Nat)
  deriving DecidableEq

/-- The statuses of the peers, and the threads. -/
structure Threads where
  /-- The status of each peer of the list. -/
  peers : List PeerStatus
  /-- The threads. -/
  threads : List ThreadState
  deriving DecidableEq

/-- What a thread does next. -/
inductive Action where
  /-- Thread `t` scans the list. -/
  | scan (t : Nat)
  /-- Thread `t` claims the peer it selected. -/
  | claim (t : Nat)
  /-- Thread `t` leaves `peer_communication`. -/
  | leave (t : Nat)
  deriving DecidableEq

/-- The loop under the mutex: the first new peer. -/
def selectNew (peers : List PeerStatus) : Option Nat := peers.findIdx? (· = .new)

/-- One step of one thread. `peer_communication` sets the status to bad on each of its returns.
Source: `client.c`, `peer_thread_routine` -/
def step (s : Threads) : Action → Option Threads
  | .scan t =>
      if s.threads[t]? = some .idle then
        match selectNew s.peers with
        | some p => some { s with threads := s.threads.set t (.selected p) }
        | none => some s
      else none
  | .claim t =>
      match s.threads[t]? with
      | some (.selected p) =>
          some ⟨s.peers.set p .inUse, s.threads.set t (.communicating p)⟩
      | _ => none
  | .leave t =>
      match s.threads[t]? with
      | some (.communicating p) => some ⟨s.peers.set p .bad, s.threads.set t .idle⟩
      | _ => none

/-- `threads` threads and `peers` peers, all of them new.
Source: `client.c`, `client_start_peer_threads` -/
def startThreads (peers threads : Nat) : Threads :=
  ⟨List.replicate peers .new, List.replicate threads .idle⟩

variable {s s' : Threads} {a : Action} {acts : List Action}

/-- No two threads communicate with one peer. -/
def Exclusive (s : Threads) : Prop :=
  ∀ t t' p : Nat, s.threads[t]? = some (.communicating p) → s.threads[t']? = some (.communicating p) →
    t = t'

/-- The action does not begin to communicate with a peer given up before. -/
def ClaimsNoBad (s : Threads) (a : Action) : Prop :=
  ∀ t p : Nat, a = .claim t → s.threads[t]? = some (.selected p) → s.peers[p]? ≠ some .bad

/-- The action does not select a peer that another thread has selected and not yet claimed. -/
def Undisputed (s : Threads) (a : Action) : Prop :=
  ∀ t p : Nat, a = .scan t → selectNew s.peers = some p → ∀ t' : Nat, s.threads[t']? ≠ some (.selected p)

/-! ## What one step can do -/

/-- What a step can do. -/
theorem step_cases (h : step s a = some s') :
    (∃ t, a = .scan t ∧ s.threads[t]? = some .idle ∧ selectNew s.peers = none ∧ s' = s) ∨
    (∃ t p, a = .scan t ∧ s.threads[t]? = some .idle ∧ selectNew s.peers = some p ∧
      s' = { s with threads := s.threads.set t (.selected p) }) ∨
    (∃ t p, a = .claim t ∧ s.threads[t]? = some (.selected p) ∧
      s' = ⟨s.peers.set p .inUse, s.threads.set t (.communicating p)⟩) ∨
    (∃ t p, a = .leave t ∧ s.threads[t]? = some (.communicating p) ∧
      s' = ⟨s.peers.set p .bad, s.threads.set t .idle⟩) := by
  cases a with
  | scan t =>
      rw [step] at h
      split_ifs at h with hidle
      cases hsel : selectNew s.peers with
      | none =>
          rw [hsel] at h
          exact Or.inl ⟨t, rfl, hidle, rfl, (Option.some.inj h).symm⟩
      | some p =>
          rw [hsel] at h
          exact Or.inr (Or.inl ⟨t, p, rfl, hidle, rfl, (Option.some.inj h).symm⟩)
  | claim t =>
      rw [step] at h
      split at h
      · next p hp => exact Or.inr (Or.inr (Or.inl ⟨t, p, rfl, hp, (Option.some.inj h).symm⟩))
      · exact absurd h (by simp)
  | leave t =>
      rw [step] at h
      split at h
      · next p hp => exact Or.inr (Or.inr (Or.inr ⟨t, p, rfl, hp, (Option.some.inj h).symm⟩))
      · exact absurd h (by simp)

/-- The peer selected is new. -/
theorem selectNew_spec {peers : List PeerStatus} {p : Nat} (h : selectNew peers = some p) :
    peers[p]? = some .new := by
  obtain ⟨hlt, hnew, _⟩ := List.findIdx?_eq_some_iff_getElem.mp h
  rw [List.getElem?_eq_getElem hlt, of_decide_eq_true hnew]

/-! ## The invariant -/

/-- The peer a thread has, from its scan to its return. -/
def ThreadState.holds : ThreadState → Option Nat
  | .idle => none
  | .selected p => some p
  | .communicating p => some p

/-- No two threads have one peer, and its status says how far the thread is. -/
structure Inv (s : Threads) : Prop where
  /-- No two threads have one peer. -/
  exclusive : ∀ t t' p : Nat, s.threads[t]?.bind ThreadState.holds = some p →
    s.threads[t']?.bind ThreadState.holds = some p → t = t'
  /-- A peer selected is new. -/
  selected : ∀ t p : Nat, s.threads[t]? = some (.selected p) → s.peers[p]? = some .new
  /-- A peer communicated with is in use. -/
  communicating : ∀ t p : Nat, s.threads[t]? = some (.communicating p) → s.peers[p]? = some .inUse

/-- At first no thread has a peer. -/
theorem inv_startThreads (peers threads : Nat) : Inv (startThreads peers threads) := by
  have hidle : ∀ (t : Nat) (th : ThreadState),
      (startThreads peers threads).threads[t]? = some th → th = .idle := by
    intro t th h
    exact List.eq_of_mem_replicate (List.mem_of_getElem? h)
  constructor
  · intro t t' p h _
    obtain ⟨th, hth, hp⟩ := Option.bind_eq_some_iff.mp h
    rw [hidle t th hth] at hp
    exact absurd hp (by simp [ThreadState.holds])
  · intro t p h
    exact absurd (hidle t _ h) (by simp)
  · intro t p h
    exact absurd (hidle t _ h) (by simp)

/-- The peer a thread has. -/
theorem holds_of_getElem? {t p : Nat} {th : ThreadState} (h : s.threads[t]? = some th)
    (hp : th.holds = some p) : s.threads[t]?.bind ThreadState.holds = some p := by
  rw [h]
  exact hp

/-- **An undisputed scan keeps the invariant.** The peer it selects is new, so no thread
communicates with it, and no thread has selected it. -/
theorem inv_scan {t p : Nat} (hi : Inv s) (hidle : s.threads[t]? = some .idle)
    (hsel : selectNew s.peers = some p)
    (hfree : ∀ t' : Nat, s.threads[t']? ≠ some (.selected p)) :
    Inv { s with threads := s.threads.set t (.selected p) } := by
  have hset := getElem?_set_of_some hidle (.selected p)
  have hnew := selectNew_spec hsel
  have hnone : ∀ t' : Nat, s.threads[t']?.bind ThreadState.holds ≠ some p := by
    intro t' h
    obtain ⟨th, hth, hp⟩ := Option.bind_eq_some_iff.mp h
    cases th with
    | idle => exact absurd hp (by simp [ThreadState.holds])
    | selected q =>
        obtain rfl := Option.some.inj hp
        exact hfree t' hth
    | communicating q =>
        obtain rfl := Option.some.inj hp
        have huse := hi.communicating t' q hth
        rw [hnew] at huse
        exact absurd huse (by simp)
  constructor
  · intro t₁ t₂ q h₁ h₂
    simp only [hset] at h₁ h₂
    split_ifs at h₁ h₂ with ht₁ ht₂ ht₂
    · exact ht₁.symm.trans ht₂
    · obtain rfl : p = q := Option.some.inj h₁
      exact absurd h₂ (hnone t₂)
    · obtain rfl : p = q := Option.some.inj h₂
      exact absurd h₁ (hnone t₁)
    · exact hi.exclusive t₁ t₂ q h₁ h₂
  · intro t₁ q h₁
    simp only [hset] at h₁
    split_ifs at h₁ with ht₁
    · cases h₁
      exact hnew
    · exact hi.selected t₁ q h₁
  · intro t₁ q h₁
    simp only [hset] at h₁
    split_ifs at h₁ with ht₁
    · exact absurd h₁ (by simp)
    · exact hi.communicating t₁ q h₁

/-- **A thread that has a peer goes on with it**, or leaves it, and writes its status: no other
thread is touched by that. -/
theorem inv_progress {t p : Nat} {th th' : ThreadState} {status : PeerStatus} (hi : Inv s)
    (hth : s.threads[t]? = some th) (hp : th.holds = some p)
    (hth' : th' = .communicating p ∧ status = .inUse ∨ th' = .idle) (hin : p < s.peers.length) :
    Inv ⟨s.peers.set p status, s.threads.set t th'⟩ := by
  have hset := getElem?_set_of_some hth th'
  have hold := holds_of_getElem? hth hp
  -- what a thread has now it had before
  have hback : ∀ (t₁ q : Nat), (s.threads.set t th')[t₁]?.bind ThreadState.holds = some q →
      s.threads[t₁]?.bind ThreadState.holds = some q := by
    intro t₁ q h
    rw [hset] at h
    split_ifs at h with ht
    · subst ht
      rcases hth' with ⟨rfl, _⟩ | rfl
      · exact hold.trans h
      · exact absurd h (by simp [ThreadState.holds])
    · exact h
  have hother : ∀ (t₁ q : Nat), t ≠ t₁ → s.threads[t₁]?.bind ThreadState.holds = some q →
      (s.peers.set p status)[q]? = s.peers[q]? := by
    intro t₁ q ht hq
    rw [List.getElem?_set_ne]
    rintro rfl
    exact ht (hi.exclusive t t₁ p hold hq)
  constructor
  · intro t₁ t₂ q h₁ h₂
    exact hi.exclusive t₁ t₂ q (hback t₁ q h₁) (hback t₂ q h₂)
  · intro t₁ q h₁
    simp only [hset] at h₁
    split_ifs at h₁ with ht
    · rcases hth' with ⟨rfl, _⟩ | rfl <;> exact absurd h₁ (by simp)
    · show (s.peers.set p status)[q]? = _
      rw [hother t₁ q ht (holds_of_getElem? h₁ rfl)]
      exact hi.selected t₁ q h₁
  · intro t₁ q h₁
    simp only [hset] at h₁
    split_ifs at h₁ with ht
    · rcases hth' with ⟨rfl, rfl⟩ | rfl
      · cases h₁
        exact List.getElem?_set_self hin
      · exact absurd h₁ (by simp)
    · show (s.peers.set p status)[q]? = _
      rw [hother t₁ q ht (holds_of_getElem? h₁ rfl)]
      exact hi.communicating t₁ q h₁

/-- **One undisputed step keeps the invariant.** -/
theorem inv_step (hi : Inv s) (hu : Undisputed s a) (h : step s a = some s') : Inv s' := by
  rcases step_cases h with ⟨t, rfl, _, _, rfl⟩ | ⟨t, p, rfl, hidle, hsel, rfl⟩ |
    ⟨t, p, rfl, hth, rfl⟩ | ⟨t, p, rfl, hth, rfl⟩
  · exact hi
  · exact inv_scan hi hidle hsel (hu t p rfl hsel)
  · have hnew := hi.selected t p hth
    exact inv_progress hi hth rfl (Or.inl ⟨rfl, rfl⟩) (List.getElem?_eq_some_iff.mp hnew).1
  · have huse := hi.communicating t p hth
    exact inv_progress hi hth rfl (Or.inr rfl) (List.getElem?_eq_some_iff.mp huse).1

/-! ## Runs -/

/-- The invariant keeps threads apart. -/
theorem Inv.isExclusive (hi : Inv s) : Exclusive s := fun t t' p ht ht' =>
  hi.exclusive t t' p (holds_of_getElem? ht rfl) (holds_of_getElem? ht' rfl)

/-- The invariant keeps threads from peers given up. -/
theorem Inv.claimsNoBad (hi : Inv s) (a : Action) : ClaimsNoBad s a := by
  intro t p _ ht
  rw [hi.selected t p ht]
  simp

/-- **A disputed scan can be continued to a run in which two threads have one peer.** -/
theorem not_exclusive_of_disputed {t t' p : Nat} (hidle : s.threads[t]? = some .idle)
    (hsel : selectNew s.peers = some p) (ht' : s.threads[t']? = some (.selected p)) :
    ∃ s', [Action.scan t, .claim t', .claim t].foldlM step s = some s' ∧ ¬ Exclusive s' := by
  have hne : t ≠ t' := by
    rintro rfl
    rw [hidle] at ht'
    exact absurd ht' (by simp)
  have hset := getElem?_set_of_some hidle (.selected p)
  have ht₁ : (s.threads.set t (.selected p))[t']? = some (.selected p) := by
    rw [hset, if_neg hne, ht']
  have hset' := getElem?_set_of_some ht₁ (.communicating p)
  have ht₂ : ((s.threads.set t (.selected p)).set t' (.communicating p))[t]? =
      some (.selected p) := by
    rw [hset', if_neg hne.symm, hset, if_pos rfl]
  have hset'' := getElem?_set_of_some ht₂ (.communicating p)
  refine ⟨⟨(s.peers.set p .inUse).set p .inUse,
    ((s.threads.set t (.selected p)).set t' (.communicating p)).set t (.communicating p)⟩, ?_, ?_⟩
  · have h₁ : step s (.scan t) = some { s with threads := s.threads.set t (.selected p) } := by
      rw [step, if_pos hidle, hsel]
    have h₂ : step { s with threads := s.threads.set t (.selected p) } (.claim t') = some
        ⟨s.peers.set p .inUse,
          (s.threads.set t (.selected p)).set t' (.communicating p)⟩ := by
      simp only [step, ht₁]
    have h₃ : step ⟨s.peers.set p .inUse,
        (s.threads.set t (.selected p)).set t' (.communicating p)⟩ (.claim t) = some
        ⟨(s.peers.set p .inUse).set p .inUse,
          ((s.threads.set t (.selected p)).set t' (.communicating p)).set t
            (.communicating p)⟩ := by
      simp only [step, ht₂]
    rw [List.foldlM_cons, h₁, Option.bind_eq_bind, Option.bind_some, List.foldlM_cons, h₂,
      Option.bind_eq_bind, Option.bind_some, List.foldlM_cons, h₃]
    rfl
  · intro hex
    refine hne (hex t t' p ?_ ?_)
    · exact (hset'' t).trans (if_pos rfl)
    · refine (hset'' t').trans ?_
      rw [if_neg hne, hset', if_pos rfl]

/-- **A peer is worked on by at most one thread** in every state of a run whose scans are undisputed,
and no peer given up is communicated with again. A disputed scan after such a run, or any other, can
be continued to a state in which two threads communicate with one peer. -/
theorem exclusive_of_undisputed (peers threads : Nat) (acts : List Action)
    (hu : StepsMeet step (startThreads peers threads) acts Undisputed) :
    (∀ pre post s, acts = pre ++ post → pre.foldlM step (startThreads peers threads) = some s →
        Exclusive s) ∧
      StepsMeet step (startThreads peers threads) acts ClaimsNoBad ∧
      ∀ s t s', acts.foldlM step (startThreads peers threads) = some s →
        step s (.scan t) = some s' → ¬ Undisputed s (.scan t) →
        ∃ more s'', (acts ++ Action.scan t :: more).foldlM step (startThreads peers threads) =
          some s'' ∧ ¬ Exclusive s'' := by
  have hinv : ∀ pre post s, acts = pre ++ post →
      pre.foldlM step (startThreads peers threads) = some s → Inv s := by
    intro pre post s hpre hrun
    have hupre : StepsMeet step (startThreads peers threads) pre Undisputed := by
      rw [hpre] at hu
      exact hu.of_append
    exact invariant_of_stepsMeet (inv_startThreads peers threads)
      (fun _ _ _ hi hok hstep => inv_step hi hok hstep) hupre hrun
  refine ⟨fun pre post s hpre hrun => (hinv pre post s hpre hrun).isExclusive,
    fun pre a post s hpre hrun => (hinv pre (a :: post) s hpre hrun).claimsNoBad a, ?_⟩
  intro s t s' hrun hstep hdisputed
  rw [Undisputed] at hdisputed
  push Not at hdisputed
  obtain ⟨t₀, p, ht₀, hsel, t', ht'⟩ := hdisputed
  obtain rfl := Action.scan.inj ht₀
  have hidle : s.threads[t]? = some .idle := by
    rw [step] at hstep
    split_ifs at hstep with hidle
    exact hidle
  obtain ⟨s'', hmore, hbad⟩ := not_exclusive_of_disputed hidle hsel ht'
  refine ⟨[.claim t', .claim t], s'', ?_, hbad⟩
  rw [List.foldlM_append, hrun]
  exact hmore

/-- Two threads that take two peers one after the other. -/
theorem exclusive_of_undisputed_example :
    (∀ pre post s, [Action.scan 0, .claim 0, .scan 1, .claim 1] = pre ++ post →
        pre.foldlM step (startThreads 2 2) = some s → Exclusive s) ∧
      StepsMeet step (startThreads 2 2) [Action.scan 0, .claim 0, .scan 1, .claim 1] ClaimsNoBad ∧
      ∀ s t s', [Action.scan 0, .claim 0, .scan 1, .claim 1].foldlM step (startThreads 2 2) =
          some s →
        step s (.scan t) = some s' → ¬ Undisputed s (.scan t) →
        ∃ more s'', ([Action.scan 0, .claim 0, .scan 1, .claim 1] ++
            Action.scan t :: more).foldlM step (startThreads 2 2) = some s'' ∧
          ¬ Exclusive s'' := by
  have hscan : ∀ (s : Threads) (t : Nat), (∀ p, ThreadState.selected p ∉ s.threads) →
      Undisputed s (.scan t) := fun s t h t' p _ _ t'' ht'' => h p (List.mem_of_getElem? ht'')
  have hclaim : ∀ (s : Threads) (t : Nat), Undisputed s (.claim t) :=
    fun s t t' p h => absurd h (by simp)
  apply exclusive_of_undisputed
  refine stepsMeet_cons_iff.mpr ⟨hscan _ _ (by simp [startThreads]), fun s₁ h₁ => ?_⟩
  obtain rfl := Option.some.inj h₁
  refine stepsMeet_cons_iff.mpr ⟨hclaim _ _, fun s₂ h₂ => ?_⟩
  obtain rfl := Option.some.inj h₂
  refine stepsMeet_cons_iff.mpr ⟨hscan _ _ (by simp [startThreads]), fun s₃ h₃ => ?_⟩
  obtain rfl := Option.some.inj h₃
  exact stepsMeet_cons_iff.mpr ⟨hclaim _ _, fun _ _ => stepsMeet_nil⟩

/-- Two threads that scan before either claims communicate with the one peer there is. -/
theorem two_threads_one_peer :
    [Action.scan 0, .scan 1, .claim 0, .claim 1].foldlM step (startThreads 1 2) =
        some ⟨[.inUse], [.communicating 0, .communicating 0]⟩ ∧
      ¬ Exclusive ⟨[.inUse], [.communicating 0, .communicating 0]⟩ :=
  ⟨by decide, fun h => absurd (h 0 1 0 rfl rfl) (by decide)⟩

end Flood.Client
