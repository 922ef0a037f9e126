import Flood.Lib.Runs
import Flood.Lib.Writing
import Mathlib.Algebra.BigOperators.Group.List.Basic

/-!
# Threads around one mutex

Threads that share a state and take turns in any order. A move of a thread acquires the mutex,
releases it, or does something else; a thread that would acquire a mutex that is held has no step.
The states, the threads and the choices left to the environment are arbitrary.

* `Program` — the moves, and which threads stand between an acquisition and a release. A program is
  disciplined by its fields: only a thread outside acquires, only a thread inside releases.
* `Program.step` — one move of one thread; `Program.step_cases` is what it can do.
* `Program.Apart` — the thread inside is the owner of the mutex; `Program.Apart.step`.
* `Assertions` — what holds always, while the mutex is free, and where a thread stands. `Sound` asks
  of single moves that they keep it, those of other threads included; `Sound.hold_of_run` is the rule
  for runs.
* `conserved_of_run` — what the threads and the shared state have together.
* `Sound.count_le_of_held`, `Sound.exists_release` — how long the mutex is held.
-/

namespace Flood.Lib

/-- What a thread does next: what it makes of the shared state and of itself. -/
inductive Move (σ τ : Type) where
  /-- It acquires the mutex. -/
  | acquire (shared : σ) (thread : τ)
  /-- It releases the mutex. -/
  | release (shared : σ) (thread : τ)
  /-- It does neither. -/
  | go (shared : σ) (thread : τ)

namespace Move

variable {σ τ : Type}

/-- The shared state afterwards. -/
def shared : Move σ τ → σ
  | acquire s _ => s
  | release s _ => s
  | go s _ => s

/-- The thread afterwards. -/
def thread : Move σ τ → τ
  | acquire _ l => l
  | release _ l => l
  | go _ l => l

/-- The owner of the mutex after a move of thread `t`. To acquire a mutex that is held is to wait,
and to release a mutex held by another is an error: `none`. -/
def owner (t : Nat) (held : Option Nat) : Move σ τ → Option (Option Nat)
  | acquire _ _ => if held = none then some (some t) else none
  | release _ _ => if held = some t then some none else none
  | go _ _ => some held

end Move

/-- The threads of a program. -/
structure Program (σ τ ι : Type) where
  /-- The next move of thread `t`, for the choice `i` of the environment. -/
  move (t : Nat) (s : σ) (l : τ) (i : ι) : Option (Move σ τ)
  /-- Does the thread stand between an acquisition and a release? -/
  inside (l : τ) : Bool
  /-- A thread outside acquires. -/
  acquires {t : Nat} {s s' : σ} {l l' : τ} {i : ι} :
    move t s l i = some (.acquire s' l') → inside l = false ∧ inside l' = true
  /-- A thread inside releases. -/
  releases {t : Nat} {s s' : σ} {l l' : τ} {i : ι} :
    move t s l i = some (.release s' l') → inside l = true ∧ inside l' = false
  /-- Other moves leave a thread where it is. -/
  goes {t : Nat} {s s' : σ} {l l' : τ} {i : ι} :
    move t s l i = some (.go s' l') → inside l' = inside l

/-- The mutex, the shared state and the threads. -/
structure Monitor (σ τ : Type) where
  /-- The thread that has the mutex. -/
  owner : Option Nat
  /-- The shared state. -/
  shared : σ
  /-- The threads. -/
  threads : List τ

variable {σ τ ι : Type} {P : Program σ τ ι} {m m' : Monitor σ τ} {s s' : σ} {l l' k : τ} {i : ι}
  {t u : Nat} {a : Nat × ι} {acts : List (Nat × ι)}

/-- One move of the thread `a.1`. -/
def Program.step (P : Program σ τ ι) (m : Monitor σ τ) (a : Nat × ι) : Option (Monitor σ τ) := do
  let l ← m.threads[a.1]?
  let move ← P.move a.1 m.shared l a.2
  let owner ← move.owner a.1 m.owner
  some ⟨owner, move.shared, m.threads.set a.1 move.thread⟩

/-- The threads before any of them has moved. -/
def Monitor.start (s : σ) (threads : List τ) : Monitor σ τ := ⟨none, s, threads⟩

/-- A step is a move of a thread that is there. -/
theorem Program.step_eq_some_iff :
    P.step m a = some m' ↔ ∃ l move owner, m.threads[a.1]? = some l ∧
      P.move a.1 m.shared l a.2 = some move ∧ move.owner a.1 m.owner = some owner ∧
      m' = ⟨owner, move.shared, m.threads.set a.1 move.thread⟩ := by
  rw [Program.step]
  simp only [Option.bind_eq_bind, Option.bind_eq_some_iff, Option.some.injEq]
  constructor
  · rintro ⟨l, hl, move, hmove, owner, howner, rfl⟩
    exact ⟨l, move, owner, hl, hmove, howner, rfl⟩
  · rintro ⟨l, move, owner, hl, hmove, howner, rfl⟩
    exact ⟨l, hl, move, hmove, owner, howner, rfl⟩

/-- What a step can do. -/
theorem Program.step_cases (h : P.step m (t, i) = some m') :
    ∃ l s' l', m.threads[t]? = some l ∧
      ((P.move t m.shared l i = some (.acquire s' l') ∧ m.owner = none ∧
          m' = ⟨some t, s', m.threads.set t l'⟩) ∨
        (P.move t m.shared l i = some (.release s' l') ∧ m.owner = some t ∧
          m' = ⟨none, s', m.threads.set t l'⟩) ∨
        (P.move t m.shared l i = some (.go s' l') ∧
          m' = ⟨m.owner, s', m.threads.set t l'⟩)) := by
  obtain ⟨l, move, owner, hl, hmove, howner, rfl⟩ := Program.step_eq_some_iff.mp h
  cases move with
  | acquire s' l' =>
      rw [Move.owner] at howner
      split_ifs at howner with hfree
      obtain rfl := Option.some.inj howner
      exact ⟨l, s', l', hl, Or.inl ⟨hmove, hfree, rfl⟩⟩
  | release s' l' =>
      rw [Move.owner] at howner
      split_ifs at howner with hmine
      obtain rfl := Option.some.inj howner
      exact ⟨l, s', l', hl, Or.inr (Or.inl ⟨hmove, hmine, rfl⟩)⟩
  | go s' l' =>
      rw [Move.owner] at howner
      obtain rfl := Option.some.inj howner
      exact ⟨l, s', l', hl, Or.inr (Or.inr ⟨hmove, rfl⟩)⟩

/-- A release by the owner is a step. -/
theorem Program.step_release (hl : m.threads[t]? = some l)
    (h : P.move t m.shared l i = some (.release s' l')) (howner : m.owner = some t) :
    P.step m (t, i) = some ⟨none, s', m.threads.set t l'⟩ :=
  Program.step_eq_some_iff.mpr ⟨l, _, none, hl, h, if_pos howner, rfl⟩

/-- A move that leaves the mutex alone is a step. -/
theorem Program.step_go (hl : m.threads[t]? = some l)
    (h : P.move t m.shared l i = some (.go s' l')) :
    P.step m (t, i) = some ⟨m.owner, s', m.threads.set t l'⟩ :=
  Program.step_eq_some_iff.mpr ⟨l, _, m.owner, hl, h, rfl, rfl⟩

/-- What every step keeps every run keeps. -/
theorem Program.invariant_of_run {Inv : Monitor σ τ → Prop} (h0 : Inv m)
    (hstep : ∀ m a m', Inv m → P.step m a = some m' → Inv m')
    (hrun : acts.foldlM P.step m = some m') : Inv m' :=
  invariant_of_steps h0 hstep hrun

/-! ## Mutual exclusion -/

/-- The thread that stands inside is the one that has the mutex. -/
structure Program.Apart (P : Program σ τ ι) (m : Monitor σ τ) : Prop where
  /-- A thread stands inside exactly if it has the mutex. -/
  inside_iff : ∀ t l, m.threads[t]? = some l → (P.inside l = true ↔ m.owner = some t)
  /-- The owner is one of the threads. -/
  exists_owner : ∀ t, m.owner = some t → ∃ l, m.threads[t]? = some l

/-- At first every thread stands outside. -/
theorem Program.apart_start {threads : List τ} (h : ∀ l ∈ threads, P.inside l = false) :
    P.Apart (Monitor.start s threads) := by
  constructor
  · intro t l hl
    rw [h l (List.mem_of_getElem? hl)]
    simp [Monitor.start]
  · intro t ht
    exact absurd ht (by simp [Monitor.start])

/-- **One step keeps the threads apart.** -/
theorem Program.Apart.step (hx : P.Apart m) (h : P.step m a = some m') : P.Apart m' := by
  obtain ⟨t, i⟩ := a
  obtain ⟨l, s', l', hl, ⟨hmove, hfree, rfl⟩ | ⟨hmove, hmine, rfl⟩ | ⟨hmove, rfl⟩⟩ :=
    Program.step_cases h
  · have hset := getElem?_set_of_some hl l'
    constructor
    · intro u k hk
      simp only [hset] at hk
      split_ifs at hk with htu
      · obtain rfl := Option.some.inj hk
        simp [(P.acquires hmove).2, htu]
      · rw [hx.inside_iff u k hk, hfree]
        simp [htu]
    · intro u hu
      obtain rfl := Option.some.inj hu
      exact ⟨l', (hset t).trans (if_pos rfl)⟩
  · have hset := getElem?_set_of_some hl l'
    constructor
    · intro u k hk
      simp only [hset] at hk
      split_ifs at hk with htu
      · obtain rfl := Option.some.inj hk
        simp [(P.releases hmove).2]
      · rw [hx.inside_iff u k hk, hmine]
        simp [htu]
    · intro u hu
      exact absurd hu (by simp)
  · have hset := getElem?_set_of_some hl l'
    constructor
    · intro u k hk
      simp only [hset] at hk
      split_ifs at hk with htu
      · obtain rfl := Option.some.inj hk
        obtain rfl := htu
        rw [P.goes hmove]
        exact hx.inside_iff t l hl
      · exact hx.inside_iff u k hk
    · intro u hu
      obtain ⟨k, hk⟩ := hx.exists_owner u hu
      by_cases htu : t = u
      · exact ⟨l', (hset u).trans (if_pos htu)⟩
      · exact ⟨k, (hset u).trans ((if_neg htu).trans hk)⟩

/-- No two threads stand inside. -/
theorem Program.Apart.eq_of_inside (hx : P.Apart m) (hl : m.threads[t]? = some l)
    (hk : m.threads[u]? = some k) (hin : P.inside l = true) (hin' : P.inside k = true) : t = u := by
  have ht := (hx.inside_iff t l hl).mp hin
  rw [(hx.inside_iff u k hk).mp hin'] at ht
  exact (Option.some.inj ht).symm

/-! ## Assertions -/

/-- What is asserted of the shared state. -/
structure Assertions (σ τ : Type) where
  /-- What holds in every state. -/
  always (s : σ) : Prop
  /-- What holds while no thread has the mutex. -/
  free (s : σ) : Prop
  /-- What thread `t` relies on where it stands. -/
  here (t : Nat) (l : τ) (s : σ) : Prop

/-- The assertions hold. -/
structure Assertions.Hold (A : Assertions σ τ) (m : Monitor σ τ) : Prop where
  /-- What holds always. -/
  always : A.always m.shared
  /-- What holds while the mutex is free. -/
  free : m.owner = none → A.free m.shared
  /-- What each thread relies on. -/
  here : ∀ t l, m.threads[t]? = some l → A.here t l m.shared

/-- Every single move keeps the assertions, as long as the shared state is `Ok`. -/
structure Assertions.Sound (A : Assertions σ τ) (P : Program σ τ ι) (Ok : σ → Prop) : Prop where
  /-- A thread that acquires the mutex finds what holds while it is free. -/
  acquire {t : Nat} {s s' : σ} {l l' : τ} {i : ι} : Ok s → A.always s → A.free s → A.here t l s →
    P.move t s l i = some (.acquire s' l') → A.always s' ∧ A.here t l' s'
  /-- A thread that releases the mutex leaves it. -/
  release {t : Nat} {s s' : σ} {l l' : τ} {i : ι} : Ok s → A.always s → A.here t l s →
    P.move t s l i = some (.release s' l') → A.always s' ∧ A.free s' ∧ A.here t l' s'
  /-- Another move leaves it, unless the thread has the mutex. -/
  go {t : Nat} {s s' : σ} {l l' : τ} {i : ι} : Ok s → A.always s → A.here t l s →
    P.move t s l i = some (.go s' l') →
    A.always s' ∧ A.here t l' s' ∧ (P.inside l = false → A.free s → A.free s')
  /-- No move disturbs another thread, if not both have the mutex. -/
  others {t u : Nat} {s : σ} {l k : τ} {i : ι} {move : Move σ τ} : Ok s → A.always s →
    A.here t l s → A.here u k s → t ≠ u → P.move t s l i = some move →
    (P.inside k = true → P.inside l = false ∧ P.inside move.thread = false) →
    A.here u k move.shared

namespace Assertions.Sound

variable {A : Assertions σ τ} {Ok : σ → Prop}

/-- **One step keeps the assertions.** -/
theorem hold_step (h : A.Sound P Ok) (hok : Ok m.shared) (hx : P.Apart m) (hh : A.Hold m)
    (hstep : P.step m a = some m') : A.Hold m' := by
  obtain ⟨t, i⟩ := a
  obtain ⟨l, s', l', hl, hcases⟩ := Program.step_cases hstep
  have hhere := hh.here t l hl
  have hset := getElem?_set_of_some hl l'
  -- the threads other than `t` are where they were
  have hothers : ∀ move, P.move t m.shared l i = some move → move.thread = l' →
      A.here t l' move.shared →
      (∀ u k, u ≠ t → m.threads[u]? = some k → P.inside k = true →
        P.inside l = false ∧ P.inside move.thread = false) →
      ∀ u k, (m.threads.set t l')[u]? = some k → A.here u k move.shared := by
    intro move hmove hthread hself hapart u k hk
    rw [hset] at hk
    split_ifs at hk with htu
    · obtain rfl := Option.some.inj hk
      obtain rfl := htu
      exact hself
    · exact h.others hok hh.always hhere (hh.here u k hk) htu hmove
        (hapart u k (Ne.symm htu) hk)
  rcases hcases with ⟨hmove, hfree, rfl⟩ | ⟨hmove, hmine, rfl⟩ | ⟨hmove, rfl⟩
  · obtain ⟨halways, hself⟩ := h.acquire hok hh.always (hh.free hfree) hhere hmove
    refine ⟨halways, fun hnone => absurd hnone (by simp), ?_⟩
    refine hothers _ hmove rfl hself fun u k _ hk hin => ?_
    rw [hx.inside_iff u k hk, hfree] at hin
    exact absurd hin (by simp)
  · obtain ⟨halways, hfree, hself⟩ := h.release hok hh.always hhere hmove
    refine ⟨halways, fun _ => hfree, ?_⟩
    refine hothers _ hmove rfl hself fun u k hne hk hin => ?_
    rw [hx.inside_iff u k hk, hmine] at hin
    exact absurd (Option.some.inj hin).symm hne
  · obtain ⟨halways, hself, hfree⟩ := h.go hok hh.always hhere hmove
    refine ⟨halways, fun hnone => ?_, ?_⟩
    · refine hfree ?_ (hh.free hnone)
      rw [Bool.eq_false_iff]
      intro hin
      rw [hx.inside_iff t l hl] at hin
      rw [hin] at hnone
      exact absurd hnone (by simp)
    · refine hothers _ hmove rfl hself fun u k hne hk hin => ?_
      have hout : P.inside l = false := by
        rw [Bool.eq_false_iff]
        intro hin'
        exact hne (hx.eq_of_inside hk hl hin hin')
      exact ⟨hout, (P.goes hmove).trans hout⟩

/-- **The rule for runs.** Assertions that hold at first and that every single move keeps hold in
every state of a run. -/
theorem hold_of_run (h : A.Sound P Ok) (hx : P.Apart m) (hh : A.Hold m)
    (hok : StepsMeet P.step m acts fun m _ => Ok m.shared)
    (hrun : acts.foldlM P.step m = some m') : P.Apart m' ∧ A.Hold m' := by
  refine @invariant_of_stepsMeet _ _ P.step m m' acts _ (fun m => P.Apart m ∧ A.Hold m) ⟨hx, hh⟩ ?_
    hok hrun
  intro m₁ a m₂ hi hok₁ hstep
  exact ⟨hi.1.step hstep, h.hold_step hok₁ hi.1 hi.2 hstep⟩

end Assertions.Sound

/-! ## What the threads and the shared state have together -/

/-- One thread of a sum over all. -/
theorem sum_map_set {M : Type} [AddCommMonoid M] (g : τ → M) {threads : List τ}
    (h : threads[t]? = some l) (l' : τ) :
    ∃ rest : M, (threads.map g).sum = rest + g l ∧
      ((threads.set t l').map g).sum = rest + g l' := by
  obtain ⟨hlt, rfl⟩ := List.getElem?_eq_some_iff.mp h
  refine ⟨((threads.take t).map g).sum + ((threads.drop (t + 1)).map g).sum, ?_, ?_⟩
  · conv_lhs => rw [← List.take_append_drop t threads, List.drop_eq_getElem_cons hlt]
    rw [List.map_append, List.sum_append, List.map_cons, List.sum_cons, add_comm (g _), add_assoc]
  · rw [List.set_eq_take_append_cons_drop, if_pos hlt, List.map_append, List.sum_append,
      List.map_cons, List.sum_cons, add_comm (g _), add_assoc]

/-- **The rule of conservation.** If what a move adds to what the shared state and the thread have
together it also adds to `w`, then in every state of a run all of it is `w`. -/
theorem conserved_of_run {M : Type} [AddCommMonoid M] {f w : σ → M} {g : τ → M}
    (hmove : ∀ t s l i move, P.move t s l i = some move →
      ∃ d, f move.shared + g move.thread = f s + g l + d ∧ w move.shared = w s + d)
    (h0 : f m.shared + (m.threads.map g).sum = w m.shared)
    (hrun : acts.foldlM P.step m = some m') :
    f m'.shared + (m'.threads.map g).sum = w m'.shared := by
  refine @Program.invariant_of_run _ _ _ P m m' acts
    (fun m => f m.shared + (m.threads.map g).sum = w m.shared) h0 ?_ hrun
  intro m₁ a m₂ hi hstep
  obtain ⟨l, move, owner, hl, hmv, _, rfl⟩ := Program.step_eq_some_iff.mp hstep
  obtain ⟨d, hd, hw⟩ := hmove _ _ _ _ _ hmv
  obtain ⟨rest, hsum, hsum'⟩ := sum_map_set g hl move.thread
  rw [hsum] at hi
  show f move.shared + ((m₁.threads.set a.1 move.thread).map g).sum = w move.shared
  calc f move.shared + ((m₁.threads.set a.1 move.thread).map g).sum
      = f move.shared + g move.thread + rest := by rw [hsum', add_comm rest, add_assoc]
    _ = f m₁.shared + (rest + g l) + d := by
        rw [hd, add_comm rest, ← add_assoc, add_assoc, add_comm d, ← add_assoc]
    _ = w move.shared := by rw [hi, hw]

/-! ## How long the mutex is held -/

/-- A measure of what a thread that has the mutex still has to do: its own moves lower it, and those
of the threads outside do not raise it. -/
structure Rank (A : Assertions σ τ) (P : Program σ τ ι) (Ok : σ → Prop) where
  /-- The measure. -/
  rank (s : σ) (l : τ) : Nat
  /-- The thread itself lowers it. -/
  own {t : Nat} {s s' : σ} {l l' : τ} {i : ι} : Ok s → A.always s → A.here t l s →
    P.inside l = true → P.move t s l i = some (.go s' l') → rank s' l' < rank s l
  /-- A thread outside does not raise it. -/
  other {t u : Nat} {s s' : σ} {l l' k : τ} {i : ι} : Ok s → A.always s → A.here t l s →
    A.here u k s → P.inside l = false → P.inside k = true →
    P.move t s l i = some (.go s' l') → rank s' k ≤ rank s k

namespace Assertions.Sound

variable {A : Assertions σ τ} {Ok : σ → Prop}

/-- **The mutex is not held for longer than the rank.** In a run throughout which thread `t` has the
mutex it makes at most as many moves as its rank says, whatever the other threads do. -/
theorem count_le_of_held (h : A.Sound P Ok) (R : Rank A P Ok) (hx : P.Apart m)
    (hh : A.Hold m) (hl : m.threads[t]? = some l)
    (hok : StepsMeet P.step m acts fun m _ => Ok m.shared)
    (hheld : ∀ pre post m', acts = pre ++ post → pre.foldlM P.step m = some m' →
      m'.owner = some t)
    (hrun : acts.foldlM P.step m = some m') :
    acts.countP (fun a => a.1 = t) ≤ R.rank m.shared l := by
  induction acts generalizing m l with
  | nil => exact Nat.zero_le _
  | cons a acts ih =>
      obtain ⟨hok₁, hoks⟩ := stepsMeet_cons_iff.mp hok
      rw [List.foldlM_cons, Option.bind_eq_bind, Option.bind_eq_some_iff] at hrun
      obtain ⟨m₁, hstep, hrun⟩ := hrun
      have howner := hheld [] (a :: acts) m rfl rfl
      have howner₁ := hheld [a] acts m₁ rfl (by
        rw [List.foldlM_cons, hstep]
        rfl)
      have hrest : ∀ pre post m', acts = pre ++ post → pre.foldlM P.step m₁ = some m' →
          m'.owner = some t := by
        intro pre post m'' hpre hrun'
        refine hheld (a :: pre) post m'' (by rw [hpre]; rfl) ?_
        rw [List.foldlM_cons, hstep]
        exact hrun'
      have hx₁ := hx.step hstep
      have hh₁ := h.hold_step hok₁ hx hh hstep
      have hin := (hx.inside_iff t l hl).mpr howner
      obtain ⟨u, i⟩ := a
      obtain ⟨k, s', k', hk, ⟨_, hfree, _⟩ | ⟨_, _, rfl⟩ | ⟨hmove, rfl⟩⟩ :=
        Program.step_cases hstep
      · rw [howner] at hfree
        exact absurd hfree (by simp)
      · exact absurd howner₁ (by simp)
      · have hset := getElem?_set_of_some hk k'
        rw [List.countP_cons]
        by_cases htu : u = t
        · obtain rfl := htu
          rw [hl] at hk
          obtain rfl := Option.some.inj hk
          have hown := R.own hok₁ hh.always (hh.here u l hl) hin hmove
          have hle := ih hx₁ hh₁ ((hset u).trans (if_pos rfl)) (hoks _ hstep) hrest hrun
          rw [if_pos (by simp)]
          exact Nat.succ_le_of_lt (Nat.lt_of_le_of_lt hle hown)
        · have hout : P.inside k = false := by
            rw [Bool.eq_false_iff]
            intro hin'
            exact htu (hx.eq_of_inside hk hl hin' hin)
          have hother := R.other hok₁ hh.always (hh.here u k hk) (hh.here t l hl) hout hin hmove
          have hle := ih hx₁ hh₁ ((hset t).trans ((if_neg htu).trans hl)) (hoks _ hstep) hrest hrun
          rw [if_neg (by simpa using htu)]
          exact Nat.le_trans hle hother

/-- **The mutex can be released.** If what holds is kept by the choice `i`, and makes every move of the
owner for it possible, the owner alone frees the mutex, within as many moves as its rank says and one
more. -/
theorem exists_release (h : A.Sound P Ok) (R : Rank A P Ok) (i : ι) {I : Monitor σ τ → Prop}
    (hok : ∀ m, I m → Ok m.shared)
    (hmove : ∀ m l, I m → P.Apart m → A.Hold m → m.threads[t]? = some l → P.inside l = true →
      ∃ move, P.move t m.shared l i = some move)
    (hkeep : ∀ m m', I m → m.owner = some t → P.step m (t, i) = some m' → I m')
    (hi : I m) (hx : P.Apart m) (hh : A.Hold m) (hl : m.threads[t]? = some l)
    (howner : m.owner = some t) :
    ∃ n m', n ≤ R.rank m.shared l + 1 ∧
      (List.replicate n (t, i)).foldlM P.step m = some m' ∧ m'.owner = none := by
  induction hr : R.rank m.shared l using Nat.strongRecOn generalizing m l with
  | _ r ih =>
      subst hr
      have hin := (hx.inside_iff t l hl).mpr howner
      have hhere := hh.here t l hl
      obtain ⟨move, hmv⟩ := hmove m l hi hx hh hl hin
      cases move with
      | acquire s' l' =>
          rw [(P.acquires hmv).1] at hin
          exact absurd hin (by simp)
      | release s' l' =>
          refine ⟨1, ⟨none, s', m.threads.set t l'⟩, Nat.le_add_left 1 _, ?_, rfl⟩
          rw [List.replicate_one, List.foldlM_cons, Program.step_release hl hmv howner]
          rfl
      | go s' l' =>
          have hstep := Program.step_go hl hmv
          have hcons : ∀ n, (List.replicate (n + 1) (t, i)).foldlM P.step m =
              (List.replicate n (t, i)).foldlM P.step ⟨m.owner, s', m.threads.set t l'⟩ := by
            intro n
            rw [List.replicate_succ, List.foldlM_cons, hstep]
            rfl
          have hown := R.own (hok m hi) hh.always hhere hin hmv
          obtain ⟨n, m', hn, hrun, hfree⟩ := ih _ hown (hkeep m _ hi howner hstep) (hx.step hstep)
            (h.hold_step (hok m hi) hx hh hstep) ((getElem?_set_of_some hl l' t).trans (if_pos rfl))
            howner rfl
          exact ⟨n + 1, m', Nat.succ_le_succ (Nat.le_trans hn hown), (hcons n).trans hrun, hfree⟩

end Assertions.Sound

end Flood.Lib
