import Mathlib.Data.List.Induction
import Mathlib.Tactic.Common

/-!
# Runs of a partial step function

A step function `step : σ → α → Option σ` takes a state and an action to the next state, or to
`none` where the action is not possible. A run is `acts.foldlM step s`.

* `forall_prefix_cons`, `forall_split_cons` — what holds wherever a list is cut, by recursion.
* `foldlM_concat_eq_some_iff` — the last step of a run.
* `StepsMeet step s acts Ok` — every action of the run from `s` meets `Ok` in the state it is taken
  in.
* `invariant_of_stepsMeet` — what holds at first and is kept by the actions that meet `Ok` holds at
  the end of such a run; `invariant_of_steps` — what every action keeps holds at the end of any.
* `exists_run_of_stepsMeet` — if it also makes those actions possible, the run completes.
-/

namespace Flood.Lib

variable {σ α : Type} {step : σ → α → Option σ} {s s' : σ} {acts pre post : List α} {a : α}
  {Ok : σ → α → Prop} {Inv : σ → Prop}

/-! ## Cutting a list -/

/-- A property of all prefixes of a list with a first element. -/
theorem forall_prefix_cons {a : α} {l : List α} {P : List α → Prop} :
    (∀ pre post, a :: l = pre ++ post → P pre) ↔
      P [] ∧ ∀ pre post, l = pre ++ post → P (a :: pre) := by
  constructor
  · intro h
    exact ⟨h [] (a :: l) rfl, fun pre post hl => h (a :: pre) post (by rw [hl]; rfl)⟩
  · rintro ⟨hnil, hcons⟩ pre post hl
    rcases List.cons_eq_append_iff.mp hl with ⟨rfl, _⟩ | ⟨pre, rfl, hl'⟩
    · exact hnil
    · exact hcons pre post hl'

/-- A property of all elements of a list, with what stands before and behind them. -/
theorem forall_split_cons {a : α} {l : List α} {Q : List α → α → List α → Prop} :
    (∀ pre b post, a :: l = pre ++ b :: post → Q pre b post) ↔
      Q [] a l ∧ ∀ pre b post, l = pre ++ b :: post → Q (a :: pre) b post := by
  constructor
  · intro h
    exact ⟨h [] a l rfl, fun pre b post hl => h (a :: pre) b post (by rw [hl]; rfl)⟩
  · rintro ⟨hnil, hcons⟩ pre b post hl
    rcases List.cons_eq_append_iff.mp hl with ⟨rfl, hl'⟩ | ⟨pre, rfl, hl'⟩
    · obtain ⟨rfl, rfl⟩ := List.cons.inj hl'
      exact hnil
    · exact hcons pre b post hl'

/-! ## Runs -/

/-- A run of one more step at the end. -/
theorem foldlM_concat_eq_some_iff :
    (acts ++ [a]).foldlM step s = some s' ↔
      ∃ s₁, acts.foldlM step s = some s₁ ∧ step s₁ a = some s' := by
  rw [List.foldlM_append, Option.bind_eq_bind, Option.bind_eq_some_iff]
  refine exists_congr fun s₁ => and_congr_right fun _ => ?_
  rw [List.foldlM_cons, Option.bind_eq_bind, Option.bind_eq_some_iff]
  simp

/-- Every action of a run is taken in some state. -/
theorem exists_step_of_foldlM (h : acts.foldlM step s = some s') (ha : a ∈ acts) :
    ∃ s₁ s₂, step s₁ a = some s₂ := by
  obtain ⟨pre, post, rfl⟩ := List.append_of_mem ha
  rw [List.foldlM_append, Option.bind_eq_bind, Option.bind_eq_some_iff] at h
  obtain ⟨s₁, -, h⟩ := h
  rw [List.foldlM_cons, Option.bind_eq_bind, Option.bind_eq_some_iff] at h
  obtain ⟨s₂, hstep, -⟩ := h
  exact ⟨s₁, s₂, hstep⟩

/-- Every action of the run meets `Ok` in the state it is taken in. -/
def StepsMeet (step : σ → α → Option σ) (s : σ) (acts : List α) (Ok : σ → α → Prop) : Prop :=
  ∀ pre a post s', acts = pre ++ a :: post → pre.foldlM step s = some s' → Ok s' a

/-- The beginning of a run meets what the run meets. -/
theorem StepsMeet.of_append (h : StepsMeet step s (pre ++ post) Ok) : StepsMeet step s pre Ok := by
  intro pre' a post' s' hpre hrun
  exact h pre' a (post' ++ post) s' (by rw [hpre]; simp) hrun

/-- The last step meets what the run meets. -/
theorem StepsMeet.last (h : StepsMeet step s (acts ++ [a]) Ok) (hrun : acts.foldlM step s = some s') :
    Ok s' a :=
  h acts a [] s' rfl hrun

/-- A run and one more step. -/
theorem StepsMeet.concat (h : StepsMeet step s acts Ok) (hrun : acts.foldlM step s = some s')
    (ha : Ok s' a) : StepsMeet step s (acts ++ [a]) Ok := by
  intro pre b post s₁ hsplit hpre
  rcases List.eq_nil_or_concat post with rfl | ⟨post, c, rfl⟩
  · obtain ⟨rfl, hb⟩ := List.append_inj' hsplit rfl
    obtain rfl := List.singleton_inj.mp hb
    obtain rfl := Option.some.inj (hrun.symm.trans hpre)
    exact ha
  · rw [List.concat_eq_append, ← List.cons_append, ← List.append_assoc] at hsplit
    exact h pre b post s₁ (List.append_inj' hsplit rfl).1 hpre

/-- The empty run meets everything. -/
theorem stepsMeet_nil : StepsMeet step s [] Ok := fun pre a post _ h => absurd h (by simp)

/-- The first step, and the steps after it. -/
theorem stepsMeet_cons_iff :
    StepsMeet step s (a :: acts) Ok ↔
      Ok s a ∧ ∀ s', step s a = some s' → StepsMeet step s' acts Ok := by
  constructor
  · intro h
    refine ⟨h [] a acts s rfl rfl, fun s' ha pre b post s'' hpre hrun => ?_⟩
    apply h (a :: pre) b post s'' (by rw [hpre]; rfl)
    rw [List.foldlM_cons, ha, Option.bind_eq_bind, Option.bind_some, hrun]
  · rintro ⟨hfirst, h⟩ pre b post s'' hpre hrun
    cases pre with
    | nil =>
        obtain rfl := Option.some.inj hrun
        obtain ⟨rfl, _⟩ := List.cons.inj hpre
        exact hfirst
    | cons c pre =>
        obtain ⟨rfl, hpost⟩ := List.cons.inj hpre
        rw [List.foldlM_cons, Option.bind_eq_bind, Option.bind_eq_some_iff] at hrun
        obtain ⟨s', ha, hrun⟩ := hrun
        exact h s' ha pre b post s'' hpost hrun

/-- A condition that can be decided can be decided of a run. -/
instance decidableStepsMeet [∀ s a, Decidable (Ok s a)] :
    ∀ (acts : List α) (s : σ), Decidable (StepsMeet step s acts Ok)
  | [], _ => isTrue stepsMeet_nil
  | a :: acts, s =>
      match h : step s a with
      | none => decidable_of_iff (Ok s a) (by simp [stepsMeet_cons_iff, h])
      | some s' =>
          have := decidableStepsMeet acts s'
          decidable_of_iff (Ok s a ∧ StepsMeet step s' acts Ok) (by simp [stepsMeet_cons_iff, h])

/-- **The invariant rule for runs under a condition on their steps.** -/
theorem invariant_of_stepsMeet (h0 : Inv s)
    (hstep : ∀ s a s', Inv s → Ok s a → step s a = some s' → Inv s')
    (hok : StepsMeet step s acts Ok) (hrun : acts.foldlM step s = some s') : Inv s' := by
  induction acts using List.reverseRecOn generalizing s' with
  | nil =>
      obtain rfl := Option.some.inj hrun
      exact h0
  | append_singleton acts a ih =>
      obtain ⟨s₁, hrun₁, ha⟩ := foldlM_concat_eq_some_iff.mp hrun
      exact hstep s₁ a s' (ih hok.of_append hrun₁) (hok.last hrun₁) ha

/-- **The invariant rule**: what holds at first and is kept by every step holds at the end of a run. -/
theorem invariant_of_steps {I : σ → Prop} (h0 : I s) (hstep : ∀ s a s', I s → step s a = some s' → I s')
    (hrun : acts.foldlM step s = some s') : I s' :=
  @invariant_of_stepsMeet _ _ step s s' acts (fun _ _ => True) I h0
    (fun s a s' hs _ h => hstep s a s' hs h) (fun _ _ _ _ _ _ => trivial) hrun

/-- **The run rule**: a run whose steps meet `Ok` completes, if the invariant makes every such step
possible and is kept by it. -/
theorem exists_run_of_stepsMeet (h0 : Inv s)
    (hstep : ∀ s a, a ∈ acts → Inv s → Ok s a → ∃ s', step s a = some s' ∧ Inv s')
    (hok : StepsMeet step s acts Ok) : ∃ s', acts.foldlM step s = some s' ∧ Inv s' := by
  induction acts generalizing s with
  | nil => exact ⟨s, rfl, h0⟩
  | cons a acts ih =>
      obtain ⟨hfirst, hrest⟩ := stepsMeet_cons_iff.mp hok
      obtain ⟨s₁, ha, h1⟩ := hstep s a List.mem_cons_self h0 hfirst
      obtain ⟨s', hrun, h'⟩ := ih h1
        (fun s b hb => hstep s b (List.mem_cons_of_mem a hb)) (hrest s₁ ha)
      refine ⟨s', ?_, h'⟩
      rw [List.foldlM_cons, ha, Option.bind_eq_bind, Option.bind_some, hrun]

end Flood.Lib
